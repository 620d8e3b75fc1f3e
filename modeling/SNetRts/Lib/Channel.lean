import Mathlib.Algebra.Order.BigOperators.Group.Finset
import Mathlib.Algebra.Order.BigOperators.Group.List
import Mathlib.Data.Fintype.BigOperators
import Mathlib.Algebra.Ring.Int.Defs

/-!
# FIFO channels between the members of a finite index type

One queue for every ordered pair of parties. A message weight `f` is summed over one queue
(`load`) or over all of them (`tally`); sending and receiving change both by the weight of the
message.
-/

namespace Lib

open Finset

def Channels (ι M : Type*) := ι → ι → List M

namespace Channels

variable {ι M : Type*} [DecidableEq ι]

def empty : Channels ι M := fun _ _ => []

/-- The channels with the queue from `a` to `b` replaced. -/
def set (c : Channels ι M) (a b : ι) (q : List M) : Channels ι M :=
  fun a' b' => if a' = a ∧ b' = b then q else c a' b'

/-- Party `a` sends `m` to `b`. -/
def push (c : Channels ι M) (a b : ι) (m : M) : Channels ι M :=
  c.set a b (c a b ++ [m])

/-- Party `a` sends the listed messages in order. -/
def pushAll (c : Channels ι M) (a : ι) : List (ι × M) → Channels ι M
  | [] => c
  | (b, m) :: ms => (c.push a b m).pushAll a ms

theorem set_same (c : Channels ι M) (a b : ι) (q : List M) : c.set a b q a b = q := by
  simp [set]

theorem set_other (c : Channels ι M) {a b a' b' : ι} (q : List M) (h : ¬ (a' = a ∧ b' = b)) :
    c.set a b q a' b' = c a' b' := by
  simp [set, h]

theorem mem_push {c : Channels ι M} {a b a' b' : ι} {m m' : M}
    (h : m' ∈ c.push a b m a' b') : m' ∈ c a' b' ∨ (a' = a ∧ b' = b ∧ m' = m) := by
  unfold push set at h
  split at h
  · rename_i he
    obtain ⟨rfl, rfl⟩ := he
    rcases List.mem_append.1 h with h | h
    · exact Or.inl h
    · exact Or.inr ⟨rfl, rfl, List.mem_singleton.1 h⟩
  · exact Or.inl h

theorem mem_pushAll {c : Channels ι M} {a a' b' : ι} {m' : M} {ms : List (ι × M)}
    (h : m' ∈ c.pushAll a ms a' b') : m' ∈ c a' b' ∨ (a' = a ∧ (b', m') ∈ ms) := by
  induction ms generalizing c with
  | nil => exact Or.inl h
  | cons bm ms ih =>
    obtain ⟨b, m⟩ := bm
    rcases ih h with h | ⟨ha, h⟩
    · rcases mem_push h with h | ⟨rfl, rfl, rfl⟩
      · exact Or.inl h
      · exact Or.inr ⟨rfl, List.mem_cons_self⟩
    · exact Or.inr ⟨ha, List.mem_cons_of_mem _ h⟩

/-- The weight of the messages from `a` to `b`. -/
def load (f : M → ℤ) (c : Channels ι M) (a b : ι) : ℤ := ((c a b).map f).sum

theorem load_set_cons {f : M → ℤ} {c : Channels ι M} {a b : ι} {m : M} {q : List M}
    (h : c a b = m :: q) (a' b' : ι) :
    load f (c.set a b q) a' b' = load f c a' b' - if a' = a ∧ b' = b then f m else 0 := by
  unfold load set
  split
  · rename_i he
    obtain ⟨rfl, rfl⟩ := he
    simp [h]
  · simp

theorem load_push (f : M → ℤ) (c : Channels ι M) (a b : ι) (m : M) (a' b' : ι) :
    load f (c.push a b m) a' b' = load f c a' b' + if a' = a ∧ b' = b then f m else 0 := by
  unfold load push set
  split
  · rename_i he
    obtain ⟨rfl, rfl⟩ := he
    simp
  · simp

theorem load_pushAll (f : M → ℤ) (c : Channels ι M) (a : ι) (ms : List (ι × M)) (a' b' : ι) :
    load f (c.pushAll a ms) a' b' = load f c a' b' +
      if a' = a then (ms.map fun p => if p.1 = b' then f p.2 else 0).sum else 0 := by
  induction ms generalizing c with
  | nil => simp [pushAll]
  | cons bm ms ih =>
    obtain ⟨b, m⟩ := bm
    rw [pushAll, ih, load_push]
    by_cases ha : a' = a
    · by_cases hb : b' = b
      · simp [ha, hb, add_assoc]
      · have hb' : ¬ b = b' := fun h => hb h.symm
        simp [ha, hb, hb']
    · simp [ha]

omit [DecidableEq ι] in
theorem load_nonneg {f : M → ℤ} (hf : ∀ m, 0 ≤ f m) (c : Channels ι M) (a b : ι) :
    0 ≤ load f c a b := by
  unfold load
  exact List.sum_nonneg (by simpa using fun m _ => hf m)

omit [DecidableEq ι] in
theorem load_pos {f : M → ℤ} (hf : ∀ m, 0 ≤ f m) {c : Channels ι M} {a b : ι} {m : M}
    (hm : m ∈ c a b) (hp : 0 < f m) : 0 < load f c a b := by
  unfold load
  obtain ⟨q, r, h⟩ := List.append_of_mem hm
  have hq := List.sum_nonneg (l := q.map f) (by simpa using fun m _ => hf m)
  have hr := List.sum_nonneg (l := r.map f) (by simpa using fun m _ => hf m)
  rw [h, List.map_append, List.map_cons, List.sum_append, List.sum_cons]
  omega

variable [Fintype ι]

def tally (f : M → ℤ) (c : Channels ι M) : ℤ := ∑ a, ∑ b, load f c a b

theorem sum_sum_ite (a b : ι) (x : ℤ) :
    (∑ a', ∑ b', if a' = a ∧ b' = b then x else 0) = x := by
  simp [ite_and]

theorem tally_set_cons {f : M → ℤ} {c : Channels ι M} {a b : ι} {m : M} {q : List M}
    (h : c a b = m :: q) : tally f (c.set a b q) = tally f c - f m := by
  unfold tally
  simp only [load_set_cons h, sum_sub_distrib, sum_sum_ite]

theorem tally_push (f : M → ℤ) (c : Channels ι M) (a b : ι) (m : M) :
    tally f (c.push a b m) = tally f c + f m := by
  unfold tally
  simp only [load_push, sum_add_distrib, sum_sum_ite]

theorem tally_pushAll (f : M → ℤ) (c : Channels ι M) (a : ι) (ms : List (ι × M)) :
    tally f (c.pushAll a ms) = tally f c + (ms.map fun p => f p.2).sum := by
  induction ms generalizing c with
  | nil => simp [pushAll]
  | cons bm ms ih =>
    obtain ⟨b, m⟩ := bm
    rw [pushAll, ih, tally_push, List.map_cons, List.sum_cons, add_assoc]

omit [DecidableEq ι] in
theorem tally_nonneg {f : M → ℤ} (hf : ∀ m, 0 ≤ f m) (c : Channels ι M) : 0 ≤ tally f c :=
  sum_nonneg fun a _ => sum_nonneg fun b _ => load_nonneg hf c a b

omit [DecidableEq ι] in
theorem load_le_tally {f : M → ℤ} (hf : ∀ m, 0 ≤ f m) (c : Channels ι M) (a b : ι) :
    load f c a b ≤ tally f c :=
  calc load f c a b ≤ ∑ b', load f c a b' :=
        single_le_sum (f := fun b' => load f c a b') (fun b' _ => load_nonneg hf c a b')
          (mem_univ b)
    _ ≤ tally f c :=
        single_le_sum (f := fun a' => ∑ b', load f c a' b')
          (fun a' _ => sum_nonneg fun b' _ => load_nonneg hf c a' b') (mem_univ a)

omit [DecidableEq ι] [Fintype ι] in
theorem load_congr {f g : M → ℤ} {c : Channels ι M} {a b : ι} (h : ∀ m ∈ c a b, f m = g m) :
    load f c a b = load g c a b := by
  unfold load
  rw [List.map_congr_left h]

omit [DecidableEq ι] in
theorem tally_congr {f g : M → ℤ} {c : Channels ι M} (h : ∀ a b, ∀ m ∈ c a b, f m = g m) :
    tally f c = tally g c :=
  sum_congr rfl fun a _ => sum_congr rfl fun b _ => load_congr (h a b)

omit [DecidableEq ι] in
theorem tally_add (f g : M → ℤ) (c : Channels ι M) :
    tally (fun m => f m + g m) c = tally f c + tally g c := by
  unfold tally load
  simp only [List.sum_map_add, sum_add_distrib]

omit [DecidableEq ι] in
theorem tally_neg (f : M → ℤ) (c : Channels ι M) : tally (fun m => - f m) c = - tally f c := by
  have h := tally_add f (fun m => - f m) c
  have h0 : tally (fun m => f m + - f m) c = 0 := by
    unfold tally load
    simp
  omega

omit [DecidableEq ι] in
theorem tally_eq_sum_to {f : M → ℤ} {c : Channels ι M} {b : ι}
    (h : ∀ a b', ∀ m ∈ c a b', b' ≠ b → f m = 0) : tally f c = ∑ a, load f c a b :=
  sum_congr rfl fun a _ => sum_eq_single b
    (fun b' _ hb => by
      rw [load_congr (g := fun _ => 0) fun m hm => h a b' m hm hb]
      simp [load])
    (fun hb => absurd (mem_univ b) hb)

omit [DecidableEq ι] in
theorem tally_eq_sum_from {f : M → ℤ} {c : Channels ι M} {a : ι}
    (h : ∀ a' b, ∀ m ∈ c a' b, a' ≠ a → f m = 0) : tally f c = ∑ b, load f c a b :=
  sum_eq_single a
    (fun a' _ ha => sum_eq_zero fun b _ => by
      rw [load_congr (g := fun _ => 0) fun m hm => h a' b m hm ha]
      simp [load])
    (fun ha => absurd (mem_univ a) ha)

end Channels

end Lib
