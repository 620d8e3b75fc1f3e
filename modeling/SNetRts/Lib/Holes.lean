import SNetRts.Lib.Circular
import SNetRts.Lib.Window
import Mathlib.Data.List.ReduceOption

/-!
# Sequences with holes

Elements are taken out of the middle of a circular buffer by leaving a hole. What is left is the list of
the cells without the holes (`List.reduceOption`). One goes from element to element over the holes
between them; a buffer is closed up by moving what follows its first hole by one cell.
-/

namespace Lib

open List

/-! ## One cell of a circular buffer -/

namespace Circular.Holds

variable {α : Type*} {size start stop : Nat} {mem : Nat → α} {l : List α} {x : α}

theorem slot_inj {i j : Nat} (hi : i < size) (hj : j < size) (heq : (start + i) % size = (start + j) % size) :
    i = j := by
  by_contra hne
  exact slot_ne start hi hj hne heq

theorem snoc (h : Holds size mem start stop l) (hroom : l.length + 1 < size) :
    Holds size (Function.update mem stop x) start ((stop + 1) % size) (l ++ [x]) := by
  refine ⟨h.start_lt, by simpa using hroom, ?_, ?_⟩
  · rw [h.stop_eq, length_append, length_singleton, Nat.mod_add_mod, Nat.add_assoc]
  · intro i hi
    rw [length_append, length_singleton] at hi
    rw [h.stop_eq]
    by_cases hil : i < l.length
    · rw [Function.update_of_ne (slot_ne start (by omega) h.short (by omega)), h.cell i hil,
        getElem_append_left hil]
    · obtain rfl : i = l.length := by omega
      rw [Function.update_self]
      simp

theorem update_free (h : Holds size mem start stop l) {i : Nat} (hi : l.length ≤ i) (hlt : i < size) :
    Holds size (Function.update mem ((start + i) % size) x) start stop l := by
  refine ⟨h.start_lt, h.short, h.stop_eq, ?_⟩
  intro j hj
  rw [Function.update_of_ne (slot_ne start (by omega) hlt (by omega))]
  exact h.cell j hj

theorem set (h : Holds size mem start stop l) {i : Nat} (hi : i < l.length) :
    Holds size (Function.update mem ((start + i) % size) x) start stop (l.set i x) := by
  have hshort := h.short
  refine ⟨h.start_lt, by rwa [length_set], by rw [length_set]; exact h.stop_eq, ?_⟩
  intro j hj
  rw [length_set] at hj
  by_cases hij : i = j
  · subst hij
    rw [Function.update_self, getElem_set_self]
  · rw [Function.update_of_ne (slot_ne start (by omega) (by omega) (Ne.symm hij)),
      getElem_set_ne hij]
    exact h.cell j hj

theorem drop (h : Holds size mem start stop l) {n : Nat} (hn : n ≤ l.length) :
    Holds size mem ((start + n) % size) stop (l.drop n) := by
  have hshort := h.short
  refine ⟨Nat.mod_lt _ (by omega), by rw [length_drop]; omega, ?_, ?_⟩
  · rw [h.stop_eq, length_drop, Nat.mod_add_mod, Nat.add_assoc, Nat.add_sub_cancel' hn]
  · intro i hi
    rw [length_drop] at hi
    rw [Nat.mod_add_mod, Nat.add_assoc, getElem_drop]
    exact h.cell (n + i) (by omega)

theorem take (h : Holds size mem start stop l) {n : Nat} (hn : n ≤ l.length) :
    Holds size mem start ((start + n) % size) (l.take n) := by
  have hshort := h.short
  have hlen : (l.take n).length = n := length_take_of_le hn
  refine ⟨h.start_lt, by omega, by rw [hlen], ?_⟩
  intro i hi
  rw [getElem_take]
  exact h.cell i (by omega)

theorem cell? (h : Holds size mem start stop l) {i : Nat} (hi : i < l.length) :
    l[i]? = some (mem ((start + i) % size)) := by
  rw [h.cell i hi, getElem?_eq_getElem hi]

theorem slot_eq_stop_iff (h : Holds size mem start stop l) {i : Nat} (hi : i ≤ l.length) :
    (start + i) % size = stop ↔ i = l.length := by
  have hshort := h.short
  rw [h.stop_eq]
  constructor
  · exact slot_inj (by omega) hshort
  · rintro rfl
    rfl

end Circular.Holds

/-! ## Lists with holes -/

namespace Holes

variable {α : Type*} {cs : List (Option α)} {k i : Nat} {v : α}

def gap (cs : List (Option α)) : Nat := (cs.takeWhile Option.isNone).length

@[simp] theorem gap_nil : gap ([] : List (Option α)) = 0 := rfl

@[simp] theorem gap_none : gap (none :: cs) = gap cs + 1 := by simp [gap]

@[simp] theorem gap_some : gap (some v :: cs) = 0 := by simp [gap]

theorem gap_le : gap cs ≤ cs.length := List.Sublist.length_le (takeWhile_sublist _)

theorem reduceOption_drop_gap : (cs.drop (gap cs)).reduceOption = cs.reduceOption := by
  induction cs with
  | nil => rfl
  | cons c cs ih =>
    cases c with
    | none => rw [gap_none, drop_succ_cons, ih, reduceOption_cons_of_none]
    | some v => rw [gap_some, drop_zero]

theorem head?_drop_gap : (cs.drop (gap cs)).head? ≠ some none := by
  induction cs with
  | nil => nofun
  | cons c cs ih =>
    cases c with
    | none => rwa [gap_none, drop_succ_cons]
    | some v => simp

/-- The places of the elements, counted from `k`. -/
def occupied : Nat → List (Option α) → List Nat
  | _, [] => []
  | k, none :: cs => occupied (k + 1) cs
  | k, some _ :: cs => k :: occupied (k + 1) cs

theorem occupied_drop_gap : occupied (k + gap cs) (cs.drop (gap cs)) = occupied k cs := by
  induction cs generalizing k with
  | nil => rfl
  | cons c cs ih =>
    cases c with
    | none =>
      rw [gap_none, drop_succ_cons, occupied, ← ih]
      congr 1
      omega
    | some v => rw [gap_some, drop_zero, Nat.add_zero]

theorem getElem?_occupied {n : Nat} (h : (occupied k cs)[n]? = some i) :
    k ≤ i ∧ ∃ v, cs[i - k]? = some (some v) ∧ cs.reduceOption[n]? = some v ∧
      (cs.set (i - k) none).reduceOption = cs.reduceOption.eraseIdx n := by
  induction cs generalizing k n with
  | nil => simp [occupied] at h
  | cons c cs ih =>
    cases c with
    | none =>
      obtain ⟨hle, v, hcell, hread, herase⟩ := ih h
      obtain ⟨j, hj⟩ : ∃ j, i - k = j + 1 := ⟨i - (k + 1), by omega⟩
      have hj' : i - (k + 1) = j := by omega
      rw [hj'] at hcell herase
      refine ⟨by omega, v, ?_, ?_, ?_⟩
      · rwa [hj, getElem?_cons_succ]
      · rwa [reduceOption_cons_of_none]
      · rw [hj, set_cons_succ, reduceOption_cons_of_none, reduceOption_cons_of_none, herase]
    | some w =>
      cases n with
      | zero =>
        rw [occupied, getElem?_cons_zero] at h
        cases h
        refine ⟨Nat.le_refl _, w, ?_, ?_, ?_⟩
        · rw [Nat.sub_self, getElem?_cons_zero]
        · rw [reduceOption_cons_of_some, getElem?_cons_zero]
        · rw [Nat.sub_self, set_cons_zero, reduceOption_cons_of_none,
            reduceOption_cons_of_some, eraseIdx_cons_zero]
      | succ n =>
        rw [occupied, getElem?_cons_succ] at h
        obtain ⟨hle, v, hcell, hread, herase⟩ := ih h
        obtain ⟨j, hj⟩ : ∃ j, i - k = j + 1 := ⟨i - (k + 1), by omega⟩
        have hj' : i - (k + 1) = j := by omega
        rw [hj'] at hcell herase
        refine ⟨by omega, v, ?_, ?_, ?_⟩
        · rwa [hj, getElem?_cons_succ]
        · rwa [reduceOption_cons_of_some, getElem?_cons_succ]
        · rw [hj, set_cons_succ, reduceOption_cons_of_some, reduceOption_cons_of_some,
            eraseIdx_cons_succ, herase]

theorem mem_occupied {j : Nat} (h : cs[j]? = some (some v)) : k + j ∈ occupied k cs := by
  induction cs generalizing k j with
  | nil => simp at h
  | cons c cs ih =>
    cases j with
    | zero =>
      rw [getElem?_cons_zero] at h
      cases h
      exact mem_cons_self
    | succ j =>
      have hmem := ih (k := k + 1) h
      have hassoc : k + 1 + j = k + (j + 1) := by omega
      rw [hassoc] at hmem
      cases c with
      | none => exact hmem
      | some w => exact mem_cons_of_mem _ hmem

theorem length_occupied : (occupied k cs).length = cs.reduceOption.length := by
  induction cs generalizing k with
  | nil => rfl
  | cons c cs ih =>
    cases c with
    | none => rw [occupied, ih, reduceOption_cons_of_none]
    | some w => rw [occupied, length_cons, ih, reduceOption_cons_of_some, length_cons]

/-! ### Closing up -/

def squeeze : List (Option α) → List (Option α)
  | [] => []
  | none :: cs => cs
  | some v :: cs => some v :: squeeze cs

theorem squeeze_eq (pre : List α) (post : List (Option α)) :
    squeeze (pre.map some ++ none :: post) = pre.map some ++ post := by
  induction pre with
  | nil => rfl
  | cons v pre ih => rw [map_cons, cons_append, squeeze, ih, cons_append]

theorem exists_hole (h : cs.reduceOption.length < cs.length) :
    ∃ (pre : List α) (post : List (Option α)), cs = pre.map some ++ none :: post := by
  induction cs with
  | nil => simp at h
  | cons c cs ih =>
    cases c with
    | none => exact ⟨[], cs, rfl⟩
    | some v =>
      rw [reduceOption_cons_of_some, length_cons, length_cons] at h
      obtain ⟨pre, post, rfl⟩ := ih (by omega)
      exact ⟨v :: pre, post, rfl⟩

theorem eq_map_some (h : cs.reduceOption.length = cs.length) : cs = cs.reduceOption.map some := by
  induction cs with
  | nil => rfl
  | cons c cs ih =>
    cases c with
    | none =>
      have := cs.reduceOption_length_le
      rw [reduceOption_cons_of_none, length_cons] at h
      omega
    | some v =>
      rw [reduceOption_cons_of_some, length_cons, length_cons] at h
      rw [reduceOption_cons_of_some, map_cons, ← ih (by omega)]

theorem reduceOption_map_some (xs : List α) : (xs.map some).reduceOption = xs := by
  induction xs with
  | nil => rfl
  | cons x xs ih => rw [map_cons, reduceOption_cons_of_some, ih]

def holesBeforeLast : List (Option α) → Nat
  | [] => 0
  | some _ :: cs => holesBeforeLast cs
  | none :: cs => if cs.reduceOption.isEmpty then 0 else holesBeforeLast cs + 1

theorem take_iff : (cs.take cs.reduceOption.length).reduceOption = cs.reduceOption ↔ holesBeforeLast cs = 0 := by
  induction cs with
  | nil => exact iff_of_true rfl rfl
  | cons c cs ih =>
    cases c with
    | some v =>
      rw [reduceOption_cons_of_some, length_cons, take_succ_cons,
        reduceOption_cons_of_some, cons_inj_right, ih, holesBeforeLast]
    | none =>
      rw [reduceOption_cons_of_none, holesBeforeLast]
      rcases hxs : cs.reduceOption with _ | ⟨v, xs⟩
      · exact iff_of_true rfl rfl
      · -- the hole takes the place of an element
        refine iff_of_false ?_ (by simp)
        rw [length_cons, take_succ_cons, reduceOption_cons_of_none]
        intro heq
        have hle := (cs.take xs.length).reduceOption_length_le
        have htake := length_take_le xs.length cs
        rw [heq, length_cons] at hle
        omega

theorem take_squeeze_iff :
    ((squeeze cs).take cs.reduceOption.length).reduceOption = cs.reduceOption ↔ holesBeforeLast cs ≤ 1 := by
  induction cs with
  | nil => exact iff_of_true rfl (Nat.zero_le _)
  | cons c cs ih =>
    cases c with
    | some v =>
      rw [squeeze, reduceOption_cons_of_some, length_cons, take_succ_cons,
        reduceOption_cons_of_some, cons_inj_right, ih, holesBeforeLast]
    | none =>
      rw [squeeze, reduceOption_cons_of_none, take_iff, holesBeforeLast]
      split
      case isTrue hempty =>
        rw [List.isEmpty_iff] at hempty
        refine iff_of_true (take_iff.1 ?_) (Nat.zero_le _)
        rw [hempty]
        rfl
      case isFalse => omega

end Holes

end Lib
