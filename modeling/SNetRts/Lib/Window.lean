import Mathlib.Data.Nat.ModEq
import Mathlib.Tactic.Ring

/-!
# Windows onto circular arrays

The elements of a list lie in an array one behind the other from the slot `start` on, and go on at the
first slot behind the last one. All slots may be taken. Slots hold `none` until they are written.
Elements are put in, taken out and moved at both ends, and an array without a free slot is unwrapped
into a longer one.
-/

namespace Lib

open List

variable {α : Type*}

/-- The list `l` lies in the array from `start` on. -/
structure Window (mem : List (Option α)) (start : Nat) (l : List α) : Prop where
  short : l.length ≤ mem.length
  cell : ∀ i (h : i < l.length), mem[(start + i) % mem.length]? = some (some l[i])

theorem slot_ne {n i j : Nat} (start : Nat) (hi : i < n) (hj : j < n) (hne : i ≠ j) :
    (start + i) % n ≠ (start + j) % n := by
  intro heq
  have hmod : i % n = j % n := Nat.ModEq.add_left_cancel' start heq
  rw [Nat.mod_eq_of_lt hi, Nat.mod_eq_of_lt hj] at hmod
  exact hne hmod

theorem slot_eq {n start i : Nat} (hstart : start ≤ n) (hi : i < n) :
    (start + i) % n = if start + i < n then start + i else start + i - n := by
  split
  case isTrue h => exact Nat.mod_eq_of_lt h
  case isFalse h =>
    rw [Nat.mod_eq_sub_mod (Nat.le_of_not_lt h), Nat.mod_eq_of_lt (by omega)]

theorem slot_pred {n start : Nat} (hn : 0 < n) (i : Nat) :
    ((start + n - 1) % n + (i + 1)) % n = (start + i) % n := by
  rw [Nat.mod_add_mod, show start + n - 1 + (i + 1) = start + i + n by omega, Nat.add_mod_right]

theorem period_unique {a b s t : Nat} (hs : s < a) (ht : t < b)
    (h : ∀ m, a < m → b < m → ((s + m) % a = 0 ↔ (t + m) % b = 0)) : a = b ∧ s = t := by
  have hdvd : ∀ {a b s t : Nat}, s < a →
      (∀ m, a < m → b < m → (s + m) % a = 0 → (t + m) % b = 0) → b ∣ a ∧ ∃ m, (s + m) % a = 0 ∧ (t + m) % b = 0 := by
    intro a b s t hs h
    have hpos : 1 ≤ a := by omega
    have hmul : a * (b + 2) = a * b + a + a := by ring
    have hge : b ≤ a * b := Nat.le_mul_of_pos_left b hpos
    have hm : s + (a * (b + 2) - s) = a * (b + 2) := by omega
    have hm' : s + (a * (b + 2) - s + a) = a * (b + 3) := by
      rw [show a * (b + 3) = a * (b + 2) + a by ring]
      omega
    have h1 := h (a * (b + 2) - s) (by omega) (by omega) (by rw [hm, Nat.mul_mod_right])
    have h2 := h (a * (b + 2) - s + a) (by omega) (by omega) (by rw [hm', Nat.mul_mod_right])
    refine ⟨?_, a * (b + 2) - s, by rw [hm, Nat.mul_mod_right], h1⟩
    rw [← Nat.add_assoc] at h2
    exact (Nat.dvd_add_right (Nat.dvd_of_mod_eq_zero h1)).1 (Nat.dvd_of_mod_eq_zero h2)
  obtain ⟨hba, m, hm, hm'⟩ := hdvd hs fun m h1 h2 => (h m h1 h2).1
  obtain ⟨hab, -⟩ := hdvd ht fun m h1 h2 => (h m h2 h1).2
  obtain rfl := Nat.dvd_antisymm hab hba
  refine ⟨rfl, ?_⟩
  have hmod : (s + m) % a = (t + m) % a := hm.trans hm'.symm
  have : s % a = t % a := Nat.ModEq.add_right_cancel' m hmod
  rwa [Nat.mod_eq_of_lt hs, Nat.mod_eq_of_lt ht] at this

namespace Window

variable {mem : List (Option α)} {start : Nat} {l : List α} {v : α}

theorem nil (mem : List (Option α)) (start : Nat) : Window mem start [] :=
  ⟨Nat.zero_le _, fun _ h => absurd h (Nat.not_lt_zero _)⟩

theorem of_append (pre post : List (Option α)) (l : List α) :
    Window (pre ++ (l.map some ++ post)) pre.length l := by
  refine ⟨by simp only [length_append, length_map]; omega, fun i hi => ?_⟩
  rw [Nat.mod_eq_of_lt (by simp only [length_append, length_map]; omega),
    getElem?_append_right (Nat.le_add_right _ _), Nat.add_sub_cancel_left,
    getElem?_append_left (by rwa [length_map]), getElem?_map,
    getElem?_eq_getElem hi]
  rfl

theorem pos (h : Window mem start l) {i : Nat} (hi : i < l.length) : 0 < mem.length :=
  Nat.lt_of_lt_of_le (Nat.zero_lt_of_lt hi) h.short

theorem set_free (h : Window mem start l) {i : Nat} (hi : l.length ≤ i) (hlt : i < mem.length)
    (x : Option α) : Window (mem.set ((start + i) % mem.length) x) start l := by
  refine ⟨by rw [length_set]; exact h.short, fun j hj => ?_⟩
  have hne := slot_ne start hlt (by omega : j < mem.length) (by omega : i ≠ j)
  rw [length_set, getElem?_set_ne hne]
  exact h.cell j hj

theorem append (h : Window mem start l) (hroom : l.length < mem.length) :
    Window (mem.set ((start + l.length) % mem.length) (some v)) start (l ++ [v]) := by
  have hset := h.set_free (Nat.le_refl _) hroom (some v)
  refine ⟨?_, fun i hi => ?_⟩
  · rw [length_append, length_set]
    exact hroom
  · by_cases hil : i < l.length
    · rw [getElem_append_left hil]
      exact hset.cell i hil
    · have heq : i = l.length := by
        rw [length_append, length_singleton] at hi
        omega
      subst heq
      have hslot : (start + l.length) % mem.length < mem.length := Nat.mod_lt _ (by omega)
      rw [length_set, getElem?_set_self hslot]
      simp

theorem dropLast (h : Window mem start (l ++ [v])) : Window mem start l := by
  have hshort := h.short
  rw [length_append, length_singleton] at hshort
  refine ⟨by omega, fun i hi => ?_⟩
  have hcell := h.cell i (by rw [length_append]; omega)
  rwa [getElem_append_left hi] at hcell

theorem tail (h : Window mem start (v :: l)) : Window mem ((start + 1) % mem.length) l := by
  have hshort := h.short
  rw [length_cons] at hshort
  refine ⟨by omega, fun i hi => ?_⟩
  have hcell := h.cell (i + 1) (by rw [length_cons]; omega)
  rw [getElem_cons_succ] at hcell
  rw [Nat.mod_add_mod, Nat.add_assoc, Nat.add_comm 1 i]
  exact hcell

theorem head (h : Window mem start (v :: l)) : mem[start % mem.length]? = some (some v) :=
  h.cell 0 (Nat.zero_lt_succ _)

theorem cons (h : Window mem start l) (hroom : l.length < mem.length) :
    Window (mem.set ((start + mem.length - 1) % mem.length) (some v))
      ((start + mem.length - 1) % mem.length) (v :: l) := by
  have hpos : 0 < mem.length := Nat.zero_lt_of_lt hroom
  have hslot : (start + mem.length - 1) % mem.length < mem.length := Nat.mod_lt _ hpos
  refine ⟨?_, fun i hi => ?_⟩
  · rw [length_cons, length_set]
    exact hroom
  · rw [length_set]
    cases i with
    | zero =>
      rw [Nat.add_zero, Nat.mod_mod, getElem?_set_self hslot]
      rfl
    | succ i =>
      rw [length_cons] at hi
      have hne := slot_ne ((start + mem.length - 1) % mem.length) hpos
        (by omega : i + 1 < mem.length) (by omega)
      rw [Nat.add_zero, Nat.mod_mod] at hne
      rw [getElem?_set_ne hne, slot_pred hpos, getElem_cons_succ]
      exact h.cell i (by omega)

theorem shift {a b : List α} {x y : α} (h : Window mem start (a ++ x :: y :: b)) :
    Window (mem.set ((start + a.length) % mem.length) (some y)) start (a ++ y :: y :: b) := by
  have hlen : (a ++ x :: y :: b).length = a.length + b.length + 2 := by simp; omega
  have hlen' : (a ++ y :: y :: b).length = a.length + b.length + 2 := by simp; omega
  have hshort := h.short
  rw [hlen] at hshort
  refine ⟨by rw [hlen', length_set]; exact hshort, fun i hi => ?_⟩
  rw [hlen'] at hi
  rw [length_set]
  by_cases hia : i = a.length
  · subst hia
    rw [getElem?_set_self (Nat.mod_lt _ (by omega))]
    simp
  · have hne := slot_ne start (by omega : a.length < mem.length)
      (by omega : i < mem.length) (Ne.symm hia)
    rw [getElem?_set_ne hne, h.cell i (by omega)]
    congr 2
    rcases Nat.lt_or_gt_of_ne hia with hlt | hgt
    · rw [getElem_append_left hlt, getElem_append_left hlt]
    · rw [getElem_append_right (by omega), getElem_append_right (by omega)]
      obtain ⟨k, hk⟩ : ∃ k, i - a.length = k + 1 := ⟨i - a.length - 1, by omega⟩
      simp [hk]

theorem unwrap (h : Window mem start l) (hstart : start ≤ mem.length)
    (hfull : l.length = mem.length) : mem.drop start ++ mem.take start = l.map some := by
  refine ext_getElem? fun i => ?_
  rcases Nat.lt_or_ge i l.length with hi | hi
  · have hcell := h.cell i hi
    rw [slot_eq hstart (by omega)] at hcell
    rw [getElem?_map, getElem?_eq_getElem hi, Option.map_some, ← hcell]
    split
    case isTrue hlt =>
      rw [getElem?_append_left (by rw [length_drop]; omega), getElem?_drop]
    case isFalse hge =>
      rw [getElem?_append_right (by rw [length_drop]; omega), length_drop,
        getElem?_take_of_lt (by omega)]
      congr 1
      omega
  · rw [getElem?_eq_none (by simp; omega), getElem?_eq_none (by simp; omega)]

end Window

end Lib
