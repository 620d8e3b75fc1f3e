import Mathlib.Data.List.Basic

/-!
# Circular buffers

`size` cells with the position `start` of the first element and the position `stop` behind the last one.
One cell is always free, so that the buffer is empty if and only if the two are equal. Elements are
copied in pieces that do not go over the last cell; `free` is how long such a piece may be at `stop`.
-/

namespace Lib.Circular

open List

variable {α : Type*}

/-- The cells when `xs` has been copied to the position `pos` and those behind it. -/
def store (mem : Nat → α) (pos : Nat) (xs : List α) (i : Nat) : α :=
  if pos ≤ i then (xs[i - pos]?).getD (mem i) else mem i

/-- What is in `n` cells from `pos` on. -/
def fetch (mem : Nat → α) (pos n : Nat) : List α := (List.range n).map fun i => mem (pos + i)

/-- How many elements can be copied to `stop` in one piece. -/
def free (size start stop : Nat) : Nat :=
  if stop < start then start - stop - 1 else size - stop - (if start = 0 then 1 else 0)

/-- The buffer contains `l`. -/
structure Holds (size : Nat) (mem : Nat → α) (start stop : Nat) (l : List α) : Prop where
  start_lt : start < size
  short : l.length < size
  stop_eq : stop = (start + l.length) % size
  cell : ∀ i (h : i < l.length), mem ((start + i) % size) = l[i]

theorem add_mod {a b n : Nat} (ha : a < n) (hb : b < n) :
    (a + b) % n = if a + b < n then a + b else a + b - n := by
  split
  case isTrue h => exact Nat.mod_eq_of_lt h
  case isFalse h =>
    rw [Nat.mod_eq_sub_mod (Nat.le_of_not_lt h), Nat.mod_eq_of_lt (by omega)]

theorem store_of_lt {mem : Nat → α} {pos i : Nat} {xs : List α} (h : i < pos) :
    store mem pos xs i = mem i := if_neg (Nat.not_le_of_lt h)

theorem store_of_ge {mem : Nat → α} {pos i : Nat} {xs : List α} (h : pos + xs.length ≤ i) :
    store mem pos xs i = mem i := by
  unfold store
  rw [if_pos (by omega), getElem?_eq_none (by omega)]
  rfl

theorem store_add {mem : Nat → α} {pos i : Nat} {xs : List α} (h : i < xs.length) :
    store mem pos xs (pos + i) = xs[i] := by
  unfold store
  rw [if_pos (Nat.le_add_right _ _), Nat.add_sub_cancel_left, getElem?_eq_getElem h]
  rfl

namespace Holds

variable {size start stop : Nat} {mem : Nat → α} {l xs ys : List α}

theorem nil (h : start < size) : Holds size mem start start [] :=
  ⟨h, Nat.zero_lt_of_lt h, (Nat.mod_eq_of_lt h).symm, fun _ h => absurd h (Nat.not_lt_zero _)⟩

theorem stop_lt (h : Holds size mem start stop l) : stop < size := by
  rw [h.stop_eq]
  exact Nat.mod_lt _ (Nat.zero_lt_of_lt h.start_lt)

theorem stop_cases (h : Holds size mem start stop l) :
    (start + l.length < size ∧ stop = start + l.length) ∨
      (size ≤ start + l.length ∧ stop + size = start + l.length) := by
  have hstop := h.stop_eq
  rw [add_mod h.start_lt h.short] at hstop
  split at hstop <;> omega

theorem eq_iff (h : Holds size mem start stop l) : start = stop ↔ l = [] := by
  rw [← length_eq_zero_iff]
  have := h.short
  have := h.start_lt
  rcases h.stop_cases with ⟨-, heq⟩ | ⟨-, heq⟩ <;> omega

theorem length_free (h : Holds size mem start stop l) :
    l.length + free size start stop < size ∧ stop + free size start stop ≤ size := by
  have := h.start_lt
  have := h.stop_lt
  have := h.short
  unfold free
  split
  case isTrue => rcases h.stop_cases with ⟨_, _⟩ | ⟨_, _⟩ <;> omega
  case isFalse => rcases h.stop_cases with ⟨_, _⟩ | ⟨_, _⟩ <;> split <;> omega

theorem put (h : Holds size mem start stop l) (hfree : xs.length ≤ free size start stop) :
    Holds size (store mem stop xs) start ((stop + xs.length) % size) (l ++ xs) := by
  obtain ⟨hroom, hpiece⟩ := h.length_free
  refine ⟨h.start_lt, by rw [length_append]; omega, ?_, fun i hi => ?_⟩
  · rw [h.stop_eq, length_append, Nat.mod_add_mod, Nat.add_assoc]
  have hstart := h.start_lt
  rw [length_append] at hi
  rw [add_mod hstart (by omega)]
  by_cases hil : i < l.length
  · -- the elements from before are not overwritten
    rw [getElem_append_left hil, ← h.cell i hil, add_mod hstart (by omega)]
    rcases h.stop_cases with ⟨h1, h2⟩ | ⟨h1, h2⟩
    · rw [if_pos (by omega), store_of_lt (by omega)]
    · split
      · exact store_of_ge (by omega)
      · exact store_of_lt (by omega)
  · rw [getElem_append_right (Nat.le_of_not_lt hil)]
    have hlt : i - l.length < xs.length := by omega
    rw [← (store_add hlt : store mem stop xs _ = _)]
    congr 1
    rcases h.stop_cases with ⟨h1, h2⟩ | ⟨h1, h2⟩ <;> split <;> omega

theorem get (h : Holds size mem start stop (xs ++ ys)) (hpiece : start + xs.length ≤ size) :
    fetch mem start xs.length = xs ∧ Holds size mem ((start + xs.length) % size) stop ys := by
  have hshort := h.short
  have hstart := h.start_lt
  rw [length_append] at hshort
  refine ⟨?_, Nat.mod_lt _ (by omega), by omega, ?_, fun i hi => ?_⟩
  · refine ext_getElem (by simp [fetch]) fun i h1 h2 => ?_
    have hi : i < (xs ++ ys).length := by rw [length_append]; omega
    have hcell := h.cell i hi
    rw [getElem_append_left h2, Nat.mod_eq_of_lt (by omega)] at hcell
    simpa [fetch] using hcell
  · rw [h.stop_eq, length_append, Nat.mod_add_mod, Nat.add_assoc]
  · have hi' : xs.length + i < (xs ++ ys).length := by rw [length_append]; omega
    have hcell := h.cell (xs.length + i) hi'
    rw [getElem_append_right (Nat.le_add_right _ _)] at hcell
    rw [Nat.mod_add_mod, Nat.add_assoc, hcell]
    simp

end Holds

end Lib.Circular
