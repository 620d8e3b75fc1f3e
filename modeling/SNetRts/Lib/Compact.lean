import Mathlib.Data.List.Basic

/-!
# Packing an array in place

A loop that moves the entries to be kept to the front of their array, over those to be dropped, and cuts
the array off behind them: `compact` from a place before which nothing is dropped. What is left is the
entries to be kept, in their order.
-/

namespace Lib

open List

variable {α : Type*} (keep : α → Bool)

/-- The entries from `j` on, of which `n` are left, are moved to `i` and behind. -/
def compactLoop : Nat → Nat → List α → Nat → List α × Nat
  | 0, _, l, i => (l, i)
  | n + 1, j, l, i =>
    match l[j]? with
    | some x => if keep x then compactLoop n (j + 1) (l.set i x) (i + 1) else compactLoop n (j + 1) l i
    | none => (l, i)

/-- The array, with the entries from `i` on packed. -/
def compact (l : List α) (i : Nat) : List α :=
  (compactLoop keep (l.length - i) i l i).1.take (compactLoop keep (l.length - i) i l i).2

variable {keep}

theorem compactLoop_spec {n j i : Nat} {l : List α} (hij : i ≤ j) (hn : j + n = l.length) :
    (compactLoop keep n j l i).1.take (compactLoop keep n j l i).2 = l.take i ++ (l.drop j).filter keep := by
  induction n generalizing j i l with
  | zero =>
    rw [compactLoop, drop_eq_nil_of_le (by omega), filter_nil, append_nil]
  | succ n ih =>
    have hj : j < l.length := by omega
    rw [compactLoop, getElem?_eq_getElem hj, drop_eq_getElem_cons hj]
    by_cases hk : keep l[j] = true
    · simp only [hk, if_true]
      rw [ih (by omega) (by rw [length_set]; omega), filter_cons_of_pos hk,
        drop_set_of_lt (by omega), take_add_one, take_set_of_le (Nat.le_refl i),
        getElem?_set_self (by omega)]
      simp
    · simp only [hk, Bool.false_eq_true, if_false]
      rw [ih (by omega) (by omega), filter_cons_of_neg hk]

theorem compact_eq {l : List α} {i : Nat} (h : ∀ x ∈ l.take i, keep x = true) : compact keep l i = l.filter keep := by
  unfold compact
  by_cases hi : i ≤ l.length
  · rw [compactLoop_spec (Nat.le_refl i) (by omega)]
    nth_rewrite 3 [← take_append_drop i l]
    rw [filter_append, filter_eq_self.2 h]
  · have hlen : l.length ≤ i := Nat.le_of_not_le hi
    rw [Nat.sub_eq_zero_of_le hlen, compactLoop, take_of_length_le hlen]
    rw [take_of_length_le hlen] at h
    exact (filter_eq_self.2 h).symm

end Lib
