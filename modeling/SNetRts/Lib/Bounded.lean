import Mathlib.Data.Nat.ModEq
import Mathlib.Logic.Function.Basic

/-!
# Bounded buffers

`size` cells with the position `head` of the first element, the position `tail` behind the last one and
the number `count` of elements. All cells can be in use, then `head` and `tail` are equal as they are in
an empty buffer. Cells that are not in use are `none`.
-/

namespace Lib.Bounded

variable {α : Type*}

/-- The buffer contains `l`. -/
structure Holds (size : Nat) (mem : Nat → Option α) (head tail count : Nat) (l : List α) : Prop where
  head_lt : head < size
  count_eq : count = l.length
  le_size : l.length ≤ size
  tail_eq : tail = (head + l.length) % size
  cell : ∀ i (h : i < l.length), mem ((head + i) % size) = some l[i]

theorem cell_inj {size head i j : Nat} (hi : i < size) (hj : j < size)
    (h : (head + i) % size = (head + j) % size) : i = j := by
  have hmod : i % size = j % size := Nat.ModEq.add_left_cancel' head h
  rwa [Nat.mod_eq_of_lt hi, Nat.mod_eq_of_lt hj] at hmod

namespace Holds

variable {size head tail count : Nat} {mem : Nat → Option α} {l : List α} {a : α}

theorem nil (h : 0 < size) (mem : Nat → Option α) : Holds size mem 0 0 0 [] :=
  ⟨h, rfl, Nat.zero_le _, (Nat.zero_mod size).symm, fun _ hi => absurd hi (Nat.not_lt_zero _)⟩

theorem put (h : Holds size mem head tail count l) (hroom : count ≠ size) (a : α) :
    Holds size (Function.update mem tail (some a)) head ((tail + 1) % size) (count + 1) (l ++ [a]) := by
  have hlt : l.length < size := Nat.lt_of_le_of_ne h.le_size (h.count_eq ▸ hroom)
  have hlen : (l ++ [a]).length = l.length + 1 := by rw [List.length_append, List.length_singleton]
  refine ⟨h.head_lt, by rw [h.count_eq, hlen], by omega, ?_, fun i hi => ?_⟩
  · rw [h.tail_eq, hlen, Nat.mod_add_mod, Nat.add_assoc]
  · rw [hlen] at hi
    by_cases hil : i < l.length
    · have hne : (head + i) % size ≠ tail := by
        rw [h.tail_eq]
        intro heq
        exact absurd (cell_inj (Nat.lt_trans hil hlt) hlt heq) (Nat.ne_of_lt hil)
      rw [Function.update_of_ne hne, h.cell i hil, List.getElem_append_left hil]
    · have heq : i = l.length := by omega
      subst heq
      rw [← h.tail_eq, Function.update_self]
      simp

theorem head_cell (h : Holds size mem head tail count (a :: l)) : mem head = some a := by
  have hcell := h.cell 0 (Nat.succ_pos _)
  rwa [Nat.add_zero, Nat.mod_eq_of_lt h.head_lt] at hcell

theorem get (h : Holds size mem head tail count (a :: l)) :
    Holds size (Function.update mem head none) ((head + 1) % size) tail (count - 1) l := by
  have hlen : (a :: l).length = l.length + 1 := List.length_cons
  have hle := h.le_size
  rw [hlen] at hle
  refine ⟨Nat.mod_lt _ (by omega), by rw [h.count_eq, hlen, Nat.add_sub_cancel], by omega, ?_, fun i hi => ?_⟩
  · rw [h.tail_eq, hlen, Nat.mod_add_mod, Nat.add_assoc, Nat.add_comm 1]
  · have hne : ((head + 1) % size + i) % size ≠ head := by
      rw [Nat.mod_add_mod, Nat.add_assoc]
      intro heq
      have h0 : (head + (1 + i)) % size = (head + 0) % size := by
        rw [heq, Nat.add_zero, Nat.mod_eq_of_lt h.head_lt]
      have := cell_inj (by omega) (by omega) h0
      omega
    have hcell := h.cell (i + 1) (by omega)
    rw [Function.update_of_ne hne, Nat.mod_add_mod, Nat.add_assoc, Nat.add_comm 1, hcell]
    rfl

theorem eq_nil_iff (h : Holds size mem head tail count l) : count = 0 ↔ l = [] := by
  rw [h.count_eq, List.length_eq_zero_iff]

theorem exists_cons (h : Holds size mem head tail count l) (hne : count ≠ 0) :
    ∃ a l', l = a :: l' :=
  List.exists_cons_of_ne_nil (mt h.eq_nil_iff.2 hne)

end Holds

end Lib.Bounded
