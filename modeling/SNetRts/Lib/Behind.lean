import Mathlib.Data.List.Basic
import Mathlib.Order.Basic

/-!
# Lists that have fallen behind

A list is behind another one if the first item in which they differ is there in both of them, and
smaller in the first one. It stays behind whatever is appended to either list, whatever of it lies beyond
the end of the other is cut off, and when the other one grows at an item.
-/

namespace Lib

open List

variable {α : Type*} [Preorder α] {u v v' w : List α} {x y : α}

def Behind (v w : List α) : Prop :=
  ∃ a x v' y w', v = a ++ x :: v' ∧ w = a ++ y :: w' ∧ x < y

theorem behind_cons (a v w : List α) (h : x < y) : Behind (a ++ x :: v) (a ++ y :: w) :=
  ⟨a, x, v, y, w, rfl, rfl, h⟩

namespace Behind

theorem ne (h : Behind v w) : v ≠ w := by
  obtain ⟨a, x, v', y, w', rfl, rfl, hxy⟩ := h
  intro heq
  have hcons := append_cancel_left heq
  rw [List.cons.injEq] at hcons
  exact hxy.ne hcons.1

theorem append_right (h : Behind v w) (u : List α) : Behind v (w ++ u) := by
  obtain ⟨a, x, v', y, w', rfl, rfl, hxy⟩ := h
  rw [append_assoc, cons_append]
  exact behind_cons a v' (w' ++ u) hxy

theorem append_left (h : Behind v w) (u : List α) : Behind (v ++ u) w := by
  obtain ⟨a, x, v', y, w', rfl, rfl, hxy⟩ := h
  rw [append_assoc, cons_append]
  exact behind_cons a (v' ++ u) w' hxy

theorem take (h : Behind v w) {n : Nat} (hn : w.length ≤ n) : Behind (v.take n) w := by
  obtain ⟨a, x, v', y, w', rfl, rfl, hxy⟩ := h
  have hlen : a.length + 1 ≤ n := by
    rw [length_append, length_cons] at hn
    omega
  obtain ⟨k, rfl⟩ := Nat.exists_eq_add_of_le hlen
  have htake : (a ++ x :: v').take (a.length + 1 + k) = a ++ x :: v'.take k := by
    rw [show a.length + 1 + k = a.length + (k + 1) by omega, take_length_add_append,
      take_succ_cons]
  rw [htake]
  exact behind_cons a (v'.take k) w' hxy

theorem of_take_eq (h : Behind v w) {n : Nat} (hn : w.length ≤ n) (hv : v'.take n = v.take n) :
    Behind v' w := by
  have htake := h.take hn
  rw [← hv] at htake
  rw [← take_append_drop n v']
  exact htake.append_left (v'.drop n)

theorem grow (h : Behind v (w ++ x :: u)) (hxy : x < y) (u' : List α) : Behind v (w ++ y :: u') := by
  obtain ⟨a, z, v', z', w', rfl, hw, hz⟩ := h
  rcases append_eq_append_iff.1 hw with ⟨c, rfl, hc⟩ | ⟨c, rfl, hc⟩
  · -- the lists differ at the item or behind it
    cases c with
    | nil =>
      rw [nil_append, List.cons.injEq] at hc
      obtain ⟨rfl, -⟩ := hc
      rw [append_nil]
      exact behind_cons w v' u' (hz.trans hxy)
    | cons d c =>
      rw [cons_append, List.cons.injEq] at hc
      obtain ⟨rfl, -⟩ := hc
      rw [append_assoc, cons_append]
      exact behind_cons w (c ++ z :: v') u' hxy
  · cases c with
    | nil =>
      rw [nil_append, List.cons.injEq] at hc
      obtain ⟨rfl, -⟩ := hc
      rw [append_nil]
      exact behind_cons a v' u' (hz.trans hxy)
    | cons d c =>
      rw [cons_append, List.cons.injEq] at hc
      obtain ⟨rfl, -⟩ := hc
      rw [append_assoc, cons_append]
      exact behind_cons a v' (c ++ y :: u') hz

end Behind

end Lib
