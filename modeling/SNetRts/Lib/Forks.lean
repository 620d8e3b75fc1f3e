import Mathlib.Data.List.Lex

/-!
# Sequences that fork

Two sequences fork when they first differ at items that are related; neither is then a prefix of the other, and
they go on forking whatever is put behind them. With an order on the items such sequences are in lexicographic
order. Room for a sequence before another one is made by lengthening both (`Forks.append`, `forks_concat`), or by
raising the last item of the later one (`Forks.raise`).
-/

namespace Lib

open List

variable {α : Type*} {r : α → α → Prop} {l m w : List α} {x y : α}

def Forks (r : α → α → Prop) (l m : List α) : Prop :=
  ∃ p x y s t, l = p ++ x :: s ∧ m = p ++ y :: t ∧ r x y

theorem forks_concat (w : List α) (h : r x y) : Forks r (w ++ [x]) (w ++ [y]) := ⟨w, x, y, [], [], rfl, rfl, h⟩

theorem forks_cons (h : r x y) (s t : List α) : Forks r (x :: s) (y :: t) := ⟨[], x, y, s, t, rfl, rfl, h⟩

namespace Forks

theorem append (h : Forks r l m) (s t : List α) : Forks r (l ++ s) (m ++ t) := by
  obtain ⟨p, x, y, u, v, rfl, rfl, hxy⟩ := h
  exact ⟨p, x, y, u ++ s, v ++ t, by rw [append_assoc, cons_append], by rw [append_assoc, cons_append],
    hxy⟩

theorem append_left (h : Forks r l m) (s : List α) : Forks r (l ++ s) m := by
  have happend := h.append s []
  rwa [append_nil] at happend

theorem append_right (h : Forks r l m) (t : List α) : Forks r l (m ++ t) := by
  have happend := h.append [] t
  rwa [append_nil] at happend

theorem lex (h : Forks r l m) : List.Lex r l m := by
  obtain ⟨p, x, y, s, t, rfl, rfl, hxy⟩ := h
  exact List.Lex.append_left r (.rel hxy) p

theorem raise (h : Forks r l (w ++ [x])) (hxy : ∀ z, r z x → r z y) : Forks r l (w ++ [y]) := by
  obtain ⟨p, z, z', s, t, rfl, heq, hz⟩ := h
  rcases eq_nil_or_concat t with rfl | ⟨t, b, rfl⟩
  · obtain ⟨rfl, hx⟩ := append_inj' heq rfl
    cases hx
    exact ⟨w, z, y, s, [], rfl, rfl, hxy z hz⟩
  · rw [concat_eq_append, ← cons_append, ← append_assoc] at heq
    obtain ⟨rfl, -⟩ := append_inj' heq rfl
    exact ⟨p, z, z', s, t ++ [y], rfl, by rw [append_assoc, cons_append], hz⟩

theorem head (h : Forks r (x :: l) (y :: m)) : x = y ∨ r x y := by
  obtain ⟨p, z, z', s, t, hl, hm, hz⟩ := h
  cases p with
  | nil =>
    cases hl
    cases hm
    exact .inr hz
  | cons a p =>
    cases hl
    cases hm
    exact .inl rfl

end Forks

end Lib
