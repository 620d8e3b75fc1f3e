import Mathlib.Data.List.Basic

/-!
# Streams with an end marker

A stream between a writer and a reader, on which the writer's last record is an end marker, and the
reader stops when it has read one. `closed` tells that the writer has stopped, `done` that the reader
has.
-/

namespace Lib

open List

variable {α : Type*}

structure Pipe (isEnd : α → Prop) (closed done : Bool) (xs : List α) : Prop where
  /-- Nothing is behind an end marker. -/
  last : ∀ ys x zs, xs = ys ++ x :: zs → isEnd x → zs = [] ∧ closed = true
  drained : done = true → xs = [] ∧ closed = true

namespace Pipe

variable {isEnd : α → Prop} {closed done : Bool} {x : α} {xs as : List α}

theorem nil (isEnd : α → Prop) : Pipe isEnd false false [] :=
  ⟨fun _ _ _ h => absurd h (by simp), nofun⟩

theorem not_isEnd (h : Pipe isEnd false done xs) : ∀ y ∈ xs, ¬ isEnd y := by
  intro y hy he
  obtain ⟨ys, zs, rfl⟩ := append_of_mem hy
  exact absurd (h.last ys y zs rfl he).2 nofun

theorem push (h : Pipe isEnd false done xs) (ha : ∀ a ∈ as, ¬ isEnd a) :
    Pipe isEnd false done (xs ++ as) := by
  refine ⟨fun ys y zs he hy => ?_, fun hd => absurd (h.drained hd).2 nofun⟩
  have hmem : y ∈ xs ++ as := he ▸ mem_append_right _ mem_cons_self
  rcases mem_append.1 hmem with hm | hm
  · exact absurd hy (h.not_isEnd y hm)
  · exact absurd hy (ha y hm)

theorem close (h : Pipe isEnd false done xs) (x : α) : Pipe isEnd true done (xs ++ [x]) := by
  refine ⟨fun ys y zs he hy => ⟨?_, rfl⟩, fun hd => absurd (h.drained hd).2 nofun⟩
  rcases eq_nil_or_concat zs with rfl | ⟨zs', z, rfl⟩
  · rfl
  · have hmem : y ∈ xs := by
      rw [concat_eq_append, ← cons_append, ← append_assoc] at he
      have hxs := (append_inj' he rfl).1
      rw [hxs]
      exact mem_append_right _ mem_cons_self
    exact absurd hy (h.not_isEnd y hmem)

theorem pop (h : Pipe isEnd closed done (x :: xs)) : Pipe isEnd closed false xs :=
  ⟨fun ys y zs he hy => h.last (x :: ys) y zs (by rw [he, cons_append]) hy, nofun⟩

theorem finish (h : Pipe isEnd closed done (x :: xs)) (hx : isEnd x) : Pipe isEnd closed true xs := by
  obtain ⟨rfl, hc⟩ := h.last [] x xs rfl hx
  exact ⟨fun ys y zs he => absurd he (by simp), fun _ => ⟨rfl, hc⟩⟩

end Pipe

end Lib
