import SNetRts.Lib.Run

/-!
# Loops over a range of a bounded number

`for (i = lower; i <= upper; i++)` with `i` of a type that ends at `m`: the step from `m` is a
fault, so that a loop up to there does not end. An invariant is indexed by the value of `i`.
-/

namespace Lib.IntLoop

variable {σ τ : Type*}

/-- The rounds that are left, from `i` on. -/
def rounds (m : Int) (f : Int → σ → Outcome σ) : Nat → Int → σ → Outcome σ
  | 0, _, s => .done s
  | n + 1, i, s => (f i s).bind fun s => if i = m then .fault else rounds m f n (i + 1) s

/-- The loop; `i <= upper` holds in as many rounds as there are numbers in the range. -/
def loop (m : Int) (f : Int → σ → Outcome σ) (lower upper : Int) (s : σ) : Outcome σ :=
  rounds m f (upper - lower + 1).toNat lower s

section

variable {m : Int} {f : Int → σ → Outcome σ}

theorem rounds_lt {n : Nat} {i : Int} {s t : σ} (hi : i ≤ m) (h : rounds m f n i s = .done t) :
    n = 0 ∨ i + n ≤ m := by
  induction n generalizing i s with
  | zero => exact .inl rfl
  | succ n ih =>
    obtain ⟨u, -, h⟩ := Outcome.bind_eq_done.1 h
    by_cases hlast : i = m
    · rw [if_pos hlast] at h
      cases h
    · rw [if_neg hlast] at h
      rcases ih (by omega) h with rfl | hle
      · right
        omega
      · right
        push_cast
        omega

theorem loop_lt {lower upper : Int} {s t : σ} (hle : lower ≤ upper) (hupper : upper ≤ m)
    (h : loop m f lower upper s = .done t) : upper < m := by
  rcases rounds_lt (Int.le_trans hle hupper) h with h | h <;> omega

theorem rounds_yields {P : Int → σ → Prop} {n : Nat} {i : Int} {s : σ} (hs : P i s)
    (hbody : ∀ j s, i ≤ j → j < i + n → P j s → (f j s).Yields (P (j + 1))) :
    (rounds m f n i s).Yields (P (i + n)) := by
  induction n generalizing i s with
  | zero =>
    intro t ht
    cases ht
    simpa using hs
  | succ n ih =>
    push_cast at hbody
    refine (hbody i s (Int.le_refl i) (by omega) hs).bind fun u hu => ?_
    split
    · exact .fault
    · have hi : i + 1 + (n : Int) = i + ((n + 1 : Nat) : Int) := by
        push_cast
        omega
      exact hi ▸ ih hu fun j s h1 h2 => hbody j s (by omega) (by omega)

theorem rounds_done {P : Int → σ → Prop} {n : Nat} {i : Int} {s : σ} (hlast : i + n ≤ m) (hs : P i s)
    (hbody : ∀ j s, i ≤ j → j < i + n → P j s → ∃ t, f j s = .done t ∧ P (j + 1) t) :
    ∃ t, rounds m f n i s = .done t ∧ P (i + n) t := by
  induction n generalizing i s with
  | zero => exact ⟨s, rfl, by simpa using hs⟩
  | succ n ih =>
    push_cast at hlast hbody
    obtain ⟨u, hu, hP⟩ := hbody i s (Int.le_refl i) (by omega) hs
    obtain ⟨t, ht, hPt⟩ := ih (by omega) hP fun j s h1 h2 => hbody j s (by omega) (by omega)
    refine ⟨t, ?_, ?_⟩
    · unfold rounds
      rw [hu, Outcome.done_bind, if_neg (by omega), ht]
    · have hi : i + 1 + (n : Int) = i + ((n + 1 : Nat) : Int) := by
        push_cast
        omega
      exact hi ▸ hPt

theorem rounds_part {π : σ → τ} {g : Int → τ → Outcome τ}
    (hbody : ∀ i s, ((f i s).bind fun t => .done (π t)) = g i (π s)) (n : Nat) (i : Int) (s : σ) :
    ((rounds m f n i s).bind fun t => .done (π t)) = rounds m g n i (π s) := by
  induction n generalizing i s with
  | zero => rfl
  | succ n ih =>
    unfold rounds
    rw [← hbody i s]
    cases f i s with
    | blocked | fault => rfl
    | done u =>
      simp only [Outcome.done_bind]
      split
      · rfl
      · exact ih (i + 1) u

end

end Lib.IntLoop
