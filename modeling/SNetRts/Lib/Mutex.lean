import Mathlib.Data.Set.Basic

/-!
# Threads that wait for mutexes

Who owns a mutex, and which mutex a thread waits for. A set of threads is deadlocked if each of them
waits for a mutex that another one of them owns. There is no such set if the threads that wait can be
ranked so that the owner of what a thread waits for, if it waits itself, is below that thread.
-/

namespace Lib

variable {θ μ : Type*}

/-- Each of the threads waits for a mutex that another one of them owns. -/
def Deadlocked (owner : μ → Option θ) (waitsFor : θ → Option μ) (ts : Set θ) : Prop :=
  ts.Nonempty ∧ ∀ t ∈ ts, ∃ m, waitsFor t = some m ∧ ∃ t' ∈ ts, t' ≠ t ∧ owner m = some t'

theorem not_deadlocked {owner : μ → Option θ} {waitsFor : θ → Option μ} (rank : θ → Nat)
    (hrank : ∀ t m t' m', waitsFor t = some m → owner m = some t' → waitsFor t' = some m' →
      t' ≠ t → rank t' < rank t) (ts : Set θ) : ¬ Deadlocked owner waitsFor ts := by
  rintro ⟨⟨t, ht⟩, hwaits⟩
  -- every thread of the set has one below it
  induction hn : rank t using Nat.strongRecOn generalizing t with
  | ind n ih =>
    obtain ⟨m, hm, t', ht', hne, hown⟩ := hwaits t ht
    obtain ⟨m', hm', -⟩ := hwaits t' ht'
    exact ih (rank t') (hn ▸ hrank t m t' m' hm hown hm' hne) t' ht' rfl

end Lib
