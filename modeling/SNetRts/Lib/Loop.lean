import Mathlib.Logic.Relation

/-!
# Loops

A loop goes from a state to the next one as long as there is one. It ends if some measure gets
smaller with each round, under an invariant; it does not if an invariant has it go on always.
-/

namespace Lib.Loop

variable {σ : Type*} {step : σ → Option σ}

/-- The loop, begun in the first state, ends in the second one. -/
inductive Leads (step : σ → Option σ) : σ → σ → Prop
  | stop {s : σ} (h : step s = none) : Leads step s s
  | next {s s' t : σ} (h : step s = some s') (ht : Leads step s' t) : Leads step s t

def Halts (step : σ → Option σ) (s : σ) : Prop := ∃ t, Leads step s t

/-- The loop, begun in the first state, comes to the second one. -/
def Visits (step : σ → Option σ) : σ → σ → Prop := Relation.ReflTransGen fun s s' => step s = some s'

theorem Halts.of_measure {I : σ → Prop} (m : σ → Nat)
    (hstep : ∀ s s', I s → step s = some s' → I s' ∧ m s' < m s) {s : σ} (hs : I s) : Halts step s := by
  induction hn : m s using Nat.strongRecOn generalizing s with
  | _ n ih =>
    cases h : step s with
    | none => exact ⟨s, .stop h⟩
    | some s' =>
      obtain ⟨hs', hlt⟩ := hstep s s' hs h
      obtain ⟨t, ht⟩ := ih (m s') (hn ▸ hlt) hs' rfl
      exact ⟨t, .next h ht⟩

theorem not_halts {I : σ → Prop} (hstep : ∀ s, I s → ∃ s', step s = some s' ∧ I s') {s : σ}
    (hs : I s) : ¬ Halts step s := by
  rintro ⟨t, ht⟩
  induction ht with
  | stop h =>
    obtain ⟨s', hs', -⟩ := hstep _ hs
    cases h.symm.trans hs'
  | next h _ ih =>
    obtain ⟨s', hs', hI⟩ := hstep _ hs
    apply ih
    cases h.symm.trans hs'
    exact hI

theorem Visits.refl (s : σ) : Visits step s s := Relation.ReflTransGen.refl

theorem Visits.tail {s t t' : σ} (h : Visits step s t) (ht : step t = some t') : Visits step s t' :=
  Relation.ReflTransGen.tail h ht

theorem Visits.invariant {I : σ → Prop} {s t : σ} (h : Visits step s t) (hs : I s)
    (hstep : ∀ u u', I u → step u = some u' → I u') : I t := by
  induction h with
  | refl => exact hs
  | tail _ hu ih => exact hstep _ _ ih hu

theorem Visits.cases_head {s t : σ} (h : Visits step s t) :
    s = t ∨ ∃ s', step s = some s' ∧ Visits step s' t :=
  Relation.ReflTransGen.cases_head h

theorem Halts.visits {s t : σ} (h : Halts step s) (ht : Visits step s t) : Halts step t := by
  refine ht.invariant h fun u u' hu hstep => ?_
  obtain ⟨v, hv⟩ := hu
  cases hv with
  | stop hnone => cases hnone.symm.trans hstep
  | next hsome hlast =>
    cases hsome.symm.trans hstep
    exact ⟨v, hlast⟩

end Lib.Loop
