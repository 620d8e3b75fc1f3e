import Mathlib.Logic.Relation

/-!
# Runs of guarded step functions

A step of a system either is not possible (`blocked`), stops the program at a failed assertion
(`fault`), or leads to a next state (`done`). `Reach step ok init` collects the states that runs
from `init` visit when every step of the run meets `ok`; with `ok` true everywhere these are the
reachable states. A property that holds initially and that every permitted step keeps holds in all
of them (`Reach.invariant`).
-/

namespace Lib

/-- What one step of a system does. -/
inductive Outcome (σ : Type*) where
  | blocked
  | fault
  | done (s : σ)

namespace Outcome

variable {σ : Type*}

/-- The next state, or `d` when there is none. -/
def getD (d : σ) : Outcome σ → σ
  | .done s => s
  | _ => d

def ofOption : Option σ → Outcome σ
  | none => .fault
  | some s => .done s

@[simp] theorem ofOption_eq_done {o : Option σ} {s : σ} : ofOption o = .done s ↔ o = some s := by
  cases o <;> simp [ofOption]

@[simp] theorem ofOption_eq_fault {o : Option σ} : ofOption o = .fault ↔ o = none := by
  cases o <;> simp [ofOption]

theorem elim_eq_done {α : Type*} {o : Option α} {f : α → Outcome σ} {t : σ} :
    o.elim .fault f = .done t ↔ ∃ a, o = some a ∧ f a = .done t := by
  cases o <;> simp

protected def bind {τ : Type*} (o : Outcome σ) (f : σ → Outcome τ) : Outcome τ :=
  match o with
  | .blocked => .blocked
  | .fault => .fault
  | .done s => f s

@[simp] theorem blocked_bind {τ : Type*} (f : σ → Outcome τ) : Outcome.bind .blocked f = .blocked := rfl

@[simp] theorem fault_bind {τ : Type*} (f : σ → Outcome τ) : Outcome.bind .fault f = .fault := rfl

@[simp] theorem done_bind {τ : Type*} (s : σ) (f : σ → Outcome τ) :
    Outcome.bind (.done s) f = f s := rfl

theorem bind_eq_done {τ : Type*} {o : Outcome σ} {f : σ → Outcome τ} {t : τ} :
    o.bind f = .done t ↔ ∃ s, o = .done s ∧ f s = .done t := by
  cases o <;> simp [Outcome.bind]

theorem bind_eq_fault {τ : Type*} {o : Outcome σ} {f : σ → Outcome τ} :
    o.bind f = .fault ↔ o = .fault ∨ ∃ s, o = .done s ∧ f s = .fault := by
  cases o <;> simp [Outcome.bind]

theorem bind_ne_fault {τ : Type*} {o : Outcome σ} {f : σ → Outcome τ} (ho : o ≠ .fault)
    (hf : ∀ s, o = .done s → f s ≠ .fault) : o.bind f ≠ .fault := by
  intro h
  rcases bind_eq_fault.1 h with h | ⟨s, hs, h⟩
  · exact ho h
  · exact hf s hs h

theorem bind_ne_blocked {τ : Type*} {o : Outcome σ} {f : σ → Outcome τ} (ho : o ≠ .blocked)
    (hf : ∀ s, f s ≠ .blocked) : o.bind f ≠ .blocked := by
  cases o with
  | blocked => exact absurd rfl ho
  | fault => nofun
  | done s => exact hf s

theorem bind_ne_done {τ : Type*} {o : Outcome σ} (ho : ∀ s, o ≠ .done s) (f : σ → Outcome τ) (t : τ) :
    o.bind f ≠ .done t := by
  intro h
  obtain ⟨s, hs, -⟩ := bind_eq_done.1 h
  exact ho s hs

theorem eq_blocked {o : Outcome σ} (hfault : o ≠ .fault) (hdone : ∀ s, o ≠ .done s) : o = .blocked := by
  cases o with
  | blocked => rfl
  | fault => exact absurd rfl hfault
  | done s => exact absurd rfl (hdone s)

theorem exists_done {o : Outcome σ} (hblocked : o ≠ .blocked) (hfault : o ≠ .fault) : ∃ s, o = .done s := by
  cases o with
  | blocked => exact absurd rfl hblocked
  | fault => exact absurd rfl hfault
  | done s => exact ⟨s, rfl⟩

theorem guarded_eq_done {p q : Prop} [Decidable p] [Decidable q] {s t : σ} :
    (if p then .blocked else if q then .fault else .done s : Outcome σ) = .done t ↔
      ¬ p ∧ ¬ q ∧ s = t := by
  by_cases hp : p <;> by_cases hq : q <;> simp [hp, hq]

theorem guarded_ne_fault {p q : Prop} [Decidable p] [Decidable q] {s : σ} (h : ¬ p → ¬ q) :
    (if p then .blocked else if q then .fault else .done s : Outcome σ) ≠ .fault := by
  by_cases hp : p
  · rw [if_pos hp]
    nofun
  · rw [if_neg hp, if_neg (h hp)]
    nofun

/-- No fault, and the next state, if there is one, meets `p`. -/
def Meets (p : σ → Prop) : Outcome σ → Prop
  | .blocked => True
  | .fault => False
  | .done s => p s

theorem Meets.ne_fault {p : σ → Prop} {o : Outcome σ} (h : o.Meets p) : o ≠ .fault := by
  rintro rfl
  exact h

theorem Meets.of_done {p : σ → Prop} {o : Outcome σ} {s : σ} (h : o.Meets p) (ho : o = .done s) : p s := by
  subst ho
  exact h

/-- Whether there is a next state that meets `p`. -/
instance {p : σ → Prop} [DecidablePred p] : (o : Outcome σ) → Decidable (∃ s, o = .done s ∧ p s)
  | .done s => decidable_of_iff (p s) (by simp)
  | .blocked | .fault => isFalse (by simp)

/-- The next state, if there is one, meets `p`. -/
def Yields (p : σ → Prop) (o : Outcome σ) : Prop := ∀ s, o = .done s → p s

theorem Yields.done {p : σ → Prop} {s : σ} (h : p s) : (done s).Yields p := by
  intro t ht
  cases ht
  exact h

theorem Yields.blocked {p : σ → Prop} : (blocked : Outcome σ).Yields p := nofun

theorem Yields.fault {p : σ → Prop} : (fault : Outcome σ).Yields p := nofun

theorem yields_true (o : Outcome σ) : o.Yields fun _ => True := fun _ _ => trivial

theorem Yields.bind {τ : Type*} {p : σ → Prop} {q : τ → Prop} {o : Outcome σ} {f : σ → Outcome τ}
    (h : o.Yields p) (hf : ∀ s, p s → (f s).Yields q) : (o.bind f).Yields q := by
  intro t ht
  obtain ⟨s, hs, hfs⟩ := bind_eq_done.1 ht
  exact hf s (h s hs) t hfs

end Outcome

variable {σ α : Type*}

/-- The states reached from `init` by runs whose every step meets `ok`. -/
inductive Reach (step : σ → α → Outcome σ) (ok : σ → α → Prop) (init : σ) : σ → Prop
  | init : Reach step ok init init
  | step {s s' : σ} {a : α} (h : Reach step ok init s) (hok : ok s a) (hs : step s a = .done s') :
      Reach step ok init s'

def anyStep (_ : σ) (_ : α) : Prop := True

namespace Reach

variable {step : σ → α → Outcome σ} {ok ok' : σ → α → Prop} {init : σ}

theorem invariant {I : σ → Prop} (h0 : I init)
    (hs : ∀ s a s', I s → ok s a → step s a = .done s' → I s') {s : σ}
    (h : Reach step ok init s) : I s := by
  induction h with
  | init => exact h0
  | step _ hok hst ih => exact hs _ _ _ ih hok hst

theorem invariant_of_reach {I : σ → Prop} (h0 : I init)
    (hs : ∀ s a s', Reach step ok init s → I s → ok s a → step s a = .done s' → I s') {s : σ}
    (h : Reach step ok init s) : I s := by
  induction h with
  | init => exact h0
  | step hr hok hst ih => exact hs _ _ _ hr ih hok hst

theorem mono (hok : ∀ s a, ok s a → ok' s a) {s : σ} (h : Reach step ok init s) :
    Reach step ok' init s := by
  induction h with
  | init => exact .init
  | step _ ho hst ih => exact .step ih (hok _ _ ho) hst

end Reach

def runAll (step : σ → α → Outcome σ) : σ → List α → Outcome σ
  | s, [] => .done s
  | s, a :: as =>
    match step s a with
    | .done s' => runAll step s' as
    | .blocked => .blocked
    | .fault => .fault

theorem runAll_cons_eq_done {step : σ → α → Outcome σ} {s t : σ} {a : α} {as : List α} :
    runAll step s (a :: as) = .done t ↔ ∃ u, step s a = .done u ∧ runAll step u as = .done t := by
  rw [runAll]
  cases step s a <;> simp

theorem runAll_invariant {step : σ → α → Outcome σ} {I : σ → Prop} {as : List α}
    (hstep : ∀ s a t, a ∈ as → I s → step s a = .done t → I t) {s t : σ} (hs : I s)
    (h : runAll step s as = .done t) : I t := by
  induction as generalizing s with
  | nil => cases h; exact hs
  | cons a as ih =>
    obtain ⟨u, hu, h⟩ := runAll_cons_eq_done.1 h
    exact ih (fun s a t ha => hstep s a t (List.mem_cons_of_mem _ ha))
      (hstep s a u List.mem_cons_self hs hu) h

theorem runAll_part {τ : Type*} {π : σ → τ} {step : σ → α → Outcome σ} {step' : τ → α → Outcome τ}
    (hstep : ∀ s a, ((step s a).bind fun t => .done (π t)) = step' (π s) a) (s : σ) (as : List α) :
    ((runAll step s as).bind fun t => .done (π t)) = runAll step' (π s) as := by
  induction as generalizing s with
  | nil => rfl
  | cons a as ih =>
    rw [runAll, runAll, ← hstep s a]
    cases step s a with
    | blocked | fault => rfl
    | done u => exact ih u

theorem exists_step_of_runAll {step : σ → α → Outcome σ} {as : List α} {a : α} (ha : a ∈ as) {s t : σ}
    (h : runAll step s as = .done t) : ∃ u v, step u a = .done v := by
  induction as generalizing s with
  | nil => cases ha
  | cons b as ih =>
    obtain ⟨u, hu, h⟩ := runAll_cons_eq_done.1 h
    rcases List.mem_cons.1 ha with rfl | ha
    · exact ⟨s, u, hu⟩
    · exact ih ha h

/-- Every step of the list meets `ok` in the state it is taken in. -/
def Permitted (step : σ → α → Outcome σ) (ok : σ → α → Prop) : σ → List α → Prop
  | _, [] => True
  | s, a :: as => ok s a ∧ ∀ s', step s a = .done s' → Permitted step ok s' as

theorem permitted_of_forall (step : σ → α → Outcome σ) {ok : σ → α → Prop} {as : List α}
    (h : ∀ a ∈ as, ∀ s, ok s a) (s : σ) : Permitted step ok s as := by
  induction as generalizing s with
  | nil => trivial
  | cons a as ih =>
    exact ⟨h a List.mem_cons_self s, fun s' _ => ih (fun a ha => h a (List.mem_cons_of_mem _ ha)) s'⟩

theorem permitted_anyStep (step : σ → α → Outcome σ) (s : σ) (as : List α) :
    Permitted step anyStep s as :=
  permitted_of_forall step (fun _ _ _ => trivial) s

def runPermitted (step : σ → α → Outcome σ) (ok : σ → α → Prop) [∀ s a, Decidable (ok s a)] :
    σ → List α → Outcome σ :=
  runAll fun s a => if ok s a then step s a else .blocked

theorem Reach.of_runAll {step : σ → α → Outcome σ} {ok : σ → α → Prop} {init s t : σ} {as : List α}
    (hs : Reach step ok init s) (hok : Permitted step ok s as) (h : runAll step s as = .done t) :
    Reach step ok init t := by
  induction as generalizing s with
  | nil => cases h; exact hs
  | cons a as ih =>
    obtain ⟨u, hu, h⟩ := runAll_cons_eq_done.1 h
    exact ih (.step hs hok.1 hu) (hok.2 u hu) h

theorem Reach.of_runPermitted {step : σ → α → Outcome σ} {ok : σ → α → Prop}
    [∀ s a, Decidable (ok s a)] {init s t : σ} {as : List α} (hs : Reach step ok init s)
    (h : runPermitted step ok s as = .done t) : Reach step ok init t := by
  induction as generalizing s with
  | nil => cases h; exact hs
  | cons a as ih =>
    obtain ⟨u, hu, h⟩ := runAll_cons_eq_done.1 h
    by_cases hok : ok s a
    · rw [if_pos hok] at hu
      exact ih (.step hs hok hu) h
    · rw [if_neg hok] at hu
      cases hu

end Lib
