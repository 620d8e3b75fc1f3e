import SNetRts.Lib.Run
import SNetRts.Lib.Tickets

/-!
# Concurrent boxes

Workers in `SNetNodeBox` (`runtime/front/xbox.c`) of a box with a concurrency of two or more. A worker comes
with the landing locked, looks for a context and counts itself; it unlocks the landing if the box is not full.
When it has run the box function it gives back the context, and unlocks the landing if it has left a full box.
`SNetStreamWork` (`runtime/front/xstream.c`) does not unlock the landing of a box.
-/

namespace SNet.Box

open Function (update update_of_ne update_self)

open Lib

/-- Where a worker is. -/
inductive Pc where
  | outside
  /-- With the landing locked, before it looks at a context. -/
  | searching (i : Nat)
  /-- The context is marked as busy. -/
  | claimed (i : Nat)
  /-- After it has counted itself, with the number that it has got. -/
  | counted (i : Nat) (conc : Int)
  /-- In the box function. -/
  | running (i : Nat)
  /-- The context is not busy any more. -/
  | released
  /-- It does not count any more; with the number that there was before. -/
  | left (conc : Int)
deriving DecidableEq

/-- `landing_t` and `landing_box_t`, with the flags of the contexts. -/
structure State (W : Type) where
  lock : Option W
  concurrency : Int
  busy : Nat → Bool
  pc : W → Pc

inductive Act (W : Type) where
  /-- `trylock_landing` -/
  | lock (w : W)
  /-- One round of the search for a context. -/
  | look (w : W)
  /-- `AAF` -/
  | count (w : W)
  /-- The rest of the entry: more workers are allowed below the limit. -/
  | start (w : W)
  /-- The context is left. -/
  | release (w : W)
  /-- `FAS` -/
  | leave (w : W)
  /-- A full house has been left or not. -/
  | exit (w : W)

namespace State

variable {W : Type} [DecidableEq W]

def init : State W := ⟨none, 0, fun _ => false, fun _ => .outside⟩

variable (s : State W)

def goto (w : W) (pc : Pc) : State W := { s with pc := update s.pc w pc }

/-- `unlock_landing`, which asserts that the landing is locked. -/
def unlock : Outcome (State W) := if s.lock = none then .fault else .done { s with lock := none }

/-- A step of a worker; `c` is the limit of the box. -/
def step (c : Nat) (s : State W) : Act W → Outcome (State W)
  | .lock w =>
    if s.pc w = .outside ∧ s.lock = none then .done ({ s with lock := some w }.goto w (.searching 0)) else .blocked
  | .look w =>
    match s.pc w with
    | .searching i =>
      if s.busy i = true then if i + 1 < c then .done (s.goto w (.searching (i + 1))) else .fault
      else .done ({ s with busy := update s.busy i true }.goto w (.claimed i))
    | _ => .blocked
  | .count w =>
    match s.pc w with
    | .claimed i =>
      .done ({ s with concurrency := s.concurrency + 1 }.goto w (.counted i (s.concurrency + 1)))
    | _ => .blocked
  | .start w =>
    match s.pc w with
    | .counted i conc =>
      if conc < c then (s.goto w (.running i)).unlock else .done (s.goto w (.running i))
    | _ => .blocked
  | .release w =>
    match s.pc w with
    | .running i => .done ({ s with busy := update s.busy i false }.goto w .released)
    | _ => .blocked
  | .leave w =>
    match s.pc w with
    | .released => .done ({ s with concurrency := s.concurrency - 1 }.goto w (.left s.concurrency))
    | _ => .blocked
  | .exit w =>
    match s.pc w with
    | .left conc => if conc = c then (s.goto w .outside).unlock else .done (s.goto w .outside)
    | _ => .blocked

/-- The states of a box with the limit `c`. -/
def Reachable (c : Nat) : State W → Prop := Reach (step c) anyStep init

end State

/-! ## What the places of the workers mean -/

namespace Pc

/-- Whether a worker executes an invocation of the box: it has counted itself. -/
def executes : Pc → Nat
  | counted _ _ | running _ | released => 1
  | _ => 0

def context : Pc → Option Nat
  | claimed i | counted i _ | running i => some i
  | _ => none

def InEntry : Pc → Prop
  | searching _ | claimed _ | counted _ _ => True
  | _ => False

def Unlocks (c : Nat) (pc : Pc) : Prop := pc = .left c

/-- Whether it is for the worker to unlock the landing or to leave it locked. -/
def holds (c : Nat) : Pc → Nat
  | searching _ | claimed _ => 1
  | counted _ conc => if conc < c then 1 else 0
  | left conc => if conc = c then 1 else 0
  | _ => 0

end Pc

namespace State

variable {W : Type} [DecidableEq W] [Fintype W]

def total (f : Pc → Nat) (s : State W) : Nat := ∑ w, f (s.pc w)

def executing (s : State W) : Nat := s.total Pc.executes

/-- The landing is locked while a worker in the entry section is to unlock it, while the box is full, and while
a worker that has left the full box is to unlock it. -/
structure Counted (c : Nat) (s : State W) : Prop where
  count : s.concurrency = s.executing
  le : s.executing ≤ c
  token : s.total (Pc.holds c) + (if s.executing = c then 1 else 0) = if s.lock = none then 0 else 1

/-- The busy contexts are those that are used. -/
structure Uses (c : Nat) (context : W → Option Nat) (busy : Nat → Bool) : Prop where
  used : ∀ i, busy i = true ↔ ∃ w, context w = some i
  apart : ∀ w w' i, context w = some i → context w' = some i → w = w'
  below : ∀ i, busy i = true → i < c

/-- The contexts that the workers use are busy, and who looks for one will find it. -/
structure Contexts (c : Nat) (s : State W) : Prop where
  uses : Uses c (fun w => (s.pc w).context) s.busy
  free : ∀ w i, s.pc w = .searching i → ∃ j, i ≤ j ∧ j < c ∧ s.busy j = false

section

variable {c i : Nat} {s t : State W} {w w' : W} {pc : Pc}

theorem total_update (f : Pc → Nat) (ht : t.pc = update s.pc w pc) :
    t.total f + f (s.pc w) = s.total f + f pc := by
  have hsum := sum_update_add (Finset.mem_univ w) f s.pc pc
  rwa [← ht] at hsum

omit [DecidableEq W] in
theorem le_total (f : Pc → Nat) (s : State W) (w : W) : f (s.pc w) ≤ s.total f :=
  Finset.single_le_sum (f := fun w => f (s.pc w)) (fun _ _ => Nat.zero_le _) (Finset.mem_univ w)

theorem add_le_total (f : Pc → Nat) (s : State W) (hne : w ≠ w') : f (s.pc w) + f (s.pc w') ≤ s.total f := by
  have hsum := Finset.sum_le_sum_of_subset (f := fun w => f (s.pc w)) (Finset.subset_univ {w, w'})
  rwa [Finset.sum_pair hne] at hsum

/-! ## Steps -/

/-- What the steps that are taken do. -/
inductive Moves (c : Nat) (s : State W) : State W → Prop
  | lock {w : W} (hpc : s.pc w = .outside) (hlock : s.lock = none) :
      Moves c s ({ s with lock := some w }.goto w (.searching 0))
  | next {w : W} {i : Nat} (hpc : s.pc w = .searching i) (hbusy : s.busy i = true) :
      Moves c s (s.goto w (.searching (i + 1)))
  | claim {w : W} {i : Nat} (hpc : s.pc w = .searching i) (hbusy : s.busy i = false) :
      Moves c s ({ s with busy := update s.busy i true }.goto w (.claimed i))
  | count {w : W} {i : Nat} (hpc : s.pc w = .claimed i) :
      Moves c s ({ s with concurrency := s.concurrency + 1 }.goto w (.counted i (s.concurrency + 1)))
  | start {w : W} {i : Nat} {conc : Int} (hpc : s.pc w = .counted i conc) (hlt : conc < c) :
      Moves c s { s.goto w (.running i) with lock := none }
  | fill {w : W} {i : Nat} {conc : Int} (hpc : s.pc w = .counted i conc) (hge : ¬ conc < c) :
      Moves c s (s.goto w (.running i))
  | release {w : W} {i : Nat} (hpc : s.pc w = .running i) :
      Moves c s ({ s with busy := update s.busy i false }.goto w .released)
  | leave {w : W} (hpc : s.pc w = .released) :
      Moves c s ({ s with concurrency := s.concurrency - 1 }.goto w (.left s.concurrency))
  | reopen {w : W} {conc : Int} (hpc : s.pc w = .left conc) (hfull : conc = c) :
      Moves c s { s.goto w .outside with lock := none }
  | exit {w : W} {conc : Int} (hpc : s.pc w = .left conc) (hfull : conc ≠ c) : Moves c s (s.goto w .outside)

omit [DecidableEq W] [Fintype W] in
theorem unlock_eq_done : s.unlock = .done t ↔ s.lock ≠ none ∧ { s with lock := none } = t := by
  rw [unlock]
  by_cases h : s.lock = none
  · simp [h]
  · simp [h]

omit [Fintype W] in
theorem moves_of_step {a : Act W} (h : step c s a = .done t) : Moves c s t := by
  cases a with
  | lock w =>
    rw [step] at h
    by_cases hfree : s.pc w = .outside ∧ s.lock = none
    · rw [if_pos hfree] at h
      cases h
      exact .lock hfree.1 hfree.2
    · rw [if_neg hfree] at h
      cases h
  | look w =>
    rw [step] at h
    split at h
    · rename_i i hpc
      by_cases hbusy : s.busy i = true
      · rw [if_pos hbusy] at h
        split at h
        · cases h
          exact .next hpc hbusy
        · cases h
      · rw [if_neg hbusy] at h
        cases h
        exact .claim hpc (Bool.eq_false_iff.2 hbusy)
    · cases h
  | count w =>
    rw [step] at h
    split at h
    · rename_i i hpc
      cases h
      exact .count hpc
    · cases h
  | start w =>
    rw [step] at h
    split at h
    · rename_i i conc hpc
      by_cases hlt : conc < c
      · rw [if_pos hlt, unlock_eq_done] at h
        obtain ⟨-, rfl⟩ := h
        exact .start hpc hlt
      · rw [if_neg hlt] at h
        cases h
        exact .fill hpc hlt
    · cases h
  | release w =>
    rw [step] at h
    split at h
    · rename_i i hpc
      cases h
      exact .release hpc
    · cases h
  | leave w =>
    rw [step] at h
    split at h
    · rename_i hpc
      cases h
      exact .leave hpc
    · cases h
  | exit w =>
    rw [step] at h
    split at h
    · rename_i conc hpc
      by_cases hfull : conc = c
      · rw [if_pos hfull, unlock_eq_done] at h
        obtain ⟨-, rfl⟩ := h
        exact .reopen hpc hfull
      · rw [if_neg hfull] at h
        cases h
        exact .exit hpc hfull
    · cases h

/-! ## Counting -/

theorem Counted.alone (h : s.Counted c) (hw : (s.pc w).holds c = 1) :
    s.executing < c ∧ s.lock ≠ none ∧ s.total (Pc.holds c) = 1 ∧ ∀ w', w' ≠ w → (s.pc w').holds c = 0 := by
  have htoken := h.token
  have hle := h.le
  have hone := le_total (Pc.holds c) s w
  by_cases hlock : s.lock = none
  · rw [if_pos hlock] at htoken
    omega
  · rw [if_neg hlock] at htoken
    by_cases hfull : s.executing = c
    · rw [if_pos hfull] at htoken
      omega
    · rw [if_neg hfull] at htoken
      refine ⟨by omega, hlock, by omega, fun w' hne => ?_⟩
      have htwo := add_le_total (Pc.holds c) s hne
      omega

omit [DecidableEq W] in
theorem Counted.unlocked (h : s.Counted c) (hlock : s.lock = none) :
    s.executing < c ∧ s.total (Pc.holds c) = 0 := by
  have htoken := h.token
  have hle := h.le
  rw [if_pos hlock] at htoken
  by_cases hfull : s.executing = c
  · rw [if_pos hfull] at htoken
    omega
  · rw [if_neg hfull] at htoken
    omega

theorem Counted.keep (h : s.Counted c) (ht : t.pc = update s.pc w pc) (hconc : t.concurrency = s.concurrency)
    (hlock : t.lock = s.lock) (hexec : pc.executes = (s.pc w).executes) (hholds : pc.holds c = (s.pc w).holds c) :
    t.Counted c := by
  have hcount := total_update Pc.executes ht
  have htoken := total_update (Pc.holds c) ht
  have hsame : t.executing = s.executing := by
    rw [executing, executing]
    omega
  have htotal : t.total (Pc.holds c) = s.total (Pc.holds c) := by omega
  refine ⟨?_, ?_, ?_⟩
  · rw [hconc, hsame]
    exact h.count
  · rw [hsame]
    exact h.le
  · rw [hsame, htotal, hlock]
    exact h.token

theorem Counted.unlock (h : s.Counted c) (ht : t.pc = update s.pc w pc)
    (hconc : t.concurrency = s.concurrency) (hlock : t.lock = none) (hw : (s.pc w).holds c = 1)
    (hexec : pc.executes = (s.pc w).executes) (hholds : pc.holds c = 0) : t.Counted c := by
  obtain ⟨hlt, -, hone, -⟩ := h.alone hw
  have hcount := total_update Pc.executes ht
  have htoken := total_update (Pc.holds c) ht
  have hsame : t.executing = s.executing := by
    rw [executing, executing]
    omega
  have hnone : t.total (Pc.holds c) = 0 := by omega
  refine ⟨?_, ?_, ?_⟩
  · rw [hconc, hsame]
    exact h.count
  · rw [hsame]
    exact h.le
  · rw [hsame, hnone, if_neg (Nat.ne_of_lt hlt), if_pos hlock]

theorem Counted.lock (h : s.Counted c) (hpc : s.pc w = .outside) (hlock : s.lock = none) :
    Counted c ({ s with lock := some w }.goto w (.searching 0)) := by
  obtain ⟨hlt, hnone⟩ := h.unlocked hlock
  have hcount := total_update (s := s) (t := { s with lock := some w }.goto w (.searching 0)) Pc.executes rfl
  have htoken := total_update (s := s) (t := { s with lock := some w }.goto w (.searching 0)) (Pc.holds c) rfl
  rw [hpc] at hcount htoken
  have hsame : ({ s with lock := some w }.goto w (.searching 0)).executing = s.executing := hcount
  have hone : ({ s with lock := some w }.goto w (.searching 0)).total (Pc.holds c) = 1 :=
    htoken.trans (congrArg (· + 1) hnone)
  refine ⟨?_, ?_, ?_⟩
  · rw [hsame]
    exact h.count
  · rw [hsame]
    exact h.le
  · rw [hsame, hone, if_neg (Nat.ne_of_lt hlt)]
    exact (if_neg (Option.some_ne_none w)).symm

theorem Counted.enter (h : s.Counted c) (hpc : s.pc w = .claimed i) :
    Counted c ({ s with concurrency := s.concurrency + 1 }.goto w (.counted i (s.concurrency + 1))) := by
  have hcount := total_update (s := s) (t := { s with concurrency := s.concurrency + 1 }.goto w
    (.counted i (s.concurrency + 1))) Pc.executes rfl
  have htoken := total_update (s := s) (t := { s with concurrency := s.concurrency + 1 }.goto w
    (.counted i (s.concurrency + 1))) (Pc.holds c) rfl
  obtain ⟨hlt, hlock, hone, -⟩ := h.alone (w := w) (by rw [hpc]; rfl)
  have hnumber := h.count
  rw [hpc] at hcount htoken
  have hmore : (({ s with concurrency := s.concurrency + 1 } : State W).goto w
      (.counted i (s.concurrency + 1))).executing = s.executing + 1 := hcount
  dsimp only [Pc.holds] at htoken
  refine ⟨?_, ?_, ?_⟩
  · rw [hmore]
    change s.concurrency + 1 = _
    omega
  · omega
  · rw [hmore]
    refine Eq.trans ?_ (if_neg hlock).symm
    by_cases hfull : s.executing + 1 = c
    · rw [if_neg (by omega)] at htoken
      rw [if_pos hfull]
      omega
    · rw [if_pos (by omega)] at htoken
      rw [if_neg hfull]
      omega

theorem Counted.leave (h : s.Counted c) (hpc : s.pc w = .released) :
    Counted c ({ s with concurrency := s.concurrency - 1 }.goto w (.left s.concurrency)) := by
  have hcount := total_update (s := s) (t := { s with concurrency := s.concurrency - 1 }.goto w (.left s.concurrency))
    Pc.executes rfl
  have htoken := total_update (s := s) (t := { s with concurrency := s.concurrency - 1 }.goto w (.left s.concurrency))
    (Pc.holds c) rfl
  have hnumber := h.count
  have hle := h.le
  have hold := h.token
  rw [hpc] at hcount htoken
  have hless : (({ s with concurrency := s.concurrency - 1 } : State W).goto w
      (.left s.concurrency)).executing + 1 = s.executing := hcount
  dsimp only [Pc.holds] at htoken
  refine ⟨?_, ?_, ?_⟩
  · change s.concurrency - 1 = _
    omega
  · omega
  · refine Eq.trans ?_ hold
    rw [if_neg (by omega)]
    by_cases hfull : s.executing = c
    · rw [if_pos (by omega)] at htoken
      rw [if_pos hfull]
      omega
    · rw [if_neg (by omega)] at htoken
      rw [if_neg hfull]
      omega

theorem Counted.moves (h : s.Counted c) (hmove : Moves c s t) : t.Counted c := by
  cases hmove with
  | @lock w hpc hlock => exact h.lock hpc hlock
  | @next w i hpc hbusy => exact h.keep rfl rfl rfl (by rw [hpc]; rfl) (by rw [hpc]; rfl)
  | @claim w i hpc hbusy => exact h.keep rfl rfl rfl (by rw [hpc]; rfl) (by rw [hpc]; rfl)
  | @count w i hpc => exact h.enter hpc
  | @start w i conc hpc hlt => exact h.unlock rfl rfl rfl (by rw [hpc]; exact if_pos hlt) (by rw [hpc]; rfl) rfl
  | @fill w i conc hpc hge => exact h.keep rfl rfl rfl (by rw [hpc]; rfl) (by rw [hpc]; exact (if_neg hge).symm)
  | @release w i hpc => exact h.keep rfl rfl rfl (by rw [hpc]; rfl) (by rw [hpc]; rfl)
  | @leave w hpc => exact h.leave hpc
  | @reopen w conc hpc hfull =>
    exact h.unlock rfl rfl rfl (by rw [hpc]; exact if_pos hfull) (by rw [hpc]; rfl) rfl
  | @exit w conc hpc hfull => exact h.keep rfl rfl rfl (by rw [hpc]; rfl) (by rw [hpc]; exact (if_neg hfull).symm)

/-! ## The contexts -/

theorem one_le_of_context (hw : pc.context = some i) (c : Nat) : 1 ≤ pc.executes + pc.holds c := by
  cases pc with
  | claimed i => exact Nat.le_refl 1
  | counted i conc => exact Nat.le_add_right 1 _
  | running i => exact Nat.le_refl 1
  | outside | searching i | released | left conc => cases hw

theorem Contexts.exists_free (h : s.Contexts c) (hcounted : s.Counted c) (hlock : s.lock = none) :
    ∃ j, j < c ∧ s.busy j = false := by
  by_contra hnone
  have hall : ∀ j : Fin c, ∃ w, (s.pc w).context = some j.1 := by
    intro j
    apply (h.uses.used j).1
    by_contra hfree
    exact hnone ⟨j, j.2, Bool.eq_false_iff.2 hfree⟩
  obtain ⟨hlt, htotal⟩ := hcounted.unlocked hlock
  choose user huser using hall
  have hinj : Function.Injective user := by
    intro j k heq
    have hj := huser j
    rw [heq, huser k] at hj
    exact Fin.ext (Option.some.inj hj).symm
  have hle : c ≤ s.executing + s.total (Pc.holds c) :=
    calc c = ∑ _j : Fin c, 1 := by simp
      _ ≤ ∑ j : Fin c, ((s.pc (user j)).executes + (s.pc (user j)).holds c) :=
        Finset.sum_le_sum fun j _ => one_le_of_context (huser j) c
      _ = ∑ w ∈ Finset.univ.image user, ((s.pc w).executes + (s.pc w).holds c) :=
        (Finset.sum_image (f := fun w => (s.pc w).executes + (s.pc w).holds c) hinj.injOn).symm
      _ ≤ ∑ w, ((s.pc w).executes + (s.pc w).holds c) := Finset.sum_le_sum_of_subset (Finset.subset_univ _)
      _ = s.executing + s.total (Pc.holds c) := Finset.sum_add_distrib
  omega

section

variable {context : W → Option Nat} {busy : Nat → Bool}

omit [Fintype W] in
theorem Uses.claim (h : Uses c context busy) (hw : context w = none) (hi : i < c) (hbusy : busy i = false) :
    Uses c (update context w (some i)) (update busy i true) := by
  have hunused : ∀ w', context w' ≠ some i := by
    intro w' hw'
    have hset := (h.used i).2 ⟨w', hw'⟩
    rw [hbusy] at hset
    cases hset
  refine ⟨fun k => ?_, fun w₁ w₂ k h₁ h₂ => ?_, fun k hk => ?_⟩
  · by_cases hk : k = i
    · subst hk
      exact iff_of_true (update_self _ _ _) ⟨w, update_self _ _ _⟩
    · rw [update_of_ne hk, h.used k]
      constructor
      · rintro ⟨w', hw'⟩
        refine ⟨w', ?_⟩
        rwa [update_of_ne]
        rintro rfl
        rw [hw] at hw'
        cases hw'
      · rintro ⟨w', hw'⟩
        by_cases hne : w' = w
        · rw [hne, update_self] at hw'
          exact absurd (Option.some.inj hw').symm hk
        · rw [update_of_ne hne] at hw'
          exact ⟨w', hw'⟩
  · by_cases hne₁ : w₁ = w
    · by_cases hne₂ : w₂ = w
      · rw [hne₁, hne₂]
      · rw [hne₁, update_self] at h₁
        rw [update_of_ne hne₂, ← h₁] at h₂
        exact absurd h₂ (hunused w₂)
    · rw [update_of_ne hne₁] at h₁
      by_cases hne₂ : w₂ = w
      · rw [hne₂, update_self] at h₂
        rw [← h₂] at h₁
        exact absurd h₁ (hunused w₁)
      · rw [update_of_ne hne₂] at h₂
        exact h.apart w₁ w₂ k h₁ h₂
  · by_cases hki : k = i
    · rwa [hki]
    · rw [update_of_ne hki] at hk
      exact h.below k hk

omit [Fintype W] in
theorem Uses.release (h : Uses c context busy) (hw : context w = some i) :
    Uses c (update context w none) (update busy i false) := by
  have hrest : ∀ {w' : W} {k : Nat}, update context w none w' = some k → w' ≠ w ∧ context w' = some k := by
    intro w' k hw'
    by_cases hne : w' = w
    · rw [hne, update_self] at hw'
      cases hw'
    · rw [update_of_ne hne] at hw'
      exact ⟨hne, hw'⟩
  refine ⟨fun k => ?_, fun w₁ w₂ k h₁ h₂ => h.apart w₁ w₂ k (hrest h₁).2 (hrest h₂).2, fun k hk => ?_⟩
  · by_cases hk : k = i
    · subst hk
      rw [update_self]
      refine iff_of_false Bool.false_ne_true ?_
      rintro ⟨w', hw'⟩
      obtain ⟨hne, hused⟩ := hrest hw'
      exact hne (h.apart w' w k hused hw)
    · rw [update_of_ne hk, h.used k]
      constructor
      · rintro ⟨w', hw'⟩
        refine ⟨w', ?_⟩
        rwa [update_of_ne]
        rintro rfl
        exact hk (Option.some.inj (hw'.symm.trans hw))
      · rintro ⟨w', hw'⟩
        exact ⟨w', (hrest hw').2⟩
  · by_cases hki : k = i
    · rw [hki, update_self] at hk
      cases hk
    · rw [update_of_ne hki] at hk
      exact h.below k hk

end

omit [Fintype W] in
theorem contexts_update (ht : t.pc = update s.pc w pc) :
    (fun w' => (t.pc w').context) = update (fun w' => (s.pc w').context) w pc.context := by
  funext w'
  rw [ht]
  exact Function.apply_update (fun _ => Pc.context) s.pc w pc w'

omit [Fintype W] in
variable (pc) in
theorem Contexts.keep (h : s.Contexts c) (ht : t.pc = update s.pc w pc) (hbusy : t.busy = s.busy)
    (hcontext : pc.context = (s.pc w).context)
    (hsearch : ∀ i, pc = .searching i → ∃ j, i ≤ j ∧ j < c ∧ s.busy j = false) : t.Contexts c := by
  refine ⟨?_, fun w' i hpc => ?_⟩
  · rw [contexts_update ht, hbusy, hcontext, Function.update_eq_self]
    exact h.uses
  · rw [hbusy]
    by_cases hne : w' = w
    · rw [ht, hne, update_self] at hpc
      exact hsearch i hpc
    · rw [ht, update_of_ne hne] at hpc
      exact h.free w' i hpc

theorem Contexts.claim (h : s.Contexts c) (hcounted : s.Counted c) (hpc : s.pc w = .searching i)
    (hbusy : s.busy i = false) :
    Contexts c ({ s with busy := update s.busy i true }.goto w (.claimed i)) := by
  obtain ⟨-, -, -, halone⟩ := hcounted.alone (w := w) (by rw [hpc]; rfl)
  obtain ⟨j, hle, hlt, -⟩ := h.free w i hpc
  refine ⟨?_, fun w' k hw' => ?_⟩
  · rw [contexts_update (s := s) rfl]
    exact h.uses.claim (by rw [hpc]; rfl) (Nat.lt_of_le_of_lt hle hlt) hbusy
  · -- nobody else looks for a context
    change update s.pc w (.claimed i) w' = _ at hw'
    by_cases hne : w' = w
    · rw [hne, update_self] at hw'
      cases hw'
    · rw [update_of_ne hne] at hw'
      have hzero := halone w' hne
      rw [hw'] at hzero
      cases hzero

omit [Fintype W] in
theorem Contexts.release (h : s.Contexts c) (hpc : s.pc w = .running i) :
    Contexts c ({ s with busy := update s.busy i false }.goto w .released) := by
  refine ⟨?_, fun w' k hw' => ?_⟩
  · rw [contexts_update (s := s) rfl]
    exact h.uses.release (by rw [hpc]; rfl)
  · have hold : s.pc w' = .searching k := by
      change update s.pc w .released w' = _ at hw'
      by_cases hne : w' = w
      · rw [hne, update_self] at hw'
        cases hw'
      · rwa [update_of_ne hne] at hw'
    obtain ⟨j, hle, hlt, hfree⟩ := h.free w' k hold
    refine ⟨j, hle, hlt, ?_⟩
    by_cases hj : j = i
    · exact hj ▸ update_self _ _ _
    · exact (update_of_ne hj _ _).trans hfree

omit [DecidableEq W] [Fintype W] in
theorem Contexts.next (h : s.Contexts c) (hpc : s.pc w = .searching i) (hbusy : s.busy i = true) :
    ∃ j, i + 1 ≤ j ∧ j < c ∧ s.busy j = false := by
  obtain ⟨j, hle, hlt, hfree⟩ := h.free w i hpc
  refine ⟨j, ?_, hlt, hfree⟩
  apply Nat.lt_of_le_of_ne hle
  rintro rfl
  rw [hbusy] at hfree
  cases hfree

theorem Contexts.moves (h : s.Contexts c) (hcounted : s.Counted c) (hmove : Moves c s t) : t.Contexts c := by
  cases hmove with
  | @lock w hpc hlock =>
    refine h.keep (.searching 0) (w := w) rfl rfl (by rw [hpc]; rfl) fun i hi => ?_
    cases hi
    obtain ⟨j, hlt, hfree⟩ := h.exists_free hcounted hlock
    exact ⟨j, Nat.zero_le j, hlt, hfree⟩
  | @next w i hpc hbusy =>
    refine h.keep (.searching (i + 1)) (w := w) rfl rfl (by rw [hpc]; rfl) fun k hk => ?_
    cases hk
    exact h.next hpc hbusy
  | @claim w i hpc hbusy => exact h.claim hcounted hpc hbusy
  | @count w i hpc => exact h.keep _ (w := w) rfl rfl (by rw [hpc]; rfl) nofun
  | @start w i conc hpc hlt => exact h.keep (.running i) (w := w) rfl rfl (by rw [hpc]; rfl) nofun
  | @fill w i conc hpc hge => exact h.keep _ (w := w) rfl rfl (by rw [hpc]; rfl) nofun
  | @release w i hpc => exact h.release hpc
  | @leave w hpc => exact h.keep _ (w := w) rfl rfl (by rw [hpc]; rfl) nofun
  | @reopen w conc hpc hfull => exact h.keep .outside (w := w) rfl rfl (by rw [hpc]; rfl) nofun
  | @exit w conc hpc hfull => exact h.keep _ (w := w) rfl rfl (by rw [hpc]; rfl) nofun

/-! ## Runs -/

structure Sound (c : Nat) (s : State W) : Prop extends Counted c s, Contexts c s

omit [DecidableEq W] in
theorem sum_outside (f : Pc → Nat) (hf : f .outside = 0) : (init : State W).total f = 0 := by
  apply Finset.sum_eq_zero
  intro w _
  exact hf

omit [DecidableEq W] in
theorem init_sound (hc : c ≠ 0) : (init : State W).Sound c where
  count := congrArg Nat.cast (sum_outside Pc.executes rfl).symm
  le := (sum_outside Pc.executes rfl).trans_le (Nat.zero_le c)
  token := by
    rw [executing, sum_outside Pc.executes rfl, sum_outside (Pc.holds c) rfl, if_neg hc.symm]
    rfl
  uses := ⟨fun i => iff_of_false Bool.false_ne_true (by rintro ⟨w, hw⟩; cases hw), nofun, nofun⟩
  free := nofun

theorem Reachable.sound (hc : c ≠ 0) (h : Reachable c s) : s.Sound c := by
  refine h.invariant (init_sound hc) ?_
  intro s a t hsound _ hstep
  have hmove := moves_of_step hstep
  exact ⟨hsound.toCounted.moves hmove, hsound.toContexts.moves hsound.toCounted hmove⟩

theorem Sound.ne_fault (h : s.Sound c) (a : Act W) : step c s a ≠ .fault := by
  have hunlock : ∀ {w : W} {pc : Pc}, (s.pc w).holds c = 1 → (s.goto w pc).unlock ≠ .fault := by
    intro w pc hw
    obtain ⟨-, hlock, -⟩ := h.toCounted.alone hw
    rw [unlock, if_neg (show (s.goto w pc).lock ≠ none from hlock)]
    nofun
  cases a with
  | lock w =>
    rw [step]
    split <;> nofun
  | look w =>
    rw [step]
    split
    · rename_i i hpc
      by_cases hbusy : s.busy i = true
      · obtain ⟨j, hle, hlt, -⟩ := h.toContexts.next hpc hbusy
        rw [if_pos hbusy, if_pos (Nat.lt_of_le_of_lt hle hlt)]
        nofun
      · rw [if_neg hbusy]
        nofun
    · nofun
  | count w | release w | leave w =>
    rw [step]
    split <;> nofun
  | start w =>
    rw [step]
    split
    · rename_i i conc hpc
      by_cases hlt : conc < c
      · rw [if_pos hlt]
        exact hunlock (by rw [hpc]; exact if_pos hlt)
      · rw [if_neg hlt]
        nofun
    · nofun
  | exit w =>
    rw [step]
    split
    · rename_i conc hpc
      by_cases hfull : conc = c
      · rw [if_pos hfull]
        exact hunlock (by rw [hpc]; exact if_pos hfull)
      · rw [if_neg hfull]
        nofun
    · nofun

theorem Counted.locked_iff (h : s.Counted c) (hentry : ∀ w, ¬ (s.pc w).InEntry) :
    s.lock ≠ none ↔ s.executing = c ∨ ∃ w, (s.pc w).Unlocks c := by
  have htoken := h.token
  constructor
  · intro hlock
    rw [if_neg hlock] at htoken
    by_cases hfull : s.executing = c
    · exact .inl hfull
    · rw [if_neg hfull] at htoken
      have hsome : s.total (Pc.holds c) ≠ 0 := by omega
      obtain ⟨w, -, hw⟩ := Finset.exists_ne_zero_of_sum_ne_zero hsome
      have hout := hentry w
      cases hpc : s.pc w with
      | searching i | claimed i | counted i conc =>
        rw [hpc] at hout
        exact absurd trivial hout
      | outside | running i | released =>
        rw [hpc] at hw
        exact absurd rfl hw
      | left conc =>
        rw [hpc] at hw
        by_cases hconc : conc = c
        · refine .inr ⟨w, ?_⟩
          rw [hpc, hconc]
          rfl
        · exact absurd (if_neg hconc) hw
  · rintro (hfull | ⟨w, hw⟩) hlock
    · rw [if_pos hfull, if_pos hlock] at htoken
      omega
    · have hholds : (s.pc w).holds c = 1 := by
        rw [hw]
        exact if_pos rfl
      exact (h.alone hholds).2.1 hlock

end

end State

open State

variable {W : Type} [DecidableEq W] [Fintype W]

/-- In every state of a concurrent box no assertion is about to fail, the invocations are counted and are not more
than the limit, they have contexts of their own, a search ends at a context below the limit, and while nobody is
in the entry section the landing is locked if and only if the box is full or a worker is about to unlock it. -/
theorem box_limited {c : Nat} (hc : 2 ≤ c) {s : State W} (h : Reachable c s) :
    s.concurrency = s.executing ∧ s.executing ≤ c ∧
      (∀ w w' i, (s.pc w).context = some i → (s.pc w').context = some i → w = w') ∧
      (∀ w i, s.pc w = .searching i → ∃ j, i ≤ j ∧ j < c ∧ s.busy j = false) ∧
      (∀ a, step c s a ≠ .fault) ∧
      ((∀ w, ¬ (s.pc w).InEntry) → (s.lock ≠ none ↔ s.executing = c ∨ ∃ w, (s.pc w).Unlocks c)) := by
  have hsound := h.sound (by omega)
  exact ⟨hsound.count, hsound.le, hsound.uses.apart, hsound.free, hsound.ne_fault,
    hsound.toCounted.locked_iff⟩

/-- Two workers have come, and one of them has left the full box. -/
def fullHouse : List (Act Bool) :=
  [.lock false, .look false, .count false, .start false, .lock true, .look true, .look true, .count true,
    .start true, .release false, .leave false]

theorem fullHouse_reachable : ∃ s : State Bool, Reachable 2 s ∧ s.lock = some true ∧ s.pc false = .left 2 ∧
    s.pc true = .running 1 := by
  obtain ⟨s, hrun, hs⟩ : ∃ s, runAll (step 2) (init : State Bool) fullHouse = .done s ∧
      s.lock = some true ∧ s.pc false = .left 2 ∧ s.pc true = .running 1 := by decide
  exact ⟨s, Reach.of_runAll .init (permitted_anyStep _ _ _) hrun, hs⟩

theorem box_limited_two : 2 ≤ 2 ∧ ∃ s : State Bool, Reachable 2 s ∧ s.concurrency = s.executing := by
  obtain ⟨s, hs, -⟩ := fullHouse_reachable
  exact ⟨Nat.le_refl 2, s, hs, (box_limited (Nat.le_refl 2) hs).1⟩

/-- The landing is still locked when the box is not full any more. -/
theorem locked_until_exit :
    ¬ ∀ s : State Bool, Reachable 2 s → (∀ w, ¬ (s.pc w).InEntry) →
      (s.lock ≠ none ↔ s.executing = 2 ∧ ¬ ∃ w, (s.pc w).Unlocks 2) := by
  obtain ⟨s, hs, hlock, hfalse, htrue⟩ := fullHouse_reachable
  intro h
  have hentry : ∀ w, ¬ (s.pc w).InEntry := by
    intro w
    cases w with
    | false => rw [hfalse]; exact id
    | true => rw [htrue]; exact id
  have hlocked : s.lock ≠ none := by
    rw [hlock]
    nofun
  exact ((h s hs hentry).1 hlocked).2 ⟨false, hfalse⟩

end SNet.Box
