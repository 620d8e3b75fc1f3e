import SNetRts.Front.LoopRefs

/-!
# The feedback loop of the front runtime

`SNetNodeFeedback` and `SNetTermFeedback` (`front/xfeedback.c`) as far as the end of the loop goes: the
access landing `feedback1`, where records from outside get a detref, the operand, which may copy,
absorb and forward records and their notifications in any order, and `feedback3`, where records come
back. When the access landing terminates it sends a notification of number `-1` through the loop; and
`feedback3` terminates the loop when that has come and no detref is left.

The access landing, the operand and `feedback3` interleave in any way. The loops of `feedback3` over
`detfifo` take a step for each look at its front.
-/

namespace SNet.Front.Feedback

open Lib LoopRefs

/-- `fb3->terminate`; `FeedbackTerminating` lasts only to the end of the call that sets it. -/
inductive State where
  | initial
  | draining
  | terminated
deriving DecidableEq, Repr

/-- Where `feedback3` is. -/
inductive Pc where
  | idle
  /-- in the loop of `SNetFeedbackLeave` -/
  | leaving
  /-- in the loop of `FeedbackCheckBusy` -/
  | checking
deriving DecidableEq, Repr

structure Net where
  refs : LoopRefs
  /-- The next detref. -/
  fresh : DetrefId
  /-- The access landing has not terminated. -/
  access : Bool
  /-- The access landing has opened the loop (`fb1->instdesc`). -/
  opened : Bool
  /-- The notification of number `-1` is under way. -/
  ending : Bool
  state : State
  pc : Pc

def Net.init : Net := ⟨.init, 0, true, false, false, .initial, .idle⟩

inductive Act where
  /-- A record from outside that matches the back pattern. -/
  | enter
  | copy (d : DetrefId)
  | absorb (d : DetrefId)
  | notify (d : DetrefId)
  /-- The access landing terminates. -/
  | terminate
  /-- A data record comes back; it matches the back pattern, or it leaves. -/
  | back (d : DetrefId) (again : Bool)
  /-- A notification comes back. -/
  | note (d : DetrefId)
  /-- The notification of number `-1` comes back. -/
  | noteEnd
  /-- `feedback3` looks at the front of `detfifo`. -/
  | look

namespace Net

/-- `feedback3` behind the loop of `SNetFeedbackLeave`. -/
def left (n : Net) : Outcome Net :=
  if n.state = .initial then .done { n with pc := .idle }
  else if n.state = .draining then .done { n with pc := .checking }
  else .fault

/-- `feedback3` looks at the front of `detfifo` in one of its loops. -/
def look (n : Net) : Outcome Net :=
  match n.pc with
  | .idle => .blocked
  | .leaving =>
    match n.refs.front with
    | .unused rest => .done { n with refs := { n.refs with detfifo := rest } }
    | _ => n.left
  | .checking =>
    match n.refs.front with
    | .unused rest => .done { n with refs := { n.refs with detfifo := rest } }
    | .inUse => .done { n with pc := .idle }
    | .empty =>
      .done { n with pc := .idle, state := if n.state = .draining then .terminated else n.state }

def step (n : Net) : Act → Outcome Net
  | .enter =>
    if n.access then
      .done { n with refs := n.refs.add n.fresh, fresh := n.fresh + 1, opened := true }
    else .blocked
  | .copy d => (n.refs.copy d).bind fun refs => .done { n with refs := refs }
  | .absorb d => (n.refs.absorb d).bind fun refs => .done { n with refs := refs }
  | .notify d => (n.refs.notify d).bind fun refs => .done { n with refs := refs }
  | .terminate =>
    if n.access then
      if n.state ≠ .initial then .fault
      else .done { n with access := false, ending := n.opened }
    else .blocked
  | .back d again =>
    if n.pc ≠ .idle ∨ d ∉ n.refs.live then .blocked
    else if n.state = .terminated then .fault
    else if again then .done n
    else (n.refs.leave d).bind fun refs => .done { n with refs := refs, pc := .leaving }
  | .note d =>
    if n.pc ≠ .idle then .blocked
    else (n.refs.receive d).bind fun refs =>
      if n.state = .terminated then .done { n with refs := refs }
      else .done { n with refs := refs, pc := .checking }
  | .noteEnd =>
    if n.pc ≠ .idle ∨ n.ending = false then .blocked
    else if n.state = .terminated then .done { n with ending := false }
    else if n.state ≠ .initial then .fault
    else .done { n with ending := false, state := .draining, pc := .checking }
  | .look => n.look

end Net

/-! ## The invariant -/

structure Inv (n : Net) : Prop where
  counted : LoopRefs.Counted n.refs
  fresh : ∀ d ∈ n.refs.detfifo, d < n.fresh
  /-- The loop ends only after the access landing has. -/
  ended : n.ending = true ∨ n.state ≠ .initial → n.access = false
  /-- There is one notification of number `-1`. -/
  once : n.ending = true → n.state = .initial
  /-- While the loop is drained there is something to wait for. -/
  draining : n.state = .draining → n.pc = .idle → Waits n.refs
  terminated : n.state = .terminated → n.refs.live = [] ∧ n.pc = .idle

theorem inv_init : Inv Net.init :=
  ⟨LoopRefs.counted_init, nofun, fun h => (h.elim nofun fun h => absurd rfl h), nofun, nofun, nofun⟩

variable {n n' : Net}

theorem Inv.operand (h : Inv n) {refs : LoopRefs} (hcounted : LoopRefs.Counted refs)
    (hfifo : refs.detfifo = n.refs.detfifo) (hwaits : Waits n.refs → Waits refs)
    (hlive : n.refs.live = [] → refs.live = []) : Inv { n with refs := refs } := by
  refine ⟨hcounted, fun d hd => h.fresh d (hfifo ▸ hd), h.ended, h.once,
    fun hs hp => hwaits (h.draining hs hp), fun hs => ?_⟩
  exact ⟨hlive (h.terminated hs).1, (h.terminated hs).2⟩

theorem Inv.left (h : Inv n) (hl : n.left = .done n') : Inv n' := by
  unfold Net.left at hl
  split at hl
  · rename_i hs
    cases hl
    refine ⟨h.counted, h.fresh, h.ended, h.once, fun hd => ?_, fun ht => ?_⟩
    · exact absurd (hs.symm.trans hd) nofun
    · exact absurd (hs.symm.trans ht) nofun
  · split at hl
    · rename_i hs
      cases hl
      exact ⟨h.counted, h.fresh, h.ended, h.once, nofun, fun ht => absurd (hs.symm.trans ht) nofun⟩
    · cases hl

theorem Inv.look (h : Inv n) (hl : n.look = .done n') : Inv n' := by
  have hrest : ∀ {rest : List DetrefId} {pc : Pc}, n.refs.front = .unused rest → n.pc = pc →
      pc ≠ .idle → Inv { n with refs := { n.refs with detfifo := rest }, pc := pc } := by
    rintro rest pc hf rfl hpc
    obtain ⟨hc, d, hq, -⟩ := h.counted.pop hf
    refine ⟨hc, fun x hx => h.fresh x (hq ▸ List.mem_cons_of_mem _ hx), h.ended, h.once,
      fun _ hp => absurd hp hpc, h.terminated⟩
  unfold Net.look at hl
  cases hpc : n.pc with
  | idle =>
    rw [hpc] at hl
    cases hl
  | leaving =>
    rw [hpc] at hl
    dsimp only at hl
    cases hf : n.refs.front with
    | unused rest =>
      rw [hf] at hl
      cases hl
      exact hrest hf hpc nofun
    | empty =>
      rw [hf] at hl
      exact h.left hl
    | inUse =>
      rw [hf] at hl
      exact h.left hl
  | checking =>
    have hnot : n.state ≠ .terminated := fun hs => by
      have := (h.terminated hs).2
      rw [hpc] at this
      cases this
    rw [hpc] at hl
    dsimp only at hl
    cases hf : n.refs.front with
    | unused rest =>
      rw [hf] at hl
      cases hl
      exact hrest hf hpc nofun
    | inUse =>
      rw [hf] at hl
      cases hl
      exact ⟨h.counted, h.fresh, h.ended, h.once, fun _ _ => waits_of_front hf,
        fun hs => absurd hs hnot⟩
    | empty =>
      rw [hf] at hl
      cases hl
      -- no detref is left, and so no record
      have hnil : n.refs.detfifo = [] := LoopRefs.detfifo_of_front hf
      have hlive : n.refs.live = [] := by
        refine List.eq_nil_iff_forall_not_mem.2 fun d hd => ?_
        have := h.counted.live d hd
        rw [hnil] at this
        cases this
      by_cases hs : n.state = .draining
      · refine ⟨h.counted, h.fresh, fun _ => h.ended (Or.inr (by simp [hs])), fun he => ?_, fun hd => ?_,
          fun _ => ⟨hlive, rfl⟩⟩
        · have := h.once he
          rw [hs] at this
          cases this
        · simp [hs] at hd
      · simp only [if_neg hs]
        exact ⟨h.counted, h.fresh, h.ended, h.once, fun hd => absurd hd hs, fun ht => absurd ht hnot⟩

theorem Inv.step (h : Inv n) {a : Act} (hn : n.step a = .done n') : Inv n' := by
  cases a with
  | enter =>
    unfold Net.step at hn
    dsimp only at hn
    split at hn
    · rename_i hacc
      cases hn
      have hnew : n.fresh ∉ n.refs.detfifo := fun hm => Nat.lt_irrefl _ (h.fresh _ hm)
      have hini : n.state = .initial := by
        by_contra hne
        have := h.ended (Or.inr hne)
        rw [hacc] at this
        cases this
      refine ⟨h.counted.add hnew, fun d hd => ?_, h.ended, h.once, fun hs => ?_, fun hs => ?_⟩
      · rcases List.mem_append.1 hd with hd | hd
        · exact Nat.lt_succ_of_lt (h.fresh d hd)
        · exact List.mem_singleton.1 hd ▸ Nat.lt_succ_self _
      · exact absurd (hini.symm.trans hs) nofun
      · exact absurd (hini.symm.trans hs) nofun
    · cases hn
  | copy d =>
    obtain ⟨refs, h1, h2⟩ := Outcome.bind_eq_done.1 hn
    cases h2
    have hd := (copy_eq_done h1).1
    refine h.operand (h.counted.copy h1) ?_ (fun hw => hw.copy h1) fun hl => ?_
    · rw [(copy_eq_done h1).2]
    · rw [hl] at hd
      cases hd
  | absorb d =>
    obtain ⟨refs, h1, h2⟩ := Outcome.bind_eq_done.1 hn
    cases h2
    have hd := (absorb_eq_done h1).1
    refine h.operand (h.counted.absorb h1) ?_ (fun hw => hw.absorb h.counted h1) fun hl => ?_
    · rw [(absorb_eq_done h1).2]
    · rw [hl] at hd
      cases hd
  | notify d =>
    obtain ⟨refs, h1, h2⟩ := Outcome.bind_eq_done.1 hn
    cases h2
    refine h.operand (h.counted.notify h1) ?_ (fun hw => hw.notify h1) fun hl => ?_
    · rw [(notify_eq_done h1).2]
    · rw [(notify_eq_done h1).2]
      exact hl
  | terminate =>
    unfold Net.step at hn
    dsimp only at hn
    split at hn
    · split at hn
      · cases hn
      · rename_i hs
        cases hn
        exact ⟨h.counted, h.fresh, fun _ => rfl, fun _ => not_not.1 hs, h.draining, h.terminated⟩
    · cases hn
  | back d again =>
    unfold Net.step at hn
    dsimp only at hn
    split at hn
    · cases hn
    · split at hn
      · cases hn
      · rename_i hs
        split at hn
        · cases hn
          exact h
        · obtain ⟨refs, h1, h2⟩ := Outcome.bind_eq_done.1 hn
          cases h2
          refine ⟨h.counted.leave h1, fun x hx => h.fresh x ?_, h.ended, h.once, nofun,
            fun ht => absurd ht hs⟩
          rw [(leave_eq_done h1).2] at hx
          exact hx
  | note d =>
    unfold Net.step at hn
    dsimp only at hn
    split at hn
    · cases hn
    · rename_i hpc
      have hpc : n.pc = .idle := not_not.1 hpc
      obtain ⟨refs, h1, h2⟩ := Outcome.bind_eq_done.1 hn
      obtain ⟨-, hrefs⟩ := receive_eq_done h1
      split at h2
      · rename_i hs
        cases h2
        subst hrefs
        exact ⟨h.counted.receive h1, h.fresh, h.ended, h.once,
          fun hd => absurd (hs.symm.trans hd) nofun, h.terminated⟩
      · rename_i hs
        cases h2
        subst hrefs
        exact ⟨h.counted.receive h1, h.fresh, h.ended, h.once, nofun, fun ht => absurd ht hs⟩
  | noteEnd =>
    unfold Net.step at hn
    dsimp only at hn
    split at hn
    · cases hn
    · rename_i hb
      obtain ⟨-, he⟩ := not_or.1 hb
      have he : n.ending = true := by simpa using he
      have hini := h.once he
      split at hn
      · rename_i hs
        exact absurd (hini.symm.trans hs) nofun
      · split at hn
        · cases hn
        · cases hn
          exact ⟨h.counted, h.fresh, fun _ => h.ended (Or.inl he), nofun, nofun, nofun⟩
  | look => exact h.look hn

theorem Inv.step_ne_fault (h : Inv n) (a : Act) : n.step a ≠ .fault := by
  cases a with
  | enter =>
    unfold Net.step
    dsimp only
    split <;> nofun
  | copy d => exact Outcome.bind_ne_fault (h.counted.copy_ne_fault d) fun _ _ => nofun
  | absorb d => exact Outcome.bind_ne_fault (h.counted.absorb_ne_fault d) fun _ _ => nofun
  | notify d => exact Outcome.bind_ne_fault (h.counted.notify_ne_fault d) fun _ _ => nofun
  | terminate =>
    unfold Net.step
    dsimp only
    split
    · rename_i hacc
      split
      · rename_i hs
        have := h.ended (Or.inr hs)
        rw [hacc] at this
        cases this
      · nofun
    · nofun
  | back d again =>
    unfold Net.step
    dsimp only
    split
    · nofun
    · rename_i hb
      obtain ⟨-, hd⟩ := not_or.1 hb
      split
      · rename_i hs
        rw [(h.terminated hs).1] at hd
        exact absurd nofun hd
      · split
        · nofun
        · exact Outcome.bind_ne_fault (h.counted.leave_ne_fault d) fun _ _ => nofun
  | note d =>
    unfold Net.step
    dsimp only
    split
    · nofun
    · refine Outcome.bind_ne_fault (n.refs.receive_ne_fault d) fun _ _ => ?_
      split <;> nofun
  | noteEnd =>
    unfold Net.step
    dsimp only
    split
    · nofun
    · rename_i hb
      obtain ⟨-, he⟩ := not_or.1 hb
      have he : n.ending = true := by simpa using he
      have hini := h.once he
      split
      · nofun
      · split
        · rename_i hs
          exact absurd hini hs
        · nofun
  | look =>
    have hleft : n.pc = .leaving → n.left ≠ .fault := by
      intro hpc
      unfold Net.left
      split
      · nofun
      · split
        · nofun
        · rename_i h1 h2
          cases hs : n.state with
          | initial => exact absurd hs h1
          | draining => exact absurd hs h2
          | terminated => exact absurd (hpc.symm.trans (h.terminated hs).2) nofun
    change n.look ≠ .fault
    unfold Net.look
    cases hpc : n.pc with
    | idle => nofun
    | leaving =>
      dsimp only
      cases n.refs.front with
      | unused rest => nofun
      | empty => exact hleft hpc
      | inUse => exact hleft hpc
    | checking =>
      dsimp only
      cases n.refs.front <;> nofun

/-! ## Every run -/

/-- What is asked of the loop. -/
structure EndsWell (n : Net) : Prop where
  /-- A reference count is one more than the number of records that have the detref, or zero. -/
  refcount : ∀ d ∈ n.refs.detfifo, n.refs.refcount d = 1 + n.refs.live.count d ∨
    (n.refs.live.count d = 0 ∧ n.refs.refcount d = 0)
  /-- The loop has been terminated only if no record is in it, and none can come. -/
  notEarly : n.state = .terminated → n.refs.live = [] ∧ n.access = false
  /-- The loop has been terminated when the notification of number `-1` has been handled, no record is
  left, and the notifications of those that were absorbed have been handled. -/
  notNever : n.state ≠ .initial → n.refs.live = [] → n.refs.dying = [] → n.refs.notes = [] →
    n.pc = .idle → n.state = .terminated
  /-- No assertion fails. -/
  noFault : ∀ a, n.step a ≠ .fault

/-- In every run of a feedback network the loop ends neither early nor never. -/
theorem feedback_ends {n : Net} (h : Reach Net.step anyStep Net.init n) : EndsWell n := by
  have hinv : Inv n := h.invariant inv_init fun s a s' hs _ hstep => hs.step hstep
  refine ⟨fun d hd => hinv.counted.refcount_eq hd, fun hs => ?_, fun hs hl hd hn hp => ?_,
    hinv.step_ne_fault⟩
  · exact ⟨(hinv.terminated hs).1, hinv.ended (Or.inr (by simp [hs]))⟩
  · cases hstate : n.state with
    | initial => exact absurd hstate hs
    | draining => exact absurd (hinv.draining hstate hp) (hinv.counted.not_waits hl hd hn)
    | terminated => rfl

/-- A record is copied in the loop, one of the two is absorbed, the other leaves after the access
landing has terminated; then the loop is terminated. -/
theorem feedback_run : ∃ n, Reach Net.step anyStep Net.init n ∧ EndsWell n ∧ n.state = .terminated := by
  have hrun : ∃ n, runAll Net.step Net.init [.enter, .copy 0, .absorb 0, .terminate, .noteEnd, .look,
      .back 0 false, .look, .look, .look] = .done n ∧ n.state = .terminated := ⟨_, rfl, rfl⟩
  obtain ⟨n, hrun, hstate⟩ := hrun
  have hreach := Reach.of_runAll .init (permitted_anyStep _ _ _) hrun
  exact ⟨n, hreach, feedback_ends hreach, hstate⟩

end SNet.Front.Feedback
