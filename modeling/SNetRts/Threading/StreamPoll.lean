import SNetRts.Threading.Stream
import SNetRts.Lib.Bounded
import Mathlib.Data.Fintype.Basic
import Mathlib.Data.List.Infix

/-!
# Polling does not sleep through data

What each place of a thread says about the streams that it polls: `is_poll` is set only where the thread
has registered, as long as `wakeup_sd` is `NULL` it is set there and the streams are empty, and otherwise
`wakeup_sd` has something in its buffer. The buffers hold what has been written and not read.
-/

namespace SNet.Threading

open Function (update_of_ne update_self)

open Lib List

variable {D T K R : Type*} [DecidableEq D] [DecidableEq T] [DecidableEq K]
  {thr : D → T} {owner : K → T} {s s' : State D T K R}

/-! ### The sets -/

variable (thr owner) in
/-- The sets are rings of descriptors of their owners, and no descriptor is in two of them. -/
structure Sets (s : State D T K R) : Prop where
  ring : ∀ k, Ring s.next (s.set k) (s.members k)
  short : ∀ k, (s.members k).length ≤ s.puts
  apart : ∀ k k' sd, sd ∈ s.members k → sd ∈ s.members k' → k = k'
  own : ∀ k sd, sd ∈ s.members k → thr sd = owner k

namespace Sets

omit [DecidableEq T] [DecidableEq K] in
theorem init (capacity : D → Int) : Sets thr owner (State.init capacity : State D T K R) where
  ring _ := Ring.nil _
  short _ := Nat.le_refl 0
  apart _ _ _ h := nomatch h
  own _ _ h := nomatch h

omit [DecidableEq T] [DecidableEq K] in
theorem members_congr (hnext : s'.next = s.next) (hset : s'.set = s.set) (hputs : s'.puts = s.puts) :
    s'.members = s.members := by
  funext k
  unfold State.members
  rw [hnext, hset, hputs]

omit [DecidableEq T] [DecidableEq K] in
theorem congr (h : Sets thr owner s) (hnext : s'.next = s.next) (hset : s'.set = s.set)
    (hputs : s'.puts = s.puts) : Sets thr owner s' := by
  have hmem := members_congr hnext hset hputs
  refine ⟨fun k => ?_, fun k => ?_, fun k k' sd => ?_, fun k sd => ?_⟩
  · rw [hmem, hnext, hset]
    exact h.ring k
  · rw [hmem, hputs]
    exact h.short k
  · rw [hmem]
    exact h.apart k k' sd
  · rw [hmem]
    exact h.own k sd

omit [DecidableEq T] [DecidableEq K] in
theorem of_rings {l : K → List D} (hring : ∀ k, Ring s.next (s.set k) (l k))
    (hshort : ∀ k, (l k).length ≤ s.puts) (hapart : ∀ k k' sd, sd ∈ l k → sd ∈ l k' → k = k')
    (hown : ∀ k sd, sd ∈ l k → thr sd = owner k) : s.members = l ∧ Sets thr owner s := by
  have hmem : s.members = l := funext fun k => (hring k).members (hshort k)
  refine ⟨hmem, fun k => ?_, fun k => ?_, fun k k' sd => ?_, fun k sd => ?_⟩
  · rw [hmem]
    exact hring k
  · rw [hmem]
    exact hshort k
  · rw [hmem]
    exact hapart k k' sd
  · rw [hmem]
    exact hown k sd

omit [DecidableEq T] in
theorem update (h : Sets thr owner s) {k : K} {l : List D} (hring : Ring s'.next (s'.set k) l)
    (hother : ∀ k', k' ≠ k → s'.set k' = s.set k' ∧ ∀ sd ∈ s.members k', s'.next sd = s.next sd)
    (hshort : l.length ≤ s'.puts) (hputs : s.puts ≤ s'.puts)
    (hnew : ∀ sd ∈ l, sd ∈ s.members k ∨ thr sd = owner k ∧ ∀ k', sd ∉ s.members k') :
    s'.members = Function.update s.members k l ∧ Sets thr owner s' := by
  refine of_rings (fun k' => ?_) (fun k' => ?_) (fun k' k'' sd => ?_) (fun k' sd => ?_)
  · by_cases hk : k' = k
    · subst hk
      rw [update_self]
      exact hring
    · rw [update_of_ne hk, (hother k' hk).1]
      exact (h.ring k').congr (hother k' hk).2
  · by_cases hk : k' = k
    · subst hk
      rw [update_self]
      exact hshort
    · rw [update_of_ne hk]
      exact Nat.le_trans (h.short k') hputs
  · -- a member of the changed set is in no other one
    have hone : ∀ k₁, k₁ ≠ k → sd ∈ l → sd ∉ s.members k₁ := by
      intro k₁ hk₁ hl hmem
      rcases hnew sd hl with hold | ⟨-, hno⟩
      · exact hk₁ (h.apart k₁ k sd hmem hold)
      · exact hno k₁ hmem
    intro h1 h2
    by_cases hk : k' = k
    · subst hk
      rw [update_self] at h1
      by_contra hne
      rw [update_of_ne (Ne.symm hne)] at h2
      exact hone k'' (Ne.symm hne) h1 h2
    · rw [update_of_ne hk] at h1
      by_cases hk' : k'' = k
      · subst hk'
        rw [update_self] at h2
        exact absurd h1 (hone k' hk h2)
      · rw [update_of_ne hk'] at h2
        exact h.apart k' k'' sd h1 h2
  · intro hmem
    by_cases hk : k' = k
    · subst hk
      rw [update_self] at hmem
      rcases hnew sd hmem with hold | ⟨hown, -⟩
      · exact h.own k' sd hold
      · exact hown
    · rw [update_of_ne hk] at hmem
      exact h.own k' sd hmem

end Sets

omit [DecidableEq D] [DecidableEq K] in
@[simp] theorem State.setWakeup_self (t : T) (sd : Option D) : (s.setWakeup t sd).wakeup t = sd :=
  update_self _ _ _

omit [DecidableEq T] [DecidableEq K] in
@[simp] theorem State.setStream_self (sd : D) (x : Stream R) : (s.setStream sd x).stream sd = x :=
  update_self _ _ _

omit [DecidableEq T] [DecidableEq K] in
theorem State.setStream_ne {sd sd' : D} (x : Stream R) (hne : sd' ≠ sd) :
    (s.setStream sd x).stream sd' = s.stream sd' :=
  update_of_ne hne _ _

/-! ### What the places of a thread say -/

variable (thr) in
/-- Of the streams of the thread at most those of `l` have `is_poll`. -/
def Flags (s : State D T K R) (t : T) (l : List D) : Prop :=
  ∀ sd, thr sd = t → (s.stream sd).isPoll = true → sd ∈ l

def Armed (s : State D T K R) (l : List D) : Prop :=
  ∀ sd ∈ l, (s.stream sd).isPoll = true ∧ (s.stream sd).count = 0

def Ready (s : State D T K R) (k : K) (sd : D) : Prop :=
  sd ∈ s.members k ∧ 0 < (s.stream sd).count

variable (thr owner) in
/-- What holds for a thread that has registered with `cnt` streams. -/
def Registered (s : State D T K R) (t : T) (k : K) (cnt : Nat) : Prop :=
  owner k = t ∧ (∀ sd, s.wakeup t = some sd → Ready s k sd) ∧
    ∃ as, as <+: s.members k ∧ cnt = as.length ∧ Flags thr s t as ∧
      (s.wakeup t = none → as = s.members k ∧ Armed s as)

variable (thr owner) in
/-- What the place of a thread says. `as` is the part of the set that a loop has gone through. -/
def PcSound (s : State D T K R) (t : T) : Pc D K → Prop
  | .idle => Flags thr s t []
  | .reading sd signalled =>
    thr sd = t ∧ (signalled = false → (s.stream sd).count = 0) ∧ Flags thr s t []
  | .fast k cur result =>
    owner k = t ∧ (∃ as, as <+: s.members k ∧ cur = as.getLast?) ∧
      (∀ sd, result = some sd → Ready s k sd) ∧ Flags thr s t []
  | .reset k => owner k = t ∧ Flags thr s t []
  | .register k cur cnt =>
    owner k = t ∧ (∀ sd, s.wakeup t = some sd → Ready s k sd) ∧
      ∃ as, as <+: s.members k ∧ cur = as.getLast? ∧ cnt = as.length ∧ Flags thr s t as ∧
        (s.wakeup t = none → Armed s as)
  | .check k cnt => Registered thr owner s t k cnt
  | .sleeping k cnt signalled =>
    Registered thr owner s t k cnt ∧ (signalled = false → s.wakeup t = none)
  | .clear k result cur cnt =>
    owner k = t ∧ Ready s k result ∧
      ∃ reg as, reg <+: s.members k ∧ as <+: s.members k ∧ cur = as.getLast? ∧
        cnt = reg.length - as.length ∧
        ∀ sd, thr sd = t → (s.stream sd).isPoll = true → sd ∈ reg ∧ sd ∉ as
  | .polled k result => owner k = t ∧ Ready s k result ∧ Flags thr s t []

variable (thr owner) in
structure Inv (s : State D T K R) : Prop where
  sets : Sets thr owner s
  buffers : ∀ sd, ∃ l, Bounded.Holds (s.stream sd).size (s.stream sd).buffer (s.stream sd).head
    (s.stream sd).tail (s.stream sd).count l ∧ s.written sd = s.got sd ++ l
  writers : ∀ sd item, s.writer sd = .waiting item false → (s.stream sd).count = (s.stream sd).size
  threads : ∀ t, PcSound thr owner s t (s.pc t)

/-- Nothing has changed for a thread. -/
structure Same (thr : D → T) (owner : K → T) (s s' : State D T K R) (t : T) : Prop where
  members : ∀ k, owner k = t → s'.members k = s.members k
  stream : ∀ sd, thr sd = t → s'.stream sd = s.stream sd
  wakeup : s'.wakeup t = s.wakeup t

namespace Same

variable {t : T} {k : K} {sd : D} {l : List D} {cnt : Nat}

omit [DecidableEq T] [DecidableEq K] in
theorem flags (hsame : Same thr owner s s' t) (h : Flags thr s t l) : Flags thr s' t l := by
  intro sd hsd hpoll
  rw [hsame.stream sd hsd] at hpoll
  exact h sd hsd hpoll

omit [DecidableEq T] [DecidableEq K] in
theorem ready (hsame : Same thr owner s s' t) (hsets : Sets thr owner s) (hk : owner k = t)
    (h : Ready s k sd) : Ready s' k sd := by
  obtain ⟨hmem, hcount⟩ := h
  refine ⟨?_, ?_⟩
  · rwa [hsame.members k hk]
  · rwa [hsame.stream sd ((hsets.own k sd hmem).trans hk)]

omit [DecidableEq T] [DecidableEq K] in
theorem woken (hsame : Same thr owner s s' t) (hsets : Sets thr owner s) (hk : owner k = t)
    (h : ∀ sd, s.wakeup t = some sd → Ready s k sd) (sd : D) (hsd : s'.wakeup t = some sd) :
    Ready s' k sd := by
  rw [hsame.wakeup] at hsd
  exact hsame.ready hsets hk (h sd hsd)

omit [DecidableEq T] [DecidableEq K] in
theorem armed (hsame : Same thr owner s s' t) (hsets : Sets thr owner s) (hk : owner k = t)
    (hl : l <+: s.members k) (h : Armed s l) : Armed s' l := by
  intro sd hsd
  rw [hsame.stream sd ((hsets.own k sd (hl.subset hsd)).trans hk)]
  exact h sd hsd

omit [DecidableEq T] [DecidableEq K] in
theorem registered (hsame : Same thr owner s s' t) (hsets : Sets thr owner s)
    (h : Registered thr owner s t k cnt) : Registered thr owner s' t k cnt := by
  obtain ⟨hk, hw, as, has, hcnt, hfl, ha⟩ := h
  refine ⟨hk, hsame.woken hsets hk hw, as, ?_, hcnt, hsame.flags hfl, fun hn => ?_⟩
  · rwa [hsame.members k hk]
  · rw [hsame.wakeup] at hn
    rw [hsame.members k hk]
    exact ⟨(ha hn).1, hsame.armed hsets hk has (ha hn).2⟩

omit [DecidableEq T] [DecidableEq K] in
theorem sound {pc : Pc D K} (hsame : Same thr owner s s' t) (hsets : Sets thr owner s)
    (h : PcSound thr owner s t pc) : PcSound thr owner s' t pc := by
  cases pc with
  | idle => exact hsame.flags h
  | reading sd signalled =>
    obtain ⟨hsd, hcount, hfl⟩ := h
    refine ⟨hsd, ?_, hsame.flags hfl⟩
    rwa [hsame.stream sd hsd]
  | fast k cur result =>
    obtain ⟨hk, hcur, hresult, hfl⟩ := h
    refine ⟨hk, ?_, fun sd hsd => hsame.ready hsets hk (hresult sd hsd), hsame.flags hfl⟩
    rwa [hsame.members k hk]
  | reset k => exact ⟨h.1, hsame.flags h.2⟩
  | register k cur cnt =>
    obtain ⟨hk, hw, as, has, hcur, hcnt, hfl, ha⟩ := h
    refine ⟨hk, hsame.woken hsets hk hw, as, ?_, hcur, hcnt, hsame.flags hfl, fun hn => ?_⟩
    · rwa [hsame.members k hk]
    · rw [hsame.wakeup] at hn
      exact hsame.armed hsets hk has (ha hn)
  | check k cnt => exact hsame.registered hsets h
  | sleeping k cnt signalled =>
    refine ⟨hsame.registered hsets h.1, ?_⟩
    rw [hsame.wakeup]
    exact h.2
  | clear k result cur cnt =>
    obtain ⟨hk, hresult, reg, as, hreg, has, hcur, hcnt, hfl⟩ := h
    refine ⟨hk, hsame.ready hsets hk hresult, reg, as, ?_, ?_, hcur, hcnt, fun sd hsd hpoll => ?_⟩
    · rwa [hsame.members k hk]
    · rwa [hsame.members k hk]
    · rw [hsame.stream sd hsd] at hpoll
      exact hfl sd hsd hpoll
  | polled k result => exact ⟨h.1, hsame.ready hsets h.1 h.2.1, hsame.flags h.2.2⟩

end Same

/-! ### Writing -/

/-- What a write that finds room does. -/
structure Wrote (thr : D → T) (s s' : State D T K R) (sd : D) (item : R) : Prop where
  next : s'.next = s.next
  set : s'.set = s.set
  puts : s'.puts = s.puts
  got : s'.got = s.got
  stream : s'.stream = Function.update s.stream sd (((s.stream sd).put item).setPoll false)
  writer : s'.writer = Function.update s.writer sd .idle
  written : s'.written = Function.update s.written sd (s.written sd ++ [item])
  wakeup : s'.wakeup = Function.update s.wakeup (thr sd)
    (if (s.stream sd).isPoll then (s.wakeup (thr sd)).or (some sd) else s.wakeup (thr sd))
  pc : s'.pc = Function.update s.pc (thr sd)
    (let pc := if (s.stream sd).count = 0 then (s.pc (thr sd)).signalNotempty sd else s.pc (thr sd)
    if (s.stream sd).isPoll = true ∧ s.wakeup (thr sd) = none then pc.signalPoll else pc)

omit [DecidableEq K] in
theorem doWrite_wrote {sd : D} (item : R) (hroom : (s.stream sd).count ≠ (s.stream sd).size) :
    Wrote thr s (s.doWrite thr sd item) sd item := by
  have hput : ((s.stream sd).put item).count = 1 ↔ (s.stream sd).count = 0 := Nat.succ_inj
  have hkeep : (s.stream sd).isPoll = false →
      ((s.stream sd).put item).setPoll false = (s.stream sd).put item := by
    intro h
    unfold Stream.setPoll
    rw [← h]
    rfl
  unfold State.doWrite
  simp only [if_neg hroom, hput]
  cases hpoll : (s.stream sd).isPoll with
  | false =>
    by_cases hcount : (s.stream sd).count = 0 <;>
      constructor <;>
      simp [State.signalNotempty, State.goTo, State.setStream, hcount, hpoll, hkeep hpoll]
  | true =>
    cases hw : s.wakeup (thr sd) <;> by_cases hcount : (s.stream sd).count = 0 <;>
      constructor <;>
      simp [State.signalNotempty, State.wakeUp, State.goTo, State.setStream, State.setWakeup, hcount, hpoll,
        hw]

namespace Wrote

variable {sd : D} {item : R} {k : K} {l : List D} {cnt : Nat}

omit [DecidableEq K] in
theorem members (h : Wrote thr s s' sd item) : s'.members = s.members :=
  Sets.members_congr h.next h.set h.puts

omit [DecidableEq K] in
theorem stream_ne (h : Wrote thr s s' sd item) {sd' : D} (hne : sd' ≠ sd) :
    s'.stream sd' = s.stream sd' := by
  rw [h.stream, update_of_ne hne]

omit [DecidableEq K] in
theorem stream_self (h : Wrote thr s s' sd item) :
    s'.stream sd = ((s.stream sd).put item).setPoll false := by
  rw [h.stream, update_self]

omit [DecidableEq K] in
theorem count_pos (h : Wrote thr s s' sd item) {sd' : D} (hpos : 0 < (s.stream sd').count) :
    0 < (s'.stream sd').count := by
  by_cases hsd : sd' = sd
  · subst hsd
    rw [h.stream_self]
    exact Nat.succ_pos _
  · rwa [h.stream_ne hsd]

omit [DecidableEq K] in
theorem isPoll (h : Wrote thr s s' sd item) {sd' : D} (hpoll : (s'.stream sd').isPoll = true) :
    sd' ≠ sd ∧ (s.stream sd').isPoll = true := by
  by_cases hsd : sd' = sd
  · subst hsd
    rw [h.stream_self] at hpoll
    cases hpoll
  · rw [h.stream_ne hsd] at hpoll
    exact ⟨hsd, hpoll⟩

omit [DecidableEq K] in
theorem flags (h : Wrote thr s s' sd item) {t : T} (hl : Flags thr s t l) : Flags thr s' t l :=
  fun sd' hsd hpoll => hl sd' hsd (h.isPoll hpoll).2

omit [DecidableEq K] in
theorem ready (h : Wrote thr s s' sd item) {sd' : D} (hr : Ready s k sd') : Ready s' k sd' := by
  refine ⟨?_, h.count_pos hr.2⟩
  rw [h.members]
  exact hr.1

omit [DecidableEq K] in
theorem wakeup_self (h : Wrote thr s s' sd item) : s'.wakeup (thr sd) =
    if (s.stream sd).isPoll then (s.wakeup (thr sd)).or (some sd) else s.wakeup (thr sd) := by
  rw [h.wakeup, update_self]

omit [DecidableEq K] in
theorem woken (h : Wrote thr s s' sd item) (hl : l <+: s.members k) (hfl : Flags thr s (thr sd) l)
    (hw : ∀ sd', s.wakeup (thr sd) = some sd' → Ready s k sd') (sd' : D)
    (hsd' : s'.wakeup (thr sd) = some sd') : Ready s' k sd' := by
  rw [h.wakeup_self] at hsd'
  split at hsd'
  case isFalse => exact h.ready (hw sd' hsd')
  case isTrue hpoll =>
    cases hwake : s.wakeup (thr sd) with
    | some sd'' =>
      rw [hwake] at hsd'
      exact h.ready (hw sd' (hwake.trans hsd'))
    | none =>
      rw [hwake] at hsd'
      cases hsd'
      refine ⟨?_, ?_⟩
      · rw [h.members]
        exact hl.subset (hfl sd rfl hpoll)
      · rw [h.stream_self]
        exact Nat.succ_pos _

omit [DecidableEq K] in
theorem not_woken (h : Wrote thr s s' sd item) (hn : s'.wakeup (thr sd) = none) :
    s.wakeup (thr sd) = none ∧ (s.stream sd).isPoll = false := by
  rw [h.wakeup_self] at hn
  cases hpoll : (s.stream sd).isPoll with
  | false =>
    rw [hpoll] at hn
    exact ⟨hn, rfl⟩
  | true =>
    rw [hpoll] at hn
    cases hwake : s.wakeup (thr sd) with
    | none =>
      rw [hwake] at hn
      cases hn
    | some sd' =>
      rw [hwake] at hn
      cases hn

omit [DecidableEq K] in
theorem armed (h : Wrote thr s s' sd item) (hn : s'.wakeup (thr sd) = none) (ha : Armed s l) :
    Armed s' l := by
  intro sd' hsd'
  have hne : sd' ≠ sd := by
    rintro rfl
    have := (ha sd' hsd').1
    rw [(h.not_woken hn).2] at this
    cases this
  rw [h.stream_ne hne]
  exact ha sd' hsd'

omit [DecidableEq K] in
theorem registered (h : Wrote thr s s' sd item) (hr : Registered thr owner s (thr sd) k cnt) :
    Registered thr owner s' (thr sd) k cnt := by
  obtain ⟨hk, hw, as, has, hcnt, hfl, ha⟩ := hr
  refine ⟨hk, h.woken has hfl hw, as, ?_, hcnt, h.flags hfl, fun hn => ?_⟩
  · rwa [h.members]
  · obtain ⟨hall, ha⟩ := ha (h.not_woken hn).1
    rw [h.members]
    exact ⟨hall, h.armed hn ha⟩

omit [DecidableEq K] in
theorem sound_self (h : Wrote thr s s' sd item) (hs : PcSound thr owner s (thr sd) (s.pc (thr sd))) :
    PcSound thr owner s' (thr sd) (s'.pc (thr sd)) := by
  rw [h.pc, update_self]
  generalize s.pc (thr sd) = pc at hs
  cases pc with
  | idle =>
    simp only [Pc.signalNotempty, Pc.signalPoll, ite_self]
    exact h.flags hs
  | reading sd' signalled =>
    obtain ⟨hsd, hcount, hfl⟩ := hs
    simp only [Pc.signalNotempty]
    by_cases hempty : (s.stream sd).count = 0
    · simp only [if_pos hempty, Pc.signalPoll, ite_self]
      refine ⟨hsd, fun hsig => ?_, h.flags hfl⟩
      obtain ⟨hsig, hne⟩ := Bool.or_eq_false_iff.1 hsig
      rw [h.stream_ne (of_decide_eq_false hne)]
      exact hcount hsig
    · simp only [if_neg hempty, Pc.signalPoll, ite_self]
      refine ⟨hsd, fun hsig => ?_, h.flags hfl⟩
      have hne : sd' ≠ sd := by
        rintro rfl
        exact hempty (hcount hsig)
      rw [h.stream_ne hne]
      exact hcount hsig
  | fast k cur result =>
    obtain ⟨hk, hcur, hresult, hfl⟩ := hs
    simp only [Pc.signalNotempty, Pc.signalPoll, ite_self]
    refine ⟨hk, ?_, fun sd hsd => h.ready (hresult sd hsd), h.flags hfl⟩
    rwa [h.members]
  | reset k =>
    simp only [Pc.signalNotempty, Pc.signalPoll, ite_self]
    exact ⟨hs.1, h.flags hs.2⟩
  | register k cur cnt =>
    obtain ⟨hk, hw, as, has, hcur, hcnt, hfl, ha⟩ := hs
    simp only [Pc.signalNotempty, Pc.signalPoll, ite_self]
    refine ⟨hk, h.woken has hfl hw, as, ?_, hcur, hcnt, h.flags hfl, fun hn => ?_⟩
    · rwa [h.members]
    · exact h.armed hn (ha (h.not_woken hn).1)
  | check k cnt =>
    simp only [Pc.signalNotempty, Pc.signalPoll, ite_self]
    exact h.registered hs
  | sleeping k cnt signalled =>
    simp only [Pc.signalNotempty, ite_self]
    by_cases hwake : (s.stream sd).isPoll = true ∧ s.wakeup (thr sd) = none
    · rw [if_pos hwake]
      exact ⟨h.registered hs.1, nofun⟩
    · rw [if_neg hwake]
      refine ⟨h.registered hs.1, fun hsig => ?_⟩
      have hn := hs.2 hsig
      rw [h.wakeup_self, if_neg fun hpoll => hwake ⟨hpoll, hn⟩]
      exact hn
  | clear k result cur cnt =>
    obtain ⟨hk, hresult, reg, as, hreg, has, hcur, hcnt, hfl⟩ := hs
    simp only [Pc.signalNotempty, Pc.signalPoll, ite_self]
    refine ⟨hk, h.ready hresult, reg, as, ?_, ?_, hcur, hcnt, fun sd' hsd' hpoll => ?_⟩
    · rwa [h.members]
    · rwa [h.members]
    · exact hfl sd' hsd' (h.isPoll hpoll).2
  | polled k result =>
    simp only [Pc.signalNotempty, Pc.signalPoll, ite_self]
    exact ⟨hs.1, h.ready hs.2.1, h.flags hs.2.2⟩

omit [DecidableEq K] in
theorem same (h : Wrote thr s s' sd item) {t : T} (ht : t ≠ thr sd) : Same thr owner s s' t where
  members k _ := congrFun h.members k
  stream sd' hsd' := h.stream_ne fun heq => ht (heq ▸ hsd'.symm)
  wakeup := by rw [h.wakeup, update_of_ne ht]

omit [DecidableEq K] in
theorem inv (h : Wrote thr s s' sd item) (hi : Inv thr owner s)
    (hroom : (s.stream sd).count ≠ (s.stream sd).size) : Inv thr owner s' where
  sets := hi.sets.congr h.next h.set h.puts
  buffers sd' := by
    obtain ⟨l, hl, hw⟩ := hi.buffers sd'
    rw [h.got, h.written]
    by_cases hsd : sd' = sd
    · subst hsd
      rw [h.stream_self, update_self]
      exact ⟨l ++ [item], hl.put hroom item, by rw [hw, append_assoc]⟩
    · rw [h.stream_ne hsd, update_of_ne hsd]
      exact ⟨l, hl, hw⟩
  writers sd' item' hwriter := by
    rw [h.writer] at hwriter
    by_cases hsd : sd' = sd
    · subst hsd
      rw [update_self] at hwriter
      cases hwriter
    · rw [update_of_ne hsd] at hwriter
      rw [h.stream_ne hsd]
      exact hi.writers sd' item' hwriter
  threads t := by
    by_cases ht : t = thr sd
    · subst ht
      exact h.sound_self (hi.threads _)
    · rw [h.pc, update_of_ne ht]
      exact (h.same ht).sound hi.sets (hi.threads t)

end Wrote

namespace Inv

variable {sd : D} {item : R}

omit [DecidableEq T] [DecidableEq K] in
theorem setWriter (h : Inv thr owner s) {w : Writer R}
    (hw : ∀ item, w = .waiting item false → (s.stream sd).count = (s.stream sd).size) :
    Inv thr owner { s with writer := Function.update s.writer sd w } where
  sets := h.sets.congr rfl rfl rfl
  buffers := h.buffers
  writers sd' item hwriter := by
    by_cases hsd : sd' = sd
    · subst hsd
      simp only [update_self] at hwriter
      exact hw item hwriter
    · simp only [update_of_ne hsd] at hwriter
      exact h.writers sd' item hwriter
  threads t := Same.sound (s := s) ⟨fun _ _ => rfl, fun _ _ => rfl, rfl⟩ h.sets (h.threads t)

omit [DecidableEq K] in
theorem doWrite (h : Inv thr owner s) : Inv thr owner (s.doWrite thr sd item) := by
  by_cases hroom : (s.stream sd).count = (s.stream sd).size
  · unfold State.doWrite
    simp only [if_pos hroom]
    exact h.setWriter fun _ _ => hroom
  · exact (doWrite_wrote item hroom).inv h hroom

end Inv

/-! ### Reading -/

/-- What a read that finds an item does. -/
structure Took (thr : D → T) (s s' : State D T K R) (sd : D) : Prop where
  next : s'.next = s.next
  set : s'.set = s.set
  puts : s'.puts = s.puts
  written : s'.written = s.written
  wakeup : s'.wakeup = s.wakeup
  pc : s'.pc = Function.update s.pc (thr sd) .idle
  stream : s'.stream = Function.update s.stream sd (s.stream sd).get.2
  got : s'.got = Function.update s.got sd (s.got sd ++ (s.stream sd).get.1.toList)
  writer : s'.writer = Function.update s.writer sd
    (if (s.stream sd).count - 1 = (s.stream sd).size - 1 then (s.writer sd).signal else s.writer sd)

omit [DecidableEq K] in
theorem doRead_took {sd : D} (hne : (s.stream sd).count ≠ 0) : Took thr s (s.doRead thr sd) sd := by
  have hcount : (s.stream sd).get.2.count = (s.stream sd).count - 1 := rfl
  unfold State.doRead
  simp only [if_neg hne, hcount]
  by_cases hfull : (s.stream sd).count - 1 = (s.stream sd).size - 1 <;>
    constructor <;>
    simp [State.signalNotfull, State.goTo, State.setStream, hfull]

namespace Took

variable {sd : D}

omit [DecidableEq K] in
theorem inv (h : Took thr s s' sd) (hi : Inv thr owner s) (hne : (s.stream sd).count ≠ 0)
    (hfl : Flags thr s (thr sd) []) : Inv thr owner s' where
  sets := hi.sets.congr h.next h.set h.puts
  buffers sd' := by
    obtain ⟨l, hl, hw⟩ := hi.buffers sd'
    rw [h.got, h.written, h.stream]
    by_cases hsd : sd' = sd
    · subst hsd
      obtain ⟨item, l, rfl⟩ := hl.exists_cons hne
      rw [update_self, update_self]
      refine ⟨l, hl.get, ?_⟩
      rw [hw, show (s.stream sd').get.1 = some item from hl.head_cell, append_assoc]
      rfl
    · rw [update_of_ne hsd, update_of_ne hsd]
      exact ⟨l, hl, hw⟩
  writers sd' item hwriter := by
    rw [h.writer] at hwriter
    rw [h.stream]
    by_cases hsd : sd' = sd
    · subst hsd
      rw [update_self] at hwriter ⊢
      split at hwriter
      case isTrue =>
        cases hw : s.writer sd' <;> rw [hw] at hwriter <;> cases hwriter
      case isFalse hnot => exact absurd (congrArg (· - 1) (hi.writers sd' item hwriter)) hnot
    · rw [update_of_ne hsd] at hwriter ⊢
      exact hi.writers sd' item hwriter
  threads t := by
    rw [h.pc]
    by_cases ht : t = thr sd
    · subst ht
      rw [update_self]
      intro sd' hsd' hpoll
      rw [h.stream] at hpoll
      by_cases hsd : sd' = sd
      · subst hsd
        rw [update_self] at hpoll
        exact hfl sd' rfl hpoll
      · rw [update_of_ne hsd] at hpoll
        exact hfl sd' hsd' hpoll
    · rw [update_of_ne ht]
      refine Same.sound ⟨fun k _ => congrFun (Sets.members_congr h.next h.set h.puts) k, fun sd' hsd' => ?_,
        congrFun h.wakeup t⟩ hi.sets (hi.threads t)
      rw [h.stream, update_of_ne]
      rintro rfl
      exact ht hsd'.symm

end Took

/-! ### Polling -/

/-- The thread has gone to `pc`, with another `wakeup_sd` and other `is_poll` of its streams. -/
structure Moved (thr : D → T) (s s' : State D T K R) (t : T) (pc : Pc D K) : Prop where
  next : s'.next = s.next
  set : s'.set = s.set
  puts : s'.puts = s.puts
  written : s'.written = s.written
  got : s'.got = s.got
  writer : s'.writer = s.writer
  pc : s'.pc = Function.update s.pc t pc
  wakeup : ∀ t', t' ≠ t → s'.wakeup t' = s.wakeup t'
  stream : ∀ sd, s'.stream sd = s.stream sd ∨
    thr sd = t ∧ ∃ b, s'.stream sd = (s.stream sd).setPoll b

namespace Moved

variable {t : T} {pc : Pc D K} {sd : D} {k : K}

omit [DecidableEq D] [DecidableEq K] in
theorem goTo (s : State D T K R) (t : T) (pc : Pc D K) : Moved thr s (s.goTo t pc) t pc :=
  ⟨rfl, rfl, rfl, rfl, rfl, rfl, rfl, fun _ _ => rfl, fun _ => .inl rfl⟩

omit [DecidableEq D] [DecidableEq K] in
theorem setWakeup (thr : D → T) (s : State D T K R) (t : T) (pc : Pc D K) (sd : Option D) :
    Moved thr s ((s.goTo t pc).setWakeup t sd) t pc :=
  ⟨rfl, rfl, rfl, rfl, rfl, rfl, rfl, fun _ ht => update_of_ne ht _ _, fun _ => .inl rfl⟩

omit [DecidableEq K] in
theorem setPoll (thr : D → T) (s : State D T K R) (pc : Pc D K) (sd : D) (b : Bool) :
    Moved thr s ((s.goTo (thr sd) pc).setStream sd ((s.stream sd).setPoll b)) (thr sd) pc where
  next := rfl
  set := rfl
  puts := rfl
  written := rfl
  got := rfl
  writer := rfl
  pc := rfl
  wakeup _ _ := rfl
  stream sd' := by
    by_cases hsd : sd' = sd
    · subst hsd
      exact .inr ⟨rfl, b, update_self _ _ _⟩
    · exact .inl (update_of_ne hsd _ _)

omit [DecidableEq D] [DecidableEq K] in
theorem count (h : Moved thr s s' t pc) (sd : D) : (s'.stream sd).count = (s.stream sd).count := by
  rcases h.stream sd with heq | ⟨-, b, heq⟩ <;> rw [heq]
  rfl

omit [DecidableEq K] in
theorem members (h : Moved thr s s' t pc) : s'.members = s.members :=
  Sets.members_congr h.next h.set h.puts

omit [DecidableEq K] in
theorem ready (h : Moved thr s s' t pc) (hr : Ready s k sd) : Ready s' k sd := by
  refine ⟨?_, ?_⟩
  · rw [h.members]
    exact hr.1
  · rw [h.count]
    exact hr.2

omit [DecidableEq K] in
theorem inv (h : Moved thr s s' t pc) (hi : Inv thr owner s) (hpc : PcSound thr owner s' t pc) :
    Inv thr owner s' where
  sets := hi.sets.congr h.next h.set h.puts
  buffers sd := by
    obtain ⟨l, hl, hw⟩ := hi.buffers sd
    rw [h.got, h.written]
    rcases h.stream sd with heq | ⟨-, b, heq⟩ <;> rw [heq] <;> exact ⟨l, hl, hw⟩
  writers sd item hwriter := by
    rw [h.writer] at hwriter
    rcases h.stream sd with heq | ⟨-, b, heq⟩ <;> rw [heq] <;> exact hi.writers sd item hwriter
  threads t' := by
    rw [h.pc]
    by_cases ht : t' = t
    · subst ht
      rwa [update_self]
    · rw [update_of_ne ht]
      refine Same.sound ⟨fun k _ => congrFun h.members k, fun sd hsd => ?_, h.wakeup t' ht⟩ hi.sets
        (hi.threads t')
      rcases h.stream sd with heq | ⟨hsd', -⟩
      · exact heq
      · exact absurd (hsd.symm.trans hsd') ht

end Moved

namespace Inv

variable {sd : D} {t : T} {pc : Pc D K} {k : K}

omit [DecidableEq K] in
theorem goTo (h : Inv thr owner s) (hpc : PcSound thr owner s t pc) : Inv thr owner (s.goTo t pc) :=
  (Moved.goTo s t pc).inv h
    (Same.sound (s := s) ⟨fun _ _ => rfl, fun _ _ => rfl, rfl⟩ h.sets hpc)

omit [DecidableEq K] in
theorem doRead (h : Inv thr owner s) (hfl : Flags thr s (thr sd) []) :
    Inv thr owner (s.doRead thr sd) := by
  by_cases hempty : (s.stream sd).count = 0
  · unfold State.doRead
    simp only [if_pos hempty]
    exact h.goTo ⟨rfl, fun _ => hempty, hfl⟩
  · exact (doRead_took hempty).inv h hempty hfl

theorem returned (h : Inv thr owner s) (hk : owner k = t) (hr : Ready s k sd) (hfl : Flags thr s t []) :
    Inv thr owner (s.returned t k sd) := by
  obtain ⟨as, bs, hmem⟩ := append_of_mem hr.1
  have hring := h.sets.ring k
  rw [hmem] at hring
  have hlen : (bs ++ as ++ [sd]).length = (s.members k).length := by
    rw [hmem]
    simp only [length_append, length_cons, length_nil]
    omega
  have hring' : Ring s.next ((s.returned t k sd).set k) (bs ++ as ++ [sd]) := by
    simp only [State.returned, update_self]
    exact hring.rotate
  have hother : ∀ k', k' ≠ k → (s.returned t k sd).set k' = s.set k' ∧
      ∀ sd ∈ s.members k', s.next sd = s.next sd :=
    fun k' hk' => ⟨update_of_ne hk' _ _, fun _ _ => rfl⟩
  have hold : ∀ sd' ∈ bs ++ as ++ [sd], sd' ∈ s.members k := by
    intro sd' hsd'
    rwa [Ring.mem_rotate, ← hmem] at hsd'
  obtain ⟨hmembers, hsets⟩ : (s.returned t k sd).members = _ ∧ _ :=
    h.sets.update hring' hother (hlen ▸ h.sets.short k) (Nat.le_refl _) fun sd' hsd' => .inl (hold sd' hsd')
  refine ⟨hsets, h.buffers, h.writers, fun t' => ?_⟩
  by_cases ht : t' = t
  · subst ht
    have hready : Ready (s.returned t' k sd) k sd := by
      refine ⟨?_, hr.2⟩
      rw [hmembers, update_self]
      simp
    have hpc : (s.returned t' k sd).pc t' = .polled k sd := update_self _ _ _
    rw [hpc]
    exact ⟨hk, hready, hfl⟩
  · have hpc : (s.returned t k sd).pc t' = s.pc t' := update_of_ne ht _ _
    rw [hpc]
    refine Same.sound (s := s) ⟨fun k' hk' => ?_, fun _ _ => rfl, rfl⟩ h.sets (h.threads t')
    rw [hmembers, update_of_ne]
    rintro rfl
    exact ht (hk'.symm.trans hk)

omit [DecidableEq K] [DecidableEq T] in
theorem iterate (h : Inv thr owner s) {as : List D} (has : as <+: s.members k)
    (body : D → State D T K R) (after : State D T K R) :
    (as = s.members k ∧ s.iterate k as.getLast? body after = .done after) ∨
      ∃ sd, as ++ [sd] <+: s.members k ∧ sd ∈ s.members k ∧ sd ∉ as ∧
        s.iterate k as.getLast? body after = .done (body sd) := by
  have hnext := (h.sets.ring k).hasNext_iff has
  unfold State.iterate
  by_cases hall : as = s.members k
  · left
    rw [if_neg (mt hnext.1 (not_not_intro hall))]
    exact ⟨hall, rfl⟩
  · right
    obtain ⟨bs, hbs⟩ := has
    cases bs with
    | nil => exact absurd (by rw [← hbs, append_nil]) hall
    | cons sd bs =>
      have hring := h.sets.ring k
      rw [← hbs] at hring
      have hnot : sd ∉ as := fun hmem =>
        (nodup_append.1 hring.nodup).2.2 sd hmem sd mem_cons_self rfl
      rw [if_pos (hnext.2 hall), hring.next_eq]
      refine ⟨sd, ⟨bs, ?_⟩, ?_, hnot, rfl⟩
      · rw [append_assoc]
        exact hbs
      · rw [← hbs]
        simp

omit [DecidableEq K] in
theorem checkWakeup {cnt : Nat} (h : Inv thr owner s) (hreg : Registered thr owner s t k cnt) :
    Inv thr owner (s.checkWakeup t k cnt) := by
  unfold State.checkWakeup
  cases hw : s.wakeup t with
  | none => exact h.goTo ⟨hreg, fun _ => hw⟩
  | some sd =>
    have hmoved := Moved.setWakeup thr s t (.clear k sd none cnt) none
    refine hmoved.inv h ?_
    obtain ⟨hk, hwoken, as, has, hcnt, hfl, -⟩ := hreg
    refine ⟨hk, hmoved.ready (hwoken sd hw), as, [], ?_, ?_, rfl, ?_, ?_⟩
    · rwa [hmoved.members]
    · exact nil_prefix
    · simp [hcnt]
    · exact fun sd' hsd' hpoll => ⟨hfl sd' hsd' hpoll, not_mem_nil⟩

omit [DecidableEq K] [DecidableEq T] in
theorem flags_of_idle (h : Inv thr owner s) (hpc : s.pc t = .idle) : Flags thr s t [] := by
  have := h.threads t
  rwa [hpc] at this

theorem run (h : Inv thr owner s) (t : T) :
    s.run thr t = .blocked ∨ ∃ s', s.run thr t = .done s' ∧ Inv thr owner s' := by
  have hpc := h.threads t
  unfold State.run
  cases hat : s.pc t with
  | idle => exact .inl rfl
  | reading sd signalled =>
    rw [hat] at hpc
    obtain ⟨rfl, -, hfl⟩ := hpc
    exact .inr ⟨_, rfl, h.doRead hfl⟩
  | fast k cur result =>
    rw [hat] at hpc
    obtain ⟨hk, ⟨as, has, rfl⟩, hresult, hfl⟩ := hpc
    right
    dsimp only
    rcases h.iterate has (fun sd => s.goTo t (.fast k (some sd)
      (if (s.stream sd).count > 0 then some sd else result))) _ with ⟨-, heq⟩ | ⟨sd, has', hmem, -, heq⟩
    · refine ⟨_, heq, ?_⟩
      cases result with
      | none => exact h.goTo ⟨hk, hfl⟩
      | some sd => exact h.returned hk (hresult sd rfl) hfl
    · refine ⟨_, heq, h.goTo ⟨hk, ⟨as ++ [sd], has', by simp⟩, fun sd' hsd' => ?_, hfl⟩⟩
      split at hsd'
      case isTrue hpos => exact Option.some.inj hsd' ▸ ⟨hmem, hpos⟩
      case isFalse => exact hresult sd' hsd'
  | reset k =>
    rw [hat] at hpc
    obtain ⟨hk, hfl⟩ := hpc
    right
    have hmoved := Moved.setWakeup thr s t (.register k none 0) none
    refine ⟨_, rfl, hmoved.inv h ⟨hk, fun sd hsd => ?_, [], nil_prefix, rfl, rfl, hfl, fun _ => nofun⟩⟩
    rw [State.setWakeup_self] at hsd
    cases hsd
  | register k cur cnt =>
    rw [hat] at hpc
    obtain ⟨hk, hw, as, has, rfl, rfl, hfl, ha⟩ := hpc
    right
    dsimp only
    rcases h.iterate has (fun sd =>
      if (s.stream sd).count > 0 then
        (s.goTo t (.check k as.length)).setWakeup t ((s.wakeup t).or (some sd))
      else
        (s.goTo t (.register k (some sd) (as.length + 1))).setStream sd ((s.stream sd).setPoll true))
      (s.goTo t (.check k as.length)) with ⟨hall, heq⟩ | ⟨sd, has', hmem, -, heq⟩
    · exact ⟨_, heq, h.goTo ⟨hk, hw, as, has, rfl, hfl, fun hn => ⟨hall, ha hn⟩⟩⟩
    · refine ⟨_, heq, ?_⟩
      split
      case isTrue hpos =>
        have hmoved := Moved.setWakeup thr s t (.check k as.length)
          ((s.wakeup t).or (some sd))
        refine hmoved.inv h ⟨hk, fun sd' hsd' => ?_, as, ?_, rfl, hfl, fun hn => ?_⟩
        · rw [State.setWakeup_self] at hsd'
          refine hmoved.ready ?_
          cases hwake : s.wakeup t with
          | none =>
            rw [hwake] at hsd'
            cases hsd'
            exact ⟨hmem, hpos⟩
          | some sd'' =>
            rw [hwake] at hsd'
            cases hsd'
            exact hw sd' hwake
        · rwa [hmoved.members]
        · rw [State.setWakeup_self] at hn
          cases hwake : s.wakeup t <;> rw [hwake] at hn <;> cases hn
      case isFalse hempty =>
        have hthr : thr sd = t := (h.sets.own k sd hmem).trans hk
        subst hthr
        have hmoved := Moved.setPoll thr s (.register k (some sd) (as.length + 1)) sd true
        refine hmoved.inv h ⟨hk, fun sd' hsd' => hmoved.ready (hw sd' hsd'), as ++ [sd], ?_, by simp,
          by simp, fun sd' hsd' hpoll => ?_, fun hn sd' hsd' => ?_⟩
        · rwa [hmoved.members]
        · by_cases hsd : sd' = sd
          · simp [hsd]
          · refine mem_append_left _ (hfl sd' hsd' ?_)
            rwa [State.setStream_ne _ hsd] at hpoll
        · by_cases hsd : sd' = sd
          · subst hsd
            rw [State.setStream_self]
            exact ⟨rfl, Nat.eq_zero_of_not_pos hempty⟩
          · rw [State.setStream_ne _ hsd]
            refine ha hn sd' ?_
            simpa [hsd] using hsd'
  | check k cnt =>
    rw [hat] at hpc
    exact .inr ⟨_, rfl, h.checkWakeup hpc⟩
  | sleeping k cnt signalled =>
    rw [hat] at hpc
    exact .inr ⟨_, rfl, h.checkWakeup hpc.1⟩
  | clear k result cur cnt =>
    rw [hat] at hpc
    obtain ⟨hk, hr, reg, as, hreg, has, rfl, rfl, hfl⟩ := hpc
    right
    dsimp only
    rcases h.iterate has (fun sd =>
      if (reg.length - as.length : Int) - 1 = 0 then
        (s.setStream sd ((s.stream sd).setPoll false)).returned t k result
      else (s.setStream sd ((s.stream sd).setPoll false)).goTo t
        (.clear k result (some sd) (reg.length - as.length - 1)))
      (s.returned t k result) with ⟨hall, heq⟩ | ⟨sd, has', hmem, hnot, heq⟩
    · -- every flag has been taken back
      refine ⟨_, heq, h.returned hk hr fun sd hsd hpoll => ?_⟩
      obtain ⟨hin, hout⟩ := hfl sd hsd hpoll
      exact absurd (hall ▸ hreg.subset hin) hout
    · refine ⟨_, heq, ?_⟩
      obtain rfl : thr sd = t := (h.sets.own k sd hmem).trans hk
      have hmoved := Moved.setPoll thr s (.clear k result (some sd) (reg.length - as.length - 1)) sd false
      have hfl' : ∀ sd', thr sd' = thr sd →
          ((s.setStream sd ((s.stream sd).setPoll false)).stream sd').isPoll = true →
          sd' ∈ reg ∧ sd' ∉ as ++ [sd] := by
        intro sd' hsd' hpoll
        have hne : sd' ≠ sd := by
          rintro rfl
          rw [State.setStream_self] at hpoll
          cases hpoll
        rw [State.setStream_ne _ hne] at hpoll
        obtain ⟨hin, hout⟩ := hfl sd' hsd' hpoll
        refine ⟨hin, fun hmem => ?_⟩
        rcases mem_append.1 hmem with hmem | hmem
        · exact hout hmem
        · exact hne (mem_singleton.1 hmem)
      have hinv := hmoved.inv h ⟨hk, hmoved.ready hr, reg, as ++ [sd], by rwa [hmoved.members],
        by rwa [hmoved.members], by simp, by simp; omega, hfl'⟩
      split
      case isFalse => exact hinv
      case isTrue hzero =>
        -- the loop has come to the last stream that was registered
        have hlen : reg.length = (as ++ [sd]).length := by
          rw [length_append, length_singleton]
          omega
        have hreg' : reg = as ++ [sd] :=
          (prefix_of_prefix_length_le hreg has' (Nat.le_of_eq hlen)).eq_of_length hlen
        have hret := hinv.returned hk (hmoved.ready hr) fun sd' hsd' hpoll => by
          obtain ⟨hin, hout⟩ := hfl' sd' hsd' hpoll
          exact absurd (hreg' ▸ hin) hout
        have heq : ∀ pc, ((s.goTo (thr sd) pc).setStream sd ((s.stream sd).setPoll false)).returned
            (thr sd) k result =
              (s.setStream sd ((s.stream sd).setPoll false)).returned (thr sd) k result := by
          intro pc
          simp only [State.returned, State.goTo, State.setStream, Function.update_idem]
        rwa [heq] at hret
  | polled k result =>
    rw [hat] at hpc
    exact .inr ⟨_, rfl, h.goTo hpc.2.2⟩

omit [DecidableEq T] [DecidableEq K] in
theorem init (capacity : D → Int) : Inv thr owner (State.init capacity : State D T K R) where
  sets := Sets.init capacity
  buffers sd := ⟨[], Bounded.Holds.nil (Stream.create (capacity sd)).size_pos _, rfl⟩
  writers _ _ h := nomatch h
  threads _ _ _ h := nomatch h

omit [DecidableEq T] in
theorem setSets (h : Inv thr owner s) (hidle : s.pc (owner k) = .idle) {next : D → Option D}
    {handle : Option D} {puts : Nat} {l : List D}
    (hsets : ({ s with next := next, set := Function.update s.set k handle, puts := puts } :
        State D T K R).members = Function.update s.members k l ∧
      Sets thr owner { s with next := next, set := Function.update s.set k handle, puts := puts }) :
    Inv thr owner { s with next := next, set := Function.update s.set k handle, puts := puts } where
  sets := hsets.2
  buffers := h.buffers
  writers := h.writers
  threads t := by
    by_cases ht : t = owner k
    · have hpc : s.pc t = .idle := ht ▸ hidle
      have := h.flags_of_idle hpc
      simp only [hpc]
      exact this
    · refine Same.sound (s := s) ⟨fun k' hk' => ?_, fun _ _ => rfl, rfl⟩ h.sets (h.threads t)
      rw [hsets.1, update_of_ne]
      rintro rfl
      exact ht hk'.symm

theorem step (h : Inv thr owner s) {a : Act D T K R} (ha : Callers thr owner s a) :
    (step thr owner s a).Meets (Inv thr owner) := by
  unfold Threading.step
  cases a with
  | read sd =>
    dsimp only
    split
    case isFalse => trivial
    case isTrue hidle => exact h.doRead (h.flags_of_idle hidle)
  | poll k =>
    dsimp only
    split
    case isFalse => trivial
    case isTrue hidle =>
      split
      case h_1 hnone => exact absurd hnone ha
      case h_2 => exact h.goTo ⟨rfl, ⟨[], nil_prefix, rfl⟩, nofun, h.flags_of_idle hidle⟩
  | run t =>
    rcases h.run t with heq | ⟨s', heq, hs'⟩ <;> simp only [heq]
    · trivial
    · exact hs'
  | streamsetPut k sd =>
    dsimp only
    split
    case isFalse => trivial
    case isTrue hidle =>
      obtain ⟨hthr, hno⟩ := ha
      have hring := h.sets.ring k
      refine h.setSets hidle (h.sets.update ?_ (fun k' hk' => ⟨update_of_ne hk' _ _, ?_⟩) ?_
        (Nat.le_succ _) fun sd' hsd' => ?_) (l := s.members k ++ [sd])
      · simp only [update_self]
        exact hring.put (hno k)
      · intro sd' hsd'
        refine hring.put_next (fun hmem => hk' (h.sets.apart k' k sd' hsd' hmem)) ?_
        rintro rfl
        exact hno k' hsd'
      · rw [length_append]
        exact Nat.succ_le_succ (h.sets.short k)
      · rcases mem_append.1 hsd' with hmem | hmem
        · exact .inl hmem
        · rw [mem_singleton.1 hmem]
          exact .inr ⟨hthr, hno⟩
  | streamsetRemove k sd =>
    dsimp only
    split
    case isFalse => trivial
    case isTrue hidle =>
      have hring := h.sets.ring k
      by_cases hmem : sd ∈ s.members k
      · obtain ⟨as, bs, hl⟩ := append_of_mem hmem
        rw [hl] at hring
        obtain ⟨next, handle, heq, hring', hnext⟩ := hring.remove (hl ▸ h.sets.short k)
        rw [heq]
        refine h.setSets hidle (h.sets.update ?_ (fun k' hk' => ⟨update_of_ne hk' _ _, ?_⟩) ?_
          (Nat.le_refl _) fun sd' hsd' => .inl ?_) (l := as ++ bs)
        · simp only [update_self]
          exact hring'
        · intro sd' hsd'
          refine hnext sd' fun hmem => hk' (h.sets.apart k' k sd' hsd' ?_)
          rwa [hl]
        · have := h.sets.short k
          rw [hl] at this
          simp only [length_append, length_cons] at this ⊢
          omega
        · rw [hl]
          rcases mem_append.1 hsd' with hmem | hmem
          · exact mem_append_left _ hmem
          · exact mem_append_right _ (mem_cons_of_mem _ hmem)
      · have hne : s.members k ≠ [] := by
          intro hnil
          rw [hnil] at hring
          exact ha hring.last
        rw [hring.remove_not_mem hne hmem (h.sets.short k)]
        refine h.setSets hidle (h.sets.update ?_ (fun k' hk' => ⟨update_of_ne hk' _ _, fun _ _ => rfl⟩)
          (h.sets.short k) (Nat.le_refl _) fun sd' hsd' => .inl hsd')
        simp only [update_self]
        exact hring
  | write sd item =>
    dsimp only
    split
    case h_1 => exact h.doWrite
    case h_2 => trivial
  | tryWrite sd item =>
    dsimp only
    split
    case h_1 =>
      split
      case isTrue => exact h
      case isFalse => exact h.setWriter nofun
    case h_2 => trivial
  | runWriter sd =>
    dsimp only
    split
    case h_1 => trivial
    case h_2 => exact h.doWrite
    case h_3 => exact h.doWrite

end Inv

/-! ### All runs -/

/-- Nobody sleeps through data or room. -/
structure Awake (s : State D T K R) : Prop where
  reader : ∀ t sd, s.pc t = .reading sd false → (s.stream sd).count = 0
  writer : ∀ sd item, s.writer sd = .waiting item false → (s.stream sd).count = (s.stream sd).size
  poller : ∀ t k cnt, s.pc t = .sleeping k cnt false →
    s.wakeup t = none ∧ ∀ sd ∈ s.members k, (s.stream sd).count = 0
  polled : ∀ t k sd, s.pc t = .polled k sd → sd ∈ s.members k ∧ 0 < (s.stream sd).count
  order : ∀ sd, ∃ l, s.written sd = s.got sd ++ l ∧ l.length = (s.stream sd).count ∧
    (s.stream sd).peek = l.head?

namespace Inv

omit [DecidableEq K] [DecidableEq T] in
theorem awake (h : Inv thr owner s) : Awake s where
  reader t sd hpc := by
    have := h.threads t
    rw [hpc] at this
    exact this.2.1 rfl
  writer := h.writers
  poller t k cnt hpc := by
    have := h.threads t
    rw [hpc] at this
    obtain ⟨⟨-, -, as, -, -, -, ha⟩, hsig⟩ := this
    obtain ⟨rfl, ha⟩ := ha (hsig rfl)
    exact ⟨hsig rfl, fun sd hsd => (ha sd hsd).2⟩
  polled t k sd hpc := by
    have := h.threads t
    rw [hpc] at this
    exact this.2.1
  order sd := by
    obtain ⟨l, hl, hw⟩ := h.buffers sd
    refine ⟨l, hw, hl.count_eq.symm, ?_⟩
    unfold Stream.peek
    cases l with
    | nil =>
      rw [if_neg (by rw [hl.eq_nil_iff.2 rfl]; exact Nat.lt_irrefl 0)]
      rfl
    | cons item l =>
      rw [if_pos (by rw [hl.count_eq]; exact Nat.succ_pos _), hl.head_cell]
      rfl

end Inv

/-- In no run does a thread sleep through data, and no step fails. -/
theorem poll_awake {capacity : D → Int}
    (h : Reach (step thr owner) (Callers thr owner) (State.init capacity : State D T K R) s) :
    Awake s ∧ ∀ a, Callers thr owner s a → step thr owner s a ≠ .fault := by
  have hinv : Inv thr owner s := Reach.invariant (Inv.init capacity)
    (fun s a s' hs ha heq => (hs.step ha).of_done heq) h
  exact ⟨hinv.awake, fun a ha => (hinv.step ha).ne_fault⟩

abbrev onlyThread {α : Type} (_ : α) : Unit := ()

/-- The thread sleeps until an item comes, reads it, and polls again. -/
theorem poll_awake_twice : ∃ s : State Bool Unit Unit Nat,
    Reach (step onlyThread onlyThread) (Callers onlyThread onlyThread) (.init fun _ => 1) s ∧
      s.pc () = .polled () true ∧ s.got true = [5] ∧
      (Awake s ∧ ∀ a, Callers onlyThread onlyThread s a → step onlyThread onlyThread s a ≠ .fault) := by
  have hrun : ∃ s : State Bool Unit Unit Nat,
      runPermitted (step onlyThread onlyThread) (Callers onlyThread onlyThread) (.init fun _ => 1)
        [.streamsetPut () false, .streamsetPut () true, .poll (), .run (), .run (), .run (), .run (),
          .run (), .run (), .run (), .run (), .write true 5, .write true 6, .run (), .run (), .run (),
          .run (), .read true, .runWriter true, .poll (), .run (), .run (), .run ()] = .done s ∧
      s.pc () = .polled () true ∧ s.got true = [5] := ⟨_, rfl, rfl, rfl⟩
  obtain ⟨s, hrun, hpolled, hgot⟩ := hrun
  have hreach := Reach.of_runPermitted .init hrun
  exact ⟨s, hreach, hpolled, hgot, poll_awake hreach⟩

end SNet.Threading
