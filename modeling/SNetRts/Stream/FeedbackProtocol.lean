import SNetRts.Lib.Pipe
import SNetRts.Stream.FeedbackLoop

/-!
# The protocol of the feedback loop

Besides what holds of the ring and of the streams behind the buffer, nothing comes behind a terminate
record, so that what has come from outside has left when no task can go on.
-/

namespace SNet.Stream.Feedback

open Lib List

variable {D Γ : Type} {n : Net D Γ}

/-! ## Terminate records -/

def IsTerminate (r : Rec (Item D) Γ) : Prop := ∃ b, r = .terminate b

structure Ends (n : Net D Γ) : Prop where
  inq : Pipe IsTerminate n.ended n.collStopped n.inq
  intoOp : Pipe IsTerminate n.collStopped n.opStopped (n.intoOp ++ n.collWrites)
  fromOp : Pipe IsTerminate n.opStopped n.dispStopped (n.fromOp ++ n.opWrites)
  stopped : n.bufPc = .stopped → n.collStopped = true

theorem ends_init : Ends (Net.init : Net D Γ) := ⟨Pipe.nil _, Pipe.nil _, Pipe.nil _, nofun⟩

theorem fbCollReadFbi_eq_some {mode : Mode} {r : Rec (Item D) Γ} {out : List (Rec (Item D) Γ)}
    {next : Next Mode} (h : fbCollReadFbi mode r = some ⟨out, next⟩) :
    (∀ x ∈ out, ¬ IsTerminate x) ∧ ∀ b, next ≠ .stop b := by
  cases r with
  | data i =>
    cases h
    exact ⟨forall_mem_singleton.2 nofun, nofun⟩
  | sortEnd level num =>
    unfold fbCollReadFbi at h
    dsimp only at h
    split at h
    · cases h
    · cases mode with
      | input => cases h
      | fb1 =>
        cases h
        exact ⟨nofun, nofun⟩
      | fb0 =>
        cases h
        exact ⟨forall_mem_singleton.2 nofun, nofun⟩
  | terminate b => cases h
  | sync s t =>
    cases h
    exact ⟨nofun, nofun⟩
  | collect s => cases h

theorem isTerminate_of_stop {backPatterns guards : List (D → Bool)} {r : Rec (Item D) Γ}
    {ws : List (Port × Rec (Item D) Γ)} (h : feedbackDispTask backPatterns guards r = some (ws, true)) :
    IsTerminate r := by
  cases r with
  | terminate b => exact ⟨b, rfl⟩
  | data i =>
    unfold feedbackDispTask at h
    dsimp only at h
    split at h <;> cases h
  | sortEnd level num =>
    unfold feedbackDispTask at h
    dsimp only at h
    split at h
    · cases h
    · split at h <;> cases h
  | sync s t => cases h
  | collect s => cases h

namespace Ends

theorem readIn (h : Ends n) (hrun : n.collStopped = false) (hw : n.collWrites = []) :
    ∀ n', n.readIn = .done n' → Ends n' := by
  intro n' hn
  have hinq := h.inq
  have hinto := h.intoOp
  rw [hw, append_nil, hrun] at hinto
  unfold Net.readIn at hn
  cases hq : n.inq with
  | nil =>
    rw [hq] at hn
    cases hn
  | cons r rs =>
    rw [hq] at hn hinq
    cases r with
    | data i =>
      cases hn
      refine ⟨hrun ▸ hinq.pop, ?_, h.fromOp, h.stopped⟩
      rw [hrun]
      exact hinto.push (by simp [IsTerminate])
    | sortEnd level num =>
      cases hn
      refine ⟨hrun ▸ hinq.pop, ?_, h.fromOp, h.stopped⟩
      rw [hrun]
      exact hinto.push (by simp [IsTerminate])
    | terminate b =>
      cases hn
      exact ⟨hinq.finish ⟨b, rfl⟩, hinto.close _, h.fromOp, fun _ => rfl⟩
    | sync s t =>
      cases hn
      refine ⟨hrun ▸ hinq.pop, ?_, h.fromOp, h.stopped⟩
      rw [hrun]
      exact hinto.push nofun
    | collect s => cases hn

theorem readFbi (h : Ends n) (hrun : n.collStopped = false) (hw : n.collWrites = []) :
    ∀ n', n.readFbi = .done n' → Ends n' := by
  intro n' hn
  have hinto := h.intoOp
  rw [hw, append_nil, hrun] at hinto
  have hpush : ∀ out, (∀ x ∈ out, ¬ IsTerminate x) →
      Pipe IsTerminate n.collStopped n.opStopped (n.intoOp ++ out) := fun out hout => by
    rw [hrun]
    exact hinto.push hout
  unfold Net.readFbi at hn
  split at hn
  · cases hn
  · dsimp only at hn
    split at hn
    · cases hn
    · rename_i hreact
      cases hn
      exact ⟨h.inq, hpush _ (fbCollReadFbi_eq_some hreact).1, h.fromOp, h.stopped⟩
    · rename_i hreact
      cases hn
      exact ⟨h.inq, hpush _ (fbCollReadFbi_eq_some hreact).1, h.fromOp, h.stopped⟩
    · rename_i hreact
      exact absurd rfl ((fbCollReadFbi_eq_some hreact).2 _)

theorem collRead (h : Ends n) {n' : Net D Γ} (hn : n.collRead = .done n') : Ends n' := by
  unfold Net.collRead at hn
  split at hn
  · cases hn
  · rename_i hc
    obtain ⟨hstop, hw⟩ := not_or.1 hc
    have hrun : n.collStopped = false := Bool.eq_false_iff.2 hstop
    have hw : n.collWrites = [] := not_not.1 hw
    split at hn
    · exact h.readIn hrun hw n' hn
    · exact h.readFbi hrun hw n' hn
    · exact h.readFbi hrun hw n' hn

theorem collWrite (h : Ends n) {n' : Net D Γ} (hn : n.collWrite = .done n') : Ends n' := by
  unfold Net.collWrite at hn
  split at hn
  · cases hn
  · rename_i r rs hw
    cases hn
    have hinto := h.intoOp
    rw [hw, ← singleton_append, ← append_assoc] at hinto
    exact { h with intoOp := hinto }

theorem opRead (h : Ends n) {outs : List D} {n' : Net D Γ} (hn : n.opRead outs = .done n') : Ends n' := by
  unfold Net.opRead at hn
  split at hn
  · cases hn
  · rename_i hc
    obtain ⟨hstop, hw⟩ := not_or.1 hc
    have hrun : n.opStopped = false := Bool.eq_false_iff.2 hstop
    have hw : n.opWrites = [] := not_not.1 hw
    have hinto := h.intoOp
    have hfrom := h.fromOp
    rw [hw, append_nil, hrun] at hfrom
    cases hq : n.intoOp with
    | nil =>
      rw [hq] at hn
      cases hn
    | cons r rs =>
      rw [hq] at hn hinto
      cases r with
      | data i =>
        cases hn
        refine ⟨h.inq, hinto.pop, hfrom.push fun x hx => ?_, h.stopped⟩
        obtain ⟨v, -, rfl⟩ := List.mem_map.1 hx
        nofun
      | sortEnd level num =>
        cases hn
        exact ⟨h.inq, hinto.pop, hfrom.push (by simp [IsTerminate]), h.stopped⟩
      | terminate b =>
        cases hn
        exact ⟨h.inq, hinto.finish ⟨b, rfl⟩, hfrom.close _, h.stopped⟩
      | sync s t => cases hn
      | collect s => cases hn

theorem opSync (h : Ends n) (s : StreamId) (t : Option Γ) (hrun : n.opStopped = false)
    (hw : n.opWrites = []) : Ends { n with opWrites := [.sync s t] } := by
  have hfrom := h.fromOp
  rw [hw, append_nil, hrun] at hfrom
  have hpush := hfrom.push (show ∀ r ∈ [(.sync s t : Rec (Item D) Γ)], ¬ IsTerminate r by simp [IsTerminate])
  rw [← hrun] at hpush
  exact { h with fromOp := hpush }

theorem opWrite (h : Ends n) {n' : Net D Γ} (hn : n.opWrite = .done n') : Ends n' := by
  unfold Net.opWrite at hn
  split at hn
  · cases hn
  · rename_i r rs hw
    cases hn
    have hfrom := h.fromOp
    rw [hw, ← singleton_append, ← append_assoc] at hfrom
    exact { h with fromOp := hfrom }

theorem dispRead (h : Ends n) {backPatterns guards : List (D → Bool)} {n' : Net D Γ}
    (hn : n.dispRead backPatterns guards = .done n') : Ends n' := by
  unfold Net.dispRead at hn
  split at hn
  · cases hn
  · split at hn
    · cases hn
    · rename_i r rs hq
      have hfrom := h.fromOp
      rw [hq, cons_append] at hfrom
      split at hn
      · cases hn
      · rename_i out stop hreact
        cases hn
        cases stop with
        | false => exact { h with fromOp := hfrom.pop }
        | true => exact { h with fromOp := hfrom.finish (isTerminate_of_stop hreact) }

theorem dispWrite (h : Ends n) {n' : Net D Γ} (hn : n.dispWrite = .done n') : Ends n' := by
  unfold Net.dispWrite at hn
  split at hn
  · cases hn
  · cases hn
    exact { h with }
  · cases hn
    exact { h with }

theorem buf (h : Ends n) (hinv : Inv n) {n' : Net D Γ} (hn : n.buf = .done n') : Ends n' := by
  unfold Net.buf at hn
  split at hn
  · cases hn
  · split at hn
    · split at hn
      · cases hn
      · rename_i b rs hq
        cases hn
        exact { h with stopped := fun _ => hinv.ring.stopped_of_terminate (Inv.bufIn_eq hq) }
      · cases hn
        exact { h with stopped := nofun }
    · split at hn
      · cases hn
        exact { h with stopped := nofun }
      · cases hn
      · cases hn
        exact { h with stopped := nofun }
  · split at hn
    · split at hn
      · cases hn
        exact { h with stopped := nofun }
      · cases hn
        unfold Net.put
        split
        · exact { h with stopped := nofun }
        · exact { h with stopped := nofun }
    · cases hn
      exact { h with stopped := nofun }
  · split at hn
    · cases hn
      exact { h with stopped := nofun }
    · split at hn
      · cases hn
        exact { h with }
      · cases hn
        exact { h with stopped := nofun }

theorem input_done (h : Ends n) {r : Rec (Item D) Γ} {n' : Net D Γ} (hr : ¬ IsTerminate r)
    (hn : n.input r = .done n') : Ends n' := by
  unfold Net.input at hn
  split at hn
  · cases hn
  · rename_i he
    cases hn
    have hinq := h.inq
    rw [Bool.eq_false_iff.2 he] at hinq
    have hpush := hinq.push (forall_mem_singleton.2 hr)
    rw [← Bool.eq_false_iff.2 he] at hpush
    exact { h with inq := hpush }

theorem step (h : Ends n) (hinv : Inv n) {backPatterns guards : List (D → Bool)} {a : Act D Γ}
    {n' : Net D Γ} (hn : n.step backPatterns guards a = .done n') : Ends n' := by
  cases a with
  | data value =>
    have hends : Ends { n with arrived := n.arrived + 1 } := { h with }
    exact hends.input_done (r := .data ⟨n.arrived + 1, value⟩) nofun hn
  | sortEnd level num =>
    have hends : Ends { n with sorts := n.sorts ++ [((level : Int), num)] } := { h with }
    exact hends.input_done (r := .sortEnd level num) nofun hn
  | sync s t => exact h.input_done (r := .sync s t) nofun hn
  | terminate b =>
    unfold Net.step at hn
    dsimp only at hn
    split at hn
    · cases hn
    · rename_i he
      cases hn
      have hinq := h.inq
      rw [Bool.eq_false_iff.2 he] at hinq
      exact { h with inq := hinq.close _ }
  | collRead => exact h.collRead hn
  | collWrite => exact h.collWrite hn
  | opRead outs => exact h.opRead hn
  | opSync s t =>
    unfold Net.step at hn
    dsimp only at hn
    split at hn
    · cases hn
    · rename_i hc
      obtain ⟨hstop, hw⟩ := not_or.1 hc
      cases hn
      exact h.opSync s t (Bool.eq_false_iff.2 hstop) (not_not.1 hw)
  | opWrite => exact h.opWrite hn
  | dispRead => exact h.dispRead hn
  | dispWrite => exact h.dispWrite hn
  | buf => exact h.buf hinv hn

end Ends

/-! ## Every run -/

/-- No task can go on. -/
structure Quiet (backPatterns guards : List (D → Bool)) (n : Net D Γ) : Prop where
  collRead : n.collRead = .blocked
  collWrite : n.collWrite = .blocked
  opRead : ∀ outs, n.opRead outs = .blocked
  opWrite : n.opWrite = .blocked
  dispRead : n.dispRead backPatterns guards = .blocked
  dispWrite : n.dispWrite = .blocked
  buf : n.buf = .blocked

namespace Quiet

variable {backPatterns guards : List (D → Bool)}

theorem collWrites (h : Quiet backPatterns guards n) : n.collWrites = [] := by
  have hw := h.collWrite
  unfold Net.collWrite at hw
  split at hw
  · assumption
  · cases hw

theorem opWrites (h : Quiet backPatterns guards n) : n.opWrites = [] := by
  have hw := h.opWrite
  unfold Net.opWrite at hw
  split at hw
  · assumption
  · cases hw

theorem dispWrites (h : Quiet backPatterns guards n) : n.dispWrites = [] := by
  have hw := h.dispWrite
  unfold Net.dispWrite at hw
  split at hw
  · assumption
  · cases hw
  · cases hw

theorem intoOp (h : Quiet backPatterns guards n) (hends : Ends n) : n.intoOp = [] := by
  cases hs : n.opStopped with
  | true => exact (append_eq_nil_iff.1 (hends.intoOp.drained hs).1).1
  | false =>
    have hread := h.opRead []
    unfold Net.opRead at hread
    rw [if_neg (not_or.2 ⟨Bool.eq_false_iff.1 hs, not_not.2 h.opWrites⟩)] at hread
    cases hq : n.intoOp with
    | nil => rfl
    | cons r rs =>
      rw [hq] at hread
      dsimp only at hread
      split at hread <;> cases hread

theorem fromOp (h : Quiet backPatterns guards n) (hends : Ends n) : n.fromOp = [] := by
  cases hs : n.dispStopped with
  | true => exact (append_eq_nil_iff.1 (hends.fromOp.drained hs).1).1
  | false =>
    have hread := h.dispRead
    unfold Net.dispRead at hread
    rw [if_neg (not_or.2 ⟨Bool.eq_false_iff.1 hs, not_not.2 h.dispWrites⟩)] at hread
    cases hq : n.fromOp with
    | nil => rfl
    | cons r rs =>
      rw [hq] at hread
      dsimp only at hread
      split at hread <;> cases hread

theorem buffer (h : Quiet backPatterns guards n) :
    n.bufPc = .stopped ∨ n.queue = [] ∧ n.bufIn = [] := by
  have hbuf := h.buf
  unfold Net.buf at hbuf
  split at hbuf
  · rename_i hpc
    exact Or.inl hpc
  · split at hbuf
    · rename_i hlen
      split at hbuf
      · rename_i hq
        exact Or.inr ⟨eq_nil_of_length_eq_zero hlen, hq⟩
      · cases hbuf
      · cases hbuf
    · split at hbuf <;> cases hbuf
  · split at hbuf
    · split at hbuf <;> cases hbuf
    · cases hbuf
  · split at hbuf
    · cases hbuf
    · split at hbuf <;> cases hbuf

theorem backlog (h : Quiet backPatterns guards n) (hlinks : Links n) (hm : n.mode ≠ .input)
    (hrun : n.collStopped = false) : n.backlog = [] := by
  have hread := h.collRead
  unfold Net.collRead at hread
  rw [if_neg (not_or.2 ⟨Bool.eq_false_iff.1 hrun, not_not.2 h.collWrites⟩)] at hread
  have hread : n.readFbi = .blocked := by
    cases hm' : n.mode with
    | input => exact absurd hm' hm
    | fb1 => simpa only [hm'] using hread
    | fb0 => simpa only [hm'] using hread
  have hnil : n.streams n.backstream = [] := by
    unfold Net.readFbi at hread
    split at hread
    · assumption
    · dsimp only at hread
      split at hread <;> cases hread
  have hlast : n.backstream = n.outstream := by
    refine (hlinks.le.lt_or_eq).resolve_left fun hlt => ?_
    obtain ⟨xs, t, hxs, -⟩ := hlinks.linked n.backstream le_rfl hlt
    rw [hnil] at hxs
    exact absurd hxs.symm (append_ne_nil_of_right_ne_nil _ (cons_ne_nil _ _))
  unfold Net.backlog
  rw [← hlast, flatMap_range'_cons _ le_rfl, hnil, Nat.sub_self]
  rfl

theorem mode (h : Quiet backPatterns guards n) (hinv : Inv n) (hends : Ends n)
    (hrun : n.collStopped = false) : n.mode = .input := by
  by_contra hm
  have hback := h.backlog hinv.links hm hrun
  obtain ⟨hqueue, hbufIn⟩ : n.queue = [] ∧ n.bufIn = [] :=
    h.buffer.resolve_left fun hpc => absurd (hrun.symm.trans (hends.stopped hpc)) nofun
  have hloop : n.ring.loop = [] := by
    change n.backlog ++ n.queue ++ (n.bufIn ++ toPort .back n.dispWrites ++
      (n.fromOp ++ n.opWrites ++ (n.intoOp ++ n.collWrites))) = []
    rw [hback, hqueue, hbufIn, h.dispWrites, h.fromOp hends, h.opWrites, h.intoOp hends, h.collWrites]
    rfl
  have hm : n.ring.mode ≠ .input := hm
  have hcount := hinv.ring.shape.count
  rw [hloop, if_neg hm] at hcount
  cases hcount

theorem inq (h : Quiet backPatterns guards n) (hinv : Inv n) (hends : Ends n) : n.inq = [] := by
  cases hs : n.collStopped with
  | true => exact (hends.inq.drained hs).1
  | false =>
    have hm := h.mode hinv hends hs
    have hread := h.collRead
    unfold Net.collRead at hread
    rw [if_neg (not_or.2 ⟨Bool.eq_false_iff.1 hs, not_not.2 h.collWrites⟩)] at hread
    have hread : n.readIn = .blocked := by simpa only [hm] using hread
    unfold Net.readIn at hread
    split at hread
    · assumption
    · dsimp only at hread
      split at hread <;> cases hread

end Quiet

/-- What is asked of the loop. -/
structure Protocol (backPatterns guards : List (D → Bool)) (n : Net D Γ) : Prop where
  /-- At most one sort record of level 0 is in the loop. -/
  oneSort : (tokens n.ring.loop).count none ≤ 1
  /-- The mode is `input` exactly when neither a data record nor a sort record of level 0 is in it. -/
  mode : n.mode = .input ↔ ∀ r ∈ n.ring.loop, token r = none
  /-- The streams between those of the buffer and the collector are all there are in the loop. -/
  streams : ∀ i, i < n.backstream ∨ n.outstream < i → n.streams i = []
  /-- No assertion fails. -/
  noFault : ∀ a, n.step backPatterns guards a ≠ .fault
  /-- The buffer reads no terminate record while it is not empty, and puts none into its queue. -/
  buffer : (∀ b rs, n.bufIn = .terminate b :: rs → n.queue = []) ∧ ∀ b, .terminate b ∉ n.queue
  /-- What comes from one record is written before what comes from the next one. -/
  ordered : (origins n.out).Pairwise (· ≤ ·)
  /-- The sort records that have come from outside are those that have left, with their levels, and in
  order those that the dispatcher has still to write, that are in the loop, and that have not been
  read. -/
  sorts : sortEnds n.out ++ (sortEnds (toPort .out n.dispWrites) ++
    (outerSortEnds (n.fromOp ++ n.opWrites ++ (n.intoOp ++ n.collWrites)) ++ sortEnds n.inq)) = n.sorts
  /-- When no task can go on, all of them have left. -/
  left : Quiet backPatterns guards n → sortEnds n.out = n.sorts

theorem Inv.sorts (h : Inv n) : sortEnds n.out ++ (sortEnds (toPort .out n.dispWrites) ++
    (outerSortEnds (n.fromOp ++ n.opWrites ++ (n.intoOp ++ n.collWrites)) ++ sortEnds n.inq)) =
      n.sorts := by
  have hsorts : sortEnds (n.out ++ toPort .out n.dispWrites) ++ _ = n.sorts := h.ring.sorts
  rw [sortEnds_append, append_assoc] at hsorts
  exact hsorts

theorem Inv.protocol (h : Inv n) (hends : Ends n) (backPatterns guards : List (D → Bool)) :
    Protocol backPatterns guards n where
  oneSort := by
    have hcount := h.ring.shape.count
    rw [hcount]
    split
    · exact Nat.zero_le 1
    · exact le_rfl
  mode := by
    refine ⟨fun hm => ?_, fun hnone => ?_⟩
    · have hnil := h.ring.tokens_eq_nil hm
      exact fun r hr => filterMap_eq_nil_iff.1 hnil r hr
    · have hnil : tokens n.ring.loop = [] := filterMap_eq_nil_iff.2 hnone
      have hcount := h.ring.shape.count
      rw [hnil, count_nil] at hcount
      by_contra hm
      have hm : n.ring.mode ≠ .input := hm
      rw [if_neg hm] at hcount
      cases hcount
  streams := fun i hi => hi.elim (h.links.drained i) (h.links.fresh i)
  noFault := fun a => (h.step backPatterns guards a).ne_fault
  buffer := by
    refine ⟨fun b rs hq => h.queue_eq_nil hq, fun b hb => ?_⟩
    have hback := h.ring.back _ (mem_append_right n.backlog hb)
    exact hback
  ordered := by
    have hsorted : (origins (n.out ++ toPort .out n.dispWrites)).Pairwise (· ≤ ·) := h.ring.sorted
    rw [origins_append] at hsorted
    exact (pairwise_append.1 hsorted).1
  sorts := h.sorts
  left := fun hquiet => by
    have hsorts := h.sorts
    rw [hquiet.dispWrites, hquiet.fromOp hends, hquiet.opWrites, hquiet.intoOp hends, hquiet.collWrites,
      hquiet.inq h hends] at hsorts
    exact (append_nil _).symm.trans hsorts

/-- The protocol of the feedback loop holds in every state of every run, for any operand. -/
theorem feedback_protocol {backPatterns guards : List (D → Bool)} {n : Net D Γ}
    (h : Reach (Net.step backPatterns guards) anyStep Net.init n) : Protocol backPatterns guards n := by
  have hinv : Inv n ∧ Ends n := by
    refine h.invariant (I := fun n => Inv n ∧ Ends n) ⟨inv_init, ends_init⟩ fun s a s' hs _ hstep => ?_
    exact ⟨(hs.1.step backPatterns guards a).of_done hstep, hs.2.step hs.1 hstep⟩
  exact hinv.1.protocol hinv.2 backPatterns guards

/-- A record goes through the loop twice, is absorbed there, and leaves another one outside; then the
sort record that has come behind it leaves, and all tasks terminate. -/
theorem feedback_loop_run : ∃ n : Net Nat Unit,
    Reach (Net.step [fun d => d == 1] [fun _ => true]) anyStep Net.init n ∧
      Protocol [fun d => d == 1] [fun _ => true] n ∧
      n.out = [.data ⟨1, 0⟩, .sortEnd 0 5, .terminate false] := by
  obtain ⟨as, n, hrun, hout⟩ : ∃ (as : List (Act Nat Unit)) (n : Net Nat Unit),
      runAll (Net.step [fun d => d == 1] [fun _ => true]) Net.init as = .done n ∧
        n.out = [.data ⟨1, 0⟩, .sortEnd 0 5, .terminate false] :=
    ⟨[.data 1, .sortEnd 0 5, .terminate false, .collRead, .collWrite, .collWrite, .opRead [1, 0],
      .opWrite, .opWrite, .opRead [], .opWrite, .dispRead, .dispWrite, .dispRead, .dispWrite, .dispRead,
      .dispWrite, .buf, .buf, .buf, .buf, .buf, .buf, .collRead, .collWrite, .collRead, .collWrite,
      .opRead [], .opRead [], .opWrite, .dispRead, .dispWrite, .buf, .buf, .buf, .buf, .collRead,
      .collRead, .collWrite, .opRead [], .opWrite, .dispRead, .dispWrite, .collRead, .collWrite,
      .opRead [], .opWrite, .dispRead, .dispWrite, .dispWrite, .buf], _, rfl, rfl⟩
  have hreach := Reach.of_runAll .init (permitted_anyStep _ _ _) hrun
  exact ⟨n, hreach, feedback_protocol hreach, hout⟩

end SNet.Stream.Feedback
