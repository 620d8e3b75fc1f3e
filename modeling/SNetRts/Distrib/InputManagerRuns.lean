import SNetRts.Distrib.InputManagerViews

/-!
# Runs of the input manager

Whatever the order in which the manager and the readers take their steps, every buffer stays as it should
be, `unblocked` has no buffer twice, and an update message is on the way for what is in there.
-/

namespace SNet.Distrib.InputManager

open Function (update update_of_ne update_self)

open Lib List

variable {D R : Type} {s s' : State D R} {b : Nat} {x x' : Buffer D R}

/-- The manager has `unblockedMutex`. -/
def ManagerPc.updates : ManagerPc R → Bool
  | .dequeue | .lockBlocked _ | .drain _ | .unlockBlocked _ => true
  | _ => false

/-! ## What holds of all buffers, and of the queue -/

structure Buffers (s : State D R) : Prop where
  ok : ∀ b x, s.buf b = some x → (s.view b).Ok x
  absent : ∀ b, s.buf b = none → (s.view b).Absent
  fresh : ∀ b, s.created ≤ b → s.buf b = none

structure Queue (s : State D R) : Prop where
  owner_manager : s.owner .unblocked = some .manager ↔ s.manager.updates = true
  owner_reader : ∀ t, s.owner .unblocked = some (.reader t) ↔ ∃ b, s.reader t = .unlockUnblocked b
  nodup : s.unblocked.Nodup
  /-- A message is on the way, or has arrived. -/
  pending : s.unblocked ≠ [] →
    0 < s.updates ∨ s.manager = .lockUnblocked ∨ s.manager.updates = true

structure Inv (s : State D R) : Prop where
  buffers : Buffers s
  queue : Queue s

theorem Buffers.congr (h : Buffers s) (hbuf : s'.buf = s.buf) (hcreated : s'.created = s.created)
    (hview : ∀ b, s'.view b = s.view b) : Buffers s' := by
  refine ⟨fun b x hx => ?_, fun b hx => ?_, fun b hb => ?_⟩
  · rw [hview]
    exact h.ok b x (hbuf ▸ hx)
  · rw [hview]
    exact h.absent b (hbuf ▸ hx)
  · rw [hbuf]
    exact h.fresh b (hcreated ▸ hb)

theorem Buffers.touch (h : Buffers s) (hx : s.buf b = some x)
    (hbuf : s'.buf = update s.buf b (some x')) (hcreated : s'.created = s.created)
    (hview : ∀ b', b' ≠ b → s'.view b' = s.view b') (hok : (s'.view b).Ok x') : Buffers s' := by
  refine ⟨fun b' y hy => ?_, fun b' hy => ?_, fun b' hb' => ?_⟩
  · rw [hbuf] at hy
    by_cases heq : b' = b
    · subst heq
      rw [update_self] at hy
      exact Option.some.inj hy ▸ hok
    · rw [update_of_ne heq] at hy
      rw [hview b' heq]
      exact h.ok b' y hy
  · rw [hbuf] at hy
    by_cases heq : b' = b
    · subst heq
      rw [update_self] at hy
      cases hy
    · rw [update_of_ne heq] at hy
      rw [hview b' heq]
      exact h.absent b' hy
  · have hne : b' ≠ b := by
      rintro rfl
      rw [h.fresh b' (hcreated ▸ hb')] at hx
      cases hx
    rw [hbuf, update_of_ne hne]
    exact h.fresh b' (hcreated ▸ hb')

theorem Buffers.pass (h : Buffers s) (hx : s.buf b = some x) (hbuf : s'.buf = s.buf)
    (hcreated : s'.created = s.created) (hview : ∀ b', b' ≠ b → s'.view b' = s.view b')
    (hok : (s'.view b).Ok x) : Buffers s' :=
  h.touch hx (by rw [hbuf, Function.update_eq_self_iff.2 hx.symm]) hcreated hview hok

theorem Buffers.live_of_manager (h : Buffers s) (hm : s.manager.at b ≠ .away) :
    ∃ x, s.live b = .done x ∧ s.buf b = some x := by
  cases hx : s.buf b with
  | none => exact absurd (h.absent b hx).manager hm
  | some x =>
    have hfree := (h.ok b x hx).not_freed' hm
    refine ⟨x, ?_, rfl⟩
    unfold State.live
    rw [hx]
    simp [hfree]

theorem Buffers.live_of_reader (h : Buffers s) {t : Nat} (ht : (s.reader t).at b ≠ .away) :
    ∃ x, s.live b = .done x ∧ s.buf b = some x := by
  cases hx : s.buf b with
  | none => exact absurd ((h.absent b hx).reader t) ht
  | some x =>
    have hfree := (h.ok b x hx).not_freed (t := t) ht
    refine ⟨x, ?_, rfl⟩
    unfold State.live
    rw [hx]
    simp [hfree]

/-! ## Views after a step -/

theorem view_setReader (s : State D R) (t : Nat) (pc : ReaderPc) (b : Nat) :
    (s.setReader t pc).view b =
      { s.view b with reader := update (s.view b).reader t (pc.at b) } := by
  have hreader : (fun t' => (update s.reader t pc t').at b) =
      update (fun t' => (s.reader t').at b) t (pc.at b) := by
    funext t'
    by_cases heq : t' = t
    · subst heq
      rw [update_self, update_self]
    · rw [update_of_ne heq, update_of_ne heq]
  unfold State.view State.setReader
  rw [hreader]

theorem view_setReader_of_eq {t : Nat} {pc : ReaderPc} (h : pc.at b = (s.reader t).at b) :
    (s.setReader t pc).view b = s.view b := by
  rw [view_setReader, h]
  have : update (s.view b).reader t ((s.reader t).at b) = (s.view b).reader :=
    Function.update_eq_self_iff.2 rfl
  rw [this]

def State.setOwner (s : State D R) (m : Mutex) (o : Option Thread) : State D R :=
  { s with owner := update s.owner m o }

theorem view_setOwner (s : State D R) (b : Nat) (o : Option Thread) :
    (s.setOwner (.buffer b) o).view b = { s.view b with owner := o } := by
  unfold State.view State.setOwner
  simp

theorem view_setOwner_of_ne {b' : Nat} (h : b' ≠ b) (o : Option Thread) :
    (s.setOwner (.buffer b) o).view b' = s.view b' := by
  unfold State.view State.setOwner
  simp [update_of_ne, h]

theorem setOwner_unblocked (s : State D R) (b : Nat) (o : Option Thread) :
    (s.setOwner (.buffer b) o).owner .unblocked = s.owner .unblocked := by
  simp [State.setOwner]

theorem view_setOwner_unblocked (o : Option Thread) : (s.setOwner .unblocked o).view b = s.view b := by
  unfold State.view State.setOwner
  simp

theorem lock_eq_done {m : Mutex} {t : Thread} :
    s.lock m t = .done s' ↔ s.owner m = none ∧ s' = s.setOwner m (some t) := by
  unfold State.lock
  cases s.owner m with
  | none => simp [State.setOwner, eq_comm]
  | some t' => simp

theorem live_eq_done : s.live b = .done x ↔ s.buf b = some x ∧ x.freed = false := by
  unfold State.live
  cases s.buf b with
  | none => simp
  | some y =>
    by_cases hf : y.freed = true
    · simp only [hf, if_true, reduceCtorEq, Option.some.injEq, false_iff, not_and]
      rintro rfl
      simp [hf]
    · simp only [hf, Bool.false_eq_true, if_false, Outcome.done.injEq, Option.some.injEq]
      exact ⟨fun h => ⟨h, by simpa [h] using hf⟩, And.left⟩

theorem view_manager_of_away (s : State D R) {b' : Nat} (pc : ManagerPc R) (o : Option Thread)
    (hne : b' ≠ b) (hm : s.manager.at b' = .away) (hpc : pc.at b' = .away) :
    ({ s.setOwner (.buffer b) o with manager := pc } : State D R).view b' = s.view b' := by
  have := view_setOwner_of_ne (s := s) hne o
  unfold State.view at this ⊢
  rw [View.mk.injEq] at this ⊢
  exact ⟨rfl, rfl, this.2.2.1, by rw [hpc, hm], rfl⟩

theorem view_manager_pc {pc : ManagerPc R} (hpc : pc.at b = s.manager.at b) :
    ({ s with manager := pc } : State D R).view b = s.view b := by
  unfold State.view
  rw [hpc]

theorem view_manager (o : Option Thread) (pc : ManagerPc R) :
    ({ s.setOwner (.buffer b) o with manager := pc } : State D R).view b =
      { s.view b with owner := o, manager := pc.at b } := by
  unfold State.view State.setOwner
  simp

theorem view_reader_of_away (s : State D R) {b' t : Nat} (pc : ReaderPc) (o : Option Thread)
    (hne : b' ≠ b) (ht : (s.reader t).at b' = .away) (hpc : pc.at b' = .away) :
    ((s.setOwner (.buffer b) o).setReader t pc).view b' = s.view b' := by
  exact (view_setReader_of_eq (s := s.setOwner (.buffer b) o) (hpc.trans ht.symm)).trans
    (view_setOwner_of_ne hne o)

theorem view_reader (o : Option Thread) (t : Nat) (pc : ReaderPc) :
    ((s.setOwner (.buffer b) o).setReader t pc).view b =
      { s.view b with owner := o, reader := update (s.view b).reader t (pc.at b) } := by
  rw [view_setReader, view_setOwner]

/-! ## The manager -/

theorem Queue.manager (h : Queue s) (howner : s'.owner .unblocked = s.owner .unblocked)
    (hreader : s'.reader = s.reader) (hun : s'.unblocked = s.unblocked) (hup : s'.updates = s.updates)
    (hpc : s'.manager.updates = s.manager.updates) (hlock : s.manager ≠ .lockUnblocked) : Queue s' := by
  refine ⟨?_, fun t => ?_, hun ▸ h.nodup, fun hne => ?_⟩
  · rw [howner, hpc]
    exact h.owner_manager
  · rw [howner, hreader]
    exact h.owner_reader t
  · rw [hup, hpc]
    rcases h.pending (hun ▸ hne) with hu | hl | hu
    · exact Or.inl hu
    · exact absurd hl hlock
    · exact Or.inr (Or.inr hu)

theorem Inv.managerStep (h : Inv s) (hs : s.managerStep = .done s') : Inv s' := by
  obtain ⟨hb, hq⟩ := h
  cases hm : s.manager with
  | idle =>
    simp only [State.managerStep, hm] at hs
    cases hs
  | lockBuffer b rec =>
    simp only [State.managerStep, hm] at hs
    obtain ⟨x, hx, hs⟩ := Outcome.bind_eq_done.1 hs
    obtain ⟨u, hu, hs⟩ := Outcome.bind_eq_done.1 hs
    obtain ⟨hx, -⟩ := live_eq_done.1 hx
    obtain ⟨ho, rfl⟩ := lock_eq_done.1 hu
    cases hs
    have hat : s.manager.at b = .handling rec := by simp [hm, ManagerPc.at]
    refine ⟨hb.touch hx rfl rfl (fun b' hne => ?_) ?_, hq.manager ?_ rfl rfl rfl ?_ ?_⟩
    · exact view_manager_of_away s (.unlockBuffer b) _ hne (by simp [hm, ManagerPc.at, hne.symm])
        (by simp [ManagerPc.at, hne.symm])
    · have hview := view_manager (s := s) (b := b) (some .manager) (.unlockBuffer b)
      have hpc : (ManagerPc.unlockBuffer b : ManagerPc R).at b = .handled := by simp [ManagerPc.at]
      rw [hpc] at hview
      change View.Ok (State.view { s.setOwner (.buffer b) (some .manager) with manager := _ } b) _
      rw [hview]
      exact (hb.ok b x hx).handle hat ho
    · exact setOwner_unblocked s b (some .manager)
    · simp [hm, ManagerPc.updates]
    · simp [hm]
  | unlockBuffer b =>
    simp only [State.managerStep, hm] at hs
    obtain ⟨x, hx, hs⟩ := Outcome.bind_eq_done.1 hs
    obtain ⟨hx, -⟩ := live_eq_done.1 hx
    cases hs
    have hat : s.manager.at b = .handled := by simp [hm, ManagerPc.at]
    refine ⟨hb.pass hx rfl rfl (fun b' hne => ?_) ?_, hq.manager ?_ rfl rfl rfl ?_ ?_⟩
    · exact view_manager_of_away s .idle none hne (by simp [hm, ManagerPc.at, hne.symm]) rfl
    · have hview := view_manager (s := s) (b := b) none .idle
      change View.Ok (State.view { s.setOwner (.buffer b) none with manager := _ } b) _
      rw [hview]
      exact (hb.ok b x hx).giveBack (Or.inl hat)
    · exact setOwner_unblocked s b none
    · simp [hm, ManagerPc.updates]
    · simp [hm]
  | lockUnblocked =>
    simp only [State.managerStep, hm] at hs
    obtain ⟨u, hu, hs⟩ := Outcome.bind_eq_done.1 hs
    obtain ⟨ho, rfl⟩ := lock_eq_done.1 hu
    cases hs
    have hno : ∀ t, ¬ ∃ b, s.reader t = .unlockUnblocked b := fun t ht => by
      rw [(hq.owner_reader t).2 ht] at ho
      cases ho
    refine ⟨hb.congr rfl rfl fun b => ?_, ?_, fun t => ?_, hq.nodup, fun _ => Or.inr (Or.inr rfl)⟩
    · have hview := view_setOwner_unblocked (s := s) (b := b) (some .manager)
      rw [← hview]
      exact view_manager_pc (s := s.setOwner .unblocked (some .manager)) (by simp [State.setOwner, hm, ManagerPc.at])
    · simp [State.setOwner, ManagerPc.updates]
    · have hself : (s.setOwner .unblocked (some .manager)).owner .unblocked = some .manager := by
        simp [State.setOwner]
      change (s.setOwner .unblocked (some .manager)).owner .unblocked = _ ↔ _
      rw [hself]
      exact ⟨nofun, fun ht => absurd ht (hno t)⟩
  | dequeue =>
    simp only [State.managerStep, hm] at hs
    cases hun : s.unblocked with
    | nil =>
      rw [hun] at hs
      cases hs
      have hown := hq.owner_manager.2 (by rw [hm]; rfl)
      have hno : ∀ t, ¬ ∃ b, s.reader t = .unlockUnblocked b := fun t ht => by
        rw [(hq.owner_reader t).2 ht] at hown
        cases hown
      refine ⟨hb.congr rfl rfl fun b => ?_, ?_, fun t => ?_, hq.nodup, fun hne => absurd hun hne⟩
      · have hview := view_setOwner_unblocked (s := s) (b := b) none
        rw [← hview]
        exact view_manager_pc (s := s.setOwner .unblocked none) (by simp [State.setOwner, hm, ManagerPc.at])
      · simp [State.unlock, ManagerPc.updates]
      · have hself : (s.unlock .unblocked).owner .unblocked = none := by simp [State.unlock]
        change (s.unlock .unblocked).owner .unblocked = _ ↔ _
        rw [hself]
        exact ⟨nofun, fun ht => absurd ht (hno t)⟩
    | cons b bs =>
      rw [hun] at hs
      cases hs
      have hnodup := hq.nodup
      rw [hun, nodup_cons] at hnodup
      have hmem : b ∈ s.unblocked := by rw [hun]; exact mem_cons_self
      cases hx : s.buf b with
      | none => exact absurd hmem (hb.absent b hx).queued
      | some x =>
        have hok := (hb.ok b x hx).dequeue (by simp [State.view, hm, ManagerPc.at]) hmem
        refine ⟨hb.pass hx rfl rfl (fun b' hne => ?_) ?_, ?_, hq.owner_reader, hnodup.2,
          fun _ => Or.inr (Or.inr rfl)⟩
        · have hqueued : (b' ∈ bs) = (b' ∈ s.unblocked) := by rw [hun]; simp [hne]
          unfold State.view
          simp only [hqueued, hm, ManagerPc.at, if_neg hne.symm]
        · have hqueued : (b ∈ bs) = False := by simp [hnodup.1]
          unfold State.view at hok ⊢
          simpa [hqueued, ManagerPc.at] using hok
        · have hown := hq.owner_manager.2 (by rw [hm]; rfl)
          exact ⟨fun _ => rfl, fun _ => hown⟩
  | lockBlocked b =>
    simp only [State.managerStep, hm] at hs
    obtain ⟨x, hx, hs⟩ := Outcome.bind_eq_done.1 hs
    obtain ⟨u, hu, hs⟩ := Outcome.bind_eq_done.1 hs
    obtain ⟨hx, -⟩ := live_eq_done.1 hx
    obtain ⟨ho, rfl⟩ := lock_eq_done.1 hu
    cases hs
    have hat : s.manager.at b = .blocked := by simp [hm, ManagerPc.at]
    refine ⟨hb.pass hx rfl rfl (fun b' hne => ?_) ?_, hq.manager ?_ rfl rfl rfl ?_ ?_⟩
    · exact view_manager_of_away s (.drain b) _ hne (by simp [hm, ManagerPc.at, hne.symm])
        (by simp [ManagerPc.at, hne.symm])
    · have hview := view_manager (s := s) (b := b) (some .manager) (.drain b)
      have hpc : (ManagerPc.drain b : ManagerPc R).at b = .draining := by simp [ManagerPc.at]
      rw [hpc] at hview
      rw [hview]
      exact (hb.ok b x hx).lockBlocked hat ho
    · exact setOwner_unblocked s b (some .manager)
    · simp [hm, ManagerPc.updates]
    · simp [hm]
  | drain b =>
    simp only [State.managerStep, hm] at hs
    obtain ⟨x, hx, hs⟩ := Outcome.bind_eq_done.1 hs
    obtain ⟨hx, -⟩ := live_eq_done.1 hx
    have hat : s.manager.at b = .draining := by simp [hm, ManagerPc.at]
    have hok := hb.ok b x hx
    -- both ways out of the inner loop
    have hend : x.list = [] ∨ x.stream.length = x.size.1 →
        s' = { s.setBuffer b x.unblock with manager := .unlockBlocked b } → Inv s' := by
      rintro hend rfl
      refine ⟨hb.touch hx rfl rfl (fun b' hne => ?_) ?_, hq.manager rfl rfl rfl rfl ?_ ?_⟩
      · have hpc : (ManagerPc.unlockBlocked b : ManagerPc R).at b' = s.manager.at b' := by
          simp [hm, ManagerPc.at, hne.symm]
        exact view_manager_pc hpc
      · have hdrained := hok.drained hat hend
        have hpc : (ManagerPc.unlockBlocked b : ManagerPc R).at b = .drained := by simp [ManagerPc.at]
        rw [← hpc] at hdrained
        exact hdrained
      · simp [hm, ManagerPc.updates]
      · simp [hm]
    cases hl : x.list with
    | nil =>
      rw [hl] at hs
      cases hs
      exact hend (Or.inl hl) rfl
    | cons rec list =>
      rw [hl] at hs
      cases hx' : ({ x with list := list } : Buffer D R).tryWrite rec with
      | some x' =>
        simp only [hx'] at hs
        cases hs
        refine ⟨hb.touch hx rfl rfl (fun b' hne => rfl) ?_, hq.manager rfl rfl rfl rfl rfl ?_⟩
        · exact hok.drain hat hl hx'
        · simp [hm]
      | none =>
        simp only [hx'] at hs
        cases hs
        refine hend (Or.inr ?_) rfl
        unfold Buffer.tryWrite at hx'
        split at hx'
        · rename_i hfull
          exact hfull
        · cases hx'
  | unlockBlocked b =>
    simp only [State.managerStep, hm] at hs
    obtain ⟨x, hx, hs⟩ := Outcome.bind_eq_done.1 hs
    obtain ⟨hx, -⟩ := live_eq_done.1 hx
    cases hs
    have hat : s.manager.at b = .drained := by simp [hm, ManagerPc.at]
    refine ⟨hb.pass hx rfl rfl (fun b' hne => ?_) ?_, hq.manager ?_ rfl rfl rfl ?_ ?_⟩
    · exact view_manager_of_away s .dequeue none hne (by simp [hm, ManagerPc.at, hne.symm]) rfl
    · have hview := view_manager (s := s) (b := b) none .dequeue
      change View.Ok (State.view { s.setOwner (.buffer b) none with manager := _ } b) _
      rw [hview]
      exact (hb.ok b x hx).giveBack (Or.inr hat)
    · exact setOwner_unblocked s b none
    · simp [hm, ManagerPc.updates]
    · simp [hm]

/-! ## The readers -/

theorem Queue.reader (h : Queue s) {t : Nat} {pc : ReaderPc}
    (howner : s'.owner .unblocked = s.owner .unblocked)
    (hreader : s'.reader = update s.reader t pc) (hun : s'.unblocked = s.unblocked)
    (hup : s'.updates = s.updates) (hmanager : s'.manager = s.manager)
    (ht : ∀ b, s.reader t ≠ .unlockUnblocked b) (hpc : ∀ b, pc ≠ .unlockUnblocked b) : Queue s' := by
  refine ⟨?_, fun t' => ?_, hun ▸ h.nodup, fun hne => ?_⟩
  · rw [howner, hmanager]
    exact h.owner_manager
  · rw [howner, hreader, h.owner_reader]
    by_cases heq : t' = t
    · subst heq
      rw [update_self]
      exact ⟨fun ⟨b, hb⟩ => absurd hb (ht b), fun ⟨b, hb⟩ => absurd hb (hpc b)⟩
    · rw [update_of_ne heq]
  · rw [hup, hmanager]
    exact h.pending (hun ▸ hne)

theorem reader_at_of_ne {b' : Nat} (h : b' ≠ b) (x : Buffer D R) :
    (State.afterCount b x).at b' = .away := by
  unfold State.afterCount
  split
  · split
    · simp [ReaderPc.at, h.symm]
    · split <;> simp [ReaderPc.at, h.symm]
  · simp [ReaderPc.at, h.symm]

theorem afterCount_ne (b b' : Nat) (x : Buffer D R) : State.afterCount b x ≠ .unlockUnblocked b' := by
  unfold State.afterCount
  split
  · split
    · simp
    · split <;> simp
  · simp

theorem Inv.readStream (h : Inv s) {t : Nat} (hs : s.readStream t b = .done s') : Inv s' := by
  obtain ⟨hb, hq⟩ := h
  unfold State.readStream at hs
  cases ht : s.reader t with
  | idle =>
    cases hx : s.buf b with
    | none =>
      rw [ht, hx] at hs
      cases hs
    | some x =>
      rw [ht, hx] at hs
      dsimp only at hs
      cases hstream : x.stream with
      | nil =>
        rw [hstream] at hs
        cases hs
      | cons rec stream =>
        rw [hstream] at hs
        cases hs
        refine ⟨hb.touch hx rfl rfl (fun b' hne => ?_) ?_,
          hq.reader rfl rfl rfl rfl rfl (by simp [ht]) (by simp)⟩
        · have hpc : (ReaderPc.lockBuffer b).at b' = (s.reader t).at b' := by
            simp [ht, ReaderPc.at, hne.symm]
          exact view_setReader_of_eq hpc
        · have hview := view_setReader s t (.lockBuffer b) b
          have hpc : (ReaderPc.lockBuffer b).at b = .waiting := by simp [ReaderPc.at]
          rw [hpc] at hview
          change (State.view (s.setReader t (.lockBuffer b)) b).Ok _
          rw [hview]
          exact (hb.ok b x hx).read (by simp [State.view, ht, ReaderPc.at]) hstream
  | lockBuffer b | lockUnblocked b | unlockUnblocked b | unlockBuffer b | unlockDone b | free b =>
    rw [ht] at hs
    cases hs

theorem Inv.readerStep (h : Inv s) {t : Nat} (hs : s.readerStep t = .done s') : Inv s' := by
  obtain ⟨hb, hq⟩ := h
  cases ht : s.reader t with
  | idle =>
    simp only [State.readerStep, ht] at hs
    cases hs
  | lockBuffer b =>
    simp only [State.readerStep, ht] at hs
    obtain ⟨x, hx, hs⟩ := Outcome.bind_eq_done.1 hs
    obtain ⟨u, hu, hs⟩ := Outcome.bind_eq_done.1 hs
    obtain ⟨hx, -⟩ := live_eq_done.1 hx
    obtain ⟨ho, rfl⟩ := lock_eq_done.1 hu
    cases hs
    refine ⟨hb.touch hx rfl rfl (fun b' hne => ?_) ?_,
      hq.reader (setOwner_unblocked s b (some (.reader t))) rfl rfl rfl rfl (by simp [ht])
        (fun b' => afterCount_ne b b' _)⟩
    · exact view_reader_of_away s (State.afterCount b _) (some (.reader t)) hne (by simp [ht, ReaderPc.at, hne.symm])
        (reader_at_of_ne hne _)
    · have hview := view_reader (s := s) (b := b) (some (.reader t)) t
        (State.afterCount b { x with counter := x.counter - 1, called := x.called + 1 })
      rw [View.Ok.afterCount_at] at hview
      change View.Ok (State.view (State.setReader (s.setOwner (.buffer b) (some (.reader t))) t _) b) _
      rw [hview]
      exact (hb.ok b x hx).count (by simp [State.view, ht, ReaderPc.at]) ho
  | lockUnblocked b =>
    simp only [State.readerStep, ht] at hs
    obtain ⟨u, hu, hs⟩ := Outcome.bind_eq_done.1 hs
    obtain ⟨ho, rfl⟩ := lock_eq_done.1 hu
    cases hs
    have hat : (s.view b).reader t = .enqueueing := by simp [State.view, ht, ReaderPc.at]
    obtain ⟨x, -, hx⟩ := hb.live_of_reader (b := b) (t := t) (by simp [ht, ReaderPc.at])
    have hok := hb.ok b x hx
    have hnotin : b ∉ s.unblocked := (hok.enqueueing t hat).2.2.1
    refine ⟨hb.pass hx rfl rfl (fun b' hne => ?_) ?_, ?_, fun t' => ?_, ?_, fun _ => ?_⟩
    · refine (view_setReader_of_eq (by simp [State.setOwner, ht, ReaderPc.at, hne.symm])).trans ?_
      have hqueued : (b' ∈ s.unblocked ++ [b]) = (b' ∈ s.unblocked) := by simp [hne]
      unfold State.view
      simp [State.setOwner, hqueued]
    · have henqueue := hok.enqueue hat
      have hqueued : (b ∈ s.unblocked ++ [b]) = True := by simp
      rw [view_setReader]
      have hpc : (ReaderPc.unlockUnblocked b).at b = .holding := by simp [ReaderPc.at]
      rw [hpc]
      unfold State.view at henqueue ⊢
      simpa [State.setOwner, hqueued] using henqueue
    · have hno : s.manager.updates ≠ true := fun hm => by
        rw [hq.owner_manager.2 hm] at ho
        cases ho
      have hself : (s.setOwner .unblocked (some (.reader t))).owner .unblocked = some (.reader t) := by
        simp [State.setOwner]
      change (s.setOwner .unblocked (some (.reader t))).owner .unblocked = _ ↔ s.manager.updates = true
      rw [hself]
      exact iff_of_false (by simp) hno
    · have hno : ∀ t', ¬ ∃ b, s.reader t' = .unlockUnblocked b := fun t' ht' => by
        rw [(hq.owner_reader t').2 ht'] at ho
        cases ho
      have hself : (s.setOwner .unblocked (some (.reader t))).owner .unblocked = some (.reader t) := by
        simp [State.setOwner]
      change (s.setOwner .unblocked (some (.reader t))).owner .unblocked = _ ↔
        ∃ b', update s.reader t (.unlockUnblocked b) t' = .unlockUnblocked b'
      rw [hself]
      by_cases heq : t' = t
      · subst heq
        simp
      · rw [update_of_ne heq]
        refine ⟨fun h => ?_, fun h => absurd h (hno t')⟩
        cases h
        exact absurd rfl heq
    · exact nodup_append.2 ⟨hq.nodup, nodup_singleton b, by
        intro a ha c hc heq
        rw [mem_singleton] at hc
        exact hnotin (hc ▸ heq ▸ ha)⟩
    · by_cases hnil : s.unblocked = []
      · left
        simp [State.setReader, State.setOwner, hnil]
      · have hlen : ¬ (s.unblocked ++ [b]).length = 1 := by
          have := length_pos_of_ne_nil hnil
          rw [length_append, length_singleton]
          omega
        rcases hq.pending hnil with hp | hp | hp
        · left
          change 0 < if (s.unblocked ++ [b]).length = 1 then s.updates + 1 else s.updates
          rw [if_neg hlen]
          exact hp
        · exact Or.inr (Or.inl hp)
        · exact Or.inr (Or.inr hp)
  | unlockUnblocked b =>
    simp only [State.readerStep, ht] at hs
    cases hs
    have hown := (hq.owner_reader t).2 ⟨b, ht⟩
    refine ⟨hb.congr rfl rfl fun b' => ?_, ?_, fun t' => ?_, hq.nodup, hq.pending⟩
    · refine (view_setReader_of_eq (by simp [State.unlock, ht, ReaderPc.at])).trans ?_
      exact view_setOwner_unblocked none
    · have hself : (s.unlock .unblocked).owner .unblocked = none := by simp [State.unlock]
      have hno : s.manager.updates ≠ true := fun hm => by
        rw [hq.owner_manager.2 hm] at hown
        cases hown
      change (s.unlock .unblocked).owner .unblocked = _ ↔ s.manager.updates = true
      rw [hself]
      exact iff_of_false (by simp) hno
    · have hself : (s.unlock .unblocked).owner .unblocked = none := by simp [State.unlock]
      change (s.unlock .unblocked).owner .unblocked = _ ↔
        ∃ b', update s.reader t (.unlockBuffer b) t' = .unlockUnblocked b'
      rw [hself]
      refine ⟨fun heq => (by cases heq), fun hu => ?_⟩
      obtain ⟨b', hb'⟩ := hu
      by_cases heq : t' = t
      · subst heq
        rw [update_self] at hb'
        cases hb'
      · rw [update_of_ne heq] at hb'
        rw [(hq.owner_reader t').2 ⟨b', hb'⟩] at hown
        cases hown
        exact absurd rfl heq
  | unlockBuffer b =>
    simp only [State.readerStep, ht] at hs
    obtain ⟨x, hx, hs⟩ := Outcome.bind_eq_done.1 hs
    obtain ⟨hx, -⟩ := live_eq_done.1 hx
    cases hs
    refine ⟨hb.pass hx rfl rfl (fun b' hne => ?_) ?_,
      hq.reader (setOwner_unblocked s b none) rfl rfl rfl rfl (by simp [ht]) (by simp)⟩
    · exact view_reader_of_away s .idle none hne (by simp [ht, ReaderPc.at, hne.symm]) rfl
    · have hview := view_reader (s := s) (b := b) none t .idle
      change View.Ok (State.view (State.setReader (s.setOwner (.buffer b) none) t _) b) _
      rw [hview]
      exact (hb.ok b x hx).release (by simp [State.view, ht, ReaderPc.at])
  | unlockDone b =>
    simp only [State.readerStep, ht] at hs
    obtain ⟨x, hx, hs⟩ := Outcome.bind_eq_done.1 hs
    obtain ⟨hx, -⟩ := live_eq_done.1 hx
    cases hs
    refine ⟨hb.pass hx rfl rfl (fun b' hne => ?_) ?_,
      hq.reader (setOwner_unblocked s b none) rfl rfl rfl rfl (by simp [ht]) (by simp)⟩
    · exact view_reader_of_away s (.free b) none hne (by simp [ht, ReaderPc.at, hne.symm])
        (by simp [ReaderPc.at, hne.symm])
    · have hview := view_reader (s := s) (b := b) none t (.free b)
      have hpc : (ReaderPc.free b).at b = .freeing := by simp [ReaderPc.at]
      rw [hpc] at hview
      change View.Ok (State.view (State.setReader (s.setOwner (.buffer b) none) t _) b) _
      rw [hview]
      exact (hb.ok b x hx).finish (by simp [State.view, ht, ReaderPc.at])
  | free b =>
    simp only [State.readerStep, ht] at hs
    obtain ⟨x, hx, hs⟩ := Outcome.bind_eq_done.1 hs
    obtain ⟨hx, -⟩ := live_eq_done.1 hx
    cases hs
    refine ⟨hb.touch hx rfl rfl (fun b' hne => ?_) ?_,
      hq.reader rfl rfl rfl rfl rfl (by simp [ht]) (by simp)⟩
    · have hpc : ReaderPc.idle.at b' = (s.reader t).at b' := by simp [ht, ReaderPc.at, hne.symm]
      exact view_setReader_of_eq hpc
    · have hview := view_setReader s t .idle b
      change View.Ok (State.view (s.setReader t .idle) b) _
      rw [hview]
      exact (hb.ok b x hx).free (by simp [State.view, ht, ReaderPc.at])

/-! ## New streams -/

theorem Inv.newStreams (h : Inv s) (tuples : List (Tuple D)) : Inv { s with newStreams := tuples } :=
  ⟨⟨h.1.1, h.1.2, h.1.3⟩, ⟨h.2.1, h.2.2, h.2.3, h.2.4⟩⟩

theorem Inv.init : Inv (State.init : State D R) := by
  refine ⟨⟨nofun, fun b _ => ⟨nofun, nofun, rfl, rfl, fun _ => rfl⟩, fun _ _ => rfl⟩, ?_, fun t => ?_,
    nodup_nil, fun h => absurd rfl h⟩
  · exact ⟨nofun, nofun⟩
  · exact ⟨nofun, fun ⟨b, hb⟩ => nomatch hb⟩

section

variable [DecidableEq D]

theorem Inv.create (h : Inv s) (tuple : Tuple D) : Inv (s.create tuple) := by
  obtain ⟨hb, hq⟩ := h
  have habsent := hb.absent s.created (hb.fresh s.created (Nat.le_refl _))
  -- the destination may have had another buffer
  have hview : ∀ b, b ≠ s.created → ∀ d, ((s.create tuple).view b).maps d → (s.view b).maps d := by
    intro b hne d hd
    change update s.destMap tuple.1 (some s.created) d = some b at hd
    by_cases heq : d = tuple.1
    · subst heq
      rw [update_self] at hd
      exact absurd (Option.some.inj hd).symm hne
    · rw [update_of_ne heq] at hd
      exact hd
  have hmaps : ((s.create tuple).view s.created).maps = fun d => d = tuple.1 := by
    funext d
    refine propext ⟨fun hd => ?_, fun hd => ?_⟩
    · change update s.destMap tuple.1 (some s.created) d = some s.created at hd
      by_contra hne
      rw [update_of_ne hne] at hd
      exact habsent.maps d hd
    · change update s.destMap tuple.1 (some s.created) d = some s.created
      rw [hd, update_self]
  refine ⟨⟨fun b x hx => ?_, fun b hx => ?_, fun b hle => ?_⟩, hq.1, hq.2, hq.3, hq.4⟩
  · change update s.buf s.created (some (.new tuple)) b = some x at hx
    by_cases heq : b = s.created
    · subst heq
      rw [update_self] at hx
      cases hx
      have := habsent.create tuple
      rw [← hmaps] at this
      exact this
    · rw [update_of_ne heq] at hx
      exact (hb.ok b x hx).unmap (hview b heq)
  · change update s.buf s.created (some (.new tuple)) b = none at hx
    by_cases heq : b = s.created
    · subst heq
      rw [update_self] at hx
      cases hx
    · rw [update_of_ne heq] at hx
      obtain ⟨h1, h2, h3, h4, h5⟩ := hb.absent b hx
      exact ⟨h1, fun d hd => h2 d (hview b heq d hd), h3, h4, h5⟩
  · change update s.buf s.created (some (.new tuple)) b = none
    have hne : b ≠ s.created := by
      rintro rfl
      exact absurd hle (Nat.not_succ_le_self _)
    rw [update_of_ne hne]
    exact hb.fresh b (Nat.le_of_succ_le hle)

theorem Inv.updateIncoming (h : Inv s) : Inv s.updateIncoming := by
  unfold State.updateIncoming
  refine Inv.newStreams ?_ []
  induction s.newStreams generalizing s with
  | nil => exact h
  | cons tuple tuples ih => exact ih (h.create tuple)

theorem create_manager (s : State D R) (tuples : List (Tuple D)) :
    (tuples.foldl State.create s).manager = s.manager := by
  induction tuples generalizing s with
  | nil => rfl
  | cons tuple tuples ih => exact ih (s.create tuple)

theorem Inv.incoming (h : Inv s) (hm : s.manager = .idle) (dest : D) (dynamic : List (Tuple D)) :
    Inv (s.incoming dest dynamic) ∧ (s.incoming dest dynamic).manager = .idle := by
  unfold State.incoming
  dsimp only
  split
  · exact ⟨h.updateIncoming, (create_manager s s.newStreams).trans hm⟩
  · refine ⟨(h.updateIncoming.newStreams _).updateIncoming, ?_⟩
    exact (create_manager _ _).trans ((create_manager s s.newStreams).trans hm)

theorem Inv.lookup (h : Inv s) (hm : s.manager = .idle) {dest : D} {rec : Rec R}
    {dynamic : List (Tuple D)} (hs : s.lookup dest rec dynamic = .done s') : Inv s' := by
  unfold State.lookup at hs
  dsimp only at hs
  -- the state in which the destination is looked up
  obtain ⟨u, hinc⟩ : ∃ u, s.incoming dest dynamic = u := ⟨_, rfl⟩
  obtain ⟨hu, hum⟩ : Inv u ∧ u.manager = .idle := hinc ▸ h.incoming hm dest dynamic
  rw [hinc] at hs
  cases hd : u.destMap dest with
  | none =>
    rw [hd] at hs
    cases hs
  | some b =>
    rw [hd] at hs
    cases hs
    obtain ⟨hb, hq⟩ := hu
    have hmaps : ∀ b' d, (if rec.isTerminate then update u.destMap dest none else u.destMap) d =
        some b' → u.destMap d = some b' ∧ (rec = .terminate → d ≠ dest) := by
      intro b' d hd'
      cases rec with
      | record r => exact ⟨hd', nofun⟩
      | terminate =>
        have hd' : update u.destMap dest none d = some b' := hd'
        by_cases heq : d = dest
        · subst heq
          rw [update_self] at hd'
          cases hd'
        · rw [update_of_ne heq] at hd'
          exact ⟨hd', fun _ => heq⟩
    refine ⟨⟨fun b' x hx => ?_, fun b' hx => ?_, hb.fresh⟩, ?_, hq.owner_reader, hq.nodup, fun hne => ?_⟩
    · by_cases heq : b' = b
      · subst heq
        have hok := (hb.ok b' x hx).begin (by simp [State.view, hum, ManagerPc.at]) hd rec
          (hmaps b')
        unfold State.view at hok ⊢
        simpa [ManagerPc.at] using hok
      · have hok := (hb.ok b' x hx).unmap fun d hd' => (hmaps b' d hd').1
        unfold State.view at hok ⊢
        simpa [ManagerPc.at, hum, Ne.symm heq] using hok
    · obtain ⟨h1, h2, h3, h4, h5⟩ := hb.absent b' hx
      have hne : b ≠ b' := by
        rintro rfl
        exact h2 dest hd
      exact ⟨h1, fun d hd' => h2 d (hmaps b' d hd').1, h3, by simp [State.view, ManagerPc.at, hne], h5⟩
    · have := hq.owner_manager
      rw [hum] at this
      exact this
    · have := hq.pending hne
      rw [hum] at this
      rcases this with hp | hp | hp
      · exact Or.inl hp
      · cases hp
      · cases hp

/-! ## Runs -/

theorem Inv.step (h : Inv s) {a : Act D R} (hs : step s a = .done s') : Inv s' := by
  cases a with
  | newIn tuple =>
    cases hs
    exact h.newStreams _
  | receive dest rec dynamic =>
    unfold InputManager.step at hs
    dsimp only at hs
    split at hs
    · rename_i hm
      exact h.lookup hm hs
    · cases hs
  | receiveUpdate =>
    unfold InputManager.step at hs
    dsimp only at hs
    split at hs
    · rename_i n hm hn
      cases hs
      obtain ⟨hb, hq⟩ := h
      refine ⟨hb.congr rfl rfl fun b => ?_, ?_, hq.owner_reader, hq.nodup, fun _ => Or.inr (Or.inl rfl)⟩
      · exact view_manager_pc (show ManagerPc.lockUnblocked.at b = s.manager.at b by simp [hm, ManagerPc.at])
      · have := hq.owner_manager
        rw [hm] at this
        exact this
    · cases hs
  | manager => exact h.managerStep hs
  | read t b => exact h.readStream hs
  | reader t => exact h.readerStep hs

theorem reach_inv {s : State D R} (h : Reach step anyStep State.init s) : Inv s :=
  h.invariant Inv.init fun _ _ _ hi _ hs => hi.step hs

end

end SNet.Distrib.InputManager
