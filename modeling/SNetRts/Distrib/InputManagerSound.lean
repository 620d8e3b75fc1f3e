import SNetRts.Distrib.InputManagerRuns

/-!
# What the input manager keeps

For each buffer the records read, those on the stream and those in the list are the records received,
in this order; what is in the list will be looked after; a buffer is freed once, by the last reader,
and not touched again; and no threads wait for each other.
-/

namespace SNet.Distrib.InputManager

open Lib List

variable {D R : Type} {s : State D R} {b : Nat} {x : Buffer D R}

/-! ## Nobody touches a freed buffer -/

theorem Inv.managerStep_ne_fault (h : Inv s) : s.managerStep ≠ .fault := by
  obtain ⟨hb, -⟩ := h
  have hlock : ∀ m t, s.lock m t ≠ .fault := by
    intro m t
    unfold State.lock
    cases s.owner m <;> simp
  have hbind : ∀ m t (f : State D R → State D R),
      ((s.lock m t).bind fun u => .done (f u)) ≠ .fault := by
    intro m t f hf
    rcases Outcome.bind_eq_fault.1 hf with hf | ⟨u, -, hf⟩
    · exact hlock m t hf
    · cases hf
  have hlive : ∀ b, s.manager.at b ≠ .away → ∃ x, s.live b = .done x := by
    intro b hat
    obtain ⟨x, hx, -⟩ := hb.live_of_manager hat
    exact ⟨x, hx⟩
  cases hm : s.manager with
  | idle => simp [State.managerStep, hm]
  | lockBuffer b rec =>
    obtain ⟨x, hx⟩ := hlive b (by simp [hm, ManagerPc.at])
    simp only [State.managerStep, hm, hx, Outcome.done_bind]
    exact hbind _ _ _
  | unlockBuffer b =>
    obtain ⟨x, hx⟩ := hlive b (by simp [hm, ManagerPc.at])
    simp [State.managerStep, hm, hx]
  | lockUnblocked =>
    simp only [State.managerStep, hm]
    exact hbind _ _ _
  | dequeue =>
    simp only [State.managerStep, hm]
    cases s.unblocked <;> simp
  | lockBlocked b =>
    obtain ⟨x, hx⟩ := hlive b (by simp [hm, ManagerPc.at])
    simp only [State.managerStep, hm, hx, Outcome.done_bind]
    exact hbind _ _ _
  | drain b =>
    obtain ⟨x, hx⟩ := hlive b (by simp [hm, ManagerPc.at])
    simp only [State.managerStep, hm, hx, Outcome.done_bind]
    cases x.list with
    | nil => simp
    | cons rec list =>
      dsimp only
      split <;> simp
  | unlockBlocked b =>
    obtain ⟨x, hx⟩ := hlive b (by simp [hm, ManagerPc.at])
    simp [State.managerStep, hm, hx]

theorem Inv.readerStep_ne_fault (h : Inv s) (t : Nat) : s.readerStep t ≠ .fault := by
  obtain ⟨hb, -⟩ := h
  have hbind : ∀ m (f : State D R → State D R),
      ((s.lock m (.reader t)).bind fun u => .done (f u)) ≠ .fault := by
    intro m f hf
    unfold State.lock at hf
    cases hown : s.owner m <;> simp [hown] at hf
  have hlive : ∀ b, (s.reader t).at b ≠ .away → ∃ x, s.live b = .done x := by
    intro b hat
    obtain ⟨x, hx, -⟩ := hb.live_of_reader hat
    exact ⟨x, hx⟩
  cases ht : s.reader t with
  | idle => simp [State.readerStep, ht]
  | lockBuffer b =>
    obtain ⟨x, hx⟩ := hlive b (by simp [ht, ReaderPc.at])
    simp only [State.readerStep, ht, hx, Outcome.done_bind]
    exact hbind _ _
  | lockUnblocked b =>
    simp only [State.readerStep, ht]
    exact hbind _ _
  | unlockUnblocked b => simp [State.readerStep, ht]
  | unlockBuffer b | unlockDone b | free b =>
    obtain ⟨x, hx⟩ := hlive b (by simp [ht, ReaderPc.at])
    simp [State.readerStep, ht, hx]

/-! ## The records of a buffer -/

/-- The manager is in `UpdateBlocked`. -/
def ManagerPc.updating (pc : ManagerPc R) : Prop := pc = .lockUnblocked ∨ pc.updates = true

theorem ManagerPc.eq_of_blocked {pc : ManagerPc R} (h : pc.at b = .blocked) : pc = .lockBlocked b := by
  cases pc with
  | lockBlocked b' =>
    by_cases heq : b' = b
    · rw [heq]
    · rw [ManagerPc.at, if_neg heq] at h
      cases h
  | lockBuffer _ _ | unlockBuffer _ | drain _ | unlockBlocked _ =>
    simp only [ManagerPc.at] at h
    split at h <;> cases h
  | idle | lockUnblocked | dequeue => cases h

/-- What the input manager does for a buffer. -/
structure Faithful (s : State D R) (b : Nat) (x : Buffer D R) : Prop where
  /-- The records written to the stream, read or not, and those in the list are the ones received. -/
  order : x.read ++ x.stream ++ x.list = x.received
  /-- The counter is the number of records written and not counted off. -/
  counter : x.counter + x.called = (x.read ++ x.stream).length
  /-- What waits in the list has records before it, or an update message is on the way. -/
  watched : ¬ s.manager.updating → s.owner (.buffer b) = none → x.list ≠ [] →
    0 < x.counter ∨ (s.unblocked.count b = 1 ∧ 0 < s.updates)
  alternates : Alternates x.sent
  /-- Only what has been read to the terminate record and counted off is freed. -/
  freed : x.freed = true → ∃ rs, x.read = rs ++ [.terminate] ∧ x.called = x.read.length
  /-- It is freed by the reader that counts the last record off. -/
  ends : .terminate ∈ x.read → x.called = x.read.length →
    (∀ t, s.reader t ≠ .unlockDone b ∧ s.reader t ≠ .free b) → x.freed = true

theorem Inv.faithful (h : Inv s) (hx : s.buf b = some x) : Faithful s b x := by
  have hok := h.buffers.ok b x hx
  -- behind a terminate record there is nothing
  have hlast : .terminate ∈ x.read → x.done = true ∧ x.stream = [] ∧ x.list = [] := by
    intro hmem
    have hdone : x.done = true := by
      cases hd : x.done with
      | true => rfl
      | false =>
        refine absurd ?_ (hok.goesOn hd)
        rw [hok.received, append_assoc]
        exact mem_append_left _ hmem
    obtain ⟨rs, hrs, hnot⟩ := hok.last hdone
    rw [hok.received, append_assoc] at hrs
    rcases eq_nil_or_concat (x.stream ++ x.list) with hnil | ⟨l, r, hl⟩
    · exact ⟨hdone, append_eq_nil_iff.1 hnil⟩
    · rw [hl, concat_eq_append, ← append_assoc] at hrs
      have := (append_inj' hrs rfl).1
      exact absurd (this ▸ mem_append_left l hmem) hnot
  refine ⟨hok.received.symm, ?_, fun hno ho hl => ?_, hok.alternates, fun hf => ?_, fun hmem hc ht => ?_⟩
  · rw [length_append]
    exact hok.called
  · rcases hok.watched hl with hc | hq | ⟨t, ht⟩ | hm | hm
    · exact Or.inl hc
    · right
      refine ⟨count_eq_one_of_mem h.queue.nodup hq, ?_⟩
      rcases h.queue.pending (ne_nil_of_mem hq) with hp | hp | hp
      · exact hp
      · exact absurd (Or.inl hp) hno
      · exact absurd (Or.inr hp) hno
    · have := (hok.nobody ho).2 t
      rw [ht] at this
      cases this
    · exact absurd (Or.inr (by rw [ManagerPc.eq_of_blocked hm]; rfl)) hno
    · have := (hok.nobody ho).1
      rw [hm] at this
      cases this
  · obtain ⟨hdone, hzero, hlist, -⟩ := hok.freed hf
    have hle := hok.stream_le
    have hstream : x.stream = [] := length_eq_zero_iff.1 (by omega)
    obtain ⟨rs, hrs, -⟩ := hok.last hdone
    have hcalled := hok.called
    refine ⟨rs, ?_, ?_⟩
    · rw [← hrs, hok.received, hstream, hlist, append_nil, append_nil]
    · rw [hstream, length_nil] at hcalled
      omega
  · obtain ⟨hdone, hstream, hlist⟩ := hlast hmem
    have hcalled := hok.called
    rw [hstream, length_nil] at hcalled
    rcases hok.ends hdone hlist (by omega) with hf | ⟨t, hf⟩
    · exact hf
    · have := ht t
      change (s.reader t).at b = .finishing ∨ (s.reader t).at b = .freeing at hf
      cases hpc : s.reader t with
      | unlockDone b' =>
        have hne : b' ≠ b := fun heq => this.1 (by rw [hpc, heq])
        simp [hpc, ReaderPc.at, hne] at hf
      | free b' =>
        have hne : b' ≠ b := fun heq => this.2 (by rw [hpc, heq])
        simp [hpc, ReaderPc.at, hne] at hf
      | idle => simp [hpc, ReaderPc.at] at hf
      | lockBuffer b' | lockUnblocked b' | unlockUnblocked b' | unlockBuffer b' =>
        simp only [hpc, ReaderPc.at] at hf
        split at hf <;> simp at hf

/-! ## No deadlock -/

/-- A thread that has one of the mutexes and waits for the other one; the manager is the last. -/
def State.rank (s : State D R) : Thread → Nat
  | .manager =>
    match s.manager with
    | .lockBlocked _ => 0
    | _ => 2
  | .reader t =>
    match s.reader t with
    | .lockUnblocked _ => 1
    | _ => 2

theorem Inv.owner_waits (h : Inv s) {t : Thread} {m : Mutex} (ho : s.owner (.buffer b) = some t)
    (hw : s.waitsFor t = some m) : ∃ r, t = .reader r ∧ s.reader r = .lockUnblocked b := by
  cases hx : s.buf b with
  | none =>
    have := (h.buffers.absent b hx).owner
    change s.owner _ = none at this
    rw [ho] at this
    cases this
  | some x =>
    have hok := h.buffers.ok b x hx
    cases t with
    | manager =>
      have := hok.owner_manager.1 ho
      change (s.manager.at b).holds = true at this
      unfold State.waitsFor at hw
      cases hpc : s.manager with
      | lockBuffer b' _ | lockBlocked b' =>
        rw [hpc, ManagerPc.at] at this
        split at this <;> cases this
      | lockUnblocked =>
        rw [hpc] at this
        cases this
      | idle | unlockBuffer _ | dequeue | drain _ | unlockBlocked _ => simp [hpc] at hw
    | reader r =>
      have := (hok.owner_reader r).1 ho
      change ((s.reader r).at b).holds = true at this
      unfold State.waitsFor at hw
      cases hpc : s.reader r with
      | lockUnblocked b' =>
        rw [hpc, ReaderPc.at] at this
        by_cases heq : b' = b
        · exact ⟨r, rfl, heq ▸ hpc⟩
        · rw [if_neg heq] at this
          cases this
      | lockBuffer b' =>
        rw [hpc, ReaderPc.at] at this
        split at this <;> cases this
      | idle | unlockUnblocked _ | unlockBuffer _ | unlockDone _ | free _ =>
        simp [hpc] at hw

theorem Inv.owner_unblocked_waits (h : Inv s) {t : Thread} {m : Mutex}
    (ho : s.owner .unblocked = some t) (hw : s.waitsFor t = some m) :
    t = .manager ∧ ∃ b, s.manager = .lockBlocked b := by
  cases t with
  | manager =>
    have := h.queue.owner_manager.1 ho
    unfold State.waitsFor at hw
    cases hpc : s.manager <;> rw [hpc] at this hw <;> simp [ManagerPc.updates] at this hw
    exact ⟨rfl, _, rfl⟩
  | reader r =>
    obtain ⟨b, hb⟩ := (h.queue.owner_reader r).1 ho
    simp [State.waitsFor, hb] at hw

/-! ## Runs -/

variable [DecidableEq D]

/-- `SNetRouteNewDynamic` registers the stream that it is called for. -/
def Act.Registers : Act D R → Prop
  | .receive dest _ dynamic => dest ∈ dynamic.map Prod.fst
  | _ => True

theorem create_destMap {tuples : List (Tuple D)} {d : D} (s : State D R)
    (h : d ∈ tuples.map Prod.fst ∨ (s.destMap d).isSome = true) :
    ((tuples.foldl State.create s).destMap d).isSome = true := by
  induction tuples generalizing s with
  | nil => exact h.resolve_left nofun
  | cons tuple tuples ih =>
    refine ih (s.create tuple) ?_
    by_cases heq : d = tuple.1
    · right
      change (Function.update s.destMap tuple.1 (some s.created) d).isSome = true
      rw [heq, Function.update_self]
      rfl
    · refine h.imp (fun hmem => ?_) fun hsome => ?_
      · exact (mem_cons.1 hmem).resolve_left heq
      · change (Function.update s.destMap tuple.1 (some s.created) d).isSome = true
        rw [Function.update_of_ne heq]
        exact hsome

theorem incoming_destMap (s : State D R) {dest : D} {dynamic : List (Tuple D)}
    (h : dest ∈ dynamic.map Prod.fst) : ((s.incoming dest dynamic).destMap dest).isSome = true := by
  unfold State.incoming
  dsimp only
  split
  · rename_i hsome
    exact hsome
  · refine create_destMap _ (Or.inl ?_)
    rw [map_append]
    exact mem_append_right _ h

theorem Inv.step_ne_fault (h : Inv s) {a : Act D R} (ha : a.Registers) :
    InputManager.step s a ≠ .fault := by
  cases a with
  | newIn tuple => simp [InputManager.step]
  | receive dest rec dynamic =>
    unfold InputManager.step
    dsimp only
    split
    · have hsome := incoming_destMap s ha
      unfold State.lookup
      cases hd : (s.incoming dest dynamic).destMap dest with
      | none =>
        rw [hd] at hsome
        cases hsome
      | some b => simp [hd]
    · simp
  | receiveUpdate =>
    unfold InputManager.step
    dsimp only
    split <;> simp
  | manager => exact h.managerStep_ne_fault
  | read t b =>
    change s.readStream t b ≠ .fault
    unfold State.readStream
    split
    · split <;> simp
    · simp
  | reader t => exact h.readerStep_ne_fault t

/-- In every run the input manager keeps the records of each buffer in order, loses and strands none of
them, and frees the buffer once; a buffer that has been freed is not touched again. -/
theorem records_kept (h : Reach step anyStep State.init s) :
    (∀ b x, s.buf b = some x → Faithful s b x) ∧
      ∀ a : Act D R, a.Registers → step s a ≠ .fault :=
  ⟨fun _ _ hx => (reach_inv h).faithful hx, fun _ ha => (reach_inv h).step_ne_fault ha⟩

def narrow : Tuple Nat := (0, ⟨1, Nat.one_pos⟩)

/-- A record and a terminate record; the second one waits until the first one has been read. -/
theorem records_kept_narrow : ∃ (s : State Nat Unit) (x : Buffer Nat Unit),
    Reach step anyStep State.init s ∧ s.buf 0 = some x ∧ x.freed = true ∧ x.sent = [true] ∧
      Faithful s 0 x := by
  have hrun : ∃ s x, runAll step (State.init : State Nat Unit)
      [.newIn narrow, .receive 0 (.record ()) [], .manager, .manager, .receive 0 .terminate [],
        .manager, .manager, .read 0 0, .reader 0, .reader 0, .reader 0, .reader 0, .receiveUpdate,
        .manager, .manager, .manager, .manager, .manager, .manager, .manager, .read 1 0, .reader 1,
        .reader 1, .reader 1] = .done s ∧ s.buf 0 = some x ∧ x.freed = true ∧ x.sent = [true] :=
    ⟨_, _, rfl, rfl, rfl, rfl⟩
  obtain ⟨s, x, hrun, hx, hfreed, hsent⟩ := hrun
  have hreach := Reach.of_runAll .init (permitted_anyStep _ _ _) hrun
  exact ⟨s, x, hreach, hx, hfreed, hsent, (records_kept hreach).1 0 x hx⟩

/-- No threads wait for each other: a buffer that the manager takes from `unblocked` has no reader
that could be on its way to `unblockedMutex`. -/
theorem no_deadlock (h : Reach step anyStep State.init s) (ts : Set Thread) :
    ¬ Deadlocked (State.owner (s : State D R)) s.waitsFor ts := by
  have hinv := reach_inv h
  refine not_deadlocked s.rank (fun t m t' m' hw ho hw' hne => ?_) ts
  cases m with
  | unblocked =>
    obtain ⟨rfl, b, hb⟩ := hinv.owner_unblocked_waits ho hw'
    cases t with
    | manager => exact absurd rfl hne
    | reader r =>
      simp only [State.rank, hb]
      split <;> omega
  | buffer b =>
    obtain ⟨r, rfl, hr⟩ := hinv.owner_waits ho hw'
    have hat : (s.view b).reader r = .enqueueing := by simp [State.view, hr, ReaderPc.at]
    cases t with
    | manager =>
      simp only [State.rank, hr]
      cases hpc : s.manager with
      | lockBlocked b' =>
        obtain rfl : b' = b := by simpa [State.waitsFor, hpc] using hw
        obtain ⟨x, -, hx⟩ := hinv.buffers.live_of_reader (b := b') (t := r) (by simp [hr, ReaderPc.at])
        refine absurd ?_ ((hinv.buffers.ok b' x hx).enqueueing r hat).2.2.2
        simp [State.view, hpc, ManagerPc.at]
      | idle | lockBuffer _ _ | unlockBuffer _ | lockUnblocked | dequeue | drain _ | unlockBlocked _ =>
        simp
    | reader r' =>
      cases hpc : s.reader r' with
      | lockUnblocked b' => simp [State.waitsFor, hpc] at hw
      | idle | lockBuffer _ | unlockUnblocked _ | unlockBuffer _ | unlockDone _ | free _ =>
        simp [State.rank, hr, hpc]

/-- The manager has `unblockedMutex` and is about to lock the first buffer, while the reader of the
second one has the mutex of that buffer and waits for `unblockedMutex`. -/
theorem no_deadlock_crossing : ∃ s : State Nat Unit, Reach step anyStep State.init s ∧
    s.waitsFor .manager = some (.buffer 0) ∧ s.owner .unblocked = some .manager ∧
    s.waitsFor (.reader 1) = some .unblocked ∧ s.owner (.buffer 1) = some (.reader 1) ∧
    ¬ Deadlocked s.owner s.waitsFor {.manager, .reader 1} := by
  have hrun : ∃ s, runAll step (State.init : State Nat Unit)
      [.newIn narrow, .newIn (1, ⟨1, Nat.one_pos⟩), .receive 0 (.record ()) [], .manager, .manager,
        .receive 0 (.record ()) [], .manager, .manager, .receive 1 (.record ()) [], .manager, .manager,
        .receive 1 (.record ()) [], .manager, .manager, .read 0 0, .reader 0, .reader 0, .reader 0,
        .reader 0, .receiveUpdate, .manager, .manager, .read 1 1, .reader 1] = .done s ∧
      s.waitsFor .manager = some (.buffer 0) ∧ s.owner .unblocked = some .manager ∧
      s.waitsFor (.reader 1) = some .unblocked ∧ s.owner (.buffer 1) = some (.reader 1) :=
    ⟨_, rfl, rfl, rfl, rfl, rfl⟩
  obtain ⟨s, hrun, h1, h2, h3, h4⟩ := hrun
  have hreach := Reach.of_runAll .init (permitted_anyStep _ _ _) hrun
  exact ⟨s, hreach, h1, h2, h3, h4, no_deadlock hreach _⟩

end SNet.Distrib.InputManager
