import SNetRts.Distrib.SccLocks
import SNetRts.Lib.Run
import Mathlib.Data.Fintype.Basic

/-!
# No lock cycle in the SCC back end

A thread that sends under `remoteRefMutex` takes the lock of a message buffer after that mutex;
`SNetRefOutgoing` and `SNetRefIncoming` take the mutex after the lock. On a node where the two meet, the
threads may wait for each other. They are the only ones that take locks in opposite orders: where the
two never meet on a node, no threads wait for each other.
-/

namespace SNet.Distrib.Scc

open Function (update_of_ne update_self)

open Lib List

variable {n : Nat} {T : Type} [DecidableEq T] {remap : Bool} {node : T → Fin n}

/-! ## Where the orders meet -/

def Op.sends : Op n → Bool
  | .lock _ | .unlock _ | .startWrite _ | .testWriting _ | .copy _ | .copying _ | .relock _ => true
  | .enter _ | .locking _ | .body _ | .leave _ => false

namespace State

variable (s : State n T)

/-- The thread is sending a message while it holds the `remoteRefMutex` of its node. -/
def SendsUnderMutex (node : T → Fin n) (t : T) : Prop :=
  s.owner (.remoteRef (node t)) = some t ∧ (s.ops t).head?.any Op.sends

def HoldsBuffer (t : T) : Prop := ∃ m, s.owner (.buffer m) = some t

/-- The thread waits for the `remoteRefMutex` of its node while it holds the lock of a buffer. -/
def WaitsUnderLock (node : T → Fin n) (t : T) : Prop :=
  s.HoldsBuffer t ∧ s.waitsFor node t = some (.remoteRef (node t))

end State

/-- With this to do, the thread does not go on to call `SNetRefOutgoing` or `SNetRefIncoming` for a
remote reference while another thread of the node is sending under `remoteRefMutex`, nor does it come to
send under it while another thread of the node waits for it in one of these. -/
def ApartAt (remap : Bool) (node : T → Fin n) (s : State n T) (t : T) : List (Op n) → Prop
  | .enter sec :: _ => s.HoldsBuffer t → sec.mutex (node t) = .remoteRef (node t) →
      ∀ t', node t' = node t → ¬ s.SendsUnderMutex node t'
  | .body sec :: _ => sec.sends (node t) remap (s.tables (node t)) →
      ∀ t', node t' = node t → ¬ s.WaitsUnderLock node t'
  | _ => True

def Apart (remap : Bool) (node : T → Fin n) (s : State n T) : Act n T → Prop
  | .call _ _ => True
  | .run t _ => ApartAt remap node s t (s.ops t)

instance (s : State n T) (t : T) : Decidable (s.SendsUnderMutex node t) :=
  inferInstanceAs (Decidable (_ ∧ _))

instance (s : State n T) (t : T) : Decidable (s.HoldsBuffer t) :=
  inferInstanceAs (Decidable (∃ m, s.owner (.buffer m) = some t))

instance (s : State n T) (t : T) : Decidable (s.WaitsUnderLock node t) :=
  inferInstanceAs (Decidable (_ ∧ _))

instance [Fintype T] (s : State n T) (t : T) : (ops : List (Op n)) → Decidable (ApartAt remap node s t ops)
  | .enter sec :: _ => inferInstanceAs (Decidable (s.HoldsBuffer t →
      sec.mutex (node t) = .remoteRef (node t) → ∀ t', node t' = node t → ¬ s.SendsUnderMutex node t'))
  | .body sec :: _ => inferInstanceAs (Decidable (sec.sends (node t) remap (s.tables (node t)) →
      ∀ t', node t' = node t → ¬ s.WaitsUnderLock node t'))
  | [] | .lock _ :: _ | .unlock _ :: _ | .startWrite _ :: _ | .testWriting _ :: _ | .copy _ :: _
  | .copying _ :: _ | .relock _ :: _ | .locking _ :: _ | .leave _ :: _ => .isTrue trivial

instance [Fintype T] (s : State n T) : (a : Act n T) → Decidable (Apart remap node s a)
  | .call _ _ => .isTrue trivial
  | .run t _ => inferInstanceAs (Decidable (ApartAt remap node s t (s.ops t)))

/-! ## What a thread holds -/

/-- A buffer is locked first or after `remoteRefMutex`. -/
def BufferOrder (self : Fin n) (held : List (Lock n)) : Prop :=
  held = [] ∨ held = [.remoteRef self]

/-- A mutex is locked first, or after a buffer for a section that sends nothing. -/
def MutexOrder (sec : Section n) (held : List (Lock n)) : Prop :=
  held = [] ∨ (∃ m, held = [.buffer m]) ∧ ∀ self remap st, sec.sends self remap st = false

/-- A thread that holds these locks, the last one first, has given all of them back at the end, and
takes others in the right order. -/
def Follows (self : Fin n) : List (Lock n) → List (Op n) → Prop
  | held, [] => held = []
  | held, .lock m :: ops | held, .startWrite m :: ops | held, .relock m :: ops =>
    BufferOrder self held ∧ Follows self (.buffer m :: held) ops
  | held, .testWriting m :: ops | held, .copy m :: ops | held, .copying m :: ops =>
    ∃ held', held = .buffer m :: held' ∧ BufferOrder self held' ∧ Follows self held ops
  | held, .unlock m :: ops => ∃ held', held = .buffer m :: held' ∧ Follows self held' ops
  | held, .enter sec :: ops => MutexOrder sec held ∧ Follows self held ops
  -- a thread comes here from `enter` only
  | _, .locking _ :: _ => False
  | held, .body sec :: ops | held, .leave sec :: ops =>
    ∃ held', held = sec.mutex self :: held' ∧ MutexOrder sec held' ∧ Follows self held' ops

/-- The same for a thread that may have come to the mutex of a section. -/
def Goes (self : Fin n) (held : List (Lock n)) : List (Op n) → Prop
  | .locking sec :: ops => MutexOrder sec held ∧ Follows self held ops
  | ops => Follows self held ops

section Calls

variable {self : Fin n} {held : List (Lock n)} {m : Fin n} {ops : List (Op n)}

theorem sends_incoming (ref : Ref n) (self : Fin n) (remap : Bool) (st : Tables n) :
    (Section.incoming ref).sends self remap st = false := by
  rw [Section.sends, Section.run, refIncoming]
  split_ifs with hself
  · cases st.localRefMap ref with
    | none => rfl
    | some refInfo =>
      rw [Option.map_some]
      split_ifs <;> rfl
  · cases st.remoteRefMap ref <;> rfl

theorem sends_outgoing (ref : Ref n) (self : Fin n) (remap : Bool) (st : Tables n) :
    (Section.outgoing ref).sends self remap st = false := by
  rw [Section.sends, Section.run, refOutgoing]
  split_ifs with hself
  · cases st.localRefMap ref <;> rfl
  · cases st.decRemote ref <;> rfl

theorem sends_update (ref : Ref n) (value : Int) (self : Fin n) (remap : Bool) (st : Tables n) :
    (Section.update ref value).sends self remap st = false := by
  rw [Section.sends, Section.run, refUpdate]
  cases st.localRefMap ref with
  | none => rfl
  | some refInfo =>
    rw [Option.map_some]
    split_ifs <;> rfl

theorem sends_of_localRef {sec : Section n} {node : Fin n} (h : sec.mutex self = .localRef node)
    (st : Tables n) : sec.sends self remap st = false := by
  cases sec with
  | incoming ref => exact sends_incoming ref self remap st
  | outgoing ref => exact sends_outgoing ref self remap st
  | update ref value => exact sends_update ref value self remap st
  | copy ref | getData caller ref | takeData ref | destroy ref | set ref data => cases h

theorem mutex_cases (sec : Section n) (self : Fin n) :
    sec.mutex self = .localRef self ∨ sec.mutex self = .remoteRef self := by
  cases sec with
  | update ref value => exact .inl rfl
  | copy ref | getData caller ref | takeData ref | destroy ref | set ref data => exact .inr rfl
  | incoming ref | outgoing ref =>
    rw [Section.mutex]
    split_ifs
    · exact .inl rfl
    · exact .inr rfl

theorem follows_nil : Follows self [] [] := rfl

theorem Follows.unlock (h : Follows self held ops) :
    Follows self (.buffer m :: held) (.unlock m :: ops) :=
  ⟨held, rfl, h⟩

theorem Follows.copy (ho : BufferOrder self held) (h : Follows self (.buffer m :: held) ops) :
    Follows self (.buffer m :: held) (.copy m :: ops) :=
  ⟨held, rfl, ho, h⟩

theorem Follows.replicate_copy (ho : BufferOrder self held)
    (h : Follows self (.buffer m :: held) ops) (k : Nat) :
    Follows self (.buffer m :: held) (List.replicate k (.copy m) ++ ops) := by
  induction k with
  | zero => exact h
  | succ k ih => exact ih.copy ho

theorem Follows.writeNode_copies (ho : BufferOrder self held) (h : Follows self held ops)
    (m : Fin n) (k : Nat) : Follows self held (writeNode m (List.replicate k (.copy m)) ++ ops) := by
  rw [writeNode, cons_append, cons_append, append_assoc]
  exact ⟨ho, .copy ho (.replicate_copy ho h.unlock k)⟩

theorem Request.ops_eq (r : Request n) : ∃ m, r.ops = writeNode m (List.replicate 5 (.copy m)) := by
  cases r with
  | update ref count => exact ⟨ref.node, rfl⟩
  | fetch ref => exact ⟨ref.node, rfl⟩

theorem Follows.requests (h : Follows self [.remoteRef self] ops)
    (rs : List (Request n)) : Follows self [.remoteRef self] (rs.flatMap Request.ops ++ ops) := by
  induction rs with
  | nil => exact h
  | cons r rs ih =>
    obtain ⟨m, hm⟩ := r.ops_eq
    rw [flatMap_cons, append_assoc, hm]
    exact ih.writeNode_copies (.inr rfl) m 5

theorem Follows.parts (h : Follows self [.buffer m] ops) (parts : List (Option (Ref n))) :
    Follows self [.buffer m] (parts.flatMap (packPart m) ++ ops) := by
  induction parts with
  | nil => exact h
  | cons part parts ih =>
    rw [flatMap_cons, append_assoc]
    cases part with
    | none => exact ih.copy (.inl rfl)
    | some ref =>
      rw [packPart, append_assoc]
      refine Follows.replicate_copy (.inl rfl) ?_ 4
      exact ⟨.inr ⟨⟨m, rfl⟩, sends_outgoing ref⟩, ih⟩

theorem Follows.refs (h : Follows self [.buffer m] ops) (refs : List (Ref n)) : Follows self [.buffer m] (refs.map unpackRef ++ ops) := by
  induction refs with
  | nil => exact h
  | cons ref refs ih => exact ⟨.inr ⟨⟨m, rfl⟩, sends_incoming ref⟩, ih⟩

theorem Follows.getDataOps (h : Follows self [] ops) (caller : Caller) (ref : Ref n) :
    Follows self [] (getDataOps self caller ref ++ ops) := by
  rw [Scc.getDataOps]
  split_ifs
  · exact h
  · exact ⟨.inl rfl, h⟩

theorem follows_sendData (m : Fin n) (packfun : Nat) : Follows self [] (sendData remap m packfun) := by
  have hcopies : refSerialise m ++ (if remap then [] else [.copy m]) ++
      List.replicate packfun (.copy m) =
      List.replicate ((if remap then 4 else 5) + packfun) (Op.copy m) := by
    rw [replicate_add]
    cases remap <;> rfl
  rw [sendData, hcopies, ← append_nil (writeNode _ _)]
  exact follows_nil.writeNode_copies (.inl rfl) m _

theorem Call.follows (c : Call n) : Follows self [] (c.ops remap self) := by
  cases c with
  | refCopy ref | refDestroy ref =>
    rw [Call.ops]
    split_ifs
    · exact follows_nil
    · exact ⟨.inl rfl, follows_nil⟩
  | refGetData ref =>
    rw [Call.ops, ← append_nil (Scc.getDataOps _ _ _)]
    exact follows_nil.getDataOps .getData ref
  | refTakeData ref =>
    refine Follows.getDataOps ?_ .takeData ref
    split_ifs
    · exact ⟨.inl rfl, follows_nil⟩
    · exact follows_nil
  | refUpdate ref value | refSet ref data => exact ⟨.inl rfl, follows_nil⟩
  | sendRecord dest parts =>
    rw [Call.ops, writeNode, cons_append, cons_append, append_assoc]
    have hlast : Follows self [.buffer dest] ([.copy dest] ++ [.unlock dest]) :=
      .copy (.inl rfl) follows_nil.unlock
    exact ⟨.inl rfl, .copy (.inl rfl) (hlast.parts parts)⟩
  | sendData m packfun => exact follows_sendData m packfun
  | updateBlocked => exact follows_nil.writeNode_copies (.inl rfl) self 0
  | unblockDest m | blockDest m => exact follows_nil.writeNode_copies (.inl rfl) m 1
  | recvMsg msg =>
    cases msg with
    | record refs => exact ⟨.inl rfl, follows_nil.unlock.refs refs⟩
    | fetch ref m packfun =>
      refine ⟨.inl rfl, Follows.unlock ?_⟩
      cases remap with
      | false => exact follows_nil
      | true => exact (follows_sendData m packfun).getDataOps .getData ref
    | other => exact ⟨.inl rfl, follows_nil.unlock⟩

end Calls

/-! ## A step -/

theorem Follows.goes {self : Fin n} {held : List (Lock n)} {ops : List (Op n)}
    (h : Follows self held ops) : Goes self held ops := by
  unfold Goes
  split
  · exact h.elim
  · exact h

section Steps

variable {s s' : State n T} {t : T} {held : List (Lock n)} {l : Lock n} {ops : List (Op n)}

/-- The locks of a thread. -/
structure Holds (s : State n T) (t : T) (held : List (Lock n)) : Prop where
  nodup : held.Nodup
  owns : ∀ l, s.owner l = some t ↔ l ∈ held

theorem acquire_eq_done : s.acquire t l ops = .done s' ↔
    s.owner l = none ∧ s' = { s.goOn t ops with owner := Function.update s.owner l (some t) } := by
  rw [State.acquire]
  cases s.owner l with
  | none => simp [eq_comm]
  | some t' => simp

theorem Holds.acquire (h : Holds s t held) (hs : s.acquire t l ops = .done s') :
    Holds s' t (l :: held) := by
  obtain ⟨hl, rfl⟩ := acquire_eq_done.1 hs
  have hnotin : l ∉ held := fun hmem => by
    have howner := (h.owns l).2 hmem
    rw [hl] at howner
    cases howner
  refine ⟨nodup_cons.2 ⟨hnotin, h.nodup⟩, fun l' => ?_⟩
  by_cases hl' : l' = l
  · subst hl'
    simp
  · simpa [update_of_ne hl', hl'] using h.owns l'

theorem Holds.release (h : Holds s t (l :: held)) : Holds (s.release t l ops) t held := by
  obtain ⟨hnotin, hnodup⟩ := nodup_cons.1 h.nodup
  refine ⟨hnodup, fun l' => ?_⟩
  by_cases hl' : l' = l
  · subst hl'
    simpa [State.release] using hnotin
  · simpa [State.release, update_of_ne hl', hl'] using h.owns l'

/-- The step of a thread changes nothing for the others. -/
structure Others (s s' : State n T) (t : T) : Prop where
  ops : ∀ t', t' ≠ t → s'.ops t' = s.ops t'
  owns : ∀ t', t' ≠ t → ∀ l, s'.owner l = some t' ↔ s.owner l = some t'

theorem others_goOn (s : State n T) (t : T) (ops : List (Op n)) : Others s (s.goOn t ops) t :=
  ⟨fun _ hne => update_of_ne hne _ _, fun _ _ _ => Iff.rfl⟩

theorem others_acquire (hs : s.acquire t l ops = .done s') : Others s s' t := by
  obtain ⟨hl, rfl⟩ := acquire_eq_done.1 hs
  refine ⟨fun t' hne => update_of_ne hne _ _, fun t' hne l' => ?_⟩
  by_cases hl' : l' = l
  · subst hl'
    simp [hl, hne.symm]
  · simp [update_of_ne hl']

theorem Holds.others_release (h : Holds s t (l :: held)) : Others s (s.release t l ops) t := by
  refine ⟨fun t' hne => update_of_ne hne _ _, fun t' hne l' => ?_⟩
  by_cases hl' : l' = l
  · subst hl'
    have howner := (h.owns l').2 mem_cons_self
    simp [State.release, howner, hne.symm]
  · simp [State.release, update_of_ne hl']

omit [DecidableEq T] in
theorem Others.sendsUnderMutex (h : Others s s' t) {t' : T} (hne : t' ≠ t) :
    s'.SendsUnderMutex node t' ↔ s.SendsUnderMutex node t' := by
  rw [State.SendsUnderMutex, State.SendsUnderMutex, h.owns t' hne, h.ops t' hne]

omit [DecidableEq T] in
theorem Others.waitsUnderLock (h : Others s s' t) {t' : T} (hne : t' ≠ t) :
    s'.WaitsUnderLock node t' ↔ s.WaitsUnderLock node t' := by
  simp only [State.WaitsUnderLock, State.HoldsBuffer, State.waitsFor, h.owns t' hne, h.ops t' hne]

omit [DecidableEq T] in
theorem not_waitsUnderLock_of_follows (h : Follows (node t) held (s.ops t)) :
    ¬ s.WaitsUnderLock node t := by
  rintro ⟨-, hwaits⟩
  rw [State.waitsFor] at hwaits
  split at hwaits
  · cases hwaits
  · cases hwaits
  · cases hwaits
  · next sec ops hops =>
    rw [hops] at h
    exact h
  · cases hwaits

/-- What the step of a thread does to its locks, and when it comes to send under `remoteRefMutex` or to
wait for it. -/
structure Moved (remap : Bool) (node : T → Fin n) (s s' : State n T) (t : T) : Prop where
  others : Others s s' t
  goes : ∃ held, Holds s' t held ∧ Goes (node t) held (s'.ops t)
  sends : s'.SendsUnderMutex node t → s.SendsUnderMutex node t ∨
    ∃ sec ops, s.ops t = .body sec :: ops ∧ sec.sends (node t) remap (s.tables (node t))
  waits : s'.WaitsUnderLock node t → s.HoldsBuffer t ∧
    ∃ sec ops, s.ops t = .enter sec :: ops ∧ sec.mutex (node t) = .remoteRef (node t)

omit [DecidableEq T] in
theorem moved_of_follows (hothers : Others s s' t) (hholds : Holds s' t held) (hops' : s'.ops t = ops)
    (hfollows : Follows (node t) held ops)
    (hsends : s'.SendsUnderMutex node t → s.SendsUnderMutex node t ∨
      ∃ sec ops, s.ops t = .body sec :: ops ∧ sec.sends (node t) remap (s.tables (node t))) :
    Moved remap node s s' t := by
  subst hops'
  exact ⟨hothers, ⟨held, hholds, hfollows.goes⟩, hsends,
    fun h => absurd h (not_waitsUnderLock_of_follows hfollows)⟩

omit [DecidableEq T] in
theorem moved_of_sends {op : Op n} (hops : s.ops t = op :: ops) (hop : op.sends)
    (hothers : Others s s' t) (howner : s'.owner (.remoteRef (node t)) = s.owner (.remoteRef (node t)))
    (hholds : Holds s' t held) {ops' : List (Op n)} (hops' : s'.ops t = ops')
    (hfollows : Follows (node t) held ops') : Moved remap node s s' t := by
  refine moved_of_follows hothers hholds hops' hfollows fun h => .inl ⟨howner ▸ h.1, ?_⟩
  simp [hops, hop]

theorem moved_lock {op : Op n} {m : Fin n} (hops : s.ops t = op :: ops) (hop : op.sends)
    {ops' : List (Op n)} (hs : s.acquire t (.buffer m) ops' = .done s') (hholds : Holds s t held)
    (hfollows : Follows (node t) (.buffer m :: held) ops') : Moved remap node s s' t := by
  have hothers := others_acquire hs
  have hholds' := hholds.acquire hs
  obtain ⟨-, rfl⟩ := acquire_eq_done.1 hs
  refine moved_of_sends hops hop hothers ?_ hholds' (update_self ..) hfollows
  have hne : Lock.remoteRef (node t) ≠ .buffer m := by rintro ⟨⟩
  exact update_of_ne hne (some t) s.owner

theorem moved_unlock {op : Op n} {m : Fin n} (hops : s.ops t = op :: ops) (hop : op.sends)
    {ops' : List (Op n)} (hholds : Holds s t (.buffer m :: held))
    (hfollows : Follows (node t) held ops') :
    Moved remap node s (s.release t (.buffer m) ops') t := by
  refine moved_of_sends hops hop hholds.others_release ?_ hholds.release (update_self ..)
    hfollows
  have hne : Lock.remoteRef (node t) ≠ .buffer m := by rintro ⟨⟩
  exact update_of_ne hne none s.owner

theorem moved_goOn {op : Op n} (hops : s.ops t = op :: ops) (hop : op.sends) {ops' : List (Op n)}
    (hholds : Holds s t held) (hfollows : Follows (node t) held ops') (howner : s'.owner = s.owner)
    (hs : s'.ops = (s.goOn t ops').ops) : Moved remap node s s' t := by
  have hothers := others_goOn s t ops'
  refine moved_of_sends hops hop ⟨fun t' hne => ?_, fun t' hne l => ?_⟩ ?_ ⟨hholds.nodup, fun l => ?_⟩
    ?_ hfollows
  · rw [hs, hothers.ops t' hne]
  · rw [howner]
  · rw [howner]
  · rw [howner]
    exact hholds.owns l
  · rw [hs]
    exact update_self ..

theorem run_moved (hholds : Holds s t held) (hgoes : Goes (node t) held (s.ops t)) {turn : Turn}
    (hs : run remap node s t turn = .done s') : Moved remap node s s' t := by
  rw [run] at hs
  cases hops : s.ops t with
  | nil =>
    rw [hops] at hs
    cases hs
  | cons op ops =>
    rw [hops] at hs hgoes
    cases op with
    | lock m =>
      obtain ⟨-, hfollows⟩ := hgoes
      exact moved_lock hops rfl hs hholds hfollows
    | startWrite m =>
      obtain ⟨ho, hfollows⟩ := hgoes
      exact moved_lock hops rfl hs hholds ⟨held, rfl, ho, hfollows⟩
    | relock m =>
      obtain ⟨ho, hfollows⟩ := hgoes
      exact moved_lock hops rfl hs hholds ⟨held, rfl, ho, hfollows⟩
    | unlock m =>
      obtain ⟨held, rfl, hfollows⟩ := hgoes
      cases hs
      exact moved_unlock hops rfl hholds hfollows
    | testWriting m =>
      obtain ⟨held, rfl, ho, hfollows⟩ := hgoes
      dsimp only at hs
      split_ifs at hs with hwriting
      · cases hs
        exact moved_unlock hops rfl hholds ⟨ho, hfollows⟩
      · cases hs
        exact moved_goOn hops rfl hholds hfollows rfl rfl
    | copy m =>
      obtain ⟨held, rfl, ho, hfollows⟩ := hgoes
      cases hs
      have hcopying : Follows (node t) (.buffer m :: held) (.copying m :: ops) := ⟨held, rfl, ho, hfollows⟩
      exact moved_goOn hops rfl hholds hcopying rfl rfl
    | copying m =>
      obtain ⟨held, rfl, ho, hfollows⟩ := hgoes
      cases turn with
      | full =>
        cases hs
        exact moved_unlock hops rfl hholds ⟨ho, hfollows⟩
      | part =>
        cases hs
        have hcopying : Follows (node t) (.buffer m :: held) (.copying m :: ops) := ⟨held, rfl, ho, hfollows⟩
        refine moved_goOn hops rfl hholds hcopying rfl ?_
        rw [State.goOn, ← hops, Function.update_eq_self]
      | all =>
        cases hs
        exact moved_goOn hops rfl hholds hfollows rfl rfl
    | enter sec =>
      cases hs
      have hstate : (s.goOn t (.locking sec :: ops)).ops t = .locking sec :: ops := update_self ..
      refine ⟨others_goOn s t _, ⟨held, ⟨hholds.nodup, hholds.owns⟩, ?_⟩, fun h => ?_, fun h => ?_⟩
      · rw [hstate]
        exact hgoes
      · obtain ⟨-, hsends⟩ := h
        rw [hstate] at hsends
        cases hsends
      · obtain ⟨hbuffer, hwaits⟩ := h
        rw [State.waitsFor, hstate] at hwaits
        exact ⟨hbuffer, sec, ops, hops, Option.some.inj hwaits⟩
    | locking sec =>
      obtain ⟨ho, hfollows⟩ := hgoes
      have hothers := others_acquire hs
      have hholds' := hholds.acquire hs
      obtain ⟨-, rfl⟩ := acquire_eq_done.1 hs
      have hstate : (s.goOn t (.body sec :: ops)).ops t = .body sec :: ops := update_self ..
      have hbody : Follows (node t) (sec.mutex (node t) :: held) (.body sec :: ops) :=
        ⟨held, rfl, ho, hfollows⟩
      refine moved_of_follows hothers hholds' hstate hbody fun h => ?_
      obtain ⟨-, hsends⟩ := h
      rw [hstate] at hsends
      cases hsends
    | body sec =>
      obtain ⟨held, rfl, ho, hfollows⟩ := hgoes
      dsimp only at hs
      cases hrun : sec.run (node t) remap (s.tables (node t)) with
      | none =>
        rw [hrun] at hs
        cases hs
      | some result =>
        obtain ⟨tables, requests⟩ := result
        rw [hrun] at hs
        cases hs
        have hothers := others_goOn s t (requests.flatMap Request.ops ++ .leave sec :: ops)
        have hleave : Follows (node t) (sec.mutex (node t) :: held) (.leave sec :: ops) :=
          ⟨held, rfl, ho, hfollows⟩
        have hsec : sec.sends (node t) remap (s.tables (node t)) = !requests.isEmpty := by
          rw [Section.sends, hrun]
        have hholds' : Holds { s.goOn t (requests.flatMap Request.ops ++ .leave sec :: ops) with
            tables := Function.update s.tables (node t) tables } t (sec.mutex (node t) :: held) :=
          ⟨hholds.nodup, hholds.owns⟩
        refine moved_of_follows ⟨hothers.ops, hothers.owns⟩ hholds' (update_self ..) ?_ fun h => ?_
        · cases requests with
          | nil => exact hleave
          | cons r rs =>
            rcases ho with rfl | ⟨-, hquiet⟩
            · rcases mutex_cases sec (node t) with hmutex | hmutex
              · rw [sends_of_localRef hmutex] at hsec
                cases hsec
              · rw [hmutex] at hleave ⊢
                exact hleave.requests _
            · rw [hquiet] at hsec
              cases hsec
        · cases requests with
          | nil =>
            obtain ⟨-, hsends⟩ := h
            have hstate : (s.goOn t (.leave sec :: ops)).ops t = .leave sec :: ops := update_self ..
            rw [flatMap_nil, nil_append, hstate] at hsends
            cases hsends
          | cons r rs => exact .inr ⟨sec, ops, hops, hsec⟩
    | leave sec =>
      obtain ⟨held, rfl, ho, hfollows⟩ := hgoes
      cases hs
      refine moved_of_follows hholds.others_release hholds.release (update_self ..) hfollows
        fun h => ?_
      -- it holds no lock but that of a buffer
      have hmem := (hholds.release.owns _).1 h.1
      rcases ho with rfl | ⟨⟨m, rfl⟩, -⟩
      · cases hmem
      · simp at hmem

end Steps

/-! ## Runs -/

/-- What holds in every state of a run. -/
structure Inv (node : T → Fin n) (s : State n T) : Prop where
  goes : ∀ t, ∃ held, Holds s t held ∧ Goes (node t) held (s.ops t)
  apart : ∀ t t', node t' = node t → s.SendsUnderMutex node t → ¬ s.WaitsUnderLock node t'

omit [DecidableEq T] in
theorem inv_init : Inv node (State.init n T) where
  goes t := ⟨[], ⟨nodup_nil, fun _ => ⟨nofun, nofun⟩⟩, (follows_nil : Follows (node t) [] [])⟩
  apart _ _ _ h := nomatch h.1

omit [DecidableEq T] in
theorem not_waits_of_sends {s : State n T} {t : T} (h : s.SendsUnderMutex node t) :
    ¬ s.WaitsUnderLock node t := by
  rintro ⟨-, hwaits⟩
  obtain ⟨-, hsends⟩ := h
  rw [State.waitsFor] at hwaits
  split at hwaits
  · cases hwaits
  · cases hwaits
  · cases hwaits
  · next sec ops hops =>
    rw [hops] at hsends
    cases hsends
  · cases hwaits

omit [DecidableEq T] in
theorem Inv.of_moved {s s' : State n T} {t : T} (h : Inv node s) (hmoved : Moved remap node s s' t)
    (hbody : ∀ sec ops, s.ops t = .body sec :: ops → sec.sends (node t) remap (s.tables (node t)) →
      ∀ t', node t' = node t → ¬ s.WaitsUnderLock node t')
    (henter : ∀ sec ops, s.ops t = .enter sec :: ops → s.HoldsBuffer t →
      sec.mutex (node t) = .remoteRef (node t) → ∀ t', node t' = node t → ¬ s.SendsUnderMutex node t') :
    Inv node s' := by
  refine ⟨fun t' => ?_, fun a b hnode hsends hwaits => ?_⟩
  · by_cases hne : t' = t
    · subst hne
      exact hmoved.goes
    · obtain ⟨held', hholds', hgoes'⟩ := h.goes t'
      refine ⟨held', ⟨hholds'.nodup, fun l => ?_⟩, ?_⟩
      · rw [hmoved.others.owns t' hne]
        exact hholds'.owns l
      · rw [hmoved.others.ops t' hne]
        exact hgoes'
  · by_cases ha : a = t
    · subst ha
      by_cases hb : b = a
      · subst hb
        exact not_waits_of_sends hsends hwaits
      · rw [hmoved.others.waitsUnderLock hb] at hwaits
        rcases hmoved.sends hsends with hsends | ⟨sec, ops, hops, hsec⟩
        · exact h.apart a b hnode hsends hwaits
        · exact hbody sec ops hops hsec b hnode hwaits
    · rw [hmoved.others.sendsUnderMutex ha] at hsends
      by_cases hb : b = t
      · subst hb
        obtain ⟨hbuffer, sec, ops, hops, hmutex⟩ := hmoved.waits hwaits
        exact henter sec ops hops hbuffer hmutex a hnode.symm hsends
      · rw [hmoved.others.waitsUnderLock hb] at hwaits
        exact h.apart a b hnode hsends hwaits

theorem call_moved {s s' : State n T} {t : T} {c : Call n} {held : List (Lock n)}
    (hholds : Holds s t held) (hgoes : Goes (node t) held (s.ops t))
    (hs : step remap node s (.call t c) = .done s') : s.ops t = [] ∧ Moved remap node s s' t := by
  rw [step] at hs
  split at hs
  · next hops =>
    cases hs
    rw [hops] at hgoes
    obtain rfl : held = [] := hgoes
    refine ⟨hops, moved_of_follows (others_goOn s t _) ⟨hholds.nodup, hholds.owns⟩
      (update_self ..) c.follows fun h => ?_⟩
    cases (hholds.owns _).1 h.1
  · cases hs

theorem Inv.step {s s' : State n T} {a : Act n T} (h : Inv node s) (hok : Apart remap node s a)
    (hs : step remap node s a = .done s') : Inv node s' := by
  cases a with
  | call t c =>
    obtain ⟨held, hholds, hgoes⟩ := h.goes t
    obtain ⟨hops, hmoved⟩ := call_moved hholds hgoes hs
    refine h.of_moved hmoved (fun sec ops hbody => ?_) fun sec ops henter => ?_
    · rw [hops] at hbody
      cases hbody
    · rw [hops] at henter
      cases henter
  | run t turn =>
    obtain ⟨held, hholds, hgoes⟩ := h.goes t
    refine h.of_moved (run_moved hholds hgoes hs) (fun sec ops hbody => ?_) fun sec ops henter => ?_
    · rw [Apart, hbody] at hok
      exact hok
    · rw [Apart, henter] at hok
      exact hok

theorem reach_inv {s : State n T}
    (h : Reach (step remap node) (Apart remap node) (State.init n T) s) : Inv node s :=
  h.invariant inv_init fun _ _ _ hinv hok hs => hinv.step hok hs

/-! ## Waiting -/

section Waits

variable {s : State n T} {t : T} {held : List (Lock n)} {l : Lock n}

omit [DecidableEq T] in
theorem held_of_waits (hgoes : Goes (node t) held (s.ops t)) (hwaits : s.waitsFor node t = some l) :
    (∃ m, l = .buffer m ∧ BufferOrder (node t) held ∧ (s.ops t).head?.any Op.sends) ∨
      ∃ sec : Section n, l = sec.mutex (node t) ∧ MutexOrder sec held := by
  rw [State.waitsFor] at hwaits
  split at hwaits
  · next m ops hops =>
    rw [hops] at hgoes ⊢
    cases hwaits
    exact .inl ⟨m, rfl, hgoes.1, rfl⟩
  · next m ops hops =>
    rw [hops] at hgoes ⊢
    cases hwaits
    exact .inl ⟨m, rfl, hgoes.1, rfl⟩
  · next m ops hops =>
    rw [hops] at hgoes ⊢
    cases hwaits
    exact .inl ⟨m, rfl, hgoes.1, rfl⟩
  · next sec ops hops =>
    rw [hops] at hgoes
    cases hwaits
    exact .inr ⟨sec, rfl, hgoes.1⟩
  · cases hwaits

omit [DecidableEq T] in
theorem Inv.localRef_not_waits (h : Inv node s) {m : Fin n} (howner : s.owner (.localRef m) = some t) :
    s.waitsFor node t = none := by
  obtain ⟨held, hholds, hgoes⟩ := h.goes t
  have hmem := (hholds.owns _).1 howner
  cases hwaits : s.waitsFor node t with
  | none => rfl
  | some l =>
    rcases held_of_waits hgoes hwaits with ⟨_, -, hheld | hheld, -⟩ | ⟨_, -, hheld | ⟨⟨_, hheld⟩, -⟩⟩ <;>
      simp [hheld] at hmem

omit [DecidableEq T] in
theorem Inv.remoteRef_waits (h : Inv node s) {m : Fin n} (howner : s.owner (.remoteRef m) = some t)
    (hwaits : s.waitsFor node t = some l) :
    node t = m ∧ (∃ m', l = .buffer m') ∧ s.SendsUnderMutex node t := by
  obtain ⟨held, hholds, hgoes⟩ := h.goes t
  have hmem := (hholds.owns _).1 howner
  rcases held_of_waits hgoes hwaits with ⟨m', rfl, hheld | hheld, hsends⟩ |
    ⟨_, -, hheld | ⟨⟨_, hheld⟩, -⟩⟩
  · simp [hheld] at hmem
  · simp only [hheld, mem_singleton, Lock.remoteRef.injEq] at hmem
    subst hmem
    exact ⟨rfl, ⟨m', rfl⟩, howner, hsends⟩
  · simp [hheld] at hmem
  · simp [hheld] at hmem

omit [DecidableEq T] in
theorem Inv.buffer_waits (h : Inv node s) {m : Fin n} (howner : s.owner (.buffer m) = some t)
    (hwaits : s.waitsFor node t = some l) : l = .localRef (node t) ∨ l = .remoteRef (node t) := by
  obtain ⟨held, hholds, hgoes⟩ := h.goes t
  have hmem := (hholds.owns _).1 howner
  rcases held_of_waits hgoes hwaits with ⟨m', -, hheld | hheld, -⟩ | ⟨sec, rfl, -⟩
  · simp [hheld] at hmem
  · simp [hheld] at hmem
  · exact mutex_cases sec (node t)

end Waits

omit [DecidableEq T] in
theorem Inv.not_deadlocked {s : State n T} (h : Inv node s) (ts : Set T) :
    ¬ Deadlocked s.owner (s.waitsFor node) ts := by
  classical
  refine Lib.not_deadlocked (fun t =>
    match s.waitsFor node t with
    | none | some (.localRef _) => 0
    | some (.remoteRef _) => if s.HoldsBuffer t then 1 else 3
    | some (.buffer _) => 2) (fun t m t' m' hw ho hw' hne => ?_) ts
  cases m with
  | localRef a =>
    rw [h.localRef_not_waits ho] at hw'
    cases hw'
  | remoteRef a =>
    obtain ⟨hnode, ⟨b, rfl⟩, hsends⟩ := h.remoteRef_waits ho hw'
    simp only [hw, hw']
    obtain ⟨held, hholds, hgoes⟩ := h.goes t
    have hself : a = node t := by
      rcases held_of_waits hgoes hw with ⟨_, hl, -⟩ | ⟨sec, hl, -⟩
      · cases hl
      · rcases mutex_cases sec (node t) with hmutex | hmutex
        · rw [hmutex] at hl
          cases hl
        · rw [hmutex] at hl
          cases hl
          rfl
    subst hself
    by_cases hbuffer : s.HoldsBuffer t
    · exact absurd ⟨hbuffer, hw⟩ (h.apart t' t hnode.symm hsends)
    · rw [if_neg hbuffer]
      omega
  | buffer b =>
    rcases h.buffer_waits ho hw' with rfl | rfl
    · simp only [hw, hw']
      omega
    · have hbuffer : s.HoldsBuffer t' := ⟨b, ho⟩
      simp only [hw, hw', if_pos hbuffer]
      omega

/-! ## The result -/

/-- In a run in which the two kinds of threads are kept apart, no threads wait for each other. -/
theorem no_lock_cycle {s : State n T}
    (h : Reach (step remap node) (Apart remap node) (State.init n T) s) (ts : Set T) :
    ¬ Deadlocked s.owner (s.waitsFor node) ts :=
  (reach_inv h).not_deadlocked ts

/-- Two references that node `0` gets from node `1`. -/
def received : List (Ref 2) := [⟨1, 0⟩, ⟨1, 1⟩]

/-- The second thread sends one of them back and has the mutex for it, when the third one comes to
destroy the other. -/
theorem no_lock_cycle_waiting : ∃ s : State 2 (Fin 3),
    Reach (step false fun _ => 0) (Apart false fun _ => 0) (State.init 2 (Fin 3)) s ∧
      s.waitsFor (fun _ => 0) 2 = some (.remoteRef 0) ∧ s.owner (.remoteRef 0) = some 1 ∧
      s.owner (.buffer 1) = some 1 ∧ ¬ Deadlocked s.owner (s.waitsFor fun _ => 0) {1, 2} := by
  have hrun : ∃ s, runPermitted (step false fun _ => 0) (Apart false fun _ => 0) (State.init 2 (Fin 3))
      ([.call 0 (.recvMsg (.record received))] ++ List.replicate 10 (.run 0 .all) ++
        [.call 1 (.sendRecord 1 [none, some ⟨1, 0⟩])] ++ List.replicate 16 (.run 1 .all) ++
        [.call 2 (.refDestroy ⟨1, 1⟩), .run 2 .all]) = .done s ∧
      s.waitsFor (fun _ => 0) 2 = some (.remoteRef 0) ∧ s.owner (.remoteRef 0) = some 1 ∧
      s.owner (.buffer 1) = some 1 := ⟨_, rfl, rfl, rfl, rfl⟩
  obtain ⟨s, hrun, hwaits, howner, hbuffer⟩ := hrun
  have hreach := Reach.of_runPermitted .init hrun
  exact ⟨s, hreach, hwaits, howner, hbuffer, no_lock_cycle hreach _⟩

/-- The threads of node `0`: the first one receives the references; the second one has the lock of node
`1`, to which it sends the first of them; the third one destroys the other and has come to send. -/
def crossing : List (Act 2 (Fin 3)) :=
  [.call 0 (.recvMsg (.record received))] ++ List.replicate 10 (.run 0 .all) ++
    [.call 1 (.sendRecord 1 [none, some ⟨1, 0⟩])] ++ List.replicate 15 (.run 1 .all) ++
    [.call 2 (.refDestroy ⟨1, 1⟩)] ++ List.replicate 3 (.run 2 .all)

/-- The second thread waits for `remoteRefMutex` of node `0`, the third one for the lock of node `1`. -/
theorem crossing_deadlocked : ∃ s : State 2 (Fin 3),
    Reach (step false fun _ => 0) anyStep (State.init 2 (Fin 3)) s ∧
      Deadlocked s.owner (s.waitsFor fun _ => 0) {1, 2} := by
  have hrun : ∃ s, runAll (step false fun _ => 0) (State.init 2 (Fin 3)) crossing = .done s ∧
      s.waitsFor (fun _ => 0) 1 = some (.remoteRef 0) ∧ s.owner (.remoteRef 0) = some 2 ∧
      s.waitsFor (fun _ => 0) 2 = some (.buffer 1) ∧ s.owner (.buffer 1) = some 1 :=
    ⟨_, rfl, rfl, rfl, rfl, rfl⟩
  obtain ⟨s, hrun, hwaits1, howner1, hwaits2, howner2⟩ := hrun
  refine ⟨s, .of_runAll .init (permitted_anyStep _ _ _) hrun, ⟨1, by simp⟩, fun t ht => ?_⟩
  rcases ht with rfl | rfl
  · exact ⟨_, hwaits1, 2, by simp, by decide, howner1⟩
  · exact ⟨_, hwaits2, 1, by simp, by decide, howner2⟩

end SNet.Distrib.Scc
