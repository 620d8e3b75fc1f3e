import SNetRts.Front.Fifo
import SNetRts.Lib.Run
import Mathlib.Data.Fintype.Defs
import Mathlib.Logic.Function.Basic
import Mathlib.Tactic.Simps.Basic

/-!
# Workers and streams

The workers of `front/xworker.c`, the streams of `front/xstream.c`, and the landings that become
identities (`front/xident.c`) and then garbage (`front/xgarbage.c`), for any network and any number of
workers. Descriptors and landings are numbers, in the order in which they come about, and are not used
again; landing 0 is that of the input.

A step is a section under the lock of a work item or a landing, or what a worker does without one up to
an atomic change of a counter. The to-do list of a worker and its hash table are one table, which gives
the count of the item for a descriptor. An item that a worker takes past garbage landings is out of the
table, in the worker's hand (`Pc.passing`), and goes past one landing in a step. What a node does with a
record is up to the steps: it opens streams, writes, closes them and may become an identity. Whether a
lock that is tried is free at that moment is up to the step, too, where other workers may have held it.

The references of landings are left out: a landing ends at some time after the last descriptor to it was
closed. A context of a box is a landing of its own, which the worker goes on at; the counter of the busy
contexts, the free items and the turns of the thieves are left out.
-/

namespace SNet.Front.Work

open Function (update)

open Lib

/-- The type of a landing, with the descriptors that it has open. -/
inductive Kind where
  | node (outdescs : List Nat)
  | identity (outdesc : Nat)
  | garbage (outdesc : Nat)
deriving DecidableEq

namespace Kind

def isNode : Kind → Bool
  | node _ => true
  | _ => false

def isGarbage : Kind → Bool
  | garbage _ => true
  | _ => false

def outs : Kind → List Nat
  | node outdescs => outdescs
  | identity outdesc | garbage outdesc => [outdesc]

/-- The landing has another descriptor in the place of `desc`. -/
def replace (desc next : Nat) : Kind → Kind
  | node outdescs => node (outdescs.map fun d => if d = desc then next else d)
  | identity outdesc => identity (if outdesc = desc then next else outdesc)
  | garbage outdesc => garbage outdesc

end Kind

/-- `snet_stream_desc_t` -/
structure Desc (R : Type*) where
  landing : Nat
  source : Nat
  fifo : List R
  refs : Nat
  closed : Bool

/-- `landing_t` -/
structure Landing (W : Type*) where
  kind : Kind
  /-- The worker that has locked it. -/
  lock : Option W
  /-- The descriptor of an identity or garbage landing has been let go. -/
  ended : Bool

/-- Where a worker is. -/
inductive Pc (R : Type*) where
  | idle
  /-- In the loop of `SNetWorkerWorkItem`, at the descriptor `next_desc`. -/
  | passing (desc count : Nat)
  /-- With a licence, before it takes the record. -/
  | reading (desc : Nat)
  /-- In the work function of a landing, with a record from a descriptor or at the input, and with what it
  has to continue with. -/
  | serving (land : Nat) (desc : Option Nat) (cont : Option (Nat × R))
  /-- In the work function of an identity, before it writes the record. -/
  | forwarding (desc : Nat) (item : R)
  /-- The landing is unlocked and the descriptor is to be let go. -/
  | releasing (desc : Nat) (cont : Option (Nat × R))
  /-- With the booty, and whether it has an item for the descriptor. -/
  | looting (desc : Nat) (known : Bool) (count : Nat)

structure Worker (R : Type*) where
  /-- The counts of the items. -/
  item : Nat → Option Nat
  pc : Pc R

structure State (W R : Type*) where
  desc : Nat → Desc R
  landing : Nat → Landing W
  worker : W → Worker R
  /-- How many descriptors and landings there have been. -/
  descs : Nat
  landings : Nat
  /-- The descriptor that a descriptor leads to over the landings that are not nodes any more. -/
  final : Nat → Nat
  /-- What nodes have written on the way to a descriptor of a node, and what this node has got from it. -/
  line : Nat → List R
  got : Nat → List R

inductive Act (W R : Type*) where
  /-- `SNetWorkerInput` -/
  | input (w : W)
  /-- The start of `SNetWorkerWorkItem`. -/
  | take (w : W) (desc : Nat)
  /-- Its loop, and whether the item for the descriptor could be locked. -/
  | pass (w : W) (merge : Bool)
  /-- The start of `SNetStreamWork`. -/
  | read (w : W)
  /-- `SNetWrite` dissolves the landing of the descriptor at a position. -/
  | merge (w : W) (idx : Nat)
  /-- The rest of `SNetWrite` by a node; with `go` it locks the landing that it writes to. -/
  | write (w : W) (idx : Nat) (item : R) (go : Bool)
  /-- The same by an identity. -/
  | forward (w : W) (go : Bool)
  /-- `SNetStreamOpen`, to a new landing or to one that there is. -/
  | open_ (w : W) (land : Option Nat)
  /-- `SNetDescDone` of a descriptor of the landing. -/
  | close (w : W) (desc : Nat)
  /-- `SNetBecomeIdentity`, and a record that the landing still has to write. -/
  | becomeIdentity (w : W) (item : Option R)
  /-- The worker goes on at the landing of a box context, a new one or one that there is. -/
  | context (w : W) (land : Option Nat)
  /-- The landing of a box is unlocked. -/
  | unlock (land : Nat)
  /-- The work function comes back. -/
  | finish (w : W)
  /-- `SNetDescDone` after that. -/
  | release (w : W)
  /-- An empty item is taken out of the list. -/
  | remove (w : W) (desc : Nat)
  /-- `SNetWorkerStealVictim` -/
  | steal (thief victim : W) (desc : Nat)
  /-- `SNetWorkerLoot` -/
  | loot (w : W)
  /-- The term function of a landing lets a descriptor go. -/
  | term (land desc : Nat)

namespace State

variable {W R : Type*} [DecidableEq W]

def init : State W R where
  desc _ := ⟨0, 0, [], 0, false⟩
  landing _ := ⟨.node [], none, false⟩
  worker _ := ⟨fun _ => none, .idle⟩
  descs := 0
  landings := 1
  final d := d
  line _ := []
  got _ := []

variable (s : State W R)

/-- The type of the landing of a descriptor, and who has locked it. -/
def kind (d : Nat) : Kind := (s.landing (s.desc d).landing).kind

def lockOf (d : Nat) : Option W := (s.landing (s.desc d).landing).lock

@[simps] def setDesc (d : Nat) (x : Desc R) : State W R := { s with desc := update s.desc d x }

@[simps] def setLanding (l : Nat) (x : Landing W) : State W R :=
  { s with landing := update s.landing l x }

def setKind (l : Nat) (k : Kind) : State W R := s.setLanding l { s.landing l with kind := k }

def setLock (l : Nat) (w : Option W) : State W R := s.setLanding l { s.landing l with lock := w }

@[simps] def setWorker (w : W) (x : Worker R) : State W R := { s with worker := update s.worker w x }

def setPc (w : W) (pc : Pc R) : State W R := s.setWorker w { s.worker w with pc := pc }

def setItem (w : W) (d : Nat) (count : Option Nat) : State W R :=
  s.setWorker w { s.worker w with item := update (s.worker w).item d count }

/-- `SNetDescRelease`; `SNetDescDone` is this for one reference. -/
def descRelease (d count : Nat) : Outcome (State W R) :=
  let x := s.desc d
  if x.refs < count then .fault
  else if x.refs - count = 0 then
    if x.fifo.isEmpty then .done (s.setDesc d { x with refs := 0, closed := true }) else .fault
  else .done (s.setDesc d { x with refs := x.refs - count })

def descDone (d : Nat) : Outcome (State W R) := s.descRelease d 1

/-- `SNetWorkerTodo` -/
def todo (w : W) (d : Nat) : State W R :=
  s.setItem w d (some (((s.worker w).item d).getD 0 + 1))

/-- `SNetMergeStreams`, for the descriptor `d` of the landing `l`; its landing is an identity, whose
descriptor is `next`. -/
def mergeStreams (l d next : Nat) : Outcome (State W R) :=
  let x := s.desc d
  let s := s.setDesc d { x with fifo := [] }
  let y := s.desc next
  let s := s.setDesc next { y with fifo := y.fifo ++ x.fifo, source := x.source, refs := y.refs + x.fifo.length }
  -- `SNetBecomeGarbage`
  let s := s.setKind x.landing (.garbage next)
  let s := s.setDesc next { s.desc next with refs := (s.desc next).refs + 1 }
  let s := s.setKind l ((s.landing l).kind.replace d next)
  s.descDone d

def receive (d : Nat) (item : R) : State W R :=
  if (s.kind d).isNode then { s with got := update s.got d (s.got d ++ [item]) } else s

section receive

omit [DecidableEq W]

variable (d : Nat) (item : R)

@[simp] theorem receive_desc : (s.receive d item).desc = s.desc := by unfold receive; split <;> rfl

@[simp] theorem receive_landing : (s.receive d item).landing = s.landing := by unfold receive; split <;> rfl

@[simp] theorem receive_worker : (s.receive d item).worker = s.worker := by unfold receive; split <;> rfl

@[simp] theorem receive_descs : (s.receive d item).descs = s.descs := by unfold receive; split <;> rfl

@[simp] theorem receive_landings : (s.receive d item).landings = s.landings := by unfold receive; split <;> rfl

@[simp] theorem receive_final : (s.receive d item).final = s.final := by unfold receive; split <;> rfl

@[simp] theorem receive_line : (s.receive d item).line = s.line := by unfold receive; split <;> rfl

end receive

/-- The rest of `SNetWrite`: the record goes into the queue, or the worker continues with the first record
of the queue. -/
def enqueue (w : W) (d : Nat) (item : R) (go : Bool) : Outcome (State W R × Option (Nat × R)) :=
  let x := s.desc d
  -- the worker of the source is the one that writes
  if (s.landing x.source).lock ≠ some w then .fault
  else if go then
    if s.lockOf d = none then
      let r := fifoPutGet x.fifo item
      let s := s.setDesc d { x with refs := x.refs + 1, fifo := r.2 }
      .done ((s.setLock x.landing (some w)).receive d r.1, some (d, r.1))
    else .blocked
  else .done ((s.setDesc d { x with refs := x.refs + 1, fifo := fifoPut x.fifo item }).todo w d, none)

/-- A worker starts with a record at a landing that it has locked. -/
def work (w : W) (d : Nat) (item : R) : Outcome (State W R) :=
  match s.kind d with
  | .node _ => .done (s.setPc w (.serving (s.desc d).landing (some d) none))
  | .identity _ => .done (s.setPc w (.forwarding d item))
  | .garbage _ => .fault

def amount (garbage : Bool) (count : Nat) (own : Option Nat) : Nat :=
  match own with
  | some lookup => if garbage then count else (count - lookup) / 2
  | none => if garbage then count else (count + 1) / 2

end State

def State.writer {W R : Type*} (s : State W R) (w : W) : Option Nat :=
  match (s.worker w).pc with
  | .serving l _ _ => if (s.landing l).kind.isNode then some l else none
  | .forwarding d _ => some (s.desc d).landing
  | _ => none

/-- The landings that a worker has locked and is at, or will be. -/
def Pc.places {R : Type*} (land : Nat → Nat) : Pc R → List Nat
  | reading d | forwarding d _ => [land d]
  | serving l _ cont => l :: (cont.map fun c => land c.1).toList
  | releasing _ cont => (cont.map fun c => land c.1).toList
  | _ => []

def State.places {W R : Type*} (s : State W R) (w : W) : List Nat :=
  (s.worker w).pc.places fun d => (s.desc d).landing

open State

variable {W R : Type*} [DecidableEq W]

def step (s : State W R) : Act W R → Outcome (State W R)
  | .input w =>
    match (s.worker w).pc with
    | .idle =>
      if (s.landing 0).lock = none ∧ (s.landing 0).kind.isNode then
        .done ((s.setLock 0 (some w)).setPc w (.serving 0 none none))
      else .blocked
    | _ => .blocked
  | .take w d =>
    match (s.worker w).pc, (s.worker w).item d with
    | .idle, some (count + 1) =>
      if s.lockOf d = none then
        match s.kind d with
        | .garbage next =>
          (s.descRelease d (count + 1)).bind fun s =>
            .done ((s.setItem w d none).setPc w (.passing next (count + 1)))
        | _ => .done (((s.setLock (s.desc d).landing (some w)).setItem w d (some count)).setPc w (.reading d))
      else .blocked
    | _, _ => .blocked
  | .pass w merge =>
    match (s.worker w).pc with
    | .passing d count =>
      match s.kind d, (s.worker w).item d with
      | .garbage next, some lookup =>
        if merge then
          (s.descRelease d (count + lookup)).bind fun s =>
            .done ((s.setItem w d (some 0)).setPc w (.passing next (count + lookup)))
        else (s.descRelease d count).bind fun s => .done (s.setPc w (.passing next count))
      | .garbage next, none =>
        (s.descRelease d count).bind fun s => .done (s.setPc w (.passing next count))
      | _, some lookup => .done ((s.setItem w d (some (lookup + count))).setPc w .idle)
      | _, none => .done ((s.setItem w d (some count)).setPc w .idle)
    | _ => .blocked
  | .read w =>
    match (s.worker w).pc with
    | .reading d =>
      match fifoGet (s.desc d).fifo with
      | (none, _) => .fault
      | (some item, fifo) => ((s.setDesc d { s.desc d with fifo := fifo }).receive d item).work w d item
    | _ => .blocked
  | .merge w idx =>
    match s.writer w with
    | some l =>
      match (s.landing l).kind.outs[idx]? with
      | some d =>
        match s.kind d with
        | .identity next => if s.lockOf d = none then s.mergeStreams l d next else .blocked
        | _ => .blocked
      | none => .blocked
    | none => .blocked
  | .write w idx item go =>
    match (s.worker w).pc with
    | .serving l d cont =>
      match (s.landing l).kind with
      | .node outdescs =>
        match outdescs[idx]? with
        | some out =>
          (s.enqueue w out item go).bind fun r =>
            let s := { r.1 with line := update s.line (s.final out) (s.line (s.final out) ++ [item]) }
            .done (if go then s.setPc w (.serving l d r.2) else s.setPc w (.serving l d cont))
        | none => .blocked
      | _ => .blocked
    | _ => .blocked
  | .forward w go =>
    match (s.worker w).pc with
    | .forwarding d item =>
      match s.kind d with
      | .identity out =>
        (s.enqueue w out item go).bind fun r =>
          .done (r.1.setPc w (.serving (s.desc d).landing (some d) r.2))
      | _ => .fault
    | _ => .blocked
  | .open_ w land =>
    match (s.worker w).pc with
    | .serving l _ _ =>
      match (s.landing l).kind with
      | .node outdescs =>
        let d := s.descs
        let t := (s.setDesc d ⟨land.getD s.landings, l, [], 1, false⟩).setKind l (.node (outdescs ++ [d]))
        .done { t with
          descs := d + 1
          landings := if land.isNone then s.landings + 1 else s.landings
          final := update s.final d d
          line := update s.line d []
          got := update s.got d [] }
      | _ => .blocked
    | _ => .blocked
  | .close w d =>
    match (s.worker w).pc with
    | .serving l _ _ =>
      match (s.landing l).kind with
      | .node outdescs =>
        if d ∈ outdescs then (s.setKind l (.node (outdescs.erase d))).descDone d else .blocked
      | _ => .blocked
    | _ => .blocked
  | .becomeIdentity w item =>
    match (s.worker w).pc with
    | .serving l (some d) cont =>
      match (s.landing l).kind with
      | .node [out] =>
        if (s.desc d).landing = l then
          let f := s.final out
          let rest := item.toList ++ (s.line d).drop (s.got d).length
          let t := { s.setKind l (.identity out) with
            final := fun x => if (s.desc (s.final x)).landing = l then f else s.final x
            line := update s.line f (s.line f ++ rest) }
          match item, cont with
          | none, cont => .done (t.setPc w (.serving l (some d) cont))
          | some item, none => .done (t.setPc w (.forwarding d item))
          | some _, some _ => .blocked
        else .blocked
      | _ => .blocked
    | _ => .blocked
  | .context w land =>
    match (s.worker w).pc with
    | .serving _ d none =>
      match land with
      | none =>
        let l := s.landings
        .done ({ s.setLanding l ⟨.node [], some w, false⟩ with landings := l + 1 }.setPc w (.serving l d none))
      | some l =>
        if l < s.landings ∧ (s.landing l).lock = none ∧ (s.landing l).kind.isNode then
          .done ((s.setLock l (some w)).setPc w (.serving l d none))
        else .blocked
    | _ => .blocked
  | .unlock l => .done (s.setLock l none)
  | .finish w =>
    match (s.worker w).pc with
    | .serving l none _ => .done ((s.setLock l none).setPc w .idle)
    | .serving l (some d) cont => .done ((s.setLock l none).setPc w (.releasing d cont))
    | _ => .blocked
  | .release w =>
    match (s.worker w).pc with
    | .releasing d none => (s.descDone d).bind fun s => .done (s.setPc w .idle)
    | .releasing d (some (c, item)) => (s.descDone d).bind fun s => s.work w c item
    | _ => .blocked
  | .remove w d =>
    match (s.worker w).pc, (s.worker w).item d with
    | .idle, some 0 => .done (s.setItem w d none)
    | _, _ => .blocked
  | .steal thief victim d =>
    match (s.worker thief).pc, (s.worker victim).item d with
    | .idle, some (count + 1) =>
      if thief ≠ victim ∧ s.lockOf d = none then
        let own := (s.worker thief).item d
        let n := amount (s.kind d).isGarbage (count + 1) own
        .done ((s.setItem victim d (some (count + 1 - n))).setPc thief (.looting d own.isSome n))
      else .blocked
    | _, _ => .blocked
  | .loot w =>
    match (s.worker w).pc with
    | .looting d known count =>
      match known, (s.worker w).item d with
      | true, some own => .done ((s.setItem w d (some (own + count))).setPc w .idle)
      | true, none => .fault
      | false, _ => .done ((s.setItem w d (some count)).setPc w .idle)
    | _ => .blocked
  | .term l d =>
    match (s.landing l).kind with
    | .node outdescs =>
      if d ∈ outdescs then (s.setKind l (.node (outdescs.erase d))).descDone d else .blocked
    | .identity out | .garbage out =>
      if out = d ∧ (s.landing l).ended = false then
        (s.setLanding l { s.landing l with ended := true }).descDone d
      else .blocked

/-- The descriptors to a landing are closed, but for those of `but`. -/
def ClosedTo (s : State W R) (l : Nat) (but : List Nat) : Prop :=
  ∀ d < s.descs, (s.desc d).landing = l → d ∈ but ∨ (s.desc d).closed = true

/-- What nodes and landings keep to. At most one write of a work function is its last one, and no write
comes back to the worker from there. A stream is opened to a node. A landing becomes an identity when one
descriptor to it is left and what it writes does not come back to it, and ends when none is left. The
landing of a box is unlocked when its worker went on at a context. -/
def Callers (s : State W R) : Act W R → Prop
  | .write w _ _ go =>
    match (s.worker w).pc with
    | .serving _ d cont => go = true → d ≠ none ∧ cont = none
    | _ => True
  | .open_ _ (some l) => l < s.landings ∧ (s.landing l).kind.isNode = true
  | .becomeIdentity w _ =>
    match (s.worker w).pc with
    | .serving l (some d) _ =>
      match (s.landing l).kind with
      | .node [out] => ClosedTo s l [d] ∧ (s.desc (s.final out)).landing ≠ l
      | _ => True
    | _ => True
  | .unlock l => ∀ w, l ∉ s.places w
  | .term l _ => (s.landing l).lock = none ∧ ClosedTo s l []
  | _ => True

instance (s : State W R) (l : Nat) (but : List Nat) : Decidable (ClosedTo s l but) :=
  inferInstanceAs (Decidable (∀ d < s.descs, (s.desc d).landing = l → d ∈ but ∨ (s.desc d).closed = true))

instance [Fintype W] (s : State W R) : (a : Act W R) → Decidable (Callers s a)
  | .write w _ _ go =>
    match h : (s.worker w).pc with
    | .serving _ d cont => decidable_of_iff (go = true → d ≠ none ∧ cont = none) (by simp only [Callers, h])
    | .idle | .passing _ _ | .reading _ | .forwarding _ _ | .releasing _ _ | .looting _ _ _ =>
      isTrue (by simp only [Callers, h])
  | .open_ _ (some l) => inferInstanceAs (Decidable (l < s.landings ∧ (s.landing l).kind.isNode = true))
  | .becomeIdentity w _ =>
    match h : (s.worker w).pc with
    | .serving l (some d) _ =>
      match hk : (s.landing l).kind with
      | .node [out] =>
        decidable_of_iff (ClosedTo s l [d] ∧ (s.desc (s.final out)).landing ≠ l) (by simp only [Callers, h, hk])
      | .node [] | .node (_ :: _ :: _) | .identity _ | .garbage _ => isTrue (by simp only [Callers, h, hk])
    | .serving _ none _ | .idle | .passing _ _ | .reading _ | .forwarding _ _ | .releasing _ _ | .looting _ _ _ =>
      isTrue (by simp only [Callers, h])
  | .unlock l => inferInstanceAs (Decidable (∀ w, l ∉ s.places w))
  | .term l _ => inferInstanceAs (Decidable ((s.landing l).lock = none ∧ ClosedTo s l []))
  | .input _ | .take _ _ | .pass _ _ | .read _ | .merge _ _ | .forward _ _ | .open_ _ none | .close _ _
  | .context _ _ | .finish _ | .release _ | .remove _ _ | .steal _ _ _ | .loot _ => isTrue trivial

end SNet.Front.Work
