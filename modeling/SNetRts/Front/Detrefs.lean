import SNetRts.Front.Det
import SNetRts.Front.Parallel
import SNetRts.Front.Zipper
import SNetRts.Lib.RefCount

/-!
# Detrefs in a front network

What all nodes of the front runtime do to the stacks of detrefs that data records have, and to the
reference counts of the detrefs (`front/xdet.c`). A network is any assignment of nodes to landings,
and any landing may get any record: which landing a record is written to is left open, so that a run
of this model need not be one of a given network, while every run of a network is one here.

A landing that has got a record goes through the calls that its node makes for it, one at a time, and
anything may happen in between. A call of `SNetRecDetrefCopy` or `SNetRecDetrefAdd` is one step.
`SNetRecDetrefDestroy` and the functions for records that leave a network take one step for a detref:
nobody else refers to a detref between its last two decrements.
-/

namespace SNet.Front.Detrefs

open Lib SNet.Sync

variable {V : Type}

abbrev LandingId := Nat

/-! ## Nodes -/

def stack (rec : Record V) : List DetrefId := rec.detref.getD []

/-- What the entry of a network has in its argument, and the landing of the network's collector. -/
structure Entry where
  isDet : Bool
  isDetsup : Bool
  collland : LandingId

/-- Nodes, with what their landings keep. `identity` is any landing that forwards what it gets:
identities, observers, the second and fourth landing of a feedback, and the first one of a dripback. -/
inductive Node (V : Type) where
  /-- `boxfun` gives what is output for a record, or for an initialiser. -/
  | box (boxfun : Option (Record V) → List (Record V)) (concurrency : Nat) (isDet : Bool)
      (collland : LandingId)
  /-- the guards, each with the instructions for the records that are then made -/
  | filter (clauses : List (Guard V × List (Record V → Record V)))
  | nameshift (rename : Record V → Record V)
  | identity
  | sync (patterns : List (Pattern V)) (land : SyncLanding V)
  | zipper (patterns exits : List (Pattern V)) (land : Zipper.Landing V)
  | parallel (variantLists : List (List Variant)) (entry : Entry) (initialized : Bool)
      (land : Parallel.Landing)
  | split (ltag utag : Int) (entry : Entry)
  | star (entry : Entry) (leader : Bool)
  | collector (isDet isDetsup : Bool)
  | feedback1 (backPatterns : List (Pattern V)) (fb3 : LandingId)
  | feedback3 (backPatterns : List (Pattern V))
  | dripback2 (backPatterns : List (Pattern V))
  | output

/-- What a landing does for a record, call by call; `rec` is the record it has got. -/
inductive Op (V : Type) where
  /-- a record is made, with the detrefs of `rec` unless `rec` is an initialiser -/
  | copy (out : Record V)
  /-- `SNetWrite` of the first record made -/
  | put
  /-- `SNetWrite` of `rec` -/
  | forward
  /-- `SNetDetEnter` -/
  | detEnter (isDet : Bool) (collland : LandingId)
  /-- `SNetRecDetrefAdd` of a feedback; `alone` for the assertion of a dripback -/
  | detrefAdd (leave : LandingId) (alone : Bool)
  /-- `SNetRecDetrefDestroy` -/
  | detrefDestroy
  /-- `SNetRecDestroy` -/
  | destroy
  /-- `rec` stays in a synchrocell -/
  | store
  /-- what `SNetNodeCollector` does first -/
  | collect
  /-- the three places of `SNetDetLeaveDequeue` where the state of a detref is read -/
  | dequeue
  | check
  | scan (k : Nat)
  /-- `SNetFeedbackLeave` before its loop -/
  | feedbackLeave
  /-- the loop of `SNetFeedbackLeave`, `FeedbackCheckBusy` or `DripBackCheckBusy` -/
  | drain
  /-- an assertion that fails, or a fatal error -/
  | fail

def Entry.enters (e : Entry) : Bool := e.isDet || e.isDetsup

def Entry.ops (e : Entry) : List (Op V) := if e.enters then [.detEnter e.isDet e.collland] else []

def writeAll (outs : List (Record V)) : List (Op V) := outs.flatMap fun out => [.copy out, .put]

/-- `SNetNodeBoxData`. -/
def boxData (outs : List (Record V)) : List (Op V) := writeAll outs ++ [.detrefDestroy, .destroy]

/-- What `SNetNodeBox` does before. -/
def boxEnter (concurrency : Nat) (isDet : Bool) (collland : LandingId) : List (Op V) :=
  if 2 ≤ concurrency ∧ isDet then [.detEnter true collland] else []

/-- `ApplyFilter`, and the write of the last record. -/
def applyFilter (clauses : List (Guard V × List (Record V → Record V))) (rec : Record V) :
    List (Op V) :=
  match clauses.find? fun clause => clause.1 rec with
  | none => [.detrefDestroy, .destroy, .fail]
  | some clause =>
    match clause.2.map fun instrs => instrs rec with
    | [] => [.detrefDestroy, .destroy]
    | out :: outs =>
      .copy out :: (outs.flatMap fun out => [.put, .copy out]) ++ [.detrefDestroy, .destroy, .put]

/-- The loop of `SNetNodeSplit`, from the lower to the upper tag value. -/
def splitLoop (rec : Record V) (ltagVal utagVal : Int) : List (Op V) :=
  if ltagVal ≤ utagVal then
    writeAll (List.replicate (utagVal - ltagVal).toNat rec) ++ [.forward]
  else []

/-- `SNetFeedbackMatch`. -/
def feedbackMatch (backPatterns : List (Pattern V)) (rec : Record V) : Bool :=
  backPatterns.any fun p => p.accepts rec

/-- `ParallelInit` on a landing that has not been initialised: which branches are terminated. -/
def initialisers (variantLists : List (List Variant)) (i : Nat) : Bool :=
  variantLists[i]?.any List.isEmpty

/-- `SNetNodeParallel` for a data record once `ParallelInit` is done. -/
def dispatch (variantLists : List (List Variant)) (entry : Entry) (land : Parallel.Landing)
    (rec : Record V) : Node V × Record V × List (Op V) :=
  let arg : SNet.Parallel.Arg := ⟨variantLists, entry.isDet⟩
  (.parallel variantLists entry true { land with matchcounter := land.checked arg rec }, rec,
    entry.ops ++ match land.best arg rec with
      | some _ => [.forward]
      | none => [.fail])

/-- What a landing becomes and does for a data record. `viaAccess` is for a dripback: the record comes
from outside. `fuel` is for the loop of a zipper, which has to be enough. -/
def Node.process (l : LandingId) (viaAccess : Bool) (fuel : Nat) (rec : Record V) :
    Node V → Outcome (Node V × Record V × List (Op V))
  | .box boxfun concurrency isDet collland =>
    .done (.box boxfun concurrency isDet collland, rec,
      boxEnter concurrency isDet collland ++ boxData (boxfun (some rec)))
  | .filter clauses => .done (.filter clauses, rec, applyFilter clauses rec)
  | .nameshift rename =>
    .done (.nameshift rename, { rename rec with detref := rec.detref }, [.forward])
  | .identity => .done (.identity, rec, [.forward])
  | .sync patterns land =>
    match nodeSync patterns false land rec with
    | some (land, [.write rec']) => .done (.sync patterns land, rec', [.forward])
    | some (land, [.detrefDestroy _]) => .done (.sync patterns land, rec, [.detrefDestroy, .store])
    | _ => .fault
  | .zipper patterns exits land =>
    match Zipper.nodeZipper patterns exits fuel land rec with
    | .done (land, [.write rec']) => .done (.zipper patterns exits land, rec', [.forward])
    | .done (land, [.detrefDestroy _]) =>
      .done (.zipper patterns exits land, rec, [.detrefDestroy, .store])
    | .done (land, []) => .done (.zipper patterns exits land, rec, [.destroy])
    | .blocked => .blocked
    | _ => .fault
  | .parallel variantLists entry initialized land =>
    if initialized then .done (dispatch variantLists entry land rec)
    else
      let land := { land with terminated := some (initialisers variantLists) }
      match variantLists.countP fun variants => !variants.isEmpty with
      | 0 => .done (.parallel variantLists entry true land, rec, [.destroy])
      | 1 => .done (.identity, rec, [.forward])
      | _ => .done (dispatch variantLists entry land rec)
  | .split ltag utag entry =>
    match rec.tags.get? ltag, rec.tags.get? utag with
    | some ltagVal, some utagVal =>
      .done (.split ltag utag entry, rec, entry.ops ++ splitLoop rec ltagVal utagVal)
    | _, _ => .fault
  | .star entry leader =>
    .done (.star entry leader, rec, (if leader then entry.ops else []) ++ [.forward])
  | .collector isDet isDetsup =>
    .done (.collector isDet isDetsup, rec, if isDet || isDetsup then [.collect] else [.forward])
  | .feedback1 backPatterns fb3 =>
    .done (.feedback1 backPatterns fb3, rec,
      if feedbackMatch backPatterns rec then [.detrefAdd fb3 false, .forward] else [.forward])
  | .feedback3 backPatterns =>
    .done (.feedback3 backPatterns, rec,
      if feedbackMatch backPatterns rec then [.forward] else [.feedbackLeave, .drain, .forward])
  | .dripback2 backPatterns =>
    .done (.dripback2 backPatterns, rec,
      if feedbackMatch backPatterns rec then
        if viaAccess then [.detrefAdd l true, .forward]
        else if rec.detref.isSome then [.forward] else [.fail]
      else if viaAccess then [.forward]
      else if rec.detref.isSome then [.feedbackLeave, .drain, .forward] else [.fail])
  | .output => .done (.output, rec, [.destroy])

def Node.concurrency : Node V → Nat
  | .box _ concurrency _ _ => concurrency
  | _ => 1

/-- What a landing does when a notification has come that names it. -/
def Node.noted : Node V → List (Op V)
  | .collector _ _ => [.dequeue]
  | .feedback3 _ => [.drain]
  | .dripback2 _ => [.drain]
  | _ => []

/-! ## Networks -/

/-- A detref that has been allocated; the others of its fields are kept apart. -/
structure Ref where
  id : DetrefId
  seqnr : Int
  leave : LandingId

/-- A landing at work: the record it has got, unless this has been written or destroyed, the records
made so far, and what is still to be done. -/
structure Context (V : Type) where
  land : LandingId
  record : Option (Record V)
  made : List (Record V)
  ops : List (Op V)

structure State (V : Type) where
  node : LandingId → Node V
  /-- the counters of the landings that give out sequence numbers -/
  enter : LandingId → DetEnter
  /-- the collectors' `counter` -/
  counter : LandingId → Int
  fresh : DetrefId
  /-- the detrefs allocated, in the order in which they were put into the `detfifo` of a landing -/
  detrefs : List Ref
  refcount : DetrefId → Nat
  /-- the records queued in the `recfifo` of detrefs -/
  recfifo : List (DetrefId × Record V)
  /-- the data records on the way between landings -/
  flight : List (Record V)
  /-- the landings at work, in no order -/
  busy : List (Context V)
  /-- the notifications on the way, by the landing that each one names -/
  notes : List LandingId

/-- A network: its nodes, with nothing stored in a synchrocell. -/
structure Network (V : Type) where
  node : LandingId → Node V
  syncInit : ∀ l patterns land, node l = .sync patterns land → land = .init patterns
  zipperInit : ∀ l patterns exits land, node l = .zipper patterns exits land → land = .init

def State.init (net : Network V) : State V :=
  ⟨net.node, fun _ => ⟨0, 0⟩, fun _ => 1, 0, [], fun _ => 0, [], [], [], []⟩

namespace State

variable (s : State V)

def find (d : DetrefId) : Option Ref := s.detrefs.find? fun e => e.id == d

/-- `detfifo` of a landing. -/
def detfifo (l : LandingId) : List Ref := s.detrefs.filter fun e => e.leave == l

/-- The detref is there, and the assertions on its reference count hold. -/
def usable (d : DetrefId) : Bool := (s.find d).isSome && decide (2 ≤ s.refcount d)

def queued (d : DetrefId) : List (Record V) :=
  (s.recfifo.filter fun q => q.1 == d).map Prod.snd

def resume (c : Context V) : State V := { s with busy := c :: s.busy }

def alloc (seqnr : Int) (leave : LandingId) (refcount : Nat) : State V :=
  { s with
    fresh := s.fresh + 1
    detrefs := s.detrefs ++ [⟨s.fresh, seqnr, leave⟩]
    refcount := Function.update s.refcount s.fresh refcount }

/-- `SNetRecDetrefAdd`; an initialiser that gets a detref is no data record. -/
def detrefAdd (c : Context V) (seqnr : Int) (leave : LandingId) : State V :=
  (s.alloc seqnr leave 2).resume
    { c with record := c.record.map fun rec => { rec with detref := some (s.fresh :: stack rec) } }

def topSeqnr (rec : Record V) : Option Int := do
  let d ← (stack rec).head?
  let e ← s.find d
  return e.seqnr

def unqueue (d : DetrefId) : State V :=
  { s with
    recfifo := s.recfifo.filter fun q => q.1 != d
    flight := s.flight ++ s.queued d }

/-- The first detref of a `detfifo` is deallocated; `SNetFifoDone` asserts that its queue is empty. -/
def dealloc (d : DetrefId) : Outcome (State V) :=
  if (s.queued d).isEmpty then .done { s with detrefs := s.detrefs.filter fun e => e.id != d }
  else .fault

/-- The record gives up the detref `d`, after which its stack is `ds`. -/
def release (rec : Record V) (d : DetrefId) (ds : List DetrefId) : State V × Record V :=
  ({ s with refcount := RefCount.decr s.refcount d },
    { rec with detref := if ds.isEmpty then none else some ds })

/-- One detref in `SNetRecDetrefDestroy`; the notification goes to the landing where the last record of
the detref was to leave. -/
def detrefDestroy (c : Context V) (rec : Record V) : Outcome (State V) :=
  match stack rec with
  | [] => .done (s.resume { c with record := some { rec with detref := none } })
  | d :: ds =>
    match s.find d with
    | none => .fault
    | some e =>
      if s.refcount d < 2 then .fault
      else
        let notes := if s.refcount d - 1 = 1 then s.notes ++ [e.leave] else s.notes
        let r := s.release rec d ds
        .done ({ r.1 with notes }.resume { c with record := some r.2, ops := .detrefDestroy :: c.ops })

/-- `SNetNodeCollector` for a data record that has no detref for it. -/
def collectOther (c : Context V) (rec : Record V) : Outcome (State V) :=
  match (s.detfifo c.land).getLast? with
  | none => .done ({ s with flight := s.flight ++ [rec] }.resume { c with record := none })
  | some tail =>
    .done ({ s.alloc (tail.seqnr + 1) c.land 0 with recfifo := s.recfifo ++ [(s.fresh, rec)] }.resume
      { c with record := none, ops := .dequeue :: c.ops })

/-- `SNetNodeCollector` for a data record, with `SNetDetLeaveRec` up to its call of
`SNetDetLeaveDequeue`. -/
def collect (c : Context V) (rec : Record V) : Outcome (State V) :=
  match (stack rec).head?.bind s.find with
  | some e =>
    if e.leave = c.land then
      if s.refcount e.id < 2 ∨ e.seqnr < s.counter c.land then .fault
      else
        let r := s.release rec e.id (stack rec).tail
        .done ({ r.1 with recfifo := s.recfifo ++ [(e.id, r.2)] }.resume
          { c with record := none, ops := .dequeue :: c.ops })
    else s.collectOther c rec
  | none => if (stack rec).isEmpty then s.collectOther c rec else .fault
/-- `SNetDetLeaveDequeue`, at the head of its loop over detrefs. -/
def dequeue (c : Context V) : Outcome (State V) :=
  match s.detfifo c.land with
  | [] => .done (s.resume c)
  | e :: _ =>
    if e.seqnr < s.counter c.land then .fault
    else .done ({ s.unqueue e.id with counter := Function.update s.counter c.land e.seqnr }.resume
      { c with ops := .check :: c.ops })

/-- `SNetDetLeaveDequeue`, before it reads the reference count of the first detref. -/
def check (c : Context V) : Outcome (State V) :=
  match s.detfifo c.land with
  | [] => .fault
  | e :: _ =>
    if s.refcount e.id = 0 then
      (s.dealloc e.id).bind fun s => .done (s.resume { c with ops := .dequeue :: c.ops })
    else .done (s.resume { c with ops := .scan 1 :: c.ops })

/-- `SNetDetLeaveDequeue`, at the `k`-th detref. -/
def scan (c : Context V) (k : Nat) : Outcome (State V) :=
  match (s.detfifo c.land).head?, (s.detfifo c.land)[k]? with
  | some e, some item =>
    if item.seqnr = e.seqnr then
      .done ((s.unqueue item.id).resume { c with ops := .scan (k + 1) :: c.ops })
    else .done (s.resume c)
  | none, _ => .fault
  | some _, none => .done (s.resume c)

/-- `SNetFeedbackLeave`, before its loop. -/
def feedbackLeave (c : Context V) (rec : Record V) : Outcome (State V) :=
  match (stack rec).head?.bind s.find with
  | none => .fault
  | some e =>
    if e.leave ≠ c.land ∨ s.refcount e.id < 2 then .fault
    else
      let r := s.release rec e.id (stack rec).tail
      .done (r.1.resume { c with record := some r.2 })

/-- The loop that takes detrefs without records from the front of `detfifo`. -/
def drain (c : Context V) : Outcome (State V) :=
  match s.detfifo c.land with
  | [] => .done (s.resume c)
  | e :: _ =>
    if 0 < s.refcount e.id then .done (s.resume c)
    else (s.dealloc e.id).bind fun s => .done (s.resume { c with ops := .drain :: c.ops })

/-- One call; `c` is the context, which is not in `busy` meanwhile. -/
def exec (c : Context V) : Op V → Outcome (State V)
  | .copy out =>
    match c.record with
    | none => .done (s.resume { c with made := c.made ++ [{ out with detref := none }] })
    | some rec =>
      if (stack rec).all s.usable then
        .done ({ s with refcount := RefCount.incrAll s.refcount (stack rec) }.resume
          { c with made := c.made ++ [{ out with detref := rec.detref }] })
      else .fault
  | .put =>
    match c.made with
    | [] => .fault
    | out :: made => .done ({ s with flight := s.flight ++ [out] }.resume { c with made })
  | .forward =>
    match c.record with
    | none => .fault
    | some rec => .done ({ s with flight := s.flight ++ [rec] }.resume { c with record := none })
  | .detEnter isDet collland =>
    match detEnter isDet (s.enter c.land) (c.record.bind s.topSeqnr) with
    | none => .fault
    | some e =>
      .done ({ s with enter := Function.update s.enter c.land e }.detrefAdd c e.counter collland)
  | .detrefAdd leave alone =>
    if alone && !(s.detfifo leave).isEmpty then .fault
    else
      let e := { s.enter c.land with counter := (s.enter c.land).counter + 1 }
      .done ({ s with enter := Function.update s.enter c.land e }.detrefAdd c e.counter leave)
  | .detrefDestroy => c.record.elim (.done (s.resume c)) (s.detrefDestroy c)
  | .destroy => .done (s.resume { c with record := none })
  | .store => .done (s.resume { c with record := none })
  | .collect => c.record.elim .fault (s.collect c)
  | .dequeue => s.dequeue c
  | .check => s.check c
  | .scan k => s.scan c k
  | .feedbackLeave => c.record.elim .fault (s.feedbackLeave c)
  | .drain => s.drain c
  | .fail => .fault

end State

inductive Act (V : Type) where
  /-- a record comes into the network -/
  | input (rec : Record V)
  /-- a landing gets the `i`-th record that is on the way -/
  | take (l : LandingId) (i : Nat) (viaAccess : Bool) (fuel : Nat)
  /-- a landing at work goes on -/
  | go (k : Nat)
  /-- a notification gets to the landing that it names -/
  | note (i : Nat)
  /-- an initialiser gets to a box -/
  | trigger (l : LandingId)
  /-- a record that is not a data record initialises a parallel dispatcher, or closes branches of it -/
  | receiveSync (l : LandingId) (terminated : Nat → Bool)
  /-- a star becomes the leader, with the counters of the one before -/
  | starLeader (l : LandingId) (counters : DetEnter)
  /-- `SNetBecomeIdentity` -/
  | becomeIdentity (l : LandingId)

namespace State

variable (s : State V)

def full (l : LandingId) : Bool :=
  decide ((s.node l).concurrency ≤ s.busy.countP fun c => c.land == l)

def become (l : LandingId) (n : Node V) : State V := { s with node := Function.update s.node l n }

def step : Act V → Outcome (State V)
  | .input rec => .done { s with flight := s.flight ++ [{ rec with detref := none }] }
  | .take l i viaAccess fuel =>
    if s.full l then .blocked
    else
      match s.flight[i]? with
      | none => .blocked
      | some rec => ((s.node l).process l viaAccess fuel rec).bind fun r =>
          .done ({ s.become l r.1 with flight := s.flight.eraseIdx i }.resume
            ⟨l, some r.2.1, [], r.2.2⟩)
  | .go k =>
    match s.busy[k]? with
    | none => .blocked
    | some c =>
      match c.ops with
      | [] => .done { s with busy := s.busy.eraseIdx k }
      | op :: ops => { s with busy := s.busy.eraseIdx k }.exec { c with ops } op
  | .note i =>
    match s.notes[i]? with
    | none => .blocked
    | some l =>
      if s.full l then .blocked
      else .done ({ s with notes := s.notes.eraseIdx i }.resume ⟨l, none, [], (s.node l).noted⟩)
  | .trigger l =>
    if s.full l then .blocked
    else
      match s.node l with
      | .box boxfun concurrency isDet collland => .done (s.resume
          ⟨l, none, [], boxEnter concurrency isDet collland ++ writeAll (boxfun none) ++ [.destroy]⟩)
      | _ => .blocked
  | .receiveSync l terminated =>
    if s.full l then .blocked
    else
      match s.node l with
      | .parallel variantLists entry _ land =>
        .done (s.become l (.parallel variantLists entry true { land with terminated }))
      | _ => .blocked
  | .starLeader l counters =>
    if s.full l then .blocked
    else
      match s.node l with
      | .star entry _ =>
        .done { s.become l (.star entry true) with enter := Function.update s.enter l counters }
      | _ => .blocked
  | .becomeIdentity l =>
    if s.full l then .blocked
    else
      match s.node l with
      | .sync _ land => if land.state = .complete then .done (s.become l .identity) else .blocked
      | .parallel _ _ _ _ => .done (s.become l .identity)
      | .star _ _ => .done (s.become l .identity)
      | .collector _ _ =>
        if (s.detfifo l).isEmpty then .done (s.become l .identity) else .blocked
      | _ => .blocked

end State

/-! ## Live data records -/

def Context.records (c : Context V) : List (Record V) := c.record.toList ++ c.made

def Node.Stores (rec : Record V) : Node V → Prop
  | .sync _ land => Slot.stored rec ∈ land.storage
  | .zipper _ _ land => ∃ a m, land.heap a = some m ∧ Slot.stored rec ∈ m.storage
  | _ => False

def State.records (s : State V) : List (Record V) :=
  s.flight ++ s.busy.flatMap Context.records ++ s.recfifo.map Prod.snd

def State.holders (s : State V) (d : DetrefId) : Nat :=
  s.records.countP fun rec => decide (d ∈ stack rec)

end SNet.Front.Detrefs
