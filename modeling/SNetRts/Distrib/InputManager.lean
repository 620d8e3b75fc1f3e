import SNetRts.Lib.Run
import SNetRts.Lib.Mutex
import Mathlib.Logic.Function.Basic

/-!
# The input manager

`HandleRecord`, `UpdateBlocked` and `ReadCallback` of `distrib/common/imanager.c`. The manager thread
writes what it receives to the streams of the destinations, and into the list of a buffer what does not
fit. Any number of threads read these streams; the callback of a read counts the record off, and if it
was the last one on the stream and others wait in the list, puts the buffer into `unblocked` and sends
a message to the manager.

A step of a thread begins where it takes or gives back a mutex, and goes on up to the next such place;
each write of `UpdateBlocked` is a step of its own. The lists of `list-template.c` are lists. A freed
buffer stays in the table, and who touches it again faults.
-/

namespace SNet.Distrib.InputManager

open Function (update)

open Lib

variable {D R : Type} [DecidableEq D]

/-- What the manager receives for a destination. -/
inductive Rec (R : Type) where
  | record (r : R)
  | terminate
deriving DecidableEq

/-- The descriptor of the record is `REC_terminate`. -/
def Rec.isTerminate : Rec R → Bool
  | .record _ => false
  | .terminate => true

/-- `snet_buffer_t` with the stream that it writes to, and what has happened to it. -/
structure Buffer (D R : Type) where
  done : Bool
  counter : Nat
  dest : D
  list : List (Rec R)
  /-- The records on the stream. -/
  stream : List (Rec R)
  /-- `stream->size`, which is not zero. -/
  size : { n : Nat // 0 < n }
  freed : Bool
  /-- The records that `HandleRecord` has got for it. -/
  received : List (Rec R)
  /-- The records that have been read from the stream. -/
  read : List (Rec R)
  /-- How many times `ReadCallback` has counted a record off. -/
  called : Nat
  /-- The messages for the destination, `true` for a block and `false` for an unblock. -/
  sent : List Bool

/-- A new stream with its destination, `snet_tuple_t`; of the stream, its size is known. -/
abbrev Tuple (D : Type) := D × { n : Nat // 0 < n }

inductive Mutex where
  | unblocked
  | buffer (b : Nat)
deriving DecidableEq, Repr

inductive Thread where
  | manager
  | reader (t : Nat)
deriving DecidableEq, Repr

/-- Where the manager is. -/
inductive ManagerPc (R : Type) where
  /-- in `SNetDistribRecvMsg` -/
  | idle
  /-- in `HandleRecord`, about to lock the buffer -/
  | lockBuffer (b : Nat) (rec : Rec R)
  | unlockBuffer (b : Nat)
  /-- in `UpdateBlocked` -/
  | lockUnblocked
  /-- at the head of its loop -/
  | dequeue
  | lockBlocked (b : Nat)
  /-- at the head of the inner loop -/
  | drain (b : Nat)
  | unlockBlocked (b : Nat)
deriving DecidableEq

/-- Where a reader is in `ReadCallback`. -/
inductive ReaderPc where
  | idle
  | lockBuffer (b : Nat)
  | lockUnblocked (b : Nat)
  | unlockUnblocked (b : Nat)
  | unlockBuffer (b : Nat)
  /-- The buffer is done. -/
  | unlockDone (b : Nat)
  | free (b : Nat)
deriving DecidableEq, Repr

structure State (D R : Type) where
  destMap : D → Option Nat
  newStreams : List (Tuple D)
  buf : Nat → Option (Buffer D R)
  /-- How many buffers have been created. -/
  created : Nat
  unblocked : List Nat
  /-- The messages `snet_update` on the way. -/
  updates : Nat
  owner : Mutex → Option Thread
  manager : ManagerPc R
  reader : Nat → ReaderPc

def State.init : State D R := ⟨fun _ => none, [], fun _ => none, 0, [], 0, fun _ => none, .idle, fun _ => .idle⟩

namespace Buffer

/-- A buffer as `UpdateIncoming` creates it. -/
def new (tuple : Tuple D) : Buffer D R := ⟨false, 0, tuple.1, [], [], tuple.2, false, [], [], 0, []⟩

/-- `SNetStreamTryWrite`, and the count if it succeeds. -/
def tryWrite (x : Buffer D R) (rec : Rec R) : Option (Buffer D R) :=
  if x.stream.length = x.size.1 then none
  else some { x with stream := x.stream ++ [rec], counter := x.counter + 1 }

/-- What `HandleRecord` does under the mutex. -/
def handle (x : Buffer D R) (rec : Rec R) : Buffer D R :=
  let x := { x with received := x.received ++ [rec], done := if rec.isTerminate then true else x.done }
  let append : Buffer D R :=
    { x with list := x.list ++ [rec]
             sent := if (x.list ++ [rec]).length = 1 then x.sent ++ [true] else x.sent }
  if x.list.length = 0 then (x.tryWrite rec).getD append else append

/-- What `UpdateBlocked` does once its inner loop has ended. -/
def unblock (x : Buffer D R) : Buffer D R :=
  if x.list.length = 0 ∧ x.done = false then { x with sent := x.sent ++ [false] } else x

end Buffer

namespace State

variable (s : State D R)

def live (b : Nat) : Outcome (Buffer D R) :=
  match s.buf b with
  | some x => if x.freed then .fault else .done x
  | none => .fault

def setBuffer (b : Nat) (x : Buffer D R) : State D R := { s with buf := update s.buf b (some x) }

def lock (m : Mutex) (t : Thread) : Outcome (State D R) :=
  match s.owner m with
  | none => .done { s with owner := update s.owner m (some t) }
  | some _ => .blocked

def unlock (m : Mutex) : State D R := { s with owner := update s.owner m none }

/-! ### The manager -/

/-- One iteration of the loop of `UpdateIncoming`. -/
def create (tuple : Tuple D) : State D R :=
  { s with
    buf := update s.buf s.created (some (.new tuple))
    created := s.created + 1
    destMap := update s.destMap tuple.1 (some s.created) }

/-- `UpdateIncoming`. -/
def updateIncoming : State D R :=
  { s.newStreams.foldl create s with newStreams := [] }

/-- What `HandleRecord` does until the destination is in the map; `dynamic` are the streams that
`SNetRouteNewDynamic` registers. -/
def incoming (dest : D) (dynamic : List (Tuple D)) : State D R :=
  let s := s.updateIncoming
  if (s.destMap dest).isSome then s
  else ({ s with newStreams := s.newStreams ++ dynamic } : State D R).updateIncoming

/-- `HandleRecord` up to the lock. -/
def lookup (dest : D) (rec : Rec R) (dynamic : List (Tuple D)) : Outcome (State D R) :=
  let s := s.incoming dest dynamic
  match s.destMap dest with
  | none => .fault
  | some b =>
    .done { s with
      destMap := if rec.isTerminate then update s.destMap dest none else s.destMap
      manager := .lockBuffer b rec }

def managerStep : Outcome (State D R) :=
  match s.manager with
  | .idle => .blocked
  | .lockBuffer b rec =>
    (s.live b).bind fun x => (s.lock (.buffer b) .manager).bind fun s =>
      .done { s.setBuffer b (x.handle rec) with manager := .unlockBuffer b }
  | .unlockBuffer b =>
    (s.live b).bind fun _ => .done { s.unlock (.buffer b) with manager := .idle }
  | .lockUnblocked => (s.lock .unblocked .manager).bind fun s => .done { s with manager := .dequeue }
  | .dequeue =>
    match s.unblocked with
    | [] => .done { s.unlock .unblocked with manager := .idle }
    | b :: bs => .done { s with unblocked := bs, manager := .lockBlocked b }
  | .lockBlocked b =>
    (s.live b).bind fun _ => (s.lock (.buffer b) .manager).bind fun s =>
      .done { s with manager := .drain b }
  | .drain b =>
    (s.live b).bind fun x =>
      match x.list with
      | [] => .done { s.setBuffer b x.unblock with manager := .unlockBlocked b }
      | rec :: list =>
        match ({ x with list := list } : Buffer D R).tryWrite rec with
        | some x => .done (s.setBuffer b x)
        -- `SNetRecordListAppendStart`, and the end of the loop
        | none => .done { s.setBuffer b x.unblock with manager := .unlockBlocked b }
  | .unlockBlocked b =>
    (s.live b).bind fun _ => .done { s.unlock (.buffer b) with manager := .dequeue }

/-! ### The readers -/

def setReader (t : Nat) (pc : ReaderPc) : State D R := { s with reader := update s.reader t pc }

/-- `SNetStreamRead` up to its callback. -/
def readStream (t : Nat) (b : Nat) : Outcome (State D R) :=
  match s.reader t, s.buf b with
  | .idle, some x =>
    match x.stream with
    | [] => .blocked
    | rec :: stream =>
      .done ((s.setBuffer b { x with stream := stream, read := x.read ++ [rec] }).setReader t
        (.lockBuffer b))
  | _, _ => .blocked

/-- Where `ReadCallback` goes on once it has counted a record off. -/
def afterCount (b : Nat) (x : Buffer D R) : ReaderPc :=
  if x.counter = 0 then
    if 0 < x.list.length then .lockUnblocked b
    else if x.done then .unlockDone b
    else .unlockBuffer b
  else .unlockBuffer b

/-- A reader goes on in `ReadCallback`. -/
def readerStep (t : Nat) : Outcome (State D R) :=
  match s.reader t with
  | .idle => .blocked
  | .lockBuffer b =>
    (s.live b).bind fun x => (s.lock (.buffer b) (.reader t)).bind fun s =>
      let x := { x with counter := x.counter - 1, called := x.called + 1 }
      .done ((s.setBuffer b x).setReader t (afterCount b x))
  | .lockUnblocked b =>
    (s.lock .unblocked (.reader t)).bind fun s =>
      let unblocked := s.unblocked ++ [b]
      .done ({ s with
        unblocked := unblocked
        updates := if unblocked.length = 1 then s.updates + 1 else s.updates }.setReader t
          (.unlockUnblocked b))
  | .unlockUnblocked b => .done ((s.unlock .unblocked).setReader t (.unlockBuffer b))
  | .unlockBuffer b =>
    (s.live b).bind fun _ => .done ((s.unlock (.buffer b)).setReader t .idle)
  | .unlockDone b =>
    (s.live b).bind fun _ => .done ((s.unlock (.buffer b)).setReader t (.free b))
  | .free b =>
    (s.live b).bind fun x => .done ((s.setBuffer b { x with freed := true }).setReader t .idle)

end State

inductive Act (D R : Type) where
  /-- `SNetInputManagerNewIn` in some thread. -/
  | newIn (tuple : Tuple D)
  /-- The manager receives a record; `dynamic` are the streams that `SNetRouteNewDynamic` registers if
  it is called. -/
  | receive (dest : D) (rec : Rec R) (dynamic : List (Tuple D))
  /-- The manager receives an update message. -/
  | receiveUpdate
  | manager
  /-- A reader reads a record. -/
  | read (t b : Nat)
  | reader (t : Nat)

def step (s : State D R) : Act D R → Outcome (State D R)
  | .newIn tuple => .done { s with newStreams := s.newStreams ++ [tuple] }
  | .receive dest rec dynamic =>
    match s.manager with
    | .idle => s.lookup dest rec dynamic
    | _ => .blocked
  | .receiveUpdate =>
    match s.manager, s.updates with
    | .idle, n + 1 => .done { s with updates := n, manager := .lockUnblocked }
    | _, _ => .blocked
  | .manager => s.managerStep
  | .read t b => s.readStream t b
  | .reader t => s.readerStep t

def State.waitsFor (s : State D R) : Thread → Option Mutex
  | .manager =>
    match s.manager with
    | .lockBuffer b _ => some (.buffer b)
    | .lockUnblocked => some .unblocked
    | .lockBlocked b => some (.buffer b)
    | _ => none
  | .reader t =>
    match s.reader t with
    | .lockBuffer b => some (.buffer b)
    | .lockUnblocked _ => some .unblocked
    | _ => none

end SNet.Distrib.InputManager
