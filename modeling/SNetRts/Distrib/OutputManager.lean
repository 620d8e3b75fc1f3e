import SNetRts.Lib.Ring
import Mathlib.Data.List.Nodup

/-!
# The output manager

`SNetOutputManager` (`distrib/common/omanager.c`) with the stream sets of `threading/pthread/streamset.c`.
The manager sleeps on the set `waiting`, which has its wakeup stream and the streams that are not
blocked. Messages that block or unblock a destination go into one list each, and when the manager wakes
up it takes over new streams, goes through the list of blocks and then through that of unblocks.

Descriptors are numbered, and those that have been closed are not used again; `0` is the one of the
wakeup stream. Destinations are values up to `SNetDestCompare`. A step of the manager is what it does
between two places where it lets go of its mutex.
-/

namespace SNet.Distrib.OutputManager

open Lib

variable {D : Type} [DecidableEq D]

/-- `snet_stream_desc_t *`. -/
abbrev Desc := Nat

def wakeupDesc : Desc := 0

/-- What the manager reads from a stream of data. -/
inductive Kind where
  | data
  | sync
  | terminate
deriving DecidableEq, Repr

/-- Where the manager is. -/
inductive Pc where
  /-- before its loop -/
  | start
  /-- about to call `SNetStreamPoll` -/
  | poll
  /-- about to call `UpdateOutgoing` -/
  | outgoing
  /-- about to call `UpdateBlocked` for the blocks -/
  | blocks
  /-- about to call `UpdateBlocked` for the unblocks -/
  | unblocks
deriving DecidableEq, Repr

/-- A message: a destination, and whether it is blocked. -/
structure Message (D : Type) where
  dest : D
  block : Bool
deriving DecidableEq, Repr

structure State (D : Type) where
  /-- `NODE_NEXT`. -/
  next : Desc → Option Desc
  waiting : Option Desc
  blocked : Option Desc
  /-- `streamMap`. -/
  streamMap : List (Desc × D)
  newStreams : List D
  newBlocked : List D
  newUnblocked : List D
  /-- There is something on the wakeup stream. -/
  wakeup : Bool
  pc : Pc
  /-- How many descriptors have been opened. -/
  opened : Nat
  /-- All destinations that streams have been registered for. -/
  registered : List D
  /-- The messages that have come, in their order. -/
  arrived : List (Message D)
  /-- Those that have been processed, in the order in which they were. -/
  processed : List (Message D)

/-- The manager has been started, and has put its wakeup stream into `waiting`; `dests` are the
destinations that have been registered before. -/
def State.init (dests : List D) : State D :=
  ⟨(ringPut (fun _ => none) none wakeupDesc).1, (ringPut (fun _ => none) none wakeupDesc).2, none, [],
    dests, [], [], false, .start, 1, dests, [], []⟩

/-- `SNetStreamDestMapFindVal`. -/
def findVal (map : List (Desc × D)) (dest : D) : Option Desc :=
  (map.find? fun e => e.2 = dest).map Prod.fst

/-- `SNetStreamDestMapTake`: the last entry takes the place of the one that is removed. -/
def take (map : List (Desc × D)) (sd : Desc) : Option (List (Desc × D)) :=
  match map.findIdx? fun e => e.1 = sd, map.getLast? with
  | some i, some e => some (map.set i e).dropLast
  | _, _ => none

namespace State

variable (s : State D)

/-- `UpdateOutgoing` for one new stream; a new descriptor has no link. -/
def takeOver (dest : D) : State D :=
  let next := Function.update s.next s.opened none
  { s with
    next := (ringPut next s.waiting s.opened).1
    waiting := (ringPut next s.waiting s.opened).2
    streamMap := s.streamMap ++ [(s.opened, dest)]
    opened := s.opened + 1 }

/-- `UpdateOutgoing`. -/
def updateOutgoing : State D := s.newStreams.foldl takeOver { s with newStreams := [] }

/-- The links and the sets `oldSet` and `newSet`. -/
structure Sets where
  next : Desc → Option Desc
  oldSet : Option Desc
  newSet : Option Desc

/-- The loop of `UpdateBlocked`; `fuel` bounds the search in a set. -/
def updateBlocked (map : List (Desc × D)) (fuel : Nat) : List D → Sets → Outcome Sets
  | [], sets => .done sets
  | dest :: dests, sets =>
    match findVal map dest with
    | none => updateBlocked map fuel dests sets
    | some sd =>
      (ringRemove sets.next sets.oldSet sd fuel).bind fun (next, oldSet) =>
        updateBlocked map fuel dests ⟨(ringPut next sets.newSet sd).1, oldSet, (ringPut next sets.newSet sd).2⟩

def handle (sd : Desc) : Kind → Outcome (State D)
  | .sync => .done s
  | .data => if (s.streamMap.map Prod.fst).contains sd then .done s else .fault
  | .terminate =>
    match take s.streamMap sd with
    | none => .fault
    | some streamMap =>
      (ringRemove s.next s.waiting sd s.opened).bind fun (next, waiting) =>
        .done { s with streamMap := streamMap, next := next, waiting := waiting }

/-- `SNetStreamPoll`, in which the stream of `sd` has something, and what is done for that stream; a
stream of data has a record of kind `kind`. -/
def poll (sd : Desc) (kind : Kind) : Outcome (State D) :=
  if sd ∈ ringMembers s.next s.waiting s.opened then
    let s := { s with waiting := some sd }
    if sd = wakeupDesc then
      if s.wakeup then .done { s with wakeup := false, pc := .outgoing } else .blocked
    else s.handle sd kind
  else .blocked

def go : Outcome (State D) :=
  match s.pc with
  | .start => .done { s.updateOutgoing with pc := .poll }
  | .poll => .blocked
  | .outgoing => .done { s.updateOutgoing with pc := .blocks }
  | .blocks =>
    (updateBlocked s.streamMap s.opened s.newBlocked ⟨s.next, s.waiting, s.blocked⟩).bind fun sets =>
      .done { s with
        next := sets.next, waiting := sets.oldSet, blocked := sets.newSet
        newBlocked := []
        processed := s.processed ++ s.newBlocked.map fun d => ⟨d, true⟩
        pc := .unblocks }
  | .unblocks =>
    (updateBlocked s.streamMap s.opened s.newUnblocked ⟨s.next, s.blocked, s.waiting⟩).bind fun sets =>
      .done { s with
        next := sets.next, blocked := sets.oldSet, waiting := sets.newSet
        newUnblocked := []
        processed := s.processed ++ s.newUnblocked.map fun d => ⟨d, false⟩
        pc := .poll }

end State

inductive Act (D : Type) where
  /-- `SNetOutputManagerNewOut`. -/
  | newOut (dest : D)
  /-- `SNetOutputManagerBlock` and `SNetOutputManagerUnblock`. -/
  | message (m : Message D)
  /-- The manager polls. -/
  | poll (sd : Desc) (kind : Kind)
  | go

def step (s : State D) : Act D → Outcome (State D)
  | .newOut dest =>
    .done { s with newStreams := s.newStreams ++ [dest], wakeup := true, registered := s.registered ++ [dest] }
  | .message m =>
    .done { s with
      newBlocked := if m.block then s.newBlocked ++ [m.dest] else s.newBlocked
      newUnblocked := if m.block then s.newUnblocked else s.newUnblocked ++ [m.dest]
      wakeup := true
      arrived := s.arrived ++ [m] }
  | .poll sd kind =>
    match s.pc with
    | .poll => s.poll sd kind
    | _ => .blocked
  | .go => s.go

end SNet.Distrib.OutputManager
