import SNetRts.Lib.Run
import SNetRts.Lib.Channel
import Mathlib.Algebra.GroupWithZero.Nat

/-!
# Distributed references

The reference tables of `src/distrib/common/reference.c` and the reference messages of the input
manager (`imanager.c`), for any number of nodes. A node keeps `localRefMap`, the count of every
datum of its own that other nodes refer to, and `remoteRefMap`, the count of the references it
holds to data of other nodes together with the datum once it has been fetched.

A reference is a node and an address; both tables compare exactly these two (`SNetRefCompare`), so
the interface number carried along is left out. What `COPYFUN` and `unpackfun` return is an
address the step names; an operation that looks a key up with `MapGet` or `MapTake` in a table
without it fails the assertion there and yields `none`.
-/

namespace SNet.Distrib

open Lib

abbrev Ptr := Nat

/-- A reference: the node that owns the datum and the datum's address there. -/
structure Ref (n : Nat) where
  node : Fin n
  data : Ptr
deriving DecidableEq, Repr

/-- Who waits for a datum: `SNetRefGetData` keeps the reference, `SNetRefTakeData` frees it. -/
inductive Caller where
  | getData
  | takeData
deriving DecidableEq, Repr

/-- `snet_refcount_t`; `list` holds the streams of the threads that wait for the datum. -/
structure RefCount where
  count : Int
  data : Option Ptr
  list : Option (List Caller)
deriving DecidableEq, Repr

/-- The messages about references: a record in which one travels, a change of the owner's count,
the request for the datum and the reply to it. A record with several references is a sequence of
`record`s. -/
inductive Msg (n : Nat) where
  | record (ref : Ref n)
  | update (ref : Ref n) (value : Int)
  | fetch (ref : Ref n)
  | set (ref : Ref n)
deriving DecidableEq, Repr

/-- The tables of a node, and how many references with a given value its records and threads
hold. -/
structure NodeState (n : Nat) where
  localRefMap : Ref n → Option RefCount
  remoteRefMap : Ref n → Option RefCount
  held : Ref n → Nat

namespace NodeState

variable {n : Nat}

/-- `SNetReferenceInit`. -/
def init : NodeState n := ⟨fun _ => none, fun _ => none, fun _ => 0⟩

def setLocal (st : NodeState n) (ref : Ref n) (r : RefCount) : NodeState n :=
  { st with localRefMap := fun k => if k = ref then some r else st.localRefMap k }

def takeLocal (st : NodeState n) (ref : Ref n) : NodeState n :=
  { st with localRefMap := fun k => if k = ref then none else st.localRefMap k }

def setRemote (st : NodeState n) (ref : Ref n) (r : RefCount) : NodeState n :=
  { st with remoteRefMap := fun k => if k = ref then some r else st.remoteRefMap k }

def takeRemote (st : NodeState n) (ref : Ref n) : NodeState n :=
  { st with remoteRefMap := fun k => if k = ref then none else st.remoteRefMap k }

def hold (st : NodeState n) (ref : Ref n) : NodeState n :=
  { st with held := fun k => if k = ref then st.held k + 1 else st.held k }

def release (st : NodeState n) (ref : Ref n) : NodeState n :=
  { st with held := fun k => if k = ref then st.held k - 1 else st.held k }

/-- The caller has the datum: `SNetRefGetData` turns its reference into a local one. -/
def receive (st : NodeState n) (self : Fin n) : Caller → Ptr → NodeState n
  | .getData, p => st.hold ⟨self, p⟩
  | .takeData, _ => st

/-- All waiting callers obtain their copy, the `i`-th of them `copy i`. -/
def receiveAll (st : NodeState n) (self : Fin n) (copy : Nat → Ptr) : List Caller → NodeState n
  | [] => st
  | c :: cs => (st.receive self c (copy 0)).receiveAll self (fun i => copy (i + 1)) cs

end NodeState

section Operations

variable {n : Nat} (self : Fin n)

/-- The state of the node after an operation and the messages it has sent. -/
abbrev Result (n : Nat) := Option (NodeState n × List (Fin n × Msg n))

/-- `SNetRefCreate`. -/
def refCreate (data : Ptr) (st : NodeState n) : Result n :=
  some (st.hold ⟨self, data⟩, [])

/-- `SNetRefCopy`; `copy` is what `COPYFUN` returns. -/
def refCopy (copy : Ptr) (ref : Ref n) (st : NodeState n) : Result n :=
  if ref.node = self then
    some (st.hold ⟨ref.node, copy⟩, [])
  else
    match st.remoteRefMap ref with
    | none => none
    | some refInfo =>
      if refInfo.data.isSome then
        some (st.hold ⟨self, copy⟩, [])
      else
        some ((st.setRemote ref { refInfo with count := refInfo.count + 1 }).hold ref,
          [(ref.node, .update ref 1)])

/-- `GetData` on behalf of `caller`, whose reference leaves its hands; `copy` is what `COPYFUN`
returns. -/
def getData (caller : Caller) (copy : Ptr) (ref : Ref n) (st : NodeState n) : Result n :=
  if ref.node = self then
    some ((st.release ref).receive self caller ref.data, [])
  else
    match st.remoteRefMap ref with
    | none => none
    | some refInfo =>
      match refInfo.data with
      | none =>
        match refInfo.list with
        | some l =>
          some ((st.release ref).setRemote ref { refInfo with list := some (l ++ [caller]) }, [])
        | none =>
          some ((st.release ref).setRemote ref { refInfo with list := some [caller] },
            [(ref.node, .fetch ref)])
      | some data =>
        if refInfo.count - 1 = 0 then
          some (((st.release ref).takeRemote ref).receive self caller data,
            [(ref.node, .update ref (-1))])
        else
          some (((st.release ref).setRemote ref { refInfo with count := refInfo.count - 1 }).receive
            self caller copy, [(ref.node, .update ref (-1))])

/-- `SNetRefDestroy`. -/
def refDestroy (ref : Ref n) (st : NodeState n) : Result n :=
  if ref.node = self then
    some (st.release ref, [])
  else
    match st.remoteRefMap ref with
    | none => none
    | some refInfo =>
      if refInfo.count - 1 = 0 then
        some ((st.release ref).takeRemote ref, [(ref.node, .update ref (-1))])
      else
        some ((st.release ref).setRemote ref { refInfo with count := refInfo.count - 1 },
          [(ref.node, .update ref (-1))])

/-- `SNetRefIncoming`; `copy` is what `COPYFUN` returns. -/
def refIncoming (copy : Ptr) (ref : Ref n) (st : NodeState n) : Result n :=
  if ref.node = self then
    match st.localRefMap ref with
    | none => none
    | some refInfo =>
      if refInfo.count - 1 = 0 then
        some ((st.takeLocal ref).hold ref, [])
      else
        some ((st.setLocal ref { refInfo with count := refInfo.count - 1 }).hold
          ⟨ref.node, copy⟩, [])
  else
    match st.remoteRefMap ref with
    | some refInfo =>
      some ((st.setRemote ref { refInfo with count := refInfo.count + 1 }).hold ref, [])
    | none =>
      some ((st.setRemote ref { count := 1, data := none, list := none }).hold ref, [])

/-- `SNetRefOutgoing`, called while the record is packed for `dest` (`PackRef`). -/
def refOutgoing (dest : Fin n) (ref : Ref n) (st : NodeState n) : Result n :=
  if ref.node = self then
    match st.localRefMap ref with
    | some refInfo =>
      some ((st.release ref).setLocal ref { refInfo with count := refInfo.count + 1 },
        [(dest, .record ref)])
    | none =>
      some ((st.release ref).setLocal ref { count := 1, data := some ref.data, list := none },
        [(dest, .record ref)])
  else
    match st.remoteRefMap ref with
    | none => none
    | some refInfo =>
      if refInfo.count - 1 = 0 then
        some ((st.release ref).takeRemote ref, [(dest, .record ref)])
      else
        some ((st.release ref).setRemote ref { refInfo with count := refInfo.count - 1 },
          [(dest, .record ref)])

/-- `SNetRefUpdate`. -/
def refUpdate (value : Int) (ref : Ref n) (st : NodeState n) : Option (NodeState n) :=
  match st.localRefMap ref with
  | none => none
  | some refInfo =>
    if refInfo.count + value = 0 then
      some (st.takeLocal ref)
    else
      some (st.setLocal ref { refInfo with count := refInfo.count + value })

/-- `SNetRefSet`; `data` is the datum received, `copy i` the copy for the `i`-th waiting
thread. -/
def refSet (data : Ptr) (copy : Nat → Ptr) (ref : Ref n) (st : NodeState n) :
    Option (NodeState n) :=
  match st.remoteRefMap ref with
  | none => none
  | some refInfo =>
    match refInfo.list with
    | none => none
    | some l =>
      -- one decrement for every stream taken from the list
      if refInfo.count - l.length > 0 then
        some ((st.setRemote ref
          { count := refInfo.count - l.length, data := some data, list := some [] }).receiveAll
            self copy l)
      else
        some ((st.takeRemote ref).receiveAll self copy l)

/-- The input manager handles one message from `src`; `copy` gives the addresses that
`unpackfun` and `COPYFUN` return. -/
def handleMsg (src : Fin n) (copy : Nat → Ptr) : Msg n → NodeState n → Result n
  | .record ref, st => refIncoming self (copy 0) ref st
  | .update ref value, st => (refUpdate value ref st).map fun st => (st, [])
  | .fetch ref, st => (refUpdate (-1) ref st).map fun st => (st, [(src, .set ref)])
  | .set ref, st => (refSet self (copy 0) (fun i => copy (i + 1)) ref st).map fun st => (st, [])

end Operations

/-- The nodes and the messages in flight between them. -/
structure System (n : Nat) where
  node : Fin n → NodeState n
  chan : Channels (Fin n) (Msg n)

def System.init (n : Nat) : System n := ⟨fun _ => .init, .empty⟩

/-- The steps of the nodes: an operation of one of a node's threads on a reference it holds, or
the delivery of the oldest message from `src` to `dst`. -/
inductive Act (n : Nat) where
  | create (a : Fin n) (data : Ptr)
  | copy (a : Fin n) (ref : Ref n) (copy : Ptr)
  | destroy (a : Fin n) (ref : Ref n)
  | data (a : Fin n) (ref : Ref n) (caller : Caller) (copy : Ptr)
  | send (a : Fin n) (ref : Ref n) (dest : Fin n)
  | deliver (src dst : Fin n) (copy : Nat → Ptr)

-- The runs written out below are of two and of three nodes, which are named by numerals.
instance neZero_two : NeZero 2 := Nat.instNeZeroSucc

instance neZero_three : NeZero 3 := Nat.instNeZeroSucc

section Steps

variable {n : Nat}

/-- Node `a` has got the result of an operation. -/
def System.put (s : System n) (a : Fin n) (r : NodeState n × List (Fin n × Msg n)) : System n :=
  ⟨fun b => if b = a then r.1 else s.node b, s.chan.pushAll a r.2⟩

/-- An operation of node `a` on a reference that it has to hold. -/
def System.onHeld (s : System n) (a : Fin n) (ref : Ref n) (f : NodeState n → Result n) :
    Outcome (System n) :=
  if (s.node a).held ref = 0 then .blocked else .ofOption ((f (s.node a)).map (s.put a))

def step (s : System n) : Act n → Outcome (System n)
  | .create a data => .ofOption ((refCreate a data (s.node a)).map (s.put a))
  | .copy a ref p => s.onHeld a ref (refCopy a p ref)
  | .destroy a ref => s.onHeld a ref (refDestroy a ref)
  | .data a ref caller p => s.onHeld a ref (getData a caller p ref)
  | .send a ref dest => s.onHeld a ref (refOutgoing a dest ref)
  | .deliver src dst copy =>
    match s.chan src dst with
    | [] => .blocked
    | m :: q =>
      .ofOption ((handleMsg dst src copy m (s.node dst)).map
        (System.put ⟨s.node, s.chan.set src dst q⟩ dst))

end Steps

end SNet.Distrib
