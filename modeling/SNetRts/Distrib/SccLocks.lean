import SNetRts.Distrib.Reference
import SNetRts.Lib.Mutex
import Mathlib.Logic.Function.Basic

/-!
# The locks of the SCC back end

The threads of any number of nodes in `distrib/scc/sccref.c` and `distrib/scc/transmit.c`: what they
lock and in which order. A node has the lock of its message buffer (`lock`, `unlock` of `scc.h`), which
its receiver and the senders of all nodes take, and the mutexes of its two reference tables.

A thread has a list of what is still to do in its call, and a step is one acquisition or release, or
what lies between two of them. Whether a buffer is full is up to the step, and a thread that waits on a
stream for a datum may go on at any time. The `WRITING` flags and the tables are modelled, since they
decide which locks are taken; the bytes in the buffers and the addresses of copies do not and are left
out.
-/

namespace SNet.Distrib.Scc

open Lib

inductive Lock (n : Nat) where
  /-- `locks[node]` -/
  | buffer (node : Fin n)
  /-- `localRefMutex` -/
  | localRef (node : Fin n)
  /-- `remoteRefMutex` -/
  | remoteRef (node : Fin n)
deriving DecidableEq

/-- The reference tables of a node. -/
structure Tables (n : Nat) where
  localRefMap : Ref n → Option RefCount
  remoteRefMap : Ref n → Option RefCount

/-- The messages that are sent under `remoteRefMutex`. -/
inductive Request (n : Nat) where
  | update (ref : Ref n) (count : Int)
  | fetch (ref : Ref n)
deriving DecidableEq

section Sections

variable {n : Nat} (remap : Bool) (st : Tables n)

/-- What a section leaves in the tables, and what it sends; `none` when an assertion of the tables
fails. -/
abbrev Result (n : Nat) := Option (Tables n × List (Request n))

def Tables.setLocal (ref : Ref n) (r : Option RefCount) : Tables n :=
  { st with localRefMap := Function.update st.localRefMap ref r }

def Tables.setRemote (ref : Ref n) (r : Option RefCount) : Tables n :=
  { st with remoteRefMap := Function.update st.remoteRefMap ref r }

/-- `--refInfo->count`, and the entry is taken out when it comes to zero. -/
def Tables.decRemote (ref : Ref n) : Option (Tables n) :=
  (st.remoteRefMap ref).map fun refInfo =>
    if refInfo.count - 1 = 0 then st.setRemote ref none
    else st.setRemote ref (some { refInfo with count := refInfo.count - 1 })

/-- `SNetRefCopy` of a remote reference. -/
def refCopy (ref : Ref n) : Result n :=
  (st.remoteRefMap ref).map fun refInfo =>
    if !remap && refInfo.data.isSome then (st, [])
    else (st.setRemote ref (some { refInfo with count := refInfo.count + 1 }), [.update ref 1])

/-- `GetData` of a remote reference. -/
def getData (caller : Caller) (ref : Ref n) : Result n :=
  match st.remoteRefMap ref with
  | none => none
  | some refInfo =>
    match refInfo.data, refInfo.list with
    | none, some list => some (st.setRemote ref (some { refInfo with list := some (list ++ [caller]) }), [])
    | none, none => some (st.setRemote ref (some { refInfo with list := some [caller] }), [.fetch ref])
    | some _, _ =>
      if remap then some (st, [])
      else (st.decRemote ref).map fun st => (st, [.update ref (-1)])

/-- The second section of `SNetRefTakeData`, for `remap`, and that of `SNetRefDestroy`. -/
def dropRef (ref : Ref n) : Result n :=
  (st.decRemote ref).map fun st => (st, [.update ref (-1)])

/-- `SNetRefIncoming` on the node `self`. -/
def refIncoming (self : Fin n) (ref : Ref n) : Result n :=
  if ref.node = self then
    (st.localRefMap ref).map fun refInfo =>
      if refInfo.count - 1 = 0 then (st.setLocal ref none, [])
      else (st.setLocal ref (some { refInfo with count := refInfo.count - 1 }), [])
  else
    match st.remoteRefMap ref with
    | some refInfo => some (st.setRemote ref (some { refInfo with count := refInfo.count + 1 }), [])
    | none => some (st.setRemote ref (some ⟨1, none, none⟩), [])

/-- `SNetRefOutgoing` on the node `self`. -/
def refOutgoing (self : Fin n) (ref : Ref n) : Result n :=
  if ref.node = self then
    match st.localRefMap ref with
    | some refInfo => some (st.setLocal ref (some { refInfo with count := refInfo.count + 1 }), [])
    | none => some (st.setLocal ref (some ⟨1, some ref.data, none⟩), [])
  else (st.decRemote ref).map fun st => (st, [])

/-- `SNetRefUpdate`. -/
def refUpdate (ref : Ref n) (value : Int) : Result n :=
  (st.localRefMap ref).map fun refInfo =>
    if refInfo.count + value = 0 then (st.setLocal ref none, [])
    else (st.setLocal ref (some { refInfo with count := refInfo.count + value }), [])

/-- `SNetRefSet`, which serves every stream of the list. -/
def refSet (ref : Ref n) (data : Ptr) : Result n :=
  match st.remoteRefMap ref with
  | none => none
  | some refInfo =>
    match refInfo.list with
    | none => none
    | some list =>
      let count := if remap then refInfo.count else refInfo.count - list.length
      if count > 0 then some (st.setRemote ref (some ⟨count, some data, none⟩), [])
      else some (st.setRemote ref none, [])

end Sections

/-- The sections of `sccref.c` under one of the mutexes. -/
inductive Section (n : Nat) where
  | copy (ref : Ref n)
  | getData (caller : Caller) (ref : Ref n)
  | takeData (ref : Ref n)
  | destroy (ref : Ref n)
  | incoming (ref : Ref n)
  | outgoing (ref : Ref n)
  | update (ref : Ref n) (value : Int)
  | set (ref : Ref n) (data : Ptr)
deriving DecidableEq

namespace Section

variable {n : Nat} (self : Fin n)

/-- The mutex of the section on the node `self`. -/
def mutex : Section n → Lock n
  | .copy _ | .getData _ _ | .takeData _ | .destroy _ | .set _ _ => .remoteRef self
  | .update _ _ => .localRef self
  | .incoming ref | .outgoing ref => if ref.node = self then .localRef self else .remoteRef self

def run (remap : Bool) (st : Tables n) : Section n → Result n
  | .copy ref => refCopy remap st ref
  | .getData caller ref => Scc.getData remap st caller ref
  | .takeData ref => dropRef st ref
  | .destroy ref => dropRef st ref
  | .incoming ref => refIncoming st self ref
  | .outgoing ref => refOutgoing st self ref
  | .update ref value => refUpdate st ref value
  | .set ref data => refSet remap st ref data

def sends (remap : Bool) (st : Tables n) (sec : Section n) : Bool :=
  match sec.run self remap st with
  | none => false
  | some (_, requests) => !requests.isEmpty

end Section

/-- What a thread has to do. -/
inductive Op (n : Nat) where
  | lock (node : Fin n)
  | unlock (node : Fin n)
  /-- The loop of `start_write_node`: it takes the lock. -/
  | startWrite (node : Fin n)
  /-- It has the lock and looks at `WRITING`. -/
  | testWriting (node : Fin n)
  /-- A call of `cpy_mem_to_mpb`. -/
  | copy (node : Fin n)
  /-- A turn of its loop. -/
  | copying (node : Fin n)
  /-- It takes the lock again after it has found the buffer full. -/
  | relock (node : Fin n)
  /-- A call that consists of a section. -/
  | enter (sec : Section n)
  | locking (sec : Section n)
  | body (sec : Section n)
  | leave (sec : Section n)
deriving DecidableEq

section Calls

variable {n : Nat} (remap : Bool) (self : Fin n)

/-- The calls of `cpy_mem_to_mpb` in `SNetRefSerialise`. -/
def refSerialise (node : Fin n) : List (Op n) := List.replicate 4 (.copy node)

/-- A message between `start_write_node` and `stop_write_node`, which begins with its type. -/
def writeNode (node : Fin n) (ops : List (Op n)) : List (Op n) :=
  .startWrite node :: .copy node :: ops ++ [.unlock node]

/-- `SNetDistribUpdateRef` and `SNetDistribFetchRef`. -/
def Request.ops : Request n → List (Op n)
  | .update ref _ | .fetch ref => writeNode ref.node (refSerialise ref.node ++ [.copy ref.node])

/-- `PackInt` or `PackRef` of a part of a record. -/
def packPart (node : Fin n) : Option (Ref n) → List (Op n)
  | none => [.copy node]
  | some ref => refSerialise node ++ [.enter (.outgoing ref)]

/-- `UnpackRef`. -/
def unpackRef (ref : Ref n) : Op n := .enter (.incoming ref)

/-- `SNetDistribSendData`; `packfun` calls `cpy_mem_to_mpb` so often. -/
def sendData (node : Fin n) (packfun : Nat) : List (Op n) :=
  writeNode node (refSerialise node ++ (if remap then [] else [.copy node]) ++
    List.replicate packfun (.copy node))

/-- `SNetRefGetData` and, up to the first section, `SNetRefTakeData`. -/
def getDataOps (caller : Caller) (ref : Ref n) : List (Op n) :=
  if ref.node = self then [] else [.enter (.getData caller ref)]

/-- What `SNetDistribRecvMsg` finds in the buffer. -/
inductive Message (n : Nat) where
  /-- A record with these references. -/
  | record (refs : List (Ref n))
  /-- A `snet_ref_fetch` that asks for the datum at a node. -/
  | fetch (ref : Ref n) (node : Fin n) (packfun : Nat)
  /-- A message of another kind, or nothing. -/
  | other

/-- The functions that the threads call. -/
inductive Call (n : Nat) where
  | refCopy (ref : Ref n)
  | refGetData (ref : Ref n)
  | refTakeData (ref : Ref n)
  | refDestroy (ref : Ref n)
  | refUpdate (ref : Ref n) (value : Int)
  | refSet (ref : Ref n) (data : Ptr)
  /-- `parts` are the calls of `PackInt` and the references of `PackRef`. -/
  | sendRecord (dest : Fin n) (parts : List (Option (Ref n)))
  | sendData (node : Fin n) (packfun : Nat)
  | updateBlocked
  | unblockDest (node : Fin n)
  | blockDest (node : Fin n)
  | recvMsg (msg : Message n)

/-- What there is to do for a call on the node `self`. -/
def Call.ops : Call n → List (Op n)
  | .refCopy ref => if ref.node = self then [] else [.enter (.copy ref)]
  | .refGetData ref => getDataOps self .getData ref
  | .refTakeData ref =>
    getDataOps self .takeData ref ++
      (if remap && ref.node ≠ self then [.enter (.takeData ref)] else [])
  | .refDestroy ref => if ref.node = self then [] else [.enter (.destroy ref)]
  | .refUpdate ref value => [.enter (.update ref value)]
  | .refSet ref data => [.enter (.set ref data)]
  | .sendRecord dest parts => writeNode dest (parts.flatMap (packPart dest) ++ [.copy dest])
  | .sendData node packfun => Scc.sendData remap node packfun
  | .updateBlocked => writeNode self []
  | .unblockDest node | .blockDest node => writeNode node [.copy node]
  | .recvMsg (.record refs) => .lock self :: refs.map unpackRef ++ [.unlock self]
  | .recvMsg (.fetch ref node packfun) =>
    .lock self :: .unlock self ::
      (if remap then getDataOps self .getData ref ++ Scc.sendData remap node packfun else [])
  | .recvMsg .other => [.lock self, .unlock self]

end Calls

structure State (n : Nat) (T : Type) where
  /-- Who has the lock. -/
  owner : Lock n → Option T
  /-- `WRITING(node)` -/
  writing : Fin n → Bool
  tables : Fin n → Tables n
  ops : T → List (Op n)

/-- What a turn in `cpy_mem_to_mpb` finds: no room, room for a part of what is left, or for all. -/
inductive Turn where
  | full
  | part
  | all
deriving DecidableEq

inductive Act (n : Nat) (T : Type) where
  | call (t : T) (c : Call n)
  | run (t : T) (turn : Turn)

variable {n : Nat} {T : Type} [DecidableEq T]

namespace State

def init (n : Nat) (T : Type) : State n T := ⟨fun _ => none, fun _ => false, fun _ => ⟨fun _ => none, fun _ => none⟩, fun _ => []⟩

variable (s : State n T)

def goOn (t : T) (ops : List (Op n)) : State n T := { s with ops := Function.update s.ops t ops }

def acquire (t : T) (l : Lock n) (ops : List (Op n)) : Outcome (State n T) :=
  match s.owner l with
  | none => .done { s.goOn t ops with owner := Function.update s.owner l (some t) }
  | some _ => .blocked

def release (t : T) (l : Lock n) (ops : List (Op n)) : State n T :=
  { s.goOn t ops with owner := Function.update s.owner l none }

def waitsFor (node : T → Fin n) (t : T) : Option (Lock n) :=
  match s.ops t with
  | .lock m :: _ | .startWrite m :: _ | .relock m :: _ => some (.buffer m)
  | .locking sec :: _ => some (sec.mutex (node t))
  | _ => none

end State

def run (remap : Bool) (node : T → Fin n) (s : State n T) (t : T) (turn : Turn) : Outcome (State n T) :=
  match s.ops t with
  | [] => .blocked
  | .lock m :: ops => s.acquire t (.buffer m) ops
  | .unlock m :: ops => .done (s.release t (.buffer m) ops)
  | .startWrite m :: ops => s.acquire t (.buffer m) (.testWriting m :: ops)
  | .testWriting m :: ops =>
    if s.writing m then .done (s.release t (.buffer m) (.startWrite m :: ops))
    else .done (s.goOn t ops)
  | .copy m :: ops =>
    .done { s.goOn t (.copying m :: ops) with writing := Function.update s.writing m true }
  | .copying m :: ops =>
    match turn with
    | .full => .done (s.release t (.buffer m) (.relock m :: ops))
    | .part => .done { s with writing := Function.update s.writing m false }
    | .all => .done { s.goOn t ops with writing := Function.update s.writing m false }
  | .relock m :: ops => s.acquire t (.buffer m) (.copying m :: ops)
  | .enter sec :: ops => .done (s.goOn t (.locking sec :: ops))
  | .locking sec :: ops => s.acquire t (sec.mutex (node t)) (.body sec :: ops)
  | .body sec :: ops =>
    match sec.run (node t) remap (s.tables (node t)) with
    | none => .fault
    | some (tables, requests) =>
      .done { s.goOn t (requests.flatMap Request.ops ++ .leave sec :: ops) with
        tables := Function.update s.tables (node t) tables }
  | .leave sec :: ops => .done (s.release t (sec.mutex (node t)) ops)

def step (remap : Bool) (node : T → Fin n) (s : State n T) : Act n T → Outcome (State n T)
  | .call t c =>
    match s.ops t with
    | [] => .done (s.goOn t (c.ops remap (node t)))
    | _ => .blocked
  | .run t turn => run remap node s t turn

end SNet.Distrib.Scc
