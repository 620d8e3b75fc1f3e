import SNetRts.Common.Record
import SNetRts.Lib.Run

/-!
# Determinism support of the front runtime

The detrefs of `front/xdet.c` for one deterministic network: the landing where records enter it
(`SNetDetEnter`), the records inside, and the collector where they leave (`SNetNodeCollector`,
`SNetDetLeaveRec`, `SNetDetLeaveDequeue`). Everything may interleave with everything else. The
collector handles one record at a time, in steps that each read one thing another thread may
change: the first detref, its reference count, a further detref.

A detref is allocated when it is put into `detfifo` and deallocated when it is taken out, so the
detrefs in `detfifo` are the ones allocated; to follow a reference to any other is a fault, as is a
failed assertion or a fatal error.
-/

namespace SNet.Front

open Lib

variable {R : Type}

/-- `detref_t`, with its address. -/
structure Detref (R : Type) where
  id : DetrefId
  seqnr : Int
  refcount : Nat
  recfifo : List R

/-- The counters of `landing_detenter_t`. -/
structure DetEnter where
  counter : Int
  seqnr : Int
deriving DecidableEq, Repr

/-- Where the collector is in `SNetDetLeaveDequeue`. -/
inductive CollectorPc where
  | idle
  /-- at the head of the loop over detrefs -/
  | loop
  /-- before the reference count of the first detref is read -/
  | check
  /-- at the `k`-th detref, looking for equal sequence numbers -/
  | scan (k : Nat)
deriving DecidableEq, Repr

/-- A deterministic network. -/
structure DetNet (R : Type) where
  enter : DetEnter
  /-- the address of the next detref -/
  fresh : DetrefId
  detfifo : List (Detref R)
  /-- the records in the network, each with its detref for it -/
  live : List (R × DetrefId)
  /-- detrefs that a thread in `SNetRecDetrefDestroy` has decremented to one -/
  dying : List DetrefId
  /-- the `REC_detref` notifications on their way to the collector -/
  notes : List DetrefId
  /-- the collector's `leave->counter` -/
  counter : Int
  pc : CollectorPc
  /-- what the collector has written, with the sequence numbers of the detrefs -/
  out : List (R × Option Int)
  /-- the records that have reached the collector -/
  arrived : List (R × Option Int)
  /-- the detrefs deallocated so far -/
  freed : List DetrefId

/-- The state in which `SNetInitDetEnter` leaves the landings. -/
def DetNet.init : DetNet R :=
  ⟨⟨0, 0⟩, 0, [], [], [], [], 1, .idle, [], [], []⟩

/-- `SNetDetEnter`: the counters after a record whose topmost detref has sequence number `top`. -/
def detEnter (isDet : Bool) (land : DetEnter) (top : Option Int) : Option DetEnter :=
  if isDet then
    some { land with counter := land.counter + 1 }
  else
    match top with
    | none => none
    | some s =>
      if s = land.seqnr then some land
      else if land.seqnr < s then some ⟨land.counter + 1, s⟩
      else none

def findDetref (d : DetrefId) (l : List (Detref R)) : Option (Detref R) := l.find? fun e => e.id == d

def modifyDetref (d : DetrefId) (f : Detref R → Detref R) (l : List (Detref R)) :
    List (Detref R) :=
  l.map fun e => if e.id = d then f e else e

/-- The steps of a deterministic network. -/
inductive DetAct (R : Type) where
  /-- a record enters; `top` is the sequence number of its topmost detref -/
  | enter (r : R) (top : Option Int)
  /-- a record is made from the `i`-th one (`SNetRecDetrefCopy`) -/
  | copy (i : Nat) (r : R)
  /-- the `i`-th record is forwarded as `r` -/
  | forward (i : Nat) (r : R)
  /-- the `i`-th record is absorbed: `SNetRecDetrefDestroy` up to the first decrement -/
  | absorb (i : Nat)
  /-- `SNetRecDetrefDestroy` from there on -/
  | notify (i : Nat)
  /-- the `i`-th record reaches the collector -/
  | arrive (i : Nat)
  /-- a notification reaches the collector -/
  | note (i : Nat)
  /-- a record without a detref for this network reaches the collector -/
  | bare (r : R)
  /-- the collector goes on in `SNetDetLeaveDequeue` -/
  | dequeue

namespace DetNet

variable (s : DetNet R)

/-- `SNetRecDetrefAdd`. -/
def detrefAdd (r : R) (seqnr : Int) : DetNet R :=
  { s with
    fresh := s.fresh + 1
    detfifo := s.detfifo ++ [⟨s.fresh, seqnr, 2, []⟩]
    live := s.live ++ [(r, s.fresh)] }

/-- `SNetDetLeaveRec` for a record with detref `e`, up to the call of `SNetDetLeaveDequeue`. -/
def detLeaveRec (i : Nat) (r : R) (e : Detref R) : DetNet R :=
  { s with
    live := s.live.eraseIdx i
    arrived := s.arrived ++ [(r, some e.seqnr)]
    detfifo := modifyDetref e.id (fun e =>
      { e with
        recfifo := e.recfifo ++ [r]
        refcount := if e.refcount - 1 = 1 then 0 else e.refcount - 1 }) s.detfifo
    pc := .loop }

/-- `SNetNodeCollector` for a record without a detref for it, when `detfifo` is not empty. -/
def queueBare (r : R) (tail : Detref R) : DetNet R :=
  { s with
    fresh := s.fresh + 1
    detfifo := s.detfifo ++ [⟨s.fresh, tail.seqnr + 1, 0, [r]⟩]
    arrived := s.arrived ++ [(r, some (tail.seqnr + 1))]
    pc := .loop }

def written (e : Detref R) : List (R × Option Int) := e.recfifo.map fun r => (r, some e.seqnr)

/-- One step of `SNetDetLeaveDequeue`. -/
def leaveDequeue : Outcome (DetNet R) :=
  match s.pc with
  | .idle => .blocked
  | .loop =>
    match s.detfifo with
    | [] => .done { s with pc := .idle }
    | e :: es =>
      if e.seqnr < s.counter then .fault
      else .done { s with
        counter := e.seqnr
        out := s.out ++ written e
        detfifo := { e with recfifo := [] } :: es
        pc := .check }
  | .check =>
    match s.detfifo with
    | [] => .fault
    | e :: es =>
      if e.refcount = 0 then
        -- `SNetFifoDone` asserts that no record is left
        if e.recfifo.isEmpty then
          .done { s with detfifo := es, freed := s.freed ++ [e.id], pc := .loop }
        else .fault
      else .done { s with pc := .scan 1 }
  | .scan k =>
    match s.detfifo.head?, s.detfifo[k]? with
    | none, _ => .fault
    | some _, none => .done { s with pc := .idle }
    | some e, some x =>
      if x.seqnr = e.seqnr then
        .done { s with
          out := s.out ++ written x
          detfifo := s.detfifo.set k { x with recfifo := [] }
          pc := .scan (k + 1) }
      else .done { s with pc := .idle }

def step (isDet : Bool) : DetAct R → Outcome (DetNet R)
  | .enter r top =>
    match detEnter isDet s.enter top with
    | none => .fault
    | some land => .done ({ s with enter := land }.detrefAdd r land.counter)
  | .copy i r =>
    match s.live[i]? with
    | none => .blocked
    | some (_, d) =>
      match findDetref d s.detfifo with
      | none => .fault
      | some e =>
        if e.refcount < 2 then .fault
        else .done { s with
          detfifo := modifyDetref d (fun e => { e with refcount := e.refcount + 1 }) s.detfifo
          live := s.live ++ [(r, d)] }
  | .forward i r =>
    match s.live[i]? with
    | none => .blocked
    | some (_, d) => .done { s with live := s.live.set i (r, d) }
  | .absorb i =>
    match s.live[i]? with
    | none => .blocked
    | some (_, d) =>
      match findDetref d s.detfifo with
      | none => .fault
      | some e =>
        if e.refcount < 2 then .fault
        else .done { s with
          detfifo := modifyDetref d (fun e => { e with refcount := e.refcount - 1 }) s.detfifo
          live := s.live.eraseIdx i
          dying := if e.refcount - 1 = 1 then s.dying ++ [d] else s.dying }
  | .notify i =>
    match s.dying[i]? with
    | none => .blocked
    | some d =>
      match findDetref d s.detfifo with
      | none => .fault
      | some e =>
        if e.refcount ≠ 1 then .fault
        else .done { s with
          detfifo := modifyDetref d (fun e => { e with refcount := 0 }) s.detfifo
          dying := s.dying.eraseIdx i
          notes := s.notes ++ [d] }
  | .arrive i =>
    if s.pc ≠ .idle then .blocked
    else
      match s.live[i]? with
      | none => .blocked
      | some (r, d) =>
        match findDetref d s.detfifo with
        | none => .fault
        | some e =>
          if e.refcount < 2 ∨ e.seqnr < s.counter then .fault
          else .done (s.detLeaveRec i r e)
  | .note i =>
    if s.pc ≠ .idle then .blocked
    else if i < s.notes.length then .done { s with notes := s.notes.eraseIdx i, pc := .loop }
    else .blocked
  | .bare r =>
    if s.pc ≠ .idle then .blocked
    else
      match s.detfifo.getLast? with
      | none => .done { s with
          out := s.out ++ [(r, none)]
          arrived := s.arrived ++ [(r, none)] }
      | some tail => .done (s.queueBare r tail)
  | .dequeue => s.leaveDequeue

end DetNet

end SNet.Front
