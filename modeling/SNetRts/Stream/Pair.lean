import SNetRts.Stream.Collector
import SNetRts.Stream.Dispatch

/-!
# A parallel dispatcher and its collector

`ParallelBoxTask`, the operands of its branches, and the static `CollectorTask` that it is paired with.
An operand is any transducer that is first in, first out: for a data record it writes data records, as
many as it likes; a sort record and a terminate record it passes on; and when a sync record comes to
it, it reads on from the input of the dispatcher. Behind a record an operand may leave the stream that
it writes to: a sync record tells the collector where the branch goes on. A dispatcher and a
collector inside of an operand raise a level and lower it again.

The records on the stream of a branch and on those that replace it are one list. Initialiser branches,
which are closed before the first record is read, are left out.
-/

namespace SNet.Stream

open Lib

variable {D Γ : Type}

def sortEnds (rs : List (Rec D Γ)) : List (Int × Int) :=
  rs.filterMap fun
    | .sortEnd level num => some (level, num)
    | _ => none

def dataIn (rs : List (Rec D Γ)) : List D :=
  rs.filterMap fun
    | .data d => some d
    | _ => none

structure Pair (D Γ : Type) where
  /-- What nobody has read yet of the input of the dispatcher. -/
  input : List (Rec D Γ)
  /-- The locals of the dispatcher, `none` once it is gone. -/
  box : Option ParallelBox
  /-- The streams from the dispatcher to the operands. -/
  inner : Nat → List (Rec D Γ)
  /-- The operand that reads the input of the dispatcher. -/
  direct : Option Nat
  /-- The streams from the operands to the collector. -/
  flow : Nat → List (Rec D Γ)
  /-- The stream of a branch that the collector has come to. -/
  id : Nat → StreamId
  /-- The next stream that is created. -/
  fresh : StreamId
  coll : Collector D Γ
  /-- The data that an operand has written so far. -/
  wrote : Nat → List D
  /-- The data that the collector has read so far, with the branches it was on. -/
  heard : List (Nat × D)

namespace Pair

def deliver (w : Writes D Γ) (inner : Nat → List (Rec D Γ)) (k : Nat) : List (Rec D Γ) :=
  inner k ++ w.filterMap fun x => if x.1 = .inst k then some x.2 else none

/-- The network after `parallelStart`. -/
def init (arg : ParallelArg D Γ) (input : List (Rec D Γ)) : Pair D Γ where
  input := input
  box :=
    match (parallelStart arg 0).2 with
    | .run st => some st
    | _ => none
  inner := deliver (parallelStart arg 0).1 fun _ => []
  direct := none
  flow := fun _ => []
  id := fun k => k
  fresh := arg.num
  coll := .static (List.range arg.num)
  wrote := fun _ => []
  heard := []

def dispatch (arg : ParallelArg D Γ) (s : Pair D Γ) : Outcome (Pair D Γ) :=
  match s.box, s.input with
  | some st, r :: input =>
    match parallelBoxTask arg st r with
    | none => .fault
    | some (w, next) =>
      let box :=
        match next with
        | .run st => some st
        | .replace st _ => some st
        | .stop _ => none
      .done { s with input, box, inner := deliver w s.inner }
  | _, _ => .blocked

/-- An operand writes, and leaves its stream if `leave` is true. -/
def write (s : Pair D Γ) (k : Nat) (rs : List (Rec D Γ)) (leave : Bool) : Pair D Γ :=
  { s with
    flow := Function.update s.flow k (s.flow k ++ rs ++ if leave then [.sync s.fresh none] else [])
    fresh := if leave then s.fresh + 1 else s.fresh }

/-- An operand has read a record; `ds` is what it writes for data. -/
def pass (s : Pair D Γ) (k : Nat) (ds : List D) (leave : Bool) : Rec D Γ → Outcome (Pair D Γ)
  | .data _ => .done { s.write k (ds.map .data) leave with
      wrote := Function.update s.wrote k (s.wrote k ++ ds) }
  | .sortEnd level num => .done (s.write k [.sortEnd level num] leave)
  | .terminate flag => .done (s.write k [.terminate flag] false)
  | .sync _ _ => .done { s with direct := some k }
  | .collect _ => .fault

def operand (s : Pair D Γ) (k : Nat) (ds : List D) (leave : Bool) : Outcome (Pair D Γ) :=
  match s.inner k with
  | r :: q => { s with inner := Function.update s.inner k q }.pass k ds leave r
  | [] =>
    if s.direct = some k then
      match s.input with
      | r :: input => { s with input := input }.pass k ds leave r
      | [] => .blocked
    else .blocked

/-- One iteration of the collector, which reads from branch `k`. -/
def collect (s : Pair D Γ) (k : Nat) : Outcome (Pair D Γ) :=
  (s.coll.step (Function.update (fun _ => []) (s.id k) (s.flow k)) (s.id k)).bind fun (coll, queue) =>
    .done { s with
      coll
      flow := Function.update s.flow k (queue (s.id k))
      id :=
        match s.flow k with
        | .sync input _ :: _ => Function.update s.id k input
        | _ => s.id
      heard :=
        match s.flow k with
        | .data d :: _ => s.heard ++ [(k, d)]
        | _ => s.heard }

inductive Act (D : Type) where
  | dispatch
  | operand (k : Nat) (ds : List D) (leave : Bool)
  | collect (k : Nat)

def step (arg : ParallelArg D Γ) (s : Pair D Γ) : Act D → Outcome (Pair D Γ)
  | .dispatch => s.dispatch arg
  | .operand k ds leave => s.operand k ds leave
  | .collect k => s.collect k

/-- What comes out behind the collector. Once it has handed over a stream with a sync record, this is
what the branch of that stream writes. -/
def observed (arg : ParallelArg D Γ) (s : Pair D Γ) : List (Rec D Γ) :=
  s.coll.out ++
    match s.coll.out.getLast? with
    | some (.sync input _) =>
      (((List.range arg.num).find? fun k => s.id k = input).map s.flow).getD []
    | _ => []

def Quiet (arg : ParallelArg D Γ) (s : Pair D Γ) : Prop := ∀ a, step arg s a = .blocked

/-- What may come from outside: data, sync records, and sort records of an outer level. -/
def Outer : Rec D Γ → Prop
  | .data _ => True
  | .sync _ _ => True
  | .sortEnd level _ => 0 ≤ level
  | _ => False

def branchOf (k : Nat) (log : List (Nat × D)) : List D :=
  log.filterMap fun e => if e.1 = k then some e.2 else none

/-- Sort records come out as they went in, each once and in the order of the input, and the data of
each branch in the order in which they were written; in the end all of them have come out. -/
structure Intact (arg : ParallelArg D Γ) (input : List (Rec D Γ)) (s : Pair D Γ) : Prop where
  sorts : sortEnds (s.observed arg) <+: sortEnds input
  allSorts : s.Quiet arg → sortEnds (s.observed arg) = sortEnds input
  data : ∃ log : List (Nat × D), log.map Prod.snd = dataIn (s.observed arg) ∧
    ∀ k < arg.num, branchOf k log <+: s.wrote k ∧ (s.Quiet arg → branchOf k log = s.wrote k)
  /-- The collector fails no assertion. -/
  safe : ∀ k, s.collect k ≠ .fault

end Pair

end SNet.Stream
