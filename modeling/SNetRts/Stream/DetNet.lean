import SNetRts.Stream.Collector
import SNetRts.Stream.Dispatch

/-!
# Deterministic combinators of the stream runtime

`SNetSplitDet`, `SNetStarDet` and `SNetParallelDet`: a dispatcher, the instances of the operand, and
a collector, each of which reads a record at any time at which it has one to read. An instance is
any entity that reads data records one after the other, writes some data records for each of them,
and forwards sort and terminate records; what it writes is part of the action.

The dispatcher is entity `0`. The instance `k` of a split or a parallel combinator is entity
`k + 1`. In a star, the operand with index `n` is entity `2 * n + 1` and the incarnate behind it,
which is a star dispatcher itself, is entity `2 * n + 2`. An entity that writes to the collector
does so on the stream with its own number.

A data record carries the position of the input record it stems from, which no entity reads.
-/

namespace SNet.Stream

open Lib

variable {D Γ : Type}

/-- A data record, with the position of the input record it stems from. -/
structure Item (D : Type) where
  origin : Nat
  value : D
deriving DecidableEq, Repr

/-- The combinator. -/
inductive Comb (D : Type) where
  | split (ltag utag : D → Int)
  | star (exits : D → Bool)
  | parallel (num : Nat) (checkMatch : D → Nat → Option Int)

namespace Comb

def splitArg (ltag utag : D → Int) : SplitArg (Item D) :=
  ⟨fun i => ltag i.value, fun i => utag i.value, true⟩

def starArg (exits : D → Bool) (isIncarnate : Bool) : StarArg (Item D) :=
  ⟨fun i => exits i.value, fun _ => true, true, isIncarnate⟩

def parallelArg (num : Nat) (checkMatch : D → Nat → Option Int) : ParallelArg (Item D) Γ :=
  ⟨num, fun i => checkMatch i.value, fun _ _ => false, true⟩

/-- The entity that reads what entity `e` writes to its instance `k`. -/
def child : Comb D → Nat → Nat → Nat
  | .star _, e, _ => e + 1
  | _, _, k => k + 1

/-- The entity that writes what entity `e` reads. -/
def parent : Comb D → Nat → Nat
  | .star _, e => e - 1
  | _, _ => 0

def writesOut : Comb D → Nat → Bool
  | .split _ _, _ => true
  | .star _, e => e % 2 == 0
  | .parallel _ _, e => e != 0

end Comb

/-- The locals of a dispatcher. -/
inductive Local where
  | split (st : SplitBox)
  | star (st : StarBox)
  | parallel (st : ParallelBox)
  /-- An instance has no locals of interest. -/
  | inst
deriving DecidableEq, Repr

/-- The state of a combinator: the number of entities behind the dispatcher, the locals of each
entity, whether it has terminated, what it has not read yet, the streams to the collector, the
collector, and all data records that each entity has read and has written to the collector. -/
structure DetNet (D Γ : Type) where
  size : Nat
  locals : Nat → Local
  stopped : Nat → Bool
  inq : Nat → List (Rec (Item D) Γ)
  queue : Queues (Item D) Γ
  coll : Collector (Item D) Γ
  read : Nat → List (Item D)
  sent : Nat → List (Item D)

/-- What an instance writes for a record; `outs` is what it makes of a data record. -/
def operand (outs : List D) : Rec (Item D) Γ → Option (List (Rec (Item D) Γ) × Bool)
  | .data i => some (outs.map fun v => .data ⟨i.origin, v⟩, false)
  | .sortEnd level num => some ([.sortEnd level num], false)
  | .terminate flag => some ([.terminate flag], true)
  | _ => none

/-- The reaction of an entity: the writes, its locals, and whether it terminates. -/
structure Reacts (D Γ : Type) where
  writes : Writes (Item D) Γ
  locals : Local
  stop : Bool

def Reacts.ofNext {σ : Type} (wrap : σ → Local) (old : σ) :
    Option (Writes (Item D) Γ × Next σ) → Option (Reacts D Γ)
  | none => none
  | some (ws, .run st) => some ⟨ws, wrap st, false⟩
  | some (ws, .stop _) => some ⟨ws, wrap old, true⟩
  -- the streams that lead into the combinator are not replaced
  | some (_, .replace _ _) => none

/-- What entity `e` does with a record. -/
def DetNet.react (comb : Comb D) (outs : List D) (e : Nat) (st : DetNet D Γ)
    (r : Rec (Item D) Γ) : Option (Reacts D Γ) :=
  match comb, st.locals e with
  | .split ltag utag, .split box =>
    Reacts.ofNext .split box (splitBoxTask (Comb.splitArg ltag utag) box r)
  | .star exits, .star box =>
    Reacts.ofNext .star box (starBoxTask (Comb.starArg exits (e != 0)) (st.size + 2) box r)
  | .parallel num checkMatch, .parallel box =>
    Reacts.ofNext .parallel box (parallelBoxTask (Comb.parallelArg num checkMatch) box r)
  | .star _, .inst =>
    (operand outs r).map fun x => ⟨x.1.map fun r => (.inst 0, r), .inst, x.2⟩
  | _, .inst => (operand outs r).map fun x => ⟨x.1.map fun r => (.out, r), .inst, x.2⟩
  | _, _ => none

def outWrites (ws : Writes (Item D) Γ) : List (Rec (Item D) Γ) :=
  ws.filterMap fun w => if w.1 = .out then some w.2 else none

/-- The records for entity `c`. -/
def instWrites (comb : Comb D) (e c : Nat) (ws : Writes (Item D) Γ) : List (Rec (Item D) Γ) :=
  ws.filterMap fun w =>
    match w.1 with
    | .out => none
    | .inst k => if comb.child e k = c then some w.2 else none

def newStreams (rs : List (Rec (Item D) Γ)) : List StreamId :=
  rs.filterMap fun r =>
    match r with
    | .collect s => some s
    | _ => none

def dataOf (rs : List (Rec (Item D) Γ)) : List (Item D) :=
  rs.filterMap fun r =>
    match r with
    | .data i => some i
    | _ => none

/-- The entities that exist once `streams` have been announced. -/
def grow (comb : Comb D) (size : Nat) (streams : List StreamId) : Nat :=
  match comb with
  | .star _ => size + 2 * streams.length
  | _ => size + streams.length

def newLocal (comb : Comb D) (e : Nat) : Local :=
  match comb with
  | .star _ => if e % 2 = 0 then .star ⟨false, false, 0, 0⟩ else .inst
  | _ => .inst

/-- Entity `e` performs its reaction to the record `r` that it has read; `q` is what it has left
unread. -/
def DetNet.perform (comb : Comb D) (e : Nat) (r : Rec (Item D) Γ) (q : List (Rec (Item D) Γ))
    (st : DetNet D Γ) (x : Reacts D Γ) : DetNet D Γ :=
  let outs := outWrites x.writes
  let size := grow comb st.size (newStreams outs)
  { size
    locals := fun c => if c = e then x.locals else
      if st.size < c ∧ c ≤ size then newLocal comb c else st.locals c
    stopped := fun c => if c = e then x.stop else st.stopped c
    inq := fun c => (if c = e then q else st.inq c) ++ instWrites comb e c x.writes
    queue := Function.update st.queue e (st.queue e ++ outs)
    coll := st.coll
    read := Function.update st.read e (st.read e ++ dataOf [r])
    sent := Function.update st.sent e (st.sent e ++ dataOf outs) }

inductive DetAct (D : Type) where
  /-- Entity `e` reads a record. -/
  | run (e : Nat) (outs : List D)
  /-- The collector reads a record from a stream. -/
  | collect (s : StreamId)

def detNetStep (comb : Comb D) (st : DetNet D Γ) : DetAct D → Outcome (DetNet D Γ)
  | .run e outs =>
    if st.size < e ∨ st.stopped e then .blocked
    else
      match st.inq e with
      | [] => .blocked
      | .sync _ _ :: _ =>
        -- only the dispatcher of a single branch hands over its input
        if comb.child 0 0 = e ∧ st.stopped 0 then
          .done { st with inq := Function.update (Function.update st.inq 0 []) e (st.inq 0) }
        else .fault
      | r :: q => Outcome.ofOption ((st.react comb outs e r).map (st.perform comb e r q))
  | .collect s =>
    match st.coll.step st.queue s with
    | .blocked => .blocked
    | .fault => .fault
    | .done (coll, queue) => .done { st with coll, queue }

/-- The record at position `n` of the input. -/
def label (n : Nat) : Rec D Γ → Rec (Item D) Γ
  | .data v => .data ⟨n, v⟩
  | .sync s o => .sync s o
  | .collect s => .collect s
  | .sortEnd level num => .sortEnd level num
  | .terminate flag => .terminate flag

def labelled (input : List (Rec D Γ)) : List (Rec (Item D) Γ) := input.mapIdx label

/-- A deterministic combinator before its first step, with all of its input; a parallel dispatcher
has written its first sort records. -/
def DetNet.init (comb : Comb D) (input : List (Rec D Γ)) : DetNet D Γ :=
  match comb with
  | .split _ _ =>
    ⟨0, fun _ => .split ⟨[], 0⟩, fun _ => false, fun c => if c = 0 then labelled input else [],
      fun _ => [], .dynamic 0, fun _ => [], fun _ => []⟩
  | .star _ =>
    ⟨0, fun _ => .star ⟨false, false, 0, 0⟩, fun _ => false,
      fun c => if c = 0 then labelled input else [], fun _ => [], .dynamic 0, fun _ => [],
      fun _ => []⟩
  | .parallel num checkMatch =>
    let w := parallelStart (Γ := Γ) (Comb.parallelArg num checkMatch) 0
    ⟨num, fun c => if c = 0 then .parallel ⟨[], 1⟩ else .inst,
      fun c => match w.2 with
        | .run _ => false
        | _ => c = 0,
      fun c => (if c = 0 then labelled input else []) ++ instWrites comb 0 c w.1,
      fun _ => [], .static ((List.range num).map fun k => k + 1), fun _ => [], fun _ => []⟩

/-- What the combinator delivers: the records of the collector, and of a stream that it has handed
over. -/
def DetNet.output (st : DetNet D Γ) : List (Rec (Item D) Γ) :=
  st.coll.out.flatMap fun r =>
    match r with
    | .sync s _ => st.queue s
    | r => [r]

end SNet.Stream
