import SNetRts.Lib.Run
import SNetRts.Stream.Entity
import Mathlib.Logic.Function.Basic

/-!
# The collector of the stream runtime

`CollectorTask` (`stream/entity/collector.c`) merges the streams of the instances of a combinator.
It reads from the streams of its ready set in any order. A stream that has delivered a sort record
moves to the waiting set and is not read again until every other stream has delivered the record as
well; the sets are then swapped and the record, if it belongs to an outer level, leaves. Dynamic
collectors get further streams announced by collect records.
-/

namespace SNet.Stream

open Lib

variable {D Γ : Type}

abbrev Queues (D Γ : Type) := StreamId → List (Rec D Γ)

/-- The locals of `CollectorTask`, with the records it has written. -/
structure Collector (D Γ : Type) where
  isStatic : Bool
  ready : List StreamId
  waiting : List StreamId
  /-- `sort_rec`: level and number. -/
  sortRec : Option (Int × Int)
  /-- `term_rec`: the flag of the record. -/
  termRec : Option Bool
  incount : Int
  /-- The stream on which the paired dispatcher has announced that it is gone. -/
  last : Option StreamId
  terminate : Bool
  out : List (Rec D Γ)

namespace Collector

def termNext (queue : Queues D Γ) (s : StreamId) : Bool :=
  match queue s with
  | .terminate _ :: _ => true
  | _ => false

/-- `DestroyTermInWaitingSet`. -/
def destroyTermInWaitingSet (c : Collector D Γ) (queue : Queues D Γ) : Collector D Γ × Queues D Γ :=
  ({ c with
      waiting := c.waiting.filter fun s => !termNext queue s
      incount := c.incount - (c.waiting.filter fun s => termNext queue s).length },
    fun s => if s ∈ c.waiting ∧ termNext queue s then (queue s).tail else queue s)

/-- `ProcessSortRecord`. -/
def processSortRecord (c : Collector D Γ) (cur : StreamId) (level num : Int) : Collector D Γ :=
  { c with
    ready := c.ready.erase cur
    waiting := c.waiting ++ [cur]
    sortRec := some (c.sortRec.getD (level, num)) }

/-- `ProcessTermRecord`. -/
def processTermRecord (c : Collector D Γ) (cur : StreamId) (flag : Bool) : Collector D Γ :=
  { c with
    ready := c.ready.erase cur
    incount := c.incount - 1
    termRec := some (c.termRec.getD flag) }

/-- `RestoreFromWaitingset`. -/
def restoreFromWaitingset (c : Collector D Γ) : Option (Collector D Γ) :=
  match c.sortRec with
  | none => none
  | some (level, num) =>
    some { c with
      ready := c.waiting
      waiting := []
      sortRec := none
      out := if 0 < level then c.out ++ [.sortEnd (level - 1) num] else c.out }

/-- The switch over the record that has been read from `cur`; `queue` is what is left on the
streams. -/
def process (c : Collector D Γ) (queue : Queues D Γ) (cur : StreamId) :
    Rec D Γ → Option (Collector D Γ × Queues D Γ)
  | .data d => some ({ c with out := c.out ++ [.data d] }, queue)
  | .sortEnd level num =>
    let level := if c.last = some cur then level + 1 else level
    if c.last = none ∧ level = 0 ∧ num = -1 then some ({ c with last := some cur }, queue)
    else some (c.processSortRecord cur level num, queue)
  | .sync input _ =>
    some ({ c with
      ready := c.ready.map fun s => if s = cur then input else s
      last := if c.last = some cur then some input else c.last }, queue)
  | .collect s =>
    if c.isStatic then none
    else
      let (c, queue) := c.destroyTermInWaitingSet queue
      if 0 < c.incount then some ({ c with ready := c.ready ++ [s], incount := c.incount + 1 }, queue)
      else none
  | .terminate flag => some (c.processTermRecord cur flag, queue)

def finish (c : Collector D Γ) : Option (Collector D Γ) :=
  if c.ready = [] then
    match c.waiting with
    | s :: _ =>
      if c.isStatic ∧ c.incount = 1 then
        match (if c.last = some s then c.restoreFromWaitingset else some c) with
        | none => none
        | some c => some { c with out := c.out ++ [.sync s none], terminate := true }
      else c.restoreFromWaitingset
    | [] =>
      match c.termRec with
      | none => none
      | some flag =>
        some { c with out := c.out ++ [.terminate flag], termRec := none, terminate := true }
  else some c

/-- One iteration of the main loop of `CollectorTask`, which reads from `cur`. -/
def step (c : Collector D Γ) (queue : Queues D Γ) (cur : StreamId) :
    Outcome (Collector D Γ × Queues D Γ) :=
  if c.terminate ∨ cur ∉ c.ready then .blocked
  else
    match queue cur with
    | [] => .blocked
    | r :: q =>
      match c.process (Function.update queue cur q) cur r with
      | none => .fault
      | some (c, queue) => Outcome.ofOption ((c.finish).map fun c => (c, queue))

/-- The collector of `CollectorCreateDynamic`. -/
def dynamic (input : StreamId) : Collector D Γ :=
  ⟨false, [input], [], none, none, 1, none, false, []⟩

/-- The collector of `CollectorCreateStatic`. -/
def static (inputs : List StreamId) : Collector D Γ :=
  ⟨true, inputs, [], none, none, inputs.length, none, false, []⟩

end Collector

end SNet.Stream
