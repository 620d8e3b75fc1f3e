import SNetRts.Stream.DetNet
import SNetRts.Lib.Run
import Mathlib.Data.List.Range
import Mathlib.Logic.Function.Basic

/-!
# The feedback combinator of the stream runtime

`FeedbackCollTask`, `FeedbackDispTask` and `FeedbackBufTask` (`entity/feedback.c`) around an operand,
which is any entity that writes some data records for each data record and forwards sort and terminate
records in order. The collector appends a sort record of level 0 to each record from outside. It reads
from outside again only when that sort record has come back and no data record with it.

Each task takes a step for each record that it reads and for each record that it writes, in any
interleaving; what it has still to write for the record that it has read is part of the state. The
streams are unbounded where a task would only wait for room to write, as it may wait at any time. The
streams from the buffer to the collector have their capacities, which the buffer sees.

A stream from outside or from the operand that is replaced by another one (`SNetStreamReplace`) is one
list here: the records behind the sync record are those of the new stream.
-/

namespace SNet.Stream.Feedback

open Lib

variable {D Γ : Type}

/-! ## The tasks -/

/-- `enum fbcoll_mode`. -/
inductive Mode where
  | input
  | fb1
  | fb0
deriving DecidableEq, Repr

/-- `FbCollReadIn` with the record it has read. -/
def fbCollReadIn (mode : Mode) : Rec D Γ → Option (Reaction Mode D Γ)
  | .data d => some ⟨[.data d, .sortEnd 0 1], .run .fb1⟩
  | .sortEnd level num => some ⟨[.sortEnd (level + 1) num], .run mode⟩
  | .terminate isLocal => some ⟨[.terminate isLocal], .stop true⟩
  | .sync input _ => some ⟨[], .replace mode input⟩
  | .collect _ => none

/-- `FbCollReadFbi` with the record it has read. -/
def fbCollReadFbi (mode : Mode) : Rec D Γ → Option (Reaction Mode D Γ)
  | .data d => some ⟨[.data d], .run .fb0⟩
  | .sortEnd level num =>
    if level ≠ 0 then none
    else match mode with
    | .fb0 => some ⟨[.sortEnd level (num + 1)], .run .fb1⟩
    | .fb1 => some ⟨[], .run .input⟩
    | .input => none
  | .sync input _ => some ⟨[], .replace mode input⟩
  | .terminate _ => none
  | .collect _ => none

/-- `MatchesBackPattern`. -/
def matchesBackPattern (backPatterns guards : List (D → Bool)) (d : D) : Bool :=
  (guards.zip backPatterns).any fun p => p.1 d && p.2 d

/-- The streams that the dispatcher writes to. -/
inductive Port where
  | out
  | back
deriving DecidableEq, Repr

/-- `FeedbackDispTask` with the record it has read: what it writes, and whether it terminates. -/
def feedbackDispTask (backPatterns guards : List (D → Bool)) :
    Rec (Item D) Γ → Option (List (Port × Rec (Item D) Γ) × Bool)
  | .data i =>
    if matchesBackPattern backPatterns guards i.value then some ([(.back, .data i)], false)
    else some ([(.out, .data i)], false)
  | .sortEnd level num =>
    if level = 0 then some ([(.back, .sortEnd level num)], false)
    else if 0 < level then some ([(.out, .sortEnd (level - 1) num)], false)
    else none
  | .terminate isLocal => some ([(.back, .terminate isLocal), (.out, .terminate isLocal)], true)
  | .sync _ _ => some ([], false)
  | .collect _ => none

def syncTo : Rec D Γ → Option StreamId
  | .sync s _ => some s
  | _ => none

/-- `FEEDBACK_BACKCHAN_CAPACITY`. -/
def backchanCapacity : Nat := 64

/-- Where `FeedbackBufTask` is. -/
inductive BufPc where
  /-- at the start of its main loop -/
  | top
  /-- in the loop that reads records, with `n` -/
  | reading (n : Nat)
  /-- in the loop that writes records -/
  | emptying
  | stopped
deriving DecidableEq, Repr

/-! ## The network -/

structure Net (D Γ : Type) where
  /-- The records from outside that the collector has not read, and whether there are no more. -/
  inq : List (Rec (Item D) Γ)
  ended : Bool
  /-- How many data records have come from outside. -/
  arrived : Nat
  /-- The sort records that have come from outside. -/
  sorts : List (Int × Int)
  mode : Mode
  collStopped : Bool
  collWrites : List (Rec (Item D) Γ)
  /-- The number of the data record that the collector has read last. -/
  entered : Nat
  intoOp : List (Rec (Item D) Γ)
  opStopped : Bool
  opWrites : List (Rec (Item D) Γ)
  fromOp : List (Rec (Item D) Γ)
  dispStopped : Bool
  dispWrites : List (Port × Rec (Item D) Γ)
  /-- What has been written outwards. -/
  out : List (Rec (Item D) Γ)
  bufIn : List (Rec (Item D) Γ)
  bufPc : BufPc
  /-- `internal_buffer`. -/
  queue : List (Rec (Item D) Γ)
  outCapacity : Nat
  /-- The streams to the collector: the one that the buffer writes to, the last one that it has
  created, and the one that the collector reads. -/
  outstream : StreamId
  created : StreamId
  backstream : StreamId
  streams : StreamId → List (Rec (Item D) Γ)
  capacity : StreamId → Nat

def Net.init : Net D Γ where
  inq := []
  ended := false
  arrived := 0
  sorts := []
  mode := .input
  collStopped := false
  collWrites := []
  entered := 0
  intoOp := []
  opStopped := false
  opWrites := []
  fromOp := []
  dispStopped := false
  dispWrites := []
  out := []
  bufIn := []
  bufPc := .top
  queue := []
  outCapacity := backchanCapacity
  outstream := 0
  created := 0
  backstream := 0
  streams := fun _ => []
  capacity := fun _ => backchanCapacity

inductive Act (D Γ : Type) where
  /-- A record comes from outside. -/
  | data (value : D)
  | sortEnd (level : Nat) (num : Int)
  | sync (input : StreamId) (outtype : Option Γ)
  | terminate (isLocal : Bool)
  | collRead
  | collWrite
  /-- The operand reads a record; `outs` is what it makes of a data record. -/
  | opRead (outs : List D)
  /-- The stream behind the operand is replaced. -/
  | opSync (input : StreamId) (outtype : Option Γ)
  | opWrite
  | dispRead
  | dispWrite
  /-- The buffer goes on. -/
  | buf

namespace Net

def input (n : Net D Γ) (r : Rec (Item D) Γ) : Outcome (Net D Γ) :=
  if n.ended then .blocked else .done { n with inq := n.inq ++ [r] }

def readIn (n : Net D Γ) : Outcome (Net D Γ) :=
  match n.inq with
  | [] => .blocked
  | r :: rs =>
    let n := { n with inq := rs, entered := match r with | .data i => i.origin | _ => n.entered }
    match fbCollReadIn n.mode r with
    | none => .fault
    | some ⟨out, .run mode⟩ => .done { n with collWrites := out, mode := mode }
    | some ⟨out, .replace mode _⟩ => .done { n with collWrites := out, mode := mode }
    | some ⟨out, .stop _⟩ => .done { n with collWrites := out, collStopped := true }

def readFbi (n : Net D Γ) : Outcome (Net D Γ) :=
  match n.streams n.backstream with
  | [] => .blocked
  | r :: rs =>
    let n := { n with streams := Function.update n.streams n.backstream rs }
    match fbCollReadFbi n.mode r with
    | none => .fault
    | some ⟨out, .run mode⟩ => .done { n with collWrites := out, mode := mode }
    | some ⟨out, .replace mode s⟩ => .done { n with collWrites := out, mode := mode, backstream := s }
    | some ⟨out, .stop _⟩ => .done { n with collWrites := out, collStopped := true }

def collRead (n : Net D Γ) : Outcome (Net D Γ) :=
  if n.collStopped = true ∨ n.collWrites ≠ [] then .blocked
  else match n.mode with
  | .input => n.readIn
  | .fb1 => n.readFbi
  | .fb0 => n.readFbi

def collWrite (n : Net D Γ) : Outcome (Net D Γ) :=
  match n.collWrites with
  | [] => .blocked
  | r :: rs => .done { n with collWrites := rs, intoOp := n.intoOp ++ [r] }

def opRead (n : Net D Γ) (outs : List D) : Outcome (Net D Γ) :=
  if n.opStopped = true ∨ n.opWrites ≠ [] then .blocked
  else match n.intoOp with
  | [] => .blocked
  | r :: rs =>
    match operand outs r with
    | none => .fault
    | some (out, stop) => .done { n with intoOp := rs, opWrites := out, opStopped := stop }

def opWrite (n : Net D Γ) : Outcome (Net D Γ) :=
  match n.opWrites with
  | [] => .blocked
  | r :: rs => .done { n with opWrites := rs, fromOp := n.fromOp ++ [r] }

def dispRead (backPatterns guards : List (D → Bool)) (n : Net D Γ) : Outcome (Net D Γ) :=
  if n.dispStopped = true ∨ n.dispWrites ≠ [] then .blocked
  else match n.fromOp with
  | [] => .blocked
  | r :: rs =>
    match feedbackDispTask backPatterns guards r with
    | none => .fault
    | some (out, stop) => .done { n with fromOp := rs, dispWrites := out, dispStopped := stop }

def dispWrite (n : Net D Γ) : Outcome (Net D Γ) :=
  match n.dispWrites with
  | [] => .blocked
  | (.out, r) :: rs => .done { n with dispWrites := rs, out := n.out ++ [r] }
  | (.back, r) :: rs => .done { n with dispWrites := rs, bufIn := n.bufIn ++ [r] }

/-- `FeedbackBufTask` puts a record into its buffer and creates a larger stream if it has to. -/
def put (n : Net D Γ) (r : Rec (Item D) Γ) : Net D Γ :=
  if n.outCapacity ≤ n.queue.length + 1 then
    { n with
      outCapacity := 2 * n.outCapacity
      created := n.created + 1
      capacity := Function.update n.capacity (n.created + 1) (2 * n.outCapacity)
      queue := n.queue ++ [.sync (n.created + 1) none, r] }
  else { n with queue := n.queue ++ [r] }

/-- `FeedbackBufTask` goes on. -/
def buf (n : Net D Γ) : Outcome (Net D Γ) :=
  match n.bufPc with
  | .stopped => .blocked
  | .top =>
    if n.queue.length = 0 then
      match n.bufIn with
      | [] => .blocked
      | .terminate _ :: rs => .done { n with bufIn := rs, bufPc := .stopped }
      | r :: rs => .done { n with bufIn := rs, queue := n.queue ++ [r], bufPc := .reading 1 }
    else
      match n.bufIn with
      | [] => .done { n with bufPc := .reading 0 }
      | .terminate _ :: _ => .fault
      | r :: rs => .done { n with bufIn := rs, queue := n.queue ++ [r], bufPc := .reading 1 }
  | .reading k =>
    if k ≤ backchanCapacity then
      match n.bufIn with
      | [] => .done { n with bufPc := .emptying }
      | r :: rs => .done { (n.put r) with bufIn := rs, bufPc := .reading (k + 1) }
    else .done { n with bufPc := .emptying }
  | .emptying =>
    match n.queue with
    | [] => .done { n with bufPc := .top }
    | r :: rs =>
      -- `SNetStreamTryWrite`
      if (n.streams n.outstream).length < n.capacity n.outstream then
        .done { n with
          streams := Function.update n.streams n.outstream (n.streams n.outstream ++ [r])
          queue := rs
          outstream := (syncTo r).getD n.outstream }
      else .done { n with bufPc := .top }

def step (backPatterns guards : List (D → Bool)) (n : Net D Γ) : Act D Γ → Outcome (Net D Γ)
  | .data value => { n with arrived := n.arrived + 1 }.input (.data ⟨n.arrived + 1, value⟩)
  | .sortEnd level num => { n with sorts := n.sorts ++ [((level : Int), num)] }.input (.sortEnd level num)
  | .sync input outtype => n.input (.sync input outtype)
  | .terminate isLocal =>
    if n.ended then .blocked else .done { n with inq := n.inq ++ [.terminate isLocal], ended := true }
  | .collRead => n.collRead
  | .collWrite => n.collWrite
  | .opRead outs => n.opRead outs
  | .opSync input outtype =>
    if n.opStopped = true ∨ n.opWrites ≠ [] then .blocked
    else .done { n with opWrites := [.sync input outtype] }
  | .opWrite => n.opWrite
  | .dispRead => n.dispRead backPatterns guards
  | .dispWrite => n.dispWrite
  | .buf => n.buf

end Net

end SNet.Stream.Feedback
