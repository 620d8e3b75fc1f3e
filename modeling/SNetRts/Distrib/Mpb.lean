import SNetRts.Lib.Circular
import SNetRts.Lib.Run
import Mathlib.Logic.Function.Basic
import Mathlib.Algebra.Group.Nat.Defs

/-!
# The message passing buffer

The buffer of one node, `distrib/scc/scc.h`: a circular buffer of `B` bytes with the positions `START`
and `END`, the flag `WRITING`, and a lock. Writers put messages into it piece by piece, between
`start_write_node` and `stop_write_node` (`distrib/scc/transmit.c`); the reader takes out a message at a
time and knows from the pieces it has read how long the next one is (`want`).

A step is what a thread does between two of its calls of these functions, turns of the loop in
`cpy_mem_to_mpb`, or operations on the lock. `HANDLING` and the interrupts are left out: the reader may
look at any time.
-/

namespace SNet.Distrib.Mpb

open Lib

variable {W β : Type} [DecidableEq W]

inductive Thread (W : Type) where
  | writer (w : W)
  | reader
deriving DecidableEq

/-- Where a writer is. -/
inductive Writer (β : Type) where
  | idle
  /-- in `start_write_node` -/
  | waiting (msg : List (List β))
  /-- It has written `done`, `piece` is what is left of the piece at hand, `rest` are the other pieces. -/
  | sending (msg : List (List β)) (done piece : List β) (rest : List (List β))

inductive Reader (β : Type) where
  | away
  /-- It has read these pieces of a message. -/
  | reading (got : List (List β))

structure State (W β : Type) where
  /-- The bytes from `B_START` on. -/
  mem : Nat → β
  START : Nat
  END : Nat
  WRITING : Bool
  /-- Who has the lock. -/
  owner : Option (Thread W)
  writer : W → Writer β
  reader : Reader β
  /-- All bytes that have been put into the buffer. -/
  written : List β
  /-- All bytes that the reader has copied from it. -/
  read : List β
  /-- The messages that have been written to their end, without those of no bytes. -/
  sent : List (List (List β))
  /-- The messages that have been read to their end. -/
  received : List (List (List β))

def State.init (mem : Nat → β) : State W β :=
  ⟨mem, 0, 0, false, none, fun _ => .idle, .away, [], [], [], []⟩

/-- An int that is stored as `uint16_t`. -/
def uint16 (n : Nat) : Nat := n % 2 ^ 16

/-- The loop of `cpy_mpb_to_mem`: the bytes and the position behind them. Every turn copies something
as long as `start` is in the buffer. -/
def cpyLoop (B : Nat) (mem : Nat → β) (stop : Nat) : Nat → Nat → Nat → List β × Nat
  | 0, start, _ => ([], start)
  | fuel + 1, start, size =>
    if size = 0 then ([], start)
    else
      let cpy := if stop < start then min size (B - start) else size
      let (xs, start') := cpyLoop B mem stop fuel ((start + cpy) % B) (size - cpy)
      (Circular.fetch mem start cpy ++ xs, start')

namespace State

variable (s : State W β)

/-- A turn of the loop in `start_write_node`. -/
def startWriteNode (w : W) : Outcome (State W β) :=
  match s.writer w, s.owner with
  | .waiting msg, none =>
    if s.WRITING then .done s
    else
      .done { s with
        owner := some (.writer w)
        writer := Function.update s.writer w (.sending msg [] [] msg) }
  | _, _ => .blocked

/-- A turn of the loop in `cpy_mem_to_mpb`, with `piece` left to copy. -/
def cpyMemToMpb (B : Nat) (w : W) (msg : List (List β)) (done piece : List β) (rest : List (List β)) :
    State W β :=
  let free := min (Circular.free B s.START s.END) piece.length
  if free = 0 then { s with owner := none }
  else
    { s with
      mem := Circular.store s.mem s.END (piece.take free)
      END := uint16 ((s.END + free) % B)
      WRITING := false
      writer := Function.update s.writer w (.sending msg (done ++ piece.take free) (piece.drop free) rest)
      written := s.written ++ piece.take free }

/-- What a writer with the lock does: it goes on with its piece, begins the next one, or is at
`stop_write_node`. -/
def write (B : Nat) (w : W) : Outcome (State W β) :=
  match s.writer w, s.owner with
  | .sending msg done piece rest, some (.writer w') =>
    if w' = w then
      match piece, rest with
      | b :: piece, rest => .done (s.cpyMemToMpb B w msg done (b :: piece) rest)
      | [], piece :: rest =>
        if B ≤ piece.length then .fault
        else
          .done { s with
            WRITING := true
            writer := Function.update s.writer w (.sending msg done piece rest) }
      | [], [] =>
        .done { s with
          owner := none
          writer := Function.update s.writer w .idle
          sent := if done.isEmpty then s.sent else s.sent ++ [msg] }
    else .blocked
  | _, _ => .blocked

def relock (w : W) : Outcome (State W β) :=
  match s.writer w, s.owner with
  | .sending .., none => .done { s with owner := some (.writer w) }
  | _, _ => .blocked

def startRead : Outcome (State W β) :=
  match s.reader, s.owner with
  | .away, none =>
    if s.START = s.END then .done s
    else .done { s with owner := some .reader, reader := .reading [] }
  | _, _ => .blocked

/-- The reader reads the next piece with `cpy_mpb_to_mem`, or is done with the message. -/
def cpyMpbToMem (B : Nat) (want : List (List β) → Option Nat) : Outcome (State W β) :=
  match s.reader with
  | .away => .blocked
  | .reading got =>
    match want got with
    | none => .done { s with owner := none, reader := .away, received := s.received ++ [got] }
    | some size =>
      let (xs, start) := cpyLoop B s.mem s.END size s.START size
      .done { s with START := uint16 start, reader := .reading (got ++ [xs]), read := s.read ++ xs }

end State

inductive Act (W β : Type) where
  /-- A writer wants to send a message. -/
  | send (w : W) (msg : List (List β))
  | startWrite (w : W)
  | write (w : W)
  | relock (w : W)
  | startRead
  | read

def step (B : Nat) (want : List (List β) → Option Nat) (s : State W β) : Act W β → Outcome (State W β)
  | .send w msg =>
    match s.writer w with
    | .idle => .done { s with writer := Function.update s.writer w (.waiting msg) }
    | _ => .blocked
  | .startWrite w => s.startWriteNode w
  | .write w => s.write B w
  | .relock w => s.relock w
  | .startRead => s.startRead
  | .read => s.cpyMpbToMem B want

end SNet.Distrib.Mpb
