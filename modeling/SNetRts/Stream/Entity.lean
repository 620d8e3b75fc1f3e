import Mathlib.Logic.Basic

/-!
# Entities of the stream runtime

The records that travel on the streams of `src/runtime/stream`, with data of any type, and what an
entity does with the record it has read. An entity reads one input stream; it may write records,
continue on another input stream that a sync record has handed to it (`SNetStreamReplace`), or
terminate.
-/

namespace SNet.Stream

abbrev StreamId := Nat

/-- The records of the stream runtime; `Γ` is the type of a sync record's outtype. -/
inductive Rec (D Γ : Type) where
  | data (d : D)
  | sync (input : StreamId) (outtype : Option Γ)
  | collect (output : StreamId)
  | sortEnd (level num : Int)
  | terminate (isLocal : Bool)
deriving DecidableEq, Repr

/-- How an entity goes on after a record. -/
inductive Next (σ : Type) where
  /-- It reads on. -/
  | run (s : σ)
  /-- It reads on from another stream. -/
  | replace (s : σ) (input : StreamId)
  /-- It terminates; `destroy` tells whether it destroys its input stream. -/
  | stop (destroy : Bool)
deriving DecidableEq, Repr

/-- What an entity writes for a record and how it goes on. -/
structure Reaction (σ D Γ : Type) where
  out : List (Rec D Γ)
  next : Next σ
deriving DecidableEq, Repr

variable {σ D Γ : Type}

/-- Runs an entity on the contents of its input stream: what it has written, the state it waits in
(`none` once it has terminated) and what it has left unread. A failed assertion yields `none`. -/
def runEntity (step : σ → Rec D Γ → Option (Reaction σ D Γ)) :
    σ → List (Rec D Γ) → Option (List (Rec D Γ) × Option σ × List (Rec D Γ))
  | s, [] => some ([], some s, [])
  | s, r :: rs =>
    match step s r with
    | none => none
    | some ⟨out, .run s'⟩ => (runEntity step s' rs).map fun x => (out ++ x.1, x.2)
    | some ⟨out, .replace s' _⟩ => some (out, some s', rs)
    | some ⟨out, .stop _⟩ => some (out, none, rs)

end SNet.Stream
