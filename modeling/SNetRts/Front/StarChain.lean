import SNetRts.Front.Det

/-!
# The chain of landings of a star

A star of the front runtime unrolls into landings of its node, with instances of its operand between
them (`front/xstar.c`). The first landing is the leader: it gives the records that enter the star
their detrefs. A landing whose instance has dissolved, so that its next landing is the next
incarnation, becomes an identity, and sends its leadership on behind the record it has just written
(`REC_star_leader`). The stream to an identity may be merged with the one that follows
(`SNetMergeStreams`).

An instance is a line of components that keep the detrefs of the records they get: they may absorb
them, copy and reorder them, and dissolve. Landings work one record at a time, and each write is a
step of its own.
-/

namespace SNet.Front.Star

open Lib

/-- A data record: the how manyth to enter the star, the sequence number of its topmost detref at
that time, and the sequence numbers of the detrefs it has been given for the star's collector. -/
structure Datum where
  id : Nat
  outer : Option Int
  nums : List Int
deriving DecidableEq

inductive Item where
  | data (d : Datum)
  | starLeader (enter : DetEnter)
  | detref
  | sync
deriving DecidableEq

/-- What a landing is. -/
inductive Kind where
  | star (leader : Bool) (enter : DetEnter)
  /-- A component of an instance, with the records it has got. -/
  | operand (seen : List Datum)
  | identity
deriving DecidableEq

/-- A landing with the stream to it. -/
structure Stage where
  kind : Kind
  fifo : List Item
  /-- The records that are to be written before the landing takes another one. -/
  hand : List Item
deriving DecidableEq

/-- The landings from the entrance of the star on. -/
structure Chain where
  stages : List Stage
  /-- How many data records have entered. -/
  entered : Nat
  /-- The sequence numbers given out, and to which record. -/
  log : List (Nat × Int)
  /-- What has been written to the collector. -/
  collected : List Item

def Kind.isStar : Kind → Bool
  | .star _ _ => true
  | _ => false

def Stage.push (s : Stage) (x : Item) : Stage := { s with fifo := s.fifo ++ [x] }

/-- What a step does outside of the chain. -/
structure Effect where
  given : List (Nat × Int)
  collected : List Item

def Effect.none : Effect := ⟨[], []⟩

def take (isDet : Bool) (s : Stage) : Outcome (Stage × Effect) :=
  match s.hand, s.fifo with
  | [], x :: fifo =>
    match s.kind, x with
    | .star true e, .data d =>
      match detEnter isDet e d.outer with
      | some e' =>
        .done (⟨.star true e', fifo, [.data { d with nums := d.nums ++ [e'.counter] }]⟩,
          ⟨[(d.id, e'.counter)], []⟩)
      | none => .fault
    | .star _ _, .starLeader e => .done (⟨.star true e, fifo, []⟩, .none)
    | .star _ _, .sync => .done (⟨s.kind, fifo, []⟩, .none)
    | .star _ _, x => .done (⟨s.kind, fifo, [x]⟩, .none)
    | .operand seen, .data d => .done (⟨.operand (seen ++ [d]), fifo, []⟩, .none)
    | .operand _, .starLeader _ => .fault
    | .operand _, x => .done (⟨s.kind, fifo, [x]⟩, .none)
    | .identity, x => .done (⟨s.kind, fifo, [x]⟩, .none)
  | _, _ => .blocked

/-- A new instance, of `more + 1` components, and the landing of the next incarnation. -/
def opened (x : Item) (more : Nat) : List Stage :=
  ⟨.operand [], [x], []⟩ :: (List.replicate more ⟨.operand [], [], []⟩ ++
    [⟨.star false ⟨0, 0⟩, [], []⟩])

/-- The landing writes the next record that it has in hand; `rest` are the landings behind. A star
writes a data record to the collector (`exits`), or to its instance: then it may have to open it, or
it may be superfluous. -/
def write (exits : Bool) (more : Nat) (s : Stage) (rest : List Stage) :
    Outcome (List Stage × Effect) :=
  match s.hand with
  | [] => .blocked
  | x :: hand =>
    match s.kind, x with
    | .star leader e, .data _ =>
      if exits then .done ({ s with hand := hand } :: rest, ⟨[], [x]⟩)
      else
        match rest with
        | [] => .done ({ s with hand := hand } :: opened x more, .none)
        | next :: rest =>
          if next.kind.isStar then
            .done (⟨.identity, s.fifo, hand ++ if leader then [.starLeader e] else []⟩ ::
              next.push x :: rest, .none)
          else .done ({ s with hand := hand } :: next.push x :: rest, .none)
    | .star _ _, x => .done ({ s with hand := hand } :: rest, ⟨[], [x]⟩)
    | _, x =>
      match rest with
      | [] => .fault
      | next :: rest => .done ({ s with hand := hand } :: next.push x :: rest, .none)

/-- What a landing may do. -/
inductive Local where
  | take
  | write (exits : Bool) (more : Nat)
  /-- A component of an instance has records to write that it has got before. -/
  | emit (outs : List Datum)
  /-- A component of an instance becomes an identity. -/
  | dissolve
  /-- The streams to and from an identity are merged. -/
  | merge

/-- The step of the landing `s` with the landings `rest` behind. -/
def localStep (isDet : Bool) (a : Local) (s : Stage) (rest : List Stage) :
    Outcome (List Stage × Effect) :=
  match a with
  | .take => (take isDet s).bind fun (s, e) => .done (s :: rest, e)
  | .write exits more => write exits more s rest
  | .emit outs =>
    match s.kind with
    | .operand seen =>
      if ∀ d ∈ outs, d ∈ seen then .done ({ s with hand := s.hand ++ outs.map .data } :: rest, .none)
      else .blocked
    | _ => .blocked
  | .dissolve =>
    match s.kind with
    | .operand _ => .done ({ s with kind := .identity } :: rest, .none)
    | _ => .blocked
  | .merge =>
    match s.kind, s.hand, rest with
    | .identity, [], next :: rest => .done ({ next with fifo := next.fifo ++ s.fifo } :: rest, .none)
    | _, _, _ => .blocked

/-- The step of the `k`-th landing. -/
def stepAt (isDet : Bool) (a : Local) : Nat → List Stage → Outcome (List Stage × Effect)
  | _, [] => .blocked
  | 0, s :: rest => localStep isDet a s rest
  | k + 1, s :: rest => (stepAt isDet a k rest).bind fun (rest, e) => .done (s :: rest, e)

inductive Act where
  /-- A data record enters. -/
  | enter (outer : Option Int)
  | enterDetref
  | enterSync
  | land (k : Nat) (a : Local)

def pushFirst (x : Item) : List Stage → List Stage
  | [] => []
  | s :: rest => s.push x :: rest

def Chain.step (isDet : Bool) (c : Chain) : Act → Outcome Chain
  | .enter outer => .done { c with
      stages := pushFirst (.data ⟨c.entered + 1, outer, []⟩) c.stages
      entered := c.entered + 1 }
  | .enterDetref => .done { c with stages := pushFirst .detref c.stages }
  | .enterSync => .done { c with stages := pushFirst .sync c.stages }
  | .land k a => (stepAt isDet a k c.stages).bind fun (stages, e) =>
    .done { c with stages := stages, log := c.log ++ e.given, collected := c.collected ++ e.collected }

def Chain.init : Chain := ⟨[⟨.star true ⟨0, 0⟩, [], []⟩], 0, [], []⟩

end SNet.Front.Star
