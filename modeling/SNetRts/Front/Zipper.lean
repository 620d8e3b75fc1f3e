import SNetRts.Lib.Run
import SNetRts.Sync.Cell
import Mathlib.Data.Finset.Basic
import Mathlib.Data.Finset.Range
import Mathlib.Logic.Function.Iterate

/-!
# The fused star of synchrocells

`SNetNodeZipper` (`front/xzipper.c`) stands for a star whose operand is a synchrocell. Its cells,
the matchings, are nodes of a heap: `next` links the cells in the order of the star's incarnations,
except that a cell whose unmatched patterns are those of the cell in front of it hangs on the
`same` list of that cell, whose `tail` is the last on the list. Masks are sets of pattern indices.

The star itself is `Chain`: exit tests (`SNetNodeStar` in `front/xstar.c`) alternating with
synchrocells (`SNetNodeSync` in `front/xsync.c`), through which one record moves at a time. The
exits of the incarnations share a collector, so the order of the records that leave is that of
their leaving only when a record enters after the one before it has come to rest.
-/

namespace SNet.Zipper

open Lib SNet.Sync

variable {V : Type}

/-- `MatchExitPatterns`, and `MatchesExitPattern` of the star. -/
def matchExitPatterns (exits : List (Pattern V)) (rec : Record V) : Bool :=
  exits.any fun p => p.accepts rec

/-! ## The star of synchrocells -/

/-- The star: the cells of the incarnations that the record has passed, those in front of it, the
record while it moves, which is then about to be tested for exit, and what has left the star. -/
structure Chain (V : Type) where
  passed : List (SyncLanding V)
  rest : List (SyncLanding V)
  moving : Option (Record V)
  out : List (Effect V)

/-- The exit test of an incarnation, and the cell behind it if the record stays. An incarnation is
created for the first record that gets there. A cell that has fired has become an identity, and the
star in front of it with it. Detref notifications go from the next star to the collector. -/
def Chain.step (patterns exits : List (Pattern V)) (c : Chain V) : Chain V :=
  match c.moving with
  | none => c
  | some rec =>
    if matchExitPatterns exits rec then
      { c with moving := none, out := c.out ++ [.write rec] }
    else
      let cell := c.rest.headD (SyncLanding.init patterns)
      match nodeSync patterns false cell rec with
      | none => c
      | some (cell', [.write rec']) =>
        { c with
          passed := if cell'.state = .complete then c.passed else c.passed ++ [cell']
          rest := c.rest.tail
          moving := some rec' }
      | some (cell', out) =>
        { c with rest := cell' :: c.rest.tail, moving := none, out := c.out ++ out }

def Chain.enter (cells : List (SyncLanding V)) (rec : Record V) : Chain V :=
  ⟨[], cells, some rec, []⟩

/-- From the given cells the records come to rest one after the other, and leave the star with
`cells'` and `out`. -/
inductive Settles (patterns exits : List (Pattern V)) :
    List (SyncLanding V) → List (Record V) → List (SyncLanding V) → List (Effect V) → Prop
  | nil (cells : List (SyncLanding V)) : Settles patterns exits cells [] cells []
  | cons {cells cells' : List (SyncLanding V)} {rec : Record V} {recs : List (Record V)}
      {out : List (Effect V)} {c : Chain V} (n : Nat)
      (hc : (Chain.step patterns exits)^[n] (Chain.enter cells rec) = c) (hrest : c.moving = none)
      (h : Settles patterns exits (c.passed ++ c.rest) recs cells' out) :
      Settles patterns exits cells (rec :: recs) cells' (c.out ++ out)

/-! ## Matchings -/

abbrev Addr := Nat

/-- `matching_t`; the slots of `unmatched` patterns are not initialised. -/
structure Matching (V : Type) where
  next : Option Addr
  same : Option Addr
  tail : Option Addr
  unmatched : Finset Nat
  storage : List (Slot V)

abbrev Heap (V : Type) := Addr → Option (Matching V)

/-- `landing_zipper_t` with the matchings it has allocated; `fresh` is the next unused address. -/
structure Landing (V : Type) where
  heap : Heap V
  fresh : Addr
  head : Option Addr

def Landing.init : Landing V := ⟨fun _ => none, 0, none⟩

/-- `NewMatching`. -/
def newMatching (patterns : List (Pattern V)) : Matching V :=
  ⟨none, none, none, Finset.range patterns.length, patterns.map fun _ => .dummy⟩

namespace Landing

def set (land : Landing V) (a : Addr) (m : Matching V) : Landing V :=
  { land with heap := Function.update land.heap a (some m) }

/-- `NewMatching` as an allocation. -/
def alloc (patterns : List (Pattern V)) (land : Landing V) : Landing V :=
  { land with
    heap := Function.update land.heap land.fresh (some (newMatching patterns))
    fresh := land.fresh + 1 }

/-- `SNetDelete`. -/
def delete (land : Landing V) (a : Addr) : Landing V :=
  { land with heap := Function.update land.heap a none }

/-- A matching that leads a `same` list hands the list over to its second cell, which becomes its
successor. -/
def splitSame (land : Landing V) (a : Addr) : Option (Landing V) :=
  match land.heap a with
  | none => none
  | some m =>
    match m.same with
    | none => some land
    | some s =>
      match land.heap s with
      | none => none
      | some n =>
        if n.next = none ∧ n.tail = none then
          some ((land.set s { n with next := m.next, tail := m.tail }).set a
            { m with next := some s, same := none, tail := none })
        else none

/-- A matching joins the `same` list of its predecessor if both lack the same patterns. -/
def joinPrev (land : Landing V) (prev : Option Addr) (a : Addr) : Option (Landing V) :=
  match prev with
  | none => some land
  | some p =>
    match land.heap p, land.heap a with
    | some l, some m =>
      if l.unmatched = m.unmatched then
        let land := (land.set p { l with next := m.next }).set a { m with next := none }
        match l.tail with
        | some t =>
          -- `prev->tail` may be `prev` itself, so the first write goes before the second is read
          match land.heap t with
          | none => none
          | some n =>
            let land := land.set t { n with same := some a }
            match land.heap p with
            | none => none
            | some l =>
              if m.same = none ∧ m.tail = none then some (land.set p { l with tail := some a })
              else none
        | none =>
          if l.same = none then
            some (land.set p { l with next := m.next, same := some a, tail := some a })
          else none
      else some land
    | _, _ => none

def unlink (land : Landing V) (prev : Option Addr) (a : Addr) : Option (Landing V) :=
  match land.heap a with
  | none => none
  | some m =>
    match prev with
    | none => some ({ land with head := m.next }.delete a)
    | some p =>
      match land.heap p with
      | none => none
      | some l => some ((land.set p { l with next := m.next }).delete a)

end Landing

/-! ## The loop of `SNetNodeZipperData` -/

/-- `untested`, `match->unmatched`, `match->storage` from the current pattern on, and
`new_matches`. -/
structure Tested (V : Type) where
  untested : Finset Nat
  unmatched : Finset Nat
  storage : List (Slot V)
  newMatches : Nat

/-- The loop over the patterns, at pattern `i`. -/
def testPatterns (rec : Record V) :
    Nat → List (Pattern V) → List (Slot V) → Finset Nat → Finset Nat → Nat → Tested V
  | i, p :: ps, s :: ss, untested, unmatched, found =>
    if i ∈ untested ∧ i ∈ unmatched then
      if p.accepts rec then
        let s' := if found = 0 then Slot.stored rec else .null
        if unmatched.erase i = ∅ then
          ⟨untested.erase i, unmatched.erase i, s' :: ss, found + 1⟩
        else
          let t := testPatterns rec (i + 1) ps ss (untested.erase i) (unmatched.erase i) (found + 1)
          { t with storage := s' :: t.storage }
      else
        let t := testPatterns rec (i + 1) ps ss (untested.erase i) unmatched found
        { t with storage := s :: t.storage }
    else
      let t := testPatterns rec (i + 1) ps ss untested unmatched found
      { t with storage := s :: t.storage }
  | _, _, ss, untested, unmatched, found => ⟨untested, unmatched, ss, found⟩

/-- `MergeFromStorage` of `xzipper.c`: that of a synchrocell, and the detrefs of the record that has
come in. -/
def mergeFromStorage (patterns : List (Pattern V)) (storage : List (Slot V)) (rec : Record V) :
    Option (Record V) :=
  (mergeFromStorageFront storage patterns).map fun result => { result with detref := rec.detref }

/-- The locals of `SNetNodeZipperData` at the head of its loop; `matching` is its `match`. -/
structure Loop (V : Type) where
  land : Landing V
  record : Record V
  matching : Addr
  prev : Option Addr
  untested : Finset Nat

/-- One way or the other out of the loop body: the next iteration, a return, or a failed assertion
or bad pointer. -/
inductive Flow (V : Type) where
  | next (st : Loop V)
  | ret (land : Landing V) (out : List (Effect V))
  | fault

variable (patterns exits : List (Pattern V))

/-- The end of the loop body, which moves on from `m`. -/
def advance (land : Landing V) (rec : Record V) (m : Option Addr) (untested : Finset Nat) : Flow V :=
  match m with
  | none =>
    if land.head = none then
      let a := land.fresh
      .next ⟨{ land.alloc patterns with head := some a }, rec, a, none, untested⟩
    else .fault
  | some p =>
    match land.heap p with
    | none => .fault
    | some l =>
      match l.next with
      | some a => .next ⟨land, rec, a, some p, untested⟩
      | none =>
        let a := land.fresh
        if l.unmatched = (newMatching patterns).unmatched then .fault
        else .next ⟨(land.alloc patterns).set p { l with next := some a }, rec, a, some p, untested⟩

/-- What follows the tests when the record has matched: `m` is the matching as it was, `t` the
outcome of the tests. -/
def matched (st : Loop V) (m : Matching V) (t : Tested V) : Flow V :=
  let land := st.land.set st.matching { m with unmatched := t.unmatched, storage := t.storage }
  match land.splitSame st.matching with
  | none => .fault
  | some land =>
    if t.unmatched ≠ ∅ then
      -- `rec` is in the storage, so the stored record loses its detrefs
      match land.heap st.matching with
      | none => .fault
      | some m =>
        let storage := t.storage.map (Slot.map Record.dropDetref)
        match (land.set st.matching { m with storage }).joinPrev st.prev st.matching with
        | none => .fault
        | some land => .ret land [.detrefDestroy st.record.detref]
    else
      match mergeFromStorage patterns t.storage st.record with
      | none => .fault
      | some rec =>
        match land.unlink st.prev st.matching with
        | none => .fault
        | some land =>
          if matchExitPatterns exits rec then .ret land [.write rec]
          else advance patterns land rec st.prev (Finset.range patterns.length)

/-- The loop body; the loop ends when every pattern has been tested, and the record is
destroyed. -/
def body (st : Loop V) : Flow V :=
  if st.untested = ∅ then .ret st.land []
  else
    match st.land.heap st.matching with
    | none => .fault
    | some m =>
      if st.untested ∩ m.unmatched = ∅ then
        advance patterns st.land st.record (some st.matching) st.untested
      else
        let t := testPatterns st.record 0 patterns m.storage st.untested m.unmatched 0
        if t.newMatches = 0 then
          advance patterns st.land st.record (some st.matching) t.untested
        else
          matched patterns exits st m t

def enter (land : Landing V) (rec : Record V) : Loop V :=
  match land.head with
  | some a => ⟨land, rec, a, none, Finset.range patterns.length⟩
  | none =>
    let a := land.fresh
    ⟨{ land.alloc patterns with head := some a }, rec, a, none, Finset.range patterns.length⟩

/-- At most `fuel` iterations; `blocked` where these are not enough. -/
def loop : Nat → Loop V → Outcome (Landing V × List (Effect V))
  | 0, _ => .blocked
  | fuel + 1, st =>
    match body patterns exits st with
    | .next st' => loop fuel st'
    | .ret land out => .done (land, out)
    | .fault => .fault

/-- `SNetNodeZipper` for a data record, with at most `fuel` iterations of
`SNetNodeZipperData`. -/
def nodeZipper (fuel : Nat) (land : Landing V) (rec : Record V) :
    Outcome (Landing V × List (Effect V)) :=
  if matchExitPatterns exits rec then .done (land, [.write rec])
  else loop patterns exits fuel (enter patterns land rec)

def zipperAll (fuel : Nat) : Landing V → List (Record V) → Outcome (Landing V × List (Effect V))
  | land, [] => .done (land, [])
  | land, rec :: recs =>
    match nodeZipper patterns exits fuel land rec with
    | .blocked => .blocked
    | .fault => .fault
    | .done (land, out) =>
      match zipperAll fuel land recs with
      | .done (land, out') => .done (land, out ++ out')
      | o => o

/-! ## What a landing holds -/

/-- The inner loop of `SNetNodeZipperTerminate`: the cells of a `same` list. -/
inductive SameWalk (heap : Heap V) : Option Addr → List Addr → Prop
  | nil : SameWalk heap none []
  | cons {a : Addr} {m : Matching V} {as : List Addr} (h : heap a = some m)
      (hs : SameWalk heap m.same as) : SameWalk heap (some a) (a :: as)

/-- The cells that `SNetNodeZipperTerminate` visits, in this order. -/
inductive Walk (heap : Heap V) : Option Addr → List Addr → Prop
  | nil : Walk heap none []
  | cons {a : Addr} {m : Matching V} {as bs : List Addr} (h : heap a = some m)
      (hs : SameWalk heap (some a) as) (hw : Walk heap m.next bs) : Walk heap (some a) (as ++ bs)

/-- The matching stands for the synchrocell: it stores the same records, and the patterns it lacks
are those the cell lacks. -/
structure SameCell (m : Matching V) (c : SyncLanding V) : Prop where
  storage : m.storage = c.storage
  unmatched : ∀ i, i ∈ m.unmatched ↔ c.storage[i]? = some .dummy

/-- The landing holds the given cells in the given order: the walk from `land->head` visits them,
and there is no other live matching. -/
structure Holds (land : Landing V) (cells : List (SyncLanding V)) : Prop where
  visits : ∃ as, Walk land.heap land.head as ∧ (∀ a, land.heap a ≠ none → a ∈ as) ∧
    List.Forall₂ (fun a c => ∃ m, land.heap a = some m ∧ SameCell m c) as cells

end SNet.Zipper
