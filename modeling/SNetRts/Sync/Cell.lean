import SNetRts.Common.Record
import SNetRts.Stream.Entity

/-!
# Synchrocells

The synchrocell of the stream runtime (`SyncBoxTask` in `stream/entity/syncro.c`) and that of the
front runtime (`SNetNodeSync` in `front/xsync.c`). Both keep one slot per pattern. A slot starts as
the dummy; the record that matches its pattern goes into it, unless the record has gone into the
slot of an earlier pattern already, in which case the slot is set to `NULL`.
-/

namespace SNet.Sync

variable {V : Type}

/-- A storage slot: unmatched, matched by a record that is kept elsewhere, or the record. -/
inductive Slot (V : Type) where
  | dummy
  | null
  | stored (rec : Record V)
deriving DecidableEq

namespace Slot

def isDummy : Slot V → Bool
  | .dummy => true
  | _ => false

def map (f : Record V → Record V) : Slot V → Slot V
  | .stored rec => .stored (f rec)
  | s => s

end Slot

/-- The loop over patterns and storage: the new storage and `new_matches`, which starts at
`found`. -/
def matchPatterns (rec : Record V) : List (Pattern V) → List (Slot V) → Nat → List (Slot V) × Nat
  | p :: ps, s :: ss, found =>
    if s.isDummy && p.accepts rec then
      let r := matchPatterns rec ps ss (found + 1)
      ((if found = 0 then .stored rec else .null) :: r.1, r.2)
    else
      let r := matchPatterns rec ps ss found
      (s :: r.1, r.2)
  | _, ss, found => (ss, found)

/-- What the record in a slot contributes to the merged record: the fields and tags its pattern
names. -/
def mergeRecord (pattern : Variant) (rec result : Record V) : Record V :=
  { result with
    fields := rec.fields.copyWhere pattern.hasField result.fields
    tags := rec.tags.copyWhere pattern.hasTag result.tags }

/-- The loop of `MergeFromStorage`; the dummy is no record that could be read. -/
def mergeSlots : List (Pattern V) → List (Slot V) → Record V → Option (Record V)
  | p :: ps, s :: ss, result =>
    match s with
    | .dummy => none
    | .null => mergeSlots ps ss result
    | .stored rec => mergeSlots ps ss (mergeRecord p.variant rec result)
  | _, _, result => some result

/-- `GetMergedTypeVariant`. -/
def getMergedTypeVariant (patterns : List (Pattern V)) : Variant :=
  patterns.foldl (fun res p => res.addAll p.variant) .createEmpty

/-! ## The stream runtime -/

/-- `MergeFromStorage` of `syncro.c`: a copy of the first record, and the slots after it. -/
def mergeFromStorage (storage : List (Slot V)) (patterns : List (Pattern V)) : Option (Record V) :=
  match storage with
  | .stored rec :: ss => mergeSlots patterns.tail ss rec
  | _ => none

/-- The locals of `SyncBoxTask`. -/
structure SyncBox (V : Type) where
  input : Stream.StreamId
  storage : List (Slot V)
  matchCnt : Nat
  partialSync : Bool

/-- `sync_arg_t`; `fromStar` tells whether the input stream has a source, which streams written
by a star have. -/
structure SyncArg (V : Type) where
  patterns : List (Pattern V)
  input : Stream.StreamId
  fromStar : Bool

def SyncBox.init (arg : SyncArg V) : SyncBox V :=
  ⟨arg.input, arg.patterns.map fun _ => .dummy, 0, false⟩

/-- The main loop of `SyncBoxTask` for one record. -/
def syncBoxTask (arg : SyncArg V) (st : SyncBox V) :
    Stream.Rec (Record V) Variant → Option (Stream.Reaction (SyncBox V) (Record V) Variant)
  | .data rec =>
    let (storage, newMatches) := matchPatterns rec arg.patterns st.storage 0
    let matchCnt := st.matchCnt + newMatches
    if newMatches = 0 then
      some ⟨[.data rec], .run { st with storage, matchCnt }⟩
    else if matchCnt = arg.patterns.length then
      match mergeFromStorage storage arg.patterns with
      | none => none
      | some syncrec =>
        let outtype := if arg.fromStar then some (getMergedTypeVariant arg.patterns) else none
        some ⟨[.data syncrec, .sync st.input outtype], .stop false⟩
    else
      some ⟨[], .run { st with storage, matchCnt, partialSync := true }⟩
  | .sync input _ => some ⟨[], .replace { st with input } input⟩
  | .sortEnd level num => some ⟨[.sortEnd level num], .run st⟩
  | .terminate isLocal => some ⟨[.terminate isLocal], .stop true⟩
  | .collect _ => none

/-! ## The front runtime -/

/-- `MergeFromStorage` of `xsync.c`: the first record itself, and the slots once the first is set
to `NULL`. -/
def mergeFromStorageFront (storage : List (Slot V)) (patterns : List (Pattern V)) :
    Option (Record V) :=
  match storage with
  | .stored rec :: ss => mergeSlots patterns (.null :: ss) rec
  | _ => none

inductive SyncState where
  | initial
  | partialSync
  | complete
deriving DecidableEq, Repr

/-- `landing_sync_t`. -/
structure SyncLanding (V : Type) where
  storage : List (Slot V)
  matchCount : Nat
  state : SyncState

def SyncLanding.init (patterns : List (Pattern V)) : SyncLanding V :=
  ⟨patterns.map fun _ => .dummy, 0, .initial⟩

/-- What `SNetNodeSync` does: it writes a record or a sync record, or gives up the detrefs of a
record that stays in the cell. -/
inductive Effect (V : Type) where
  | write (rec : Record V)
  | writeSync (outtype : Variant)
  | detrefDestroy (detref : Option (List DetrefId))
deriving DecidableEq

/-- `SNetNodeSyncData`. -/
def nodeSyncData (patterns : List (Pattern V)) (land : SyncLanding V) (rec : Record V) :
    Option (SyncLanding V × List (Effect V)) :=
  let (storage, newMatches) := matchPatterns rec patterns land.storage 0
  let matchCount := land.matchCount + newMatches
  if newMatches = 0 then
    some ({ land with storage, matchCount }, [.write rec])
  else if matchCount = patterns.length then
    match mergeFromStorageFront storage patterns with
    | none => none
    | some recOut =>
      -- the detrefs of the record that has come in go to the merged one
      some (⟨patterns.map fun _ => .dummy, matchCount, .complete⟩,
        [.write { recOut with detref := rec.detref }])
  else
    -- the cell holds a pointer to `rec`, so the stored record loses its detrefs as well
    some (⟨storage.map (Slot.map Record.dropDetref), matchCount, .partialSync⟩,
      [.detrefDestroy rec.detref])

/-- `SNetNodeSync` for a data record. `tellsType` stands for the tests that decide whether the
completed cell writes a sync record: garbage collection is on, the input comes from a star and the
next landing is a parallel dispatcher or an identity. -/
def nodeSync (patterns : List (Pattern V)) (tellsType : Bool) (land : SyncLanding V)
    (rec : Record V) : Option (SyncLanding V × List (Effect V)) :=
  if land.state = .complete then
    some (land, [.write rec])
  else
    match nodeSyncData patterns land rec with
    | none => none
    | some (land, out) =>
      if land.state = .complete && tellsType then
        some (land, out ++ [.writeSync (getMergedTypeVariant patterns)])
      else
        some (land, out)

def nodeSyncAll (patterns : List (Pattern V)) (tellsType : Bool) :
    SyncLanding V → List (Record V) → Option (SyncLanding V × List (Effect V))
  | land, [] => some (land, [])
  | land, rec :: recs =>
    match nodeSync patterns tellsType land rec with
    | none => none
    | some (land, out) => (nodeSyncAll patterns tellsType land recs).map fun x => (x.1, out ++ x.2)

end SNet.Sync
