import SNetRts.Lib.Codec
import Mathlib.Data.List.Basic
import Mathlib.Algebra.Group.Nat.Defs

/-!
# Records on the wire

`SNetRecSerialise` and `SNetRecDeserialise` (`runtime/common/record.c`), the serialisation of maps
(`map-template.c`) and of references (`distrib/common/reference.c`), and the packing of destinations
(`distrib/mpi/transmit.c`). `MPI_Pack` and `MPI_Unpack` are a codec for ints and one for bytes.

What a data record loses on the way is its data mode: the interface number is unpacked into it.
-/

namespace SNet.Wire

open Lib List

/-- A C `int`. -/
abbrev CInt := BitVec 32

/-- What `MPI_Pack` writes and `MPI_Unpack` reads, for `MPI_INT` and `MPI_BYTE`; `β` is a unit of the
buffer. -/
structure Mpi (β : Type) where
  int : Codec β CInt
  byte : Codec β (BitVec 8)

/-- A map as its arrays; `used` is an int. -/
structure Map (α : Type) where
  entries : List (CInt × α)
  fits : entries.length < 2 ^ 31
deriving DecidableEq

/-- `snet_ref_t`, with the bytes of the datum's address. -/
structure Ref (ptrSize : Nat) where
  node : CInt
  interface : CInt
  data : List (BitVec 8)
  size : data.length = ptrSize
deriving DecidableEq

/-- `data_rec_t`, as far as it travels; the mode is an enumeration, which C stores as an int. -/
structure DataRec (ptrSize : Nat) where
  btags : Map CInt
  tags : Map CInt
  fields : Map (Ref ptrSize)
  mode : CInt
  interfaceId : CInt
deriving DecidableEq

/-- The records that may travel; for all others both functions stop the program. -/
inductive Record (ptrSize : Nat) where
  | data (d : DataRec ptrSize)
  | sortEnd (level num : CInt)
  | terminate (isLocal : CInt)
  | triggerInitialiser
deriving DecidableEq

/-- `snet_dest_t`. -/
structure Dest where
  node : CInt
  dest : CInt
  parent : CInt
  parentNode : CInt
  dynamicIndex : CInt
  dynamicLoc : CInt
deriving DecidableEq

/-! ## `snet_record_descr_t` and `snet_record_mode_t` -/

def REC_data : CInt := 1100

def REC_sort_end : CInt := 1103

def REC_terminate : CInt := 1104

def REC_trigger_initialiser : CInt := 1105

def MODE_textual : CInt := 0

def MODE_binary : CInt := 1

variable {β : Type} {ptrSize : Nat} (mpi : Mpi β)

/-! ## Packing -/

/-- `PackInt`. -/
def packInt (is : List CInt) : List β := is.flatMap mpi.int.enc

/-- `UnpackInt`. -/
def unpackInt (count : CInt) : List β → Option (List CInt × List β) :=
  decList mpi.int.dec count.toInt.toNat

/-- `SNetRefSerialise`. -/
def refSerialise (r : Ref ptrSize) : List β :=
  mpi.int.enc r.node ++ mpi.int.enc r.interface ++ r.data.flatMap mpi.byte.enc

/-- `SNetRefDeserialise`. -/
def refDeserialise (ptrSize : Nat) (buf : List β) : Option (Ref ptrSize × List β) := do
  let (node, buf) ← mpi.int.dec buf
  let (interface, buf) ← mpi.int.dec buf
  let (data, buf) ← decList mpi.byte.dec ptrSize buf
  if h : data.length = ptrSize then some (⟨node, interface, data, h⟩, buf) else none

/-- `PackRef`. -/
def packRef (rs : List (Ref ptrSize)) : List β := rs.flatMap (refSerialise mpi)

/-- `UnpackRef`. -/
def unpackRef (count : CInt) : List β → Option (List (Ref ptrSize) × List β) :=
  decList (refDeserialise mpi ptrSize) count.toInt.toNat

/-- `map->used`. -/
def Map.used {α : Type} (m : Map α) : CInt := BitVec.ofNat 32 m.entries.length

/-- `MapSerialise`. -/
def mapSerialise {α : Type} (packValues : List α → List β) (m : Map α) : List β :=
  packInt mpi [m.used] ++ packInt mpi (m.entries.map Prod.fst) ++
    packValues (m.entries.map Prod.snd)

/-- `MapDeserialise`. -/
def mapDeserialise {α : Type} (unpackValues : CInt → List β → Option (List α × List β))
    (buf : List β) : Option (Map α × List β) := do
  let (used, buf) ← mpi.int.dec buf
  let (keys, buf) ← unpackInt mpi used buf
  let (values, buf) ← unpackValues used buf
  if h : (keys.zip values).length < 2 ^ 31 then some (⟨keys.zip values, h⟩, buf) else none

/-- `SNetRecSerialise`. -/
def recSerialise : Record ptrSize → List β
  | .data d =>
    packInt mpi [REC_data] ++ mapSerialise mpi (packInt mpi) d.btags ++
      mapSerialise mpi (packInt mpi) d.tags ++ mapSerialise mpi (packRef mpi) d.fields ++
      packInt mpi [d.mode] ++ packInt mpi [d.interfaceId]
  | .sortEnd level num =>
    packInt mpi [REC_sort_end] ++ packInt mpi [level] ++ packInt mpi [num]
  | .terminate isLocal => packInt mpi [REC_terminate] ++ packInt mpi [isLocal]
  | .triggerInitialiser => packInt mpi [REC_trigger_initialiser]

/-- `SNetRecDeserialise`. -/
def recDeserialise (ptrSize : Nat) (buf : List β) : Option (Record ptrSize × List β) := do
  let (descr, buf) ← mpi.int.dec buf
  if descr = REC_data then
    let (btags, buf) ← mapDeserialise mpi (unpackInt mpi) buf
    let (tags, buf) ← mapDeserialise mpi (unpackInt mpi) buf
    let (fields, buf) ← mapDeserialise mpi (unpackRef mpi) buf
    let (mode, buf) ← mpi.int.dec buf
    -- of `SNetRecCreate`
    let result : DataRec ptrSize := ⟨btags, tags, fields, MODE_binary, 0⟩
    let result := { result with mode }
    let (mode, buf) ← mpi.int.dec buf
    -- the interface number, into the mode once more
    some (.data { result with mode }, buf)
  else if descr = REC_sort_end then
    let (level, buf) ← mpi.int.dec buf
    let (num, buf) ← mpi.int.dec buf
    some (.sortEnd level num, buf)
  else if descr = REC_terminate then
    let (isLocal, buf) ← mpi.int.dec buf
    some (.terminate isLocal, buf)
  else if descr = REC_trigger_initialiser then some (.triggerInitialiser, buf)
  else none

/-- `PackDest`. -/
def packDest (d : Dest) : List β :=
  packInt mpi [d.dest] ++ packInt mpi [d.parent] ++ packInt mpi [d.dynamicIndex] ++
    packInt mpi [d.parentNode] ++ packInt mpi [d.dynamicLoc]

/-- `UnpackDest`, into a destination whose node has been set. -/
def unpackDest (node : CInt) (buf : List β) : Option (Dest × List β) := do
  let (dest, buf) ← mpi.int.dec buf
  let (parent, buf) ← mpi.int.dec buf
  let (dynamicIndex, buf) ← mpi.int.dec buf
  let (parentNode, buf) ← mpi.int.dec buf
  let (dynamicLoc, buf) ← mpi.int.dec buf
  some (⟨node, dest, parent, parentNode, dynamicIndex, dynamicLoc⟩, buf)

/-- The message of `SNetDistribSendRecord`. -/
def sendRecord (m : Record ptrSize × Dest) : List β := recSerialise mpi m.1 ++ packDest mpi m.2

/-- `SNetDistribRecvMsg` on a record message of node `source`. -/
def recvRecord (ptrSize : Nat) (source : CInt) (buf : List β) :
    Option ((Record ptrSize × Dest) × List β) := do
  let (r, buf) ← recDeserialise mpi ptrSize buf
  let (d, buf) ← unpackDest mpi source buf
  some ((r, d), buf)

/-! ## What is read back -/

@[simp] theorem packInt_singleton (i : CInt) : packInt mpi [i] = mpi.int.enc i := by
  simp [packInt]

theorem used_toNat {α : Type} (m : Map α) : m.used.toInt.toNat = m.entries.length := by
  have h := m.fits
  rw [Map.used, BitVec.toInt_eq_toNat_of_lt]
  · rw [BitVec.toNat_ofNat, Nat.mod_eq_of_lt (by omega)]
    rfl
  · rw [BitVec.toNat_ofNat, Nat.mod_eq_of_lt (by omega)]
    omega

theorem refDeserialise_serialise (r : Ref ptrSize) (rest : List β) :
    refDeserialise mpi ptrSize (refSerialise mpi r ++ rest) = some (r, rest) := by
  have hbytes := mpi.byte.decList_enc r.data rest
  rw [r.size] at hbytes
  simp only [refDeserialise, refSerialise, append_assoc, mpi.int.dec_enc, Option.bind_eq_bind,
    Option.bind_some, hbytes, r.size, dif_pos]

theorem mapDeserialise_serialise {α : Type} {packValues : List α → List β}
    {unpackValues : CInt → List β → Option (List α × List β)} (m : Map α)
    (h : ∀ rest, unpackValues m.used (packValues (m.entries.map Prod.snd) ++ rest) =
      some (m.entries.map Prod.snd, rest)) (rest : List β) :
    mapDeserialise mpi unpackValues (mapSerialise mpi packValues m ++ rest) = some (m, rest) := by
  have hkeys : ∀ rest, unpackInt mpi m.used (packInt mpi (m.entries.map Prod.fst) ++ rest) =
      some (m.entries.map Prod.fst, rest) := by
    intro rest
    have := mpi.int.decList_enc (m.entries.map Prod.fst) rest
    rw [length_map] at this
    rw [unpackInt, used_toNat]
    exact this
  have hzip : (m.entries.map Prod.fst).zip (m.entries.map Prod.snd) = m.entries := by
    rw [zip_map', map_id']
  simp only [mapDeserialise, mapSerialise, packInt_singleton, append_assoc, mpi.int.dec_enc,
    Option.bind_eq_bind, Option.bind_some, hkeys, h, hzip]
  rw [dif_pos m.fits]

theorem unpackInt_packInt (m : Map CInt) (rest : List β) :
    unpackInt mpi m.used (packInt mpi (m.entries.map Prod.snd) ++ rest) =
      some (m.entries.map Prod.snd, rest) := by
  have := mpi.int.decList_enc (m.entries.map Prod.snd) rest
  rw [length_map] at this
  rw [unpackInt, used_toNat]
  exact this

theorem unpackRef_packRef (m : Map (Ref ptrSize)) (rest : List β) :
    unpackRef mpi m.used (packRef mpi (m.entries.map Prod.snd) ++ rest) =
      some (m.entries.map Prod.snd, rest) := by
  have := decList_flatMap (f := id) (refDeserialise_serialise mpi) (m.entries.map Prod.snd) rest
  rw [length_map, map_id] at this
  rw [unpackRef, used_toNat]
  exact this

def Record.received : Record ptrSize → Record ptrSize
  | .data d => .data { d with mode := d.interfaceId, interfaceId := 0 }
  | r => r

theorem recDeserialise_serialise (r : Record ptrSize) (rest : List β) :
    recDeserialise mpi ptrSize (recSerialise mpi r ++ rest) = some (r.received, rest) := by
  cases r with
  | data d =>
    simp only [recDeserialise, recSerialise, packInt_singleton, append_assoc, mpi.int.dec_enc,
      Option.bind_eq_bind, Option.bind_some, if_true,
      mapDeserialise_serialise mpi d.btags (unpackInt_packInt mpi d.btags),
      mapDeserialise_serialise mpi d.tags (unpackInt_packInt mpi d.tags),
      mapDeserialise_serialise mpi d.fields (unpackRef_packRef mpi d.fields)]
    rfl
  | sortEnd level num =>
    simp only [recDeserialise, recSerialise, packInt_singleton, append_assoc, mpi.int.dec_enc,
      Option.bind_eq_bind, Option.bind_some]
    rfl
  | terminate isLocal =>
    simp only [recDeserialise, recSerialise, packInt_singleton, append_assoc, mpi.int.dec_enc,
      Option.bind_eq_bind, Option.bind_some]
    rfl
  | triggerInitialiser =>
    simp only [recDeserialise, recSerialise, packInt_singleton, mpi.int.dec_enc,
      Option.bind_eq_bind, Option.bind_some]
    rfl

theorem unpackDest_packDest (source : CInt) (d : Dest) (rest : List β) :
    unpackDest mpi source (packDest mpi d ++ rest) = some ({ d with node := source }, rest) := by
  simp only [unpackDest, packDest, packInt_singleton, append_assoc, mpi.int.dec_enc,
    Option.bind_eq_bind, Option.bind_some]

theorem recvRecord_sendRecord (source : CInt) (m : Record ptrSize × Dest) (rest : List β) :
    recvRecord mpi ptrSize source (sendRecord mpi m ++ rest) =
      some ((m.1.received, { m.2 with node := source }), rest) := by
  simp only [recvRecord, sendRecord, append_assoc, recDeserialise_serialise, unpackDest_packDest,
    Option.bind_eq_bind, Option.bind_some]

/-! ## Round trips -/

def Record.Unmarked : Record ptrSize → Prop
  | .data d => d.mode = MODE_textual ∧ d.interfaceId = 0
  | _ => True

theorem Record.received_eq_iff (r : Record ptrSize) : r.received = r ↔ r.Unmarked := by
  cases r with
  | data d =>
    obtain ⟨btags, tags, fields, mode, interfaceId⟩ := d
    simp only [received, Unmarked, Record.data.injEq, DataRec.mk.injEq, true_and]
    constructor
    · rintro ⟨hmode, hid⟩
      exact ⟨hmode.symm.trans hid.symm, hid.symm⟩
    · rintro ⟨hmode, hid⟩
      exact ⟨hid.trans hmode.symm, hid.symm⟩
  | _ => simp [received, Unmarked]

/-- The messages that are read back are the messages that were written, whatever follows them, if
and only if no data record among them is binary or has an interface number other than 0. -/
theorem messages_round_trip_iff (source : CInt) (ms : List (Record ptrSize × Dest)) (rest : List β) :
    decList (recvRecord mpi ptrSize source) ms.length (ms.flatMap (sendRecord mpi) ++ rest) =
        some (ms.map fun m => (m.1, { m.2 with node := source }), rest) ↔
      ∀ m ∈ ms, m.1.Unmarked := by
  rw [decList_flatMap (recvRecord_sendRecord mpi source) ms rest]
  simp only [Option.some.injEq, Prod.mk.injEq, and_true]
  rw [map_inj_left]
  refine forall₂_congr fun m _ => ?_
  rw [Prod.mk.injEq, ← Record.received_eq_iff]
  exact and_iff_left rfl

def plainMpi : Mpi (CInt ⊕ BitVec 8) where
  int := ⟨fun i => [.inl i], fun
    | .inl i :: buf => some (i, buf)
    | _ => none, fun _ _ => rfl⟩
  byte := ⟨fun b => [.inr b], fun
    | .inr b :: buf => some (b, buf)
    | _ => none, fun _ _ => rfl⟩

/-- A record as `SNetRecCreate` makes it, with one tag. -/
def binaryRecord : Record 8 :=
  .data ⟨⟨[], by decide⟩, ⟨[(7, 1)], by decide⟩, ⟨[], by decide⟩, MODE_binary, 0⟩

def someDest : Dest := ⟨1, 2, 3, 4, 5, 6⟩

/-- A binary record arrives as a textual one. -/
theorem binary_record_changes :
    decList (recvRecord plainMpi 8 1) 1 ([(binaryRecord, someDest)].flatMap (sendRecord plainMpi)) ≠
      some ([(binaryRecord, someDest)], []) := by decide

end SNet.Wire
