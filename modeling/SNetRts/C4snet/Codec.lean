import SNetRts.C4snet.Base64
import SNetRts.C4snet.Data

/-!
# The binary codec of C4SNet

`C4SNetEncode` and `C4SNetDecode` of `interfaces/c4snet/C4SNet.c` on a little-endian machine with 64 bits.
Of the eight bytes of the number of elements only the lower four are written and read, so that the upper
four stay as they were when the structure was allocated.
-/

namespace SNet.C4SNet.Codec

open Lib Memory Base64 List

/-- A `size_t` that is passed as an `int`. -/
def intOf (n : UInt64) : Int := (n.toNat : Int).bmod 4294967296

/-- The bytes of a `size_t`. -/
def sizeBytes (size : UInt64) : Nat → UInt8 := fun k => (leBytes 8 size.toNat).getD k 0

/-- The `size_t` with these bytes. -/
def sizeOfBytes (mem : Nat → UInt8) : UInt64 := UInt64.ofNat (ofLeBytes (bytesAt mem 8))

/-- `sizeof(int)` -/
def sizeofInt : Nat := 4

def dataLen (d : CData) : Int := if d.vtype = .array then intOf (allocatedSpace d) else sizeOfType d.type

/-- `C4SNetEncode`; `none` where an `int` overflows. -/
def encode (d : CData) : Option (List UInt8) := do
  let (vtype, _) := encodeDataType d.vtype.number
  let (size, _) ← Base64.encode (sizeBytes d.size) sizeofInt
  let (type, _) := encodeDataType d.type.number
  let (data, _) ← Base64.encode d.data (dataLen d)
  return vtype ++ (size ++ (type ++ data))

/-- `C4SNetDecode` with the structure and the memory of the elements as they are allocated, and what is left;
`none` where the type is unknown to `sizeOfType`. -/
def decode (c : CData) (array : Nat → UInt8) (file : List UInt8) : Option (CData × List UInt8) := do
  let (_, vtype, file) := decodeDataType file
  let (_, size, file) := Base64.decode file (sizeBytes c.size) sizeofInt
  let (_, type, file) := decodeDataType file
  let type ← CType.ofNumber type
  let c : CData := ⟨1, VType.ofNumber vtype, sizeOfBytes size, type, c.data⟩
  let (_, data, file) := Base64.decode file (if c.vtype = .array then array else c.data) (dataLen c)
  return ({ c with data := data }, file)

/-- What is written of a value is read as the same value into the allocated structure, with any contents of the
memory that is allocated for its elements. -/
def RoundTrips (v : Value) (c : CData) : Prop :=
  ∃ text, encode v.toCData = some text ∧
    ∀ array, ∃ c' file, decode c array text = some (c', file) ∧ SameValue c' v.toCData

/-! ## The size -/

section

variable {v : Value} {c : CData} {text t : List UInt8} {array : Nat → UInt8}

/-- The size that is read: its upper half is that of the allocated structure. -/
def merged (size fresh : UInt64) : UInt64 :=
  UInt64.ofNat (size.toNat % 4294967296 + 4294967296 * (fresh.toNat / 4294967296))

theorem merged_eq_iff (size fresh : UInt64) :
    merged size fresh = size ↔ size.toNat / 4294967296 = fresh.toNat / 4294967296 := by
  have hsize := size.toNat_lt
  have hfresh := fresh.toNat_lt
  rw [merged, ← UInt64.toNat_inj, UInt64.toNat_ofNat', Nat.mod_eq_of_lt (by omega)]
  omega

theorem bytesAt_sizeBytes (size : UInt64) : bytesAt (sizeBytes size) sizeofInt = leBytes 4 size.toNat := by
  apply map_congr_left
  intro k hk
  have hlt : k < 8 := Nat.lt_trans (mem_range.1 hk) (by decide)
  rw [sizeBytes, leBytes, ← bytesAt, getD_bytesAt hlt]

theorem upper_sizeBytes (size : UInt64) :
    bytesAt (fun k => sizeBytes size (4 + k)) 4 = leBytes 4 (size.toNat / 4294967296) := by
  apply map_congr_left
  intro k hk
  have hlt : k < 4 := mem_range.1 hk
  have hget := getD_leBytes (v := 4) size.toNat hlt
  rw [show 256 ^ 4 = 4294967296 from rfl] at hget
  rw [sizeBytes, hget, leBytes, ← bytesAt, getD_bytesAt hlt]

theorem sizeOfBytes_place (size fresh : UInt64) :
    sizeOfBytes (place (leBytes 4 size.toNat) 0 (sizeBytes fresh)) = merged size fresh := by
  have hlen : (leBytes 4 size.toNat).length = 4 := length_leBytes 4 size.toNat
  have hplace := bytesAt_place_add (leBytes 4 size.toNat) 4 (sizeBytes fresh)
  rw [hlen, upper_sizeBytes] at hplace
  have hfresh := fresh.toNat_lt
  rw [sizeOfBytes, hplace, ofLeBytes_append, hlen, ofLeBytes_leBytes,
    ofLeBytes_leBytes, merged, show 256 ^ 4 = 4294967296 from rfl, Nat.mod_eq_of_lt (a := fresh.toNat / 4294967296) (by omega)]

/-! ## The data -/

theorem intOf_eq {n : UInt64} (h : n.toNat < 2147483648) : intOf n = n.toNat := by
  have hself : (n.toNat : Int) % (4294967296 : Nat) = n.toNat := Int.emod_eq_of_lt (by omega) (by omega)
  have hmod : (n.toNat : Int).bmod 4294967296 = (n.toNat : Int) % (4294967296 : Nat) := by
    apply Int.bmod_eq_emod_of_lt
    omega
  exact hmod.trans hself

theorem dataLen_eq (h : v.bytes < 2147483648) : dataLen v.toCData = v.bytes := by
  by_cases harray : v.vtype = .array
  · have hspace := Value.toNat_allocatedSpace harray
    rw [dataLen, if_pos harray, intOf_eq (by omega), hspace]
  · rw [dataLen, if_neg harray, CData.bytes, if_neg harray]

theorem lt_of_simple (h : v.vtype ≠ .array) : v.bytes < 268435456 := by
  rw [CData.bytes, if_neg h]
  have hle := sizeOfType_le v.type
  omega

def header (d : CData) : List UInt8 :=
  (encodeDataType d.vtype.number).1 ++ (encoded (leBytes 4 d.size.toNat) ++ (encodeDataType d.type.number).1)

theorem encode_eq (d : CData) :
    encode d = (Base64.encode d.data (dataLen d)).map fun data => header d ++ data.1 := by
  have hsize : Base64.encode (sizeBytes d.size) sizeofInt =
      some (encoded (leBytes 4 d.size.toNat), ((encoded (leBytes 4 d.size.toNat)).length : Int)) := by
    rw [Base64.encode_eq, if_pos (by decide), bytesAt_sizeBytes]
  rw [encode, hsize]
  cases Base64.encode d.data (dataLen d) with
  | none => rfl
  | some data => simp only [Option.bind_eq_bind, Option.bind_some, Option.map_some, Option.pure_def, header,
      append_assoc]

def afterHeader (d c : CData) : CData := ⟨1, d.vtype, merged d.size c.size, d.type, c.data⟩

theorem decode_header (d c : CData) (array : Nat → UInt8) (t : List UInt8) :
    decode c array (header d ++ t) =
      some ({ afterHeader d c with data := (Base64.decode t (if d.vtype = .array then array else c.data)
        (dataLen (afterHeader d c))).2.1 },
        (Base64.decode t (if d.vtype = .array then array else c.data) (dataLen (afterHeader d c))).2.2) := by
  have hsize : ∀ t, Base64.decode (encoded (leBytes 4 d.size.toNat) ++ t) (sizeBytes c.size) sizeofInt =
      ((encoded (leBytes 4 d.size.toNat)).length, place (leBytes 4 d.size.toNat) 0 (sizeBytes c.size), t) := by
    intro t
    have hdecode := decode_encoded (leBytes 4 d.size.toNat) (sizeBytes c.size) t
    rwa [length_leBytes] at hdecode
  rw [decode, header, append_assoc, decode_encodeDataType]
  dsimp only
  rw [append_assoc, hsize]
  dsimp only
  rw [decode_encodeDataType]
  dsimp only
  rw [CType.ofNumber_number, VType.ofNumber_number, sizeOfBytes_place]
  rfl

/-! ## Round trips -/

theorem decode_encode (hupper : v.size.toNat / 4294967296 = c.size.toNat / 4294967296)
    (hbytes : v.bytes < 268435456) :
    encode v.toCData = some (header v.toCData ++ encoded (bytesAt v.data v.bytes)) ∧
      ∀ array t, ∃ c', decode c array (header v.toCData ++ (encoded (bytesAt v.data v.bytes) ++ t)) = some (c', t) ∧
        SameValue c' v.toCData := by
  have hlen := dataLen_eq (v := v) (by omega)
  have hmerged := (merged_eq_iff v.size c.size).2 hupper
  have hafter : dataLen (afterHeader v.toCData c) = v.bytes := by
    rw [← hlen, dataLen, dataLen, allocatedSpace, allocatedSpace, afterHeader, hmerged]
  constructor
  · rw [encode_eq, hlen, Base64.encode_eq, if_pos hbytes, Option.map_some]
  · intro array t
    have hdecode := decode_encoded (bytesAt v.data v.bytes)
      (if v.vtype = .array then array else c.data) t
    rw [length_bytesAt] at hdecode
    rw [decode_header, hafter, hdecode]
    refine ⟨_, rfl, rfl, rfl, hmerged, ?_⟩
    intro k hk
    have hplace := place_getD (s := bytesAt v.data v.bytes) (k := k) (by rwa [length_bytesAt]) 0
      (if v.vtype = .array then array else c.data)
    rw [Nat.zero_add, getD_bytesAt hk] at hplace
    exact hplace

/-- A value can be read again if and only if the allocated structure has the upper half of its size, and it is no
array of 2^28 bytes. -/
theorem binary_round_trip_iff (v : Value) (c : CData) :
    RoundTrips v c ↔ v.size.toNat / 4294967296 = c.size.toNat / 4294967296 ∧
      (v.vtype = .array → v.size.toNat * sizeOfType v.type < 268435456) := by
  constructor
  · rintro ⟨text, htext, hread⟩
    rw [encode_eq, Option.map_eq_some_iff] at htext
    obtain ⟨⟨data, size⟩, hdata, rfl⟩ := htext
    have hshort := lt_of_encode hdata
    -- the memory of the elements differs from them in every byte
    obtain ⟨c', file, hdecode, -, -, hsize, hsame⟩ := hread fun k => v.data k + 1
    rw [decode_header, Option.some.injEq, Prod.mk.injEq] at hdecode
    obtain ⟨rfl, -⟩ := hdecode
    have hmerged : merged v.size c.size = v.size := hsize
    refine ⟨(merged_eq_iff v.size c.size).1 hmerged, fun harray => ?_⟩
    by_contra hlong
    have hbytes : v.bytes = v.size.toNat * sizeOfType v.type := by rw [CData.bytes, if_pos harray]
    have hafter : dataLen (afterHeader v.toCData c) = dataLen v.toCData := by
      rw [dataLen, dataLen, allocatedSpace, allocatedSpace, afterHeader, hmerged]
    have hlast := hsame (v.bytes - 1) (by omega)
    dsimp only at hlast
    rw [decode_of_ge (by omega), if_pos harray] at hlast
    exact absurd hlast (by simp)
  · rintro ⟨hupper, hbytes⟩
    have hlt : v.bytes < 268435456 := by
      by_cases harray : v.vtype = .array
      · rw [CData.bytes, if_pos harray]
        exact hbytes harray
      · exact lt_of_simple harray
    obtain ⟨htext, hread⟩ := decode_encode hupper hlt
    refine ⟨_, htext, fun array => ?_⟩
    obtain ⟨c', hdecode, hsame⟩ := hread array []
    rw [append_nil] at hdecode
    exact ⟨c', [], hdecode, hsame⟩

/-- The integer 5, and a structure whose size has been 2^32 before. -/
def five : Value where
  refCount := 1
  vtype := .simple
  size := 1
  type := .int
  data := fun k => if k = 0 then 5 else 0
  hasVType := .inl rfl
  fits := fun h => VType.noConfusion h

theorem upper_half_kept : ¬ ∀ c, RoundTrips five c := by
  intro h
  obtain ⟨text, htext, hread⟩ := h ⟨0, .simple, 4294967296, .uchar, fun _ => 0⟩
  rw [encode_eq, Option.map_eq_some_iff] at htext
  obtain ⟨data, -, rfl⟩ := htext
  obtain ⟨c', file, hdecode, -, -, hsize, -⟩ := hread fun _ => 0
  rw [decode_header, Option.some.injEq, Prod.mk.injEq] at hdecode
  obtain ⟨rfl, -⟩ := hdecode
  have hmerged : merged 1 4294967296 = 1 := hsize
  rw [merged_eq_iff] at hmerged
  cases hmerged

end

end SNet.C4SNet.Codec
