import SNetRts.C4snet.Codec

/-!
# Values of C4SNet in MPI messages

`MPIPackFun` and `MPIUnpackFun` of `interfaces/c4snet/C4SNet.c` on a little-endian machine with 64 bits.
`MPI_Pack` and `MPI_Unpack` are a parameter: the one undoes the other.
-/

namespace SNet.C4SNet.Mpi

open Lib Memory Codec

/-- The `MPI_Datatype` of an element. -/
inductive Datatype where
  | unsignedChar
  | char
  | unsignedShort
  | short
  | unsigned
  | int
  | unsignedLong
  | long
  | float
  | double
  | longDouble
deriving DecidableEq

def Datatype.extent : Datatype → Nat
  | unsignedChar | char => 1
  | unsignedShort | short => 2
  | unsigned | int => 4
  | unsignedLong | long => 8
  | float => 4
  | double => 8
  | longDouble => 16

/-- `TypeToMPIType` -/
def typeToMPIType : CType → Datatype
  | .uchar => .unsignedChar
  | .char => .char
  | .ushort => .unsignedShort
  | .short => .short
  | .uint => .unsigned
  | .int => .int
  | .ulong => .unsignedLong
  | .long => .long
  | .float => .float
  | .double => .double
  | .ldouble => .longDouble

theorem extent_typeToMPIType (type : CType) : (typeToMPIType type).extent = sizeOfType type := by
  cases type <;> rfl

/-- `MPI_Pack` and `MPI_Unpack`, on the bytes of the elements; `β` is a unit of the buffer. -/
structure Packing (β : Type) where
  pack : Datatype → List UInt8 → List β
  unpack : Datatype → Int → List β → Option (List UInt8 × List β)
  unpack_pack : ∀ type (n : Nat) s rest, s.length = n * type.extent →
    unpack type n (pack type s ++ rest) = some (s, rest)

/-- The `int` with these bytes. -/
def intOfBytes (s : List UInt8) : Int := (ofLeBytes s : Int).bmod 4294967296

variable {β : Type} (mpi : Packing β)

/-- `SNetDistribPack` -/
def packFrom (src : Nat → UInt8) (type : Datatype) (count : Int) : List β :=
  mpi.pack type (bytesAt src (count.toNat * type.extent))

/-- `MPIPackFun` -/
def packFun (d : CData) : List β :=
  packFrom mpi ((leBytes 4 d.vtype.number).getD · 0) .int 1 ++
    (packFrom mpi (sizeBytes d.size) .int 1 ++
      (packFrom mpi ((leBytes 4 d.type.number).getD · 0) .int 1 ++
        if d.vtype = .array then packFrom mpi d.data (typeToMPIType d.type) (intOf d.size)
        else packFrom mpi d.data (typeToMPIType d.type) 1))

/-- What the variable `tmp` of `MPIUnpackFun` points to. -/
inductive Target where
  | unassigned
  | elements
deriving DecidableEq

/-- `C4SNetAlloc`, which makes its last argument point to the elements. -/
def alloc (mem : Nat → UInt8) (type : CType) (size : UInt64) : CData × Target :=
  if size = 1 then (⟨1, .simple, size, type, mem⟩, .elements)
  else (⟨1, .array, size, type, mem⟩, .elements)

/-- Unpacks an `int`. -/
def unpackInt (buf : List β) : Option (Int × List β) :=
  (mpi.unpack .int 1 buf).map fun (s, buf) => (intOfBytes s, buf)

/-- Unpacks elements to where `tmp` points to; `none` where nothing has been assigned to it. -/
def unpackTo (tmp : Target) (result : CData) (type : CType) (count : Int) (buf : List β) :
    Option (CData × List β) :=
  match tmp with
  | .unassigned => none
  | .elements => (mpi.unpack (typeToMPIType type) count buf).map fun (s, buf) =>
      ({ result with data := place s 0 result.data }, buf)

/-- `MPIUnpackFun`, with what has been in the memory of the elements and in the variable `tmp`. -/
def unpackFun (mem tmp : Nat → UInt8) (buf : List β) : Option (CData × List β) := do
  let (vtype, buf) ← unpackInt mpi buf
  let (count, buf) ← unpackInt mpi buf
  let (type, buf) ← unpackInt mpi buf
  let type ← CType.ofNumber type.toNat
  if vtype = 1 then
    let (result, target) := alloc mem type (UInt64.ofInt count)
    unpackTo mpi target result type count buf
  else
    -- `C4SNetCreate` reads from `tmp` and does not assign to it
    unpackTo mpi .unassigned (create mem type 1 tmp) type 1 buf

/-- What is packed of a value is unpacked as the same value, and nothing of what follows it. -/
def RoundTrips (v : Value) : Prop :=
  ∀ mem tmp rest, ∃ d, unpackFun mpi mem tmp (packFun mpi v.toCData ++ rest) = some (d, rest) ∧
    SameValue d v.toCData

/-! ## The header -/

section

variable {v : Value} {mem tmp : Nat → UInt8}

theorem intOfBytes_leBytes {n : Nat} (h : n < 2147483648) : intOfBytes (leBytes 4 n) = n := by
  have htoNat : (UInt64.ofNat n).toNat = n := by
    rw [UInt64.toNat_ofNat']
    apply Nat.mod_eq_of_lt
    omega
  have hmod : n % 256 ^ 4 = n := by
    apply Nat.mod_eq_of_lt
    exact Nat.lt_trans h (by decide)
  have hbytes : ofLeBytes (leBytes 4 n) = n := (ofLeBytes_leBytes 4 n).trans hmod
  have hint : intOf (UInt64.ofNat n) = n := by
    rw [intOf_eq (by rwa [htoNat]), htoNat]
  unfold intOf at hint
  unfold intOfBytes
  rw [hbytes]
  rwa [htoNat] at hint

theorem unpackInt_pack {n : Nat} (h : n < 2147483648) (rest : List β) :
    unpackInt mpi (mpi.pack .int (leBytes 4 n) ++ rest) = some ((n : Int), rest) := by
  have hunpack := mpi.unpack_pack .int 1 (leBytes 4 n) rest (length_leBytes 4 n)
  rw [Nat.cast_one] at hunpack
  rw [unpackInt, hunpack, Option.map_some]
  dsimp only
  rw [intOfBytes_leBytes h]

theorem packFrom_int (n : Nat) :
    packFrom mpi ((leBytes 4 n).getD · 0) .int 1 = mpi.pack .int (leBytes 4 n) := by
  have hbytes := bytesAt_getD (leBytes 4 n)
  rw [length_leBytes] at hbytes
  exact congrArg (mpi.pack .int) hbytes

theorem packFrom_size (size : UInt64) :
    packFrom mpi (sizeBytes size) .int 1 = mpi.pack .int (leBytes 4 size.toNat) :=
  congrArg (mpi.pack .int) (bytesAt_sizeBytes size)

theorem number_lt (type : CType) : type.number < 2147483648 := by
  cases type <;> decide

theorem ofInt_toNat {size : UInt64} (h : size.toNat < 2147483648) : UInt64.ofInt (size.toNat : Int) = size := by
  have hmod : (size.toNat : Int) % 2 ^ 64 = size.toNat := by
    apply Int.emod_eq_of_lt
    · omega
    · omega
  rw [UInt64.ofInt, hmod, Int.toNat_natCast, UInt64.ofNat_toNat]

def packed (d : CData) : List β :=
  if d.vtype = .array then packFrom mpi d.data (typeToMPIType d.type) (intOf d.size)
  else packFrom mpi d.data (typeToMPIType d.type) 1

theorem unpackFun_packFun (hsize : v.size.toNat < 2147483648) (rest : List β) :
    unpackFun mpi mem tmp (packFun mpi v.toCData ++ rest) =
      if v.vtype = .array then
        unpackTo mpi (alloc mem v.type v.size).2 (alloc mem v.type v.size).1 v.type (v.size.toNat : Int)
          (packed mpi v.toCData ++ rest)
      else none := by
  have hvtype : v.vtype.number < 2147483648 := by
    obtain h | h := v.hasVType
    · rw [h]
      decide
    · rw [h]
      decide
  have hiff : ((v.vtype.number : Int) = 1) = (v.vtype = .array) := by
    obtain h | h := v.hasVType
    · rw [h]
      decide
    · rw [h]
      decide
  rw [packFun, packFrom_int, packFrom_size, packFrom_int, ← packed, List.append_assoc, List.append_assoc,
    List.append_assoc, unpackFun, unpackInt_pack mpi hvtype]
  simp only [Option.bind_eq_bind, Option.bind_some]
  rw [unpackInt_pack mpi hsize]
  simp only [Option.bind_some]
  rw [unpackInt_pack mpi (number_lt v.type)]
  simp only [Option.bind_some, Int.toNat_natCast, CType.ofNumber_number, ofInt_toNat hsize, hiff]
  rfl

end

/-! ## Round trips -/

theorem unpackTo_packed {v : Value} (harray : v.vtype = .array) (hsize : v.size.toNat < 2147483648)
    (d : CData) (rest : List β) :
    unpackTo mpi .elements d v.type (v.size.toNat : Int) (packed mpi v.toCData ++ rest) =
      some ({ d with data := place (bytesAt v.data v.bytes) 0 d.data }, rest) := by
  have hbytes : v.bytes = v.size.toNat * (typeToMPIType v.type).extent := by
    rw [CData.bytes, if_pos harray, extent_typeToMPIType]
  have hunpack := mpi.unpack_pack (typeToMPIType v.type) v.size.toNat (bytesAt v.data v.bytes) rest
    ((length_bytesAt _ _).trans hbytes)
  rw [packed, if_pos harray, packFrom, intOf_eq hsize, Int.toNat_natCast, ← hbytes, unpackTo, hunpack,
    Option.map_some]

/-- A value is transferred if and only if it is an array of more or fewer than one element. -/
theorem mpi_round_trip_iff (v : Value) (hsize : v.size.toNat < 2147483648) :
    RoundTrips mpi v ↔ v.vtype = .array ∧ v.size ≠ 1 := by
  constructor
  · intro h
    obtain ⟨d, hunpack, hvtype, -⟩ := h (fun _ => 0) (fun _ => 0) []
    rw [unpackFun_packFun mpi hsize] at hunpack
    by_cases harray : v.vtype = .array
    · refine ⟨harray, fun hone => ?_⟩
      -- a single element is allocated as a scalar
      rw [if_pos harray, alloc, if_pos hone, unpackTo_packed mpi harray hsize, Option.some.injEq,
        Prod.mk.injEq] at hunpack
      obtain ⟨rfl, -⟩ := hunpack
      rw [harray] at hvtype
      cases hvtype
    · rw [if_neg harray] at hunpack
      cases hunpack
  · rintro ⟨harray, hone⟩ mem tmp rest
    rw [unpackFun_packFun mpi hsize, if_pos harray, alloc, if_neg hone, unpackTo_packed mpi harray hsize]
    refine ⟨_, rfl, harray.symm, rfl, rfl, ?_⟩
    intro k hk
    have hplace := place_getD (s := bytesAt v.data v.bytes) (k := k) (by rwa [length_bytesAt]) 0 mem
    rw [Nat.zero_add, getD_bytesAt hk] at hplace
    exact hplace

def plain : Packing UInt8 where
  pack _ s := s
  unpack type n buf := some (buf.take (n.toNat * type.extent), buf.drop (n.toNat * type.extent))
  unpack_pack type n s rest h := by
    rw [Int.toNat_natCast, ← h, List.take_left, List.drop_left]

def two : Value where
  refCount := 1
  vtype := .array
  size := 2
  type := .int
  data := fun k => if k = 4 then 1 else 0
  hasVType := .inr rfl
  fits := fun _ => by decide

theorem mpi_round_trip_iff_two : two.size.toNat < 2147483648 ∧ RoundTrips plain two :=
  ⟨by decide, (mpi_round_trip_iff plain two (by decide)).2 ⟨rfl, by decide⟩⟩

/-- The integer 5 is unpacked to an address that nobody has set. -/
theorem scalar_unpacked_nowhere :
    ¬ ∀ {β : Type} (mpi : Packing β) (v : Value), v.size.toNat < 2147483648 → RoundTrips mpi v := by
  intro h
  obtain ⟨d, hunpack, -⟩ := h plain five (by decide) (fun _ => 0) (fun _ => 0) []
  rw [unpackFun_packFun plain (by decide), if_neg (by decide)] at hunpack
  cases hunpack

end SNet.C4SNet.Mpi
