import SNetRts.Lib.Memory

/-!
# The data of C4SNet

The structure that holds a value of the C language interface, with the types of its elements. The sizes of
the types are those of a machine with 64 bits.
-/

namespace SNet.C4SNet

open Lib Memory

/-- `c4snet_vtype_t`, in which there can be any number that has been read from a file. -/
inductive VType where
  | simple
  | array
  | other (n : Nat)
deriving DecidableEq

namespace VType

def number : VType → Nat
  | simple => 0
  | array => 1
  | other n => n + 2

def ofNumber : Nat → VType
  | 0 => simple
  | 1 => array
  | n + 2 => other n

@[simp] theorem ofNumber_number (vtype : VType) : ofNumber vtype.number = vtype := by
  cases vtype <;> rfl

end VType

/-- `c4snet_type_t` -/
inductive CType where
  | uchar
  | char
  | ushort
  | short
  | uint
  | int
  | ulong
  | long
  | float
  | double
  | ldouble
deriving DecidableEq

namespace CType

def all : List CType := [uchar, char, ushort, short, uint, int, ulong, long, float, double, ldouble]

def number (type : CType) : Nat := all.idxOf type

/-- A number without an enumerator is one for which `sizeOfType` is fatal. -/
def ofNumber (n : Nat) : Option CType := all[n]?

@[simp] theorem ofNumber_number (type : CType) : ofNumber type.number = some type := by
  cases type <;> rfl

end CType

def sizeOfType : CType → Nat
  | .uchar | .char => 1
  | .ushort | .short => 2
  | .uint | .int => 4
  | .ulong | .long => 8
  | .float => 4
  | .double => 8
  | .ldouble => 16

theorem sizeOfType_le (type : CType) : sizeOfType type ≤ 16 := by
  cases type <;> decide

/-- `struct cdata`; the data are the bytes at `data.ptr` in an array, otherwise those of the union. -/
structure CData where
  refCount : UInt32
  vtype : VType
  size : UInt64
  type : CType
  data : Nat → UInt8

/-- `AllocatedSpace` -/
def allocatedSpace (d : CData) : UInt64 :=
  if d.vtype = .array then d.size * UInt64.ofNat (sizeOfType d.type) else 0

def CData.bytes (d : CData) : Nat :=
  if d.vtype = .array then d.size.toNat * sizeOfType d.type else sizeOfType d.type

/-- A scalar, or an array whose bytes can be counted by `size_t`. -/
structure Value extends CData where
  hasVType : vtype = .simple ∨ vtype = .array
  fits : vtype = .array → size.toNat * sizeOfType type < 2 ^ 64

def SameValue (d d' : CData) : Prop :=
  d.vtype = d'.vtype ∧ d.type = d'.type ∧ d.size = d'.size ∧ ∀ k < d'.bytes, d.data k = d'.data k

theorem Value.toNat_allocatedSpace {v : Value} (h : v.vtype = .array) :
    (allocatedSpace v.toCData).toNat = v.bytes := by
  have hfits := v.fits h
  have hsize : sizeOfType v.type % 2 ^ 64 = sizeOfType v.type :=
    Nat.mod_eq_of_lt (Nat.lt_of_le_of_lt (sizeOfType_le v.type) (by decide))
  rw [allocatedSpace, if_pos h, UInt64.toNat_mul, UInt64.toNat_ofNat', hsize, Nat.mod_eq_of_lt hfits,
    CData.bytes, if_pos h]

/-! ## Copies -/

def memcpy (n : Nat) (src mem : Nat → UInt8) : Nat → UInt8 := place (bytesAt src n) 0 mem

/-- `C4SNetCreate`, with what has been in the memory of the elements. -/
def create (mem : Nat → UInt8) (type : CType) (size : UInt64) (data : Nat → UInt8) : CData :=
  if size = 1 then ⟨1, .simple, size, type, memcpy (sizeOfType type) data mem⟩
  else ⟨1, .array, size, type, memcpy (allocatedSpace ⟨1, .array, size, type, mem⟩).toNat data mem⟩

/-- `C4SNetArraySize` -/
def arraySize (d : CData) : UInt64 := d.size

/-- `C4SNetDeepCopy`, whose two branches differ in the place of the data only. -/
def deepCopy (mem : Nat → UInt8) (d : CData) : CData := create mem d.type d.size d.data

variable {n k : Nat} {type : CType} {size : UInt64}

theorem memcpy_of_lt (hk : k < n) (src mem : Nat → UInt8) : memcpy n src mem k = src k := by
  have hplace := place_getD (s := bytesAt src n) (k := k) (by rwa [length_bytesAt]) 0 mem
  rwa [Nat.zero_add, getD_bytesAt hk] at hplace

theorem toNat_allocatedSpace_le (d : CData) : (allocatedSpace d).toNat ≤ d.size.toNat * sizeOfType d.type := by
  have hle := sizeOfType_le d.type
  rw [allocatedSpace]
  by_cases harray : d.vtype = .array
  · rw [if_pos harray, UInt64.toNat_mul, UInt64.toNat_ofNat', Nat.mod_eq_of_lt (a := sizeOfType d.type) (by omega)]
    exact Nat.mod_le _ _
  · rw [if_neg harray]
    exact Nat.zero_le _

theorem create_congr {data data' : Nat → UInt8}
    (h : ∀ k < if size = 1 then sizeOfType type else size.toNat * sizeOfType type, data k = data' k)
    (mem : Nat → UInt8) : create mem type size data = create mem type size data' := by
  have hcopy : ∀ n ≤ (if size = 1 then sizeOfType type else size.toNat * sizeOfType type),
      memcpy n data mem = memcpy n data' mem := by
    intro n hn
    have hbytes : bytesAt data n = bytesAt data' n := by
      apply List.map_congr_left
      intro k hk
      exact h k (Nat.lt_of_lt_of_le (List.mem_range.1 hk) hn)
    rw [memcpy, memcpy, hbytes]
  rw [create, create]
  by_cases hsize : size = 1
  · rw [if_pos hsize] at hcopy
    rw [if_pos hsize, if_pos hsize, hcopy _ (Nat.le_refl _)]
  · have hle := toNat_allocatedSpace_le ⟨1, .array, size, type, mem⟩
    rw [if_neg hsize] at hcopy
    rw [if_neg hsize, if_neg hsize, hcopy _ hle]

theorem SameValue.deepCopy_eq {d d' : CData} (h : SameValue d d') (harray : d'.size ≠ 1 → d'.vtype = .array)
    (hsimple : d'.size = 1 → d'.vtype = .simple) (mem : Nat → UInt8) : deepCopy mem d = deepCopy mem d' := by
  obtain ⟨-, htype, hsize, hdata⟩ := h
  rw [deepCopy, deepCopy, htype, hsize]
  apply create_congr
  intro k hk
  apply hdata k
  rw [CData.bytes]
  by_cases h1 : d'.size = 1
  · rw [if_pos h1] at hk
    rwa [hsimple h1, if_neg VType.noConfusion]
  · rw [if_neg h1] at hk
    rwa [if_pos (harray h1)]

end SNet.C4SNet
