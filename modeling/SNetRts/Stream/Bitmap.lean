import Mathlib.Data.Finset.Erase
import Mathlib.Data.Finset.Filter
import Mathlib.Data.Finset.Insert
import Mathlib.Data.Finset.Range
import Mathlib.Data.Nat.Find
import Mathlib.Logic.Function.Basic

/-!
# Bitmaps

The bitmaps of `runtime/stream/utils/bitmap.c` beside the set of the bits that are taken. The size of a
bitmap is kept in bytes, and `SNetUtilBitmapSet`, `SNetUtilBitmapClear` and `SNetUtilBitmapGet` compare an
index of a bit with it; `SNetUtilBitmapFindNSet` passes by a byte whose lower four bits only are set.
-/

namespace SNet

open Function (update update_of_ne update_self)

/-- `BITS_PER_BYTE` -/
def BITS_PER_BYTE : Nat := 8

/-- `BYTE_FULL_SET` -/
def BYTE_FULL_SET : BitVec 8 := 0xf#8

/-- `SNET_BITMAP_ERR` -/
def SNET_BITMAP_ERR : Int := -1

/-- `BYTE_OFFSET` -/
def byteOffset (bit : Nat) : Nat := bit / BITS_PER_BYTE

/-- `BIT_OFFSET` -/
def bitOffset (bit : Nat) : Nat := bit % BITS_PER_BYTE

/-- `snet_util_bitmap_t`, with the bytes that `bitmap` points to. -/
structure Bitmap where
  size : Nat
  searchPos : Nat
  bitmap : Nat → BitVec 8

namespace Bitmap

/-- `SNetUtilBitmapCreate`; `none` for a null pointer and where the size overflows. -/
def create (size : Int) : Option Bitmap :=
  if size ≤ 0 ∨ 2147483640 < size then none
  else some ⟨(size.toNat + (BITS_PER_BYTE - 1)) / BITS_PER_BYTE, 0, fun _ => 0#8⟩

/-- `SNetUtilBitmapCopy` -/
def copy (source target : Bitmap) : Bitmap × Int :=
  if target.size < source.size then (target, SNET_BITMAP_ERR)
  else
    ({ target with
        bitmap := fun k => if k < source.size then source.bitmap k
          else if k < target.size then 0#8 else target.bitmap k
        searchPos := source.searchPos }, 0)

/-- `SNetUtilBitmapSize` -/
def bitmapSize (map : Bitmap) : Nat := map.size * BITS_PER_BYTE

def old (map : Bitmap) (bit : Nat) : Int :=
  ((map.bitmap (byteOffset bit) >>> bitOffset bit &&& 1#8).toNat : Int)

/-- `SNetUtilBitmapSet` -/
def set (map : Bitmap) (bit : Nat) : Bitmap × Int :=
  if map.size ≤ bit then (map, SNET_BITMAP_ERR)
  else
    ({ map with
        bitmap := update map.bitmap (byteOffset bit)
          (map.bitmap (byteOffset bit) ||| 1#8 <<< bitOffset bit) }, map.old bit)

/-- `SNetUtilBitmapClear` -/
def clear (map : Bitmap) (bit : Nat) : Bitmap × Int :=
  if map.size ≤ bit then (map, SNET_BITMAP_ERR)
  else
    ({ map with
        bitmap := update map.bitmap (byteOffset bit)
          (map.bitmap (byteOffset bit) &&& ~~~(1#8 <<< bitOffset bit))
        searchPos := if byteOffset bit < map.searchPos then byteOffset bit else map.searchPos }, map.old bit)

/-- The inner loop of `SNetUtilBitmapFindNSet`. -/
def firstClear (byte : BitVec 8) : Option Nat :=
  (List.range BITS_PER_BYTE).find? fun j => (byte >>> j) &&& 1#8 == 0#8

/-- The outer loop of `SNetUtilBitmapFindNSet`: where the search position is in the end, and the bit that has
been found there. -/
def search (bitmap : Nat → BitVec 8) : Nat → Nat → Nat × Option Nat
  | 0, pos => (pos, none)
  | rounds + 1, pos =>
    if bitmap pos ≠ BYTE_FULL_SET then
      match firstClear (bitmap pos) with
      | some j => (pos, some j)
      | none => search bitmap rounds (pos + 1)
    else search bitmap rounds (pos + 1)

/-- `SNetUtilBitmapFindNSet` -/
def findNSet (map : Bitmap) : Bitmap × Int :=
  match search map.bitmap (map.size - map.searchPos) map.searchPos with
  | (pos, some j) =>
    ({ map with
        bitmap := update map.bitmap pos (map.bitmap pos ||| 1#8 <<< j)
        searchPos := pos }, (pos * BITS_PER_BYTE + j : Nat))
  | (pos, none) => ({ map with searchPos := pos }, SNET_BITMAP_ERR)

/-- `SNetUtilBitmapGet` -/
def get (map : Bitmap) (bit : Nat) : Int :=
  if map.size ≤ bit then SNET_BITMAP_ERR else map.old bit

end Bitmap

/-! ## Sets of bits -/

/-- What a bitmap is for: some of the indices below a size are taken. -/
structure Slots where
  size : Nat
  taken : Finset Nat

namespace Slots

def old (s : Slots) (bit : Nat) : Int := if bit ∈ s.taken then 1 else 0

def set (s : Slots) (bit : Nat) : Slots × Int :=
  if bit < s.size then ({ s with taken := insert bit s.taken }, s.old bit) else (s, SNET_BITMAP_ERR)

def clear (s : Slots) (bit : Nat) : Slots × Int :=
  if bit < s.size then ({ s with taken := s.taken.erase bit }, s.old bit) else (s, SNET_BITMAP_ERR)

def get (s : Slots) (bit : Nat) : Int := if bit < s.size then s.old bit else SNET_BITMAP_ERR

def findNSet (s : Slots) : Slots × Int :=
  if h : ∃ bit, bit < s.size ∧ bit ∉ s.taken then
    ({ s with taken := insert (Nat.find h) s.taken }, (Nat.find h : Int))
  else (s, SNET_BITMAP_ERR)

/-- The target, if it is large enough, gets the bits of the source. -/
def copy (source target : Slots) : Slots × Int :=
  if target.size < source.size then (target, SNET_BITMAP_ERR) else ({ target with taken := source.taken }, 0)

theorem findNSet_eq {s : Slots} {bit : Nat} (hlt : bit < s.size) (hfree : bit ∉ s.taken)
    (hlow : ∀ k < bit, k ∈ s.taken) :
    s.findNSet = ({ s with taken := insert bit s.taken }, (bit : Int)) := by
  have hex : ∃ bit, bit < s.size ∧ bit ∉ s.taken := ⟨bit, hlt, hfree⟩
  have hfind : Nat.find hex = bit := by
    rw [Nat.find_eq_iff]
    exact ⟨⟨hlt, hfree⟩, fun k hk hfound => hfound.2 (hlow k hk)⟩
  rw [findNSet, dif_pos hex, hfind]

end Slots

/-! ## Calls on bitmaps -/

/-- A call on one of the bitmaps, or on two of them. -/
inductive BitmapCall (ι : Type) where
  | set (i : ι) (bit : Nat)
  | clear (i : ι) (bit : Nat)
  | get (i : ι) (bit : Nat)
  | findNSet (i : ι)
  | copy (source target : ι)

namespace BitmapCall

variable {ι : Type} [DecidableEq ι]

def exec (maps : ι → Bitmap) : BitmapCall ι → (ι → Bitmap) × Int
  | set i bit => (update maps i ((maps i).set bit).1, ((maps i).set bit).2)
  | clear i bit => (update maps i ((maps i).clear bit).1, ((maps i).clear bit).2)
  | get i bit => (maps, (maps i).get bit)
  | findNSet i => (update maps i (maps i).findNSet.1, (maps i).findNSet.2)
  | copy i j => (update maps j ((maps i).copy (maps j)).1, ((maps i).copy (maps j)).2)

def execSlots (slots : ι → Slots) : BitmapCall ι → (ι → Slots) × Int
  | set i bit => (update slots i ((slots i).set bit).1, ((slots i).set bit).2)
  | clear i bit => (update slots i ((slots i).clear bit).1, ((slots i).clear bit).2)
  | get i bit => (slots, (slots i).get bit)
  | findNSet i => (update slots i (slots i).findNSet.1, (slots i).findNSet.2)
  | copy i j => (update slots j ((slots i).copy (slots j)).1, ((slots i).copy (slots j)).2)

end BitmapCall

namespace Bitmap

/-! ## The bits of a bitmap -/

def holds (map : Bitmap) (k : Nat) : Bool := (map.bitmap (byteOffset k)).getLsbD (bitOffset k)

def slots (map : Bitmap) : Slots :=
  ⟨map.bitmapSize, (Finset.range map.bitmapSize).filter fun k => map.holds k⟩

/-- All bits in front of the search position are set. -/
structure Searched (map : Bitmap) : Prop where
  le : map.searchPos ≤ map.size
  full : ∀ k < map.searchPos, map.bitmap k = 0xff#8

variable {map : Bitmap} {bit k p j : Nat} {byte : BitVec 8}

theorem mem_taken : k ∈ map.slots.taken ↔ k < map.bitmapSize ∧ map.holds k = true := by
  rw [slots, Finset.mem_filter, Finset.mem_range]

theorem shift_and_one (byte : BitVec 8) (j : Nat) :
    (byte >>> j) &&& 1#8 = if byte.getLsbD j then 1#8 else 0#8 := by
  apply BitVec.eq_of_getLsbD_eq
  intro i hi
  rw [BitVec.getLsbD_and, BitVec.getLsbD_ushiftRight, BitVec.getLsbD_one]
  cases i with
  | zero => cases byte.getLsbD j <;> simp
  | succ i => cases byte.getLsbD j <;> simp

theorem getLsbD_one_shiftLeft {i : Nat} (hi : i < 8) (j : Nat) : (1#8 <<< j).getLsbD i = decide (i = j) := by
  rw [BitVec.getLsbD_shiftLeft, BitVec.getLsbD_one, Bool.eq_iff_iff]
  simp only [Bool.and_eq_true, Bool.not_eq_true', decide_eq_true_eq, decide_eq_false_iff_not]
  omega

theorem old_eq (map : Bitmap) (bit : Nat) : map.old bit = if map.holds bit then 1 else 0 := by
  rw [old, shift_and_one, holds]
  cases (map.bitmap (byteOffset bit)).getLsbD (bitOffset bit) <;> rfl

theorem bitOffset_lt (k : Nat) : bitOffset k < 8 := Nat.mod_lt k (by decide)

theorem eq_iff_offsets : k = bit ↔ byteOffset k = byteOffset bit ∧ bitOffset k = bitOffset bit := by
  simp only [byteOffset, bitOffset, BITS_PER_BYTE]
  omega

theorem holds_update (map : Bitmap) (p : Nat) (byte : BitVec 8) (pos k : Nat) :
    holds ⟨map.size, pos, update map.bitmap p byte⟩ k =
      if byteOffset k = p then byte.getLsbD (bitOffset k) else map.holds k := by
  simp only [holds, Function.update_apply, apply_ite (fun b : BitVec 8 => b.getLsbD (bitOffset k))]

theorem holds_set (map : Bitmap) (bit pos k : Nat) :
    holds ⟨map.size, pos, update map.bitmap (byteOffset bit)
      (map.bitmap (byteOffset bit) ||| 1#8 <<< bitOffset bit)⟩ k = true ↔ k = bit ∨ map.holds k = true := by
  rw [eq_iff_offsets (k := k), holds_update]
  by_cases hbyte : byteOffset k = byteOffset bit
  · rw [if_pos hbyte, BitVec.getLsbD_or, getLsbD_one_shiftLeft (bitOffset_lt k), Bool.or_eq_true,
      decide_eq_true_eq, holds, hbyte]
    tauto
  · rw [if_neg hbyte]
    tauto

theorem holds_clear (map : Bitmap) (bit pos k : Nat) :
    holds ⟨map.size, pos, update map.bitmap (byteOffset bit)
      (map.bitmap (byteOffset bit) &&& ~~~(1#8 <<< bitOffset bit))⟩ k = true ↔ k ≠ bit ∧ map.holds k = true := by
  rw [Ne, eq_iff_offsets (k := k), holds_update]
  by_cases hbyte : byteOffset k = byteOffset bit
  · rw [if_pos hbyte, BitVec.getLsbD_and, BitVec.getLsbD_not, getLsbD_one_shiftLeft (bitOffset_lt k),
      Bool.and_eq_true, holds, hbyte]
    simp only [bitOffset_lt, decide_true, Bool.true_and, Bool.not_eq_true', decide_eq_false_iff_not]
    tauto
  · rw [if_neg hbyte]
    tauto

/-! ## Single operations -/

theorem slots_ext {size : Nat} {taken : Finset Nat} (hsize : map.bitmapSize = size)
    (htaken : ∀ k, k ∈ taken ↔ k < size ∧ map.holds k = true) : map.slots = ⟨size, taken⟩ := by
  subst hsize
  have htaken' : map.slots.taken = taken := by
    ext k
    rw [mem_taken, htaken]
  rw [← htaken']
  rfl

theorem slots_old (h : bit < map.bitmapSize) : map.slots.old bit = map.old bit := by
  rw [Slots.old, old_eq]
  apply if_congr _ rfl rfl
  rw [mem_taken]
  exact and_iff_right h

theorem lt_bitmapSize (h : bit < map.size) : bit < map.bitmapSize := by
  rw [bitmapSize, BITS_PER_BYTE]
  omega

/-- An index of a bit that is below the number of bytes, or not below the number of bits. -/
def InBytes (map : Bitmap) (bit : Nat) : Prop := bit < map.size ∨ map.bitmapSize ≤ bit

/-- The first byte that is not full is not the one that is passed by. -/
def FoundFirst (map : Bitmap) : Prop :=
  ∀ p < map.size, (∀ q < p, map.bitmap q = 0xff#8) → map.bitmap p ≠ BYTE_FULL_SET

theorem old_ne_err (map : Bitmap) (bit : Nat) : map.old bit ≠ SNET_BITMAP_ERR := by
  rw [old_eq]
  cases map.holds bit <;> decide

theorem guarded_iff (map' : Bitmap) {s : Slots} (h : bit < map.bitmapSize → map'.slots = s) :
    (((if map.size ≤ bit then (map, SNET_BITMAP_ERR) else (map', map.old bit)).1.slots,
        (if map.size ≤ bit then (map, SNET_BITMAP_ERR) else (map', map.old bit)).2) =
      if bit < map.bitmapSize then (s, map.slots.old bit) else (map.slots, SNET_BITMAP_ERR)) ↔
      map.InBytes bit := by
  rw [InBytes]
  by_cases hbit : bit < map.bitmapSize
  · rw [if_pos hbit, slots_old hbit]
    by_cases hbyte : map.size ≤ bit
    · rw [if_pos hbyte]
      constructor
      · intro heq
        cases old_ne_err map bit (Prod.mk.inj heq).2.symm
      · omega
    · rw [if_neg hbyte]
      exact iff_of_true (Prod.ext (h hbit) rfl) (.inl (Nat.lt_of_not_le hbyte))
  · have hbyte : map.size ≤ bit := by
      by_contra hlt
      exact hbit (lt_bitmapSize (Nat.lt_of_not_le hlt))
    rw [if_neg hbit, if_pos hbyte]
    exact iff_of_true rfl (.inr (Nat.le_of_not_lt hbit))

theorem slots_insert {map' : Bitmap} (hsize : map'.bitmapSize = map.bitmapSize) (hbit : bit < map.bitmapSize)
    (hholds : ∀ k, map'.holds k = true ↔ k = bit ∨ map.holds k = true) :
    map'.slots = { map.slots with taken := insert bit map.slots.taken } := by
  apply slots_ext hsize
  intro k
  rw [Finset.mem_insert, mem_taken, hholds]
  constructor
  · rintro (rfl | ⟨hk, hset⟩)
    · exact ⟨hbit, .inl rfl⟩
    · exact ⟨hk, .inr hset⟩
  · rintro ⟨hk, rfl | hset⟩
    · exact .inl rfl
    · exact .inr ⟨hk, hset⟩

theorem set_iff (map : Bitmap) (bit : Nat) :
    ((map.set bit).1.slots, (map.set bit).2) = map.slots.set bit ↔ map.InBytes bit := by
  apply guarded_iff
  intro hbit
  exact slots_insert rfl hbit (holds_set map bit map.searchPos)

theorem clear_iff (map : Bitmap) (bit : Nat) :
    ((map.clear bit).1.slots, (map.clear bit).2) = map.slots.clear bit ↔ map.InBytes bit := by
  apply guarded_iff
  intro _
  apply slots_ext rfl
  intro k
  rw [Finset.mem_erase, mem_taken, holds_clear]
  exact and_left_comm

theorem get_iff (map : Bitmap) (bit : Nat) : map.get bit = map.slots.get bit ↔ map.InBytes bit := by
  rw [← guarded_iff map (s := map.slots) fun _ => rfl, get, Slots.get,
    show map.slots.size = map.bitmapSize from rfl]
  by_cases hbyte : map.size ≤ bit
  · by_cases hbit : bit < map.bitmapSize
    · simp only [if_pos hbyte, if_pos hbit, Prod.mk.injEq, true_and]
    · simp only [if_pos hbyte, if_neg hbit]
  · simp only [if_neg hbyte, if_pos (lt_bitmapSize (Nat.lt_of_not_le hbyte)), Prod.mk.injEq, true_and]

theorem copy_slots (source target : Bitmap) :
    ((source.copy target).1.slots, (source.copy target).2) = source.slots.copy target.slots := by
  have hsize : target.slots.size < source.slots.size ↔ target.size < source.size := by
    change target.bitmapSize < source.bitmapSize ↔ _
    rw [bitmapSize, bitmapSize, BITS_PER_BYTE]
    omega
  rw [copy, Slots.copy]
  by_cases hlt : target.size < source.size
  · rw [if_pos hlt, if_pos (hsize.2 hlt)]
  · rw [if_neg hlt, if_neg (mt hsize.1 hlt)]
    refine Prod.ext (slots_ext rfl fun k => ?_) rfl
    have hbyte : k < source.bitmapSize ↔ byteOffset k < source.size := by
      rw [bitmapSize, byteOffset, BITS_PER_BYTE]
      omega
    have htarget : k < target.slots.size ↔ byteOffset k < target.size := by
      change k < target.bitmapSize ↔ _
      rw [bitmapSize, byteOffset, BITS_PER_BYTE]
      omega
    rw [mem_taken, hbyte, htarget, holds, holds]
    by_cases hsource : byteOffset k < source.size
    · simp only [if_pos hsource]
      have hle : byteOffset k < target.size := by omega
      exact and_congr_left fun _ => iff_of_true hsource hle
    · simp only [if_neg hsource]
      by_cases hk : byteOffset k < target.size
      · simp only [if_pos hk, hsource, false_and, false_iff, not_and]
        intro _ hzero
        rw [BitVec.getLsbD_zero] at hzero
        cases hzero
      · simp only [hk, hsource, false_and]

/-! ## The search -/

theorem clear_test (byte : BitVec 8) (i : Nat) : ((byte >>> i) &&& 1#8 == 0#8) = !byte.getLsbD i := by
  rw [shift_and_one]
  cases byte.getLsbD i <;> rfl

theorem firstClear_eq_some :
    firstClear byte = some j ↔ j < 8 ∧ byte.getLsbD j = false ∧ ∀ i < j, byte.getLsbD i = true := by
  simp only [firstClear, List.find?_range_eq_some, clear_test, Bool.not_eq_true', List.mem_range, Bool.not_not]
  exact and_left_comm

theorem getLsbD_full {i : Nat} (hi : i < 8) : (0xff#8).getLsbD i = true := by
  rw [show 0xff#8 = BitVec.allOnes 8 from rfl, BitVec.getLsbD_allOnes, decide_eq_true hi]

theorem firstClear_eq_none : firstClear byte = none ↔ byte = 0xff#8 := by
  simp only [firstClear, List.find?_range_eq_none, clear_test, Bool.not_not]
  constructor
  · intro h
    apply BitVec.eq_of_getLsbD_eq
    intro i hi
    rw [h i hi, getLsbD_full hi]
  · rintro rfl i hi
    exact getLsbD_full hi

/-- The bytes that the search passes by from one position to another one: those that are full, and those that
are taken to be. -/
def Passed (bitmap : Nat → BitVec 8) (pos p : Nat) : Prop :=
  ∀ q, pos ≤ q → q < p → bitmap q = 0xff#8 ∨ bitmap q = BYTE_FULL_SET

theorem Passed.cons {bitmap : Nat → BitVec 8} {pos : Nat} (h : Passed bitmap (pos + 1) p)
    (hpos : bitmap pos = 0xff#8 ∨ bitmap pos = BYTE_FULL_SET) : Passed bitmap pos p := by
  intro q hle hlt
  obtain rfl | hne := Nat.eq_or_lt_of_le hle
  · exact hpos
  · exact h q hne hlt

def Ends (bitmap : Nat → BitVec 8) (pos stop : Nat) : Nat × Option Nat → Prop
  | (p, some j) => pos ≤ p ∧ p < stop ∧ bitmap p ≠ BYTE_FULL_SET ∧ firstClear (bitmap p) = some j ∧
    Passed bitmap pos p
  | (p, none) => p = stop ∧ Passed bitmap pos stop

theorem Ends.cons {bitmap : Nat → BitVec 8} {pos stop : Nat} {r : Nat × Option Nat}
    (h : Ends bitmap (pos + 1) stop r) (hpos : bitmap pos = 0xff#8 ∨ bitmap pos = BYTE_FULL_SET) :
    Ends bitmap pos stop r := by
  obtain ⟨p, _ | j⟩ := r
  · exact ⟨h.1, h.2.cons hpos⟩
  · obtain ⟨hle, hlt, hne, hfirst, hpassed⟩ := h
    exact ⟨Nat.le_of_succ_le hle, hlt, hne, hfirst, hpassed.cons hpos⟩

theorem search_ends (bitmap : Nat → BitVec 8) (rounds pos : Nat) :
    Ends bitmap pos (pos + rounds) (search bitmap rounds pos) := by
  induction rounds generalizing pos with
  | zero => exact ⟨rfl, fun q hle hlt => absurd hlt (Nat.not_lt.2 hle)⟩
  | succ rounds ih =>
    have hrest := ih (pos + 1)
    rw [Nat.add_right_comm, Nat.add_assoc pos rounds 1] at hrest
    rw [search]
    by_cases hfull : bitmap pos = BYTE_FULL_SET
    · rw [if_neg (not_not.2 hfull)]
      exact hrest.cons (.inr hfull)
    · rw [if_pos hfull]
      cases hfirst : firstClear (bitmap pos) with
      | none => exact hrest.cons (.inl (firstClear_eq_none.1 hfirst))
      | some j =>
        refine ⟨Nat.le_refl pos, by omega, hfull, hfirst, ?_⟩
        intro q hle hlt
        omega

theorem findNSet_slots (hp : p < map.size) (hbefore : ∀ q < p, map.bitmap q = 0xff#8)
    (hj : firstClear (map.bitmap p) = some j) :
    map.slots.findNSet =
      ({ map.slots with taken := insert (p * BITS_PER_BYTE + j) map.slots.taken },
        ((p * BITS_PER_BYTE + j : Nat) : Int)) := by
  obtain ⟨hlt, hfree, hlow⟩ := firstClear_eq_some.1 hj
  have hbyte : byteOffset (p * BITS_PER_BYTE + j) = p := by
    rw [byteOffset, BITS_PER_BYTE]
    omega
  have hoffset : bitOffset (p * BITS_PER_BYTE + j) = j := by
    rw [bitOffset, BITS_PER_BYTE]
    omega
  have hsize : p * BITS_PER_BYTE + j < map.bitmapSize := by
    rw [bitmapSize, BITS_PER_BYTE]
    omega
  apply Slots.findNSet_eq
  · exact hsize
  · rw [mem_taken, holds, hbyte, hoffset, hfree]
    exact fun h => Bool.false_ne_true h.2
  · intro k hk
    refine mem_taken.2 ⟨Nat.lt_trans hk hsize, ?_⟩
    rw [holds]
    by_cases hbefore' : byteOffset k < p
    · rw [hbefore _ hbefore']
      exact getLsbD_full (bitOffset_lt k)
    · have heq : byteOffset k = p ∧ bitOffset k < j := by
        rw [byteOffset, BITS_PER_BYTE] at hbefore'
        rw [BITS_PER_BYTE] at hk
        rw [byteOffset, bitOffset, BITS_PER_BYTE]
        omega
      rw [heq.1]
      exact hlow _ heq.2

theorem findNSet_slots_full (hfull : ∀ q < map.size, map.bitmap q = 0xff#8) :
    map.slots.findNSet = (map.slots, SNET_BITMAP_ERR) := by
  rw [Slots.findNSet, dif_neg]
  rintro ⟨k, hk, hfree⟩
  have hsize : k < map.bitmapSize := hk
  refine hfree (mem_taken.2 ⟨hsize, ?_⟩)
  rw [bitmapSize, BITS_PER_BYTE] at hsize
  rw [holds, hfull _ (by rw [byteOffset, BITS_PER_BYTE]; omega)]
  exact getLsbD_full (bitOffset_lt k)

theorem full_of_passed (hsearched : map.Searched) (hfound : map.FoundFirst)
    (hpassed : Passed map.bitmap map.searchPos p) (hp : p ≤ map.size) : ∀ q < p, map.bitmap q = 0xff#8 := by
  intro q hq
  induction q using Nat.strongRecOn with
  | _ q ih =>
    by_cases hpos : q < map.searchPos
    · exact hsearched.full q hpos
    · obtain hfull | htaken := hpassed q (Nat.le_of_not_lt hpos) hq
      · exact hfull
      · have hbefore : ∀ r < q, map.bitmap r = 0xff#8 := fun r hr => ih r hr (Nat.lt_trans hr hq)
        exact absurd htaken (hfound q (Nat.lt_of_lt_of_le hq hp) hbefore)

theorem search_map (h : map.Searched) :
    Ends map.bitmap map.searchPos map.size (search map.bitmap (map.size - map.searchPos) map.searchPos) := by
  have hends := search_ends map.bitmap (map.size - map.searchPos) map.searchPos
  rwa [Nat.add_sub_cancel' h.le] at hends

theorem holds_found (map : Bitmap) (p : Nat) (hj : j < 8) (k : Nat) :
    holds ⟨map.size, p, update map.bitmap p (map.bitmap p ||| 1#8 <<< j)⟩ k = true ↔
      k = p * BITS_PER_BYTE + j ∨ map.holds k = true := by
  have hbyte : byteOffset (p * BITS_PER_BYTE + j) = p := by
    rw [byteOffset, BITS_PER_BYTE]
    omega
  have hoffset : bitOffset (p * BITS_PER_BYTE + j) = j := by
    rw [bitOffset, BITS_PER_BYTE]
    omega
  have hset := holds_set map (p * BITS_PER_BYTE + j) p k
  rwa [hbyte, hoffset] at hset

theorem findNSet_iff (h : map.Searched) :
    ((map.findNSet).1.slots, (map.findNSet).2) = map.slots.findNSet ↔ map.FoundFirst := by
  have hends := search_map h
  constructor
  · intro heq p hp hbefore hfull
    have hfirst : firstClear (map.bitmap p) = some 4 := by
      rw [hfull]
      rfl
    rw [findNSet_slots hp hbefore hfirst, findNSet] at heq
    rcases hsearch : search map.bitmap (map.size - map.searchPos) map.searchPos with ⟨q, _ | j⟩
    · rw [hsearch] at heq
      have herr := (Prod.mk.inj heq).2
      dsimp only [SNET_BITMAP_ERR, BITS_PER_BYTE] at herr
      omega
    · rw [hsearch] at hends heq
      obtain ⟨-, -, hne, hj, -⟩ := hends
      have hlt := (firstClear_eq_some.1 hj).1
      have hres := (Prod.mk.inj heq).2
      dsimp only [BITS_PER_BYTE] at hres
      have hpq : p = q := by omega
      subst hpq
      exact hne hfull
  · intro hfound
    rw [findNSet]
    rcases hsearch : search map.bitmap (map.size - map.searchPos) map.searchPos with ⟨p, _ | j⟩
    · rw [hsearch] at hends
      obtain ⟨rfl, hpassed⟩ := hends
      exact (findNSet_slots_full (full_of_passed h hfound hpassed (Nat.le_refl _))).symm
    · rw [hsearch] at hends
      obtain ⟨-, hp, -, hj, hpassed⟩ := hends
      obtain ⟨hlt, -, -⟩ := firstClear_eq_some.1 hj
      have hsize : p * BITS_PER_BYTE + j < map.bitmapSize := by
        rw [bitmapSize, BITS_PER_BYTE]
        omega
      rw [findNSet_slots hp (full_of_passed h hfound hpassed (Nat.le_of_lt hp)) hj]
      exact Prod.ext (slots_insert rfl hsize (holds_found map p hlt)) rfl

/-! ## The search position -/

theorem create_searched {size : Int} (h : create size = some map) : map.Searched := by
  rw [create] at h
  by_cases hsize : size ≤ 0 ∨ 2147483640 < size
  · rw [if_pos hsize] at h
    cases h
  · rw [if_neg hsize] at h
    cases h
    exact ⟨Nat.zero_le _, fun k hk => absurd hk (Nat.not_lt_zero k)⟩

theorem full_or (byte : BitVec 8) : 0xff#8 ||| byte = 0xff#8 := by
  rw [show 0xff#8 = BitVec.allOnes 8 from rfl, BitVec.allOnes_or]

theorem Searched.set (h : map.Searched) (bit : Nat) : (map.set bit).1.Searched := by
  rw [Bitmap.set]
  by_cases hbit : map.size ≤ bit
  · rwa [if_pos hbit]
  · rw [if_neg hbit]
    refine ⟨h.le, fun k hk => ?_⟩
    have hfull := h.full k hk
    dsimp only
    by_cases hbyte : k = byteOffset bit
    · rw [← hbyte, update_self, hfull, full_or]
    · rwa [update_of_ne hbyte]

theorem Searched.clear (h : map.Searched) (bit : Nat) : (map.clear bit).1.Searched := by
  rw [Bitmap.clear]
  by_cases hbit : map.size ≤ bit
  · rwa [if_pos hbit]
  · rw [if_neg hbit]
    have hle := h.le
    by_cases hlow : byteOffset bit < map.searchPos
    · rw [if_pos hlow]
      refine ⟨by dsimp only; omega, fun k hk => ?_⟩
      dsimp only at hk ⊢
      rw [update_of_ne (Nat.ne_of_lt hk)]
      exact h.full k (Nat.lt_trans hk hlow)
    · rw [if_neg hlow]
      refine ⟨hle, fun k hk => ?_⟩
      dsimp only at hk ⊢
      rw [update_of_ne (by omega)]
      exact h.full k hk

theorem Searched.findNSet (h : map.Searched) (hfound : map.FoundFirst) : map.findNSet.1.Searched := by
  have hends := search_map h
  rw [Bitmap.findNSet]
  rcases hsearch : search map.bitmap (map.size - map.searchPos) map.searchPos with ⟨p, _ | j⟩
  · rw [hsearch] at hends
    obtain ⟨rfl, hpassed⟩ := hends
    refine ⟨Nat.le_refl _, ?_⟩
    exact fun q hq => full_of_passed h hfound hpassed (Nat.le_refl _) q hq
  · rw [hsearch] at hends
    obtain ⟨-, hp, -, -, hpassed⟩ := hends
    refine ⟨Nat.le_of_lt hp, fun k hk => ?_⟩
    dsimp only at hk ⊢
    rw [update_of_ne (Nat.ne_of_lt hk)]
    exact full_of_passed h hfound hpassed (Nat.le_of_lt hp) k hk

theorem Searched.copy {source target : Bitmap} (hsource : source.Searched) (htarget : target.Searched) :
    (source.copy target).1.Searched := by
  rw [Bitmap.copy]
  by_cases hlt : target.size < source.size
  · rwa [if_pos hlt]
  · rw [if_neg hlt]
    have hle := hsource.le
    refine ⟨by dsimp only; omega, fun k hk => ?_⟩
    dsimp only at hk ⊢
    rw [if_pos (Nat.lt_of_lt_of_le hk hle)]
    exact hsource.full k hk

end Bitmap

/-! ## Runs -/

namespace BitmapCall

variable {ι : Type} [DecidableEq ι]

/-- Each call of the run does to the bitmaps what it does to the sets that they stand for, and returns the
same. -/
def Allocates (maps : ι → Bitmap) : List (BitmapCall ι) → Prop
  | [] => True
  | call :: calls =>
    (fun i => ((call.exec maps).1 i).slots, (call.exec maps).2) = call.execSlots (fun i => (maps i).slots) ∧
      Allocates (call.exec maps).1 calls

/-- An index of a bit is compared with the number of bits to the same effect as with the number of bytes, and
the first byte that is not full is not passed by. -/
def Careful (maps : ι → Bitmap) : BitmapCall ι → Prop
  | set i bit | clear i bit | get i bit => (maps i).InBytes bit
  | findNSet i => (maps i).FoundFirst
  | copy _ _ => True

def AllCareful (maps : ι → Bitmap) : List (BitmapCall ι) → Prop
  | [] => True
  | call :: calls => call.Careful maps ∧ AllCareful (call.exec maps).1 calls

variable {maps : ι → Bitmap} {call : BitmapCall ι}

theorem update_slots_iff (maps : ι → Bitmap) (i : ι) (map : Bitmap) (r r' : Int) (s : Slots) :
    (fun j => (update maps i map j).slots, r) =
      (update (fun j => (maps j).slots) i s, r') ↔ (map.slots, r) = (s, r') := by
  rw [Prod.mk.injEq, Prod.mk.injEq]
  apply and_congr_left
  intro _
  have hupdate : (fun j => (update maps i map j).slots) =
      update (fun j => (maps j).slots) i map.slots := by
    funext j
    exact Function.apply_update (fun _ => Bitmap.slots) maps i map j
  rw [hupdate]
  constructor
  · intro h
    have hi := congrFun h i
    rwa [update_self, update_self] at hi
  · intro h
    rw [h]

theorem exec_slots_iff (h : ∀ i, (maps i).Searched) :
    (fun i => ((call.exec maps).1 i).slots, (call.exec maps).2) = call.execSlots (fun i => (maps i).slots) ↔
      call.Careful maps := by
  cases call with
  | set i bit => exact (update_slots_iff maps i _ _ _ _).trans ((maps i).set_iff bit)
  | clear i bit => exact (update_slots_iff maps i _ _ _ _).trans ((maps i).clear_iff bit)
  | get i bit =>
    rw [exec, execSlots, Prod.mk.injEq, eq_self, true_and]
    exact (maps i).get_iff bit
  | findNSet i => exact (update_slots_iff maps i _ _ _ _).trans (Bitmap.findNSet_iff (h i))
  | copy i j => exact iff_of_true ((update_slots_iff maps j _ _ _ _).2 (Bitmap.copy_slots _ _)) trivial

theorem exec_searched (h : ∀ i, (maps i).Searched) (hcareful : call.Careful maps) (i : ι) :
    ((call.exec maps).1 i).Searched := by
  have hupdate : ∀ (i : ι) {map : Bitmap}, map.Searched → ∀ j, (update maps i map j).Searched := by
    intro i map hmap j
    by_cases hj : j = i
    · rwa [hj, update_self]
    · rw [update_of_ne hj]
      exact h j
  cases call with
  | set j bit => exact hupdate j ((h j).set bit) i
  | clear j bit => exact hupdate j ((h j).clear bit) i
  | get j bit => exact h i
  | findNSet j => exact hupdate j ((h j).findNSet hcareful) i
  | copy source target => exact hupdate target ((h source).copy (h target)) i

theorem allocates_iff (h : ∀ i, (maps i).Searched) (calls : List (BitmapCall ι)) :
    Allocates maps calls ↔ AllCareful maps calls := by
  induction calls generalizing maps with
  | nil => exact Iff.rfl
  | cons call calls ih =>
    rw [Allocates, AllCareful, exec_slots_iff h]
    apply and_congr_right
    intro hcareful
    exact ih (exec_searched h hcareful)

/-- Bitmaps allocate bits as sets do just in the runs all of whose calls are careful. -/
theorem bitmaps_allocate_iff (hcreate : ∀ i, ∃ size, Bitmap.create size = some (maps i))
    (calls : List (BitmapCall ι)) : Allocates maps calls ↔ AllCareful maps calls := by
  apply allocates_iff
  intro i
  obtain ⟨size, hsize⟩ := hcreate i
  exact Bitmap.create_searched hsize

def twoBytes : Unit → Bitmap := fun _ => ⟨2, 0, fun _ => 0#8⟩

theorem twoBytes_created (i : Unit) : ∃ size, Bitmap.create size = some (twoBytes i) := ⟨16, rfl⟩

theorem bitmaps_allocate_iff_two : Allocates twoBytes [.findNSet (), .set () 1, .get () 16] :=
  (bitmaps_allocate_iff twoBytes_created _).2
    ⟨fun _ _ _ => show 0#8 ≠ BYTE_FULL_SET by decide, .inl (by decide), .inr (by decide), trivial⟩

/-- The third of 16 bits is not accepted, and after four bits the fifth one is passed by. -/
theorem bits_beyond_bytes : (∀ i, ∃ size, Bitmap.create size = some (twoBytes i)) ∧
    ¬ Allocates twoBytes [.set () 2] ∧ ¬ Allocates twoBytes (List.replicate 5 (.findNSet ())) := by
  have hsearched : ∀ i, (twoBytes i).Searched := 
    fun i => Bitmap.create_searched (show Bitmap.create 16 = some (twoBytes i) from rfl)
  refine ⟨twoBytes_created, ?_, ?_⟩
  · intro h
    obtain ⟨hlow | hhigh, -⟩ := (allocates_iff hsearched _).1 h
    · exact absurd hlow (by decide)
    · exact absurd hhigh (by decide)
  · intro h
    obtain ⟨-, -, -, -, hfound, -⟩ := (allocates_iff hsearched _).1 h
    exact hfound 0 (by decide) (fun q hq => absurd hq (Nat.not_lt_zero q)) rfl

end BitmapCall

end SNet
