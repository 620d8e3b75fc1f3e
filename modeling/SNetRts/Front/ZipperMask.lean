import Mathlib.Data.Finset.Range
import Mathlib.Data.Finset.Erase
import Mathlib.Data.Finset.Filter

/-!
# The masks of the zipper

The macros of `front/xzipper.c` for the patterns of a matching that are still sought for. A mask is an
`unsigned long` of 64 bits, but the bits in `HAS_BIT` and `CLR_BIT` are made from the literal 1, which is
an `int`. A shift that C leaves undefined is `none`: an `int` is shifted out of its range from bit 31 on,
an `unsigned long` by its whole width at 64.
-/

namespace SNet.Front.ZipperMask

/-- `1 << bit`. -/
def intBit (bit : Nat) : Option (BitVec 32) := if bit < 31 then some (1#32 <<< bit) else none

/-- `HAS_BIT`: the `int` is converted to the type of the mask. -/
def hasBit (mask : BitVec 64) (bit : Nat) : Option Bool :=
  (intBit bit).map fun b => decide (mask &&& b.signExtend 64 ≠ 0#64)

/-- `CLR_BIT`: the mask then. The complement is still an `int`. -/
def clrBit (mask : BitVec 64) (bit : Nat) : Option (BitVec 64) :=
  (intBit bit).map fun b => mask &&& (~~~b).signExtend 64

/-- `NEW_MASK`. -/
def newMask (width : Nat) : Option (BitVec 64) :=
  if width < 64 then some (1#64 <<< width - 1#64) else none

/-- The masks of a zipper node with `width` patterns: those of new matchings and of records that have not
been tested, without bits that have been cleared, and what two of them have in common. -/
inductive Reachable (width : Nat) : BitVec 64 → Prop
  | new {mask : BitVec 64} (h : newMask width = some mask) : Reachable width mask
  | clr {mask mask' : BitVec 64} {i : Nat} (hmask : Reachable width mask) (hi : i < width)
      (h : clrBit mask i = some mask') : Reachable width mask'
  | both {mask mask' : BitVec 64} (hmask : Reachable width mask) (hmask' : Reachable width mask') :
      Reachable width (mask &&& mask')

def indices (mask : BitVec 64) : Finset Nat := (Finset.range 64).filter fun i => mask.getLsbD i = true

/-- The masks are the sets of patterns, with membership and removal. -/
structure AreSets (width : Nat) : Prop where
  new : ∃ mask, newMask width = some mask ∧ indices mask = Finset.range width
  hasBit : ∀ mask, Reachable width mask → ∀ i < width, hasBit mask i = some (decide (i ∈ indices mask))
  clrBit : ∀ mask, Reachable width mask → ∀ i < width,
    ∃ mask', clrBit mask i = some mask' ∧ indices mask' = (indices mask).erase i
  zero : ∀ mask, Reachable width mask → (mask = 0#64 ↔ indices mask = ∅)

theorem mem_indices {mask : BitVec 64} {i : Nat} : i ∈ indices mask ↔ mask.getLsbD i = true := by
  rw [indices, Finset.mem_filter, Finset.mem_range, and_iff_right_iff_imp]
  intro h
  exact BitVec.lt_of_getLsbD h

theorem indices_eq_empty {mask : BitVec 64} : indices mask = ∅ ↔ mask = 0#64 := by
  constructor
  · intro h
    refine BitVec.eq_of_getLsbD_eq fun i _ => ?_
    rw [BitVec.getLsbD_zero, ← Bool.not_eq_true, ← mem_indices, h]
    exact Finset.notMem_empty i
  · rintro rfl
    refine Finset.eq_empty_of_forall_notMem fun i hi => ?_
    rw [mem_indices, BitVec.getLsbD_zero] at hi
    cases hi

/-! ## Single bits -/

theorem signExtend_bit {bit : Nat} (h : bit < 31) :
    (1#32 <<< bit).signExtend 64 = BitVec.twoPow 64 bit := by
  have hall : ∀ bit : Fin 31, (1#32 <<< bit.val).signExtend 64 = BitVec.twoPow 64 bit.val := by decide
  exact hall ⟨bit, h⟩

theorem signExtend_not_bit {bit : Nat} (h : bit < 31) :
    (~~~(1#32 <<< bit)).signExtend 64 = ~~~BitVec.twoPow 64 bit := by
  have hall : ∀ bit : Fin 31, (~~~(1#32 <<< bit.val)).signExtend 64 = ~~~BitVec.twoPow 64 bit.val := by
    decide
  exact hall ⟨bit, h⟩

theorem hasBit_eq (mask : BitVec 64) {bit : Nat} (h : bit < 31) :
    hasBit mask bit = some (decide (bit ∈ indices mask)) := by
  rw [hasBit, intBit, if_pos h, Option.map_some, signExtend_bit h, BitVec.and_twoPow]
  congr 1
  rw [decide_eq_decide, mem_indices]
  split
  case isTrue hbit =>
    refine iff_of_true (fun hzero => ?_) hbit
    have := congrArg (BitVec.getLsbD · bit) hzero
    simp [Nat.lt_trans h (by decide : 31 < 64)] at this
  case isFalse hbit => exact iff_of_false (fun hne => hne rfl) hbit

theorem clrBit_eq (mask : BitVec 64) {bit : Nat} (h : bit < 31) :
    ∃ mask', clrBit mask bit = some mask' ∧ indices mask' = (indices mask).erase bit := by
  refine ⟨mask &&& ~~~BitVec.twoPow 64 bit, ?_, ?_⟩
  · rw [clrBit, intBit, if_pos h, Option.map_some, signExtend_not_bit h]
  · ext i
    rw [Finset.mem_erase, mem_indices, mem_indices, BitVec.getLsbD_and, BitVec.getLsbD_not,
      BitVec.getLsbD_twoPow, Bool.and_eq_true]
    constructor
    · rintro ⟨hmask, hnot⟩
      refine ⟨?_, hmask⟩
      rintro rfl
      simp at hnot
    · rintro ⟨hne, hmask⟩
      have hi : i < 64 := BitVec.lt_of_getLsbD hmask
      refine ⟨hmask, ?_⟩
      simp [hi, Ne.symm hne]

theorem newMask_eq {width : Nat} (h : width < 64) :
    ∃ mask, newMask width = some mask ∧ indices mask = Finset.range width := by
  refine ⟨_, if_pos h, ?_⟩
  ext i
  have hpow : 2 ^ width < 2 ^ 64 := Nat.pow_lt_pow_right (by decide) h
  have hpos : 0 < 2 ^ width := Nat.two_pow_pos width
  have hbit : (1#64 <<< width).toNat = 2 ^ width := by
    rw [← BitVec.twoPow_eq, BitVec.toNat_twoPow_of_lt h]
  have hnat : (1#64 <<< width - 1#64).toNat = 2 ^ width - 1 := by
    rw [BitVec.toNat_sub_of_le (by rw [BitVec.le_def, hbit]; exact hpos), hbit]
    rfl
  rw [mem_indices, Finset.mem_range, BitVec.getLsbD, hnat, Nat.testBit_two_pow_sub_one, decide_eq_true_eq]

theorem AreSets.le {width : Nat} (h : AreSets width) : width ≤ 31 := by
  obtain ⟨mask, hnew, -⟩ := h.new
  by_contra hgt
  have hbit := h.hasBit mask (.new hnew) 31 (by omega)
  rw [ZipperMask.hasBit, intBit, if_neg (by decide)] at hbit
  cases hbit

/-- The masks of the widths that `SNetZipper` accepts are sets, with every macro defined, if and only if
there are at most 31 patterns. -/
theorem masks_are_sets_iff {width : Nat} (hpos : 1 ≤ width) (hmax : width ≤ 64) :
    AreSets width ↔ width ≤ 31 :=
  ⟨AreSets.le, fun h => ⟨newMask_eq (by omega), fun mask _ i hi => hasBit_eq mask (by omega),
    fun mask _ i hi => clrBit_eq mask (by omega), fun _ _ => indices_eq_empty.symm⟩⟩

theorem masks_not_sets : newMask 64 = none ∧ (∃ mask, Reachable 32 mask ∧ hasBit mask 31 = none) ∧
    ¬AreSets 32 ∧ ¬AreSets 64 :=
  ⟨rfl, ⟨_, .new rfl, rfl⟩, fun h => absurd h.le (by decide), fun h => absurd h.le (by decide)⟩

theorem masks_are_sets_three : AreSets 3 ↔ 3 ≤ 31 := masks_are_sets_iff (by decide) (by decide)

end SNet.Front.ZipperMask
