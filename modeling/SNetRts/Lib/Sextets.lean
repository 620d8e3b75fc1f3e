import Mathlib.Data.UInt
import Mathlib.Tactic.IntervalCases
import Mathlib.Tactic.NormNum

/-!
# Sextets

Bytes are cut into groups of six bits, most significant ones first: three bytes are four sextets. Of one
or two bytes at the end the last sextet is filled up with zeros. Each byte is put together again from two
sextets that are next to each other.
-/

namespace Lib

def sextets : List UInt8 → List UInt8
  | a :: b :: c :: rest =>
    a >>> 2 :: ((a &&& 3) <<< 4 ||| b >>> 4) :: ((b &&& 15) <<< 2 ||| c >>> 6) :: (c &&& 63) :: sextets rest
  | [a, b] => [a >>> 2, (a &&& 3) <<< 4 ||| b >>> 4, (b &&& 15) <<< 2 ||| (0 : UInt8) >>> 6]
  | [a] => [a >>> 2, (a &&& 3) <<< 4 ||| (0 : UInt8) >>> 4]
  | [] => []

namespace Sextets

variable {a b c : UInt8} {s : List UInt8}

theorem length (s : List UInt8) : (sextets s).length = (s.length * 8 + 5) / 6 := by
  induction s using sextets.induct with
  | case1 a b c rest ih =>
    simp only [sextets, List.length_cons, ih]
    omega
  | case2 a b => simp [sextets]
  | case3 a => simp [sextets]
  | case4 => simp [sextets]

theorem eq_of_bits {x y : UInt8} (h : ∀ i < 8, x.toBitVec.getLsbD i = y.toBitVec.getLsbD i) : x = y := by
  apply UInt8.toBitVec_inj.1
  apply BitVec.eq_of_getLsbD_eq
  exact h

theorem high (a b : UInt8) : a >>> 2 <<< 2 ||| ((a &&& 3) <<< 4 ||| b >>> 4) >>> 4 = a := by
  apply eq_of_bits
  intro i hi
  simp only [UInt8.toBitVec_or, UInt8.toBitVec_and, UInt8.toBitVec_shiftLeft, UInt8.toBitVec_shiftRight]
  generalize a.toBitVec = x
  generalize b.toBitVec = y
  interval_cases i <;> simp

theorem middle (a b c : UInt8) :
    (((a &&& 3) <<< 4 ||| b >>> 4) &&& 15) <<< 4 ||| ((b &&& 15) <<< 2 ||| c >>> 6) >>> 2 = b := by
  apply eq_of_bits
  intro i hi
  simp only [UInt8.toBitVec_or, UInt8.toBitVec_and, UInt8.toBitVec_shiftLeft, UInt8.toBitVec_shiftRight]
  generalize a.toBitVec = x
  generalize b.toBitVec = y
  generalize c.toBitVec = z
  interval_cases i <;> simp

theorem low (b c : UInt8) : ((b &&& 15) <<< 2 ||| c >>> 6) <<< 6 ||| (c &&& 63) = c := by
  apply eq_of_bits
  intro i hi
  simp only [UInt8.toBitVec_or, UInt8.toBitVec_and, UInt8.toBitVec_shiftLeft, UInt8.toBitVec_shiftRight]
  generalize b.toBitVec = y
  generalize c.toBitVec = z
  interval_cases i <;> simp

theorem lt_of_bits {x : UInt8} (h6 : x.toBitVec.getLsbD 6 = false) (h7 : x.toBitVec.getLsbD 7 = false) :
    x.toNat < 64 := by
  apply Nat.lt_pow_two_of_testBit (n := 6)
  intro i hi
  rcases Nat.lt_or_ge i 8 with hlt | hge
  · interval_cases i
    · exact h6
    · exact h7
  · exact BitVec.getLsbD_of_ge x.toBitVec i hge

theorem lt {x : UInt8} (hx : x ∈ sextets s) : x.toNat < 64 := by
  induction s using sextets.induct with
  | case1 a b c rest ih =>
    simp only [sextets, List.mem_cons] at hx
    rcases hx with rfl | rfl | rfl | rfl | hx
    · apply lt_of_bits <;> simp
    · apply lt_of_bits <;> simp
    · apply lt_of_bits <;> simp
    · apply lt_of_bits <;> simp
    · exact ih hx
  | case2 a b =>
    simp only [sextets, List.mem_cons, List.not_mem_nil, or_false] at hx
    rcases hx with rfl | rfl | rfl <;> apply lt_of_bits <;> simp
  | case3 a =>
    simp only [sextets, List.mem_cons, List.not_mem_nil, or_false] at hx
    rcases hx with rfl | rfl <;> apply lt_of_bits <;> simp
  | case4 => cases hx

end Sextets

end Lib
