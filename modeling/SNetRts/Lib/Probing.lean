import Mathlib.Data.Nat.Prime.Basic
import Mathlib.Data.Int.ModEq
import Mathlib.Data.Fintype.EquivFin
import Mathlib.Tactic.Ring

/-!
# Probing with triangular numbers

In a table of `2 ^ n` slots a key is looked for at its own place, one slot further, two slots further
from there, and so on. The slots of the first `2 ^ n` probes are all different, so that they are all
slots there are.
-/

namespace Lib.Probing

/-- `0 + 1 + … + i`. -/
def tri : Nat → Nat
  | 0 => 0
  | i + 1 => tri i + (i + 1)

theorem two_mul_tri (i : Nat) : 2 * tri i = i * (i + 1) := by
  induction i with
  | zero => rfl
  | succ i ih =>
    rw [tri, Nat.mul_add, ih]
    ring

/-- The place of a number in a table of `size` slots. -/
def place (size : Nat) (k : Int) : Nat := (k % size).toNat

/-- The slot of the `i`-th probe. -/
def slot (n : Nat) (k : Int) (i : Nat) : Nat := place (2 ^ n) (k + tri i)

theorem place_lt {size : Nat} (h : 0 < size) (k : Int) : place size k < size := by
  unfold place
  have h1 := Int.emod_nonneg k (b := size) (by omega)
  have h2 := Int.emod_lt_of_pos k (b := size) (by omega)
  omega

theorem slot_lt (n : Nat) (k : Int) (i : Nat) : slot n k i < 2 ^ n :=
  place_lt (Nat.two_pow_pos n) _

theorem place_place_add {size : Nat} (h : 0 < size) (k : Int) (i : Nat) :
    place size (place size k + i) = place size (k + i) := by
  unfold place
  have h1 := Int.emod_nonneg k (b := size) (by omega)
  rw [Int.toNat_of_nonneg h1, Int.emod_add_emod]

theorem eq_of_dvd_sub {n i j : Nat} (hle : i ≤ j) (hj : j < 2 ^ n) (h : 2 ^ n ∣ tri j - tri i) :
    i = j := by
  obtain ⟨d, rfl⟩ := Nat.exists_eq_add_of_le hle
  have hprod : 2 ^ (n + 1) ∣ d * (2 * i + d + 1) := by
    obtain ⟨c, hc⟩ := h
    refine ⟨c, ?_⟩
    have h1 := two_mul_tri i
    have h2 := two_mul_tri (i + d)
    have hdiff : 2 * (tri (i + d) - tri i) = d * (2 * i + d + 1) := by
      have hexp : (i + d) * (i + d + 1) = i * (i + 1) + d * (2 * i + d + 1) := by ring
      omega
    rw [← hdiff, hc, pow_succ]
    ring
  have hlt : 2 ^ (n + 1) = 2 * 2 ^ n := by
    rw [pow_succ]
    ring
  rcases Nat.even_or_odd d with heven | hodd
  · -- the sum is odd, so that the difference is a multiple
    have hcop : Nat.Coprime (2 ^ (n + 1)) (2 * i + d + 1) := by
      apply Nat.Coprime.pow_left
      rw [Nat.coprime_two_left]
      obtain ⟨e, rfl⟩ := heven
      exact ⟨i + e, by ring⟩
    have hd : 2 ^ (n + 1) ∣ d := hcop.dvd_of_dvd_mul_right hprod
    have hzero : d = 0 := by
      apply Nat.eq_zero_of_dvd_of_lt hd
      omega
    omega
  · -- the difference is odd, and the sum is too small to be a multiple
    have hcop : Nat.Coprime (2 ^ (n + 1)) d := by
      apply Nat.Coprime.pow_left
      exact Nat.coprime_two_left.2 hodd
    have hsum : 2 ^ (n + 1) ∣ 2 * i + d + 1 := hcop.dvd_of_dvd_mul_left hprod
    have hle := Nat.le_of_dvd (by omega) hsum
    omega

theorem dvd_of_slot_eq {n i j : Nat} {k : Int} (hle : i ≤ j) (h : slot n k i = slot n k j) :
    2 ^ n ∣ tri j - tri i := by
  have hmono : tri i ≤ tri j := by
    have h1 := two_mul_tri i
    have h2 := two_mul_tri j
    have := Nat.mul_le_mul hle (Nat.succ_le_succ hle)
    simp only [Nat.succ_eq_add_one] at this
    omega
  unfold slot place at h
  have hpos : (0 : Int) < (2 ^ n : Nat) := by exact_mod_cast Nat.two_pow_pos n
  have h1 := Int.emod_nonneg (k + tri i) hpos.ne'
  have h2 := Int.emod_nonneg (k + tri j) hpos.ne'
  have heq : (k + tri i) % (2 ^ n : Nat) = (k + tri j) % (2 ^ n : Nat) := by omega
  have hdvd := Int.ModEq.dvd heq
  have hsub : k + tri j - (k + tri i) = ((tri j - tri i : Nat) : Int) := by omega
  rw [hsub] at hdvd
  exact_mod_cast hdvd

theorem slot_inj {n i j : Nat} {k : Int} (hi : i < 2 ^ n) (hj : j < 2 ^ n)
    (h : slot n k i = slot n k j) : i = j := by
  rcases Nat.le_total i j with hle | hle
  · exact eq_of_dvd_sub hle hj (dvd_of_slot_eq hle h)
  · exact (eq_of_dvd_sub hle hi (dvd_of_slot_eq hle h.symm)).symm

theorem exists_slot {n p : Nat} (k : Int) (hp : p < 2 ^ n) : ∃ i, i < 2 ^ n ∧ slot n k i = p := by
  have hinj : Function.Injective fun i : Fin (2 ^ n) => (⟨slot n k i, slot_lt n k i⟩ : Fin (2 ^ n)) := by
    intro i j h
    exact Fin.ext (slot_inj i.2 j.2 (Fin.mk.inj h))
  obtain ⟨i, hi⟩ := Finite.surjective_of_injective hinj ⟨p, hp⟩
  exact ⟨i, i.2, Fin.mk.inj hi⟩

end Lib.Probing
