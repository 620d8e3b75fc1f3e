import Mathlib.Data.List.Perm.Basic
import Mathlib.Logic.Equiv.Basic
import Mathlib.Data.List.Nodup
import Mathlib.Data.List.Range
import Mathlib.Algebra.GroupWithZero.Nat

/-!
# Rearranging a segment of an array

An array is a function from its indices. `Shuffles lo hi f f'` says that `f'` is `f` with the entries from
`lo` to `hi` in another order, which is what a loop of swaps within the segment leaves.

`Groups` cuts a segment into consecutive groups, each of the entries that are related to its first.
-/

namespace Lib

open List

variable {α : Type*}

/-- `f'` has the entries of `f`, with those from `lo` up to `hi` rearranged. -/
def Shuffles (lo hi : Nat) (f f' : Nat → α) : Prop :=
  ∃ σ : Equiv.Perm Nat, (∀ t, t < lo ∨ hi ≤ t → σ t = t) ∧ f' = f ∘ σ

namespace Shuffles

variable {lo hi : Nat} {f f' f'' : Nat → α}

theorem refl (lo hi : Nat) (f : Nat → α) : Shuffles lo hi f f := ⟨Equiv.refl Nat, fun _ _ => rfl, rfl⟩

theorem trans (h : Shuffles lo hi f f') (h' : Shuffles lo hi f' f'') : Shuffles lo hi f f'' := by
  obtain ⟨σ, hσ, rfl⟩ := h
  obtain ⟨τ, hτ, rfl⟩ := h'
  refine ⟨τ.trans σ, ?_, rfl⟩
  intro t ht
  rw [Equiv.trans_apply, hτ t ht, hσ t ht]

theorem mono {lo' : Nat} (h : Shuffles lo hi f f') (hlo : lo' ≤ lo) : Shuffles lo' hi f f' := by
  obtain ⟨σ, hσ, rfl⟩ := h
  exact ⟨σ, fun t ht => hσ t (by omega), rfl⟩

theorem swap (f : Nat → α) {i j : Nat} (hi' : lo ≤ i ∧ i < hi) (hj : lo ≤ j ∧ j < hi) :
    Shuffles lo hi f (f ∘ Equiv.swap i j) :=
  ⟨Equiv.swap i j, fun _ _ => Equiv.swap_apply_of_ne_of_ne (by omega) (by omega), rfl⟩

theorem outside (h : Shuffles lo hi f f') {t : Nat} (ht : t < lo ∨ hi ≤ t) : f' t = f t := by
  obtain ⟨σ, hσ, rfl⟩ := h
  rw [Function.comp_apply, hσ t ht]

theorem perm_mem {σ : Equiv.Perm Nat} (hσ : ∀ t, t < lo ∨ hi ≤ t → σ t = t) {t : Nat} (ht : lo ≤ t ∧ t < hi) :
    lo ≤ σ t ∧ σ t < hi := by
  by_contra hout
  have hfix : σ (σ t) = σ t := hσ (σ t) (by omega)
  have := σ.injective hfix
  omega

theorem exists_source (h : Shuffles lo hi f f') {t : Nat} (ht : lo ≤ t ∧ t < hi) :
    ∃ u, lo ≤ u ∧ u < hi ∧ f' t = f u := by
  obtain ⟨σ, hσ, rfl⟩ := h
  obtain ⟨hl, hh⟩ := perm_mem hσ ht
  exact ⟨σ t, hl, hh, rfl⟩

theorem symm (h : Shuffles lo hi f f') : Shuffles lo hi f' f := by
  obtain ⟨σ, hσ, rfl⟩ := h
  refine ⟨σ.symm, ?_, ?_⟩
  · intro t ht
    rw [Equiv.symm_apply_eq]
    exact (hσ t ht).symm
  · funext t
    rw [Function.comp_apply, Function.comp_apply, Equiv.apply_symm_apply]

theorem perm (h : Shuffles 0 hi f f') : ((List.range hi).map f').Perm ((List.range hi).map f) := by
  obtain ⟨σ, hσ, rfl⟩ := h
  rw [← map_map]
  apply List.Perm.map
  rw [perm_ext_iff_of_nodup (List.Nodup.map σ.injective nodup_range) nodup_range]
  intro t
  rw [List.mem_map, mem_range]
  constructor
  · rintro ⟨u, hu, rfl⟩
    exact (perm_mem hσ ⟨Nat.zero_le u, mem_range.1 hu⟩).2
  · intro ht
    refine ⟨σ.symm t, ?_, σ.apply_symm_apply t⟩
    have hinv : ∀ t, t < 0 ∨ hi ≤ t → σ.symm t = t := by
      intro t ht
      rw [Equiv.symm_apply_eq]
      exact (hσ t ht).symm
    exact mem_range.2 (perm_mem hinv ⟨Nat.zero_le t, ht⟩).2

end Shuffles

/-! ## Groups -/

/-- The segment from `i` to `count` falls into groups of these sizes, each of the entries from its first on
that are related to it, with none of those behind. -/
def Groups (r : α → α → Prop) (f : Nat → α) (count : Nat) : Nat → List Nat → Prop
  | i, [] => i = count
  | i, s :: ss =>
    0 < s ∧ i + s ≤ count ∧ (∀ t, i ≤ t → t < i + s → r (f t) (f i)) ∧
      (∀ t, i + s ≤ t → t < count → ¬ r (f t) (f i)) ∧ Groups r f count (i + s) ss

namespace Groups

variable {r : α → α → Prop} {f f' : Nat → α} {count i : Nat} {ss : List Nat}

theorem pos (h : Groups r f count i ss) : ∀ s ∈ ss, 0 < s := by
  induction ss generalizing i with
  | nil => simp
  | cons s ss ih =>
    obtain ⟨hs, -, -, -, h⟩ := h
    exact forall_mem_cons.2 ⟨hs, ih h⟩

theorem sum (h : Groups r f count i ss) : i + ss.sum = count := by
  induction ss generalizing i with
  | nil =>
    have hi : i = count := h
    rw [sum_nil, hi, Nat.add_zero]
  | cons s ss ih =>
    obtain ⟨-, -, -, -, h⟩ := h
    rw [sum_cons, ← Nat.add_assoc]
    exact ih h

theorem last (hr : Equivalence r) {init : List Nat} {s : Nat} (h : Groups r f count i (init ++ [s])) {t : Nat}
    (ht : i ≤ t ∧ t < i + init.sum) : ¬ r (f (i + init.sum)) (f t) := by
  induction init generalizing i with
  | nil =>
    rw [sum_nil] at ht
    omega
  | cons s' init ih =>
    have hsum := h.sum
    obtain ⟨-, -, hin, hout, h⟩ := h
    have hs := h.pos s (mem_append_right init (mem_singleton_self s))
    simp only [cons_append, sum_cons, sum_append, sum_nil] at ht hsum ⊢
    rw [← Nat.add_assoc]
    by_cases hlt : t < i + s'
    · intro hrel
      exact hout _ (by omega) (by omega) (hr.trans hrel (hin t ht.1 hlt))
    · exact ih h ⟨by omega, by omega⟩

theorem cons {s : Nat} (hs : 0 < s) (hle : i + s ≤ count) (hin : ∀ t, i ≤ t → t < i + s → r (f t) (f i))
    (hout : ∀ t, i + s ≤ t → t < count → ¬ r (f t) (f i)) (hf : Shuffles (i + s) count f f')
    (h : Groups r f' count (i + s) ss) : Groups r f' count i (s :: ss) := by
  have hi : f' i = f i := hf.outside (Or.inl (by omega))
  refine ⟨hs, hle, ?_, ?_, h⟩
  · intro t hit hts
    rw [hi, hf.outside (Or.inl hts)]
    exact hin t hit hts
  · intro t hts htc
    obtain ⟨u, hlu, huc, htu⟩ := hf.exists_source ⟨hts, htc⟩
    rw [hi, htu]
    exact hout u hlu huc

theorem two (hr : Equivalence r) (h : Groups r f count 0 ss) (hss : ss.length ≤ 2) {x y z : Nat}
    (hx : x < count) (hy : y < count) (hz : z < count) : r (f x) (f y) ∨ r (f x) (f z) ∨ r (f y) (f z) := by
  rcases ss with _ | ⟨s, ss⟩
  · have hc : 0 = count := h
    omega
  · obtain ⟨-, -, hin, -, h⟩ := h
    have hfirst : ∀ {t u : Nat}, t < s → u < s → r (f t) (f u) := fun ht hu =>
      hr.trans (hin _ (Nat.zero_le _) (by omega)) (hr.symm (hin _ (Nat.zero_le _) (by omega)))
    have hsecond : ∀ {t u : Nat}, s ≤ t → t < count → s ≤ u → u < count → r (f t) (f u) := by
      intro t u ht htc hu huc
      rcases ss with _ | ⟨s', ss⟩
      · have hc : 0 + s = count := h
        omega
      · have hnil : ss = [] := by simpa using hss
        subst hnil
        obtain ⟨-, -, hin', -, hc⟩ := h
        have hc : 0 + s + s' = count := hc
        exact hr.trans (hin' t (by omega) (by omega)) (hr.symm (hin' u (by omega) (by omega)))
    by_cases hxs : x < s
    · by_cases hys : y < s
      · exact Or.inl (hfirst hxs hys)
      · by_cases hzs : z < s
        · exact Or.inr (Or.inl (hfirst hxs hzs))
        · exact Or.inr (Or.inr (hsecond (by omega) hy (by omega) hz))
    · by_cases hys : y < s
      · by_cases hzs : z < s
        · exact Or.inr (Or.inr (hfirst hys hzs))
        · exact Or.inr (Or.inl (hsecond (by omega) hx (by omega) hz))
      · exact Or.inl (hsecond (by omega) hx (by omega) hy)

theorem three (hr : Equivalence r) {s1 s2 s3 : Nat} (h : Groups r f count 0 (s1 :: s2 :: s3 :: ss)) :
    ∃ x y z, x < count ∧ y < count ∧ z < count ∧
      ¬ r (f x) (f y) ∧ ¬ r (f x) (f z) ∧ ¬ r (f y) (f z) := by
  obtain ⟨h1, -, -, hout1, h2, hle2, -, hout2, h3, hle3, -⟩ := h
  refine ⟨0, 0 + s1, 0 + s1 + s2, by omega, by omega, by omega, ?_, ?_, ?_⟩
  · intro h
    exact hout1 _ (by omega) (by omega) (hr.symm h)
  · intro h
    exact hout1 _ (by omega) (by omega) (hr.symm h)
  · intro h
    exact hout2 _ (by omega) (by omega) (hr.symm h)

end Groups

end Lib
