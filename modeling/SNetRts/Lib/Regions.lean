import Mathlib.Data.Set.Lattice
import Mathlib.Data.List.Infix
import Mathlib.Order.CompletePartialOrder

/-!
# Regions that do not overlap

Things that are created over time, each of which owns a region: the values that it, or what comes from
it, may still take. Regions stay apart if a thing is replaced by things that share its region among
them (`Separate.refine`). A value that is used up is a region of one element, so that values used up are
distinct.

Paths are lists with the last step first, and `below p` is the region of the paths that begin with `p`.
-/

namespace Lib

open List

variable {ι α : Type*} {own : ι → Set α}

def Separate (own : ι → Set α) (l : List ι) : Prop := l.Pairwise fun x y => Disjoint (own x) (own y)

namespace Separate

variable {l l' : List ι} {A B : Set α}

theorem nil : Separate own [] := List.Pairwise.nil

theorem singleton (x : ι) : Separate own [x] := pairwise_singleton _ x

theorem append (h : Separate own l) (h' : Separate own l') (hl : ∀ x ∈ l, own x ⊆ A) (hl' : ∀ x ∈ l', own x ⊆ B)
    (hdisj : Disjoint A B) : Separate own (l ++ l') :=
  pairwise_append.2 ⟨h, h', fun x hx y hy => hdisj.mono (hl x hx) (hl' y hy)⟩

theorem refine {i : Nat} {x y : ι} (h : Separate own l) (hi : l[i]? = some x) (hnew : Separate own (y :: l'))
    (hsub : ∀ z ∈ y :: l', own z ⊆ own x) : Separate own (l.set i y ++ l') := by
  obtain ⟨hlt, hx⟩ := List.getElem?_eq_some_iff.1 hi
  obtain ⟨l₁, l₂, hl, -, hset⟩ : ∃ l₁ l₂, l = l₁ ++ l[i] :: l₂ ∧ l₁.length = i ∧ l.set i y = l₁ ++ y :: l₂ :=
    exists_of_set hlt
  rw [hx] at hl
  subst hl
  rw [hset]
  unfold Separate at h hnew ⊢
  rw [pairwise_append, pairwise_cons] at h
  obtain ⟨h₁, ⟨hx₂, h₂⟩, h₁₂⟩ := h
  rw [pairwise_cons] at hnew
  have hy : own y ⊆ own x := hsub y mem_cons_self
  rw [pairwise_append, pairwise_append, pairwise_cons]
  refine ⟨⟨h₁, ⟨fun z hz => (hx₂ z hz).mono_left hy, h₂⟩, fun a ha b hb => ?_⟩, hnew.2, fun a ha b hb => ?_⟩
  · rcases mem_cons.1 hb with rfl | hb
    · exact (h₁₂ a ha x mem_cons_self).mono_right hy
    · exact h₁₂ a ha b (mem_cons_of_mem _ hb)
  · have hbx : own b ⊆ own x := hsub b (mem_cons_of_mem _ hb)
    rcases mem_append.1 ha with ha | ha
    · exact (h₁₂ a ha x mem_cons_self).mono_right hbx
    · rcases mem_cons.1 ha with rfl | ha
      · exact hnew.1 b hb
      · exact ((hx₂ a ha).mono_left hbx).symm

theorem nodup {value : ι → Option α} (h : Separate own l) (hvalue : ∀ x v, value x = some v → v ∈ own x) :
    (l.filterMap value).Nodup := by
  induction l with
  | nil => exact nodup_nil
  | cons x l ih =>
    obtain ⟨hx, hl⟩ := pairwise_cons.1 h
    rw [filterMap_cons]
    split
    · exact ih hl
    · rename_i v hv
      refine nodup_cons.2 ⟨fun hmem => ?_, ih hl⟩
      obtain ⟨y, hy, hyv⟩ := mem_filterMap.1 hmem
      exact Set.disjoint_left.1 (hx y hy) (hvalue x v hv) (hvalue y v hyv)

end Separate

/-! ## Paths -/

/-- The paths that begin with `p`. -/
def below (p : List α) : Set (List α) := {v | p <:+ v}

theorem below_cons (x : α) (p : List α) : below (x :: p) ⊆ below p :=
  fun _ hv => (suffix_cons x p).trans hv

theorem self_mem_below (p : List α) : p ∈ below p := suffix_refl p

theorem eq_of_mem_below {x y : α} {p v : List α} (hx : v ∈ below (x :: p)) (hy : v ∈ below (y :: p)) :
    x = y := by
  have hsuffix := suffix_of_suffix_length_le hx hy (Nat.le_refl _)
  exact (List.cons.inj (hsuffix.eq_of_length rfl)).1

/-- The paths that go on from `p` with a step of the set. -/
def fan (p : List α) (s : Set α) : Set (List α) := {v | ∃ x ∈ s, v ∈ below (x :: p)}

theorem fan_subset (p : List α) (s : Set α) : fan p s ⊆ below p := by
  rintro v ⟨x, -, hv⟩
  exact below_cons x p hv

theorem fan_mono {p : List α} {s t : Set α} (h : s ⊆ t) : fan p s ⊆ fan p t := by
  rintro v ⟨x, hx, hv⟩
  exact ⟨x, h hx, hv⟩

theorem below_subset_fan {p : List α} {x : α} {s : Set α} (hx : x ∈ s) : below (x :: p) ⊆ fan p s :=
  fun _ hv => ⟨x, hx, hv⟩

theorem below_eq_fan (x : α) (p : List α) : below (x :: p) = fan p {x} := by
  ext v
  exact ⟨fun hv => ⟨x, rfl, hv⟩, fun ⟨_, hx, hv⟩ => hx ▸ hv⟩

theorem disjoint_fan {p : List α} {s t : Set α} (h : Disjoint s t) : Disjoint (fan p s) (fan p t) := by
  refine Set.disjoint_left.2 ?_
  rintro v ⟨x, hx, hv⟩ ⟨y, hy, hv'⟩
  rw [eq_of_mem_below hv hv'] at hx
  exact Set.disjoint_left.1 h hx hy

end Lib
