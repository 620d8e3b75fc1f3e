import Mathlib.Data.List.Nodup
import Mathlib.Logic.Function.Basic

/-!
# Linked segments

A link of a heap structure is a partial function from addresses to pointers: `none` where there is
no node, `some none` where the pointer is `NULL`. `Seg link p as q` says that following the link
from the pointer `p` visits the addresses `as` and ends with the pointer `q`. A segment depends on
the links of its own addresses only (`Seg.congr`).

`Both next prev p as q` says that the addresses `as` are linked both ways between `p` and `q`.
-/

namespace Lib

open List

variable {A : Type*}

/-- Following `link` from `p` visits `as` and ends at `q`. -/
def Seg (link : A → Option (Option A)) : Option A → List A → Option A → Prop
  | p, [], q => p = q
  | p, a :: as, q => p = some a ∧ ∃ r, link a = some r ∧ Seg link r as q

namespace Seg

variable {link link' : A → Option (Option A)} {p q r : Option A} {a b : A} {as bs : List A}

@[simp] theorem nil_iff : Seg link p [] q ↔ p = q := Iff.rfl

@[simp] theorem cons_iff :
    Seg link p (a :: as) q ↔ p = some a ∧ ∃ r, link a = some r ∧ Seg link r as q := Iff.rfl

theorem append_iff : Seg link p (as ++ bs) q ↔ ∃ r, Seg link p as r ∧ Seg link r bs q := by
  induction as generalizing p with
  | nil => simp
  | cons a as ih =>
    rw [cons_append, cons_iff]
    constructor
    · rintro ⟨hp, r, hr, h⟩
      obtain ⟨t, h1, h2⟩ := ih.1 h
      exact ⟨t, ⟨hp, r, hr, h1⟩, h2⟩
    · rintro ⟨t, ⟨hp, r, hr, h1⟩, h2⟩
      exact ⟨hp, r, hr, ih.2 ⟨t, h1, h2⟩⟩

theorem congr (h : Seg link p as q) (heq : ∀ a ∈ as, link' a = link a) : Seg link' p as q := by
  induction as generalizing p with
  | nil => exact h
  | cons a as ih =>
    obtain ⟨hp, r, hr, h⟩ := h
    exact ⟨hp, r, (heq a mem_cons_self).trans hr,
      ih h fun b hb => heq b (mem_cons_of_mem _ hb)⟩

theorem link_last (h : Seg link p (as ++ [a]) q) : link a = some q := by
  obtain ⟨r, -, -, t, ht, htq⟩ := append_iff.1 h
  rw [ht, nil_iff.1 htq]

theorem set_last (h : Seg link p (as ++ [a]) q) (hnot : a ∉ as)
    (heq : ∀ b ∈ as, b ≠ a → link' b = link b) (ha : link' a = some r) :
    Seg link' p (as ++ [a]) r := by
  obtain ⟨t, h1, h2⟩ := append_iff.1 h
  refine append_iff.2 ⟨t, h1.congr fun b hb => heq b hb fun e => hnot (e ▸ hb), h2.1, r, ha, rfl⟩

theorem head_eq (h : Seg link p as q) : p = as.head?.or q := by
  cases as with
  | nil => exact nil_iff.1 h
  | cons a as => exact h.1

theorem link_getElem? (h : Seg link p as q) {i : Nat} (hi : as[i]? = some a) :
    link a = some ((as[i + 1]?).or q) := by
  induction as generalizing p i with
  | nil => cases hi
  | cons b as ih =>
    obtain ⟨-, r, hr, htail⟩ := h
    cases i with
    | zero =>
      cases hi
      rw [hr, htail.head_eq, getElem?_cons_succ, head?_eq_getElem?]
    | succ i => exact ih htail hi

end Seg

/-! ## Links both ways -/

/-- The addresses `as` are linked both ways, with `p` before the first one and `q` behind the last one. -/
def Both (next prev : A → Option A) : Option A → List A → Option A → Prop
  | _, [], _ => True
  | p, a :: as, q => prev a = p ∧ next a = as.head?.or q ∧ Both next prev (some a) as q

namespace Both

variable {next prev next' prev' : A → Option A} {p q r : Option A} {a b : A} {as bs : List A}

theorem append_iff :
    Both next prev p (as ++ bs) q ↔ Both next prev p as (bs.head?.or q) ∧ Both next prev (as.getLast?.or p) bs q := by
  induction as generalizing p with
  | nil => simp [Both]
  | cons a as ih =>
    have hhead : (as ++ bs).head?.or q = as.head?.or (bs.head?.or q) := by
      cases as <;> simp
    have hlast : (a :: as).getLast?.or p = as.getLast?.or (some a) := by
      rw [getLast?_cons]
      cases as.getLast? <;> rfl
    rw [cons_append, Both, Both, ih, hhead, hlast, and_assoc, and_assoc]

theorem congr (h : Both next prev p as q) (hnext : ∀ a ∈ as, next' a = next a) (hprev : ∀ a ∈ as, prev' a = prev a) :
    Both next' prev' p as q := by
  induction as generalizing p with
  | nil => trivial
  | cons a as ih =>
    obtain ⟨hp, hn, htail⟩ := h
    exact ⟨(hprev a mem_cons_self).trans hp, (hnext a mem_cons_self).trans hn,
      ih htail (fun b hb => hnext b (mem_cons_of_mem a hb)) fun b hb => hprev b (mem_cons_of_mem a hb)⟩

theorem middle_iff :
    Both next prev p (as ++ a :: bs) q ↔
      Both next prev p as (some a) ∧ prev a = as.getLast?.or p ∧ next a = bs.head?.or q ∧
        Both next prev (some a) bs q := by
  rw [append_iff]
  exact Iff.rfl

theorem set_next (h : Both next prev p as q) (hnodup : as.Nodup) (hprev : ∀ a ∈ as, prev' a = prev a)
    (hnext : ∀ a ∈ as, as.getLast? ≠ some a → next' a = next a) (hlast : ∀ a, as.getLast? = some a → next' a = r) :
    Both next' prev' p as r := by
  rcases eq_nil_or_concat as with rfl | ⟨bs, a, rfl⟩
  · trivial
  · rw [concat_eq_append] at *
    obtain ⟨hbs, hp, -, -⟩ := middle_iff.1 h
    rw [nodup_append_comm] at hnodup
    have hnot := (nodup_cons.1 hnodup).1
    refine middle_iff.2 ⟨hbs.congr (fun b hb => hnext b (mem_append_left _ hb) ?_)
      fun b hb => hprev b (mem_append_left _ hb), ?_, ?_, trivial⟩
    · rw [getLast?_concat]
      intro heq
      cases heq
      exact hnot hb
    · rw [hprev a (mem_append_right _ (mem_singleton_self a)), hp]
    · exact hlast a getLast?_concat

theorem set_prev (h : Both next prev p as q) (hnodup : as.Nodup) (hnext : ∀ a ∈ as, next' a = next a)
    (hprev : ∀ a ∈ as, as.head? ≠ some a → prev' a = prev a) (hfirst : ∀ a, as.head? = some a → prev' a = r) :
    Both next' prev' r as q := by
  cases as with
  | nil => trivial
  | cons a as =>
    obtain ⟨-, hn, htail⟩ := h
    have hnot := (nodup_cons.1 hnodup).1
    refine ⟨hfirst a rfl, (hnext a mem_cons_self).trans hn,
      htail.congr (fun b hb => hnext b (mem_cons_of_mem a hb)) fun b hb =>
        hprev b (mem_cons_of_mem a hb) ?_⟩
    intro heq
    cases heq
    exact hnot hb

end Both

end Lib
