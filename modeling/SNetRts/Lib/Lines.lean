import Mathlib.Logic.Relation

/-!
# Lines of stocks

Places have stocks, and a place may feed another one: what it has goes on to the end of the other stock. The
line at a place is what comes there, in this order, if nothing is put in any more: its own stock, then that
of the place that feeds it, and so on up to a place that is not fed.

Where a place is fed by one place and feeds one at most, the lines are known after something is put in at
the first place, goes on from place to place, and after places are taken out, linked or cut off.
-/

namespace Lib

open List

variable {V R : Type*}

/-- What comes to a place. -/
inductive Line (feeds : V → V → Prop) (stock : V → List R) : V → List R → Prop
  | first {a : V} (h : ∀ x, ¬feeds x a) : Line feeds stock a (stock a)
  | next {x a : V} {items : List R} (h : feeds x a) (hx : Line feeds stock x items) :
      Line feeds stock a (stock a ++ items)

/-- A place is fed by one place and feeds one at most. -/
structure Single (feeds : V → V → Prop) : Prop where
  back : ∀ {x y a}, feeds x a → feeds y a → x = y
  forth : ∀ {x a b}, feeds x a → feeds x b → a = b

def Following (feeds : V → V → Prop) (stock : V → List R) (a : V) (items : List R) : Prop :=
  (∀ x, ¬feeds x a) ∧ items = [] ∨ ∃ x, feeds x a ∧ Line feeds stock x items

variable {feeds feeds' : V → V → Prop} {stock stock' : V → List R} {a p q : V} {items new : List R}

namespace Line

theorem following (h : Line feeds stock a items) : ∃ rest, items = stock a ++ rest ∧ Following feeds stock a rest := by
  cases h with
  | first hfirst => exact ⟨[], (append_nil _).symm, .inl ⟨hfirst, rfl⟩⟩
  | next hx hline => exact ⟨_, rfl, .inr ⟨_, hx, hline⟩⟩

theorem eq_stock (h : Line feeds stock a items) (hfirst : ∀ x, ¬feeds x a) : items = stock a := by
  cases h with
  | first _ => rfl
  | next hx _ => exact absurd hx (hfirst _)

theorem eq_of_empty (h : Line feeds stock a items)
    (hempty : ∀ x b, feeds x b → Relation.ReflTransGen feeds b a → stock x = []) : items = stock a := by
  induction h with
  | first _ => rfl
  | @next x b items hx _ ih =>
    have hnil : items = stock x :=
      ih fun y c hy hc => hempty y c hy (hc.tail hx)
    rw [hnil, hempty x b hx .refl, append_nil]

theorem congr (h : Line feeds stock a items) (hfeeds : ∀ x b, feeds' x b ↔ feeds x b) (ha : stock' a = stock a)
    (hstock : ∀ x b, feeds x b → stock' x = stock x) : Line feeds' stock' a items := by
  induction h with
  | first hfirst =>
    rw [← ha]
    exact .first fun x hx => hfirst x ((hfeeds x _).1 hx)
  | next hx _ ih =>
    rw [← ha]
    exact .next ((hfeeds _ _).2 hx) (ih (hstock _ _ hx))

theorem push (h : Line feeds stock a items) (hs : Single feeds) (hp : ∀ x, ¬feeds x p)
    (hself : stock' p = stock p ++ new) (hother : ∀ x, x ≠ p → stock' x = stock x)
    (hreach : Relation.ReflTransGen feeds p a) : Line feeds stock' a (items ++ new) := by
  induction h with
  | first hfirst =>
    rcases hreach.cases_tail with rfl | ⟨x, -, hx⟩
    · rw [← hself]
      exact .first hfirst
    · exact absurd hx (hfirst x)
  | @next x b items hx _ ih =>
    rcases hreach.cases_tail with rfl | ⟨y, hpy, hy⟩
    · exact absurd hx (hp x)
    · have hb : b ≠ p := fun heq => hp x (heq ▸ hx)
      rw [append_assoc, ← hother b hb]
      exact .next hx (ih (hs.back hy hx ▸ hpy))

theorem push_other (h : Line feeds stock a items) (hother : ∀ x, x ≠ p → stock' x = stock x)
    (hreach : ¬Relation.ReflTransGen feeds p a) : Line feeds stock' a items := by
  have hne : ∀ {b}, ¬Relation.ReflTransGen feeds p b → b ≠ p := fun hb heq => hb (heq ▸ .refl)
  induction h with
  | first hfirst =>
    rw [← hother _ (hne hreach)]
    exact .first hfirst
  | next hx _ ih =>
    rw [← hother _ (hne hreach)]
    exact .next hx (ih fun hp => hreach (hp.tail hx))

theorem pass (h : Line feeds stock a items) (hs : Single feeds) (hpq : feeds p q) (hne : p ≠ q) {r : R}
    (hp : stock p = r :: stock' p) (hq : stock' q = stock q ++ [r])
    (hother : ∀ x, x ≠ p → x ≠ q → stock' x = stock x) :
    (a ≠ p → Line feeds stock' a items) ∧ (a = p → ∃ rest, items = r :: rest ∧ Line feeds stock' p rest) := by
  induction h with
  | @first b hfirst =>
    refine ⟨fun hb => ?_, ?_⟩
    · have hbq : b ≠ q := fun heq => hfirst p (heq ▸ hpq)
      rw [← hother b hb hbq]
      exact .first hfirst
    · rintro rfl
      exact ⟨_, hp, .first hfirst⟩
  | @next x b items hx _ ih =>
    refine ⟨fun hb => ?_, ?_⟩
    · by_cases hbq : b = q
      · subst hbq
        obtain ⟨rest, rfl, hrest⟩ := ih.2 (hs.back hx hpq)
        rw [append_cons, ← hq]
        exact .next hpq hrest
      · have hxp : x ≠ p := fun heq => hbq (hs.forth (heq ▸ hx) hpq)
        rw [← hother b hb hbq]
        exact .next hx (ih.1 hxp)
    · rintro rfl
      have hxp : x ≠ b := fun heq => hne (hs.forth (heq ▸ hx) hpq)
      rw [hp]
      exact ⟨_, rfl, .next hx (ih.1 hxp)⟩

theorem bypass (h : Line feeds stock a items) (hs : Single feeds) (hpq : feeds p q) (hne : p ≠ q)
    (hq : stock' q = stock q ++ stock p) (hother : ∀ x, x ≠ p → x ≠ q → stock' x = stock x)
    (hlink : ∀ x, feeds' x q ↔ feeds x p) (hsame : ∀ x b, b ≠ p → b ≠ q → (feeds' x b ↔ feeds x b)) :
    (a ≠ p → Line feeds' stock' a items) ∧ (a = p → Line feeds' stock' q (stock q ++ items)) := by
  induction h with
  | @first b hfirst =>
    refine ⟨fun hb => ?_, ?_⟩
    · have hbq : b ≠ q := fun heq => hfirst p (heq ▸ hpq)
      rw [← hother b hb hbq]
      exact .first fun x hx => hfirst x ((hsame x b hb hbq).1 hx)
    · rintro rfl
      rw [← hq]
      exact .first fun x hx => hfirst x ((hlink x).1 hx)
  | @next x b items hx _ ih =>
    refine ⟨fun hb => ?_, ?_⟩
    · by_cases hbq : b = q
      · subst hbq
        exact ih.2 (hs.back hx hpq)
      · have hxp : x ≠ p := fun heq => hbq (hs.forth (heq ▸ hx) hpq)
        rw [← hother b hb hbq]
        exact .next ((hsame x b hb hbq).2 hx) (ih.1 hxp)
    · rintro rfl
      have hxp : x ≠ b := fun heq => hne (hs.forth (heq ▸ hx) hpq)
      rw [← append_assoc, ← hq]
      exact .next ((hlink x).2 hx) (ih.1 hxp)

section link

variable (hloop : ¬Relation.ReflTransGen feeds q p) (hlink : ∀ x b, feeds' x b ↔ feeds x b ∨ x = p ∧ b = q)
  (hother : ∀ x b, feeds x b → stock' x = stock x)

include hlink hother

theorem link_other (h : Line feeds stock a items) (ha : stock' a = stock a)
    (hreach : ¬Relation.ReflTransGen feeds q a) : Line feeds' stock' a items := by
  induction h with
  | @first b hfirst =>
    rw [← ha]
    refine .first fun x hx => ?_
    rcases (hlink x b).1 hx with hx | ⟨-, rfl⟩
    · exact hfirst x hx
    · exact hreach .refl
  | next hx _ ih =>
    rw [← ha]
    exact .next ((hlink _ _).2 (.inl hx)) (ih (hother _ _ hx) fun hq => hreach (hq.tail hx))

include hloop

theorem link_self (h : Following feeds stock p items) : Line feeds' stock' p (stock' p ++ items) := by
  rcases h with ⟨hfirst, rfl⟩ | ⟨x, hx, hline⟩
  · rw [append_nil]
    refine .first fun x hx => ?_
    rcases (hlink x p).1 hx with hx | ⟨-, rfl⟩
    · exact hfirst x hx
    · exact hloop .refl
  · refine .next ((hlink x p).2 (.inl hx)) ?_
    exact hline.link_other hlink hother (hother x p hx) fun hq => hloop (hq.tail hx)

theorem link (h : Line feeds stock a items) (hs : Single feeds) (hq : ∀ x, ¬feeds x q) (ha : stock' a = stock a)
    (hnew : Following feeds stock p new) (hreach : Relation.ReflTransGen feeds q a) :
    Line feeds' stock' a (items ++ (stock' p ++ new)) := by
  induction h with
  | first hfirst =>
    rcases hreach.cases_tail with rfl | ⟨x, -, hx⟩
    · rw [← ha]
      exact .next ((hlink p _).2 (.inr ⟨rfl, rfl⟩)) (link_self hloop hlink hother hnew)
    · exact absurd hx (hfirst x)
  | @next x b items hx _ ih =>
    rcases hreach.cases_tail with rfl | ⟨y, hqy, hy⟩
    · exact absurd hx (hq x)
    · rw [append_assoc, ← ha]
      exact .next ((hlink x b).2 (.inl hx)) (ih (hother x b hx) (hs.back hy hx ▸ hqy))

end link

theorem cut (h : Line feeds stock a items) (hs : Single feeds) (hp : ∀ x, ¬feeds x p)
    (hempty : ∀ b, feeds p b → stock p = []) (hcut : ∀ x b, feeds' x b ↔ feeds x b ∧ x ≠ p) : Line feeds' stock a items := by
  induction h with
  | first hfirst => exact .first fun x hx => hfirst x ((hcut x _).1 hx).1
  | @next x b items hx hline ih =>
    by_cases hxp : x = p
    · subst hxp
      rw [hline.eq_stock hp, hempty b hx, append_nil]
      refine .first fun y hy => ?_
      obtain ⟨hy, hne⟩ := (hcut y b).1 hy
      exact hne (hs.back hy hx)
    · exact .next ((hcut x b).2 ⟨hx, hxp⟩) ih

end Line

end Lib
