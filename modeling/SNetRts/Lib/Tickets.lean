import Mathlib.Algebra.BigOperators.Group.Finset.Basic
import Mathlib.Algebra.BigOperators.Group.Finset.Piecewise
import Mathlib.Algebra.Order.BigOperators.Group.Finset
import Mathlib.Data.Finset.Basic
import Mathlib.Logic.Relation
import Mathlib.Logic.Function.Basic

/-!
# Queues with tickets

Places have queues, and tickets are given out to take something from a queue. A place may be merged into
another one: its queue goes to the end of the other one, and its tickets are led on from place to place.
A place is referred to by each ticket at it or at a place that leads to it, and for other reasons.

A ledger is the numbers of all this. It is balanced when the queue of a place that is not merged has as
many items as there are tickets that lead to it, and the references are counted. The operations keep a
ledger balanced.
-/

namespace Lib

open Function (update update_of_ne update_self)

theorem sum_update_add {ι α : Type*} [DecidableEq ι] {s : Finset ι} {i : ι} (hi : i ∈ s) (f : α → Nat)
    (g : ι → α) (x : α) :
    ∑ j ∈ s, f (update g i x j) + f (g i) = ∑ j ∈ s, f (g j) + f x := by
  have hrest : ∑ j ∈ s.erase i, f (update g i x j) = ∑ j ∈ s.erase i, f (g j) :=
    Finset.sum_congr rfl fun j hj => by rw [update_of_ne (Finset.ne_of_mem_erase hj)]
  rw [← Finset.add_sum_erase s _ hi, ← Finset.add_sum_erase s (fun j => f (g j)) hi, hrest,
    update_self]
  omega

section Leads

variable {V : Type*} {next : V → Option V}

def Leads (next : V → Option V) : V → V → Prop := Relation.ReflTransGen fun a b => next a = some b

namespace Leads

theorem refl (a : V) : Leads next a a := Relation.ReflTransGen.refl

theorem head {a b c : V} (hab : next a = some b) (h : Leads next b c) : Leads next a c :=
  Relation.ReflTransGen.head hab h

theorem trans {a b c : V} (h : Leads next a b) (h' : Leads next b c) : Leads next a c :=
  Relation.ReflTransGen.trans h h'

theorem cases {a b c : V} (h : Leads next a c) (hab : next a = some b) : a = c ∨ Leads next b c := by
  rcases Relation.ReflTransGen.cases_head h with heq | ⟨b', hab', hbc⟩
  · exact .inl heq
  · rw [hab, Option.some.injEq] at hab'
    exact .inr (hab' ▸ hbc)

theorem eq_of_none {a b : V} (h : Leads next a b) (ha : next a = none) : a = b := by
  rcases Relation.ReflTransGen.cases_head h with heq | ⟨c, hac, -⟩
  · exact heq
  · rw [ha] at hac
    cases hac

theorem unique {a b c : V} (hb : Leads next a b) (hnb : next b = none) (hc : Leads next a c)
    (hnc : next c = none) : b = c := by
  induction hb using Relation.ReflTransGen.head_induction_on with
  | refl => exact hc.eq_of_none hnb
  | head hstep _ ih =>
    rcases hc.cases hstep with heq | hc
    · rw [heq, hnc] at hstep
      cases hstep
    · exact ih hc

theorem not_back {a b e : V} (h : Leads next a e) (he : next e = none) (hab : next a = some b) :
    ¬Leads next b a := by
  induction h using Relation.ReflTransGen.head_induction_on generalizing b with
  | refl =>
    rw [he] at hab
    cases hab
  | head hstep _ ih =>
    rename_i x y
    rw [hstep, Option.some.injEq] at hab
    subst hab
    intro hback
    rcases Relation.ReflTransGen.cases_head hback with heq | ⟨c, hyc, hcx⟩
    · subst heq
      exact ih hstep (refl _)
    · exact ih hyc (Relation.ReflTransGen.tail hcx hstep)

theorem link_iff {next' : V → Option V} {P : V → Prop} {e : V} (hP : ∀ a, P a → next a = none)
    (hnew : ∀ a, P a → next' a = some e) (hold : ∀ a, ¬P a → next' a = next a) (he : next e = none)
    (heP : ¬P e) (a b : V) :
    Leads next' a b ↔ Leads next a b ∨ b = e ∧ ∃ p, P p ∧ Leads next a p := by
  constructor
  · intro h
    induction h using Relation.ReflTransGen.head_induction_on with
    | refl => exact .inl (refl b)
    | head hstep hrest ih =>
      rename_i x y
      by_cases hx : P x
      · have hy : y = e := by
          rw [hnew x hx] at hstep
          exact (Option.some.inj hstep).symm
        subst hy
        have hb : y = b := Leads.eq_of_none hrest ((hold y heP).trans he)
        exact .inr ⟨hb.symm, x, hx, refl x⟩
      · have hxy : next x = some y := (hold x hx) ▸ hstep
        rcases ih with h | ⟨hb, p, hp, h⟩
        · exact .inl (head hxy h)
        · exact .inr ⟨hb, p, hp, head hxy h⟩
  · have hstep : ∀ x y, next x = some y → next' x = some y := fun x y hxy => by
      have hx : ¬P x := fun hx => by
        rw [hP x hx] at hxy
        cases hxy
      rw [hold x hx, hxy]
    have hsame : ∀ {a b}, Leads next a b → Leads next' a b := fun h =>
      Relation.ReflTransGen.mono hstep _ _ h
    rintro (h | ⟨rfl, p, hp, h⟩)
    · exact hsame h
    · exact Relation.ReflTransGen.tail (hsame h) (hnew p hp)

theorem congr_on {next' : V → Option V} {S : V → Prop} (hS : ∀ a b, S a → next a = some b → S b)
    (h : ∀ a, S a → next' a = next a) {a b : V} (ha : S a) (hab : Leads next a b) : Leads next' a b := by
  induction hab using Relation.ReflTransGen.head_induction_on with
  | refl => exact refl b
  | head hstep _ ih => exact head ((h _ ha).trans hstep) (ih (hS _ _ ha hstep))

theorem mono {next' : V → Option V} (h : ∀ a b, next a = some b → next' a = some b) {a b : V}
    (hab : Leads next a b) : Leads next' a b := Relation.ReflTransGen.mono h _ _ hab

theorem shortcut {next' : V → Option V}
    (h : ∀ a b, next a = some b → next' a = some b ∨ ∃ c, next b = some c ∧ next' b = some c ∧ next' a = some c)
    {a e : V} (he : next e = none) (hab : Leads next a e) : Leads next' a e := by
  induction hab using Relation.ReflTransGen.head_induction_on with
  | refl => exact refl e
  | head hstep _ ih =>
    rcases h _ _ hstep with hsame | ⟨c, hbc, hbc', hac⟩
    · exact head hsame ih
    · rcases ih.cases hbc' with heq | hce
      · rw [heq, he] at hbc
        cases hbc
      · exact head hac hce

end Leads

end Leads

/-- The numbers of all places: the items in a queue, the tickets, the references for other reasons than
tickets, and all references. -/
@[ext]
structure Ledger (V : Type*) where
  places : Finset V
  next : V → Option V
  len : V → Nat
  tickets : V → Nat
  other : V → Nat
  refs : V → Nat

namespace Ledger

variable {V : Type*} (L : Ledger V)

open Classical in
noncomputable def total (d : V) : Nat := ∑ x ∈ L.places with Leads L.next x d, L.tickets x

/-- Queues and tickets agree, and the references are those that there are. -/
structure Balanced : Prop where
  len : ∀ d ∈ L.places, L.next d = none → L.len d = L.total d
  merged : ∀ d ∈ L.places, L.next d ≠ none → L.len d = 0
  refs : ∀ d ∈ L.places, L.refs d = L.other d + L.total d
  next_mem : ∀ a b, L.next a = some b → b ∈ L.places
  ends : ∀ a ∈ L.places, ∃ e ∈ L.places, Leads L.next a e ∧ L.next e = none

variable {L} {d : V}

theorem le_total {x : V} (hx : x ∈ L.places) (h : Leads L.next x d) : L.tickets x ≤ L.total d := by
  classical
  exact Finset.single_le_sum_of_canonicallyOrdered (f := L.tickets) (Finset.mem_filter.2 ⟨hx, h⟩)

theorem tickets_eq_zero {x : V} (h : L.total d = 0) (hx : x ∈ L.places) (hlead : Leads L.next x d) :
    L.tickets x = 0 :=
  Nat.le_zero.1 (h ▸ le_total hx hlead)

open Classical in
theorem total_eq (d : V) :
    L.total d = ∑ x ∈ L.places, if Leads L.next x d then L.tickets x else 0 := Finset.sum_filter _ _

variable [DecidableEq V]

/-! ### The operations -/

abbrev at_ (f : V → Nat) (d : V) (n : Nat) : V → Nat := update f d n

def put (L : Ledger V) (d : V) : Ledger V :=
  { L with len := at_ L.len d (L.len d + 1), tickets := at_ L.tickets d (L.tickets d + 1), refs := at_ L.refs d (L.refs d + 1) }

def fetch (L : Ledger V) (d : V) : Ledger V :=
  { L with len := at_ L.len d (L.len d - 1), tickets := at_ L.tickets d (L.tickets d - 1), other := at_ L.other d (L.other d + 1) }

def hold (L : Ledger V) (d : V) : Ledger V :=
  { L with other := at_ L.other d (L.other d + 1), refs := at_ L.refs d (L.refs d + 1) }

def drop (L : Ledger V) (d : V) : Ledger V :=
  { L with other := at_ L.other d (L.other d - 1), refs := at_ L.refs d (L.refs d - 1) }

def pass (L : Ledger V) (a b : V) (n : Nat) : Ledger V :=
  { L with
    tickets := at_ (at_ L.tickets a (L.tickets a - n)) b (at_ L.tickets a (L.tickets a - n) b + n)
    refs := at_ L.refs a (L.refs a - n) }

/-- The places of `P`, to which `d` belongs, are merged into `e`. -/
def link (L : Ledger V) (P : V → Prop) [DecidablePred P] (d e : V) : Ledger V :=
  { L with
    next := fun a => if P a then some e else L.next a
    len := at_ (at_ L.len d 0) e (L.len e + L.len d)
    refs := at_ L.refs e (L.refs e + L.len d) }

def add (L : Ledger V) (d : V) : Ledger V := { L with places := insert d L.places }

/-! ### What they do to the tickets -/

omit [DecidableEq V] in
theorem total_of_add {K : Ledger V} {a : V} {n : Nat} (hp : K.places = L.places) (hnext : K.next = L.next)
    (ha : a ∈ L.places) (hself : K.tickets a = L.tickets a + n)
    (hother : ∀ x, x ≠ a → K.tickets x = L.tickets x) :
    (Leads L.next a d → K.total d = L.total d + n) ∧ (¬Leads L.next a d → K.total d = L.total d) := by
  classical
  have hsum : K.total d = L.total d + ∑ x ∈ L.places, if x = a then (if Leads L.next x d then n else 0) else 0 := by
    rw [total_eq, total_eq, hp, hnext, ← Finset.sum_add_distrib]
    refine Finset.sum_congr rfl fun x _ => ?_
    by_cases hx : x = a
    · subst hx
      rw [if_pos rfl, hself]
      split <;> rfl
    · rw [if_neg hx, hother x hx, Nat.add_zero]
  rw [Finset.sum_ite_eq' L.places a, if_pos ha] at hsum
  constructor
  · intro h
    rw [hsum, if_pos h]
  · intro h
    rw [hsum, if_neg h, Nat.add_zero]

@[simp] theorem hold_total (d e : V) : (L.hold d).total e = L.total e := rfl

@[simp] theorem drop_total (d e : V) : (L.drop d).total e = L.total e := rfl

omit [DecidableEq V] in
theorem leads_iff_of_none {a : V} (ha : L.next a = none) : Leads L.next a d ↔ a = d :=
  ⟨fun h => h.eq_of_none ha, fun h => h ▸ .refl _⟩

theorem put_total (hd : d ∈ L.places) (hn : L.next d = none) (e : V) :
    (L.put d).total e = if d = e then L.total e + 1 else L.total e := by
  obtain ⟨hyes, hno⟩ := total_of_add (L := L) (K := L.put d) (d := e) (n := 1) rfl rfl hd
    (update_self _ _ _) fun x hx => update_of_ne hx _ _
  rw [leads_iff_of_none hn] at hyes hno
  split
  · next h => exact hyes h
  · next h => exact hno h

theorem fetch_total (hd : d ∈ L.places) (hn : L.next d = none) (ht : L.tickets d ≠ 0) (e : V) :
    L.total e = if d = e then (L.fetch d).total e + 1 else (L.fetch d).total e := by
  have hself : L.tickets d = (L.fetch d).tickets d + 1 := by
    simp only [fetch, at_, update_self]
    omega
  obtain ⟨hyes, hno⟩ := total_of_add (L := L.fetch d) (K := L) (d := e) (n := 1) rfl rfl hd hself
    fun x hx => (update_of_ne hx _ _).symm
  rw [show (L.fetch d).next = L.next from rfl, leads_iff_of_none hn] at hyes hno
  split
  · next h => exact hyes h
  · next h => exact hno h

theorem pass_total (h : L.Balanced) {a b : V} {n : Nat} (ha : a ∈ L.places) (hab : L.next a = some b)
    (hn : n ≤ L.tickets a) (e : V) :
    L.total e = if a = e then (L.pass a b n).total e + n else (L.pass a b n).total e := by
  obtain ⟨f, -, haf, hf⟩ := h.ends a ha
  have hback : ¬Leads L.next b a := haf.not_back hf hab
  have hne : b ≠ a := by
    rintro rfl
    exact hback (.refl b)
  -- the tickets are taken from `a`, and then added at `b`
  let M : Ledger V := { L with tickets := at_ L.tickets a (L.tickets a - n) }
  have htaken := total_of_add (L := M) (K := L) (d := e) (n := n) rfl rfl ha
    (by simp only [M, at_, update_self]; omega) fun x hx => (update_of_ne hx _ _).symm
  have hadded := total_of_add (L := M) (K := L.pass a b n) (d := e) (n := n) rfl rfl (h.next_mem a b hab)
    (update_self _ _ _) fun x hx => update_of_ne hx _ _
  by_cases hae : a = e
  · subst hae
    rw [if_pos rfl, htaken.1 (.refl _), hadded.2 hback]
  · rw [if_neg hae]
    by_cases hbe : Leads L.next b e
    · rw [htaken.1 (.head hab hbe), hadded.1 hbe]
    · rw [htaken.2 fun h => (h.cases hab).elim hae hbe, hadded.2 hbe]

section link

variable {P : V → Prop} [DecidablePred P] {e : V}

theorem link_leads (hP : ∀ a, P a → L.next a = none) (he : L.next e = none) (heP : ¬P e) (a b : V) :
    Leads (L.link P d e).next a b ↔ Leads L.next a b ∨ b = e ∧ ∃ p, P p ∧ Leads L.next a p :=
  Leads.link_iff hP (fun _ h => if_pos h) (fun _ h => if_neg h) he heP a b

theorem link_total_of_ne (hP : ∀ a, P a → L.next a = none) (he : L.next e = none) (heP : ¬P e) {b : V}
    (hb : b ≠ e) : (L.link P d e).total b = L.total b := by
  classical
  unfold total
  refine congrArg (fun s => ∑ x ∈ s, L.tickets x) (Finset.filter_congr fun x _ => ?_)
  rw [link_leads hP he heP]
  exact ⟨fun h => h.elim id fun h => absurd h.1 hb, .inl⟩

theorem link_total (hP : ∀ a, P a → L.next a = none) (he : L.next e = none) (heP : ¬P e) (hd : P d)
    (hzero : ∀ p, P p → p ≠ d → L.total p = 0) : (L.link P d e).total e = L.total e + L.total d := by
  classical
  rw [total_eq, total_eq, total_eq, ← Finset.sum_add_distrib]
  refine Finset.sum_congr rfl fun x hx => ?_
  have hnot : Leads L.next x e → ¬Leads L.next x d := fun h h' => heP (h.unique he h' (hP d hd) ▸ hd)
  have hiff := link_leads (d := d) hP he heP x e
  by_cases hxe : Leads L.next x e
  · rw [if_pos (hiff.2 (.inl hxe)), if_pos hxe, if_neg (hnot hxe)]
    rfl
  · by_cases hxd : Leads L.next x d
    · rw [if_pos (hiff.2 (.inr ⟨rfl, d, hd, hxd⟩)), if_neg hxe, if_pos hxd]
      exact (Nat.zero_add _).symm
    · rw [if_neg hxe, if_neg hxd]
      split
      · next h =>
        obtain ⟨-, p, hp, hxp⟩ := (hiff.1 h).resolve_left hxe
        have hpd : p ≠ d := fun heq => hxd (heq ▸ hxp)
        have := tickets_eq_zero (hzero p hp hpd) hx hxp
        exact this
      · rfl

end link

/-! ### The ledger stays balanced -/

namespace Balanced

theorem put (h : L.Balanced) (hd : d ∈ L.places) (hn : L.next d = none) : (L.put d).Balanced := by
  refine ⟨fun e he hne => ?_, fun e he hne => ?_, fun e he => ?_, h.next_mem, h.ends⟩
  · rw [put_total hd hn]
    have := h.len e he hne
    by_cases hde : d = e
    · subst hde
      rw [if_pos rfl, ← this]
      exact update_self _ _ _
    · rw [if_neg hde, ← this]
      exact update_of_ne (Ne.symm hde) _ _
  · have hed : e ≠ d := by
      rintro rfl
      exact hne hn
    exact (update_of_ne hed _ _).trans (h.merged e he hne)
  · rw [put_total hd hn]
    have := h.refs e he
    by_cases hde : d = e
    · subst hde
      rw [if_pos rfl]
      refine (update_self _ _ _).trans ?_
      rw [this]
      rfl
    · rw [if_neg hde]
      exact (update_of_ne (Ne.symm hde) _ _).trans this

theorem fetch (h : L.Balanced) (hd : d ∈ L.places) (hn : L.next d = none) (ht : L.tickets d ≠ 0) :
    (L.fetch d).Balanced := by
  refine ⟨fun e he hne => ?_, fun e he hne => ?_, fun e he => ?_, h.next_mem, h.ends⟩
  · have hlen := h.len e he hne
    rw [fetch_total hd hn ht] at hlen
    by_cases hde : d = e
    · subst hde
      rw [if_pos rfl] at hlen
      refine (update_self _ _ _).trans ?_
      omega
    · rw [if_neg hde] at hlen
      exact (update_of_ne (Ne.symm hde) _ _).trans hlen
  · have hed : e ≠ d := by
      rintro rfl
      exact hne hn
    exact (update_of_ne hed _ _).trans (h.merged e he hne)
  · have hrefs := h.refs e he
    rw [fetch_total hd hn ht] at hrefs
    by_cases hde : d = e
    · subst hde
      rw [if_pos rfl] at hrefs
      rw [show (L.fetch d).other d = L.other d + 1 from update_self _ _ _]
      change L.refs d = _
      omega
    · rw [if_neg hde] at hrefs
      rw [show (L.fetch d).other e = L.other e from update_of_ne (Ne.symm hde) _ _]
      exact hrefs

theorem hold (h : L.Balanced) (d : V) : (L.hold d).Balanced := by
  refine ⟨h.len, h.merged, fun e he => ?_, h.next_mem, h.ends⟩
  have := h.refs e he
  by_cases hde : e = d
  · subst hde
    simp only [Ledger.hold, at_, update_self] at this ⊢
    rw [this, Nat.add_right_comm]
    rfl
  · simp only [Ledger.hold, at_, update_of_ne hde] at this ⊢
    exact this

theorem drop (h : L.Balanced) (hd : L.other d ≠ 0) : (L.drop d).Balanced := by
  refine ⟨h.len, h.merged, fun e he => ?_, h.next_mem, h.ends⟩
  have := h.refs e he
  by_cases hde : e = d
  · subst hde
    rw [drop_total]
    simp only [Ledger.drop, at_, update_self]
    omega
  · rw [drop_total]
    simp only [Ledger.drop, at_, update_of_ne hde]
    exact this

theorem pass (h : L.Balanced) {a b : V} {n : Nat} (ha : a ∈ L.places) (hab : L.next a = some b)
    (hn : n ≤ L.tickets a) : (L.pass a b n).Balanced := by
  refine ⟨fun e he hne => ?_, h.merged, fun e he => ?_, h.next_mem, h.ends⟩
  · have hea : a ≠ e := by
      rintro rfl
      change L.next a = none at hne
      rw [hab] at hne
      cases hne
    have hlen := h.len e he hne
    rwa [pass_total h ha hab hn, if_neg hea] at hlen
  · have hrefs := h.refs e he
    rw [pass_total h ha hab hn] at hrefs
    by_cases hea : a = e
    · subst hea
      rw [if_pos rfl] at hrefs
      simp only [Ledger.pass, at_, update_self] at hrefs ⊢
      omega
    · rw [if_neg hea] at hrefs
      exact (update_of_ne (Ne.symm hea) _ _).trans hrefs

theorem link (h : L.Balanced) {P : V → Prop} [DecidablePred P] {e : V} (hP : ∀ a, P a → L.next a = none)
    (hmem : ∀ a, P a → a ∈ L.places) (he : L.next e = none) (heL : e ∈ L.places) (heP : ¬P e) (hd : P d)
    (hzero : ∀ p, P p → p ≠ d → L.refs p = 0) : (L.link P d e).Balanced := by
  have hed : e ≠ d := fun heq => heP (heq ▸ hd)
  have htotal : ∀ p, P p → p ≠ d → L.total p = 0 := fun p hp hpd => by
    have := h.refs p (hmem p hp)
    have := hzero p hp hpd
    omega
  have hsum := link_total hP he heP hd htotal
  refine ⟨fun b hb hnb => ?_, fun b hb hnb => ?_, fun b hb => ?_, fun a b hab => ?_, fun a ha => ?_⟩
  · have hbP : ¬P b := fun hbP => by
      rw [show (L.link P d e).next b = some e from if_pos hbP] at hnb
      cases hnb
    have hnb' : L.next b = none := (show (L.link P d e).next b = L.next b from if_neg hbP) ▸ hnb
    by_cases hbe : b = e
    · subst hbe
      rw [hsum, ← h.len b hb he, ← h.len d (hmem d hd) (hP d hd)]
      exact update_self _ _ _
    · rw [link_total_of_ne hP he heP hbe, ← h.len b hb hnb']
      have hbd : b ≠ d := fun heq => hbP (heq ▸ hd)
      exact (update_of_ne hbe _ _).trans (update_of_ne hbd _ _)
  · have hbe : b ≠ e := by
      rintro rfl
      exact hnb ((show (L.link P d b).next b = L.next b from if_neg heP).trans he)
    refine (update_of_ne hbe _ _).trans ?_
    by_cases hbd : b = d
    · subst hbd
      exact update_self _ _ _
    · refine (update_of_ne hbd _ _).trans ?_
      by_cases hbP : P b
      · rw [h.len b hb (hP b hbP), htotal b hbP hbd]
      · exact h.merged b hb ((show (L.link P d e).next b = L.next b from if_neg hbP) ▸ hnb)
  · have hrefs := h.refs b hb
    by_cases hbe : b = e
    · subst hbe
      rw [hsum, ← h.len d (hmem d hd) (hP d hd), ← Nat.add_assoc]
      change at_ L.refs b (L.refs b + L.len d) b = L.other b + L.total b + L.len d
      rw [← hrefs]
      exact update_self _ _ _
    · rw [link_total_of_ne hP he heP hbe]
      exact (update_of_ne hbe _ _).trans hrefs
  · by_cases haP : P a
    · rw [show (L.link P d e).next a = some e from if_pos haP, Option.some.injEq] at hab
      exact hab ▸ heL
    · exact h.next_mem a b ((show (L.link P d e).next a = L.next a from if_neg haP) ▸ hab)
  · obtain ⟨f, hf, haf, hnf⟩ := h.ends a ha
    by_cases hfP : P f
    · exact ⟨e, heL, (link_leads hP he heP a e).2 (.inr ⟨rfl, f, hfP, haf⟩), (if_neg heP).trans he⟩
    · exact ⟨f, hf, (link_leads hP he heP a f).2 (.inl haf), (if_neg hfP).trans hnf⟩

theorem add (h : L.Balanced) (hd : d ∉ L.places) (hn : L.next d = none) (ht : L.tickets d = 0)
    (hlen : L.len d = 0) (ho : L.other d = 0) (hrefs : L.refs d = 0) : (L.add d).Balanced := by
  have htotal : ∀ e, (L.add d).total e = L.total e := fun e => by
    classical
    rw [total_eq, total_eq]
    refine (Finset.sum_insert hd).trans ?_
    rw [show (L.add d).tickets d = 0 from ht, ite_self, Nat.zero_add]
    rfl
  have hself : L.total d = 0 := by
    classical
    rw [total_eq]
    refine Finset.sum_eq_zero fun x hx => if_neg fun hlead => ?_
    rcases Relation.ReflTransGen.cases_tail hlead with heq | ⟨y, -, hy⟩
    · exact hd (heq ▸ hx)
    · exact hd (h.next_mem y d hy)
  refine ⟨fun e he hne => ?_, fun e he hne => ?_, fun e he => ?_,
    fun a b hab => Finset.mem_insert_of_mem (h.next_mem a b hab), fun a ha => ?_⟩
  · rw [htotal]
    rcases Finset.mem_insert.1 he with rfl | he
    · exact hlen.trans hself.symm
    · exact h.len e he hne
  · rcases Finset.mem_insert.1 he with rfl | he
    · exact hlen
    · exact h.merged e he hne
  · rw [htotal]
    rcases Finset.mem_insert.1 he with rfl | he
    · rw [hself, show (L.add e).other e = 0 from ho]
      exact hrefs
    · exact h.refs e he
  · rcases Finset.mem_insert.1 ha with rfl | ha
    · exact ⟨a, ha, .refl a, hn⟩
    · obtain ⟨f, hf, haf, hnf⟩ := h.ends a ha
      exact ⟨f, Finset.mem_insert_of_mem hf, haf, hnf⟩

end Balanced

end Ledger

end Lib
