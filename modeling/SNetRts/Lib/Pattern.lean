import Mathlib.Computability.RegularExpressions

/-!
# Patterns with a group

Regular expressions in the notation of POSIX, and the search for the first match of a pattern of which one
group is of interest.
-/

namespace Lib.Pattern

open RegularExpression List

variable {α : Type}

def lit (s : List α) : RegularExpression α := s.foldr (fun c r => char c * r) 1

def oneOf (s : List α) : RegularExpression α := s.foldr (fun c r => char c + r) 0

/-- `r?` -/
def optional (r : RegularExpression α) : RegularExpression α := 1 + r

/-- `r+` -/
def oneOrMore (r : RegularExpression α) : RegularExpression α := r * r.star

/-! ## Words of an expression -/

variable {r r₁ r₂ : RegularExpression α} {s : List α} {p : α → Prop}

@[simp] theorem matches_lit (s : List α) : (lit s).matches' = {s} := by
  induction s with
  | nil => rfl
  | cons c s ih =>
    have hcons : (lit (c :: s)).matches' = (char c).matches' * (lit s).matches' := rfl
    rw [hcons, ih, matches'_char]
    ext t
    rw [Language.mem_mul]
    constructor
    · rintro ⟨u, hu, v, hv, rfl⟩
      cases hu
      cases hv
      rfl
    · rintro rfl
      exact ⟨[c], rfl, s, rfl, rfl⟩

theorem mem_oneOf {t : List α} : t ∈ (oneOf s).matches' ↔ ∃ c ∈ s, t = [c] := by
  induction s with
  | nil => exact iff_of_false id (by simp)
  | cons c s ih =>
    have hcons : (oneOf (c :: s)).matches' = (char c).matches' + (oneOf s).matches' := rfl
    rw [hcons, Language.mem_add, ih, matches'_char]
    constructor
    · rintro (h | ⟨d, hd, rfl⟩)
      · exact ⟨c, mem_cons_self, h⟩
      · exact ⟨d, mem_cons_of_mem c hd, rfl⟩
    · rintro ⟨d, hd, rfl⟩
      obtain rfl | hd := mem_cons.1 hd
      · exact .inl rfl
      · exact .inr ⟨d, hd, rfl⟩

theorem mem_optional {t : List α} : t ∈ (optional r).matches' ↔ t = [] ∨ t ∈ r.matches' := Iff.rfl

theorem mem_lit (s : List α) : s ∈ (lit s).matches' := by
  rw [matches_lit]
  rfl

theorem mem_oneOrMore {t : List α} (h : t ∈ r.matches') : t ∈ (oneOrMore r).matches' := by
  have hmem := Language.append_mem_mul h (Language.nil_mem_kstar r.matches')
  rwa [append_nil] at hmem

def Over (p : α → Prop) (r : RegularExpression α) : Prop := ∀ s ∈ r.matches', ∀ c ∈ s, p c

theorem over_lit (h : ∀ c ∈ s, p c) : Over p (lit s) := by
  intro t ht
  rw [matches_lit] at ht
  cases ht
  exact h

theorem over_oneOf (h : ∀ c ∈ s, p c) : Over p (oneOf s) := by
  intro t ht c hc
  obtain ⟨d, hd, rfl⟩ := mem_oneOf.1 ht
  cases mem_singleton.1 hc
  exact h c hd

theorem Over.mul (h₁ : Over p r₁) (h₂ : Over p r₂) : Over p (r₁ * r₂) := by
  intro t ht c hc
  obtain ⟨u, hu, v, hv, rfl⟩ := Language.mem_mul.1 ht
  obtain hc | hc := mem_append.1 hc
  · exact h₁ u hu c hc
  · exact h₂ v hv c hc

theorem Over.optional (h : Over p r) : Over p (optional r) := by
  intro t ht
  obtain rfl | ht := mem_optional.1 ht
  · exact fun c hc => absurd hc not_mem_nil
  · exact h t ht

theorem Over.star (h : Over p r) : Over p r.star := by
  intro t ht c hc
  obtain ⟨words, rfl, hwords⟩ := Language.mem_kstar.1 ht
  obtain ⟨word, hword, hc⟩ := mem_flatten.1 hc
  exact h word (hwords word hword) c hc

theorem Over.oneOrMore (h : Over p r) : Over p (oneOrMore r) := h.mul h.star

theorem ne_nil_of_oneOrMore (h : [] ∉ r.matches') {t : List α} (ht : t ∈ (oneOrMore r).matches') : t ≠ [] := by
  obtain ⟨u, hu, v, hv, rfl⟩ := Language.mem_mul.1 ht
  rintro heq
  rw [(append_eq_nil_iff.1 heq).1] at hu
  exact h hu

/-! ## The first match -/

/-- A pattern of three parts, of which the one in the middle is the group. -/
structure Grouped (α : Type) where
  before : RegularExpression α
  group : RegularExpression α
  after : RegularExpression α

namespace Grouped

variable (g : Grouped α) (s : List α)

/-- A match: where it begins, where the group begins and ends, and where it ends. -/
def IsMatch (i so eo j : Nat) : Prop :=
  (i ≤ so ∧ so ≤ eo ∧ eo ≤ j ∧ j ≤ s.length) ∧ (s.take so).drop i ∈ g.before.matches' ∧
    (s.take eo).drop so ∈ g.group.matches' ∧ (s.take j).drop eo ∈ g.after.matches'

instance [DecidableEq α] (i so eo j : Nat) : Decidable (g.IsMatch s i so eo j) := inferInstanceAs (Decidable (_ ∧ _))

def find [DecidableEq α] : Option (Nat × Nat) :=
  (List.range (s.length + 1)).findSome? fun i =>
    (List.range (s.length + 1)).findSome? fun so =>
      (List.range (s.length + 1)).findSome? fun eo =>
        if ∃ j < s.length + 1, g.IsMatch s i so eo j then some (so, eo) else none

def Contains (d : List α) : Prop :=
  ∃ p a b t, s = p ++ (a ++ (d ++ (b ++ t))) ∧ a ∈ g.before.matches' ∧ d ∈ g.group.matches' ∧ b ∈ g.after.matches'

variable {g s} {i so eo j : Nat}

theorem findSome?_range {β : Type} {n : Nat} {f : Nat → Option β} {b : β}
    (h : (List.range n).findSome? f = some b) : ∃ i < n, f i = some b ∧ ∀ k < i, f k = none := by
  induction n with
  | zero => cases h
  | succ n ih =>
    rw [range_succ, findSome?_append, Option.or_eq_some_iff] at h
    obtain h | ⟨hnone, h⟩ := h
    · obtain ⟨i, hi, hsome, hbefore⟩ := ih h
      exact ⟨i, Nat.lt_succ_of_lt hi, hsome, hbefore⟩
    · rw [findSome?_eq_none_iff] at hnone
      rw [findSome?_singleton] at h
      exact ⟨n, Nat.lt_succ_self n, h, fun k hk => hnone k (mem_range.2 hk)⟩

theorem findSome?_range_none {β : Type} {n : Nat} {f : Nat → Option β} (h : (List.range n).findSome? f = none)
    {i : Nat} (hi : i < n) : f i = none :=
  findSome?_eq_none_iff.1 h i (mem_range.2 hi)

theorem IsMatch.lt (h : g.IsMatch s i so eo j) :
    i < s.length + 1 ∧ so < s.length + 1 ∧ eo < s.length + 1 ∧ j < s.length + 1 := by
  obtain ⟨⟨h₁, h₂, h₃, h₄⟩, -⟩ := h
  omega

theorem find_eq_none [DecidableEq α] (h : g.find s = none) (i so eo j : Nat) : ¬ g.IsMatch s i so eo j := by
  intro hmatch
  obtain ⟨hi, hso, heo, hj⟩ := hmatch.lt
  have hnone := findSome?_range_none (findSome?_range_none (findSome?_range_none h hi) hso) heo
  rw [if_pos ⟨j, hj, hmatch⟩] at hnone
  cases hnone

theorem find_eq_some [DecidableEq α] (h : g.find s = some (so, eo)) :
    ∃ i j, g.IsMatch s i so eo j ∧ ∀ i' < i, ∀ so' eo' j', ¬ g.IsMatch s i' so' eo' j' := by
  obtain ⟨i, hi, h, hleft⟩ := findSome?_range h
  obtain ⟨so', hso, h, -⟩ := findSome?_range h
  obtain ⟨eo', heo, h, -⟩ := findSome?_range h
  by_cases hex : ∃ j < s.length + 1, g.IsMatch s i so' eo' j
  · rw [if_pos hex] at h
    cases h
    obtain ⟨j, -, hmatch⟩ := hex
    refine ⟨i, j, hmatch, fun i' hi' so' eo' j' hmatch' => ?_⟩
    obtain ⟨-, hso', heo', hj'⟩ := hmatch'.lt
    have hnone := findSome?_range_none (findSome?_range_none (hleft i' hi') hso') heo'
    rw [if_pos ⟨j', hj', hmatch'⟩] at hnone
    cases hnone
  · rw [if_neg hex] at h
    cases h

theorem IsMatch.split (h : g.IsMatch s i so eo j) : ∃ p a d b t, s = p ++ (a ++ (d ++ (b ++ t))) ∧
    p.length = i ∧ (p ++ a).length = so ∧ (p ++ (a ++ d)).length = eo ∧
    a ∈ g.before.matches' ∧ d ∈ g.group.matches' ∧ b ∈ g.after.matches' := by
  obtain ⟨⟨hi, hso, heo, hj⟩, ha, hd, hb⟩ := h
  have hpart : ∀ {m n : Nat}, m ≤ n → s.take n = s.take m ++ (s.take n).drop m := by
    intro m n hmn
    conv_lhs => rw [← take_append_drop m (s.take n), take_take, Nat.min_eq_left hmn]
  refine ⟨s.take i, (s.take so).drop i, (s.take eo).drop so, (s.take j).drop eo, s.drop j, ?_, ?_, ?_, ?_, ha, hd, hb⟩
  · conv_lhs => rw [← take_append_drop j s, hpart heo, hpart hso, hpart hi]
    simp only [append_assoc]
  · rw [length_take]
    omega
  · rw [← hpart hi, length_take]
    omega
  · rw [← append_assoc, ← hpart hi, ← hpart hso, length_take]
    omega

theorem isMatch_append {p a d b t : List α} (ha : a ∈ g.before.matches') (hd : d ∈ g.group.matches')
    (hb : b ∈ g.after.matches') :
    g.IsMatch (p ++ (a ++ (d ++ (b ++ t)))) p.length (p ++ a).length (p ++ (a ++ d)).length
      (p ++ (a ++ (d ++ b))).length := by
  refine ⟨?_, ?_, ?_, ?_⟩
  · simp only [length_append]
    omega
  · have htake : (p ++ (a ++ (d ++ (b ++ t)))).take (p ++ a).length = p ++ a := by
      rw [← append_assoc p a, take_left]
    rwa [htake, drop_left]
  · have htake : (p ++ (a ++ (d ++ (b ++ t)))).take (p ++ (a ++ d)).length = p ++ a ++ d := by
      rw [show p ++ (a ++ (d ++ (b ++ t))) = p ++ (a ++ d) ++ (b ++ t) by simp only [append_assoc],
        take_left, append_assoc]
    rwa [htake, drop_left]
  · have htake : (p ++ (a ++ (d ++ (b ++ t)))).take (p ++ (a ++ (d ++ b))).length = p ++ (a ++ d) ++ b := by
      rw [show p ++ (a ++ (d ++ (b ++ t))) = p ++ (a ++ (d ++ b)) ++ t by simp only [append_assoc],
        take_left]
      simp only [append_assoc]
    rwa [htake, drop_left]

end Grouped

end Lib.Pattern
