import Mathlib.Data.List.Basic

/-!
# Scanners with start conditions

A scanner has rules for each start condition. The rule that matches the longest piece of the input is
taken, and of several such rules the first one. What a rule does may change the start condition, on a
stack; it skips its text, reports it, or makes a token of it.
-/

namespace Lib.Flex

open List

variable {σ τ : Type*}

/-- What becomes of the start condition. -/
inductive Move (σ : Type*) where
  | stay
  | push (s : σ)
  | pop
  /-- A pop and then a push. -/
  | replace (s : σ)

/-- What a rule does with its text. -/
inductive Emit (τ : Type*) where
  | skip
  | invalid
  | token (f : List Char → τ)

/-- A rule; `len` is the length of the longest match at the start of the input, `0` if there is none. -/
structure Rule (σ τ : Type*) where
  len : List Char → Nat
  move : Move σ
  emit : Emit τ

def best (rules : List (Rule σ τ)) (text : List Char) : Option (Nat × Rule σ τ) :=
  match rules with
  | [] => none
  | r :: rs =>
    match best rs text with
    | some (n, r') => if n ≤ r.len text then some (r.len text, r) else some (n, r')
    | none => if 0 < r.len text then some (r.len text, r) else none

/-- Where a scanner is. -/
structure Pos (σ : Type*) where
  state : σ
  stack : List σ
  text : List Char

/-- The start condition and the stack after a move; there is none if the stack is too short. -/
def Move.apply (m : Move σ) (state : σ) (stack : List σ) : Option (σ × List σ) :=
  match m, stack with
  | .stay, _ => some (state, stack)
  | .push s, _ => some (s, state :: stack)
  | .pop, s :: stack => some (s, stack)
  | .replace s, _ :: _ => some (s, stack)
  | _, [] => none

/-- What a scanner finds; `invalid` tells that a rule has reported its text on the way. -/
inductive Scanned (σ τ : Type*) where
  | token (invalid : Bool) (t : τ) (pos : Pos σ)
  | eof (invalid : Bool) (pos : Pos σ)
  /-- A pop from the empty stack. -/
  | underflow

/-- Scans up to the next token, taking at most `fuel` rules. -/
def scan (rules : σ → List (Rule σ τ)) : Nat → Bool → Pos σ → Scanned σ τ
  | 0, invalid, pos => .eof invalid pos
  | fuel + 1, invalid, pos =>
    match best (rules pos.state) pos.text with
    | none => .eof invalid pos
    | some (n, r) =>
      match r.move.apply pos.state pos.stack with
      | none => .underflow
      | some (state, stack) =>
        match r.emit with
        | .skip => scan rules fuel invalid ⟨state, stack, pos.text.drop n⟩
        | .invalid => scan rules fuel true ⟨state, stack, pos.text.drop n⟩
        | .token f => .token invalid (f (pos.text.take n)) ⟨state, stack, pos.text.drop n⟩

/-! ## Matches -/

def lit (s : List Char) (text : List Char) : Nat := if s.isPrefixOf text then s.length else 0

def run (p : Char → Bool) (text : List Char) : Nat := (text.takeWhile p).length

/-- A character of one class, and as many of another one as there are. -/
def headRun (p q : Char → Bool) : List Char → Nat
  | [] => 0
  | c :: text => if p c then 1 + run q text else 0

def anyChar : List Char → Nat
  | [] => 0
  | c :: _ => if c = '\n' then 0 else 1

/-! ## Which rule is taken -/

theorem best_le {rules : List (Rule σ τ)} {text : List Char} {n m : Nat} {r : Rule σ τ}
    (h : best rules text = some (m, r)) (hle : ∀ r ∈ rules, r.len text ≤ n) : m ≤ n := by
  induction rules generalizing m r with
  | nil => cases h
  | cons r' rs ih =>
    have hr' := hle r' mem_cons_self
    unfold best at h
    split at h
    · rename_i k r'' hb
      split at h
      · cases h
        exact hr'
      · cases h
        exact ih hb fun r hr => hle r (mem_cons_of_mem _ hr)
    · split at h
      · cases h
        exact hr'
      · cases h

theorem best_eq (pre : List (Rule σ τ)) {r : Rule σ τ} (post : List (Rule σ τ)) {text : List Char}
    {n : Nat} (hr : r.len text = n) (hn : 0 < n) (hpre : ∀ r' ∈ pre, r'.len text < n)
    (hpost : ∀ r' ∈ post, r'.len text ≤ n) : best (pre ++ r :: post) text = some (n, r) := by
  induction pre with
  | nil =>
    rw [nil_append, best]
    split
    · rename_i m r' hb
      rw [hr, if_pos (best_le hb hpost)]
    · rw [hr, if_pos hn]
  | cons r' pre ih =>
    have hlt := hpre r' mem_cons_self
    rw [cons_append, best, ih fun r hr => hpre r (mem_cons_of_mem _ hr)]
    exact if_neg (Nat.not_le.2 hlt)

theorem scan_skip {rules : σ → List (Rule σ τ)} {s : σ} {stack : List σ} {text : List Char} {n : Nat}
    {len : List Char → Nat} (h : best (rules s) text = some (n, ⟨len, .stay, .skip⟩)) (fuel : Nat)
    (invalid : Bool) :
    scan rules (fuel + 1) invalid ⟨s, stack, text⟩ = scan rules fuel invalid ⟨s, stack, text.drop n⟩ := by
  rw [scan, h]
  rfl

/-! ## How much is taken -/

theorem best_pos {rules : List (Rule σ τ)} {text : List Char} {n : Nat} {r : Rule σ τ}
    (h : best rules text = some (n, r)) : 0 < n := by
  induction rules generalizing n r with
  | nil => cases h
  | cons r' rs ih =>
    unfold best at h
    split at h
    · rename_i k r'' hb
      have hk := ih hb
      split at h
      · rename_i hle
        cases h
        omega
      · cases h
        exact hk
    · split at h
      · rename_i hpos
        cases h
        exact hpos
      · cases h

theorem best_ne_none {rules : List (Rule σ τ)} {text : List Char} {r : Rule σ τ} (hr : r ∈ rules)
    (hpos : 0 < r.len text) : best rules text ≠ none := by
  induction rules with
  | nil => cases hr
  | cons r' rs ih =>
    unfold best
    split
    · split <;> nofun
    · rename_i hnone
      rcases mem_cons.1 hr with rfl | hr
      · rw [if_pos hpos]
        nofun
      · exact absurd hnone (ih hr)

def Scanned.pos? : Scanned σ τ → Option (Pos σ)
  | .token _ _ pos | .eof _ pos => some pos
  | .underflow => none

theorem scan_le {rules : σ → List (Rule σ τ)} {fuel : Nat} {invalid : Bool} {pos pos' : Pos σ}
    (h : (scan rules fuel invalid pos).pos? = some pos') : pos'.text.length ≤ pos.text.length := by
  induction fuel generalizing invalid pos with
  | zero =>
    cases h
    exact Nat.le_refl _
  | succ fuel ih =>
    unfold scan at h
    split at h
    · cases h
      exact Nat.le_refl _
    · rename_i n r _
      have hdrop : (pos.text.drop n).length ≤ pos.text.length := by
        rw [length_drop]
        omega
      split at h
      · cases h
      · split at h
        · exact Nat.le_trans (ih h) hdrop
        · exact Nat.le_trans (ih h) hdrop
        · cases h
          exact hdrop

theorem scan_lt {rules : σ → List (Rule σ τ)} {fuel : Nat} {invalid : Bool} {pos pos' : Pos σ}
    (h : (scan rules (fuel + 1) invalid pos).pos? = some pos') (htext : pos.text ≠ [])
    {r : Rule σ τ} (hr : r ∈ rules pos.state) (hpos : 0 < r.len pos.text) :
    pos'.text.length < pos.text.length := by
  unfold scan at h
  split at h
  · rename_i hnone
    exact absurd hnone (best_ne_none hr hpos)
  · rename_i n r' hbest
    have hdrop : (pos.text.drop n).length < pos.text.length := by
      have hn := best_pos hbest
      have hlen := length_pos_of_ne_nil htext
      rw [length_drop]
      omega
    split at h
    · cases h
    · split at h
      · exact Nat.lt_of_le_of_lt (scan_le h) hdrop
      · exact Nat.lt_of_le_of_lt (scan_le h) hdrop
      · cases h
        exact hdrop

/-! ## Pieces of the input -/

theorem run_append {p : Char → Bool} {t s : List Char} {c : Char} (ht : ∀ x ∈ t, p x = true)
    (hc : p c = false) : run p (t ++ c :: s) = t.length := by
  unfold run
  rw [takeWhile_append_of_pos ht, takeWhile_cons_of_neg (by simp [hc]), append_nil]

theorem run_lt {p : Char → Bool} {t : List Char} (ht : ∃ x ∈ t, p x = false) (s : List Char) :
    run p (t ++ s) < t.length := by
  unfold run
  induction t with
  | nil =>
    obtain ⟨x, hx, -⟩ := ht
    cases hx
  | cons c t ih =>
    rw [cons_append]
    cases hc : p c with
    | false =>
      rw [takeWhile_cons_of_neg (by simp [hc])]
      exact Nat.succ_pos _
    | true =>
      rw [takeWhile_cons_of_pos hc]
      refine Nat.succ_lt_succ (ih ?_)
      obtain ⟨x, hx, hp⟩ := ht
      rcases mem_cons.1 hx with rfl | hx
      · exact absurd (hc.symm.trans hp) nofun
      · exact ⟨x, hx, hp⟩

theorem lit_eq_zero {a c : Char} (h : a ≠ c) (s t : List Char) : lit (a :: s) (c :: t) = 0 := by
  have hne : (a == c) = false := beq_eq_false_iff_ne.2 h
  simp [lit, List.isPrefixOf, hne]

theorem anyChar_le_one (text : List Char) : anyChar text ≤ 1 := by
  unfold anyChar
  split
  · exact Nat.zero_le 1
  · split
    · exact Nat.zero_le 1
    · exact Nat.le_refl 1

end Lib.Flex
