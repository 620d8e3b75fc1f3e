import Mathlib.Data.List.TakeWhile
import Mathlib.Data.UInt

/-!
# Formatted input and output

The directives of `scanf` on the characters that are left of a file, and the decimal numbers of `printf`. A
directive that does not match leaves the first character that it cannot use.
-/

namespace Lib

open List

def ascii (s : String) : List UInt8 := s.toList.map fun c => UInt8.ofNat c.toNat

def natural (n : Nat) : List UInt8 := (Nat.toDigits 10 n).map fun c => UInt8.ofNat c.toNat

def decimal : Int → List UInt8
  | .ofNat n => natural n
  | .negSucc n => 45 :: natural (n + 1)

namespace Scan

def isSpace (c : UInt8) : Bool := c = 32 || (9 ≤ c && c ≤ 13)

def isDigit (c : UInt8) : Bool := 48 ≤ c && c ≤ 57

def lit : List UInt8 → List UInt8 → Bool × List UInt8
  | [], file => (true, file)
  | _ :: _, [] => (false, [])
  | c :: cs, d :: file => if d = c then lit cs file else (false, d :: file)

/-- At least one and at most `n` characters of a set. -/
def set (n : Nat) (p : UInt8 → Bool) (file : List UInt8) : Option (List UInt8 × List UInt8) :=
  match (file.take n).takeWhile p with
  | [] => none
  | c :: s => some (c :: s, file.drop (s.length + 1))

def value (s : List UInt8) : Nat := s.foldl (fun n c => 10 * n + (c.toNat - 48)) 0

def digits (file : List UInt8) : Option Nat × List UInt8 :=
  match file.takeWhile isDigit with
  | [] => (none, file)
  | c :: s => (some (value (c :: s)), file.dropWhile isDigit)

def number (file : List UInt8) : Option Int × List UInt8 :=
  match file.dropWhile isSpace with
  | [] => (none, [])
  | c :: file =>
    if c = 45 then ((digits file).1.map fun n => -(n : Int), (digits file).2)
    else if c = 43 then ((digits file).1.map Nat.cast, (digits file).2)
    else ((digits (c :: file)).1.map Nat.cast, (digits (c :: file)).2)

variable {p : UInt8 → Bool} {n : Nat} {s t : List UInt8} {c : UInt8}

/-! ## What matches -/

theorem lit_append (s t : List UInt8) : lit s (s ++ t) = (true, t) := by
  induction s with
  | nil => rw [nil_append, lit]
  | cons c s ih => rw [cons_append, lit, if_pos rfl, ih]

theorem takeWhile_eq (hs : ∀ x ∈ s, p x = true) (hc : p c = false) : (s ++ c :: t).takeWhile p = s := by
  rw [takeWhile_append_of_pos hs, takeWhile_cons_of_neg (Bool.eq_false_iff.1 hc), append_nil]

theorem dropWhile_eq (hs : ∀ x ∈ s, p x = true) (hc : p c = false) : (s ++ c :: t).dropWhile p = c :: t := by
  rw [dropWhile_append_of_pos hs, dropWhile_cons_of_neg (Bool.eq_false_iff.1 hc)]

theorem set_append (hne : s ≠ []) (hlen : s.length ≤ n) (hs : ∀ x ∈ s, p x = true) (hc : p c = false) :
    set n p (s ++ c :: t) = some (s, c :: t) := by
  have htake : ((s ++ c :: t).take n).takeWhile p = s := by
    rw [take_append, take_of_length_le hlen]
    cases n - s.length with
    | zero => rw [take_zero, append_nil, takeWhile_eq_self_iff.2 hs]
    | succ m => rw [take_succ_cons, takeWhile_eq hs hc]
  rw [set, htake]
  cases s with
  | nil => exact absurd rfl hne
  | cons x s => exact congrArg (fun t => some (x :: s, t)) drop_left

theorem set_none (hc : p c = false) (n : Nat) (t : List UInt8) : set n p (c :: t) = none := by
  cases n with
  | zero => rfl
  | succ n => rw [set, take_succ_cons, takeWhile_cons_of_neg (Bool.eq_false_iff.1 hc)]

/-! ## Numbers -/

theorem toNat_of_isDigit {d : Char} (hd : d.isDigit = true) : (UInt8.ofNat d.toNat).toNat = d.toNat := by
  have hle : d.toNat ≤ 57 := (Char.isDigit_iff_toNat.1 hd).2
  rw [UInt8.toNat_ofNat', Nat.mod_eq_of_lt (by omega)]

theorem isDigit_of_mem_natural {x : UInt8} (hx : x ∈ natural n) : isDigit x = true := by
  obtain ⟨d, hd, rfl⟩ := List.mem_map.1 hx
  have hdigit := Nat.isDigit_of_mem_toDigits (by decide) (by decide) hd
  have hlt := Char.isDigit_iff_toNat.1 hdigit
  rw [isDigit, Bool.and_eq_true, decide_eq_true_eq, decide_eq_true_eq, UInt8.le_iff_toNat_le,
    UInt8.le_iff_toNat_le, toNat_of_isDigit hdigit]
  exact hlt

theorem value_natural (n : Nat) : value (natural n) = n := by
  have hvalue : ∀ (l : List Char) (m : Nat), (∀ d ∈ l, d.isDigit = true) →
      (l.map fun d => UInt8.ofNat d.toNat).foldl (fun n c => 10 * n + (c.toNat - 48)) m =
        Nat.ofDigitChars 10 l m := by
    intro l
    induction l with
    | nil => exact fun _ _ => rfl
    | cons d l ih =>
      intro m hl
      rw [forall_mem_cons] at hl
      rw [map_cons, foldl_cons, ih _ hl.2, Nat.ofDigitChars_cons, toNat_of_isDigit hl.1]
      rfl
  rw [value, natural, hvalue _ 0 fun d hd => Nat.isDigit_of_mem_toDigits (by decide) (by decide) hd,
    Nat.ofDigitChars_ten_toDigits]

theorem natural_eq_cons (n : Nat) : ∃ c s, natural n = c :: s := by
  apply exists_cons_of_ne_nil
  rw [natural, Ne, map_eq_nil_iff]
  exact Nat.toDigits_ne_nil

theorem digits_natural (hc : isDigit c = false) (n : Nat) (t : List UInt8) :
    digits (natural n ++ c :: t) = (some n, c :: t) := by
  have hall : ∀ x ∈ natural n, isDigit x = true := fun x hx => isDigit_of_mem_natural hx
  obtain ⟨x, s, hs⟩ := natural_eq_cons n
  have hvalue := value_natural n
  rw [digits, takeWhile_eq hall hc, dropWhile_eq hall hc]
  rw [hs] at hvalue ⊢
  dsimp only
  rw [hvalue]

theorem not_isSpace_of_isDigit (hc : isDigit c = true) : isSpace c = false ∧ c ≠ 45 ∧ c ≠ 43 := by
  rw [isDigit, Bool.and_eq_true, decide_eq_true_eq, decide_eq_true_eq, UInt8.le_iff_toNat_le] at hc
  have hge : 48 ≤ c.toNat := hc.1
  have hne : ∀ k < 48, c ≠ UInt8.ofNat k := by
    rintro k hk rfl
    rw [UInt8.toNat_ofNat', Nat.mod_eq_of_lt (by omega)] at hge
    omega
  refine ⟨?_, hne 45 (by decide), hne 43 (by decide)⟩
  rw [isSpace, Bool.or_eq_false_iff, decide_eq_false_iff_not, Bool.and_eq_false_iff]
  refine ⟨hne 32 (by decide), .inr ?_⟩
  rw [decide_eq_false_iff_not, UInt8.le_iff_toNat_le, Nat.not_le]
  exact Nat.lt_of_lt_of_le (by decide) hge

theorem number_decimal (hc : isDigit c = false) (v : Int) (t : List UInt8) :
    number (decimal v ++ c :: t) = (some v, c :: t) := by
  cases v with
  | ofNat n =>
    have hdigits := digits_natural hc n t
    obtain ⟨x, s, hs⟩ := natural_eq_cons n
    have hx : isDigit x = true := isDigit_of_mem_natural (n := n) (by rw [hs]; exact mem_cons_self)
    obtain ⟨hspace, hminus, hplus⟩ := not_isSpace_of_isDigit hx
    rw [decimal, hs, cons_append, number, dropWhile_cons_of_neg (Bool.eq_false_iff.1 hspace)]
    dsimp only
    rw [if_neg hminus, if_neg hplus, ← cons_append, ← hs, hdigits]
    rfl
  | negSucc n =>
    have hspace : isSpace 45 = false := rfl
    rw [decimal, cons_append, number, dropWhile_cons_of_neg (Bool.eq_false_iff.1 hspace)]
    dsimp only
    rw [if_pos rfl, digits_natural hc]
    rfl

end Scan

end Lib
