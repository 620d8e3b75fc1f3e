import SNetRts.Svpgw.Expression
import Mathlib.Algebra.Group.Int.Defs

/-!
# The evaluators and the meaning of expressions

An expression is defined on a record if nothing that counts in it divides by zero or comes to a number
that is too large. On such a record, the evaluators of `common/expression.c` return what the expression
means, except where a conditional is evaluated: neither of them handles `COND`, and the program exits.
-/

namespace SNet

open Lib Svpgw

variable {V : Type} {rec : Record V}

/-! ## Expressions that are defined -/

/-- The number is an `int`. -/
def CInt.fits (v : Int) : Bool := decide (-2 ^ 31 ≤ v ∧ v < 2 ^ 31)

def BinOp.defined : BinOp → Int → Int → Bool
  | .ADD, x, y => CInt.fits (x + y)
  | .MUL, x, y => CInt.fits (x * y)
  | .SUB, x, y => CInt.fits (x - y)
  | .DIV, x, y | .MOD, x, y => decide (y ≠ 0) && CInt.fits (x.tdiv y)
  | _, _, _ => true

def Expr.defined (rec : Record V) : Expr → Bool
  | .CONSTI _ | .CONSTB _ | .TAG _ | .BTAG _ => true
  | .mon .ABS a => a.defined rec && CInt.fits (a.denote rec).natAbs
  | .mon .NOT a => a.defined rec
  | .bin .AND a b => a.defined rec && (decide (a.denote rec = 0) || b.defined rec)
  | .bin .OR a b => a.defined rec && (decide (a.denote rec ≠ 0) || b.defined rec)
  | .bin op a b => a.defined rec && b.defined rec && op.defined (a.denote rec) (b.denote rec)
  | .COND a b c => a.defined rec && if a.denote rec ≠ 0 then b.defined rec else c.defined rec

/-- The evaluator of the type returns what the expression means. -/
def Expr.Returns (rec : Record V) (e : Expr) : Ty → Prop
  | .int => SNetEevaluateInt (some e) rec = .done (e.denote rec)
  | .bool => SNetEevaluateBool (some e) rec = .done (decide (e.denote rec ≠ 0))

/-- The evaluator of the type comes to an operation that it does not handle, and the program exits. -/
def Expr.Exits (rec : Record V) (e : Expr) : Ty → Prop
  | .int => SNetEevaluateInt (some e) rec = .blocked
  | .bool => SNetEevaluateBool (some e) rec = .blocked

def Expr.Safe (rec : Record V) (e : Expr) : Ty → Prop
  | .int => e.evaluateInt rec ≠ .fault
  | .bool => e.evaluateBool rec ≠ .fault

theorem Expr.defined_strict {op : BinOp} (hop : strict op = true) {a b : Expr}
    (h : (Expr.bin op a b).defined rec = true) :
    a.defined rec = true ∧ b.defined rec = true ∧ op.defined (a.denote rec) (b.denote rec) = true := by
  have hdef : (Expr.bin op a b).defined rec =
      (a.defined rec && b.defined rec && op.defined (a.denote rec) (b.denote rec)) := by
    cases op with
    | AND | OR => cases hop
    | _ => rfl
  rw [hdef, Bool.and_eq_true, Bool.and_eq_true] at h
  exact ⟨h.1.1, h.1.2, h.2⟩

/-! ## What is evaluated -/

namespace Expr

theorem denote_of_evaluateInt {e : Expr} (h : Typed e .int) (htags : e.hasTags rec = true) {v : Int}
    (hval : e.evaluateInt rec = .done v) : v = e.denote rec := by
  have hcond : hasCond rec e = false := by
    rw [← Bool.not_eq_true]
    intro hcond
    exact stuck h htags hcond v hval
  have hgw : Svpgw.evaluateInt rec e = .done v := (agrees h htags hcond).symm.trans hval
  exact evaluateInt_denote hcond hgw

theorem denote_of_evaluateBool {e : Expr} (h : Typed e .bool) (htags : e.hasTags rec = true) {v : Bool}
    (hval : e.evaluateBool rec = .done v) : e.denote rec = v.toInt := by
  have hcond : hasCond rec e = false := by
    rw [← Bool.not_eq_true]
    intro hcond
    exact stuck h htags hcond v hval
  exact logic_agrees hcond (agrees h htags hcond) hval

/-! ## No faults -/

theorem both_ne_fault {α β : Type} {x y : Outcome α} {f : α → α → Outcome β} (hx : x ≠ .fault)
    (hy : y ≠ .fault) (hf : ∀ m n, x = .done m → y = .done n → f m n ≠ .fault) : both x y f ≠ .fault :=
  Outcome.bind_ne_fault hx fun m hm => Outcome.bind_ne_fault hy fun n hn => hf m n hm hn

theorem int_ne_fault {v : Int} (h : CInt.fits v = true) : CInt.int v ≠ .fault := by
  rw [CInt.int, if_pos (of_decide_eq_true h)]
  nofun

theorem div_ne_fault {x y : Int} (h : (decide (y ≠ 0) && CInt.fits (x.tdiv y)) = true) :
    CInt.div x y ≠ .fault := by
  rw [Bool.and_eq_true] at h
  rw [CInt.div, if_neg (of_decide_eq_true h.1)]
  exact int_ne_fault h.2

theorem isEqualOp_ne_fault {a b : Expr} {τ : Ty} (ha : Typed a τ) (hsafea : Safe rec a τ)
    (hsafeb : Safe rec b τ) :
    isEqualOp a (a.evaluateBool rec) (b.evaluateBool rec) (a.evaluateInt rec) (b.evaluateInt rec) ≠
      .fault := by
  unfold isEqualOp
  cases τ with
  | int =>
    rw [isBoolean_of_int ha, if_neg Bool.false_ne_true]
    exact both_ne_fault hsafea hsafeb fun _ _ _ _ => nofun
  | bool =>
    split
    case isTrue => exact both_ne_fault hsafea hsafeb fun _ _ _ _ => nofun
    case isFalse hbool =>
      -- a conditional, which `isBoolean` takes for a number
      cases ha with
      | cond => nofun
      | @order op a b hop _ _ =>
        cases op with
        | GT | GE | LT | LE => exact absurd rfl hbool
        | _ => cases hop
      | _ => exact absurd rfl hbool

theorem arith_safe {op : BinOp} (hop : op.isArith = true) {a b : Expr} (ha : Safe rec a .int)
    (hb : Safe rec b .int) (hdef : ∀ m n, a.evaluateInt rec = .done m → b.evaluateInt rec = .done n →
      op.defined m n = true) : Safe rec (.bin op a b) .int := by
  cases op with
  | MIN | MAX => exact both_ne_fault ha hb fun _ _ _ _ => nofun
  | ADD | MUL | SUB => exact both_ne_fault ha hb fun m n hm hn => int_ne_fault (hdef m n hm hn)
  | DIV => exact both_ne_fault ha hb fun m n hm hn => div_ne_fault (hdef m n hm hn)
  | MOD =>
    refine both_ne_fault ha hb fun m n hm hn => ?_
    exact Outcome.bind_ne_fault (div_ne_fault (hdef m n hm hn)) fun _ _ => nofun
  | _ => cases hop

theorem order_safe {op : BinOp} (hop : op.isOrder = true) {a b : Expr} (htyped : Typed a .int)
    (ha : Safe rec a .int) (hb : Safe rec b .int) : Safe rec (.bin op a b) .bool := by
  have hequal := isEqualOp_ne_fault htyped ha hb
  cases op with
  | GT | LT => exact both_ne_fault ha hb fun _ _ _ _ => nofun
  | GE | LE =>
    refine Outcome.bind_ne_fault (both_ne_fault ha hb fun _ _ _ _ => nofun) fun m _ => ?_
    split
    · nofun
    · exact hequal
  | _ => cases hop

theorem safe {e : Expr} {τ : Ty} (h : Typed e τ) (htags : e.hasTags rec = true) (hdef : e.defined rec = true) :
    Safe rec e τ := by
  induction h with
  | consti | constb =>
    intro h
    cases h
  | tag id =>
    obtain ⟨v, hv⟩ := Option.isSome_iff_exists.1 htags
    change Outcome.ofOption (rec.tags.get? id) ≠ .fault
    rw [hv]
    intro h
    cases h
  | btag id =>
    obtain ⟨v, hv⟩ := Option.isSome_iff_exists.1 htags
    change Outcome.ofOption (rec.btags.get? id) ≠ .fault
    rw [hv]
    intro h
    cases h
  | abs ha ih =>
    rw [defined, Bool.and_eq_true] at hdef
    refine Outcome.bind_ne_fault (ih htags hdef.1) fun m hm => ?_
    rw [denote_of_evaluateInt ha htags hm]
    exact int_ne_fault hdef.2
  | not _ ih => exact Outcome.bind_ne_fault (ih htags hdef) fun _ _ h => by cases h
  | @arith op a b hop ha hb iha ihb =>
    rw [hasTags, Bool.and_eq_true] at htags
    obtain ⟨hdefa, hdefb, hop'⟩ := defined_strict (strict_of_isArith hop) hdef
    refine arith_safe hop (iha htags.1 hdefa) (ihb htags.2 hdefb) fun m n hm hn => ?_
    rwa [denote_of_evaluateInt ha htags.1 hm, denote_of_evaluateInt hb htags.2 hn]
  | eq ha _ iha ihb =>
    rw [hasTags, Bool.and_eq_true] at htags
    obtain ⟨hdefa, hdefb, -⟩ := defined_strict rfl hdef
    exact isEqualOp_ne_fault ha (iha htags.1 hdefa) (ihb htags.2 hdefb)
  | ne ha _ iha ihb =>
    rw [hasTags, Bool.and_eq_true] at htags
    obtain ⟨hdefa, hdefb, -⟩ := defined_strict rfl hdef
    exact Outcome.bind_ne_fault (isEqualOp_ne_fault ha (iha htags.1 hdefa) (ihb htags.2 hdefb)) fun _ _ h => by cases h
  | order hop ha _ iha ihb =>
    rw [hasTags, Bool.and_eq_true] at htags
    obtain ⟨hdefa, hdefb, -⟩ := defined_strict (strict_of_isOrder hop) hdef
    exact order_safe hop ha (iha htags.1 hdefa) (ihb htags.2 hdefb)
  | and ha _ iha ihb =>
    rw [hasTags, Bool.and_eq_true] at htags
    rw [defined, Bool.and_eq_true, Bool.or_eq_true] at hdef
    refine Outcome.bind_ne_fault (iha htags.1 hdef.1) fun m hm => ?_
    cases m with
    | false =>
      intro h
      cases h
    | true =>
      have hden := denote_of_evaluateBool ha htags.1 hm
      refine ihb htags.2 (hdef.2.resolve_left ?_)
      rw [hden]
      intro h
      cases h
  | or ha _ iha ihb =>
    rw [hasTags, Bool.and_eq_true] at htags
    rw [defined, Bool.and_eq_true, Bool.or_eq_true] at hdef
    refine Outcome.bind_ne_fault (iha htags.1 hdef.1) fun m hm => ?_
    cases m with
    | true =>
      intro h
      cases h
    | false =>
      have hden := denote_of_evaluateBool ha htags.1 hm
      exact ihb htags.2 (hdef.2.resolve_left fun hne => of_decide_eq_true hne hden)
  | @cond τ =>
    cases τ with
    | int | bool =>
      intro h
      cases h

end Expr

/-! ## The language and its evaluators -/

/-- On an expression that is defined, the evaluators return what it means exactly if no conditional is
evaluated; at a conditional they exit. -/
theorem evaluators_implement_iff {e : Expr} {τ : Ty} (rec : Record V) (h : Typed e τ)
    (htags : e.hasTags rec = true) (hdef : e.defined rec = true) :
    (e.Returns rec τ ↔ hasCond rec e = false) ∧ (e.Exits rec τ ↔ hasCond rec e = true) := by
  have hsafe := Expr.safe h htags hdef
  cases hcond : hasCond rec e with
  | true =>
    have hstuck := stuck h htags hcond
    cases τ with
    | int =>
      have hexits : e.evaluateInt rec = .blocked := Outcome.eq_blocked hsafe hstuck
      exact ⟨⟨fun hret => absurd hret (hstuck _), nofun⟩, fun _ => rfl, fun _ => hexits⟩
    | bool =>
      have hexits : e.evaluateBool rec = .blocked := Outcome.eq_blocked hsafe hstuck
      exact ⟨⟨fun hret => absurd hret (hstuck _), nofun⟩, fun _ => rfl, fun _ => hexits⟩
  | false =>
    have hagrees := agrees h htags hcond
    have hreturns : e.Returns rec τ := by
      cases τ with
      | int =>
        have hblocked : e.evaluateInt rec ≠ .blocked := by
          rw [hagrees]
          exact evaluateInt_ne_blocked e
        obtain ⟨v, hval⟩ := Outcome.exists_done hblocked hsafe
        change e.evaluateInt rec = _
        rw [hval, Expr.denote_of_evaluateInt h htags hval]
      | bool =>
        obtain ⟨v, hval⟩ := Outcome.exists_done (ne_blocked_of_agrees hagrees) hsafe
        change e.evaluateBool rec = _
        rw [hval, Expr.denote_of_evaluateBool h htags hval]
        cases v <;> rfl
    refine ⟨⟨fun _ => rfl, fun _ => hreturns⟩, ⟨fun hexits => ?_, nofun⟩⟩
    cases τ with
    | int | bool => cases hexits.symm.trans hreturns

/-- The guard is odd for `7`: `<t> > 2 && <t> % 2 == 1`. -/
theorem oddGuard_returns : oddGuard.Returns (tagged 7) .bool := by
  have htyped : Typed oddGuard .bool :=
    .and (.order rfl (.tag 0) (.consti 2)) (.eq (.arith rfl (.tag 0) (.consti 2)) (.consti 1))
  exact (evaluators_implement_iff (tagged 7) htyped rfl (by decide)).1.2 rfl

/-- `if true then 1 else 2` is `1`, and the evaluator exits. -/
theorem conditional_exits :
    Typed oneOrTwo .int ∧ oneOrTwo.hasTags (tagged 7) = true ∧ oneOrTwo.defined (tagged 7) = true ∧
      oneOrTwo.denote (tagged 7) = 1 ∧ SNetEevaluateInt (some oneOrTwo) (tagged 7) = .blocked ∧
        ¬ oneOrTwo.Returns (tagged 7) .int :=
  ⟨.cond (.constb true) (.consti 1) (.consti 2), rfl, rfl, rfl, rfl, nofun⟩

end SNet
