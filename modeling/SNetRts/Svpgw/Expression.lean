import SNetRts.Common.Expr

/-!
# Expressions in the graph walker

`svpgw/src/gw/expression.utc` evaluates all expressions to numbers. It agrees with the evaluation of
the common runtime exactly if there is an expression, and if no conditional is evaluated: the common
runtime exits at a conditional, and the graph walker takes `0` for it.
-/

namespace SNet.Svpgw

open Lib SNet.Expr

variable {V : Type}

/-- `evaluate_unary_expr`, on what the evaluation of the operand gives. -/
def evaluateUnary (op : MonOp) (a : Outcome Int) : Outcome Int :=
  match op with
  | .ABS => a.bind CInt.abs
  | .NOT => a.bind fun x => .done (decide (x = 0)).toInt

/-- `evaluate_binary_expr`. -/
def evaluateBinary (op : BinOp) (a b : Outcome Int) : Outcome Int :=
  match op with
  | .MIN => both a b fun x y => .done (if x > y then y else x)
  | .MAX => both a b fun x y => .done (if x < y then y else x)
  | .ADD => both a b CInt.add
  | .MUL => both a b CInt.mul
  | .SUB => both a b CInt.sub
  | .DIV => both a b CInt.div
  | .MOD => both a b CInt.mod
  | .EQ => both a b fun x y => .done (decide (x = y)).toInt
  | .NE => both a b fun x y => .done (decide (x ≠ y)).toInt
  | .GT => both a b fun x y => .done (decide (x > y)).toInt
  | .GE => both a b fun x y => .done (decide (x ≥ y)).toInt
  | .LT => both a b fun x y => .done (decide (x < y)).toInt
  | .LE => both a b fun x y => .done (decide (x ≤ y)).toInt
  | .AND => a.bind fun x => if x ≠ 0 then b.bind fun y => .done (decide (y ≠ 0)).toInt else .done 0
  | .OR => a.bind fun x => if x ≠ 0 then .done 1 else b.bind fun y => .done (decide (y ≠ 0)).toInt

/-- `SNetEEvaluateInt` of an expression that is there; a tag that is not there counts as `0`. -/
def evaluateInt (rec : Record V) : Expr → Outcome Int
  | .CONSTI val => .done val
  | .CONSTB val => .done val.toInt
  | .TAG id => .done ((rec.tags.get? id).getD 0)
  | .BTAG id => .done ((rec.btags.get? id).getD 0)
  | .mon op a => evaluateUnary op (evaluateInt rec a)
  | .bin op a b => evaluateBinary op (evaluateInt rec a) (evaluateInt rec b)
  | .COND _ _ _ => .done 0

/-- `SNetEEvaluateInt`. -/
def SNetEEvaluateInt (expr : Option Expr) (rec : Record V) : Outcome Int :=
  match expr with
  | none => .done 0
  | some expr => evaluateInt rec expr

/-- `SNetEEvaluateBool`. -/
def SNetEEvaluateBool (expr : Option Expr) (rec : Record V) : Outcome Bool :=
  (SNetEEvaluateInt expr rec).bind fun x => .done (decide (x ≠ 0))

/-! ## What is asked of the two -/

def SameValue (expr : Option Expr) (rec : Record V) : Ty → Prop
  | .int => ∃ v, SNetEevaluateInt expr rec = .done v ∧ SNetEEvaluateInt expr rec = .done v
  | .bool => ∃ v, SNetEevaluateBool expr rec = .done v ∧ SNetEEvaluateBool expr rec = .done v

/-- Neither of them divides by zero, or comes to a number that is too large. -/
def NoFault (expr : Option Expr) (rec : Record V) : Ty → Prop
  | .int => SNetEevaluateInt expr rec ≠ .fault ∧ SNetEEvaluateInt expr rec ≠ .fault
  | .bool => SNetEevaluateBool expr rec ≠ .fault ∧ SNetEEvaluateBool expr rec ≠ .fault

/-- A conditional is part of the expression, and not only of second operands that do not count. -/
def hasCond (rec : Record V) : Expr → Bool
  | .COND _ _ _ => true
  | .mon _ a => hasCond rec a
  | .bin .AND a b => hasCond rec a || (decide (a.denote rec ≠ 0) && hasCond rec b)
  | .bin .OR a b => hasCond rec a || (decide (a.denote rec = 0) && hasCond rec b)
  | .bin _ a b => hasCond rec a || hasCond rec b
  | _ => false

/-! ## The graph walker and the meaning -/

theorem both_eq_done {α β : Type} {x y : Outcome α} {f : α → α → Outcome β} {v : β} :
    both x y f = .done v ↔ ∃ m n, x = .done m ∧ y = .done n ∧ f m n = .done v := by
  unfold both
  constructor
  · intro h
    obtain ⟨m, hm, h⟩ := Outcome.bind_eq_done.1 h
    obtain ⟨n, hn, h⟩ := Outcome.bind_eq_done.1 h
    exact ⟨m, n, hm, hn, h⟩
  · rintro ⟨m, n, rfl, rfl, h⟩
    exact h

def strict : BinOp → Bool
  | .AND | .OR => false
  | _ => true

theorem strict_of_isArith {op : BinOp} (hop : op.isArith = true) : strict op = true := by
  cases op with
  | AND | OR => cases hop
  | _ => rfl

theorem strict_of_isOrder {op : BinOp} (hop : op.isOrder = true) : strict op = true := by
  cases op with
  | AND | OR => cases hop
  | _ => rfl

theorem evaluateBinary_denote {op : BinOp} (hop : strict op = true) {x y : Outcome Int} {v : Int}
    (h : evaluateBinary op x y = .done v) :
    ∃ m n, x = .done m ∧ y = .done n ∧ v = op.denote m n := by
  cases op with
  | AND => cases hop
  | OR => cases hop
  | MIN =>
    obtain ⟨m, n, hm, hn, h⟩ := both_eq_done.1 h
    refine ⟨m, n, hm, hn, ?_⟩
    cases h
    change (if m > n then n else m) = min m n
    omega
  | MAX =>
    obtain ⟨m, n, hm, hn, h⟩ := both_eq_done.1 h
    refine ⟨m, n, hm, hn, ?_⟩
    cases h
    change (if m < n then n else m) = max m n
    omega
  | ADD | MUL | SUB =>
    obtain ⟨m, n, hm, hn, h⟩ := both_eq_done.1 h
    exact ⟨m, n, hm, hn, CInt.eq_of_int h⟩
  | DIV =>
    obtain ⟨m, n, hm, hn, h⟩ := both_eq_done.1 h
    exact ⟨m, n, hm, hn, CInt.eq_of_div h⟩
  | MOD =>
    obtain ⟨m, n, hm, hn, h⟩ := both_eq_done.1 h
    exact ⟨m, n, hm, hn, CInt.eq_of_mod h⟩
  | EQ | NE | GT | GE | LT | LE =>
    obtain ⟨m, n, hm, hn, h⟩ := both_eq_done.1 h
    refine ⟨m, n, hm, hn, ?_⟩
    cases h
    rfl

section

variable {rec : Record V}

theorem hasCond_strict {op : BinOp} (hop : strict op = true) (a b : Expr) :
    hasCond rec (.bin op a b) = (hasCond rec a || hasCond rec b) := by
  cases op with
  | AND | OR => cases hop
  | _ => rfl

theorem evaluateInt_denote {e : Expr} (hcond : hasCond rec e = false) {v : Int}
    (h : evaluateInt rec e = .done v) : v = e.denote rec := by
  induction e generalizing v with
  | CONSTI val | CONSTB val | TAG id | BTAG id =>
    cases h
    rfl
  | COND a b c => cases hcond
  | mon op a ih =>
    cases op with
    | ABS =>
      obtain ⟨m, hm, h⟩ := Outcome.bind_eq_done.1 h
      rw [CInt.eq_of_int h, ih hcond hm]
      rfl
    | NOT =>
      obtain ⟨m, hm, h⟩ := Outcome.bind_eq_done.1 h
      cases h
      rw [ih hcond hm]
      rfl
  | bin op a b iha ihb =>
    cases hop : strict op with
    | true =>
      rw [hasCond_strict hop, Bool.or_eq_false_iff] at hcond
      obtain ⟨m, n, hm, hn, rfl⟩ := evaluateBinary_denote hop h
      rw [iha hcond.1 hm, ihb hcond.2 hn]
      rfl
    | false =>
      cases op with
      | AND =>
        rw [hasCond, Bool.or_eq_false_iff] at hcond
        obtain ⟨m, hm, h⟩ := Outcome.bind_eq_done.1 h
        have hma := iha hcond.1 hm
        subst hma
        by_cases hzero : a.denote rec = 0
        · rw [if_neg (not_not.2 hzero)] at h
          cases h
          simp [denote, BinOp.denote, hzero]
        · have hcondb : hasCond rec b = false := by simpa [hzero] using hcond.2
          rw [if_pos hzero] at h
          obtain ⟨n, hn, h⟩ := Outcome.bind_eq_done.1 h
          cases h
          rw [ihb hcondb hn]
          simp [denote, BinOp.denote, hzero]
      | OR =>
        rw [hasCond, Bool.or_eq_false_iff] at hcond
        obtain ⟨m, hm, h⟩ := Outcome.bind_eq_done.1 h
        have hma := iha hcond.1 hm
        subst hma
        by_cases hzero : a.denote rec = 0
        · have hcondb : hasCond rec b = false := by simpa [hzero] using hcond.2
          rw [if_neg (not_not.2 hzero)] at h
          obtain ⟨n, hn, h⟩ := Outcome.bind_eq_done.1 h
          cases h
          rw [ihb hcondb hn]
          simp [denote, BinOp.denote, hzero]
        · rw [if_pos hzero] at h
          cases h
          simp [denote, BinOp.denote, hzero]
      | _ => cases hop

/-! ## The graph walker does not exit -/

theorem int_ne_blocked (v : Int) : CInt.int v ≠ .blocked := by
  unfold CInt.int
  split <;> nofun

theorem div_ne_blocked (a b : Int) : CInt.div a b ≠ .blocked := by
  unfold CInt.div
  split
  · nofun
  · exact int_ne_blocked _

theorem evaluateBinary_ne_blocked (op : BinOp) {x y : Outcome Int} (hx : x ≠ .blocked)
    (hy : y ≠ .blocked) : evaluateBinary op x y ≠ .blocked := by
  have hboth {f : Int → Int → Outcome Int} (hf : ∀ m n, f m n ≠ .blocked) : both x y f ≠ .blocked :=
    Outcome.bind_ne_blocked hx fun m => Outcome.bind_ne_blocked hy fun n => hf m n
  cases op with
  | MIN | MAX | EQ | NE | GT | GE | LT | LE => exact hboth fun _ _ => nofun
  | ADD | MUL | SUB => exact hboth fun _ _ => int_ne_blocked _
  | DIV => exact hboth div_ne_blocked
  | MOD => exact hboth fun m n => Outcome.bind_ne_blocked (div_ne_blocked m n) fun _ => nofun
  | AND =>
    refine Outcome.bind_ne_blocked hx fun m => ?_
    split
    · exact Outcome.bind_ne_blocked hy fun _ => nofun
    · nofun
  | OR =>
    refine Outcome.bind_ne_blocked hx fun m => ?_
    split
    · nofun
    · exact Outcome.bind_ne_blocked hy fun _ => nofun

theorem evaluateInt_ne_blocked (e : Expr) : evaluateInt rec e ≠ .blocked := by
  induction e with
  | CONSTI | CONSTB | TAG | BTAG | COND => nofun
  | mon op a ih =>
    cases op with
    | ABS => exact Outcome.bind_ne_blocked ih fun _ => int_ne_blocked _
    | NOT => exact Outcome.bind_ne_blocked ih fun _ => nofun
  | bin op a b iha ihb => exact evaluateBinary_ne_blocked op iha ihb

/-! ## The two evaluators -/

/-- The value of the graph walker is that of the evaluator of the type, with `0` and `1` for truth
values. -/
def Agrees (rec : Record V) (e : Expr) : Ty → Prop
  | .int => e.evaluateInt rec = evaluateInt rec e
  | .bool => evaluateInt rec e = (e.evaluateBool rec).bind fun b => .done b.toInt

theorem ne_blocked_of_agrees {e : Expr} (h : Agrees rec e .bool) : e.evaluateBool rec ≠ .blocked := by
  intro hval
  have hblocked : evaluateInt rec e = .blocked := by
    rw [h, hval]
    rfl
  exact evaluateInt_ne_blocked e hblocked

theorem isBoolean_of_bool {e : Expr} (h : Typed e .bool) (hcond : hasCond rec e = false) :
    e.isBoolean = true := by
  cases h with
  | @order op a b hop ha hb =>
    cases op with
    | GT | GE | LT | LE => rfl
    | _ => cases hop
  | cond => cases hcond
  | _ => rfl

theorem isBoolean_of_int {e : Expr} (h : Typed e .int) : e.isBoolean = false := by
  cases h with
  | @arith op a b hop ha hb =>
    cases op with
    | MIN | MAX | ADD | MUL | SUB | DIV | MOD => rfl
    | _ => cases hop
  | _ => rfl

theorem both_toInt (x y : Outcome Bool) :
    both (x.bind fun b => .done b.toInt) (y.bind fun b => .done b.toInt)
      (fun m n => .done (decide (m = n)).toInt) =
    (both x y fun m n => .done (decide (m = n))).bind fun b => .done b.toInt := by
  cases x with
  | blocked | fault => rfl
  | done m =>
    cases y with
    | blocked | fault => rfl
    | done n => cases m <;> cases n <;> rfl

theorem both_bind_toInt (x y : Outcome Int) (r : Int → Int → Bool) :
    both x y (fun m n => .done (r m n).toInt) =
      (both x y fun m n => .done (r m n)).bind fun b => .done b.toInt := by
  cases x with
  | blocked | fault => rfl
  | done m => cases y <;> rfl

theorem equal_agrees {τ : Ty} {a b : Expr} (ha : Typed a τ) (hcond : hasCond rec a = false)
    (iha : Agrees rec a τ) (ihb : Agrees rec b τ) :
    both (evaluateInt rec a) (evaluateInt rec b) (fun x y => .done (decide (x = y)).toInt) =
      (isEqualOp a (a.evaluateBool rec) (b.evaluateBool rec) (a.evaluateInt rec)
        (b.evaluateInt rec)).bind fun b => .done b.toInt := by
  unfold isEqualOp
  cases τ with
  | bool =>
    rw [if_pos (isBoolean_of_bool ha hcond), iha, ihb]
    exact both_toInt _ _
  | int =>
    have hint : ¬ a.isBoolean = true := by
      rw [isBoolean_of_int ha]
      nofun
    rw [if_neg hint, iha, ihb]
    exact both_bind_toInt _ _ _

theorem negate_toInt (x : Outcome Bool) : ((negate x).bind fun b => .done b.toInt) =
    (x.bind fun b => .done b.toInt).bind fun n => .done (decide (n = 0)).toInt := by
  cases x with
  | blocked | fault => rfl
  | done b => cases b <;> rfl

theorem bind_toInt (x : Outcome Bool) :
    ((x.bind fun b => .done b.toInt).bind fun n => .done (decide (n ≠ 0)).toInt) =
      x.bind fun b => .done b.toInt := by
  cases x with
  | blocked | fault => rfl
  | done b => cases b <;> rfl

theorem both_ne (x y : Outcome Int) : both x y (fun m n => .done (decide (m ≠ n)).toInt) =
    (both x y fun m n => .done (decide (m = n)).toInt).bind fun n => .done (decide (n = 0)).toInt := by
  cases x with
  | blocked | fault => rfl
  | done m =>
    cases y with
    | blocked | fault => rfl
    | done n => by_cases h : m = n <;> simp [both, h]

theorem logic_agrees {a : Expr} (hcond : hasCond rec a = false) (iha : Agrees rec a .bool) {v : Bool}
    (h : a.evaluateBool rec = .done v) : a.denote rec = v.toInt := by
  have hgw : evaluateInt rec a = .done v.toInt := by
    rw [iha, h]
    rfl
  exact (evaluateInt_denote hcond hgw).symm

theorem both_orElse (x y : Outcome Int) {r s : Int → Int → Bool}
    (hrs : ∀ m n, r m n = (s m n || decide (m = n))) :
    both x y (fun m n => .done (r m n).toInt) =
      (orElse (both x y fun m n => .done (s m n)) (both x y fun m n => .done (decide (m = n)))).bind
        fun b => .done b.toInt := by
  cases x with
  | blocked | fault => rfl
  | done m =>
    cases y with
    | blocked | fault => rfl
    | done n =>
      change Outcome.done (r m n).toInt = _
      rw [hrs]
      change _ = ((if s m n then Outcome.done true else .done (decide (m = n))).bind _)
      cases s m n <;> rfl

theorem order_agrees {op : BinOp} (hop : op.isOrder = true) {a b : Expr} (ha : Typed a .int)
    (iha : Agrees rec a .int) (ihb : Agrees rec b .int) : Agrees rec (.bin op a b) .bool := by
  have hint : ¬ a.isBoolean = true := by
    rw [isBoolean_of_int ha]
    nofun
  change evaluateBinary op (evaluateInt rec a) (evaluateInt rec b) = _
  rw [← iha, ← ihb]
  cases op with
  | GT | LT => exact both_bind_toInt _ _ _
  | GE =>
    change _ = (orElse (isGreaterOp (a.evaluateInt rec) (b.evaluateInt rec)) (isEqualOp ..)).bind _
    unfold isEqualOp
    rw [if_neg hint]
    exact both_orElse _ _ fun m n => by grind
  | LE =>
    change _ = (orElse (isLessOp (a.evaluateInt rec) (b.evaluateInt rec)) (isEqualOp ..)).bind _
    unfold isEqualOp
    rw [if_neg hint]
    exact both_orElse _ _ fun m n => by grind
  | _ => cases hop

theorem arith_agrees {op : BinOp} (hop : op.isArith = true) {a b : Expr}
    (iha : Agrees rec a .int) (ihb : Agrees rec b .int) : Agrees rec (.bin op a b) .int := by
  change _ = evaluateBinary op (evaluateInt rec a) (evaluateInt rec b)
  rw [← iha, ← ihb]
  cases op with
  | MIN =>
    refine congrArg (both _ _) (funext fun x => funext fun y => ?_)
    have : minOp x y = if x > y then y else x := by
      unfold minOp
      omega
    rw [this]
  | MAX =>
    refine congrArg (both _ _) (funext fun x => funext fun y => ?_)
    have : maxOp x y = if x < y then y else x := by
      unfold maxOp
      omega
    rw [this]
  | ADD | MUL | SUB | DIV | MOD => rfl
  | _ => cases hop

theorem agrees {e : Expr} {τ : Ty} (h : Typed e τ) (htags : e.hasTags rec = true)
    (hcond : hasCond rec e = false) : Agrees rec e τ := by
  induction h with
  | consti val | constb val => rfl
  | tag id =>
    obtain ⟨v, hv⟩ := Option.isSome_iff_exists.1 htags
    change Outcome.ofOption (rec.tags.get? id) = .done ((rec.tags.get? id).getD 0)
    rw [hv]
    rfl
  | btag id =>
    obtain ⟨v, hv⟩ := Option.isSome_iff_exists.1 htags
    change Outcome.ofOption (rec.btags.get? id) = .done ((rec.btags.get? id).getD 0)
    rw [hv]
    rfl
  | abs _ ih =>
    change Outcome.bind _ _ = Outcome.bind _ _
    rw [ih htags hcond]
  | @not a _ ih =>
    change (evaluateInt rec a).bind _ = (negate (a.evaluateBool rec)).bind _
    rw [ih htags hcond]
    exact (negate_toInt _).symm
  | @arith op a b hop _ _ iha ihb =>
    rw [hasCond_strict (strict_of_isArith hop), Bool.or_eq_false_iff] at hcond
    rw [hasTags, Bool.and_eq_true] at htags
    exact arith_agrees hop (iha htags.1 hcond.1) (ihb htags.2 hcond.2)
  | @eq τ a b ha _ iha ihb =>
    rw [hasCond_strict rfl, Bool.or_eq_false_iff] at hcond
    rw [hasTags, Bool.and_eq_true] at htags
    exact equal_agrees ha hcond.1 (iha htags.1 hcond.1) (ihb htags.2 hcond.2)
  | @ne τ a b ha _ iha ihb =>
    rw [hasCond_strict rfl, Bool.or_eq_false_iff] at hcond
    rw [hasTags, Bool.and_eq_true] at htags
    have heq := equal_agrees ha hcond.1 (iha htags.1 hcond.1) (ihb htags.2 hcond.2)
    change both _ _ _ = (negate (isEqualOp ..)).bind _
    rw [both_ne, heq]
    exact (negate_toInt _).symm
  | @order op a b hop ha _ iha ihb =>
    rw [hasCond_strict (strict_of_isOrder hop), Bool.or_eq_false_iff] at hcond
    rw [hasTags, Bool.and_eq_true] at htags
    exact order_agrees hop ha (iha htags.1 hcond.1) (ihb htags.2 hcond.2)
  | @and a b _ _ iha ihb =>
    rw [hasCond, Bool.or_eq_false_iff] at hcond
    rw [hasTags, Bool.and_eq_true] at htags
    have hA := iha htags.1 hcond.1
    change (evaluateInt rec a).bind _ = (andAlso (a.evaluateBool rec) (b.evaluateBool rec)).bind _
    rw [hA]
    cases hval : a.evaluateBool rec with
    | blocked | fault => rfl
    | done v =>
      have hden := logic_agrees hcond.1 hA hval
      cases v with
      | false => rfl
      | true =>
        have hcondb : hasCond rec b = false := by simpa [hden] using hcond.2
        change (evaluateInt rec b).bind _ = (b.evaluateBool rec).bind _
        rw [ihb htags.2 hcondb]
        exact bind_toInt _
  | @or a b _ _ iha ihb =>
    rw [hasCond, Bool.or_eq_false_iff] at hcond
    rw [hasTags, Bool.and_eq_true] at htags
    have hA := iha htags.1 hcond.1
    change (evaluateInt rec a).bind _ = (orElse (a.evaluateBool rec) (b.evaluateBool rec)).bind _
    rw [hA]
    cases hval : a.evaluateBool rec with
    | blocked | fault => rfl
    | done v =>
      have hden := logic_agrees hcond.1 hA hval
      cases v with
      | true => rfl
      | false =>
        have hcondb : hasCond rec b = false := by simpa [hden] using hcond.2
        change (evaluateInt rec b).bind _ = (b.evaluateBool rec).bind _
        rw [ihb htags.2 hcondb]
        exact bind_toInt _
  | cond => cases hcond

/-! ## Conditionals -/

def Stuck (rec : Record V) (e : Expr) : Ty → Prop
  | .int => ∀ v, e.evaluateInt rec ≠ .done v
  | .bool => ∀ v, e.evaluateBool rec ≠ .done v

theorem both_ne_done {α β : Type} {x y : Outcome α}
    (h : (∀ m, x ≠ .done m) ∨ ∀ n, y ≠ .done n) (f : α → α → Outcome β) (v : β) : both x y f ≠ .done v := by
  intro hv
  obtain ⟨m, n, hm, hn, -⟩ := both_eq_done.1 hv
  rcases h with h | h
  · exact h m hm
  · exact h n hn

theorem equal_stuck {τ : Ty} {a b : Expr} (ha : Typed a τ) (hstuck : Stuck rec a τ ∨ Stuck rec b τ)
    (v : Bool) : isEqualOp a (a.evaluateBool rec) (b.evaluateBool rec) (a.evaluateInt rec)
      (b.evaluateInt rec) ≠ .done v := by
  intro h
  unfold isEqualOp at h
  cases τ with
  | int =>
    rw [isBoolean_of_int ha, if_neg nofun] at h
    exact both_ne_done hstuck _ v h
  | bool =>
    split at h
    · exact both_ne_done hstuck _ v h
    · -- only a conditional is a truth value that `isBoolean` does not know
      rename_i hbool
      obtain ⟨m, n, hm, -, -⟩ := both_eq_done.1 h
      cases ha with
      | @order op a b hop ha hb =>
        cases op with
        | GT | GE | LT | LE => exact hbool rfl
        | _ => cases hop
      | cond => cases hm
      | _ => exact hbool rfl

theorem order_stuck {op : BinOp} (hop : op.isOrder = true) {a b : Expr}
    (hstuck : Stuck rec a .int ∨ Stuck rec b .int) : Stuck rec (.bin op a b) .bool := by
  intro v
  cases op with
  | GT | LT => exact both_ne_done hstuck _ v
  | GE | LE => exact Outcome.bind_ne_done (both_ne_done hstuck _) _ v
  | _ => cases hop

theorem arith_stuck {op : BinOp} (hop : op.isArith = true) {a b : Expr}
    (hstuck : Stuck rec a .int ∨ Stuck rec b .int) : Stuck rec (.bin op a b) .int := by
  intro v
  cases op with
  | MIN | MAX | ADD | MUL | SUB | DIV | MOD => exact both_ne_done hstuck _ v
  | _ => cases hop

theorem stuck {e : Expr} {τ : Ty} (h : Typed e τ) (htags : e.hasTags rec = true)
    (hcond : hasCond rec e = true) : Stuck rec e τ := by
  induction h with
  | consti | constb | tag | btag => cases hcond
  | abs _ ih => exact Outcome.bind_ne_done (ih htags hcond) _
  | not _ ih => exact Outcome.bind_ne_done (ih htags hcond) _
  | @arith op a b hop _ _ iha ihb =>
    rw [hasCond_strict (strict_of_isArith hop), Bool.or_eq_true] at hcond
    rw [hasTags, Bool.and_eq_true] at htags
    exact arith_stuck hop (hcond.imp (iha htags.1) (ihb htags.2))
  | @eq τ a b ha _ iha ihb =>
    rw [hasCond_strict rfl, Bool.or_eq_true] at hcond
    rw [hasTags, Bool.and_eq_true] at htags
    exact equal_stuck ha (hcond.imp (iha htags.1) (ihb htags.2))
  | @ne τ a b ha _ iha ihb =>
    rw [hasCond_strict rfl, Bool.or_eq_true] at hcond
    rw [hasTags, Bool.and_eq_true] at htags
    exact Outcome.bind_ne_done (equal_stuck ha (hcond.imp (iha htags.1) (ihb htags.2))) _
  | @order op a b hop _ _ iha ihb =>
    rw [hasCond_strict (strict_of_isOrder hop), Bool.or_eq_true] at hcond
    rw [hasTags, Bool.and_eq_true] at htags
    exact order_stuck hop (hcond.imp (iha htags.1) (ihb htags.2))
  | @and a b ha _ iha ihb =>
    rw [hasTags, Bool.and_eq_true] at htags
    intro v h
    obtain ⟨w, hw, h⟩ := Outcome.bind_eq_done.1 h
    cases hconda : hasCond rec a with
    | true => exact iha htags.1 hconda w hw
    | false =>
      have hden := logic_agrees hconda (agrees ha htags.1 hconda) hw
      rw [hasCond, hconda, Bool.false_or, Bool.and_eq_true] at hcond
      cases w with
      | false => simp [hden] at hcond
      | true => exact ihb htags.2 hcond.2 v h
  | @or a b ha _ iha ihb =>
    rw [hasTags, Bool.and_eq_true] at htags
    intro v h
    obtain ⟨w, hw, h⟩ := Outcome.bind_eq_done.1 h
    cases hconda : hasCond rec a with
    | true => exact iha htags.1 hconda w hw
    | false =>
      have hden := logic_agrees hconda (agrees ha htags.1 hconda) hw
      rw [hasCond, hconda, Bool.false_or, Bool.and_eq_true] at hcond
      cases w with
      | true => simp [hden] at hcond
      | false => exact ihb htags.2 hcond.2 v h
  | @cond τ a b c =>
    cases τ with
    | int | bool => exact fun v => nofun

end

/-! ## Agreement -/

/-- The evaluators return the same value exactly if there is an expression and no conditional in what
is evaluated of it. -/
theorem evaluators_agree_iff (expr : Option Expr) (τ : Ty) (rec : Record V)
    (htyped : ∀ e, expr = some e → Typed e τ) (htags : ∀ e, expr = some e → e.hasTags rec = true)
    (hfault : NoFault expr rec τ) :
    SameValue expr rec τ ↔ ∃ e, expr = some e ∧ hasCond rec e = false := by
  cases expr with
  | none =>
    constructor
    · intro h
      cases τ with
      | int | bool =>
        obtain ⟨v, h, h'⟩ := h
        cases h
        cases h'
    · rintro ⟨e, he, -⟩
      cases he
  | some e =>
    constructor
    · intro h
      refine ⟨e, rfl, ?_⟩
      by_contra hcond
      have hstuck := stuck (htyped e rfl) (htags e rfl) (Bool.not_eq_false _ ▸ hcond)
      cases τ with
      | int | bool =>
        obtain ⟨v, h, -⟩ := h
        exact hstuck v h
    · rintro ⟨_, he, hcond⟩
      cases he
      have hagrees := agrees (htyped e rfl) (htags e rfl) hcond
      cases τ with
      | int =>
        obtain ⟨v, hval⟩ := Outcome.exists_done (evaluateInt_ne_blocked e) hfault.2
        exact ⟨v, hagrees.trans hval, hval⟩
      | bool =>
        obtain ⟨v, hval⟩ := Outcome.exists_done (ne_blocked_of_agrees hagrees) hfault.1
        refine ⟨v, hval, ?_⟩
        change (evaluateInt rec e).bind _ = _
        rw [hagrees, hval]
        cases v <;> rfl

/-- A record with the tag `0`. -/
def tagged (v : Int) : Record Unit := ⟨.empty, ⟨[(0, v)], List.nodup_singleton _⟩, .empty, 0, .textual, none⟩

/-- The guard `<t> > 2 && <t> % 2 == 1`. -/
def oddGuard : Expr :=
  .bin .AND (.bin .GT (.TAG 0) (.CONSTI 2)) (.bin .EQ (.bin .MOD (.TAG 0) (.CONSTI 2)) (.CONSTI 1))

theorem oddGuard_same : SameValue (some oddGuard) (tagged 7) .bool := by
  have htyped : Typed oddGuard .bool :=
    .and (.order rfl (.tag 0) (.consti 2)) (.eq (.arith rfl (.tag 0) (.consti 2)) (.consti 1))
  have hfault : NoFault (some oddGuard) (tagged 7) .bool := ⟨nofun, nofun⟩
  refine (evaluators_agree_iff (some oddGuard) .bool (tagged 7) ?_ ?_ hfault).2 ⟨oddGuard, rfl, rfl⟩
  · intro e he
    cases he
    exact htyped
  · intro e he
    cases he
    rfl

/-- `if true then 1 else 2`. -/
def oneOrTwo : Expr := .COND (.CONSTB true) (.CONSTI 1) (.CONSTI 2)

/-- No guard is true for the one and false for the other, and at a conditional the one exits where the
other takes `0`. -/
theorem null_and_conditional_differ :
    (NoFault none (tagged 7) .bool ∧ ¬ SameValue none (tagged 7) .bool) ∧
      Typed oneOrTwo .int ∧ oneOrTwo.hasTags (tagged 7) = true ∧
        NoFault (some oneOrTwo) (tagged 7) .int ∧ ¬ SameValue (some oneOrTwo) (tagged 7) .int := by
  refine ⟨⟨⟨nofun, nofun⟩, ?_⟩, .cond (.constb true) (.consti 1) (.consti 2), rfl, ⟨nofun, nofun⟩, ?_⟩
  · rintro ⟨v, h, h'⟩
    cases h
    cases h'
  · rintro ⟨v, h, -⟩
    cases h

end SNet.Svpgw
