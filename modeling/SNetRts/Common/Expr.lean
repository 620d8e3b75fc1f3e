import SNetRts.Lib.Run
import SNetRts.Common.Record
import Mathlib.Algebra.Group.Int.Defs

/-!
# Expressions

The expressions of `common/expression.c` and their evaluation. A division by zero, an `int` that is
too large, or a tag that the record does not have is a fault; the program exits (`blocked`) at an
operation that the evaluation does not handle.

What an expression means is stated apart from this, over all integers; truth values are `0` and `1`.
-/

namespace SNet

open Lib

variable {V : Type}

/-! ## Numbers of type `int` -/

namespace CInt

def int (v : Int) : Outcome Int := if -2 ^ 31 ≤ v ∧ v < 2 ^ 31 then .done v else .fault

def abs (a : Int) : Outcome Int := int a.natAbs

def add (a b : Int) : Outcome Int := int (a + b)

def sub (a b : Int) : Outcome Int := int (a - b)

def mul (a b : Int) : Outcome Int := int (a * b)

def div (a b : Int) : Outcome Int := if b = 0 then .fault else int (a.tdiv b)

def mod (a b : Int) : Outcome Int := (div a b).bind fun _ => .done (a.tmod b)

theorem eq_of_int {v w : Int} (h : int v = .done w) : w = v := by
  unfold int at h
  split at h
  · cases h
    rfl
  · cases h

theorem eq_of_div {a b w : Int} (h : div a b = .done w) : w = a.tdiv b := by
  unfold div at h
  split at h
  · cases h
  · exact eq_of_int h

theorem eq_of_mod {a b w : Int} (h : mod a b = .done w) : w = a.tmod b := by
  obtain ⟨_, -, h⟩ := Outcome.bind_eq_done.1 h
  cases h
  rfl

end CInt

/-! ## Syntax -/

inductive MonOp where
  | ABS
  | NOT
deriving DecidableEq, Repr

inductive BinOp where
  | MIN
  | MAX
  | ADD
  | MUL
  | SUB
  | DIV
  | MOD
  | EQ
  | NE
  | GT
  | GE
  | LT
  | LE
  | AND
  | OR
deriving DecidableEq, Repr

/-- `snet_expr_t`, as `SNetEconsti`, `CreateMonOp`, `CreateBinOp` and the others build it. -/
inductive Expr where
  | CONSTI (val : Int)
  | CONSTB (val : Bool)
  | TAG (id : Int)
  | BTAG (id : Int)
  | mon (op : MonOp) (a : Expr)
  | bin (op : BinOp) (a b : Expr)
  | COND (a b c : Expr)
deriving DecidableEq, Repr

inductive Ty where
  | int
  | bool
deriving DecidableEq, Repr

def BinOp.isArith : BinOp → Bool
  | .MIN | .MAX | .ADD | .MUL | .SUB | .DIV | .MOD => true
  | _ => false

/-- The comparisons of numbers with `<`. -/
def BinOp.isOrder : BinOp → Bool
  | .GT | .GE | .LT | .LE => true
  | _ => false

/-- The expression is well typed. -/
inductive Typed : Expr → Ty → Prop
  | consti (val : Int) : Typed (.CONSTI val) .int
  | constb (val : Bool) : Typed (.CONSTB val) .bool
  | tag (id : Int) : Typed (.TAG id) .int
  | btag (id : Int) : Typed (.BTAG id) .int
  | abs {a : Expr} (ha : Typed a .int) : Typed (.mon .ABS a) .int
  | not {a : Expr} (ha : Typed a .bool) : Typed (.mon .NOT a) .bool
  | arith {op : BinOp} {a b : Expr} (hop : op.isArith = true) (ha : Typed a .int) (hb : Typed b .int) :
      Typed (.bin op a b) .int
  | eq {τ : Ty} {a b : Expr} (ha : Typed a τ) (hb : Typed b τ) : Typed (.bin .EQ a b) .bool
  | ne {τ : Ty} {a b : Expr} (ha : Typed a τ) (hb : Typed b τ) : Typed (.bin .NE a b) .bool
  | order {op : BinOp} {a b : Expr} (hop : op.isOrder = true) (ha : Typed a .int) (hb : Typed b .int) :
      Typed (.bin op a b) .bool
  | and {a b : Expr} (ha : Typed a .bool) (hb : Typed b .bool) : Typed (.bin .AND a b) .bool
  | or {a b : Expr} (ha : Typed a .bool) (hb : Typed b .bool) : Typed (.bin .OR a b) .bool
  | cond {τ : Ty} {a b c : Expr} (ha : Typed a .bool) (hb : Typed b τ) (hc : Typed c τ) :
      Typed (.COND a b c) τ

/-! ## Meaning -/

def BinOp.denote : BinOp → Int → Int → Int
  | .MIN, x, y => min x y
  | .MAX, x, y => max x y
  | .ADD, x, y => x + y
  | .MUL, x, y => x * y
  | .SUB, x, y => x - y
  | .DIV, x, y => x.tdiv y
  | .MOD, x, y => x.tmod y
  | .EQ, x, y => (decide (x = y)).toInt
  | .NE, x, y => (decide (x ≠ y)).toInt
  | .GT, x, y => (decide (x > y)).toInt
  | .GE, x, y => (decide (x ≥ y)).toInt
  | .LT, x, y => (decide (x < y)).toInt
  | .LE, x, y => (decide (x ≤ y)).toInt
  | .AND, x, y => (decide (x ≠ 0) && decide (y ≠ 0)).toInt
  | .OR, x, y => (decide (x ≠ 0) || decide (y ≠ 0)).toInt

namespace Expr

def denote (rec : Record V) : Expr → Int
  | .CONSTI val => val
  | .CONSTB val => val.toInt
  | .TAG id => (rec.tags.get? id).getD 0
  | .BTAG id => (rec.btags.get? id).getD 0
  | .mon .ABS a => (a.denote rec).natAbs
  | .mon .NOT a => (decide (a.denote rec = 0)).toInt
  | .bin op a b => op.denote (a.denote rec) (b.denote rec)
  | .COND a b c => if a.denote rec ≠ 0 then b.denote rec else c.denote rec

def hasTags (rec : Record V) : Expr → Bool
  | .CONSTI _ | .CONSTB _ => true
  | .TAG id => rec.hasTag id
  | .BTAG id => rec.hasBTag id
  | .mon _ a => a.hasTags rec
  | .bin _ a b => a.hasTags rec && b.hasTags rec
  | .COND a b c => a.hasTags rec && b.hasTags rec && c.hasTags rec

/-! ## `SNetEevaluateBool` and `SNetEevaluateInt` -/

def both {α β : Type} (x y : Outcome α) (f : α → α → Outcome β) : Outcome β :=
  x.bind fun x => y.bind fun y => f x y

/-- `&&`. -/
def andAlso (x y : Outcome Bool) : Outcome Bool := x.bind fun x => if x then y else .done false

/-- `||`. -/
def orElse (x y : Outcome Bool) : Outcome Bool := x.bind fun x => if x then .done true else y

def isBoolean : Expr → Bool
  | .CONSTB _ | .bin .EQ _ _ | .bin .NE _ _ | .bin .GT _ _ | .bin .GE _ _ | .bin .LT _ _
  | .bin .LE _ _ | .bin .AND _ _ | .bin .OR _ _ | .mon .NOT _ => true
  | _ => false

def maxOp (a b : Int) : Int := if a > b then a else b

def minOp (a b : Int) : Int := if a < b then a else b

/-- `isEqualOp`, on the values that the evaluations of the operands give. -/
def isEqualOp (a : Expr) (boolA boolB : Outcome Bool) (intA intB : Outcome Int) : Outcome Bool :=
  if a.isBoolean then both boolA boolB fun x y => .done (decide (x = y))
  else both intA intB fun x y => .done (decide (x = y))

def isGreaterOp (intA intB : Outcome Int) : Outcome Bool :=
  both intA intB fun x y => .done (decide (x > y))

def isLessOp (intA intB : Outcome Int) : Outcome Bool :=
  both intA intB fun x y => .done (decide (x < y))

/-- `!`. -/
def negate (x : Outcome Bool) : Outcome Bool := x.bind fun x => .done !x

mutual

/-- `SNetEevaluateBool` of an expression that is there. -/
def evaluateBool (rec : Record V) : Expr → Outcome Bool
  | .CONSTB val => .done val
  | .bin .EQ a b =>
    isEqualOp a (evaluateBool rec a) (evaluateBool rec b) (evaluateInt rec a) (evaluateInt rec b)
  | .bin .NE a b =>
    negate (isEqualOp a (evaluateBool rec a) (evaluateBool rec b) (evaluateInt rec a) (evaluateInt rec b))
  | .bin .GT a b => isGreaterOp (evaluateInt rec a) (evaluateInt rec b)
  | .bin .GE a b => orElse (isGreaterOp (evaluateInt rec a) (evaluateInt rec b))
    (isEqualOp a (evaluateBool rec a) (evaluateBool rec b) (evaluateInt rec a) (evaluateInt rec b))
  | .bin .LT a b => isLessOp (evaluateInt rec a) (evaluateInt rec b)
  | .bin .LE a b => orElse (isLessOp (evaluateInt rec a) (evaluateInt rec b))
    (isEqualOp a (evaluateBool rec a) (evaluateBool rec b) (evaluateInt rec a) (evaluateInt rec b))
  | .bin .AND a b => andAlso (evaluateBool rec a) (evaluateBool rec b)
  | .bin .OR a b => orElse (evaluateBool rec a) (evaluateBool rec b)
  | .mon .NOT a => negate (evaluateBool rec a)
  | _ => .blocked

/-- `SNetEevaluateInt` of an expression that is there. -/
def evaluateInt (rec : Record V) : Expr → Outcome Int
  | .CONSTI val => .done val
  | .TAG id => .ofOption (rec.tags.get? id)
  | .BTAG id => .ofOption (rec.btags.get? id)
  | .mon .ABS a => (evaluateInt rec a).bind CInt.abs
  | .bin .MIN a b => both (evaluateInt rec a) (evaluateInt rec b) fun x y => .done (minOp x y)
  | .bin .MAX a b => both (evaluateInt rec a) (evaluateInt rec b) fun x y => .done (maxOp x y)
  | .bin .ADD a b => both (evaluateInt rec a) (evaluateInt rec b) CInt.add
  | .bin .MUL a b => both (evaluateInt rec a) (evaluateInt rec b) CInt.mul
  | .bin .SUB a b => both (evaluateInt rec a) (evaluateInt rec b) CInt.sub
  | .bin .DIV a b => both (evaluateInt rec a) (evaluateInt rec b) CInt.div
  | .bin .MOD a b => both (evaluateInt rec a) (evaluateInt rec b) CInt.mod
  | _ => .blocked

end

end Expr

/-- `SNetEevaluateBool`; no expression is `NULL`. -/
def SNetEevaluateBool (expr : Option Expr) (rec : Record V) : Outcome Bool :=
  match expr with
  | none => .done true
  | some expr => expr.evaluateBool rec

/-- `SNetEevaluateInt`. -/
def SNetEevaluateInt (expr : Option Expr) (rec : Record V) : Outcome Int :=
  match expr with
  | none => .done true.toInt
  | some expr => expr.evaluateInt rec

end SNet
