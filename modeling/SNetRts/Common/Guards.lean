import SNetRts.Common.Expr
import SNetRts.Common.Filter
import SNetRts.Sync.Cell
import SNetRts.Front.ZipperMask

/-!
# Where guards are evaluated

The tests of patterns with guards: the exit of a star, the synchrocell, the zipper, and the loopback of a
feedback, in both runtimes. An evaluation records the tags and binding tags that it asks the record for;
the lookup of one that is not there fails an assertion.

A guard that mentions only labels of its own pattern is safe behind the test of the pattern. The loopback
evaluates the guard first.
-/

namespace SNet

open Lib List

variable {V α β : Type}

/-! ## Evaluations with the labels that they ask for -/

/-- What is evaluated, and the labels that are looked up for it. -/
structure Traced (α : Type) where
  asked : List ItemLabel
  result : Outcome α

namespace Traced

protected def pure (a : α) : Traced α := ⟨[], .done a⟩

def lift (x : Outcome α) : Traced α := ⟨[], x⟩

/-- The second computation is made if the first one comes to a value. -/
protected def bind (x : Traced α) (f : α → Traced β) : Traced β :=
  match x.result with
  | .done a => ⟨x.asked ++ (f a).asked, (f a).result⟩
  | .fault => ⟨x.asked, .fault⟩
  | .blocked => ⟨x.asked, .blocked⟩

protected def map (f : α → β) (x : Traced α) : Traced β := x.bind fun a => .pure (f a)

def both (x y : Traced α) (f : α → α → Outcome β) : Traced β :=
  ⟨x.asked ++ y.asked, Expr.both x.result y.result f⟩

/-- `&&`. -/
def andAlso (x y : Traced Bool) : Traced Bool := x.bind fun b => if b then y else .pure false

/-- `||`. -/
def orElse (x y : Traced Bool) : Traced Bool := x.bind fun b => if b then .pure true else y

/-- `!`. -/
def negate (x : Traced Bool) : Traced Bool := x.map fun b => !b

def Has (rec : Record V) (x : Traced α) : Prop := ∀ ℓ ∈ x.asked, (rec.item? ℓ).isSome = true

variable {rec : Record V}

theorem Has.pure (a : α) : Has rec (Traced.pure a) := nofun

theorem Has.lift (x : Outcome α) : Has rec (Traced.lift x) := nofun

theorem Has.bind {x : Traced α} {f : α → Traced β} (hx : x.Has rec)
    (hf : ∀ a, x.result = .done a → (f a).Has rec) : (x.bind f).Has rec := by
  intro ℓ hℓ
  unfold Traced.bind at hℓ
  cases hres : x.result with
  | blocked | fault =>
    rw [hres] at hℓ
    exact hx ℓ hℓ
  | done a =>
    rw [hres] at hℓ
    exact (mem_append.1 hℓ).elim (hx ℓ) (hf a hres ℓ)

theorem Has.map {x : Traced α} {f : α → β} (hx : x.Has rec) : (x.map f).Has rec :=
  hx.bind fun _ _ => .pure _

theorem Has.of_bind {x : Traced α} {f : α → Traced β} (h : (x.bind f).Has rec) : x.Has rec := by
  intro ℓ hℓ
  refine h ℓ ?_
  unfold Traced.bind
  split
  · exact mem_append_left _ hℓ
  · exact hℓ
  · exact hℓ

theorem bind_of_done {x : Traced α} {f : α → Traced β} {a : α} (h : x.result = .done a) :
    x.bind f = ⟨x.asked ++ (f a).asked, (f a).result⟩ := by
  unfold Traced.bind
  rw [h]

theorem result_lift (x : Outcome α) : (Traced.lift x).result = x := rfl

theorem result_bind (x : Traced α) (f : α → Traced β) :
    (x.bind f).result = x.result.bind fun a => (f a).result := by
  unfold Traced.bind
  cases x.result <;> rfl

end Traced

/-! ## The evaluators -/

namespace Expr

def mentions : Expr → List ItemLabel
  | .CONSTI _ | .CONSTB _ => []
  | .TAG id => [.tag id]
  | .BTAG id => [.btag id]
  | .mon _ a => a.mentions
  | .bin _ a b => a.mentions ++ b.mentions
  | .COND a b c => a.mentions ++ b.mentions ++ c.mentions

/-- `isEqualOp`. -/
def traceEqual (a : Expr) (boolA boolB : Traced Bool) (intA intB : Traced Int) : Traced Bool :=
  if a.isBoolean then boolA.both boolB fun x y => .done (decide (x = y))
  else intA.both intB fun x y => .done (decide (x = y))

/-- `isGreaterOp`. -/
def traceGreater (intA intB : Traced Int) : Traced Bool := intA.both intB fun x y => .done (decide (x > y))

/-- `isLessOp`. -/
def traceLess (intA intB : Traced Int) : Traced Bool := intA.both intB fun x y => .done (decide (x < y))

mutual

/-- `SNetEevaluateBool`, with the labels that it looks up. -/
def traceBool (rec : Record V) : Expr → Traced Bool
  | .CONSTB val => .pure val
  | .bin .EQ a b => traceEqual a (traceBool rec a) (traceBool rec b) (traceInt rec a) (traceInt rec b)
  | .bin .NE a b =>
    (traceEqual a (traceBool rec a) (traceBool rec b) (traceInt rec a) (traceInt rec b)).negate
  | .bin .GT a b => traceGreater (traceInt rec a) (traceInt rec b)
  | .bin .GE a b => (traceGreater (traceInt rec a) (traceInt rec b)).orElse
    (traceEqual a (traceBool rec a) (traceBool rec b) (traceInt rec a) (traceInt rec b))
  | .bin .LT a b => traceLess (traceInt rec a) (traceInt rec b)
  | .bin .LE a b => (traceLess (traceInt rec a) (traceInt rec b)).orElse
    (traceEqual a (traceBool rec a) (traceBool rec b) (traceInt rec a) (traceInt rec b))
  | .bin .AND a b => (traceBool rec a).andAlso (traceBool rec b)
  | .bin .OR a b => (traceBool rec a).orElse (traceBool rec b)
  | .mon .NOT a => (traceBool rec a).negate
  | _ => .lift .blocked

/-- `SNetEevaluateInt`, with the labels that it looks up. -/
def traceInt (rec : Record V) : Expr → Traced Int
  | .CONSTI val => .pure val
  | .TAG id => ⟨[.tag id], .ofOption (rec.tags.get? id)⟩
  | .BTAG id => ⟨[.btag id], .ofOption (rec.btags.get? id)⟩
  | .mon .ABS a => (traceInt rec a).bind fun x => .lift (CInt.abs x)
  | .bin .MIN a b => (traceInt rec a).both (traceInt rec b) fun x y => .done (minOp x y)
  | .bin .MAX a b => (traceInt rec a).both (traceInt rec b) fun x y => .done (maxOp x y)
  | .bin .ADD a b => (traceInt rec a).both (traceInt rec b) CInt.add
  | .bin .MUL a b => (traceInt rec a).both (traceInt rec b) CInt.mul
  | .bin .SUB a b => (traceInt rec a).both (traceInt rec b) CInt.sub
  | .bin .DIV a b => (traceInt rec a).both (traceInt rec b) CInt.div
  | .bin .MOD a b => (traceInt rec a).both (traceInt rec b) CInt.mod
  | _ => .lift .blocked

end

end Expr

/-- A guard: `SNetEevaluateBool`, where no expression is `NULL`. -/
def traceGuard (rec : Record V) (expr : Option Expr) : Traced Bool :=
  match expr with
  | none => .pure true
  | some expr => expr.traceBool rec

/-! ### They are the evaluators -/

namespace Expr

variable {rec : Record V} {a b : Expr}

theorem result_traceEqual (ha : (a.traceBool rec).result = a.evaluateBool rec)
    (ha' : (a.traceInt rec).result = a.evaluateInt rec) (hb : (b.traceBool rec).result = b.evaluateBool rec)
    (hb' : (b.traceInt rec).result = b.evaluateInt rec) :
    (traceEqual a (a.traceBool rec) (b.traceBool rec) (a.traceInt rec) (b.traceInt rec)).result =
      isEqualOp a (a.evaluateBool rec) (b.evaluateBool rec) (a.evaluateInt rec) (b.evaluateInt rec) := by
  unfold traceEqual isEqualOp
  rw [← ha, ← ha', ← hb, ← hb']
  split <;> rfl

theorem result_andAlso (x y : Traced Bool) : (x.andAlso y).result = Expr.andAlso x.result y.result := by
  unfold Traced.andAlso Expr.andAlso
  rw [Traced.result_bind]
  congr 1
  funext b
  cases b <;> rfl

theorem result_orElse (x y : Traced Bool) : (x.orElse y).result = Expr.orElse x.result y.result := by
  unfold Traced.orElse Expr.orElse
  rw [Traced.result_bind]
  congr 1
  funext b
  cases b <;> rfl

theorem result_trace (rec : Record V) (e : Expr) :
    (e.traceBool rec).result = e.evaluateBool rec ∧ (e.traceInt rec).result = e.evaluateInt rec := by
  induction e with
  | CONSTI | CONSTB | TAG | BTAG | COND => exact ⟨rfl, rfl⟩
  | mon op a ih =>
    cases op with
    | ABS =>
      refine ⟨rfl, ?_⟩
      change ((a.traceInt rec).bind fun x => .lift (CInt.abs x)).result = (a.evaluateInt rec).bind CInt.abs
      simp only [Traced.result_bind, Traced.result_lift, ih.2]
    | NOT =>
      refine ⟨?_, rfl⟩
      change ((a.traceBool rec).bind _).result = (a.evaluateBool rec).bind _
      rw [Traced.result_bind, ih.1]
      rfl
  | bin op a b iha ihb =>
    have hequal := result_traceEqual iha.1 iha.2 ihb.1 ihb.2
    cases op with
    | MIN | MAX | ADD | MUL | SUB | DIV | MOD =>
      refine ⟨rfl, ?_⟩
      change both (a.traceInt rec).result (b.traceInt rec).result _ = both _ _ _
      rw [iha.2, ihb.2]
    | EQ => exact ⟨hequal, rfl⟩
    | NE =>
      refine ⟨?_, rfl⟩
      change (Traced.bind _ _).result = Outcome.bind _ _
      rw [Traced.result_bind, hequal]
      rfl
    | GT | LT =>
      refine ⟨?_, rfl⟩
      change both (a.traceInt rec).result (b.traceInt rec).result _ = both _ _ _
      rw [iha.2, ihb.2]
    | GE | LE =>
      refine ⟨?_, rfl⟩
      change (Traced.orElse _ _).result = orElse (both _ _ _) _
      rw [result_orElse, hequal, ← iha.2, ← ihb.2]
      rfl
    | AND =>
      refine ⟨?_, rfl⟩
      change (Traced.andAlso _ _).result = andAlso _ _
      rw [result_andAlso, iha.1, ihb.1]
    | OR =>
      refine ⟨?_, rfl⟩
      change (Traced.orElse _ _).result = orElse _ _
      rw [result_orElse, iha.1, ihb.1]

/-! ### They ask only for what the expression mentions -/

theorem has_traceEqual (ha : (a.traceBool rec).Has rec) (ha' : (a.traceInt rec).Has rec)
    (hb : (b.traceBool rec).Has rec) (hb' : (b.traceInt rec).Has rec) :
    (traceEqual a (a.traceBool rec) (b.traceBool rec) (a.traceInt rec) (b.traceInt rec)).Has rec := by
  unfold traceEqual
  split
  · exact fun ℓ hℓ => (mem_append.1 hℓ).elim (ha ℓ) (hb ℓ)
  · exact fun ℓ hℓ => (mem_append.1 hℓ).elim (ha' ℓ) (hb' ℓ)

theorem has_orElse {x y : Traced Bool} (hx : x.Has rec) (hy : y.Has rec) : (x.orElse y).Has rec := by
  refine hx.bind fun b _ => ?_
  split
  · exact .pure _
  · exact hy

theorem has_trace {e : Expr} (h : ∀ ℓ ∈ e.mentions, (rec.item? ℓ).isSome = true) :
    (e.traceBool rec).Has rec ∧ (e.traceInt rec).Has rec := by
  induction e with
  | CONSTI | CONSTB | COND => exact ⟨nofun, nofun⟩
  | TAG | BTAG => exact ⟨nofun, h⟩
  | mon op a ih =>
    cases op with
    | ABS => exact ⟨nofun, (ih h).2.bind fun _ _ => .lift _⟩
    | NOT => exact ⟨(ih h).1.map, nofun⟩
  | bin op a b iha ihb =>
    obtain ⟨ha, ha'⟩ := iha fun ℓ hℓ => h ℓ (mem_append_left _ hℓ)
    obtain ⟨hb, hb'⟩ := ihb fun ℓ hℓ => h ℓ (mem_append_right _ hℓ)
    have hequal := has_traceEqual ha ha' hb hb'
    have hints : ∀ ℓ ∈ (a.traceInt rec).asked ++ (b.traceInt rec).asked, (rec.item? ℓ).isSome = true :=
      fun ℓ hℓ => (mem_append.1 hℓ).elim (ha' ℓ) (hb' ℓ)
    cases op with
    | MIN | MAX | ADD | MUL | SUB | DIV | MOD => exact ⟨nofun, hints⟩
    | EQ => exact ⟨hequal, nofun⟩
    | NE => exact ⟨hequal.map, nofun⟩
    | GT | LT => exact ⟨hints, nofun⟩
    | GE | LE => exact ⟨has_orElse hints hequal, nofun⟩
    | AND =>
      refine ⟨ha.bind fun c _ => ?_, nofun⟩
      split
      · exact hb
      · exact .pure _
    | OR => exact ⟨has_orElse ha hb, nofun⟩

end Expr

/-! ## The tests -/

def Variant.hasItem (v : Variant) : ItemLabel → Bool
  | .field name => v.hasField name
  | .tag name => v.hasTag name
  | .btag name => v.btags.contains name

namespace Guards

/-- `SNetExprListGet` and the evaluation of what it returns. -/
def traceGuardAt (rec : Record V) (guards : List (Option Expr)) (i : Nat) : Traced Bool :=
  match guards[i]? with
  | none => .lift .fault
  | some expr => traceGuard rec expr

/-- The test of a record for exit, from the pattern `i` on. -/
def exitTest (rec : Record V) (guards : List (Option Expr)) : Nat → List Variant → Traced Bool
  | _, [] => .pure false
  | i, pattern :: patterns =>
    if rec.patternMatches pattern then
      (traceGuardAt rec guards i).bind fun b => if b then .pure true else exitTest rec guards (i + 1) patterns
    else exitTest rec guards (i + 1) patterns

/-- `MatchesExitPattern` of `stream/entity/star.c`. -/
def Stream.matchesExitPattern (rec : Record V) (exitPatterns : List Variant) (guards : List (Option Expr)) :
    Traced Bool :=
  exitTest rec guards 0 exitPatterns

/-- `MatchesExitPattern` of `front/xstar.c`. -/
def Front.matchesExitPattern (rec : Record V) (exitPatterns : List Variant) (guards : List (Option Expr)) :
    Traced Bool :=
  exitTest rec guards 0 exitPatterns

/-- `MatchExitPatterns` of `front/xzipper.c`. -/
def Front.matchExitPatterns (rec : Record V) (exitPatterns : List Variant) (exitGuards : List (Option Expr)) :
    Traced Bool :=
  exitTest rec exitGuards 0 exitPatterns

/-- The loop of a synchrocell over its patterns: the storage and the number of new matches. -/
def syncTest (rec : Record V) : List Variant → List (Option Expr) → List (Sync.Slot V) → Nat →
    Traced (List (Sync.Slot V) × Nat)
  | pattern :: patterns, expr :: exprs, s :: storage, newMatches =>
    if s.isDummy && rec.patternMatches pattern then
      (traceGuard rec expr).bind fun b =>
        if b then
          (syncTest rec patterns exprs storage (newMatches + 1)).map fun r =>
            ((if newMatches = 0 then .stored rec else .null) :: r.1, r.2)
        else (syncTest rec patterns exprs storage newMatches).map fun r => (s :: r.1, r.2)
    else (syncTest rec patterns exprs storage newMatches).map fun r => (s :: r.1, r.2)
  | _, _, storage, newMatches => .pure (storage, newMatches)

/-- The loop in `SyncBoxTask` of `stream/entity/syncro.c`. -/
def Stream.syncBox (rec : Record V) (patterns : List Variant) (guardExprs : List (Option Expr))
    (storage : List (Sync.Slot V)) : Traced (List (Sync.Slot V) × Nat) :=
  syncTest rec patterns guardExprs storage 0

/-- `MatchPatterns` of `front/xsync.c`. -/
def Front.matchPatterns (rec : Record V) (patterns : List Variant) (guardExprs : List (Option Expr))
    (storage : List (Sync.Slot V)) : Traced (List (Sync.Slot V) × Nat) :=
  syncTest rec patterns guardExprs storage 0

/-- The locals of `SNetNodeZipperData` after the loop over the patterns. -/
structure Zipped (V : Type) where
  untested : BitVec 64
  unmatched : BitVec 64
  storage : List (Sync.Slot V)
  newMatches : Nat

def Zipped.push (s : Sync.Slot V) (t : Zipped V) : Zipped V := { t with storage := s :: t.storage }

open Front.ZipperMask in
/-- The loop of `SNetNodeZipperData` over the patterns of a matching, from the pattern `i` on. -/
def Front.zipperData (rec : Record V) : Nat → List Variant → List (Option Expr) → List (Sync.Slot V) →
    BitVec 64 → BitVec 64 → Nat → Traced (Zipped V)
  | i, pattern :: patterns, expr :: exprs, s :: storage, untested, unmatched, newMatches =>
    (Traced.lift (.ofOption (hasBit (untested &&& unmatched) i))).bind fun has =>
      if has then
        (Traced.lift (.ofOption (clrBit untested i))).bind fun untested =>
          if rec.patternMatches pattern then
            (traceGuard rec expr).bind fun b =>
              if b then
                (Traced.lift (.ofOption (clrBit unmatched i))).bind fun unmatched =>
                  let s := if newMatches = 0 then .stored rec else .null
                  if unmatched = 0#64 then .pure ⟨untested, unmatched, s :: storage, newMatches + 1⟩
                  else
                    (Front.zipperData rec (i + 1) patterns exprs storage untested unmatched
                      (newMatches + 1)).map (.push s)
              else
                (Front.zipperData rec (i + 1) patterns exprs storage untested unmatched newMatches).map (.push s)
          else (Front.zipperData rec (i + 1) patterns exprs storage untested unmatched newMatches).map (.push s)
      else (Front.zipperData rec (i + 1) patterns exprs storage untested unmatched newMatches).map (.push s)
  | _, _, _, storage, untested, unmatched, newMatches => .pure ⟨untested, unmatched, storage, newMatches⟩

/-- The test of a record for the way back: each guard comes before its pattern. -/
def backTest (rec : Record V) : List (Option Expr) → List Variant → Traced Bool
  | expr :: guards, pattern :: patterns =>
    (traceGuard rec expr).bind fun b =>
      if b && rec.patternMatches pattern then .pure true else backTest rec guards patterns
  | _, _ => .pure false

/-- `MatchesBackPattern` of `stream/entity/feedback.c`. -/
def Stream.matchesBackPattern (rec : Record V) (backPatterns : List Variant) (guards : List (Option Expr)) :
    Traced Bool :=
  backTest rec guards backPatterns

/-- `SNetFeedbackMatch` of `front/xfeedback.c`. -/
def Front.snetFeedbackMatch (rec : Record V) (backPatterns : List Variant) (guards : List (Option Expr)) :
    Traced Bool :=
  backTest rec guards backPatterns

/-! ## What is asked of them -/

/-- Each guard mentions only tags and binding tags that its own pattern names. -/
def Own (patterns : List Variant) (guards : List (Option Expr)) : Prop :=
  ∀ (i : Nat) (p : Variant) (g : Expr), patterns[i]? = some p → guards[i]? = some (some g) →
    ∀ ℓ ∈ g.mentions, p.hasItem ℓ = true

/-- The guards of a list of patterns are evaluated only where they are defined: no test of the record
looks up a label that the record does not have. -/
structure Defined (patterns : List Variant) (guards : List (Option Expr)) (rec : Record V) : Prop where
  star : (Stream.matchesExitPattern rec patterns guards).Has rec
  frontStar : (Front.matchesExitPattern rec patterns guards).Has rec
  sync : ∀ storage, (Stream.syncBox rec patterns guards storage).Has rec
  frontSync : ∀ storage, (Front.matchPatterns rec patterns guards storage).Has rec
  zipper : ∀ storage untested unmatched newMatches,
    (Front.zipperData rec 0 patterns guards storage untested unmatched newMatches).Has rec
  zipperExit : (Front.matchExitPatterns rec patterns guards).Has rec
  feedback : (Stream.matchesBackPattern rec patterns guards).Has rec
  frontFeedback : (Front.snetFeedbackMatch rec patterns guards).Has rec

/-- The pattern `i` is tried for the way back: every guard before it comes to a value, and none of them
accepts the record with its pattern. -/
def Tried (rec : Record V) (patterns : List Variant) (guards : List (Option Expr)) (i : Nat) : Prop :=
  ∀ j < i, ∀ p g, patterns[j]? = some p → guards[j]? = some g →
    ∃ b, SNetEevaluateBool g rec = .done b ∧ (b && rec.patternMatches p) = false

/-! ## Behind the pattern -/

variable {rec : Record V} {patterns : List Variant} {guards : List (Option Expr)}

theorem isSome_item?_of_matches {p : Variant} {ℓ : ItemLabel} (h : rec.patternMatches p = true)
    (hp : p.hasItem ℓ = true) : (rec.item? ℓ).isSome = true := by
  simp only [Record.patternMatches, Bool.and_eq_true, all_eq_true] at h
  cases ℓ with
  | field name =>
    have := h.1.1 name (contains_iff_mem.1 hp)
    simpa [Record.item?, Record.hasField, LabelMap.contains] using this
  | tag name =>
    have := h.1.2 name (contains_iff_mem.1 hp)
    simpa [Record.item?, Record.hasTag, LabelMap.contains] using this
  | btag name =>
    have := h.2 name (contains_iff_mem.1 hp)
    simpa [Record.item?, Record.hasBTag, LabelMap.contains] using this

theorem Own.has (h : Own patterns guards) {i : Nat} {p : Variant} {g : Option Expr}
    (hp : patterns[i]? = some p) (hg : guards[i]? = some g) (hmatch : rec.patternMatches p = true) :
    (traceGuard rec g).Has rec := by
  cases g with
  | none => exact .pure _
  | some g =>
    exact (Expr.has_trace fun ℓ hℓ => isSome_item?_of_matches hmatch (h i p g hp hg ℓ hℓ)).1

theorem Own.tail {p : Variant} {g : Option Expr} (h : Own (p :: patterns) (g :: guards)) :
    Own patterns guards := fun i => h (i + 1)

theorem exitTest_has {i : Nat} (h : ∀ j p g, patterns[j]? = some p → guards[i + j]? = some (some g) →
    ∀ ℓ ∈ g.mentions, p.hasItem ℓ = true) : (exitTest rec guards i patterns).Has rec := by
  induction patterns generalizing i with
  | nil => exact .pure _
  | cons p patterns ih =>
    have hrest : (exitTest rec guards (i + 1) patterns).Has rec :=
      ih fun j p' g hp hg => h (j + 1) p' g hp (by rwa [Nat.add_assoc, Nat.add_comm 1 j] at hg)
    unfold exitTest
    split
    · rename_i hmatch
      refine Traced.Has.bind ?_ fun b _ => ?_
      · unfold traceGuardAt
        cases hg : guards[i]? with
        | none => exact .lift _
        | some g =>
          cases g with
          | none => exact .pure _
          | some g =>
            exact (Expr.has_trace fun ℓ hℓ => isSome_item?_of_matches hmatch (h 0 p g rfl hg ℓ hℓ)).1
      · split
        · exact .pure _
        · exact hrest
    · exact hrest

theorem syncTest_has (h : Own patterns guards) (storage : List (Sync.Slot V)) (newMatches : Nat) :
    (syncTest rec patterns guards storage newMatches).Has rec := by
  induction patterns generalizing guards storage newMatches with
  | nil => exact .pure _
  | cons p patterns ih =>
    cases guards with
    | nil => exact .pure _
    | cons g guards =>
      cases storage with
      | nil => exact .pure _
      | cons s storage =>
        have hrest := ih h.tail storage
        unfold syncTest
        split
        · rename_i hfree
          rw [Bool.and_eq_true] at hfree
          have hg := h.has rfl rfl hfree.2 (i := 0)
          refine hg.bind fun b _ => ?_
          split
          · exact (hrest _).map
          · exact (hrest _).map
        · exact (hrest _).map

theorem zipperData_has (h : Own patterns guards) (i : Nat) (storage : List (Sync.Slot V))
    (untested unmatched : BitVec 64) (newMatches : Nat) :
    (Front.zipperData rec i patterns guards storage untested unmatched newMatches).Has rec := by
  induction patterns generalizing guards i storage untested unmatched newMatches with
  | nil => exact .pure _
  | cons p patterns ih =>
    cases guards with
    | nil => exact .pure _
    | cons g guards =>
      cases storage with
      | nil => exact .pure _
      | cons s storage =>
        have hrest := ih h.tail (i + 1) storage
        unfold Front.zipperData
        refine Traced.Has.bind (.lift _) fun has _ => ?_
        split
        · refine Traced.Has.bind (.lift _) fun untested' _ => ?_
          split
          · rename_i hmatch
            have hg := h.has rfl rfl hmatch (i := 0)
            refine hg.bind fun b _ => ?_
            split
            · refine Traced.Has.bind (.lift _) fun unmatched' _ => ?_
              dsimp only
              split
              · exact .pure _
              · exact (hrest _ _ _).map
            · exact (hrest _ _ _).map
          · exact (hrest _ _ _).map
        · exact (hrest _ _ _).map

/-! ## In front of the pattern -/

theorem result_traceGuard (rec : Record V) (g : Option Expr) :
    (traceGuard rec g).result = SNetEevaluateBool g rec := by
  cases g with
  | none => rfl
  | some g => exact (Expr.result_trace rec g).1

theorem backTest_has_iff :
    (backTest rec guards patterns).Has rec ↔ ∀ i p g, patterns[i]? = some p → guards[i]? = some g →
      Tried rec patterns guards i → (traceGuard rec g).Has rec := by
  induction patterns generalizing guards with
  | nil =>
    cases guards with
    | nil | cons => exact iff_of_true (.pure _) nofun
  | cons p patterns ih =>
    cases guards with
    | nil => exact iff_of_true (.pure _) nofun
    | cons g guards =>
      unfold backTest
      constructor
      · intro h i p' g' hp hg htried
        cases i with
        | zero =>
          cases hp
          cases hg
          exact h.of_bind
        | succ i =>
          obtain ⟨b, hb, hnot⟩ := htried 0 (Nat.succ_pos i) p g rfl rfl
          rw [Traced.bind_of_done ((result_traceGuard rec g).trans hb), if_neg (by rw [hnot]; nofun)] at h
          refine ih.1 (fun ℓ hℓ => h ℓ (mem_append_right _ hℓ)) i p' g' hp hg fun j hj => ?_
          exact htried (j + 1) (Nat.succ_lt_succ hj)
      · intro h
        refine (h 0 p g rfl rfl nofun).bind fun b hb => ?_
        split
        · exact .pure _
        · rename_i hnot
          rw [Bool.not_eq_true] at hnot
          rw [result_traceGuard] at hb
          refine ih.2 fun i p' g' hp hg htried => h (i + 1) p' g' hp hg fun j hj => ?_
          cases j with
          | zero =>
            intro p0 g0 hp0 hg0
            cases hp0
            cases hg0
            exact ⟨b, hb, hnot⟩
          | succ j => exact htried j (Nat.lt_of_succ_lt_succ hj)

/-- Guards that mention labels of their own patterns are evaluated only where they are defined if and only
if every guard that is tried for the way back on a record that its pattern does not match asks only for
labels that the record has. -/
theorem guards_defined_iff (rec : Record V) (h : Own patterns guards) :
    Defined patterns guards rec ↔ ∀ i p g, patterns[i]? = some p → guards[i]? = some g →
      Tried rec patterns guards i → rec.patternMatches p = false → (traceGuard rec g).Has rec := by
  have hexit : (exitTest rec guards 0 patterns).Has rec :=
    exitTest_has fun j p g hp hg => h j p g hp (by rwa [Nat.zero_add] at hg)
  constructor
  · intro hdef i p g hp hg htried _
    exact backTest_has_iff.1 hdef.feedback i p g hp hg htried
  · intro hback
    have htest : (backTest rec guards patterns).Has rec := by
      refine backTest_has_iff.2 fun i p g hp hg htried => ?_
      cases hmatch : rec.patternMatches p with
      | true => exact h.has hp hg hmatch
      | false => exact hback i p g hp hg htried hmatch
    exact ⟨hexit, hexit, fun storage => syncTest_has h storage 0, fun storage => syncTest_has h storage 0,
      fun storage => zipperData_has h 0 storage, hexit, htest, htest⟩

/-! ### One pattern with one tag -/

/-- The pattern `{<1>}`. -/
def onePattern : Variant := ⟨[], [1], []⟩

/-- The guard `<1> == 1`. -/
def oneGuard : Expr := .bin .EQ (.TAG 1) (.CONSTI 1)

/-- A record with one tag, of the value `1`. -/
def oneTag (name : Int) : Record Unit :=
  ⟨.empty, ⟨[(name, 1)], nodup_singleton _⟩, .empty, 0, .textual, none⟩

theorem oneGuard_own : Own [onePattern] [some oneGuard] := by
  intro i p g hp hg ℓ hℓ
  cases i with
  | zero =>
    cases hp
    cases hg
    cases mem_singleton.1 hℓ
    rfl
  | succ i => cases hp

theorem oneTag_defined : Defined [onePattern] [some oneGuard] (oneTag 1) := by
  refine (guards_defined_iff (oneTag 1) oneGuard_own).2 fun i p g hp _ _ hmatch => ?_
  cases i with
  | zero =>
    cases hp
    cases hmatch
  | succ i => cases hp

/-- A record without the tag is not matched by the pattern, but the guard asks for the tag. -/
theorem back_guard_undefined : Own [onePattern] [some oneGuard] ∧
    (oneTag 2).patternMatches onePattern = false ∧
      (.tag 1 ∈ (Stream.matchesBackPattern (oneTag 2) [onePattern] [some oneGuard]).asked ∧
        (oneTag 2).item? (.tag 1) = none) ∧
        ¬ Defined [onePattern] [some oneGuard] (oneTag 2) := by
  refine ⟨oneGuard_own, rfl, ⟨mem_cons_self, rfl⟩, fun h => ?_⟩
  cases h.feedback (.tag 1) mem_cons_self

end Guards

end SNet
