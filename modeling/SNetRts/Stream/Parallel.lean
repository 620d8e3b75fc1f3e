import SNetRts.Lib.Run
import SNetRts.Common.Record
import SNetRts.Stream.Dispatch
import Mathlib.Logic.Function.Basic

/-!
# The parallel dispatcher

`ParallelBoxTask` (`stream/entity/parallel.c`) with its matching of records against the variants of
the branches, initialiser branches and the garbage collection of branches by the outtype of a sync
record. The state has everything that has been written to the branches. A write to a stream that has
been closed, and whose descriptor is `NULL`, is a fault.
-/

namespace SNet.Parallel

open Lib SNet.Stream

variable {V : Type}

/-! ## Matching -/

/-- `match_count_t`. -/
structure MatchCount where
  isMatch : Bool
  count : Int
deriving DecidableEq, Repr

/-- `MatchCountUpdate`. -/
def matchCountUpdate (mc : MatchCount) (matchCond : Bool) : MatchCount :=
  if matchCond then { mc with count := mc.count + 1 } else { mc with isMatch := false }

/-- The body of the loop of `CheckMatch`. -/
def matchVariant (rec : Record V) (variant : Variant) : MatchCount :=
  let mc : MatchCount := ⟨true, 0⟩
  let mc := variant.fields.foldl (fun mc name => matchCountUpdate mc (rec.hasField name)) mc
  let mc := variant.tags.foldl (fun mc name => matchCountUpdate mc (rec.hasTag name)) mc
  rec.btags.entries.foldl (fun mc e => matchCountUpdate mc (variant.hasBTag e.1)) mc

/-- The loop of `CheckMatch`, with `mc` and `max`. -/
def checkMatchLoop (rec : Record V) : List Variant → MatchCount → Int → MatchCount × Int
  | [], mc, max => (mc, max)
  | variant :: variants, _, max =>
    let mc := matchVariant rec variant
    checkMatchLoop rec variants mc
      (if mc.isMatch then (if max < mc.count then mc.count else max) else max)

/-- `CheckMatch`; `mc` is what the counter holds before. -/
def checkMatch (rec : Record V) (variantList : List Variant) (mc : MatchCount) : MatchCount :=
  let r := checkMatchLoop rec variantList mc (-1)
  if 0 ≤ r.2 then ⟨true, r.2⟩ else r.1

/-- `VariantIsSupertypeOfAllOthers`. -/
def variantIsSupertypeOfAllOthers (var : Variant) (variantList : List Variant) : Bool :=
  variantList.all fun other =>
    var.fields.all other.hasField && var.tags.all other.hasTag && var.btags.all other.hasBTag

/-! ## The task -/

/-- `parallel_arg_t`; a branch without variants is an initialiser. -/
structure Arg where
  variantLists : List (List Variant)
  isDet : Bool
deriving DecidableEq, Repr

def Arg.num (arg : Arg) : Nat := arg.variantLists.length

def Arg.variants (arg : Arg) (i : Nat) : List Variant := arg.variantLists.getD i []

/-- What is written to a branch. -/
inductive Written (V : Type) where
  | record (r : Rec (Record V) Variant)
  | triggerInitialiser
deriving DecidableEq

/-- How a task goes on. -/
inductive Status where
  | running
  | terminated
  /-- No branch matches a data record: the program stops. -/
  | noMatch
deriving DecidableEq, Repr

/-- The locals of `ParallelBoxTask`, and what it has written to which branch. -/
structure Box (V : Type) where
  /-- `outstreams[i] != NULL`. -/
  isOpen : Nat → Bool
  counter : Int
  matchcounter : Nat → MatchCount
  status : Status
  log : List (Nat × Written V)

namespace Box

variable (arg : Arg)

def send (st : Box V) (i : Nat) (w : Written V) : Box V := { st with log := st.log ++ [(i, w)] }

/-- `SNetStreamWrite` without a check that the stream is open. -/
def write (st : Box V) (i : Nat) (w : Written V) : Option (Box V) :=
  if st.isOpen i then some (st.send i w) else none

/-- `SNetStreamClose`, and the descriptor set to `NULL`. -/
def close (st : Box V) (i : Nat) : Box V := { st with isOpen := Function.update st.isOpen i false }

def broadcast (st : Box V) (w : Written V) : Box V :=
  { st with log := st.log ++ ((List.range arg.num).filter st.isOpen).map fun i => (i, w) }

/-- `PutToBuffers`; `counted` tells whether it is given the counter. -/
def putToBuffers (st : Box V) (idx : Nat) (w : Written V) (counted : Bool) : Box V :=
  let st := if st.isOpen idx then st.send idx w else st
  if counted then
    { st.broadcast arg (.record (.sortEnd 0 st.counter)) with counter := st.counter + 1 }
  else st

def initialise (st : Box V) (i : Nat) : Box V :=
  let st := st.putToBuffers arg i .triggerInitialiser arg.isDet
  (st.putToBuffers arg i (.record (.terminate true)) false).close i

def initLoop : List Nat → Box V → Option (Box V)
  | [], st => some st
  | i :: is, st =>
    if arg.variants i = [] then initLoop is (st.initialise arg i)
    else (st.write i (.record (.sortEnd 0 st.counter))).bind (initLoop is)

def ordinary : List Nat := (List.range arg.num).filter fun i => arg.variants i ≠ []

/-- `ParallelBoxTask` up to its main loop; `memory` is what the new counters happen to hold. -/
def start (memory : Nat → MatchCount) (input : StreamId) : Option (Box V) := do
  let st ← initLoop arg (List.range arg.num) ⟨fun i => i < arg.num, 0, memory, .running, []⟩
  let st := { st with counter := st.counter + 1 }
  match ordinary arg with
  | [] => some { st with status := .terminated }
  | [i] => (st.write i (.record (.sync input none))).map fun st => { st with status := .terminated }
  | _ => some st

/-- The counters once a data record has been checked against all branches. -/
def checked (st : Box V) (d : Record V) (i : Nat) : MatchCount :=
  checkMatch d (arg.variants i) (st.matchcounter i)

/-- `BestMatch` on these counters. -/
def best (st : Box V) (d : Record V) : Option Nat :=
  bestMatch (fun i => if (st.checked arg d i).isMatch then some (st.checked arg d i).count else none)
    arg.num

/-- The loop that terminates the branches that an outtype covers. -/
def terminateAffected (synctype : Variant) : List Nat → Box V → Option (Box V)
  | [], st => some st
  | i :: is, st =>
    if variantIsSupertypeOfAllOthers synctype (arg.variants i) then
      (st.write i (.record (.terminate true))).bind fun st =>
        terminateAffected synctype is (st.close i)
    else terminateAffected synctype is st

def leaveOrGoOn (input : StreamId) (st : Box V) : Option (Box V) :=
  let st := { st with counter := st.counter + 1 }
  match (List.range arg.num).filter st.isOpen with
  | [last] => do
    let st ← st.write last (.record (.sortEnd 0 (-1)))
    let st ← st.write last (.record (.sync input none))
    return { st with status := .terminated }
  | _ => some st

/-- One iteration of the main loop of `ParallelBoxTask`. -/
def step (st : Box V) (r : Rec (Record V) Variant) : Outcome (Box V) :=
  if st.status ≠ .running then .blocked
  else
    match r with
    | .data d =>
      let st' := { st with matchcounter := st.checked arg d }
      match st.best arg d with
      | none => .done { st' with status := .noMatch }
      | some idx => .done (st'.putToBuffers arg idx (.record (.data d)) arg.isDet)
    | .sync input (some synctype) =>
      Outcome.ofOption
        ((terminateAffected arg synctype (List.range arg.num) st).bind (leaveOrGoOn arg input))
    | .sync _ none => .done st
    | .collect _ => .done st
    | .sortEnd level num => .done (st.broadcast arg (.record (.sortEnd (level + 1) num)))
    | .terminate flag =>
      .done { st.broadcast arg (.record (.terminate flag)) with status := .terminated }

end Box

/-! ## What matches -/

/-- The record has the fields and tags of the variant, and no other binding tags than it. -/
def Matches (d : Record V) (variant : Variant) : Prop :=
  (∀ name ∈ variant.fields, d.hasField name = true) ∧ (∀ name ∈ variant.tags, d.hasTag name = true) ∧
    ∀ e ∈ d.btags.entries, variant.hasBTag e.1 = true

theorem foldl_matchCountUpdate {α : Type} (f : α → Bool) (l : List α) (mc : MatchCount) :
    (l.foldl (fun mc a => matchCountUpdate mc (f a)) mc).isMatch = (mc.isMatch && l.all f) ∧
      mc.count ≤ (l.foldl (fun mc a => matchCountUpdate mc (f a)) mc).count := by
  induction l generalizing mc with
  | nil => simp
  | cons a l ih =>
    rw [List.foldl_cons, List.all_cons]
    obtain ⟨h1, h2⟩ := ih (matchCountUpdate mc (f a))
    cases hf : f a
    · rw [hf] at h1 h2
      exact ⟨by simpa [matchCountUpdate] using h1, h2⟩
    · rw [hf] at h1 h2
      refine ⟨by simpa [matchCountUpdate] using h1, Int.le_trans ?_ h2⟩
      simp only [matchCountUpdate, if_true]
      omega

theorem matchVariant_isMatch {d : Record V} {variant : Variant} :
    (matchVariant d variant).isMatch = true ↔ Matches d variant := by
  unfold matchVariant Matches
  rw [(foldl_matchCountUpdate (fun e : Int × Int => variant.hasBTag e.1) _ _).1,
    (foldl_matchCountUpdate d.hasTag _ _).1, (foldl_matchCountUpdate d.hasField _ _).1]
  simp only [Bool.true_and, Bool.and_eq_true, List.all_eq_true, and_assoc]

theorem matchVariant_count_nonneg (d : Record V) (variant : Variant) :
    0 ≤ (matchVariant d variant).count := by
  unfold matchVariant
  have h1 := (foldl_matchCountUpdate d.hasField variant.fields ⟨true, 0⟩).2
  have h2 := (foldl_matchCountUpdate d.hasTag variant.tags
    (variant.fields.foldl (fun mc name => matchCountUpdate mc (d.hasField name)) ⟨true, 0⟩)).2
  exact Int.le_trans (Int.le_trans h1 h2)
    (foldl_matchCountUpdate (fun e : Int × Int => variant.hasBTag e.1) d.btags.entries _).2

theorem checkMatchLoop_spec (d : Record V) {variants : List Variant} (mc : MatchCount) (max : Int)
    (hmax : -1 ≤ max) (hmc : max < 0 → variants = [] → mc.isMatch = false) :
    max ≤ (checkMatchLoop d variants mc max).2 ∧
      (0 ≤ (checkMatchLoop d variants mc max).2 ↔ 0 ≤ max ∨ ∃ v ∈ variants, Matches d v) ∧
      ((checkMatchLoop d variants mc max).2 < 0 →
        (checkMatchLoop d variants mc max).1.isMatch = false) := by
  induction variants generalizing mc max with
  | nil => exact ⟨Int.le_refl _, by simp [checkMatchLoop], fun h => hmc h rfl⟩
  | cons v variants ih =>
    have hcount := matchVariant_count_nonneg d v
    simp only [checkMatchLoop, List.exists_mem_cons_iff]
    cases hv : (matchVariant d v).isMatch
    · have hno : ¬ Matches d v := fun h => by
        rw [matchVariant_isMatch.2 h] at hv
        cases hv
      simp only [Bool.false_eq_true, if_false, hno, false_or]
      exact ih _ _ hmax fun _ _ => hv
    · have hyes : Matches d v := matchVariant_isMatch.1 hv
      simp only [if_true, hyes, true_or, or_true, iff_true]
      have hge : 0 ≤ if max < (matchVariant d v).count then (matchVariant d v).count else max := by
        split <;> omega
      have hle : max ≤ if max < (matchVariant d v).count then (matchVariant d v).count else max := by
        split <;> omega
      obtain ⟨h1, h2, h3⟩ := ih (matchVariant d v) _ (by omega)
        fun h => absurd hge (Int.not_le_of_gt h)
      exact ⟨Int.le_trans hle h1, Int.le_trans hge h1, h3⟩

theorem checkMatch_spec (d : Record V) {variants : List Variant} (hne : variants ≠ [])
    (mc : MatchCount) : ((checkMatch d variants mc).isMatch = true ↔ ∃ v ∈ variants, Matches d v) ∧
      ((checkMatch d variants mc).isMatch = true → 0 ≤ (checkMatch d variants mc).count) := by
  obtain ⟨h1, h2, h3⟩ := checkMatchLoop_spec d mc (-1) (Int.le_refl _)
    fun _ h => absurd h hne
  unfold checkMatch
  by_cases hge : 0 ≤ (checkMatchLoop d variants mc (-1)).2
  · simp only [if_pos hge, true_iff, forall_const]
    exact ⟨(h2.1 hge).resolve_left (by decide), hge⟩
  · have hno : ¬ ∃ v ∈ variants, Matches d v := fun h => hge (h2.2 (Or.inr h))
    simp only [if_neg hge, h3 (Int.not_le.1 hge), hno]
    exact ⟨⟨nofun, nofun⟩, nofun⟩

end SNet.Parallel
