import SNetRts.Stream.Parallel

/-!
# Routing in the front runtime

`CheckMatch` and `BestMatch` of `front/xpar.c`, and that they choose the same branch as those of
`stream/entity/parallel.c`: the first of the branches on which a variant matches the record with the
most labels. `MatchCountUpdate` and what a variant adds to a counter are the same in both files.
-/

namespace SNet.Front.Parallel

open List

open SNet.Stream SNet.Parallel

variable {V : Type}

/-! ## Matching -/

/-- The loop of `CheckMatch`, with `mc` and `max`. -/
def checkMatchLoop (rec : Record V) : List Variant → MatchCount → Int → MatchCount × Int
  | [], mc, max => (mc, max)
  | variant :: variants, _, max =>
    let mc := matchVariant rec variant
    checkMatchLoop rec variants mc (if mc.isMatch ∧ max < mc.count then mc.count else max)

/-- `CheckMatch`; `mc` is what the counter holds before. -/
def checkMatch (rec : Record V) (variantList : List Variant) (mc : MatchCount) (terminated : Bool) :
    MatchCount :=
  let r := if terminated then (mc, -1) else checkMatchLoop rec variantList mc (-1)
  if 0 ≤ r.2 then ⟨true, r.2⟩ else { r.1 with isMatch := false }

/-- The loop of `BestMatch`, with `res` and `max`. -/
def bestMatchLoop (counter : Nat → MatchCount) : List Nat → Option Nat → Int → Option Nat
  | [], res, _ => res
  | i :: is, res, max =>
    if (counter i).isMatch then
      if max < (counter i).count then bestMatchLoop counter is (some i) (counter i).count
      else bestMatchLoop counter is res max
    else bestMatchLoop counter is res max

/-- `BestMatch`. -/
def bestMatch (counter : Nat → MatchCount) (num : Nat) : Option Nat :=
  bestMatchLoop counter (List.range num) none (-1)

/-- The counters of a `landing_parallel_t`, and which branches have been terminated. -/
structure Landing where
  matchcounter : Nat → MatchCount
  /-- `none` where the array has not been allocated. -/
  terminated : Option (Nat → Bool)

namespace Landing

/-- `land->terminated && land->terminated[i]`. -/
def isTerminated (land : Landing) (i : Nat) : Bool := land.terminated.elim false fun t => t i

/-- The counters once `SNetNodeParallel` has checked a data record against all branches. -/
def checked (land : Landing) (arg : Arg) (rec : Record V) (i : Nat) : MatchCount :=
  checkMatch rec (arg.variants i) (land.matchcounter i) (land.isTerminated i)

/-- The branch that `SNetNodeParallel` writes a data record to. -/
def best (land : Landing) (arg : Arg) (rec : Record V) : Option Nat :=
  bestMatch (land.checked arg rec) arg.num

end Landing

/-! ## Counting -/

/-- The labels that `CheckMatch` finds matched in a variant: its fields and tags that the record has,
and the binding tags of the record that it has. -/
def matchedLabels (d : Record V) (variant : Variant) : Nat :=
  variant.fields.countP d.hasField + variant.tags.countP d.hasTag +
    d.btags.entries.countP fun e => variant.hasBTag e.1

theorem foldl_matchCountUpdate_count {α : Type} (f : α → Bool) (l : List α) (mc : MatchCount) :
    (l.foldl (fun mc a => matchCountUpdate mc (f a)) mc).count = mc.count + (l.countP f : Nat) := by
  induction l generalizing mc with
  | nil => simp
  | cons a l ih =>
    rw [foldl_cons, ih, countP_cons]
    cases hf : f a
    · simp [matchCountUpdate]
    · simp only [matchCountUpdate, if_true]
      omega

theorem matchVariant_count (d : Record V) (variant : Variant) :
    (matchVariant d variant).count = (matchedLabels d variant : Nat) := by
  unfold matchVariant matchedLabels
  rw [foldl_matchCountUpdate_count (fun e : Int × Int => variant.hasBTag e.1),
    foldl_matchCountUpdate_count d.hasTag, foldl_matchCountUpdate_count d.hasField, Int.zero_add]
  omega

/-! ## `CheckMatch` -/

theorem checkMatchLoop_eq (d : Record V) (variants : List Variant) (mc : MatchCount) (max : Int) :
    checkMatchLoop d variants mc max = SNet.Parallel.checkMatchLoop d variants mc max := by
  induction variants generalizing mc max with
  | nil => rfl
  | cons v variants ih =>
    simp only [checkMatchLoop, SNet.Parallel.checkMatchLoop, ih]
    cases (matchVariant d v).isMatch <;> simp

/-- A branch that has variants and has not been terminated: where the counters that the runtimes start
from differ, the results differ at most in the count of a branch that does not match. -/
theorem checkMatch_eq (d : Record V) {variants : List Variant} (hne : variants ≠ [])
    (mc mc' : MatchCount) :
    (checkMatch d variants mc false).isMatch = (SNet.Parallel.checkMatch d variants mc' ).isMatch ∧
      ((checkMatch d variants mc false).isMatch = true →
        (checkMatch d variants mc false).count = (SNet.Parallel.checkMatch d variants mc').count) := by
  obtain ⟨v, variants, rfl⟩ := exists_cons_of_ne_nil hne
  have hno := (checkMatchLoop_spec d mc' (-1) (Int.le_refl _) fun _ h => absurd h hne).2.2
  unfold checkMatch SNet.Parallel.checkMatch
  simp only [Bool.false_eq_true, if_false, checkMatchLoop_eq]
  have hsame : SNet.Parallel.checkMatchLoop d (v :: variants) mc (-1) =
      SNet.Parallel.checkMatchLoop d (v :: variants) mc' (-1) := rfl
  rw [hsame]
  by_cases hge : 0 ≤ (SNet.Parallel.checkMatchLoop d (v :: variants) mc' (-1)).2
  · simp [if_pos hge]
  · simp only [if_neg hge]
    exact ⟨(hno (Int.not_le.1 hge)).symm, nofun⟩

theorem checkMatchLoop_max (d : Record V) (variants : List Variant) (mc : MatchCount) (max : Int) :
    (∀ v ∈ variants, Matches d v →
        (matchedLabels d v : Int) ≤ (SNet.Parallel.checkMatchLoop d variants mc max).2) ∧
      max ≤ (SNet.Parallel.checkMatchLoop d variants mc max).2 ∧
      ((SNet.Parallel.checkMatchLoop d variants mc max).2 = max ∨ ∃ v ∈ variants, Matches d v ∧
        (matchedLabels d v : Int) = (SNet.Parallel.checkMatchLoop d variants mc max).2) := by
  induction variants generalizing mc max with
  | nil => exact ⟨nofun, Int.le_refl _, Or.inl rfl⟩
  | cons v variants ih =>
    simp only [SNet.Parallel.checkMatchLoop]
    cases hv : (matchVariant d v).isMatch
    · have hno : ¬ Matches d v := fun h => by
        rw [matchVariant_isMatch.2 h] at hv
        cases hv
      simp only [Bool.false_eq_true, if_false]
      obtain ⟨h1, h2, h3⟩ := ih (matchVariant d v) max
      refine ⟨fun w hw hmw => ?_, h2, h3.imp_right ?_⟩
      · rcases mem_cons.1 hw with rfl | hw
        · exact absurd hmw hno
        · exact h1 w hw hmw
      · rintro ⟨w, hw, hmw⟩
        exact ⟨w, mem_cons_of_mem _ hw, hmw⟩
    · have hyes : Matches d v := matchVariant_isMatch.1 hv
      simp only [if_true]
      obtain ⟨h1, h2, h3⟩ := ih (matchVariant d v)
        (if max < (matchVariant d v).count then (matchVariant d v).count else max)
      have hmax : max ≤ if max < (matchVariant d v).count then (matchVariant d v).count else max := by
        split <;> omega
      have hcount : (matchVariant d v).count ≤
          if max < (matchVariant d v).count then (matchVariant d v).count else max := by
        split <;> omega
      refine ⟨fun w hw hmw => ?_, Int.le_trans hmax h2, ?_⟩
      · rcases mem_cons.1 hw with rfl | hw
        · rw [← matchVariant_count]
          exact Int.le_trans hcount h2
        · exact h1 w hw hmw
      · rcases h3 with h3 | ⟨w, hw, hmw⟩
        · by_cases hlt : max < (matchVariant d v).count
          · rw [if_pos hlt] at h3 ⊢
            exact Or.inr ⟨v, mem_cons_self, hyes, by rw [h3, matchVariant_count]⟩
          · rw [if_neg hlt] at h3 ⊢
            exact Or.inl h3
        · exact Or.inr ⟨w, mem_cons_of_mem _ hw, hmw⟩

theorem checkMatch_best (d : Record V) {variants : List Variant} (hne : variants ≠ [])
    (mc : MatchCount) (hmatch : (SNet.Parallel.checkMatch d variants mc).isMatch = true) :
    (∀ v ∈ variants, Matches d v →
        (matchedLabels d v : Int) ≤ (SNet.Parallel.checkMatch d variants mc).count) ∧
      ∃ v ∈ variants, Matches d v ∧
        (matchedLabels d v : Int) = (SNet.Parallel.checkMatch d variants mc).count := by
  obtain ⟨v, hv, hyes⟩ := (checkMatch_spec d hne mc).1.1 hmatch
  obtain ⟨h1, -, h3⟩ := checkMatchLoop_max d variants mc (-1)
  have hge : 0 ≤ (SNet.Parallel.checkMatchLoop d variants mc (-1)).2 :=
    Int.le_trans (Int.natCast_nonneg _) (h1 v hv hyes)
  have hcount : (SNet.Parallel.checkMatch d variants mc).count =
      (SNet.Parallel.checkMatchLoop d variants mc (-1)).2 := by
    unfold SNet.Parallel.checkMatch
    simp only [if_pos hge]
  rw [hcount]
  refine ⟨h1, h3.resolve_left fun h => ?_⟩
  rw [h] at hge
  exact absurd hge (by decide)

/-! ## `BestMatch` -/

theorem bestMatchLoop_eq {counter : Nat → MatchCount} {counter' : Nat → Option Int} {is : List Nat}
    (h : ∀ i ∈ is, counter' i = if (counter i).isMatch then some (counter i).count else none)
    (res : Option Nat) (max : Int) :
    bestMatchLoop counter is res max = SNet.Stream.bestMatchLoop counter' is res max := by
  induction is generalizing res max with
  | nil => rfl
  | cons i is ih =>
    have ih := ih fun j hj => h j (mem_cons_of_mem _ hj)
    simp only [bestMatchLoop, SNet.Stream.bestMatchLoop, h i mem_cons_self]
    cases (counter i).isMatch
    · exact ih res max
    · simp only [if_true]
      split
      · exact ih _ _
      · exact ih _ _

theorem bestMatchLoop_first {counter : Nat → Option Int} {is : List Nat}
    (hsorted : is.Pairwise (· < ·)) (res : Option Nat) (max : Int) :
    (SNet.Stream.bestMatchLoop counter is res max = res ∧
        ∀ i ∈ is, ∀ c, counter i = some c → c ≤ max) ∨
      ∃ k ∈ is, SNet.Stream.bestMatchLoop counter is res max = some k ∧
        ∃ m, counter k = some m ∧ max < m ∧
          ∀ i ∈ is, ∀ c, counter i = some c → c ≤ m ∧ (i < k → c < m) := by
  induction is generalizing res max with
  | nil => exact Or.inl ⟨rfl, nofun⟩
  | cons i is ih =>
    obtain ⟨hi, hsorted⟩ := pairwise_cons.1 hsorted
    simp only [SNet.Stream.bestMatchLoop]
    -- a counter that is no better than `max` changes nothing
    have hstay : (∀ c, counter i = some c → c ≤ max) →
        (SNet.Stream.bestMatchLoop counter is res max = res ∧
            ∀ j ∈ i :: is, ∀ c, counter j = some c → c ≤ max) ∨
          ∃ k ∈ i :: is, SNet.Stream.bestMatchLoop counter is res max = some k ∧
            ∃ m, counter k = some m ∧ max < m ∧
              ∀ j ∈ i :: is, ∀ c, counter j = some c → c ≤ m ∧ (j < k → c < m) := by
      intro hle
      rcases ih hsorted res max with ⟨h1, h2⟩ | ⟨k, hk, h1, m, hm, hlt, h2⟩
      · refine Or.inl ⟨h1, fun j hj c hc => ?_⟩
        rcases mem_cons.1 hj with rfl | hj
        · exact hle c hc
        · exact h2 j hj c hc
      · refine Or.inr ⟨k, mem_cons_of_mem _ hk, h1, m, hm, hlt, fun j hj c hc => ?_⟩
        rcases mem_cons.1 hj with rfl | hj
        · have hcm := Int.lt_of_le_of_lt (hle c hc) hlt
          exact ⟨Int.le_of_lt hcm, fun _ => hcm⟩
        · exact h2 j hj c hc
    cases hc : counter i with
    | none => exact hstay (by simp [hc])
    | some count =>
      simp only
      by_cases hlt : max < count
      · rw [if_pos hlt]
        right
        rcases ih hsorted (some i) count with ⟨h1, h2⟩ | ⟨k, hk, h1, m, hm, hltm, h2⟩
        · refine ⟨i, mem_cons_self, h1, count, hc, hlt, fun j hj c hcj => ?_⟩
          rcases mem_cons.1 hj with rfl | hj
          · obtain rfl : count = c := Option.some.inj (hc.symm.trans hcj)
            exact ⟨Int.le_refl _, fun h => absurd h (Nat.lt_irrefl _)⟩
          · exact ⟨h2 j hj c hcj, fun h => absurd (hi j hj) (Nat.lt_asymm h)⟩
        · refine ⟨k, mem_cons_of_mem _ hk, h1, m, hm, Int.lt_trans hlt hltm, fun j hj c hcj => ?_⟩
          rcases mem_cons.1 hj with rfl | hj
          · obtain rfl : count = c := Option.some.inj (hc.symm.trans hcj)
            exact ⟨Int.le_of_lt hltm, fun _ => hltm⟩
          · exact h2 j hj c hcj
      · rw [if_neg hlt]
        exact hstay fun c hcj => by
          obtain rfl : count = c := Option.some.inj (hc.symm.trans hcj)
          exact Int.not_lt.1 hlt

/-! ## Both runtimes -/

/-- A variant of a branch matches the record with the most labels of all, and this branch is the first
one; `none` is for a record that no variant matches. -/
def IsBest (arg : Arg) (d : Record V) : Option Nat → Prop
  | none => ∀ i < arg.num, ∀ v ∈ arg.variants i, ¬ Matches d v
  | some k => k < arg.num ∧ ∃ v ∈ arg.variants k, Matches d v ∧
      ∀ i < arg.num, ∀ w ∈ arg.variants i, Matches d w →
        matchedLabels d w ≤ matchedLabels d v ∧ (i < k → matchedLabels d w < matchedLabels d v)

theorem best_isBest (arg : Arg) (hvariants : ∀ i < arg.num, arg.variants i ≠ []) (st : Box V)
    (d : Record V) : IsBest arg d (st.best arg d) := by
  have hcount : ∀ i < arg.num, (st.checked arg d i).isMatch = true → _ :=
    fun i hi => checkMatch_best d (hvariants i hi) (st.matchcounter i)
  have hmatch : ∀ i < arg.num, ∀ v ∈ arg.variants i, Matches d v →
      (st.checked arg d i).isMatch = true :=
    fun i hi v hv h => (checkMatch_spec d (hvariants i hi) (st.matchcounter i)).1.2 ⟨v, hv, h⟩
  unfold Box.best SNet.Stream.bestMatch
  have hsorted : (List.range arg.num).Pairwise (· < ·) := pairwise_lt_range
  rcases (bestMatchLoop_first hsorted none (-1) : (SNet.Stream.bestMatchLoop
    (fun i => if (st.checked arg d i).isMatch then some (st.checked arg d i).count else none) _ none (-1) = _ ∧
      _) ∨ _) with ⟨h1, h2⟩ | ⟨k, hk, h1, m, hm, -, h2⟩
  · rw [h1]
    intro i hi v hv hyes
    have hi' := hmatch i hi v hv hyes
    have hle := h2 i (mem_range.2 hi) _ (if_pos hi')
    have := (hcount i hi hi').1 v hv hyes
    change (matchedLabels d v : Int) ≤ (st.checked arg d i).count at this
    omega
  · rw [h1]
    have hklt := mem_range.1 hk
    have hkm : (st.checked arg d k).isMatch = true := by
      by_contra hno
      rw [if_neg hno] at hm
      cases hm
    rw [if_pos hkm] at hm
    obtain rfl := Option.some.inj hm
    obtain ⟨v, hv, hyes, hvk⟩ := (hcount k hklt hkm).2
    change (matchedLabels d v : Int) = (st.checked arg d k).count at hvk
    refine ⟨hklt, v, hv, hyes, fun i hi w hw hmw => ?_⟩
    have hi' := hmatch i hi w hw hmw
    obtain ⟨hle, hlt⟩ := h2 i (mem_range.2 hi) _ (if_pos hi')
    have hwi := (hcount i hi hi').1 w hw hmw
    change (matchedLabels d w : Int) ≤ (st.checked arg d i).count at hwi
    exact ⟨by omega, fun h => by have := hlt h; omega⟩

theorem best_eq (arg : Arg) (hvariants : ∀ i < arg.num, arg.variants i ≠ []) (st : Box V)
    (land : Landing) (hopen : ∀ i < arg.num, land.isTerminated i = false) (d : Record V) :
    land.best arg d = st.best arg d := by
  refine bestMatchLoop_eq (fun i hi => ?_) none (-1)
  have hi := mem_range.1 hi
  obtain ⟨h1, h2⟩ := checkMatch_eq d (hvariants i hi) (land.matchcounter i) (st.matchcounter i)
  unfold Box.checked Landing.checked
  rw [hopen i hi, ← h1]
  split
  · rename_i hm
    rw [h2 hm]
  · rfl

/-- A branch with a variant of one binding tag, and one with a variant of two. -/
def btagArg : Arg := ⟨[[⟨[], [], [7]⟩], [⟨[], [], [7, 8]⟩]], false⟩

def bareRecord : Record Unit := ⟨.empty, .empty, .empty, 0, .binary, none⟩

def freshBox : Box Unit := ⟨fun _ => true, 1, fun _ => ⟨false, 0⟩, .running, []⟩

def freshLanding : Landing := ⟨fun _ => ⟨false, 0⟩, none⟩

end SNet.Front.Parallel
