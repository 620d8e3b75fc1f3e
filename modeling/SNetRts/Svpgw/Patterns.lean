import SNetRts.Svpgw.Typeencode
import Mathlib.Data.List.Basic

/-!
# Patterns of the graph walker

The exit test of a star, the test of a synchrocell and the choice of a parallel combinator, of
`svpgw/src/gw/gw.utc`. All three rest on `SNetTencVariantsMatch`, and each reads its count and its flag in
a way of its own: the first two take a record for which the pattern has labels too many, and the third
takes such a count for a large unsigned number.

A guard's value on the record is given. The order indices of the cons-nodes in a synchrocell are compared
by a parameter, since `SNetIdxVecCompare` is modelled elsewhere.
-/

namespace SNet.Svpgw

open VariantEncoding List

/-- A variant as the code builds them. -/
structure Variant extends VariantEncoding where
  wellFormed : toVariantEncoding.WellFormed

instance : Coe Variant VariantEncoding := ⟨Variant.toVariantEncoding⟩

/-- `snet_expr_list_t *`: the guard of each pattern, `none` for `NULL`, with its value on the record -/
abbrev Guards := Option (List (Option Bool))

/-- Whether the guard of the pattern `i` lets the record through. -/
def guardPasses (guards : Guards) (i : Nat) : Bool :=
  match guards with
  | none => true
  | some guards => (guards[i]?.join).getD true

/-- `test_star_exit_cond` -/
def testStarExitCond (type : Option (List Variant)) (guards : Guards) (rec' : Variant) : Bool :=
  match type with
  | none => false
  | some variants =>
    variants.zipIdx.any fun (pattern, i) =>
      let (matchCnt, matchedIdent) := rec'.variantsMatch pattern
      if matchCnt = 0 ∧ matchedIdent = false then false else guardPasses guards i

/-! ## The synchrocell -/

section Synccell

variable {H : Type} [DecidableEq H] (newer : H → H → Bool)

/-- What `synccell_match_patterns` changes: the handles of the cell, those it starts again, and its count. -/
structure SynccellMatch (H : Type) where
  mhnds : List (Option H)
  restarted : List H
  matchedPatternsCnt : Nat
deriving DecidableEq

/-- `synccell_swap_handles`; `none` for `false`. -/
def synccellSwapHandles (s : SynccellMatch H) (hnd1 hnd2 : H) (hnd2Idx : Nat) : Option (SynccellMatch H) :=
  if newer hnd1 hnd2 then none
  else
    let mhnds := s.mhnds.set hnd2Idx (some hnd1)
    some { s with
      mhnds := mhnds
      restarted := if some hnd2 ∈ mhnds then s.restarted else s.restarted ++ [hnd2] }

/-- What `synccell_match_patterns` does with the pattern `i`. -/
def synccellMatchPattern (guards : Guards) (hnd : H) (rec' : Variant) (s : SynccellMatch H)
    (pattern : Variant) (i : Nat) : SynccellMatch H :=
  let (matchCnt, matchedIdent) := rec'.variantsMatch pattern
  if matchCnt = 0 ∧ matchedIdent = false then s
  else if guardPasses guards i = false then s
  else
    match s.mhnds[i]?.join with
    | none => { s with mhnds := s.mhnds.set i (some hnd), matchedPatternsCnt := s.matchedPatternsCnt + 1 }
    | some hnd2 =>
      match synccellSwapHandles newer s hnd hnd2 i with
      | none => s
      | some s => { s with matchedPatternsCnt := s.matchedPatternsCnt + 1 }

/-- `synccell_match_patterns` -/
def synccellMatchPatterns (patterns : List Variant) (guards : Guards) (mhnds : List (Option H)) (hnd : H)
    (rec' : Variant) : SynccellMatch H :=
  patterns.zipIdx.foldl (fun s x => synccellMatchPattern newer guards hnd rec' s x.1 x.2)
    { mhnds := mhnds, restarted := [], matchedPatternsCnt := 0 }

end Synccell

/-! ## The parallel combinator -/

/-- The count that `SNetTencVariantMatchesType` keeps, after one more variant. -/
def nextMatchCnt (matchCnt curVencMatchCnt : Int) : Int :=
  if matchCnt < curVencMatchCnt ∨ matchCnt = 0 then curVencMatchCnt else matchCnt

/-- `SNetTencVariantMatchesType`, whose caller gives it a place for the flag: the test of that pointer
holds for every variant. -/
def variantMatchesType (venc : Variant) (tenc : List Variant) : Int × Bool :=
  (tenc.foldl (fun matchCnt (v : Variant) => nextMatchCnt matchCnt (venc.variantsMatch v).1) 0,
    tenc.any fun v : Variant => (venc.variantsMatch v).2)

/-- `(unsigned int) match_cnt` -/
def toUnsigned (matchCnt : Int) : Nat := (matchCnt % 2 ^ 32).toNat

/-- `snet_par_comb_branch_t` -/
structure Branch where
  type : List Variant
  takenCnt : Nat

/-- The variables of the loop in `gnode_walk_hnd_parallel`: the branch chosen so far with its index, its
count, and how many branches tied. -/
structure ParallelLoop where
  selBranch : Option (Nat × Branch)
  bestMatchCnt : Nat
  equallyMatchedBranchesCnt : Nat

def parallelStep (recVenc : Variant) (s : ParallelLoop) (branch : Branch) (i : Nat) : ParallelLoop :=
  let (matchCnt, matchedIdent) := variantMatchesType recVenc branch.type
  if matchCnt ≤ 0 ∧ matchedIdent = false then s
  else
    match s.selBranch with
    | none => { s with selBranch := some (i, branch), bestMatchCnt := toUnsigned matchCnt }
    | some (_, sel) =>
      if toUnsigned matchCnt > s.bestMatchCnt then
        { s with selBranch := some (i, branch), bestMatchCnt := toUnsigned matchCnt }
      else if toUnsigned matchCnt = s.bestMatchCnt then
        if branch.takenCnt < sel.takenCnt then
          { selBranch := some (i, branch), bestMatchCnt := toUnsigned matchCnt
            equallyMatchedBranchesCnt := s.equallyMatchedBranchesCnt + 1 }
        else { s with equallyMatchedBranchesCnt := s.equallyMatchedBranchesCnt + 1 }
      else s

def parallelLoop (recVenc : Variant) (branches : List Branch) : ParallelLoop :=
  branches.zipIdx.foldl (fun s x => parallelStep recVenc s x.1 x.2)
    { selBranch := none, bestMatchCnt := 0, equallyMatchedBranchesCnt := 0 }

/-- Where a parallel combinator sends a record. -/
inductive ParallelWalk where
  /-- `return NULL` -/
  | null
  /-- `SNET_GWERR_TYPE_ERROR` -/
  | typeError
  /-- The root of the branch `i`. -/
  | groot (i : Nat)
deriving DecidableEq, Repr

/-- `gnode_walk_hnd_parallel`, with the branches as it leaves them. -/
def gnodeWalkHndParallel (recVenc : Variant) (branches : List Branch) : ParallelWalk × List Branch :=
  if branches.length = 0 then (.null, branches)
  else
    let s := parallelLoop recVenc branches
    match s.selBranch with
    | none => (.typeError, branches)
    | some (i, _) =>
      (.groot i,
        if s.equallyMatchedBranchesCnt > 1 then
          branches.modify i fun b => { b with takenCnt := (b.takenCnt + 1) % 2 ^ 32 }
        else branches)

/-! ## Stars and synchrocells -/

theorem testStarExitCond_iff (r : Variant) (patterns : List Variant) (guards : Guards) :
    testStarExitCond (some patterns) guards r = true ↔
      ∃ (i : Nat) (p : Variant), patterns[i]? = some p ∧ guardPasses guards i = true ∧ (r.Accepts p ∨ r.Exceeds p) := by
  simp only [testStarExitCond, any_eq_true, Prod.exists, mem_zipIdx_iff_getElem?]
  constructor
  · rintro ⟨p, i, hi, h⟩
    by_cases ht : (r.variantsMatch p).1 = 0 ∧ (r.variantsMatch p).2 = false
    · rw [if_pos ht] at h
      cases h
    · rw [if_neg ht] at h
      exact ⟨i, p, hi, h, (variantsMatch_test_iff r.wellFormed p.wellFormed).1 ht⟩
  · rintro ⟨i, p, hi, hg, h⟩
    refine ⟨p, i, hi, ?_⟩
    rw [if_neg ((variantsMatch_test_iff r.wellFormed p.wellFormed).2 h)]
    exact hg

section Synccell

variable {H : Type} [DecidableEq H] (newer : H → H → Bool)

/-- The slot of a pattern that the record matches: it goes to the handle unless an older one has it. -/
def offer (hnd : H) : Option H → Option H
  | none => some hnd
  | some hnd2 => if newer hnd hnd2 then some hnd2 else some hnd

theorem synccellMatchPattern_mhnds (guards : Guards) (hnd : H) (r : Variant) (s : SynccellMatch H)
    (p : Variant) (i : Nat) :
    (synccellMatchPattern newer guards hnd r s p i).mhnds =
      if (r.Accepts p ∨ r.Exceeds p) ∧ guardPasses guards i = true then s.mhnds.modify i (offer newer hnd)
      else s.mhnds := by
  have hiff := variantsMatch_test_iff r.wellFormed p.wellFormed
  unfold synccellMatchPattern
  by_cases ht : (r.variantsMatch p).1 = 0 ∧ (r.variantsMatch p).2 = false
  · have hae : ¬ (r.Accepts p ∨ r.Exceeds p) := fun h => hiff.2 h ht
    simp only [ht, hae, and_self, false_and, if_true, if_false]
  · have hae := hiff.1 ht
    by_cases hg : guardPasses guards i = true
    · simp only [ht, hae, hg, if_false, Bool.true_eq_false, true_and, if_true]
      rw [modify_eq_set]
      cases hs : s.mhnds[i]? with
      | none =>
        rw [List.getElem?_eq_none_iff] at hs
        simp [set_eq_of_length_le hs]
      | some slot =>
        cases slot with
        | none => simp [offer]
        | some hnd2 =>
          simp only [Option.join_some, synccellSwapHandles, offer, Option.getD_some]
          by_cases hn : newer hnd hnd2 = true
          · obtain ⟨hlt, he⟩ := List.getElem?_eq_some_iff.1 hs
            simp [hn, ← he]
          · simp [hn]
    · simp [ht, hg]

theorem synccellMatchPatterns_getElem? (patterns : List Variant) (guards : Guards) (mhnds : List (Option H))
    (hnd : H) (r : Variant) (i : Nat) :
    (synccellMatchPatterns newer patterns guards mhnds hnd r).mhnds[i]? =
      if ∃ p ∈ patterns[i]?, (r.Accepts p ∨ r.Exceeds p) ∧ guardPasses guards i = true then
        mhnds[i]?.map (offer newer hnd)
      else mhnds[i]? := by
  unfold synccellMatchPatterns
  induction patterns using List.reverseRecOn with
  | nil => simp
  | append_singleton ps p ih =>
    rw [zipIdx_append, List.foldl_append]
    simp only [zipIdx_singleton, foldl_cons, foldl_nil, Nat.zero_add]
    rw [synccellMatchPattern_mhnds]
    rcases lt_trichotomy i ps.length with h | h | h
    · -- an earlier pattern's slot is left as it is
      rw [getElem?_append_left h, ← ih]
      split
      · rw [getElem?_modify_ne _ _ h.ne']
      · rfl
    · subst h
      rw [getElem?_concat_length]
      rw [getElem?_eq_none (Nat.le_refl _)] at ih
      simp only [Option.mem_def, Option.some.injEq, exists_eq_left', reduceCtorEq, false_and, exists_false,
        if_false] at ih ⊢
      split
      · rw [getElem?_modify_eq, ih, Option.map_eq_map]
      · exact ih
    · rw [getElem?_eq_none (show (ps ++ [p]).length ≤ i by simp; omega)]
      rw [getElem?_eq_none (Nat.le_of_lt h)] at ih
      rw [← ih]
      split
      · rw [getElem?_modify_ne _ _ h.ne]
      · rfl

end Synccell

/-! ## The choice of a branch -/

/-- Where the count of `SNetTencVariantMatchesType` ends: at the largest, when some is positive, and else
at a negative one exactly when the last is negative. -/
theorem foldl_nextMatchCnt (cnts : List Int) :
    (∀ c ∈ cnts, 0 < c → c ≤ cnts.foldl nextMatchCnt 0) ∧
    (cnts.foldl nextMatchCnt 0 ≠ 0 → cnts.foldl nextMatchCnt 0 ∈ cnts) ∧
    (cnts.foldl nextMatchCnt 0 < 0 ↔ (∀ c ∈ cnts, c ≤ 0) ∧ ∃ c, cnts.getLast? = some c ∧ c < 0) := by
  induction cnts using List.reverseRecOn with
  | nil => simp
  | append_singleton cs c ih =>
    obtain ⟨hmax, hmem, hneg⟩ := ih
    rw [List.foldl_append, foldl_cons, foldl_nil]
    generalize cs.foldl nextMatchCnt 0 = m at hmax hmem hneg
    have hpos : 0 < m → ¬ ∀ d ∈ cs, d ≤ 0 := fun h hall => absurd (hall m (hmem h.ne')) (by omega)
    refine ⟨?_, ?_, ?_⟩
    · intro d hd h0
      rw [mem_append, mem_singleton] at hd
      unfold nextMatchCnt
      rcases hd with hd | rfl
      · have := hmax d hd h0
        split <;> omega
      · split <;> omega
    · unfold nextMatchCnt
      split
      · intro _
        exact mem_append_right cs (mem_singleton_self c)
      · intro h
        exact mem_append_left [c] (hmem h)
    · have hlast : ((∀ d ∈ cs ++ [c], d ≤ 0) ∧ ∃ d, (cs ++ [c]).getLast? = some d ∧ d < 0) ↔
          (∀ d ∈ cs, d ≤ 0) ∧ c < 0 := by
        rw [getLast?_concat, List.forall_mem_append, forall_mem_singleton]
        simp only [Option.some.injEq, exists_eq_left']
        constructor
        · rintro ⟨⟨hall, -⟩, hc⟩
          exact ⟨hall, hc⟩
        · rintro ⟨hall, hc⟩
          exact ⟨⟨hall, hc.le⟩, hc⟩
      rw [hlast]
      unfold nextMatchCnt
      rcases lt_trichotomy m 0 with h | h | h
      · rw [and_iff_right (hneg.1 h).1]
        split <;> omega
      · have hall : ∀ d ∈ cs, d ≤ 0 := by
          intro d hd
          by_contra hd0
          have := hmax d hd (by omega)
          omega
        rw [and_iff_right hall, if_pos (Or.inr h)]
      · rw [iff_false_intro (fun h' : (∀ d ∈ cs, d ≤ 0) ∧ c < 0 => hpos h h'.1), iff_false]
        split <;> omega

section Branches

variable (r : Variant)

theorem variantMatchesType_fst (tenc : List Variant) :
    (variantMatchesType r tenc).1 = (tenc.map fun v : Variant => (r.variantsMatch v).1).foldl nextMatchCnt 0 := by
  rw [foldl_map]
  rfl

variable {r}

theorem le_variantMatchesType {tenc : List Variant} {v : Variant} (hv : v ∈ tenc) (ha : r.Accepts v)
    (h0 : v.itemsTotalCnt ≠ 0) : (v.itemsTotalCnt : Int) ≤ (variantMatchesType r tenc).1 := by
  have hpos := (variantsMatch_pos_iff r.wellFormed v.wellFormed).2 ⟨ha, h0⟩
  rw [variantMatchesType_fst]
  have hle := (foldl_nextMatchCnt (tenc.map fun v : Variant => (r.variantsMatch v).1)).1 _
    (List.mem_map.2 ⟨v, hv, rfl⟩) hpos
  rwa [ha.variantsMatch r.wellFormed v.wellFormed] at hle

theorem exists_of_variantMatchesType_pos {tenc : List Variant} (h : 0 < (variantMatchesType r tenc).1) :
    ∃ v ∈ tenc, r.Accepts v ∧ (v.itemsTotalCnt : Int) = (variantMatchesType r tenc).1 := by
  rw [variantMatchesType_fst] at h ⊢
  obtain ⟨v, hv, he⟩ := List.mem_map.1
    ((foldl_nextMatchCnt (tenc.map fun v : Variant => (r.variantsMatch v).1)).2.1 h.ne')
  rw [← he] at h ⊢
  have ha := ((variantsMatch_pos_iff r.wellFormed v.wellFormed).1 h).1
  refine ⟨v, hv, ha, ?_⟩
  rw [ha.variantsMatch r.wellFormed v.wellFormed]

theorem variantMatchesType_neg_iff {tenc : List Variant} :
    (variantMatchesType r tenc).1 < 0 ↔
      (∀ v ∈ tenc, r.Accepts v → v.itemsTotalCnt = 0) ∧
        (∃ v, tenc.getLast? = some v ∧ r.Exceeds v) ∧ r.itemsTotalCnt ≠ 0 := by
  rw [variantMatchesType_fst, (foldl_nextMatchCnt _).2.2, forall_mem_map, getLast?_map]
  have hle : ∀ v : Variant, (r.variantsMatch v).1 ≤ 0 ↔ (r.Accepts v → v.itemsTotalCnt = 0) := by
    intro v
    rw [← not_lt, variantsMatch_pos_iff r.wellFormed v.wellFormed]
    tauto
  simp only [hle, Option.map_eq_some_iff]
  constructor
  · rintro ⟨hall, _, ⟨v, hv, rfl⟩, hneg⟩
    obtain ⟨he, h0⟩ := (variantsMatch_neg_iff r.wellFormed v.wellFormed).1 hneg
    exact ⟨hall, ⟨v, hv, he⟩, h0⟩
  · rintro ⟨hall, ⟨v, hv, he⟩, h0⟩
    exact ⟨hall, _, ⟨v, hv, rfl⟩, (variantsMatch_neg_iff r.wellFormed v.wellFormed).2 ⟨he, h0⟩⟩

theorem variantMatchesType_bound (tenc : List Variant) :
    -2 ^ 31 < (variantMatchesType r tenc).1 ∧ (variantMatchesType r tenc).1 < 2 ^ 31 := by
  by_cases h : (variantMatchesType r tenc).1 = 0
  · rw [h]
    omega
  · rw [variantMatchesType_fst] at h ⊢
    obtain ⟨v, -, he⟩ := List.mem_map.1 ((foldl_nextMatchCnt _).2.1 h)
    rw [← he]
    exact variantsMatch_bound r.wellFormed v.wellFormed

variable (r)

/-- The loop takes the branch up: one of its variants accepts the record, or the record is empty and the
binding tags of one are those of the record. -/
def Open (branch : Branch) : Prop :=
  ∃ v ∈ branch.type, r.Accepts v ∨ r.Exceeds v ∧ r.itemsTotalCnt = 0

def rank (branch : Branch) : Nat := toUnsigned (variantMatchesType r branch.type).1

theorem open_iff (branch : Branch) :
    ¬ ((variantMatchesType r branch.type).1 ≤ 0 ∧ (variantMatchesType r branch.type).2 = false) ↔
      Open r branch := by
  have hid : (variantMatchesType r branch.type).2 = true ↔
      ∃ v ∈ branch.type, r.Accepts v ∧ v.itemsTotalCnt = 0 ∨ r.Exceeds v ∧ r.itemsTotalCnt = 0 := by
    unfold variantMatchesType
    simp only [any_eq_true]
    exact exists_congr fun v => and_congr_right' (variantsMatch_ident_iff r.wellFormed v.wellFormed)
  rw [← Bool.not_eq_true, hid]
  unfold Open
  constructor
  · intro h
    by_cases hm : 0 < (variantMatchesType r branch.type).1
    · obtain ⟨v, hv, ha, -⟩ := exists_of_variantMatchesType_pos hm
      exact ⟨v, hv, Or.inl ha⟩
    · simp only [not_lt.1 hm, true_and, not_not] at h
      obtain ⟨v, hv, h⟩ := h
      exact ⟨v, hv, h.imp_left And.left⟩
  · rintro ⟨v, hv, h⟩ ⟨hm, hno⟩
    apply hno
    refine ⟨v, hv, h.imp_left fun ha => ⟨ha, ?_⟩⟩
    by_contra h0
    have := le_variantMatchesType hv ha h0
    omega

/-- The branch at `i` is the one that the loop ends with: the highest rank, then the least taken, then the
first. -/
structure Chosen (branches : List Branch) (i : Nat) (branch : Branch) : Prop where
  get : branches[i]? = some branch
  isOpen : Open r branch
  best : ∀ j b, branches[j]? = some b → Open r b →
    rank r b < rank r branch ∨
      rank r b = rank r branch ∧ (branch.takenCnt < b.takenCnt ∨ branch.takenCnt = b.takenCnt ∧ i ≤ j)

def LoopInv (branches : List Branch) (s : ParallelLoop) : Prop :=
  match s.selBranch with
  | none => ∀ b ∈ branches, ¬ Open r b
  | some (i, branch) => Chosen r branches i branch ∧ s.bestMatchCnt = rank r branch

variable {r}

theorem Chosen.concat {branches : List Branch} {i : Nat} {branch b : Branch} (h : Chosen r branches i branch)
    (hb : Open r b → rank r b < rank r branch ∨ rank r b = rank r branch ∧ branch.takenCnt ≤ b.takenCnt) :
    Chosen r (branches ++ [b]) i branch := by
  have hi : i < branches.length := (List.getElem?_eq_some_iff.1 h.get).1
  refine ⟨?_, h.isOpen, ?_⟩
  · rw [getElem?_append_left hi, h.get]
  · intro j c hj hc
    rcases lt_trichotomy j branches.length with hlt | rfl | hgt
    · rw [getElem?_append_left hlt] at hj
      exact h.best j c hj hc
    · rw [getElem?_concat_length, Option.some.injEq] at hj
      subst hj
      rcases hb hc with hr | ⟨hr, ht⟩
      · exact Or.inl hr
      · exact Or.inr ⟨hr, by omega⟩
    · rw [getElem?_eq_none (by simp; omega)] at hj
      cases hj

theorem chosen_last {branches : List Branch} {b : Branch} (hb : Open r b)
    (hall : ∀ c ∈ branches, Open r c →
      rank r c < rank r b ∨ rank r c = rank r b ∧ b.takenCnt < c.takenCnt) :
    Chosen r (branches ++ [b]) branches.length b := by
  refine ⟨getElem?_concat_length, hb, ?_⟩
  intro j c hj hc
  rcases lt_trichotomy j branches.length with hlt | rfl | hgt
  · rw [getElem?_append_left hlt] at hj
    rcases hall c (mem_of_getElem? hj) hc with hr | ⟨hr, ht⟩
    · exact Or.inl hr
    · exact Or.inr ⟨hr, Or.inl ht⟩
  · rw [getElem?_concat_length, Option.some.injEq] at hj
    subst hj
    exact Or.inr ⟨rfl, Or.inr ⟨rfl, le_refl _⟩⟩
  · rw [getElem?_eq_none (by simp; omega)] at hj
    cases hj

theorem parallelStep_inv {branches : List Branch} {s : ParallelLoop} (h : LoopInv r branches s) (b : Branch) :
    LoopInv r (branches ++ [b]) (parallelStep r s b branches.length) := by
  have hopen := open_iff r b
  unfold parallelStep
  by_cases hb : (variantMatchesType r b.type).1 ≤ 0 ∧ (variantMatchesType r b.type).2 = false
  · have hno : ¬ Open r b := fun ho => hopen.2 ho hb
    simp only [hb, and_self, if_true]
    unfold LoopInv at h ⊢
    cases hs : s.selBranch with
    | none =>
      rw [hs] at h
      intro c hc
      rcases mem_append.1 hc with hc | hc
      · exact h c hc
      · rw [mem_singleton.1 hc]
        exact hno
    | some sel =>
      rw [hs] at h
      exact ⟨h.1.concat fun ho => absurd ho hno, h.2⟩
  · have ho := hopen.1 hb
    simp only [hb, if_false]
    unfold LoopInv at h
    cases hs : s.selBranch with
    | none =>
      rw [hs] at h
      exact ⟨chosen_last ho fun c hc hco => absurd hco (h c hc), rfl⟩
    | some sel =>
      obtain ⟨i, sel⟩ := sel
      rw [hs] at h
      obtain ⟨hch, hbest⟩ := h
      have hlater : ∀ c ∈ branches, Open r c → rank r c ≤ rank r sel ∧
          (rank r c = rank r sel → sel.takenCnt ≤ c.takenCnt) := by
        intro c hc hco
        obtain ⟨j, hj⟩ := getElem?_of_mem hc
        have := hch.best j c hj hco
        omega
      change LoopInv r _ (if rank r b > s.bestMatchCnt then _ else if rank r b = s.bestMatchCnt then _ else _)
      rw [hbest]
      split
      · refine ⟨chosen_last ho ?_, rfl⟩
        intro c hc hco
        have := hlater c hc hco
        omega
      · split
        · split
          · refine ⟨chosen_last ho ?_, rfl⟩
            intro c hc hco
            have := hlater c hc hco
            omega
          · refine ⟨hch.concat fun _ => ?_, rfl⟩
            omega
        · unfold LoopInv
          rw [hs]
          refine ⟨hch.concat fun _ => ?_, hbest⟩
          omega

theorem parallelLoop_inv (branches : List Branch) : LoopInv r branches (parallelLoop r branches) := by
  unfold parallelLoop
  induction branches using List.reverseRecOn with
  | nil =>
    intro b hb
    cases hb
  | append_singleton bs b ih =>
    rw [zipIdx_append, List.foldl_append]
    simp only [zipIdx_singleton, foldl_cons, foldl_nil, Nat.zero_add]
    exact parallelStep_inv ih b

variable (r)

/-- A branch for records of which nothing is left: no accepting variant has labels, and the last variant
exceeds the record. Its count is negative. -/
def Overrun (branch : Branch) : Prop :=
  (∃ v ∈ branch.type, r.Accepts v) ∧ (∀ v ∈ branch.type, r.Accepts v → v.itemsTotalCnt = 0) ∧
    ∃ v, branch.type.getLast? = some v ∧ r.Exceeds v

def Unbound (branch : Branch) : Prop := ∃ v ∈ branch.type, v.btags.labels = ∅

variable {r}

theorem rank_eq (branch : Branch) :
    (rank r branch : Int) =
      if (variantMatchesType r branch.type).1 < 0 then 2 ^ 32 + (variantMatchesType r branch.type).1
      else (variantMatchesType r branch.type).1 := by
  have hb := variantMatchesType_bound (r := r) branch.type
  unfold rank toUnsigned
  generalize (variantMatchesType r branch.type).1 = m at hb
  split <;> omega

theorem overrun_iff (h0 : r.itemsTotalCnt ≠ 0) {branch : Branch} (ho : Open r branch) :
    Overrun r branch ↔ (variantMatchesType r branch.type).1 < 0 := by
  rw [variantMatchesType_neg_iff]
  obtain ⟨v, hv, h⟩ := ho
  have ha : ∃ v ∈ branch.type, r.Accepts v := ⟨v, hv, h.resolve_right fun h => h0 h.2⟩
  unfold Overrun
  tauto

theorem labels_eq_empty (h0 : r.itemsTotalCnt = 0) :
    r.fields.labels = ∅ ∧ r.tags.labels = ∅ ∧ r.btags.labels = ∅ := by
  rw [r.wellFormed.itemsTotalCnt_eq] at h0
  simp only [← Finset.card_eq_zero]
  omega

theorem open_iff_unbound (h0 : r.itemsTotalCnt = 0) (branch : Branch) : Open r branch ↔ Unbound branch := by
  obtain ⟨hf, ht, hb⟩ := labels_eq_empty h0
  unfold Open Unbound
  simp only [Exceeds, Accepts, hf, ht, hb, h0, Finset.empty_subset, true_and, and_true]
  apply exists_congr
  intro v
  apply and_congr_right'
  tauto

theorem Chosen.unique {branches : List Branch} {i j : Nat} {b c : Branch} (hb : Chosen r branches i b)
    (hc : Chosen r branches j c) : b = c := by
  have h1 := hb.best j c hc.get hc.isOpen
  have h2 := hc.best i b hb.get hb.isOpen
  have hij : i = j := by omega
  subst hij
  exact Option.some.inj (hb.get.symm.trans hc.get)

end Branches

/-! ## What the walker promises of its patterns -/

section

variable {H : Type} [DecidableEq H] (newer : H → H → Bool) (hnd : H) (r : Variant)

/-- A star without guards is left exactly by a record that one of its patterns accepts. -/
def StarRight (patterns : List Variant) : Prop :=
  testStarExitCond (some patterns) none r = true ↔ ∃ p ∈ patterns, r.Accepts p

/-- A synchrocell without guards offers the record exactly the slots of the patterns that accept it. -/
def SynccellRight (patterns : List Variant) : Prop :=
  ∀ mhnds : List (Option H), mhnds.length = patterns.length →
    ∀ i : Nat, (synccellMatchPatterns newer patterns none mhnds hnd r).mhnds[i]? =
      if ∃ p ∈ patterns[i]?, r.Accepts p then mhnds[i]?.map (offer newer hnd) else mhnds[i]?

/-- The parallel combinator chooses a branch with an accepting variant of the most labels, and reports a
type error exactly when no branch has an accepting variant. -/
def ParallelRight (branches : List Branch) : Prop :=
  match (gnodeWalkHndParallel r branches).1 with
  | .null => False
  | .typeError => ∀ b ∈ branches, ∀ v ∈ b.type, ¬ r.Accepts v
  | .groot i =>
    ∃ b ∈ branches[i]?, ∃ v ∈ b.type, r.Accepts v ∧
      ∀ c ∈ branches, ∀ w ∈ c.type, r.Accepts w → w.itemsTotalCnt ≤ v.itemsTotalCnt

/-- The branches on which the parallel combinator is right. For an empty record the code asks only for a
variant without binding tags; for any other it is misled by a negative count. -/
def ParallelFair (branches : List Branch) : Prop :=
  branches ≠ [] ∧
    (r.itemsTotalCnt ≠ 0 →
      ¬ ((∃ b ∈ branches, Overrun r b) ∧
        ∃ b ∈ branches, ∃ v ∈ b.type, r.Accepts v ∧ v.itemsTotalCnt ≠ 0)) ∧
    (r.itemsTotalCnt = 0 →
      ∀ (i : Nat) (b : Branch), branches[i]? = some b → Unbound b →
        (∀ (j : Nat) (c : Branch), branches[j]? = some c → Unbound c →
          b.takenCnt < c.takenCnt ∨ b.takenCnt = c.takenCnt ∧ i ≤ j) →
        ∃ v ∈ b.type, v.itemsTotalCnt = 0)

variable {r}

theorem starRight_iff (patterns : List Variant) :
    StarRight r patterns ↔ (∃ p ∈ patterns, r.Accepts p) ∨ ∀ p ∈ patterns, ¬ r.Exceeds p := by
  have hstar : testStarExitCond (some patterns) none r = true ↔
      ∃ p ∈ patterns, r.Accepts p ∨ r.Exceeds p := by
    rw [testStarExitCond_iff]
    simp only [guardPasses, true_and]
    rw [exists_comm]
    simp only [← exists_and_right, mem_iff_getElem?]
  unfold StarRight
  rw [hstar]
  constructor
  · intro h
    by_cases ha : ∃ p ∈ patterns, r.Accepts p
    · exact Or.inl ha
    · refine Or.inr fun p hp he => ?_
      exact ha (h.1 ⟨p, hp, Or.inr he⟩)
  · intro h
    constructor
    · rintro ⟨p, hp, ha | he⟩
      · exact ⟨p, hp, ha⟩
      · exact h.resolve_right fun hno => hno p hp he
    · rintro ⟨p, hp, ha⟩
      exact ⟨p, hp, Or.inl ha⟩

theorem synccellRight_iff (patterns : List Variant) :
    SynccellRight newer hnd r patterns ↔ ∀ p ∈ patterns, ¬ r.Exceeds p := by
  unfold SynccellRight
  simp only [synccellMatchPatterns_getElem?, guardPasses, and_true]
  constructor
  · intro h p hp he
    -- an empty slot tells the two tests apart
    obtain ⟨i, hi⟩ := getElem?_of_mem hp
    have hlt : i < patterns.length := (List.getElem?_eq_some_iff.1 hi).1
    have hslot := h (List.replicate patterns.length none) (length_replicate ..) i
    rw [hi, getElem?_replicate_of_lt hlt] at hslot
    simp [he, he.not_accepts, offer] at hslot
  · intro h mhnds _ i
    cases hi : patterns[i]? with
    | none => simp
    | some p => simp [h p (mem_of_getElem? hi)]

theorem parallelRight_iff_of_chosen {branches : List Branch} {i : Nat} {b : Branch}
    (hc : Chosen r branches i b) :
    (∃ b ∈ branches[i]?, ∃ v ∈ b.type, r.Accepts v ∧
      ∀ c ∈ branches, ∀ w ∈ c.type, r.Accepts w → w.itemsTotalCnt ≤ v.itemsTotalCnt) ↔
    (r.itemsTotalCnt ≠ 0 →
      ¬ ((∃ b ∈ branches, Overrun r b) ∧
        ∃ b ∈ branches, ∃ v ∈ b.type, r.Accepts v ∧ v.itemsTotalCnt ≠ 0)) ∧
    (r.itemsTotalCnt = 0 → ∃ v ∈ b.type, r.Accepts v) := by
  have hget := hc.get
  simp only [hget, Option.mem_def, Option.some.injEq, exists_eq_left']
  by_cases h0 : r.itemsTotalCnt = 0
  · simp only [h0, ne_eq, not_true_eq_false, IsEmpty.forall_iff, forall_const, true_and]
    constructor
    · rintro ⟨v, hv, ha, -⟩
      exact ⟨v, hv, ha⟩
    · rintro ⟨v, hv, ha⟩
      refine ⟨v, hv, ha, ?_⟩
      intro c _ w _ hw
      have := hw.count_le r.wellFormed w.wellFormed
      omega
  · simp only [h0, ne_eq, not_false_eq_true, forall_const, IsEmpty.forall_iff, and_true]
    have hmem : b ∈ branches := mem_of_getElem? hget
    have hopen : ∀ c ∈ branches, ∀ w ∈ c.type, r.Accepts w → Open r c :=
      fun c _ w hw ha => ⟨w, hw, Or.inl ha⟩
    have hrank : ∀ c ∈ branches, Open r c → rank r c ≤ rank r b := by
      intro c hcm hco
      obtain ⟨j, hj⟩ := getElem?_of_mem hcm
      have := hc.best j c hj hco
      omega
    have hbo := overrun_iff h0 hc.isOpen
    constructor
    · rintro ⟨v, hv, ha, hmax⟩ ⟨⟨c, hcm, hcover⟩, d, hdm, w, hw, hwa, hw0⟩
      -- a negative count outranks every other, so that the chosen branch has one too
      have hco : Open r c := by
        obtain ⟨u, hu, hua⟩ := hcover.1
        exact hopen c hcm u hu hua
      have hneg := (overrun_iff h0 hco).1 hcover
      have hle := hrank c hcm hco
      have hcr := rank_eq (r := r) c
      have hbr := rank_eq (r := r) b
      have hcb := variantMatchesType_bound (r := r) c.type
      have hbb := variantMatchesType_bound (r := r) b.type
      rw [if_pos hneg] at hcr
      have hbneg : (variantMatchesType r b.type).1 < 0 := by
        by_contra hb0
        rw [if_neg hb0] at hbr
        omega
      have hv0 := (hbo.2 hbneg).2.1 v hv ha
      have := hmax d hdm w hw hwa
      omega
    · intro h
      by_cases hneg : (variantMatchesType r b.type).1 < 0
      · obtain ⟨⟨v, hv, ha⟩, hzero, -⟩ := hbo.2 hneg
        refine ⟨v, hv, ha, ?_⟩
        intro c hcm w hw hwa
        by_contra hgt
        exact h ⟨⟨b, hmem, hbo.2 hneg⟩, c, hcm, w, hw, hwa, by omega⟩
      · -- no count of a rival is larger than that of the chosen branch
        have hle : ∀ c ∈ branches, ∀ w ∈ c.type, r.Accepts w →
            (w.itemsTotalCnt : Int) ≤ (variantMatchesType r b.type).1 := by
          intro c hcm w hw hwa
          rcases Nat.eq_zero_or_pos w.itemsTotalCnt with hz | hpos
          · omega
          · have hcw := le_variantMatchesType hw hwa hpos.ne'
            have hcr := rank_eq (r := r) c
            have hbr := rank_eq (r := r) b
            have := hrank c hcm (hopen c hcm w hw hwa)
            rw [if_neg (by omega)] at hcr
            rw [if_neg hneg] at hbr
            omega
        rcases lt_or_eq_of_le (not_lt.1 hneg) with hpos | hzero
        · obtain ⟨v, hv, ha, he⟩ := exists_of_variantMatchesType_pos hpos
          refine ⟨v, hv, ha, ?_⟩
          intro c hcm w hw hwa
          have := hle c hcm w hw hwa
          omega
        · obtain ⟨v, hv, ha⟩ := hc.isOpen
          refine ⟨v, hv, ha.resolve_right fun h => h0 h.2, ?_⟩
          intro c hcm w hw hwa
          have := hle c hcm w hw hwa
          omega

theorem Chosen.unbound_iff {branches : List Branch} (h0 : r.itemsTotalCnt = 0) (i : Nat) (b : Branch) :
    Chosen r branches i b ↔
      branches[i]? = some b ∧ Unbound b ∧
        ∀ (j : Nat) (c : Branch), branches[j]? = some c → Unbound c →
          b.takenCnt < c.takenCnt ∨ b.takenCnt = c.takenCnt ∧ i ≤ j := by
  have hrank : ∀ c : Branch, rank r c = 0 := by
    intro c
    have hpos : ¬ 0 < (variantMatchesType r c.type).1 := by
      intro h
      obtain ⟨v, -, ha, he⟩ := exists_of_variantMatchesType_pos h
      have := ha.count_le r.wellFormed v.wellFormed
      omega
    have hneg : ¬ (variantMatchesType r c.type).1 < 0 := fun h => (variantMatchesType_neg_iff.1 h).2.2 h0
    have := rank_eq (r := r) c
    rw [if_neg hneg] at this
    omega
  constructor
  · intro hc
    refine ⟨hc.get, (open_iff_unbound h0 b).1 hc.isOpen, ?_⟩
    intro j c hj hu
    have := hc.best j c hj ((open_iff_unbound h0 c).2 hu)
    rw [hrank, hrank] at this
    exact this.resolve_left (lt_irrefl _) |>.2
  · rintro ⟨hget, hu, hbest⟩
    refine ⟨hget, (open_iff_unbound h0 b).2 hu, ?_⟩
    intro j c hj hco
    rw [hrank, hrank]
    exact Or.inr ⟨rfl, hbest j c hj ((open_iff_unbound h0 c).1 hco)⟩

theorem parallelRight_iff (branches : List Branch) : ParallelRight r branches ↔ ParallelFair r branches := by
  have haccepts : ∀ v : Variant, r.itemsTotalCnt = 0 → r.Accepts v → v.itemsTotalCnt = 0 := by
    intro v h0 ha
    have := ha.count_le r.wellFormed v.wellFormed
    omega
  unfold ParallelRight gnodeWalkHndParallel ParallelFair
  by_cases hnil : branches = []
  · simp [hnil]
  · have hlen : branches.length ≠ 0 := mt length_eq_zero_iff.1 hnil
    have hinv := parallelLoop_inv (r := r) branches
    unfold LoopInv at hinv
    simp only [hlen, if_false, ne_eq, hnil, not_false_eq_true, true_and]
    cases hs : (parallelLoop r branches).selBranch with
    | none =>
      rw [hs] at hinv
      -- no branch is taken up, and so none has an accepting variant
      have hno : ∀ b ∈ branches, ∀ v ∈ b.type, ¬ r.Accepts v :=
        fun b hb v hv ha => hinv b hb ⟨v, hv, Or.inl ha⟩
      refine iff_of_true hno ⟨?_, ?_⟩
      · rintro - ⟨-, b, hb, v, hv, ha, -⟩
        exact hno b hb v hv ha
      · intro h0 i b hget hu
        exact absurd ((open_iff_unbound h0 b).2 hu) (hinv b (mem_of_getElem? hget))
    | some sel =>
      obtain ⟨i, b⟩ := sel
      rw [hs] at hinv
      obtain ⟨hc, -⟩ := hinv
      simp only
      rw [parallelRight_iff_of_chosen hc]
      apply and_congr_right'
      apply forall_congr'
      intro h0
      constructor
      · rintro ⟨v, hv, ha⟩ j c hj hu hbest
        have hcb := ((Chosen.unbound_iff h0 j c).2 ⟨hj, hu, hbest⟩).unique hc
        exact ⟨v, hcb ▸ hv, haccepts v h0 ha⟩
      · intro h
        obtain ⟨hget, hu, hbest⟩ := (Chosen.unbound_iff h0 i b).1 hc
        obtain ⟨v, hv, hz⟩ := h i b hget hu hbest
        obtain ⟨hf, ht, hb⟩ := labels_eq_empty h0
        have hv0 := labels_eq_empty hz
        refine ⟨v, hv, ?_⟩
        unfold Accepts
        rw [hv0.1, hv0.2.1, hv0.2.2, hb]
        simp

/-- Stars and synchrocells take exactly the records that their patterns accept just where no pattern has
labels beyond those of the record; a parallel combinator chooses rightly just where its branches are
fair to the record. -/
theorem patterns_accept_iff (newer : H → H → Bool) (hnd : H) (r : Variant) (patterns : List Variant)
    (branches : List Branch) :
    (StarRight r patterns ↔ (∃ p ∈ patterns, r.Accepts p) ∨ ∀ p ∈ patterns, ¬ r.Exceeds p) ∧
    (SynccellRight newer hnd r patterns ↔ ∀ p ∈ patterns, ¬ r.Exceeds p) ∧
    (ParallelRight r branches ↔ ParallelFair r branches) :=
  ⟨starRight_iff patterns, synccellRight_iff newer hnd patterns, parallelRight_iff branches⟩

def Variant.ofFields (fields : List Int) (h : (VariantEncoding.mk (some fields) none none).WellFormed) :
    Variant := ⟨⟨some fields, none, none⟩, h⟩

/-- The record `{A}`: a star with the exit pattern `{A, B}` is left, and of a branch of type `{A}` and one
of the types `{}` and `{A, B}` the second is chosen, where the record matches nothing but `{}`. -/
theorem star_left_without_field :
    ¬ StarRight (.ofFields [1] (by decide)) [.ofFields [1, 2] (by decide)] ∧
    ¬ ParallelRight (.ofFields [1] (by decide))
      [⟨[.ofFields [1] (by decide)], 0⟩, ⟨[.ofFields [] (by decide), .ofFields [1, 2] (by decide)], 0⟩] := by
  constructor
  · unfold StarRight
    decide
  · rw [parallelRight_iff]
    rintro ⟨-, h, -⟩
    apply h (by decide)
    constructor
    · exact ⟨_, mem_cons_of_mem _ (mem_singleton_self _), by decide, by decide, _, rfl, by decide⟩
    · exact ⟨_, mem_cons_self .., _, mem_singleton_self _, by decide, by decide⟩

end

end SNet.Svpgw
