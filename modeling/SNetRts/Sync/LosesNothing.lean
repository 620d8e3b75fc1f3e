import SNetRts.Sync.Cell

/-!
# What a synchrocell keeps

What a cell does is a matter of the records it has seen: a pattern is matched by the first record
that it accepts, and the cell fires with the record that leaves no pattern unmatched (`Faithful`).
The slots of both runtimes say exactly this (`SlotsOk`).

The merged record is a different matter. When a record is the first for several patterns, only the
lowest of them keeps it; the slots of the others are `NULL` and contribute nothing, so the labels
that only they name are lost, and labels of an earlier pattern are not replaced. The patterns that
contribute are the `leaders`; the cell loses nothing if and only if they give every label the value
that the last pattern naming it has (`sync_loses_nothing_iff`).
-/

namespace SNet.Sync

open List

variable {V : Type} {p : Pattern V} {ps : List (Pattern V)} {hist : List (Record V)}
  {r : Record V} {ℓ : Label}

/-! ## Patterns and the records seen -/

def firstPos (hist : List (Record V)) (p : Pattern V) : Option Nat := hist.findIdx? p.accepts

def firstRec (hist : List (Record V)) (p : Pattern V) : Option (Record V) := hist.find? p.accepts

/-- What the record that has matched the pattern has under a label. -/
def valueOf (hist : List (Record V)) (p : Pattern V) (ℓ : Label) : Option (V ⊕ Int) :=
  (firstRec hist p).bind fun r => r.value? ℓ

def Opens (hist : List (Record V)) (r : Record V) (p : Pattern V) : Prop :=
  firstPos hist p = none ∧ p.accepts r = true

instance : Decidable (Opens hist r p) := inferInstanceAs (Decidable (_ ∧ _))

def Full (patterns : List (Pattern V)) (hist : List (Record V)) : Prop :=
  ∀ p ∈ patterns, firstPos hist p ≠ none

instance {patterns : List (Pattern V)} : Decidable (Full patterns hist) :=
  inferInstanceAs (Decidable (∀ p ∈ patterns, _))

/-- A pattern of `before` has been matched by the same record. -/
def Follows (hist : List (Record V)) (before : List (Pattern V)) (p : Pattern V) : Prop :=
  ∃ q ∈ before, firstPos hist q = firstPos hist p

instance {before : List (Pattern V)} : Decidable (Follows hist before p) :=
  inferInstanceAs (Decidable (∃ q ∈ before, _))

def namer (ℓ : Label) (patterns : List (Pattern V)) : Option (Pattern V) :=
  patterns.reverse.find? fun p => p.variant.names ℓ

/-- The patterns, after those of `before`, that are the lowest their record has matched. -/
def leaders (hist : List (Record V)) : List (Pattern V) → List (Pattern V) → List (Pattern V)
  | _, [] => []
  | before, p :: ps =>
    if Follows hist before p then leaders hist (before ++ [p]) ps
    else p :: leaders hist (before ++ [p]) ps

/-- The merged record has all fields and tags of the record that matched the first pattern `p`, and
those that another pattern names with the value they have in its record, the last such pattern
counting. -/
def Complete (p : Pattern V) (ps : List (Pattern V)) (hist : List (Record V)) (m : Record V) :
    Prop :=
  ∀ ℓ v, valueOf hist ((namer ℓ ps).getD p) ℓ = some v → m.value? ℓ = some v

/-- What a cell has to write for `recs` after the records `hist`: each record that opens no pattern,
as it is and in order; for the record that completes the patterns one merged record, and then
`after`. -/
def Faithful {ω : Type} (p : Pattern V) (ps : List (Pattern V)) (emit : Record V → ω)
    (after : List (Record V) → List ω) : List (Record V) → List (Record V) → List ω → Prop
  | _, [], out => out = []
  | hist, r :: recs, out =>
    if ∃ q ∈ p :: ps, Opens hist r q then
      if Full (p :: ps) (hist ++ [r]) then
        ∃ m, out = emit m :: after recs ∧ Complete p ps (hist ++ [r]) m
      else Faithful p ps emit after (hist ++ [r]) recs out
    else ∃ out', out = emit r :: out' ∧ Faithful p ps emit after (hist ++ [r]) recs out'

/-- The patterns that contribute give every label the value it has to have. -/
def Agree (p : Pattern V) (ps : List (Pattern V)) (recs : List (Record V)) : Prop :=
  Full (p :: ps) recs → ∀ ℓ, (∃ q ∈ ps, q.variant.names ℓ = true) →
    valueOf recs ((namer ℓ (leaders recs [p] ps)).getD p) ℓ = valueOf recs ((namer ℓ ps).getD p) ℓ

/-! ## One more record -/

theorem firstPos_append (hist : List (Record V)) (r : Record V) (p : Pattern V) :
    firstPos (hist ++ [r]) p = (firstPos hist p).or
      (if p.accepts r then some hist.length else none) := by
  simp only [firstPos, findIdx?_append, findIdx?_singleton]
  by_cases h : p.accepts r <;> simp [h]

theorem firstPos_lt {k : Nat} (h : firstPos hist p = some k) : k < hist.length := by
  obtain ⟨hk, -⟩ := findIdx?_eq_some_iff_getElem.1 h
  exact hk

theorem firstRec_isSome (hist : List (Record V)) (p : Pattern V) :
    (firstRec hist p).isSome = (firstPos hist p).isSome := by
  simp [firstRec, firstPos, isSome_find?, findIdx?_isSome]

theorem firstRec_append_of_matched (h : firstPos hist p ≠ none) (recs : List (Record V)) :
    firstRec (hist ++ recs) p = firstRec hist p := by
  have hs : (firstRec hist p).isSome = true := by
    rw [firstRec_isSome, Option.isSome_iff_ne_none]
    exact h
  obtain ⟨x, hx⟩ := Option.isSome_iff_exists.1 hs
  have : firstRec hist p = hist.find? p.accepts := rfl
  rw [this] at hx
  simp [firstRec, find?_append, hx]

theorem firstPos_append_of_matched (h : firstPos hist p ≠ none) (recs : List (Record V)) :
    firstPos (hist ++ recs) p = firstPos hist p := by
  obtain ⟨k, hk⟩ := Option.ne_none_iff_exists'.1 h
  unfold firstPos at hk ⊢
  rw [findIdx?_append, hk]
  rfl

theorem firstPos_of_opens (h : Opens hist r p) : firstPos (hist ++ [r]) p = some hist.length := by
  rw [firstPos_append, h.1, if_pos h.2]
  rfl

theorem firstPos_append_eq_none :
    firstPos (hist ++ [r]) p = none ↔ firstPos hist p = none ∧ ¬ p.accepts r = true := by
  rw [firstPos_append, Option.or_eq_none_iff]
  simp

theorem firstRec_of_opens (h : Opens hist r p) : firstRec (hist ++ [r]) p = some r := by
  have hno : hist.find? p.accepts = none := by
    have h1 : (firstRec hist p).isSome = false := by rw [firstRec_isSome, h.1]; rfl
    simpa [firstRec] using h1
  simp [firstRec, find?_append, hno, h.2]

theorem follows_of_opens {before : List (Pattern V)} (h : Opens hist r p) :
    Follows (hist ++ [r]) before p ↔ ∃ q ∈ before, Opens hist r q := by
  unfold Follows
  rw [firstPos_of_opens h]
  refine exists_congr fun q => and_congr_right fun _ => ⟨fun hq => ?_, firstPos_of_opens⟩
  rw [firstPos_append] at hq
  cases hp : firstPos hist q with
  | none =>
    rw [hp] at hq
    refine ⟨hp, ?_⟩
    by_contra hn
    simp [hn] at hq
  | some k =>
    rw [hp] at hq
    have := firstPos_lt hp
    cases hq
    omega

theorem follows_append {before : List (Pattern V)} (h : firstPos hist p ≠ none)
    (recs : List (Record V)) : Follows (hist ++ recs) before p ↔ Follows hist before p := by
  unfold Follows
  rw [firstPos_append_of_matched h]
  refine exists_congr fun q => and_congr_right fun _ => ?_
  by_cases hq : firstPos hist q = none
  · obtain ⟨k, hk⟩ := Option.ne_none_iff_exists'.1 h
    rw [hq, hk]
    have hlt := firstPos_lt hk
    unfold firstPos at hq ⊢
    rw [findIdx?_append, hq]
    refine ⟨fun he => ?_, fun he => by cases he⟩
    simp only [Option.none_or, Option.map_eq_some_iff] at he
    obtain ⟨j, -, hj⟩ := he
    omega
  · rw [firstPos_append_of_matched hq]

/-! ## The slots -/

def SlotOk (hist : List (Record V)) (before : List (Pattern V)) (p : Pattern V) : Slot V → Prop
  | .dummy => firstPos hist p = none
  | .null => firstPos hist p ≠ none ∧ Follows hist before p
  | .stored rec => ¬ Follows hist before p ∧
      ∃ r, firstRec hist p = some r ∧ ∀ ℓ, rec.value? ℓ = r.value? ℓ

/-- The slots of the patterns after `before`. -/
def SlotsOk (hist : List (Record V)) : List (Pattern V) → List (Pattern V) → List (Slot V) → Prop
  | _, [], [] => True
  | before, p :: ps, s :: ss => SlotOk hist before p s ∧ SlotsOk hist (before ++ [p]) ps ss
  | _, _, _ => False

theorem slotOk_isDummy {before : List (Pattern V)} {s : Slot V} (h : SlotOk hist before p s) :
    s.isDummy = true ↔ firstPos hist p = none := by
  cases s with
  | dummy => exact ⟨fun _ => h, fun _ => rfl⟩
  | null => exact ⟨fun e => (by cases e), fun e => absurd e h.1⟩
  | stored rec =>
    obtain ⟨-, r, hr, -⟩ := h
    refine ⟨fun e => (by cases e), fun e => ?_⟩
    have hs := firstRec_isSome hist p
    rw [hr, e] at hs
    cases hs

theorem slotOk_append {before : List (Pattern V)} {s : Slot V} (h : SlotOk hist before p s)
    (hno : ¬ Opens hist r p) : SlotOk (hist ++ [r]) before p s := by
  cases s with
  | dummy =>
    rw [SlotOk] at h ⊢
    exact firstPos_append_eq_none.2 ⟨h, fun ha => hno ⟨h, ha⟩⟩
  | null =>
    obtain ⟨hm, hf⟩ := h
    exact ⟨by rwa [firstPos_append_of_matched hm], (follows_append hm _).2 hf⟩
  | stored rec =>
    obtain ⟨hf, r', hr', hv⟩ := h
    have hm : firstPos hist p ≠ none := by
      rw [← Option.isSome_iff_ne_none, ← firstRec_isSome, hr']
      rfl
    exact ⟨fun hf' => hf ((follows_append hm _).1 hf'), r',
      by rw [firstRec_append_of_matched hm]; exact hr', hv⟩

theorem matchPatterns_ok {ps before : List (Pattern V)} {ss : List (Slot V)} (found : Nat)
    (h : SlotsOk hist before ps ss) (hfound : found = 0 ↔ ∀ q ∈ before, ¬ Opens hist r q) :
    SlotsOk (hist ++ [r]) before ps (matchPatterns r ps ss found).1 ∧
      (matchPatterns r ps ss found).2 = found + ps.countP fun q => decide (Opens hist r q) := by
  induction ps generalizing before ss found with
  | nil =>
    cases ss with
    | nil => exact ⟨trivial, rfl⟩
    | cons s ss => exact h.elim
  | cons p ps ih =>
    cases ss with
    | nil => exact h.elim
    | cons s ss =>
      obtain ⟨hs, hss⟩ := h
      by_cases ho : Opens hist r p
      · have hd : (s.isDummy && p.accepts r) = true := by
          rw [Bool.and_eq_true]
          exact ⟨(slotOk_isDummy hs).2 ho.1, ho.2⟩
        have hnext : found + 1 = 0 ↔ ∀ q ∈ before ++ [p], ¬ Opens hist r q :=
          ⟨fun e => absurd e (by omega), fun hall => absurd ho (hall p (by simp))⟩
        obtain ⟨h1, h2⟩ := ih _ hss hnext
        simp only [matchPatterns, hd, if_true]
        refine ⟨⟨?_, h1⟩, ?_⟩
        · split
          · rename_i h0
            refine ⟨fun hf => ?_, r, firstRec_of_opens ho, fun _ => rfl⟩
            obtain ⟨q, hq, hoq⟩ := (follows_of_opens ho).1 hf
            exact hfound.1 h0 q hq hoq
          · rename_i h0
            refine ⟨by rw [firstPos_of_opens ho]; simp, (follows_of_opens ho).2 ?_⟩
            by_contra hall
            exact h0 (hfound.2 fun q hq hoq => hall ⟨q, hq, hoq⟩)
        · rw [h2, countP_cons_of_pos (by simpa using ho)]
          omega
      · have hd : (s.isDummy && p.accepts r) = false := by
          rw [Bool.and_eq_false_iff]
          by_contra hn
          rw [not_or, Bool.not_eq_false, Bool.not_eq_false] at hn
          exact ho ⟨(slotOk_isDummy hs).1 hn.1, hn.2⟩
        have hnext : found = 0 ↔ ∀ q ∈ before ++ [p], ¬ Opens hist r q := by
          rw [hfound]
          refine ⟨fun hall q hq => ?_, fun hall q hq => hall q (by simp [hq])⟩
          rcases mem_append.1 hq with hq | hq
          · exact hall q hq
          · rw [mem_singleton.1 hq]
            exact ho
        obtain ⟨h1, h2⟩ := ih _ hss hnext
        simp only [matchPatterns, hd, Bool.false_eq_true, if_false]
        exact ⟨⟨slotOk_append hs ho, h1⟩, by rw [h2, countP_cons_of_neg (by simpa using ho)]⟩

/-! ## The merged record -/

theorem value?_mergeRecord (v : Variant) (rec result : Record V) (ℓ : Label) :
    (mergeRecord v rec result).value? ℓ =
      if v.names ℓ then (rec.value? ℓ).or (result.value? ℓ) else result.value? ℓ := by
  cases ℓ with
  | field name =>
    simp only [mergeRecord, Record.value?, LabelMap.get?_copyWhere, Variant.names]
    by_cases h : v.hasField name = true
    · cases rec.fields.get? name <;> simp [h]
    · simp [h]
  | tag name =>
    simp only [mergeRecord, Record.value?, LabelMap.get?_copyWhere, Variant.names]
    by_cases h : v.hasTag name = true
    · cases rec.tags.get? name <;> simp [h]
    · simp [h]

theorem namer_cons (ℓ : Label) (p : Pattern V) (ps : List (Pattern V)) :
    namer ℓ (p :: ps) = (namer ℓ ps).or (if p.variant.names ℓ then some p else none) := by
  simp only [namer, reverse_cons, find?_append]
  by_cases h : p.variant.names ℓ <;> simp [h]

theorem isSome_valueOf (hm : firstPos hist p ≠ none) (hn : p.variant.names ℓ = true) :
    (valueOf hist p ℓ).isSome = true := by
  have hs : (firstRec hist p).isSome = true := by
    rw [firstRec_isSome, Option.isSome_iff_ne_none]
    exact hm
  obtain ⟨r, hr⟩ := Option.isSome_iff_exists.1 hs
  have hacc : p.accepts r = true := find?_some hr
  rw [Pattern.accepts, Bool.and_eq_true] at hacc
  simpa [valueOf, hr] using Record.isSome_value?_of_matches hacc.1 hn

theorem mergeSlots_value {ps before : List (Pattern V)} {ss : List (Slot V)}
    (h : SlotsOk hist before ps ss) (hfull : Full ps hist) (result : Record V) :
    ∃ m, mergeSlots ps ss result = some m ∧ ∀ ℓ, m.value? ℓ =
      match namer ℓ (leaders hist before ps) with
      | some q => valueOf hist q ℓ
      | none => result.value? ℓ := by
  induction ps generalizing before ss result with
  | nil =>
    cases ss with
    | nil => exact ⟨result, rfl, fun ℓ => rfl⟩
    | cons s ss => exact h.elim
  | cons p ps ih =>
    cases ss with
    | nil => exact h.elim
    | cons s ss =>
      obtain ⟨hs, hss⟩ := h
      have hfull' : Full ps hist := fun q hq => hfull q (mem_cons_of_mem _ hq)
      have hm : firstPos hist p ≠ none := hfull p mem_cons_self
      cases s with
      | dummy => exact absurd hs hm
      | null =>
        obtain ⟨m, he, hv⟩ := ih hss hfull' result
        refine ⟨m, he, fun ℓ => ?_⟩
        rw [hv, leaders, if_pos hs.2]
      | stored rec =>
        obtain ⟨hf, r, hr, hrv⟩ := hs
        obtain ⟨m, he, hv⟩ := ih hss hfull' (mergeRecord p.variant rec result)
        refine ⟨m, he, fun ℓ => ?_⟩
        rw [hv, leaders, if_neg hf, namer_cons]
        cases hnamer : namer ℓ (leaders hist (before ++ [p]) ps) with
        | some q => rfl
        | none =>
          rw [value?_mergeRecord]
          by_cases hn : p.variant.names ℓ = true
          · have hsome := isSome_valueOf hm hn
            have hval : valueOf hist p ℓ = rec.value? ℓ := by simp [valueOf, hr, hrv]
            rw [hval] at hsome
            obtain ⟨v, hv'⟩ := Option.isSome_iff_exists.1 hsome
            simp [hn, hval, hv']
          · simp [hn]

theorem merge_value {ps : List (Pattern V)} {storage : List (Slot V)}
    (h : SlotsOk hist [] (p :: ps) storage) (hfull : Full (p :: ps) hist) :
    mergeFromStorageFront storage (p :: ps) = mergeFromStorage storage (p :: ps) ∧
    ∃ m, mergeFromStorage storage (p :: ps) = some m ∧ ∀ ℓ, m.value? ℓ =
      valueOf hist ((namer ℓ (leaders hist [p] ps)).getD p) ℓ := by
  cases storage with
  | nil => exact h.elim
  | cons s ss =>
    obtain ⟨hs, hss⟩ := h
    have hm : firstPos hist p ≠ none := hfull p mem_cons_self
    cases s with
    | dummy => exact absurd hs hm
    | null => obtain ⟨-, q, hq, -⟩ := hs; cases hq
    | stored rec =>
      obtain ⟨-, r, hr, hrv⟩ := hs
      obtain ⟨m, he, hv⟩ := mergeSlots_value hss (fun q hq => hfull q (mem_cons_of_mem _ hq)) rec
      refine ⟨rfl, m, he, fun ℓ => ?_⟩
      rw [hv, nil_append]
      cases namer ℓ (leaders hist [p] ps) with
      | some q => rfl
      | none => simp [valueOf, hr, hrv]

/-! ## Counting matches -/

section Count

variable {ps : List (Pattern V)}

def matchedCount (ps : List (Pattern V)) (hist : List (Record V)) : Nat :=
  ps.countP fun q => (firstPos hist q).isSome

theorem matchedCount_append (ps : List (Pattern V)) (hist : List (Record V)) (r : Record V) :
    matchedCount ps (hist ++ [r]) =
      matchedCount ps hist + ps.countP fun q => decide (Opens hist r q) := by
  induction ps with
  | nil => rfl
  | cons p ps ih =>
    simp only [matchedCount] at ih
    simp only [matchedCount, countP_cons, ih]
    have hp : (if (firstPos (hist ++ [r]) p).isSome = true then 1 else 0) =
        (if (firstPos hist p).isSome = true then 1 else 0) +
          if decide (Opens hist r p) = true then 1 else 0 := by
      rw [firstPos_append]
      cases h : firstPos hist p with
      | some k => simp [Opens, h]
      | none => by_cases ha : p.accepts r <;> simp [Opens, h, ha]
    omega

theorem countP_opens_eq_zero :
    (ps.countP fun q => decide (Opens hist r q)) = 0 ↔ ¬ ∃ q ∈ ps, Opens hist r q := by
  rw [countP_eq_zero]
  simp

theorem matchedCount_eq_length : matchedCount ps hist = ps.length ↔ Full ps hist := by
  rw [matchedCount, countP_eq_length]
  exact forall₂_congr fun q _ => Option.isSome_iff_ne_none

end Count

/-! ## Runs -/

section Runs

variable {ps : List (Pattern V)}

theorem full_append (h : Full ps hist) (recs : List (Record V)) : Full ps (hist ++ recs) := by
  intro q hq
  rw [firstPos_append_of_matched (h q hq)]
  exact h q hq

theorem valueOf_append (h : firstPos hist p ≠ none) (recs : List (Record V)) (ℓ : Label) :
    valueOf (hist ++ recs) p ℓ = valueOf hist p ℓ := by
  rw [valueOf, firstRec_append_of_matched h, valueOf]

theorem leaders_append (before : List (Pattern V)) (h : Full ps hist) (recs : List (Record V)) :
    leaders (hist ++ recs) before ps = leaders hist before ps := by
  induction ps generalizing before with
  | nil => rfl
  | cons q ps ih =>
    have hq : firstPos hist q ≠ none := h q mem_cons_self
    have hps : Full ps hist := fun x hx => h x (mem_cons_of_mem _ hx)
    simp only [leaders, follows_append hq recs, ih _ hps]

theorem mem_leaders {before : List (Pattern V)} (h : p ∈ leaders hist before ps) : p ∈ ps := by
  induction ps generalizing before with
  | nil => exact h
  | cons q ps ih =>
    unfold leaders at h
    split at h
    · exact mem_cons_of_mem _ (ih h)
    · rcases mem_cons.1 h with rfl | h
      · exact mem_cons_self
      · exact mem_cons_of_mem _ (ih h)

theorem mem_of_namer {q : Pattern V} (h : namer ℓ ps = some q) :
    q ∈ ps ∧ q.variant.names ℓ = true :=
  ⟨mem_reverse.1 (mem_of_find?_eq_some h), by simpa using find?_some h⟩

/-- A merged record that has what the leaders name is complete just when the leaders agree with
the last pattern naming each label; records that come later do not matter. -/
theorem complete_iff_agree {m : Record V} (hfull : Full (p :: ps) hist)
    (hm : ∀ ℓ, m.value? ℓ = valueOf hist ((namer ℓ (leaders hist [p] ps)).getD p) ℓ)
    (recs : List (Record V)) : Complete p ps hist m ↔ Agree p ps (hist ++ recs) := by
  have hps : Full ps hist := fun q hq => hfull q (mem_cons_of_mem _ hq)
  have hval : ∀ (o : Option (Pattern V)), (∀ q ∈ o, q ∈ ps) → ∀ ℓ,
      valueOf (hist ++ recs) (o.getD p) ℓ = valueOf hist (o.getD p) ℓ := by
    intro o ho ℓ
    apply valueOf_append
    cases o with
    | none => exact hfull p mem_cons_self
    | some q => exact hps q (ho q rfl)
  have hlead : ∀ ℓ, ∀ q ∈ namer ℓ (leaders hist [p] ps), q ∈ ps :=
    fun ℓ q hq => mem_leaders (mem_of_namer hq).1
  have hname : ∀ ℓ, ∀ q ∈ namer ℓ ps, q ∈ ps := fun ℓ q hq => (mem_of_namer hq).1
  constructor
  · rintro hc - ℓ ⟨q, hq, hn⟩
    rw [leaders_append [p] hps, hval _ (hlead ℓ), hval _ (hname ℓ), ← hm]
    -- the last pattern naming the label is matched, so its record has the label
    cases hlast : namer ℓ ps with
    | none =>
      have := find?_eq_none.1 hlast q (mem_reverse.2 hq)
      exact absurd hn this
    | some q' =>
      obtain ⟨hmem, hn'⟩ := mem_of_namer hlast
      obtain ⟨v, hv⟩ := Option.isSome_iff_exists.1 (isSome_valueOf (hps q' hmem) hn')
      rw [Option.getD_some, hv]
      exact hc ℓ v (by rw [hlast]; exact hv)
  · intro ha ℓ v hv
    rw [hm]
    by_cases hn : ∃ q ∈ ps, q.variant.names ℓ = true
    · have := ha (full_append hfull recs) ℓ hn
      rw [leaders_append [p] hps, hval _ (hlead ℓ), hval _ (hname ℓ)] at this
      rw [this, hv]
    · have hno : ∀ qs : List (Pattern V), (∀ q ∈ qs, q ∈ ps) → namer ℓ qs = none := by
        intro qs hqs
        refine find?_eq_none.2 fun q hq hn' => hn ⟨q, hqs q (mem_reverse.1 hq), hn'⟩
      rw [hno _ fun q hq => mem_leaders hq]
      rwa [hno _ fun q hq => hq] at hv

theorem agree_of_not_full (h : ¬ Full (p :: ps) hist) : Agree p ps hist := fun hf => absurd hf h

section Faithful

variable {ω : Type} {emit : Record V → ω} {after : List (Record V) → List ω}
  {recs : List (Record V)} {out : List ω}

theorem faithful_forward (ho : ¬ ∃ q ∈ p :: ps, Opens hist r q) :
    Faithful p ps emit after hist (r :: recs) (emit r :: out) ↔
      Faithful p ps emit after (hist ++ [r]) recs out := by
  rw [Faithful, if_neg ho]
  refine ⟨?_, fun hf => ⟨_, rfl, hf⟩⟩
  rintro ⟨out', hout, hf⟩
  rw [List.cons.injEq] at hout
  exact hout.2 ▸ hf

theorem faithful_store (ho : ∃ q ∈ p :: ps, Opens hist r q) (hf : ¬ Full (p :: ps) (hist ++ [r])) :
    Faithful p ps emit after hist (r :: recs) out ↔
      Faithful p ps emit after (hist ++ [r]) recs out := by
  rw [Faithful, if_pos ho, if_neg hf]

theorem faithful_fire (after : List (Record V) → List ω) (recs : List (Record V))
    (ho : ∃ q ∈ p :: ps, Opens hist r q) (hf : Full (p :: ps) (hist ++ [r]))
    (hemit : ∀ m m', emit m = emit m' → m = m') {m : Record V} (hm : ∀ ℓ, m.value? ℓ =
      valueOf (hist ++ [r]) ((namer ℓ (leaders (hist ++ [r]) [p] ps)).getD p) ℓ) :
    Faithful p ps emit after hist (r :: recs) (emit m :: after recs) ↔
      Agree p ps (hist ++ r :: recs) := by
  have happ : hist ++ r :: recs = hist ++ [r] ++ recs := by simp
  rw [Faithful, if_pos ho, if_pos hf, happ, ← complete_iff_agree hf hm recs]
  refine ⟨?_, fun hc => ⟨m, rfl, hc⟩⟩
  rintro ⟨m', hout, hc⟩
  rw [List.cons.injEq] at hout
  exact hemit _ _ hout.1 ▸ hc

end Faithful

/-- A cell has seen `hist` and not fired. -/
structure CellOk (patterns : List (Pattern V)) (hist : List (Record V)) (storage : List (Slot V))
    (count : Nat) : Prop where
  slots : SlotsOk hist [] patterns storage
  count : count = matchedCount patterns hist
  notFull : ¬ Full patterns hist

theorem cellOk_init : CellOk (p :: ps) [] ((p :: ps).map fun _ => .dummy) 0 := by
  refine ⟨?_, ?_, fun hf => hf p mem_cons_self rfl⟩
  · generalize ([] : List (Pattern V)) = before
    generalize p :: ps = qs
    induction qs generalizing before with
    | nil => trivial
    | cons q qs ih => exact ⟨rfl, ih _⟩
  · symm
    rw [matchedCount, countP_eq_zero]
    exact fun q _ => Bool.false_ne_true

theorem matchPatterns_cell {storage : List (Slot V)} {count : Nat}
    (h : CellOk (p :: ps) hist storage count) (r : Record V) :
    ∃ storage' found, matchPatterns r (p :: ps) storage 0 = (storage', found) ∧
      SlotsOk (hist ++ [r]) [] (p :: ps) storage' ∧
      (found = 0 ↔ ¬ ∃ q ∈ p :: ps, Opens hist r q) ∧
      (count + found = (p :: ps).length ↔ Full (p :: ps) (hist ++ [r])) ∧
      (¬ Full (p :: ps) (hist ++ [r]) → CellOk (p :: ps) (hist ++ [r]) storage' (count + found)) := by
  obtain ⟨hs, hn⟩ := matchPatterns_ok (r := r) 0 h.slots
    ⟨fun _ q hq => (by cases hq), fun _ => rfl⟩
  rw [Nat.zero_add] at hn
  have hcount : count + (matchPatterns r (p :: ps) storage 0).2 =
      matchedCount (p :: ps) (hist ++ [r]) := by
    rw [hn, h.count, matchedCount_append]
  refine ⟨_, _, rfl, hs, ?_, ?_, fun hf => ⟨hs, hcount, hf⟩⟩
  · rw [hn, countP_opens_eq_zero]
  · rw [hcount, matchedCount_eq_length]

theorem not_full_of_not_opens (h : ¬ Full (p :: ps) hist)
    (ho : ¬ ∃ q ∈ p :: ps, Opens hist r q) : ¬ Full (p :: ps) (hist ++ [r]) := by
  intro hf
  refine h fun q hq hnone => hf q hq ?_
  exact firstPos_append_eq_none.2 ⟨hnone, fun ha => ho ⟨q, hq, hnone, ha⟩⟩

/-! ## The stream runtime -/

/-- What the reader of a stream synchrocell sees after the merged record: the sync record, and the
records left on the input stream that it hands over. -/
def streamAfter (arg : SyncArg V) (input : Stream.StreamId) (recs : List (Record V)) :
    List (Stream.Rec (Record V) Variant) :=
  .sync input (if arg.fromStar then some (getMergedTypeVariant arg.patterns) else none) ::
    recs.map .data

theorem syncBoxTask_run (arg : SyncArg V) (harg : arg.patterns = p :: ps) (st : SyncBox V)
    (h : CellOk (p :: ps) hist st.storage st.matchCnt) (recs : List (Record V)) :
    ∃ out st' rest, Stream.runEntity (syncBoxTask arg) st (recs.map .data) = some (out, st', rest) ∧
      (Faithful p ps .data (streamAfter arg st.input) hist recs (out ++ rest) ↔
        Agree p ps (hist ++ recs)) ∧
      ∀ b ∈ st', CellOk (p :: ps) (hist ++ recs) b.storage b.matchCnt := by
  induction recs generalizing hist st with
  | nil =>
    simp only [append_nil]
    refine ⟨[], some st, [], rfl, iff_of_true rfl (agree_of_not_full h.notFull), fun b hb => ?_⟩
    cases hb
    exact h
  | cons r recs ih =>
    obtain ⟨storage, found, hmatch, hs, hzero, hlen, hok⟩ := matchPatterns_cell h r
    have happ : hist ++ r :: recs = hist ++ [r] ++ recs := by simp
    simp only [map_cons, Stream.runEntity, syncBoxTask, harg, hmatch]
    by_cases ho : ∃ q ∈ p :: ps, Opens hist r q
    · rw [if_neg fun e => hzero.1 e ho]
      by_cases hf : Full (p :: ps) (hist ++ [r])
      · obtain ⟨-, m, he, hv⟩ := merge_value hs hf
        rw [if_pos (hlen.2 hf), he]
        refine ⟨_, _, _, rfl, ?_, by simp⟩
        have hfire := faithful_fire (streamAfter arg st.input) recs ho hf
          (fun _ _ => Stream.Rec.data.inj) hv
        simpa [streamAfter, harg] using hfire
      · rw [if_neg fun e => hf (hlen.1 e), happ]
        obtain ⟨out, st', rest, hrun, hfa, hst⟩ :=
          ih ⟨st.input, storage, st.matchCnt + found, true⟩ (hok hf)
        exact ⟨out, st', rest, by simp [hrun], (faithful_store ho hf).trans hfa, hst⟩
    · have hf := not_full_of_not_opens h.notFull ho
      rw [if_pos (hzero.2 ho), happ]
      obtain ⟨out, st', rest, hrun, hfa, hst⟩ :=
        ih ⟨st.input, storage, st.matchCnt + found, st.partialSync⟩ (hok hf)
      exact ⟨.data r :: out, st', rest, by simp [hrun], (faithful_forward ho).trans hfa, hst⟩

/-! ## The front runtime -/

/-- What a front synchrocell writes after the merged record: a sync record perhaps, and then every
record. -/
def frontAfter (patterns : List (Pattern V)) (tellsType : Bool) (recs : List (Record V)) :
    List (Effect V) :=
  (if tellsType then [.writeSync (getMergedTypeVariant patterns)] else []) ++ recs.map .write

def writes (out : List (Effect V)) : List (Effect V) :=
  out.filter fun
    | .detrefDestroy _ => false
    | _ => true

theorem slotsOk_dropDetref {before : List (Pattern V)} {ss : List (Slot V)}
    (h : SlotsOk hist before ps ss) :
    SlotsOk hist before ps (ss.map (Slot.map Record.dropDetref)) := by
  induction ps generalizing before ss with
  | nil =>
    cases ss with
    | nil => trivial
    | cons s ss => exact h.elim
  | cons q ps ih =>
    cases ss with
    | nil => exact h.elim
    | cons s ss =>
      refine ⟨?_, ih h.2⟩
      obtain ⟨hs, -⟩ := h
      cases s with
      | dummy => exact hs
      | null => exact hs
      | stored rec =>
        obtain ⟨hf, r, hr, hv⟩ := hs
        exact ⟨hf, r, hr, fun ℓ => (rec.value?_dropDetref ℓ).trans (hv ℓ)⟩

theorem nodeSyncAll_complete (patterns : List (Pattern V)) (tellsType : Bool)
    {land : SyncLanding V} (h : land.state = .complete) (recs : List (Record V)) :
    nodeSyncAll patterns tellsType land recs = some (land, recs.map .write) := by
  induction recs with
  | nil => rfl
  | cons r recs ih => simp [nodeSyncAll, nodeSync, h, ih]

theorem writes_map_write (recs : List (Record V)) : writes (recs.map .write) = recs.map .write :=
  filter_eq_self.2 fun e he => by
    obtain ⟨r, -, rfl⟩ := List.mem_map.1 he
    rfl

theorem nodeSync_run (tellsType : Bool) (land : SyncLanding V) (hstate : land.state ≠ .complete)
    (h : CellOk (p :: ps) hist land.storage land.matchCount) (recs : List (Record V)) :
    ∃ land' out, nodeSyncAll (p :: ps) tellsType land recs = some (land', out) ∧
      (Faithful p ps .write (frontAfter (p :: ps) tellsType) hist recs (writes out) ↔
        Agree p ps (hist ++ recs)) ∧
      (land'.state ≠ .complete →
        CellOk (p :: ps) (hist ++ recs) land'.storage land'.matchCount) := by
  induction recs generalizing hist land with
  | nil =>
    simp only [append_nil]
    exact ⟨land, [], rfl, iff_of_true rfl (agree_of_not_full h.notFull), fun _ => h⟩
  | cons r recs ih =>
    obtain ⟨storage, found, hmatch, hs, hzero, hlen, hok⟩ := matchPatterns_cell h r
    have happ : hist ++ r :: recs = hist ++ [r] ++ recs := by simp
    simp only [nodeSyncAll, nodeSync, hstate, if_false, nodeSyncData, hmatch]
    by_cases ho : ∃ q ∈ p :: ps, Opens hist r q
    · rw [if_neg fun e => hzero.1 e ho]
      by_cases hf : Full (p :: ps) (hist ++ [r])
      · obtain ⟨heq, m, he, hv⟩ := merge_value hs hf
        rw [if_pos (hlen.2 hf), heq, he]
        have hfire := faithful_fire (m := { m with detref := r.detref })
          (frontAfter (p :: ps) tellsType) recs ho hf (fun _ _ => Effect.write.inj) fun ℓ => (by cases ℓ <;> rfl : _ = m.value? ℓ).trans (hv ℓ)
        cases tellsType with
        | false =>
          simp only [Bool.and_false, Bool.false_eq_true, if_false]
          rw [nodeSyncAll_complete _ _ rfl]
          refine ⟨_, _, rfl, ?_, fun hne => absurd rfl hne⟩
          have hw : writes ([Effect.write { m with detref := r.detref }] ++ recs.map .write) =
              .write { m with detref := r.detref } :: frontAfter (p :: ps) false recs :=
            writes_map_write ({ m with detref := r.detref } :: recs)
          rw [hw]
          exact hfire
        | true =>
          simp only [Bool.and_true, decide_true, if_true]
          rw [nodeSyncAll_complete _ _ rfl]
          refine ⟨_, _, rfl, ?_, fun hne => absurd rfl hne⟩
          have hw : writes ([Effect.write { m with detref := r.detref }] ++
              [.writeSync (getMergedTypeVariant (p :: ps))] ++ recs.map .write) =
              .write { m with detref := r.detref } :: frontAfter (p :: ps) true recs := by
            simp [writes, frontAfter]
          rw [hw]
          exact hfire
      · rw [if_neg fun e => hf (hlen.1 e), happ]
        have hok' := hok hf
        obtain ⟨land', out, hrun, hfa, hst⟩ :=
          ih
            ⟨storage.map (Slot.map Record.dropDetref), land.matchCount + found, .partialSync⟩
            (by simp) ⟨slotsOk_dropDetref hok'.slots, hok'.count, hok'.notFull⟩
        refine ⟨land', .detrefDestroy r.detref :: out, ?_, (faithful_store ho hf).trans hfa, hst⟩
        simp [hrun]
    · have hf := not_full_of_not_opens h.notFull ho
      rw [if_pos (hzero.2 ho), happ]
      obtain ⟨land', out, hrun, hfa, hst⟩ :=
        ih ⟨storage, land.matchCount + found, land.state⟩ hstate (hok hf)
      refine ⟨land', .write r :: out, ?_, (faithful_forward ho).trans hfa, hst⟩
      simp [hstate, hrun]

end Runs

/-! ## Both runtimes -/

/-- A synchrocell loses nothing: in both runtimes it ends without a fault, has written what it has
to for `recs`, and as long as it has not fired it holds at most one record for each pattern, the
first that the pattern has accepted. -/
structure LosesNothing (p : Pattern V) (ps : List (Pattern V)) (input : Stream.StreamId)
    (fromStar tellsType : Bool) (recs : List (Record V)) : Prop where
  stream : ∃ out st rest,
    Stream.runEntity (syncBoxTask ⟨p :: ps, input, fromStar⟩) (.init ⟨p :: ps, input, fromStar⟩)
      (recs.map .data) = some (out, st, rest) ∧
    Faithful p ps .data (streamAfter ⟨p :: ps, input, fromStar⟩ input) [] recs (out ++ rest) ∧
    ∀ b ∈ st, SlotsOk recs [] (p :: ps) b.storage
  front : ∃ land out,
    nodeSyncAll (p :: ps) tellsType (.init (p :: ps)) recs = some (land, out) ∧
    Faithful p ps .write (frontAfter (p :: ps) tellsType) [] recs (writes out) ∧
    (land.state ≠ .complete → SlotsOk recs [] (p :: ps) land.storage)

section Both

variable {input : Stream.StreamId} {fromStar tellsType : Bool} {recs : List (Record V)}

theorem agree_of_losesNothing (h : LosesNothing p ps input fromStar tellsType recs) :
    Agree p ps recs := by
  obtain ⟨out, st, rest, hrun, hfa, -⟩ :=
    syncBoxTask_run ⟨p :: ps, input, fromStar⟩ rfl (.init ⟨p :: ps, input, fromStar⟩) cellOk_init
      recs
  obtain ⟨out', st', rest', hrun', hfa', -⟩ := h.stream
  rw [hrun, Option.some.injEq, Prod.mk.injEq, Prod.mk.injEq] at hrun'
  obtain ⟨rfl, rfl, rfl⟩ := hrun'
  exact hfa.1 hfa'

theorem losesNothing_of_agree (h : Agree p ps recs) :
    LosesNothing p ps input fromStar tellsType recs := by
  obtain ⟨out, st, rest, hrun, hfa, hst⟩ :=
    syncBoxTask_run ⟨p :: ps, input, fromStar⟩ rfl (.init ⟨p :: ps, input, fromStar⟩) cellOk_init
      recs
  obtain ⟨land, fout, hfrun, hffa, hfst⟩ :=
    nodeSync_run tellsType (.init (p :: ps)) (by simp [SyncLanding.init]) cellOk_init recs
  exact ⟨⟨out, st, rest, hrun, hfa.2 h, fun b hb => (hst b hb).slots⟩,
    ⟨land, fout, hfrun, hffa.2 h, fun hne => (hfst hne).slots⟩⟩

end Both

/-- **A synchrocell loses nothing if and only if** the patterns whose slots hold a record agree, on
every label that a pattern after the first names, with the last pattern that names it. -/
theorem sync_loses_nothing_iff (p : Pattern V) (ps : List (Pattern V)) (input : Stream.StreamId)
    (fromStar tellsType : Bool) (recs : List (Record V)) :
    LosesNothing p ps input fromStar tellsType recs ↔ Agree p ps recs :=
  ⟨agree_of_losesNothing, losesNothing_of_agree⟩

def onField (name : Int) : Pattern Nat := ⟨⟨[name], [], []⟩, fun _ => true⟩

def fieldRecord (fields : List (Int × Nat)) (h : (fields.map Prod.fst).Nodup) : Record Nat :=
  ⟨⟨fields, h⟩, .empty, .empty, 0, .binary, none⟩

/-- Three patterns with one field each, and a record that matches the last two before one that
matches the first: the merged record has no field 2. -/
theorem shared_record_loses_label : ¬ LosesNothing (onField 0) [onField 1, onField 2] 0 false false
    [fieldRecord [(1, 10), (2, 20)] (by decide), fieldRecord [(0, 30)] (by decide)] := by
  intro h
  have hagree := agree_of_losesNothing h (by decide) (.field 2) ⟨onField 2, by simp, by decide⟩
  exact absurd hagree (by decide)

end SNet.Sync
