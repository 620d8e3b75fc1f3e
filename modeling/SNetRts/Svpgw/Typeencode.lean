import SNetRts.Lib.Compact
import Mathlib.Data.Finset.Card
import Mathlib.Data.Finset.Dedup
import Mathlib.Data.List.Nodup
import Mathlib.Algebra.Group.Nat.Defs
import Mathlib.Algebra.Group.Int.Defs

/-!
# Type encodings of the graph walker

The label vectors and variants of `svpgw/src/core/typeencode.utc`, and how a record's variant is matched
with a pattern's. `NULL` vectors are `none`. A label is an `int`; `TENC_VEC_UNSET_ITEM_VAL` marks an entry
whose label was taken away, and no name has that value.

A match is told by a signed count and a flag. `variantsMatch_eq` says once what they come out as.
-/

namespace SNet.Svpgw

open List

/-- `snet_vector_t *` -/
abbrev Vector := Option (List Int)

namespace Vector

/-- The items; none behind `NULL`. -/
def items (v : Vector) : List Int := v.getD []

/-- `SNetTencVectorGetSize`, with the `0` that the callers put for `NULL` -/
def size (v : Vector) : Nat := v.items.length

/-- `SNetTencVectorContainsItem`, without the index -/
def containsItem (v : List Int) (itemVal : Int) : Bool := v.contains itemVal

/-- `TENC_VEC_UNSET_ITEM_VAL` -/
def unsetItemVal : Int := -1

/-- `SNetTencVectorRemoveUnsetEntries`; an entry that stays where it is is not moved. -/
def removeUnsetEntries (v : Vector) : Vector := v.map fun l => Lib.compact (· ≠ unsetItemVal) l 0

/-- `variant_add_item`, with whether the name is new -/
def addItem (itemsVec : Vector) (name : Int) : Vector × Bool :=
  match itemsVec with
  | none => (some [name], true)
  | some l => if containsItem l name then (some l, false) else (some (l ++ [name]), true)

/-- `variant_remove_item` with `mark_only`, with the index of the name; `none` for `false` -/
def removeItem (itemsVec : Vector) (name : Int) : Vector × Option Nat :=
  match itemsVec with
  | none => (none, none)
  | some l =>
    match l.idxOf? name with
    | none => (some l, none)
    | some idx => (some (l.set idx unsetItemVal), some idx)

@[simp] theorem items_none : items none = [] := rfl

@[simp] theorem items_some (l : List Int) : items (some l) = l := rfl

theorem items_removeUnsetEntries (v : Vector) :
    v.removeUnsetEntries.items = v.items.filter (· ≠ unsetItemVal) := by
  cases v with
  | none => rfl
  | some l => exact Lib.compact_eq (by simp)

theorem eq_some_of_mem {v : Vector} {name : Int} (h : name ∈ v.items) : v = some v.items := by
  cases v with
  | none => cases h
  | some l => rfl

theorem addItem_of_mem {v : Vector} {name : Int} (h : name ∈ v.items) : v.addItem name = (v, false) := by
  cases v with
  | none => cases h
  | some l => simp [addItem, containsItem, show name ∈ l from h]

theorem addItem_of_notMem {v : Vector} {name : Int} (h : name ∉ v.items) :
    v.addItem name = (some (v.items ++ [name]), true) := by
  cases v with
  | none => rfl
  | some l => simp [addItem, containsItem, show name ∉ l from h]

theorem removeItem_of_notMem {v : Vector} {name : Int} (h : name ∉ v.items) : v.removeItem name = (v, none) := by
  cases v with
  | none => rfl
  | some l => simp [removeItem, idxOf?_eq_none_iff.2 (show name ∉ l from h)]

theorem idxOf?_middle {pre post : List Int} {name : Int} (h : name ∉ pre) :
    (pre ++ name :: post).idxOf? name = some pre.length := by
  induction pre with
  | nil => simp [idxOf?_cons]
  | cons x pre ih =>
    rw [mem_cons, not_or] at h
    rw [cons_append, idxOf?_cons, ih h.2]
    simp [Ne.symm h.1]

theorem removeItem_middle {pre post : List Int} {name : Int} (h : name ∉ pre) :
    removeItem (some (pre ++ name :: post)) name =
      (some (pre ++ unsetItemVal :: post), some pre.length) := by
  simp only [removeItem, idxOf?_middle h]
  rw [set_append_right _ _ (Nat.le_refl _), Nat.sub_self, set_cons_zero]

/-- `SNetTencVectorCompare` -/
def compare : Vector → Vector → Nat
  | some vec1, some vec2 =>
    let (vec1, vec2) := if vec2.length < vec1.length then (vec2, vec1) else (vec1, vec2)
    vec1.countP (containsItem vec2)
  | _, _ => 0

def labels (v : Vector) : Finset Int := v.items.toFinset

def Distinct (v : Vector) : Prop := v.items.Nodup

instance (v : Vector) : Decidable (Distinct v) := inferInstanceAs (Decidable (List.Nodup _))

theorem card_labels {v : Vector} (h : v.Distinct) : v.labels.card = v.size := toFinset_card_of_nodup h

theorem countP_contains {l m : List Int} (h : l.Nodup) :
    l.countP (containsItem m) = (l.toFinset ∩ m.toFinset).card := by
  have hf : l.toFinset ∩ m.toFinset = (l.filter (containsItem m)).toFinset := by
    ext x
    simp [containsItem]
  rw [hf, toFinset_card_of_nodup (h.filter _), countP_eq_length_filter]

theorem compare_eq {v w : Vector} (hv : v.Distinct) (hw : w.Distinct) :
    v.compare w = (v.labels ∩ w.labels).card := by
  cases v with
  | none => simp [compare, labels, items]
  | some l =>
    cases w with
    | none => simp [compare, labels, items]
    | some m =>
      unfold compare labels items
      by_cases h : m.length < l.length
      · simp only [h, if_true, Option.getD_some]
        rw [countP_contains (show m.Nodup from hw), Finset.inter_comm]
      · simp only [h, if_false, Option.getD_some]
        exact countP_contains (show l.Nodup from hv)

end Vector

/-- `snet_variantencoding_t` -/
structure VariantEncoding where
  fields : Vector
  tags : Vector
  btags : Vector
deriving DecidableEq, Repr

namespace VariantEncoding

variable (r p : VariantEncoding)

/-- `SNetTencVariantInitCopy`; the binding tags are copied when there are tags, and `none` where the vector to
copy is `NULL`. -/
def initCopy : Option VariantEncoding := do
  let btags ←
    match r.tags with
    | none => some none
    | some _ => r.btags.map some
  some { fields := r.fields, tags := r.tags, btags := btags }

/-- `venc_items_total_cnt` of `SNetTencVariantsMatch` -/
def itemsTotalCnt : Nat := r.btags.size + r.tags.size + r.fields.size

/-- `SNetTencVariantsMatch`: the count, and whether `*matched_ident` is set. -/
def variantsMatch : Int × Bool :=
  if r.btags.size ≠ p.btags.size then (0, false)
  else if r.btags.size ≠ r.btags.compare p.btags then (0, false)
  else
    let matchCnt : Int := r.btags.size + r.tags.compare p.tags + r.fields.compare p.fields
    if matchCnt ≠ r.itemsTotalCnt then
      (if matchCnt ≠ p.itemsTotalCnt then 0 else matchCnt, p.itemsTotalCnt == 0)
    else if matchCnt = 0 then (matchCnt, true)
    else if p.itemsTotalCnt > r.itemsTotalCnt then (matchCnt - p.itemsTotalCnt, false)
    else (matchCnt, false)

/-! ## What a pattern is for -/

/-- The labels of a record or pattern variant, with what every variant of the code keeps to: the labels
within a vector are distinct, and an `int` counts them. -/
structure WellFormed : Prop where
  fields : r.fields.Distinct
  tags : r.tags.Distinct
  btags : r.btags.Distinct
  count : r.itemsTotalCnt < 2 ^ 31

instance : Decidable r.WellFormed :=
  decidable_of_iff (r.fields.Distinct ∧ r.tags.Distinct ∧ r.btags.Distinct ∧ r.itemsTotalCnt < 2 ^ 31)
    ⟨fun ⟨hf, ht, hb, hc⟩ => ⟨hf, ht, hb, hc⟩, fun h => ⟨h.fields, h.tags, h.btags, h.count⟩⟩

/-- The record has every field and tag of the pattern, and exactly its binding tags. -/
def Accepts : Prop :=
  p.fields.labels ⊆ r.fields.labels ∧ p.tags.labels ⊆ r.tags.labels ∧ p.btags.labels = r.btags.labels

/-- The pattern has every field and tag of the record and more, with the same binding tags. -/
def Exceeds : Prop :=
  r.fields.labels ⊆ p.fields.labels ∧ r.tags.labels ⊆ p.tags.labels ∧ p.btags.labels = r.btags.labels ∧
    ¬ r.Accepts p

instance : Decidable (r.Accepts p) :=
  inferInstanceAs (Decidable (p.fields.labels ⊆ r.fields.labels ∧ p.tags.labels ⊆ r.tags.labels ∧
    p.btags.labels = r.btags.labels))

instance : Decidable (r.Exceeds p) :=
  inferInstanceAs (Decidable (r.fields.labels ⊆ p.fields.labels ∧ r.tags.labels ⊆ p.tags.labels ∧
    p.btags.labels = r.btags.labels ∧ ¬ r.Accepts p))

variable {r p}

theorem Exceeds.not_accepts (h : r.Exceeds p) : ¬ r.Accepts p := h.2.2.2

/-! ## What a match says -/

theorem WellFormed.itemsTotalCnt_eq (h : r.WellFormed) :
    r.itemsTotalCnt = r.btags.labels.card + r.tags.labels.card + r.fields.labels.card := by
  rw [itemsTotalCnt, Vector.card_labels h.btags, Vector.card_labels h.tags, Vector.card_labels h.fields]

theorem labels_eq_iff {s t : Finset Int} : s.card = t.card ∧ s.card = (s ∩ t).card ↔ t = s := by
  constructor
  · rintro ⟨hst, hi⟩
    have hs : s ∩ t = s := Finset.eq_of_subset_of_card_le Finset.inter_subset_left (by omega)
    exact (Finset.eq_of_subset_of_card_le (Finset.inter_eq_left.1 hs) (by omega)).symm
  · rintro rfl
    simp

theorem subset_iff_card {s t : Finset Int} : s ⊆ t ↔ (s ∩ t).card = s.card := by
  rw [← Finset.inter_eq_left]
  constructor
  · intro h
    rw [h]
  · intro h
    exact Finset.eq_of_subset_of_card_le Finset.inter_subset_left (by omega)

theorem btags_tests (hr : r.WellFormed) (hp : p.WellFormed) :
    (r.btags.size = p.btags.size ∧ r.btags.size = r.btags.compare p.btags) ↔
      p.btags.labels = r.btags.labels := by
  rw [← Vector.card_labels hr.btags, ← Vector.card_labels hp.btags, Vector.compare_eq hr.btags hp.btags]
  exact labels_eq_iff

theorem Accepts.count_le (h : r.Accepts p) (hr : r.WellFormed) (hp : p.WellFormed) :
    p.itemsTotalCnt ≤ r.itemsTotalCnt := by
  obtain ⟨hf, ht, hb⟩ := h
  have := Finset.card_le_card hf
  have := Finset.card_le_card ht
  rw [hr.itemsTotalCnt_eq, hp.itemsTotalCnt_eq, hb]
  omega

theorem matchCnt_le (hr : r.WellFormed) (hp : p.WellFormed) (hb : p.btags.labels = r.btags.labels) :
    r.btags.size + r.tags.compare p.tags + r.fields.compare p.fields ≤ p.itemsTotalCnt ∧
    r.btags.size + r.tags.compare p.tags + r.fields.compare p.fields ≤ r.itemsTotalCnt := by
  rw [hr.itemsTotalCnt_eq, hp.itemsTotalCnt_eq, ← Vector.card_labels hr.btags, hb,
    Vector.compare_eq hr.tags hp.tags, Vector.compare_eq hr.fields hp.fields]
  have := Finset.card_le_card (@Finset.inter_subset_left _ _ r.tags.labels p.tags.labels)
  have := Finset.card_le_card (@Finset.inter_subset_right _ _ r.tags.labels p.tags.labels)
  have := Finset.card_le_card (@Finset.inter_subset_left _ _ r.fields.labels p.fields.labels)
  have := Finset.card_le_card (@Finset.inter_subset_right _ _ r.fields.labels p.fields.labels)
  constructor <;> omega

theorem matchCnt_eq_iff (hr : r.WellFormed) (hp : p.WellFormed) (hb : p.btags.labels = r.btags.labels) :
    (r.btags.size + r.tags.compare p.tags + r.fields.compare p.fields = p.itemsTotalCnt ↔ r.Accepts p) ∧
    (r.btags.size + r.tags.compare p.tags + r.fields.compare p.fields = r.itemsTotalCnt ↔
      r.fields.labels ⊆ p.fields.labels ∧ r.tags.labels ⊆ p.tags.labels) := by
  rw [hr.itemsTotalCnt_eq, hp.itemsTotalCnt_eq, ← Vector.card_labels hr.btags, hb,
    Vector.compare_eq hr.tags hp.tags, Vector.compare_eq hr.fields hp.fields]
  have htr := Finset.card_le_card (@Finset.inter_subset_left _ _ r.tags.labels p.tags.labels)
  have htp := Finset.card_le_card (@Finset.inter_subset_right _ _ r.tags.labels p.tags.labels)
  have hfr := Finset.card_le_card (@Finset.inter_subset_left _ _ r.fields.labels p.fields.labels)
  have hfp := Finset.card_le_card (@Finset.inter_subset_right _ _ r.fields.labels p.fields.labels)
  constructor
  · unfold Accepts
    rw [subset_iff_card, subset_iff_card, Finset.inter_comm p.fields.labels, Finset.inter_comm p.tags.labels]
    constructor
    · intro h
      exact ⟨by omega, by omega, hb⟩
    · rintro ⟨hf, ht, -⟩
      omega
  · rw [subset_iff_card, subset_iff_card]
    constructor
    · intro h
      exact ⟨by omega, by omega⟩
    · rintro ⟨hf, ht⟩
      omega

/-- What a match comes out as: the labels of a pattern that accepts, less than nothing for a pattern that
has more labels than the record, and the identity for an empty record whatever the pattern. -/
theorem variantsMatch_eq (hr : r.WellFormed) (hp : p.WellFormed) :
    r.variantsMatch p =
      if r.Accepts p then ((p.itemsTotalCnt : Int), p.itemsTotalCnt == 0)
      else if r.Exceeds p then
        if r.itemsTotalCnt = 0 then (0, true) else ((r.itemsTotalCnt : Int) - p.itemsTotalCnt, false)
      else (0, false) := by
  by_cases hb : p.btags.labels = r.btags.labels
  · obtain ⟨hsz, hcmp⟩ := (btags_tests hr hp).2 hb
    obtain ⟨hpc, hrc⟩ := matchCnt_eq_iff hr hp hb
    generalize hm : r.btags.size + r.tags.compare p.tags + r.fields.compare p.fields = m at hpc hrc
    have hmi : ((r.btags.size : Int) + r.tags.compare p.tags + r.fields.compare p.fields) = (m : Int) := by
      omega
    have hex : r.Exceeds p ↔ m = r.itemsTotalCnt ∧ m ≠ p.itemsTotalCnt := by
      rw [hrc, Ne, hpc]
      unfold Exceeds
      tauto
    obtain ⟨hle, hle'⟩ : m ≤ p.itemsTotalCnt ∧ m ≤ r.itemsTotalCnt := by
      rw [← hm]
      exact matchCnt_le hr hp hb
    unfold variantsMatch
    simp only [hmi, ← hpc, hex, Int.natCast_inj, ne_eq]
    rw [if_neg (by omega), if_neg (by omega)]
    by_cases hmp : m = p.itemsTotalCnt
    · by_cases hmr : m = r.itemsTotalCnt
      · rcases Nat.eq_zero_or_pos m with h0 | h0
        · simp [← hmr, ← hmp, h0]
        · simp [← hmr, ← hmp, h0.ne']
      · simp [hmr, ← hmp]
    · have hp0 : p.itemsTotalCnt ≠ 0 := by omega
      by_cases hmr : m = r.itemsTotalCnt
      · rcases Nat.eq_zero_or_pos m with h0 | h0
        · simp [← hmr, h0, hp0.symm]
        · have hlt : m < p.itemsTotalCnt := by omega
          simp [hmp, ← hmr, h0.ne', hlt]
      · simp [hmp, hmr, hp0]
  · have hna : ¬ r.Accepts p := fun h => hb h.2.2
    have hne : ¬ r.Exceeds p := fun h => hb h.2.2.1
    rw [if_neg hna, if_neg hne]
    unfold variantsMatch
    by_cases hsz : r.btags.size = p.btags.size
    · have hcmp : r.btags.size ≠ r.btags.compare p.btags := fun h => hb ((btags_tests hr hp).1 ⟨hsz, h⟩)
      simp [hsz, hsz ▸ hcmp]
    · simp [hsz]

theorem Exceeds.count_lt (h : r.Exceeds p) (hr : r.WellFormed) (hp : p.WellFormed) :
    r.itemsTotalCnt < p.itemsTotalCnt := by
  obtain ⟨hf, ht, hb, hna⟩ := h
  obtain ⟨hpc, hrc⟩ := matchCnt_eq_iff hr hp hb
  have hle := (matchCnt_le hr hp hb).1
  have heq := hrc.2 ⟨hf, ht⟩
  have hne := mt hpc.1 hna
  omega

theorem Accepts.variantsMatch (h : r.Accepts p) (hr : r.WellFormed) (hp : p.WellFormed) :
    r.variantsMatch p = ((p.itemsTotalCnt : Int), p.itemsTotalCnt == 0) := by
  rw [variantsMatch_eq hr hp, if_pos h]

theorem variantsMatch_pos_iff (hr : r.WellFormed) (hp : p.WellFormed) :
    0 < (r.variantsMatch p).1 ↔ r.Accepts p ∧ p.itemsTotalCnt ≠ 0 := by
  rw [variantsMatch_eq hr hp]
  by_cases ha : r.Accepts p
  · simp [ha]
    omega
  · by_cases he : r.Exceeds p
    · have := he.count_lt hr hp
      simp only [ha, he, if_true, if_false, false_and, iff_false]
      split <;> dsimp only <;> omega
    · simp [ha, he]

theorem variantsMatch_neg_iff (hr : r.WellFormed) (hp : p.WellFormed) :
    (r.variantsMatch p).1 < 0 ↔ r.Exceeds p ∧ r.itemsTotalCnt ≠ 0 := by
  rw [variantsMatch_eq hr hp]
  by_cases ha : r.Accepts p
  · simp only [ha, if_true, iff_false_intro (fun h : r.Exceeds p => h.not_accepts ha), false_and, iff_false]
    omega
  · by_cases he : r.Exceeds p
    · have := he.count_lt hr hp
      simp only [ha, he, if_true, if_false, true_and]
      split <;> dsimp only <;> omega
    · simp [ha, he]

theorem variantsMatch_ident_iff (hr : r.WellFormed) (hp : p.WellFormed) :
    (r.variantsMatch p).2 = true ↔
      r.Accepts p ∧ p.itemsTotalCnt = 0 ∨ r.Exceeds p ∧ r.itemsTotalCnt = 0 := by
  rw [variantsMatch_eq hr hp]
  by_cases ha : r.Accepts p
  · simp [ha, iff_false_intro (fun h : r.Exceeds p => h.not_accepts ha)]
  · by_cases he : r.Exceeds p
    · simp only [ha, he, if_true, if_false, true_and, false_and, false_or]
      split <;> simp_all
    · simp [ha, he]

theorem variantsMatch_test_iff (hr : r.WellFormed) (hp : p.WellFormed) :
    ¬ ((r.variantsMatch p).1 = 0 ∧ (r.variantsMatch p).2 = false) ↔ r.Accepts p ∨ r.Exceeds p := by
  have hpos := variantsMatch_pos_iff hr hp
  have hneg := variantsMatch_neg_iff hr hp
  have hid := variantsMatch_ident_iff hr hp
  rw [← Bool.not_eq_true, hid]
  by_cases h0 : (r.variantsMatch p).1 = 0
  · simp only [h0, lt_irrefl, false_iff, not_and, not_not] at hpos hneg
    simp only [h0, true_and, not_not]
    constructor
    · rintro (⟨ha, -⟩ | ⟨he, -⟩)
      · exact Or.inl ha
      · exact Or.inr he
    · rintro (ha | he)
      · exact Or.inl ⟨ha, hpos ha⟩
      · exact Or.inr ⟨he, hneg he⟩
  · simp only [h0, false_and, not_false_eq_true, true_iff]
    rcases lt_or_gt_of_ne h0 with h | h
    · exact Or.inr (hneg.1 h).1
    · exact Or.inl (hpos.1 h).1

theorem variantsMatch_bound (hr : r.WellFormed) (hp : p.WellFormed) :
    -2 ^ 31 < (r.variantsMatch p).1 ∧ (r.variantsMatch p).1 < 2 ^ 31 := by
  have := hr.count
  have := hp.count
  rw [variantsMatch_eq hr hp]
  split_ifs <;> dsimp only <;> omega

end VariantEncoding

end SNet.Svpgw
