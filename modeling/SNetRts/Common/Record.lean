import Mathlib.Data.List.Nodup

/-!
# Data records and variants

The maps, variants and data records of `src/runtime/common` and of `map-template.c`. A map is the
list of its entries in array order, with distinct keys; a variant is three lists of labels. A data
record has fields, tags and binding tags, an interface number and a data mode, and in the front
runtime a stack of detrefs. The system-wide record id is left out: nothing here reads it.
-/

namespace SNet

open List

/-! ## Label maps -/

/-- A map from label numbers, `snet_int_map_t` or `snet_ref_map_t`. -/
structure LabelMap (α : Type*) where
  entries : List (Int × α)
  nodup : (entries.map Prod.fst).Nodup
deriving DecidableEq

namespace LabelMap

variable {α : Type*}

/-- `MapCreate(0)`. -/
def empty : LabelMap α := ⟨[], nodup_nil⟩

/-- `MapGet`, `none` where it fails its assertion. -/
def get? (m : LabelMap α) (name : Int) : Option α := m.entries.lookup name

/-- `MapContains`. -/
def contains (m : LabelMap α) (name : Int) : Bool := (m.get? name).isSome

/-- `MapSet` on the arrays: overwrite in place, or append. -/
def setEntries (name : Int) (v : α) : List (Int × α) → List (Int × α)
  | [] => [(name, v)]
  | e :: es => if e.1 = name then (name, v) :: es else e :: setEntries name v es

theorem mem_keys_setEntries {name k : Int} {v : α} {es : List (Int × α)}
    (h : k ∈ (setEntries name v es).map Prod.fst) : k = name ∨ k ∈ es.map Prod.fst := by
  induction es with
  | nil => exact Or.inl (by simpa [setEntries] using h)
  | cons e es ih =>
    unfold setEntries at h
    split at h
    · rcases mem_cons.1 h with h | h
      · exact Or.inl h
      · exact Or.inr (mem_cons_of_mem _ h)
    · rcases mem_cons.1 h with h | h
      · exact Or.inr (h ▸ mem_cons_self)
      · exact (ih h).imp_right (mem_cons_of_mem _)

theorem nodup_setEntries {name : Int} {v : α} {es : List (Int × α)}
    (h : (es.map Prod.fst).Nodup) : ((setEntries name v es).map Prod.fst).Nodup := by
  induction es with
  | nil => simp [setEntries]
  | cons e es ih =>
    rw [map_cons, nodup_cons] at h
    unfold setEntries
    split
    · rename_i he
      rw [map_cons, nodup_cons]
      exact ⟨he ▸ h.1, h.2⟩
    · rename_i he
      rw [map_cons, nodup_cons]
      refine ⟨fun hmem => ?_, ih h.2⟩
      exact (mem_keys_setEntries hmem).elim he h.1

/-- `MapSet`. -/
def set (m : LabelMap α) (name : Int) (v : α) : LabelMap α :=
  ⟨setEntries name v m.entries, nodup_setEntries m.nodup⟩

theorem lookup_setEntries (name k : Int) (v : α) (es : List (Int × α)) :
    (setEntries name v es).lookup k = if k = name then some v else es.lookup k := by
  induction es with
  | nil =>
    by_cases h : k = name
    · simp [setEntries, h]
    · have hk : (k == name) = false := by simpa using h
      simp [setEntries, lookup_cons, h, hk]
  | cons e es ih =>
    obtain ⟨a, b⟩ := e
    unfold setEntries
    by_cases ha : a = name
    · by_cases h : k = name
      · simp [ha, h]
      · have hk : (k == name) = false := by simpa using h
        simp [ha, h, lookup_cons, hk]
    · rw [if_neg ha]
      by_cases h : k = a
      · subst h
        simp [ha]
      · have hk : (k == a) = false := by simpa using h
        simp [lookup_cons, hk, ih]

@[simp] theorem get?_set (m : LabelMap α) (name k : Int) (v : α) :
    (m.set name v).get? k = if k = name then some v else m.get? k :=
  lookup_setEntries name k v m.entries

@[simp] theorem get?_empty (k : Int) : (empty : LabelMap α).get? k = none := rfl

/-- Sets in `dst` the entries of `src` whose names pass `keep`, in the order of the map. -/
def copyWhere (keep : Int → Bool) (src dst : LabelMap α) : LabelMap α :=
  src.entries.foldl (fun m e => if keep e.1 then m.set e.1 e.2 else m) dst

theorem get?_foldl_set {keep : Int → Bool} {es : List (Int × α)} (h : (es.map Prod.fst).Nodup)
    (dst : LabelMap α) (k : Int) :
    (es.foldl (fun m e => if keep e.1 then m.set e.1 e.2 else m) dst).get? k =
      if keep k then (es.lookup k).or (dst.get? k) else dst.get? k := by
  induction es generalizing dst with
  | nil => simp
  | cons e es ih =>
    obtain ⟨a, b⟩ := e
    rw [map_cons, nodup_cons] at h
    rw [foldl_cons, ih h.2]
    by_cases hk : k = a
    · subst hk
      have hno : es.lookup k = none := by
        refine lookup_eq_none_iff.2 fun p hp => ?_
        have hne : k ≠ p.1 := fun e => h.1 (List.mem_map.2 ⟨p, hp, e.symm⟩)
        simpa using hne
      by_cases hkeep : keep k <;> simp [hkeep, hno]
    · have hk' : (k == a) = false := by simpa using hk
      by_cases hkeep : keep a <;> simp [hkeep, lookup_cons, hk', hk]

theorem get?_copyWhere (keep : Int → Bool) (src dst : LabelMap α) (k : Int) :
    (copyWhere keep src dst).get? k =
      if keep k then (src.get? k).or (dst.get? k) else dst.get? k :=
  get?_foldl_set src.nodup dst k

end LabelMap

/-! ## Variants and records -/

/-- `snet_variant_t`. -/
structure Variant where
  fields : List Int
  tags : List Int
  btags : List Int
deriving DecidableEq, Repr

namespace Variant

/-- `SNetVariantHasField`. -/
def hasField (v : Variant) (name : Int) : Bool := v.fields.contains name

/-- `SNetVariantHasTag`. -/
def hasTag (v : Variant) (name : Int) : Bool := v.tags.contains name

/-- `SNetVariantHasBTag`. -/
def hasBTag (v : Variant) (name : Int) : Bool := v.btags.contains name

/-- `SNetVariantCreateEmpty`. -/
def createEmpty : Variant := ⟨[], [], []⟩

/-- `IntlistAddAll` without overwriting. -/
def intlistAddAll (dst src : List Int) : List Int :=
  src.foldl (fun dst name => if dst.contains name then dst else dst ++ [name]) dst

/-- `SNetVariantAddAll` without overwriting. -/
def addAll (dst src : Variant) : Variant :=
  ⟨intlistAddAll dst.fields src.fields, intlistAddAll dst.tags src.tags,
    intlistAddAll dst.btags src.btags⟩

end Variant

/-- `snet_record_mode_t`. -/
inductive DataMode where
  | textual
  | binary
deriving DecidableEq, Repr

abbrev DetrefId := Nat

/-- `data_rec_t`; fields have values of type `V`. -/
structure Record (V : Type) where
  fields : LabelMap V
  tags : LabelMap Int
  btags : LabelMap Int
  interfaceId : Int
  mode : DataMode
  /-- The stack of detrefs, top first; `none` where there is no stack. -/
  detref : Option (List DetrefId)
deriving DecidableEq

namespace Record

variable {V : Type}

/-- `SNetRecHasField`. -/
def hasField (r : Record V) (name : Int) : Bool := r.fields.contains name

/-- `SNetRecHasTag`. -/
def hasTag (r : Record V) (name : Int) : Bool := r.tags.contains name

/-- `SNetRecHasBTag`. -/
def hasBTag (r : Record V) (name : Int) : Bool := r.btags.contains name

/-- `SNetRecPatternMatches`. -/
def patternMatches (pat : Variant) (r : Record V) : Bool :=
  pat.fields.all r.hasField && pat.tags.all r.hasTag && pat.btags.all r.hasBTag

def dropDetref (r : Record V) : Record V := { r with detref := none }

end Record

/-- A guard expression as `SNetEevaluateBool` evaluates it. -/
abbrev Guard (V : Type) := Record V → Bool

/-- A pattern with its guard, as the lists of both are traversed together. -/
structure Pattern (V : Type) where
  variant : Variant
  guard : Guard V

def Pattern.accepts {V : Type} (p : Pattern V) (r : Record V) : Bool :=
  r.patternMatches p.variant && p.guard r

/-! ## Labels -/

/-- The labels a synchrocell merges: those of fields and of tags. -/
inductive Label where
  | field (name : Int)
  | tag (name : Int)
deriving DecidableEq, Repr

variable {V : Type}

def Record.value? (r : Record V) : Label → Option (V ⊕ Int)
  | .field name => (r.fields.get? name).map Sum.inl
  | .tag name => (r.tags.get? name).map Sum.inr

def Variant.names (v : Variant) : Label → Bool
  | .field name => v.hasField name
  | .tag name => v.hasTag name

@[simp] theorem Record.value?_dropDetref (r : Record V) (ℓ : Label) :
    r.dropDetref.value? ℓ = r.value? ℓ := by
  cases ℓ <;> rfl

theorem Record.isSome_value?_of_matches {r : Record V} {v : Variant} {ℓ : Label}
    (h : r.patternMatches v = true) (hn : v.names ℓ = true) : (r.value? ℓ).isSome = true := by
  simp only [patternMatches, Bool.and_eq_true, all_eq_true] at h
  obtain ⟨⟨hf, ht⟩, -⟩ := h
  cases ℓ with
  | field name =>
    have := hf name (by simpa [Variant.names, Variant.hasField] using hn)
    simpa [value?, hasField, LabelMap.contains] using this
  | tag name =>
    have := ht name (by simpa [Variant.names, Variant.hasTag] using hn)
    simpa [value?, hasTag, LabelMap.contains] using this

end SNet
