import SNetRts.Common.ListRuns
import SNetRts.Lib.Run
import Mathlib.Data.List.Perm.Basic

/-!
# Variants

`common/variant.c`. A variant has a list of labels of each kind. `SNetVariantRemove*`, and `IntlistAddAll`
where it overwrites, call `Remove` of the list template with a label; `Remove` takes a position. A result of
`none` is that of the list template.
-/

namespace SNet

open Lib List

inductive LabelKind where
  | field
  | tag
  | btag
deriving DecidableEq

/-- `snet_variant_t` -/
structure SNetVariant where
  fields : SNetList Int
  tags : SNetList Int
  btags : SNetList Int

/-- A round of `IntlistAddAll`. -/
def intlistAdd (ow : Bool) (dst : SNetList Int) (name : Int) : Option (SNetList Int) := do
  let cont ← dst.contains (· == ·) name
  let dst ← if cont && ow then (dst.remove name).map Prod.snd else some dst
  if !cont || ow then dst.appendEnd name else some dst

/-- `IntlistAddAll`, where the two lists are different ones. -/
def intlistAddAll (dst src : SNetList Int) (ow : Bool) : Option (SNetList Int) := do
  let dst ← src.forEach (fun dst name => (dst.bind (intlistAdd ow · name), true)) (some dst)
  dst

namespace SNetVariant

def list (var : SNetVariant) : LabelKind → SNetList Int
  | .field => var.fields
  | .tag => var.tags
  | .btag => var.btags

def setList (var : SNetVariant) : LabelKind → SNetList Int → SNetVariant
  | .field, fields => { var with fields }
  | .tag, tags => { var with tags }
  | .btag, btags => { var with btags }

/-- `SNetVariantAddAll` -/
def addAll (dst src : SNetVariant) (overwrite : Bool) : Option SNetVariant := do
  let fields ← intlistAddAll dst.fields src.fields overwrite
  let tags ← intlistAddAll dst.tags src.tags overwrite
  let btags ← intlistAddAll dst.btags src.btags overwrite
  return { fields, tags, btags }

def add (var : SNetVariant) (kind : LabelKind) (name : Int) : Option SNetVariant :=
  ((var.list kind).appendEnd name).map (var.setList kind)

def remove (var : SNetVariant) (kind : LabelKind) (name : Int) : Option SNetVariant :=
  ((var.list kind).remove name).map fun p => var.setList kind p.2

def has (var : SNetVariant) (kind : LabelKind) (name : Int) : Option Bool :=
  (var.list kind).contains (· == ·) name

/-- `SNetVariantAddTag` -/
def addTag (var : SNetVariant) (name : Int) : Option SNetVariant := var.add .tag name

/-- `SNetVariantRemoveTag` -/
def removeTag (var : SNetVariant) (name : Int) : Option SNetVariant := var.remove .tag name

/-- `SNetVariantHasTag` -/
def hasTag (var : SNetVariant) (name : Int) : Option Bool := var.has .tag name

/-- `SNetVariantAddBTag` -/
def addBTag (var : SNetVariant) (name : Int) : Option SNetVariant := var.add .btag name

/-- `SNetVariantRemoveBTag` -/
def removeBTag (var : SNetVariant) (name : Int) : Option SNetVariant := var.remove .btag name

/-- `SNetVariantHasBTag` -/
def hasBTag (var : SNetVariant) (name : Int) : Option Bool := var.has .btag name

/-- `SNetVariantAddField` -/
def addField (var : SNetVariant) (name : Int) : Option SNetVariant := var.add .field name

/-- `SNetVariantRemoveField` -/
def removeField (var : SNetVariant) (name : Int) : Option SNetVariant := var.remove .field name

/-- `SNetVariantHasField` -/
def hasField (var : SNetVariant) (name : Int) : Option Bool := var.has .field name

/-! ## What they are for -/

/-- The calls that change a variant. -/
inductive Op where
  | addAll (src : SNetVariant) (overwrite : Bool)
  | addField (name : Int)
  | addTag (name : Int)
  | addBTag (name : Int)
  | removeField (name : Int)
  | removeTag (name : Int)
  | removeBTag (name : Int)

def exec (var : SNetVariant) : Op → Option SNetVariant
  | .addAll src overwrite => var.addAll src overwrite
  | .addField name => var.addField name
  | .addTag name => var.addTag name
  | .addBTag name => var.addBTag name
  | .removeField name => var.removeField name
  | .removeTag name => var.removeTag name
  | .removeBTag name => var.removeBTag name

def step (var : SNetVariant) (op : Op) : Outcome SNetVariant := .ofOption (var.exec op)

def labels (var : SNetVariant) (kind : LabelKind) : List Int := (var.list kind).elements.getD []

/-- The three lists have been made by the functions of the list template. -/
def Built (var : SNetVariant) : Prop := ∀ kind, SNetList.Reachable (· == ·) (var.list kind)

/-- The label is among those of the kind and no other one is new. -/
def Added (var var' : SNetVariant) (kind : LabelKind) (name : Int) : Prop :=
  (∀ n, n ∈ var'.labels kind ↔ n ∈ var.labels kind ∨ n = name) ∧
    ∀ other, other ≠ kind → var'.labels other = var.labels other

/-- The label is not among those of the kind any more, and no other one has gone. -/
def Removed (var var' : SNetVariant) (kind : LabelKind) (name : Int) : Prop :=
  (∀ n, n ∈ var'.labels kind ↔ n ∈ var.labels kind ∧ n ≠ name) ∧
    ∀ other, other ≠ kind → var'.labels other = var.labels other

def Meets (var var' : SNetVariant) : Op → Prop
  | .addAll src _ => ∀ kind,
    (∀ name, name ∈ var'.labels kind ↔ name ∈ var.labels kind ∨ name ∈ src.labels kind) ∧
      ∀ name, (var'.labels kind).count name ≤ max 1 ((var.labels kind).count name)
  | .addField name => Added var var' .field name
  | .addTag name => Added var var' .tag name
  | .addBTag name => Added var var' .btag name
  | .removeField name => Removed var var' .field name
  | .removeTag name => Removed var var' .tag name
  | .removeBTag name => Removed var var' .btag name

def InPlace (xs : List Int) (name : Int) : Prop := 0 ≤ name ∧ xs[name.toNat]? = some name

/-- The labels after a round of `IntlistAddAll` that overwrites a label in place. -/
def addRound (ow : Bool) (xs : List Int) (name : Int) : List Int :=
  if name ∈ xs then if ow then xs.eraseIdx name.toNat ++ [name] else xs else xs ++ [name]

/-- Each label that is overwritten is in place when its round comes. -/
def AddsInPlace (ow : Bool) : List Int → List Int → Prop
  | _, [] => True
  | xs, name :: names => (ow = true → name ∈ xs → InPlace xs name) ∧ AddsInPlace ow (addRound ow xs name) names

def RemovesInPlace (var : SNetVariant) (kind : LabelKind) (name : Int) : Prop :=
  InPlace (var.labels kind) name ∧ (var.labels kind).count name = 1

/-- Labels for which `Remove` is called are in place. -/
def Ok (var : SNetVariant) : Op → Prop
  | .addAll src overwrite => src.Built ∧ ∀ kind, AddsInPlace overwrite (var.labels kind) (src.labels kind)
  | .addField _ | .addTag _ | .addBTag _ => True
  | .removeField name => RemovesInPlace var .field name
  | .removeTag name => RemovesInPlace var .tag name
  | .removeBTag name => RemovesInPlace var .btag name

/-! ## One list -/

section Lists

variable {l src : SNetList Int} {s t : Nat} {xs names : List Int} {name : Int} {ow : Bool}

theorem contains_eq (h : l.Holds s xs) (name : Int) :
    l.contains (· == ·) name = some (decide (name ∈ xs)) := by
  rw [h.contains]
  congr 1
  rw [Bool.eq_iff_iff, any_eq_true, decide_eq_true_eq]
  constructor
  · rintro ⟨n, hn, heq⟩
    rwa [← beq_iff_eq.1 heq]
  · intro hmem
    exact ⟨name, hmem, beq_self_eq_true name⟩

theorem remove_eq (h : l.Holds s xs) {i : Nat} (hi : i < xs.length) :
    ∃ r l' t, l.remove i = some (r, l') ∧ l'.Holds t (xs.eraseIdx i) := by
  have hop : SNetList.execSeq (· == ·) xs (.remove i) = some (.val xs[i], xs.eraseIdx i) := by
    rw [SNetList.execSeq, if_pos (Int.natCast_nonneg i), Int.toNat_natCast, getElem?_eq_getElem hi]
    rfl
  obtain ⟨r', l', t, hexec, hholds, -⟩ := h.exec hop
  rw [SNetList.exec, Option.map_eq_some_iff] at hexec
  obtain ⟨⟨r, l''⟩, hremove, heq⟩ := hexec
  cases heq
  exact ⟨r, l', t, hremove, hholds⟩

theorem remove_eq_none (h : l.Holds s xs) {i : Int} (hi : ¬ (0 ≤ i ∧ i < xs.length)) : l.remove i = none := by
  rw [SNetList.remove, if_neg]
  rwa [h.used]

theorem InPlace.lt (h : InPlace xs name) : name.toNat < xs.length := (List.getElem?_eq_some_iff.1 h.2).1

theorem InPlace.perm (h : InPlace xs name) : (name :: xs.eraseIdx name.toNat).Perm xs := by
  obtain ⟨hlt, hget⟩ := List.getElem?_eq_some_iff.1 h.2
  have hperm := getElem_cons_eraseIdx_perm hlt
  rwa [hget] at hperm

theorem intlistAdd_eq (h : l.Holds s xs) (hin : ow = true → name ∈ xs → InPlace xs name) :
    ∃ l' t, intlistAdd ow l name = some l' ∧ l'.Holds t (addRound ow xs name) := by
  rw [intlistAdd, contains_eq h, addRound]
  by_cases hmem : name ∈ xs
  · rw [if_pos hmem]
    cases ow with
    | false => exact ⟨l, s, by simp [hmem], h⟩
    | true =>
      have hplace := hin rfl hmem
      obtain ⟨r, l', t, hremove, hholds⟩ := remove_eq h hplace.lt
      obtain ⟨l'', u, happend, hholds'⟩ := hholds.appendEnd (v := name)
      rw [Int.toNat_of_nonneg hplace.1] at hremove
      exact ⟨l'', u, by simp [hmem, hremove, happend], hholds'⟩
  · rw [if_neg hmem]
    obtain ⟨l', t, happend, hholds⟩ := h.appendEnd (v := name)
    exact ⟨l', t, by simp [hmem, happend], hholds⟩

theorem sweep_intlistAdd (h : l.Holds s xs) (hin : AddsInPlace ow xs names) :
    ∃ l' t, (SNetList.sweep (fun dst name => (dst.bind (intlistAdd ow · name), true)) names (some l)).1 = some l' ∧
      l'.Holds t (names.foldl (addRound ow) xs) := by
  induction names generalizing l s xs with
  | nil => exact ⟨l, s, rfl, h⟩
  | cons name names ih =>
    obtain ⟨l', t, hadd, hholds⟩ := intlistAdd_eq h hin.1
    rw [SNetList.sweep, Option.bind_some, hadd]
    exact ih hholds hin.2

theorem intlistAddAll_eq (h : l.Holds s xs) (hsrc : src.Holds t names) (hin : AddsInPlace ow xs names) :
    ∃ l' u, intlistAddAll l src ow = some l' ∧ l'.Holds u (names.foldl (addRound ow) xs) := by
  obtain ⟨l', u, hsweep, hholds⟩ := sweep_intlistAdd h hin
  refine ⟨l', u, ?_, hholds⟩
  rw [intlistAddAll, hsrc.forEach]
  exact hsweep

theorem addRound_perm (hin : ow = true → name ∈ xs → InPlace xs name) :
    (addRound ow xs name).Perm (if name ∈ xs then xs else xs ++ [name]) := by
  rw [addRound]
  by_cases hmem : name ∈ xs
  · rw [if_pos hmem, if_pos hmem]
    cases ow with
    | false => exact .refl xs
    | true => exact (perm_append_singleton name _).trans (hin rfl hmem).perm
  · rw [if_neg hmem, if_neg hmem]

theorem mem_foldl_addRound (hin : AddsInPlace ow xs names) (n : Int) :
    n ∈ names.foldl (addRound ow) xs ↔ n ∈ xs ∨ n ∈ names := by
  induction names generalizing xs with
  | nil => simp
  | cons name names ih =>
    rw [foldl_cons, ih hin.2, (addRound_perm hin.1).mem_iff, mem_cons]
    by_cases hmem : name ∈ xs
    · rw [if_pos hmem]
      constructor
      · rintro (h | h)
        · exact .inl h
        · exact .inr (.inr h)
      · rintro (h | rfl | h)
        · exact .inl h
        · exact .inl hmem
        · exact .inr h
    · rw [if_neg hmem, mem_append, mem_singleton, or_assoc]

theorem count_foldl_addRound (hin : AddsInPlace ow xs names) (n : Int) :
    (names.foldl (addRound ow) xs).count n ≤ max 1 (xs.count n) := by
  induction names generalizing xs with
  | nil => exact Nat.le_max_right _ _
  | cons name names ih =>
    refine (ih hin.2).trans ?_
    rw [(addRound_perm hin.1).count_eq]
    by_cases hmem : name ∈ xs
    · rw [if_pos hmem]
    · rw [if_neg hmem, count_append]
      by_cases hn : n = name
      · subst hn
        rw [count_eq_zero_of_not_mem hmem, count_singleton_self]
        exact Nat.le_max_left _ _
      · rw [count_eq_zero_of_not_mem (a := n) (l := [name]) (by simpa using hn)]
        exact Nat.le_refl _

theorem mem_eraseIdx_iff {i : Nat} (hi : i < xs.length) (hmem : name ∈ xs) :
    (∀ n, n ∈ xs.eraseIdx i ↔ n ∈ xs ∧ n ≠ name) ↔ xs[i] = name ∧ xs.count name = 1 := by
  have hperm := getElem_cons_eraseIdx_perm hi
  constructor
  · intro h
    have hnot : name ∉ xs.eraseIdx i := fun hn => ((h name).1 hn).2 rfl
    have heq : xs[i] = name := by
      obtain heq | hn := mem_cons.1 (hperm.mem_iff.2 hmem)
      · exact heq.symm
      · exact absurd hn hnot
    refine ⟨heq, ?_⟩
    rw [← hperm.count_eq, heq, count_cons_self, count_eq_zero_of_not_mem hnot]
  · rintro ⟨heq, hcount⟩ n
    have hnot : name ∉ xs.eraseIdx i := by
      rw [← hperm.count_eq, heq, count_cons_self] at hcount
      exact count_eq_zero.1 (by omega)
    rw [← hperm.mem_iff, heq, mem_cons]
    constructor
    · intro hn
      exact ⟨.inr hn, fun hne => hnot (hne ▸ hn)⟩
    · rintro ⟨hn | hn, hne⟩
      · exact absurd hn hne
      · exact hn

end Lists

/-! ## Variants -/

def Sound (var : SNetVariant) : Prop := ∀ kind, ∃ s, (var.list kind).Holds s (var.labels kind)

section

variable {var var' src : SNetVariant} {kind : LabelKind} {name : Int} {ow : Bool} {op : Op}

theorem labels_eq {s : Nat} {xs : List Int} (h : (var.list kind).Holds s xs) : var.labels kind = xs := by
  rw [labels, h.elements]
  rfl

theorem Built.sound (h : var.Built) : var.Sound := by
  intro kind
  obtain ⟨s, xs, hholds⟩ := (h kind).holds
  exact ⟨s, by rwa [labels_eq hholds]⟩

theorem list_setList (var : SNetVariant) (kind other : LabelKind) (l : SNetList Int) :
    (var.setList kind l).list other = if other = kind then l else var.list other := by
  cases kind <;> cases other <;> rfl

theorem Sound.setList (h : var.Sound) (kind : LabelKind) {l : SNetList Int} {s : Nat} {xs : List Int}
    (hl : l.Holds s xs) :
    (var.setList kind l).Sound ∧ (var.setList kind l).labels kind = xs ∧
      ∀ other, other ≠ kind → (var.setList kind l).labels other = var.labels other := by
  have hkind : ((var.setList kind l).list kind).Holds s xs := by
    rwa [list_setList, if_pos rfl]
  have hother : ∀ other, other ≠ kind → (var.setList kind l).labels other = var.labels other := by
    intro other hne
    rw [labels, list_setList, if_neg hne]
    rfl
  refine ⟨fun other => ?_, labels_eq hkind, hother⟩
  by_cases heq : other = kind
  · subst heq
    exact ⟨s, by rwa [labels_eq hkind]⟩
  · obtain ⟨t, ht⟩ := h other
    exact ⟨t, by rwa [hother other heq, list_setList, if_neg heq]⟩

theorem Sound.has (h : var.Sound) (kind : LabelKind) (name : Int) :
    var.has kind name = some (decide (name ∈ var.labels kind)) := by
  obtain ⟨s, hholds⟩ := h kind
  exact contains_eq hholds name

theorem Sound.add (h : var.Sound) (kind : LabelKind) (name : Int) :
    ∃ var', var.add kind name = some var' ∧ var'.Sound ∧ Added var var' kind name := by
  obtain ⟨s, hholds⟩ := h kind
  obtain ⟨l, t, happend, hl⟩ := hholds.appendEnd (v := name)
  obtain ⟨hsound, hlabels, hother⟩ := h.setList kind hl
  refine ⟨var.setList kind l, by rw [SNetVariant.add, happend]; rfl, hsound, ?_, hother⟩
  intro n
  rw [hlabels, mem_append, mem_singleton]

theorem Sound.remove (h : var.Sound) (hlt : 0 ≤ name ∧ name < (var.labels kind).length) :
    ∃ var', var.remove kind name = some var' ∧ var'.Sound ∧
      var'.labels kind = (var.labels kind).eraseIdx name.toNat ∧
      ∀ other, other ≠ kind → var'.labels other = var.labels other := by
  obtain ⟨s, hholds⟩ := h kind
  obtain ⟨r, l, t, hremove, hl⟩ := remove_eq hholds (i := name.toNat) (by omega)
  rw [Int.toNat_of_nonneg hlt.1] at hremove
  obtain ⟨hsound, hlabels, hother⟩ := h.setList kind hl
  exact ⟨var.setList kind l, by rw [SNetVariant.remove, hremove]; rfl, hsound, hlabels, hother⟩

theorem Sound.remove_iff (h : var.Sound) (hmem : name ∈ var.labels kind) :
    (∃ var', var.remove kind name = some var' ∧ Removed var var' kind name) ↔ RemovesInPlace var kind name := by
  constructor
  · rintro ⟨var', hremove, hmeets, -⟩
    have hlt : 0 ≤ name ∧ name < (var.labels kind).length := by
      by_contra hout
      obtain ⟨s, hholds⟩ := h kind
      rw [SNetVariant.remove, remove_eq_none hholds hout] at hremove
      cases hremove
    obtain ⟨var'', hremove', -, hlabels, -⟩ := h.remove hlt
    rw [hremove] at hremove'
    cases hremove'
    have hidx : name.toNat < (var.labels kind).length := by omega
    rw [hlabels, mem_eraseIdx_iff hidx hmem] at hmeets
    exact ⟨⟨hlt.1, by rw [getElem?_eq_getElem hidx, hmeets.1]⟩, hmeets.2⟩
  · rintro ⟨hplace, hcount⟩
    obtain ⟨hidx, hget⟩ := List.getElem?_eq_some_iff.1 hplace.2
    obtain ⟨var', hremove, -, hlabels, hother⟩ := h.remove ⟨hplace.1, (Int.toNat_lt hplace.1).1 hidx⟩
    refine ⟨var', hremove, ?_, hother⟩
    rw [hlabels, mem_eraseIdx_iff hidx hmem]
    exact ⟨hget, hcount⟩

theorem RemovesInPlace.mem (h : RemovesInPlace var kind name) : name ∈ var.labels kind :=
  mem_of_getElem? h.1.2

theorem Sound.removed (h : var.Sound) (hin : RemovesInPlace var kind name) :
    ∃ var', var.remove kind name = some var' ∧ var'.Sound ∧ Removed var var' kind name := by
  have hnonneg := hin.1.1
  have hidx := hin.1.lt
  obtain ⟨var', hremove, hsound, -, -⟩ := h.remove ⟨hnonneg, (Int.toNat_lt hnonneg).1 hidx⟩
  obtain ⟨var'', hremove', hmeets⟩ := (h.remove_iff hin.mem).2 hin
  rw [hremove] at hremove'
  cases hremove'
  exact ⟨var', hremove, hsound, hmeets⟩

theorem Sound.addAll (h : var.Sound) (hsrc : src.Sound)
    (hin : ∀ kind, AddsInPlace ow (var.labels kind) (src.labels kind)) :
    ∃ var', var.addAll src ow = some var' ∧ var'.Sound ∧
      ∀ kind, var'.labels kind = (src.labels kind).foldl (addRound ow) (var.labels kind) := by
  have hlist : ∀ kind, ∃ l t, intlistAddAll (var.list kind) (src.list kind) ow = some l ∧
      l.Holds t ((src.labels kind).foldl (addRound ow) (var.labels kind)) := by
    intro kind
    obtain ⟨s, hs⟩ := h kind
    obtain ⟨t, ht⟩ := hsrc kind
    exact intlistAddAll_eq hs ht (hin kind)
  obtain ⟨fields, s, hfields, hs⟩ := hlist .field
  obtain ⟨tags, t, htags, ht⟩ := hlist .tag
  obtain ⟨btags, u, hbtags, hu⟩ := hlist .btag
  have hholds : ∀ kind, ∃ s, (SNetVariant.list ⟨fields, tags, btags⟩ kind).Holds s
      ((src.labels kind).foldl (addRound ow) (var.labels kind)) := by
    intro kind
    cases kind with
    | field => exact ⟨s, hs⟩
    | tag => exact ⟨t, ht⟩
    | btag => exact ⟨u, hu⟩
  refine ⟨⟨fields, tags, btags⟩, ?_, fun kind => ?_, fun kind => ?_⟩
  · simp only [list] at hfields htags hbtags
    rw [SNetVariant.addAll, hfields, htags, hbtags]
    rfl
  · obtain ⟨s, hs⟩ := hholds kind
    exact ⟨s, by rwa [labels_eq hs]⟩
  · obtain ⟨s, hs⟩ := hholds kind
    exact labels_eq hs

theorem Sound.exec (h : var.Sound) (hok : Ok var op) : ∃ var', var.exec op = some var' ∧ var'.Sound ∧ Meets var var' op := by
  cases op with
  | addAll src overwrite =>
    obtain ⟨var', hadd, hsound, hlabels⟩ := h.addAll hok.1.sound hok.2
    refine ⟨var', hadd, hsound, fun kind => ⟨fun n => ?_, fun n => ?_⟩⟩
    · rw [hlabels]
      exact mem_foldl_addRound (hok.2 kind) n
    · rw [hlabels]
      exact count_foldl_addRound (hok.2 kind) n
  | addField name => exact h.add .field name
  | addTag name => exact h.add .tag name
  | addBTag name => exact h.add .btag name
  | removeField name => exact h.removed hok
  | removeTag name => exact h.removed hok
  | removeBTag name => exact h.removed hok

end

/-- In a run whose calls meet `Ok` every call does to the sets of labels what it is for, and `SNetVariantHas*`
answer membership. -/
theorem variants_are_sets {var₀ var : SNetVariant} (h₀ : var₀.Built) (h : Reach step Ok var₀ var) :
    (∀ kind name, var.has kind name = some (decide (name ∈ var.labels kind))) ∧
      ∀ op, Ok var op → ∃ var', step var op = .done var' ∧ Meets var var' op := by
  have hsound : var.Sound := by
    apply h.invariant h₀.sound
    intro var op var' hsound hok hstep
    obtain ⟨var'', hexec, hsound', -⟩ := hsound.exec hok
    rw [step, Outcome.ofOption_eq_done, hexec] at hstep
    cases hstep
    exact hsound'
  refine ⟨hsound.has, fun op hok => ?_⟩
  obtain ⟨var', hexec, -, hmeets⟩ := hsound.exec hok
  exact ⟨var', by rw [step, hexec]; rfl, hmeets⟩

def create (fields tags btags : List Int) : SNetVariant := ⟨.create fields, .create tags, .create btags⟩

theorem built_create (fields tags btags : List Int) : (create fields tags btags).Built := by
  intro kind
  cases kind with
  | field => exact .create fields
  | tag => exact .create tags
  | btag => exact .create btags

/-- Of the fields 0, 1 and 7 the last one is removed where the label 1 has gone. -/
theorem variants_are_sets_inPlace :
    (create [0, 1] [] []).Built ∧ ∃ var, Reach step Ok (create [0, 1] [] []) var ∧ var.labels .field = [0, 7] ∧
      (∀ kind name, var.has kind name = some (decide (name ∈ var.labels kind))) ∧
      ∃ var', step var (.removeField 0) = .done var' ∧ Meets var var' (.removeField 0) := by
  have hbuilt := built_create [0, 1] [] []
  have hrun : ∃ var, runAll step (create [0, 1] [] []) [.removeField 1, .addField 7] = .done var ∧
      var.labels .field = [0, 7] := ⟨_, rfl, rfl⟩
  obtain ⟨var, hrun, hlabels⟩ := hrun
  have hpermitted : Permitted step Ok (create [0, 1] [] []) [.removeField 1, .addField 7] :=
    ⟨⟨⟨by decide, rfl⟩, rfl⟩, fun _ _ => ⟨trivial, fun _ _ => trivial⟩⟩
  have hreach : Reach step Ok (create [0, 1] [] []) var := .of_runAll .init hpermitted hrun
  have hok : Ok var (.removeField 0) := ⟨by rw [hlabels]; exact ⟨by decide, rfl⟩, by rw [hlabels]; rfl⟩
  obtain ⟨hhas, hmeets⟩ := variants_are_sets hbuilt hreach
  exact ⟨hbuilt, var, hreach, hlabels, hhas, hmeets _ hok⟩

/-- With the fields 1 and 0, label 0 is removed where label 1 is, and label 7 cannot be removed from the fields 7
and 3; and label 1 is lost when label 0 is added to the fields 1 and 0. -/
theorem removed_by_position :
    (¬ ∃ var, step (create [1, 0] [] []) (.removeField 0) = .done var ∧
      Meets (create [1, 0] [] []) var (.removeField 0)) ∧
    step (create [7, 3] [] []) (.removeField 7) = .fault ∧
    ¬ ∃ var, step (create [1, 0] [] []) (.addAll (create [0] [] []) true) = .done var ∧
      Meets (create [1, 0] [] []) var (.addAll (create [0] [] []) true) := by
  refine ⟨?_, rfl, ?_⟩
  · rintro ⟨var, hstep, hmeets, -⟩
    cases hstep
    exact absurd ((hmeets 0).1 (by decide)).2 (by decide)
  · rintro ⟨var, hstep, hmeets⟩
    cases hstep
    exact absurd (((hmeets .field).1 1).2 (by decide)) (by decide)

end SNetVariant

end SNet
