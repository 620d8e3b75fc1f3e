import SNetRts.Svpgw.Typeencode
import SNetRts.Lib.Assoc

/-!
# The item vectors of a record

A data record of `svpgw/src/core/record.utc` keeps its fields, its tags and its binding tags in one way: the
names are a label vector of its variant, and the items a vector of their own, in the order of the names. The
generic routines that add, remove and copy items work on both. They are here over one such pair.

`ItemVec.map` is the finite map that a pair stands for, and `ItemVec.Aligned` says that it stands for one:
the vectors have one length, the names are distinct labels, and no item is flagged as deleted. An item vector
that is `NULL` is an empty one. The reference counts of field data are left out.
-/

namespace SNet.Svpgw

open Function (update update_of_ne update_self)

open List

open SNet.Svpgw.Vector (unsetItemVal)

/-- `snet_record_tag_t` or `snet_record_field_t`: the value and the two flags that both have -/
structure RecordItem (V : Type) where
  val : V
  consumed : Bool
  deleted : Bool
deriving DecidableEq, Repr

/-- What tags and fields do differently. -/
structure ItemKind (V : Type) where
  /-- The value in zeroed memory. -/
  zero : V
  /-- The values that copying or, with `true`, moving leaves in the source and in the target. -/
  transfer : Bool → V → V × V
  /-- The flags are copied with the value. -/
  keepsFlags : Bool

/-- A label vector with the items of its labels. -/
structure ItemVec (V : Type) where
  names : Vector
  items : List (RecordItem V)
deriving DecidableEq

def ItemKind.zeroItem {V : Type} (kind : ItemKind V) : RecordItem V := ⟨kind.zero, false, false⟩

/-- The flags that say what `SNetRecCopyItems` copies. -/
structure CopyFlags where
  move : Bool
  unconsumed : Bool
  consumed : Bool
deriving DecidableEq, Repr

def CopyFlags.selects (flags : CopyFlags) (consumed : Bool) : Bool :=
  flags.unconsumed && !consumed || flags.consumed && consumed

/-- A pointer into an array of names: what it reads at each index, `none` behind the array. -/
abbrev NamesPtr := Nat → Option Int

namespace ItemVec

variable {V : Type} (kind : ItemKind V)

/-- `drecord_resize_dvec` -/
def resizeDvec (vec : List (RecordItem V)) (currentSz newSz : Nat) : List (RecordItem V) :=
  vec.take newSz ++ List.replicate (newSz - currentSz) kind.zeroItem

/-- `drecord_pack_dvec`; an item that stays where it is is not moved. -/
def packDvec (vec : List (RecordItem V)) (startItemIdx : Nat) : List (RecordItem V) :=
  Lib.compact (fun it => !it.deleted) vec startItemIdx

/-- `drecord_add_items`, with the number of items added -/
def drecordAddItems (iv : ItemVec V) (names : List Int) : ItemVec V × Nat :=
  let (venc, addedCnt) := names.foldl
    (fun (s : Vector × Nat) name =>
      let (venc, new) := s.1.addItem name
      (venc, if new then s.2 + 1 else s.2))
    (iv.names, 0)
  if addedCnt = 0 then ({ iv with names := venc }, 0)
  else
    ({ names := venc, items := resizeDvec kind iv.items (venc.size - addedCnt) venc.size }, addedCnt)

/-- The loop of `drecord_remove_items`: the vectors with their marks, the first index, and the number of
items removed; `none` where an item is behind the vector. -/
def removeLoop : List Int → ItemVec V → Nat → Nat → Option (ItemVec V × Nat × Nat)
  | [], iv, first, removed => some (iv, first, removed)
  | name :: names, iv, first, removed =>
    match iv.names.removeItem name with
    | (_, none) => removeLoop names iv first removed
    | (venc, some idx) =>
      match iv.items[idx]? with
      | none => none
      | some it =>
        removeLoop names { names := venc, items := iv.items.set idx { it with deleted := true } }
          (if idx < first then idx else first) (removed + 1)

/-- `drecord_remove_items`, with the number of items removed; `none` where an assertion fails, as below -/
def drecordRemoveItems (iv : ItemVec V) (names : List Int) : Option (ItemVec V × Nat) :=
  let itemsCnt := iv.names.size
  if itemsCnt < names.length then none
  else do
    let (iv, first, removed) ← removeLoop names iv itemsCnt 0
    if removed > 0 then
      some ({ names := iv.names.removeUnsetEntries, items := packDvec iv.items first }, removed)
    else some (iv, 0)

/-- The variables of the loop in `drecord_copy_items`: the source, the target, how many items are copied, and
the first index that one was moved from. -/
structure CopyLoop (V : Type) where
  src : ItemVec V
  dst : ItemVec V
  copiedItemsCnt : Nat
  first : Nat

/-- The name that the item of round `i` gets and its index in the source; `none` inside for a name that the
source does not have. -/
def copyPick (names newNames : Option NamesPtr) (src : ItemVec V) (i : Nat) : Option (Option (Int × Nat)) :=
  match names with
  | some names => do
    let name ← names i
    let l ← src.names
    match l.idxOf? name with
    | none => some none
    | some idx =>
      let newName ← (newNames.getD names) i
      some (some (newName, idx))
  | none => do
    let l ← src.names
    let name ← l[i]?
    some (some (name, i))

/-- One round of the loop; `r2ItemsCnt` items are in the target from before. -/
def copyStep (flags : CopyFlags) (names newNames : Option NamesPtr) (r2ItemsCnt : Nat) (s : CopyLoop V)
    (i : Nat) : Option (CopyLoop V) := do
  match ← copyPick names newNames s.src i with
  | none => some s
  | some (cpiName, cpiIdx1) =>
    let it ← s.src.items[cpiIdx1]?
    if flags.selects it.consumed = false then some s
    else
      match s.dst.names.addItem cpiName with
      | (_, false) => some s
      | (venc2, true) =>
        let (val1, val2) := kind.transfer flags.move it.val
        let it2 : RecordItem V := ⟨val2, kind.keepsFlags && it.consumed, kind.keepsFlags && it.deleted⟩
        let cpiIdx2 := r2ItemsCnt + s.copiedItemsCnt
        if s.dst.items.length ≤ cpiIdx2 then none
        else
          some
            { src :=
                { names := if flags.move then (s.src.names.removeItem cpiName).1 else s.src.names
                  items := s.src.items.set cpiIdx1
                    { it with val := val1, deleted := if flags.move then true else it.deleted } }
              dst := { names := venc2, items := s.dst.items.set cpiIdx2 it2 }
              copiedItemsCnt := s.copiedItemsCnt + 1
              first := if flags.move ∧ cpiIdx1 < s.first then cpiIdx1 else s.first }

/-- `drecord_copy_items`: source and target afterwards, and the number of items copied -/
def drecordCopyItems (flags : CopyFlags) (names newNames : Option NamesPtr) (count : Nat)
    (src dst : ItemVec V) : Option (ItemVec V × ItemVec V × Nat) :=
  if flags.consumed = false ∧ flags.unconsumed = false then some (src, dst, 0)
  else
    let r1ItemsCnt := src.names.size
    let r2ItemsCnt := dst.names.size
    let copyLoopCnt := if names.isNone then r1ItemsCnt else count
    if r1ItemsCnt < copyLoopCnt then none
    else if copyLoopCnt = 0 then some (src, dst, 0)
    else do
      let dst := { dst with items := resizeDvec kind dst.items r2ItemsCnt (r2ItemsCnt + copyLoopCnt) }
      let s ← (List.range copyLoopCnt).foldlM (copyStep kind flags names newNames r2ItemsCnt)
        { src := src, dst := dst, copiedItemsCnt := 0, first := r1ItemsCnt }
      let dst :=
        { s.dst with
          items := resizeDvec kind s.dst.items (r2ItemsCnt + copyLoopCnt) (r2ItemsCnt + s.copiedItemsCnt) }
      let src :=
        if flags.move then
          { names := s.src.names.removeUnsetEntries, items := packDvec s.src.items s.first }
        else s.src
      some (src, dst, s.copiedItemsCnt)

/-! ## The map of a pair of vectors -/

abbrev Binding (V : Type) := Sigma fun _ : Int => RecordItem V

abbrev Map (V : Type) := Int → Option (RecordItem V)

def bindings (iv : ItemVec V) : List (Binding V) :=
  List.zipWith (fun name it => ⟨name, it⟩) iv.names.items iv.items

def map (iv : ItemVec V) : Map V := fun name => iv.bindings.dlookup name

/-- The vectors belong together. -/
structure Aligned (iv : ItemVec V) : Prop where
  length : iv.items.length = iv.names.size
  distinct : iv.names.Distinct
  labels : unsetItemVal ∉ iv.names.items
  present : ∀ it ∈ iv.items, it.deleted = false

theorem Aligned.keys {iv : ItemVec V} (h : iv.Aligned) : iv.bindings.keys = iv.names.items := by
  have hlen : iv.names.items.length = iv.items.length := h.length.symm
  apply ext_getElem
  · simp [List.keys, bindings, hlen]
  · intro i hi _
    simp [List.keys, bindings]

theorem Aligned.nodupKeys {iv : ItemVec V} (h : iv.Aligned) : iv.bindings.NodupKeys := by
  unfold List.NodupKeys
  rw [h.keys]
  exact h.distinct

theorem Aligned.map_getElem {iv : ItemVec V} (h : iv.Aligned) {k : Nat} {name : Int}
    (hk : iv.names.items[k]? = some name) : iv.map name = iv.items[k]? := by
  obtain ⟨hkn, hke⟩ := List.getElem?_eq_some_iff.1 hk
  have hki : k < iv.items.length := by
    rw [h.length]
    exact hkn
  have hmem : (⟨name, iv.items[k]⟩ : Binding V) ∈ iv.bindings := by
    rw [← hke]
    apply mem_of_getElem?
    rw [bindings, getElem?_zipWith, hk, getElem?_eq_getElem hki, ← hke]
  rw [getElem?_eq_getElem hki]
  exact mem_dlookup h.nodupKeys hmem

/-! ## Bindings with marks

While names and items are taken away, both vectors carry marks: the name is set to the unset value and the
item is flagged as deleted, both at one place. -/

/-- The vectors hold these bindings. -/
structure Holds (iv : ItemVec V) (l : List (Binding V)) : Prop where
  names : iv.names.items = l.keys
  items : iv.items = l.map Sigma.snd

def live (l : List (Binding V)) : List (Binding V) := l.filter fun b => b.1 ≠ unsetItemVal

/-- Names and items are marked at the same places, and the other names are distinct. -/
structure Marked (l : List (Binding V)) : Prop where
  marks : ∀ b ∈ l, b.1 = unsetItemVal ↔ b.2.deleted = true
  distinct : (live l).NodupKeys

/-- Nothing is marked. -/
structure Clean (l : List (Binding V)) : Prop where
  distinct : l.NodupKeys
  labels : ∀ b ∈ l, b.1 ≠ unsetItemVal
  present : ∀ b ∈ l, b.2.deleted = false

def mapOf (l : List (Binding V)) : Map V := fun name => (live l).dlookup name

variable {l pre post : List (Binding V)} {name : Int} {it it' : RecordItem V}

theorem Clean.live_eq (h : Clean l) : live l = l := by
  unfold live
  rw [filter_eq_self]
  intro b hb
  exact decide_eq_true (h.labels b hb)

theorem Clean.marked (h : Clean l) : Marked l := by
  refine ⟨?_, ?_⟩
  · intro b hb
    rw [iff_false_intro (h.labels b hb), h.present b hb]
    simp
  · rw [h.live_eq]
    exact h.distinct

theorem Marked.clean (h : Marked l) : Clean (live l) := by
  refine ⟨h.distinct, ?_, ?_⟩
  · intro b hb
    exact of_decide_eq_true (mem_filter.1 hb).2
  · intro b hb
    obtain ⟨hbl, hb⟩ := mem_filter.1 hb
    rw [← Bool.not_eq_true, ← h.marks b hbl]
    exact of_decide_eq_true hb

theorem Marked.mapOf_live (h : Marked l) : mapOf (live l) = mapOf l := by
  funext n
  unfold mapOf
  rw [h.clean.live_eq]

theorem Marked.clean_of_present (h : Marked l) (hp : ∀ b ∈ l, b.2.deleted = false) : Clean l := by
  have hlabels : ∀ b ∈ l, b.1 ≠ unsetItemVal := by
    intro b hb he
    have := (h.marks b hb).1 he
    rw [hp b hb] at this
    cases this
  refine ⟨?_, hlabels, hp⟩
  have hlive : live l = l := filter_eq_self.2 fun b hb => decide_eq_true (hlabels b hb)
  rw [← hlive]
  exact h.distinct

theorem live_append (l m : List (Binding V)) : live (l ++ m) = live l ++ live m := filter_append ..

theorem live_cons_label {b : Binding V} (h : b.1 ≠ unsetItemVal) : live (b :: l) = b :: live l :=
  filter_cons_of_pos (decide_eq_true h)

theorem live_cons_unset : live (⟨unsetItemVal, it⟩ :: l) = live l := by
  simp [live]

theorem live_middle (hname : name ≠ unsetItemVal) :
    live (pre ++ ⟨name, it⟩ :: post) = live pre ++ ⟨name, it⟩ :: live post := by
  rw [live_append, live_cons_label hname]

theorem mapOf_middle (h : Marked (pre ++ ⟨name, it⟩ :: post)) (hname : name ≠ unsetItemVal) :
    mapOf (pre ++ ⟨name, it⟩ :: post) name = some it := by
  have hd := h.distinct
  rw [live_middle hname] at hd
  rw [mapOf, live_middle hname]
  exact mem_dlookup hd (mem_append_right _ (mem_cons_self ..))

theorem marks_middle {b : Binding V} (h : Marked (pre ++ ⟨name, it⟩ :: post))
    (hb : b.1 = unsetItemVal ↔ b.2.deleted = true) :
    ∀ c ∈ pre ++ b :: post, c.1 = unsetItemVal ↔ c.2.deleted = true := by
  intro c hc
  rw [mem_append, mem_cons] at hc
  rcases hc with hc | rfl | hc
  · exact h.marks c (mem_append_left _ hc)
  · exact hb
  · exact h.marks c (mem_append_right _ (mem_cons_of_mem _ hc))

theorem Marked.mark (it' : RecordItem V) (h : Marked (pre ++ ⟨name, it⟩ :: post)) (hname : name ≠ unsetItemVal)
    (hdel : it'.deleted = true) :
    Marked (pre ++ ⟨unsetItemVal, it'⟩ :: post) ∧
      mapOf (pre ++ ⟨unsetItemVal, it'⟩ :: post) =
        update (mapOf (pre ++ ⟨name, it⟩ :: post)) name none := by
  have hd := h.distinct
  rw [live_middle hname] at hd
  have hlive : live (pre ++ ⟨unsetItemVal, it'⟩ :: post) = live pre ++ live post := by
    rw [live_append, live_cons_unset]
  refine ⟨⟨marks_middle h (by simp [hdel]), ?_⟩, ?_⟩
  · rw [hlive]
    exact Lib.nodupKeys_of_middle hd
  · funext m
    rw [mapOf, hlive]
    by_cases hm : m = name
    · subst hm
      rw [update_self]
      exact dlookup_eq_none.2 (Lib.notMem_keys_of_middle hd)
    · rw [update_of_ne hm, mapOf, live_middle hname, dlookup_append, dlookup_append,
        dlookup_cons_ne _ _ hm]

theorem Marked.replace (it' : RecordItem V) (h : Marked (pre ++ ⟨name, it⟩ :: post)) (hname : name ≠ unsetItemVal)
    (hdel : it'.deleted = false) :
    Marked (pre ++ ⟨name, it'⟩ :: post) ∧
      mapOf (pre ++ ⟨name, it'⟩ :: post) =
        update (mapOf (pre ++ ⟨name, it⟩ :: post)) name (some it') := by
  have hd := h.distinct
  rw [live_middle hname] at hd
  have hm' : Marked (pre ++ ⟨name, it'⟩ :: post) := by
    refine ⟨marks_middle h (by simp [hdel, hname]), ?_⟩
    rw [live_middle hname]
    exact (Lib.toFinmap_replace hd).1
  refine ⟨hm', ?_⟩
  funext m
  by_cases hm : m = name
  · subst hm
    rw [update_self, mapOf_middle hm' hname]
  · rw [update_of_ne hm, mapOf, mapOf, live_middle hname, live_middle hname, dlookup_append,
      dlookup_append, dlookup_cons_ne _ _ hm, dlookup_cons_ne _ _ hm]

theorem Clean.concat (it : RecordItem V) (h : Clean l) (hname : name ≠ unsetItemVal) (hnew : name ∉ l.keys)
    (hdel : it.deleted = false) :
    Clean (l ++ [⟨name, it⟩]) ∧ mapOf (l ++ [⟨name, it⟩]) = update (mapOf l) name (some it) := by
  have hc : Clean (l ++ [⟨name, it⟩]) := by
    refine ⟨?_, ?_, ?_⟩
    · rw [nodupKeys_middle, append_nil]
      exact nodupKeys_cons.2 ⟨hnew, h.distinct⟩
    · intro b hb
      rw [mem_append, mem_singleton] at hb
      rcases hb with hb | rfl
      · exact h.labels b hb
      · exact hname
    · intro b hb
      rw [mem_append, mem_singleton] at hb
      rcases hb with hb | rfl
      · exact h.present b hb
      · exact hdel
  refine ⟨hc, ?_⟩
  funext m
  by_cases hm : m = name
  · subst hm
    rw [update_self, mapOf_middle hc.marked hname]
  · rw [update_of_ne hm, mapOf, mapOf, hc.live_eq, h.live_eq, dlookup_append,
      dlookup_cons_ne _ _ hm, dlookup_nil, Option.or_none]

theorem mapOf_eq_none_iff : mapOf l name = none ↔ name ∉ (live l).keys := dlookup_eq_none

theorem Holds.bindings_eq {iv : ItemVec V} (h : Holds iv l) : iv.bindings = l := by
  rw [bindings, h.names, h.items, List.keys, zipWith_map, zipWith_self]
  exact map_id l

theorem Holds.aligned {iv : ItemVec V} (h : Holds iv l) (hc : Clean l) : iv.Aligned ∧ iv.map = mapOf l := by
  refine ⟨⟨?_, ?_, ?_, ?_⟩, ?_⟩
  · rw [Vector.size, h.names, h.items, List.keys, length_map, length_map]
  · rw [Vector.Distinct, h.names]
    exact hc.distinct
  · rw [h.names, List.keys, List.mem_map]
    rintro ⟨b, hb, he⟩
    exact hc.labels b hb he
  · intro it hit
    rw [h.items, List.mem_map] at hit
    obtain ⟨b, hb, rfl⟩ := hit
    exact hc.present b hb
  · funext name
    rw [map, mapOf, h.bindings_eq, hc.live_eq]

theorem Aligned.holds {iv : ItemVec V} (h : iv.Aligned) : Holds iv iv.bindings ∧ Clean iv.bindings := by
  have hlen : iv.items.length = iv.names.items.length := h.length
  have hitems : iv.items = iv.bindings.map Sigma.snd := by
    apply ext_getElem
    · simp [bindings, hlen]
    · intro i hi _
      simp [bindings]
  refine ⟨⟨h.keys.symm, hitems⟩, h.nodupKeys, ?_, ?_⟩
  · intro b hb he
    apply h.labels
    rw [← h.keys, ← he]
    exact mem_keys_of_mem hb
  · intro b hb
    apply h.present
    rw [hitems]
    exact mem_map_of_mem hb

theorem Aligned.map_eq {iv : ItemVec V} (h : iv.Aligned) : iv.map = mapOf iv.bindings :=
  (h.holds.1.aligned h.holds.2).2

/-! ## Adding and removing -/

def added (m : Map V) (names : List Int) : Map V :=
  fun name => (m name).or (if name ∈ names then some kind.zeroItem else none)

def removed (m : Map V) (names : List Int) : Map V := fun name => if name ∈ names then none else m name

theorem Clean.mem_keys_iff (h : Clean l) : name ∈ l.keys ↔ (mapOf l name).isSome = true := by
  rw [mapOf, h.live_eq, dlookup_isSome]

theorem addLoop_spec {v : Vector} (hv : v.items = l.keys) (hc : Clean l) (names : List Int)
    (hlabels : ∀ name ∈ names, name ≠ unsetItemVal) :
    let r := names.foldl
      (fun (s : Vector × Nat) name =>
        let (venc, new) := s.1.addItem name
        (venc, if new then s.2 + 1 else s.2))
      (v, 0)
    ∃ l', Clean (l ++ l') ∧ r.1.items = (l ++ l').keys ∧ r.2 = l'.length ∧
      l'.map Sigma.snd = List.replicate l'.length kind.zeroItem ∧ mapOf (l ++ l') = added kind (mapOf l) names := by
  induction names using List.reverseRecOn with
  | nil =>
    refine ⟨[], by simpa using hc, by simpa using hv, rfl, rfl, ?_⟩
    funext n
    simp [added]
  | append_singleton names name ih =>
    obtain ⟨l', hc', hr, hcnt, hz, hmap⟩ := ih fun n hn => hlabels n (mem_append_left _ hn)
    rw [List.foldl_append, foldl_cons, foldl_nil]
    generalize List.foldl _ (v, 0) names = r at *
    by_cases hmem : name ∈ (l ++ l').keys
    · rw [Vector.addItem_of_mem (by rw [hr]; exact hmem)]
      refine ⟨l', hc', hr, by simpa using hcnt, hz, ?_⟩
      rw [hmap]
      funext n
      by_cases hn : n = name
      · subst hn
        rw [hc'.mem_keys_iff, hmap] at hmem
        unfold added at hmem ⊢
        rw [if_pos (mem_append_right _ (mem_singleton_self n))]
        split
        · rfl
        · next hno =>
          rw [if_neg hno, Option.or_none] at hmem
          obtain ⟨x, hx⟩ := Option.isSome_iff_exists.1 hmem
          rw [hx]
          rfl
      · simp [added, hn]
    · have hlabel := hlabels name (mem_append_right _ (mem_singleton_self name))
      rw [Vector.addItem_of_notMem (by rw [hr]; exact hmem)]
      obtain ⟨hc'', hmap'⟩ := hc'.concat kind.zeroItem hlabel hmem rfl
      rw [append_assoc] at hc'' hmap'
      refine ⟨l' ++ [⟨name, kind.zeroItem⟩], hc'', ?_, by simp [hcnt], by simp [hz, replicate_succ'], ?_⟩
      · simp [hr, keys_append]
      · rw [hmap', hmap]
        funext n
        rw [hc'.mem_keys_iff, hmap] at hmem
        by_cases hn : n = name
        · subst hn
          rw [update_self]
          have hnone : mapOf l n = none := by
            rw [← Option.not_isSome_iff_eq_none]
            intro hs
            apply hmem
            unfold added
            rw [Option.or_of_isSome hs]
            exact hs
          simp [added, hnone]
        · simp [added, hn]

theorem drecordAddItems_spec {iv : ItemVec V} (h : iv.Aligned) {names : List Int}
    (hlabels : ∀ name ∈ names, name ≠ unsetItemVal) :
    (drecordAddItems kind iv names).1.Aligned ∧
      (drecordAddItems kind iv names).1.map = added kind iv.map names := by
  obtain ⟨hh, hc⟩ := h.holds
  obtain ⟨l', hc', hr, hcnt, hz, hmap⟩ := addLoop_spec kind hh.names hc names hlabels
  rw [h.map_eq, ← hmap]
  unfold drecordAddItems
  generalize List.foldl _ (iv.names, 0) names = r at *
  obtain ⟨venc, cnt⟩ := r
  simp only at hr hcnt ⊢
  by_cases h0 : cnt = 0
  · have hl' : l' = [] := length_eq_zero_iff.1 (hcnt ▸ h0)
    subst hl'
    rw [append_nil] at *
    rw [if_pos h0]
    exact Holds.aligned ⟨hr, hh.items⟩ hc'
  · rw [if_neg h0]
    apply Holds.aligned _ hc'
    refine ⟨hr, ?_⟩
    have hsize : venc.size = iv.bindings.length + l'.length := by
      rw [Vector.size, hr, List.keys, length_map, length_append]
    have hdiff : iv.bindings.length + l'.length - (iv.bindings.length + l'.length - l'.length) = l'.length := by
      omega
    rw [resizeDvec, hsize, hcnt, hdiff, map_append, hz]
    have hlen : iv.items.length ≤ iv.bindings.length + l'.length := by
      rw [hh.items, length_map]
      omega
    rw [take_of_length_le hlen, ← hh.items]

theorem keys_filter (l : List (Binding V)) : (live l).keys = l.keys.filter (· ≠ unsetItemVal) := by
  change (live l).map Sigma.fst = (l.map Sigma.fst).filter _
  rw [live, filter_map]
  rfl

theorem Marked.items_filter (h : Marked l) :
    (l.map Sigma.snd).filter (fun it => !it.deleted) = (live l).map Sigma.snd := by
  rw [live, filter_map]
  congr 1
  apply filter_congr
  intro b hb
  have := h.marks b hb
  by_cases hd : b.2.deleted = true
  · simp [hd, this.2 hd]
  · simp [hd, mt this.1 hd]

theorem Marked.pack {iv : ItemVec V} {first : Nat} (h : Marked l) (hh : Holds iv l)
    (hfirst : ∀ b ∈ l.take first, b.2.deleted = false) :
    Holds { names := iv.names.removeUnsetEntries, items := packDvec iv.items first } (live l) := by
  refine ⟨?_, ?_⟩
  · rw [Vector.items_removeUnsetEntries, hh.names, keys_filter]
  · have hkeep : ∀ it ∈ iv.items.take first, (!it.deleted) = true := by
      rw [hh.items, ← map_take]
      intro it hit
      obtain ⟨b, hb, rfl⟩ := List.mem_map.1 hit
      rw [hfirst b hb]
      rfl
    rw [packDvec, Lib.compact_eq hkeep, hh.items, h.items_filter]

theorem exists_middle_of_mem_keys (h : name ∈ l.keys) :
    ∃ pre it post, l = pre ++ ⟨name, it⟩ :: post ∧ name ∉ pre.keys := by
  induction l with
  | nil => cases h
  | cons b l ih =>
    obtain ⟨n, it⟩ := b
    by_cases hn : name = n
    · subst hn
      exact ⟨[], it, l, rfl, not_mem_nil⟩
    · rw [keys_cons, mem_cons] at h
      obtain ⟨pre, it', post, rfl, hnot⟩ := ih (h.resolve_left hn)
      refine ⟨⟨n, it⟩ :: pre, it', post, rfl, ?_⟩
      rw [keys_cons, mem_cons, not_or]
      exact ⟨hn, hnot⟩

theorem take_mark {p : Binding V → Prop} {b b' : Binding V} {first : Nat}
    (h : ∀ c ∈ (pre ++ b :: post).take first, p c) :
    ∀ c ∈ (pre ++ b' :: post).take (if pre.length < first then pre.length else first), p c := by
  split
  · next hlt =>
    rw [take_left' rfl]
    intro c hc
    apply h
    rw [take_append, take_of_length_le (Nat.le_of_lt hlt)]
    exact mem_append_left _ hc
  · next hle =>
    have hle : first ≤ pre.length := Nat.le_of_not_lt hle
    rw [take_append_of_le_length hle] at h ⊢
    exact h

theorem Holds.mark {iv : ItemVec V} (hh : Holds iv (pre ++ ⟨name, it⟩ :: post)) (hnot : name ∉ pre.keys) :
    iv.names.removeItem name = (some (pre.keys ++ unsetItemVal :: post.keys), some pre.length) ∧
      iv.items[pre.length]? = some it := by
  have hnames : iv.names.items = pre.keys ++ name :: post.keys := by
    rw [hh.names, keys_append, keys_cons]
  have hsome := Vector.eq_some_of_mem (show name ∈ iv.names.items by rw [hnames]; simp)
  refine ⟨?_, ?_⟩
  · rw [hsome, hnames, Vector.removeItem_middle hnot, List.keys, length_map]
  · rw [hh.items, map_append, getElem?_append_right (by simp)]
    simp

theorem Holds.set {iv : ItemVec V} (hh : Holds iv (pre ++ ⟨name, it⟩ :: post)) :
    iv.items.set pre.length it' = (pre ++ (⟨name, it'⟩ : Binding V) :: post).map Sigma.snd := by
  rw [hh.items, map_append, set_append_right _ _ (by simp)]
  simp

theorem removeLoop_spec {iv : ItemVec V} {first cnt : Nat} (hh : Holds iv l) (hm : Marked l)
    (hfirst : ∀ b ∈ l.take first, b.2.deleted = false) (hcnt : cnt = 0 → ∀ b ∈ l, b.2.deleted = false)
    {names : List Int} (hlabels : ∀ name ∈ names, name ≠ unsetItemVal) :
    ∃ iv' first' cnt' l', removeLoop names iv first cnt = some (iv', first', cnt') ∧ Holds iv' l' ∧ Marked l' ∧
      (∀ b ∈ l'.take first', b.2.deleted = false) ∧ (cnt' = 0 → ∀ b ∈ l', b.2.deleted = false) ∧
      mapOf l' = removed (mapOf l) names := by
  induction names generalizing iv l first cnt with
  | nil =>
    refine ⟨iv, first, cnt, l, rfl, hh, hm, hfirst, hcnt, ?_⟩
    funext n
    simp [removed]
  | cons name names ih =>
    have hlabel := hlabels name (mem_cons_self ..)
    have hlabels' : ∀ n ∈ names, n ≠ unsetItemVal := fun n hn => hlabels n (mem_cons_of_mem _ hn)
    by_cases hmem : name ∈ l.keys
    · obtain ⟨pre, it, post, rfl, hnot⟩ := exists_middle_of_mem_keys hmem
      obtain ⟨hrem, hget⟩ := hh.mark hnot
      obtain ⟨hm', hmap'⟩ := hm.mark { it with deleted := true } hlabel rfl
      have hh' : Holds ⟨some (pre.keys ++ unsetItemVal :: post.keys),
          iv.items.set pre.length { it with deleted := true }⟩
          (pre ++ ⟨unsetItemVal, { it with deleted := true }⟩ :: post) := by
        refine ⟨?_, ?_⟩
        · rw [keys_append, keys_cons]
          rfl
        · rw [hh.set]
          simp
      obtain ⟨iv', first', cnt', l', hrun, hih, hmih, hfih, hcih, hmapih⟩ :=
        ih hh' hm' (take_mark hfirst) (fun h => absurd h (Nat.succ_ne_zero cnt)) hlabels'
      refine ⟨iv', first', cnt', l', ?_, hih, hmih, hfih, hcih, ?_⟩
      · rw [removeLoop, hrem]
        simp only [hget]
        exact hrun
      · rw [hmapih, hmap']
        funext n
        by_cases hn : n = name
        · simp [removed, hn]
        · simp [removed, hn]
    · obtain ⟨iv', first', cnt', l', hrun, hih, hmih, hfih, hcih, hmapih⟩ := ih hh hm hfirst hcnt hlabels'
      refine ⟨iv', first', cnt', l', ?_, hih, hmih, hfih, hcih, ?_⟩
      · rw [removeLoop, Vector.removeItem_of_notMem (by rw [hh.names]; exact hmem)]
        exact hrun
      · rw [hmapih]
        funext n
        by_cases hn : n = name
        · subst hn
          have hnone : mapOf l n = none := by
            rw [mapOf_eq_none_iff]
            intro hlive
            apply hmem
            rw [keys_filter] at hlive
            exact (mem_filter.1 hlive).1
          simp [removed, hnone]
        · simp [removed, hn]

theorem drecordRemoveItems_spec {iv : ItemVec V} (h : iv.Aligned) {names : List Int}
    (hlabels : ∀ name ∈ names, name ≠ unsetItemVal) (hcount : names.length ≤ iv.names.size) :
    ∃ r, drecordRemoveItems iv names = some r ∧ r.1.Aligned ∧ r.1.map = removed iv.map names := by
  obtain ⟨hh, hc⟩ := h.holds
  obtain ⟨iv', first', cnt', l', hrun, hh', hm', hfirst', hcnt', hmap'⟩ :=
    removeLoop_spec hh hc.marked
      (fun b (hb : b ∈ iv.bindings.take iv.names.size) => hc.present b (mem_of_mem_take hb))
      (fun _ : 0 = 0 => hc.present) hlabels
  unfold drecordRemoveItems
  rw [if_neg (Nat.not_lt.2 hcount), hrun]
  simp only [Option.bind_eq_bind, Option.bind_some]
  rw [h.map_eq, ← hmap']
  by_cases h0 : cnt' > 0
  · rw [if_pos h0]
    refine ⟨_, rfl, ?_⟩
    rw [← hm'.mapOf_live]
    exact (hm'.pack hh' hfirst').aligned hm'.clean
  · rw [if_neg h0]
    exact ⟨_, rfl, hh'.aligned (hm'.clean_of_present (hcnt' (by omega)))⟩

end ItemVec

end SNet.Svpgw
