import SNetRts.Svpgw.ItemCopy

/-!
# Data records

The operations of `svpgw/src/core/record.utc` that make, read, change and copy data records. A record is three
item vectors with the label vectors of its variant. `none` stands for an assertion that fails and for a read
behind an array.

Each operation comes with the one on finite maps that it stands for. `CopyFair` and its kin say when the code
does the same; each theorem about an operation goes through the three vectors one by one.
-/

namespace SNet.Svpgw

open List

open SNet.Svpgw.Vector (unsetItemVal)

/-- The value of a field: its data, if any, whether nobody else refers to them, and whether they are here. -/
structure FieldVal (D : Type) where
  data : Option D
  excl : Bool
  here : Bool
deriving DecidableEq, Repr

def tagKind : ItemKind Int := ⟨0, fun _ value => (value, value), true⟩

/-- Of a field, the data are copied, and are no longer exclusive then. -/
def fieldKind (D : Type) : ItemKind (FieldVal D) where
  zero := ⟨none, false, false⟩
  transfer move f1 :=
    match f1.data with
    | none => (f1, ⟨none, false, false⟩)
    | some _ => if move then (f1, f1) else ({ f1 with excl := false }, { f1 with excl := false })
  keepsFlags := false

/-- `snet_data_record_t`, each value vector with its label vector -/
structure Record (D : Type) where
  fields : ItemVec (FieldVal D)
  tags : ItemVec Int
  btags : ItemVec Int
deriving DecidableEq

/-- Names of fields, of tags and of binding tags in one array. -/
structure ItemNames where
  names : List Int
  fieldsCnt : Nat
  tagsCnt : Nat
  btagsCnt : Nat
  size : names.length = fieldsCnt + tagsCnt + btagsCnt
deriving DecidableEq

/-- `snet_record_items_copy_specs_t` -/
structure CopySpecs extends ItemNames where
  newNames : Option (List Int)
  newSize : ∀ l, newNames = some l → l.length = names.length

/-- The flags of `SNetRecCopyItems`. -/
structure ItemsCopyFlags extends CopyFlags where
  fields : Bool
  tags : Bool
  btags : Bool
deriving DecidableEq, Repr

/-- `cnt` names from `off` on. -/
def slice (l : List Int) (off cnt : Nat) : List Int := (l.drop off).take cnt

namespace ItemNames

variable (req : ItemNames)

def fields : List Int := slice req.names 0 req.fieldsCnt

def tags : List Int := slice req.names req.fieldsCnt req.tagsCnt

def btags : List Int := slice req.names (req.fieldsCnt + req.tagsCnt) req.btagsCnt

end ItemNames

namespace ItemVec

variable {V : Type} (iv : ItemVec V) (name : Int)

/-- The vectors of a new record: the `i`-th value is the `i`-th of the array. -/
def init {A : Type} (names : Vector) (mk : A → V) (vals : List A) : Option (ItemVec V) :=
  if vals.length < names.size then none
  else some ⟨names, (vals.take names.size).map fun a => ⟨mk a, false, false⟩⟩

/-- `drecord_get_item`: where the item is, and the item; `none` inside for a name that is not found -/
def getItem : Option (Option (Nat × RecordItem V)) := do
  let l ← iv.names
  match l.idxOf? name with
  | none => some none
  | some idx => iv.items[idx]?.map fun it => some (idx, it)

/-- What is done with the item that `drecord_get_item` points to. -/
def updateItem (f : RecordItem V → RecordItem V) : Option (ItemVec V × Option (RecordItem V)) := do
  match ← iv.getItem name with
  | none => some (iv, none)
  | some (idx, it) => some ({ iv with items := iv.items.set idx (f it) }, some it)

/-- `drecord_get_tag` -/
def getTag (tags : ItemVec Int) (name : Int) : Option Int := do
  match ← tags.getItem name with
  | none => some 0
  | some (_, t) => some t.val

/-- `drecord_take_tag` -/
def takeTag (tags : ItemVec Int) (name : Int) : Option (ItemVec Int × Int) := do
  let (tags, t) ← tags.updateItem name fun t => { t with consumed := true }
  some (tags, (t.map (·.val)).getD 0)

/-- `drecord_set_tag` -/
def setTag (tags : ItemVec Int) (name val : Int) : Option (ItemVec Int) := do
  let (tags, _) ← tags.updateItem name fun t => { t with val := val }
  some tags

end ItemVec

/-- `drecord_set_field_data`, the flags apart that are not of the data -/
def setFieldData {D : Type} (data : Option D) : FieldVal D :=
  match data with
  | none => ⟨none, false, false⟩
  | some d => ⟨some d, true, true⟩

/-- What reads and writes at `l + off` see. -/
def namesAt (l : List Int) (off : Nat) : NamesPtr := fun i => l[off + i]?

/-- The pointer `new_names + off`; one that is not `NULL` any more although `new_names` is cannot be read. -/
def newNamesAt (newNames : Option (List Int)) (off : Nat) : Option NamesPtr :=
  match newNames with
  | some l => some (namesAt l off)
  | none => if off = 0 then none else some fun _ => none

/-- One of the three calls that `SNetRecAddItems` makes. -/
def addVec {V : Type} (kind : ItemKind V) (cnt : Nat) (names : List Int) (vec : ItemVec V) : ItemVec V × Nat :=
  if cnt > 0 then vec.drecordAddItems kind names else (vec, 0)

/-- One of the three calls that `SNetRecRemoveItems` makes. -/
def removeVec {V : Type} (cnt : Nat) (names : List Int) (vec : ItemVec V) : Option (ItemVec V × Nat) :=
  if cnt > 0 then vec.drecordRemoveItems names else some (vec, 0)

/-- One of the three calls that `SNetRecCopyItems` makes. -/
def copyVec {V : Type} (kind : ItemKind V) (flags : CopyFlags) (requested : Bool) (specs : Option CopySpecs)
    (off count : CopySpecs → Nat) (vec1 vec2 : ItemVec V) : Option (ItemVec V × ItemVec V × Nat) :=
  if requested then
    ItemVec.drecordCopyItems kind flags (specs.map fun s => namesAt s.names (off s))
      (specs.bind fun s => newNamesAt s.newNames (off s)) ((specs.map count).getD 0) vec1 vec2
  else some (vec1, vec2, 0)

namespace Record

variable {D : Type} (r : Record D)

/-- `SNetDataRecInitFromArrays` -/
def initFromArrays (venc : VariantEncoding) (fields : List (Option D)) (tags btags : List Int) :
    Option (Record D) := do
  let tags ← ItemVec.init venc.tags id tags
  let btags ← ItemVec.init venc.btags id btags
  let fields ← ItemVec.init venc.fields setFieldData fields
  some { fields := fields, tags := tags, btags := btags }

def venc : VariantEncoding := ⟨r.fields.names, r.tags.names, r.btags.names⟩

/-- `drecord_copy_field`: the field of the source afterwards, and the copy -/
def copyField (it : RecordItem (FieldVal D)) : RecordItem (FieldVal D) × RecordItem (FieldVal D) :=
  match it.val.data with
  | none => (it, ⟨⟨none, false, false⟩, false, false⟩)
  | some d => ({ it with val := { it.val with excl := false } }, ⟨⟨some d, false, it.val.here⟩, false, false⟩)

/-- `drecord_init_copy`: the source afterwards, and the copy. Tags are copied as they are in memory. -/
def initCopy : Option (Record D × Record D) := do
  let venc ← r.venc.initCopy
  if r.tags.items.length < venc.tags.size then none
  else if r.btags.items.length < venc.btags.size then none
  else if r.fields.items.length < venc.fields.size then none
  else
    let fieldsCnt := venc.fields.size
    some
      ({ r with
          fields := { r.fields with
            items := (r.fields.items.take fieldsCnt).map (fun f => (copyField f).1) ++ r.fields.items.drop fieldsCnt } },
        { fields := ⟨venc.fields, (r.fields.items.take fieldsCnt).map fun f => (copyField f).2⟩
          tags := ⟨venc.tags, r.tags.items.take venc.tags.size⟩
          btags := ⟨venc.btags, r.btags.items.take venc.btags.size⟩ })

/-- `SNetRecAddItems`, with the number of items added -/
def addItems (req : ItemNames) : Record D × Nat :=
  let (fields, n1) := addVec (fieldKind D) req.fieldsCnt req.fields r.fields
  let (tags, n2) := addVec tagKind req.tagsCnt req.tags r.tags
  let (btags, n3) := addVec tagKind req.btagsCnt req.btags r.btags
  ({ fields := fields, tags := tags, btags := btags }, n1 + n2 + n3)

/-- `SNetRecRemoveItems`, with the number of items removed -/
def removeItems (req : ItemNames) : Option (Record D × Nat) := do
  let (fields, n1) ← removeVec req.fieldsCnt req.fields r.fields
  let (tags, n2) ← removeVec req.tagsCnt req.tags r.tags
  let (btags, n3) ← removeVec req.btagsCnt req.btags r.btags
  some ({ fields := fields, tags := tags, btags := btags }, n1 + n2 + n3)

/-- `SNetRecGetTag` -/
def getTag (name : Int) : Option Int := r.tags.getTag name

/-- `SNetRecTakeTag` -/
def takeTag (name : Int) : Option (Record D × Int) := do
  let (tags, val) ← r.tags.takeTag name
  some ({ r with tags := tags }, val)

/-- `SNetRecSetTag` -/
def setTag (name val : Int) : Option (Record D) := do
  let tags ← r.tags.setTag name val
  some { r with tags := tags }

/-- `SNetRecGetBTag` -/
def getBTag (name : Int) : Option Int := r.btags.getTag name

/-- `SNetRecTakeBTag` -/
def takeBTag (name : Int) : Option (Record D × Int) := do
  let (btags, val) ← r.btags.takeTag name
  some ({ r with btags := btags }, val)

/-- `SNetRecSetBTag` -/
def setBTag (name val : Int) : Option (Record D) := do
  let btags ← r.btags.setTag name val
  some { r with btags := btags }

/-- `SNetRecGetField`: what is in the slot that it points to -/
def getField (name : Int) : Option (Option (Option D)) :=
  (r.fields.getItem name).map fun f => f.map fun p => p.2.val.data

/-- `SNetRecTakeField` -/
def takeField (name : Int) : Option (Record D × Option (Option D)) := do
  let (fields, f) ← r.fields.updateItem name fun f => { f with consumed := true }
  some ({ r with fields := fields }, f.map fun f => f.val.data)

/-- `SNetRecSetField` -/
def setField (name : Int) (val : Option D) : Option (Record D) := do
  let (fields, _) ← r.fields.updateItem name fun _ => ⟨setFieldData val, false, false⟩
  some { r with fields := fields }

/-- `SNetRecCopyItems`: both records afterwards, and the number of items copied. The binding tags are looked for
at `names + tags_cnt`. -/
def copyItems (flags : ItemsCopyFlags) (specs : Option CopySpecs) (r1 r2 : Record D) :
    Option (Record D × Record D × Nat) := do
  let (f1, f2, n1) ← copyVec (fieldKind D) flags.toCopyFlags flags.fields specs (fun _ => 0) (·.fieldsCnt)
    r1.fields r2.fields
  let (t1, t2, n2) ← copyVec tagKind flags.toCopyFlags flags.tags specs (·.fieldsCnt) (·.tagsCnt) r1.tags r2.tags
  let (b1, b2, n3) ← copyVec tagKind flags.toCopyFlags flags.btags specs (·.tagsCnt) (·.btagsCnt)
    r1.btags r2.btags
  some (⟨f1, t1, b1⟩, ⟨f2, t2, b2⟩, n1 + n2 + n3)

end Record

/-! ## The operations on maps -/

open ItemVec (Map Binding)

/-- The maps that the vectors of a record stand for. -/
structure RecordMap (D : Type) where
  fields : Map (FieldVal D)
  tags : Map Int
  btags : Map Int

def Record.maps {D : Type} (r : Record D) : RecordMap D := ⟨r.fields.map, r.tags.map, r.btags.map⟩

/-- All three pairs of vectors belong together. -/
structure Record.Aligned {D : Type} (r : Record D) : Prop where
  fields : r.fields.Aligned
  tags : r.tags.Aligned
  btags : r.btags.Aligned

def initMap {A V : Type} (names : Vector) (mk : A → V) (vals : List A) : Map V := fun name =>
  (List.zipWith (fun name a => (⟨name, ⟨mk a, false, false⟩⟩ : Binding V)) names.items vals).dlookup name

def updated {V : Type} (m : Map V) (name : Int) (f : RecordItem V → RecordItem V) : Map V := fun n =>
  if n = name then (m n).map f else m n

def sharedField {D : Type} (f : RecordItem (FieldVal D)) : RecordItem (FieldVal D) :=
  { f with val := { f.val with excl := f.val.excl && f.val.data.isNone } }

def copiedField {D : Type} (f : RecordItem (FieldVal D)) : RecordItem (FieldVal D) :=
  ⟨⟨f.val.data, false, f.val.here && f.val.data.isSome⟩, false, false⟩

/-- What one of the three calls does to the maps of the two vectors, with the names from `off` on. -/
def copyMap {V : Type} (kind : ItemKind V) (flags : CopyFlags) (requested : Bool) (specs : Option CopySpecs)
    (off count : CopySpecs → Nat) (m : Map V × Map V) : Map V × Map V :=
  if requested then
    match specs with
    | none => ItemVec.copyAll kind flags m
    | some s =>
      ItemVec.copyBindings kind flags (namesAt (s.newNames.getD s.names) (off s)) 0
        (slice s.names (off s) (count s)) m
  else m

namespace RecordMap

variable {D : Type} (m : RecordMap D)

def initFromArrays (venc : VariantEncoding) (fields : List (Option D)) (tags btags : List Int) : RecordMap D :=
  ⟨initMap venc.fields setFieldData fields, initMap venc.tags id tags, initMap venc.btags id btags⟩

def initCopy : RecordMap D × RecordMap D :=
  ({ m with fields := fun name => (m.fields name).map sharedField },
    { m with fields := fun name => (m.fields name).map copiedField })

def addItems (req : ItemNames) : RecordMap D :=
  ⟨ItemVec.added (fieldKind D) m.fields req.fields, ItemVec.added tagKind m.tags req.tags,
    ItemVec.added tagKind m.btags req.btags⟩

def removeItems (req : ItemNames) : RecordMap D :=
  ⟨ItemVec.removed m.fields req.fields, ItemVec.removed m.tags req.tags, ItemVec.removed m.btags req.btags⟩

/-- The names of the tags stand behind those of the fields, and the names of the binding tags behind both. -/
def copyItems (flags : ItemsCopyFlags) (specs : Option CopySpecs) (m1 m2 : RecordMap D) :
    RecordMap D × RecordMap D :=
  let f := copyMap (fieldKind D) flags.toCopyFlags flags.fields specs (fun _ => 0) (·.fieldsCnt)
    (m1.fields, m2.fields)
  let t := copyMap tagKind flags.toCopyFlags flags.tags specs (·.fieldsCnt) (·.tagsCnt) (m1.tags, m2.tags)
  let b := copyMap tagKind flags.toCopyFlags flags.btags specs (fun s => s.fieldsCnt + s.tagsCnt) (·.btagsCnt)
    (m1.btags, m2.btags)
  (⟨f.1, t.1, b.1⟩, ⟨f.2, t.2, b.2⟩)

end RecordMap

/-! ## One pair of vectors -/

section Vectors

variable {V : Type} {kind : ItemKind V} {iv : ItemVec V} {name : Int}

theorem ItemVec.Aligned.getItem (h : iv.Aligned) (hv : iv.names ≠ none) (name : Int) :
    iv.getItem name = some none ∧ iv.map name = none ∨
      ∃ pre it post, iv.bindings = pre ++ ⟨name, it⟩ :: post ∧ name ≠ unsetItemVal ∧
        iv.getItem name = some (some (pre.length, it)) ∧ iv.map name = some it := by
  obtain ⟨hh, hc⟩ := h.holds
  obtain ⟨l, hl⟩ := Option.ne_none_iff_exists'.1 hv
  have hkeys : l = iv.bindings.keys := by
    rw [← hh.names, hl]
    rfl
  by_cases hmem : name ∈ iv.bindings.keys
  · obtain ⟨pre, it, post, heq, hnot⟩ := ItemVec.exists_middle_of_mem_keys hmem
    have hname : name ≠ unsetItemVal := by
      apply hc.labels ⟨name, it⟩
      rw [heq]
      exact mem_append_right _ (mem_cons_self ..)
    rw [heq] at hh hkeys
    refine .inr ⟨pre, it, post, heq, hname, ?_, ?_⟩
    · have hidx : l.idxOf? name = some pre.length := by
        rw [hkeys, keys_append, keys_cons, Vector.idxOf?_middle hnot, List.keys, length_map]
      unfold ItemVec.getItem
      simp only [hl, hidx, (hh.mark hnot).2, Option.bind_eq_bind, Option.bind_some, Option.map_some]
    · rw [h.map_eq, heq]
      rw [heq] at hc
      exact ItemVec.mapOf_middle hc.marked hname
  · refine .inl ⟨?_, dlookup_eq_none.2 hmem⟩
    rw [← hkeys] at hmem
    unfold ItemVec.getItem
    simp only [hl, idxOf?_eq_none_iff.2 hmem, Option.bind_eq_bind, Option.bind_some]

theorem ItemVec.Aligned.updateItem (h : iv.Aligned) (hv : iv.names ≠ none) (name : Int)
    {f : RecordItem V → RecordItem V} (hf : ∀ it, it.deleted = false → (f it).deleted = false) :
    ∃ r, iv.updateItem name f = some r ∧ r.1.Aligned ∧ r.1.map = updated iv.map name f ∧ r.2 = iv.map name := by
  unfold ItemVec.updateItem
  rcases h.getItem hv name with ⟨hget, hmap⟩ | ⟨pre, it, post, heq, hname, hget, hmap⟩
  · rw [hget]
    refine ⟨_, rfl, h, ?_, hmap.symm⟩
    funext n
    by_cases hn : n = name
    · subst hn
      simp [updated, hmap]
    · simp [updated, hn]
  · obtain ⟨hh, hc⟩ := h.holds
    have hmapOf := h.map_eq
    rw [heq] at hh hc hmapOf
    have hdel := hc.marked.present_middle hname
    obtain ⟨hm', hmap'⟩ := hc.marked.replace (f it) hname (hf it hdel)
    have hpresent : ∀ b ∈ pre ++ (⟨name, f it⟩ : Binding V) :: post, b.2.deleted = false := by
      intro b hb
      rw [mem_append, mem_cons] at hb
      rcases hb with hb | rfl | hb
      · exact hc.present b (mem_append_left _ hb)
      · exact hf it hdel
      · exact hc.present b (mem_append_right _ (mem_cons_of_mem _ hb))
    have hh' : ItemVec.Holds { iv with items := iv.items.set pre.length (f it) }
        (pre ++ ⟨name, f it⟩ :: post) := by
      refine ⟨?_, hh.set⟩
      rw [hh.names, keys_append, keys_append, keys_cons, keys_cons]
    obtain ⟨ha, hma⟩ := hh'.aligned (hm'.clean_of_present hpresent)
    rw [hget]
    refine ⟨_, rfl, ha, ?_, hmap.symm⟩
    rw [hma, hmap', ← hmapOf]
    funext n
    by_cases hn : n = name
    · subst hn
      rw [Function.update_self, updated, if_pos rfl, hmap, Option.map_some]
    · rw [Function.update_of_ne hn, updated, if_neg hn]

def tagVal (m : Map Int) (name : Int) : Int := ((m name).map (·.val)).getD 0

def fieldSlot {D : Type} (m : Map (FieldVal D)) (name : Int) : Option (Option D) := (m name).map (·.val.data)

theorem ItemVec.Aligned.getTag {iv : ItemVec Int} (h : iv.Aligned) (hv : iv.names ≠ none) :
    iv.getTag name = some (tagVal iv.map name) := by
  unfold ItemVec.getTag tagVal
  rcases h.getItem hv name with ⟨hget, hmap⟩ | ⟨pre, it, post, -, -, hget, hmap⟩
  · rw [hget, hmap]
    rfl
  · rw [hget, hmap]
    rfl

theorem ItemVec.Aligned.takeTag {iv : ItemVec Int} (h : iv.Aligned) (hv : iv.names ≠ none) (name : Int) :
    ∃ iv', iv.takeTag name = some (iv', tagVal iv.map name) ∧ iv'.Aligned ∧
      iv'.map = updated iv.map name fun t => { t with consumed := true } := by
  obtain ⟨⟨iv', t⟩, hrun, ha, hm, ht⟩ :=
    h.updateItem hv name (f := fun t => { t with consumed := true }) fun it hit => hit
  unfold ItemVec.takeTag tagVal
  rw [hrun, ← ht]
  exact ⟨iv', rfl, ha, hm⟩

theorem ItemVec.Aligned.setTag {iv : ItemVec Int} (h : iv.Aligned) (hv : iv.names ≠ none) (name val : Int) :
    ∃ iv', iv.setTag name val = some iv' ∧ iv'.Aligned ∧
      iv'.map = updated iv.map name fun t => { t with val := val } := by
  obtain ⟨⟨iv', t⟩, hrun, ha, hm, -⟩ :=
    h.updateItem hv name (f := fun t => { t with val := val }) fun it hit => hit
  unfold ItemVec.setTag
  rw [hrun]
  exact ⟨iv', rfl, ha, hm⟩

theorem ItemVec.Aligned.fieldSlot {D : Type} {iv : ItemVec (FieldVal D)} (h : iv.Aligned) (hv : iv.names ≠ none) :
    (iv.getItem name).map (fun f => f.map fun p => p.2.val.data) = some (SNet.Svpgw.fieldSlot iv.map name) := by
  unfold SNet.Svpgw.fieldSlot
  rcases h.getItem hv name with ⟨hget, hmap⟩ | ⟨pre, it, post, -, -, hget, hmap⟩
  · rw [hget, hmap]
    rfl
  · rw [hget, hmap]
    rfl

theorem ItemVec.init_spec {A : Type} {names : Vector} (mk : A → V) {vals : List A} (hd : names.Distinct)
    (hl : unsetItemVal ∉ names.items) (hcnt : vals.length = names.size) :
    ∃ iv, ItemVec.init names mk vals = some iv ∧ iv.Aligned ∧ iv.map = initMap names mk vals := by
  unfold ItemVec.init
  rw [if_neg (by omega)]
  refine ⟨_, rfl, ⟨?_, hd, hl, ?_⟩, ?_⟩
  · rw [length_map, length_take, hcnt, Nat.min_self]
  · intro it hit
    obtain ⟨a, -, rfl⟩ := List.mem_map.1 hit
    rfl
  · funext n
    unfold ItemVec.map ItemVec.bindings initMap
    rw [take_of_length_le (Nat.le_of_eq hcnt), zipWith_map_right]

end Vectors

/-! ## Copying one pair of vectors -/

section Copying

variable {V : Type} {kind : ItemKind V} {flags : CopyFlags} {requested : Bool} {specs : Option CopySpecs}
  {s : CopySpecs} {l : List Int} {off off' cnt i : Nat} {p q : NamesPtr} {todo : List Int} {m : Map V × Map V}
  {vec1 vec2 : ItemVec V}

/-- The names and the new names at one place are those at another. -/
def NamedAlike (s : CopySpecs) (off off' cnt : Nat) : Prop :=
  slice s.names off cnt = slice s.names off' cnt ∧
    match s.newNames with
    | none => off = 0
    | some l => slice l off cnt = slice l off' cnt

def NamedNowhere (s : CopySpecs) (vec1 : ItemVec V) (off off' cnt : Nat) : Prop :=
  ∀ name, name ∈ slice s.names off cnt ∨ name ∈ slice s.names off' cnt → name ∉ vec1.names.items

/-- One of the three calls copies what it should: there are no more names than items in the source, the names
at `codeOff`, where the call looks for them, are those at `off`, where they are, or the source has neither, and
`CopyFair`. -/
def CopyVecFair (kind : ItemKind V) (flags : CopyFlags) (requested : Bool) (specs : Option CopySpecs)
    (codeOff off count : CopySpecs → Nat) (vec1 vec2 : ItemVec V) : Prop :=
  ∀ s, specs = some s → requested = true →
    (¬ (flags.consumed = false ∧ flags.unconsumed = false) → count s ≤ vec1.names.size) ∧
    (NamedAlike s (codeOff s) (off s) (count s) ∨ NamedNowhere s vec1 (codeOff s) (off s) (count s)) ∧
    ItemVec.CopyFair kind flags (namesAt (s.newNames.getD s.names) (off s)) 0
      (slice s.names (off s) (count s)) (vec1.map, vec2.map)

def CopySpecs.Labels (s : CopySpecs) : Prop :=
  unsetItemVal ∉ s.names ∧ ∀ l, s.newNames = some l → unsetItemVal ∉ l

theorem getElem?_slice (h : i < cnt) : (slice l off cnt)[i]? = l[off + i]? := by
  rw [slice, getElem?_take_of_lt h, getElem?_drop]

theorem length_slice (h : off + cnt ≤ l.length) : (slice l off cnt).length = cnt := by
  rw [slice, length_take, length_drop]
  omega

theorem mem_of_mem_slice {name : Int} (h : name ∈ slice l off cnt) : name ∈ l :=
  mem_of_mem_drop (mem_of_mem_take h)

variable (kind flags m) in
theorem copyFair_congr (h : ∀ k, k < todo.length → p (i + k) = q (i + k)) :
    (ItemVec.CopyFair kind flags p i todo m ↔ ItemVec.CopyFair kind flags q i todo m) ∧
      ItemVec.copyBindings kind flags p i todo m = ItemVec.copyBindings kind flags q i todo m := by
  induction todo generalizing i m with
  | nil => exact ⟨Iff.rfl, rfl⟩
  | cons name todo ih =>
    have h0 : p i = q i := h 0 (Nat.zero_lt_succ _)
    have hrest : ∀ k, k < todo.length → p (i + 1 + k) = q (i + 1 + k) := by
      intro k hk
      rw [Nat.add_assoc, Nat.add_comm 1 k]
      exact h (k + 1) (Nat.succ_lt_succ hk)
    unfold ItemVec.CopyFair ItemVec.copyBindings
    rw [h0]
    obtain ⟨hf, hb⟩ := ih (ItemVec.copyBinding kind flags m name ((q i).getD name)) hrest
    exact ⟨and_congr Iff.rfl hf, hb⟩

variable (kind flags p) in
theorem copyBindings_of_absent (h : ∀ name ∈ todo, m.1 name = none) :
    ItemVec.CopyFair kind flags p i todo m ∧ ItemVec.copyBindings kind flags p i todo m = m := by
  induction todo generalizing i with
  | nil => exact ⟨trivial, rfl⟩
  | cons name todo ih =>
    have h0 := h name (mem_cons_self ..)
    obtain ⟨hf, hb⟩ := ih (i := i + 1) fun n hn => h n (mem_cons_of_mem _ hn)
    unfold ItemVec.CopyFair ItemVec.copyBindings
    rw [ItemVec.copyBinding_of_none h0]
    refine ⟨⟨?_, hf⟩, hb⟩
    intro it hit
    rw [h0] at hit
    cases hit

theorem ItemVec.Aligned.map_eq_none {iv : ItemVec V} {name : Int} (h : iv.Aligned) (hn : name ∉ iv.names.items) :
    iv.map name = none := by
  apply dlookup_eq_none.2
  rw [h.keys]
  exact hn

theorem NamedAlike.read (h : NamedAlike s off off' cnt) (hi : i < cnt) :
    (newNamesAt s.newNames off).getD (namesAt s.names off) i = namesAt (s.newNames.getD s.names) off' i := by
  obtain ⟨hn, hnew⟩ := h
  have hread : s.names[off + i]? = s.names[off' + i]? := by
    rw [← getElem?_slice hi, hn, getElem?_slice hi]
  rcases hl : s.newNames with _ | l
  · rw [hl] at hnew
    subst hnew
    exact hread
  · rw [hl] at hnew
    change l[off + i]? = l[off' + i]?
    rw [← getElem?_slice hi, hnew, getElem?_slice hi]

theorem copyVec_spec {codeOff off count : CopySpecs → Nat} (h1 : vec1.Aligned) (h2 : vec2.Aligned)
    (hsize : ∀ s, codeOff s + count s ≤ s.names.length ∧ off s + count s ≤ s.names.length)
    (hlabels : ∀ s, specs = some s → s.Labels)
    (hfair : CopyVecFair kind flags requested specs codeOff off count vec1 vec2) :
    ∃ r, copyVec kind flags requested specs codeOff count vec1 vec2 = some r ∧ r.1.Aligned ∧ r.2.1.Aligned ∧
      (r.1.map, r.2.1.map) = copyMap kind flags requested specs off count (vec1.map, vec2.map) := by
  unfold copyVec copyMap
  by_cases hreq : requested = true
  · rw [if_pos hreq, if_pos hreq]
    rcases specs with _ | s
    · exact ItemVec.drecordCopyItems_noSpecs h1 h2
    · obtain ⟨hcount, hplace, hkeep⟩ := hfair s rfl hreq
      obtain ⟨hsize1, hsize2⟩ := hsize s
      have hlen1 := length_slice hsize1
      have hptr : ∀ k name, (slice s.names (codeOff s) (count s))[k]? = some name →
          namesAt s.names (codeOff s) k = some name := by
        intro k name hk
        obtain ⟨hlt, -⟩ := List.getElem?_eq_some_iff.1 hk
        rw [hlen1] at hlt
        rw [← hk, getElem?_slice hlt]
        rfl
      have hlab : ∀ name ∈ slice s.names (codeOff s) (count s), name ≠ unsetItemVal := by
        rintro name hmem rfl
        exact (hlabels s rfl).1 (mem_of_mem_slice hmem)
      -- what the call does with the pointers it has is what it should do
      have hsame : ItemVec.CopyFair kind flags ((newNamesAt s.newNames (codeOff s)).getD (namesAt s.names (codeOff s)))
            0 (slice s.names (codeOff s) (count s)) (vec1.map, vec2.map) ∧
          ItemVec.copyBindings kind flags ((newNamesAt s.newNames (codeOff s)).getD (namesAt s.names (codeOff s)))
              0 (slice s.names (codeOff s) (count s)) (vec1.map, vec2.map) =
            ItemVec.copyBindings kind flags (namesAt (s.newNames.getD s.names) (off s)) 0
              (slice s.names (off s) (count s)) (vec1.map, vec2.map) := by
        rcases hplace with halike | hnowhere
        · obtain ⟨hf, hb⟩ := copyFair_congr kind flags (vec1.map, vec2.map) (i := 0)
            (p := (newNamesAt s.newNames (codeOff s)).getD (namesAt s.names (codeOff s)))
            (q := namesAt (s.newNames.getD s.names) (off s)) (by
              intro k (hk : k < (slice s.names (codeOff s) (count s)).length)
              rw [hlen1] at hk
              rw [Nat.zero_add]
              exact halike.read hk)
          rw [← halike.1] at hkeep ⊢
          exact ⟨hf.2 hkeep, hb⟩
        · obtain ⟨hf, hb⟩ := copyBindings_of_absent kind flags
            ((newNamesAt s.newNames (codeOff s)).getD (namesAt s.names (codeOff s))) (i := 0)
            (m := (vec1.map, vec2.map)) fun name hmem => h1.map_eq_none (hnowhere name (.inl hmem))
          obtain ⟨-, hb'⟩ := copyBindings_of_absent kind flags (namesAt (s.newNames.getD s.names) (off s)) (i := 0)
            (m := (vec1.map, vec2.map)) fun name hmem => h1.map_eq_none (hnowhere name (.inr hmem))
          exact ⟨hf, hb.trans hb'.symm⟩
      have hspec := ItemVec.drecordCopyItems_specs (newNamesAt s.newNames (codeOff s)) h1 h2 (by rw [hlen1]; exact hcount) hptr hlab hsame.1
      rw [hsame.2, hlen1] at hspec
      exact hspec
  · rw [if_neg hreq, if_neg hreq]
    exact ⟨_, rfl, h1, h2, rfl⟩

end Copying

/-! ## Records -/

namespace Record

variable {D : Type} {r r1 r2 : Record D} {req : ItemNames} {specs : Option CopySpecs} {flags : ItemsCopyFlags}

theorem initFromArrays_spec {venc : VariantEncoding} {fields : List (Option D)} {tags btags : List Int}
    (hvenc : ∀ v ∈ [venc.fields, venc.tags, venc.btags], v.Distinct ∧ unsetItemVal ∉ v.items)
    (hf : fields.length = venc.fields.size) (ht : tags.length = venc.tags.size)
    (hb : btags.length = venc.btags.size) :
    ∃ r, initFromArrays venc fields tags btags = some r ∧ r.Aligned ∧
      r.maps = RecordMap.initFromArrays venc fields tags btags := by
  obtain ⟨hdf, hlf⟩ := hvenc venc.fields (by simp)
  obtain ⟨hdt, hlt⟩ := hvenc venc.tags (by simp)
  obtain ⟨hdb, hlb⟩ := hvenc venc.btags (by simp)
  obtain ⟨f, hfr, hfa, hfm⟩ := ItemVec.init_spec setFieldData hdf hlf hf
  obtain ⟨t, htr, hta, htm⟩ := ItemVec.init_spec id hdt hlt ht
  obtain ⟨b, hbr, hba, hbm⟩ := ItemVec.init_spec id hdb hlb hb
  unfold initFromArrays
  rw [hfr, htr, hbr]
  refine ⟨_, rfl, ⟨hfa, hta, hba⟩, ?_⟩
  unfold maps RecordMap.initFromArrays
  rw [hfm, htm, hbm]

theorem copyField_eq (f : RecordItem (FieldVal D)) : copyField f = (sharedField f, copiedField f) := by
  obtain ⟨⟨data, excl, here⟩, consumed, deleted⟩ := f
  cases data <;> simp [copyField, sharedField, copiedField]

theorem map_items {V : Type} {iv : ItemVec V} {f : RecordItem V → RecordItem V} (h : iv.Aligned)
    (hf : ∀ it, it.deleted = false → (f it).deleted = false) :
    ItemVec.Aligned ⟨iv.names, iv.items.map f⟩ ∧
      ItemVec.map ⟨iv.names, iv.items.map f⟩ = fun name => (iv.map name).map f := by
  have ha : ItemVec.Aligned ⟨iv.names, iv.items.map f⟩ := by
    refine ⟨?_, h.distinct, h.labels, ?_⟩
    · rw [length_map]
      exact h.length
    · intro it hit
      obtain ⟨it', hit', rfl⟩ := List.mem_map.1 hit
      exact hf it' (h.present it' hit')
  refine ⟨ha, ?_⟩
  funext name
  by_cases hmem : name ∈ iv.names.items
  · obtain ⟨k, hk⟩ := mem_iff_getElem?.1 hmem
    rw [ha.map_getElem hk, h.map_getElem hk, getElem?_map]
  · rw [ha.map_eq_none hmem, h.map_eq_none hmem]
    rfl

theorem venc_initCopy (hnull : r.tags.names = none → r.btags.names.items = [])
    (hthere : r.tags.names ≠ none → r.btags.names ≠ none) :
    ∃ v, r.venc.initCopy = some v ∧ v.fields = r.fields.names ∧ v.tags = r.tags.names ∧
      v.btags.items = r.btags.names.items := by
  unfold VariantEncoding.initCopy venc
  rcases ht : r.tags.names with _ | tags
  · exact ⟨_, rfl, rfl, rfl, (hnull ht).symm⟩
  · rcases hb : r.btags.names with _ | btags
    · exact absurd hb (hthere (by rw [ht]; exact Option.some_ne_none tags))
    · exact ⟨_, rfl, rfl, rfl, rfl⟩

theorem initCopy_spec (h : r.Aligned) (hnull : r.tags.names = none → r.btags.names.items = [])
    (hthere : r.tags.names ≠ none → r.btags.names ≠ none) :
    ∃ p, r.initCopy = some p ∧ p.1.Aligned ∧ p.2.Aligned ∧ (p.1.maps, p.2.maps) = r.maps.initCopy := by
  obtain ⟨v, hv, hvf, hvt, hvb⟩ := venc_initCopy hnull hthere
  have hbsize : v.btags.size = r.btags.items.length := by
    rw [h.btags.length, Vector.size, hvb]
    rfl
  obtain ⟨hshared, hsharedm⟩ := map_items (f := sharedField) h.fields fun it hit => hit
  obtain ⟨hcopied, hcopiedm⟩ := map_items (f := copiedField) h.fields fun _ _ => rfl
  have hbcopy : ItemVec.Aligned ⟨v.btags, r.btags.items⟩ ∧ ItemVec.map ⟨v.btags, r.btags.items⟩ = r.btags.map := by
    refine ⟨⟨hbsize.symm, ?_, ?_, h.btags.present⟩, ?_⟩
    · rw [Vector.Distinct, hvb]
      exact h.btags.distinct
    · rw [hvb]
      exact h.btags.labels
    · funext name
      unfold ItemVec.map ItemVec.bindings
      rw [hvb]
  unfold initCopy
  simp only [hv, Option.bind_eq_bind, Option.bind_some, hvf, hvt, hbsize, ← h.fields.length, ← h.tags.length,
    Nat.lt_irrefl, if_false, take_length, drop_length, append_nil, copyField_eq]
  refine ⟨_, rfl, ⟨hshared, h.tags, h.btags⟩, ⟨hcopied, h.tags, hbcopy.1⟩, ?_⟩
  unfold maps RecordMap.initCopy
  rw [hsharedm, hcopiedm, hbcopy.2]

theorem slice_zero (l : List Int) (off : Nat) : slice l off 0 = [] := take_zero ..

section Names

variable {V : Type} {kind : ItemKind V} {iv : ItemVec V} {names : List Int} {cnt : Nat}

variable (kind names cnt) in
theorem addVec_spec (h : iv.Aligned) (hlabels : ∀ name ∈ names, name ≠ unsetItemVal) (h0 : cnt = 0 → names = []) :
    (addVec kind cnt names iv).1.Aligned ∧ (addVec kind cnt names iv).1.map = ItemVec.added kind iv.map names := by
  unfold addVec
  by_cases hc : cnt > 0
  · rw [if_pos hc]
    exact ItemVec.drecordAddItems_spec kind h hlabels
  · rw [if_neg hc, h0 (by omega)]
    refine ⟨h, ?_⟩
    funext n
    simp [ItemVec.added]

variable (names cnt) in
theorem removeVec_spec (h : iv.Aligned) (hlabels : ∀ name ∈ names, name ≠ unsetItemVal) (h0 : cnt = 0 → names = [])
    (hcount : names.length ≤ iv.names.size) :
    ∃ p, removeVec cnt names iv = some p ∧ p.1.Aligned ∧ p.1.map = ItemVec.removed iv.map names := by
  unfold removeVec
  by_cases hc : cnt > 0
  · rw [if_pos hc]
    exact ItemVec.drecordRemoveItems_spec h hlabels hcount
  · rw [if_neg hc, h0 (by omega)]
    refine ⟨_, rfl, h, ?_⟩
    funext n
    simp [ItemVec.removed]

end Names

theorem labels_slice {l : List Int} {off cnt : Nat} (h : unsetItemVal ∉ l) :
    ∀ name ∈ slice l off cnt, name ≠ unsetItemVal := by
  rintro name hmem rfl
  exact h (mem_of_mem_slice hmem)

theorem addItems_spec (h : r.Aligned) (hlabels : unsetItemVal ∉ req.names) :
    (r.addItems req).1.Aligned ∧ (r.addItems req).1.maps = r.maps.addItems req := by
  obtain ⟨hf, hfm⟩ := addVec_spec (fieldKind D) req.fields req.fieldsCnt h.fields
    (labels_slice hlabels) fun h0 => by rw [ItemNames.fields, h0, slice_zero]
  obtain ⟨ht, htm⟩ := addVec_spec tagKind req.tags req.tagsCnt h.tags
    (labels_slice hlabels) fun h0 => by rw [ItemNames.tags, h0, slice_zero]
  obtain ⟨hb, hbm⟩ := addVec_spec tagKind req.btags req.btagsCnt h.btags
    (labels_slice hlabels) fun h0 => by rw [ItemNames.btags, h0, slice_zero]
  refine ⟨⟨hf, ht, hb⟩, ?_⟩
  unfold maps RecordMap.addItems
  rw [← hfm, ← htm, ← hbm]
  rfl

theorem removeItems_spec (h : r.Aligned) (hlabels : unsetItemVal ∉ req.names)
    (hf : req.fields.length ≤ r.fields.names.size) (ht : req.tags.length ≤ r.tags.names.size)
    (hb : req.btags.length ≤ r.btags.names.size) :
    ∃ p, r.removeItems req = some p ∧ p.1.Aligned ∧ p.1.maps = r.maps.removeItems req := by
  obtain ⟨f, hfr, hfa, hfm⟩ := removeVec_spec req.fields req.fieldsCnt h.fields
    (labels_slice hlabels) (fun h0 => by rw [ItemNames.fields, h0, slice_zero]) hf
  obtain ⟨t, htr, hta, htm⟩ := removeVec_spec req.tags req.tagsCnt h.tags
    (labels_slice hlabels) (fun h0 => by rw [ItemNames.tags, h0, slice_zero]) ht
  obtain ⟨b, hbr, hba, hbm⟩ := removeVec_spec req.btags req.btagsCnt h.btags
    (labels_slice hlabels) (fun h0 => by rw [ItemNames.btags, h0, slice_zero]) hb
  unfold removeItems
  rw [hfr, htr, hbr]
  refine ⟨_, rfl, ⟨hfa, hta, hba⟩, ?_⟩
  unfold maps RecordMap.removeItems
  rw [← hfm, ← htm, ← hbm]

/-- All three calls copy what they should; the call for the binding tags looks for their names at
`names + tags_cnt`. -/
structure CopyItemsFair (flags : ItemsCopyFlags) (specs : Option CopySpecs) (r1 r2 : Record D) : Prop where
  labels : ∀ s, specs = some s → s.Labels
  fields : CopyVecFair (fieldKind D) flags.toCopyFlags flags.fields specs (fun _ => 0) (fun _ => 0) (·.fieldsCnt)
    r1.fields r2.fields
  tags : CopyVecFair tagKind flags.toCopyFlags flags.tags specs (·.fieldsCnt) (·.fieldsCnt) (·.tagsCnt)
    r1.tags r2.tags
  btags : CopyVecFair tagKind flags.toCopyFlags flags.btags specs (·.tagsCnt) (fun s => s.fieldsCnt + s.tagsCnt)
    (·.btagsCnt) r1.btags r2.btags

theorem copyItems_spec (h1 : r1.Aligned) (h2 : r2.Aligned) (hfair : CopyItemsFair flags specs r1 r2) :
    ∃ p, copyItems flags specs r1 r2 = some p ∧ p.1.Aligned ∧ p.2.1.Aligned ∧
      (p.1.maps, p.2.1.maps) = RecordMap.copyItems flags specs r1.maps r2.maps := by
  obtain ⟨f, hfr, hf1, hf2, hfm⟩ := copyVec_spec h1.fields h2.fields
    (fun s => by have := s.size; omega) hfair.labels hfair.fields
  obtain ⟨t, htr, ht1, ht2, htm⟩ := copyVec_spec h1.tags h2.tags
    (fun s => by have := s.size; omega) hfair.labels hfair.tags
  obtain ⟨b, hbr, hb1, hb2, hbm⟩ := copyVec_spec h1.btags h2.btags
    (fun s => by have := s.size; omega) hfair.labels hfair.btags
  unfold copyItems
  rw [hfr, htr, hbr]
  refine ⟨_, rfl, ⟨hf1, ht1, hb1⟩, ⟨hf2, ht2, hb2⟩, ?_⟩
  unfold RecordMap.copyItems maps
  rw [← hfm, ← htm, ← hbm]

end Record

end SNet.Svpgw
