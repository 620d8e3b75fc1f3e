import SNetRts.Netif.Reader

/-!
# What observers write

`ObserverPrintRecordToFile` of `stream/observer/observers.c` and `FileRecord` of `front/xobserve.c`, as the
sequences of what they write. The functions of the interfaces are a parameter.
-/

namespace SNet.Observer

open Netif List

variable {V : Type}

/-- `SNET_OBSERVERS_DATA_LEVEL_LABELS` and the others. -/
inductive DataLevel where
  | labels
  | tagValues
  | allValues
deriving DecidableEq

/-- `SNET_OBSERVERS_TYPE_BEFORE` and the other one. -/
inductive Place where
  | before
  | after
deriving DecidableEq

/-- What an observer knows of itself. -/
structure Handle where
  id : Int
  position : Text
  type : Place
  dataLevel : DataLevel
  code : Option Text

/-- Records by their descriptors. -/
inductive Rec (V : Type) where
  | data (rec : Record V)
  | sync
  | collect
  | sortEnd
  | terminate
  | triggerInitialiser
  | detref
  | observ
  | starLeader
  | wakeup

/-- What is written to the file. -/
inductive Written where
  | observerBegin (oid : Int) (position : Text) (type : Place) (code : Option Text)
  | recordBegin (mode : DataMode)
  | record (type : String)
  | field (label : Text) (content : Option (Text × Text))
  | tag (label : Text) (val : Option Int)
  | btag (label : Text) (val : Option Int)
  | recordEnd
  | observerEnd
deriving DecidableEq

def Place.text : Place → Text
  | .before => "before".toList
  | .after => "after".toList

/-- `<tag label="%s" />` or `<tag label="%s" >%d</tag>` -/
def labelledText (element : String) (label : Text) : Option Int → Text
  | none => '<' :: element.toList ++ " label=\"".toList ++ label ++ "\" />\n".toList
  | some val => '<' :: element.toList ++ " label=\"".toList ++ label ++ "\" >".toList ++ decimal val ++
    "</".toList ++ element.toList ++ ">\n".toList

def Written.text : Written → Text
  | .observerBegin oid position type code =>
    "<?xml version=\"1.0\"?>\n".toList ++ "<observer xmlns=\"snet-home.org\" oid=\"".toList ++ decimal oid ++
      "\" position=\"".toList ++ position ++ "\" type=\"".toList ++ type.text ++ "\" ".toList ++
      (code.elim [] fun code => "code=\"".toList ++ code ++ "\" ".toList) ++ ">\n".toList
  | .recordBegin mode => "<record type=\"data\" mode=\"".toList ++ modeText mode ++ "\" >\n".toList
  | .record type => "<record type=\"".toList ++ type.toList ++ "\" />\n".toList
  | .field label none => "<field label=\"".toList ++ label ++ "\" />\n".toList
  | .field label (some (interface, data)) =>
    "<field label=\"".toList ++ label ++ "\" interface=\"".toList ++ interface ++ "\" >".toList ++ data ++
      "</field>\n".toList
  | .tag label val => labelledText "tag" label val
  | .btag label val => labelledText "btag" label val
  | .recordEnd => "</record>\n".toList
  | .observerEnd => "</observer>\n".toList

def text (out : List Written) : Text := out.flatMap Written.text

section Printers

variable (labels : LabelTable) (interfaces : List Text) (funs : InterfaceFuns V)

/-- The interface and the data of a field, where they are written. -/
def fieldContent (level : DataLevel) (rec : Record V) (v : V) : Option (Text × Text) :=
  if level = .allValues then
    (idToInterface interfaces rec.interfaceId).map fun interface => (interface, funs.write rec.interfaceId rec.mode v)
  else none

def printField (level : DataLevel) (rec : Record V) (field : Int × V) : Option Written :=
  (idToLabel labels field.1).map fun label => .field label (fieldContent interfaces funs level rec field.2)

def shown (level : DataLevel) (val : Int) : Option Int := if level = .labels then none else some val

/-- `ObserverPrintRecordToFile`. The label of a tag is looked up by its value. -/
def observerPrintRecordToFile (hnd : Handle) (rec : Rec V) : List Written :=
  .observerBegin hnd.id hnd.position hnd.type hnd.code ::
    (match rec with
      | .data rec =>
        .recordBegin rec.mode ::
          rec.fields.entries.filterMap (printField labels interfaces funs hnd.dataLevel rec) ++
          rec.tags.entries.filterMap (fun tag =>
            (idToLabel labels tag.2).map fun label => .tag label (shown hnd.dataLevel tag.2)) ++
          rec.btags.entries.filterMap (fun btag =>
            (idToLabel labels btag.1).map fun label => .btag label (shown hnd.dataLevel btag.2)) ++
          [.recordEnd]
      -- the cases fall through up to the `break` of `REC_terminate`
      | .sync => [.record "sync", .record "collect", .record "sort_end", .record "terminate"]
      | .collect => [.record "collect", .record "sort_end", .record "terminate"]
      | .sortEnd => [.record "sort_end", .record "terminate"]
      | .terminate => [.record "terminate"]
      | _ => []) ++
    [.observerEnd]

/-- `FileRecord` -/
def fileRecord (hnd : Handle) (rec : Rec V) : List Written :=
  .observerBegin hnd.id hnd.position hnd.type hnd.code ::
    (match rec with
      | .data rec =>
        .recordBegin rec.mode ::
          rec.fields.entries.filterMap (printField labels interfaces funs hnd.dataLevel rec) ++
          rec.tags.entries.filterMap (fun tag =>
            (idToLabel labels tag.1).map fun label => .tag label (shown hnd.dataLevel tag.2)) ++
          rec.btags.entries.filterMap (fun btag =>
            (idToLabel labels btag.1).map fun label => .btag label (shown hnd.dataLevel btag.2)) ++
          [.recordEnd]
      | .sync => [.record "sync"]
      | .triggerInitialiser => [.record "trigger_initialiser"]
      | .detref => [.record "detref"]
      | _ => []) ++
    [.observerEnd]

end Printers

/-! ## What they are to write -/

namespace Written

def record? : Written → Option (String × Option DataMode)
  | .recordBegin mode => some ("data", some mode)
  | .record type => some (type, none)
  | _ => none

def field? : Written → Option (Text × Option (Text × Text))
  | .field label content => some (label, content)
  | _ => none

def tag? : Written → Option (Text × Option Int)
  | .tag label val => some (label, val)
  | _ => none

def btag? : Written → Option (Text × Option Int)
  | .btag label val => some (label, val)
  | _ => none

end Written

variable (labels : LabelTable) (interfaces : List Text) (funs : InterfaceFuns V) (hnd : Handle)

/-- The labels of entries with what is shown of them; entries whose names have no label are left out. -/
def labelled {α β : Type} (content : α → β) (entries : List (Int × α)) : List (Text × β) :=
  entries.filterMap fun e => (idToLabel labels e.1).map fun label => (label, content e.2)

/-- There is one element, that of the record. The fields and tags of the record whose names have labels are there
once, each with its own value. -/
def Reports (rec : Rec V) (out : List Written) : Prop :=
  match rec with
  | .data rec =>
    out.filterMap Written.record? = [("data", some rec.mode)] ∧
    out.filterMap Written.field? = labelled labels (fieldContent interfaces funs hnd.dataLevel rec) rec.fields.entries ∧
    out.filterMap Written.tag? = labelled labels (shown hnd.dataLevel) rec.tags.entries ∧
    out.filterMap Written.btag? = labelled labels (shown hnd.dataLevel) rec.btags.entries
  | .sync =>
    out.filterMap Written.record? = [("sync", none)] ∧ out.filterMap Written.field? = [] ∧
    out.filterMap Written.tag? = [] ∧ out.filterMap Written.btag? = []
  | _ => True

/-- The tags of the record, each under the label that has its value for a number, are those under their own
labels. -/
def ValuesAsNames (rec : Record V) : Prop :=
  (rec.tags.entries.filterMap fun tag => (idToLabel labels tag.2).map fun label => (label, shown hnd.dataLevel tag.2)) =
    labelled labels (shown hnd.dataLevel) rec.tags.entries

def Agree (rec : Rec V) : Prop :=
  text (observerPrintRecordToFile labels interfaces funs hnd rec) = text (fileRecord labels interfaces funs hnd rec) ∧
    Reports labels interfaces funs hnd rec (observerPrintRecordToFile labels interfaces funs hnd rec)

/-! ## What they write -/

theorem filterMap_entries {α β : Type} {k : α → Option Text} {c : α → Text → Written} {p : Written → Option β}
    {f : α → Text → β} (hp : ∀ e label, p (c e label) = some (f e label)) (es : List α) :
    (es.filterMap fun e => (k e).map (c e)).filterMap p = es.filterMap fun e => (k e).map (f e) := by
  rw [filterMap_filterMap]
  apply filterMap_congr
  intro e _
  cases k e with
  | none => rfl
  | some label => exact hp e label

theorem filterMap_others {α β : Type} {k : α → Option Text} {c : α → Text → Written} {p : Written → Option β}
    (hp : ∀ e label, p (c e label) = none) (es : List α) :
    (es.filterMap fun e => (k e).map (c e)).filterMap p = [] := by
  rw [filterMap_filterMap, filterMap_eq_nil_iff]
  intro e _
  cases k e with
  | none => rfl
  | some label => exact hp e label

/-- What both printers write for a data record, with the labels of the tags as they are looked up. -/
def dataWritten (rec : Record V) (tagLabel : Int × Int → Option Text) : List Written :=
  .observerBegin hnd.id hnd.position hnd.type hnd.code ::
    (.recordBegin rec.mode ::
      rec.fields.entries.filterMap (printField labels interfaces funs hnd.dataLevel rec) ++
      rec.tags.entries.filterMap (fun tag => (tagLabel tag).map fun label => .tag label (shown hnd.dataLevel tag.2)) ++
      rec.btags.entries.filterMap (fun btag =>
        (idToLabel labels btag.1).map fun label => .btag label (shown hnd.dataLevel btag.2)) ++
      [.recordEnd]) ++
    [.observerEnd]

section

variable (rec : Record V) (tagLabel : Int × Int → Option Text)

theorem filterMap_dataWritten {β : Type} (p : Written → Option β)
    (hbegin : p (.observerBegin hnd.id hnd.position hnd.type hnd.code) = none) (hrecord : p .recordEnd = none)
    (hend : p .observerEnd = none) :
    (dataWritten labels interfaces funs hnd rec tagLabel).filterMap p =
      (p (.recordBegin rec.mode)).toList ++
      (rec.fields.entries.filterMap (printField labels interfaces funs hnd.dataLevel rec)).filterMap p ++
      (rec.tags.entries.filterMap fun tag =>
        (tagLabel tag).map fun label => Written.tag label (shown hnd.dataLevel tag.2)).filterMap p ++
      (rec.btags.entries.filterMap fun btag =>
        (idToLabel labels btag.1).map fun label => Written.btag label (shown hnd.dataLevel btag.2)).filterMap p := by
  rw [dataWritten]
  cases hmode : p (.recordBegin rec.mode) with
  | none => simp [filterMap_append, hbegin, hrecord, hend, hmode]
  | some b => simp [filterMap_append, hbegin, hrecord, hend, hmode]

theorem records_dataWritten :
    (dataWritten labels interfaces funs hnd rec tagLabel).filterMap Written.record? = [("data", some rec.mode)] := by
  have hfields : (rec.fields.entries.filterMap (printField labels interfaces funs hnd.dataLevel rec)).filterMap
      Written.record? = [] := filterMap_others (fun _ _ => rfl) _
  rw [filterMap_dataWritten labels interfaces funs hnd rec tagLabel _ rfl rfl rfl, hfields,
    filterMap_others fun _ _ => rfl, filterMap_others fun _ _ => rfl]
  rfl

theorem fields_dataWritten :
    (dataWritten labels interfaces funs hnd rec tagLabel).filterMap Written.field? =
      labelled labels (fieldContent interfaces funs hnd.dataLevel rec) rec.fields.entries := by
  have hfields : (rec.fields.entries.filterMap (printField labels interfaces funs hnd.dataLevel rec)).filterMap
      Written.field? = labelled labels (fieldContent interfaces funs hnd.dataLevel rec) rec.fields.entries :=
    filterMap_entries (p := Written.field?)
      (f := fun (e : Int × V) label => (label, fieldContent interfaces funs hnd.dataLevel rec e.2)) (fun _ _ => rfl) _
  rw [filterMap_dataWritten labels interfaces funs hnd rec tagLabel _ rfl rfl rfl, hfields,
    filterMap_others fun _ _ => rfl, filterMap_others fun _ _ => rfl, append_nil, append_nil]
  rfl

theorem tags_dataWritten :
    (dataWritten labels interfaces funs hnd rec tagLabel).filterMap Written.tag? =
      rec.tags.entries.filterMap fun tag => (tagLabel tag).map fun label => (label, shown hnd.dataLevel tag.2) := by
  have hfields : (rec.fields.entries.filterMap (printField labels interfaces funs hnd.dataLevel rec)).filterMap
      Written.tag? = [] := filterMap_others (fun _ _ => rfl) _
  rw [filterMap_dataWritten labels interfaces funs hnd rec tagLabel _ rfl rfl rfl, hfields,
    filterMap_entries (p := Written.tag?) (f := fun e label => (label, shown hnd.dataLevel e.2)) fun _ _ => rfl,
    filterMap_others fun _ _ => rfl, append_nil]
  rfl

theorem btags_dataWritten :
    (dataWritten labels interfaces funs hnd rec tagLabel).filterMap Written.btag? =
      labelled labels (shown hnd.dataLevel) rec.btags.entries := by
  have hfields : (rec.fields.entries.filterMap (printField labels interfaces funs hnd.dataLevel rec)).filterMap
      Written.btag? = [] := filterMap_others (fun _ _ => rfl) _
  rw [filterMap_dataWritten labels interfaces funs hnd rec tagLabel _ rfl rfl rfl, hfields,
    filterMap_others fun _ _ => rfl,
    filterMap_entries (p := Written.btag?) (f := fun e label => (label, shown hnd.dataLevel e.2)) fun _ _ => rfl]
  rfl

theorem reports_dataWritten :
    Reports labels interfaces funs hnd (.data rec) (dataWritten labels interfaces funs hnd rec tagLabel) ↔
      (rec.tags.entries.filterMap fun tag => (tagLabel tag).map fun label => (label, shown hnd.dataLevel tag.2)) =
        labelled labels (shown hnd.dataLevel) rec.tags.entries := by
  rw [Reports, records_dataWritten, fields_dataWritten, tags_dataWritten, btags_dataWritten]
  exact ⟨fun h => h.2.2.1, fun h => ⟨rfl, rfl, h, rfl⟩⟩

theorem map_tag (tagLabel : Int × Int → Option Text) :
    (rec.tags.entries.filterMap fun tag => (tagLabel tag).map fun label => Written.tag label (shown hnd.dataLevel tag.2)) =
      (rec.tags.entries.filterMap fun tag => (tagLabel tag).map fun label => (label, shown hnd.dataLevel tag.2)).map
        fun e => Written.tag e.1 e.2 := by
  rw [map_filterMap]
  apply filterMap_congr
  intro tag _
  cases tagLabel tag <;> rfl

theorem dataWritten_congr {tagLabel' : Int × Int → Option Text}
    (h : (rec.tags.entries.filterMap fun tag => (tagLabel tag).map fun label => (label, shown hnd.dataLevel tag.2)) =
      rec.tags.entries.filterMap fun tag => (tagLabel' tag).map fun label => (label, shown hnd.dataLevel tag.2)) :
    dataWritten labels interfaces funs hnd rec tagLabel = dataWritten labels interfaces funs hnd rec tagLabel' := by
  rw [dataWritten, dataWritten, map_tag, map_tag, h]

end

/-- For a data record the runtimes agree if and only if the values of its tags lead to the labels of the tags, with
what is shown. For a sync record they do not. -/
theorem reports_agree_iff :
    (∀ rec : Record V, Agree labels interfaces funs hnd (.data rec) ↔ ValuesAsNames labels hnd rec) ∧
      ¬ Agree labels interfaces funs hnd (.sync : Rec V) := by
  constructor
  · intro rec
    have hreports := reports_dataWritten labels interfaces funs hnd rec fun tag => idToLabel labels tag.2
    constructor
    · intro h
      exact hreports.1 h.2
    · intro h
      refine ⟨?_, hreports.2 h⟩
      exact congrArg text (dataWritten_congr labels interfaces funs hnd rec (fun tag => idToLabel labels tag.2) h)
  · rintro ⟨-, hrecords, -⟩
    have hlength : 4 = 1 := congrArg List.length hrecords
    exact absurd hlength (by decide)

/-! ## A tag and a sync record -/

def twoLabels : LabelTable := ⟨["T".toList, "U".toList], []⟩

def noFuns : InterfaceFuns Unit := ⟨fun _ _ _ => [], fun _ _ t => (none, t)⟩

def tagObserver : Handle := ⟨1, "box".toList, .before, .tagValues, none⟩

def taggedRecord : Record Unit := ⟨.empty, LabelMap.empty.set 0 1, .empty, 0, .textual, none⟩

set_option maxRecDepth 4096 in
/-- The tag 0 is `T` and its value 1 is the number of `U`. The stream runtime reports a tag `U`, and of a sync record
four records. -/
theorem tag_of_its_value :
    observerPrintRecordToFile twoLabels [] noFuns tagObserver (.data taggedRecord) =
      [.observerBegin 1 "box".toList .before none, .recordBegin .textual, .tag "U".toList (some 1), .recordEnd,
        .observerEnd] ∧
    text (observerPrintRecordToFile twoLabels [] noFuns tagObserver (.data taggedRecord)) ≠
      text (fileRecord twoLabels [] noFuns tagObserver (.data taggedRecord)) ∧
    ¬ Agree twoLabels [] noFuns tagObserver (.data taggedRecord) ∧
    ¬ Agree twoLabels [] noFuns tagObserver .sync := by
  refine ⟨rfl, by decide, ?_, ?_⟩
  · rintro ⟨-, -, -, htags, -⟩
    exact absurd htags (by decide)
  · rintro ⟨-, hrecords, -⟩
    exact absurd hrecords (by decide)

end SNet.Observer
