import SNetRts.Netif.Entities

/-!
# Records that are written and read again

The text that `printRec` writes for a data record is read back as the record, provided that the record
has a field: the interface of a record is written only with its fields, and a record without an
interface is discarded.
-/

namespace SNet.Netif

open Lib Flex Lexer Reading List

variable {V : Type} {p₀ p : Parser V} {labels : LabelTable} {mode : DataMode} {d : Record (Ref V)}

/-! ## Tables -/

/-- A label table as `labelToId` builds it from static labels that are distinct. -/
structure LabelTable.Distinct (labels : LabelTable) : Prop where
  static : labels.static.Nodup
  temp : (labels.temp.map Prod.fst).Nodup
  disjoint : ∀ e ∈ labels.temp, e.1 ∉ labels.static

theorem idxOf?_of_getElem? {α : Type} [BEq α] [LawfulBEq α] {l : List α} {i : Nat} {x : α}
    (hl : l.Nodup) (h : l[i]? = some x) : l.idxOf? x = some i := by
  obtain ⟨hi, hx⟩ := List.getElem?_eq_some_iff.1 h
  refine idxOf?_eq_some_iff.2 ⟨hi, by simp [hx], fun j hj => ?_⟩
  have hne : l[j] ≠ l[i] := fun he => Nat.ne_of_lt hj ((List.Nodup.getElem_inj_iff hl).1 he)
  rw [← hx]
  simpa using hne

theorem find?_fst_of_mem {α β : Type} [DecidableEq α] {l : List (α × β)} {e : α × β}
    (hl : (l.map Prod.fst).Nodup) (he : e ∈ l) : l.find? (fun e' => e'.1 = e.1) = some e := by
  induction l with
  | nil => cases he
  | cons e' l ih =>
    rw [map_cons, nodup_cons] at hl
    rcases mem_cons.1 he with rfl | he
    · exact find?_cons_of_pos (by simp)
    · have hne : e'.1 ≠ e.1 := fun heq => hl.1 (heq ▸ mem_map_of_mem he)
      rw [find?_cons_of_neg (by simpa using hne)]
      exact ih hl.2 he

theorem labelToId_of_idToLabel (h : labels.Distinct) {id : Int} {label : Text}
    (hid : idToLabel labels id = some label) : labelToId labels label = (id, labels) := by
  unfold idToLabel at hid
  split at hid
  · cases hid
  · rename_i hneg
    split at hid
    · rename_i x hx
      cases hid
      unfold labelToId
      rw [idxOf?_of_getElem? h.static hx]
      simp only [Int.toNat_of_nonneg (Int.not_lt.1 hneg)]
    · obtain ⟨e, he, rfl⟩ := Option.map_eq_some_iff.1 hid
      have hmem := mem_of_find?_eq_some he
      have hnumber : e.2 = id := by simpa using find?_some he
      have hstatic : labels.static.idxOf? e.1 = none := idxOf?_eq_none_iff.2 (h.disjoint e hmem)
      have hfind := find?_fst_of_mem h.temp hmem
      unfold labelToId
      rw [hstatic]
      dsimp only
      rw [hfind, ← hnumber]

theorem interfaceToId_of_idToInterface {interfaces : List Text} (h : interfaces.Nodup) {id : Int}
    {interface : Text} (hid : idToInterface interfaces id = some interface) :
    interfaceToId interfaces interface = id ∧ id ≠ INTERFACE_UNKNOWN := by
  unfold idToInterface at hid
  split at hid
  · cases hid
  · rename_i hneg
    have hnonneg := Int.not_lt.1 hneg
    unfold interfaceToId
    rw [idxOf?_of_getElem? h hid]
    refine ⟨Int.toNat_of_nonneg hnonneg, ?_⟩
    rintro rfl
    exact hneg (by decide)

/-! ## All entities of a record -/

/-- The record has no interface yet, or `iid`. -/
def Compatible (iid : Int) (d : Record (Ref V)) : Prop :=
  d.interfaceId = INTERFACE_UNKNOWN ∨ d.interfaceId = iid

/-- A text is read as `n` entities that do `g` to the record; a new line in front of it is left behind
it. -/
structure Reads (interfaces : List Text) (funs : InterfaceFuns V) (labels : LabelTable) (mode : DataMode)
    (iid : Int) (n : Nat) (text : Text) (g : Record (Ref V) → Record (Ref V)) : Prop where
  length : n ≤ text.length
  compatible : ∀ d, Compatible iid d → Compatible iid (g d)
  run : ∀ {p₀ p : Parser V} {d : Record (Ref V)} (stack : List LexState) (rest : Text) (fuel : Nat),
    Building p₀ labels mode d p → Compatible iid d →
      ∃ p', entitys interfaces funs (fuel + n)
          ⟨p, ⟨.IN_XML_CONTENT, stack, '\n' :: (text ++ rest)⟩⟩ =
            entitys interfaces funs fuel ⟨p', ⟨.IN_XML_CONTENT, stack, '\n' :: rest⟩⟩ ∧
        Building p₀ labels mode (g d) p'

theorem attr_append (name value rest : Text) :
    attr name value ++ rest = ' ' :: (name ++ '=' :: '"' :: (value ++ '"' :: rest)) := by
  simp [attr]

theorem fieldText_eq (name interface data : Text) :
    "<field label=\"".toList ++ name ++ "\" interface=\"".toList ++ interface ++ "\">".toList ++ data ++
      "</field>\n".toList = fieldText name interface data ++ ['\n'] := by
  have hend : "</field>".toList ++ ['\n'] = "</field>\n".toList := rfl
  unfold fieldText
  rw [append_assoc _ _ ['\n'], append_assoc _ _ ['\n'], append_assoc _ _ ['\n'], cons_append,
    append_assoc _ _ ['\n'], hend, attr_append, attr_append]
  iterate 5 rw [append_assoc]
  rfl

namespace Reads

variable {interfaces : List Text} {funs : InterfaceFuns V} {iid : Int}

theorem nil : Reads interfaces funs labels mode iid 0 [] id :=
  ⟨Nat.le_refl 0, fun _ h => h, fun _ _ _ h _ => ⟨_, rfl, h⟩⟩

theorem append {n n' : Nat} {t t' : Text} {g g' : Record (Ref V) → Record (Ref V)}
    (h : Reads interfaces funs labels mode iid n t g)
    (h' : Reads interfaces funs labels mode iid n' t' g') :
    Reads interfaces funs labels mode iid (n' + n) (t ++ t') (g' ∘ g) where
  length := by
    rw [length_append, Nat.add_comm]
    exact Nat.add_le_add h.length h'.length
  compatible := fun d hd => h'.compatible _ (h.compatible d hd)
  run := by
    intro p₀ p d stack rest fuel hb hd
    obtain ⟨p', hp', hb'⟩ := h.run stack (t' ++ rest) (fuel + n') hb hd
    obtain ⟨p'', hp'', hb''⟩ := h'.run stack rest fuel hb' (h.compatible d hd)
    refine ⟨p'', ?_, hb''⟩
    rw [append_assoc, ← Nat.add_assoc, hp', hp'']

theorem each {α : Type} {f : Int → α → Outcome Text}
    {g : List (Int × α) → Record (Ref V) → Record (Ref V)} (hnil : g [] = id)
    (hcons : ∀ e es, g (e :: es) = g es ∘ g [e]) {es : List (Int × α)}
    (h : ∀ e ∈ es, ∃ t, f e.1 e.2 = .done t ∧ Reads interfaces funs labels mode iid 1 t (g [e])) :
    ∃ ts, printEach f es = .done ts ∧ Reads interfaces funs labels mode iid es.length ts (g es) := by
  induction es with
  | nil => exact ⟨[], rfl, hnil ▸ nil⟩
  | cons e es ih =>
    obtain ⟨t, ht, hread⟩ := h e mem_cons_self
    obtain ⟨ts, hts, hreads⟩ := ih fun e he => h e (mem_cons_of_mem _ he)
    refine ⟨t ++ ts, ?_, hcons e es ▸ hread.append hreads⟩
    rw [printEach, ht, Outcome.done_bind, hts]
    rfl

end Reads

def setEach {α : Type} (es : List (Int × α)) (m : LabelMap α) : LabelMap α :=
  es.foldl (fun m e => m.set e.1 e.2) m

theorem setEntries_of_not_mem {α : Type} {name : Int} {v : α} {es : List (Int × α)}
    (h : name ∉ es.map Prod.fst) : LabelMap.setEntries name v es = es ++ [(name, v)] := by
  induction es with
  | nil => rfl
  | cons e es ih =>
    rw [map_cons, mem_cons, not_or] at h
    rw [LabelMap.setEntries, if_neg (Ne.symm h.1), ih h.2]
    rfl

theorem entries_setEach {α : Type} {es : List (Int × α)} {m : LabelMap α}
    (h : ((m.entries ++ es).map Prod.fst).Nodup) : (setEach es m).entries = m.entries ++ es := by
  induction es generalizing m with
  | nil => exact (append_nil _).symm
  | cons e es ih =>
    have hset : (m.set e.1 e.2).entries = m.entries ++ [e] := by
      refine setEntries_of_not_mem fun hmem => ?_
      rw [map_append, nodup_append] at h
      exact h.2.2 _ hmem _ mem_cons_self rfl
    have hstep : (setEach es (m.set e.1 e.2)).entries = (m.set e.1 e.2).entries ++ es := by
      refine ih ?_
      rw [hset, append_assoc]
      exact h
    rw [hset, append_assoc] at hstep
    exact hstep

theorem setEach_empty {α : Type} (m : LabelMap α) : (setEach m.entries .empty).entries = m.entries :=
  entries_setEach m.nodup

/-! ## Records -/

def withFields (iid : Int) (es : List (Int × Ref V)) (d : Record (Ref V)) : Record (Ref V) :=
  { d with
    interfaceId := if es = [] then d.interfaceId else iid
    fields := setEach (es.map fun e => (e.1, ⟨e.2.data, iid⟩)) d.fields }

def withTags (es : List (Int × Int)) (d : Record (Ref V)) : Record (Ref V) :=
  { d with tags := setEach es d.tags }

def withBTags (es : List (Int × Int)) (d : Record (Ref V)) : Record (Ref V) :=
  { d with btags := setEach es d.btags }

def Named (labels : LabelTable) (id : Int) : Prop := ∃ name, idToLabel labels id = some name ∧ Lexable name

/-- The functions of an interface that write data are undone by those that read it; these stop before
the next `<`. -/
def Undone (funs : InterfaceFuns V) (iid : Int) : Prop :=
  ∀ (mode : DataMode) (v : V) (rest : Text), ∃ junk, '<' ∉ junk ∧
    funs.read iid mode (funs.write iid mode v ++ '<' :: rest) = (some v, junk ++ '<' :: rest)

namespace Reads

variable {interfaces : List Text} {funs : InterfaceFuns V} {iid : Int}

theorem field (hlabels : labels.Distinct) (hinterfaces : interfaces.Nodup) {id : Int}
    (hname : Named labels id) {interface : Text} (hi : idToInterface interfaces iid = some interface)
    (hlex : Lexable interface) (hfuns : Undone funs iid) (ref : Ref V) :
    ∃ t, printField labels interfaces funs iid mode id ref = .done t ∧
      Reads interfaces funs labels mode iid 1 t (withFields iid [(id, ref)]) := by
  obtain ⟨name, hid, hlexable⟩ := hname
  obtain ⟨hback, hne⟩ := interfaceToId_of_idToInterface hinterfaces hi
  refine ⟨fieldText name interface (funs.write iid mode ref.data) ++ ['\n'], ?_, ?_, ?_, ?_⟩
  · unfold printField labelOf
    rw [hid]
    dsimp only [Outcome.done_bind]
    rw [hi]
    dsimp only
    rw [fieldText_eq]
  · simp
  · intro d hd
    exact Or.inr rfl
  · intro p₀ p d stack rest fuel hb hd
    rw [append_assoc]
    exact entitys_field hb hlexable hlex (labelToId_of_idToLabel hlabels hid) hback hne hd
      (hfuns mode ref.data) stack ('\n' :: rest) fuel

theorem printLabelled_eq {id : Int} {name : Text} (hid : idToLabel labels id = some name)
    (element : String) (v : Int) :
    printLabelled element labels id v = .done (labelledText element.toList name v ++ ['\n']) := by
  unfold printLabelled labelOf
  rw [hid]
  dsimp only [Outcome.done_bind]
  simp only [labelledText, attr, append_assoc, cons_append, nil_append]
  rfl

theorem tag (hlabels : labels.Distinct) {id : Int} (hname : Named labels id) (v : Int) :
    ∃ t, printLabelled "tag" labels id v = .done t ∧
      Reads interfaces funs labels mode iid 1 t (withTags [(id, v)]) := by
  obtain ⟨name, hid, hlexable⟩ := hname
  refine ⟨_, printLabelled_eq hid "tag" v, by simp, fun d hd => hd, ?_⟩
  intro p₀ p d stack rest fuel hb hd
  rw [append_assoc]
  exact entitys_tag hb interfaces funs hlexable (labelToId_of_idToLabel hlabels hid) v stack
    ('\n' :: rest) fuel

theorem btag (hlabels : labels.Distinct) {id : Int} (hname : Named labels id) (v : Int) :
    ∃ t, printLabelled "btag" labels id v = .done t ∧
      Reads interfaces funs labels mode iid 1 t (withBTags [(id, v)]) := by
  obtain ⟨name, hid, hlexable⟩ := hname
  refine ⟨_, printLabelled_eq hid "btag" v, by simp, fun d hd => hd, ?_⟩
  intro p₀ p d stack rest fuel hb hd
  rw [append_assoc]
  exact entitys_btag hb interfaces funs hlexable (labelToId_of_idToLabel hlabels hid) v stack
    ('\n' :: rest) fuel

end Reads

/-- A record that has names for what it holds. -/
structure Printable (labels : LabelTable) (interfaces : List Text) (rec : Record (Ref V)) : Prop where
  fields : ∀ e ∈ rec.fields.entries, Named labels e.1
  tags : ∀ e ∈ rec.tags.entries, Named labels e.1
  btags : ∀ e ∈ rec.btags.entries, Named labels e.1
  interface : rec.fields.entries ≠ [] →
    ∃ name, idToInterface interfaces rec.interfaceId = some name ∧ Lexable name

def readBack (rec d : Record (Ref V)) : Record (Ref V) :=
  withBTags rec.btags.entries (withTags rec.tags.entries
    (withFields rec.interfaceId rec.fields.entries d))

theorem withFields_cons (iid : Int) (e : Int × Ref V) (es : List (Int × Ref V)) :
    withFields iid (e :: es) = withFields iid es ∘ withFields iid [e] := by
  funext d
  simp [withFields, setEach]

theorem printed_body (hlabels : labels.Distinct) {interfaces : List Text} (hinterfaces : interfaces.Nodup)
    {funs : InterfaceFuns V} {rec : Record (Ref V)} (hrec : Printable labels interfaces rec)
    (hfuns : Undone funs rec.interfaceId) :
    ∃ n fields tags btags,
      printEach (printField labels interfaces funs rec.interfaceId rec.mode) rec.fields.entries =
        .done fields ∧
      printEach (printLabelled "tag" labels) rec.tags.entries = .done tags ∧
      printEach (printLabelled "btag" labels) rec.btags.entries = .done btags ∧
      Reads interfaces funs labels rec.mode rec.interfaceId n (fields ++ tags ++ btags)
        (readBack rec) := by
  have hfields : ∀ e ∈ rec.fields.entries,
      ∃ t, printField labels interfaces funs rec.interfaceId rec.mode e.1 e.2 = .done t ∧
        Reads interfaces funs labels rec.mode rec.interfaceId 1 t (withFields rec.interfaceId [e]) := by
    intro e he
    obtain ⟨name, hname, hlex⟩ := hrec.interface (ne_nil_of_mem he)
    exact Reads.field hlabels hinterfaces (hrec.fields e he) hname hlex hfuns e.2
  have htags : ∀ e ∈ rec.tags.entries, ∃ t, printLabelled "tag" labels e.1 e.2 = .done t ∧
      Reads interfaces funs labels rec.mode rec.interfaceId 1 t (withTags [e]) := fun e he =>
    Reads.tag hlabels (hrec.tags e he) e.2
  have hbtags : ∀ e ∈ rec.btags.entries, ∃ t, printLabelled "btag" labels e.1 e.2 = .done t ∧
      Reads interfaces funs labels rec.mode rec.interfaceId 1 t (withBTags [e]) := fun e he =>
    Reads.btag hlabels (hrec.btags e he) e.2
  obtain ⟨fields, hf, hreadF⟩ := Reads.each rfl (withFields_cons rec.interfaceId) hfields
  obtain ⟨tags, ht, hreadT⟩ := Reads.each rfl (fun _ _ => rfl) htags
  obtain ⟨btags, hb, hreadB⟩ := Reads.each rfl (fun _ _ => rfl) hbtags
  exact ⟨_, fields, tags, btags, hf, ht, hb, (hreadF.append hreadT).append hreadB⟩

/-! ## Documents -/

/-- The parser between two calls. -/
structure Ready (labels : LabelTable) (p : Parser V) : Prop where
  terminate : p.terminate = .goOn
  labels : p.labels = labels
  record : p.record = none

def begun (V : Type) (mode : DataMode) : Record (Ref V) :=
  { newData V with mode := mode, interfaceId := INTERFACE_UNKNOWN }

theorem recordBegin_eq (interfaces : List Text) (mode : DataMode) (hterminate : p.terminate = .goOn)
    (hinterface : p.interface = INTERFACE_UNKNOWN) :
    ∃ p', Parser.recordBegin interfaces (recordAttrs mode) p = .done p' ∧
      Building p p.labels mode (begun V mode) p' := by
  have hnew : Building p p.labels mode (newData V) { p.create (.data (newData V)) with mode := mode } :=
    ⟨rfl, Function.update_self _ _ _, rfl, hterminate, hinterface, rfl, rfl⟩
  obtain ⟨q, hq, hbuild⟩ := hnew.onData fun d => { d with mode := mode }
  obtain ⟨p', hp', hbuild'⟩ := hbuild.onData fun d => { d with interfaceId := INTERFACE_UNKNOWN }
  have hmode : modeOf (recordAttrs mode) = mode := by
    cases mode <;> rfl
  have hbegin : Parser.recordBegin interfaces (recordAttrs mode) p =
      (Parser.setDataMode { p.create (.data (newData V)) with mode := modeOf (recordAttrs mode) }
        (modeOf (recordAttrs mode))).bind fun p => p.setInterfaceId INTERFACE_UNKNOWN := rfl
  refine ⟨p', ?_, hbuild'⟩
  rw [hbegin, hmode]
  unfold Parser.setDataMode Parser.setInterfaceId
  rw [hq]
  exact hp'

theorem recordEnd_write (h : Building p₀ labels mode d p) (hd : d.interfaceId ≠ INTERFACE_UNKNOWN) :
    ∃ p', p.recordEnd true = .done p' ∧ Ready labels p' ∧
      p'.written = p₀.written ++ [(p₀.created, .data d)] := by
  have hlacks : p.lacksInterface = .done false := by
    unfold Parser.lacksInterface
    rw [h.current]
    dsimp only
    rw [h.getInterfaceId, Outcome.done_bind, beq_eq_false_iff_ne.2 hd]
  have hend : p.recordEnd true = .done { p with
      heap := Function.update p.heap p₀.created none
      written := p.written ++ [(p₀.created, .data d)]
      record := none
      interface := INTERFACE_UNKNOWN } := by
    unfold Parser.recordEnd Parser.write
    rw [h.record, h.terminate, hlacks, h.current]
    rfl
  exact ⟨_, hend, ⟨h.terminate, h.labels, rfl⟩, congrArg (· ++ _) h.written⟩

theorem recordEnd_discard (h : Building p₀ labels mode d p) (hd : d.interfaceId = INTERFACE_UNKNOWN)
    (output : Bool) : ∃ p', p.recordEnd output = .done p' ∧ p'.written = p₀.written := by
  have hlacks : p.lacksInterface = .done true := by
    unfold Parser.lacksInterface
    rw [h.current]
    dsimp only
    rw [h.getInterfaceId, Outcome.done_bind, hd]
    rfl
  have hyyerror : ∀ q : Parser V, q.yyerror.written = q.written := by
    intro q
    unfold Parser.yyerror
    split <;> rfl
  have hend : p.recordEnd output = .done { Parser.yyerror { p with
      heap := Function.update p.heap p₀.created none
      destroyed := p.destroyed ++ [p₀.created]
      record := none
      interface := INTERFACE_UNKNOWN } with terminate := .goOn } := by
    unfold Parser.recordEnd Parser.discard Parser.destroy
    rw [h.record, h.terminate, hlacks, h.current]
    rfl
  exact ⟨_, hend, (hyyerror _).trans h.written⟩

def printedHead (mode : DataMode) (body : Text) : Text :=
  " version=\"1.0\" ?>".toList ++ ("\n<record".toList ++
    (attr "xmlns".toList "snet-home.org".toList ++ (attr TYPE "data".toList ++
      (attr MODE (modeText mode) ++ ([' '] ++ '>' :: '\n' :: body)))))

theorem printedHead_append (mode : DataMode) (body rest : Text) :
    printedHead mode body ++ rest = printedHead mode (body ++ rest) := by
  unfold printedHead
  simp only [append_assoc]
  rfl

theorem printedHead_eq (mode : DataMode) (body : Text) :
    "<?xml version=\"1.0\" ?>\n".toList ++
        "<record xmlns=\"snet-home.org\" type=\"data\" mode=\"".toList ++ modeText mode ++
        "\" >\n".toList ++ body = "<?xml".toList ++ printedHead mode body := by
  have hhead : "<?xml version=\"1.0\" ?>\n".toList ++
      "<record xmlns=\"snet-home.org\" type=\"data\" mode=\"".toList =
        "<?xml".toList ++ (" version=\"1.0\" ?>".toList ++ ("\n<record".toList ++
          (attr "xmlns".toList "snet-home.org".toList ++ (attr TYPE "data".toList ++
            " mode=\"".toList)))) := by
    decide +kernel
  have hmode : " mode=\"".toList ++ (modeText mode ++ ("\" >\n".toList ++ body)) =
      attr MODE (modeText mode) ++ ([' '] ++ '>' :: '\n' :: body) := by
    simp only [attr, append_assoc, cons_append]
    rfl
  rw [hhead]
  simp only [append_assoc]
  rw [hmode]
  rfl

theorem recordLong_eq {interfaces : List Text} {funs : InterfaceFuns V} {iid : Int}
    {n : Nat} {body : Text} {g : Record (Ref V) → Record (Ref V)}
    (hbody : Reads interfaces funs labels mode iid n body g) {p' : Parser V}
    (hbegin : Parser.recordBegin interfaces (recordAttrs mode) p = .done p')
    (hbuild : Building p₀ labels mode d p') (hd : Compatible iid d) (output : Bool)
    (stack : List LexState) (rest : Text) :
    ∃ q, Building p₀ labels mode (g d) q ∧ ∀ q', q.recordEnd output = .done q' →
      recordLong interfaces funs output (recordAttrs mode) .TAG_END
          ⟨p, ⟨.IN_XML_CONTENT, .INITIAL :: stack, '\n' :: (body ++ ("</record>\n".toList ++ rest))⟩⟩ =
        .done (some (), ⟨q', ⟨.INITIAL, stack, '\n' :: rest⟩⟩) := by
  have hact : act (Parser.recordBegin interfaces (recordAttrs mode))
      ⟨p, ⟨.IN_XML_CONTENT, .INITIAL :: stack, '\n' :: (body ++ ("</record>\n".toList ++ rest))⟩⟩ =
        .done (some (), ⟨p', ⟨.IN_XML_CONTENT, .INITIAL :: stack,
          '\n' :: (body ++ ("</record>\n".toList ++ rest))⟩⟩) := by
    unfold act
    rw [hbegin]
    rfl
  -- there is fuel left for the end of the record
  obtain ⟨fuel, hfuel⟩ : ∃ fuel, ('\n' :: (body ++ ("</record>\n".toList ++ rest))).length + 1 =
      fuel + 1 + n := by
    have hn := hbody.length
    refine ⟨('\n' :: (body ++ ("</record>\n".toList ++ rest))).length - n, ?_⟩
    rw [length_cons, length_append]
    omega
  obtain ⟨q, hq, hbuild'⟩ :=
    hbody.run (.INITIAL :: stack) ("</record>\n".toList ++ rest) (fuel + 1) hbuild hd
  have hlast : yylex ⟨.IN_XML_CONTENT, .INITIAL :: stack, '\n' :: ("</record>\n".toList ++ rest)⟩ =
      .token false .RECORD_END_BEGIN ⟨.IN_XML_ENDELEMENT, .INITIAL :: stack, ">\n".toList ++ rest⟩ := rfl
  have hend : yylex ⟨.IN_XML_ENDELEMENT, .INITIAL :: stack, ">\n".toList ++ rest⟩ =
      .token false .TAG_END ⟨.INITIAL, stack, '\n' :: rest⟩ := rfl
  have hall : entitysAll interfaces funs ⟨p', ⟨.IN_XML_CONTENT, .INITIAL :: stack,
      '\n' :: (body ++ ("</record>\n".toList ++ rest))⟩⟩ =
        .done (some .RECORD_END_BEGIN,
          ⟨q, ⟨.IN_XML_ENDELEMENT, .INITIAL :: stack, ">\n".toList ++ rest⟩⟩) := by
    unfold entitysAll
    dsimp only
    rw [hfuel, hq, entitys, bind_eq (token_eq hlast)]
    rfl
  refine ⟨q, hbuild', fun q' hq' => ?_⟩
  unfold recordLong
  rw [bind_eq hact, if_pos rfl, bind_eq hall, if_pos rfl, bind_eq (expect_eq hend)]
  unfold act
  rw [hq']
  rfl

theorem xmlDecl_eq (p : Parser V) (stack : List LexState) (rest : Text) :
    xmlDecl ⟨p, ⟨.IN_XML_DECL, .INITIAL :: stack, " version=\"1.0\" ?>".toList ++ rest⟩⟩ =
      .done (some (), ⟨p, ⟨.INITIAL, stack, rest⟩⟩) := by
  have hversion : yylex ⟨.IN_XML_DECL, .INITIAL :: stack, " version=\"1.0\" ?>".toList ++ rest⟩ =
      .token false .VERSION ⟨.IN_XML_DECL, .INITIAL :: stack, "=\"1.0\" ?>".toList ++ rest⟩ := rfl
  have heq : yylex ⟨.IN_XML_DECL, .INITIAL :: stack, "=\"1.0\" ?>".toList ++ rest⟩ =
      .token false .EQ ⟨.IN_XML_DECL, .INITIAL :: stack, "\"1.0\" ?>".toList ++ rest⟩ := rfl
  have hquote : yylex ⟨.IN_XML_DECL, .INITIAL :: stack, "\"1.0\" ?>".toList ++ rest⟩ =
      .token false .DQUOTE ⟨.IN_XML_DECL, .INITIAL :: stack, "1.0\" ?>".toList ++ rest⟩ := rfl
  have hnumber : yylex ⟨.IN_XML_DECL, .INITIAL :: stack, "1.0\" ?>".toList ++ rest⟩ =
      .token false .VERSIONNUMBER ⟨.IN_XML_DECL, .INITIAL :: stack, "\" ?>".toList ++ rest⟩ := rfl
  have hunquote : yylex ⟨.IN_XML_DECL, .INITIAL :: stack, "\" ?>".toList ++ rest⟩ =
      .token false .DQUOTE ⟨.IN_XML_DECL, .INITIAL :: stack, " ?>".toList ++ rest⟩ := rfl
  have hend : yylex ⟨.IN_XML_DECL, .INITIAL :: stack, " ?>".toList ++ rest⟩ =
      .token false .XMLDECL_END ⟨.INITIAL, stack, rest⟩ := rfl
  have hinfo : versionInfo
      ⟨p, ⟨.IN_XML_DECL, .INITIAL :: stack, " version=\"1.0\" ?>".toList ++ rest⟩⟩ =
        .done (some (), ⟨p, ⟨.IN_XML_DECL, .INITIAL :: stack, " ?>".toList ++ rest⟩⟩) := by
    unfold versionInfo quoted
    rw [bind_eq (expect_eq hversion), bind_eq (expect_eq heq), bind_eq (token_eq hquote),
      if_pos (Or.inl rfl), bind_eq (token_eq hnumber)]
    exact expect_eq hunquote
  unfold xmlDecl
  rw [bind_eq hinfo, bind_eq (token_eq hend)]
  rfl

theorem parserflush_eq (hp : Ready labels p) :
    p.parserflush = .done { p with interface := INTERFACE_UNKNOWN, mode := .binary } := by
  have hrecord : ¬ p.record.isSome = true := by
    rw [hp.record]
    nofun
  have hterminate : ¬ p.terminate = .error := by
    rw [hp.terminate]
    nofun
  unfold Parser.parserflush
  rw [if_neg hrecord, Outcome.done_bind, if_neg hterminate]

theorem parse_document {interfaces : List Text} {funs : InterfaceFuns V} {iid : Int}
    {n : Nat} {body : Text} {g : Record (Ref V) → Record (Ref V)}
    (hbody : Reads interfaces funs labels mode iid n body g) (hp : Ready labels p) {lead : Text}
    (hlead : ∀ c ∈ lead, isBlank c = true) (output : Bool) (s : LexState) (stack : List LexState)
    (rest : Text) :
    ∃ p₀ q, p₀.created = p.created ∧ p₀.written = p.written ∧
      Building p₀ labels mode (g (begun V mode)) q ∧ ∀ q', q.recordEnd output = .done q' →
        Reader.parse interfaces funs output ⟨p, ⟨s, stack,
          lead ++ ("<?xml".toList ++ printedHead mode (body ++ ("</record>\n".toList ++ rest)))⟩⟩ =
            .done ⟨q', ⟨.INITIAL, stack, '\n' :: rest⟩⟩ := by
  let p₀ : Parser V := { p with interface := INTERFACE_UNKNOWN, mode := .binary }
  have hflush : p.parserflush = .done p₀ := parserflush_eq hp
  have hlabels : p₀.labels = labels := hp.labels
  obtain ⟨p', hbegin, hbuild⟩ := recordBegin_eq (p := p₀) interfaces mode hp.terminate rfl
  rw [hlabels] at hbuild
  obtain ⟨q, hq, hlong⟩ := recordLong_eq hbody hbegin hbuild (Or.inl rfl) output stack rest
  refine ⟨p₀, q, rfl, rfl, hq, fun q' hq' => ?_⟩
  have hrecord : ∀ x : Text, yylex ⟨.INITIAL, stack, "\n<record".toList ++ x⟩ =
      .token false .RECORD_BEGIN ⟨.IN_XML_ELEMENT, .INITIAL :: stack, x⟩ := fun _ => rfl
  have hdocument : document interfaces funs output ⟨p₀, ⟨.INITIAL, stack,
      lead ++ ("<?xml".toList ++ printedHead mode (body ++ ("</record>\n".toList ++ rest)))⟩⟩ =
        .done (some (), ⟨q', ⟨.INITIAL, stack, '\n' :: rest⟩⟩) := by
    unfold document printedHead
    rw [bind_eq (token_eq (yylex_lead hlead stack _))]
    dsimp only
    rw [bind_eq (xmlDecl_eq p₀ stack _), bind_eq (expect_eq (hrecord _))]
    unfold record
    rw [bind_eq (attributes_record mode p₀ stack _ _)]
    dsimp only
    rw [if_neg (by decide)]
    exact hlong q' hq'
  have hgo : p₀.terminate = .goOn := hp.terminate
  unfold Reader.parse
  rw [hflush, Outcome.done_bind]
  dsimp only
  rw [if_pos hgo]
  unfold Reader.yyparse
  rw [hdocument]
  rfl

/-! ## Round trips -/

/-- Two records are equal in their fields, tags, binding tags, modes and interfaces. -/
structure SameRecord (rec d : Record (Ref V)) : Prop where
  fields : d.fields.entries.map (fun e => (e.1, e.2.data)) =
    rec.fields.entries.map fun e => (e.1, e.2.data)
  tags : d.tags.entries = rec.tags.entries
  btags : d.btags.entries = rec.btags.entries
  mode : d.mode = rec.mode
  interfaceId : d.interfaceId = rec.interfaceId

/-- The text of the record, behind white space and in front of any other text, is read as one record
that is written, and as the same one. What is left is the text behind it, with the new line that
ends it. -/
def RoundTrips (labels : LabelTable) (interfaces : List Text) (funs : InterfaceFuns V)
    (rec : Record (Ref V)) : Prop :=
  ∃ text, printRec labels interfaces funs rec = .done text ∧
    ∀ (p : Parser V) (s : LexState) (stack : List LexState) (lead rest : Text), Ready labels p →
      (∀ c ∈ lead, isBlank c = true) →
      ∃ p' d, Reader.parse interfaces funs true ⟨p, ⟨s, stack, lead ++ (text ++ rest)⟩⟩ =
          .done ⟨p', ⟨.INITIAL, stack, '\n' :: rest⟩⟩ ∧
        Ready labels p' ∧ p'.written = p.written ++ [(p.created, .data d)] ∧ SameRecord rec d

theorem interfaceId_readBack (rec : Record (Ref V)) :
    (readBack rec (begun V rec.mode)).interfaceId =
      if rec.fields.entries = [] then INTERFACE_UNKNOWN else rec.interfaceId := rfl

theorem sameRecord_readBack {rec : Record (Ref V)} (h : rec.fields.entries ≠ []) :
    SameRecord rec (readBack rec (begun V rec.mode)) where
  fields := by
    have hnodup : ((rec.fields.entries.map fun e => ((e.1, ⟨e.2.data, rec.interfaceId⟩) : Int × Ref V)).map
        Prod.fst).Nodup := by
      rw [map_map]
      exact rec.fields.nodup
    have hentries := entries_setEach (m := .empty) hnodup
    change (setEach _ LabelMap.empty).entries.map _ = _
    rw [hentries]
    change (List.map _ _).map _ = _
    rw [map_map]
    rfl
  tags := setEach_empty rec.tags
  btags := setEach_empty rec.btags
  mode := rfl
  interfaceId := (interfaceId_readBack rec).trans (if_neg h)

theorem printed_parse (hlabels : labels.Distinct) {interfaces : List Text}
    (hinterfaces : interfaces.Nodup) {funs : InterfaceFuns V} {rec : Record (Ref V)}
    (hrec : Printable labels interfaces rec) (hfuns : Undone funs rec.interfaceId) :
    ∃ text, printRec labels interfaces funs rec = .done text ∧
      ∀ (p : Parser V) (s : LexState) (stack : List LexState) (lead rest : Text), Ready labels p →
        (∀ c ∈ lead, isBlank c = true) →
        ∃ p₀ q, p₀.created = p.created ∧ p₀.written = p.written ∧
          Building p₀ labels rec.mode (readBack rec (begun V rec.mode)) q ∧
          ∀ q', q.recordEnd true = .done q' →
            Reader.parse interfaces funs true ⟨p, ⟨s, stack, lead ++ (text ++ rest)⟩⟩ =
              .done ⟨q', ⟨.INITIAL, stack, '\n' :: rest⟩⟩ := by
  obtain ⟨n, fields, tags, btags, hf, ht, hb, hbody⟩ := printed_body hlabels hinterfaces hrec hfuns
  have hprint : printRec labels interfaces funs rec =
      .done ("<?xml".toList ++ printedHead rec.mode (fields ++ tags ++ btags ++ "</record>\n".toList)) := by
    rw [← printedHead_eq, ← append_assoc, ← append_assoc, ← append_assoc]
    unfold printRec
    rw [hf, ht, hb]
    rfl
  refine ⟨_, hprint, fun p s stack lead rest hp hlead => ?_⟩
  rw [append_assoc, printedHead_append, append_assoc (fields ++ tags ++ btags)]
  exact parse_document hbody hp hlead true s stack rest

theorem roundTrips_of_field (hlabels : labels.Distinct) {interfaces : List Text}
    (hinterfaces : interfaces.Nodup) {funs : InterfaceFuns V} {rec : Record (Ref V)}
    (hrec : Printable labels interfaces rec) (hfuns : Undone funs rec.interfaceId)
    (hfield : rec.fields.entries ≠ []) : RoundTrips labels interfaces funs rec := by
  obtain ⟨text, hprint, hparse⟩ := printed_parse hlabels hinterfaces hrec hfuns
  refine ⟨text, hprint, fun p s stack lead rest hp hlead => ?_⟩
  obtain ⟨p₀, q, hcreated, hwritten, hbuild, hparse⟩ := hparse p s stack lead rest hp hlead
  have hid : (readBack rec (begun V rec.mode)).interfaceId ≠ INTERFACE_UNKNOWN := by
    obtain ⟨name, hname, -⟩ := hrec.interface hfield
    rw [interfaceId_readBack, if_neg hfield]
    exact (interfaceToId_of_idToInterface hinterfaces hname).2
  obtain ⟨q', hend, hready, hq'⟩ := recordEnd_write hbuild hid
  rw [hcreated, hwritten] at hq'
  exact ⟨q', _, hparse q' hend, hready, hq', sameRecord_readBack hfield⟩

theorem not_roundTrips_of_no_field (hlabels : labels.Distinct) {interfaces : List Text}
    (hinterfaces : interfaces.Nodup) {funs : InterfaceFuns V} {rec : Record (Ref V)}
    (hrec : Printable labels interfaces rec) (hfuns : Undone funs rec.interfaceId)
    (hfield : rec.fields.entries = []) : ¬ RoundTrips labels interfaces funs rec := by
  rintro ⟨text, hprint, htrip⟩
  have hready : Ready labels (Parser.init labels : Parser V) := ⟨rfl, rfl, rfl⟩
  obtain ⟨text', hprint', hparse⟩ := printed_parse hlabels hinterfaces hrec hfuns
  cases hprint.symm.trans hprint'
  obtain ⟨p₀, q, -, hwritten, hbuild, hparse⟩ := hparse _ .INITIAL [] [] [] hready nofun
  obtain ⟨p', d, hparse', -, hp', -⟩ := htrip _ .INITIAL [] [] [] hready nofun
  obtain ⟨q', hend, hq'⟩ :=
    recordEnd_discard hbuild ((interfaceId_readBack rec).trans (if_pos hfield)) true
  have hsame : p' = q' := by
    have heq := hparse'.symm.trans (hparse q' hend)
    injection heq with heq
    exact congrArg Reader.parser heq
  rw [hsame, hq', hwritten] at hp'
  cases hp'

/-- A printed record is read back exactly if it has a field, for names that the lexer gives back as
values in double quotes. -/
theorem printRec_roundTrips_iff (hlabels : labels.Distinct) {interfaces : List Text}
    (hinterfaces : interfaces.Nodup) {funs : InterfaceFuns V} {rec : Record (Ref V)}
    (hrec : Printable labels interfaces rec) (hfuns : Undone funs rec.interfaceId) :
    RoundTrips labels interfaces funs rec ↔ rec.fields.entries ≠ [] := by
  constructor
  · intro htrip hfield
    exact not_roundTrips_of_no_field hlabels hinterfaces hrec hfuns hfield htrip
  · exact roundTrips_of_field hlabels hinterfaces hrec hfuns

def decimalFuns : InterfaceFuns Int where
  write := fun _ _ v => decimal v
  read := fun _ _ text => (some (atoi (text.takeWhile (· ≠ '<'))), text.dropWhile (· ≠ '<'))

theorem undone_decimalFuns (iid : Int) : Undone decimalFuns iid := by
  intro mode v rest
  have hchars : ∀ c ∈ decimal v, c ≠ '<' := by
    obtain ⟨c, t, ht, -, hcontent⟩ := decimal_eq_cons v
    rw [ht]
    rintro x hx rfl
    cases hcontent '<' hx
  refine ⟨[], not_mem_nil, ?_⟩
  change (some (atoi (List.takeWhile _ (decimal v ++ _))), List.dropWhile _ (decimal v ++ _)) = _
  rw [takeWhile_append_of_pos (by simpa using hchars),
    dropWhile_append_of_pos (by simpa using hchars)]
  change (some (atoi (decimal v ++ [])), _) = _
  rw [append_nil, atoi_decimal]
  rfl

/-- A field, two tags and a binding tag in a record of the only interface. -/
def sampleRecord : Record (Ref Int) :=
  ⟨⟨[(0, ⟨-7, 0⟩)], by decide⟩, ⟨[(1, 42), (0, -1)], by decide⟩, ⟨[(2, 0)], by decide⟩, 0, .textual, none⟩

def sampleLabels : LabelTable := ⟨["a".toList, "b c".toList], [("d'".toList, 2)]⟩

theorem sampleLabels_named {id : Int} (h : id ∈ ([0, 1, 2] : List Int)) : Named sampleLabels id := by
  simp only [mem_cons, not_mem_nil, or_false] at h
  rcases h with rfl | rfl | rfl
  · exact ⟨"a".toList, rfl, lexable_of_all rfl rfl⟩
  · exact ⟨"b c".toList, rfl, lexable_of_all rfl rfl⟩
  · exact ⟨"d'".toList, rfl, lexable_of_all rfl rfl⟩

theorem sampleRecord_roundTrips :
    sampleLabels.Distinct ∧ RoundTrips sampleLabels ["C4SNet".toList] decimalFuns sampleRecord := by
  have hlabels : sampleLabels.Distinct := ⟨by decide, by decide, by decide⟩
  have hrec : Printable sampleLabels ["C4SNet".toList] sampleRecord := by
    refine ⟨?_, ?_, ?_, fun _ => ⟨"C4SNet".toList, rfl, lexable_of_all rfl rfl⟩⟩
    all_goals
      intro e he
      refine sampleLabels_named ?_
      revert e
      decide
  exact ⟨hlabels, (printRec_roundTrips_iff hlabels (nodup_singleton _) hrec
    (undone_decimalFuns 0)).2 (by decide)⟩

def tagRecord : Record (Ref Int) := ⟨.empty, ⟨[(0, 1)], by decide⟩, .empty, 0, .textual, none⟩

/-- How many records are written when the text of a record is parsed. -/
def writtenBack (labels : LabelTable) (interfaces : List Text) (funs : InterfaceFuns Int)
    (rec : Record (Ref Int)) : Option Nat :=
  match printRec labels interfaces funs rec with
  | .done text =>
    match Reader.parse interfaces funs true ⟨Parser.init labels, ⟨.INITIAL, [], text⟩⟩ with
    | .done r => some r.parser.written.length
    | _ => none
  | _ => none

theorem RoundTrips.writtenBack {labels : LabelTable} {interfaces : List Text} {funs : InterfaceFuns Int}
    {rec : Record (Ref Int)} (h : RoundTrips labels interfaces funs rec) :
    writtenBack labels interfaces funs rec = some 1 := by
  obtain ⟨text, hprint, hparse⟩ := h
  obtain ⟨p', d, hparse, -, hwritten, -⟩ :=
    hparse (Parser.init labels) .INITIAL [] [] [] ⟨rfl, rfl, rfl⟩ nofun
  rw [nil_append, append_nil] at hparse
  unfold Netif.writtenBack
  rw [hprint]
  dsimp only
  rw [hparse]
  dsimp only
  rw [hwritten]
  rfl

/-- A record without fields is discarded, and so is one with a label that holds a quote. -/
theorem tagRecord_discarded :
    writtenBack sampleLabels ["C4SNet".toList] decimalFuns tagRecord = some 0 ∧
      ¬ RoundTrips sampleLabels ["C4SNet".toList] decimalFuns tagRecord ∧
      ¬ RoundTrips ⟨["a\"b".toList], []⟩ ["C4SNet".toList] decimalFuns
        ⟨⟨[(0, ⟨-7, 0⟩)], by decide⟩, .empty, .empty, 0, .textual, none⟩ := by
  have htag : writtenBack sampleLabels ["C4SNet".toList] decimalFuns tagRecord = some 0 := by
    decide +kernel
  have hquote : writtenBack ⟨["a\"b".toList], []⟩ ["C4SNet".toList] decimalFuns
      ⟨⟨[(0, ⟨-7, 0⟩)], by decide⟩, .empty, .empty, 0, .textual, none⟩ = some 0 := by
    decide +kernel
  refine ⟨htag, fun h => ?_, fun h => ?_⟩
  · cases h.writtenBack.symm.trans htag
  · cases h.writtenBack.symm.trans hquote

end SNet.Netif
