import SNetRts.Netif.Reader

/-!
# What a call of the parser takes of its input

No piece of the grammar gives anything back to the input, and where there is any input left the first
token takes some of it. `current.record` points to a record that is there, or is `NULL`, whatever the
actions have done, so that `parserflush` goes well.
-/

namespace SNet.Netif

open Lib Lexer

variable {V : Type}

/-! ## The current record -/

namespace Parser

/-- `current.record` points to a record that is there. -/
def Live (p : Parser V) : Prop := ∀ n, p.record = some n → (p.heap n).isSome = true

theorem Live.congr {p p' : Parser V} (h : p.Live) (hrecord : p'.record = p.record)
    (hheap : p'.heap = p.heap) : p'.Live := by
  intro n hn
  rw [hheap]
  exact h n (hrecord ▸ hn)

theorem live_of_none {p : Parser V} (h : p.record = none) : p.Live := by
  intro n hn
  cases h.symm.trans hn

theorem Live.yyerror {p : Parser V} (h : p.Live) : p.yyerror.Live := by
  unfold Parser.yyerror
  split
  · exact h.congr rfl rfl
  · exact h

theorem live_create (p : Parser V) (r : Rec V) : (p.create r).Live := by
  intro n hn
  cases hn
  change (Function.update p.heap p.created (some r) p.created).isSome = true
  rw [Function.update_self]
  rfl

theorem live_createTerminate (p : Parser V) : p.createTerminate.Live := by
  unfold createTerminate
  dsimp only
  split
  · exact (live_create p .terminate).congr rfl rfl
  · exact live_create p .terminate

theorem Live.onData {p : Parser V} (h : p.Live) (f : Record (Ref V) → Record (Ref V)) :
    (p.onData f).Yields Live := by
  unfold Parser.onData
  split
  · rename_i at' d _
    apply Outcome.Yields.done
    intro n hn
    change (Function.update p.heap at' (some (.data (f d))) n).isSome = true
    by_cases heq : n = at'
    · rw [heq, Function.update_self]
      rfl
    · rw [Function.update_of_ne heq]
      exact h n hn
  · exact .fault

theorem Live.setInterfaceId {p : Parser V} (h : p.Live) (id : Int) : (p.setInterfaceId id).Yields Live :=
  h.onData _

theorem Live.setDataMode {p : Parser V} (h : p.Live) (mode : DataMode) :
    (p.setDataMode mode).Yields Live :=
  h.onData _

theorem Live.setField {p : Parser V} (h : p.Live) (name : Int) (val : Ref V) :
    (p.setField name val).Yields Live :=
  h.onData _

theorem Live.setTag {p : Parser V} (h : p.Live) (name val : Int) : (p.setTag name val).Yields Live :=
  h.onData _

theorem Live.setBTag {p : Parser V} (h : p.Live) (name val : Int) : (p.setBTag name val).Yields Live :=
  h.onData _

theorem destroy_yields (p : Parser V) : p.destroy.Yields fun p' => p'.record = none := by
  unfold Parser.destroy
  split
  · exact .done rfl
  · exact .fault

theorem Live.write {p : Parser V} (h : p.Live) (output : Bool) : (p.write output).Yields Live := by
  unfold Parser.write
  split
  · split
    · exact .done (live_of_none rfl)
    · exact .fault
  · exact .done h

theorem Live.byType {p : Parser V} (h : p.Live) (ats : List Attribute)
    {data : Parser V → Outcome (Parser V)} (hdata : (data p).Yields Live) :
    (p.byType ats data).Yields Live := by
  unfold Parser.byType
  split
  · split
    · exact hdata
    · split
      · exact .blocked
      · split
        · exact .done (live_createTerminate p)
        · exact .done h.yyerror
  · exact .done h.yyerror

theorem discard_live (p : Parser V) : p.discard.Yields Live := by
  unfold Parser.discard
  refine (destroy_yields p).bind fun q hq => ?_
  apply Outcome.Yields.done
  have hflushed : ({ q with interface := INTERFACE_UNKNOWN } : Parser V).Live := live_of_none hq
  exact hflushed.yyerror.congr rfl rfl

theorem Live.recordShort {p : Parser V} (h : p.Live) (interfaces : List Text) (output : Bool)
    (ats : List Attribute) : (p.recordShort interfaces output ats).Yields Live := by
  unfold Parser.recordShort
  refine (h.byType ats ?_).bind fun q hq => ?_
  · dsimp only
    split
    · have hcreated := live_create ({ p with mode := modeOf ats } : Parser V) (.data (newData V))
      refine Outcome.Yields.bind (p := Live) ?_ fun q hq => hq.setDataMode _
      apply Live.setInterfaceId
      exact hcreated.congr rfl rfl
    · exact .done (h.congr rfl rfl)
  · split
    · split
      · refine (hq.write output).bind fun q hq => ?_
        exact .done (hq.congr rfl rfl)
      · exact .done hq
    · exact discard_live q

theorem Live.recordBegin {p : Parser V} (h : p.Live) (interfaces : List Text) (ats : List Attribute) :
    (p.recordBegin interfaces ats).Yields Live := by
  unfold Parser.recordBegin
  apply h.byType ats
  have hcreated := live_create p (.data (newData V))
  refine Outcome.Yields.bind (p := Live) ?_ fun q hq => ?_
  · apply Live.setDataMode
    exact hcreated.congr rfl rfl
  · split
    · apply Live.setInterfaceId
      exact hq.congr rfl rfl
    · exact hq.setInterfaceId _

theorem Live.recordEnd {p : Parser V} (h : p.Live) (output : Bool) : (p.recordEnd output).Yields Live := by
  unfold Parser.recordEnd
  split
  · split
    · refine (Outcome.yields_true _).bind fun lacks _ => ?_
      split
      · exact discard_live p
      · refine (h.write output).bind fun q hq => ?_
        exact .done (hq.congr rfl rfl)
    · exact discard_live p
  · exact .done h

theorem Live.labelId {p : Parser V} (h : p.Live) (label : Text) : (p.labelId label).2.Live :=
  h.congr rfl rfl

theorem Live.fieldLabel {p : Parser V} (h : p.Live) (ats : List Attribute) :
    (p.fieldLabel ats).2.Live := by
  unfold Parser.fieldLabel
  split
  · exact h.labelId _
  · exact h.yyerror

theorem fieldInterface_yields (interfaces : List Text) (ats : List Attribute) {p : Parser V}
    (h : p.Live) : (p.fieldInterface interfaces ats).Yields fun (_, q) => q.Live := by
  unfold Parser.fieldInterface
  split
  · exact .done h
  · dsimp only
    split
    · split
      · exact .done h.yyerror
      · exact .done h
    · split
      · exact .done h.yyerror
      · refine (Outcome.yields_true _).bind fun iid _ => ?_
        split
        · refine (h.setInterfaceId _).bind fun q hq => ?_
          exact .done hq
        · split
          · exact .done h.yyerror
          · exact .done h

theorem Live.field {p : Parser V} (h : p.Live) (interfaces : List Text) (ats : List Attribute)
    (read : Int → DataMode → Option V) : (p.field interfaces ats read).Yields Live := by
  unfold Parser.field
  refine (fieldInterface_yields interfaces ats (h.fieldLabel ats)).bind ?_
  rintro ⟨iid, q⟩ hq
  dsimp only at hq ⊢
  split
  · split
    · exact hq.setField _ _
    · exact .done hq.yyerror
  · exact .done hq

theorem Live.labelled {p : Parser V} (h : p.Live) {set : Parser V → Int → Int → Outcome (Parser V)}
    (hset : ∀ q, q.Live → ∀ name val, (set q name val).Yields Live) (ats : List Attribute) (val : Int) :
    (p.labelled set ats val).Yields Live := by
  unfold Parser.labelled
  split
  · exact hset _ (h.labelId _) _ val
  · exact .done h.yyerror

theorem Live.parserflush {p : Parser V} (h : p.Live) (hterm : p.terminate ≠ .terminate) :
    ∃ q, p.parserflush = .done q ∧ q.record = none ∧ q.terminate = .goOn ∧ q.written = p.written := by
  have hgo : (if p.terminate = .error then Parse.goOn else p.terminate) = .goOn := by
    cases ht : p.terminate with
    | goOn => rfl
    | error => rfl
    | terminate => exact absurd ht hterm
  unfold Parser.parserflush
  cases hat : p.record with
  | none => exact ⟨_, rfl, hat, hgo, rfl⟩
  | some at' =>
    obtain ⟨r, hr⟩ := Option.isSome_iff_exists.1 (h at' hat)
    have hcur : p.current = some (at', r) := by
      unfold Parser.current
      rw [hat, Option.bind_some, hr]
      rfl
    simp only [Option.isSome_some, if_true, Parser.destroy, hcur, Outcome.done_bind]
    exact ⟨_, rfl, rfl, hgo, rfl⟩

end Parser

/-! ## Tokens -/

theorem exists_rule (s : LexState) {text : Text} (h : text ≠ []) : ∃ r ∈ rules s, 0 < r.len text := by
  cases text with
  | nil => exact absurd rfl h
  | cons c text =>
    by_cases hc : c = '\n'
    · subst hc
      refine ⟨blank, List.mem_cons_self, ?_⟩
      change 0 < (List.takeWhile isBlank ('\n' :: text)).length
      rw [List.takeWhile_cons_of_pos (by decide)]
      exact Nat.succ_pos _
    · refine ⟨otherwise, ?_, ?_⟩
      · apply List.mem_append_right
        exact List.mem_singleton_self _
      · change 0 < Flex.anyChar (c :: text)
        rw [Flex.anyChar, if_neg hc]
        exact Nat.one_pos

theorem yylex_le {pos pos' : Lexer.Pos} (h : (yylex pos).pos? = some pos') :
    pos'.text.length ≤ pos.text.length :=
  Flex.scan_le h

theorem yylex_lt {pos pos' : Lexer.Pos} (htext : pos.text ≠ []) (h : (yylex pos).pos? = some pos') :
    pos'.text.length < pos.text.length := by
  obtain ⟨r, hr, hpos⟩ := exists_rule pos.state htext
  unfold yylex at h
  have hfuel : pos.text.length = pos.text.length - 1 + 1 := by
    have := List.length_pos_of_ne_nil htext
    omega
  rw [hfuel] at h
  exact Flex.scan_lt h htext hr hpos

theorem yylex_nil {pos : Lexer.Pos} (h : pos.text = []) : yylex pos = .eof false pos := by
  unfold yylex
  rw [h]
  rfl

/-! ## The grammar -/

/-- The second reader is the first one after some actions and tokens. -/
structure Reader.Later (r r' : Reader V) : Prop where
  text : r'.pos.text.length ≤ r.pos.text.length
  live : r.parser.Live → r'.parser.Live

theorem Reader.Later.refl (r : Reader V) : r.Later r := ⟨Nat.le_refl _, id⟩

theorem Reader.Later.trans {r r' r'' : Reader V} (h : r.Later r') (h' : r'.Later r'') : r.Later r'' :=
  ⟨Nat.le_trans h'.text h.text, h'.live ∘ h.live⟩

namespace Reading

variable {α β : Type}

def NonGrowing (x : Reading V α) : Prop := ∀ r, (x r).Yields fun (_, r') => r.Later r'

namespace NonGrowing

theorem pure (a : α) : NonGrowing (pure a : Reading V α) := fun r => .done (.refl r)

theorem fail : NonGrowing (fail : Reading V α) := fun r => .done (.refl r)

theorem bind {x : Reading V α} {f : α → Reading V β} (hx : NonGrowing x) (hf : ∀ a, NonGrowing (f a)) :
    NonGrowing (x >>= f) := by
  intro r
  refine (hx r).bind ?_
  rintro ⟨a, r'⟩ hr'
  cases a with
  | none => exact .done hr'
  | some a =>
    intro s hs
    exact hr'.trans (hf a r' s hs)

theorem lift (o : Outcome α) : NonGrowing (lift o : Reading V α) := by
  intro r
  refine (Outcome.yields_true o).bind fun a _ => ?_
  exact .done (.refl r)

theorem act {f : Parser V → Outcome (Parser V)} (hf : ∀ p, p.Live → (f p).Yields Parser.Live) :
    NonGrowing (act f) := by
  intro r s hs
  obtain ⟨p, hp, hdone⟩ := Outcome.bind_eq_done.1 hs
  cases hdone
  exact ⟨Nat.le_refl _, fun hlive => hf _ hlive p hp⟩

theorem token : NonGrowing (token : Reading V Token) := by
  intro r
  have hlive (invalid : Bool) :
      r.parser.Live → (if invalid then r.parser.yyerror else r.parser).Live := by
    intro h
    cases invalid with
    | true => exact h.yyerror
    | false => exact h
  unfold Reading.token
  split
  · rename_i invalid t pos hlex
    refine .done ⟨yylex_le ?_, hlive invalid⟩
    rw [hlex]
    rfl
  · rename_i invalid pos hlex
    refine .done ⟨yylex_le ?_, hlive invalid⟩
    rw [hlex]
    rfl
  · exact .blocked

theorem ite {c : Prop} [Decidable c] {x y : Reading V α} (hx : NonGrowing x) (hy : NonGrowing y) :
    NonGrowing (if c then x else y) := by
  split
  · exact hx
  · exact hy

theorem expect (t : Token) : NonGrowing (expect t : Reading V Unit) :=
  token.bind fun _ => (pure ()).ite fail

theorem quoted (t : Token → Bool) : NonGrowing (quoted t : Reading V Unit) := by
  refine token.bind fun q => ite ?_ fail
  refine token.bind fun t' => ite ?_ fail
  exact expect q

theorem versionInfo : NonGrowing (versionInfo : Reading V Unit) :=
  (expect _).bind fun _ => (expect _).bind fun _ => quoted _

theorem sdDecl : NonGrowing (sdDecl : Reading V Unit) :=
  (expect _).bind fun _ => (quoted _).bind fun _ => expect _

theorem xmlDecl : NonGrowing (xmlDecl : Reading V Unit) := by
  refine versionInfo.bind fun _ => token.bind fun t => ?_
  split
  · exact pure ()
  · exact sdDecl
  · refine (expect _).bind fun _ => (quoted _).bind fun _ => token.bind fun t => ?_
    split
    · exact pure ()
    · exact sdDecl
    · exact fail
  · exact fail

theorem attValue : NonGrowing (attValue : Reading V Text) := by
  refine token.bind fun t => ?_
  split
  · refine token.bind fun t => ?_
    split
    · exact (expect _).bind fun _ => pure _
    · exact fail
  · refine token.bind fun t => ?_
    split
    · exact (expect _).bind fun _ => pure _
    · exact fail
  · exact fail

theorem attributesUpTo (fuel : Nat) :
    NonGrowing (attributesUpTo fuel : Reading V (List Attribute × Token)) := by
  induction fuel with
  | zero => exact fail
  | succ fuel ih =>
    refine token.bind fun t => ?_
    split
    · refine (expect _).bind fun _ => attValue.bind fun value => ih.bind fun _ => ?_
      exact pure _
    · exact pure _

theorem attributes : NonGrowing (attributes : Reading V (List Attribute × Token)) := by
  have hall : NonGrowing (attributesAll : Reading V (List Attribute × Token)) :=
    fun r => attributesUpTo _ r
  refine hall.bind fun _ => ?_
  exact (lift _).bind fun _ => pure _

/-! ### Entities and records -/

section

variable (interfaces : List Text) {funs : InterfaceFuns V}

theorem skipToTag_le (text : Text) : (skipToTag text).Yields fun left => left.length ≤ text.length := by
  unfold skipToTag
  split
  · exact .done (List.dropWhile_sublist _).length_le
  · exact .blocked

theorem fieldData (hfuns : ∀ i mode text, (funs.read i mode text).2.length ≤ text.length)
    (ats : List Attribute) : NonGrowing (fieldData interfaces funs ats) := by
  intro r s hs
  unfold Reading.fieldData at hs
  obtain ⟨⟨iid, q⟩, -, hs⟩ := Outcome.bind_eq_done.1 hs
  obtain ⟨p, hp, hs⟩ := Outcome.bind_eq_done.1 hs
  obtain ⟨text, htext, hs⟩ := Outcome.bind_eq_done.1 hs
  cases hs
  refine ⟨?_, fun hlive => hlive.field interfaces ats _ p hp⟩
  have hleft : (if iid ≠ INTERFACE_UNKNOWN then (funs.read iid q.mode r.pos.text).2
      else r.pos.text).length ≤ r.pos.text.length := by
    split
    · exact hfuns _ _ _
    · exact Nat.le_refl _
  exact Nat.le_trans (skipToTag_le _ _ htext) hleft

theorem field (hfuns : ∀ i mode text, (funs.read i mode text).2.length ≤ text.length) :
    NonGrowing (field interfaces funs) := by
  refine attributes.bind ?_
  rintro ⟨ats, t⟩
  dsimp only
  split
  · exact lift _
  · refine (fieldData interfaces hfuns ats).bind fun _ => ?_
    exact (expect _).bind fun _ => expect _
  · exact fail

theorem labelled (endBegin : Token) {set : Parser V → Int → Int → Outcome (Parser V)}
    (hset : ∀ q, q.Live → ∀ name val, (set q name val).Yields Parser.Live) :
    NonGrowing (labelled endBegin set) := by
  have hact (ats : List Attribute) (val : Int) : NonGrowing (Reading.act (Parser.labelled set ats val)) :=
    act fun p hp => hp.labelled hset ats val
  refine attributes.bind ?_
  rintro ⟨ats, t⟩
  dsimp only
  split
  · exact hact ats 0
  · refine token.bind fun t => ?_
    split
    · exact (expect _).bind fun _ => (expect _).bind fun _ => hact ats _
    · exact ite ((expect _).bind fun _ => hact ats 0) fail
  · exact fail

theorem entitys (hfuns : ∀ i mode text, (funs.read i mode text).2.length ≤ text.length) (fuel : Nat) :
    NonGrowing (entitys interfaces funs fuel) := by
  induction fuel with
  | zero => exact fail
  | succ fuel ih =>
    refine token.bind fun t => ?_
    split
    · exact (field interfaces hfuns).bind fun _ => ih
    · exact (labelled _ fun q hq => hq.setTag).bind fun _ => ih
    · exact (labelled _ fun q hq => hq.setBTag).bind fun _ => ih
    · exact pure _

theorem record (hfuns : ∀ i mode text, (funs.read i mode text).2.length ≤ text.length)
    (output : Bool) : NonGrowing (record interfaces funs output) := by
  have hall : NonGrowing (entitysAll interfaces funs) := fun r => entitys interfaces hfuns _ r
  refine attributes.bind ?_
  rintro ⟨ats, t⟩
  dsimp only
  apply ite
  · exact act fun p hp => hp.recordShort interfaces output ats
  · unfold recordLong
    refine (act fun p hp => hp.recordBegin interfaces ats).bind fun _ => ite ?_ fail
    refine hall.bind fun t => ite ?_ fail
    exact (expect _).bind fun _ => act fun p hp => hp.recordEnd output

end

end NonGrowing

def behindFirst (interfaces : List Text) (funs : InterfaceFuns V) (output : Bool) (t : Token) :
    Reading V Unit :=
  match t with
  | .XMLDECL_BEGIN => do
    xmlDecl
    expect .RECORD_BEGIN
    record interfaces funs output
  | .RECORD_BEGIN => record interfaces funs output
  | _ => fail

theorem document_eq (interfaces : List Text) (funs : InterfaceFuns V) (output : Bool) :
    document interfaces funs output = token >>= behindFirst interfaces funs output := rfl

theorem NonGrowing.behindFirst (interfaces : List Text) {funs : InterfaceFuns V}
    (hfuns : ∀ i mode text, (funs.read i mode text).2.length ≤ text.length) (output : Bool)
    (t : Token) : NonGrowing (behindFirst interfaces funs output t) := by
  unfold Reading.behindFirst
  split
  · exact xmlDecl.bind fun _ => (expect _).bind fun _ => record interfaces hfuns output
  · exact record interfaces hfuns output
  · exact fail

theorem token_lt {r : Reader V} (htext : r.pos.text ≠ []) :
    (token r).Yields fun (_, r') => r'.pos.text.length < r.pos.text.length := by
  unfold token
  split
  · rename_i invalid t pos hlex
    refine .done (yylex_lt htext ?_)
    rw [hlex]
    rfl
  · rename_i invalid pos hlex
    refine .done (yylex_lt htext ?_)
    rw [hlex]
    rfl
  · exact .blocked

theorem token_nil {r : Reader V} (htext : r.pos.text = []) : token r = .done (none, r) := by
  unfold token
  rw [yylex_nil htext]
  rfl

theorem document_lt (interfaces : List Text) {funs : InterfaceFuns V}
    (hfuns : ∀ i mode text, (funs.read i mode text).2.length ≤ text.length) (output : Bool)
    {r : Reader V} (htext : r.pos.text ≠ []) : (document interfaces funs output r).Yields
      fun (_, r') => r'.pos.text.length < r.pos.text.length := by
  rw [document_eq]
  refine (token_lt htext).bind ?_
  rintro ⟨a, r'⟩ hlt
  cases a with
  | none => exact .done hlt
  | some t =>
    intro s hs
    have hlater := NonGrowing.behindFirst interfaces hfuns output t r' s hs
    exact Nat.lt_of_le_of_lt hlater.text hlt

end Reading

/-! ## Calls -/

namespace Reader

variable {interfaces : List Text} {funs : InterfaceFuns V} {output : Bool} {r : Reader V}

theorem parse_yields (hfuns : ∀ i mode text, (funs.read i mode text).2.length ≤ text.length)
    (hlive : r.parser.Live) (hterm : r.parser.terminate ≠ .terminate) :
    (r.parse interfaces funs output).Yields fun r' => r'.parser.Live ∧
      (r.pos.text ≠ [] → r'.pos.text.length < r.pos.text.length) := by
  obtain ⟨q, hq, hnone, hgo, -⟩ := hlive.parserflush hterm
  intro r' hr'
  unfold parse at hr'
  rw [hq, Outcome.done_bind, if_pos hgo] at hr'
  obtain ⟨⟨ok, r''⟩, hdoc, hdone⟩ := Outcome.bind_eq_done.1 hr'
  have hlater : Later ⟨q, { r.pos with state := .INITIAL }⟩ r'' := by
    refine ((Reading.NonGrowing.token (V := V)).bind fun t => ?_) _ _ hdoc
    exact Reading.NonGrowing.behindFirst interfaces hfuns output t
  have hlive'' : r''.parser.Live := hlater.live (Parser.live_of_none hnone)
  have hlt (htext : r.pos.text ≠ []) : r''.pos.text.length < r.pos.text.length :=
    Reading.document_lt interfaces hfuns output (r := ⟨q, { r.pos with state := .INITIAL }⟩) htext _ hdoc
  cases hdone
  cases ok with
  | none => exact ⟨hlive''.yyerror, hlt⟩
  | some _ => exact ⟨hlive'', hlt⟩

variable (interfaces funs output) in
theorem parse_nil (hlive : r.parser.Live) (hterm : r.parser.terminate ≠ .terminate)
    (htext : r.pos.text = []) : ∃ r', r.parse interfaces funs output = .done r' ∧ r'.parser.Live ∧
      r'.pos.text = [] ∧ r'.parser.terminate = .error ∧ r'.parser.written = r.parser.written := by
  obtain ⟨q, hq, hnone, hgo, hwritten⟩ := hlive.parserflush hterm
  have hdoc : Reading.document interfaces funs output ⟨q, { r.pos with state := .INITIAL }⟩ =
      .done (none, ⟨q, { r.pos with state := .INITIAL }⟩) := by
    have htok := Reading.token_nil (r := ⟨q, { r.pos with state := .INITIAL }⟩) htext
    rw [Reading.document_eq]
    change Reading.bind _ _ _ = _
    unfold Reading.bind
    rw [htok]
    rfl
  have hyy : q.yyerror = { q with terminate := .error } := by
    unfold Parser.yyerror
    rw [if_pos (by rw [hgo]; nofun)]
  unfold parse
  rw [hq, Outcome.done_bind, if_pos hgo]
  unfold yyparse
  rw [hdoc, Outcome.done_bind]
  refine ⟨_, rfl, ?_, htext, ?_, ?_⟩
  · exact (Parser.live_of_none hnone).yyerror
  · exact congrArg Parser.terminate hyy
  · exact (congrArg Parser.written hyy).trans hwritten

end Reader

end SNet.Netif
