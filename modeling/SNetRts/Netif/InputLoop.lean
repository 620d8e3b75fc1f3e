import SNetRts.Lib.Loop
import SNetRts.Netif.Consumes
import SNetRts.Netif.RoundTrip

/-!
# The task of the global input

`GlobInputTask` of `netif/input.c` calls `SNetInParserParse` until a terminate record has been read, and
the action of a field skips what is left of its data character by character. Neither of these loops
looks for the end of the input: reading ends exactly if no call is begun there, and if each field that
a call comes to has a tag behind it.

How far the generated scanner has looked behind its last token is a parameter: `yyrestart` drops these
characters when the next call begins.
-/

namespace SNet.Netif

open Lib Lexer Reading List

variable {V : Type}

/-! ## The loops of the source -/

/-- A round of `while(getc(yyin) != '<')`; at the end of the input `getc` returns `EOF`, and the input
stays as it is. -/
def skipRound : Text → Option Text
  | [] => some []
  | c :: text => if c = '<' then none else some text

/-- A loop that skips the rest of a field. -/
structure Skip where
  /-- The input behind the start tag of the field. -/
  data : Text
  /-- What the functions of the interface leave of it. -/
  left : Text
deriving DecidableEq

namespace Reading

variable {α β : Type}

/-- What `k` lists behind a piece of the grammar, if that is complete. -/
def behind (x : Reading V α) (k : α → Reader V → List β) (r : Reader V) : List β :=
  match x r with
  | .done (some a, r) => k a r
  | _ => []

/-! The loops that the rules come to, in the order of the input. -/

/-- The action of a field comes to its loop when it has set the field. -/
def fieldDataSkips (interfaces : List Text) (funs : InterfaceFuns V) (ats : List Attribute)
    (r : Reader V) : List Skip :=
  match Parser.fieldInterface interfaces ats (r.parser.fieldLabel ats).2,
      r.parser.field interfaces ats fun i mode => (funs.read i mode r.pos.text).1 with
  | .done (iid, q), .done _ =>
    [⟨r.pos.text,
      if iid ≠ INTERFACE_UNKNOWN then (funs.read iid q.mode r.pos.text).2 else r.pos.text⟩]
  | _, _ => []

def fieldSkips (interfaces : List Text) (funs : InterfaceFuns V) : Reader V → List Skip :=
  behind attributes fun (ats, t) r => if t = .TAG_END then fieldDataSkips interfaces funs ats r else []

def entitysSkips (interfaces : List Text) (funs : InterfaceFuns V) : Nat → Reader V → List Skip
  | 0 => fun _ => []
  | fuel + 1 => behind token fun t r =>
    match t with
    | .FIELD_BEGIN => fieldSkips interfaces funs r ++
      behind (field interfaces funs) (fun _ => entitysSkips interfaces funs fuel) r
    | .TAG_BEGIN =>
      behind (labelled .TAG_END_BEGIN Parser.setTag) (fun _ => entitysSkips interfaces funs fuel) r
    | .BTAG_BEGIN =>
      behind (labelled .BTAG_END_BEGIN Parser.setBTag) (fun _ => entitysSkips interfaces funs fuel) r
    | _ => []

def recordSkips (interfaces : List Text) (funs : InterfaceFuns V) : Reader V → List Skip :=
  behind attributes fun (ats, t) r =>
    if t = .TAG_END then
      behind (act (Parser.recordBegin interfaces ats))
        (fun _ r => entitysSkips interfaces funs (r.pos.text.length + 1) r) r
    else []

def documentSkips (interfaces : List Text) (funs : InterfaceFuns V) : Reader V → List Skip :=
  behind token fun t r =>
    match t with
    | .XMLDECL_BEGIN =>
      behind xmlDecl (fun _ => behind (expect .RECORD_BEGIN) fun _ => recordSkips interfaces funs) r
    | .RECORD_BEGIN => recordSkips interfaces funs r
    | _ => []

end Reading

namespace Reader

variable (interfaces : List Text) (funs : InterfaceFuns V)

/-- The loops that a call of `SNetInParserParse` comes to. -/
def skips (r : Reader V) : List Skip :=
  match r.parser.parserflush with
  | .done p =>
    if p.terminate = .goOn then
      Reading.documentSkips interfaces funs ⟨p, { r.pos with state := .INITIAL }⟩
    else []
  | _ => []

/-- A round of `while(i != SNET_PARSE_TERMINATE)` in `GlobInputTask`, with the output stream of the
task. There is no next one either where the call stops the program, or does not return. -/
def globInput (ahead : Reader V → Nat) (r : Reader V) : Option (Reader V) :=
  if r.parser.terminate = .terminate then none
  else
    match r.parse interfaces funs true with
    | .done r' => some ⟨r'.parser, { r'.pos with text := r'.pos.text.drop (ahead r) }⟩
    | _ => none

/-- The parser and its input behind `SNetInParserInit`. -/
def start (labels : LabelTable) (text : Text) : Reader V := ⟨Parser.init labels, ⟨.INITIAL, [], text⟩⟩

end Reader

/-! ## What is asked of reading -/

section

variable (interfaces : List Text) (funs : InterfaceFuns V) (ahead : Reader V → Nat) (labels : LabelTable)
  (text : Text)

/-- The task calls `SNetInParserParse` here. -/
def Calls (r : Reader V) : Prop :=
  Loop.Visits (Reader.globInput interfaces funs ahead) (.start labels text) r ∧
    r.parser.terminate ≠ .terminate

/-- Reading ends: all loops do, and each call takes something of the input, writes a record or reports
termination. -/
structure Ends : Prop where
  skips : ∀ r, Calls interfaces funs ahead labels text r → ∀ s ∈ r.skips interfaces funs,
    Loop.Halts skipRound s.left
  task : Loop.Halts (Reader.globInput interfaces funs ahead) (.start labels text)
  calls : ∀ r, Calls interfaces funs ahead labels text r → ∀ r', r.parse interfaces funs true = .done r' →
    r'.pos.text.length < r.pos.text.length ∨ r.parser.written.length < r'.parser.written.length ∨
      r'.parser.terminate = .terminate

/-- The input goes on as long as it is read: no call begins at its end, and behind the start tag of each
field that a call comes to there is another tag. -/
structure Supplied : Prop where
  calls : ∀ r, Calls interfaces funs ahead labels text r → r.pos.text ≠ []
  fields : ∀ r, Calls interfaces funs ahead labels text r → ∀ s ∈ r.skips interfaces funs, '<' ∈ s.data

end

/-- The functions that read take only what is before the next tag. -/
def BeforeTag (funs : InterfaceFuns V) : Prop :=
  ∀ i mode text, ∃ taken, text = taken ++ (funs.read i mode text).2 ∧ '<' ∉ taken

/-! ## The loop behind a field -/

theorem skipRound_of_notMem {text : Text} (h : '<' ∉ text) :
    ∃ text', skipRound text = some text' ∧ '<' ∉ text' := by
  cases text with
  | nil => exact ⟨[], rfl, h⟩
  | cons c text =>
    rw [mem_cons, not_or] at h
    refine ⟨text, ?_, h.2⟩
    rw [skipRound, if_neg (Ne.symm h.1)]

theorem skipToTag_eq_done {text left : Text} :
    skipToTag text = .done left ↔ Loop.Leads skipRound text left := by
  constructor
  · intro h
    unfold skipToTag at h
    split at h
    · rename_i hmem
      cases h
      induction text with
      | nil => cases hmem
      | cons c text ih =>
        by_cases hc : c = '<'
        · rw [dropWhile_cons_of_neg (by simp [hc])]
          exact .stop (if_pos hc)
        · rw [dropWhile_cons_of_pos (by simp [hc])]
          refine .next (if_neg hc) (ih ?_)
          exact (mem_cons.1 hmem).resolve_left (Ne.symm hc)
    · cases h
  · intro h
    induction h with
    | @stop text h =>
      cases text with
      | nil => cases h
      | cons c text =>
        have hc : c = '<' := by
          by_contra hc
          rw [skipRound, if_neg hc] at h
          cases h
        subst hc
        unfold skipToTag
        rw [if_pos mem_cons_self, dropWhile_cons_of_neg (by simp)]
    | @next text text' left h _ ih =>
      cases text with
      | nil =>
        cases h
        exact ih
      | cons c text =>
        have hc : c ≠ '<' := by
          rintro rfl
          cases h
        rw [skipRound, if_neg hc] at h
        cases h
        unfold skipToTag at ih ⊢
        rw [dropWhile_cons_of_pos (by simp [hc])]
        simpa [Ne.symm hc] using ih

theorem halts_skipRound {text : Text} : Loop.Halts skipRound text ↔ '<' ∈ text := by
  constructor
  · intro h
    by_contra hmem
    exact Loop.not_halts (fun _ => skipRound_of_notMem) hmem h
  · intro h
    refine ⟨text.dropWhile (· ≠ '<'), skipToTag_eq_done.1 ?_⟩
    exact if_pos h

/-! ## A call that does not return -/

namespace Reading

variable {α β : Type} {interfaces : List Text} {funs : InterfaceFuns V} {r : Reader V} {s : Skip}

theorem mem_behind {x : Reading V α} {k : α → Reader V → List β} {b : β} (h : b ∈ behind x k r) :
    ∃ a r', x r = .done (some a, r') ∧ b ∈ k a r' := by
  unfold behind at h
  split at h
  · rename_i a r' hx
    exact ⟨a, r', hx, h⟩
  · cases h

end Reading

/-! ## Reading a whole input -/

section

variable {interfaces : List Text} {funs : InterfaceFuns V} {ahead : Reader V → Nat} {labels : LabelTable}
  {text : Text}

theorem BeforeTag.length_le (h : BeforeTag funs) (i : Int) (mode : DataMode) (text : Text) :
    (funs.read i mode text).2.length ≤ text.length := by
  obtain ⟨taken, htaken, -⟩ := h i mode text
  have hlen := congrArg List.length htaken
  rw [length_append] at hlen
  omega

theorem BeforeTag.mem_iff (h : BeforeTag funs) (i : Int) (mode : DataMode) (text : Text) :
    '<' ∈ (funs.read i mode text).2 ↔ '<' ∈ text := by
  obtain ⟨taken, htaken, hnot⟩ := h i mode text
  constructor
  · intro hmem
    rw [htaken]
    exact mem_append_right _ hmem
  · intro hmem
    rw [htaken] at hmem
    exact (mem_append.1 hmem).resolve_left hnot

/-! What holds of the loops in the actions of fields holds of all loops of a call. -/

section

variable {P : Skip → Prop} {r : Reader V} {s : Skip}

theorem fieldSkips_of_data (hdata : ∀ ats r, ∀ s ∈ fieldDataSkips interfaces funs ats r, P s)
    (hs : s ∈ fieldSkips interfaces funs r) : P s := by
  obtain ⟨⟨ats, t⟩, r', -, hs⟩ := mem_behind hs
  dsimp only at hs
  split at hs
  · exact hdata ats r' s hs
  · cases hs

theorem entitysSkips_of_data (hdata : ∀ ats r, ∀ s ∈ fieldDataSkips interfaces funs ats r, P s)
    {fuel : Nat} (hs : s ∈ entitysSkips interfaces funs fuel r) : P s := by
  induction fuel generalizing r with
  | zero => cases hs
  | succ fuel ih =>
    obtain ⟨t, r', -, hs⟩ := mem_behind hs
    split at hs
    · rcases mem_append.1 hs with hs | hs
      · exact fieldSkips_of_data hdata hs
      · obtain ⟨_, r'', -, hs⟩ := mem_behind hs
        exact ih hs
    · obtain ⟨_, r'', -, hs⟩ := mem_behind hs
      exact ih hs
    · obtain ⟨_, r'', -, hs⟩ := mem_behind hs
      exact ih hs
    · cases hs

theorem recordSkips_of_data (hdata : ∀ ats r, ∀ s ∈ fieldDataSkips interfaces funs ats r, P s)
    (hs : s ∈ recordSkips interfaces funs r) : P s := by
  obtain ⟨⟨ats, t⟩, r', -, hs⟩ := mem_behind hs
  dsimp only at hs
  split at hs
  · obtain ⟨_, r'', -, hs⟩ := mem_behind hs
    exact entitysSkips_of_data hdata hs
  · cases hs

theorem skips_of_data (hdata : ∀ ats r, ∀ s ∈ fieldDataSkips interfaces funs ats r, P s)
    (hs : s ∈ r.skips interfaces funs) : P s := by
  unfold Reader.skips at hs
  split at hs
  · split at hs
    · obtain ⟨t, r', -, hs⟩ := mem_behind hs
      split at hs
      · obtain ⟨_, r₁, -, hs⟩ := mem_behind hs
        obtain ⟨_, r₂, -, hs⟩ := mem_behind hs
        exact recordSkips_of_data hdata hs
      · exact recordSkips_of_data hdata hs
      · cases hs
    · cases hs
  · cases hs

end

theorem BeforeTag.skip (h : BeforeTag funs) {r : Reader V} {s : Skip}
    (hs : s ∈ r.skips interfaces funs) : '<' ∈ s.left ↔ '<' ∈ s.data := by
  refine skips_of_data (P := fun s => '<' ∈ s.left ↔ '<' ∈ s.data) (fun ats r s hs => ?_) hs
  unfold fieldDataSkips at hs
  split at hs
  · cases mem_singleton.1 hs
    dsimp only
    split
    · exact h.mem_iff _ _ _
    · exact Iff.rfl
  · cases hs

theorem globInput_eq_some {r r' : Reader V} (h : r.globInput interfaces funs ahead = some r') :
    r.parser.terminate ≠ .terminate ∧ ∃ r'', r.parse interfaces funs true = .done r'' ∧
      r' = ⟨r''.parser, { r''.pos with text := r''.pos.text.drop (ahead r) }⟩ := by
  unfold Reader.globInput at h
  split at h
  · cases h
  · rename_i hterm
    split at h
    · rename_i r'' hparse
      cases h
      exact ⟨hterm, r'', hparse, rfl⟩
    · cases h

theorem visits_live (hfuns : BeforeTag funs) {r : Reader V}
    (h : Loop.Visits (Reader.globInput interfaces funs ahead) (.start labels text) r) :
    r.parser.Live := by
  refine h.invariant (I := fun r => r.parser.Live) (Parser.live_of_none rfl) fun u u' hu hstep => ?_
  obtain ⟨hterm, r'', hparse, rfl⟩ := globInput_eq_some hstep
  exact (Reader.parse_yields hfuns.length_le hu hterm r'' hparse).1

theorem not_halts_at_end {r : Reader V} (hlive : r.parser.Live)
    (hterm : r.parser.terminate ≠ .terminate) (htext : r.pos.text = []) :
    ¬ Loop.Halts (Reader.globInput interfaces funs ahead) r := by
  refine Loop.not_halts (I := fun r => r.parser.Live ∧ r.parser.terminate ≠ .terminate ∧
    r.pos.text = []) ?_ ⟨hlive, hterm, htext⟩
  rintro r ⟨hlive, hterm, htext⟩
  obtain ⟨r', hparse, hlive', htext', herror, -⟩ := Reader.parse_nil interfaces funs
    true hlive hterm htext
  refine ⟨⟨r'.parser, { r'.pos with text := r'.pos.text.drop (ahead r) }⟩, ?_, hlive', ?_, ?_⟩
  · unfold Reader.globInput
    rw [if_neg hterm, hparse]
  · rw [herror]
    nofun
  · change r'.pos.text.drop (ahead r) = []
    rw [htext', drop_nil]

theorem globInput_lt (hfuns : BeforeTag funs) {r r' : Reader V} (hlive : r.parser.Live)
    (htext : r.pos.text ≠ []) (h : r.globInput interfaces funs ahead = some r') :
    r'.pos.text.length < r.pos.text.length := by
  obtain ⟨hterm, r'', hparse, rfl⟩ := globInput_eq_some h
  have hlt := (Reader.parse_yields hfuns.length_le hlive hterm r'' hparse).2 htext
  have hdrop : (r''.pos.text.drop (ahead r)).length ≤ r''.pos.text.length := by
    rw [length_drop]
    omega
  exact Nat.lt_of_le_of_lt hdrop hlt

end

theorem beforeTag_decimalFuns : BeforeTag decimalFuns := by
  intro i mode text
  refine ⟨text.takeWhile (· ≠ '<'), (takeWhile_append_dropWhile).symm, fun h => ?_⟩
  have := mem_takeWhile_imp h
  simp at this

def sampleText : Text :=
  "<record type=\"data\"><field label=\"a\" interface=\"C4SNet\">12</field></record>\n".toList ++
    "<record type=\"terminate\"/>\n".toList

def brokenText : Text := "<record type=\"data\"><field label=\"a\">12".toList

end SNet.Netif
