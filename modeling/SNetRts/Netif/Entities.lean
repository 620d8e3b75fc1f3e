import SNetRts.Netif.Reader
import Mathlib.Data.List.TakeWhile

/-!
# Reading what has been printed

The fields and tags of a record, as `printRec` writes them, go through the lexer and the grammar token
by token, and each of them does to the record what it says. Names have to be such that the lexer gives
them back as the value of an attribute in double quotes.
-/

namespace SNet.Netif

open Lib Flex Lexer Reading List

variable {V : Type}

/-! ## Tokens of any length -/

/-- A text that the lexer gives back as the value of an attribute in double quotes. -/
structure Lexable (t : Text) : Prop where
  chars : ∀ c ∈ t, isDattChar c = true
  visible : ∃ c ∈ t, isBlank c = false

theorem lexable_of_all {t : Text} (h : t.all isDattChar = true) (h' : t.any (fun c => !isBlank c) = true) :
    Lexable t := by
  refine ⟨all_eq_true.1 h, ?_⟩
  obtain ⟨c, hc, hblank⟩ := any_eq_true.1 h'
  exact ⟨c, hc, by simpa using hblank⟩

theorem Lexable.pos {t : Text} (h : Lexable t) : 0 < t.length := by
  obtain ⟨c, hc, -⟩ := h.visible
  exact length_pos_of_mem hc

theorem yylex_of_best {pos : Lexer.Pos} {n : Nat} {len : Text → Nat} {f : Text → Token}
    (h : best (rules pos.state) pos.text = some (n, ⟨len, .stay, .token f⟩)) (hne : pos.text ≠ []) :
    yylex pos = .token false (f (pos.text.take n)) ⟨pos.state, pos.stack, pos.text.drop n⟩ := by
  unfold yylex
  cases hl : pos.text.length with
  | zero => exact absurd (eq_nil_of_length_eq_zero hl) hne
  | succ k =>
    rw [scan, h]
    rfl

theorem yylex_dattval {t : Text} (h : Lexable t) (stack : List LexState) (rest : Text) :
    yylex ⟨.IN_XML_DQUOTE, stack, t ++ '"' :: rest⟩ =
      .token false (.DATTVAL t) ⟨.IN_XML_DQUOTE, stack, '"' :: rest⟩ := by
  have hbest : best (rules .IN_XML_DQUOTE) (t ++ '"' :: rest) =
      some (t.length, ⟨run isDattChar, .stay, .token .DATTVAL⟩) := by
    refine best_eq [blank, word "\"" .pop .DQUOTE] [otherwise] ?_ h.pos ?_ ?_
    · exact run_append h.chars rfl
    · refine forall_mem_cons.2 ⟨run_lt h.visible _, forall_mem_singleton.2 ?_⟩
      cases t with
      | nil => exact absurd h.pos (Nat.lt_irrefl 0)
      | cons c t =>
        have hc := h.chars c mem_cons_self
        have hne : '"' ≠ c := by
          rintro rfl
          cases hc
        exact Nat.lt_of_le_of_lt (Nat.le_of_eq (lit_eq_zero hne [] _)) (Nat.succ_pos _)
    · exact forall_mem_singleton.2 (Nat.le_trans (anyChar_le_one _) h.pos)
  rw [yylex_of_best hbest (by simp), take_left, drop_left]

theorem yylex_chardata {c : Char} {t : Text} (hc : isBlank c = false)
    (ht : ∀ x ∈ c :: t, isContentChar x = true) (stack : List LexState) (rest : Text) :
    yylex ⟨.IN_XML_CONTENT, stack, c :: (t ++ '<' :: rest)⟩ =
      .token false (.CHARDATA (c :: t)) ⟨.IN_XML_CONTENT, stack, '<' :: rest⟩ := by
  have hne : '<' ≠ c := by
    rintro rfl
    cases ht '<' mem_cons_self
  have hpos : 0 < (c :: t).length := Nat.succ_pos _
  have hbest : best (rules .IN_XML_CONTENT) (c :: (t ++ '<' :: rest)) =
      some ((c :: t).length, ⟨run isContentChar, .stay, .token .CHARDATA⟩) := by
    refine best_eq (blank :: contentRules.take 8) [otherwise] ?_ hpos ?_ ?_
    · exact run_append (t := c :: t) ht rfl
    · refine forall_mem_cons.2 ⟨run_lt (t := c :: t) ⟨c, mem_cons_self, hc⟩ _, ?_⟩
      intro r hr
      have hzero : r.len (c :: (t ++ '<' :: rest)) = 0 := by
        simp only [contentRules, word, take_succ_cons, take_zero, mem_cons,
          not_mem_nil, or_false] at hr
        rcases hr with rfl | rfl | rfl | rfl | rfl | rfl | rfl | rfl <;> exact lit_eq_zero hne _ _
      exact Nat.lt_of_le_of_lt (Nat.le_of_eq hzero) hpos
    · have hone := anyChar_le_one (c :: (t ++ '<' :: rest))
      exact forall_mem_singleton.2 (Nat.le_trans hone hpos)
  rw [yylex_of_best hbest (by simp)]
  rw [← cons_append, take_left, drop_left]

theorem yylex_lead {lead : Text} (hlead : ∀ c ∈ lead, isBlank c = true) (stack : List LexState)
    (rest : Text) :
    yylex ⟨.INITIAL, stack, lead ++ ("<?xml".toList ++ rest)⟩ =
      .token false .XMLDECL_BEGIN ⟨.IN_XML_DECL, .INITIAL :: stack, rest⟩ := by
  cases lead with
  | nil => rfl
  | cons c lead =>
    have hbest : best (rules .INITIAL) ((c :: lead) ++ '<' :: ("?xml".toList ++ rest)) =
        some ((c :: lead).length, blank) := by
      refine best_eq [] (initialRules ++ [otherwise]) (run_append hlead rfl) (Nat.succ_pos _) nofun ?_
      have hone : ∀ x : Text, anyChar x ≤ (c :: lead).length := fun x =>
        Nat.le_trans (anyChar_le_one x) (Nat.succ_pos _)
      have hother : ∀ x : Text, otherwise.len x ≤ (c :: lead).length := hone
      have hne : '<' ≠ c := by
        rintro rfl
        cases hlead '<' mem_cons_self
      have hzero : ∀ s x : Text, lit ('<' :: s) (c :: x) ≤ (c :: lead).length := fun s x =>
        Nat.le_trans (Nat.le_of_eq (lit_eq_zero hne s x)) (Nat.zero_le _)
      simp only [initialRules, cons_append, nil_append, forall_mem_cons]
      exact ⟨hzero _ _, hzero _ _, hzero _ _, hone _, hother _, nofun⟩
    have hlen : ((c :: lead) ++ ("<?xml".toList ++ rest)).length = lead.length + (rest.length + 4) + 2 := by
      have hfive : "<?xml".toList.length = 5 := rfl
      simp only [cons_append, length_cons, length_append, hfive]
      omega
    unfold yylex
    dsimp only
    rw [hlen]
    refine (scan_skip hbest _ _).trans ?_
    rw [drop_left]
    rfl

/-! ## Numbers -/

theorem ne_of_isDigit {c x : Char} (h : c.isDigit = true) (hx : x.isDigit = false) : c ≠ x := by
  rintro rfl
  exact absurd (h.symm.trans hx) nofun

theorem isContentChar_of_isDigit {c : Char} (h : c.isDigit = true) : isContentChar c = true := by
  have hlt : c ≠ '<' := ne_of_isDigit h rfl
  have hgt : c ≠ '>' := ne_of_isDigit h rfl
  simp [isContentChar, hlt, hgt]

theorem isSpace_of_isDigit {c : Char} (h : c.isDigit = true) : isSpace c = false := by
  have hne : c ∉ [' ', '\t', '\n', '\x0b', '\x0c', '\r'] := by
    intro hc
    have hx : [' ', '\t', '\n', '\x0b', '\x0c', '\r'].all (fun x => !x.isDigit) = true := rfl
    have hc := all_eq_true.1 hx c hc
    simp [h] at hc
  simpa [isSpace] using hne

theorem isDigit_of_mem_toDigits {n : Nat} {c : Char} (h : c ∈ Nat.toDigits 10 n) : c.isDigit = true :=
  Nat.isDigit_of_mem_toDigits (by decide) (by decide) h

theorem digitsValue_toDigits (n : Nat) : digitsValue (Nat.toDigits 10 n) = n := by
  have hall : (Nat.toDigits 10 n).takeWhile Char.isDigit = Nat.toDigits 10 n := by
    rw [takeWhile_eq_self_iff]
    exact fun c hc => isDigit_of_mem_toDigits hc
  unfold digitsValue
  rw [hall, ← Nat.ofDigitChars_eq_foldl, Nat.ofDigitChars_ten_toDigits]

theorem decimal_eq_cons (v : Int) :
    ∃ c t, decimal v = c :: t ∧ isBlank c = false ∧ ∀ x ∈ c :: t, isContentChar x = true := by
  have hdigits : ∀ n, ∀ x ∈ Nat.toDigits 10 n, isContentChar x = true := fun n x hx =>
    isContentChar_of_isDigit (isDigit_of_mem_toDigits hx)
  cases v with
  | ofNat n =>
    obtain ⟨c, t, ht⟩ := exists_cons_of_ne_nil (Nat.toDigits_ne_nil (n := n) (b := 10))
    have hc : c.isDigit = true := isDigit_of_mem_toDigits (ht ▸ mem_cons_self)
    have hblank : c ≠ ' ' ∧ c ≠ '\t' ∧ c ≠ '\n' :=
      ⟨ne_of_isDigit hc rfl, ne_of_isDigit hc rfl, ne_of_isDigit hc rfl⟩
    exact ⟨c, t, ht, by simp [isBlank, hblank], ht ▸ hdigits n⟩
  | negSucc n => exact ⟨'-', _, rfl, rfl, forall_mem_cons.2 ⟨rfl, hdigits (n + 1)⟩⟩

theorem atoi_decimal (v : Int) : atoi (decimal v) = v := by
  cases v with
  | ofNat n =>
    obtain ⟨c, t, ht⟩ := exists_cons_of_ne_nil (Nat.toDigits_ne_nil (n := n) (b := 10))
    have hc : c.isDigit = true := isDigit_of_mem_toDigits (ht ▸ mem_cons_self)
    have hvalue := digitsValue_toDigits n
    have hminus : c ≠ '-' := ne_of_isDigit hc rfl
    have hplus : c ≠ '+' := ne_of_isDigit hc rfl
    change atoi (Nat.toDigits 10 n) = _
    unfold atoi
    rw [ht] at hvalue ⊢
    rw [dropWhile_cons_of_neg (by simp [isSpace_of_isDigit hc])]
    split
    · rename_i heq
      exact absurd (List.cons.inj heq).1 hminus
    · rename_i heq
      exact absurd (List.cons.inj heq).1 hplus
    · rw [hvalue]
      rfl
  | negSucc n =>
    change -(digitsValue (Nat.toDigits 10 (n + 1)) : Int) = _
    rw [digitsValue_toDigits]
    rfl

/-! ## The grammar -/

theorem bind_eq {α β : Type} {x : Reading V α} {f : α → Reading V β} {r r' : Reader V} {a : α}
    (h : x r = .done (some a, r')) : (x >>= f) r = f a r' := by
  change Reading.bind x f r = _
  unfold Reading.bind
  rw [h]
  rfl

theorem token_eq {p : Parser V} {pos pos' : Lexer.Pos} {t : Token}
    (h : yylex pos = .token false t pos') : token ⟨p, pos⟩ = .done (some t, ⟨p, pos'⟩) := by
  unfold token
  rw [h]
  rfl

theorem expect_eq {p : Parser V} {pos pos' : Lexer.Pos} {t : Token}
    (h : yylex pos = .token false t pos') : expect t ⟨p, pos⟩ = .done (some (), ⟨p, pos'⟩) := by
  unfold expect
  rw [bind_eq (token_eq h), if_pos rfl]
  rfl

def IsName (name : Text) : Prop :=
  ∀ (stack : List LexState) (rest : Text),
    yylex ⟨.IN_XML_ELEMENT, stack, ' ' :: (name ++ '=' :: rest)⟩ =
      .token false (.NAME name) ⟨.IN_XML_ELEMENT, stack, '=' :: rest⟩

def attr (name value : Text) : Text := ' ' :: (name ++ '=' :: '"' :: (value ++ ['"']))

theorem attValue_eq {value : Text} (h : Lexable value) (p : Parser V) (stack : List LexState)
    (rest : Text) :
    attValue ⟨p, ⟨.IN_XML_ELEMENT, stack, '"' :: (value ++ '"' :: rest)⟩⟩ =
      .done (some value, ⟨p, ⟨.IN_XML_ELEMENT, stack, rest⟩⟩) := by
  have hquote : yylex ⟨.IN_XML_ELEMENT, stack, '"' :: (value ++ '"' :: rest)⟩ =
      .token false .DQUOTE ⟨.IN_XML_DQUOTE, .IN_XML_ELEMENT :: stack, value ++ '"' :: rest⟩ := rfl
  have hend : yylex ⟨.IN_XML_DQUOTE, .IN_XML_ELEMENT :: stack, '"' :: rest⟩ =
      .token false .DQUOTE ⟨.IN_XML_ELEMENT, stack, rest⟩ := rfl
  unfold attValue
  rw [bind_eq (token_eq hquote)]
  dsimp only
  rw [bind_eq (token_eq (yylex_dattval h _ _))]
  dsimp only
  rw [bind_eq (expect_eq hend)]
  rfl

theorem attributesUpTo_cons {name value : Text} (hname : IsName name) (hvalue : Lexable value)
    {p : Parser V} {stack : List LexState} {rest : Text} {fuel : Nat} {ats : List Attribute} {t : Token}
    {r : Reader V}
    (h : attributesUpTo fuel ⟨p, ⟨.IN_XML_ELEMENT, stack, rest⟩⟩ = .done (some (ats, t), r)) :
    attributesUpTo (fuel + 1) ⟨p, ⟨.IN_XML_ELEMENT, stack, attr name value ++ rest⟩⟩ =
      .done (some (⟨name, value⟩ :: ats, t), r) := by
  have htext : attr name value ++ rest = ' ' :: (name ++ '=' :: ('"' :: (value ++ '"' :: rest))) := by
    simp [attr]
  have heq : yylex ⟨.IN_XML_ELEMENT, stack, '=' :: ('"' :: (value ++ '"' :: rest))⟩ =
      .token false .EQ ⟨.IN_XML_ELEMENT, stack, '"' :: (value ++ '"' :: rest)⟩ := rfl
  rw [htext, attributesUpTo, bind_eq (token_eq (hname stack _))]
  dsimp only
  rw [bind_eq (expect_eq heq), bind_eq (attValue_eq hvalue p stack rest), bind_eq h]
  rfl

theorem attributesUpTo_end {p : Parser V} {stack : List LexState} {s : LexState} {rest : Text} (lead : Text)
    (hlead : lead = [] ∨ lead = [' ']) (fuel : Nat) :
    attributesUpTo (fuel + 1) ⟨p, ⟨.IN_XML_ELEMENT, s :: stack, lead ++ '>' :: rest⟩⟩ =
      .done (some ([], .TAG_END), ⟨p, ⟨.IN_XML_CONTENT, s :: stack, rest⟩⟩) := by
  have hend : yylex ⟨.IN_XML_ELEMENT, s :: stack, lead ++ '>' :: rest⟩ =
      .token false .TAG_END ⟨.IN_XML_CONTENT, s :: stack, rest⟩ := by
    rcases hlead with rfl | rfl <;> rfl
  rw [attributesUpTo, bind_eq (token_eq hend)]
  rfl

theorem attributes_eq (k : Nat) (ats : List Attribute) {p : Parser V} {pos : Lexer.Pos} {r : Reader V}
    {as : List Attribute} {t : Token} (hk : k ≤ pos.text.length + 1)
    (h : ∀ fuel, attributesUpTo (fuel + k) ⟨p, pos⟩ = .done (some (ats, t), r))
    (has : Netif.attributes ats = .done as) :
    Reading.attributes ⟨p, pos⟩ = .done (some (as, t), r) := by
  obtain ⟨fuel, hfuel⟩ := Nat.exists_eq_add_of_le' hk
  have hup : attributesAll ⟨p, pos⟩ = .done (some (ats, t), r) := by
    unfold attributesAll
    dsimp only
    rw [hfuel]
    exact h fuel
  have hlift : lift (Netif.attributes ats) r = .done (some as, r) := by
    unfold lift
    rw [has]
    rfl
  unfold Reading.attributes
  rw [bind_eq hup]
  dsimp only
  rw [bind_eq hlift]
  rfl

theorem isName_type : IsName "type".toList := fun _ _ => rfl

theorem isName_mode : IsName "mode".toList := fun _ _ => rfl

theorem isName_xmlns : IsName "xmlns".toList := fun _ _ => rfl

theorem isName_label : IsName LABEL := fun _ _ => rfl

theorem isName_interface : IsName INTERFACE := fun _ _ => rfl

theorem attributes_tag {label : Text} (h : Lexable label) (p : Parser V) (stack : List LexState)
    (s : LexState) (rest : Text) :
    Reading.attributes ⟨p, ⟨.IN_XML_ELEMENT, s :: stack, attr LABEL label ++ '>' :: rest⟩⟩ =
      .done (some ([⟨LABEL, label⟩], .TAG_END), ⟨p, ⟨.IN_XML_CONTENT, s :: stack, rest⟩⟩) := by
  refine attributes_eq 2 [⟨LABEL, label⟩] ?_ (fun fuel => ?_) ?_
  · simp [attr]
  · exact attributesUpTo_cons isName_label h (attributesUpTo_end [] (Or.inl rfl) fuel)
  · rfl

theorem attributes_field {label interface : Text} (hl : Lexable label) (hi : Lexable interface)
    (p : Parser V) (stack : List LexState) (s : LexState) (rest : Text) :
    Reading.attributes ⟨p, ⟨.IN_XML_ELEMENT, s :: stack,
        attr LABEL label ++ (attr INTERFACE interface ++ '>' :: rest)⟩⟩ =
      .done (some ([⟨LABEL, label⟩, ⟨INTERFACE, interface⟩], .TAG_END),
        ⟨p, ⟨.IN_XML_CONTENT, s :: stack, rest⟩⟩) := by
  refine attributes_eq 3 [⟨LABEL, label⟩, ⟨INTERFACE, interface⟩] ?_ (fun fuel => ?_) ?_
  · simp only [attr, cons_append, length_cons, length_append]
    omega
  · refine attributesUpTo_cons isName_label hl (attributesUpTo_cons isName_interface hi ?_)
    exact attributesUpTo_end [] (Or.inl rfl) fuel
  · rfl

theorem lexable_modeText (mode : DataMode) : Lexable (modeText mode) := by
  cases mode with
  | textual => exact lexable_of_all rfl rfl
  | binary => exact lexable_of_all rfl rfl

def recordAttrs (mode : DataMode) : List Attribute :=
  [⟨TYPE, "data".toList⟩, ⟨MODE, modeText mode⟩]

theorem attributes_record (mode : DataMode) (p : Parser V) (stack : List LexState) (s : LexState)
    (rest : Text) :
    Reading.attributes ⟨p, ⟨.IN_XML_ELEMENT, s :: stack,
        attr "xmlns".toList "snet-home.org".toList ++ (attr TYPE "data".toList ++
          (attr MODE (modeText mode) ++ ([' '] ++ '>' :: rest)))⟩⟩ =
      .done (some (recordAttrs mode, .TAG_END), ⟨p, ⟨.IN_XML_CONTENT, s :: stack, rest⟩⟩) := by
  have hxmlns : Lexable "snet-home.org".toList := lexable_of_all rfl rfl
  have hdata : Lexable "data".toList := lexable_of_all rfl rfl
  refine attributes_eq 4 (⟨"xmlns".toList, "snet-home.org".toList⟩ :: recordAttrs mode) ?_
    (fun fuel => ?_) ?_
  · simp only [attr, cons_append, length_cons, length_append]
    omega
  · refine attributesUpTo_cons isName_xmlns hxmlns (attributesUpTo_cons isName_type hdata
      (attributesUpTo_cons isName_mode (lexable_modeText mode) ?_))
    exact attributesUpTo_end [' '] (Or.inr rfl) fuel
  · cases mode <;> rfl

/-! ## The actions -/

/-- The record that is being read; `p₀` is the parser before it. -/
structure Building (p₀ : Parser V) (labels : LabelTable) (mode : DataMode) (d : Record (Ref V))
    (p : Parser V) : Prop where
  record : p.record = some p₀.created
  heap : p.heap p₀.created = some (.data d)
  labels : p.labels = labels
  terminate : p.terminate = .goOn
  interface : p.interface = INTERFACE_UNKNOWN
  mode : p.mode = mode
  written : p.written = p₀.written

variable {p₀ p : Parser V} {labels : LabelTable} {mode : DataMode} {d : Record (Ref V)}

namespace Building

theorem current (h : Building p₀ labels mode d p) : p.current = some (p₀.created, .data d) := by
  unfold Parser.current
  rw [h.record]
  change (p.heap p₀.created).map _ = _
  rw [h.heap]
  rfl

theorem onData (h : Building p₀ labels mode d p) (f : Record (Ref V) → Record (Ref V)) :
    ∃ p', p.onData f = .done p' ∧ Building p₀ labels mode (f d) p' := by
  refine ⟨{ p with heap := Function.update p.heap p₀.created (some (.data (f d))) }, ?_, h.record,
    Function.update_self _ _ _, h.labels, h.terminate, h.interface, h.mode, h.written⟩
  unfold Parser.onData
  rw [h.current]

theorem getInterfaceId (h : Building p₀ labels mode d p) : p.getInterfaceId = .done d.interfaceId := by
  unfold Parser.getInterfaceId
  rw [h.current]

theorem labelId (h : Building p₀ labels mode d p) {label : Text} {id : Int}
    (hid : labelToId labels label = (id, labels)) : p.labelId label = (id, p) := by
  unfold Parser.labelId
  rw [h.labels, hid]
  dsimp only
  rw [← h.labels]

theorem setLabelled (h : Building p₀ labels mode d p) {label : Text} {id : Int}
    (hid : labelToId labels label = (id, labels)) (val : Int)
    {set : Parser V → Int → Int → Outcome (Parser V)}
    {f : Record (Ref V) → Record (Ref V)} (hset : ∀ p, set p id val = p.onData f) :
    ∃ p', Parser.labelled set [⟨LABEL, label⟩] val p = .done p' ∧ Building p₀ labels mode (f d) p' := by
  have hlabelled : Parser.labelled set [⟨LABEL, label⟩] val p = p.onData f := by
    change set (p.labelId label).2 (p.labelId label).1 val = _
    rw [h.labelId hid, hset]
  rw [hlabelled]
  exact h.onData f

theorem fieldInterface (h : Building p₀ labels mode d p) (ats : List Attribute) {interfaces : List Text}
    {interface : Text} {iid : Int} (hats : searchAttribute ats INTERFACE = some interface)
    (hiid : interfaceToId interfaces interface = iid) (hne : iid ≠ INTERFACE_UNKNOWN)
    (hd : d.interfaceId = INTERFACE_UNKNOWN ∨ d.interfaceId = iid) :
    ∃ q, Parser.fieldInterface interfaces ats p = .done (iid, q) ∧
      Building p₀ labels mode { d with interfaceId := iid } q := by
  unfold Parser.fieldInterface
  rw [hats]
  dsimp only
  rw [hiid, h.interface, if_neg (not_not.2 rfl), if_neg hne, h.getInterfaceId]
  change ∃ q, (if d.interfaceId = INTERFACE_UNKNOWN then _ else _) = _ ∧ _
  by_cases hunknown : d.interfaceId = INTERFACE_UNKNOWN
  · obtain ⟨q, hq, hbuild⟩ := h.onData fun d => { d with interfaceId := iid }
    refine ⟨q, ?_, hbuild⟩
    rw [if_pos hunknown]
    unfold Parser.setInterfaceId
    rw [hq]
    rfl
  · have hd := hd.resolve_left hunknown
    refine ⟨p, ?_, hd ▸ h⟩
    rw [if_neg hunknown, if_neg (not_not.2 hd)]

theorem fieldData (h : Building p₀ labels mode d p) {interfaces : List Text} {funs : InterfaceFuns V}
    {label interface text junk rest : Text} {id iid : Int} {v : V}
    (hid : labelToId labels label = (id, labels)) (hiid : interfaceToId interfaces interface = iid)
    (hne : iid ≠ INTERFACE_UNKNOWN) (hd : d.interfaceId = INTERFACE_UNKNOWN ∨ d.interfaceId = iid)
    (hread : funs.read iid mode text = (some v, junk ++ '<' :: rest)) (hjunk : '<' ∉ junk)
    (s : LexState) (stack : List LexState) :
    ∃ p', Reading.fieldData interfaces funs [⟨LABEL, label⟩, ⟨INTERFACE, interface⟩]
        ⟨p, ⟨s, stack, text⟩⟩ = .done (some (), ⟨p', ⟨s, stack, '<' :: rest⟩⟩) ∧
      Building p₀ labels mode
        { d with interfaceId := iid, fields := d.fields.set id ⟨v, iid⟩ } p' := by
  have hlabel : p.fieldLabel [⟨LABEL, label⟩, ⟨INTERFACE, interface⟩] = (id, p) := h.labelId hid
  obtain ⟨q, hq, hbuild⟩ := h.fieldInterface [⟨LABEL, label⟩, ⟨INTERFACE, interface⟩] rfl hiid hne hd
  obtain ⟨p', hp', hbuild'⟩ := hbuild.onData fun d => { d with fields := d.fields.set id ⟨v, iid⟩ }
  have hskip : skipToTag (junk ++ '<' :: rest) = .done ('<' :: rest) := by
    unfold skipToTag
    rw [if_pos (by simp), dropWhile_append_of_pos (fun c hc => by simpa using ne_of_mem_of_not_mem hc hjunk)]
    rfl
  refine ⟨p', ?_, hbuild'⟩
  have hfield : p.field interfaces [⟨LABEL, label⟩, ⟨INTERFACE, interface⟩]
      (fun i mode => (funs.read i mode text).1) = .done p' := by
    unfold Parser.field
    rw [hlabel, hq]
    change (if iid ≠ INTERFACE_UNKNOWN then _ else _) = _
    rw [if_pos hne, hbuild.mode]
    dsimp only
    rw [hread]
    exact hp'
  unfold Reading.fieldData
  dsimp only
  rw [hlabel, hq, hfield]
  dsimp only [Outcome.done_bind]
  rw [if_pos hne, hbuild.mode, hread, hskip]
  rfl

end Building

/-! ## Entities -/

def fieldText (label interface data : Text) : Text :=
  "<field".toList ++ (attr LABEL label ++ (attr INTERFACE interface ++
    '>' :: (data ++ "</field>".toList)))

theorem entitys_field (h : Building p₀ labels mode d p) {interfaces : List Text}
    {funs : InterfaceFuns V} {label interface text : Text} {id iid : Int} {v : V}
    (hlabel : Lexable label) (hinterface : Lexable interface)
    (hid : labelToId labels label = (id, labels)) (hiid : interfaceToId interfaces interface = iid)
    (hne : iid ≠ INTERFACE_UNKNOWN) (hd : d.interfaceId = INTERFACE_UNKNOWN ∨ d.interfaceId = iid)
    (hread : ∀ rest, ∃ junk, '<' ∉ junk ∧
      funs.read iid mode (text ++ '<' :: rest) = (some v, junk ++ '<' :: rest))
    (stack : List LexState) (rest : Text) (fuel : Nat) :
    ∃ p', entitys interfaces funs (fuel + 1)
        ⟨p, ⟨.IN_XML_CONTENT, stack, '\n' :: (fieldText label interface text ++ rest)⟩⟩ =
          entitys interfaces funs fuel ⟨p', ⟨.IN_XML_CONTENT, stack, rest⟩⟩ ∧
      Building p₀ labels mode
        { d with interfaceId := iid, fields := d.fields.set id ⟨v, iid⟩ } p' := by
  have htext : '\n' :: (fieldText label interface text ++ rest) =
      "\n<field".toList ++ (attr LABEL label ++ (attr INTERFACE interface ++
        '>' :: (text ++ '<' :: ("/field>".toList ++ rest)))) := by
    unfold fieldText
    rw [append_assoc, append_assoc, append_assoc, cons_append, append_assoc]
    rfl
  have hbegin : ∀ x : Text, yylex ⟨.IN_XML_CONTENT, stack, "\n<field".toList ++ x⟩ =
      .token false .FIELD_BEGIN ⟨.IN_XML_ELEMENT, .IN_XML_CONTENT :: stack, x⟩ := fun _ => rfl
  have hendBegin : yylex ⟨.IN_XML_CONTENT, .IN_XML_CONTENT :: stack, '<' :: ("/field>".toList ++ rest)⟩ =
      .token false .FIELD_END_BEGIN ⟨.IN_XML_ENDELEMENT, .IN_XML_CONTENT :: stack, '>' :: rest⟩ := rfl
  have hend : yylex ⟨.IN_XML_ENDELEMENT, .IN_XML_CONTENT :: stack, '>' :: rest⟩ =
      .token false .TAG_END ⟨.IN_XML_CONTENT, stack, rest⟩ := rfl
  obtain ⟨junk, hjunk, hread⟩ := hread ("/field>".toList ++ rest)
  obtain ⟨p', hdata, hbuild⟩ :=
    h.fieldData hid hiid hne hd hread hjunk .IN_XML_CONTENT (.IN_XML_CONTENT :: stack)
  have hfield : field interfaces funs ⟨p, ⟨.IN_XML_ELEMENT, .IN_XML_CONTENT :: stack,
      attr LABEL label ++ (attr INTERFACE interface ++
        '>' :: (text ++ '<' :: ("/field>".toList ++ rest)))⟩⟩ =
      .done (some (), ⟨p', ⟨.IN_XML_CONTENT, stack, rest⟩⟩) := by
    unfold field
    rw [bind_eq (attributes_field hlabel hinterface p _ _ _)]
    dsimp only
    rw [bind_eq hdata, bind_eq (expect_eq hendBegin)]
    exact expect_eq hend
  refine ⟨p', ?_, hbuild⟩
  rw [htext, entitys, bind_eq (token_eq (hbegin _))]
  dsimp only
  rw [bind_eq hfield]

theorem labelled_eq (h : Building p₀ labels mode d p) {label last rest : Text} {id v : Int}
    (hlabel : Lexable label) (hid : labelToId labels label = (id, labels)) {endBegin : Token}
    {stack : List LexState} {set : Parser V → Int → Int → Outcome (Parser V)}
    {f : Record (Ref V) → Record (Ref V)} (hset : ∀ p, set p id v = p.onData f)
    (hlast : yylex ⟨.IN_XML_CONTENT, .IN_XML_CONTENT :: stack, '<' :: (last ++ '>' :: rest)⟩ =
      .token false endBegin ⟨.IN_XML_ENDELEMENT, .IN_XML_CONTENT :: stack, '>' :: rest⟩) :
    ∃ p', labelled endBegin set ⟨p, ⟨.IN_XML_ELEMENT, .IN_XML_CONTENT :: stack,
        attr LABEL label ++ '>' :: (decimal v ++ '<' :: (last ++ '>' :: rest))⟩⟩ =
          .done (some (), ⟨p', ⟨.IN_XML_CONTENT, stack, rest⟩⟩) ∧
      Building p₀ labels mode (f d) p' := by
  have hend : yylex ⟨.IN_XML_ENDELEMENT, .IN_XML_CONTENT :: stack, '>' :: rest⟩ =
      .token false .TAG_END ⟨.IN_XML_CONTENT, stack, rest⟩ := rfl
  obtain ⟨c, t, ht, hc, hchars⟩ := decimal_eq_cons v
  obtain ⟨p', hp', hbuild⟩ := h.setLabelled hid v hset
  refine ⟨p', ?_, hbuild⟩
  unfold labelled
  rw [bind_eq (attributes_tag hlabel p _ _ _), ht]
  dsimp only
  rw [cons_append, bind_eq (token_eq (yylex_chardata hc hchars _ _))]
  dsimp only
  rw [bind_eq (expect_eq hlast), bind_eq (expect_eq hend), ← ht, atoi_decimal]
  unfold act
  rw [hp']
  rfl

def labelledText (element label : Text) (v : Int) : Text :=
  '<' :: (element ++ (attr LABEL label ++ '>' :: (decimal v ++ '<' :: '/' :: (element ++ ['>']))))

theorem labelledText_append (element label rest : Text) (v : Int) :
    '\n' :: (labelledText element label v ++ rest) = '\n' :: '<' :: (element ++ (attr LABEL label ++
      '>' :: (decimal v ++ '<' :: ('/' :: element ++ '>' :: rest)))) := by
  simp [labelledText]

/-- A `<tag>` or a `<btag>`, which differ in their tokens and in the table that they write. -/
theorem entitys_labelled (h : Building p₀ labels mode d p) {interfaces : List Text} {funs : InterfaceFuns V}
    (element : Text) {label : Text} {id : Int} (hlabel : Lexable label)
    (hid : labelToId labels label = (id, labels)) (v : Int) {begin endBegin : Token}
    {set : Parser V → Int → Int → Outcome (Parser V)} {f : Record (Ref V) → Record (Ref V)}
    (hset : ∀ p, set p id v = p.onData f)
    (hbegin : ∀ stack x, yylex ⟨.IN_XML_CONTENT, stack, '\n' :: '<' :: (element ++ x)⟩ =
      .token false begin ⟨.IN_XML_ELEMENT, .IN_XML_CONTENT :: stack, x⟩)
    (hlast : ∀ stack rest, yylex ⟨.IN_XML_CONTENT, .IN_XML_CONTENT :: stack,
      '<' :: ('/' :: element ++ '>' :: rest)⟩ =
        .token false endBegin ⟨.IN_XML_ENDELEMENT, .IN_XML_CONTENT :: stack, '>' :: rest⟩)
    (hentity : ∀ fuel r r', token r = .done (some begin, r') → entitys interfaces funs (fuel + 1) r =
      (labelled endBegin set >>= fun _ => entitys interfaces funs fuel) r')
    (stack : List LexState) (rest : Text) (fuel : Nat) :
    ∃ p', entitys interfaces funs (fuel + 1)
        ⟨p, ⟨.IN_XML_CONTENT, stack, '\n' :: (labelledText element label v ++ rest)⟩⟩ =
          entitys interfaces funs fuel ⟨p', ⟨.IN_XML_CONTENT, stack, rest⟩⟩ ∧
      Building p₀ labels mode (f d) p' := by
  obtain ⟨p', hp', hbuild⟩ := labelled_eq h hlabel hid hset (hlast stack rest)
  refine ⟨p', ?_, hbuild⟩
  rw [labelledText_append, hentity _ _ _ (token_eq (hbegin _ _)), bind_eq hp']

theorem entitys_tag (h : Building p₀ labels mode d p) (interfaces : List Text)
    (funs : InterfaceFuns V) {label : Text} {id : Int} (hlabel : Lexable label)
    (hid : labelToId labels label = (id, labels)) (v : Int) (stack : List LexState) (rest : Text)
    (fuel : Nat) :
    ∃ p', entitys interfaces funs (fuel + 1)
        ⟨p, ⟨.IN_XML_CONTENT, stack, '\n' :: (labelledText "tag".toList label v ++ rest)⟩⟩ =
          entitys interfaces funs fuel ⟨p', ⟨.IN_XML_CONTENT, stack, rest⟩⟩ ∧
      Building p₀ labels mode { d with tags := d.tags.set id v } p' := by
  have hset : ∀ p : Parser V, p.setTag id v = p.onData fun d => { d with tags := d.tags.set id v } :=
    fun _ => rfl
  refine entitys_labelled h "tag".toList hlabel hid v hset (fun _ _ => rfl) (fun _ _ => rfl)
    (fun fuel r r' ht => ?_) stack rest fuel
  rw [entitys, bind_eq ht]

theorem entitys_btag (h : Building p₀ labels mode d p) (interfaces : List Text)
    (funs : InterfaceFuns V) {label : Text} {id : Int} (hlabel : Lexable label)
    (hid : labelToId labels label = (id, labels)) (v : Int) (stack : List LexState) (rest : Text)
    (fuel : Nat) :
    ∃ p', entitys interfaces funs (fuel + 1)
        ⟨p, ⟨.IN_XML_CONTENT, stack, '\n' :: (labelledText "btag".toList label v ++ rest)⟩⟩ =
          entitys interfaces funs fuel ⟨p', ⟨.IN_XML_CONTENT, stack, rest⟩⟩ ∧
      Building p₀ labels mode { d with btags := d.btags.set id v } p' := by
  have hset : ∀ p : Parser V, p.setBTag id v = p.onData fun d => { d with btags := d.btags.set id v } :=
    fun _ => rfl
  refine entitys_labelled h "btag".toList hlabel hid v hset (fun _ _ => rfl) (fun _ _ => rfl)
    (fun fuel r r' ht => ?_) stack rest fuel
  rw [entitys, bind_eq ht]

end SNet.Netif
