import SNetRts.Netif.Lexer

/-!
# Reading records from text

The grammar of `netif/parser.y` over the tokens of the lexer, with its actions, as `yyparse` goes
through them: what a rule reads is a token, and its action is done when the rule is complete. A syntax
error ends `yyparse`; there are no error rules. The functions of an interface read the data of a field
from the input where the lexer has stopped, and what they leave up to the next `<` is skipped.

Characters that the lexer has looked at and not used are in its buffer. Where `yyrestart` drops the
buffer there are none: the tokens before it, `TAG_END`, cannot be longer.
-/

namespace SNet.Netif

open Lib Lexer

variable {V : Type}

/-- `serialisefun`, `encodefun`, `deserialisefun` and `decodefun` of the interfaces, by their numbers and
modes. A function that reads returns what it leaves of the input. -/
structure InterfaceFuns (V : Type) where
  write : Int → DataMode → V → Text
  read : Int → DataMode → Text → Option V × Text

/-- The parser and its input. -/
structure Reader (V : Type) where
  parser : Parser V
  pos : Lexer.Pos

/-- What a piece of the grammar does; `none` is a syntax error. -/
def Reading (V α : Type) : Type := Reader V → Outcome (Option α × Reader V)

namespace Reading

variable {α β : Type}

protected def pure (a : α) : Reading V α := fun r => .done (some a, r)

protected def bind (x : Reading V α) (f : α → Reading V β) : Reading V β := fun r =>
  (x r).bind fun (a, r) =>
    match a with
    | some a => f a r
    | none => .done (none, r)

instance : Monad (Reading V) where
  pure := Reading.pure
  bind := Reading.bind

def fail : Reading V α := fun r => .done (none, r)

def act (f : Parser V → Outcome (Parser V)) : Reading V Unit := fun r =>
  (f r.parser).bind fun p => .done (some (), ⟨p, r.pos⟩)

def lift (o : Outcome α) : Reading V α := fun r => o.bind fun a => .done (some a, r)

/-- The next token; the end of the input is a syntax error everywhere. -/
def token : Reading V Token := fun r =>
  match yylex r.pos with
  | .token invalid t pos => .done (some t, ⟨if invalid then r.parser.yyerror else r.parser, pos⟩)
  | .eof invalid pos => .done (none, ⟨if invalid then r.parser.yyerror else r.parser, pos⟩)
  | .underflow => .blocked

def expect (t : Token) : Reading V Unit := do
  let t' ← token
  if t' = t then pure () else fail

/-! ### The prolog -/

def quoted (t : Token → Bool) : Reading V Unit := do
  let q ← token
  if q = .DQUOTE ∨ q = .SQUOTE then
    let t' ← token
    if t t' then expect q else fail
  else fail

def versionInfo : Reading V Unit := do
  expect .VERSION
  expect .EQ
  quoted (· = .VERSIONNUMBER)

/-- `SDDecl` behind its first token, and the end of the declaration. -/
def sdDecl : Reading V Unit := do
  expect .EQ
  quoted fun t => t = .YES || t = .NO
  expect .XMLDECL_END

/-- `XMLDecl` behind its first token. -/
def xmlDecl : Reading V Unit := do
  versionInfo
  match ← token with
  | .XMLDECL_END => pure ()
  | .STANDALONE => sdDecl
  | .ENCODING => do
    expect .EQ
    quoted fun | .ENCNAME _ => true | _ => false
    match ← token with
    | .XMLDECL_END => pure ()
    | .STANDALONE => sdDecl
    | _ => fail
  | _ => fail

/-! ### Attributes -/

def attValue : Reading V Text := do
  match ← token with
  | .SQUOTE =>
    match ← token with
    | .SATTVAL value => do
      expect .SQUOTE
      pure value
    | _ => fail
  | .DQUOTE =>
    match ← token with
    | .DATTVAL value => do
      expect .DQUOTE
      pure value
    | _ => fail
  | _ => fail

/-- `Attributes`, at most `fuel` of them, and the token behind them. -/
def attributesUpTo : Nat → Reading V (List Attribute × Token)
  | 0 => fail
  | fuel + 1 => do
    match ← token with
    | .NAME name => do
      expect .EQ
      let value ← attValue
      let (ats, t) ← attributesUpTo fuel
      pure (⟨name, value⟩ :: ats, t)
    | t => pure ([], t)

def attributesAll : Reading V (List Attribute × Token) := fun r =>
  attributesUpTo (r.pos.text.length + 1) r

/-- `Attributes` with their actions, and the token behind them. -/
def attributes : Reading V (List Attribute × Token) := do
  let (ats, t) ← attributesAll
  let ats ← lift (Netif.attributes ats)
  pure (ats, t)

/-! ### Entities -/

/-- `while(getc(yyin) != '<')`, which does not end at the end of the input, and `ungetc`. -/
def skipToTag (text : Text) : Outcome Text :=
  if '<' ∈ text then .done (text.dropWhile (· ≠ '<')) else .blocked

/-- The action of a field behind its start tag, which reads its data. -/
def fieldData (interfaces : List Text) (funs : InterfaceFuns V) (ats : List Attribute) :
    Reading V Unit := fun r =>
  (Parser.fieldInterface interfaces ats (r.parser.fieldLabel ats).2).bind fun (iid, q) =>
    let left := if iid ≠ INTERFACE_UNKNOWN then (funs.read iid q.mode r.pos.text).2 else r.pos.text
    (r.parser.field interfaces ats fun i mode => (funs.read i mode r.pos.text).1).bind fun p =>
      (skipToTag left).bind fun text => .done (some (), ⟨p, { r.pos with text := text }⟩)

/-- `Field` behind its first token. -/
def field (interfaces : List Text) (funs : InterfaceFuns V) : Reading V Unit := do
  let (ats, t) ← attributes
  match t with
  | .STARTTAG_SHORTEND => lift .blocked
  | .TAG_END => do
    fieldData interfaces funs ats
    expect .FIELD_END_BEGIN
    expect .TAG_END
  | _ => fail

/-- `Tag` and `Btag` behind their first token. -/
def labelled (endBegin : Token) (set : Parser V → Int → Int → Outcome (Parser V)) : Reading V Unit := do
  let (ats, t) ← attributes
  match t with
  | .STARTTAG_SHORTEND => act (Parser.labelled set ats 0)
  | .TAG_END => do
    let t ← token
    match t with
    | .CHARDATA str => do
      expect endBegin
      expect .TAG_END
      act (Parser.labelled set ats (atoi str))
    | _ =>
      if t = endBegin then do
        expect .TAG_END
        act (Parser.labelled set ats 0)
      else fail
  | _ => fail

/-- `Entitys`, at most `fuel` of them, and the token behind them. -/
def entitys (interfaces : List Text) (funs : InterfaceFuns V) : Nat → Reading V Token
  | 0 => fail
  | fuel + 1 => do
    match ← token with
    | .FIELD_BEGIN => do
      field interfaces funs
      entitys interfaces funs fuel
    | .TAG_BEGIN => do
      labelled .TAG_END_BEGIN Parser.setTag
      entitys interfaces funs fuel
    | .BTAG_BEGIN => do
      labelled .BTAG_END_BEGIN Parser.setBTag
      entitys interfaces funs fuel
    | t => pure t

def entitysAll (interfaces : List Text) (funs : InterfaceFuns V) : Reading V Token := fun r =>
  entitys interfaces funs (r.pos.text.length + 1) r

/-! ### Records -/

/-- `Record` in its long form, behind its attributes; `t` is the token there. -/
def recordLong (interfaces : List Text) (funs : InterfaceFuns V) (output : Bool) (ats : List Attribute)
    (t : Token) : Reading V Unit := do
  act (Parser.recordBegin interfaces ats)
  if t = .TAG_END then
    let t ← entitysAll interfaces funs
    if t = .RECORD_END_BEGIN then
      expect .TAG_END
      act (Parser.recordEnd output)
    else fail
  else fail

/-- `Record` behind its first token. -/
def record (interfaces : List Text) (funs : InterfaceFuns V) (output : Bool) : Reading V Unit := do
  let (ats, t) ← attributes
  if t = .STARTTAG_SHORTEND then act (Parser.recordShort interfaces output ats)
  else recordLong interfaces funs output ats t

/-- `Document`. -/
def document (interfaces : List Text) (funs : InterfaceFuns V) (output : Bool) : Reading V Unit := do
  match ← token with
  | .XMLDECL_BEGIN => do
    xmlDecl
    expect .RECORD_BEGIN
    record interfaces funs output
  | .RECORD_BEGIN => record interfaces funs output
  | _ => fail

end Reading

namespace Reader

variable (interfaces : List Text) (funs : InterfaceFuns V) (output : Bool)

/-- `yyparse`. -/
def yyparse (r : Reader V) : Outcome (Reader V) :=
  (Reading.document interfaces funs output r).bind fun (ok, r) =>
    .done (if ok.isSome then r else ⟨r.parser.yyerror, r.pos⟩)

/-- `SNetInParserParse`. -/
def parse (r : Reader V) : Outcome (Reader V) :=
  r.parser.parserflush.bind fun p =>
    -- `yy_flush` leaves the stack of the lexer as it is
    let r : Reader V := ⟨p, { r.pos with state := .INITIAL }⟩
    if p.terminate = .goOn then r.yyparse interfaces funs output else .done r

end Reader

/-! ## Writing records -/

/-- `%d`. -/
def decimal : Int → Text
  | .ofNat n => Nat.toDigits 10 n
  | .negSucc n => '-' :: Nat.toDigits 10 (n + 1)

/-- `SNetInIdToLabel`, or `SNetUtilDebugFatal`. -/
def labelOf (labels : LabelTable) (name : Int) : Outcome Text :=
  match idToLabel labels name with
  | some label => .done label
  | none => .blocked

def printField (labels : LabelTable) (interfaces : List Text) (funs : InterfaceFuns V) (id : Int)
    (mode : DataMode) (name : Int) (field : Ref V) : Outcome Text :=
  (labelOf labels name).bind fun label =>
    match idToInterface interfaces id with
    | some interface =>
      .done ("<field label=\"".toList ++ label ++ "\" interface=\"".toList ++ interface ++
        "\">".toList ++ funs.write id mode field.data ++ "</field>\n".toList)
    | none => .done []

def printLabelled (element : String) (labels : LabelTable) (name val : Int) : Outcome Text :=
  (labelOf labels name).bind fun label =>
    .done ('<' :: element.toList ++ " label=\"".toList ++ label ++ "\">".toList ++ decimal val ++
      "</".toList ++ element.toList ++ ">\n".toList)

def printEach {α : Type} (f : Int → α → Outcome Text) : List (Int × α) → Outcome Text
  | [] => .done []
  | e :: es => (f e.1 e.2).bind fun t => (printEach f es).bind fun ts => .done (t ++ ts)

def modeText : DataMode → Text
  | .textual => "textual".toList
  | .binary => "binary".toList

/-- `printRec` for a data record. -/
def printRec (labels : LabelTable) (interfaces : List Text) (funs : InterfaceFuns V)
    (rec : Record (Ref V)) : Outcome Text :=
  (printEach (printField labels interfaces funs rec.interfaceId rec.mode) rec.fields.entries).bind
    fun fields =>
  (printEach (printLabelled "tag" labels) rec.tags.entries).bind fun tags =>
  (printEach (printLabelled "btag" labels) rec.btags.entries).bind fun btags =>
    .done ("<?xml version=\"1.0\" ?>\n".toList ++
      "<record xmlns=\"snet-home.org\" type=\"data\" mode=\"".toList ++ modeText rec.mode ++
      "\" >\n".toList ++ fields ++ tags ++ btags ++ "</record>\n".toList)

end SNet.Netif
