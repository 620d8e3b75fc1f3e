import SNetRts.Lib.Flex
import SNetRts.Netif.Parser

/-!
# The lexer of the network interface

`netif/lexer.l`: the start conditions, the tokens, and the rules of each start condition in the order
of the file. `yyerror` in a rule, for a character that no other one matches, is reported.
-/

namespace SNet.Netif

open Lib Flex

/-- The start conditions. -/
inductive LexState where
  | INITIAL
  | IN_XML_COMMENT
  | IN_XML_ELEMENT
  | IN_XML_ENDELEMENT
  | IN_XML_DECL
  | IN_XML_CONTENT
  | IN_XML_DQUOTE
  | IN_XML_SQUOTE
deriving DecidableEq, Repr

inductive Token where
  | STARTTAG_SHORTEND
  | DQUOTE
  | SQUOTE
  | TAG_END
  | RECORD_END_BEGIN
  | FIELD_END_BEGIN
  | TAG_END_BEGIN
  | BTAG_END_BEGIN
  | RECORD_BEGIN
  | FIELD_BEGIN
  | TAG_BEGIN
  | BTAG_BEGIN
  | EQ
  | VERSION
  | ENCODING
  | STANDALONE
  | YES
  | NO
  | VERSIONNUMBER
  | XMLDECL_END
  | XMLDECL_BEGIN
  | NAME (str : Text)
  | CHARDATA (str : Text)
  | DATTVAL (str : Text)
  | SATTVAL (str : Text)
  | ENCNAME (str : Text)
deriving DecidableEq, Repr

namespace Lexer

abbrev Rule := Flex.Rule LexState Token

def word (s : String) (move : Move LexState) (t : Token) : Rule := ⟨lit s.toList, move, .token fun _ => t⟩

/-! ### Characters -/

/-- `[ \t\n]`. -/
def isBlank (c : Char) : Bool := c == ' ' || c == '\t' || c == '\n'

/-- `[A-Za-z]`. -/
def isLetter (c : Char) : Bool := ('A' ≤ c && c ≤ 'Z') || ('a' ≤ c && c ≤ 'z')

/-- `[0-9]`. -/
def isDigit (c : Char) : Bool := '0' ≤ c && c ≤ '9'

/-- A character outside of ASCII; all bytes of it are in `[\200-\377]`. -/
def isHigh (c : Char) : Bool := 128 ≤ c.toNat

def isNameStart (c : Char) : Bool :=
  isLetter c || isHigh c || c == '_' || c == '^' || c == '?' || c == ':'

def isNameRest (c : Char) : Bool :=
  isLetter c || isHigh c || c == '_' || isDigit c || c == '.' || c == '-' || c == ':'

def isEncRest (c : Char) : Bool := isLetter c || isDigit c || c == '.' || c == '_' || c == '-'

/-- `[^<&\"]`. -/
def isDattChar (c : Char) : Bool := !(c == '<' || c == '&' || c == '"')

/-- `[^<&']`. -/
def isSattChar (c : Char) : Bool := !(c == '<' || c == '&' || c == '\'')

/-- `[^<>]`. -/
def isContentChar (c : Char) : Bool := !(c == '<' || c == '>')

/-- `([^-\n]|("-"[^-\n]))*`. -/
def commentLen : Text → Nat
  | [] => 0
  | '-' :: c :: text => if c = '-' ∨ c = '\n' then 0 else 2 + commentLen text
  | c :: text => if c = '-' ∨ c = '\n' then 0 else 1 + commentLen text

/-! ### Rules -/

/-- `<*>[ \t\n]+`. -/
def blank : Rule := ⟨run isBlank, .stay, .skip⟩

/-- `<*>.`. -/
def otherwise : Rule := ⟨anyChar, .stay, .invalid⟩

def elementRules : List Rule :=
  [word "/>" .pop .STARTTAG_SHORTEND,
    word "\"" (.push .IN_XML_DQUOTE) .DQUOTE,
    word "'" (.push .IN_XML_SQUOTE) .SQUOTE,
    word ">" (.replace .IN_XML_CONTENT) .TAG_END,
    ⟨headRun isNameStart isNameRest, .stay, .token .NAME⟩,
    word "=" .stay .EQ]

def contentRules : List Rule :=
  [word "</record" (.replace .IN_XML_ENDELEMENT) .RECORD_END_BEGIN,
    word "</field" (.replace .IN_XML_ENDELEMENT) .FIELD_END_BEGIN,
    word "</tag" (.replace .IN_XML_ENDELEMENT) .TAG_END_BEGIN,
    word "</btag" (.replace .IN_XML_ENDELEMENT) .BTAG_END_BEGIN,
    word "<field" (.push .IN_XML_ELEMENT) .FIELD_BEGIN,
    word "<tag" (.push .IN_XML_ELEMENT) .TAG_BEGIN,
    word "<btag" (.push .IN_XML_ELEMENT) .BTAG_BEGIN,
    ⟨lit "<!--".toList, .push .IN_XML_COMMENT, .skip⟩,
    ⟨run isContentChar, .stay, .token .CHARDATA⟩]

def declRules : List Rule :=
  [word "=" .stay .EQ,
    word "version" .stay .VERSION,
    word "encoding" .stay .ENCODING,
    word "standalone" .stay .STANDALONE,
    word "yes" .stay .YES,
    word "no" .stay .NO,
    word "'" .stay .SQUOTE,
    word "\"" .stay .DQUOTE,
    word "1.0" .stay .VERSIONNUMBER,
    ⟨headRun isLetter isEncRest, .stay, .token .ENCNAME⟩,
    word "?>" .pop .XMLDECL_END]

def initialRules : List Rule :=
  [word "<?xml" (.push .IN_XML_DECL) .XMLDECL_BEGIN,
    ⟨lit "<!--".toList, .push .IN_XML_COMMENT, .skip⟩,
    word "<record" (.push .IN_XML_ELEMENT) .RECORD_BEGIN,
    ⟨anyChar, .stay, .skip⟩]

def rules (s : LexState) : List Rule :=
  blank :: (match s with
    | .INITIAL => initialRules
    | .IN_XML_COMMENT => [⟨commentLen, .stay, .skip⟩, ⟨lit "-->".toList, .pop, .skip⟩]
    | .IN_XML_ELEMENT => elementRules
    | .IN_XML_ENDELEMENT => [word ">" .pop .TAG_END]
    | .IN_XML_DECL => declRules
    | .IN_XML_CONTENT => contentRules
    | .IN_XML_DQUOTE => [word "\"" .pop .DQUOTE, ⟨run isDattChar, .stay, .token .DATTVAL⟩]
    | .IN_XML_SQUOTE => [word "'" .pop .SQUOTE, ⟨run isSattChar, .stay, .token .SATTVAL⟩]) ++
    [otherwise]

abbrev Pos := Flex.Pos LexState

/-- `yylex`. -/
def yylex (pos : Pos) : Scanned LexState Token := scan rules pos.text.length false pos

end Lexer

end SNet.Netif
