import SNetRts.Lib.Run
import SNetRts.Common.Record
import Mathlib.Logic.Function.Basic

/-!
# The parser of records

The semantic actions of `netif/parser.y`, with the label and interface tables of `netif/label.c` and
`netif/interface.c`. `current.record` is a pointer to a record that has been created; a record that
has been written or destroyed is not there any more. An action that uses `current.record` where
there is no record, or one of another kind than the operation takes, is a fault; and
`SNetUtilDebugFatal` leaves no next state.

What the functions of an interface find in the input is part of the field.
-/

namespace SNet.Netif

open Lib

abbrev Text := List Char

instance Text.lawfulBEq : LawfulBEq Text := List.instLawfulBEq

/-! ## Tables -/

/-- `snetin_label_t`: static labels, and temporary ones with their numbers, the last one first. -/
structure LabelTable where
  static : List Text
  temp : List (Text × Int)
deriving DecidableEq

/-- `SNetInLabelToId`. -/
def labelToId (labels : LabelTable) (label : Text) : Int × LabelTable :=
  match labels.static.idxOf? label with
  | some i => (i, labels)
  | none =>
    match labels.temp.find? fun e => e.1 = label with
    | some e => (e.2, labels)
    | none =>
      let index : Int :=
        match labels.temp with
        | [] => labels.static.length
        | e :: _ => e.2 + 1
      (index, { labels with temp := (label, index) :: labels.temp })

/-- `SNetInIdToLabel`. -/
def idToLabel (labels : LabelTable) (i : Int) : Option Text :=
  if i < 0 then none
  else
    match labels.static[i.toNat]? with
    | some label => some label
    | none => (labels.temp.find? fun e => e.2 = i).map Prod.fst

/-- `INTERFACE_UNKNOWN` and `SNET_INTERFACE_ERROR`. -/
def INTERFACE_UNKNOWN : Int := -1

/-- `SNetInInterfaceToId`. -/
def interfaceToId (interfaces : List Text) (interface : Text) : Int :=
  match interfaces.idxOf? interface with
  | some i => i
  | none => INTERFACE_UNKNOWN

/-- `SNetInIdToInterface`. -/
def idToInterface (interfaces : List Text) (i : Int) : Option Text :=
  if i < 0 then none else interfaces[i.toNat]?

/-! ## Attributes -/

structure Attribute where
  name : Text
  value : Text
deriving DecidableEq

def TYPE : Text := "type".toList

def MODE : Text := "mode".toList

def INTERFACE : Text := "interface".toList

def LABEL : Text := "label".toList

/-- `searchAttribute`: the value of the first attribute of that name. -/
def searchAttribute (ats : List Attribute) (name : Text) : Option Text :=
  (ats.find? fun a => a.name = name).map Attribute.value

/-- The actions of `Attributes`; another namespace stops the program. -/
def attributes : List Attribute → Outcome (List Attribute)
  | [] => .done []
  | a :: as => (attributes as).bind fun ats =>
    if a.name = "xmlns".toList then
      if a.value ≠ "snet-home.org".toList then .blocked else .done ats
    else .done (a :: ats)

def modeOf (ats : List Attribute) : DataMode :=
  match searchAttribute ats MODE with
  | some mode => if mode = "textual".toList then .textual else .binary
  | none => .binary

def notImplemented : List Text :=
  ["collect".toList, "sort_begin".toList, "sort_end".toList, "trigger_initializer".toList]

/-! ## The state of the parser -/

/-- `parser.terminate`: `SNET_PARSE_CONTINUE`, `SNET_PARSE_TERMINATE` or `SNET_PARSE_ERROR`. -/
inductive Parse where
  | goOn
  | terminate
  | error
deriving DecidableEq, Repr

/-- `snet_ref_t`. -/
structure Ref (V : Type) where
  data : V
  interface : Int
deriving DecidableEq

/-- The records that the parser creates. -/
inductive Rec (V : Type) where
  | data (d : Record (Ref V))
  | terminate
deriving DecidableEq

def newData (V : Type) : Record (Ref V) := ⟨.empty, .empty, .empty, 0, .binary, none⟩

/-- The globals `parser` and `current`, and what has become of the records. -/
structure Parser (V : Type) where
  terminate : Parse
  labels : LabelTable
  /-- `current.record`. -/
  record : Option Nat
  /-- `current.interface`. -/
  interface : Int
  /-- `current.mode`. -/
  mode : DataMode
  /-- The records that are there. -/
  heap : Nat → Option (Rec V)
  created : Nat
  written : List (Nat × Rec V)
  destroyed : List Nat
  /-- Records given to the caller of `SNetInParserGetNextRecord`. -/
  handed : List (Nat × Rec V)

variable {V : Type}

namespace Parser

/-- `yyerror`. -/
def yyerror (p : Parser V) : Parser V :=
  if p.terminate ≠ .terminate then { p with terminate := .error } else p

/-- `SNetRecCreate`, the result in `current.record`. -/
def create (p : Parser V) (r : Rec V) : Parser V :=
  { p with record := some p.created, heap := Function.update p.heap p.created (some r),
           created := p.created + 1 }

/-- The record that `current.record` points to. -/
def current (p : Parser V) : Option (Nat × Rec V) :=
  p.record.bind fun at' => (p.heap at').map fun r => (at', r)

/-- An operation that takes a data record, on `current.record`. -/
def onData (p : Parser V) (f : Record (Ref V) → Record (Ref V)) : Outcome (Parser V) :=
  match p.current with
  | some (at', .data d) => .done { p with heap := Function.update p.heap at' (some (.data (f d))) }
  | _ => .fault

/-- `SNetRecSetInterfaceId`. -/
def setInterfaceId (p : Parser V) (id : Int) : Outcome (Parser V) :=
  p.onData fun d => { d with interfaceId := id }

/-- `SNetRecSetDataMode`. -/
def setDataMode (p : Parser V) (mode : DataMode) : Outcome (Parser V) :=
  p.onData fun d => { d with mode := mode }

/-- `SNetRecSetTag`. -/
def setTag (p : Parser V) (name val : Int) : Outcome (Parser V) :=
  p.onData fun d => { d with tags := d.tags.set name val }

/-- `SNetRecSetBTag`. -/
def setBTag (p : Parser V) (name val : Int) : Outcome (Parser V) :=
  p.onData fun d => { d with btags := d.btags.set name val }

/-- `SNetRecSetField`. -/
def setField (p : Parser V) (name : Int) (val : Ref V) : Outcome (Parser V) :=
  p.onData fun d => { d with fields := d.fields.set name val }

/-- `SNetRecGetInterfaceId`. -/
def getInterfaceId (p : Parser V) : Outcome Int :=
  match p.current with
  | some (_, .data d) => .done d.interfaceId
  | _ => .fault

/-- `SNetRecDestroy`, and `NULL` into `current.record`. -/
def destroy (p : Parser V) : Outcome (Parser V) :=
  match p.current with
  | some (at', _) => .done { p with heap := Function.update p.heap at' none,
                                    destroyed := p.destroyed ++ [at'], record := none }
  | none => .fault

/-- `SNetStreamWrite` of `current.record`, and `NULL` into it; without an output stream the record
stays. -/
def write (output : Bool) (p : Parser V) : Outcome (Parser V) :=
  if output then
    match p.current with
    | some (at', r) => .done { p with heap := Function.update p.heap at' none,
                                      written := p.written ++ [(at', r)], record := none }
    | none => .fault
  else .done p

/-! ## Records -/

def createTerminate (p : Parser V) : Parser V :=
  let p := p.create .terminate
  if p.terminate ≠ .error then { p with terminate := .terminate } else p

/-- The cases of both forms of a record for its type; `data` is the one of a data record. -/
def byType (p : Parser V) (ats : List Attribute) (data : Parser V → Outcome (Parser V)) :
    Outcome (Parser V) :=
  match searchAttribute ats TYPE with
  | some type =>
    if type = "data".toList then data p
    else if type ∈ notImplemented then .blocked
    else if type = "terminate".toList then .done p.createTerminate
    else .done p.yyerror
  | none => .done p.yyerror

def discard (p : Parser V) : Outcome (Parser V) :=
  p.destroy.bind fun p =>
    .done { ({ p with interface := INTERFACE_UNKNOWN } : Parser V).yyerror with terminate := .goOn }

def recordShort (interfaces : List Text) (output : Bool) (ats : List Attribute) (p : Parser V) :
    Outcome (Parser V) :=
  (p.byType ats fun p =>
    let p := { p with mode := modeOf ats }
    match searchAttribute ats INTERFACE with
    | some interface =>
      let p := p.create (.data (newData V))
      let p := { p with interface := interfaceToId interfaces interface }
      (p.setInterfaceId p.interface).bind fun p => p.setDataMode p.mode
    | none => .done p).bind fun p =>
  if p.terminate ≠ .error then
    if p.record.isSome then
      (p.write output).bind fun p => .done { p with interface := INTERFACE_UNKNOWN }
    else .done p
  else p.discard

def recordBegin (interfaces : List Text) (ats : List Attribute) (p : Parser V) : Outcome (Parser V) :=
  p.byType ats fun p =>
    let p := p.create (.data (newData V))
    let p := { p with mode := modeOf ats }
    (p.setDataMode p.mode).bind fun p =>
      match searchAttribute ats INTERFACE with
      | some interface =>
        let p := { p with interface := interfaceToId interfaces interface }
        p.setInterfaceId p.interface
      | none => p.setInterfaceId INTERFACE_UNKNOWN

def lacksInterface (p : Parser V) : Outcome Bool :=
  match p.current with
  | some (_, .terminate) => .done false
  | _ => p.getInterfaceId.bind fun id => .done (id == INTERFACE_UNKNOWN)

def recordEnd (output : Bool) (p : Parser V) : Outcome (Parser V) :=
  if p.record.isSome then
    if p.terminate ≠ .error then
      p.lacksInterface.bind fun lacks =>
        if lacks then p.discard
        else (p.write output).bind fun p => .done { p with interface := INTERFACE_UNKNOWN }
    else p.discard
  else .done p

/-! ## Fields and tags -/

/-- `SNetInLabelToId` with the table of the parser. -/
def labelId (p : Parser V) (label : Text) : Int × Parser V :=
  ((labelToId p.labels label).1, { p with labels := (labelToId p.labels label).2 })

/-- The interface of a field, `INTERFACE_UNKNOWN` where its data cannot be read. -/
def fieldInterface (interfaces : List Text) (ats : List Attribute) (p : Parser V) :
    Outcome (Int × Parser V) :=
  match searchAttribute ats INTERFACE with
  | none => .done (p.interface, p)
  | some finterface =>
    let i := interfaceToId interfaces finterface
    if p.interface ≠ INTERFACE_UNKNOWN then
      if i ≠ p.interface then .done (INTERFACE_UNKNOWN, p.yyerror) else .done (i, p)
    else if i = INTERFACE_UNKNOWN then .done (INTERFACE_UNKNOWN, p.yyerror)
    else
      p.getInterfaceId.bind fun iid =>
        if iid = INTERFACE_UNKNOWN then (p.setInterfaceId i).bind fun p => .done (i, p)
        else if iid ≠ i then .done (INTERFACE_UNKNOWN, p.yyerror)
        else .done (i, p)

/-- The label of a field, `-1` if it has none. -/
def fieldLabel (ats : List Attribute) (p : Parser V) : Int × Parser V :=
  match searchAttribute ats LABEL with
  | some label => p.labelId label
  | none => (-1, p.yyerror)

/-- The action of a field that has data; `read` tells what the functions of an interface get from
the input. -/
def field (interfaces : List Text) (ats : List Attribute) (read : Int → DataMode → Option V)
    (p : Parser V) : Outcome (Parser V) :=
  (fieldInterface interfaces ats (p.fieldLabel ats).2).bind fun (iid, q) =>
    if iid ≠ INTERFACE_UNKNOWN then
      match read iid q.mode with
      | some data => q.setField (p.fieldLabel ats).1 ⟨data, iid⟩
      | none => .done q.yyerror
    else .done q

/-- The actions of tags and of binding tags, that set the value with `set`. -/
def labelled (set : Parser V → Int → Int → Outcome (Parser V)) (ats : List Attribute) (val : Int)
    (p : Parser V) : Outcome (Parser V) :=
  match searchAttribute ats LABEL with
  | some label => set (p.labelId label).2 (p.labelId label).1 val
  | none => .done p.yyerror

end Parser

/-! ## Documents -/

/-- White space, as `isspace` has it. -/
def isSpace (c : Char) : Bool := c ∈ [' ', '\t', '\n', '\x0b', '\x0c', '\r']

def digitsValue (t : Text) : Nat :=
  (t.takeWhile Char.isDigit).foldl (fun n c => 10 * n + (c.toNat - '0'.toNat)) 0

/-- `atoi`. -/
def atoi (t : Text) : Int :=
  match t.dropWhile isSpace with
  | '-' :: t => -(digitsValue t : Int)
  | '+' :: t => digitsValue t
  | t => digitsValue t

/-- The entities of a record, with their attributes. -/
inductive Entity (V : Type) where
  /-- A field without data. -/
  | fieldShort (ats : List Attribute)
  | field (ats : List Attribute) (read : Int → DataMode → Option V)
  /-- Tags have character data, or none. -/
  | tag (ats : List Attribute) (content : Option Text)
  | btag (ats : List Attribute) (content : Option Text)

/-- What `Record` derives. -/
inductive Document (V : Type) where
  | short (ats : List Attribute)
  | long (ats : List Attribute) (entities : List (Entity V))

/-- What one call of `yyparse` meets. -/
inductive Input (V : Type) where
  | document (d : Document V)
  /-- A syntax error where no action has been done yet. -/
  | syntaxError
  /-- A syntax error in a record in its long form, behind these entities. -/
  | syntaxErrorIn (ats : List Attribute) (entities : List (Entity V))

namespace Parser

variable (interfaces : List Text) (output : Bool)

def entity (e : Entity V) (p : Parser V) : Outcome (Parser V) :=
  match e with
  | .fieldShort ats => (attributes ats).bind fun _ => .blocked
  | .field ats read => (attributes ats).bind fun ats => p.field interfaces ats read
  | .tag ats content => (attributes ats).bind fun ats =>
    p.labelled setTag ats ((content.map atoi).getD 0)
  | .btag ats content => (attributes ats).bind fun ats =>
    p.labelled setBTag ats ((content.map atoi).getD 0)

/-- The actions of `Entitys`. -/
def entitys : List (Entity V) → Parser V → Outcome (Parser V)
  | [], p => .done p
  | e :: es, p => (p.entity interfaces e).bind (entitys es)

/-- `yyparse`. -/
def yyparse (input : Input V) (p : Parser V) : Outcome (Parser V) :=
  match input with
  | .document (.short ats) => (attributes ats).bind fun ats => p.recordShort interfaces output ats
  | .document (.long ats es) => (attributes ats).bind fun ats =>
    ((p.recordBegin interfaces ats).bind (entitys interfaces es)).bind (recordEnd output)
  | .syntaxError => .done p.yyerror
  | .syntaxErrorIn ats es => (attributes ats).bind fun ats =>
    ((p.recordBegin interfaces ats).bind (entitys interfaces es)).bind fun p => .done p.yyerror

/-- `parserflush`. -/
def parserflush (p : Parser V) : Outcome (Parser V) :=
  (if p.record.isSome then p.destroy else .done p).bind fun p =>
    .done { p with
      interface := INTERFACE_UNKNOWN
      mode := .binary
      terminate := if p.terminate = .error then .goOn else p.terminate }

def handOver (p : Parser V) : Outcome (Parser V) :=
  if p.record.isSome then
    match p.current with
    | some (at', r) => .done { p with heap := Function.update p.heap at' none,
                                      handed := p.handed ++ [(at', r)], record := none }
    | none => .fault
  else .done p

end Parser

/-- A call of `SNetInParserParse` or, if `getNext` is true, of `SNetInParserGetNextRecord`. -/
structure Call (V : Type) where
  getNext : Bool
  input : Input V

namespace Parser

/-- `SNetInParserParse` and `SNetInParserGetNextRecord`. -/
def call (interfaces : List Text) (output : Bool) (p : Parser V) (c : Call V) : Outcome (Parser V) :=
  p.parserflush.bind fun p =>
    if p.terminate = .goOn then
      (p.yyparse interfaces output c.input).bind fun p =>
        if c.getNext then p.handOver else .done p
    else .done p

/-- `SNetInParserInit`. -/
def init (labels : LabelTable) : Parser V where
  terminate := .goOn
  labels := labels
  record := none
  interface := 0
  mode := .binary
  heap := fun _ => none
  created := 0
  written := []
  destroyed := []
  handed := []

end Parser

end SNet.Netif
