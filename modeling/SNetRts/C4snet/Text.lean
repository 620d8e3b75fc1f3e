import SNetRts.C4snet.Data
import SNetRts.Lib.Scan

/-!
# The textual codec of C4SNet

`C4SNetSerialise` and `C4SNetDeserialise` of `interfaces/c4snet/C4SNet.c`. The type of a value and, for an
array, the number of its elements are written before the elements, which are separated by commas. What is
read as a scalar has size zero, not the size one that `C4SNetCreate` gives it.

The texts of floating-point numbers are a parameter.
-/

namespace SNet.C4SNet.Text

open Lib Memory Scan List

def INT_MAX : Nat := 2147483647

/-- What `fprintf` writes of the bytes of a floating-point number, and what `fscanf` reads. -/
structure FloatText where
  print : CType → List UInt8 → List UInt8
  scan : CType → List UInt8 → Option (List UInt8) × List UInt8

/-- The characters `<`, `&` and `,`. -/
def lt : UInt8 := 60

def amp : UInt8 := 38

def comma : UInt8 := 44

def typeName : CType → List UInt8
  | .uchar => ascii "unsigned char"
  | .char => ascii "char"
  | .ushort => ascii "unsigned short"
  | .short => ascii "short"
  | .uint => ascii "unsigned int"
  | .int => ascii "int"
  | .ulong => ascii "unsigned long"
  | .long => ascii "long"
  | .float => ascii "float"
  | .double => ascii "double"
  | .ldouble => ascii "long double"

/-! ## Writing -/

def signed (s : List UInt8) : Int := (ofLeBytes s : Int).bmod (256 ^ s.length)

def serialiseData (fl : FloatText) (type : CType) (data : Nat → UInt8) : List UInt8 :=
  match type with
  | .uchar | .char =>
    let c := data 0
    if c = lt then ascii "&lt;" else if c = amp then ascii "&amp;" else [c]
  | .ushort | .uint | .ulong => decimal (ofLeBytes (bytesAt data (sizeOfType type)))
  | .short | .int | .long => decimal (signed (bytesAt data (sizeOfType type)))
  | .float | .double | .ldouble => fl.print type (bytesAt data (sizeOfType type))

def elementAt (data : Nat → UInt8) (type : CType) (i : Nat) : Nat → UInt8 := fun k => data (i * sizeOfType type + k)

/-- The rounds that are left of the loop of `C4SNetSerialise`; `none` where an `int` overflows. -/
def serialiseLoop (fl : FloatText) (d : CData) : Nat → Nat → Option (List UInt8)
  | 0, _ => some []
  | n + 1, i =>
    if i * sizeOfType d.type ≤ INT_MAX ∧ i + 1 ≤ INT_MAX then do
      let text ← serialiseLoop fl d n (i + 1)
      return serialiseData fl d.type (elementAt d.data d.type i) ++
        ((if i < d.size.toNat - 1 then [comma] else []) ++ text)
    else none

def serialise (fl : FloatText) (d : CData) : Option (List UInt8) :=
  if d.vtype = .array then do
    let text ← serialiseLoop fl d d.size.toNat 0
    return ascii "(" ++ (typeName d.type ++ (ascii "[" ++ (decimal d.size.toNat ++ (ascii "]" ++ (ascii ")" ++ text)))))
  else some (ascii "(" ++ (typeName d.type ++ (ascii ")" ++ serialiseData fl d.type d.data)))

/-! ## Reading -/

/-- What `%hu`, `%u` and `%lu` store of a number into `w` bytes; `none` where it cannot be represented. -/
def toUnsigned (w : Nat) (v : Int) : Option Nat :=
  let v := if v < 0 then v + 2 ^ 64 else v
  if 0 ≤ v ∧ v < 256 ^ w then some v.toNat else none

/-- What `%hd`, `%d` and `%ld` store. -/
def toSigned (w : Nat) (v : Int) : Option Nat :=
  if -256 ^ w ≤ v * 2 ∧ v * 2 < 256 ^ w then some (v % 256 ^ w).toNat else none

def cString (buf : List UInt8) : List UInt8 := buf.takeWhile (· ≠ 0)

/-- Stores the number that has been read; without one nothing is stored. -/
def storeNumber (w : Nat) (conv : Nat → Int → Option Nat) (offset : Nat) (mem : Nat → UInt8) (file : List UInt8) :
    Option ((Nat → UInt8) × List UInt8) :=
  match number file with
  | (none, file) => some (mem, file)
  | (some v, file) => (conv w v).map fun n => (place (leBytes w n) offset mem, file)

/-- `none` where reading is fatal, or undefined. -/
def deserialiseData (fl : FloatText) (type : CType) (offset : Nat) (mem : Nat → UInt8) (file : List UInt8) :
    Option ((Nat → UInt8) × List UInt8) :=
  match type with
  | .uchar | .char =>
    match file with
    | [] => none
    | c :: file =>
      match Scan.set 4 (fun c => c ≠ lt && c ≠ comma) file with
      | none =>
        -- what follows the character in the buffer is of no interest unless this is an ampersand
        if c = amp then none else some (place [c] offset mem, file)
      | some (s, file) =>
        let buf := cString (c :: s)
        if buf = ascii "&amp;" then some (place [amp] offset mem, file)
        else if buf = ascii "&lt;" then some (place [lt] offset mem, file)
        else none
  | .ushort | .uint | .ulong => storeNumber (sizeOfType type) toUnsigned offset mem file
  | .short | .int | .long => storeNumber (sizeOfType type) toSigned offset mem file
  | .float | .double | .ldouble =>
    match fl.scan type file with
    | (none, file) => some (mem, file)
    | (some s, file) => some (place s offset mem, file)

/-- `i > 0 && fgetc(file) != ','` is fatal. -/
def getSeparator (i : Nat) (file : List UInt8) : Option (List UInt8) :=
  if 0 < i then
    match file with
    | [] => none
    | c :: file => if c = comma then some file else none
  else some file

/-- The rounds that are left of the loop of `C4SNetDeserialise`. -/
def deserialiseLoop (fl : FloatText) (type : CType) :
    Nat → Nat → (Nat → UInt8) → List UInt8 → Option ((Nat → UInt8) × List UInt8)
  | 0, _, mem, file => some (mem, file)
  | n + 1, i, mem, file => do
    let file ← getSeparator i file
    if i * sizeOfType type ≤ INT_MAX ∧ i + 1 ≤ INT_MAX then
      let (mem, file) ← deserialiseData fl type (i * sizeOfType type) mem file
      deserialiseLoop fl type n (i + 1) mem file
    else none

/-- `fscanf(file, "(%15[^[)][%lu])", buf, &temp->size)`: the name, the number of elements if there is one, and
what is left; `none` where the name is not set. -/
def scanHeader (file : List UInt8) : Option (List UInt8 × Option UInt64 × List UInt8) :=
  match lit (ascii "(") file with
  | (false, _) => none
  | (true, file) =>
    match Scan.set 15 (fun c => c ≠ 91 && c ≠ 41) file with
    | none => none
    | some (buf, file) =>
      match lit (ascii "[") file with
      | (false, file) => some (buf, none, file)
      | (true, file) =>
        match number file with
        | (none, file) => some (buf, none, file)
        | (some v, file) => (toUnsigned 8 v).map fun n => (buf, some (UInt64.ofNat n), (lit (ascii "])") file).2)

/-- The first type that `strncmp` finds for the name. -/
def typeOfName (buf : List UInt8) : Option CType := CType.all.find? fun type => (cString buf).isPrefixOf (typeName type)

/-- `C4SNetDeserialise` with the structure and the memory of the elements as they are allocated, and what is
left. -/
def deserialise (fl : FloatText) (c : CData) (array : Nat → UInt8) (file : List UInt8) :
    Option (CData × List UInt8) := do
  let (buf, size, file) ← scanHeader file
  match size with
  | some size =>
    let type ← typeOfName buf
    let (data, file) ← deserialiseLoop fl type size.toNat 0 array file
    return (⟨1, .array, size, type, data⟩, file)
  | none =>
    let (_, file) := lit (ascii ")") file
    let type ← typeOfName buf
    let (data, file) ← deserialiseData fl type 0 c.data file
    return (⟨1, .simple, 0, type, data⟩, file)

/-! ## One element -/

def isIntegral : CType → Bool
  | .float | .double | .ldouble => false
  | _ => true

section

variable {fl : FloatText} {type : CType} {w n i offset : Nat} {c : UInt8} {s t : List UInt8} {mem data : Nat → UInt8}

theorem toUnsigned_natCast (h : n < 256 ^ w) : toUnsigned w n = some n := by
  have hlt : (n : Int) < 256 ^ w := by exact_mod_cast h
  have hge : ¬ (n : Int) < 0 := by omega
  rw [toUnsigned, if_neg hge, if_pos ⟨by omega, hlt⟩, Int.toNat_natCast]

theorem toSigned_signed (s : List UInt8) : toSigned s.length (signed s) = some (ofLeBytes s) := by
  have hpow : 0 < 256 ^ s.length := Nat.pow_pos (by decide)
  have hlt := ofLeBytes_lt s
  have hmod : signed s % (256 ^ s.length : Nat) = ofLeBytes s := by
    rw [signed, Int.bmod_emod, Int.emod_eq_of_lt (by omega) (by exact_mod_cast hlt)]
  have hge : -(((256 ^ s.length : Nat) : Int) / 2) ≤ signed s := Int.le_bmod hpow
  have hle : signed s < (((256 ^ s.length : Nat) : Int) + 1) / 2 := Int.bmod_lt hpow
  have hcast : ((256 ^ s.length : Nat) : Int) = 256 ^ s.length := Nat.cast_pow 256 s.length
  rw [toSigned, ← hcast, if_pos (by omega), hmod, Int.toNat_natCast]

theorem storeNumber_decimal {conv : Nat → Int → Option Nat} {v : Int} (hc : isDigit c = false)
    (hconv : conv s.length v = some (ofLeBytes s)) :
    storeNumber s.length conv offset mem (decimal v ++ c :: t) = some (place s offset mem, c :: t) := by
  rw [storeNumber, number_decimal hc]
  dsimp only
  rw [hconv, Option.map_some, leBytes_ofLeBytes]

theorem isSeparator_spec (hc : c = comma ∨ c = lt) :
    isDigit c = false ∧ (decide (c ≠ lt) && decide (c ≠ comma)) = false := by
  rcases hc with rfl | rfl <;> decide

theorem deserialise_char (hc : c = comma ∨ c = lt) (x : UInt8) :
    deserialiseData fl .char offset mem
      ((if x = lt then ascii "&lt;" else if x = amp then ascii "&amp;" else [x]) ++ c :: t) =
      some (place [x] offset mem, c :: t) := by
  have hstop := (isSeparator_spec hc).2
  by_cases hlt : x = lt
  · have hset : Scan.set 4 (fun c => c ≠ lt && c ≠ comma) ([108, 116, 59] ++ c :: t) =
        some ([108, 116, 59], c :: t) := set_append (by decide) (by decide) (all_eq_true.1 rfl) hstop
    have htext : ascii "&lt;" = amp :: [108, 116, 59] := by decide
    rw [if_pos hlt, htext, cons_append, deserialiseData]
    dsimp only
    rw [hset]
    dsimp only
    rw [if_neg (by decide), if_pos (by decide), hlt]
  · by_cases hamp : x = amp
    · have hset : Scan.set 4 (fun c => c ≠ lt && c ≠ comma) ([97, 109, 112, 59] ++ c :: t) =
          some ([97, 109, 112, 59], c :: t) := set_append (by decide) (by decide) (all_eq_true.1 rfl) hstop
      have htext : ascii "&amp;" = amp :: [97, 109, 112, 59] := by decide
      rw [if_neg hlt, if_pos hamp, htext, cons_append, deserialiseData]
      dsimp only
      rw [hset]
      dsimp only
      rw [if_pos (by decide), hamp]
    · rw [if_neg hlt, if_neg hamp, singleton_append, deserialiseData]
      dsimp only
      rw [set_none hstop]
      dsimp only
      rw [if_neg hamp]

theorem deserialiseData_serialiseData (htype : isIntegral type = true) (hc : c = comma ∨ c = lt) :
    deserialiseData fl type offset mem (serialiseData fl type data ++ c :: t) =
      some (place (bytesAt data (sizeOfType type)) offset mem, c :: t) := by
  have hdigit := (isSeparator_spec hc).1
  have hunsigned : ∀ w, storeNumber w toUnsigned offset mem
      (decimal (ofLeBytes (bytesAt data w)) ++ c :: t) = some (place (bytesAt data w) offset mem, c :: t) := by
    intro w
    have hconv := toUnsigned_natCast (ofLeBytes_lt (bytesAt data w))
    nth_rewrite 1 [← length_bytesAt data w]
    exact storeNumber_decimal hdigit hconv
  have hsigned : ∀ w, storeNumber w toSigned offset mem
      (decimal (signed (bytesAt data w)) ++ c :: t) = some (place (bytesAt data w) offset mem, c :: t) := by
    intro w
    have hconv := toSigned_signed (bytesAt data w)
    nth_rewrite 1 [← length_bytesAt data w]
    exact storeNumber_decimal hdigit hconv
  cases type with
  | uchar => exact @deserialise_char fl _ _ _ _ hc (data 0)
  | char => exact @deserialise_char fl _ _ _ _ hc (data 0)
  | ushort => exact hunsigned 2
  | short => exact hsigned 2
  | uint => exact hunsigned 4
  | int => exact hsigned 4
  | ulong => exact hunsigned 8
  | long => exact hsigned 8
  | float => cases htype
  | double => cases htype
  | ldouble => cases htype

/-! ## All elements -/

theorem serialiseLoop_succ_isSome (fl : FloatText) (d : CData) (n i : Nat) :
    (serialiseLoop fl d (n + 1) i).isSome ↔
      (i * sizeOfType d.type ≤ INT_MAX ∧ i + 1 ≤ INT_MAX) ∧ (serialiseLoop fl d n (i + 1)).isSome := by
  rw [serialiseLoop]
  by_cases hi : i * sizeOfType d.type ≤ INT_MAX ∧ i + 1 ≤ INT_MAX
  · rw [if_pos hi, and_iff_right hi]
    cases serialiseLoop fl d n (i + 1) with
    | none => exact Iff.rfl
    | some text => exact Iff.rfl
  · rw [if_neg hi]
    exact ⟨fun h => absurd h Bool.false_ne_true, fun h => absurd h.1 hi⟩

theorem serialiseLoop_isSome (fl : FloatText) (d : CData) (n i : Nat) :
    (serialiseLoop fl d n i).isSome ↔
      n ≠ 0 → (i + n - 1) * sizeOfType d.type ≤ INT_MAX ∧ i + n ≤ INT_MAX := by
  induction n generalizing i with
  | zero => exact ⟨fun _ h => absurd rfl h, fun _ => rfl⟩
  | succ n ih =>
    have hlast : i + (n + 1) - 1 = i + n := rfl
    have hnext : i + 1 + n - 1 = i + n := by omega
    have hsum : i + 1 + n = i + (n + 1) := by omega
    rw [serialiseLoop_succ_isSome, ih, hlast, hnext, hsum]
    constructor
    · rintro ⟨hi, h⟩ -
      cases n with
      | zero => exact hi
      | succ n => exact h (Nat.succ_ne_zero n)
    · intro h
      obtain ⟨hoffset, hnumber⟩ := h (Nat.succ_ne_zero n)
      have hle : i * sizeOfType d.type ≤ (i + n) * sizeOfType d.type :=
        Nat.mul_le_mul_right _ (Nat.le_add_right i n)
      exact ⟨⟨Nat.le_trans hle hoffset, by omega⟩, fun _ => ⟨hoffset, hnumber⟩⟩

/-- The separator that stands before the element `i`, if any is left. -/
def separator (i n : Nat) : List UInt8 := if 0 < i ∧ 0 < n then [comma] else []

theorem getSeparator_separator (i n : Nat) (s : List UInt8) :
    getSeparator i (separator i (n + 1) ++ s) = some s := by
  unfold getSeparator separator
  by_cases hi : 0 < i
  · rw [if_pos hi, if_pos ⟨hi, Nat.succ_pos n⟩, singleton_append]
    dsimp only
    rw [if_pos rfl]
  · rw [if_neg hi, if_neg fun h => hi h.1, nil_append]

theorem separator_cons {d : CData} {text : List UInt8} (htext : serialiseLoop fl d n (i + 1) = some text)
    (t : List UInt8) :
    ∃ c t', separator (i + 1) n ++ (text ++ lt :: t) = c :: t' ∧ (c = comma ∨ c = lt) := by
  rw [separator]
  cases n with
  | zero =>
    obtain rfl := Option.some.inj htext
    rw [if_neg fun h => Nat.lt_irrefl 0 h.2]
    exact ⟨lt, t, rfl, .inr rfl⟩
  | succ n =>
    rw [if_pos ⟨Nat.succ_pos i, Nat.succ_pos n⟩]
    exact ⟨comma, _, rfl, .inl rfl⟩

theorem place_elements (type : CType) (data : Nat → UInt8) (n i : Nat) (mem : Nat → UInt8) :
    place (bytesAt (elementAt data type (i + 1)) (n * sizeOfType type)) ((i + 1) * sizeOfType type)
        (place (bytesAt (elementAt data type i) (sizeOfType type)) (i * sizeOfType type) mem) =
      place (bytesAt (elementAt data type i) ((n + 1) * sizeOfType type)) (i * sizeOfType type) mem := by
  have hrest : (fun k => elementAt data type i (sizeOfType type + k)) = elementAt data type (i + 1) := by
    funext k
    rw [elementAt, elementAt, Nat.succ_mul, Nat.add_assoc]
  rw [Nat.succ_mul n, Nat.add_comm (n * _), bytesAt_add, place_append, length_bytesAt, hrest, ← Nat.succ_mul]

theorem deserialiseLoop_serialiseLoop {d : CData} {text : List UInt8} (htype : isIntegral d.type = true)
    (hi : i + n = d.size.toNat) (htext : serialiseLoop fl d n i = some text) (mem : Nat → UInt8) (t : List UInt8) :
    deserialiseLoop fl d.type n i mem (separator i n ++ (text ++ lt :: t)) =
      some (place (bytesAt (elementAt d.data d.type i) (n * sizeOfType d.type)) (i * sizeOfType d.type) mem,
        lt :: t) := by
  induction n generalizing i text mem with
  | zero =>
    obtain rfl := Option.some.inj htext
    rw [separator, if_neg (fun h => Nat.lt_irrefl 0 h.2), Nat.zero_mul]
    rfl
  | succ n ih =>
    rw [serialiseLoop] at htext
    by_cases hint : i * sizeOfType d.type ≤ INT_MAX ∧ i + 1 ≤ INT_MAX
    · rw [if_pos hint] at htext
      simp only [Option.bind_eq_bind, Option.bind_eq_some_iff, Option.pure_def, Option.some.injEq] at htext
      obtain ⟨text, htext, rfl⟩ := htext
      have hsep : (if i < d.size.toNat - 1 then [comma] else []) = separator (i + 1) n := by
        rw [separator]
        apply if_congr _ rfl rfl
        omega
      obtain ⟨c, t', hrest, hc⟩ := separator_cons htext t
      have helement : deserialiseData fl d.type (i * sizeOfType d.type) mem
          (serialiseData fl d.type (elementAt d.data d.type i) ++ c :: t') = some (_, c :: t') :=
        deserialiseData_serialiseData htype hc
      rw [← hrest] at helement
      have hnext := ih (i := i + 1) (by omega) htext
        (place (bytesAt (elementAt d.data d.type i) (sizeOfType d.type)) (i * sizeOfType d.type) mem)
      rw [deserialiseLoop, hsep, getSeparator_separator, append_assoc, append_assoc]
      simp only [Option.bind_eq_bind, Option.bind_some]
      rw [if_pos hint, helement, Option.bind_some, hnext, place_elements]
    · rw [if_neg hint] at htext
      cases htext

/-! ## Headers -/

theorem scan_typeName (type : CType) (hc : c = 91 ∨ c = 41) (t : List UInt8) :
    Scan.set 15 (fun c => c ≠ 91 && c ≠ 41) (typeName type ++ c :: t) = some (typeName type, c :: t) := by
  have hstop : (decide (c ≠ 91) && decide (c ≠ 41)) = false := by rcases hc with rfl | rfl <;> rfl
  apply set_append _ _ _ hstop
  · cases type <;> decide
  · cases type <;> decide
  · apply all_eq_true.1
    cases type <;> decide

theorem typeOfName_typeName (type : CType) : typeOfName (typeName type) = some type := by
  cases type <;> decide

theorem ascii_singleton : ascii "(" = [40] ∧ ascii "[" = [91] ∧ ascii "]" = [93] ∧ ascii ")" = [41] ∧
    ascii "])" = [93, 41] := by decide

theorem scanHeader_simple (type : CType) (t : List UInt8) :
    scanHeader (ascii "(" ++ (typeName type ++ (ascii ")" ++ t))) = some (typeName type, none, ascii ")" ++ t) := by
  obtain ⟨-, hopen, -, hclose, -⟩ := ascii_singleton
  rw [scanHeader, lit_append]
  dsimp only
  rw [hclose, hopen, singleton_append, scan_typeName type (.inr rfl)]
  rfl

theorem scanHeader_array (type : CType) (size : UInt64) (t : List UInt8) :
    scanHeader (ascii "(" ++ (typeName type ++ (ascii "[" ++ (decimal size.toNat ++ (ascii "]" ++ (ascii ")" ++ t)))))) =
      some (typeName type, some size, t) := by
  obtain ⟨-, hopen, hclose, hend, hboth⟩ := ascii_singleton
  have hsize : toUnsigned 8 size.toNat = some size.toNat := toUnsigned_natCast size.toNat_lt
  have hlast : ascii "]" ++ (ascii ")" ++ t) = ascii "])" ++ t := by
    rw [hclose, hend, hboth]
    rfl
  have hname : typeName type ++ (ascii "[" ++ (decimal size.toNat ++ (ascii "])" ++ t))) =
      typeName type ++ 91 :: (decimal size.toNat ++ (ascii "])" ++ t)) := by
    rw [hopen, singleton_append]
  have hnumber : number (decimal size.toNat ++ (ascii "])" ++ t)) = (some (size.toNat : Int), ascii "])" ++ t) := by
    rw [hboth]
    exact number_decimal (by decide) size.toNat _
  rw [scanHeader, lit_append, hlast]
  dsimp only
  rw [hname, scan_typeName type (.inl rfl)]
  dsimp only
  rw [← singleton_append, ← hopen, lit_append]
  dsimp only
  rw [hnumber]
  dsimp only
  rw [hsize, Option.map_some, UInt64.ofNat_toNat, lit_append]

/-! ## Scalars and arrays -/

theorem deserialise_simple {d : CData} (htype : isIntegral d.type = true) (hd : d.vtype ≠ .array) (c : CData)
    (array : Nat → UInt8) (t : List UInt8) :
    ∃ text, serialise fl d = some text ∧
      deserialise fl c array (text ++ lt :: t) =
        some (⟨1, .simple, 0, d.type, place (bytesAt d.data (sizeOfType d.type)) 0 c.data⟩, lt :: t) := by
  refine ⟨_, if_neg hd, ?_⟩
  have hdata : deserialiseData fl d.type 0 c.data (serialiseData fl d.type d.data ++ lt :: t) = some (_, lt :: t) :=
    deserialiseData_serialiseData htype (.inr rfl)
  simp only [append_assoc]
  rw [deserialise, scanHeader_simple]
  simp only [Option.bind_eq_bind, Option.bind_some, lit_append]
  rw [typeOfName_typeName, Option.bind_some, hdata]
  rfl

theorem deserialise_array {d : CData} {text : List UInt8} (htype : isIntegral d.type = true) (hd : d.vtype = .array)
    (htext : serialise fl d = some text) (c : CData) (array : Nat → UInt8) (t : List UInt8) :
    deserialise fl c array (text ++ lt :: t) =
      some (⟨1, .array, d.size, d.type, place (bytesAt d.data (d.size.toNat * sizeOfType d.type)) 0 array⟩,
        lt :: t) := by
  rw [serialise, if_pos hd] at htext
  simp only [Option.bind_eq_bind, Option.bind_eq_some_iff, Option.pure_def, Option.some.injEq] at htext
  obtain ⟨text, htext, rfl⟩ := htext
  have hloop := deserialiseLoop_serialiseLoop htype (Nat.zero_add _) htext array t
  have hfirst : elementAt d.data d.type 0 = d.data := by
    funext k
    rw [elementAt, Nat.zero_mul, Nat.zero_add]
  rw [separator, if_neg (fun h => Nat.lt_irrefl 0 h.1), nil_append, hfirst, Nat.zero_mul] at hloop
  simp only [append_assoc]
  rw [deserialise, scanHeader_array]
  simp only [Option.bind_eq_bind, Option.bind_some]
  rw [typeOfName_typeName, Option.bind_some, hloop]
  rfl

theorem serialise_isSome {d : CData} (hd : d.vtype = .array) :
    (serialise fl d).isSome ↔
      d.size.toNat ≤ INT_MAX ∧ (d.size.toNat - 1) * sizeOfType d.type ≤ INT_MAX := by
  have hloop := serialiseLoop_isSome fl d d.size.toNat 0
  have hsome : (serialise fl d).isSome = (serialiseLoop fl d d.size.toNat 0).isSome := by
    rw [serialise, if_pos hd]
    cases serialiseLoop fl d d.size.toNat 0 <;> rfl
  rw [Nat.zero_add] at hloop
  rw [hsome, hloop]
  constructor
  · intro h
    by_cases hsize : d.size.toNat = 0
    · rw [hsize, Nat.zero_sub, Nat.zero_mul]
      exact ⟨Nat.zero_le _, Nat.zero_le _⟩
    · exact (h hsize).symm
  · exact fun h _ => h.symm

end

/-! ## Round trips -/

/-- What `C4SNetCreate` is called with. -/
structure Arguments where
  type : CType
  size : UInt64
  data : Nat → UInt8
  integral : isIntegral type = true

/-- The created value is written, and with `<` behind it the text is read as the same value, into any structure
and any memory; the `<` is left, and the sizes and the copies of both agree. -/
def RoundTrips (fl : FloatText) (a : Arguments) : Prop :=
  ∀ mem, ∃ text, serialise fl (create mem a.type a.size a.data) = some text ∧
    ∀ c array t, ∃ c', deserialise fl c array (text ++ lt :: t) = some (c', lt :: t) ∧
      SameValue c' (create mem a.type a.size a.data) ∧
      arraySize c' = arraySize (create mem a.type a.size a.data) ∧
      ∀ mem', deepCopy mem' c' = deepCopy mem' (create mem a.type a.size a.data)

theorem create_scalar {a : Arguments} (h : a.size = 1) (mem : Nat → UInt8) :
    create mem a.type a.size a.data = ⟨1, .simple, a.size, a.type, memcpy (sizeOfType a.type) a.data mem⟩ :=
  if_pos h

theorem create_array {a : Arguments} (h : a.size ≠ 1) (mem : Nat → UInt8) :
    create mem a.type a.size a.data = ⟨1, .array, a.size, a.type,
      memcpy (allocatedSpace ⟨1, .array, a.size, a.type, mem⟩).toNat a.data mem⟩ :=
  if_neg h

theorem read_array {fl : FloatText} {d : CData} {text : List UInt8} (htype : isIntegral d.type = true)
    (hd : d.vtype = .array) (hsize : d.size ≠ 1) (htext : serialise fl d = some text) (c : CData)
    (array : Nat → UInt8) (t : List UInt8) :
    ∃ c', deserialise fl c array (text ++ lt :: t) = some (c', lt :: t) ∧ SameValue c' d ∧
      arraySize c' = arraySize d ∧ ∀ mem, deepCopy mem c' = deepCopy mem d := by
  have hsame : SameValue ⟨1, .array, d.size, d.type,
      place (bytesAt d.data (d.size.toNat * sizeOfType d.type)) 0 array⟩ d := by
    refine ⟨hd.symm, rfl, rfl, ?_⟩
    intro k hk
    rw [CData.bytes, if_pos hd] at hk
    exact memcpy_of_lt hk _ _
  refine ⟨_, deserialise_array htype hd htext c array t, hsame, rfl, ?_⟩
  exact hsame.deepCopy_eq (fun _ => hd) (fun h => absurd h hsize)

theorem scalar_not_roundTrips {fl : FloatText} {a : Arguments} (h : a.size = 1) : ¬ RoundTrips fl a := by
  intro hround
  obtain ⟨text, htext, hread⟩ := hround a.data
  obtain ⟨c', hc', -, hsize, -⟩ := hread ⟨0, .simple, 0, a.type, a.data⟩ a.data []
  rw [create_scalar h] at htext hsize
  obtain ⟨text', htext', hzero⟩ := deserialise_simple a.integral VType.noConfusion ⟨0, .simple, 0, a.type, a.data⟩
    a.data [] (d := ⟨1, .simple, a.size, a.type, memcpy (sizeOfType a.type) a.data a.data⟩)
  rw [htext, Option.some.injEq] at htext'
  subst htext'
  rw [hzero, Option.some.injEq, Prod.mk.injEq] at hc'
  obtain ⟨rfl, -⟩ := hc'
  have hone : (0 : UInt64) = a.size := hsize
  rw [h] at hone
  cases hone

/-- A value can be read again if and only if it is an array whose elements and their offsets are counted by an
`int`. -/
theorem text_round_trip_iff (fl : FloatText) (a : Arguments) :
    RoundTrips fl a ↔
      a.size ≠ 1 ∧ a.size.toNat < 2147483648 ∧ (a.size.toNat - 1) * sizeOfType a.type < 2147483648 := by
  have hint : ∀ n, n < 2147483648 ↔ n ≤ INT_MAX := fun n => Nat.lt_succ_iff
  rw [hint, hint]
  by_cases hsize : a.size = 1
  · exact ⟨fun h => absurd h (scalar_not_roundTrips hsize), fun h => absurd hsize h.1⟩
  rw [and_iff_right hsize]
  constructor
  · intro hround
    obtain ⟨text, htext, -⟩ := hround a.data
    have hsome := Option.isSome_iff_exists.2 ⟨text, htext⟩
    rw [create_array hsize, serialise_isSome rfl] at hsome
    exact hsome
  · intro hbound mem
    rw [create_array hsize]
    have hsome : (serialise fl ⟨1, .array, a.size, a.type,
        memcpy (allocatedSpace ⟨1, .array, a.size, a.type, mem⟩).toNat a.data mem⟩).isSome :=
      (serialise_isSome rfl).2 hbound
    obtain ⟨text, htext⟩ := Option.isSome_iff_exists.1 hsome
    exact ⟨text, htext, read_array a.integral rfl hsize htext⟩

def five : Arguments := ⟨.int, 1, fun k => if k = 0 then 5 else 0, rfl⟩

theorem scalar_size_lost : ¬ RoundTrips ⟨fun _ _ => [], fun _ file => (none, file)⟩ five :=
  scalar_not_roundTrips rfl

/-- Characters of all kinds, as they are written. -/
example : serialise ⟨fun _ _ => [], fun _ file => (none, file)⟩ ⟨1, .array, 3, .char, fun k => [60, 44, 38].getD k 0⟩ =
    some (ascii "(char[3])&lt;,,,&amp;") := by
  decide

end SNet.C4SNet.Text
