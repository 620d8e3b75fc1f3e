import SNetRts.Lib.Memory
import SNetRts.Lib.Sextets

/-!
# Base64

The encoder and the decoder of `interfaces/c4snet/base64.c`. A file is the list of the characters that
are left in it, which are bytes here; its type `char` is a signed one, so that the character 255 is taken
for the end of the file by `ungetc`. Three bytes are written as four characters of 64; the last
characters are filled up to four with a padding character, which is also used to write data types that
are too large for one character.

What is written by several calls can be read by the same calls one after the other, as long as no call
has to encode 2^28 bytes: the number of their bits is no `int`.
-/

namespace SNet.C4SNet.Base64

open Function (update update_of_ne update_self)

open Lib Memory List

def INT_MAX : Int := 2147483647

def INT_MIN : Int := -2147483648

def base64 : List UInt8 :=
  [65, 66, 67, 68, 69, 70, 71, 72, 73, 74, 75, 76, 77, 78, 79, 80, 81, 82, 83, 84, 85, 86, 87, 88, 89, 90,
    97, 98, 99, 100, 101, 102, 103, 104, 105, 106, 107, 108, 109, 110, 111, 112, 113, 114, 115, 116, 117,
    118, 119, 120, 121, 122, 48, 49, 50, 51, 52, 53, 54, 55, 56, 57, 43, 47, 61]

def PADDING_BYTE : Nat := 64

/-- `base64[i]` -/
def char (i : Nat) : UInt8 := base64.getD i 0

/-- `BLOCK_NOT_FULL` -/
def blockNotFull (i : Int) : Bool := i * 6 % 24 ≠ 0

/-- `char next = fgetc(file)`; the end of the file is -1. -/
def fgetc : List UInt8 → UInt8 × List UInt8
  | [] => (255, [])
  | c :: file => (c, file)

/-- `ungetc`, which does nothing with -1. -/
def ungetc (c : UInt8) (file : List UInt8) : List UInt8 := if c = 255 then file else c :: file

/-! ## Encoding -/

/-- The rounds of `Base64encodeDataType`: what is written, and the sum of what `fputc` returns. -/
def encodeTypeLoop : Nat → Nat → List UInt8 × Nat
  | 0, type => ([char type], (char type).toNat)
  | fuel + 1, type =>
    if 64 ≤ type then
      let (text, i) := encodeTypeLoop fuel (type - 64)
      (char PADDING_BYTE :: text, (char PADDING_BYTE).toNat + i)
    else ([char type], (char type).toNat)

def encodeDataType (type : Nat) : List UInt8 × Nat := encodeTypeLoop type type

/-- `offset` -/
inductive Offset where
  | zero
  | two
  | four
  | six
deriving DecidableEq

/-- The rounds of the loop of `Base64encode` that are left. -/
def encodeLoop (src : Nat → UInt8) (len : Int) : Nat → Nat → Offset → UInt8 → List UInt8
  | 0, _, _, _ => []
  | rounds + 1, i, offset, last =>
    let next := if i < len then src i else 0
    match offset with
    | .zero => char (next >>> 2).toNat :: encodeLoop src len rounds (i + 1) .two next
    | .two => char ((last &&& 3) <<< 4 ||| next >>> 4).toNat :: encodeLoop src len rounds (i + 1) .four next
    | .four => char ((last &&& 15) <<< 2 ||| next >>> 6).toNat :: encodeLoop src len rounds (i + 1) .six next
    | .six => char (last &&& 63).toNat :: encodeLoop src len rounds i .zero last

def padLoop : Nat → Int → List UInt8 × Int
  | 0, size => ([], size)
  | fuel + 1, size =>
    if blockNotFull size then
      let (text, size) := padLoop fuel (size + 1)
      (char PADDING_BYTE :: text, size)
    else ([], size)

/-- What is written of the `len` bytes from `src` on, and the number that is returned; `none` where the number
of bits overflows. -/
def encode (src : Nat → UInt8) (len : Int) : Option (List UInt8 × Int) :=
  if INT_MIN ≤ len * 8 ∧ len * 8 + 5 ≤ INT_MAX then
    let size := (len * 8 + 5).tdiv 6
    let text := encodeLoop src len size.toNat 0 .zero 0
    let (padding, size) := padLoop 3 size
    some (text ++ padding, size)
  else none

/-! ## Decoding -/

/-- The loop of `Base64decodeDataType` over the padding characters: `next`, `*type` and `i` then. -/
def decodeTypeLoop : List UInt8 → Nat → Nat → UInt8 × Nat × Nat × List UInt8
  | [], type, i => (255, type, i, [])
  | next :: file, type, i =>
    if next = char PADDING_BYTE then decodeTypeLoop file (type + 64) (i + 1) else (next, type, i, file)

/-- The number that is returned, `*type`, and what is left. -/
def decodeDataType (file : List UInt8) : Nat × Nat × List UInt8 :=
  let (next, type, i, file) := decodeTypeLoop file 0 0
  let j := (base64.take PADDING_BYTE).findIdx fun c => c = next
  if j = PADDING_BYTE then (0, type + j, ungetc next file) else (i + 1, type + j, file)

/-- `while (j < len) to[j++] = 0;` -/
def zeroFrom (j : Nat) (len : Int) (mem : Nat → UInt8) : Nat → UInt8 := fun k => if j ≤ k ∧ k < len then 0 else mem k

/-- What the loop of `Base64decode` comes to: a return, or `i`, the bytes and what is left. -/
inductive Stop where
  | unknown (mem : Nat → UInt8) (file : List UInt8)
  | read (i j : Nat) (mem : Nat → UInt8) (file : List UInt8)

def Stop.mem : Stop → Nat → UInt8
  | unknown mem _ => mem
  | read _ _ mem _ => mem

def decodeLoop (len : Int) : List UInt8 → Nat → Nat → Offset → (Nat → UInt8) → Stop
  | [], i, j, _, mem => if j < len then .unknown (zeroFrom j len mem) (ungetc 255 []) else .read i j mem []
  | cur :: file, i, j, offset, mem =>
    if j < len then
      let index := base64.findIdx fun c => c = cur
      let next := UInt8.ofNat index
      if index = PADDING_BYTE then .read (i + 1) len.toNat (zeroFrom j len mem) file
      else if PADDING_BYTE < index then .unknown (zeroFrom j len mem) (ungetc cur file)
      else
        match offset with
        | .zero => decodeLoop len file (i + 1) j .two (update mem j (next <<< 2))
        | .two =>
          let mem := update mem j (mem j ||| next >>> 4)
          if len ≤ j + 1 then .read (i + 1) (j + 1) mem file
          else decodeLoop len file (i + 1) (j + 1) .four (update mem (j + 1) ((next &&& 15) <<< 4))
        | .four =>
          let mem := update mem j (mem j ||| next >>> 2)
          if len ≤ j + 1 then .read (i + 1) (j + 1) mem file
          else decodeLoop len file (i + 1) (j + 1) .six (update mem (j + 1) (next <<< 6))
        | .six =>
          let mem := update mem j (mem j ||| next)
          if len ≤ j + 1 then .read (i + 1) (j + 1) mem file
          else decodeLoop len file (i + 1) (j + 1) .zero mem
    else .read i j mem (cur :: file)

/-- The loop over the padding: whether it has come mem its end, `i`, and what is left. -/
def unpadLoop : List UInt8 → Nat → Bool × Nat × List UInt8
  | [], i => if blockNotFull i then (false, i, ungetc 255 []) else (true, i, [])
  | cur :: file, i =>
    if blockNotFull i then
      if cur ≠ char PADDING_BYTE then (false, i, ungetc cur file) else unpadLoop file (i + 1)
    else (true, i, cur :: file)

def decode (file : List UInt8) (mem : Nat → UInt8) (len : Int) : Nat × (Nat → UInt8) × List UInt8 :=
  match decodeLoop len file 0 0 .zero mem with
  | .unknown mem file => (0, mem, file)
  | .read i j mem file =>
    let (full, i, file) := unpadLoop file i
    (i, if full then mem else zeroFrom j len mem, file)

/-! ## Data types -/

section

variable {file t : List UInt8} {s rest : List UInt8} {i j n : Nat}
  {len : Int} {x : UInt8} {mem : Nat → UInt8}

theorem char_ne_padding : ∀ k < 64, char k ≠ char PADDING_BYTE := by decide

theorem findIdx_char : ∀ k < 64, (base64.findIdx fun c => c = char k) = k ∧
    ((base64.take PADDING_BYTE).findIdx fun c => c = char k) = k := by decide

theorem encodeTypeLoop_eq (fuel n : Nat) (hfuel : n ≤ fuel) :
    (encodeTypeLoop fuel n).1 = List.replicate (n / 64) (char PADDING_BYTE) ++ [char (n % 64)] := by
  induction fuel generalizing n with
  | zero =>
    obtain rfl := Nat.le_zero.1 hfuel
    rfl
  | succ fuel ih =>
    rw [encodeTypeLoop]
    by_cases hn : 64 ≤ n
    · rw [if_pos hn]
      dsimp only
      have hdiv : n / 64 = (n - 64) / 64 + 1 := by omega
      have hmod : n % 64 = (n - 64) % 64 := by omega
      rw [ih (n - 64) (by omega), hdiv, hmod, replicate_succ, cons_append]
    · rw [if_neg hn, Nat.div_eq_of_lt (by omega), Nat.mod_eq_of_lt (by omega)]
      rfl

theorem decodeTypeLoop_replicate (k : Nat) (hx : x ≠ char PADDING_BYTE) (type i : Nat) :
    decodeTypeLoop (List.replicate k (char PADDING_BYTE) ++ x :: t) type i = (x, type + k * 64, i + k, t) := by
  induction k generalizing type i with
  | zero =>
    rw [replicate_zero, nil_append, decodeTypeLoop, if_neg hx, Nat.zero_mul]
    rfl
  | succ k ih =>
    rw [replicate_succ, cons_append, decodeTypeLoop, if_pos rfl, ih, Prod.mk.injEq, Prod.mk.injEq,
      Prod.mk.injEq]
    refine ⟨rfl, ?_, ?_, rfl⟩ <;> omega

theorem length_encodeDataType (n : Nat) : (encodeDataType n).1.length = n / 64 + 1 := by
  rw [encodeDataType, encodeTypeLoop_eq n n (Nat.le_refl n)]
  simp

theorem decode_encodeDataType (n : Nat) (t : List UInt8) :
    decodeDataType ((encodeDataType n).1 ++ t) = ((encodeDataType n).1.length, n, t) := by
  have hlt : n % 64 < 64 := Nat.mod_lt n (by omega)
  have hne : n % 64 ≠ PADDING_BYTE := Nat.ne_of_lt hlt
  rw [length_encodeDataType, encodeDataType, encodeTypeLoop_eq n n (Nat.le_refl n), append_assoc,
    singleton_append, decodeDataType, decodeTypeLoop_replicate _ (char_ne_padding _ hlt)]
  dsimp only
  rw [(findIdx_char _ hlt).2, if_neg hne, Prod.mk.injEq, Prod.mk.injEq]
  refine ⟨?_, ?_, rfl⟩ <;> omega

/-! ## Strings of bytes -/

theorem of_drop_cons {x : UInt8} (h : s.drop i = x :: rest) :
    i < s.length ∧ s.getD i 0 = x ∧ s.drop (i + 1) = rest := by
  have hi : i < s.length := by
    by_contra hge
    rw [drop_eq_nil_of_le (Nat.not_lt.1 hge)] at h
    cases h
  rw [drop_eq_getElem_cons hi, List.cons.injEq] at h
  refine ⟨hi, ?_, h.2⟩
  rw [getD_eq_getElem s 0 hi, h.1]

theorem of_drop_nil (h : s.drop i = []) : ¬ i < s.length := by
  rw [drop_eq_nil_iff] at h
  exact Nat.not_lt.2 h

theorem encodeLoop_sextets (h : s.drop i = rest) (last : UInt8) :
    encodeLoop (s.getD · 0) s.length (sextets rest).length i .zero last = (sextets rest).map fun x => char x.toNat := by
  induction rest using sextets.induct generalizing i last with
  | case1 a b c rest ih =>
    obtain ⟨ha, ha', h⟩ := of_drop_cons h
    obtain ⟨hb, hb', h⟩ := of_drop_cons h
    obtain ⟨hc, hc', h⟩ := of_drop_cons h
    simp only [sextets, length_cons, map_cons, encodeLoop, Nat.cast_lt, if_pos ha, if_pos hb, if_pos hc, ha', hb',
      hc', ih h]
  | case2 a b =>
    obtain ⟨ha, ha', h⟩ := of_drop_cons h
    obtain ⟨hb, hb', h⟩ := of_drop_cons h
    have hend := of_drop_nil h
    simp only [sextets, length_cons, length_nil, map_cons, map_nil, encodeLoop, Nat.cast_lt,
      if_pos ha, if_pos hb, if_neg hend, ha', hb']
  | case3 a =>
    obtain ⟨ha, ha', h⟩ := of_drop_cons h
    have hend := of_drop_nil h
    simp only [sextets, length_cons, length_nil, map_cons, map_nil, encodeLoop, Nat.cast_lt,
      if_pos ha, if_neg hend, ha']
  | case4 => rfl

theorem decodeLoop_done (h : ¬ (j : Int) < len) (offset : Offset) :
    decodeLoop len file i j offset mem = .read i j mem file := by
  cases file with
  | nil => rw [decodeLoop, if_neg h]
  | cons cur file => rw [decodeLoop, if_neg h]

theorem decodeLoop_char (hx : x.toNat < 64) (h : (j : Int) < len) (offset : Offset) :
    decodeLoop len (char x.toNat :: file) i j offset mem =
      match offset with
      | .zero => decodeLoop len file (i + 1) j .two (update mem j (x <<< 2))
      | .two =>
        let mem := update mem j (mem j ||| x >>> 4)
        if len ≤ j + 1 then .read (i + 1) (j + 1) mem file
        else decodeLoop len file (i + 1) (j + 1) .four (update mem (j + 1) ((x &&& 15) <<< 4))
      | .four =>
        let mem := update mem j (mem j ||| x >>> 2)
        if len ≤ j + 1 then .read (i + 1) (j + 1) mem file
        else decodeLoop len file (i + 1) (j + 1) .six (update mem (j + 1) (x <<< 6))
      | .six => decodeLoop len file (i + 1) (j + 1) .zero (update mem j (mem j ||| x)) := by
  have hne : x.toNat ≠ PADDING_BYTE := Nat.ne_of_lt hx
  have hlt : ¬ PADDING_BYTE < x.toNat := Nat.lt_asymm hx
  rw [decodeLoop, if_pos h]
  dsimp only
  rw [(findIdx_char _ hx).1, if_neg hne, if_neg hlt, UInt8.ofNat_toNat]
  cases offset with
  | zero => rfl
  | two => rfl
  | four => rfl
  | six =>
    dsimp only
    by_cases hj : len ≤ j + 1
    · have hdone : ¬ ((j + 1 : Nat) : Int) < len := by omega
      rw [if_pos hj, decodeLoop_done hdone]
    · rw [if_neg hj]

theorem decodeLoop_sextets (hlen : ((j + rest.length : Nat) : Int) = len) (mem : Nat → UInt8) (t : List UInt8) :
    decodeLoop len ((sextets rest).map (fun x => char x.toNat) ++ t) i j .zero mem =
      .read (i + (sextets rest).length) (j + rest.length) (place rest j mem) t := by
  induction rest using sextets.induct generalizing i j mem with
  | case1 a b c rest ih =>
    have hmem : ∀ x ∈ sextets (a :: b :: c :: rest), x.toNat < 64 := fun x hx => Sextets.lt hx
    simp only [sextets, forall_mem_cons] at hmem
    obtain ⟨h1, h2, h3, h4, -⟩ := hmem
    simp only [length_cons] at hlen
    simp only [sextets, map_cons, cons_append, length_cons]
    rw [decodeLoop_char h1 (by omega), decodeLoop_char h2 (by omega)]
    dsimp only
    rw [if_neg (by omega), decodeLoop_char h3 (by omega)]
    dsimp only
    rw [if_neg (by omega), decodeLoop_char h4 (by omega)]
    simp only [Function.update_idem, update_self, Sextets.high, Sextets.middle, Sextets.low]
    rw [ih (by omega), place, place, place, show i + 1 + 1 + 1 + 1 + (sextets rest).length =
      i + ((sextets rest).length + 1 + 1 + 1 + 1) by omega, show j + 1 + 1 + 1 + rest.length =
      j + (rest.length + 1 + 1 + 1) by omega]
  | case2 a b =>
    have hmem : ∀ x ∈ sextets [a, b], x.toNat < 64 := fun x hx => Sextets.lt hx
    simp only [sextets, forall_mem_cons] at hmem
    obtain ⟨h1, h2, h3, -⟩ := hmem
    simp only [length_cons, length_nil] at hlen
    simp only [sextets, map_cons, map_nil, cons_append, nil_append, length_cons,
      length_nil]
    rw [decodeLoop_char h1 (by omega), decodeLoop_char h2 (by omega)]
    dsimp only
    rw [if_neg (by omega), decodeLoop_char h3 (by omega)]
    dsimp only
    rw [if_pos (by omega)]
    simp only [Function.update_idem, update_self, Sextets.high, Sextets.middle]
    rw [place, place, place]
  | case3 a =>
    have hmem : ∀ x ∈ sextets [a], x.toNat < 64 := fun x hx => Sextets.lt hx
    simp only [sextets, forall_mem_cons] at hmem
    obtain ⟨h1, h2, -⟩ := hmem
    simp only [length_cons, length_nil] at hlen
    simp only [sextets, map_cons, map_nil, cons_append, nil_append, length_cons,
      length_nil]
    rw [decodeLoop_char h1 (by omega), decodeLoop_char h2 (by omega)]
    dsimp only
    rw [if_pos (by omega)]
    simp only [Function.update_idem, update_self, Sextets.high]
    rw [place, place]
  | case4 =>
    obtain rfl := hlen
    exact decodeLoop_done (lt_irrefl _) _

theorem zeroFrom_of_ge {k : Nat} (hk : len ≤ k) : zeroFrom j len mem k = mem k := by
  rw [zeroFrom, if_neg]
  rintro ⟨-, hlt⟩
  exact absurd hlt (Int.not_lt.2 hk)

theorem decodeLoop_of_ge {k : Nat} (hk : len ≤ k) (offset : Offset) :
    (decodeLoop len file i j offset mem).mem k = mem k := by
  induction file generalizing i j offset mem with
  | nil =>
    rw [decodeLoop]
    split
    · exact zeroFrom_of_ge hk
    · rfl
  | cons cur file ih =>
    rw [decodeLoop]
    by_cases hj : (j : Int) < len
    · have hne : k ≠ j := by omega
      rw [if_pos hj]
      dsimp only
      split
      · exact zeroFrom_of_ge hk
      split
      · exact zeroFrom_of_ge hk
      cases offset with
      | zero =>
        dsimp only
        rw [ih, update_of_ne hne]
      | two =>
        dsimp only
        split
        · exact update_of_ne hne _ _
        · rw [ih, update_of_ne (by omega), update_of_ne hne]
      | four =>
        dsimp only
        split
        · exact update_of_ne hne _ _
        · rw [ih, update_of_ne (by omega), update_of_ne hne]
      | six =>
        dsimp only
        split
        · exact update_of_ne hne _ _
        · rw [ih, update_of_ne hne]
    · rw [if_neg hj]
      rfl

/-! ## Padding -/

theorem blockNotFull_eq_false {size : Int} : blockNotFull size = false ↔ size % 4 = 0 := by
  rw [blockNotFull, decide_eq_false_iff_not, not_not]
  omega

theorem padLoop_full {size : Int} {d fuel : Nat} (hd : (size + d) % 4 = 0) (hfuel : d ≤ fuel) :
    (padLoop fuel size).2 % 4 = 0 := by
  induction fuel generalizing size d with
  | zero =>
    obtain rfl := Nat.le_zero.1 hfuel
    rw [Nat.cast_zero, Int.add_zero] at hd
    exact hd
  | succ fuel ih =>
    rw [padLoop]
    by_cases hsize : blockNotFull size = true
    · rw [if_pos hsize]
      cases d with
      | zero =>
        rw [Nat.cast_zero, Int.add_zero, ← blockNotFull_eq_false] at hd
        rw [hd] at hsize
        cases hsize
      | succ d =>
        apply ih (d := d)
        · rw [show size + 1 + (d : Int) = size + (d + 1 : Nat) by omega, hd]
        · exact Nat.le_of_succ_le_succ hfuel
    · rw [if_neg hsize]
      exact blockNotFull_eq_false.1 (Bool.eq_false_iff.2 hsize)

theorem length_padLoop (fuel : Nat) (size : Int) :
    (padLoop fuel size).2 = size + (padLoop fuel size).1.length := by
  induction fuel generalizing size with
  | zero => exact (Int.add_zero size).symm
  | succ fuel ih =>
    rw [padLoop]
    by_cases hsize : blockNotFull size = true
    · rw [if_pos hsize, length_cons, ih (size + 1)]
      omega
    · rw [if_neg hsize]
      exact (Int.add_zero size).symm

theorem unpadLoop_full (hn : (n : Int) % 4 = 0) (t : List UInt8) : unpadLoop t n = (true, n, t) := by
  have hfull : ¬ blockNotFull n = true := Bool.eq_false_iff.1 (blockNotFull_eq_false.2 hn)
  cases t with
  | nil => rw [unpadLoop, if_neg hfull]
  | cons cur t => rw [unpadLoop, if_neg hfull]

theorem unpadLoop_padLoop {fuel : Nat} (h : (padLoop fuel n).2 % 4 = 0) (t : List UInt8) :
    unpadLoop ((padLoop fuel n).1 ++ t) n = (true, n + (padLoop fuel n).1.length, t) := by
  induction fuel generalizing n with
  | zero => exact unpadLoop_full h t
  | succ fuel ih =>
    rw [padLoop] at h ⊢
    by_cases hn : blockNotFull n = true
    · rw [if_pos hn, ← Nat.cast_succ] at h ⊢
      dsimp only
      rw [cons_append, unpadLoop, if_pos hn, if_neg (not_not.2 rfl), ih h, length_cons,
        Nat.succ_add_eq_add_succ]
    · rw [if_neg hn]
      exact unpadLoop_full (blockNotFull_eq_false.1 (Bool.eq_false_iff.2 hn)) t

/-! ## What is written is read -/

def encoded (s : List UInt8) : List UInt8 :=
  (sextets s).map (fun x => char x.toNat) ++ (padLoop 3 (sextets s).length).1

theorem length_encoded (s : List UInt8) :
    (encoded s).length = (sextets s).length + (padLoop 3 (sextets s).length).1.length := by
  rw [encoded, length_append, length_map]

theorem encodeLoop_congr {src src' : Nat → UInt8} (h : ∀ k : Nat, (k : Int) < len → src k = src' k) (rounds i : Nat)
    (offset : Offset) (last : UInt8) :
    encodeLoop src len rounds i offset last = encodeLoop src' len rounds i offset last := by
  induction rounds generalizing i offset last with
  | zero => rfl
  | succ rounds ih =>
    have hnext : (if (i : Int) < len then src i else 0) = if (i : Int) < len then src' i else 0 := by
      by_cases hi : (i : Int) < len
      · rw [if_pos hi, if_pos hi, h i hi]
      · rw [if_neg hi, if_neg hi]
    cases offset <;> simp only [encodeLoop, hnext, ih]

theorem encode_eq (src : Nat → UInt8) (n : Nat) :
    encode src n =
      if n < 268435456 then some (encoded (bytesAt src n), ((encoded (bytesAt src n)).length : Int)) else none := by
  rw [encode, INT_MIN, INT_MAX]
  by_cases h : n < 268435456
  · have hsize : ((n : Int) * 8 + 5).tdiv 6 = (sextets (bytesAt src n)).length := by
      rw [Sextets.length, length_bytesAt, Int.tdiv_eq_ediv_of_nonneg (by omega)]
      omega
    have hsrc : ∀ k : Nat, (k : Int) < n → src k = (bytesAt src n).getD k 0 := by
      intro k hk
      rw [getD_bytesAt (Int.ofNat_lt.1 hk)]
    have hloop := encodeLoop_sextets (s := bytesAt src n) drop_zero 0
    rw [length_bytesAt] at hloop
    rw [if_pos h, if_pos (by omega), hsize]
    dsimp only
    rw [Int.toNat_natCast, length_encoded, Nat.cast_add, ← length_padLoop, encoded, ← hloop,
      encodeLoop_congr hsrc]
  · rw [if_neg h, if_neg (by omega)]

theorem lt_of_encode {src : Nat → UInt8} {text : List UInt8} {size : Int} (h : encode src len = some (text, size)) :
    len < 268435456 := by
  rw [encode, INT_MIN, INT_MAX] at h
  by_contra hlen
  rw [if_neg (by omega)] at h
  cases h

theorem decode_encoded (s : List UInt8) (mem : Nat → UInt8) (t : List UInt8) :
    decode (encoded s ++ t) mem s.length = ((encoded s).length, place s 0 mem, t) := by
  have hfull : (padLoop 3 (sextets s).length).2 % 4 = 0 :=
    padLoop_full (d := (4 - (sextets s).length % 4) % 4) (by omega) (by omega)
  have hlen : ((0 + s.length : Nat) : Int) = s.length := by rw [Nat.zero_add]
  rw [decode, encoded, append_assoc, decodeLoop_sextets hlen, Nat.zero_add, Nat.zero_add]
  dsimp only
  rw [unpadLoop_padLoop hfull, ← length_encoded]
  rfl

theorem decode_of_ge {k : Nat} (hk : len ≤ k) (file : List UInt8) (mem : Nat → UInt8) :
    (decode file mem len).2.1 k = mem k := by
  have hloop : (decodeLoop len file 0 0 .zero mem).mem k = mem k := decodeLoop_of_ge hk .zero
  rw [decode]
  cases hstop : decodeLoop len file 0 0 .zero mem with
  | unknown mem' file' =>
    rw [hstop] at hloop
    exact hloop
  | read i j mem' file' =>
    rw [hstop] at hloop
    dsimp only
    split
    · exact hloop
    · rw [zeroFrom_of_ge hk]
      exact hloop

end

/-! ## Several items in one file -/

/-- What one call writes. -/
inductive Item where
  | data (s : List UInt8)
  | type (n : Nat)
deriving DecidableEq

namespace Item

def encode : Item → Option (List UInt8)
  | data s => (Base64.encode (s.getD · 0) s.length).map Prod.fst
  | type n => some (encodeDataType n).1

/-- The call that reads an item, into memory with any contents: the item, the number that is returned, and
what is left. -/
def decode (mem : Nat → UInt8) (file : List UInt8) : Item → Item × Nat × List UInt8
  | data s =>
    let (i, mem, file) := Base64.decode file mem s.length
    (data (bytesAt mem s.length), i, file)
  | type _ =>
    let (i, n, file) := decodeDataType file
    (type n, i, file)

theorem decode_encode {item : Item} {text : List UInt8} (h : item.encode = some text) (mem : Nat → UInt8)
    (t : List UInt8) : item.decode mem (text ++ t) = (item, text.length, t) := by
  cases item with
  | data s =>
    rw [encode, Option.map_eq_some_iff] at h
    obtain ⟨⟨text, i⟩, h, rfl⟩ := h
    rw [encode_eq, bytesAt_getD, Option.ite_none_right_eq_some, Option.some.injEq, Prod.mk.injEq] at h
    obtain ⟨-, rfl, -⟩ := h
    rw [decode, decode_encoded]
    dsimp only
    rw [bytesAt_place]
  | type n =>
    obtain rfl := Option.some.inj h
    rw [decode, decode_encodeDataType]

theorem encode_isSome (item : Item) :
    item.encode.isSome ↔ ∀ s, item = data s → s.length < 268435456 := by
  cases item with
  | data s =>
    rw [encode, encode_eq]
    by_cases hs : s.length < 268435456
    · rw [if_pos hs]
      refine ⟨fun _ s' hs' => ?_, fun _ => rfl⟩
      obtain rfl := Item.data.inj hs'
      exact hs
    · rw [if_neg hs]
      exact ⟨fun h => absurd h Bool.false_ne_true, fun h => absurd (h s rfl) hs⟩
  | type n => exact ⟨fun _ s hs => Item.noConfusion hs, fun _ => rfl⟩

end Item

open Item

def decodeAll (mem : Nat → UInt8) : List Item → List UInt8 → List (Item × Nat) × List UInt8
  | [], file => ([], file)
  | item :: items, file =>
    let (read, i, file) := item.decode mem file
    let (reads, file) := decodeAll mem items file
    ((read, i) :: reads, file)

/-- All of the items are written, and whatever follows them they are read again one by one, each with the
number of its characters, and exactly what follows is left. -/
def RoundTrips (items : List Item) : Prop :=
  ∃ texts, items.mapM Item.encode = some texts ∧
    ∀ mem t, decodeAll mem items (texts.flatten ++ t) = (items.zip (texts.map List.length), t)

theorem decodeAll_flatten {items : List Item} {texts : List (List UInt8)}
    (h : items.mapM Item.encode = some texts) (mem : Nat → UInt8) (t : List UInt8) :
    decodeAll mem items (texts.flatten ++ t) = (items.zip (texts.map List.length), t) := by
  induction items generalizing texts with
  | nil =>
    obtain rfl := Option.some.inj h
    rfl
  | cons item items ih =>
    simp only [mapM_cons, Option.bind_eq_bind, Option.bind_eq_some_iff, Option.pure_def,
      Option.some.injEq] at h
    obtain ⟨text, htext, texts, htexts, rfl⟩ := h
    rw [decodeAll, flatten_cons, append_assoc, Item.decode_encode htext]
    dsimp only
    rw [ih htexts]
    rfl

theorem mapM_encode_isSome (items : List Item) :
    (items.mapM Item.encode).isSome ↔ ∀ item ∈ items, item.encode.isSome := by
  induction items with
  | nil => simp
  | cons item items ih =>
    rw [forall_mem_cons, ← ih, mapM_cons]
    cases item.encode with
    | none => simp
    | some text => cases items.mapM Item.encode <;> simp

/-- Items can be read again if and only if none is a string of 2^28 bytes. -/
theorem items_round_trip_iff (items : List Item) :
    RoundTrips items ↔ ∀ s, .data s ∈ items → s.length < 268435456 := by
  have hsome : (items.mapM Item.encode).isSome ↔ ∀ s, .data s ∈ items → s.length < 268435456 := by
    rw [mapM_encode_isSome]
    refine ⟨fun h s hs => (encode_isSome _).1 (h _ hs) s rfl, fun h item hitem => ?_⟩
    rw [encode_isSome]
    rintro s rfl
    exact h s hitem
  rw [← hsome, Option.isSome_iff_exists]
  constructor
  · rintro ⟨texts, htexts, -⟩
    exact ⟨texts, htexts⟩
  · rintro ⟨texts, htexts⟩
    exact ⟨texts, htexts, decodeAll_flatten htexts⟩

theorem long_item_lost : ¬ RoundTrips [.data (List.replicate 268435456 0)] := by
  rintro ⟨texts, htexts, -⟩
  rw [mapM_cons, Item.encode, encode_eq, length_replicate, if_neg (Nat.lt_irrefl _)] at htexts
  cases htexts

/-- Three items, the middle one without bytes. -/
example : RoundTrips [.type 130, .data [], .data [1, 2, 3, 4]] ∧
    encodeDataType 130 = ([61, 61, 67], 189) ∧ encode ([1, 2, 3, 4].getD · 0) 4 = some ([65, 81, 73, 68, 66, 65, 61, 61], 8) := by
  refine ⟨⟨_, rfl, decodeAll_flatten rfl⟩, ?_, ?_⟩ <;> decide

end SNet.C4SNet.Base64
