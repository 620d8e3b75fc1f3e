import SNetRts.Common.ListTemplate
import SNetRts.Lib.Assoc

/-!
# The map template

`include/map-template.c`: a map is an array of keys and an array of values, both with room for `size`
entries of which the first `used` are in use, in no order. A key is looked for from the front; `Take`
puts the last entry in the place of the one that goes. The macros of an instance, how keys are compared
and copied, are a parameter. A result of `none` is a failed assertion, an access outside of an array,
or a slot that has never been written.
-/

namespace SNet

open Lib List

/-- `MAP_KEY_CMP` and `MAP_KEY_COPY_FUN` of an instance of the template. -/
structure MapKey (K : Type) where
  cmp : K → K → Bool
  copyFun : K → K
  equivalence : Equivalence fun k k' => cmp k k' = true
  cmp_copyFun : ∀ k, cmp (copyFun k) k

/-- Keys that are compared with `==` and copied with `memcpy`. -/
def MapKey.ofEq (K : Type) [DecidableEq K] : MapKey K where
  cmp k k' := k = k'
  copyFun := id
  equivalence := by
    constructor
    · exact fun k => decide_eq_true rfl
    · exact fun h => decide_eq_true (of_decide_eq_true h).symm
    · exact fun h h' => decide_eq_true ((of_decide_eq_true h).trans (of_decide_eq_true h'))
  cmp_copyFun := fun k => decide_eq_true rfl

/-- `snet_map_t`. -/
structure SNetMap (K V : Type) where
  size : Int
  used : Int
  keys : List (Option K)
  values : List (Option V)
deriving DecidableEq

/-- `array[i]`. -/
def getSlot {α : Type} (array : List (Option α)) (i : Int) : Option α :=
  if 0 ≤ i then (array[i.toNat]?).join else none

/-- `array[i] = x`. -/
def setSlot {α : Type} (array : List (Option α)) (i : Int) (x : α) : Option (List (Option α)) :=
  if 0 ≤ i ∧ i < array.length then some (array.set i.toNat (some x)) else none

namespace SNetMap

variable {K V : Type} (c : MapKey K) (valCmp : V → V → Bool)

/-- `Create` of the given entries. -/
def create (entries : List (K × V)) : SNetMap K V where
  size := entries.length
  used := entries.length
  keys := entries.map fun e => some e.1
  values := entries.map fun e => some e.2

/-- `Copy`, with the copy functions of the keys and of the values. -/
def copy (copyVal : V → V) (m : SNetMap K V) : Option (SNetMap K V) := do
  let keys ← alloc K m.used
  let keys ← memcpy keys 0 m.keys 0 m.used
  let values ← alloc V m.used
  let values ← memcpy values 0 m.values 0 m.used
  return ⟨m.used, m.used, keys.map (Option.map c.copyFun), values.map (Option.map copyVal)⟩

/-- `Size`. -/
def mapSize (m : SNetMap K V) : Int := m.used

/-- The loop of `Find` from the slot `i` on, with `n` slots left. -/
def findFrom (m : SNetMap K V) (key : K) : Nat → Int → Option Int
  | 0, _ => some (-1)
  | n + 1, i => do
    let k ← getSlot m.keys i
    if c.cmp k key then return i else findFrom m key n (i + 1)

/-- `Find`. -/
def find (m : SNetMap K V) (key : K) : Option Int := m.findFrom c key m.used.toNat 0

/-- The loop of `FindVal` from the slot `i` on, with `n` slots left. -/
def findValFrom (m : SNetMap K V) (val : V) (key : K) : Nat → Int → Option K
  | 0, _ => some key
  | n + 1, i => do
    let v ← getSlot m.values i
    if valCmp v val then getSlot m.keys i else findValFrom m val key n (i + 1)

/-- `FindVal`. -/
def findVal (m : SNetMap K V) (val : V) (key : K) : Option K :=
  m.findValFrom valCmp val key m.used.toNat 0

/-- `Set`. -/
def set (m : SNetMap K V) (key : K) (val : V) : Option (SNetMap K V) := do
  let i ← m.find c key
  if i ≠ -1 then
    let values ← setSlot m.values i val
    return { m with values }
  else if m.used < m.size then
    let keys ← setSlot m.keys m.used key
    let values ← setSlot m.values m.used val
    return { m with keys, values, used := m.used + 1 }
  else
    let keys ← alloc K (m.size + 1)
    let values ← alloc V (m.size + 1)
    let keys ← memcpy keys 0 m.keys 0 m.size
    let values ← memcpy values 0 m.values 0 m.size
    let keys ← setSlot keys m.used key
    let values ← setSlot values m.used val
    return ⟨m.size + 1, m.used + 1, keys, values⟩

/-- `Get`. -/
def get (m : SNetMap K V) (key : K) : Option V := do
  let i ← m.find c key
  if i ≠ -1 then getSlot m.values i else none

/-- `Take`. -/
def take (m : SNetMap K V) (key : K) : Option (V × SNetMap K V) := do
  let i ← m.find c key
  if i ≠ -1 then
    let result ← getSlot m.values i
    let used := m.used - 1
    let keys ← setSlot m.keys i (← getSlot m.keys used)
    let values ← setSlot m.values i (← getSlot m.values used)
    return (result, { m with keys, values, used })
  else none

/-- `Contains`. -/
def contains (m : SNetMap K V) (key : K) : Option Bool := do
  let i ← m.find c key
  return i ≠ -1

/-- `Rename`. -/
def rename (m : SNetMap K V) (oldKey newKey : K) : Option (SNetMap K V) := do
  let i ← m.find c oldKey
  if i ≠ -1 then
    let keys ← setSlot m.keys i newKey
    return { m with keys }
  else none

/-! ## The entries of a map -/

/-- The map has the entries `es`, in the order of its slots. -/
structure Holds (m : SNetMap K V) (es : List (K × V)) : Prop where
  used : m.used = es.length
  keys : ∀ (i : Nat) (e : K × V), es[i]? = some e → m.keys[i]? = some (some e.1)
  values : ∀ (i : Nat) (e : K × V), es[i]? = some e → m.values[i]? = some (some e.2)
  size_keys : m.keys.length = m.size
  size_values : m.values.length = m.size

namespace Holds

variable {c : MapKey K} {valCmp : V → V → Bool} {m m' : SNetMap K V} {es : List (K × V)} {key : K} {val : V}

theorem create (es : List (K × V)) : (SNetMap.create es).Holds es where
  used := rfl
  keys i e he := by simp [SNetMap.create, he]
  values i e he := by simp [SNetMap.create, he]
  size_keys := by simp [SNetMap.create]
  size_values := by simp [SNetMap.create]

theorem slot_key (h : m.Holds es) {i : Nat} {e : K × V} (he : es[i]? = some e) :
    getSlot m.keys i = some e.1 := by
  rw [getSlot, if_pos (Int.natCast_nonneg i), Int.toNat_natCast, h.keys i e he]
  rfl

theorem slot_value (h : m.Holds es) {i : Nat} {e : K × V} (he : es[i]? = some e) :
    getSlot m.values i = some e.2 := by
  rw [getSlot, if_pos (Int.natCast_nonneg i), Int.toNat_natCast, h.values i e he]
  rfl

theorem length_le_keys (h : m.Holds es) : es.length ≤ m.keys.length := by
  rcases Nat.eq_zero_or_pos es.length with h0 | hpos
  · omega
  · have hlast := getElem?_eq_getElem (l := es) (i := es.length - 1) (by omega)
    obtain ⟨hlt, -⟩ := List.getElem?_eq_some_iff.1 (h.keys _ _ hlast)
    omega

theorem used_le_size (h : m.Holds es) : m.used ≤ m.size := by
  have := h.length_le_keys
  have := h.size_keys
  rw [h.used]
  omega

theorem unique {es' : List (K × V)} (h : m.Holds es) (h' : m.Holds es') : es = es' := by
  have hlen : es.length = es'.length := by
    have := h.used
    have := h'.used
    omega
  apply ext_getElem hlen
  intro i hi hi'
  have he := getElem?_eq_getElem hi
  have he' := getElem?_eq_getElem hi'
  apply Prod.ext
  · have hk := h.slot_key he
    rw [h'.slot_key he'] at hk
    exact (Option.some.inj hk).symm
  · have hv := h.slot_value he
    rw [h'.slot_value he'] at hv
    exact (Option.some.inj hv).symm

/-! ### Looking for a key -/

theorem findFrom (h : m.Holds es) (key : K) (pre post : List (K × V)) (hes : es = pre ++ post) :
    (m.findFrom c key post.length pre.length = some (-1) ∧ ∀ e ∈ post, c.cmp e.1 key = false) ∨
      ∃ mid e rest, post = mid ++ e :: rest ∧ c.cmp e.1 key ∧
        m.findFrom c key post.length pre.length = some ↑(pre.length + mid.length) := by
  induction post generalizing pre with
  | nil => exact .inl ⟨rfl, nofun⟩
  | cons e post ih =>
    have hread : getSlot m.keys pre.length = some e.1 := by
      apply h.slot_key
      rw [hes, getElem?_append_right (Nat.le_refl _), Nat.sub_self]
      rfl
    rw [length_cons, SNetMap.findFrom, hread, Option.bind_eq_bind, Option.bind_some]
    rcases hcmp : c.cmp e.1 key with _ | _
    · have hlen : ((pre.length : Nat) : Int) + 1 = ((pre ++ [e]).length : Nat) := by simp
      rw [if_neg (by simp), hlen]
      rcases ih (pre ++ [e]) (by rw [hes]; simp) with ⟨hfind, hnone⟩ | ⟨mid, e', rest, rfl, he', hfind⟩
      · refine .inl ⟨hfind, ?_⟩
        intro e' he'
        rcases mem_cons.1 he' with rfl | he'
        · exact hcmp
        · exact hnone e' he'
      · refine .inr ⟨e :: mid, e', rest, rfl, he', ?_⟩
        rw [hfind, length_append, length_cons, length_cons, length_nil]
        congr 2
        omega
    · exact .inr ⟨[], e, post, rfl, hcmp, by simp⟩

theorem find (h : m.Holds es) (key : K) :
    (m.find c key = some (-1) ∧ ∀ e ∈ es, c.cmp e.1 key = false) ∨
      ∃ pre e post, es = pre ++ e :: post ∧ c.cmp e.1 key ∧ m.find c key = some ↑pre.length := by
  have hfind := h.findFrom (c := c) key [] es rfl
  rw [SNetMap.find, h.used, Int.toNat_natCast]
  simpa using hfind

theorem findValFrom (h : m.Holds es) (val : V) (key : K) (pre post : List (K × V)) (hes : es = pre ++ post) :
    (m.findValFrom valCmp val key post.length pre.length = some key ∧ ∀ e ∈ post, valCmp e.2 val = false) ∨
      ∃ e ∈ post, valCmp e.2 val ∧ m.findValFrom valCmp val key post.length pre.length = some e.1 := by
  induction post generalizing pre with
  | nil => exact .inl ⟨rfl, nofun⟩
  | cons e post ih =>
    have he : es[pre.length]? = some e := by
      rw [hes, getElem?_append_right (Nat.le_refl _), Nat.sub_self]
      rfl
    rw [length_cons, SNetMap.findValFrom, h.slot_value he, Option.bind_eq_bind, Option.bind_some]
    rcases hcmp : valCmp e.2 val with _ | _
    · have hlen : ((pre.length : Nat) : Int) + 1 = ((pre ++ [e]).length : Nat) := by simp
      rw [if_neg (by simp), hlen]
      rcases ih (pre ++ [e]) (by rw [hes]; simp) with ⟨hfind, hnone⟩ | ⟨e', hmem, he', hfind⟩
      · refine .inl ⟨hfind, ?_⟩
        intro e' he'
        rcases mem_cons.1 he' with rfl | he'
        · exact hcmp
        · exact hnone e' he'
      · exact .inr ⟨e', mem_cons_of_mem _ hmem, he', hfind⟩
    · exact .inr ⟨e, mem_cons_self, hcmp, by rw [if_pos rfl, h.slot_key he]⟩

theorem findVal (h : m.Holds es) (val : V) (key : K) :
    (m.findVal valCmp val key = some key ∧ ∀ e ∈ es, valCmp e.2 val = false) ∨
      ∃ e ∈ es, valCmp e.2 val ∧ m.findVal valCmp val key = some e.1 := by
  have hfind : (m.findValFrom valCmp val key es.length ([] : List (K × V)).length = some key ∧ _) ∨ _ :=
    h.findValFrom val key [] es rfl
  rw [SNetMap.findVal, h.used, Int.toNat_natCast]
  simpa using hfind

/-! ### What an operation leaves -/

theorem getElem?_middle {α : Type} {pre post : List α} {x y : α} {i : Nat} :
    (pre ++ y :: post)[i]? = if i = pre.length then some y else (pre ++ x :: post)[i]? := by
  rcases Nat.lt_trichotomy i pre.length with hlt | rfl | hgt
  · rw [if_neg (by omega), getElem?_append_left hlt, getElem?_append_left hlt]
  · rw [if_pos rfl, getElem?_append_right (Nat.le_refl _), Nat.sub_self]
    rfl
  · obtain ⟨n, hn⟩ : ∃ n, i - pre.length = n + 1 := ⟨i - pre.length - 1, by omega⟩
    rw [if_neg (by omega), getElem?_append_right (by omega), getElem?_append_right (by omega), hn]
    rfl

theorem setSlot_of_lt {α : Type} {array : List (Option α)} {i : Nat} (hi : i < array.length) (x : α) :
    setSlot array i x = some (array.set i (some x)) := by
  rw [setSlot, if_pos ⟨Int.natCast_nonneg i, Int.ofNat_lt.2 hi⟩, Int.toNat_natCast]

theorem alloc_natCast (α : Type) (n : Nat) : alloc α n = some (List.replicate n none) := by
  rw [alloc, if_pos (Int.natCast_nonneg n), Int.toNat_natCast]

theorem memcpy_replicate {α : Type} {array : List (Option α)} {n k : Nat} (hn : n ≤ array.length) :
    memcpy (List.replicate (n + k) none) 0 array 0 n = some (array.take n ++ List.replicate k none) := by
  rw [memcpy, if_pos (by simp; omega)]
  simp [drop_replicate]

theorem setKey {pre post : List (K × V)} {e : K × V} (h : m.Holds (pre ++ e :: post)) (key : K) :
    ∃ keys, setSlot m.keys pre.length key = some keys ∧
      Holds { m with keys } (pre ++ (key, e.2) :: post) := by
  have hlen := h.length_le_keys
  have hlt : pre.length < m.keys.length := by
    rw [length_append, length_cons] at hlen
    omega
  refine ⟨_, setSlot_of_lt hlt key, ?_, ?_, ?_, ?_, h.size_values⟩
  · rw [h.used]
    simp
  · intro i e' he'
    rw [getElem?_middle (x := e)] at he'
    rw [getElem?_set]
    split at he'
    case isTrue hi =>
      cases he'
      rw [if_pos hi.symm, if_pos hlt]
    case isFalse hi =>
      rw [if_neg (Ne.symm hi)]
      exact h.keys i e' he'
  · intro i e' he'
    rw [getElem?_middle (x := e)] at he'
    split at he'
    case isTrue hi =>
      cases he'
      subst hi
      exact h.values pre.length e (by simp)
    case isFalse hi => exact h.values i e' he'
  · rw [length_set]
    exact h.size_keys

theorem setValue {pre post : List (K × V)} {e : K × V} (h : m.Holds (pre ++ e :: post)) (val : V) :
    ∃ values, setSlot m.values pre.length val = some values ∧
      Holds { m with values } (pre ++ (e.1, val) :: post) := by
  have hlen := h.length_le_keys
  have hlt : pre.length < m.values.length := by
    have := h.size_keys
    have := h.size_values
    rw [length_append, length_cons] at hlen
    omega
  refine ⟨_, setSlot_of_lt hlt val, ?_, ?_, ?_, h.size_keys, ?_⟩
  · rw [h.used]
    simp
  · intro i e' he'
    rw [getElem?_middle (x := e)] at he'
    split at he'
    case isTrue hi =>
      cases he'
      subst hi
      exact h.keys pre.length e (by simp)
    case isFalse hi => exact h.keys i e' he'
  · intro i e' he'
    rw [getElem?_middle (x := e)] at he'
    rw [getElem?_set]
    split at he'
    case isTrue hi =>
      cases he'
      rw [if_pos hi.symm, if_pos hlt]
    case isFalse hi =>
      rw [if_neg (Ne.symm hi)]
      exact h.values i e' he'
  · rw [length_set]
    exact h.size_values

theorem concat {keys : List (Option K)} {values : List (Option V)} {size : Int} (h : m.Holds es)
    (hkeys : m.keys <+: keys) (hvalues : m.values <+: values) (hsize : keys.length = size)
    (hlen : values.length = keys.length) (hroom : es.length < keys.length) (key : K) (val : V) :
    ∃ keys' values', setSlot keys m.used key = some keys' ∧ setSlot values m.used val = some values' ∧
      Holds ⟨size, m.used + 1, keys', values'⟩ (es ++ [(key, val)]) := by
  rw [h.used]
  refine ⟨_, _, setSlot_of_lt hroom key, setSlot_of_lt (hlen ▸ hroom) val, ?_, ?_, ?_, ?_, ?_⟩
  · simp
  · intro i e he
    rw [getElem?_set]
    rcases Nat.lt_or_ge i es.length with hlt | hge
    · rw [getElem?_append_left hlt] at he
      rw [if_neg (by omega)]
      obtain ⟨hi, hget⟩ := List.getElem?_eq_some_iff.1 (h.keys i e he)
      rw [prefix_iff_getElem?.1 hkeys i hi, hget]
    · obtain ⟨hi, hget⟩ := List.getElem?_eq_some_iff.1 he
      rw [length_append, length_singleton] at hi
      obtain rfl : i = es.length := by omega
      rw [getElem_append_right (Nat.le_refl _)] at hget
      rw [if_pos rfl, if_pos hroom, ← hget]
      simp
  · intro i e he
    rw [getElem?_set]
    rcases Nat.lt_or_ge i es.length with hlt | hge
    · rw [getElem?_append_left hlt] at he
      rw [if_neg (by omega)]
      obtain ⟨hi, hget⟩ := List.getElem?_eq_some_iff.1 (h.values i e he)
      rw [prefix_iff_getElem?.1 hvalues i hi, hget]
    · obtain ⟨hi, hget⟩ := List.getElem?_eq_some_iff.1 he
      rw [length_append, length_singleton] at hi
      obtain rfl : i = es.length := by omega
      rw [getElem_append_right (Nat.le_refl _)] at hget
      rw [if_pos rfl, if_pos (hlen ▸ hroom), ← hget]
      simp
  · rw [length_set]
    exact hsize
  · rw [length_set, hlen]
    exact hsize

theorem swap {pre post : List (K × V)} {e last : K × V} (h : m.Holds (pre ++ e :: post))
    (hlast : (pre ++ e :: post).getLast? = some last) :
    ∃ keys values, setSlot m.keys pre.length last.1 = some keys ∧
      setSlot m.values pre.length last.2 = some values ∧
        Holds { m with keys, values, used := m.used - 1 } (swapErase (pre ++ e :: post) pre.length) := by
  obtain ⟨keys, hkeys, h₁⟩ := h.setKey last.1
  obtain ⟨values, hvalues, h₂⟩ := h₁.setValue last.2
  refine ⟨keys, values, hkeys, hvalues, ?_, ?_, ?_, h₂.size_keys, h₂.size_values⟩
  · rw [length_swapErase]
    show m.used - 1 = _
    rw [h.used]
    simp
    omega
  all_goals
    intro i e' he'
    have hlt : i < (pre ++ e :: post).length - 1 := by
      rw [← length_swapErase (i := pre.length)]
      exact (List.getElem?_eq_some_iff.1 he').1
    rw [getElem?_swapErase (by simp) hlt] at he'
    have hmoved : (pre ++ (last.1, last.2) :: post)[i]? = some e' := by
      rw [getElem?_middle (x := e)]
      split at he'
      case isTrue hi =>
        rw [if_pos hi, ← hlast, getLast?_eq_getElem?]
        exact he'
      case isFalse hi => rwa [if_neg hi]
  · exact h₂.keys i e' hmoved
  · exact h₂.values i e' hmoved

/-! ### One operation -/

theorem set_found {pre post : List (K × V)} {e : K × V} (h : m.Holds (pre ++ e :: post))
    (hfind : m.find c key = some ↑pre.length) (val : V) :
    ∃ m', m.set c key val = some m' ∧ m'.Holds (pre ++ (e.1, val) :: post) := by
  obtain ⟨values, hvalues, hholds⟩ := h.setValue val
  refine ⟨{ m with values }, ?_, hholds⟩
  rw [SNetMap.set, hfind, Option.bind_eq_bind, Option.bind_some, if_pos (by omega), hvalues]
  rfl

theorem set_new (h : m.Holds es) (hfind : m.find c key = some (-1)) (val : V) :
    ∃ m', m.set c key val = some m' ∧ m'.Holds (es ++ [(key, val)]) := by
  have hsize := h.size_keys
  have hused := h.used
  have hlen : m.values.length = m.keys.length := by
    have := h.size_values
    omega
  rw [SNetMap.set, hfind, Option.bind_eq_bind, Option.bind_some, if_neg (by omega)]
  by_cases hroom : m.used < m.size
  · obtain ⟨keys, values, hkeys, hvalues, hholds⟩ :=
      h.concat (prefix_refl _) (prefix_refl _) hsize hlen (by omega) key val
    refine ⟨_, ?_, hholds⟩
    rw [if_pos hroom, hkeys, Option.bind_eq_bind, Option.bind_some, hvalues]
    rfl
  · -- the arrays are full: both are copied to arrays with one slot more
    have hfull := h.used_le_size
    have hsize' : ((m.keys ++ [none]).length : Int) = m.size + 1 := by
      simp
      omega
    obtain ⟨keys, values, hkeys, hvalues, hholds⟩ :=
      h.concat (prefix_append m.keys [none]) (prefix_append m.values [none]) hsize' (by simp; omega)
        (by simp; omega) key val
    refine ⟨_, ?_, hholds⟩
    have hgrow : ∀ {α : Type} (array : List (Option α)), array.length = m.keys.length →
        memcpy (List.replicate (m.keys.length + 1) none) 0 array 0 m.size = some (array ++ [none]) := by
      intro α array harray
      rw [← hsize, memcpy_replicate (k := 1) (Nat.le_of_eq harray.symm),
        take_of_length_le (Nat.le_of_eq harray)]
      rfl
    have halloc : m.size + 1 = ((m.keys.length + 1 : Nat) : Int) := by omega
    rw [if_neg hroom, halloc, alloc_natCast, alloc_natCast]
    simp only [Option.bind_eq_bind, Option.bind_some, hgrow _ rfl, hgrow _ hlen, hkeys, hvalues]
    rfl

theorem get_found {pre post : List (K × V)} {e : K × V} (h : m.Holds (pre ++ e :: post))
    (hfind : m.find c key = some ↑pre.length) : m.get c key = some e.2 := by
  rw [SNetMap.get, hfind, Option.bind_eq_bind, Option.bind_some, if_pos (by omega)]
  exact h.slot_value (by simp)

theorem take_found {pre post : List (K × V)} {e : K × V} (h : m.Holds (pre ++ e :: post))
    (hfind : m.find c key = some ↑pre.length) :
    ∃ m', m.take c key = some (e.2, m') ∧ m'.Holds (swapErase (pre ++ e :: post) pre.length) := by
  obtain ⟨last, hlast⟩ : ∃ last, (pre ++ e :: post).getLast? = some last :=
    ⟨_, getLast?_eq_some_getLast (by simp)⟩
  obtain ⟨keys, values, hkeys, hvalues, hholds⟩ := h.swap hlast
  refine ⟨_, ?_, hholds⟩
  have hused : m.used - 1 = ((pre ++ e :: post).length - 1 : Nat) := by
    rw [h.used]
    simp
    omega
  rw [getLast?_eq_getElem?] at hlast
  have hkey := h.slot_key hlast
  have hvalue := h.slot_value hlast
  rw [← hused] at hkey hvalue
  rw [SNetMap.take, hfind, Option.bind_eq_bind, Option.bind_some, if_pos (by omega),
    h.slot_value (by simp : (pre ++ e :: post)[pre.length]? = some e), Option.bind_eq_bind,
    Option.bind_some]
  simp only [hkey, hvalue, hkeys, hvalues, Option.bind_eq_bind, Option.bind_some]
  rfl

theorem rename_found {pre post : List (K × V)} {e : K × V} (h : m.Holds (pre ++ e :: post))
    (hfind : m.find c key = some ↑pre.length) (newKey : K) :
    ∃ m', m.rename c key newKey = some m' ∧ m'.Holds (pre ++ (newKey, e.2) :: post) := by
  obtain ⟨keys, hkeys, hholds⟩ := h.setKey newKey
  refine ⟨_, ?_, hholds⟩
  rw [SNetMap.rename, hfind, Option.bind_eq_bind, Option.bind_some, if_pos (by omega), hkeys]
  rfl

theorem copy (h : m.Holds es) (copyVal : V → V) :
    ∃ m', m.copy c copyVal = some m' ∧ m'.Holds (es.map fun e => (c.copyFun e.1, copyVal e.2)) := by
  have hkeys := h.length_le_keys
  have hvalues : es.length ≤ m.values.length := by
    have := h.size_keys
    have := h.size_values
    omega
  refine ⟨⟨m.used, m.used, (m.keys.take es.length).map (Option.map c.copyFun),
    (m.values.take es.length).map (Option.map copyVal)⟩, ?_, ?_, ?_, ?_, ?_, ?_⟩
  · have htake : ∀ {α : Type} (array : List (Option α)), es.length ≤ array.length →
        memcpy (List.replicate es.length none) 0 array 0 es.length = some (array.take es.length) := by
      intro α array harray
      have hcopy := memcpy_replicate (k := 0) harray
      rwa [replicate_zero, append_nil] at hcopy
    rw [SNetMap.copy, h.used, alloc_natCast, alloc_natCast]
    simp only [Option.bind_eq_bind, Option.bind_some, htake _ hkeys, htake _ hvalues]
    rfl
  · rw [h.used]
    simp
  · intro i e' he'
    obtain ⟨e, he, rfl⟩ := Option.map_eq_some_iff.1 (getElem?_map .. ▸ he')
    rw [getElem?_map, getElem?_take, if_pos (List.getElem?_eq_some_iff.1 he).1, h.keys i e he]
    rfl
  · intro i e' he'
    obtain ⟨e, he, rfl⟩ := Option.map_eq_some_iff.1 (getElem?_map .. ▸ he')
    rw [getElem?_map, getElem?_take, if_pos (List.getElem?_eq_some_iff.1 he).1, h.values i e he]
    rfl
  · rw [length_map, length_take_of_le hkeys, h.used]
  · rw [length_map, length_take_of_le hvalues, h.used]

end Holds

end SNetMap

end SNet
