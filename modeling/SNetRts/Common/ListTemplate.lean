import SNetRts.Lib.Codec
import SNetRts.Lib.Window

/-!
# The list template

`include/list-template.c` and the loops of `list-template.h`: a list is an array of `size` slots that is
used as a circular buffer, with `used` elements from the slot `start` on. The array is what has been
allocated; a slot is `none` until it is written. A result of `none` is a failed assertion, an access
outside of an array, a division by zero, or a value that has never been written.
-/

namespace SNet

/-- `snet_list_t`. -/
structure SNetList (α : Type) where
  size : Int
  used : Int
  start : Int
  values : List (Option α)
deriving DecidableEq

/-- `memcpy` of `n` slots from `src + first` to `dst + pos`. -/
def memcpy {α : Type} (dst : List (Option α)) (pos : Int) (src : List (Option α)) (first n : Int) :
    Option (List (Option α)) :=
  if 0 ≤ pos ∧ 0 ≤ first ∧ 0 ≤ n ∧ pos + n ≤ dst.length ∧ first + n ≤ src.length then
    some (dst.take pos.toNat ++ (src.drop first.toNat).take n.toNat ++ dst.drop (pos.toNat + n.toNat))
  else none

/-- `SNetMemAlloc` of `n` slots. -/
def alloc (α : Type) (n : Int) : Option (List (Option α)) :=
  if 0 ≤ n then some (List.replicate n.toNat none) else none

namespace SNetList

variable {α σ : Type}

/-- `i % list->size` as an index of the array. -/
def index (l : SNetList α) (i : Int) : Option Nat :=
  if l.size = 0 then none
  else if 0 ≤ i.tmod l.size ∧ i.tmod l.size < l.values.length then some (i.tmod l.size).toNat else none

/-- `list->values[i]`. -/
def read (l : SNetList α) (i : Int) : Option α :=
  if 0 ≤ i then (l.values[i.toNat]?).join else none

/-- `list->values[i % list->size]`. -/
def readMod (l : SNetList α) (i : Int) : Option α := do
  let k ← l.index i
  (l.values[k]?).join

/-- `list->values[i % list->size] = val`. -/
def writeMod (l : SNetList α) (i : Int) (val : α) : Option (SNetList α) := do
  let k ← l.index i
  return { l with values := l.values.set k (some val) }

/-! ## Loops -/

/-- `LIST_FOR_EACH` from the position `ctr` on, with `n` positions left. The body says whether the loop
goes on. -/
def forEachFrom (l : SNetList α) (body : σ → α → σ × Bool) : Nat → Int → σ → Option σ
  | 0, _, s => some s
  | n + 1, ctr, s => do
    let val ← l.readMod (l.start + ctr)
    match body s val with
    | (s, true) => forEachFrom l body n (ctr + 1) s
    | (s, false) => some s

/-- `LIST_FOR_EACH` and `LIST_ENUMERATE`. -/
def forEach (l : SNetList α) (body : σ → α → σ × Bool) (s : σ) : Option σ :=
  l.forEachFrom body l.used.toNat 0 s

/-- `LIST_DEQUEUE_EACH`, at most `n` rounds. -/
def dequeueFuel (body : σ → α → σ × Bool) : Nat → SNetList α → σ → Option (σ × SNetList α)
  | n, l, s =>
    if l.used = 0 then some (s, l)
    else
      match n with
      | 0 => none
      | n + 1 => do
        let val ← l.read l.start
        if l.size = 0 then none
        else
          let l := { l with start := (l.start + 1).tmod l.size, used := l.used - 1 }
          match body s val with
          | (s, true) => dequeueFuel body n l s
          | (s, false) => some (s, l)

/-- `LIST_DEQUEUE_EACH`. -/
def dequeueEach (l : SNetList α) (body : σ → α → σ × Bool) (s : σ) : Option (σ × SNetList α) :=
  dequeueFuel body l.used.toNat l s

/-! ## Operations -/

/-- `Create(size, ...)`. -/
def create (vals : List α) : SNetList α :=
  { size := vals.length, used := vals.length, start := 0, values := vals.map some }

/-- `Copy`: room for `used` slots, and two block copies of `size` slots. -/
def copy (l : SNetList α) : Option (SNetList α) := do
  let values ← alloc α l.used
  let startToArrayEnd := l.size - l.start
  let values ← memcpy values 0 l.values l.start startToArrayEnd
  let values ← memcpy values startToArrayEnd l.values 0 (l.size - startToArrayEnd)
  return { size := l.used, used := l.used, start := 0, values }

/-- `DeepCopy`. -/
def deepCopy (l : SNetList α) (copyfun : α → α) : Option (SNetList α) := do
  let values ← alloc α l.used
  let (_, values) ← l.forEach (fun (i, values) val =>
    ((i + 1, values.set i (some (copyfun val))), true)) (0, values)
  return { size := l.used, used := l.used, start := 0, values }

/-- `Length`. -/
def length (l : SNetList α) : Int := l.used

/-- Moves the elements of a full array to a new one with one more slot, from the slot `first` on. -/
def grow (l : SNetList α) (first : Int) : Option (SNetList α) :=
  if l.used = l.size then do
    let values ← alloc α (l.size + 1)
    let startToArrayEnd := l.used - l.start
    let values ← memcpy values first l.values l.start startToArrayEnd
    let values ← memcpy values (first + startToArrayEnd) l.values 0 (l.used - startToArrayEnd)
    return { l with size := l.size + 1, start := first, values }
  else some l

/-- `AppendStart`. -/
def appendStart (l : SNetList α) (val : α) : Option (SNetList α) := do
  let l ← l.grow 1
  let k ← l.index (l.start + l.size - 1)
  return { l with start := (k : Nat), values := l.values.set k (some val), used := l.used + 1 }

/-- `AppendEnd`. -/
def appendEnd (l : SNetList α) (val : α) : Option (SNetList α) := do
  let l ← l.grow 0
  let l ← l.writeMod (l.start + l.used) val
  return { l with used := l.used + 1 }

/-- `PopStart`. -/
def popStart (l : SNetList α) : Option (α × SNetList α) :=
  if 0 < l.used ∧ l.size ≠ 0 then do
    let l := { l with used := l.used - 1, start := (l.start + 1).tmod l.size }
    let val ← l.readMod (l.start + l.size - 1)
    return (val, l)
  else none

/-- `PopEnd`. -/
def popEnd (l : SNetList α) : Option (α × SNetList α) :=
  if 0 < l.used then do
    let l := { l with used := l.used - 1 }
    let val ← l.readMod (l.start + l.used)
    return (val, l)
  else none

/-- `Contains`. -/
def contains (l : SNetList α) (cmp : α → α → Bool) (val : α) : Option Bool :=
  l.forEach (fun _ tmp => if cmp tmp val then (true, false) else (false, true)) false

/-- `Get`. -/
def get (l : SNetList α) (i : Int) : Option α :=
  if 0 ≤ i ∧ i < l.used then l.readMod (l.start + i) else none

/-- The loop of `Remove` from `i` on, with `n` rounds left. -/
def closeGap (l : SNetList α) : Nat → Int → Option (SNetList α)
  | 0, _ => some l
  | n + 1, i => do
    let next ← l.readMod (l.start + i + 1)
    let l ← l.writeMod (l.start + i) next
    closeGap l n (i + 1)

/-- `Remove`. The result is read from the array without `start`. -/
def remove (l : SNetList α) (i : Int) : Option (α × SNetList α) :=
  if 0 ≤ i ∧ i < l.used then do
    let result ← l.read i
    let l ← l.closeGap (l.used - i).toNat i
    return (result, { l with used := l.used - 1 })
  else none

/-! ## Serialisation -/

/-- The callbacks for integers and for values, each with what reads back what it writes. -/
structure Callbacks (β α : Type) where
  int : Lib.Codec β Int
  value : Lib.Codec β α

/-- `Serialise`: the number of elements and as many slots of the array. -/
def serialise {β : Type} (c : Callbacks β α) (l : SNetList α) : Option (List β) := do
  let vals ← (List.range l.used.toNat).mapM fun (i : Nat) => l.read i
  return c.int.enc l.used ++ vals.flatMap c.value.enc

/-- `Deserialise`: sets the number of elements and the array of `target`. -/
def deserialise {β : Type} (c : Callbacks β α) (target : SNetList α) (buf : List β) :
    Option (SNetList α) := do
  let (used, buf) ← c.int.dec buf
  let _ ← alloc α used
  let (vals, _) ← Lib.decList c.value.dec used.toNat buf
  return { target with used, values := vals.map some }

end SNetList

end SNet
