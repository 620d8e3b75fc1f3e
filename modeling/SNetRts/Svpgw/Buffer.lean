import SNetRts.Lib.Linked
import Mathlib.Data.List.Basic
import Mathlib.Algebra.Group.Nat.Defs

/-!
# Buffers

`svpgw/src/core/buffer.utc`. A buffer is a chain of buckets from `tail`, where elements are popped, to `head`,
where they are pushed; a dynamic one keeps empty buckets in a second chain, and a fixed one is a single bucket
that is its own successor. A bucket that is destroyed is not in the memory any more, and an access to it is a
fault, as is an assertion that fails. Elements are pointers, `NULL` is `none`. Numbers are `unsigned int`.
-/

namespace SNet.Svpgw

open Lib

variable {V : Type}

/-- `snet_buf_bucket_t` -/
structure BufBucket (V : Type) where
  store : Nat → Option V
  next : Option Nat

/-- `snet_buf_iterator_t` -/
structure BufIterator where
  idx : Nat
  bucket : Option Nat
deriving DecidableEq

/-- `struct buffer`. The bucket 0 is `init_bucket`. -/
structure Buffer (V : Type) where
  dynamic : Bool
  sz : Nat
  bucketSz : Nat
  bucketsCnt : Nat
  buckets : Nat → Option (BufBucket V)
  /-- The next bucket that is created. -/
  fresh : Nat
  usedBucketsHead : Option Nat
  emptyBucketsHead : Option Nat
  emptyBucketsTail : Option Nat
  head : BufIterator
  tail : BufIterator

namespace Buffer

/-- `SVPSNETGWRT_BUFFER_DEFAULT_BUCKET_SZ` -/
def DEFAULT_BUCKET_SZ : Nat := 256

/-- A number as an `unsigned int`. -/
def uint (n : Nat) : Nat := n % 2 ^ 32

/-- `SNetBufInit` -/
def init (dynamic : Bool) (sz : UInt32) : Buffer V where
  dynamic := dynamic
  sz := 0
  bucketSz := if 0 < sz.toNat then sz.toNat else DEFAULT_BUCKET_SZ
  bucketsCnt := 0
  buckets := Function.update (fun _ => none) 0 (some ⟨fun _ => none, if dynamic then none else some 0⟩)
  fresh := 1
  usedBucketsHead := some 0
  emptyBucketsHead := none
  emptyBucketsTail := none
  head := ⟨0, some 0⟩
  tail := ⟨0, some 0⟩

section

variable (buf : Buffer V)

/-- `next` of a bucket that has not been destroyed. -/
def link (b : Nat) : Option (Option Nat) := (buf.buckets b).map BufBucket.next

def setNext (b : Nat) (next : Option Nat) : Option (Buffer V) :=
  (buf.buckets b).map fun bucket =>
    { buf with buckets := Function.update buf.buckets b (some { bucket with next }) }

/-- `next` of the last bucket of a chain, if there is one. -/
def setLast (last : Option Nat) (b : Nat) : Option (Buffer V) :=
  match last with
  | some l => buf.setNext l (some b)
  | none => some buf

def load (b idx : Nat) : Option (Option V) :=
  if idx < buf.bucketSz then (buf.buckets b).map fun bucket => bucket.store idx else none

def save (b idx : Nat) (elem : Option V) : Option (Buffer V) :=
  if idx < buf.bucketSz then
    (buf.buckets b).map fun bucket =>
      { buf with
        buckets := Function.update buf.buckets b (some { bucket with store := Function.update bucket.store idx elem }) }
  else none

/-- `create_bucket` -/
def createBucket : Nat × Buffer V :=
  (buf.fresh, { buf with
    buckets := Function.update buf.buckets buf.fresh (some ⟨fun _ => none, none⟩)
    fresh := buf.fresh + 1 })

/-- `destroy_bucket` -/
def destroyBucket (b : Nat) : Buffer V := { buf with buckets := Function.update buf.buckets b none }

/-- Whether `SNetBufPop` destroys an empty bucket. -/
def excess : Bool :=
  let pref := uint (buf.bucketSz + buf.sz * 2)
  let curr := uint (buf.bucketSz * (buf.bucketsCnt + 1))
  decide (pref < uint (curr + 2 ^ 32 - buf.bucketSz))

/-- What `SNetBufPop` does with a bucket that it has emptied. -/
def release (b : Nat) : Option (Buffer V) :=
  let used := if buf.usedBucketsHead = some b then none else buf.usedBucketsHead
  if b ≠ 0 ∧ buf.excess then
    some { buf.destroyBucket b with
      bucketsCnt := uint (buf.bucketsCnt + 2 ^ 32 - 1)
      usedBucketsHead := used }
  else do
    let linked ← buf.setNext b none
    let linked ← linked.setLast buf.emptyBucketsHead b
    return { linked with
      emptyBucketsHead := some b
      emptyBucketsTail := buf.emptyBucketsTail.or (some b)
      usedBucketsHead := used }

/-- `SNetBufPop` -/
def pop : Option (Option V × Buffer V) :=
  if buf.sz = 0 then some (none, buf)
  else do
    let b ← buf.tail.bucket
    let elem ← buf.load b buf.tail.idx
    let idx := buf.tail.idx + 1
    if idx = buf.bucketSz then
      let next ← buf.link b
      let popped := { buf with sz := buf.sz - 1, tail := ⟨0, next⟩ }
      if buf.dynamic then (popped.release b).map (elem, ·)
      else if next = none then none
      else some (elem, popped)
    else some (elem, { buf with sz := buf.sz - 1, tail := ⟨idx, some b⟩ })

/-- The bucket that `SNetBufPush` puts at the head when there is none. -/
def newBucket : Option (Nat × Buffer V) :=
  match buf.emptyBucketsTail with
  | none => some (buf.fresh, { buf.createBucket.2 with bucketsCnt := uint (buf.bucketsCnt + 1) })
  | some b => (buf.link b).map fun next =>
    (b, { buf with
      emptyBucketsTail := next
      emptyBucketsHead := if next = none then none else buf.emptyBucketsHead })

def addBucket : Option (Buffer V) :=
  match buf.head.bucket with
  | some _ => some buf
  | none =>
    if buf.dynamic then do
      let (b, buf) ← buf.newBucket
      let buf ← buf.setLast buf.usedBucketsHead b
      let buf ← buf.setNext b none
      return { buf with
        usedBucketsHead := some b
        head := { buf.head with bucket := some b }
        tail := { buf.tail with bucket := buf.tail.bucket.or (some b) } }
    else none

/-- `SNetBufPush` -/
def push (elem : Option V) : Option (Bool × Buffer V) :=
  if !buf.dynamic && buf.sz = buf.bucketSz then some (false, buf)
  else do
    let buf ← buf.addBucket
    let b ← buf.head.bucket
    let buf ← buf.save b buf.head.idx elem
    let buf := { buf with sz := uint (buf.sz + 1) }
    let idx := buf.head.idx + 1
    if idx = buf.bucketSz then
      let next ← buf.link b
      return (true, { buf with head := ⟨0, next⟩ })
    else return (true, { buf with head := ⟨idx, some b⟩ })

/-- The loop of `SNetBufInitCopy` over the elements of the source. -/
def walk : Nat → BufIterator → Option BufIterator
  | 0, it => some it
  | n + 1, it => do
    let b ← it.bucket
    if it.idx + 1 = buf.bucketSz then
      let next ← buf.link b
      walk n ⟨0, next⟩
    else walk n ⟨it.idx + 1, some b⟩

/-- `SNetBufCreateCopy` and `SNetBufInitCopy` -/
def createCopy (shalow : Bool) : Option (Buffer V) :=
  let copy : Buffer V := init buf.dynamic (UInt32.ofNat buf.bucketSz)
  if shalow then some copy else (buf.walk buf.sz buf.tail).map fun _ => copy

/-- `SNetBufGetSize` -/
def getSize : Nat := buf.sz

/-- What `SNetBufPop` returns when it is called as long as there are elements. -/
def drain : Nat → Buffer V → Option (List (Option V))
  | 0, _ => some []
  | n + 1, buf => do
    let (elem, buf) ← buf.pop
    let elems ← drain n buf
    return elem :: elems

end

/-! ## What it is for -/

inductive Op (V : Type) where
  | push (elem : Option V)
  | pop
  | getSize
  | createCopy (shalow : Bool)

inductive Result (V : Type) where
  | flag (ok : Bool)
  | elem (elem : Option V)
  | size (n : Nat)
  /-- The elements of a copy, in the order in which they are popped. -/
  | copied (elems : List (Option V))
deriving DecidableEq

def exec (buf : Buffer V) : Op V → Option (Result V × Buffer V)
  | .push elem => (buf.push elem).map fun p => (.flag p.1, p.2)
  | .pop => buf.pop.map fun p => (.elem p.1, p.2)
  | .getSize => some (.size buf.getSize, buf)
  | .createCopy shalow => (buf.createCopy shalow).bind fun copy =>
    (drain copy.sz copy).map fun elems => (.copied elems, buf)

/-- What an operation returns and leaves, with `full` elements a fixed buffer is full. -/
def Agrees (dynamic : Bool) (full : Nat) (xs : List (Option V)) (r : Result V) (xs' : List (Option V)) : Op V → Prop
  | .push elem =>
    if dynamic = false ∧ xs.length = full then r = .flag false ∧ xs' = xs
    else r = .flag true ∧ xs' = xs ++ [elem]
  | .pop => ∃ elem, r = .elem elem ∧ (elem = none ↔ xs = []) ∧ xs.head? = elem.map some ∧ xs' = xs.tail
  | .getSize => r = .size xs.length ∧ xs' = xs
  | .createCopy shalow => r = .copied (if shalow then [] else xs) ∧ xs' = xs

/-- The buckets that have not been destroyed are either on the chain from the tail to the head or on the empty
chain, and none of them on both. -/
def Chained (buf : Buffer V) : Prop :=
  ∃ used empty, (used ++ empty).Nodup ∧ (∀ b, buf.buckets b ≠ none ↔ b ∈ used ++ empty) ∧
    Seg buf.link buf.tail.bucket used (if buf.dynamic then none else buf.tail.bucket) ∧
    Seg buf.link buf.emptyBucketsTail empty none ∧ buf.usedBucketsHead = used.getLast? ∧
    buf.emptyBucketsHead = empty.getLast? ∧ (buf.head.bucket = none ∨ buf.head.bucket = used.getLast?)

/-- From here on the buffer is a queue with the elements of the list. -/
def IsFifo (buf : Buffer V) (xs : List (Option V)) : List (Op V) → Prop
  | [] => buf.Chained ∧ buf.getSize = xs.length
  | op :: ops => (buf.Chained ∧ buf.getSize = xs.length) ∧
    ∃ r buf' xs', buf.exec op = some (r, buf') ∧ Agrees buf.dynamic buf.bucketSz xs r xs' op ∧ IsFifo buf' xs' ops

/-- No `NULL` comes out. A dynamic buffer has less than 2^32 elements. There is nothing to be copied, other than by a
shallow copy. -/
def Ok (dynamic : Bool) (xs : List (Option V)) : Op V → Prop
  | .push _ => dynamic = true → xs.length + 1 < 2 ^ 32
  | .pop => xs.head? ≠ some none
  | .getSize => True
  | .createCopy shalow => shalow = false → xs = []

def after (dynamic : Bool) (full : Nat) (xs : List (Option V)) : Op V → List (Option V)
  | .push elem => if dynamic = false ∧ xs.length = full then xs else xs ++ [elem]
  | .pop => xs.tail
  | .getSize | .createCopy _ => xs

def RunOk (dynamic : Bool) (full : Nat) (xs : List (Option V)) : List (Op V) → Prop
  | [] => True
  | op :: ops => Ok dynamic xs op ∧ RunOk dynamic full (after dynamic full xs op) ops

end Buffer

end SNet.Svpgw
