import SNetRts.Lib.RingIter
import Mathlib.Data.Fintype.Defs
import Mathlib.Logic.Function.Basic

/-!
# Streams of the pthread layer

`threading/pthread/stream.c` and the sets of `streamset.c`, for any number of threads. A step is one
section under the lock of a stream, with the lock of the thread that it takes inside, or one section
under the lock of a thread.

A stream has one descriptor for reading, which the stream stands for here, and one writer. Every set of
descriptors belongs to a thread. The thread that reads a stream is at one place of its code, `Pc`; a
writer runs by itself, whatever thread it is in. A waiting thread or writer has a flag for a signal that
it has got; it may also go on without one, as `pthread_cond_wait` allows.

Replacing the stream of a descriptor and the callback of a read are left out.
-/

namespace SNet.Threading

open Function (update)

open Lib

/-- `SNET_STREAM_DEFAULT_CAPACITY` -/
def defaultCapacity : Nat := 16

/-- `snet_stream_t` -/
structure Stream (R : Type*) where
  buffer : Nat → Option R
  size : Nat
  head : Nat
  tail : Nat
  count : Nat
  isPoll : Bool
  size_pos : 0 < size

namespace Stream

variable {R : Type*}

/-- `SNetStreamCreate` -/
def create (capacity : Int) : Stream R where
  buffer _ := none
  size := if capacity > 0 then capacity.toNat else defaultCapacity
  head := 0
  tail := 0
  count := 0
  isPoll := false
  size_pos := by
    split
    case isTrue h => exact Int.lt_toNat.2 h
    case isFalse => decide

variable (s : Stream R)

/-- What `SNetStreamRead` takes out of the buffer, and the stream then. -/
def get : Option R × Stream R :=
  (s.buffer s.head,
    { s with
      buffer := update s.buffer s.head none
      head := (s.head + 1) % s.size
      count := s.count - 1 })

/-- The stream when `SNetStreamWrite` has put an item into it. -/
def put (item : R) : Stream R :=
  { s with
    buffer := update s.buffer s.tail (some item)
    tail := (s.tail + 1) % s.size
    count := s.count + 1 }

/-- `SNetStreamPeek` -/
def peek : Option R := if s.count > 0 then s.buffer s.head else none

def setPoll (b : Bool) : Stream R := { s with isPoll := b }

end Stream

/-- Where the thread of a set of descriptors is. -/
inductive Pc (D K : Type*) where
  | idle
  /-- At `pthread_cond_wait` on `notempty`. -/
  | reading (sd : D) (signalled : Bool)
  /-- The first loop of `SNetStreamPoll`. -/
  | fast (set : K) (cur result : Option D)
  /-- About to set `wakeup_sd` to `NULL`. -/
  | reset (set : K)
  /-- The loop that sets `is_poll`. -/
  | register (set : K) (cur : Option D) (cnt : Nat)
  /-- About to look at `wakeup_sd`. -/
  | check (set : K) (cnt : Nat)
  /-- At `pthread_cond_wait` on `pollcond`. -/
  | sleeping (set : K) (cnt : Nat) (signalled : Bool)
  /-- The loop that sets `is_poll` to 0. -/
  | clear (set : K) (result : D) (cur : Option D) (cnt : Int)
  /-- `SNetStreamPoll` has returned. -/
  | polled (set : K) (result : D)
deriving DecidableEq

namespace Pc

variable {D K : Type*} [DecidableEq D]

/-- The thread gets a signal of `notempty` of a stream. -/
def signalNotempty (sd : D) : Pc D K → Pc D K
  | .reading sd' signalled => .reading sd' (signalled || sd' = sd)
  | pc => pc

/-- The thread gets a signal of its `pollcond`. -/
def signalPoll : Pc D K → Pc D K
  | .sleeping set cnt _ => .sleeping set cnt true
  | pc => pc

end Pc

/-- Where a writer is. -/
inductive Writer (R : Type*) where
  | idle
  /-- In `SNetStreamTryWrite`, which has found room. -/
  | trying (item : R)
  /-- At `pthread_cond_wait` on `notfull`. -/
  | waiting (item : R) (signalled : Bool)

/-- The writer gets a signal of `notfull`. -/
def Writer.signal {R : Type*} : Writer R → Writer R
  | .waiting item _ => .waiting item true
  | w => w

structure State (D T K R : Type*) where
  stream : D → Stream R
  /-- The links of the sets. -/
  next : D → Option D
  set : K → Option D
  wakeup : T → Option D
  pc : T → Pc D K
  writer : D → Writer R
  /-- How often a descriptor was put into a set, a bound for the length of the sets. -/
  puts : Nat
  /-- What has been written to a stream and what has been read. -/
  written : D → List R
  got : D → List R

inductive Act (D T K R : Type*) where
  | read (sd : D)
  | poll (k : K)
  /-- The thread goes on in its call. -/
  | run (t : T)
  /-- `SNetStreamsetPut` -/
  | streamsetPut (k : K) (sd : D)
  /-- `SNetStreamsetRemove` -/
  | streamsetRemove (k : K) (sd : D)
  | write (sd : D) (item : R)
  | tryWrite (sd : D) (item : R)
  /-- The writer goes on in its call. -/
  | runWriter (sd : D)

section Steps

variable {D T K R : Type*} [DecidableEq D] [DecidableEq T] [DecidableEq K]
  (thr : D → T) (owner : K → T)

namespace State

/-- The streams of capacities `capacity`, and empty sets. -/
def init (capacity : D → Int) : State D T K R where
  stream sd := .create (capacity sd)
  next _ := none
  set _ := none
  wakeup _ := none
  pc _ := .idle
  writer _ := .idle
  puts := 0
  written _ := []
  got _ := []

variable (s : State D T K R)

def members (k : K) : List D := ringMembers s.next (s.set k) s.puts

def goTo (t : T) (pc : Pc D K) : State D T K R := { s with pc := update s.pc t pc }

def setStream (sd : D) (x : Stream R) : State D T K R :=
  { s with stream := update s.stream sd x }

def setWakeup (t : T) (sd : Option D) : State D T K R :=
  { s with wakeup := update s.wakeup t sd }

/-- `pthread_cond_signal(&s->notempty)` -/
def signalNotempty (sd : D) : State D T K R :=
  s.goTo (thr sd) ((s.pc (thr sd)).signalNotempty sd)

/-- `pthread_cond_signal(&s->notfull)` -/
def signalNotfull (sd : D) : State D T K R :=
  { s with writer := update s.writer sd (s.writer sd).signal }

/-- The section under `cons->lock` in `SNetStreamWrite`. -/
def wakeUp (sd : D) : State D T K R :=
  match s.wakeup (thr sd) with
  | none => (s.goTo (thr sd) (s.pc (thr sd)).signalPoll).setWakeup (thr sd) (some sd)
  | some _ => s

/-- A turn of the loop of `SNetStreamRead`, and what follows it in the section. -/
def doRead (sd : D) : State D T K R :=
  let x := s.stream sd
  if x.count = 0 then s.goTo (thr sd) (.reading sd false)
  else
    let s' := (s.goTo (thr sd) .idle).setStream sd x.get.2
    let s' := { s' with got := update s'.got sd (s'.got sd ++ x.get.1.toList) }
    if x.get.2.count = x.size - 1 then s'.signalNotfull sd else s'

/-- A turn of the loop of `SNetStreamWrite`, and what follows it in the section. -/
def doWrite (sd : D) (item : R) : State D T K R :=
  let x := s.stream sd
  if x.count = x.size then { s with writer := update s.writer sd (.waiting item false) }
  else
    let s' := s.setStream sd (x.put item)
    let s' := { s' with writer := update s'.writer sd .idle }
    let s' := { s' with written := update s'.written sd (s'.written sd ++ [item]) }
    let s' := if (x.put item).count = 1 then s'.signalNotempty thr sd else s'
    if x.isPoll then (s'.setStream sd ((x.put item).setPoll false)).wakeUp thr sd else s'

/-- The end of `SNetStreamPoll`. -/
def returned (t : T) (k : K) (result : D) : State D T K R :=
  { s.goTo t (.polled k result) with set := update s.set k (some result) }

/-- `SNetStreamIterHasNext` and `SNetStreamIterNext`: the next descriptor with what the loop does with
it, or what comes after the loop. -/
def iterate (k : K) (cur : Option D) (body : D → State D T K R) (after : State D T K R) :
    Outcome (State D T K R) :=
  if ringHasNext (s.set k) cur then
    match ringNext s.next (s.set k) cur with
    | none => .fault
    | some sd => .done (body sd)
  else .done after

/-- A thread looks at `wakeup_sd`. -/
def checkWakeup (t : T) (k : K) (cnt : Nat) : State D T K R :=
  match s.wakeup t with
  | none => s.goTo t (.sleeping k cnt false)
  | some sd => (s.goTo t (.clear k sd none cnt)).setWakeup t none

/-- A step of a thread in its call; `self` is the thread. -/
def run (self : T) : Outcome (State D T K R) :=
  match s.pc self with
  | .idle => .blocked
  | .reading sd _ => .done (s.doRead thr sd)
  | .fast k cur result =>
    s.iterate k cur
      (fun sd => s.goTo self (.fast k (some sd) (if (s.stream sd).count > 0 then some sd else result)))
      (match result with
        | some sd => s.returned self k sd
        | none => s.goTo self (.reset k))
  | .reset k => .done ((s.goTo self (.register k none 0)).setWakeup self none)
  | .register k cur cnt =>
    s.iterate k cur
      (fun sd =>
        if (s.stream sd).count > 0 then
          (s.goTo self (.check k cnt)).setWakeup self ((s.wakeup self).or (some sd))
        else
          (s.goTo self (.register k (some sd) (cnt + 1))).setStream sd ((s.stream sd).setPoll true))
      (s.goTo self (.check k cnt))
  | .check k cnt => .done (s.checkWakeup self k cnt)
  | .sleeping k cnt _ => .done (s.checkWakeup self k cnt)
  | .clear k result cur cnt =>
    s.iterate k cur
      (fun sd =>
        let s' := s.setStream sd ((s.stream sd).setPoll false)
        if cnt - 1 = 0 then s'.returned self k result
        else s'.goTo self (.clear k result (some sd) (cnt - 1)))
      (s.returned self k result)
  | .polled _ _ => .done (s.goTo self .idle)

end State

def step (s : State D T K R) : Act D T K R → Outcome (State D T K R)
  | .read sd => if s.pc (thr sd) = .idle then .done (s.doRead thr sd) else .blocked
  | .poll k =>
    if s.pc (owner k) = .idle then
      match s.set k with
      | none => .fault
      | some _ => .done (s.goTo (owner k) (.fast k none none))
    else .blocked
  | .run t => s.run thr t
  | .streamsetPut k sd =>
    if s.pc (owner k) = .idle then
      let r := ringPut s.next (s.set k) sd
      .done { s with next := r.1, set := update s.set k r.2, puts := s.puts + 1 }
    else .blocked
  | .streamsetRemove k sd =>
    if s.pc (owner k) = .idle then
      (ringRemove s.next (s.set k) sd s.puts).bind fun r =>
        .done { s with next := r.1, set := update s.set k r.2 }
    else .blocked
  | .write sd item =>
    match s.writer sd with
    | .idle => .done (s.doWrite thr sd item)
    | _ => .blocked
  | .tryWrite sd item =>
    match s.writer sd with
    | .idle =>
      if (s.stream sd).count = (s.stream sd).size then .done s
      else .done { s with writer := update s.writer sd (.trying item) }
    | _ => .blocked
  | .runWriter sd =>
    match s.writer sd with
    | .idle => .blocked
    | .trying item => .done (s.doWrite thr sd item)
    | .waiting item _ => .done (s.doWrite thr sd item)

/-- What the callers keep to: a thread puts its own descriptors into its sets, no descriptor into two
sets or twice into one, and does not poll an empty set or remove from it. -/
def Callers (s : State D T K R) : Act D T K R → Prop
  | .streamsetPut k sd => thr sd = owner k ∧ ∀ k', sd ∉ s.members k'
  | .streamsetRemove k _ | .poll k => s.set k ≠ none
  | _ => True

instance [Fintype K] (s : State D T K R) (a : Act D T K R) : Decidable (Callers thr owner s a) :=
  match a with
  | .streamsetPut k sd => inferInstanceAs (Decidable (thr sd = owner k ∧ ∀ k', sd ∉ s.members k'))
  | .streamsetRemove k _ | .poll k => inferInstanceAs (Decidable (s.set k ≠ none))
  | .read _ | .run _ | .write _ _ | .tryWrite _ _ | .runWriter _ => inferInstanceAs (Decidable True)

end Steps

end SNet.Threading
