import SNetRts.Stream.Entity
import Mathlib.Data.List.Basic

/-!
# The dispatchers of the stream runtime

`SplitBoxTask`, `StarBoxTask` and `ParallelBoxTask` (`stream/entity/split.c`, `star.c` and
`parallel.c`), each as what it writes for a record and how it goes on. A dispatcher writes to the
instances of its operand, in the order of their creation or of the branches, and, if it is a split
or a star, on a stream of its own to the collector.
-/

namespace SNet.Stream

variable {D Γ : Type}

/-- Where a dispatcher writes: to the collector or to an instance. -/
inductive Target where
  | out
  | inst (k : Nat)
deriving DecidableEq, Repr

abbrev Writes (D Γ : Type) := List (Target × Rec D Γ)

/-- The same record to the instances `0, …, n - 1`. -/
def toInstances (n : Nat) (r : Rec D Γ) : Writes D Γ := (List.range n).map fun k => (.inst k, r)

/-! ## Split -/

/-- `split_arg_t`: the values of the lower and the upper tag. -/
structure SplitArg (D : Type) where
  ltag : D → Int
  utag : D → Int
  isDet : Bool

/-- The locals of `SplitBoxTask`: the tag values of the instances, in the order of their creation,
and the counter. -/
structure SplitBox where
  repos : List Int
  counter : Int
deriving DecidableEq, Repr

def tagRange (lower upper : Int) : List Int :=
  (List.range (upper - lower + 1).toNat).map fun k : Nat => lower + (k : Int)

/-- The loop over the tag values. The instance with index `k` writes to the collector on the stream
`k + 1`. -/
def multicast (d : D) : List Int → List Int → Writes D Γ × List Int
  | [], repos => ([], repos)
  | i :: is, repos =>
    if i ∈ repos then
      let w := multicast d is repos
      ((.inst (repos.idxOf i), .data d) :: w.1, w.2)
    else
      let w := multicast d is (repos ++ [i])
      ((.out, .collect (repos.length + 1)) :: (.inst repos.length, .data d) :: w.1, w.2)

/-- `SplitBoxTask`. -/
def splitBoxTask (arg : SplitArg D) (st : SplitBox) :
    Rec D Γ → Option (Writes D Γ × Next SplitBox)
  | .data d =>
    let w := multicast d (tagRange (arg.ltag d) (arg.utag d)) st.repos
    let sort := if arg.isDet then
        toInstances w.2.length (.sortEnd 0 st.counter) ++ [(.out, .sortEnd 0 st.counter)]
      else []
    some (w.1 ++ sort, .run ⟨w.2, st.counter + 1⟩)
  | .sync input _ => some ([], .replace st input)
  | .sortEnd level num =>
    some (toInstances st.repos.length (.sortEnd (level + 1) num) ++ [(.out, .sortEnd (level + 1) num)],
      .run st)
  | .terminate flag =>
    some (toInstances st.repos.length (.terminate flag) ++ [(.out, .terminate flag)], .stop true)
  | .collect _ => none

/-! ## Star -/

/-- `star_arg_t`: `exits` tells the records that match an exit pattern and its guard; `fromStar`
the streams that have a source, which are those written by a star. -/
structure StarArg (D : Type) where
  exits : D → Bool
  fromStar : StreamId → Bool
  isDet : Bool
  isIncarnate : Bool

/-- The locals of `StarBoxTask`: whether the next instance has been created, `sync_cleanup`, the
counter, and `sarg->input`. -/
structure StarBox where
  next : Bool
  syncCleanup : Bool
  counter : Int
  input : StreamId
deriving DecidableEq, Repr

def toNext (next : Bool) (r : Rec D Γ) : Writes D Γ := if next then [(.inst 0, r)] else []

/-- `StarBoxTask`; `newStream` is the stream on which the incarnate behind a new instance writes to
the collector. -/
def starBoxTask (arg : StarArg D) (newStream : StreamId) (st : StarBox) :
    Rec D Γ → Option (Writes D Γ × Next StarBox)
  | .data d =>
    if arg.exits d && st.syncCleanup then none
    else
      let next := st.next || !arg.exits d
      let send := if arg.exits d then [(.out, .data d)]
        else (if st.next then [] else [(.out, .collect newStream)]) ++ [(.inst 0, .data d)]
      if arg.isDet && !arg.isIncarnate then
        some (send ++ [(.out, .sortEnd 0 st.counter)] ++ toNext next (.sortEnd 0 st.counter),
          .run { st with next, counter := st.counter + 1 })
      else if st.syncCleanup then
        some (send ++ [(.inst 0, .sync st.input none), (.out, .terminate true)], .stop false)
      else some (send, .run { st with next })
  | .sync input outtype =>
    if arg.isIncarnate && arg.fromStar input then
      if st.next then some ([(.inst 0, .sync input outtype), (.out, .terminate true)], .stop true)
      else some ([], .replace { st with syncCleanup := true, input } input)
    else some ([], .replace { st with input } input)
  | .sortEnd level num =>
    let level := if arg.isIncarnate then level else level + 1
    some (toNext st.next (.sortEnd level num) ++ [(.out, .sortEnd level num)], .run st)
  | .terminate flag =>
    some (toNext st.next (.terminate flag) ++ [(.out, .terminate flag)], .stop true)
  | .collect _ => none

/-! ## Parallel -/

/-- `parallel_arg_t`: the number of branches, none of them an initialiser, what `CheckMatch` finds
for a record and a branch (`count`, if `is_match`), and for the outtype of a sync record the
branches whose variants it covers. -/
structure ParallelArg (D Γ : Type) where
  num : Nat
  checkMatch : D → Nat → Option Int
  covers : Γ → Nat → Bool
  isDet : Bool

/-- The loop of `BestMatch`, with `res` and `max`. -/
def bestMatchLoop (counter : Nat → Option Int) : List Nat → Option Nat → Int → Option Nat
  | [], res, _ => res
  | i :: is, res, max =>
    match counter i with
    | some count =>
      if max < count then bestMatchLoop counter is (some i) count
      else bestMatchLoop counter is res max
    | none => bestMatchLoop counter is res max

/-- `BestMatch`. -/
def bestMatch (counter : Nat → Option Int) (num : Nat) : Option Nat :=
  bestMatchLoop counter (List.range num) none (-1)

theorem bestMatchLoop_mem {counter : Nat → Option Int} {is : List Nat} {res : Option Nat} {max : Int}
    {k : Nat} (h : bestMatchLoop counter is res max = some k) : k ∈ is ∨ res = some k := by
  induction is generalizing res max with
  | nil => exact Or.inr h
  | cons i is ih =>
    simp only [bestMatchLoop] at h
    split at h
    · split at h
      · rcases ih h with h | h
        · exact Or.inl (List.mem_cons_of_mem _ h)
        · exact Or.inl (Option.some.inj h ▸ List.mem_cons_self)
      · exact (ih h).imp_left (List.mem_cons_of_mem _)
    · exact (ih h).imp_left (List.mem_cons_of_mem _)

theorem bestMatch_lt {counter : Nat → Option Int} {num k : Nat} (h : bestMatch counter num = some k) :
    k < num :=
  List.mem_range.1 ((bestMatchLoop_mem h).resolve_right nofun)

/-- The locals of `ParallelBoxTask`: the branches whose stream is closed, and the counter. -/
structure ParallelBox where
  closed : List Nat
  counter : Int
deriving DecidableEq, Repr

def toOpen (num : Nat) (closed : List Nat) (r : Rec D Γ) : Writes D Γ :=
  ((List.range num).filter fun k => k ∉ closed).map fun k => (.inst k, r)

/-- What `ParallelBoxTask` does before it reads a record; with one branch it leaves the network. -/
def parallelStart (arg : ParallelArg D Γ) (input : StreamId) : Writes D Γ × Next ParallelBox :=
  let sort := toInstances arg.num (.sortEnd 0 0)
  if arg.num = 1 then (sort ++ [(.inst 0, .sync input none)], .stop false)
  else if arg.num = 0 then (sort, .stop false)
  else (sort, .run ⟨[], 1⟩)

/-- `PutToBuffers`. -/
def putToBuffers (arg : ParallelArg D Γ) (st : ParallelBox) (k : Nat) (r : Rec D Γ) :
    Writes D Γ × ParallelBox :=
  let send := if k ∈ st.closed then [] else [(.inst k, r)]
  if arg.isDet then
    (send ++ toOpen arg.num st.closed (.sortEnd 0 st.counter), { st with counter := st.counter + 1 })
  else (send, st)

/-- `ParallelBoxTask`. -/
def parallelBoxTask (arg : ParallelArg D Γ) (st : ParallelBox) :
    Rec D Γ → Option (Writes D Γ × Next ParallelBox)
  | .data d =>
    match bestMatch (arg.checkMatch d) arg.num with
    | none => none
    | some k =>
      let w := putToBuffers arg st k (.data d)
      some (w.1, .run w.2)
  | .sync input (some outtype) =>
    let affected := (List.range arg.num).filter (arg.covers outtype)
    -- the stream of a branch that is closed already is `NULL`
    if affected.any fun k => k ∈ st.closed then none
    else
      let closed := st.closed ++ affected
      let stop := affected.map fun k => (Target.inst k, Rec.terminate true)
      match (List.range arg.num).filter fun k => k ∉ closed with
      | [k] => some (stop ++ [(.inst k, .sortEnd 0 (-1)), (.inst k, .sync input none)], .stop true)
      | _ => some (stop, .replace ⟨closed, st.counter + 1⟩ input)
  | .sync input none => some ([], .replace st input)
  | .sortEnd level num => some (toOpen arg.num st.closed (.sortEnd (level + 1) num), .run st)
  | .terminate flag => some (toOpen arg.num st.closed (.terminate flag), .stop true)
  | .collect _ => some ([], .run st)

end SNet.Stream
