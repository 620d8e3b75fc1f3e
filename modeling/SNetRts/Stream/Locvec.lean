import SNetRts.Lib.Run

/-!
# Location vectors

The vector that says where in the network an entity is (`stream/utils/locvec.c`), and how the functions
that create the combinators of a network change it. One vector goes through the whole construction; each
entity gets a copy of it. A star and a split create their operands when records arrive, each with a copy
of its own.

A failed assertion is a fault. The creation functions build entities only if the location is that of
this node. The capacity of the array is left out, and the entities that are neither boxes, star
dispatchers nor split dispatchers.
-/

namespace SNet

open Lib

namespace Locvec

/-- `snet_loctype_t`. -/
inductive LocType where
  | LOC_UNDEFINED
  | LOC_SERIAL
  | LOC_PARALLEL
  | LOC_SPLIT
  | LOC_STAR
  | LOC_FEEDBACK
deriving DecidableEq, Repr

/-- `snet_locitem_t`. -/
structure Locitem where
  type : LocType
  num : Int
deriving DecidableEq, Repr

end Locvec

/-- `snet_locvec_t`, the last item first. -/
abbrev Locvec := List Locvec.Locitem

namespace Locvec

/-! ## Items -/

/-- `SNetLocvecCreate`. -/
def create : Locvec := []

/-- `SNetLocvecAppend`. -/
def append (vec : Locvec) (type : LocType) (num : Int) : Locvec := ⟨type, num⟩ :: vec

/-- `SNetLocvecPop`. -/
def pop : Locvec → Outcome Locvec
  | [] => .fault
  | _ :: vec => .done vec

/-- `SNetLocvecToptype`. -/
def toptype : Locvec → LocType
  | [] => .LOC_UNDEFINED
  | item :: _ => item.type

/-- `SNetLocvecTopval`. -/
def topval : Locvec → Outcome Int
  | [] => .fault
  | item :: _ => .done item.num

/-- `SNetLocvecTopinc`. -/
def topinc : Locvec → Outcome Locvec
  | [] => .fault
  | item :: vec => .done ({ item with num := item.num + 1 } :: vec)

/-- `SNetLocvecTopdec`. -/
def topdec : Locvec → Outcome Locvec
  | [] => .fault
  | item :: vec => .done ({ item with num := item.num - 1 } :: vec)

/-- Goes on behind the assertion that the last item has the type. -/
def assertTop {α : Type} (type : LocType) (vec : Locvec) (next : Outcome α) : Outcome α :=
  if toptype vec = type then next else .fault

/-! ## What the combinators do to the vector -/

/-- `SNetLocvecSerialEnter`. -/
def serialEnter (vec : Locvec) : Locvec × Bool :=
  if toptype vec ≠ .LOC_SERIAL then (append vec .LOC_SERIAL 1, true) else (vec, false)

/-- `SNetLocvecSerialNext`. -/
def serialNext (vec : Locvec) : Outcome Locvec := assertTop .LOC_SERIAL vec (topinc vec)

/-- `SNetLocvecSerialLeave`. -/
def serialLeave (vec : Locvec) (enter : Bool) : Outcome Locvec :=
  assertTop .LOC_SERIAL vec (if enter then pop vec else .done vec)

/-- `SNetLocvecParallelEnter`. -/
def parallelEnter (vec : Locvec) : Locvec := append vec .LOC_PARALLEL (-1)

/-- `SNetLocvecParallelNext`. -/
def parallelNext (vec : Locvec) : Outcome Locvec := assertTop .LOC_PARALLEL vec (topinc vec)

/-- `SNetLocvecParallelLeave`. -/
def parallelLeave (vec : Locvec) : Outcome Locvec := assertTop .LOC_PARALLEL vec (pop vec)

/-- `SNetLocvecParallelReset`. -/
def parallelReset (vec : Locvec) : Outcome Locvec :=
  (parallelLeave vec).bind fun vec => .done (parallelEnter vec)

/-- `SNetLocvecSplitEnter`. -/
def splitEnter (vec : Locvec) : Locvec := append vec .LOC_SPLIT (-1)

/-- `SNetLocvecSplitLeave`. -/
def splitLeave (vec : Locvec) : Outcome Locvec := assertTop .LOC_SPLIT vec (pop vec)

/-- `SNetLocvecSplitSpawn`. -/
def splitSpawn (vec : Locvec) (i : Int) : Outcome Locvec :=
  assertTop .LOC_SPLIT vec ((pop vec).bind fun copy => .done (append copy .LOC_SPLIT i))

/-- `SNetLocvecStarWithin`. -/
def starWithin (vec : Locvec) : Bool := decide (toptype vec = .LOC_STAR)

/-- `SNetLocvecStarEnter`. -/
def starEnter (vec : Locvec) : Outcome Locvec :=
  if toptype vec ≠ .LOC_STAR then .done (append vec .LOC_STAR (-1)) else .fault

/-- `SNetLocvecStarSpawn`. -/
def starSpawn (vec : Locvec) : Outcome Locvec := assertTop .LOC_STAR vec (topinc vec)

/-- `SNetLocvecStarSpawnRet`. -/
def starSpawnRet (vec : Locvec) : Outcome Locvec := assertTop .LOC_STAR vec (topdec vec)

/-- `SNetLocvecStarLeave`. -/
def starLeave (vec : Locvec) : Outcome Locvec :=
  assertTop .LOC_STAR vec ((topval vec).bind fun num => if num = -1 then pop vec else .fault)

/-- `SNetLocvecFeedbackEnter`. -/
def feedbackEnter (vec : Locvec) : Locvec := append vec .LOC_FEEDBACK (-1)

/-- `SNetLocvecFeedbackLeave`. -/
def feedbackLeave (vec : Locvec) : Outcome Locvec := assertTop .LOC_FEEDBACK vec (pop vec)

/-! ## Networks and their entities -/

mutual

/-- A network expression. The instances of a split by location are on the nodes of the tag values. -/
inductive Net where
  | box
  | filter
  | serial (boxA boxB : Net)
  | parallel (funs : Branches)
  | split (isByloc : Bool) (boxA : Net)
  | star (boxA : Net)
  | feedback (boxA : Net)

/-- The branches of a parallel composition. -/
inductive Branches where
  | nil
  | cons (branch : Net) (funs : Branches)

end

/-- `star_arg_t`, with `SNetLocvecGet(info)`; `created` if there is a `nextstream`. -/
structure StarArg where
  locvec : Locvec
  box : Net
  location : Int
  created : Bool

/-- `split_arg_t`, with `SNetLocvecGet(info)` and the tag values in `repos_tab`. -/
structure SplitArg where
  locvec : Locvec
  boxfun : Net
  location : Int
  isByloc : Bool
  repos : List Int

/-- An entity with its copy of the location vector. -/
inductive Entity where
  | box (locvec : Locvec)
  | star (sarg : StarArg)
  | split (sarg : SplitArg)

/-! ## Construction -/

section

variable (isNode : Int → Bool) (location : Int)

/-- `CreateStar`. -/
def createStar (boxA : Net) (isIncarnate : Bool) (locvec : Locvec) : Outcome (Locvec × List Entity) :=
  (if isIncarnate then .done locvec else starEnter locvec).bind fun locvec =>
    let entities := if isNode location then [Entity.star ⟨locvec, boxA, location, false⟩] else []
    (if isIncarnate then .done locvec else starLeave locvec).bind fun locvec => .done (locvec, entities)

mutual

/-- The creation function of a network: the vector then, and the entities that have been created. -/
def Net.create : Net → Locvec → Outcome (Locvec × List Entity)
  | .box, locvec => .done (locvec, if isNode location then [.box locvec] else [])
  | .filter, locvec => .done (locvec, [])
  | .serial boxA boxB, locvec =>
    (boxA.create (serialEnter locvec).1).bind fun a =>
      (serialNext a.1).bind fun locvec' =>
        (boxB.create locvec').bind fun b =>
          (serialLeave b.1 (serialEnter locvec).2).bind fun locvec' => .done (locvec', a.2 ++ b.2)
  | .parallel funs, locvec =>
    (funs.create (parallelEnter locvec)).bind fun b =>
      (if isNode location then parallelReset b.1 else .done b.1).bind fun locvec' =>
        (parallelLeave locvec').bind fun locvec' => .done (locvec', b.2)
  | .split isByloc boxA, locvec =>
    (splitLeave (splitEnter locvec)).bind fun locvec' =>
      .done (locvec', if isNode location then [.split ⟨splitEnter locvec, boxA, location, isByloc, []⟩] else [])
  | .star boxA, locvec => createStar isNode location boxA false locvec
  | .feedback boxA, locvec =>
    (boxA.create (feedbackEnter locvec)).bind fun a =>
      (feedbackLeave a.1).bind fun locvec' => .done (locvec', a.2)

/-- The loop of `CreateParallel` over the branches. -/
def Branches.create : Branches → Locvec → Outcome (Locvec × List Entity)
  | .nil, locvec => .done (locvec, [])
  | .cons branch funs, locvec =>
    (parallelNext locvec).bind fun locvec' =>
      (branch.create locvec').bind fun a =>
        (funs.create a.1).bind fun b => .done (b.1, a.2 ++ b.2)

end

end

variable (isNode : Int → Bool)

/-- `SNetSerialStarchild`: the operand, and the next incarnation behind it. -/
def serialStarchild (sarg : StarArg) : Outcome (Locvec × List Entity) :=
  (starSpawn sarg.locvec).bind fun locvec =>
    (sarg.box.create isNode sarg.location locvec).bind fun a =>
      if starWithin a.1 then
        (createStar isNode sarg.location sarg.box true a.1).bind fun b =>
          (starSpawnRet b.1).bind fun locvec => .done (locvec, a.2 ++ b.2)
      else .fault

/-- The vector of the instance `i` of a split, and what its creation gives. -/
def splitInstance (sarg : SplitArg) (i : Int) : Outcome (Locvec × Locvec × List Entity) :=
  (splitSpawn sarg.locvec i).bind fun locvec =>
    (sarg.boxfun.create isNode (if sarg.isByloc then i else sarg.location) locvec).bind fun r =>
      .done (locvec, r)

/-! ## Runs -/

/-- A star dispatcher creates its operand network, or a split dispatcher the instance of a tag value. -/
inductive Act where
  | star (j : Nat)
  | split (j : Nat) (i : Int)

/-- One step of the entities; the vector of a star is that of its `info`, the one of an instance is
destroyed. -/
def step (entities : List Entity) : Act → Outcome (List Entity)
  | .star j =>
    match entities[j]? with
    | some (.star sarg) =>
      if sarg.created then .blocked
      else
        (serialStarchild isNode sarg).bind fun r =>
          .done (entities.set j (.star { sarg with locvec := r.1, created := true }) ++ r.2)
    | _ => .blocked
  | .split j i =>
    match entities[j]? with
    | some (.split sarg) =>
      if i ∈ sarg.repos then .blocked
      else
        (splitInstance isNode sarg i).bind fun r =>
          .done (entities.set j (.split { sarg with repos := i :: sarg.repos }) ++ r.2.2)
    | _ => .blocked

def boxes (entities : List Entity) : List Locvec :=
  entities.filterMap fun e => match e with
    | .box locvec => some locvec
    | _ => none

/-! ## What is asked of them -/

/-- In these entities, every construction that can come next meets all assertions and leaves the vector as
it was, and the boxes have distinct vectors. -/
structure Bracketed (entities : List Entity) : Prop where
  star : ∀ sarg, .star sarg ∈ entities → sarg.created = false →
    ∃ new, serialStarchild isNode sarg = .done (sarg.locvec, new)
  split : ∀ sarg i, .split sarg ∈ entities → i ∉ sarg.repos →
    ∃ locvec new, splitInstance isNode sarg i = .done (locvec, locvec, new)
  unique : (boxes entities).Nodup

/-- The construction of the network and all runs after it are bracketed, and the boxes have distinct
vectors. -/
def BracketedUnique (location : Int) (net : Net) : Prop :=
  ∃ entities, net.create isNode location create = .done (create, entities) ∧
    ∀ entities', Reach (step isNode) anyStep entities entities' → Bracketed isNode entities'

def Net.isStar : Net → Bool
  | .star _ => true
  | _ => false

mutual

/-- No star that may be built on this node has a star for its operand. -/
def Net.Unnested : Net → Int → Prop
  | .box, _ | .filter, _ => True
  | .serial boxA boxB, location => boxA.Unnested location ∧ boxB.Unnested location
  | .parallel funs, location => funs.Unnested location
  | .split isByloc boxA, location =>
    isNode location = true → ∀ i : Int, boxA.Unnested (if isByloc then i else location)
  | .star boxA, location => isNode location = true → boxA.isStar = false ∧ boxA.Unnested location
  | .feedback boxA, location => boxA.Unnested location

def Branches.Unnested : Branches → Int → Prop
  | .nil, _ => True
  | .cons branch funs, location => branch.Unnested location ∧ funs.Unnested location

end

end Locvec

end SNet
