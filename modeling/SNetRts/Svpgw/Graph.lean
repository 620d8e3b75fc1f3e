import SNetRts.Lib.Run
import Mathlib.Logic.Function.Iterate
import Mathlib.Algebra.Group.Nat.Defs
import Mathlib.Algebra.Group.Int.Defs

/-!
# The indices of the graph walker

The network graph of `svpgw/src/gw/graph.utc` with the indices that `SNetGraphEnumerate` gives to its
nodes, and the dynamic index that a cons-node takes along the graph (`conslist.utc`, and the walk and
move handlers of `gw.utc`).

The graph is the list of nodes that `SNetSerial` makes, with the operands of the combinators inside; the
NOP node that each operand begins with is left out. What the code decides from the record, its type and
its tags, is up to the step. Items of index vectors are integers, since the 64 bits of
`snet_idxvec_item_t` do not run out. A failed `assert` is a fault.
-/

namespace SNet.Svpgw

open Lib

/-- `snet_idxvec_t` -/
abbrev IdxVec := List Int

namespace IdxVec

/-- `SNetIdxVecIncrItemValue`; `none` where an assertion fails, as below. -/
def incrItemValue (idxv : IdxVec) (pos : Nat) (val : Int) : Option IdxVec :=
  if pos < idxv.length then some (idxv.modify pos (· + val)) else none

/-- `SNetIdxVecPush` -/
def push (idxv1 idxv2 : IdxVec) (startItemIdx : Nat) : Option IdxVec :=
  if startItemIdx < idxv2.length then some (idxv1 ++ idxv2.drop startItemIdx) else none

/-- `SNetIdxVecPopRight` -/
def popRight (idxv : IdxVec) (count : Nat) : Option IdxVec :=
  if count ≤ idxv.length then some (idxv.take (idxv.length - count)) else none

end IdxVec

/-- A segment of the graph, from one of its nodes on. -/
inductive Graph (α : Type) where
  /-- The link behind the last node: a merge link to the combinator around the segment, or `NULL`. -/
  | link
  | box (idx : α) (next : Graph α)
  | synccell (idx : α) (next : Graph α)
  | star (idx : α) (groot next : Graph α)
  | split (idx : α) (groot next : Graph α)
  | parallel (idx : α) (branchesCnt : Nat) (groot : Fin branchesCnt → Graph α) (next : Graph α)

/-- The last item of the index that a segment counts with, one higher for the next node. -/
def incrLast (idx : IdxVec) : IdxVec := idx.modify (idx.length - 1) (· + 1)

/-- `enumerate_graph_segment` -/
def enumerateGraphSegment (startIdx : IdxVec) : Graph Unit → Graph IdxVec
  | .link => .link
  | .box _ next =>
    let idx := incrLast startIdx
    .box idx (enumerateGraphSegment idx next)
  | .synccell _ next =>
    let idx := incrLast startIdx
    .synccell idx (enumerateGraphSegment idx next)
  | .star _ groot next =>
    let idx := incrLast startIdx
    .star idx (enumerateGraphSegment (idx ++ [0, 0]) groot) (enumerateGraphSegment idx next)
  | .split _ groot next =>
    let idx := incrLast startIdx
    .split idx (enumerateGraphSegment (idx ++ [0, 0]) groot) (enumerateGraphSegment idx next)
  | .parallel _ branchesCnt groot next =>
    let idx := incrLast startIdx
    .parallel idx branchesCnt (fun i => enumerateGraphSegment (idx ++ [-((i : Int) + 1)] ++ [0]) (groot i))
      (enumerateGraphSegment idx next)

/-- `SNetGraphEnumerate` of a whole network. -/
def graphEnumerate (groot : Graph Unit) : Graph IdxVec := enumerateGraphSegment [0] groot

/-! ## Cons-nodes -/

/-- What a cons-node knows of its place in the graph. -/
structure ConsNode where
  /-- The index of its graph node; `none` for `NULL` and for the NOP node at the root. -/
  gnode : Option IdxVec
  dynIdx : Option IdxVec
  dynIdxCnt : Nat
deriving DecidableEq

namespace ConsNode

variable (n : ConsNode)

/-- `SNetConsLstNodeAddDynGIdx` -/
def addDynGIdx (idx : IdxVec) : ConsNode :=
  match n.dynIdx with
  | some _ => { n with dynIdxCnt := n.dynIdxCnt + 1 }
  | none => { n with dynIdx := some idx }

/-- `SNetConsLstNodeRemoveDynGIdx` -/
def removeDynGIdx : ConsNode :=
  match n.dynIdx with
  | none => n
  | some _ =>
    if n.dynIdxCnt > 0 then { n with dynIdxCnt := n.dynIdxCnt - 1 } else { n with dynIdx := none }

/-- `SNetConsLstNodeIsDynGIdxNew` -/
def isDynGIdxNew : Bool := n.dynIdxCnt == 0

/-- `conslst_node_gidx` -/
def gidx : Option IdxVec := n.gnode.map fun idx => n.dynIdx.getD idx

/-- `move_cnode_to_gnode` to the end of the graph: the loop removes the dynamic index. -/
def moveToNull : ConsNode := removeDynGIdx^[n.dynIdxCnt + 1] { n with gnode := none }

/-- `move_cnode_to_gnode` -/
def moveToGnode (gnode : IdxVec) : Option ConsNode :=
  match n.dynIdx with
  | none => some { n with gnode := some gnode }
  | some dynIdx =>
    let moved := fun idx : IdxVec => ({ n with gnode := some gnode, dynIdx := some idx } : ConsNode)
    if gnode.length = dynIdx.length then some (moved dynIdx)
    else if gnode.length < dynIdx.length then
      (IdxVec.popRight dynIdx (dynIdx.length - gnode.length)).map moved
    else (IdxVec.push dynIdx gnode dynIdx.length).map moved

/-- What `gnode_walk_hnd_star` and `gnode_walk_hnd_split` do at the entry of their operands. -/
def enterOperand (idx : IdxVec) (gidxItemVal : Int) : Option ConsNode :=
  let n := n.addDynGIdx idx
  match n.dynIdx with
  | none => none
  | some dynGidx =>
    let pushed := if n.isDynGIdxNew then some dynGidx else IdxVec.push dynGidx idx dynGidx.length
    pushed.map fun dynGidx => { n with dynIdx := some (dynGidx ++ [gidxItemVal]) }

/-- `gnode_walk_hnd_star`, when the record does not leave. -/
def walkHndStar (idx : IdxVec) : Option ConsNode := n.enterOperand idx 1

/-- `gnode_walk_hnd_star_merge`, when the record does not leave. -/
def walkHndStarMerge (idx : IdxVec) : Option ConsNode :=
  match n.dynIdx with
  | none => none
  | some dynIdx =>
    let dynIdxNewLen := idx.length + 1
    if dynIdx.length < dynIdxNewLen then none
    else
      let popped :=
        if dynIdx.length > dynIdxNewLen then IdxVec.popRight dynIdx (dynIdx.length - dynIdxNewLen)
        else some dynIdx
      (popped.bind fun dynIdx => IdxVec.incrItemValue dynIdx (dynIdxNewLen - 1) 1).map fun dynIdx =>
        { n with dynIdx := some dynIdx }

/-- `gnode_walk_hnd_split`; its second assertion is that there is no operand. -/
def walkHndSplit (groot : Option (Graph IdxVec)) (idx : IdxVec) (tag : Int) : Option ConsNode :=
  if groot.isNone then n.enterOperand idx (-(tag % 2 ^ 32 + 1)) else none

end ConsNode

/-! ## The walk of a record -/

/-- A combinator that a record is inside of, with what belongs to its place there. -/
inductive Frame where
  | branch (i : Nat)
  /-- The number of the iteration. The star is `spoilt` if the record came late to it (below). -/
  | star (groot : Graph IdxVec) (iteration : Int) (spoilt : Bool)
  | split (tag : Int)

structure Level where
  idx : IdxVec
  frame : Frame
  /-- What follows the combinator in its segment. -/
  next : Graph IdxVec

def Level.isStar (l : Level) : Bool :=
  match l.frame with
  | .star .. => true
  | _ => false

/-- A record on its way. -/
structure State where
  cnode : ConsNode
  /-- The node that the walk has come to. -/
  gnode : Graph IdxVec
  /-- The combinators around it, the innermost first. -/
  levels : List Level
  walking : Bool
  /-- Inside a star: the record has, since the iteration of the innermost star began, come to a box or
  synchrocell or gone into a star, or it was late when it went into that star. -/
  late : Bool

def State.init (groot : Graph Unit) : State := ⟨⟨none, none, 0⟩, graphEnumerate groot, [], true, false⟩

inductive Act where
  /-- To the next node: a box or synchrocell, for which the cons-node moves, or past a link. -/
  | go
  /-- The record of the cons-node is gone, or a control record. -/
  | drop
  /-- The branch that a parallel combinator selects. -/
  | branch (i : Nat)
  /-- The exit condition of a star holds. -/
  | leave
  /-- It does not. -/
  | again
  /-- The value of the tag at a split. -/
  | tag (v : Int)
deriving DecidableEq

namespace State

variable (s : State)

def stop (idx : IdxVec) (next : Graph IdxVec) : Outcome State :=
  .ofOption <| (s.cnode.moveToGnode idx).map fun cnode =>
    { s with cnode := cnode, gnode := next, late := s.late || s.levels.any Level.isStar }

def finish : Outcome State :=
  .done { s with cnode := s.cnode.moveToNull, gnode := .link, levels := [], walking := false }

def follow : Act → Outcome State
  | .go =>
    match s.levels with
    | [] => s.finish
    | ⟨_, .branch _, next⟩ :: levels => .done { s with gnode := next, levels := levels }
    -- `gnode_walk_hnd_split_merge`
    | ⟨_, .split _, next⟩ :: levels =>
      .done { s with cnode := s.cnode.removeDynGIdx, gnode := next, levels := levels }
    | ⟨_, .star .., _⟩ :: _ => .blocked
  | .leave =>
    match s.levels with
    | ⟨_, .star .., next⟩ :: levels =>
      .done { s with
        cnode := s.cnode.removeDynGIdx
        gnode := next
        levels := levels
        late := levels.any Level.isStar }
    | _ => .blocked
  | .again =>
    match s.levels with
    | ⟨idx, .star groot iteration spoilt, next⟩ :: levels =>
      .ofOption <| (s.cnode.walkHndStarMerge idx).map fun cnode =>
        { s with
          cnode := cnode
          gnode := groot
          levels := ⟨idx, .star groot (iteration + 1) spoilt, next⟩ :: levels
          late := spoilt }
    | _ => .blocked
  | _ => .blocked

end State

def step (s : State) (a : Act) : Outcome State :=
  if s.walking then
    match a, s.gnode with
    | .drop, _ => s.finish
    | a, .link => s.follow a
    | .go, .box idx next | .go, .synccell idx next => s.stop idx next
    | .branch i, .parallel idx branchesCnt groot next =>
      if h : i < branchesCnt then
        .done { s with gnode := groot ⟨i, h⟩, levels := ⟨idx, .branch i, next⟩ :: s.levels }
      else .blocked
    -- a parallel combinator without branches
    | .go, .parallel _ branchesCnt _ next =>
      if branchesCnt = 0 then .done { s with gnode := next } else .blocked
    | .leave, .star _ _ next => .done { s with gnode := next }
    | .again, .star idx groot next =>
      .ofOption <| (s.cnode.walkHndStar idx).map fun cnode =>
        { s with
          cnode := cnode
          gnode := groot
          levels := ⟨idx, .star groot 1 s.late, next⟩ :: s.levels }
    | .tag v, .split idx groot next =>
      .ofOption <| (s.cnode.walkHndSplit (some groot) idx v).map fun cnode =>
        { s with
          cnode := cnode
          gnode := groot
          levels := ⟨idx, .split v, next⟩ :: s.levels }
    | _, _ => .blocked
  else .blocked

/-! ## What is asked for -/

/-- The index of a node with each `0` that follows an enclosing star replaced by the number of its
iteration, and each `0` that follows an enclosing split by the tag. -/
def dynamicIdx (levels : List Level) (idx : IdxVec) : IdxVec :=
  levels.foldr (fun l idx =>
    match l.frame with
    | .branch _ => idx
    | .star _ iteration _ => idx.set l.idx.length iteration
    | .split tag => idx.set l.idx.length (-(tag + 1))) idx

def State.stopIdx (s : State) : Act → Option IdxVec
  | .go =>
    match s.gnode with
    | .box idx _ | .synccell idx _ => some idx
    | _ => none
  | _ => none

/-- No assertion fails in a step, and when it moves the cons-node to a node, then its graph index is that
of the node in the current iterations. -/
def Right (s : State) (a : Act) : Prop :=
  step s a ≠ .fault ∧ ∀ s', step s a = .done s' → ∀ idx, s.stopIdx a = some idx →
    s'.cnode.gidx = some (dynamicIdx s.levels idx)

end SNet.Svpgw
