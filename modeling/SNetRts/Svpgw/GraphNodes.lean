import Mathlib.Logic.Relation
import SNetRts.Svpgw.Infimum

/-!
# The nodes of a network graph

The graph as `svpgw/src/gw/entities.utc` creates it from the functions of the compiler: nodes that are linked to
the next one of their segment, know a parent, and have the NOP nodes that their operands begin with. The parent
is the node before, or for the first node of an operand the combinator around it.

A node is its address, given out in ascending order. Of a node only what `SNetGraphEnumerate` reads is here. The
copy of the index that a segment counts with is pushed to and popped again, so that popping is left out.
-/

namespace SNet.Svpgw

/-- `snet_gnode_type_t` -/
inductive GnodeType where
  | nop
  | box
  | synccell
  | parallel
  | star
  | split
deriving DecidableEq

/-- `snet_gnode_t` -/
structure Gnode where
  type : GnodeType
  parent : Option Nat
  idx : IndexVector
  /-- `lnk.merge` and `lnk.node` -/
  merge : Bool
  node : Option Nat
  /-- `groot` of a star or split, or of the branches of a parallel -/
  groots : List (Option Nat)
deriving DecidableEq

/-- `SNetGNodeInit` -/
def Gnode.init (type : GnodeType) : Gnode where
  type := type
  parent := none
  idx := none
  merge := false
  node := none
  groots := match type with
    | .star | .split => [none]
    | .nop | .box | .synccell | .parallel => []

/-- All nodes; those at addresses below `next` have been created. -/
structure Gnodes where
  nodes : Nat → Gnode
  next : Nat

namespace Gnodes

def empty : Gnodes := ⟨fun _ => .init .nop, 0⟩

def setNode (g : Gnodes) (n : Nat) (node : Gnode) : Gnodes := { g with nodes := Function.update g.nodes n node }

/-- `SNetGNodeCreate`; the node is at `g.next`. -/
def create (g : Gnodes) (type : GnodeType) : Gnodes := ⟨Function.update g.nodes g.next (.init type), g.next + 1⟩

/-- `SNetGNodeConnect` -/
def connect (g : Gnodes) (n1 n2 : Nat) (mergeLnk : Bool) : Gnodes :=
  let linked := g.setNode n1 { g.nodes n1 with merge := mergeLnk, node := some n2 }
  if mergeLnk then linked else linked.setNode n2 { linked.nodes n2 with parent := some n1 }

/-- What the functions below do with a `groot`. -/
def setGroot (g : Gnodes) (n i groot : Nat) : Gnodes :=
  let child := g.setNode groot { g.nodes groot with parent := some n }
  child.setNode n { child.nodes n with groots := (child.nodes n).groots.set i (some groot) }

/-- `SNetGNodeSetupStar` -/
def setupStar (g : Gnodes) (n groot : Nat) : Gnodes := g.setGroot n 0 groot

/-- `SNetGNodeSetupSplit` -/
def setupSplit (g : Gnodes) (n groot : Nat) : Gnodes := g.setGroot n 0 groot

/-- `SNetGNodeParallelSetupBranch` -/
def parallelSetupBranch (g : Gnodes) (n idx groot : Nat) : Gnodes := g.setGroot n idx groot

/-- `SNetGNodeSetupParallel` -/
def setupParallel (g : Gnodes) (n branchesCnt : Nat) : Gnodes :=
  g.setNode n { g.nodes n with groots := .replicate branchesCnt none }

end Gnodes

/-! ## Entities -/

mutual

/-- The calls of the functions of `entities.utc` that a graph constructor is made of. -/
inductive NetExpr where
  | box
  | sync
  | serial (left right : NetExpr)
  | parallel (branches : NetExprs)
  | star (op : NetExpr)
  | split (op : NetExpr)

inductive NetExprs where
  | nil
  | cons (branch : NetExpr) (rest : NetExprs)

end

def NetExprs.length : NetExprs → Nat
  | .nil => 0
  | .cons _ rest => rest.length + 1

mutual

/-- The node that is the result, and the nodes that there are then. -/
def NetExpr.create : NetExpr → Nat → Gnodes → Nat × Gnodes
  | .box, inNode, g => (g.next, (g.create .box).connect inNode g.next false)
  | .sync, inNode, g => (g.next, (g.create .synccell).connect inNode g.next false)
  | .serial left right, inNode, g =>
    let (mid, g) := left.create inNode g
    right.create mid g
  | .parallel branches, inNode, g =>
    let out := g.next
    let branchesCnt := branches.length % 2 ^ 32
    let g := branches.create out 0 branchesCnt ((g.create .parallel).setupParallel out branchesCnt)
    (out, g.connect inNode out false)
  | .star op, inNode, g =>
    let out := g.next
    let g := g.create .star
    let starRoot := g.next
    let (starOut, g) := op.create starRoot (g.create .nop)
    (out, ((g.setupStar out starRoot).connect starOut out true).connect inNode out false)
  | .split op, inNode, g =>
    let out := g.next
    let g := g.create .split
    let splitRoot := g.next
    let (splitOut, g) := op.create splitRoot (g.create .nop)
    (out, ((g.setupSplit out splitRoot).connect splitOut out true).connect inNode out false)

/-- The loop of `create_parallel_gnode`. -/
def NetExprs.create : NetExprs → Nat → Nat → Nat → Gnodes → Gnodes
  | .nil, _, _, _, g => g
  | .cons branch rest, out, i, branchesCnt, g =>
    if i < branchesCnt then
      let branchRoot := g.next
      let (branchOut, g) := branch.create branchRoot (g.create .nop)
      rest.create out (i + 1) branchesCnt ((g.parallelSetupBranch out i branchRoot).connect branchOut out true)
    else g

end

/-- The graph of `SNetDomainInit`, before it is enumerated; its root is at 0. -/
def NetExpr.graph (net : NetExpr) : Gnodes := (net.create 0 (Gnodes.empty.create .nop)).2

/-! ## Enumeration -/

namespace Gnodes

/-- The loop over the branches in `enumerate_graph_segment`. -/
def enumerateBranches (segment : Nat → IndexVector → Gnodes → Option Gnodes) (idx : IndexVector) :
    Nat → List (Option Nat) → Gnodes → Option Gnodes
  | _, [], g => some g
  | _, none :: _, _ => none
  | i, some groot :: groots, g =>
    match segment groot ((idx.push [-(BitVec.ofNat 64 (i + 1))]).push [0]) g with
    | none => none
    | some g => enumerateBranches segment idx (i + 1) groots g

/-- What `enumerate_graph_segment` does for the operands of a node; `none` where an assertion fails. -/
def enumerateOperands (segment : Nat → IndexVector → Gnodes → Option Gnodes) (node : Gnode) (idx : IndexVector)
    (g : Gnodes) : Option Gnodes :=
  match node.type with
  | .star | .split =>
    match node.groots with
    | [some groot] => segment groot (idx.push [0, 0]) g
    | _ => none
  | .parallel => enumerateBranches segment idx 0 node.groots g
  | .nop | .box | .synccell => some g

/-- `enumerate_graph_segment`, from a node or `NULL` on; `none` also when the fuel is used up. -/
def enumerateGraphSegment : Nat → Option Nat → IndexVector → Gnodes → Option Gnodes
  | 0, _, _, _ => none
  | _ + 1, none, _, g => some g
  | fuel + 1, some n, idx, g =>
    let node := g.nodes n
    let next := if node.merge then none else node.node
    if node.type = .nop then enumerateGraphSegment fuel next idx g
    else
      match idx.incrItemValue (idx.items.length - 1) 1 with
      | none => none
      | some idx =>
        let segment := fun groot idx g => enumerateGraphSegment fuel (some groot) idx g
        match enumerateOperands segment node idx (g.setNode n { node with idx := idx }) with
        | none => none
        | some g => enumerateGraphSegment fuel next idx g

/-- The loop of `SNetGraphEnumerate`: `pbranch_groot` and `parent` behind it. -/
def enclosing (g : Gnodes) : Nat → Nat → Option (Nat × Option Nat)
  | 0, _ => none
  | fuel + 1, n =>
    match (g.nodes n).parent with
    | none => some (n, none)
    | some parent => if (g.nodes parent).type = .nop then g.enclosing fuel parent else some (n, some parent)

/-- The index that `SNetGraphEnumerate` begins to count with. -/
def startIdx (g : Gnodes) (pbranchGroot : Nat) : Option Nat → IndexVector
  | none => some [0]
  | some parent =>
    let idx := (g.nodes parent).idx
    match (g.nodes parent).type with
    | .star | .split => idx.push [0, 0]
    | .parallel =>
      match (g.nodes parent).groots.idxOf? (some pbranchGroot) with
      | some i => (idx.push [-(BitVec.ofNat 64 (i + 1))]).push [0]
      | none => idx
    | .nop | .box | .synccell => idx

/-- `SNetGraphEnumerate` -/
def graphEnumerate (g : Gnodes) (startNode : Nat) : Option Gnodes :=
  match g.enclosing (g.next + 1) startNode with
  | none => none
  | some (pbranchGroot, parent) =>
    enumerateGraphSegment (g.next + 1) (some startNode) (g.startIdx pbranchGroot parent) g

end Gnodes

end SNet.Svpgw
