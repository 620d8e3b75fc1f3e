import SNetRts.Distrib.Route

/-!
# Building a network on all nodes

Every node calls the creation functions of the whole network (`runtime/stream/entity`), builds the
entities that are placed on it, and hands the stream on otherwise. What a node registers on the way is the
`log` of its walk; `edges` are the streams that the network has, by what it means, with the nodes at both
of their ends.

Operands of serial and parallel replicators are not built before a record comes, so they are not part of
a network here.
-/

namespace SNet.Distrib.Route

open SNet.Wire (CInt Dest)

mutual

/-- A network with the nodes its entities are placed on. -/
inductive Net where
  | box (location : CInt)
  /-- also `SNetTranslate`; `isBypass` is `FilterIsBypass` -/
  | filter (location : CInt) (isBypass : Bool)
  | nameShift (location : CInt)
  | sync (location : CInt)
  | star (location : CInt)
  | split (location : CInt)
  | serial (a b : Net)
  | parallel (location : CInt) (branches : Branches)
  | feedback (location : CInt) (operand : Net)

/-- The branches of a parallel composition; there is at least one. -/
inductive Branches where
  | last (branch : Net)
  | cons (branch : Net) (branches : Branches)

end

/-! ## Creation functions -/

section

variable (me : CInt)

/-- The creation of an entity with one input and one output; `bypass` if it is not built. -/
def createEntity (location : CInt) (bypass : Bool) (w : Walk) : Walk :=
  let call := w.calls
  let w := routeUpdate me location w
  if location = me ∧ bypass = false then { w with stream := some (.out call) } else w

/-- `SNetBox`. -/
def createBox (location : CInt) : Walk → Walk := createEntity me location false

/-- `CreateFilter`. -/
def createFilter (location : CInt) (isBypass : Bool) : Walk → Walk := createEntity me location isBypass

/-- `SNetNameShift`. -/
def createNameShift (location : CInt) : Walk → Walk := createEntity me location false

/-- `SNetSync`. -/
def createSync (location : CInt) : Walk → Walk := createEntity me location false

/-- `CreateStar`, not for an incarnation; the output is that of the collector. -/
def createStar (location : CInt) : Walk → Walk := createEntity me location false

/-- `CreateSplit`: the route goes into a copy of the info. -/
def createSplit (location : CInt) (w : Walk) : Walk :=
  let call := w.calls
  let w' := routeUpdate me location w
  { w' with dest := w.dest, stream := if location = me then some (.out call) else w'.stream }

mutual

/-- The creation of a network at node `me`. -/
def create : Net → Walk → Walk
  | .box location, w => createBox me location w
  | .filter location isBypass, w => createFilter me location isBypass w
  | .nameShift location, w => createNameShift me location w
  | .sync location, w => createSync me location w
  | .star location, w => createStar me location w
  | .split location, w => createSplit me location w
  | .serial a b, w => create b (create a w)
  | .parallel location branches, w =>
    let call := w.calls
    let w := routeUpdate me location w
    let w' := createBranches location call branches 0 w.dest w
    { w' with dest := w.dest, stream := if location = me then some (.out call) else w'.stream }
  | .feedback location operand, w =>
    let call := w.calls
    let w := routeUpdate me location w
    let w := create operand { w with stream := if location = me then some (.branch call 0) else w.stream }
    let w := routeUpdate me location w
    { w with stream := if location = me then some (.out call) else w.stream }

/-- The loop of `CreateParallel` over the branches from number `i` on; every branch gets a copy of the
info, with `dest`. -/
def createBranches (location : CInt) (call : Nat) : Branches → Nat → Dest → Walk → Walk
  | .last branch, i, dest, w =>
    let w := { w with
      dest := dest
      stream := if location = me then some (.branch call i) else w.stream }
    routeUpdate me location (create branch w)
  | .cons branch branches, i, dest, w =>
    let w := { w with
      dest := dest
      stream := if location = me then some (.branch call i) else w.stream }
    createBranches location call branches (i + 1) dest (routeUpdate me location (create branch w))

end

/-- What `SNetDistribInit` puts into the info, with the input at the root node. -/
def Walk.init : Walk := ⟨if me = 0 then some .input else none, ⟨0, 0, 0, 0, 0, 0⟩, 0, 0, []⟩

def build (net : Net) : Walk := routeUpdate me 0 (create me net (Walk.init me))

end

/-! ## The streams of the network -/

/-- A stream between two entities. -/
structure Edge where
  call : Nat
  source : StreamId
  fromNode : CInt
  toNode : CInt
  number : CInt

/-- What is behind the entities that have been looked at: where the stream comes from, on which node, the
streams so far, and how many of them lead to another node. -/
structure Flow where
  source : StreamId
  node : CInt
  crossed : CInt
  edges : List Edge

def Flow.calls (f : Flow) : Nat := f.edges.length

/-- The stream goes to an entity at `loc`. -/
def Flow.goTo (loc : CInt) (f : Flow) : Flow where
  source := if f.node = loc then f.source else .routed f.calls
  node := loc
  crossed := if f.node = loc then f.crossed else f.crossed + 1
  edges := f.edges ++ [⟨f.calls, f.source, f.node, loc, f.crossed⟩]

/-- An entity at `loc`. -/
def Flow.entity (loc : CInt) (bypass : Bool) (f : Flow) : Flow :=
  if bypass then f.goTo loc else { f.goTo loc with source := .out f.calls }

mutual

def Net.flow : Net → Flow → Flow
  | .box location, f => f.entity location false
  | .filter location isBypass, f => f.entity location isBypass
  | .nameShift location, f => f.entity location false
  | .sync location, f => f.entity location false
  | .star location, f => f.entity location false
  | .split location, f => f.entity location false
  | .serial a b, f => b.flow (a.flow f)
  | .parallel location branches, f =>
    { branches.flow location f.calls 0 (f.goTo location) with source := .out f.calls, node := location }
  | .feedback location operand, f =>
    { (operand.flow { f.goTo location with source := .branch f.calls 0 }).goTo location with
      source := .out f.calls }

/-- The branches, from number `i` on. -/
def Branches.flow (location : CInt) (call : Nat) : Branches → Nat → Flow → Flow
  | .last branch, i, f => (branch.flow { f with source := .branch call i, node := location }).goTo location
  | .cons branch branches, i, f =>
    branches.flow location call (i + 1)
      ((branch.flow { f with source := .branch call i, node := location }).goTo location)

end

def Net.edges (net : Net) : List Edge := ((net.flow ⟨.input, 0, 0, []⟩).goTo 0).edges

end SNet.Distrib.Route
