import SNetRts.Distrib.Wire

/-!
# Routes

`SNetRouteUpdate` and `SNetDestCompare` (`distrib/common/distribcommon.c`, `distribcommon.h`). While a
node builds the network, it calls `SNetRouteUpdate` for each stream between two entities; where a stream
leads from one node to another one, both register it, the one with its output manager and the other one
with its input manager.

A stream is known by where it comes from. Calls of `SNetRouteUpdate` are numbered; `calls` is the number
of the next one.
-/

namespace SNet.Distrib.Route

open SNet.Wire (CInt Dest)

/-- `snet_stream_t *`: what the stream comes from. -/
inductive StreamId where
  /-- the input of the network -/
  | input
  /-- the entity for which the call was made -/
  | out (call : Nat)
  /-- that entity, for its branch of this number -/
  | branch (call i : Nat)
  /-- the other node; created in the call -/
  | routed (call : Nat)
deriving DecidableEq, Repr

/-- What is registered. -/
inductive Entry where
  /-- `SNetOutputManagerNewOut` -/
  | newOut (dest : Dest) (stream : Option StreamId)
  /-- `SNetInputManagerNewIn` -/
  | newIn (dest : Dest) (stream : StreamId)
deriving DecidableEq

/-- What a node has while it builds the network. -/
structure Walk where
  /-- The stream at hand, or `NULL`. -/
  stream : Option StreamId
  /-- `prevDest` of the info. -/
  dest : Dest
  /-- `infoCounter`. -/
  counter : CInt
  calls : Nat
  log : List Entry

/-- `SNetRouteUpdate` at node `me`. -/
def routeUpdate (me loc : CInt) (w : Walk) : Walk :=
  let call := w.calls
  let w := { w with calls := w.calls + 1 }
  if w.dest.node ≠ loc then
    let dest := { w.dest with dest := w.counter }
    let w := { w with counter := w.counter + 1 }
    if dest.node = me then
      let dest := { dest with node := loc }
      { w with dest := dest, log := w.log ++ [.newOut dest w.stream], stream := none }
    else if loc = me then
      let stream := w.stream.getD (.routed call)
      { w with
        dest := { dest with node := loc }
        log := w.log ++ [.newIn dest stream]
        stream := some stream }
    else { w with dest := { dest with node := loc } }
  else w

/-- `SNetDestCompare`. -/
def destCompare (d₁ d₂ : Dest) : Bool :=
  d₁.node = d₂.node && d₁.dest = d₂.dest && d₁.parent = d₂.parent && d₁.dynamicIndex = d₂.dynamicIndex

/-! ## The three kinds of nodes -/

section

variable {me loc : CInt} {w : Walk}

theorem routeUpdate_same (h : w.dest.node = loc) :
    routeUpdate me loc w = { w with calls := w.calls + 1 } := if_neg (not_not.2 h)

theorem routeUpdate_from (h : w.dest.node ≠ loc) (hme : w.dest.node = me) :
    routeUpdate me loc w =
      { stream := none
        dest := { w.dest with dest := w.counter, node := loc }
        counter := w.counter + 1
        calls := w.calls + 1
        log := w.log ++ [.newOut { w.dest with dest := w.counter, node := loc } w.stream] } := by
  unfold routeUpdate
  dsimp only
  rw [if_pos h, if_pos hme]

theorem routeUpdate_to (h : w.dest.node ≠ loc) (hme : loc = me) :
    routeUpdate me loc w =
      { stream := some (w.stream.getD (.routed w.calls))
        dest := { w.dest with dest := w.counter, node := loc }
        counter := w.counter + 1
        calls := w.calls + 1
        log := w.log ++ [.newIn { w.dest with dest := w.counter } (w.stream.getD (.routed w.calls))] } := by
  unfold routeUpdate
  dsimp only
  rw [if_pos h, if_neg (fun heq => h (heq.trans hme.symm)), if_pos hme]

theorem routeUpdate_else (h : w.dest.node ≠ loc) (hfrom : w.dest.node ≠ me) (hto : loc ≠ me) :
    routeUpdate me loc w =
      { w with
        dest := { w.dest with dest := w.counter, node := loc }
        counter := w.counter + 1
        calls := w.calls + 1 } := by
  unfold routeUpdate
  dsimp only
  rw [if_pos h, if_neg hfrom, if_neg hto]

end

end SNet.Distrib.Route
