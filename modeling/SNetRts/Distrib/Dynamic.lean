import SNetRts.Distrib.RouteTables
import SNetRts.Lib.Run
import Mathlib.Algebra.Group.Nat.Defs

/-!
# Instances that are created at run time

`SNetRouteDynamicEnter` and `SNetRouteNewDynamic` (`distrib/common/distribcommon.c`), with the replicators
that create instances of their operand (`split.c`, `star.c`). In an instance the route counter begins at 0
again. Streams are told apart by the network and the index of the innermost instance only, so all goes
well if no two live instances of a network have the same index on one node, whatever they are nested in.
-/

namespace SNet.Distrib.Route

open Function (update update_of_ne update_self)

open SNet.Wire (CInt Dest)
open Lib List

/-! ## Creation -/

/-- `SNetRouteDynamicEnter`; `parent` is the number of `fun`, if that is not `NULL`. -/
def dynamicEnter (me dynamicIndex dynamicLoc : CInt) (parent : Option CInt) (w : Walk) : Walk :=
  let dest := { w.dest with dynamicIndex := dynamicIndex }
  { w with
    counter := 0
    dest :=
      match parent with
      | some parent => { dest with parent := parent, parentNode := me, dynamicLoc := dynamicLoc }
      | none => dest }

section

-- `nets` is `SNetIdToNet`: the network with this number, at a location
variable (nets : CInt → CInt → Net) (me : CInt)

/-- A replicator at `location`, with `dest` in its info, creates an instance of network `id` at `loc`. -/
def newInstance (dest : Dest) (index loc location id : CInt) : Walk :=
  routeUpdate me location
    (create me (nets id loc) (dynamicEnter me index loc (some id) ⟨some .input, dest, 0, 0, []⟩))

/-- The instance of `SplitBoxTask` for the value `i`. -/
def splitInstance (dest : Dest) (i location : CInt) (isByloc : Bool) (boxfun : CInt) : Walk :=
  newInstance nets me dest i (if isByloc then i else location) location boxfun

/-- The operand of `SNetSerialStarchild`; the next incarnation is at `location` as well, so that there is
no route to it. -/
def starInstance (dest : Dest) (topval location box : CInt) : Walk :=
  newInstance nets me dest topval location location box

/-- `SNetRouteNewDynamic`. -/
def newDynamic (dest : Dest) : Walk :=
  routeUpdate me dest.parentNode
    (create me (nets dest.parent dest.dynamicLoc)
      (dynamicEnter me dest.dynamicIndex dest.dynamicLoc none ⟨none, dest, 0, 0, []⟩))

end

/-! ## All nodes -/

def newIns (log : List Entry) : List (Dest × StreamId) :=
  log.filterMap fun
    | .newIn dest stream => some (dest, stream)
    | _ => none

def newOuts (log : List Entry) : List (Dest × Option StreamId) :=
  log.filterMap fun
    | .newOut dest stream => some (dest, stream)
    | _ => none

/-- A stream of an instance; instances are numbered as they are built, on whatever node. -/
structure InstanceStream (α : Type) where
  number : Nat
  stream : α
deriving DecidableEq

structure State where
  /-- `destMap` of the input managers. -/
  ins : CInt → List (Dest × InstanceStream StreamId)
  /-- `streamMap` of the output managers. -/
  outs : CInt → List (Dest × InstanceStream (Option StreamId))
  /-- How many instances have been built. -/
  instances : Nat

/-- The streams that a walk of node `me` has registered are there. -/
def State.register (s : State) (me : CInt) (w : Walk) : State where
  ins := update s.ins me (s.ins me ++ (newIns w.log).map fun e => (e.1, ⟨s.instances, e.2⟩))
  outs := update s.outs me (s.outs me ++ (newOuts w.log).map fun e => (e.1, ⟨s.instances, e.2⟩))
  instances := s.instances + 1

def State.init (nets : CInt → CInt → Net) : State :=
  (⟨fun _ => [], fun _ => [], 0⟩ : State).register 0 (build 0 (nets 0 0))

inductive Act where
  | split (me : CInt) (dest : Dest) (i location : CInt) (isByloc : Bool) (boxfun : CInt)
  | star (me : CInt) (dest : Dest) (topval location box : CInt)
  /-- A record comes to a stream that is not registered. -/
  | newDynamic (me : CInt) (dest : Dest)
  /-- A stream ends. -/
  | endIn (me : CInt) (n : Nat)
  | endOut (me : CInt) (n : Nat)

def step (nets : CInt → CInt → Net) (s : State) : Act → Outcome State
  | .split me dest i location isByloc boxfun =>
    .done (s.register me (splitInstance nets me dest i location isByloc boxfun))
  | .star me dest topval location box => .done (s.register me (starInstance nets me dest topval location box))
  | .newDynamic me dest =>
    if (s.ins me).any fun e => destCompare e.1 dest then .blocked
    else .done (s.register me (newDynamic nets me dest))
  | .endIn me n => .done { s with ins := update s.ins me ((s.ins me).eraseIdx n) }
  | .endOut me n => .done { s with outs := update s.outs me ((s.outs me).eraseIdx n) }

/-! ## Keys -/

def Distinct {α : Type} (l : List (Dest × α)) : Prop :=
  l.Pairwise fun e e' => destCompare e.1 e'.1 = false

/-- No stream belongs to an instance of network `parent` with index `dynamicIndex`. -/
def Free {α : Type} (l : List (Dest × α)) (parent dynamicIndex : CInt) : Prop :=
  ∀ e ∈ l, ¬ (e.1.parent = parent ∧ e.1.dynamicIndex = dynamicIndex)

/-- No live instance of the network on the node has this index, and the route counter does not overflow
in the new one. -/
def Single (s : State) (me parent dynamicIndex : CInt) (w : Walk) : Prop :=
  Free (s.ins me) parent dynamicIndex ∧ Free (s.outs me) parent dynamicIndex ∧ w.calls ≤ 2 ^ 32

/-- When an instance is built, it is the only one of its network with its index. -/
def Singly (nets : CInt → CInt → Net) (s : State) : Act → Prop
  | .split me dest i location isByloc boxfun =>
    Single s me boxfun i (splitInstance nets me dest i location isByloc boxfun)
  | .star me dest topval location box =>
    Single s me box topval (starInstance nets me dest topval location box)
  | .newDynamic me dest => Single s me dest.parent dest.dynamicIndex (newDynamic nets me dest)
  | _ => True

/-- On each node the keys tell the streams apart, and what is found under the key of a stream is this
stream. -/
structure Identified (s : State) : Prop where
  ins : ∀ me, Distinct (s.ins me)
  outs : ∀ me, Distinct (s.outs me)
  delivered : ∀ me, ∀ e ∈ s.ins me, ∀ dest, destCompare e.1 dest →
    (s.ins me).find? (fun e => destCompare e.1 dest) = some e

/-! ## What a walk registers -/

def Entry.dest : Entry → Dest
  | .newOut dest _ => dest
  | .newIn dest _ => dest

/-- The keys of a walk are those of one instance, and their numbers differ. -/
structure Keyed (parent dynamicIndex : CInt) (w : Walk) : Prop where
  ofNetwork : w.dest.parent = parent
  ofIndex : w.dest.dynamicIndex = dynamicIndex
  entries : ∀ e ∈ w.log, e.dest.parent = parent ∧ e.dest.dynamicIndex = dynamicIndex
  numbers : w.calls ≤ 2 ^ 32 → ∃ n ≤ w.calls, w.counter = BitVec.ofNat 32 n ∧
    (∀ e ∈ w.log, ∃ k < n, e.dest.dest = BitVec.ofNat 32 k) ∧
    w.log.Pairwise fun e e' => e.dest.dest ≠ e'.dest.dest

theorem Keyed.register {parent dynamicIndex : CInt} {w : Walk} (h : Keyed parent dynamicIndex w) {dest : Dest}
    (hparent : dest.parent = parent) (hindex : dest.dynamicIndex = dynamicIndex) {stream : Option StreamId}
    {log : List Entry} (hlog : log = [] ∨ ∃ e, log = [e] ∧ e.dest.parent = parent ∧
      e.dest.dynamicIndex = dynamicIndex ∧ e.dest.dest = w.counter) :
    Keyed parent dynamicIndex ⟨stream, dest, w.counter + 1, w.calls + 1, w.log ++ log⟩ where
  ofNetwork := hparent
  ofIndex := hindex
  entries := by
    intro e he
    rcases mem_append.1 he with he | he
    · exact h.entries e he
    · rcases hlog with rfl | ⟨e', rfl, hp, hi, -⟩
      · cases he
      · rw [mem_singleton.1 he]
        exact ⟨hp, hi⟩
  numbers := by
    intro hcalls
    dsimp only at hcalls ⊢
    obtain ⟨n, hn, hcounter, hnumbers, hpairwise⟩ := h.numbers (by omega)
    refine ⟨n + 1, by omega, by rw [hcounter, BitVec.ofNat_add]; rfl, fun e he => ?_, ?_⟩
    · rcases mem_append.1 he with he | he
      · obtain ⟨k, hk, heq⟩ := hnumbers e he
        exact ⟨k, by omega, heq⟩
      · rcases hlog with rfl | ⟨e', rfl, -, -, hnumber⟩
        · cases he
        · rw [mem_singleton.1 he]
          exact ⟨n, by omega, hnumber.trans hcounter⟩
    · rw [pairwise_append]
      refine ⟨hpairwise, ?_, fun e he e' he' => ?_⟩
      · rcases hlog with rfl | ⟨e', rfl, -⟩
        · exact .nil
        · exact pairwise_singleton _ _
      · obtain ⟨k, hk, heq⟩ := hnumbers e he
        rcases hlog with rfl | ⟨e'', rfl, -, -, hnumber⟩
        · cases he'
        · rw [mem_singleton.1 he', heq, hnumber, hcounter]
          intro hsame
          have := congrArg BitVec.toNat hsame
          rw [BitVec.toNat_ofNat, BitVec.toNat_ofNat, Nat.mod_eq_of_lt (by omega),
            Nat.mod_eq_of_lt (by omega)] at this
          omega

theorem keeps_keyed (me parent dynamicIndex : CInt) : Keeps me (Keyed parent dynamicIndex)
    (fun dest => dest.parent = parent ∧ dest.dynamicIndex = dynamicIndex) where
  dest h := ⟨h.ofNetwork, h.ofIndex⟩
  route := by
    intro w loc h
    have hp := h.ofNetwork
    have hi := h.ofIndex
    by_cases hsame : w.dest.node = loc
    · rw [routeUpdate_same hsame]
      refine { h with numbers := fun hcalls => ?_ }
      dsimp only at hcalls ⊢
      obtain ⟨n, hn, hrest⟩ := h.numbers (by omega)
      exact ⟨n, by omega, hrest⟩
    have hp' : ({ w.dest with dest := w.counter, node := loc } : Dest).parent = parent := hp
    have hi' : ({ w.dest with dest := w.counter, node := loc } : Dest).dynamicIndex = dynamicIndex := hi
    by_cases hfrom : w.dest.node = me
    · rw [routeUpdate_from hsame hfrom]
      exact h.register hp' hi'
        (Or.inr ⟨.newOut { w.dest with dest := w.counter, node := loc } w.stream, rfl, hp, hi, rfl⟩)
    by_cases hto : loc = me
    · rw [routeUpdate_to hsame hto]
      exact h.register hp' hi' (Or.inr ⟨.newIn { w.dest with dest := w.counter }
        (w.stream.getD (.routed w.calls)), rfl, hp, hi, rfl⟩)
    · rw [routeUpdate_else hsame hfrom hto]
      have hkeyed : Keyed parent dynamicIndex ⟨w.stream, { w.dest with dest := w.counter, node := loc },
          w.counter + 1, w.calls + 1, w.log ++ []⟩ := h.register hp' hi' (Or.inl rfl)
      rwa [append_nil] at hkeyed
  stream := fun _ _ h hd _ => { h with ofNetwork := hd.1, ofIndex := hd.2 }

theorem keyed_create {me parent dynamicIndex : CInt} {w : Walk} (h : Keyed parent dynamicIndex w) (net : Net)
    (loc : CInt) : Keyed parent dynamicIndex (routeUpdate me loc (create me net w)) := by
  have hP := keeps_keyed me parent dynamicIndex
  exact hP.route _ (hP.create net (hP.dest h) (hP.route _ h))

theorem keyed_start (stream : Option StreamId) (dest : Dest) :
    Keyed dest.parent dest.dynamicIndex ⟨stream, dest, 0, 0, []⟩ where
  ofNetwork := rfl
  ofIndex := rfl
  entries := nofun
  numbers := fun _ => ⟨0, Nat.le_refl 0, rfl, nofun, .nil⟩

theorem keyed_newInstance (nets : CInt → CInt → Net) (me : CInt) (dest : Dest) (index loc location id : CInt) :
    Keyed id index (newInstance nets me dest index loc location id) :=
  keyed_create (keyed_start (some .input)
    { dest with dynamicIndex := index, parent := id, parentNode := me, dynamicLoc := loc }) _ _

theorem keyed_newDynamic (nets : CInt → CInt → Net) (me : CInt) (dest : Dest) :
    Keyed dest.parent dest.dynamicIndex (newDynamic nets me dest) :=
  keyed_create (keyed_start none dest) _ _

theorem keyed_build (me : CInt) (net : Net) : Keyed 0 0 (build me net) :=
  keyed_create (keyed_start _ ⟨0, 0, 0, 0, 0, 0⟩) _ _

/-! ## Registration -/

theorem destCompare_number {d₁ d₂ : Dest} (h : d₁.dest ≠ d₂.dest) : destCompare d₁ d₂ = false := by
  simp [destCompare, h]

theorem destCompare_instance {d₁ d₂ : Dest}
    (h : ¬ (d₁.parent = d₂.parent ∧ d₁.dynamicIndex = d₂.dynamicIndex)) : destCompare d₁ d₂ = false := by
  unfold destCompare
  by_cases hp : d₁.parent = d₂.parent
  · have hi : d₁.dynamicIndex ≠ d₂.dynamicIndex := fun hi => h ⟨hp, hi⟩
    simp [hi]
  · simp [hp]

theorem distinct_register {α β : Type} {old : List (Dest × α)} {log : List Entry} {parent dynamicIndex : CInt}
    {pick : Entry → Option (Dest × β)} {g : β → α} (hold : Distinct old) (hfree : Free old parent dynamicIndex)
    (hpick : ∀ e x, pick e = some x → x.1 = e.dest)
    (hentries : ∀ e ∈ log, e.dest.parent = parent ∧ e.dest.dynamicIndex = dynamicIndex)
    (hnumbers : log.Pairwise fun e e' => e.dest.dest ≠ e'.dest.dest) :
    Distinct (old ++ (log.filterMap pick).map fun e => (e.1, g e.2)) := by
  refine pairwise_append.2 ⟨hold, ?_, ?_⟩
  · rw [pairwise_map, pairwise_filterMap]
    refine hnumbers.imp fun {e e'} hne x hx x' hx' => destCompare_number ?_
    rw [hpick e x hx, hpick e' x' hx']
    exact hne
  · intro e he e' he'
    obtain ⟨x, hx, rfl⟩ := List.mem_map.1 he'
    obtain ⟨entry, hentry, hx⟩ := mem_filterMap.1 hx
    obtain ⟨hp, hi⟩ := hentries entry hentry
    refine destCompare_instance fun hsame => hfree e he ?_
    rw [hpick entry x hx, hp, hi] at hsame
    exact hsame

/-- All keys of the input manager and all of the output manager differ. -/
def AllDistinct (s : State) : Prop := ∀ me, Distinct (s.ins me) ∧ Distinct (s.outs me)

theorem AllDistinct.register {s : State} (h : AllDistinct s) {me parent dynamicIndex : CInt} {w : Walk}
    (hkeyed : Keyed parent dynamicIndex w) (hsingle : Single s me parent dynamicIndex w) :
    AllDistinct (s.register me w) := by
  intro me'
  by_cases heq : me' = me
  · subst heq
    obtain ⟨hins, houts, hcalls⟩ := hsingle
    obtain ⟨-, -, -, -, hnumbers⟩ := hkeyed.numbers hcalls
    unfold State.register
    dsimp only
    rw [update_self, update_self]
    refine ⟨distinct_register (h me').1 hins ?_ hkeyed.entries hnumbers,
      distinct_register (h me').2 houts ?_ hkeyed.entries hnumbers⟩
    · intro e x hx
      cases e with
      | newIn dest stream =>
        cases hx
        rfl
      | newOut dest stream => cases hx
    · intro e x hx
      cases e with
      | newIn dest stream => cases hx
      | newOut dest stream =>
        cases hx
        rfl
  · unfold State.register
    dsimp only
    rw [update_of_ne heq, update_of_ne heq]
    exact h me'

theorem AllDistinct.step {nets : CInt → CInt → Net} {s s' : State} (h : AllDistinct s) {a : Act}
    (hok : Singly nets s a) (hs : step nets s a = .done s') : AllDistinct s' := by
  cases a with
  | split me dest i location isByloc boxfun =>
    cases hs
    exact h.register (keyed_newInstance nets me dest i _ location boxfun) hok
  | star me dest topval location box =>
    cases hs
    exact h.register (keyed_newInstance nets me dest topval location location box) hok
  | newDynamic me dest =>
    unfold Route.step at hs
    dsimp only at hs
    split at hs
    · cases hs
    · cases hs
      exact h.register (keyed_newDynamic nets me dest) hok
  | endIn me n =>
    cases hs
    intro me'
    refine ⟨?_, (h me').2⟩
    dsimp only
    by_cases heq : me' = me
    · subst heq
      rw [update_self]
      exact (h me').1.sublist (eraseIdx_sublist _ _)
    · rw [update_of_ne heq]
      exact (h me').1
  | endOut me n =>
    cases hs
    intro me'
    refine ⟨(h me').1, ?_⟩
    dsimp only
    by_cases heq : me' = me
    · subst heq
      rw [update_self]
      exact (h me').2.sublist (eraseIdx_sublist _ _)
    · rw [update_of_ne heq]
      exact (h me').2

/-! ## Runs -/

theorem AllDistinct.init (nets : CInt → CInt → Net) (hfits : (build 0 (nets 0 0)).calls ≤ 2 ^ 32) :
    AllDistinct (State.init nets) := by
  have hnone : AllDistinct ⟨fun _ => [], fun _ => [], 0⟩ := fun _ => ⟨.nil, .nil⟩
  exact hnone.register (keyed_build 0 (nets 0 0)) ⟨nofun, nofun, hfits⟩

theorem find_distinct {α : Type} {l : List (Dest × α)} (h : Distinct l) {e : Dest × α} (he : e ∈ l) {dest : Dest}
    (hdest : destCompare e.1 dest) : l.find? (fun e => destCompare e.1 dest) = some e := by
  induction l with
  | nil => cases he
  | cons e' l ih =>
    obtain ⟨hfirst, hrest⟩ := pairwise_cons.1 h
    rcases mem_cons.1 he with rfl | he
    · exact find?_cons_of_pos hdest
    · have hno : destCompare e'.1 dest = false := by
        have hne := hfirst e he
        cases hc : destCompare e'.1 dest with
        | false => rfl
        | true =>
          unfold destCompare at hne hc hdest
          simp_all
      rw [find?_cons_of_neg (by simp [hno])]
      exact ih hrest he

/-- The keys identify the streams of all nodes in every run in which no two live instances of a network on
one node have the same index. -/
theorem keys_identify (nets : CInt → CInt → Net) (hfits : (build 0 (nets 0 0)).calls ≤ 2 ^ 32) (s : State)
    (h : Reach (step nets) (Singly nets) (State.init nets) s) : Identified s := by
  have hall : AllDistinct s := h.invariant (AllDistinct.init nets hfits)
    fun _ _ _ hs hok hstep => hs.step hok hstep
  exact ⟨fun me => (hall me).1, fun me => (hall me).2, fun me _ he _ hdest => find_distinct (hall me).1 he hdest⟩

/-- A split inside a split: the operand of the outer one is the inner one, by location, of a box. -/
def nestedSplits (id loc : CInt) : Net :=
  if id = 0 then .split 0 else if id = 1 then .split loc else .box loc

/-- One instance of each split, with the instance on the other node. -/
theorem keys_identify_one : ∃ s, runAll (step nestedSplits) (State.init nestedSplits)
      [.split 0 ⟨0, 0, 0, 0, 0, 0⟩ 5 0 false 1, .split 0 ⟨0, 0, 1, 0, 5, 0⟩ 1 0 true 2,
        .newDynamic 1 ⟨0, 0, 2, 0, 1, 1⟩] = .done s ∧
    (s.outs 0).map Prod.fst = [⟨1, 0, 2, 0, 1, 1⟩] ∧ (s.ins 1).map Prod.fst = [⟨0, 0, 2, 0, 1, 1⟩] ∧
    Identified s := by
  have hok : Permitted (step nestedSplits) (Singly nestedSplits) (State.init nestedSplits)
      [.split 0 ⟨0, 0, 0, 0, 0, 0⟩ 5 0 false 1, .split 0 ⟨0, 0, 1, 0, 5, 0⟩ 1 0 true 2,
        .newDynamic 1 ⟨0, 0, 2, 0, 1, 1⟩] := by
    refine ⟨⟨nofun, nofun, by decide⟩, fun s hs => ?_⟩
    cases hs
    refine ⟨⟨nofun, nofun, by decide⟩, fun s hs => ?_⟩
    cases hs
    refine ⟨⟨nofun, nofun, by decide⟩, fun _ _ => trivial⟩
  exact ⟨_, rfl, rfl, rfl, keys_identify nestedSplits (by decide) _ (Reach.init.of_runAll hok rfl)⟩

/-- Two instances of the outer split, and in each of them the instance `1` of the inner one: the output
manager of node 0 has two streams with the same key. -/
theorem nested_splits_collide : ∃ s, runAll (step nestedSplits) (State.init nestedSplits)
      [.split 0 ⟨0, 0, 0, 0, 0, 0⟩ 5 0 false 1, .split 0 ⟨0, 0, 0, 0, 0, 0⟩ 6 0 false 1,
        .split 0 ⟨0, 0, 1, 0, 5, 0⟩ 1 0 true 2, .split 0 ⟨0, 0, 1, 0, 6, 0⟩ 1 0 true 2] = .done s ∧
    s.outs 0 = [(⟨1, 0, 2, 0, 1, 1⟩, ⟨3, some .input⟩), (⟨1, 0, 2, 0, 1, 1⟩, ⟨4, some .input⟩)] ∧
    ¬ Identified s := by
  refine ⟨_, rfl, rfl, fun h => ?_⟩
  have houts := h.outs 0
  have hfirst := (pairwise_cons.1 houts).1 _ mem_cons_self
  cases hfirst

end SNet.Distrib.Route
