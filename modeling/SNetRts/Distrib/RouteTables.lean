import SNetRts.Distrib.Network

/-!
# The route tables of all nodes

All nodes make the same calls of `SNetRouteUpdate` in the same order, so what one of them registers for a
stream has the number that the other one has for it. The tables are right if each split is placed on the
node that its input comes from. `CreateSplit` puts the route to it into a copy of the info, so that
otherwise the next route begins at the node before the split, where there is no stream.
-/

namespace SNet.Distrib.Route

open List

open SNet.Wire (CInt Dest)

/-! ## Agreement -/

/-- What a node has registered as going to node `target`. -/
def outs (w : Walk) (target : CInt) : List (Dest × Option StreamId) :=
  w.log.filterMap fun
    | .newOut dest stream => if dest.node = target then some (dest, stream) else none
    | _ => none

/-- What a node has registered as coming from node `source`. -/
def ins (w : Walk) (source : CInt) : List (Dest × StreamId) :=
  w.log.filterMap fun
    | .newIn dest stream => if dest.node = source then some (dest, stream) else none
    | _ => none

/-- What is registered at both ends of a stream from node `A` to node `B`: the same key, up to the node,
and the stream between the same entities. -/
def Matched (edges : List Edge) (A B : CInt) (o : Dest × Option StreamId) (i : Dest × StreamId) : Prop :=
  o.1.dest = i.1.dest ∧ o.1.parent = i.1.parent ∧ o.1.dynamicIndex = i.1.dynamicIndex ∧
    ∃ e ∈ edges, e.fromNode = A ∧ e.toNode = B ∧ o.2 = some e.source ∧ i.2 = .routed e.call

/-- The tables of all nodes agree, and have all streams that lead from one node to another. -/
structure Agree (walk : CInt → Walk) (edges : List Edge) : Prop where
  both : ∀ A B, A ≠ B → List.Forall₂ (Matched edges A B) (outs (walk A) B) (ins (walk B) A)
  complete : ∀ e ∈ edges, e.fromNode ≠ e.toNode → ∃ dest, .newIn dest (.routed e.call) ∈ (walk e.toNode).log

def Net.last : Net → CInt
  | .box location => location
  | .filter location _ => location
  | .nameShift location => location
  | .sync location => location
  | .star location => location
  | .split location => location
  | .serial _ b => b.last
  | .parallel location _ => location
  | .feedback location _ => location

def Net.first : Net → CInt
  | .box location => location
  | .filter location _ => location
  | .nameShift location => location
  | .sync location => location
  | .star location => location
  | .split location => location
  | .serial a _ => a.first
  | .parallel location _ => location
  | .feedback location _ => location

mutual

/-- Every split is placed on the node that its input comes from, `node` being the one that the input of
the network comes from. -/
def Net.InPlace : Net → CInt → Prop
  | .split location, node => location = node
  | .serial a b, node => a.InPlace node ∧ b.InPlace a.last
  | .parallel location branches, _ => branches.InPlace location
  | .feedback location operand, _ => operand.InPlace location
  | _, _ => True

def Branches.InPlace : Branches → CInt → Prop
  | .last branch, node => branch.InPlace node
  | .cons branch branches, node => branch.InPlace node ∧ branches.InPlace node

end

/-! ## What a node has registered for the streams so far -/

def key (node number : CInt) : Dest := ⟨node, number, 0, 0, 0, 0⟩

/-- What node `me` registers for a stream. -/
def Edge.at (me : CInt) (e : Edge) : Option Entry :=
  if e.fromNode = e.toNode then none
  else if e.fromNode = me then some (.newOut (key e.toNode e.number) (some e.source))
  else if e.toNode = me then some (.newIn (key e.fromNode e.number) (.routed e.call))
  else none

/-- The walk of node `me` has registered what it should for the streams of `f`; in the info the stream is
on `node`. -/
structure SoundAt (me : CInt) (w : Walk) (f : Flow) (node : CInt) : Prop where
  dest : ∃ n, w.dest = key node n
  stream : w.stream = if f.node = me then some f.source else none
  counter : w.counter = f.crossed
  calls : w.calls = f.calls
  log : w.log = f.edges.filterMap (Edge.at me)
  numbered : ∀ e ∈ f.edges, e.call < f.calls

def Sound (me : CInt) (w : Walk) (f : Flow) : Prop := SoundAt me w f f.node

section

variable {me loc : CInt} {w : Walk} {f : Flow} {node : CInt}

theorem Flow.calls_goTo (loc : CInt) (f : Flow) : (f.goTo loc).calls = f.calls + 1 := by
  simp [Flow.calls, Flow.goTo]

theorem SoundAt.numbered_goTo (h : SoundAt me w f node) (loc : CInt) :
    ∀ e ∈ (f.goTo loc).edges, e.call < (f.goTo loc).calls := by
  intro e he
  rw [Flow.calls_goTo]
  rcases mem_append.1 he with he | he
  · exact Nat.lt_succ_of_lt (h.numbered e he)
  · rw [mem_singleton.1 he]
    exact Nat.lt_succ_self _

theorem Sound.routeUpdate (h : Sound me w f) (loc : CInt) : Sound me (routeUpdate me loc w) (f.goTo loc) := by
  obtain ⟨⟨n, hdest⟩, hstream, hcounter, hcalls, hlog, hnumbered⟩ := id h
  have hnode : w.dest.node = f.node := congrArg Dest.node hdest
  have hnumbered' := SoundAt.numbered_goTo h loc
  have hcalls' : w.calls + 1 = (f.goTo loc).calls := by rw [Flow.calls_goTo, hcalls]
  by_cases hsame : f.node = loc
  · -- the stream stays on its node
    rw [routeUpdate_same (hnode.trans hsame)]
    refine ⟨⟨n, ?_⟩, ?_, ?_, hcalls', ?_, hnumbered'⟩
    · exact hdest.trans (by rw [hsame]; rfl)
    · simp [Flow.goTo, hstream, hsame]
    · simp [Flow.goTo, hcounter, hsame]
    · simp [Flow.goTo, hlog, hsame, Edge.at]
  have hne : w.dest.node ≠ loc := by
    rw [hnode]
    exact hsame
  have hkey : { w.dest with dest := w.counter, node := loc } = key loc f.crossed := by
    rw [hdest, hcounter]
    rfl
  have hkey' : { w.dest with dest := w.counter } = key f.node f.crossed := by
    rw [hdest, hcounter]
    rfl
  have hcounter' : w.counter + 1 = (f.goTo loc).crossed := by
    rw [hcounter]
    exact (if_neg hsame).symm
  have hlog' : ∀ entry, Edge.at me ⟨f.calls, f.source, f.node, loc, f.crossed⟩ = entry →
      w.log ++ entry.toList = (f.goTo loc).edges.filterMap (Edge.at me) := by
    rintro _ rfl
    unfold Flow.goTo
    rw [hlog, filterMap_append, filterMap_cons]
    cases Edge.at me ⟨f.calls, f.source, f.node, loc, f.crossed⟩ <;> rfl
  have hgone : (f.goTo loc).source = .routed f.calls := if_neg hsame
  by_cases hfrom : f.node = me
  · rw [routeUpdate_from hne (hnode.trans hfrom)]
    refine ⟨⟨_, hkey⟩, ?_, hcounter', hcalls', ?_, hnumbered'⟩
    · exact (if_neg fun heq : loc = me => hsame (hfrom.trans heq.symm)).symm
    · rw [hkey, hstream, if_pos hfrom]
      refine hlog' (some _) ?_
      unfold Edge.at
      rw [if_neg hsame, if_pos hfrom]
  · have hnone : w.stream = none := hstream.trans (if_neg hfrom)
    by_cases hto : loc = me
    · rw [routeUpdate_to hne hto]
      refine ⟨⟨_, hkey⟩, ?_, hcounter', hcalls', ?_, hnumbered'⟩
      · rw [hnone, hgone, hcalls]
        exact (if_pos hto).symm
      · rw [hkey', hnone, hcalls]
        refine hlog' (some _) ?_
        unfold Edge.at
        rw [if_neg hsame, if_neg hfrom, if_pos hto]
        rfl
    · rw [routeUpdate_else hne (fun heq => hfrom (hnode.symm.trans heq)) hto]
      refine ⟨⟨_, hkey⟩, ?_, hcounter', hcalls', ?_, hnumbered'⟩
      · exact hnone.trans (if_neg hto).symm
      · rw [← hlog' none, Option.toList_none, append_nil]
        unfold Edge.at
        rw [if_neg hsame, if_neg hfrom, if_neg hto]

theorem SoundAt.setSource (h : SoundAt me w f node) (source : StreamId) :
    SoundAt me { w with stream := if f.node = me then some source else w.stream } { f with source := source }
      node :=
  { h with
    stream := by
      dsimp only
      split
      · rfl
      case isFalse hne => exact h.stream.trans (if_neg hne) }

theorem Sound.createEntity (h : Sound me w f) (loc : CInt) (bypass : Bool) :
    Sound me (createEntity me loc bypass w) (f.entity loc bypass) := by
  have hroute := h.routeUpdate loc
  unfold Route.createEntity Flow.entity
  dsimp only
  cases bypass with
  | true =>
    rw [if_neg (fun hb => Bool.noConfusion hb.2), if_pos rfl]
    exact hroute
  | false =>
    rw [if_neg Bool.false_ne_true, ← h.calls]
    have hset := SoundAt.setSource hroute (.out w.calls)
    have heq : (if loc = me ∧ false = false then
        { Route.routeUpdate me loc w with stream := some (.out w.calls) }
        else Route.routeUpdate me loc w) =
        { Route.routeUpdate me loc w with
          stream := if (f.goTo loc).node = me then some (.out w.calls) else (Route.routeUpdate me loc w).stream } := by
      by_cases hme : loc = me
      · rw [if_pos ⟨hme, rfl⟩, if_pos (show (f.goTo loc).node = me from hme)]
      · rw [if_neg (fun hc => hme hc.1), if_neg (show ¬ (f.goTo loc).node = me from hme)]
    rw [heq]
    exact hset

theorem Sound.createSplit (h : Sound me w f) (loc : CInt) :
    SoundAt me (createSplit me loc w) (f.entity loc false) f.node := by
  have hset := SoundAt.setSource (h.routeUpdate loc) (.out w.calls)
  rw [h.calls] at hset
  unfold Route.createSplit Flow.entity
  dsimp only
  rw [if_neg Bool.false_ne_true, h.calls]
  exact { hset with dest := h.dest }

theorem Branches.node_flow (loc : CInt) (call : Nat) (branches : Branches) (i : Nat) (f : Flow) :
    (branches.flow loc call i f).node = loc := by
  match branches with
  | .last _ => rfl
  | .cons _ branches => exact branches.node_flow loc call (i + 1) _

theorem Net.node_flow (net : Net) (f : Flow) : (net.flow f).node = net.last := by
  match net with
  | .box _ | .nameShift _ | .sync _ | .star _ | .split _ => rfl
  | .filter _ isBypass => cases isBypass <;> rfl
  | .serial a b => exact b.node_flow _
  | .parallel _ _ => rfl
  | .feedback _ _ => rfl

theorem Sound.branch (h : Sound me w f) (hnode : f.node = loc) {dest : Dest} (hdest : ∃ n, dest = key loc n)
    (call i : Nat) :
    Sound me { w with dest := dest, stream := if loc = me then some (.branch call i) else w.stream }
      { f with source := .branch call i, node := loc } := by
  subst hnode
  exact { SoundAt.setSource h (.branch call i) with dest := hdest }

mutual

theorem Sound.create (net : Net) {w : Walk} {f : Flow} (h : Sound me w f) (hplace : net.InPlace f.node) :
    Sound me (create me net w) (net.flow f) := by
  match net, hplace with
  | .box loc, _ => exact h.createEntity loc false
  | .filter loc isBypass, _ => exact h.createEntity loc isBypass
  | .nameShift loc, _ => exact h.createEntity loc false
  | .sync loc, _ => exact h.createEntity loc false
  | .star loc, _ => exact h.createEntity loc false
  | .split loc, hplace =>
    have hsplit := h.createSplit loc
    rw [← (hplace : loc = f.node)] at hsplit
    exact hsplit
  | .serial a b, hplace =>
    obtain ⟨ha, hb⟩ := hplace
    refine Sound.create b (Sound.create a h ha) ?_
    rw [a.node_flow f]
    exact hb
  | .parallel loc branches, hplace =>
    have hroute := h.routeUpdate loc
    have hbranches := Sound.createBranches loc f.calls branches 0 hroute rfl hroute.dest hplace
    have hset := SoundAt.setSource hbranches (.out f.calls)
    rw [branches.node_flow loc f.calls] at hset
    unfold Route.create Net.flow
    dsimp only
    rw [h.calls]
    exact { hset with dest := hroute.dest, stream := hset.stream }
  | .feedback loc operand, hplace =>
    have hstart := SoundAt.setSource (h.routeUpdate loc) (.branch f.calls 0)
    have hoperand := Sound.create operand (show Sound me _ _ from hstart) hplace
    have hset := SoundAt.setSource (hoperand.routeUpdate loc) (.out f.calls)
    unfold Route.create Net.flow
    dsimp only
    rw [h.calls]
    exact hset

theorem Sound.createBranches (loc : CInt) (call : Nat) (branches : Branches) (i : Nat) {w : Walk} {f : Flow}
    (h : Sound me w f) (hnode : f.node = loc) {dest : Dest} (hdest : ∃ n, dest = key loc n)
    (hplace : branches.InPlace loc) :
    Sound me (createBranches me loc call branches i dest w) (branches.flow loc call i f) := by
  have hstart := h.branch hnode hdest call i
  match branches, hplace with
  | .last branch, hplace => exact (Sound.create branch hstart hplace).routeUpdate loc
  | .cons branch branches, hplace =>
    obtain ⟨hbranch, hrest⟩ := hplace
    have hroute := (Sound.create branch hstart hbranch).routeUpdate loc
    exact Sound.createBranches loc call branches (i + 1) hroute rfl hdest hrest

end

end

/-! ## The tables agree -/

theorem forall₂_filterMap {α β γ : Type} {R : β → γ → Prop} {f : α → Option β} {g : α → Option γ} {l : List α}
    (h : ∀ x ∈ l, (f x = none ∧ g x = none) ∨ ∃ a b, f x = some a ∧ g x = some b ∧ R a b) :
    List.Forall₂ R (l.filterMap f) (l.filterMap g) := by
  induction l with
  | nil => exact .nil
  | cons x l ih =>
    have ih := ih fun y hy => h y (mem_cons_of_mem _ hy)
    rcases h x mem_cons_self with ⟨hf, hg⟩ | ⟨a, b, hf, hg, hR⟩
    · rwa [filterMap_cons_none hf, filterMap_cons_none hg]
    · rw [filterMap_cons_some hf, filterMap_cons_some hg]
      exact .cons hR ih

variable {walk : CInt → Walk} {f : Flow}

theorem agree_of_sound (h : ∀ me, Sound me (walk me) f) : Agree walk f.edges where
  both := by
    intro A B hAB
    unfold outs ins
    rw [(h A).log, (h B).log, filterMap_filterMap, filterMap_filterMap]
    refine forall₂_filterMap fun e he => ?_
    unfold Edge.at
    by_cases hsame : e.fromNode = e.toNode
    · rw [if_pos hsame, if_pos hsame]
      exact Or.inl ⟨rfl, rfl⟩
    rw [if_neg hsame, if_neg hsame]
    by_cases hA : e.fromNode = A
    · rw [if_pos hA, if_neg fun heq => hAB (hA.symm.trans heq)]
      by_cases hB : e.toNode = B
      · rw [if_pos hB]
        refine Or.inr ⟨_, _, if_pos hB, if_pos hA, rfl, rfl, rfl, e, he, hA, hB, rfl, rfl⟩
      · rw [if_neg hB]
        exact Or.inl ⟨if_neg hB, rfl⟩
    · rw [if_neg hA]
      refine Or.inl ⟨?_, ?_⟩
      · split <;> rfl
      · by_cases hfrom : e.fromNode = B
        · rw [if_pos hfrom]
          rfl
        · rw [if_neg hfrom]
          split
          · exact if_neg hA
          · rfl
  complete := by
    intro e he hne
    refine ⟨key e.fromNode e.number, ?_⟩
    rw [(h e.toNode).log, mem_filterMap]
    refine ⟨e, he, ?_⟩
    unfold Edge.at
    rw [if_neg hne, if_neg hne, if_pos rfl]

/-! ## A split that is not in place -/

/-- What a walk keeps through `SNetRouteUpdate` and where an entity gives it another stream, or an info
with a destination that meets `D`. -/
structure Keeps (me : CInt) (P : Walk → Prop) (D : Dest → Prop) : Prop where
  dest : ∀ {w : Walk}, P w → D w.dest
  route : ∀ {w : Walk} (loc : CInt), P w → P (routeUpdate me loc w)
  stream : ∀ {w : Walk} (dest : Dest) (s : Option StreamId), P w → D dest →
    (s = w.stream ∨ (∃ c, s = some (.out c)) ∨ ∃ c i, s = some (.branch c i)) →
    P { w with dest := dest, stream := s }

section

variable {me : CInt} {P : Walk → Prop} {D : Dest → Prop} {w : Walk} {dest : Dest}

theorem Keeps.stream_if (hP : Keeps me P D) (h : P w) (hd : D dest) (c : Prop) [Decidable c] (call : Nat) :
    P { w with dest := dest, stream := if c then some (.out call) else w.stream } := by
  refine hP.stream dest _ h hd ?_
  split
  · exact Or.inr (Or.inl ⟨_, rfl⟩)
  · exact Or.inl rfl

theorem Keeps.branch_if (hP : Keeps me P D) (h : P w) (hd : D dest) (c : Prop) [Decidable c] (call i : Nat) :
    P { w with dest := dest, stream := if c then some (.branch call i) else w.stream } := by
  refine hP.stream dest _ h hd ?_
  split
  · exact Or.inr (Or.inr ⟨_, _, rfl⟩)
  · exact Or.inl rfl

theorem Keeps.createEntity (hP : Keeps me P D) {loc : CInt} (h : P (routeUpdate me loc w)) (bypass : Bool) :
    P (createEntity me loc bypass w) := by
  unfold Route.createEntity
  dsimp only
  split
  · exact hP.stream _ _ h (hP.dest h) (Or.inr (Or.inl ⟨_, rfl⟩))
  · exact h

mutual

theorem Keeps.create (hP : Keeps me P D) (net : Net) {w : Walk} (hd : D w.dest)
    (h : P (routeUpdate me net.first w)) : P (create me net w) := by
  match net with
  | .box loc | .nameShift loc | .sync loc | .star loc => exact hP.createEntity h false
  | .filter loc isBypass => exact hP.createEntity h isBypass
  | .split loc => exact hP.stream_if h hd _ _
  | .serial a b =>
    have ha := Keeps.create hP a hd h
    exact Keeps.create hP b (hP.dest ha) (hP.route _ ha)
  | .parallel loc branches =>
    exact hP.stream_if (Keeps.createBranches hP loc w.calls branches 0 (hP.dest h) h) (hP.dest h) _ _
  | .feedback loc operand =>
    have hstart := hP.branch_if h (hP.dest h) (loc = me) w.calls 0
    have hend := hP.route loc (Keeps.create hP operand (hP.dest hstart) (hP.route _ hstart))
    exact hP.stream_if hend (hP.dest hend) _ _

theorem Keeps.createBranches (hP : Keeps me P D) (loc : CInt) (call : Nat) (branches : Branches) (i : Nat)
    {dest : Dest} (hd : D dest) {w : Walk} (h : P w) :
    P (createBranches me loc call branches i dest w) := by
  have hstart := hP.branch_if h hd (loc = me) call i
  match branches with
  | .last branch => exact hP.route loc (Keeps.create hP branch hd (hP.route _ hstart))
  | .cons branch branches =>
    exact Keeps.createBranches hP loc call branches (i + 1) hd
      (hP.route loc (Keeps.create hP branch hd (hP.route _ hstart)))

end

end

def anyDest (_ : Dest) : Prop := True

theorem keeps_mem (me : CInt) (entry : Entry) : Keeps me (fun w => entry ∈ w.log) anyDest where
  dest _ := trivial
  route := by
    intro w loc h
    unfold Route.routeUpdate
    dsimp only
    split
    · split
      · exact mem_append_left _ h
      · split
        · exact mem_append_left _ h
        · exact h
    · exact h
  stream := fun _ _ h _ _ => h

/-- The stream of the call `c` has not been created, and will not be. -/
def Lacks (c : Nat) (w : Walk) : Prop :=
  c < w.calls ∧ (∀ dest, .newIn dest (.routed c) ∉ w.log) ∧ w.stream ≠ some (.routed c)

theorem keeps_lacks (me : CInt) (c : Nat) : Keeps me (Lacks c) anyDest where
  dest _ := trivial
  route := by
    rintro w loc ⟨hlt, hlog, hstream⟩
    by_cases hsame : w.dest.node = loc
    · rw [routeUpdate_same hsame]
      exact ⟨Nat.lt_succ_of_lt hlt, hlog, hstream⟩
    by_cases hfrom : w.dest.node = me
    · rw [routeUpdate_from hsame hfrom]
      refine ⟨Nat.lt_succ_of_lt hlt, fun dest hmem => ?_, nofun⟩
      rcases mem_append.1 hmem with hmem | hmem
      · exact hlog dest hmem
      · cases mem_singleton.1 hmem
    by_cases hto : loc = me
    · rw [routeUpdate_to hsame hto]
      have hne : w.stream.getD (.routed w.calls) ≠ .routed c := by
        intro heq
        cases hs : w.stream with
        | none =>
          rw [hs] at heq
          cases heq
          exact Nat.lt_irrefl _ hlt
        | some x =>
          rw [hs] at heq
          exact hstream (hs.trans (congrArg some heq))
      refine ⟨Nat.lt_succ_of_lt hlt, fun dest hmem => ?_, fun heq => hne (Option.some.inj heq)⟩
      rcases mem_append.1 hmem with hmem | hmem
      · exact hlog dest hmem
      · exact hne (Entry.newIn.inj (mem_singleton.1 hmem)).2.symm
    · rw [routeUpdate_else hsame hfrom hto]
      exact ⟨Nat.lt_succ_of_lt hlt, hlog, hstream⟩
  stream := by
    rintro w dest s ⟨hlt, hlog, hstream⟩ - hs
    refine ⟨hlt, hlog, ?_⟩
    rcases hs with rfl | ⟨_, rfl⟩ | ⟨_, _, rfl⟩
    · exact hstream
    · exact nofun
    · exact nofun

/-- A node has registered a stream that it does not have, or a stream to a node has not been registered
there and will not be. -/
def Broken (walk : CInt → Walk) (edges : List Edge) : Prop :=
  (∃ A dest, dest.node ≠ A ∧ .newOut dest none ∈ (walk A).log) ∨
    ∃ e ∈ edges, e.fromNode ≠ e.toNode ∧ Lacks e.call (walk e.toNode)

theorem Broken.keep {walk walk' : CInt → Walk} {edges edges' : List Edge} (h : Broken walk edges)
    (hwalk : ∀ me P, Keeps me P anyDest → P (walk me) → P (walk' me)) (hedges : ∀ e ∈ edges, e ∈ edges') :
    Broken walk' edges' := by
  rcases h with ⟨A, dest, hne, hmem⟩ | ⟨e, he, hne, hlacks⟩
  · exact Or.inl ⟨A, dest, hne, hwalk A _ (keeps_mem A _) hmem⟩
  · exact Or.inr ⟨e, hedges e he, hne, hwalk e.toNode _ (keeps_lacks e.toNode e.call) hlacks⟩

theorem exists_of_mem_left {α β : Type} {R : α → β → Prop} {as : List α} {bs : List β}
    (h : List.Forall₂ R as bs) {a : α} (ha : a ∈ as) : ∃ b ∈ bs, R a b := by
  induction h with
  | nil => cases ha
  | cons hR _ ih =>
    rcases mem_cons.1 ha with rfl | ha
    · exact ⟨_, mem_cons_self, hR⟩
    · obtain ⟨b, hb, hR⟩ := ih ha
      exact ⟨b, mem_cons_of_mem _ hb, hR⟩

theorem Broken.not_agree {edges : List Edge} (h : Broken walk edges) : ¬ Agree walk edges := by
  intro hagree
  rcases h with ⟨A, dest, hne, hmem⟩ | ⟨e, he, hne, -, hlog, -⟩
  · have hout : (dest, none) ∈ outs (walk A) dest.node :=
      mem_filterMap.2 ⟨_, hmem, if_pos rfl⟩
    obtain ⟨i, -, -, -, -, e, -, -, -, hsource, -⟩ :=
      exists_of_mem_left (hagree.both A dest.node hne.symm) hout
    cases hsource
  · obtain ⟨dest, hmem⟩ := hagree.complete e he hne
    exact hlog dest hmem

theorem Flow.mem_goTo {e : Edge} (h : e ∈ f.edges) (loc : CInt) : e ∈ (f.goTo loc).edges :=
  mem_append_left _ h

mutual

theorem Net.mem_flow (net : Net) {e : Edge} {f : Flow} (h : e ∈ (f.goTo net.first).edges) :
    e ∈ (net.flow f).edges := by
  match net with
  | .box loc | .nameShift loc | .sync loc | .star loc | .split loc => exact h
  | .filter loc isBypass => cases isBypass <;> exact h
  | .serial a b => exact b.mem_flow (Flow.mem_goTo (a.mem_flow h) _)
  | .parallel loc branches => exact branches.mem_flow loc f.calls 0 h
  | .feedback loc operand =>
    have hstart : e ∈ ({ f.goTo loc with source := .branch f.calls 0 } : Flow).edges := h
    exact Flow.mem_goTo (operand.mem_flow (Flow.mem_goTo hstart _)) loc

theorem Branches.mem_flow (loc : CInt) (call : Nat) (branches : Branches) (i : Nat) {e : Edge} {f : Flow}
    (h : e ∈ f.edges) : e ∈ (branches.flow loc call i f).edges := by
  have hstart : e ∈ ({ f with source := .branch call i, node := loc } : Flow).edges := h
  match branches with
  | .last branch => exact Flow.mem_goTo (branch.mem_flow (Flow.mem_goTo hstart _)) loc
  | .cons branch branches =>
    exact branches.mem_flow loc call (i + 1)
      (Flow.mem_goTo (branch.mem_flow (Flow.mem_goTo hstart _)) loc)

end

/-- The info of all nodes is wrong about where the stream is, or something is broken already. -/
def Trouble (walk : CInt → Walk) (f : Flow) : Prop :=
  (∃ node, node ≠ f.node ∧ ∀ me, SoundAt me (walk me) f node) ∨ Broken walk f.edges

theorem Trouble.routeUpdate (h : Trouble walk f) (loc : CInt) :
    Broken (fun me => routeUpdate me loc (walk me)) (f.goTo loc).edges := by
  rcases h with ⟨node, hne, h⟩ | h
  · have hnode : (walk node).dest.node = node := by
      obtain ⟨n, hdest⟩ := (h node).dest
      rw [hdest]
      rfl
    have hnone : (walk node).stream = none := (h node).stream.trans (if_neg (Ne.symm hne))
    by_cases hloc : node = loc
    · -- the route to where the stream seems to be is not registered
      subst hloc
      refine Or.inr ⟨⟨f.calls, f.source, f.node, node, f.crossed⟩, ?_, hne.symm, ?_⟩
      · exact mem_append_right _ mem_cons_self
      · dsimp only
        rw [routeUpdate_same hnode]
        refine ⟨by rw [← (h node).calls]; exact Nat.lt_succ_self _, fun dest hmem => ?_, ?_⟩
        · dsimp only at hmem
          rw [(h node).log] at hmem
          obtain ⟨e, he, heq⟩ := mem_filterMap.1 hmem
          unfold Edge.at at heq
          split at heq
          · cases heq
          · split at heq
            · cases heq
            · split at heq
              · have hcall := StreamId.routed.inj (Entry.newIn.inj (Option.some.inj heq)).2
                exact Nat.lt_irrefl _ (hcall ▸ (h node).numbered e he)
              · cases heq
        · rw [hnone]
          exact nofun
    · -- the node where the stream seems to be registers what it does not have
      refine Or.inl ⟨node, { (walk node).dest with dest := (walk node).counter, node := loc }, Ne.symm hloc, ?_⟩
      dsimp only
      rw [routeUpdate_from (fun heq => hloc (hnode.symm.trans heq)) hnode, hnone]
      exact mem_append_right _ mem_cons_self
  · exact h.keep (fun _ _ hP hw => hP.route loc hw) fun e he => Flow.mem_goTo he loc

theorem Trouble.create (h : Trouble walk f) (net : Net) :
    Broken (fun me => create me net (walk me)) (net.flow f).edges :=
  (h.routeUpdate net.first).keep (fun _ _ hP hw => hP.create net trivial hw) fun _ he => net.mem_flow he

mutual

theorem trouble_of_not_inPlace (net : Net) {walk : CInt → Walk} {f : Flow}
    (h : ∀ me, Sound me (walk me) f) (hplace : ¬ net.InPlace f.node) :
    Trouble (fun me => create me net (walk me)) (net.flow f) := by
  match net, hplace with
  | .box _, hplace | .nameShift _, hplace | .sync _, hplace | .star _, hplace | .filter _ _, hplace =>
    exact absurd trivial hplace
  | .split loc, hplace =>
    exact Or.inl ⟨f.node, fun heq => hplace heq.symm, fun me => (h me).createSplit loc⟩
  | .serial a b, hplace =>
    by_cases ha : a.InPlace f.node
    · have hb : ¬ b.InPlace (a.flow f).node := fun hb => hplace ⟨ha, a.node_flow f ▸ hb⟩
      exact trouble_of_not_inPlace b (fun me => Sound.create a (h me) ha) hb
    · exact Or.inr ((trouble_of_not_inPlace a h ha).create b)
  | .parallel loc branches, hplace =>
    have hbranches := broken_of_not_inPlace loc f.calls branches 0 (fun me => (h me).routeUpdate loc) rfl
      (fun me => (routeUpdate me loc (walk me)).dest) (fun me => ((h me).routeUpdate loc).dest) hplace
    refine Or.inr (hbranches.keep (fun me P hP hw => ?_) fun _ he => he)
    have := (h me).calls
    unfold Route.create
    dsimp only
    rw [this]
    exact hP.stream_if hw trivial _ _
  | .feedback loc operand, hplace =>
    have hstart := fun me => SoundAt.setSource ((h me).routeUpdate loc) (.branch f.calls 0)
    have hoperand := trouble_of_not_inPlace operand hstart hplace
    refine Or.inr ((hoperand.routeUpdate loc).keep (fun me P hP hw => ?_) fun _ he => he)
    have := (h me).calls
    unfold Route.create
    dsimp only
    rw [this]
    exact hP.stream_if hw trivial _ _

theorem broken_of_not_inPlace (loc : CInt) (call : Nat) (branches : Branches) (i : Nat)
    {walk : CInt → Walk} {f : Flow} (h : ∀ me, Sound me (walk me) f) (hnode : f.node = loc)
    (dest : CInt → Dest) (hdest : ∀ me, ∃ n, dest me = key loc n) (hplace : ¬ branches.InPlace loc) :
    Broken (fun me => createBranches me loc call branches i (dest me) (walk me))
      (branches.flow loc call i f).edges := by
  have hstart : ∀ me, Sound me
      { walk me with dest := dest me, stream := if loc = me then some (.branch call i) else (walk me).stream }
      { f with source := .branch call i, node := loc } := fun me => (h me).branch hnode (hdest me) call i
  match branches, hplace with
  | .last branch, hplace => exact (trouble_of_not_inPlace branch hstart hplace).routeUpdate loc
  | .cons branch branches, hplace =>
    by_cases hbranch : branch.InPlace loc
    · have hrest : ¬ branches.InPlace loc := fun hrest => hplace ⟨hbranch, hrest⟩
      exact broken_of_not_inPlace loc call branches (i + 1)
        (fun me => (Sound.create branch (hstart me) hbranch).routeUpdate loc) rfl dest hdest hrest
    · exact ((trouble_of_not_inPlace branch hstart hbranch).routeUpdate loc).keep
        (fun _ _ hP hw => hP.createBranches loc call branches (i + 1) trivial hw)
        fun _ he => branches.mem_flow loc call (i + 1) he

end

/-! ## The whole network -/

theorem Sound.init (me : CInt) : Sound me (Walk.init me) ⟨.input, 0, 0, []⟩ where
  dest := ⟨0, rfl⟩
  stream := by
    by_cases h : me = 0
    · rw [if_pos h.symm]
      exact if_pos h
    · rw [if_neg (Ne.symm h)]
      exact if_neg h
  counter := rfl
  calls := rfl
  log := rfl
  numbered := nofun

/-- The route tables of all nodes agree, and have the streams of the network, if and only if every split
is placed on the node that its input comes from. -/
theorem tables_agree_iff (net : Net) : Agree (fun me => build me net) net.edges ↔ net.InPlace 0 := by
  constructor
  · intro h
    by_contra hplace
    exact ((trouble_of_not_inPlace net Sound.init hplace).routeUpdate 0).not_agree h
  · intro hplace
    exact agree_of_sound fun me => (Sound.create net (Sound.init me) hplace).routeUpdate 0

/-- A split on node 1 before a box on node 2: node 0 registers a stream to node 2 that it does not have,
and node 1 does not register the one it has. -/
theorem split_misrouted :
    (build 0 (.serial (.split 1) (.box 2))).log =
      [.newOut (key 1 0) (some .input), .newOut (key 2 1) none, .newIn (key 2 2) (.routed 2)] ∧
    (build 1 (.serial (.split 1) (.box 2))).log = [.newIn (key 0 0) (.routed 0)] ∧
    (build 2 (.serial (.split 1) (.box 2))).log =
      [.newIn (key 0 1) (.routed 1), .newOut (key 0 2) (some (.out 1))] ∧
    ¬ Agree (fun me => build me (.serial (.split 1) (.box 2)))
      (Net.serial (.split 1) (.box 2)).edges := by
  refine ⟨by decide, by decide, by decide, fun h => ?_⟩
  have hout : (key 2 1, none) ∈ outs (build 0 (.serial (.split 1) (.box 2))) 2 := by decide
  obtain ⟨_, -, -, -, -, _, -, -, -, hsource, -⟩ := exists_of_mem_left (h.both 0 2 (by decide)) hout
  cases hsource

end SNet.Distrib.Route
