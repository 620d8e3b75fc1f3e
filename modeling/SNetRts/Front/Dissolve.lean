import SNetRts.Front.Licences
import SNetRts.Lib.Lines

/-!
# Landings that dissolve

What becomes of the records where landings become identities, are merged away and end as garbage. A
descriptor to an identity feeds the descriptor of the identity. What nodes have written on the way to a
descriptor of a node is what this node has got from it, then the records in its queue, and then those of the
descriptors that feed it, one after the other (`Lines`). Every step keeps this, so the node gets each of the
records once and in order, whatever dissolves in between.
-/

namespace SNet.Front.Work

open Function (update update_of_ne update_self)

open Lib List

variable {W R : Type*} {s t : State W R}

namespace Pc

/-- The record that a worker has taken and not begun with, or not passed on, and its descriptor. -/
def inHand : Pc R → Option (Nat × R)
  | forwarding d item => some (d, item)
  | serving _ _ cont | releasing _ cont => cont
  | _ => none

def hand (pc : Pc R) (d : Nat) : List R :=
  match pc.inHand with
  | some (e, item) => if e = d then [item] else []
  | none => []

end Pc

namespace State

/-- The record from a descriptor that the worker has in hand which has locked the landing. -/
def hand (s : State W R) (d : Nat) : List R :=
  match s.lockOf d with
  | some w => (s.worker w).pc.hand d
  | none => []

/-- What was taken out of a queue: all that a node has got, or what is on its way through an identity. -/
def taken (s : State W R) (d : Nat) : List R := if (s.kind d).isNode then s.got d else s.hand d

def stock (s : State W R) (d : Nat) : List R := s.taken d ++ (s.desc d).fifo

/-- The records from the first descriptor go on to the second one. -/
def Feeds (s : State W R) (d e : Nat) : Prop :=
  d < s.descs ∧ s.kind d = .identity e ∧ (s.desc d).closed = false

end State

/-- The records that were written on the way to a node are there, in this order. -/
def Lines (s : State W R) : Prop :=
  ∀ f < s.descs, (s.kind f).isNode = true → Line s.Feeds s.stock f (s.line f)

theorem kind_eq {d l : Nat} (h : (s.desc d).landing = l) : s.kind d = (s.landing l).kind := h ▸ rfl

/-! ## Records in hand -/

section hand

variable {d : Nat} {item : R} {w : W}

theorem places_of_inHand (h : (s.worker w).pc.inHand = some (d, item)) : (s.desc d).landing ∈ s.places w := by
  unfold State.places
  cases hpc : (s.worker w).pc with
  | forwarding e r =>
    rw [hpc] at h
    cases h
    exact mem_singleton.2 rfl
  | serving l e cont =>
    rw [hpc] at h
    cases h
    exact mem_cons_of_mem _ (mem_singleton.2 rfl)
  | releasing e cont =>
    rw [hpc] at h
    cases h
    exact mem_singleton.2 rfl
  | idle | passing _ _ | reading _ | looting _ _ _ =>
    rw [hpc] at h
    cases h

theorem held_of_inHand {pc : Pc R} (h : pc.inHand = some (d, item)) : d ∈ pc.held := by
  cases pc with
  | forwarding e r =>
    cases h
    exact mem_singleton.2 rfl
  | serving l e cont =>
    cases h
    exact mem_append_right _ (mem_singleton.2 rfl)
  | releasing e cont =>
    cases h
    exact mem_cons_of_mem _ (mem_singleton.2 rfl)
  | idle | passing _ _ | reading _ | looting _ _ _ => cases h

theorem hand_eq_nil (h : ∀ w item, (s.worker w).pc.inHand ≠ some (d, item)) : s.hand d = [] := by
  unfold State.hand
  split
  · next w _ =>
    unfold Pc.hand
    split
    · next e item hw =>
      refine if_neg ?_
      rintro rfl
      exact h w item hw
    · rfl
  · rfl

theorem hand_of_free (h : s.lockOf d = none) : s.hand d = [] := by
  unfold State.hand
  rw [h]

theorem Locks.hand_eq (h : Locks s) (hw : (s.worker w).pc.inHand = some (d, item)) : s.hand d = [item] := by
  unfold State.hand
  rw [show s.lockOf d = some w from h.place w _ (places_of_inHand hw)]
  unfold Pc.hand
  simp only [hw, if_true]

theorem Locks.hand_congr (hs : Locks s) (ht : Locks t)
    (h : ∀ w item, (t.worker w).pc.inHand = some (d, item) ↔ (s.worker w).pc.inHand = some (d, item)) :
    t.hand d = s.hand d := by
  by_cases hw : ∃ w item, (s.worker w).pc.inHand = some (d, item)
  · obtain ⟨w, item, hw⟩ := hw
    rw [hs.hand_eq hw, ht.hand_eq ((h w item).2 hw)]
  · have hnone : ∀ w item, (s.worker w).pc.inHand ≠ some (d, item) := fun w item heq => hw ⟨w, item, heq⟩
    rw [hand_eq_nil hnone, hand_eq_nil fun w item heq => hnone w item ((h w item).1 heq)]

theorem Locks.hand_nil_of_place (h : Locks s) (hplace : (s.desc d).landing ∈ s.places w)
    (hw : ∀ item, (s.worker w).pc.inHand ≠ some (d, item)) : s.hand d = [] := by
  refine hand_eq_nil fun v item hv => ?_
  have hlock := h.place v _ (places_of_inHand hv)
  rw [h.place w _ hplace, Option.some.injEq] at hlock
  exact hw item (hlock ▸ hv)

theorem inHand_setPc {pc : Pc R} (hpc : ∀ v, v ≠ w → (t.worker v).pc = (s.worker v).pc)
    (hw : (t.worker w).pc = pc)
    (h : ∀ item, pc.inHand = some (d, item) ↔ (s.worker w).pc.inHand = some (d, item)) (v : W) (item : R) :
    (t.worker v).pc.inHand = some (d, item) ↔ (s.worker v).pc.inHand = some (d, item) := by
  by_cases hv : v = w
  · rw [hv, hw]
    exact h item
  · rw [hpc v hv]

theorem taken_eq (hs : Locks s) (ht : Locks t) (hnode : (t.kind d).isNode = (s.kind d).isNode)
    (hgot : t.got d = s.got d)
    (h : (s.kind d).isNode = false → ∀ w item,
      (t.worker w).pc.inHand = some (d, item) ↔ (s.worker w).pc.inHand = some (d, item)) :
    t.taken d = s.taken d := by
  unfold State.taken
  rw [hnode, hgot]
  cases hkind : (s.kind d).isNode with
  | true => rfl
  | false => rw [hs.hand_congr ht (h hkind)]

end hand

/-! ## Descriptors that feed others -/

section feeds

variable [Fintype W] {d e f l : Nat}

namespace Inv

theorem out_of_feeds (h : Inv s) (hfeeds : s.Feeds d e) :
    e ∈ (s.landing (s.desc d).landing).kind.outs ∧ (s.landing (s.desc d).landing).kind.isGarbage = false ∧
      (s.landing (s.desc d).landing).ended = false := by
  obtain ⟨hd, hkind, hopen⟩ := hfeeds
  refine ⟨outs_of_identity hkind, ?_, ?_⟩
  · rw [show (s.landing (s.desc d).landing).kind = .identity e from hkind]
    rfl
  · rw [Bool.eq_false_iff]
    intro hended
    rcases (h.net.ended _ hended).2 d hd rfl with hmem | hclosed
    · cases hmem
    · rw [hopen] at hclosed
      cases hclosed

theorem lt_of_feeds (h : Inv s) (hfeeds : s.Feeds d e) : e < s.descs :=
  h.net.out_lt _ e (h.out_of_feeds hfeeds).1

theorem source_of_feeds (h : Inv s) (hfeeds : s.Feeds d e) : (s.desc e).source = (s.desc d).landing := by
  obtain ⟨hout, hlive, hended⟩ := h.out_of_feeds hfeeds
  exact h.net.source _ hlive hended e hout

theorem live_of_feeds (h : Inv s) (hfeeds : s.Feeds d e) : (s.kind e).isGarbage = false := by
  obtain ⟨hout, hlive, hended⟩ := h.out_of_feeds hfeeds
  exact h.net.live _ hlive hended e hout

theorem open_of_feeds (h : Inv s) (hfeeds : s.Feeds d e) : (s.desc e).closed = false := by
  obtain ⟨hout, -, hended⟩ := h.out_of_feeds hfeeds
  exact h.open_of_other (h.lt_of_feeds hfeeds) (h.other_of_out hout hended)

theorem ne_of_feeds (h : Inv s) (hfeeds : s.Feeds d e) : d ≠ e := fun heq =>
  h.net.landing_ne hfeeds.2.1 (h.lt_of_feeds hfeeds) (heq ▸ rfl)

theorem single (h : Inv s) : Single s.Feeds := by
  constructor
  · intro x y a hx hy
    have hland : (s.desc x).landing = (s.desc y).landing := by
      rw [← h.source_of_feeds hx, h.source_of_feeds hy]
    exact h.net.sole x hx.1 y hy.1 hland hx.2.2 hy.2.2 (by rw [hx.2.1]; rfl)
  · intro x a b ha hb
    have heq := ha.2.1.symm.trans hb.2.1
    cases heq
    rfl

theorem not_feeds_of_source (h : Inv s) (hsource : (s.desc e).source = l) (hnode : (s.landing l).kind.isNode = true)
    (d : Nat) : ¬s.Feeds d e := by
  intro hfeeds
  rw [← hsource, h.source_of_feeds hfeeds] at hnode
  rw [show (s.landing (s.desc d).landing).kind = .identity e from hfeeds.2.1] at hnode
  cases hnode

omit [Fintype W] in
theorem leads_of_reach (hreach : Relation.ReflTransGen s.Feeds d f) : Leads s.next d f :=
  Relation.ReflTransGen.mono (fun _ _ hfeeds => next_of_identity hfeeds.2.1) _ _ hreach

theorem reach_final (h : Inv s) (hd : d < s.descs) (hopen : (s.desc d).closed = false)
    (hlive : (s.kind d).isGarbage = false) : Relation.ReflTransGen s.Feeds d (s.final d) := by
  obtain ⟨hlead, -⟩ := h.net.final d hd
  generalize s.final d = f at hlead
  induction hlead using Relation.ReflTransGen.head_induction_on with
  | refl => exact .refl
  | @head x y hstep _ ih =>
    have hkind : s.kind x = .identity y := by
      unfold State.next at hstep
      split at hstep
      · cases hstep
      · next hkind =>
        cases hstep
        exact hkind
      · next hkind =>
        rw [hkind] at hlive
        cases hlive
    have hfeeds : s.Feeds x y := ⟨hd, hkind, hopen⟩
    exact .head hfeeds (ih (h.lt_of_feeds hfeeds) (h.open_of_feeds hfeeds) (h.live_of_feeds hfeeds))

theorem final_of_reach (h : Inv s) (hd : d < s.descs) (hreach : Relation.ReflTransGen s.Feeds d f)
    (hnode : (s.kind f).isNode = true) : s.final d = f := by
  obtain ⟨hlead, hfinal⟩ := h.net.final d hd
  exact hlead.unique (next_eq_none hfinal) (leads_of_reach hreach) (next_eq_none hnode)

theorem stock_of_closed (h : Inv s) (hd : d < s.descs) (hclosed : (s.desc d).closed = true)
    (hnode : (s.kind d).isNode = false) : s.stock d = [] := by
  have hrefs : (s.desc d).refs = 0 := (h.counts.closed d hd).1 hclosed
  have hfifo : (s.desc d).fifo = [] := h.fifo_of_refs hd (by
    change (s.desc d).refs ≤ _
    omega)
  have hhand : s.hand d = [] := hand_eq_nil fun w item hw => by
    have hopen := h.open_of_other hd (other_of_held (held_of_inHand hw))
    rw [hclosed] at hopen
    cases hopen
  unfold State.stock State.taken
  rw [hnode, hfifo, if_neg Bool.false_ne_true, hhand, append_nil]

end Inv

end feeds

/-! ## What keeps the lines -/

/-- The landings on the ways are of the same type. -/
structure SameWays (s t : State W R) : Prop where
  descs : t.descs = s.descs
  identity : ∀ d e, t.kind d = .identity e ↔ s.kind d = .identity e
  node : ∀ d, (t.kind d).isNode = (s.kind d).isNode

theorem SameWays.of_kind (hdescs : t.descs = s.descs) (hkind : ∀ d, t.kind d = s.kind d) : SameWays s t :=
  ⟨hdescs, fun d e => by rw [hkind], fun d => by rw [hkind]⟩

theorem SameWays.trans {u : State W R} (h : SameWays s t) (h' : SameWays t u) : SameWays s u :=
  ⟨h'.descs.trans h.descs, fun d e => (h'.identity d e).trans (h.identity d e),
    fun d => (h'.node d).trans (h.node d)⟩

theorem SameNet.ways (h : SameNet s t) : SameWays s t :=
  ⟨h.descs, fun d e => by rw [h.desc_kind], fun d => by rw [h.desc_kind]⟩

theorem SameWays.feeds (h : SameWays s t) (hclosed : ∀ d, (t.desc d).closed = (s.desc d).closed) :
    t.Feeds = s.Feeds := by
  funext d e
  unfold State.Feeds
  rw [h.descs, h.identity, hclosed]

theorem Inv.feeds_of_forwarding [Fintype W] (h : Inv s) {w : W} {d out : Nat} {item : R}
    (hpc : (s.worker w).pc = .forwarding d item) (hkind : s.kind d = .identity out) : s.Feeds d out := by
  have hheld : d ∈ (s.worker w).pc.held := by
    rw [hpc]
    exact mem_cons_self
  have hd : d < s.descs := (h.known w).pc d (by rw [hpc]; exact mem_cons_self)
  exact ⟨hd, hkind, h.open_of_other hd (Inv.other_of_held hheld)⟩

namespace Lines

variable {d out : Nat} {item : R}

theorem same (h : Lines s) (hways : SameWays s t) (hclosed : ∀ d, (t.desc d).closed = (s.desc d).closed)
    (hline : t.line = s.line) (hstock : ∀ d, t.stock d = s.stock d) : Lines t := by
  intro f hf hnode
  rw [hways.descs] at hf
  rw [hways.node] at hnode
  rw [hways.feeds hclosed, hline, funext hstock]
  exact h f hf hnode

variable [Fintype W]

theorem letGo (h : Lines s) (hs : Inv s) (ht : Inv t) (hways : SameWays s t)
    (hother : ∀ e, e ≠ d → (t.desc e).closed = (s.desc e).closed)
    (hself : (s.desc d).closed = true → (t.desc d).closed = true) (hline : t.line = s.line)
    (hstock : ∀ d, t.stock d = s.stock d) : Lines t := by
  by_cases hsame : (t.desc d).closed = (s.desc d).closed
  · refine h.same hways (fun e => ?_) hline hstock
    by_cases he : e = d
    · rw [he, hsame]
    · exact hother e he
  -- it is closed by this step, and had no records
  have hclosed : (t.desc d).closed = true := by
    cases hd : (t.desc d).closed with
    | true => rfl
    | false =>
      refine absurd ?_ hsame
      rw [hd, eq_comm, Bool.eq_false_iff]
      intro htrue
      rw [hself htrue] at hd
      cases hd
  have hfirst : ∀ x, ¬s.Feeds x d := by
    intro x hx
    have hopen : (t.desc d).closed = false :=
      ht.open_of_feeds ⟨hways.descs ▸ hx.1, (hways.identity x d).2 hx.2.1,
        (hother x (hs.ne_of_feeds hx)).trans hx.2.2⟩
    rw [hclosed] at hopen
    cases hopen
  have hempty : ∀ b, s.Feeds d b → s.stock d = [] := by
    intro b hb
    rw [← hstock]
    refine ht.stock_of_closed (hways.descs ▸ hb.1) hclosed ?_
    rw [hways.node, hb.2.1]
    rfl
  have hcut : ∀ x b, t.Feeds x b ↔ s.Feeds x b ∧ x ≠ d := by
    intro x b
    unfold State.Feeds
    rw [hways.descs, hways.identity]
    by_cases hx : x = d
    · subst hx
      rw [hclosed]
      exact ⟨fun hfeeds => Bool.noConfusion hfeeds.2.2, fun hfeeds => absurd rfl hfeeds.2⟩
    · rw [hother x hx]
      exact ⟨fun hfeeds => ⟨hfeeds, hx⟩, And.left⟩
  intro f hf hnode
  rw [hways.descs] at hf
  rw [hways.node] at hnode
  rw [hline, funext hstock]
  exact (h f hf hnode).cut hs.single hfirst hempty hcut

theorem push (h : Lines s) (hs : Inv s) (hways : SameWays s t)
    (hclosed : ∀ d, (t.desc d).closed = (s.desc d).closed) (hlt : out < s.descs) (hopen : (s.desc out).closed = false)
    (hlive : (s.kind out).isGarbage = false) (hfirst : ∀ x, ¬s.Feeds x out)
    (hline : t.line = update s.line (s.final out) (s.line (s.final out) ++ [item]))
    (hself : t.stock out = s.stock out ++ [item]) (hother : ∀ x, x ≠ out → t.stock x = s.stock x) : Lines t := by
  intro f hf hnode
  rw [hways.descs] at hf
  rw [hways.node] at hnode
  rw [hways.feeds hclosed, hline]
  by_cases hfinal : f = s.final out
  · subst hfinal
    rw [update_self]
    exact (h _ hf hnode).push hs.single hfirst hself hother (hs.reach_final hlt hopen hlive)
  · rw [update_of_ne hfinal]
    exact (h f hf hnode).push_other hother fun hreach => hfinal (hs.final_of_reach hlt hreach hnode).symm

theorem pass (h : Lines s) (hs : Inv s) (hways : SameWays s t)
    (hclosed : ∀ d, (t.desc d).closed = (s.desc d).closed) (hfeeds : s.Feeds d out) (hline : t.line = s.line)
    (hd : s.stock d = item :: t.stock d) (hout : t.stock out = s.stock out ++ [item])
    (hother : ∀ x, x ≠ d → x ≠ out → t.stock x = s.stock x) : Lines t := by
  intro f hf hnode
  rw [hways.descs] at hf
  rw [hways.node] at hnode
  rw [hways.feeds hclosed, hline]
  refine ((h f hf hnode).pass hs.single hfeeds (hs.ne_of_feeds hfeeds) hd hout hother).1 ?_
  rintro rfl
  rw [hfeeds.2.1] at hnode
  cases hnode

end Lines

/-! ## The steps -/

section queues

variable {d out : Nat} {item : R} {w : W}

theorem stock_put
    (hdesc : t.desc out = { s.desc out with
      refs := (s.desc out).refs + 1, fifo := fifoPut (s.desc out).fifo item })
    (htaken : t.taken out = s.taken out) : t.stock out = s.stock out ++ [item] := by
  unfold State.stock
  rw [htaken, hdesc, append_assoc]
  rfl

theorem stock_of_ne {y : Desc R} (hdesc : t.desc = update s.desc out y) (hd : d ≠ out)
    (htaken : t.taken d = s.taken d) : t.stock d = s.stock d := by
  unfold State.stock
  rw [htaken, hdesc, update_of_ne hd]

theorem receive_got_of_ne (hd : d ≠ out) : (s.receive out item).got d = s.got d := by
  unfold State.receive
  split
  · exact update_of_ne hd _ _
  · rfl

theorem taken_receive (hnode : (t.kind d).isNode = (s.kind d).isNode) (hgot : t.got = (s.receive d item).got)
    (hhand : (s.kind d).isNode = false → s.hand d = [] ∧ t.hand d = [item]) :
    t.taken d = s.taken d ++ [item] := by
  unfold State.taken
  rw [hnode, hgot]
  unfold State.receive
  cases hkind : (s.kind d).isNode with
  | true => simp only [if_true, update_self]
  | false =>
    obtain ⟨hs, ht⟩ := hhand hkind
    simp only [Bool.false_eq_true, if_false, hs, ht, nil_append]

theorem receive_got {u : State W R} (hnode : (u.kind d).isNode = (s.kind d).isNode) (hgot : u.got = s.got) :
    (u.receive d item).got = (s.receive d item).got := by
  unfold State.receive
  rw [hnode, hgot]
  split
  · rfl
  · exact hgot

theorem putGet_got [DecidableEq W] :
    (s.putGet w out item).got = (s.receive out (fifoPutGet (s.desc out).fifo item).1).got := by
  unfold State.putGet
  refine receive_got ?_ rfl
  unfold State.kind
  rw [setLock_kind]
  change (s.landing (update s.desc out _ out).landing).kind.isNode = _
  rw [update_self]

theorem stock_putGet (hfifo : (t.desc out).fifo = (fifoPutGet (s.desc out).fifo item).2)
    (htaken : t.taken out = s.taken out ++ [(fifoPutGet (s.desc out).fifo item).1]) :
    t.stock out = s.stock out ++ [item] := by
  unfold State.stock
  rw [htaken, hfifo, append_assoc, append_assoc]
  exact congrArg (s.taken out ++ ·) (fifoPutGet_eq _ _)

theorem taken_putGet [DecidableEq W] (ht : Locks t) (hfree : s.lockOf out = none)
    (hnode : (t.kind out).isNode = (s.kind out).isNode) (hgot : t.got = (s.putGet w out item).got)
    (hhand : (t.worker w).pc.inHand = some (out, (fifoPutGet (s.desc out).fifo item).1)) :
    t.taken out = s.taken out ++ [(fifoPutGet (s.desc out).fifo item).1] :=
  taken_receive hnode (hgot.trans putGet_got) fun _ => ⟨hand_of_free hfree, ht.hand_eq hhand⟩

theorem stock_passed (hs : Locks s) (ht : Locks t) (hpc : (s.worker w).pc = .forwarding d item)
    (hnode : (s.kind d).isNode = false) (hnode' : (t.kind d).isNode = false)
    (hfifo : (t.desc d).fifo = (s.desc d).fifo) (hplace : (t.desc d).landing ∈ t.places w)
    (hw : ∀ r, (t.worker w).pc.inHand ≠ some (d, r)) : s.stock d = item :: t.stock d := by
  have hhand : s.hand d = [item] := hs.hand_eq (w := w) (by rw [hpc]; rfl)
  unfold State.stock State.taken
  rw [hnode, hnode', if_neg Bool.false_ne_true, if_neg Bool.false_ne_true, hhand, hfifo,
    ht.hand_nil_of_place hplace hw]
  rfl

theorem closed_update (out : Nat) {y : Desc R} (hdesc : t.desc = update s.desc out y)
    (hy : y.closed = (s.desc out).closed) (e : Nat) : (t.desc e).closed = (s.desc e).closed := by
  rw [hdesc]
  by_cases he : e = out
  · rw [he, update_self, hy]
  · rw [update_of_ne he]

end queues

/-! ### An identity is merged away -/

section merged

variable {w : W} {l d next x b : Nat}

theorem merged_node (hne : (s.desc d).landing ≠ l) (hkind : s.kind d = .identity next) (x : Nat) :
    ((s.merged l d next).kind x).isNode = (s.kind x).isNode := by
  rw [merged_desc_kind hne]
  split
  · next heq =>
    rw [kind_eq heq, show (s.landing (s.desc d).landing).kind = .identity next from hkind]
    rfl
  · split
    · next heq => rw [replace_isNode, kind_eq heq]
    · rfl

theorem merged_closed (hx : x ≠ d) : ((s.merged l d next).desc x).closed = (s.desc x).closed := by
  by_cases hn : x = next
  · rw [hn, merged_desc_next]
  · rw [merged_desc_of_ne hx hn]

theorem replace_identity {k : Kind} (hmem : d ∈ k.outs) (h : k.replace d next = .identity b) :
    k = .identity d ∧ b = next := by
  cases k with
  | node _ | garbage _ => cases h
  | identity e =>
    obtain rfl := mem_singleton.1 hmem
    cases h
    exact ⟨rfl, if_pos rfl⟩

variable [Fintype W] (hs : Inv s) (hne : (s.desc d).landing ≠ l) (hmem : d ∈ (s.landing l).kind.outs)
  (hfeeds : s.Feeds d next)

include hs hne hmem hfeeds

theorem feeds_of_merged (h : (s.merged l d next).Feeds x b) :
    b = next ∧ s.Feeds x d ∨ b ≠ next ∧ s.Feeds x b := by
  obtain ⟨hx, hkind, hclosed⟩ := h
  rw [merged_desc_kind hne] at hkind
  split at hkind
  · cases hkind
  · next hxd =>
    have hxne : x ≠ d := fun heq => hxd (heq ▸ rfl)
    rw [merged_closed hxne] at hclosed
    split at hkind
    · next hxl =>
      obtain ⟨hl, hb⟩ := replace_identity hmem hkind
      exact .inl ⟨hb, hx, (kind_eq hxl).trans hl, hclosed⟩
    · refine .inr ⟨?_, hx, hkind, hclosed⟩
      rintro rfl
      exact hxne (hs.single.back ⟨hx, hkind, hclosed⟩ hfeeds)

theorem merged_feeds_next (hsource : (s.desc d).source = l) : (s.merged l d next).Feeds x next ↔ s.Feeds x d := by
  constructor
  · intro h
    rcases feeds_of_merged hs hne hmem hfeeds h with ⟨-, hx⟩ | ⟨hb, -⟩
    · exact hx
    · exact absurd rfl hb
  · intro hx
    have hxl : (s.desc x).landing = l := (hs.source_of_feeds hx).symm.trans hsource
    have hl : (s.landing l).kind = .identity d := hxl ▸ hx.2.1
    refine ⟨hx.1, ?_, (merged_closed (hs.ne_of_feeds hx)).trans hx.2.2⟩
    rw [merged_desc_kind hne, if_neg (hxl ▸ hne.symm), if_pos hxl, hl]
    exact congrArg Kind.identity (if_pos rfl)

theorem merged_feeds (hbd : b ≠ d) (hbn : b ≠ next) : (s.merged l d next).Feeds x b ↔ s.Feeds x b := by
  constructor
  · intro h
    rcases feeds_of_merged hs hne hmem hfeeds h with ⟨hb, -⟩ | ⟨-, hx⟩
    · exact absurd hb hbn
    · exact hx
  · intro hx
    have hxd : (s.desc x).landing ≠ (s.desc d).landing := by
      intro heq
      have hkind : s.kind x = .identity next := (kind_eq heq).trans hfeeds.2.1
      exact hbn (hs.single.forth hx ⟨hx.1, hkind, hx.2.2⟩)
    have hxl : (s.desc x).landing ≠ l := by
      rintro heq
      rw [show (s.landing l).kind = .identity b from heq ▸ hx.2.1] at hmem
      exact hbd (mem_singleton.1 hmem).symm
    have hxne : x ≠ d := fun heq => hxd (heq ▸ rfl)
    refine ⟨hx.1, ?_, (merged_closed hxne).trans hx.2.2⟩
    rw [merged_desc_kind hne, if_neg hxd, if_neg hxl]
    exact hx.2.1

theorem Lines.merged (h : Lines s) (ht : Inv (s.merged l d next)) (hsource : (s.desc d).source = l)
    (hlock : s.lockOf d = none) :
    Lines (s.merged l d next) := by
  have hdn := hs.ne_of_feeds hfeeds
  have hnode := merged_node hne hfeeds.2.1
  have htaken : ∀ x, (s.merged l d next).taken x = s.taken x := fun x =>
    taken_eq hs.locks ht.locks (hnode x) rfl fun _ _ _ => Iff.rfl
  have hnext : (s.merged l d next).stock next = s.stock next ++ s.stock d := by
    have hd : s.taken d = [] := by
      unfold State.taken
      rw [hfeeds.2.1]
      exact hand_of_free hlock
    unfold State.stock
    rw [htaken, hd, merged_desc_next, nil_append, append_assoc]
  have hother : ∀ x, x ≠ d → x ≠ next → (s.merged l d next).stock x = s.stock x := by
    intro x hxd hxn
    unfold State.stock
    rw [htaken, merged_desc_of_ne hxd hxn]
  intro f hf hfn
  rw [hnode] at hfn
  refine ((h f hf hfn).bypass hs.single hfeeds hdn hnext hother
    (fun _ => merged_feeds_next hs hne hmem hfeeds hsource)
    fun _ _ => merged_feeds hs hne hmem hfeeds).1 ?_
  rintro rfl
  rw [hfeeds.2.1] at hfn
  cases hfn

end merged

/-! ### A landing becomes an identity -/

section identified

variable [DecidableEq W] {w : W} {l d out x b : Nat} {cont : Option (Nat × R)} {item : Option R} {pc : Pc R}

theorem identified_kind (x : Nat) : ((s.identified l d out item).setPc w pc).kind x =
    if (s.desc x).landing = l then .identity out else s.kind x := by
  unfold State.kind
  change ((s.setKind l (.identity out)).landing (s.desc x).landing).kind = _
  split
  · next hx => rw [hx, setKind_kind]
  · next hx => rw [setKind_kind_of_ne hx]

variable [Fintype W] (hs : Inv s) (hpc : (s.worker w).pc = .serving l (some d) cont)
  (hkind : (s.landing l).kind = .node [out]) (hland : (s.desc d).landing = l) (hclosed : ClosedTo s l [d])

include hs hpc hkind hland hclosed

theorem identified_feeds : ((s.identified l d out item).setPc w pc).Feeds x b ↔ s.Feeds x b ∨ x = d ∧ b = out := by
  have hnode : ∀ {e}, (s.desc e).landing = l → ¬s.Feeds e b := by
    intro e he hfeeds
    cases hfeeds.2.1.symm.trans ((kind_eq he).trans hkind)
  constructor
  · rintro ⟨hx, hk, hopen⟩
    rw [identified_kind] at hk
    split at hk
    · next hxl =>
      cases hk
      rcases hclosed x hx hxl with hmem | hxc
      · exact .inr ⟨mem_singleton.1 hmem, rfl⟩
      · rw [show (s.desc x).closed = false from hopen] at hxc
        cases hxc
    · exact .inl ⟨hx, hk, hopen⟩
  · rintro (hx | ⟨rfl, rfl⟩)
    · refine ⟨hx.1, ?_, hx.2.2⟩
      rw [identified_kind, if_neg fun hxl => hnode hxl hx]
      exact hx.2.1
    · have hheld : x ∈ (s.worker w).pc.held := by
        rw [hpc]
        exact mem_cons_self
      have hx : x < s.descs := (hs.known w).pc x (by rw [hpc]; exact mem_cons_self)
      refine ⟨hx, ?_, hs.open_of_other hx (Inv.other_of_held hheld)⟩
      rw [identified_kind, if_pos hland]

variable (hpc' : item = none ∧ pc = .serving l (some d) cont ∨
  ∃ r, item = some r ∧ cont = none ∧ pc = .forwarding d r)

include hpc'

omit [Fintype W] hkind hclosed hs hland in
theorem identified_inHand (hx : x ≠ d) (v : W) (r : R) :
    (((s.identified l d out item).setPc w pc).worker v).pc.inHand = some (x, r) ↔
      (s.worker v).pc.inHand = some (x, r) := by
  refine inHand_setPc (w := w) (s := s) (fun v hv => setPc_pc_of_ne _ hv pc) (setPc_pc _ w pc) (fun r => ?_) v r
  rw [hpc]
  rcases hpc' with ⟨-, rfl⟩ | ⟨r', -, rfl, rfl⟩
  · rfl
  · refine ⟨fun heq => ?_, fun heq => ?_⟩
    · cases heq
      exact absurd rfl hx
    · cases heq

omit hkind hclosed in
theorem identified_hand (ht : Locks ((s.identified l d out item).setPc w pc)) :
    ((s.identified l d out item).setPc w pc).hand d = item.toList := by
  rcases hpc' with ⟨rfl, rfl⟩ | ⟨r, rfl, -, rfl⟩
  · refine ht.hand_nil_of_place (w := w) ?_ fun r hr => ?_
    · unfold State.places
      rw [setPc_pc]
      exact hland ▸ mem_cons_self
    · -- the record that it continues with is for another landing
      rw [setPc_pc] at hr
      have hnodup := hs.locks.nodup w
      unfold State.places at hnodup
      rw [hpc, show cont = some (d, r) from hr] at hnodup
      exact (nodup_cons.1 hnodup).1 (mem_singleton.2 hland.symm)
  · exact ht.hand_eq (w := w) (congrArg Pc.inHand (setPc_pc _ w _))

theorem Lines.identified (h : Lines s) (ht : Inv ((s.identified l d out item).setPc w pc))
    (hfinal : (s.desc (s.final out)).landing ≠ l) : Lines ((s.identified l d out item).setPc w pc) := by
  have hd : d < s.descs := (hs.known w).pc d (by rw [hpc]; exact mem_cons_self)
  have hnode : (s.kind d).isNode = true := by
    rw [kind_eq hland, hkind]
    rfl
  have hwrites := hs.out (writer_of_serving hpc (by rw [hkind]; rfl)) (l := l) (e := out) (by
    rw [hkind]
    exact mem_singleton.2 rfl)
  have hfirst := hs.not_feeds_of_source hwrites.source (by rw [hkind]; rfl)
  have hreach := hs.reach_final hwrites.lt (hs.open_of_other hwrites.lt hwrites.other) hwrites.live
  have hloop : ¬Relation.ReflTransGen s.Feeds out d := fun hreach => by
    rw [hs.final_of_reach hwrites.lt hreach hnode] at hfinal
    exact hfinal hland
  have hlink : ∀ x b, ((s.identified l d out item).setPc w pc).Feeds x b ↔ s.Feeds x b ∨ x = d ∧ b = out :=
    fun _ _ => identified_feeds hs hpc hkind hland hclosed
  -- the stocks are the same elsewhere
  have hstock : ∀ x, (s.desc x).landing ≠ l → ((s.identified l d out item).setPc w pc).stock x = s.stock x := by
    intro x hx
    have hxd : x ≠ d := fun heq => hx (heq ▸ hland)
    refine congrArg (· ++ (s.desc x).fifo) (taken_eq hs.locks ht.locks ?_ rfl fun _ =>
      identified_inHand hpc hpc' hxd)
    rw [identified_kind, if_neg hx]
  have hother : ∀ x b, s.Feeds x b → ((s.identified l d out item).setPc w pc).stock x = s.stock x := by
    intro x b hx
    refine hstock x fun hxl => ?_
    cases hx.2.1.symm.trans ((kind_eq hxl).trans hkind)
  have hnew : ((s.identified l d out item).setPc w pc).stock d = item.toList ++ (s.desc d).fifo := by
    unfold State.stock State.taken
    rw [identified_kind, if_pos hland, identified_hand hs hpc hland hpc' ht.locks]
    rfl
  -- what comes to the descriptor and was not taken yet
  obtain ⟨rest, hline, hrest⟩ := (h d hd hnode).following
  have hdrop : (s.line d).drop (s.got d).length = (s.desc d).fifo ++ rest := by
    rw [hline]
    unfold State.stock State.taken
    rw [hnode, if_pos rfl, append_assoc, drop_left]
  intro f hf hfn
  rw [identified_kind] at hfn
  split at hfn
  · cases hfn
  next hfl =>
  by_cases hff : f = s.final out
  · subst hff
    have hlast := (h _ hf hfn).link hloop hlink hother hs.single hfirst (hstock _ hfl) hrest hreach
    rw [hnew, append_assoc, ← hdrop] at hlast
    change Line _ _ _ (update s.line (s.final out) _ (s.final out))
    rw [update_self]
    exact hlast
  · change Line _ _ _ (update s.line (s.final out) _ f)
    rw [update_of_ne hff]
    exact (h f hf hfn).link_other hlink hother (hstock f hfl) fun hreach =>
      hff (hs.final_of_reach hwrites.lt hreach hfn).symm

end identified

/-! ### A stream is opened -/

section opened

variable {l : Nat} {outs : List Nat} {land : Option Nat}

theorem opened_desc_of_ne {d : Nat} (hd : d ≠ s.descs) : (s.opened l outs land).desc d = s.desc d :=
  update_of_ne hd _ _

theorem opened_kind {d : Nat} (hd : d ≠ s.descs) :
    (s.opened l outs land).kind d = if (s.desc d).landing = l then .node (outs ++ [s.descs]) else s.kind d := by
  unfold State.kind
  rw [opened_desc_of_ne hd]
  change ((s.setKind l (.node (outs ++ [s.descs]))).landing (s.desc d).landing).kind = _
  split
  · next hl => rw [hl, setKind_kind]
  · next hl => rw [setKind_kind_of_ne hl]

theorem opened_kind_new (hfresh : (s.landing s.landings).kind = .node [])
    (hland : ∀ m, land = some m → m < s.landings ∧ (s.landing m).kind.isNode = true) :
    ((s.opened l outs land).kind s.descs).isNode = true := by
  have hdesc : (s.opened l outs land).desc s.descs = ⟨land.getD s.landings, l, [], 1, false⟩ :=
    update_self _ _ _
  unfold State.kind
  rw [hdesc]
  change ((s.setKind l (.node (outs ++ [s.descs]))).landing (land.getD s.landings)).kind.isNode = true
  by_cases hl : land.getD s.landings = l
  · rw [hl, setKind_kind]
    rfl
  · rw [setKind_kind_of_ne hl]
    cases land with
    | none => exact congrArg Kind.isNode hfresh
    | some m => exact (hland m rfl).2

variable [Fintype W]

theorem Lines.opened (h : Lines s) (hs : Inv s) (ht : Inv (s.opened l outs land))
    (hkind : (s.landing l).kind = .node outs)
    (hland : ∀ m, land = some m → m < s.landings ∧ (s.landing m).kind.isNode = true) :
    Lines (s.opened l outs land) := by
  have hnew : ((s.opened l outs land).kind s.descs).isNode = true :=
    opened_kind_new (congrArg Landing.kind (hs.net.freshLanding _ (Nat.le_refl _))) hland
  have hnode : ∀ d, d ≠ s.descs → ((s.opened l outs land).kind d).isNode = (s.kind d).isNode := by
    intro d hd
    rw [opened_kind hd]
    split
    · next hl =>
      rw [kind_eq hl, hkind]
      rfl
    · rfl
  have hfeeds : ∀ x b, (s.opened l outs land).Feeds x b ↔ s.Feeds x b := by
    intro x b
    by_cases hx : x = s.descs
    · subst hx
      refine ⟨fun h => ?_, fun h => absurd h.1 (Nat.lt_irrefl _)⟩
      rw [h.2.1] at hnew
      cases hnew
    · unfold State.Feeds
      rw [opened_kind hx, opened_desc_of_ne hx]
      refine and_congr ⟨fun hlt => Nat.lt_of_le_of_ne (Nat.le_of_lt_succ hlt) hx, fun hlt => Nat.lt_succ_of_lt hlt⟩
        (and_congr_left fun _ => ?_)
      split
      · next hl =>
        rw [kind_eq hl, hkind]
        exact ⟨nofun, nofun⟩
      · rfl
  have hstock : ∀ x, x ≠ s.descs → (s.opened l outs land).stock x = s.stock x := by
    intro x hx
    unfold State.stock
    rw [opened_desc_of_ne hx]
    refine congrArg (· ++ (s.desc x).fifo) (taken_eq hs.locks ht.locks (hnode x hx) ?_ fun _ _ _ => Iff.rfl)
    exact update_of_ne hx _ _
  intro f hf hfn
  by_cases hff : f = s.descs
  · -- nothing was written to it yet
    subst hff
    have hempty : (s.opened l outs land).stock s.descs = (s.opened l outs land).line s.descs := by
      unfold State.stock State.taken
      rw [hfn, if_pos rfl]
      change update s.got s.descs [] s.descs ++ (update s.desc s.descs _ s.descs).fifo =
        update s.line s.descs [] s.descs
      simp only [update_self, append_nil]
    rw [← hempty]
    exact .first fun x hx => Nat.lt_irrefl _ (hs.lt_of_feeds ((hfeeds x _).1 hx))
  · rw [hnode f hff] at hfn
    change Line _ _ _ (update s.line s.descs [] f)
    rw [update_of_ne hff]
    refine (h f (Nat.lt_of_le_of_ne (Nat.le_of_lt_succ hf) hff) hfn).congr hfeeds (hstock f hff) fun x b hx => ?_
    exact hstock x (Nat.ne_of_lt hx.1)

end opened

/-! ### All steps -/

section steps

variable {w : W}

theorem inHand_of_quiet {pc : Pc R} (h : pc.quiet = true) : pc.inHand = none := by
  cases pc with
  | idle | passing _ _ | looting _ _ _ => rfl
  | reading _ | serving _ _ _ | forwarding _ _ | releasing _ _ => cases h

theorem inHand_worker {pc : Pc R} (hpc : ∀ v, v ≠ w → (t.worker v).pc = (s.worker v).pc) (hw : (t.worker w).pc = pc)
    (h : pc.inHand = (s.worker w).pc.inHand) (v : W) : (t.worker v).pc.inHand = (s.worker v).pc.inHand := by
  by_cases hv : v = w
  · rw [hv, hw, h]
  · rw [hpc v hv]

variable [Fintype W]

theorem Lines.workers (h : Lines s) (hs : Inv s) (ht : Inv t) (hnet : SameNet s t) (hdesc : t.desc = s.desc)
    (hline : t.line = s.line) (hgot : t.got = s.got)
    (hhand : ∀ v, (t.worker v).pc.inHand = (s.worker v).pc.inHand) : Lines t := by
  refine h.same hnet.ways (fun d => by rw [hdesc]) hline fun d => ?_
  unfold State.stock
  rw [hdesc, taken_eq hs.locks ht.locks (hnet.ways.node d) (by rw [hgot]) fun _ v r => by rw [hhand]]

theorem Lines.released (h : Lines s) (hs : Inv s) (ht : Inv t) (hways : SameWays s t) {d n : Nat} (hd : d < s.descs)
    (hdesc : t.desc = (s.letGo d n).desc) (hline : t.line = s.line) (hgot : t.got = s.got)
    (hhand : ∀ e, (s.kind e).isNode = false → ∀ v r,
      (t.worker v).pc.inHand = some (e, r) ↔ (s.worker v).pc.inHand = some (e, r)) : Lines t := by
  have hother : ∀ e, e ≠ d → t.desc e = s.desc e := fun e he => by
    rw [hdesc]
    exact update_of_ne he _ _
  have hself : t.desc d =
      { s.desc d with refs := (s.desc d).refs - n, closed := decide ((s.desc d).refs - n = 0) } := by
    rw [hdesc]
    exact update_self _ _ _
  refine h.letGo hs ht hways (d := d) (fun e he => by rw [hother e he]) (fun hclosed => ?_) hline fun e => ?_
  · rw [hself, (hs.counts.closed d hd).1 hclosed, Nat.zero_sub]
    rfl
  · unfold State.stock
    rw [taken_eq hs.locks ht.locks (hways.node e) (by rw [hgot]) (hhand e)]
    by_cases he : e = d
    · rw [he, hself]
    · rw [hother e he]

theorem Lines.read (h : Lines s) (hs : Inv s) (ht : Inv t) (hnet : SameNet s t) {d : Nat} {item : R} {rest : List R}
    (hdesc : t.desc = update s.desc d { s.desc d with fifo := rest }) (hline : t.line = s.line)
    (hgot : t.got = (s.receive d item).got) (hpc : (s.worker w).pc = .reading d)
    (hfifo : (s.desc d).fifo = item :: rest) (hw : (t.worker w).pc = s.start d item)
    (hother : ∀ v, v ≠ w → (t.worker v).pc = (s.worker v).pc) : Lines t := by
  have hself : t.taken d = s.taken d ++ [item] := taken_receive (hnet.ways.node d) hgot fun hnode => by
    have hstart : s.start d item = .forwarding d item := if_neg (by rw [hnode]; exact Bool.false_ne_true)
    refine ⟨hs.locks.hand_nil_of_place (w := w) ?_ fun r => ?_, ht.locks.hand_eq (w := w) ?_⟩
    · unfold State.places
      rw [hpc]
      exact mem_cons_self
    · rw [hpc]
      exact nofun
    · rw [hw, hstart]
      rfl
  have htaken : ∀ x, x ≠ d → t.taken x = s.taken x := by
    intro x hx
    refine taken_eq hs.locks ht.locks (hnet.ways.node x) (by rw [hgot, receive_got_of_ne hx]) fun _ => ?_
    refine inHand_setPc (w := w) hother hw fun r => ?_
    rw [hpc]
    unfold State.start
    split
    · exact Iff.rfl
    · refine ⟨fun heq => ?_, nofun⟩
      cases heq
      exact absurd rfl hx
  refine h.same hnet.ways (closed_update d hdesc rfl) hline fun x => ?_
  by_cases hx : x = d
  · subst hx
    unfold State.stock
    rw [hself, hdesc, update_self, hfifo, append_assoc]
    rfl
  · exact stock_of_ne hdesc hx (htaken x hx)

theorem Lines.forwarded (h : Lines s) (hs : Inv s) (ht : Inv t) (hnet : SameNet s t) {d out : Nat} {item : R}
    {y : Desc R} (hfeeds : s.Feeds d out) (hpc : (s.worker w).pc = .forwarding d item)
    (hplace : (s.desc d).landing ∈ t.places w) (hw : ∀ r, (t.worker w).pc.inHand ≠ some (d, r))
    (hdesc : t.desc = update s.desc out y) (hy : y.closed = (s.desc out).closed) (hline : t.line = s.line)
    (hout : t.stock out = s.stock out ++ [item]) (htaken : ∀ x, x ≠ d → x ≠ out → t.taken x = s.taken x) :
    Lines t := by
  have hd : t.desc d = s.desc d := by
    rw [hdesc]
    exact update_of_ne (hs.ne_of_feeds hfeeds) _ _
  have hnode : (s.kind d).isNode = false := by
    rw [hfeeds.2.1]
    rfl
  refine h.pass hs hnet.ways (closed_update out hdesc hy) hfeeds hline ?_ hout
    fun x hxd hxo => stock_of_ne hdesc hxo (htaken x hxd hxo)
  have hnode' : (t.kind d).isNode = false := (hnet.ways.node d).trans hnode
  rw [← hd] at hplace
  exact stock_passed hs.locks ht.locks hpc hnode hnode' (by rw [hd]) hplace hw

variable [DecidableEq W]

theorem Lines.writeGo (h : Lines s) (hs : Inv s) (ht : Inv t) (hnet : SameNet s t) {out : Nat} {item : R}
    (hlt : out < s.descs) (hopen : (s.desc out).closed = false) (hlive : (s.kind out).isGarbage = false)
    (hfirst : ∀ x, ¬s.Feeds x out) (hfree : s.lockOf out = none)
    (hdesc : t.desc = update s.desc out { s.desc out with
      refs := (s.desc out).refs + 1, fifo := (fifoPutGet (s.desc out).fifo item).2 })
    (hline : t.line = update s.line (s.final out) (s.line (s.final out) ++ [item]))
    (hgot : t.got = (s.putGet w out item).got) (hpc : (s.worker w).pc.inHand = none)
    (hw : (t.worker w).pc.inHand = some (out, (fifoPutGet (s.desc out).fifo item).1))
    (hother : ∀ v, v ≠ w → (t.worker v).pc = (s.worker v).pc) : Lines t := by
  refine h.push hs hnet.ways (closed_update out hdesc rfl) hlt hopen hlive hfirst hline (stock_putGet ?_ ?_)
    fun x hx => stock_of_ne hdesc hx (taken_eq hs.locks ht.locks (hnet.ways.node x) ?_ fun _ => ?_)
  · rw [hdesc, update_self]
  · exact taken_putGet ht.locks hfree (hnet.ways.node out) hgot hw
  · rw [hgot, putGet_got, receive_got_of_ne hx]
  · refine inHand_setPc hother rfl fun r => ?_
    rw [hpc, hw]
    refine ⟨fun heq => ?_, nofun⟩
    cases heq
    exact absurd rfl hx

theorem Does.lines (h : Inv s) (hl : Lines s) (hdo : Does s t) : Lines t := by
  have ht := hdo.inv h
  cases hdo with
  | input w hpc hlock hnode =>
    refine hl.workers h ht ((SameNet.setLock h.net.input _).trans (.workers _)) rfl rfl rfl
      (inHand_worker (fun v hv => setPc_pc_of_ne _ hv _) (setPc_pc _ w _) ?_)
    rw [hpc]
    rfl
  | take w d n hpc hitem hlock hkind =>
    have hd : d < s.descs := (h.known w).item d (by rw [hitem]; exact Option.some_ne_none _)
    refine hl.workers h ht (((SameNet.setLock (h.net.landing_lt d hd) _).trans (.workers _)).trans (.workers _)) rfl rfl
      rfl (inHand_worker (fun v hv => (setPc_pc_of_ne _ hv _).trans (setItem_pc _ _ _ _ _)) (setPc_pc _ w _) ?_)
    rw [hpc]
    rfl
  | lead w d next n x hd hkind hlic hpc hpc' hknown =>
    have hnet : SameNet s _ :=
      (SameNet.letGo hd (h.counts.closed d hd) n).trans (.workers (update s.worker w x))
    refine hl.released h ht hnet.ways hd rfl rfl rfl fun e _ v r => ?_
    have hx : (((s.letGo d n).setWorker w x).worker w).pc = x.pc := by simp
    rw [inHand_worker (s := s) (fun v hv => by simp [update_of_ne hv, State.letGo]) hx
      (by rw [inHand_of_quiet hpc, inHand_of_quiet hpc'])]
  | move worker hlic hpc hknown =>
    refine hl.workers h ht (.workers _) rfl rfl rfl fun v => ?_
    rcases hpc v with heq | ⟨hold, hnew⟩
    · exact congrArg Pc.inHand heq
    · rw [inHand_of_quiet hold]
      exact inHand_of_quiet hnew
  | merge w l d next hwriter hout hkind hlock =>
    have hwrites := h.out hwriter hout
    exact hl.merged h (hwrites.landing_ne hlock) hout ⟨hwrites.lt, hkind, h.open_of_other hwrites.lt hwrites.other⟩ ht hwrites.source hlock
  | open_ w l outs land hwriter hkind hland => exact hl.opened h ht hkind hland
  | becomeIdentity w l d out cont item pc hpc hkind hland hclosed hfinal hpc' =>
    exact hl.identified h hpc hkind hland hclosed hpc' ht hfinal
  | close l d outs hkind hd =>
    have hmem : d ∈ (s.landing l).kind.outs := hkind ▸ hd
    have hways : SameWays s (s.setKind l (.node (outs.erase d))) := by
      refine ⟨rfl, fun e f => ?_, fun e => ?_⟩ <;> rw [setKind_desc_kind] <;> split
      · next hl =>
        rw [kind_eq hl, hkind]
        exact iff_of_false (by simp) (by simp)
      · rfl
      · next hl =>
        rw [kind_eq hl, hkind]
        rfl
      · rfl
    have hdlt := h.net.out_lt l d hmem
    exact hl.released h ht (hways.trans
      (SameNet.letGo (s := s.setKind l (.node (outs.erase d))) hdlt (h.counts.closed d hdlt) 1).ways) hdlt rfl rfl rfl
      fun _ _ _ _ => Iff.rfl
  | end_ l d hkind hended hclosed =>
    have hdlt : d < s.descs := h.net.out_lt l d (by
      rcases hkind with hkind | hkind <;> rw [hkind] <;> exact mem_singleton.2 rfl)
    have hways : SameWays s (s.end_ l) := .of_kind rfl fun _ => end_kind l _
    exact hl.released h ht (hways.trans
      (SameNet.letGo (s := s.end_ l) hdlt (h.counts.closed d hdlt) 1).ways) hdlt rfl rfl rfl fun _ _ _ _ => Iff.rfl
  | addContext w l d hpc =>
    refine hl.same (.of_kind rfl fun _ => addLanding_kind h.net w _) (fun _ => rfl) rfl fun e => ?_
    refine congrArg (· ++ (s.desc e).fifo) (taken_eq h.locks ht.locks ?_ rfl fun _ v r => ?_)
    · exact congrArg Kind.isNode (addLanding_kind h.net w _)
    · have hw : (Pc.serving s.landings d none : Pc R).inHand = ((s.addLanding w).worker w).pc.inHand :=
        (congrArg Pc.inHand hpc).symm
      rw [inHand_worker (s := s.addLanding w) (fun v hv => setPc_pc_of_ne _ hv _) (setPc_pc _ w _) hw]
      rfl
  | context w l m d hpc hm hlock hnode =>
    refine hl.workers h ht ((SameNet.setLock hm _).trans (.workers _)) rfl rfl rfl
      (inHand_worker (fun v hv => setPc_pc_of_ne _ hv _) (setPc_pc _ w _) ?_)
    rw [hpc]
    rfl
  | unlock l hplace => exact hl.workers h ht (.unlock h.net l) rfl rfl rfl fun _ => rfl
  | finishInput w l hpc =>
    refine hl.workers h ht ((SameNet.unlock h.net l).trans (.workers _)) rfl rfl rfl
      (inHand_worker (fun v hv => setPc_pc_of_ne _ hv _) (setPc_pc _ w _) ?_)
    rw [hpc]
    rfl
  | finish w l d cont hpc =>
    refine hl.workers h ht ((SameNet.unlock h.net l).trans (.workers _)) rfl rfl rfl
      (inHand_worker (fun v hv => setPc_pc_of_ne _ hv _) (setPc_pc _ w _) ?_)
    rw [hpc]
    rfl
  | release w d cont hpc =>
    have hd : d < s.descs := (h.known w).pc d (by rw [hpc]; exact mem_cons_self)
    have hnet := (SameNet.letGo hd (h.counts.closed d hd) 1).trans
      (.workers (update s.worker w ⟨(s.worker w).item, cont.elim .idle fun c => s.start c.1 c.2⟩))
    refine hl.released h ht hnet.ways hd rfl rfl rfl fun e he =>
      inHand_setPc (w := w) (fun v hv => setPc_pc_of_ne _ hv _) (setPc_pc _ w _) fun r => ?_
    rw [hpc]
    cases cont with
    | none => rfl
    | some c =>
      change (s.start c.1 c.2).inHand = _ ↔ some c = _
      unfold State.start
      split
      · next hnode =>
        refine ⟨fun heq => (by cases heq), fun heq => ?_⟩
        cases heq
        rw [he] at hnode
        cases hnode
      · rfl
  | read w d item rest hpc hfifo =>
    have hd : d < s.descs := (h.known w).pc d (by rw [hpc]; exact mem_cons_self)
    have hqueue : SameNet s (s.setDesc d { s.desc d with fifo := rest }) := .setQueue hd rest (s.desc d).refs
    refine hl.read h ht ((hqueue.trans (.receive d item)).trans (.workers _)) (State.receive_desc _ _ _)
      (State.receive_line _ _ _) (receive_got (hqueue.ways.node d) rfl) hpc hfifo (setPc_pc _ w _) fun v hv => ?_
    rw [setPc_pc_of_ne _ hv, State.receive_worker]
    rfl
  | write w l dn cont out item hpc hnode hout =>
    have hwrites := h.out (writer_of_serving hpc hnode) hout
    have hopen := h.open_of_other hwrites.lt hwrites.other
    have hnet : SameNet s ((s.put w out item).note (s.final out) [item]) := (SameNet.put hwrites.lt).trans (.note _ _)
    have htaken : ∀ x, ((s.put w out item).note (s.final out) [item]).taken x = s.taken x := fun x =>
      taken_eq h.locks ht.locks (hnet.ways.node x) rfl fun _ v r => by
        rw [show (((s.put w out item).note (s.final out) [item]).worker v).pc = (s.worker v).pc from put_pc]
    exact hl.push h hnet.ways (closed_update out rfl rfl) hwrites.lt hopen hwrites.live
      (h.not_feeds_of_source hwrites.source hnode) rfl (stock_put (update_self _ _ _) (htaken out))
      fun x hx => stock_of_ne rfl hx (htaken x)
  | writeGo w l d out item hpc hnode hout hlock =>
    have hwrites := h.out (writer_of_serving hpc hnode) hout
    have hopen := h.open_of_other hwrites.lt hwrites.other
    refine hl.writeGo h ht (((SameNet.putGet h.net hwrites.lt).trans (.note _ _)).trans (.workers _)) hwrites.lt hopen
      hwrites.live (h.not_feeds_of_source hwrites.source hnode) hlock (State.receive_desc _ _ _) ?_ rfl
      (by rw [hpc]; rfl) (congrArg Pc.inHand (setPc_pc _ w _)) fun v hv => ?_
    · exact congrArg (fun f : Nat → List R => update f (s.final out) (f (s.final out) ++ [item]))
        (State.receive_line _ _ _)
    · refine (setPc_pc_of_ne _ hv _).trans ?_
      change ((s.putGet w out item).worker v).pc = _
      rw [putGet_worker]
  | forward w d out item hpc hkind =>
    have hfeeds := h.feeds_of_forwarding hpc hkind
    let t := (s.put w out item).setPc w (.serving (s.desc d).landing (some d) none)
    have hnet : SameNet s t := (SameNet.put (h.lt_of_feeds hfeeds)).trans (.workers _)
    have hw : (t.worker w).pc = .serving (s.desc d).landing (some d) none := setPc_pc _ w _
    have htaken : ∀ x, x ≠ d → t.taken x = s.taken x := by
      intro x hx
      refine taken_eq h.locks ht.locks (hnet.ways.node x) rfl fun _ => ?_
      refine inHand_setPc (fun v hv => (setPc_pc_of_ne _ hv _).trans put_pc) hw fun r => ?_
      rw [hpc]
      refine ⟨fun heq => (by cases heq), fun heq => ?_⟩
      cases heq
      exact absurd rfl hx
    refine hl.forwarded h ht hnet hfeeds hpc ?_ (fun r => ?_) rfl rfl rfl
      (stock_put (update_self _ _ _) (htaken out (h.ne_of_feeds hfeeds).symm)) fun x hx _ => htaken x hx
    · unfold State.places
      rw [hw]
      exact mem_cons_self
    · rw [hw]
      intro h
      cases h
  | forwardGo w d out item hpc hkind hlock =>
    have hfeeds := h.feeds_of_forwarding hpc hkind
    let cont := some (out, (fifoPutGet (s.desc out).fifo item).1)
    let t := (s.putGet w out item).setPc w (.serving (s.desc d).landing (some d) cont)
    have hnet : SameNet s t := (SameNet.putGet h.net (h.lt_of_feeds hfeeds)).trans (.workers _)
    have hdesc : t.desc = update s.desc out _ := State.receive_desc _ _ _
    have hw : (t.worker w).pc = .serving (s.desc d).landing (some d) cont := setPc_pc _ w _
    have hother : ∀ v, v ≠ w → (t.worker v).pc = (s.worker v).pc := by
      intro v hv
      rw [setPc_pc_of_ne _ hv, putGet_worker]
    refine hl.forwarded h ht hnet hfeeds hpc ?_ (fun r => ?_) hdesc rfl (State.receive_line _ _ _)
      (stock_putGet ?_ (taken_putGet ht.locks hlock (hnet.ways.node out) rfl (congrArg Pc.inHand hw)))
      fun x hxd hxo => ?_
    · unfold State.places
      rw [hw]
      exact mem_cons_self
    · rw [hw]
      intro heq
      cases heq
      exact absurd rfl (h.ne_of_feeds hfeeds)
    · rw [hdesc, update_self]
    · have hgot : t.got x = s.got x := (congrFun putGet_got x).trans (receive_got_of_ne hxo)
      refine taken_eq h.locks ht.locks (hnet.ways.node x) hgot fun _ => inHand_setPc hother hw fun r => ?_
      rw [hpc]
      refine ⟨fun heq => ?_, fun heq => ?_⟩
      · cases heq
        exact absurd rfl hxo
      · cases heq
        exact absurd rfl hxd

end steps

/-! ## References -/

namespace State

def handle (s : State W R) (d : Nat) : Nat :=
  let x := s.landing (s.desc d).source
  if x.kind.isGarbage = false ∧ x.ended = false ∧ d ∈ x.kind.outs then 1 else 0

def keepers (s : State W R) (d : Nat) : Nat :=
  ((Finset.range s.landings).filter fun l =>
    (s.landing l).kind.isGarbage = true ∧ (s.landing l).ended = false ∧ d ∈ (s.landing l).kind.outs).card

end State

section references

theorem Landing.handles_eq {x : Landing W} (h : x.kind.outs.Nodup) (d : Nat) : x.handles d =
    (if x.kind.isGarbage = false ∧ x.ended = false ∧ d ∈ x.kind.outs then 1 else 0) +
      if x.kind.isGarbage = true ∧ x.ended = false ∧ d ∈ x.kind.outs then 1 else 0 := by
  unfold Landing.handles
  rw [h.count]
  cases x.ended with
  | true => simp
  | false => cases x.kind.isGarbage <;> simp

theorem Net.handles_eq (h : Net s) (d : Nat) : s.handles d = s.handle d + s.keepers d := by
  unfold State.handles State.keepers
  rw [Finset.sum_congr rfl fun l _ => Landing.handles_eq (h.nodup l) d, Finset.sum_add_distrib, Finset.card_filter]
  congr 1
  refine Finset.sum_eq_single (s.desc d).source (fun l _ hl => if_neg ?_) fun hsource => if_neg ?_
  · rintro ⟨hgarbage, hended, hmem⟩
    exact hl (h.source l hgarbage hended d hmem).symm
  · rintro ⟨-, -, hmem⟩
    rw [h.freshLanding _ (Nat.not_lt.1 fun hlt => hsource (Finset.mem_range.2 hlt))] at hmem
    cases hmem

variable [Fintype W] {d : Nat}

theorem Inv.refs_eq (h : Inv s) (hd : d < s.descs) :
    (s.desc d).refs = s.handle d + s.keepers d + s.heldCount d +
      ∑ x ∈ s.sources d, ∑ w, (s.worker w).licences x := by
  have hrefs : (s.desc d).refs = s.handles d + s.heldCount d + s.ledger.total d :=
    h.counts.balanced.refs d (Inv.mem_places hd)
  rw [hrefs, h.net.handles_eq, ledger_total]

end references

/-! ## Runs -/

/-- Nothing is lost: what was written on the way to a node comes to it, and every reference is accounted for. -/
structure LosesNothing [Fintype W] (s : State W R) : Prop where
  /-- The node has the first of the records that were written, and the others are on the way in their order. -/
  line : ∀ f < s.descs, (s.kind f).isNode = true →
    ∃ rest, s.line f = s.got f ++ (s.desc f).fifo ++ rest ∧ Following s.Feeds s.stock f rest
  /-- It has all of them when nothing is on the way. -/
  complete : ∀ f < s.descs, (s.kind f).isNode = true → (s.desc f).fifo = [] →
    (∀ d, Leads s.next d f → d ≠ f → s.hand d = [] ∧ (s.desc d).fifo = []) → s.got f = s.line f
  refs : ∀ d < s.descs, (s.desc d).refs = s.handle d + s.keepers d + s.heldCount d +
    ∑ x ∈ s.sources d, ∑ w, (s.worker w).licences x
  /-- There is a licence for each record in a queue. -/
  queue : ∀ d < s.descs, (s.kind d).isGarbage = false →
    (s.desc d).fifo.length = ∑ x ∈ s.sources d, ∑ w, (s.worker w).licences x
  /-- A descriptor is closed when there are no records of it and no licences for it. -/
  closed : ∀ d < s.descs, (s.desc d).closed = true → (s.desc d).fifo = [] ∧ s.hand d = [] ∧
    (∀ w, d ∉ (s.worker w).pc.held) ∧ ∀ x ∈ s.sources d, ∀ w, (s.worker w).licences x = 0

section runs

variable [Fintype W]

theorem Lines.losesNothing (hl : Lines s) (h : Inv s) : LosesNothing s := by
  refine ⟨fun f hf hnode => ?_, fun f hf hnode hfifo hempty => ?_, fun d hd => h.refs_eq hd, fun d hd hlive => ?_,
    fun d hd hclosed => ?_⟩
  · obtain ⟨rest, hline, hrest⟩ := (hl f hf hnode).following
    unfold State.stock State.taken at hline
    rw [hnode, if_pos rfl] at hline
    exact ⟨rest, hline, hrest⟩
  · have hstock := (hl f hf hnode).eq_of_empty fun x b hx hb => by
      have hxnode : (s.kind x).isNode = false := by
        rw [hx.2.1]
        rfl
      have hxf : x ≠ f := by
        rintro rfl
        rw [hnode] at hxnode
        cases hxnode
      obtain ⟨hhand, hxfifo⟩ := hempty x ((Inv.leads_of_reach hb).head (next_of_identity hx.2.1)) hxf
      unfold State.stock State.taken
      rw [hxnode, if_neg Bool.false_ne_true, hhand, hxfifo]
      rfl
    unfold State.stock State.taken at hstock
    rw [hnode, if_pos rfl, hfifo, append_nil] at hstock
    exact hstock.symm
  · rw [← ledger_total]
    exact h.counts.balanced.len d (Inv.mem_places hd) (past_eq_none hlive)
  · have hrefs : (s.desc d).refs = s.ledger.other d + s.ledger.total d :=
      h.counts.balanced.refs d (Inv.mem_places hd)
    have hzero : (s.desc d).refs = 0 := (h.counts.closed d hd).1 hclosed
    have hheld : ∀ w, d ∉ (s.worker w).pc.held := by
      intro w hw
      have hopen := h.open_of_other hd (Inv.other_of_held hw)
      rw [hclosed] at hopen
      cases hopen
    refine ⟨h.fifo_of_refs hd ?_, hand_eq_nil fun w item hw => hheld w (held_of_inHand hw), hheld, fun x hx w => ?_⟩
    · change (s.desc d).refs ≤ _
      omega
    · have hsum : ∑ x ∈ s.sources d, ∑ w, (s.worker w).licences x = 0 := by
        rw [← ledger_total]
        omega
      exact Finset.sum_eq_zero_iff.1 (Finset.sum_eq_zero_iff.1 hsum x hx) w (Finset.mem_univ w)

omit [Fintype W] in
theorem init_lines : Lines (State.init : State W R) := fun f hf _ => absurd hf (Nat.not_lt_zero f)

variable [DecidableEq W]

theorem reach_lines (h : Reach step Callers (State.init : State W R) s) : Lines s := by
  have hboth : Inv s ∧ Lines s := by
    refine h.invariant (I := fun s => Inv s ∧ Lines s) ⟨init_inv, init_lines⟩ fun u a v hu hok hstep => ?_
    have hdo := (step_does hu.1 a hok).of_done hstep
    exact ⟨hdo.inv hu.1, hdo.lines hu.1 hu.2⟩
  exact hboth.2

/-- Whatever landings become identities, are merged away and end, and however the workers take turns: nothing
is lost. -/
theorem dissolving_loses_nothing (h : Reach step Callers (State.init : State W R) s) : LosesNothing s :=
  (reach_lines h).losesNothing (reach_inv h)

end runs

/-- A node becomes an identity and is merged away with a record in its queue, whose licence is led on. -/
def dissolved : List (Act Bool Nat) :=
  [.input false, .open_ false none, .write false 0 10 false, .write false 0 20 false, .finish false, .take false 0,
    .read false, .open_ false none, .becomeIdentity false (some 10), .forward false false, .finish false,
    .release false, .input true, .merge true 0, .write true 0 30 false, .finish true, .take false 0,
    .pass false false, .take false 1, .read false, .finish false, .release false, .take false 1, .read false,
    .finish false, .release false, .take true 1, .read true, .finish true, .release true]

theorem dissolving_loses_nothing_dissolved : ∃ s : State Bool Nat,
    runPermitted step Callers .init dissolved = .done s ∧ s.got 1 = [10, 20, 30] ∧ LosesNothing s := by
  have hrun : ∃ s : State Bool Nat, runPermitted step Callers .init dissolved = .done s ∧
      s.got 1 = [10, 20, 30] := by decide +kernel
  obtain ⟨s, hs, hgot⟩ := hrun
  exact ⟨s, hs, hgot, dissolving_loses_nothing (.of_runPermitted .init hs)⟩

/-- The record that a worker is busy with has a reference, too. -/
theorem refs_of_served : ∃ s : State Bool Nat, Reach step Callers .init s ∧ 0 < s.descs ∧
    (s.desc 0).refs ≠ s.handle 0 + (s.desc 0).fifo.length + s.keepers 0 ∧
    (s.desc 0).refs ≠ s.handle 0 + ∑ x ∈ s.sources 0, ∑ w, (s.worker w).licences x + s.keepers 0 := by
  have hrun : ∃ s : State Bool Nat, runPermitted step Callers .init
      [.input false, .open_ false none, .write false 0 10 false, .finish false, .take false 0, .read false] = .done s ∧
      0 < s.descs ∧ (s.desc 0).refs ≠ s.handle 0 + (s.desc 0).fifo.length + s.keepers 0 ∧ s.heldCount 0 = 1 := by
    decide +kernel
  obtain ⟨s, hs, hd, hqueue, hheld⟩ := hrun
  have hreach : Reach step Callers .init s := .of_runPermitted .init hs
  refine ⟨s, hreach, hd, hqueue, ?_⟩
  have := (reach_inv hreach).refs_eq hd
  omega

end SNet.Front.Work
