import SNetRts.Front.ZipperLinks
import SNetRts.Front.ZipperStar

/-!
# The zipper is the star of synchrocells

A zipper landing is compared with the star it replaces, record by record (`Sim` while a record
moves, `Rests` between two records). Passing a group stands for passing all its cells, since they
lack the same patterns; a pattern that is no longer `untested` has rejected the record before.

The zipper follows the star as long as its lists are intact, and two things damage them. A cell
that leaves a group of two hands its `tail` to the other, which keeps it although it leads no list
any more; the assertions that a cell has no `tail` then fail when this cell has joined another group
(`TailsClear`). And after the first cell has fired there is no predecessor to go on from, so that
the record is taken to be at the end of the list even if there are other cells (`HeadKept`).
-/

namespace SNet.Zipper

open List

open Lib SNet.Sync

variable {V : Type} {patterns exits : List (Pattern V)} {c : SyncLanding V} {rec : Record V}
  {ch : Chain V}

/-! ## The zipper between two records and while a record moves -/

/-- The matching at `a` stands for the cell. -/
def Stands (patterns : List (Pattern V)) (h : Heap V) (a : Addr) (c : SyncLanding V) : Prop :=
  Waiting patterns c ∧
    ∃ u, content h a = some (u, c.storage) ∧ ∀ i, i ∈ u ↔ c.storage[i]? = some Slot.dummy

def Uniform (h : Heap V) (g : Group) : Prop :=
  ∀ b ∈ g.2, (content h b).map Prod.fst = (content h g.1).map Prod.fst

def Filled (patterns : List (Pattern V)) (c : SyncLanding V) : Prop :=
  lacking c.storage < patterns.length

/-- A landing between two records. -/
structure Rests (patterns : List (Pattern V)) (land : Landing V) (cells : List (SyncLanding V))
    (gs : List Group) : Prop where
  linked : Linked land gs
  uniform : ∀ g ∈ gs, Uniform land.heap g
  stands : List.Forall₂ (Stands patterns land.heap) (flat gs) cells
  filled : ∀ c ∈ cells, Filled patterns c

/-- A record stands between the groups `bs` and `cs`. -/
structure Gap (patterns exits : List (Pattern V)) (land : Landing V) (rec : Record V)
    (untested : Finset Nat) (ch : Chain V) (bs cs : List Group) : Prop where
  linked : Linked land (bs ++ cs)
  uniform : ∀ g ∈ bs ++ cs, Uniform land.heap g
  moving : ch.moving = some rec
  stays : matchExitPatterns exits rec = false
  tested : TestedOk 0 patterns rec untested
  passed : List.Forall₂ (Stands patterns land.heap) (flat bs) ch.passed
  rest : List.Forall₂ (Stands patterns land.heap) (flat cs) ch.rest
  filled : ∀ c ∈ ch.passed ++ ch.rest, Filled patterns c

/-- The loop at the group `g`, which may be a cell that the star has yet to create. -/
structure Sim (patterns exits : List (Pattern V)) (st : Loop V) (ch : Chain V) (bs : List Group)
    (g : Group) (cs : List Group) : Prop where
  linked : Linked st.land (bs ++ g :: cs)
  uniform : ∀ g' ∈ bs ++ g :: cs, Uniform st.land.heap g'
  matching : st.matching = g.1
  prev : st.prev = bs.getLast?.map Prod.fst
  moving : ch.moving = some st.record
  stays : matchExitPatterns exits st.record = false
  tested : TestedOk 0 patterns st.record st.untested
  passed : List.Forall₂ (Stands patterns st.land.heap) (flat bs) ch.passed
  front : List.Forall₂ (Stands patterns st.land.heap) (flat (g :: cs)) (ch.front patterns)
  filled : ∀ c ∈ ch.passed ++ ch.rest, Filled patterns c

theorem Stands.congr {h h' : Heap V} {a : Addr} (hs : Stands patterns h a c)
    (heq : content h' a = content h a) : Stands patterns h' a c := by
  obtain ⟨hw, u, hu, hmask⟩ := hs
  exact ⟨hw, u, heq.trans hu, hmask⟩

theorem stands_congr {h h' : Heap V} {as : List Addr} {cells : List (SyncLanding V)}
    (hs : List.Forall₂ (Stands patterns h) as cells)
    (heq : ∀ b ∈ as, content h' b = content h b) : List.Forall₂ (Stands patterns h') as cells := by
  induction hs with
  | nil => exact .nil
  | cons h1 _ ih =>
    exact .cons (h1.congr (heq _ mem_cons_self))
      (ih fun b hb => heq b (mem_cons_of_mem _ hb))

theorem Uniform.congr {h h' : Heap V} {g : Group} (hu : Uniform h g)
    (heq : ∀ b ∈ g.1 :: g.2, content h' b = content h b) : Uniform h' g := by
  intro b hb
  rw [heq b (mem_cons_of_mem _ hb), heq g.1 mem_cons_self]
  exact hu b hb

theorem stands_waiting {h : Heap V} {as : List Addr} {cells : List (SyncLanding V)}
    (hs : List.Forall₂ (Stands patterns h) as cells) : ∀ d ∈ cells, Waiting patterns d := by
  induction hs with
  | nil => simp
  | cons h1 _ ih => exact forall_mem_cons.2 ⟨h1.1, ih⟩

theorem exists_stands {h : Heap V} {as : List Addr} {cells : List (SyncLanding V)} {a : Addr}
    (hs : List.Forall₂ (Stands patterns h) as cells) (ha : a ∈ as) :
    ∃ c ∈ cells, Stands patterns h a c := by
  induction hs with
  | nil => cases ha
  | cons h1 _ ih =>
    rcases mem_cons.1 ha with rfl | ha
    · exact ⟨_, mem_cons_self, h1⟩
    · obtain ⟨c, hc, hst⟩ := ih ha
      exact ⟨c, mem_cons_of_mem _ hc, hst⟩

theorem stands_fresh {h : Heap V} {a : Addr} (ha : h a = some (newMatching patterns)) :
    Stands patterns h a (SyncLanding.init patterns) := by
  refine ⟨waiting_init patterns, Finset.range patterns.length, ?_, ?_⟩
  · simp [content, ha, newMatching, SyncLanding.init]
  · intro i
    rw [Finset.mem_range]
    simp [SyncLanding.init, getElem?_replicate]

theorem unmatched_ne_fresh {h : Heap V} {a : Addr} {m : Matching V} (hs : Stands patterns h a c)
    (hf : Filled patterns c) (ha : h a = some m) :
    m.unmatched ≠ (newMatching patterns).unmatched := by
  obtain ⟨hw, u, hu, hmask⟩ := hs
  obtain ⟨rfl, -⟩ : m.unmatched = u ∧ m.storage = c.storage := by simpa [content, ha] using hu
  intro heq
  have hall : ∀ s ∈ c.storage, s.isDummy = true := by
    intro s hs
    obtain ⟨i, hi, rfl⟩ := getElem_of_mem hs
    have hmem : i ∈ m.unmatched := by
      rw [heq]
      simpa [newMatching, hw.length] using hi
    have := (hmask i).1 hmem
    rw [getElem?_eq_getElem hi, Option.some.injEq] at this
    rw [this]
    rfl
  have hlt : lacking c.storage < patterns.length := hf
  rw [lacking, countP_eq_length.2 hall, hw.length] at hlt
  exact Nat.lt_irrefl _ hlt

theorem Gap.sim {land : Landing V} {untested : Finset Nat} {bs cs : List Group} {g : Group}
    (hg : Gap patterns exits land rec untested ch bs (g :: cs)) :
    Sim patterns exits ⟨land, rec, g.1, bs.getLast?.map Prod.fst, untested⟩ ch bs g cs := by
  obtain ⟨h1, h2, h3, h4, h5, h6, h7, h8⟩ := hg
  refine ⟨h1, h2, rfl, rfl, h3, h4, h5, h6, ?_, h8⟩
  -- there is a cell in front of the record
  cases hr : ch.rest with
  | nil =>
    rw [hr] at h7
    cases h7
  | cons d ds => simpa [Chain.front, hr] using h7

theorem Gap.rest_nil {land : Landing V} {untested : Finset Nat} {bs : List Group}
    (hg : Gap patterns exits land rec untested ch bs []) : ch.rest = [] := by
  have := hg.rest
  cases hr : ch.rest with
  | nil => rfl
  | cons d ds =>
    rw [hr] at this
    cases this

theorem Gap.allocHead {land : Landing V} {untested : Finset Nat}
    (hg : Gap patterns exits land rec untested ch [] []) :
    Sim patterns exits
      ⟨{ land.alloc patterns with head := some land.fresh }, rec, land.fresh, none, untested⟩
      ch [] (land.fresh, []) [] := by
  have hr := hg.rest_nil
  refine ⟨hg.linked.allocHead patterns, ?_, rfl, rfl, hg.moving, hg.stays, hg.tested, ?_, ?_,
    hg.filled⟩
  · intro g hg'
    cases mem_singleton.1 hg'
    exact fun b hb => absurd hb not_mem_nil
  · have := hg.passed
    cases hp : ch.passed with
    | nil => exact .nil
    | cons d ds =>
      rw [hp] at this
      cases this
  · simp only [Chain.front, hr, flat_cons, flat_nil, append_nil, headD_nil, tail_nil]
    exact .cons (stands_fresh (by simp)) .nil

theorem Gap.allocLast {land : Landing V} {untested : Finset Nat} {bs : List Group} {p : Addr}
    {ps : List Addr} {l : Matching V}
    (hg : Gap patterns exits land rec untested ch (bs ++ [(p, ps)]) [])
    (hp : land.heap p = some l) :
    Sim patterns exits
      ⟨(land.alloc patterns).set p { l with next := some land.fresh }, rec, land.fresh, some p,
        untested⟩ ch (bs ++ [(p, ps)]) (land.fresh, []) [] := by
  have hr := hg.rest_nil
  have hl : Linked land (bs ++ [(p, ps)]) := by simpa using hg.linked
  obtain ⟨hl', hcontent⟩ := hl.allocLast patterns hp
  have hold : ∀ b ∈ flat (bs ++ [(p, ps)]), b ≠ land.fresh := fun b hb e =>
    absurd (hl.below b hb) (e ▸ Nat.lt_irrefl _)
  have hpf : land.fresh ≠ p := Ne.symm (hold p (by simp))
  refine ⟨by simpa using hl', ?_, rfl, by simp, hg.moving, hg.stays, hg.tested, ?_, ?_, hg.filled⟩
  · intro g hg'
    rcases mem_append.1 hg' with hg' | hg'
    · refine (hg.uniform g (mem_append_left _ hg')).congr fun b hb => ?_
      exact hcontent b (hold b (mem_flat_of_mem hg' hb))
    · cases mem_singleton.1 hg'
      exact fun b hb => absurd hb not_mem_nil
  · exact stands_congr hg.passed fun b hb => hcontent b (hold b hb)
  · simp only [Chain.front, hr, flat_cons, flat_nil, append_nil, headD_nil, tail_nil]
    exact .cons (stands_fresh (by simp [hpf])) .nil

theorem Gap.advance {land : Landing V} {untested : Finset Nat} {bs cs : List Group}
    (hg : Gap patterns exits land rec untested ch bs cs) (hhead : bs = [] → cs = []) :
    ∃ st g' cs', advance patterns land rec (bs.getLast?.map Prod.fst) untested = .next st ∧
      Sim patterns exits st ch bs g' cs' := by
  rcases eq_nil_or_concat bs with rfl | ⟨bs, ⟨p, ps⟩, rfl⟩
  · obtain rfl := hhead rfl
    have hnone : land.head = none := hg.linked.chain
    exact ⟨_, _, _, by simp [Zipper.advance, hnone], hg.allocHead⟩
  · rw [concat_eq_append] at *
    obtain ⟨l, hok⟩ := hg.linked.groups (p, ps) (by simp)
    have hp : land.heap p = some l := hok.lead
    have hlast : (bs ++ [(p, ps)]).getLast?.map Prod.fst = some p := by simp
    have hchain := hg.linked.chain
    rw [map_append, Seg.append_iff] at hchain
    obtain ⟨r, hr1, hr2⟩ := hchain
    rw [map_append] at hr1
    have hnext : l.next = r := by
      have := hr1.link_last
      simpa [nextLink, hp] using this
    cases cs with
    | nil =>
      have hnone : l.next = none := hnext.trans (Seg.nil_iff.1 hr2)
      -- the last cell holds a record, so the new one differs from it
      have hne : l.unmatched ≠ (newMatching patterns).unmatched := by
        obtain ⟨c, hc, hst⟩ := exists_stands hg.passed (show p ∈ flat (bs ++ [(p, ps)]) by simp)
        exact unmatched_ne_fresh hst (hg.filled c (mem_append_left _ hc)) hp
      exact ⟨_, _, _, by simp [Zipper.advance, hp, hnone, hne], hg.allocLast hp⟩
    | cons g cs =>
      have hsome : l.next = some g.1 := hnext.trans hr2.1
      refine ⟨_, g, cs, ?_, hg.sim⟩
      simp [Zipper.advance, hp, hsome]

/-! ## The conditions -/

/-- An untested pattern that the matching lacks accepts the record. -/
def Hits (patterns : List (Pattern V)) (st : Loop V) (m : Matching V) : Prop :=
  ∃ (i : Nat) (p : Pattern V), patterns[i]? = some p ∧ i ∈ st.untested ∧ i ∈ m.unmatched ∧
    p.accepts st.record = true

/-- The patterns that the matching lacks once it has the record. -/
def left (patterns : List (Pattern V)) (st : Loop V) (m : Matching V) : Finset Nat :=
  m.unmatched.filter fun i => (patterns[i]?).any (fun p => p.accepts st.record) = false

/-- A record does not hit a cell in front of one that has kept a `tail` in its group, and a cell
that has kept one does not join a group that has a `tail` as well. -/
structure TailsClear (patterns : List (Pattern V)) (st : Loop V) : Prop where
  split : ∀ m s n, st.land.heap st.matching = some m → Hits patterns st m → m.same = some s →
    st.land.heap s = some n → n.tail = none
  join : ∀ m p l, st.land.heap st.matching = some m → Hits patterns st m → m.same = none →
    left patterns st m ≠ ∅ → st.prev = some p → st.land.heap p = some l →
    l.unmatched = left patterns st m → l.tail = none ∨ m.tail = none

/-- The first cell does not fire with a record that stays while there are other cells. -/
def HeadKept (patterns exits : List (Pattern V)) (st : Loop V) : Prop :=
  ∀ m rec, st.land.heap st.matching = some m → Hits patterns st m → left patterns st m = ∅ →
    st.prev = none →
    mergeFromStorage patterns (matchPatterns st.record patterns m.storage 0).1 st.record = some rec →
    matchExitPatterns exits rec = false → m.next = none ∧ m.same = none

def Intact (patterns exits : List (Pattern V)) (st : Loop V) : Prop :=
  TailsClear patterns st ∧ HeadKept patterns exits st

/-! ## One iteration -/

variable {st : Loop V} {bs cs : List Group} {g : Group}

theorem Sim.cell (hs : Sim patterns exits st ch bs g cs) :
    ∃ m c ds, st.land.heap st.matching = some m ∧ ch.front patterns = c :: ds ∧
      Waiting patterns c ∧ m.storage = c.storage ∧
      (∀ i, i ∈ m.unmatched ↔ c.storage[i]? = some Slot.dummy) ∧
      List.Forall₂ (Stands patterns st.land.heap) (g.2 ++ flat cs) ds := by
  have hf := hs.front
  rw [flat_cons, cons_append] at hf
  obtain ⟨hst, hds⟩ := forall₂_cons.1 hf
  obtain ⟨m, hok⟩ := hs.linked.groups g (by simp)
  obtain ⟨hw, u, hu, hmask⟩ := hst
  rw [content, hok.lead] at hu
  obtain ⟨rfl, hss⟩ := Prod.mk.inj (Option.some.inj hu)
  exact ⟨m, _, _, hs.matching ▸ hok.lead, rfl, hw, hss, hmask, hds⟩

theorem Sim.hits_iff {m : Matching V} (hs : Sim patterns exits st ch bs g cs)
    (hmask : ∀ i, i ∈ m.unmatched ↔ c.storage[i]? = some Slot.dummy) :
    Hits patterns st m ↔ ¬ Rejects patterns c.storage st.record := by
  constructor
  · rintro ⟨i, p, hp, -, hu, hacc⟩ hrej
    rw [hrej i p hp ((hmask i).1 hu)] at hacc
    cases hacc
  · intro h
    by_contra hno
    refine h fun i p hp hd => ?_
    by_contra hacc
    rw [Bool.not_eq_false] at hacc
    by_cases hu : i ∈ st.untested
    · exact hno ⟨i, p, hp, hu, (hmask i).2 hd, hacc⟩
    · rw [hs.tested i p hp (by simpa using hu)] at hacc
      cases hacc

theorem mem_left {m : Matching V} (hw : Waiting patterns c)
    (hmask : ∀ i, i ∈ m.unmatched ↔ c.storage[i]? = some Slot.dummy) (i : Nat) :
    i ∈ left patterns st m ↔
      (matchPatterns st.record patterns c.storage 0).1[i]? = some Slot.dummy := by
  rw [matchPatterns_dummy _ _ _ _ hw.length, left, Finset.mem_filter, hmask]

theorem left_eq_empty {m : Matching V} (hw : Waiting patterns c)
    (hmask : ∀ i, i ∈ m.unmatched ↔ c.storage[i]? = some Slot.dummy) :
    left patterns st m = ∅ ↔ lacking (matchPatterns st.record patterns c.storage 0).1 = 0 := by
  rw [lacking_eq_zero, Finset.eq_empty_iff_forall_notMem]
  exact forall_congr' fun i => not_congr (mem_left hw hmask i)

theorem Sim.tests {m : Matching V} (hs : Sim patterns exits st ch bs g cs)
    (hw : Waiting patterns c) (hss : m.storage = c.storage)
    (hmask : ∀ i, i ∈ m.unmatched ↔ c.storage[i]? = some Slot.dummy) :
    let t := testPatterns st.record 0 patterns m.storage st.untested m.unmatched 0
    t.storage = (matchPatterns st.record patterns c.storage 0).1 ∧
      (t.newMatches = 0 ↔ ¬ Hits patterns st m) ∧ t.unmatched = left patterns st m ∧
      (¬ Hits patterns st m → TestedOk 0 patterns st.record t.untested) := by
  intro t
  have hmask0 : Mask 0 c.storage m.unmatched := fun k _ => by rw [Nat.zero_add]; exact hmask k
  obtain ⟨h1, h2, h3, h4, -, h6⟩ := testPatterns_spec st.record 0 patterns c.storage st.untested
    m.unmatched 0 hw.length hmask0 hs.tested
  obtain ⟨hl, -, -, hcount, -⟩ := matchPatterns_spec st.record patterns c.storage 0 hw.length
  have hmiss : (matchPatterns st.record patterns c.storage 0).2 = 0 ↔ ¬ Hits patterns st m := by
    rw [hcount, hs.hits_iff hmask, not_not]
  have ht : t = testPatterns st.record 0 patterns c.storage st.untested m.unmatched 0 := by
    rw [← hss]
  rw [ht]
  refine ⟨h1, by rw [h2]; exact hmiss, ?_, fun hno => h6 (hmiss.2 hno)⟩
  ext i
  rw [mem_left hw hmask]
  by_cases hi : i < c.storage.length
  · have := h3 i (by rwa [hl])
    rwa [Nat.zero_add] at this
  · rw [h4 i (Or.inr (by omega)), hmask, getElem?_eq_none (by omega),
      getElem?_eq_none (by omega)]

theorem Sim.body_miss {m : Matching V} (hs : Sim patterns exits st ch bs g cs)
    (hm : st.land.heap st.matching = some m) (hw : Waiting patterns c)
    (hss : m.storage = c.storage) (hmask : ∀ i, i ∈ m.unmatched ↔ c.storage[i]? = some Slot.dummy)
    (hmiss : ¬ Hits patterns st m) (hne : st.untested ≠ ∅) :
    ∃ u, TestedOk 0 patterns st.record u ∧
      body patterns exits st = advance patterns st.land st.record (some st.matching) u := by
  obtain ⟨-, hcount, -, htested⟩ := hs.tests hw hss hmask
  by_cases hinter : st.untested ∩ m.unmatched = ∅
  · exact ⟨st.untested, hs.tested, by simp [body, hne, hm, hinter]⟩
  · exact ⟨_, htested hmiss, by simp [body, hne, hm, hinter, hcount.2 hmiss]⟩

theorem Sim.body_hit {m : Matching V} (hs : Sim patterns exits st ch bs g cs)
    (hm : st.land.heap st.matching = some m) (hw : Waiting patterns c)
    (hss : m.storage = c.storage) (hmask : ∀ i, i ∈ m.unmatched ↔ c.storage[i]? = some Slot.dummy)
    (hhit : Hits patterns st m) :
    ∃ t, t.storage = (matchPatterns st.record patterns c.storage 0).1 ∧
      t.unmatched = left patterns st m ∧
      body patterns exits st = matched patterns exits st m t := by
  obtain ⟨h1, hcount, h3, -⟩ := hs.tests hw hss hmask
  have hne : (testPatterns st.record 0 patterns m.storage st.untested m.unmatched 0).newMatches ≠ 0 :=
    fun e => hcount.1 e hhit
  obtain ⟨i, p, -, hi1, hi2, -⟩ := hhit
  have hu : st.untested ≠ ∅ := Finset.ne_empty_of_mem hi1
  have hinter : st.untested ∩ m.unmatched ≠ ∅ :=
    Finset.ne_empty_of_mem (Finset.mem_inter.2 ⟨hi1, hi2⟩)
  exact ⟨_, h1, h3, by simp [body, hu, hm, hinter, hne]⟩

theorem Sim.split {m : Matching V} {u : Finset Nat} {ss : List (Slot V)}
    (hs : Sim patterns exits st ch bs g cs) (hm : st.land.heap st.matching = some m)
    (hhit : Hits patterns st m) (hclear : TailsClear patterns st) :
    ∃ land m', (st.land.set st.matching { m with unmatched := u, storage := ss }).splitSame
        st.matching = some land ∧
      Linked land (bs ++ (g.1, []) :: (handed g.2 ++ cs)) ∧ land.heap g.1 = some m' ∧
      m'.unmatched = u ∧ m'.storage = ss ∧ (m.same = none → m'.tail = m.tail) ∧
      (m.same ≠ none → m'.tail = none) ∧
      (∀ b, b ≠ g.1 → content land.heap b = content st.land.heap b) ∧
      (∀ b, b ≠ g.1 → b ∉ g.2 → land.heap b = st.land.heap b) := by
  obtain ⟨a, as⟩ := g
  have hma : st.matching = a := hs.matching
  rw [hma] at hm ⊢
  obtain ⟨m0, hok⟩ := hs.linked.groups (a, as) (by simp)
  cases hm.symm.trans hok.lead
  have hsame : m.same = none ↔ as = [] := by
    rw [hok.same.head_eq]
    cases as <;> simp
  have hnd : (a :: as).Nodup := by
    have hl' : Linked st.land (bs ++ [(a, as)] ++ cs) := by simpa using hs.linked
    simpa using hl'.middle.1
  have hset : Linked (st.land.set a { m with unmatched := u, storage := ss }) (bs ++ (a, as) :: cs) :=
    hs.linked.setContent hm
  obtain ⟨land, hsplit, hlinked, hcontent, hframe, m', hm', hnil, hcons⟩ := hset.splitSame (by
    intro s n hhead hn
    have hne : s ≠ a := by
      rintro rfl
      exact (nodup_cons.1 hnd).1 (mem_of_head? hhead)
    refine hclear.split m s n (hma.symm ▸ hm) hhit ?_ (by simpa [hne] using hn)
    rw [hok.same.head_eq]
    simp [hhead])
  have hcont := hcontent a
  simp only [content, hm', Landing.set_heap, if_true, Option.map_some, Option.some.injEq,
    Prod.mk.injEq] at hcont
  refine ⟨land, m', hsplit, hlinked, hm', hcont.1, hcont.2, ?_, ?_, ?_, ?_⟩
  · intro h
    have := hnil (hsame.1 h)
    simp only [Landing.set_heap, if_true, Option.some.injEq] at this
    rw [← this]
  · exact fun h => hcons fun e => h (hsame.2 e)
  · intro b hb
    rw [hcontent b]
    simp [content, hb]
  · intro b hb hbs
    rw [hframe b hb hbs]
    simp [hb]

theorem Sim.notMem (hs : Sim patterns exits st ch bs g cs) :
    g.1 ∉ flat bs ∧ g.1 ∉ g.2 ++ flat cs := by
  have hnd := hs.linked.nodup
  simp only [flat_append, flat_cons, cons_append] at hnd
  obtain ⟨-, h2, h3⟩ := nodup_append.1 hnd
  exact ⟨fun h => h3 g.1 h g.1 mem_cons_self rfl, (nodup_cons.1 h2).1⟩

theorem Sim.others {h : Heap V} {ds : List (SyncLanding V)} (hs : Sim patterns exits st ch bs g cs)
    (hds : List.Forall₂ (Stands patterns st.land.heap) (g.2 ++ flat cs) ds)
    (heq : ∀ b, b ≠ g.1 → content h b = content st.land.heap b) :
    List.Forall₂ (Stands patterns h) (flat bs) ch.passed ∧
      List.Forall₂ (Stands patterns h) (g.2 ++ flat cs) ds ∧
      (∀ g' ∈ bs, Uniform h g') ∧ ∀ g' ∈ handed g.2 ++ cs, Uniform h g' := by
  obtain ⟨hnb, hnr⟩ := hs.notMem
  have hb : ∀ b ∈ flat bs, content h b = content st.land.heap b := fun b hb =>
    heq b fun e => hnb (e ▸ hb)
  have hr : ∀ b ∈ g.2 ++ flat cs, content h b = content st.land.heap b := fun b hb =>
    heq b fun e => hnr (e ▸ hb)
  refine ⟨stands_congr hs.passed hb, stands_congr hds hr, ?_, ?_⟩
  · intro g' hg'
    exact (hs.uniform g' (by simp [hg'])).congr fun b hbm => hb b (mem_flat_of_mem hg' hbm)
  · intro g' hg'
    rcases mem_append.1 hg' with hg' | hg'
    · -- the second cell lacks what the first has lacked
      cases has : g.2 with
      | nil => simp [has, handed] at hg'
      | cons s ss =>
        rw [has] at hg'
        obtain rfl : g' = (s, ss) := by simpa [handed] using hg'
        have hu := hs.uniform g (by simp)
        intro b hbm
        have h1 := hu b (by simp [has, hbm])
        have h2 := hu s (by simp [has])
        rw [hr b (by simp [has, hbm]), hr s (by simp [has]), h1, h2]
    · refine (hs.uniform g' (by simp [hg'])).congr fun b hbm => hr b ?_
      exact mem_append_right _ (mem_flat_of_mem hg' hbm)

theorem lacking_map_dropDetref (ss : List (Slot V)) :
    lacking (ss.map (Slot.map Record.dropDetref)) = lacking ss := by
  rw [lacking, lacking, countP_map]
  refine countP_congr fun s _ => ?_
  cases s <;> simp [Slot.map, Slot.isDummy]

theorem getElem?_map_dropDetref (ss : List (Slot V)) (i : Nat) :
    (ss.map (Slot.map Record.dropDetref))[i]? = some .dummy ↔ ss[i]? = some .dummy := by
  rw [getElem?_map]
  cases ss[i]? with
  | none => simp
  | some s => cases s <;> simp [Slot.map]

theorem Sim.rests_store {m : Matching V} {land : Landing V} {ds : List (SyncLanding V)}
    {gs : List Group} (hs : Sim patterns exits st ch bs g cs) (hf : ch.front patterns = c :: ds)
    (hw : Waiting patterns c) (hmask : ∀ i, i ∈ m.unmatched ↔ c.storage[i]? = some Slot.dummy)
    (hds : List.Forall₂ (Stands patterns st.land.heap) (g.2 ++ flat cs) ds)
    (hhit : Hits patterns st m) (hlinked : Linked land gs)
    (hflat : flat gs = flat bs ++ g.1 :: (g.2 ++ flat cs))
    (huniform : ∀ g' ∈ gs, Uniform land.heap g')
    (hcontent : content land.heap g.1 = some (left patterns st m,
      (matchPatterns st.record patterns c.storage 0).1.map (Slot.map Record.dropDetref)))
    (heq : ∀ b, b ≠ g.1 → content land.heap b = content st.land.heap b) :
    Rests patterns land (ch.passed ++
      ⟨(matchPatterns st.record patterns c.storage 0).1.map (Slot.map Record.dropDetref),
        c.matchCount + (matchPatterns st.record patterns c.storage 0).2, .partialSync⟩ :: ds) gs := by
  obtain ⟨hpassed, hrest, -, -⟩ := hs.others hds heq
  obtain ⟨hlen, hsum, -, hcount, -⟩ := matchPatterns_spec st.record patterns c.storage 0 hw.length
  have hpos : (matchPatterns st.record patterns c.storage 0).2 ≠ 0 := fun e =>
    (hs.hits_iff hmask).1 hhit (hcount.1 e)
  have hwc := hw.count
  refine ⟨hlinked, huniform, ?_, ?_⟩
  · rw [hflat]
    refine rel_append hpassed (.cons ⟨⟨?_, ?_, by simp⟩, _, hcontent, ?_⟩ hrest)
    · simp [hlen, hw.length]
    · rw [lacking_map_dropDetref]
      simp only
      omega
    · intro i
      rw [mem_left hw hmask, getElem?_map_dropDetref]
  · intro d hd
    have hfil := hs.filled
    simp only [mem_append, mem_cons] at hd
    rcases hd with hd | rfl | hd
    · exact hfil d (mem_append_left _ hd)
    · show lacking _ < _
      rw [lacking_map_dropDetref]
      omega
    · have : ds = ch.rest.tail := (List.cons.inj hf).2.symm
      exact hfil d (mem_append_right _ (mem_of_mem_tail (this ▸ hd)))

theorem Sim.store {m : Matching V} {ds : List (SyncLanding V)} {t : Tested V}
    (hs : Sim patterns exits st ch bs g cs) (hm : st.land.heap st.matching = some m)
    (hf : ch.front patterns = c :: ds) (hw : Waiting patterns c)
    (hmask : ∀ i, i ∈ m.unmatched ↔ c.storage[i]? = some Slot.dummy)
    (hds : List.Forall₂ (Stands patterns st.land.heap) (g.2 ++ flat cs) ds)
    (hhit : Hits patterns st m) (hclear : TailsClear patterns st)
    (hstorage : t.storage = (matchPatterns st.record patterns c.storage 0).1)
    (hleft : t.unmatched = left patterns st m) (hne : left patterns st m ≠ ∅) :
    ∃ land gs, matched patterns exits st m t = .ret land [.detrefDestroy st.record.detref] ∧
      Rests patterns land (ch.passed ++
        ⟨(matchPatterns st.record patterns c.storage 0).1.map (Slot.map Record.dropDetref),
          c.matchCount + (matchPatterns st.record patterns c.storage 0).2, .partialSync⟩ :: ds) gs := by
  obtain ⟨land, m', hsplit, hlinked, hm', hu', hss', htail1, htail2, hcont, hframe⟩ :=
    @Sim.split _ _ _ _ _ _ _ _ m t.unmatched t.storage hs hm hhit hclear
  have hma := hs.matching
  -- the stored record has lost its detrefs
  let land3 := land.set g.1
    { m' with storage := t.storage.map (Slot.map Record.dropDetref) }
  have hlinked3 : Linked land3 (bs ++ (g.1, []) :: (handed g.2 ++ cs)) :=
    @Linked.setContent _ land bs (handed g.2 ++ cs) (g.1, []) m' m'.unmatched
      (t.storage.map (Slot.map Record.dropDetref)) hlinked hm'
  have hcont3 : content land3.heap g.1 = some (left patterns st m,
      (matchPatterns st.record patterns c.storage 0).1.map (Slot.map Record.dropDetref)) := by
    simp [land3, content, hu', hleft, hstorage]
  have heq3 : ∀ b, b ≠ g.1 → content land3.heap b = content st.land.heap b := by
    intro b hb
    rw [← hcont b hb]
    simp [land3, content, hb]
  have hmatched : ∀ {land4 : Landing V}, land3.joinPrev st.prev g.1 = some land4 →
      matched patterns exits st m t = .ret land4 [.detrefDestroy st.record.detref] := by
    intro land4 hj
    have hne' : t.unmatched ≠ ∅ := hleft ▸ hne
    rw [hma] at hsplit
    simp only [matched, hma, hsplit, hne', ne_eq, not_false_eq_true, if_true, hm']
    rw [show land.set g.1 { m' with storage := t.storage.map (Slot.map Record.dropDetref) } = land3
      from rfl, hj]
  obtain ⟨-, -, hub, huc⟩ := hs.others hds heq3
  have halone : Uniform land3.heap (g.1, []) := fun b hb => absurd hb not_mem_nil
  -- the landing if the cell stays on the `next` list
  have hstay : Rests patterns land3 (ch.passed ++
      ⟨(matchPatterns st.record patterns c.storage 0).1.map (Slot.map Record.dropDetref),
        c.matchCount + (matchPatterns st.record patterns c.storage 0).2, .partialSync⟩ :: ds)
      (bs ++ (g.1, []) :: (handed g.2 ++ cs)) := by
    refine hs.rests_store hf hw hmask hds hhit hlinked3 (by simp) ?_ hcont3 heq3
    intro g' hg'
    simp only [mem_append, mem_cons] at hg'
    rcases hg' with hg' | rfl | hg'
    · exact hub g' hg'
    · exact halone
    · exact huc g' (mem_append.2 hg')
  rcases eq_nil_or_concat bs with rfl | ⟨bs', ⟨p, ps⟩, rfl⟩
  · have hprev : st.prev = none := hs.prev
    exact ⟨land3, _, hmatched (by rw [hprev]; rfl), hstay⟩
  · rw [concat_eq_append] at *
    have hprev : st.prev = some p := by rw [hs.prev]; simp
    obtain ⟨l, hok⟩ := hs.linked.groups (p, ps) (by simp)
    have hp : st.land.heap p = some l := hok.lead
    obtain ⟨hnb, hnr⟩ := hs.notMem
    have hpg : p ≠ g.1 := fun e => hnb (by simp [e])
    have hpas : p ∉ g.2 := by
      have hnd := hs.linked.nodup
      simp only [flat_append, flat_cons, flat_nil, append_nil] at hnd
      intro hmem
      exact (nodup_append.1 hnd).2.2 p (by simp) p (by simp [hmem]) rfl
    have hp3 : land3.heap p = some l := by simpa [land3, hpg, hp] using hframe p hpg hpas
    have hg3 : land3.heap g.1 =
        some { m' with storage := t.storage.map (Slot.map Record.dropDetref) } := by simp [land3]
    by_cases heqm : l.unmatched = left patterns st m
    · -- it joins the group in front of it
      have hjc : l.tail = none ∨ m'.tail = none := by
        cases hsame : m.same with
        | none =>
          rw [htail1 hsame]
          exact hclear.join m p l hm hhit hsame hne hprev hp heqm
        | some s => exact Or.inr (htail2 (by simp [hsame]))
      have hl3 : Linked land3 (bs' ++ (p, ps) :: (g.1, []) :: (handed g.2 ++ cs)) := by
        simpa using hlinked3
      obtain ⟨land4, hj, hlinked4, hcont4⟩ := hl3.joinPrev hp3 hg3
        (heqm.trans (hleft.symm.trans hu'.symm)) hjc
      refine ⟨land4, _, hmatched (by rw [hprev]; exact hj),
        hs.rests_store hf hw hmask hds hhit hlinked4 (by simp) ?_ ((hcont4 _).trans hcont3)
          fun b hb => (hcont4 b).trans (heq3 b hb)⟩
      intro g' hg'
      simp only [mem_append, mem_cons] at hg'
      rcases hg' with hg' | rfl | hg'
      · exact (hub g' (by simp [hg'])).congr fun b _ => hcont4 b
      · intro b hb
        have hpl : (content land4.heap p).map Prod.fst = some (left patterns st m) := by
          rw [hcont4 p, content, hp3]
          simp [heqm]
        rcases mem_append.1 hb with hb | hb
        · rw [hcont4 b, hcont4 p]
          exact hub (p, ps) (by simp) b hb
        · rw [mem_singleton.1 hb, hcont4 g.1, hcont3, hpl]
          rfl
      · exact (huc g' (mem_append.2 hg')).congr fun b _ => hcont4 b
    · refine ⟨land3, _, hmatched ?_, hstay⟩
      have hneq : ¬ l.unmatched = m'.unmatched := fun e =>
        heqm (e.trans (hu'.trans hleft))
      rw [hprev]
      simp only [Landing.joinPrev, hp3, hg3, hneq, if_false]

theorem Sim.fire {m : Matching V} {t : Tested V} {rec : Record V}
    (hs : Sim patterns exits st ch bs g cs) (hm : st.land.heap st.matching = some m)
    (hhit : Hits patterns st m) (hclear : TailsClear patterns st) (hempty : t.unmatched = ∅)
    (hmerge : mergeFromStorage patterns t.storage st.record = some rec) :
    ∃ land, Linked land (bs ++ (handed g.2 ++ cs)) ∧
      (∀ b, b ≠ g.1 → content land.heap b = content st.land.heap b) ∧
      matched patterns exits st m t =
        if matchExitPatterns exits rec then .ret land [.write rec]
        else advance patterns land rec st.prev (Finset.range patterns.length) := by
  obtain ⟨land, m', hsplit, hlinked, -, -, -, -, -, hcont, -⟩ :=
    @Sim.split _ _ _ _ _ _ _ _ m t.unmatched t.storage hs hm hhit hclear
  have hma := hs.matching
  have hunlink : ∃ land2, land.unlink st.prev g.1 = some land2 ∧
      Linked land2 (bs ++ (handed g.2 ++ cs)) ∧
      ∀ b, b ≠ g.1 → content land2.heap b = content land.heap b := by
    rcases eq_nil_or_concat bs with rfl | ⟨bs', ⟨p, ps⟩, rfl⟩
    · have hprev : st.prev = none := hs.prev
      rw [hprev]
      exact hlinked.unlinkHead
    · rw [concat_eq_append] at *
      have hprev : st.prev = some p := by rw [hs.prev]; simp
      rw [hprev]
      have hl : Linked land (bs' ++ (p, ps) :: (g.1, []) :: (handed g.2 ++ cs)) := by
        simpa using hlinked
      simpa using hl.unlink
  obtain ⟨land2, hun, hlinked2, hcont2⟩ := hunlink
  refine ⟨land2, hlinked2, fun b hb => (hcont2 b hb).trans (hcont b hb), ?_⟩
  rw [hma, hempty] at hsplit
  simp only [matched, hma, hempty, hsplit, ne_eq, not_true_eq_false, if_false, hmerge, hun]

theorem Sim.miss {m : Matching V} {ds : List (SyncLanding V)} {n : Nat}
    (hs : Sim patterns exits st ch bs g cs) (hm : st.land.heap st.matching = some m)
    (hf : ch.front patterns = c :: ds) (hw : Waiting patterns c) (hss : m.storage = c.storage)
    (hmask : ∀ i, i ∈ m.unmatched ↔ c.storage[i]? = some Slot.dummy)
    (hds : List.Forall₂ (Stands patterns st.land.heap) (g.2 ++ flat cs) ds)
    (hmiss : ¬ Hits patterns st m)
    (hrest : ((Chain.step patterns exits)^[n] ch).moving = none) :
    ∃ st' ch' bs' g' cs' k, body patterns exits st = .next st' ∧
      Sim patterns exits st' ch' bs' g' cs' ∧ k < n ∧
      (Chain.step patterns exits)^[k] ch' = (Chain.step patterns exits)^[n] ch ∧
      ch'.out = ch.out := by
  have hrejc : Rejects patterns c.storage st.record := by
    by_contra hno
    exact hmiss ((hs.hits_iff hmask).2 hno)
  have hwait : ∀ d ∈ ch.rest, Waiting patterns d := by
    intro d hd
    have hmem : d ∈ ch.front patterns := by
      rw [Chain.front]
      cases hr : ch.rest with
      | nil => simp [hr] at hd
      | cons e es => simpa [hr] using hd
    exact stands_waiting hs.front d hmem
  -- a record that every pattern rejects would move forever
  have hnotall : ¬ ∀ p ∈ patterns, p.accepts st.record = false := by
    intro hall
    rw [Chain.moving_of_rejected hs.moving hs.stays hall hwait n] at hrest
    cases hrest
  have hne : st.untested ≠ ∅ := by
    intro he
    refine hnotall fun p hp => ?_
    obtain ⟨i, hi⟩ := mem_iff_getElem?.1 hp
    exact hs.tested i p hi (by simp [he])
  obtain ⟨es, hr⟩ : ∃ es, ch.rest = c :: es := by
    cases hr : ch.rest with
    | nil =>
      refine absurd (fun p hp => ?_) hnotall
      obtain ⟨i, hi⟩ := mem_iff_getElem?.1 hp
      obtain rfl : SyncLanding.init patterns = c := by
        have := (List.cons.inj hf).1
        simpa [hr] using this
      have hlt : i < patterns.length := (List.getElem?_eq_some_iff.1 hi).1
      exact hrejc i p hi (by simp [SyncLanding.init, hlt])
    | cons d es =>
      have := (List.cons.inj hf).1
      exact ⟨es, by simpa [hr] using this⟩
  obtain rfl : es = ds := by
    have := (List.cons.inj hf).2
    simpa [hr] using this
  -- the cells of the group lack what the first lacks
  have hsplit : ∃ ds1 ds2, es = ds1 ++ ds2 ∧
      List.Forall₂ (Stands patterns st.land.heap) g.2 ds1 ∧
      List.Forall₂ (Stands patterns st.land.heap) (flat cs) ds2 := by
    refine ⟨es.take g.2.length, es.drop g.2.length, (take_append_drop _ _).symm, ?_, ?_⟩
    · have := forall₂_take g.2.length hds
      rwa [take_left] at this
    · have := forall₂_drop g.2.length hds
      rwa [drop_left] at this
  obtain ⟨ds1, ds2, rfl, hds1, hds2⟩ := hsplit
  have hgroup : ∀ d ∈ c :: ds1, Waiting patterns d ∧ Rejects patterns d.storage st.record := by
    refine forall_mem_cons.2 ⟨⟨hw, hrejc⟩, ?_⟩
    have hmasks : ∀ b ∈ g.2, (content st.land.heap b).map Prod.fst = some m.unmatched := by
      intro b hb
      rw [hs.uniform g (by simp) b hb, ← hs.matching]
      simp [content, hm]
    clear hds hf hr
    generalize g.2 = as at hds1 hmasks
    induction hds1 with
    | nil => simp
    | cons h1 _ ih =>
      refine forall_mem_cons.2 ⟨⟨h1.1, ?_⟩, ih fun b hb => hmasks b (mem_cons_of_mem _ hb)⟩
      obtain ⟨-, u, hu, humask⟩ := h1
      obtain rfl : u = m.unmatched := by
        have := hmasks _ mem_cons_self
        simpa [hu] using this
      intro i p hp hd
      exact hrejc i p hp ((hmask i).1 ((humask i).2 hd))
  obtain ⟨k, rfl, hk⟩ := Chain.pass_cells hs.moving hs.stays
    (show ch.rest = (c :: ds1) ++ ds2 by rw [hr]; rfl) hgroup hrest
  obtain ⟨u, htested, hbody⟩ := hs.body_miss hm hw hss hmask hmiss hne
  have hgap : Gap patterns exits st.land st.record u
      ⟨ch.passed ++ (c :: ds1), ds2, some st.record, ch.out⟩ (bs ++ [g]) cs := by
    refine ⟨by simpa using hs.linked, by simpa using hs.uniform, rfl, hs.stays, htested, ?_, hds2,
      ?_⟩
    · have hfr := hs.front
      rw [hf, flat_cons, cons_append] at hfr
      have : flat (bs ++ [g]) = flat bs ++ g.1 :: g.2 := by simp
      rw [this]
      exact rel_append hs.passed (.cons (forall₂_cons.1 hfr).1 hds1)
    · intro d hd
      refine hs.filled d ?_
      rw [hr]
      simpa [or_assoc] using hd
  obtain ⟨st', g', cs', hadv, hsim⟩ := hgap.advance (by simp)
  refine ⟨st', _, _, g', cs', k, ?_, hsim, by simp, hk.symm, rfl⟩
  rw [hbody, ← hadv, hs.matching]
  simp

theorem Sim.step {n : Nat} (hs : Sim patterns exits st ch bs g cs)
    (hrest : ((Chain.step patterns exits)^[n] ch).moving = none) (hint : Intact patterns exits st) :
    (∃ land out gs, body patterns exits st = .ret land out ∧
      Rests patterns land (((Chain.step patterns exits)^[n] ch).passed ++
        ((Chain.step patterns exits)^[n] ch).rest) gs ∧
      ((Chain.step patterns exits)^[n] ch).out = ch.out ++ out) ∨
    ∃ st' ch' bs' g' cs' k, body patterns exits st = .next st' ∧
      Sim patterns exits st' ch' bs' g' cs' ∧ k < n ∧
      (Chain.step patterns exits)^[k] ch' = (Chain.step patterns exits)^[n] ch ∧
      ch'.out = ch.out := by
  obtain ⟨m, c, ds, hm, hf, hw, hss, hmask, hds⟩ := hs.cell
  obtain ⟨hclear, hkept⟩ := hint
  by_cases hhit : Hits patterns st m
  swap
  · exact Or.inr (hs.miss hm hf hw hss hmask hds hhit hrest)
  have hrej := (hs.hits_iff hmask).1 hhit
  obtain ⟨t, hstorage, hleft, hbody⟩ := hs.body_hit hm hw hss hmask hhit
  obtain ⟨k, rfl, hk⟩ := Chain.peel hs.moving hrest
  rw [hbody]
  by_cases hempty : left patterns st m = ∅
  swap
  · -- the cell stores the record, and both are at rest
    left
    have hl : lacking (matchPatterns st.record patterns c.storage 0).1 ≠ 0 := fun e =>
      hempty ((left_eq_empty hw hmask).2 e)
    obtain ⟨land, gs, hmatched, hrests⟩ :=
      hs.store hm hf hw hmask hds hhit hclear hstorage hleft hempty
    rw [hk, Chain.step_store hs.moving hs.stays hf hw hrej hl,
      Chain.iterate_of_fixed (Chain.step_of_rest rfl)]
    exact ⟨land, _, gs, hmatched, hrests, rfl⟩
  -- the cell fires
  have hl := (left_eq_empty hw hmask).1 hempty
  have hstep := Chain.step_fire hs.moving hs.stays hf hw hrej hl
  cases hmerge : mergeFromStorage patterns (matchPatterns st.record patterns c.storage 0).1
      st.record with
  | none =>
    rw [hmerge] at hstep
    rw [Chain.iterate_of_fixed hstep, hs.moving] at hrest
    cases hrest
  | some r =>
    rw [hmerge] at hstep
    obtain ⟨land, hlinked, heq, hmatched⟩ := hs.fire hm hhit hclear (hleft.trans hempty)
      (hstorage ▸ hmerge)
    obtain ⟨hpassed, hrestds, hub, huc⟩ := hs.others hds heq
    have hflat : flat (handed g.2 ++ cs) = g.2 ++ flat cs := by simp
    have huniform : ∀ g' ∈ bs ++ (handed g.2 ++ cs), Uniform land.heap g' := fun g' hg' =>
      (mem_append.1 hg').elim (hub g') (huc g')
    have hfilled : ∀ d ∈ ch.passed ++ ds, Filled patterns d := by
      intro d hd
      have htl : ds = ch.rest.tail := (List.cons.inj hf).2.symm
      rcases mem_append.1 hd with hd | hd
      · exact hs.filled d (mem_append_left _ hd)
      · exact hs.filled d (mem_append_right _ (mem_of_mem_tail (htl ▸ hd)))
    rw [hmatched]
    rw [hk, hstep] at hrest ⊢
    cases hexit : matchExitPatterns exits r with
    | true =>
      left
      obtain ⟨j, rfl, hj⟩ := Chain.peel rfl hrest
      rw [hj, Chain.step_exit rfl hexit, Chain.iterate_of_fixed (Chain.step_of_rest rfl)]
      refine ⟨land, _, bs ++ (handed g.2 ++ cs), if_pos rfl, ⟨hlinked, huniform, ?_, hfilled⟩, rfl⟩
      rw [flat_append, hflat]
      exact rel_append hpassed hrestds
    | false =>
      right
      have hgap : Gap patterns exits land r (Finset.range patterns.length)
          ⟨ch.passed, ds, some r, ch.out⟩ bs (handed g.2 ++ cs) := by
        refine ⟨hlinked, huniform, rfl, hexit, ?_, hpassed, hflat ▸ hrestds, hfilled⟩
        intro i p hp hi
        refine absurd ?_ hi
        rw [Nat.zero_add, Finset.mem_range]
        exact (List.getElem?_eq_some_iff.1 hp).1
      obtain ⟨st', g', cs', hadv, hsim⟩ := hgap.advance (by
        rintro rfl
        have hma := hs.matching
        obtain ⟨m0, hok⟩ := hs.linked.groups g (by simp)
        rw [hma] at hm
        cases hm.symm.trans hok.lead
        obtain ⟨hnext, hsame⟩ := hkept m r (hma ▸ hm) hhit hempty hs.prev (hss ▸ hmerge) hexit
        have h2 : g.2 = [] := by
          have := hok.same.head_eq
          rw [hsame] at this
          cases hg2 : g.2 with
          | nil => rfl
          | cons s ss => simp [hg2] at this
        have h3 : cs = [] := by
          obtain ⟨-, r, hr, hseg⟩ := hs.linked.chain
          have hr : m.next = r := by simpa [nextLink, hm] using hr
          rw [← hr, hnext] at hseg
          cases cs with
          | nil => rfl
          | cons g' cs => exact absurd hseg.1 (by simp)
        simp [h2, h3, handed])
      refine ⟨st', _, bs, g', cs', k, ?_, hsim, Nat.lt_succ_self k, rfl, rfl⟩
      rw [if_neg (by simp), ← hadv, hs.prev]

/-! ### A zipper that is not intact -/

theorem Sim.fault_split {m n : Matching V} {s : Addr} (hs : Sim patterns exits st ch bs g cs)
    (hm : st.land.heap st.matching = some m) (hhit : Hits patterns st m) (hsame : m.same = some s)
    (hn : st.land.heap s = some n) (htail : n.tail ≠ none) : body patterns exits st = .fault := by
  obtain ⟨m', c, ds, hm', hf, hw, hss, hmask, hds⟩ := hs.cell
  cases hm.symm.trans hm'
  obtain ⟨t, -, -, hbody⟩ := hs.body_hit hm hw hss hmask hhit
  obtain ⟨m0, hok⟩ := hs.linked.groups g (by simp)
  have hne : s ≠ st.matching := by
    have hseg := hok.same
    have hlead := hok.lead
    rw [← hs.matching, hm] at hlead
    cases hlead
    rw [hsame] at hseg
    rintro rfl
    cases hg2 : g.2 with
    | nil =>
      rw [hg2] at hseg
      cases hseg
    | cons b as =>
      rw [hg2] at hseg
      cases hseg.1
      exact hs.notMem.2 (by simp [← hs.matching, hg2])
  rw [hbody]
  simp [matched, Landing.splitSame, hsame, hne, hn, htail]

theorem joinPrev_eq_none {land : Landing V} {p a : Addr} {l m : Matching V}
    (hp : land.heap p = some l) (ha : land.heap a = some m) (heq : l.unmatched = m.unmatched)
    (hl : l.tail ≠ none) (hm : m.tail ≠ none) : land.joinPrev (some p) a = none := by
  obtain ⟨t, ht⟩ := Option.ne_none_iff_exists'.1 hl
  simp only [Landing.joinPrev, hp, ha, heq, if_true, ht, hm, and_false, if_false]
  split
  · rfl
  · split <;> rfl

theorem Sim.fault_join {m l : Matching V} {p : Addr} (hs : Sim patterns exits st ch bs g cs)
    (hm : st.land.heap st.matching = some m) (hhit : Hits patterns st m) (hsame : m.same = none)
    (hne : left patterns st m ≠ ∅) (hprev : st.prev = some p) (hp : st.land.heap p = some l)
    (heq : l.unmatched = left patterns st m) (hl : l.tail ≠ none) (hmt : m.tail ≠ none) :
    body patterns exits st = .fault := by
  obtain ⟨m', c, ds, hm', hf, hw, hss, hmask, hds⟩ := hs.cell
  cases hm.symm.trans hm'
  obtain ⟨t, -, hleft, hbody⟩ := hs.body_hit hm hw hss hmask hhit
  have hpm : p ≠ st.matching := by
    intro e
    have hpr := hs.prev
    rw [hprev] at hpr
    obtain ⟨g', hg', hgp⟩ := Option.map_eq_some_iff.1 hpr.symm
    refine hs.notMem.1 (mem_flat_of_mem (mem_of_getLast? hg') ?_)
    rw [hgp, e, hs.matching]
    exact mem_cons_self
  rw [hbody]
  simp only [matched, Landing.splitSame, Landing.set_heap, if_true, hsame, hleft, hne, ne_eq,
    not_false_eq_true, hprev]
  let m3 : Matching V := { m with
    same := none
    unmatched := left patterns st m
    storage := t.storage.map (Slot.map Record.dropDetref) }
  have hjoin := @joinPrev_eq_none _ ((st.land.set st.matching { m with
    same := none, unmatched := left patterns st m, storage := t.storage }).set st.matching m3)
    p st.matching l m3 (by simp [hpm, hp]) (by simp) heq hl hmt
  rw [hjoin]

theorem Sim.fault_head {m : Matching V} {r : Record V} (hs : Sim patterns exits st ch bs g cs)
    (hm : st.land.heap st.matching = some m) (hhit : Hits patterns st m)
    (hempty : left patterns st m = ∅) (hprev : st.prev = none)
    (hmerge : mergeFromStorage patterns (matchPatterns st.record patterns m.storage 0).1 st.record =
      some r) (hexit : matchExitPatterns exits r = false)
    (hne : ¬ (m.next = none ∧ m.same = none)) : body patterns exits st = .fault := by
  obtain ⟨m', c, ds, hm', hf, hw, hss, hmask, hds⟩ := hs.cell
  cases hm.symm.trans hm'
  obtain ⟨t, hstorage, hleft, hbody⟩ := hs.body_hit hm hw hss hmask hhit
  rw [hss, ← hstorage] at hmerge
  rw [hbody]
  simp only [matched, hleft, hempty, ne_eq, not_true_eq_false, if_false, hmerge, hprev, hexit,
    Bool.false_eq_true]
  rcases Option.eq_none_or_eq_some m.same with hsame | ⟨s, hsame⟩
  · have hnext : m.next ≠ none := fun e => hne ⟨e, hsame⟩
    simp [Landing.splitSame, hsame, Landing.unlink, advance, Landing.delete, hnext]
  · cases hsplit : (st.land.set st.matching { m with unmatched := ∅, storage := t.storage }).splitSame
        st.matching with
    | none => rfl
    | some land =>
      -- the second cell has become the successor of the one that fires
      have hland : ∃ m2, land.heap st.matching = some m2 ∧ m2.next = some s := by
        simp only [Landing.splitSame, Landing.set_heap, if_true, hsame] at hsplit
        split at hsplit
        · cases hsplit
        · split at hsplit
          · cases hsplit
            exact ⟨_, by simp; rfl, rfl⟩
          · cases hsplit
      obtain ⟨m2, hm2, hnext⟩ := hland
      simp [Landing.unlink, hm2, advance, Landing.delete, hnext]

theorem Sim.fault (hs : Sim patterns exits st ch bs g cs) (hint : ¬ Intact patterns exits st) :
    body patterns exits st = .fault := by
  by_contra hno
  refine hint ⟨⟨?_, ?_⟩, ?_⟩
  · intro m s n hm hhit hsame hn
    by_contra htail
    exact hno (hs.fault_split hm hhit hsame hn htail)
  · intro m p l hm hhit hsame hne hprev hp heq
    by_contra htails
    rw [not_or] at htails
    exact hno (hs.fault_join hm hhit hsame hne hprev hp heq htails.1 htails.2)
  · intro m r hm hhit hempty hprev hmerge hexit
    by_contra hne
    exact hno (hs.fault_head hm hhit hempty hprev hmerge hexit hne)

/-! ## Whole runs -/

/-- The iterations of the loop from `st` on. -/
inductive Iterates (patterns exits : List (Pattern V)) : Loop V → Loop V → Prop
  | refl (st : Loop V) : Iterates patterns exits st st
  | step {st st' st'' : Loop V} (h : body patterns exits st = .next st')
      (hi : Iterates patterns exits st' st'') : Iterates patterns exits st st''

/-- The iterations of the zipper for a sequence of records. -/
inductive Occurs (patterns exits : List (Pattern V)) : Landing V → List (Record V) → Loop V → Prop
  | here {land : Landing V} {rec : Record V} {recs : List (Record V)} {st : Loop V}
      (he : matchExitPatterns exits rec = false)
      (hi : Iterates patterns exits (enter patterns land rec) st) :
      Occurs patterns exits land (rec :: recs) st
  | later {land land' : Landing V} {rec : Record V} {recs : List (Record V)}
      {out : List (Effect V)} {st : Loop V} (fuel : Nat)
      (hz : nodeZipper patterns exits fuel land rec = .done (land', out))
      (ho : Occurs patterns exits land' recs st) : Occurs patterns exits land (rec :: recs) st

theorem loop_mono {fuel fuel' : Nat} (h : fuel ≤ fuel') (st : Loop V)
    (hne : loop patterns exits fuel st ≠ .blocked) :
    loop patterns exits fuel' st = loop patterns exits fuel st := by
  induction fuel generalizing fuel' st with
  | zero => exact absurd rfl hne
  | succ fuel ih =>
    obtain ⟨k, rfl⟩ : ∃ k, fuel' = k + 1 := ⟨fuel' - 1, by omega⟩
    simp only [loop] at hne ⊢
    cases hb : body patterns exits st with
    | next st' =>
      simp only [hb] at hne
      exact ih (by omega) st' hne
    | ret land out => rfl
    | fault => rfl

theorem nodeZipper_mono {fuel fuel' : Nat} (h : fuel ≤ fuel') (land : Landing V) (rec : Record V)
    (hne : nodeZipper patterns exits fuel land rec ≠ .blocked) :
    nodeZipper patterns exits fuel' land rec = nodeZipper patterns exits fuel land rec := by
  unfold nodeZipper at hne ⊢
  split
  · rfl
  · rename_i hexit
    rw [if_neg hexit] at hne
    exact loop_mono h _ hne

theorem zipperAll_mono {fuel fuel' : Nat} (h : fuel ≤ fuel') (land : Landing V)
    (recs : List (Record V)) (hne : zipperAll patterns exits fuel land recs ≠ .blocked) :
    zipperAll patterns exits fuel' land recs = zipperAll patterns exits fuel land recs := by
  induction recs generalizing land with
  | nil => rfl
  | cons rec recs ih =>
    simp only [zipperAll] at hne ⊢
    have hz : nodeZipper patterns exits fuel land rec ≠ .blocked := by
      intro e
      rw [e] at hne
      exact hne rfl
    rw [nodeZipper_mono h land rec hz]
    cases hr : nodeZipper patterns exits fuel land rec with
    | blocked => exact absurd hr hz
    | fault => rfl
    | done x =>
      rw [hr] at hne
      have hrest : zipperAll patterns exits fuel x.1 recs ≠ .blocked := by
        intro e
        simp only [e] at hne
        exact hne rfl
      simp only [ih x.1 hrest]

theorem Sim.loop_done {n : Nat} (hs : Sim patterns exits st ch bs g cs)
    (hrest : ((Chain.step patterns exits)^[n] ch).moving = none)
    (hint : ∀ st', Iterates patterns exits st st' → Intact patterns exits st') :
    ∃ fuel land out gs, loop patterns exits fuel st = .done (land, out) ∧
      Rests patterns land (((Chain.step patterns exits)^[n] ch).passed ++
        ((Chain.step patterns exits)^[n] ch).rest) gs ∧
      ((Chain.step patterns exits)^[n] ch).out = ch.out ++ out := by
  induction n using Nat.strong_induction_on generalizing st ch bs g cs with
  | _ n ih =>
    rcases hs.step hrest (hint st (.refl st)) with ⟨land, out, gs, hb, hr, ho⟩ |
      ⟨st', ch', bs', g', cs', k, hb, hs', hk, hch, hout⟩
    · exact ⟨1, land, out, gs, by simp [loop, hb], hr, ho⟩
    · rw [← hch] at hrest
      obtain ⟨fuel, land, out, gs, hl, hr, ho⟩ := ih k hk hs' hrest fun st'' hi =>
        hint st'' (.step hb hi)
      rw [hch] at hr ho
      exact ⟨fuel + 1, land, out, gs, by simp [loop, hb, hl], hr, hout ▸ ho⟩

theorem Sim.loop_fault {n : Nat} (hs : Sim patterns exits st ch bs g cs)
    (hrest : ((Chain.step patterns exits)^[n] ch).moving = none)
    (hint : ¬ ∀ st', Iterates patterns exits st st' → Intact patterns exits st') :
    ∃ fuel, loop patterns exits fuel st = .fault := by
  induction n using Nat.strong_induction_on generalizing st ch bs g cs with
  | _ n ih =>
    by_cases hst : Intact patterns exits st
    swap
    · exact ⟨1, by simp [loop, hs.fault hst]⟩
    rcases hs.step hrest hst with ⟨land, out, gs, hb, -, -⟩ |
      ⟨st', ch', bs', g', cs', k, hb, hs', hk, hch, -⟩
    · refine absurd (fun st' hi => ?_) hint
      cases hi with
      | refl => exact hst
      | step h _ => exact absurd (hb.symm.trans h) (by simp)
    · rw [← hch] at hrest
      obtain ⟨fuel, hl⟩ := ih k hk hs' hrest fun hall => hint fun st'' hi => by
        cases hi with
        | refl => exact hst
        | step h hi' =>
          cases hb.symm.trans h
          exact hall st'' hi'
      exact ⟨fuel + 1, by simp [loop, hb, hl]⟩

theorem Rests.enter {land : Landing V} {cells : List (SyncLanding V)} {gs : List Group}
    (hr : Rests patterns land cells gs) (he : matchExitPatterns exits rec = false) :
    ∃ g cs, Sim patterns exits (enter patterns land rec) (Chain.enter cells rec) [] g cs := by
  have hgap : Gap patterns exits land rec (Finset.range patterns.length) (Chain.enter cells rec)
      [] gs := by
    refine ⟨hr.linked, hr.uniform, rfl, he, ?_, .nil, hr.stands, hr.filled⟩
    intro i p hp hi
    refine absurd ?_ hi
    rw [Nat.zero_add, Finset.mem_range]
    exact (List.getElem?_eq_some_iff.1 hp).1
  cases gs with
  | nil =>
    have hhead : land.head = none := hr.linked.chain
    refine ⟨(land.fresh, []), [], ?_⟩
    rw [Zipper.enter, hhead]
    exact hgap.allocHead
  | cons g cs =>
    have hhead : land.head = some g.1 := hr.linked.chain.1
    refine ⟨g, cs, ?_⟩
    rw [Zipper.enter, hhead]
    exact hgap.sim

theorem Rests.holds {land : Landing V} {cells : List (SyncLanding V)} {gs : List Group}
    (hr : Rests patterns land cells gs) : Holds land cells := by
  refine ⟨flat gs, hr.linked.walk, hr.linked.live, ?_⟩
  refine hr.stands.imp fun a c hst => ?_
  obtain ⟨-, u, hu, hmask⟩ := hst
  obtain ⟨m, hm, hmu⟩ := Option.map_eq_some_iff.1 hu
  obtain ⟨rfl, hss⟩ := Prod.mk.inj hmu
  exact ⟨m, hm, hss, hmask⟩

theorem zipperAll_outcome {cells cells' : List (SyncLanding V)} {recs : List (Record V)}
    {out : List (Effect V)} (h : Settles patterns exits cells recs cells' out) {land : Landing V}
    {gs : List Group} (hr : Rests patterns land cells gs) :
    ((∀ st, Occurs patterns exits land recs st → Intact patterns exits st) →
      ∃ fuel land' gs', zipperAll patterns exits fuel land recs = .done (land', out) ∧
        Rests patterns land' cells' gs') ∧
    ((¬ ∀ st, Occurs patterns exits land recs st → Intact patterns exits st) →
      ∃ fuel, zipperAll patterns exits fuel land recs = .fault) := by
  induction h generalizing land gs with
  | nil cells =>
    refine ⟨fun _ => ⟨0, land, gs, rfl, hr⟩, fun hno => absurd (fun st ho => ?_) hno⟩
    cases ho
  | @cons cells cells' rec recs out c n hc hrest hsettles ih =>
    -- the first record alone
    have hfirst : ((∀ st, matchExitPatterns exits rec = false →
          Iterates patterns exits (enter patterns land rec) st → Intact patterns exits st) →
        ∃ fuel land' gs', nodeZipper patterns exits fuel land rec = .done (land', c.out) ∧
          Rests patterns land' (c.passed ++ c.rest) gs') ∧
        ((¬ ∀ st, matchExitPatterns exits rec = false →
          Iterates patterns exits (enter patterns land rec) st → Intact patterns exits st) →
        ∃ fuel, nodeZipper patterns exits fuel land rec = .fault) := by
      cases he : matchExitPatterns exits rec with
      | true =>
        have hmoving : (Chain.enter cells rec).moving = some rec := rfl
        rw [← hc] at hrest
        obtain ⟨k, rfl, hk⟩ := Chain.peel hmoving hrest
        have hfixed : Chain.step patterns exits ⟨[], cells, none, [.write rec]⟩ =
            ⟨[], cells, none, [.write rec]⟩ := Chain.step_of_rest rfl
        have hexit : (Chain.enter cells rec).step patterns exits = ⟨[], cells, none, [.write rec]⟩ :=
          Chain.step_exit hmoving he
        rw [hexit, Chain.iterate_of_fixed hfixed] at hk
        rw [← hc, hk]
        exact ⟨fun _ => ⟨0, land, gs, by simp [nodeZipper, he], hr⟩,
          fun hno => absurd (fun _ h => by cases h) hno⟩
      | false =>
        obtain ⟨g, cs, hs⟩ := hr.enter he
        have hrest' : ((Chain.step patterns exits)^[n] (Chain.enter cells rec)).moving = none := by
          rw [hc]
          exact hrest
        constructor
        · intro hint
          obtain ⟨fuel, land', out', gs', hl, hrs, ho⟩ := hs.loop_done hrest' fun st hi =>
            hint st rfl hi
          rw [hc] at hrs ho
          refine ⟨fuel, land', gs', ?_, hrs⟩
          rw [ho]
          simpa [nodeZipper, he, Chain.enter] using hl
        · intro hno
          obtain ⟨fuel, hl⟩ := hs.loop_fault hrest' fun hall => hno fun st _ hi => hall st hi
          exact ⟨fuel, by simpa [nodeZipper, he] using hl⟩
    by_cases hint1 : ∀ st, matchExitPatterns exits rec = false →
        Iterates patterns exits (enter patterns land rec) st → Intact patterns exits st
    swap
    · obtain ⟨fuel, hf⟩ := hfirst.2 hint1
      refine ⟨fun hall => absurd (fun st he hi => hall st (.here he hi)) hint1, fun _ => ⟨fuel, ?_⟩⟩
      simp [zipperAll, hf]
    obtain ⟨fuel1, land1, gs1, hz1, hr1⟩ := hfirst.1 hint1
    obtain ⟨ih1, ih2⟩ := ih hr1
    constructor
    · intro hall
      obtain ⟨fuel2, land2, gs2, hz2, hr2⟩ := ih1 fun st ho => hall st (.later fuel1 hz1 ho)
      refine ⟨max fuel1 fuel2, land2, gs2, ?_, hr2⟩
      rw [zipperAll, nodeZipper_mono (Nat.le_max_left _ _) _ _ (by simp [hz1]), hz1]
      simp only
      rw [zipperAll_mono (Nat.le_max_right _ _) _ _ (by simp [hz2]), hz2]
    · intro hno
      have hno' : ¬ ∀ st, Occurs patterns exits land1 recs st → Intact patterns exits st := by
        intro hall
        refine hno fun st ho => ?_
        cases ho with
        | here he hi => exact hint1 st he hi
        | later fuel hz ho =>
          -- the landing after the first record does not depend on the fuel
          have hne : nodeZipper patterns exits fuel land rec ≠ .blocked := by simp [hz]
          have hne1 : nodeZipper patterns exits fuel1 land rec ≠ .blocked := by simp [hz1]
          have h1 := nodeZipper_mono (Nat.le_max_left fuel fuel1) land rec hne
          have h2 := nodeZipper_mono (Nat.le_max_right fuel fuel1) land rec hne1
          rw [hz] at h1
          rw [hz1] at h2
          cases h1.symm.trans h2
          exact hall st ho
      obtain ⟨fuel2, hz2⟩ := ih2 hno'
      refine ⟨max fuel1 fuel2, ?_⟩
      rw [zipperAll, nodeZipper_mono (Nat.le_max_left _ _) _ _ (by simp [hz1]), hz1]
      simp only
      rw [zipperAll_mono (Nat.le_max_right _ _) _ _ (by simp [hz2]), hz2]

/-- For the given records the zipper does what the star does: it returns from every call with all
assertions met, has emitted the same and holds the same cells in the same order, all of them to be
reached from `land->head`. -/
def Fuses (patterns exits : List (Pattern V)) (recs : List (Record V))
    (cells : List (SyncLanding V)) (out : List (Effect V)) : Prop :=
  ∃ fuel land, zipperAll patterns exits fuel .init recs = .done (land, out) ∧ Holds land cells

theorem rests_init (patterns : List (Pattern V)) : Rests patterns Landing.init [] [] := by
  refine ⟨linked_init, ?_, .nil, ?_⟩ <;> exact fun _ h => absurd h not_mem_nil

theorem fault_ne_done {patterns exits : List (Pattern V)} {land : Landing V}
    {recs : List (Record V)} {fuel fuel' : Nat} {x : Landing V × List (Effect V)}
    (hf : zipperAll patterns exits fuel land recs = .fault)
    (hz : zipperAll patterns exits fuel' land recs = .done x) : False := by
  have hne : zipperAll patterns exits fuel land recs ≠ .blocked := by simp [hf]
  have hne' : zipperAll patterns exits fuel' land recs ≠ .blocked := by simp [hz]
  have e1 := zipperAll_mono (Nat.le_max_left fuel fuel') _ _ hne
  have e2 := zipperAll_mono (Nat.le_max_right fuel fuel') _ _ hne'
  rw [hf] at e1
  rw [hz] at e2
  cases e1.symm.trans e2

theorem not_fuses_of_fault {patterns exits : List (Pattern V)} {recs : List (Record V)} {fuel : Nat}
    (hf : zipperAll patterns exits fuel .init recs = .fault) (cells : List (SyncLanding V))
    (out : List (Effect V)) : ¬ Fuses patterns exits recs cells out := by
  rintro ⟨fuel', land, hz, -⟩
  exact fault_ne_done hf hz

theorem fuses_of_done {patterns exits : List (Pattern V)} {recs : List (Record V)}
    {cells : List (SyncLanding V)} {out : List (Effect V)}
    (h : Settles patterns exits [] recs cells out) {fuel : Nat} {x : Landing V × List (Effect V)}
    (hz : zipperAll patterns exits fuel .init recs = .done x) : Fuses patterns exits recs cells out := by
  obtain ⟨h1, h2⟩ := zipperAll_outcome h (rests_init patterns)
  have hall : ∀ st, Occurs patterns exits .init recs st → Intact patterns exits st := by
    by_contra hno
    obtain ⟨fuel', hf⟩ := h2 hno
    exact fault_ne_done hf hz
  obtain ⟨fuel, land, gs, hz, hr⟩ := h1 hall
  exact ⟨fuel, land, hz, hr.holds⟩

/-- The zipper equals the star it replaces if and only if no iteration of its loop damages the
lists. -/
theorem zipper_fuses_star_iff (patterns exits : List (Pattern V)) {recs : List (Record V)}
    {cells : List (SyncLanding V)} {out : List (Effect V)}
    (h : Settles patterns exits [] recs cells out) :
    Fuses patterns exits recs cells out ↔
      ∀ st, Occurs patterns exits .init recs st → Intact patterns exits st := by
  obtain ⟨h1, h2⟩ := zipperAll_outcome h (rests_init patterns)
  constructor
  · intro hfuses
    by_contra hno
    obtain ⟨fuel, hf⟩ := h2 hno
    exact not_fuses_of_fault hf cells out hfuses
  · intro hall
    obtain ⟨fuel, land, gs, hz, hr⟩ := h1 hall
    exact ⟨fuel, land, hz, hr.holds⟩

def withFields (names : List Int) : Pattern Nat := ⟨⟨names, [], []⟩, fun _ => true⟩

def fieldsRecord (names : List Int) (v : Nat) : Record Nat :=
  ⟨names.foldl (fun m name => m.set name v) .empty, .empty, .empty, 0, .textual, none⟩

/-- Two cells that lack the same pattern, the first of which fires with a record that leaves. -/
theorem zipper_fuses_star_two_cells :
    ∃ cells out, Settles [withFields [0], withFields [1]] [withFields [0, 1]] []
        [fieldsRecord [0] 1, fieldsRecord [0] 2, fieldsRecord [1] 3] cells out ∧
      Fuses [withFields [0], withFields [1]] [withFields [0, 1]]
        [fieldsRecord [0] 1, fieldsRecord [0] 2, fieldsRecord [1] 3] cells out ∧
      ∀ st, Occurs [withFields [0], withFields [1]] [withFields [0, 1]] .init
        [fieldsRecord [0] 1, fieldsRecord [0] 2, fieldsRecord [1] 3] st →
        Intact [withFields [0], withFields [1]] [withFields [0, 1]] st := by
  have hset : Settles [withFields [0], withFields [1]] [withFields [0, 1]] []
      [fieldsRecord [0] 1, fieldsRecord [0] 2, fieldsRecord [1] 3] _ _ :=
    .cons 1 rfl rfl (.cons 2 rfl rfl (.cons 2 rfl rfl (.nil _)))
  have hfuses := @fuses_of_done _ _ _ _ _ _ hset 4 _ rfl
  exact ⟨_, _, hset, hfuses, (zipper_fuses_star_iff _ _ hset).1 hfuses⟩

/-- Three patterns, and records for the first, the first, the second, the second and the third of
them. The second cell has kept its `tail` when it joins the group of the first, which the last record
splits. And two patterns with a first cell that fires although there is another: its record does not
leave the star until the second cell has fired as well. -/
theorem zipper_asserts :
    (∃ cells out, Settles [withFields [0], withFields [1], withFields [2]] [withFields [0, 1, 2]] []
        [fieldsRecord [0] 1, fieldsRecord [0] 2, fieldsRecord [1] 3, fieldsRecord [1] 4,
          fieldsRecord [2] 5] cells out ∧
      ¬ Fuses [withFields [0], withFields [1], withFields [2]] [withFields [0, 1, 2]]
        [fieldsRecord [0] 1, fieldsRecord [0] 2, fieldsRecord [1] 3, fieldsRecord [1] 4,
          fieldsRecord [2] 5] cells out) ∧
    ∃ cells out, Settles [withFields [0], withFields [1]] [withFields [0, 1, 2]] []
        [fieldsRecord [0] 1, fieldsRecord [0, 2] 2, fieldsRecord [1] 3] cells out ∧
      ¬ Fuses [withFields [0], withFields [1]] [withFields [0, 1, 2]]
        [fieldsRecord [0] 1, fieldsRecord [0, 2] 2, fieldsRecord [1] 3] cells out := by
  refine ⟨⟨_, _, .cons 1 rfl rfl (.cons 2 rfl rfl (.cons 1 rfl rfl (.cons 2 rfl rfl
    (.cons 2 rfl rfl (.nil _))))), ?_⟩, _, _, .cons 1 rfl rfl (.cons 2 rfl rfl
    (.cons 3 rfl rfl (.nil _))), ?_⟩
  · exact @not_fuses_of_fault _ _ _ _ 4 rfl _ _
  · exact @not_fuses_of_fault _ _ _ _ 4 rfl _ _

end SNet.Zipper
