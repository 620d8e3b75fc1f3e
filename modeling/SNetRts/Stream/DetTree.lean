import SNetRts.Stream.CollectorPhases
import Mathlib.Algebra.BigOperators.Group.Finset.Basic
import Mathlib.Algebra.BigOperators.Group.Finset.Piecewise
import Mathlib.Data.Multiset.AddSub

/-!
# The entities of a deterministic combinator

The entities form a tree: each reads what its parent writes to it. An entity is in the phase of the
next record it reads, what it has not read yet reaches up to the phase of its parent, and all it has
written up to its own phase. New entities begin in the phase of the entity that creates them. This
holds after every step of an entity whose writes are phased (`Effect`).
-/

namespace SNet.Stream

open Function (update update_of_ne update_self)

open Lib List

variable {D Γ : Type}

theorem dataOf_append (q q' : List (Rec (Item D) Γ)) : dataOf (q ++ q') = dataOf q ++ dataOf q' :=
  filterMap_append

/-! ## Data records in transit -/

def total (size : Nat) (f : Nat → List (Item D)) : Multiset (Item D) :=
  ∑ i ∈ Finset.range (size + 1), (f i : Multiset (Item D))

theorem total_change {size : Nat} {f g : Nat → List (Item D)} {s : Nat} (hs : s ≤ size)
    (h : ∀ i, i ≠ s → g i = f i) :
    total size g + (f s : Multiset (Item D)) = total size f + (g s : Multiset (Item D)) := by
  have hmem : s ∈ Finset.range (size + 1) := Finset.mem_range.2 (Nat.lt_succ_of_le hs)
  unfold total
  rw [← Finset.add_sum_erase _ _ hmem, ← Finset.add_sum_erase _ _ hmem]
  have hrest : ∑ i ∈ (Finset.range (size + 1)).erase s, (g i : Multiset (Item D)) =
      ∑ i ∈ (Finset.range (size + 1)).erase s, (f i : Multiset (Item D)) := by
    refine Finset.sum_congr rfl fun i hi => ?_
    rw [h i (Finset.ne_of_mem_erase hi)]
  rw [hrest, add_right_comm, add_comm (g s : Multiset (Item D)), add_assoc, add_right_comm,
    add_assoc]

theorem total_append {size : Nat} {f f' : Nat → List (Item D)} {s : Nat} {l : List (Item D)}
    (hs : s ≤ size) (h : ∀ i, i ≠ s → f' i = f i) (hl : f' s = f s ++ l) :
    total size f' = total size f + (l : Multiset (Item D)) := by
  have := total_change hs h
  rw [hl, ← Multiset.coe_add, ← add_assoc, add_right_comm] at this
  exact add_right_cancel this

theorem total_grow {size size' : Nat} {f : Nat → List (Item D)} (h : size ≤ size')
    (hnew : ∀ i, size < i → f i = []) : total size' f = total size f := by
  unfold total
  refine (Finset.sum_subset ?_ ?_).symm
  · exact Finset.range_subset_range.2 (Nat.succ_le_succ h)
  · intro i _ hi
    rw [Finset.mem_range, Nat.lt_succ_iff, Nat.not_le] at hi
    rw [hnew i hi]
    rfl

def inTransit (size : Nat) (queue : Queues (Item D) Γ) : Multiset (Item D) :=
  total size fun i => dataOf (queue i)

theorem Collector.restoreFromWaitingset_data {c c' : Collector (Item D) Γ}
    (h : c.restoreFromWaitingset = some c') :
    dataOf c'.out = dataOf c.out ∧ c'.isStatic = c.isStatic := by
  unfold Collector.restoreFromWaitingset at h
  split at h
  · cases h
  · cases h
    refine ⟨?_, rfl⟩
    simp only
    split
    · rw [dataOf_append]
      exact append_nil _
    · rfl

theorem Collector.finish_data {c c' : Collector (Item D) Γ} (h : c.finish = some c') :
    dataOf c'.out = dataOf c.out ∧ c'.isStatic = c.isStatic := by
  unfold Collector.finish at h
  split at h
  · split at h
    · split at h
      · split at h
        · cases h
        · rename_i c1 hc1
          cases h
          have h1 : dataOf c1.out = dataOf c.out ∧ c1.isStatic = c.isStatic := by
            split at hc1
            · exact Collector.restoreFromWaitingset_data hc1
            · cases hc1
              exact ⟨rfl, rfl⟩
          rw [dataOf_append, h1.1]
          exact ⟨append_nil _, h1.2⟩
      · exact Collector.restoreFromWaitingset_data h
    · split at h
      · cases h
      · cases h
        rw [dataOf_append]
        exact ⟨append_nil _, rfl⟩
  · cases h
    exact ⟨rfl, rfl⟩

theorem Collector.step_data {c c' : Collector (Item D) Γ} {queue queue' : Queues (Item D) Γ}
    {s : StreamId} (h : c.step queue s = .done (c', queue')) :
    ∃ r q, queue s = r :: q ∧ s ∈ c.ready ∧ c'.isStatic = c.isStatic ∧
      dataOf c'.out = dataOf c.out ++ dataOf [r] ∧ dataOf (queue' s) = dataOf q ∧
      ∀ i, i ≠ s → dataOf (queue' i) = dataOf (queue i) := by
  unfold Collector.step at h
  split at h
  · cases h
  · rename_i hready
    rw [not_or, not_not] at hready
    split at h
    · cases h
    · rename_i r q hq
      split at h
      · cases h
      · rename_i c1 queue1 hproc
        obtain ⟨c2, hfin, heq⟩ := Option.map_eq_some_iff.1 (Outcome.ofOption_eq_done.1 h)
        obtain ⟨rfl, rfl⟩ := Prod.mk.inj heq
        have hkeep : ∀ i, i ≠ s → dataOf (update queue s q i) = dataOf (queue i) :=
          fun i hi => by rw [update_of_ne hi]
        have hself : dataOf (update queue s q s) = dataOf q := by
          rw [update_self]
        refine ⟨r, q, hq, hready.2, ?_⟩
        rw [(Collector.finish_data hfin).1, (Collector.finish_data hfin).2]
        cases r with
        | data i =>
          cases hproc
          exact ⟨rfl, dataOf_append _ _, hself, hkeep⟩
        | sync input outtype =>
          cases hproc
          exact ⟨rfl, (append_nil _).symm, hself, hkeep⟩
        | sortEnd level num =>
          simp only [Collector.process] at hproc
          split at hproc <;> split at hproc <;> cases hproc <;>
            exact ⟨rfl, (append_nil _).symm, hself, hkeep⟩
        | terminate flag =>
          cases hproc
          exact ⟨rfl, (append_nil _).symm, hself, hkeep⟩
        | collect t =>
          simp only [Collector.process] at hproc
          split at hproc
          · cases hproc
          · split at hproc
            · cases hproc
              -- the streams that are given up have no data records
              have hdead : ∀ i, dataOf (if i ∈ c.waiting ∧
                  Collector.termNext (update queue s q) i = true
                  then (update queue s q i).tail else update queue s q i) =
                  dataOf (update queue s q i) := by
                intro i
                split
                · rename_i hi
                  have ht := hi.2
                  unfold Collector.termNext at ht
                  split at ht
                  · rename_i flag rest hrest
                    rw [hrest]
                    rfl
                  · cases ht
                · rfl
              exact ⟨rfl, (append_nil _).symm, (hdead s).trans hself,
                fun i hi => (hdead i).trans (hkeep i hi)⟩
            · cases hproc

/-! ## The phases of the entities -/

def Comb.Shape (comb : Comb D) (size : Nat) : Prop :=
  match comb with
  | .split _ _ => True
  | .star _ => size % 2 = 0
  | .parallel num _ => size = num ∧ 2 ≤ num

theorem Comb.parent_lt (comb : Comb D) {e : Nat} (he : 0 < e) : comb.parent e < e := by
  cases comb <;> simp only [Comb.parent] <;> omega

theorem Comb.Shape.watched {comb : Comb D} {size e : Nat} (h : comb.Shape size) (he : e ≤ size) :
    comb.writesOut e = true ∨
      ∃ c, 0 < c ∧ c ≤ size ∧ comb.parent c = e ∧ comb.writesOut c = true := by
  cases comb with
  | split ltag utag => exact Or.inl rfl
  | star exits =>
    simp only [Comb.Shape] at h
    simp only [Comb.writesOut, Comb.parent, beq_iff_eq]
    rcases Nat.mod_two_eq_zero_or_one e with h0 | h1
    · exact Or.inl h0
    · refine Or.inr ⟨e + 1, ?_, ?_, ?_, ?_⟩ <;> omega
  | parallel num bestMatch =>
    obtain ⟨rfl, hnum⟩ := h
    simp only [Comb.writesOut, Comb.parent, bne_iff_ne]
    by_cases h0 : e = 0
    · exact Or.inr ⟨1, Nat.one_pos, Nat.le_of_succ_le hnum, h0.symm, Nat.one_ne_zero⟩
    · exact Or.inl h0

/-- The entities of a combinator, each in its phase `ph e`. -/
structure TreeInv (comb : Comb D) (st : DetNet D Γ) (p : Plan) (ph : Nat → Nat) : Prop where
  root : ph 0 = p.marks.length
  unread : ∀ e, 0 < e → e ≤ st.size → st.stopped e = false →
    Phased p (ph e) (st.inq e) (ph (comb.parent e)) (st.stopped (comb.parent e))
  ended : ∀ e, 0 < e → e ≤ st.size → st.stopped e = true →
    st.inq e = [] ∧ st.stopped (comb.parent e) = true
  final : ∀ e ≤ st.size, st.stopped e = true → ph e = p.marks.length ∧ st.stopped 0 = true
  fresh : ∀ e, st.size < e → st.inq e = [] ∧ st.stopped e = false
  plain : ∀ e s, 0 < e → Rec.collect s ∉ st.inq e
  shape : comb.Shape st.size

/-- The plan once an entity in phase `k` has created the entities beyond `size`. -/
def Plan.extend (p : Plan) (more : List (Int × Int)) (size k : Nat) : Plan :=
  ⟨p.marks ++ more, fun s => if s ≤ size then p.birth s else k, p.offset⟩

/-- What the writes of entity `e` are like when it goes from phase `k` to phase `k'`. -/
structure Effect (comb : Comb D) (p' : Plan) (size size' e k k' : Nat) (x : Reacts D Γ) :
    Prop where
  out : comb.writesOut e = true → Phased p' k (outWrites x.writes) k' x.stop
  quiet : comb.writesOut e = false → outWrites x.writes = []
  inst : ∀ c, 0 < c → c ≤ size' → comb.parent c = e →
    Phased p' k (instWrites comb e c x.writes) k' x.stop
  other : ∀ c, c = 0 ∨ size' < c ∨ comb.parent c ≠ e → instWrites comb e c x.writes = []
  plain : ∀ c s, Rec.collect s ∉ instWrites comb e c x.writes
  announces : ∀ s : Nat, Rec.collect s ∈ outWrites x.writes ↔
    size < s ∧ s ≤ size' ∧ comb.writesOut s = true
  nodup : (newStreams (outWrites x.writes)).Nodup
  parents : ∀ c, size < c → c ≤ size' → comb.parent c = e ∨ size < comb.parent c
  sizes : size' = grow comb size (newStreams (outWrites x.writes))
  single : (∃ exits, comb = .star exits) → size' ≤ size + 2
  shape : comb.Shape size → comb.Shape size'

/-- How far an entity has read: the phase it is in, and that it stops with its input. -/
structure Progress (comb : Comb D) (st : DetNet D Γ) (p : Plan) (ph : Nat → Nat) (e k' : Nat)
    (more : List (Int × Int)) (r : Rec (Item D) Γ)
    (q : List (Rec (Item D) Γ)) (stop : Bool) : Prop where
  live : e ≤ st.size ∧ st.stopped e = false
  read : st.inq e = r :: q
  root : e = 0 → k' = (p.marks ++ more).length
  below : 0 < e → more = [] ∧ (if stop then q = [] ∧ st.stopped (comb.parent e) = true
    else Phased p k' q (ph (comb.parent e)) (st.stopped (comb.parent e)))
  final : stop = true → k' = (p.marks ++ more).length

/-- The phases after a step of entity `e`. -/
def nextPhases (ph : Nat → Nat) (size e k' : Nat) (c : Nat) : Nat :=
  if c = e then k' else if c ≤ size then ph c else ph e

theorem nextPhases_self {ph : Nat → Nat} {size e k' : Nat} : nextPhases ph size e k' e = k' :=
  if_pos rfl

theorem nextPhases_old {ph : Nat → Nat} {size e k' c : Nat} (hc : c ≤ size) (hne : c ≠ e) :
    nextPhases ph size e k' c = ph c := by
  rw [nextPhases, if_neg hne, if_pos hc]

theorem nextPhases_new {ph : Nat → Nat} {size e k' c : Nat} (he : e ≤ size) (hc : size < c) :
    nextPhases ph size e k' c = ph e := by
  rw [nextPhases, if_neg (Nat.ne_of_gt (Nat.lt_of_le_of_lt he hc)), if_neg (Nat.not_le_of_lt hc)]

theorem le_grow (comb : Comb D) (size : Nat) (ss : List StreamId) : size ≤ grow comb size ss := by
  cases comb <;> exact Nat.le_add_right _ _

section

variable {comb : Comb D} {st : DetNet D Γ} {p : Plan} {ph : Nat → Nat} {e k' size' : Nat}
  {more : List (Int × Int)} {r : Rec (Item D) Γ} {q : List (Rec (Item D) Γ)} {x : Reacts D Γ}

theorem TreeInv.more_eq_nil (h : TreeInv comb st p ph) (hp : Progress comb st p ph e k' more r q x.stop)
    {c : Nat} (hc : c ≤ st.size) (hs : st.stopped c = true) : more = [] := by
  by_contra hne
  have he : e = 0 := by
    by_contra h0
    exact hne (hp.below (Nat.pos_of_ne_zero h0)).1
  have := (h.final c hc hs).2
  rw [← he, hp.live.2] at this
  cases this

theorem TreeInv.unread_extend (h : TreeInv comb st p ph) (more : List (Int × Int)) (e : Nat) {c : Nat}
    (hc : 0 < c) {k m : Nat} {fin : Bool} {q : List (Rec (Item D) Γ)} (hsub : ∀ r ∈ q, r ∈ st.inq c)
    (hph : Phased p k q m fin) : Phased (p.extend more st.size (ph e)) k q m fin :=
  hph.mono (prefix_append _ _) rfl fun s hs => absurd (hsub _ hs) (h.plain c s hc)

theorem TreeInv.perform (h : TreeInv comb st p ph) (hp : Progress comb st p ph e k' more r q x.stop)
    (heff : Effect comb (p.extend more st.size (ph e)) st.size size' e (ph e) k' x) :
    TreeInv comb (st.perform comb e r q x) (p.extend more st.size (ph e))
      (nextPhases ph st.size e k') := by
  obtain ⟨he, hrun⟩ := hp.live
  have hq := hp.read
  have hsz : (st.perform comb e r q x).size = size' := heff.sizes.symm
  have hgrow : st.size ≤ size' := heff.sizes ▸ le_grow _ _ _
  have hkids : ∀ c, 0 < c → c ≤ st.size → comb.parent c = e → st.stopped c = false := by
    intro c hc0 hc hpar
    by_contra hs
    have := (h.ended c hc0 hc (by simpa using hs)).2
    rw [hpar, hrun] at this
    cases this
  have hself : instWrites comb e e x.writes = [] := by
    refine heff.other e ?_
    by_cases h0 : e = 0
    · exact Or.inl h0
    · exact Or.inr (Or.inr (Nat.ne_of_lt (comb.parent_lt (Nat.pos_of_ne_zero h0))))
  have hinq : (st.perform comb e r q x).inq e = q := by
    simp only [DetNet.perform, if_true, hself, append_nil]
  have hinq' : ∀ c, c ≠ e →
      (st.perform comb e r q x).inq c = st.inq c ++ instWrites comb e c x.writes := by
    intro c hc
    simp only [DetNet.perform, if_neg hc]
  have hstop : (st.perform comb e r q x).stopped e = x.stop := by
    simp only [DetNet.perform, if_true]
  have hstop' : ∀ c, c ≠ e → (st.perform comb e r q x).stopped c = st.stopped c := by
    intro c hc
    simp only [DetNet.perform, if_neg hc]
  refine ⟨?_, ?_, ?_, ?_, ?_, ?_, ?_⟩
  · by_cases h0 : e = 0
    · rw [← h0, nextPhases_self]
      exact hp.root h0
    · rw [nextPhases_old (Nat.zero_le _) (Ne.symm h0), h.root]
      rw [(hp.below (Nat.pos_of_ne_zero h0)).1, Plan.extend, append_nil]
  · intro c hc0 hc hs
    rw [hsz] at hc
    have hpar : comb.parent c < c := comb.parent_lt hc0
    by_cases hce : c = e
    · -- the entity itself
      subst hce
      rw [hstop] at hs
      have hb := (hp.below hc0).2
      rw [hs] at hb
      rw [hinq, nextPhases_self, nextPhases_old (Nat.le_trans (Nat.le_of_lt hpar) he)
        (Nat.ne_of_lt hpar), hstop' _ (Nat.ne_of_lt hpar)]
      exact h.unread_extend more c hc0 (fun r hr => by rw [hq]; exact mem_cons_of_mem _ hr) hb
    · rw [hinq' c hce]
      rw [hstop' c hce] at hs
      by_cases hold : c ≤ st.size
      · have hun := h.unread_extend more e hc0 (fun _ hr => hr)
          (h.unread c hc0 hold hs)
        rw [nextPhases_old hold hce]
        by_cases hpe : comb.parent c = e
        · rw [hpe, hrun] at hun
          rw [hpe, nextPhases_self, hstop]
          exact hun.append (heff.inst c hc0 hc hpe)
        · rw [heff.other c (Or.inr (Or.inr hpe)), append_nil, hstop' _ hpe,
            nextPhases_old (Nat.le_trans (Nat.le_of_lt hpar) hold) hpe]
          exact hun
      · have hnew := Nat.lt_of_not_le hold
        rw [(h.fresh c hnew).1, nil_append, nextPhases_new he hnew]
        by_cases hpe : comb.parent c = e
        · rw [hpe, nextPhases_self, hstop]
          exact heff.inst c hc0 hc hpe
        · have hpn := (heff.parents c hnew hc).resolve_left hpe
          rw [heff.other c (Or.inr (Or.inr hpe)), nextPhases_new he hpn, hstop' _ hpe,
            (h.fresh _ hpn).2]
          exact ⟨rfl, rfl⟩
  · intro c hc0 hc hs
    have hpar : comb.parent c < c := comb.parent_lt hc0
    by_cases hce : c = e
    · subst hce
      rw [hstop] at hs
      have hb := (hp.below hc0).2
      rw [hs] at hb
      rw [hinq, hstop' _ (Nat.ne_of_lt hpar)]
      exact hb
    · rw [hstop' c hce] at hs
      have hold : c ≤ st.size := by
        by_contra hnew
        rw [(h.fresh c (Nat.lt_of_not_le hnew)).2] at hs
        cases hs
      obtain ⟨h1, h2⟩ := h.ended c hc0 hold hs
      have hpe : comb.parent c ≠ e := by
        intro hpe
        rw [hpe, hrun] at h2
        cases h2
      rw [hinq' c hce, h1, heff.other c (Or.inr (Or.inr hpe)), hstop' _ hpe]
      exact ⟨rfl, h2⟩
  · intro c hc hs
    by_cases hce : c = e
    · subst hce
      rw [hstop] at hs
      rw [nextPhases_self]
      refine ⟨hp.final hs, ?_⟩
      by_cases h0 : c = 0
      · rw [← h0, hstop]
        exact hs
      · rw [hstop' 0 (Ne.symm h0)]
        have hc0 := Nat.pos_of_ne_zero h0
        have hb := (hp.below hc0).2
        rw [hs] at hb
        exact (h.final _ (Nat.le_trans (Nat.le_of_lt (comb.parent_lt hc0)) he) hb.2).2
    · rw [hstop' c hce] at hs
      have hold : c ≤ st.size := by
        by_contra hnew
        rw [(h.fresh c (Nat.lt_of_not_le hnew)).2] at hs
        cases hs
      obtain ⟨h1, h2⟩ := h.final c hold hs
      have h0 : 0 ≠ e := by
        rintro rfl
        rw [hrun] at h2
        cases h2
      rw [nextPhases_old hold hce, hstop' 0 h0, Plan.extend, h.more_eq_nil hp hold hs,
        append_nil]
      exact ⟨h1, h2⟩
  · intro c hc
    rw [hsz] at hc
    have hold := Nat.lt_of_le_of_lt hgrow hc
    have hce : c ≠ e := Nat.ne_of_gt (Nat.lt_of_le_of_lt he hold)
    rw [hinq' c hce, hstop' c hce, heff.other c (Or.inr (Or.inl hc)), (h.fresh c hold).1]
    exact ⟨rfl, (h.fresh c hold).2⟩
  · intro c s hc0 hmem
    by_cases hce : c = e
    · subst hce
      rw [hinq] at hmem
      exact h.plain c s hc0 (by rw [hq]; exact mem_cons_of_mem _ hmem)
    · rw [hinq' c hce] at hmem
      exact (mem_append.1 hmem).elim (h.plain c s hc0) (heff.plain c s)
  · rw [hsz]
    exact heff.shape h.shape

/-! ## The whole combinator -/

def DetNet.writers (comb : Comb D) (st : DetNet D Γ) (ph : Nat → Nat) : Writers :=
  ⟨st.size, comb.writesOut, ph, st.stopped⟩

theorem CollInv.feed {P : Nat} {dead : List StreamId} {pos : StreamId → Nat}
    (h : CollInv p (st.writers comb ph) st.queue st.coll P dead pos) (ht : TreeInv comb st p ph)
    (hp : Progress comb st p ph e k' more r q x.stop)
    (heff : Effect comb (p.extend more st.size (ph e)) st.size size' e (ph e) k' x)
    (hmore : ∀ y ∈ more, 0 ≤ y.1 ∧ ¬ (y.1 = 0 ∧ y.2 = -1))
    (hstatic : st.coll.isStatic = true → size' = st.size) :
    ∃ pos', CollInv (p.extend more st.size (ph e))
      ((st.perform comb e r q x).writers comb (nextPhases ph st.size e k'))
      (st.perform comb e r q x).queue st.coll P dead pos' := by
  obtain ⟨he, hrun⟩ := hp.live
  have ht' := ht.perform hp heff
  have hsz : (st.perform comb e r q x).size = size' := heff.sizes.symm
  have hknown : ∀ s ∈ st.coll.ready ++ (st.coll.waiting ++ dead), s ≤ st.size := fun s hs =>
    (h.table.has s hs).1
  have htable : Table (p.extend more st.size (ph e))
      ((st.perform comb e r q x).writers comb (nextPhases ph st.size e k'))
      (st.perform comb e r q x).queue (st.coll.ready ++ (st.coll.waiting ++ dead)) dead
      (fun s => if s ≤ st.size then pos s else (p.extend more st.size (ph e)).birth s) := by
    refine h.table.feed (e := e) (prefix_append _ _) rfl (fun s hs => if_pos hs) ?_ rfl he hrun
      ?_ ?_ heff.quiet ?_ heff.nodup ?_
    · exact le_grow _ _ _
    · intro s hs hne
      exact ⟨nextPhases_old hs hne, by simp only [DetNet.writers, DetNet.perform, if_neg hne]⟩
    · intro hw
      have := heff.out hw
      simp only [DetNet.writers, nextPhases_self, DetNet.perform, if_true]
      exact this
    · intro s
      change _ ↔ st.size < s ∧ s ≤ (st.perform comb e r q x).size ∧ comb.writesOut s = true
      rw [hsz]
      exact heff.announces s
    · intro s h1 h2
      have hse : s ≠ e := Nat.ne_of_gt (Nat.lt_of_le_of_lt he h1)
      refine ⟨(nextPhases_new he h1).trans (if_neg (Nat.not_le_of_lt h1)).symm, ?_⟩
      simp only [DetNet.writers, DetNet.perform, if_neg hse]
      exact (ht.fresh s h1).2
  refine ⟨_, { h with
    table := htable
    ready := ?_
    waiting := ?_
    dynamic := ?_
    final := ?_
    sortRec := ?_
    stopped := ?_
    levels := ?_
    passes := h.passes.mono (prefix_append _ _) rfl }⟩
  · intro s hs
    rw [if_pos (hknown s (mem_append_left _ hs))]
    exact h.ready s hs
  · intro s hs
    rw [if_pos (hknown s (mem_append_right _ (mem_append_left _ hs)))]
    exact h.waiting s hs
  · intro hst i s hmem
    by_cases hi : i = e
    · subst hi
      simp only [DetNet.perform, update_self] at hmem
      rcases mem_append.1 hmem with hmem | hmem
      · exact h.dynamic hst i s hmem
      · obtain ⟨h1, h2, -⟩ := (heff.announces s).1 hmem
        rw [hstatic hst] at h2
        exact Nat.not_le_of_lt h1 h2
    · simp only [DetNet.perform, update_of_ne hi] at hmem
      exact h.dynamic hst i s hmem
  · intro hst hdead
    obtain ⟨s, hs⟩ := exists_mem_of_ne_nil _ hdead
    obtain ⟨h1, -, h3⟩ := h.table.past s hs
    rw [Plan.extend, ht.more_eq_nil hp (hknown s h1) h3, append_nil]
    exact h.final hst hdead
  · intro y hy
    have := h.sortRec y hy
    rw [Plan.extend, getElem?_append_left (List.getElem?_eq_some_iff.1 this).1]
    exact this
  · exact fun s hs hstop => (ht'.final s hs.1 hstop).1
  · intro k y hy
    rcases mem_append.1 (mem_of_getElem? hy) with hy | hy
    · obtain ⟨n, hn⟩ := mem_iff_getElem?.1 hy
      exact h.levels n y hn
    · exact hmore y hy

theorem CollDone.all_stopped (h : CollDone p (st.writers comb ph) st.queue st.coll)
    (ht : TreeInv comb st p ph) {c : Nat} (hc : c ≤ st.size) : st.stopped c = true := by
  rcases ht.shape.watched hc with hw | ⟨d, hd0, hd, hpar, hw⟩
  · exact h.stopped c ⟨hc, hw⟩
  · rw [← hpar]
    exact (ht.ended d hd0 hd (h.stopped d ⟨hd, hw⟩)).2

/-- The entities and the collector are in their phases, and no data record is lost. -/
structure NetInv (comb : Comb D) (st : DetNet D Γ) (p : Plan) (ph : Nat → Nat) : Prop where
  tree : TreeInv comb st p ph
  coll : (∃ P dead pos, CollInv p (st.writers comb ph) st.queue st.coll P dead pos) ∨
    CollDone p (st.writers comb ph) st.queue st.coll
  static : st.coll.isStatic = true → ∀ size', comb.Shape size' → size' = st.size
  data : (dataOf st.coll.out : Multiset (Item D)) + inTransit st.size st.queue =
    total st.size st.sent
  unsent : ∀ i, st.size < i → st.sent i = []

theorem NetInv.perform (h : NetInv comb st p ph) (hp : Progress comb st p ph e k' more r q x.stop)
    (heff : Effect comb (p.extend more st.size (ph e)) st.size size' e (ph e) k' x)
    (hmore : ∀ y ∈ more, 0 ≤ y.1 ∧ ¬ (y.1 = 0 ∧ y.2 = -1)) :
    NetInv comb (st.perform comb e r q x) (p.extend more st.size (ph e))
      (nextPhases ph st.size e k') := by
  obtain ⟨he, hrun⟩ := hp.live
  have hsz : (st.perform comb e r q x).size = size' := heff.sizes.symm
  have hstatic : st.coll.isStatic = true → size' = st.size := fun hst =>
    h.static hst size' (heff.shape h.tree.shape)
  rcases h.coll with ⟨P, dead, pos, hc⟩ | hdone
  · have hle : st.size ≤ (st.perform comb e r q x).size := le_grow _ _ _
    refine ⟨h.tree.perform hp heff, ?_, ?_, ?_, ?_⟩
    · obtain ⟨pos', hc'⟩ := hc.feed h.tree hp heff hmore hstatic
      exact Or.inl ⟨P, dead, pos', hc'⟩
    · intro hst size'' hshape
      rw [hsz, hstatic hst]
      exact h.static hst size'' hshape
    · have hnew : ∀ i, st.size < i → dataOf (st.queue i) = [] := fun i hi => by
        rw [hc.table.idle i fun hw => Nat.not_le_of_lt hi hw.1]
        rfl
      have he' := Nat.le_trans he hle
      have hqueue : inTransit (st.perform comb e r q x).size (st.perform comb e r q x).queue =
          inTransit st.size st.queue + (dataOf (outWrites x.writes) : Multiset (Item D)) := by
        unfold inTransit
        rw [← total_grow hle hnew]
        refine total_append he' (fun i hi => ?_) ?_
        · simp only [DetNet.perform, update_of_ne hi]
        · simp only [DetNet.perform, update_self, dataOf_append]
      have hsent : total (st.perform comb e r q x).size (st.perform comb e r q x).sent =
          total st.size st.sent + (dataOf (outWrites x.writes) : Multiset (Item D)) := by
        rw [← total_grow hle h.unsent]
        refine total_append he' (fun i hi => ?_) ?_
        · simp only [DetNet.perform, update_of_ne hi]
        · simp only [DetNet.perform, update_self]
      rw [hqueue, hsent, ← h.data, ← add_assoc]
      rfl
    · intro i hi
      have hi' := Nat.lt_of_le_of_lt hle hi
      have hie : i ≠ e := Nat.ne_of_gt (Nat.lt_of_le_of_lt he hi')
      simp only [DetNet.perform, update_of_ne hie]
      exact h.unsent i hi'
  · rw [hdone.all_stopped h.tree he] at hrun
    cases hrun

theorem NetInv.collect (h : NetInv comb st p ph) (s : StreamId) :
    st.coll.step st.queue s ≠ .fault ∧ ∀ coll queue, st.coll.step st.queue s = .done (coll, queue) →
      NetInv comb { st with coll, queue } p ph := by
  rcases h.coll with ⟨P, dead, pos, hc⟩ | hdone
  · refine ⟨hc.step.1, fun coll queue hstep => ?_⟩
    obtain ⟨r, q, hq, hs, hst, hout, hself, hother⟩ := Collector.step_data hstep
    refine ⟨⟨h.tree.root, h.tree.unread, h.tree.ended, h.tree.final, h.tree.fresh, h.tree.plain,
      h.tree.shape⟩, hc.step.2 coll queue hstep, fun hs' => h.static (hst ▸ hs'), ?_, h.unsent⟩
    have hle : s ≤ st.size := (hc.table.has s (mem_append_left _ hs)).1
    have hchange := total_change (f := fun i => dataOf (st.queue i))
      (g := fun i => dataOf (queue i)) hle hother
    have hcons : dataOf (st.queue s) = dataOf [r] ++ dataOf q := by
      rw [hq]
      exact dataOf_append [r] q
    simp only [hcons, hself, ← Multiset.coe_add, ← add_assoc] at hchange
    change (dataOf coll.out : Multiset (Item D)) + inTransit st.size queue = total st.size st.sent
    rw [← h.data, hout, ← Multiset.coe_add, add_assoc, add_comm (dataOf [r] : Multiset (Item D))]
    unfold inTransit
    rw [add_right_cancel hchange]
  · have hblocked : st.coll.step st.queue s = .blocked := by
      simp [Collector.step, hdone.past]
    rw [hblocked]
    exact ⟨fun h => (nomatch h), fun _ _ h => (nomatch h)⟩

end

end SNet.Stream
