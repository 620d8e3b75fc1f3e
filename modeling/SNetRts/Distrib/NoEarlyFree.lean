import SNetRts.Distrib.Ledger

/-!
# When the owner may give a datum up

Every run keeps the ledger (`inv_reach`), so the owner's count of a reference, together with the
raising updates in flight, covers all that still needs the datum (`owner_covers`): the references
other nodes hold, the records in flight that carry one, the requests not yet answered and the
lowering updates in flight.

The raising updates are the weak spot. They travel from the node that has copied a reference to
the owner, while the copy may travel on to a third node; a lowering update of the third node can
arrive first and bring the owner's count to zero (`freed_early`). In runs where the owner's count
does not reach zero while a raising update is in flight (`SafeDelivery`) no datum is given up early
and no assertion fails (`no_early_free`).
-/

namespace SNet.Distrib

open Lib Finset

variable {n : Nat} {s s' : System n}

/-! ## One step -/

theorem onHeld_cases {a : Fin n} {ref : Ref n} {f : NodeState n → Result n}
    (h : (s.node a).held ref ≠ 0 → Conserves a (s.node a) (f (s.node a))) :
    s.onHeld a ref f = .blocked ∨ ∃ st' ms, s.onHeld a ref f = .done (s.put a (st', ms)) ∧
      (∀ p ∈ ms, p.2.Routed a p.1) ∧ ∀ k, SpecAt a (s.node a) none st' ms k 0 := by
  unfold System.onHeld
  split
  · exact Or.inl rfl
  · rename_i hh
    obtain ⟨st', ms, he, hroute, hspec⟩ := h hh
    exact Or.inr ⟨st', ms, by rw [he]; rfl, hroute, hspec⟩

theorem thread_cases (h : Inv s) {act : Act n} (hact : ∀ src dst copy, act ≠ .deliver src dst copy) :
    step s act = .blocked ∨ ∃ a st' ms, step s act = .done (s.put a (st', ms)) ∧
      (∀ p ∈ ms, p.2.Routed a p.1) ∧ ∀ k, SpecAt a (s.node a) none st' ms k 0 := by
  cases act with
  | create a data =>
    obtain ⟨st', ms, he, hroute, hspec⟩ := refCreate_conserves (h.node a) data
    exact Or.inr ⟨a, st', ms, by rw [step, he]; rfl, hroute, hspec⟩
  | copy a ref p =>
    rcases onHeld_cases (s := s) fun hh => refCopy_conserves (h.node a) hh p with e | ⟨st', ms, e⟩
    · exact Or.inl e
    · exact Or.inr ⟨a, st', ms, e⟩
  | destroy a ref =>
    rcases onHeld_cases (s := s) fun hh => refDestroy_conserves (h.node a) hh with e | ⟨st', ms, e⟩
    · exact Or.inl e
    · exact Or.inr ⟨a, st', ms, e⟩
  | data a ref c p =>
    rcases onHeld_cases (s := s) fun hh => getData_conserves (h.node a) hh c p with
      e | ⟨st', ms, e⟩
    · exact Or.inl e
    · exact Or.inr ⟨a, st', ms, e⟩
  | send a ref dest =>
    rcases onHeld_cases (s := s) fun hh => refOutgoing_conserves (h.node a) hh dest with
      e | ⟨st', ms, e⟩
    · exact Or.inl e
    · exact Or.inr ⟨a, st', ms, e⟩
  | deliver src dst copy => exact absurd rfl (hact src dst copy)

def Msg.atOwner (dst : Fin n) : Msg n → Option (Ref n)
  | .record ref => if ref.node = dst then some ref else none
  | .update ref _ => some ref
  | .fetch ref => some ref
  | .set _ => none

/-- What the surplus gains when a message is delivered: the threads served beyond the first. -/
def setGain (st : NodeState n) (m : Msg n) (k : Ref n) : Int :=
  match m with
  | .set ref => if k = ref then
      match st.remoteRefMap ref with
      | none => 0
      | some r => (r.waiting : Int) - 1
    else 0
  | _ => 0

theorem fetchWeight_nonneg (k : Ref n) (m : Msg n) : 0 ≤ fetchWeight k m := by
  cases m <;> simp only [fetchWeight, le_refl]
  split <;> decide

theorem setWeight_nonneg (k : Ref n) (m : Msg n) : 0 ≤ setWeight k m := by
  cases m <;> simp only [setWeight, le_refl]
  split <;> decide

theorem set_entry (h : Inv s) {src dst : Fin n} {ref : Ref n}
    (hm : .set ref ∈ s.chan src dst) : ref.node ≠ dst ∧ ∃ r l,
      (s.node dst).remoteRefMap ref = some r ∧ r.data = none ∧ r.list = some l ∧
        r.waiting = l.length ∧ 0 < l.length := by
  obtain ⟨rfl, hne⟩ := h.routed src dst _ hm
  have hp := h.pending dst ref (Ne.symm hne)
  have h1 := Channels.load_nonneg (fetchWeight_nonneg ref) s.chan dst ref.node
  have h2 : 0 < s.chan.load (setWeight ref) ref.node dst :=
    Channels.load_pos (setWeight_nonneg ref) hm (by simp [setWeight])
  have hown := h.node dst ref
  rw [KeyOk, if_neg hne] at hown
  cases hr : (s.node dst).remoteRefMap ref with
  | none => simp only [pendingCount, hr] at hp; omega
  | some r =>
    rw [hr] at hown
    simp only [pendingCount, hr] at hp
    have hpend : r.pending = true := by
      by_contra hn
      rw [if_neg hn] at hp
      omega
    have hw := waiting_pos hown.2.2 hpend
    obtain ⟨c, d, l⟩ := r
    cases d with
    | some d => simp [RefCount.pending] at hpend
    | none =>
      cases l with
      | none => simp [RefCount.pending] at hpend
      | some l => exact ⟨hne, _, l, rfl, rfl, rfl, rfl, by simpa [RefCount.waiting] using hw⟩

theorem setGain_nonneg (h : Inv s) {src dst : Fin n} {m : Msg n} (hm : m ∈ s.chan src dst)
    (k : Ref n) : 0 ≤ setGain (s.node dst) m k := by
  cases m with
  | set ref =>
    obtain ⟨-, r, l, hr, -, -, hw, hpos⟩ := set_entry h hm
    simp only [setGain, hr, hw]
    split <;> omega
  | _ => exact le_rfl

theorem refUpdate_eq {st : NodeState n} {ref : Ref n} {r : RefCount} {v : Int}
    (hr : st.localRefMap ref = some r) : ∃ st', refUpdate v ref st = some st' ∧
      (st'.localRefMap ref = if r.count + v = 0 then none else some { r with count := r.count + v }) ∧
      st'.remoteRefMap ref = st.remoteRefMap ref ∧ ∀ a, FrameAt a ref st st' := by
  simp only [refUpdate, hr]
  split
  · exact ⟨_, rfl, takeLocal_self, rfl, fun _ k hk => ⟨if_neg hk, rfl, fun _ => rfl⟩⟩
  · exact ⟨_, rfl, setLocal_self, rfl, fun _ k hk => ⟨if_neg hk, rfl, fun _ => rfl⟩⟩

theorem step_deliver {src dst : Fin n} {copy : Nat → Ptr} {m : Msg n} {q : List (Msg n)}
    (hq : s.chan src dst = m :: q) : step s (.deliver src dst copy) =
      .ofOption ((handleMsg dst src copy m (s.node dst)).map
        (System.put ⟨s.node, s.chan.set src dst q⟩ dst)) := by
  simp only [step, hq]

/-- The delivery of a message: it is looked up in the owner's table and is not there, or the
ledgers are kept up to the threads a reply serves beyond the first. -/
theorem deliver_cases (h : Inv s) {src dst : Fin n} (copy : Nat → Ptr) {m : Msg n}
    {q : List (Msg n)} (hq : s.chan src dst = m :: q) :
    (∃ ref, m.atOwner dst = some ref ∧ (s.node dst).localRefMap ref = none) ∨
    ∃ st' ms, step s (.deliver src dst copy) =
        .done (System.put ⟨s.node, s.chan.set src dst q⟩ dst (st', ms)) ∧
      (∀ p ∈ ms, p.2.Routed dst p.1) ∧
      ∀ k, SpecAt dst (s.node dst) (some (src, m)) st' ms k (setGain (s.node dst) m k) := by
  have hm : m ∈ s.chan src dst := hq ▸ List.mem_cons_self
  have hrt := h.routed src dst m hm
  rw [step_deliver hq]
  cases m with
  | record ref =>
    by_cases hself : ref.node = dst
    · cases hr : (s.node dst).localRefMap ref with
      | none => exact Or.inl ⟨ref, if_pos hself, hr⟩
      | some r =>
        right
        simp only [handleMsg, refIncoming, if_pos hself, hr]
        split <;> rename_i h0
        · refine ⟨_, _, rfl, by simp, changeLocal_spec (v := -1) (h.node dst) hself hr
            (Or.inr rfl) ?_ rfl ?_ rfl (by simp) ?_ (by simp [fetchWeight])⟩
          · rw [if_pos (by omega)]; exact takeLocal_self
          · exact fun k hk => ⟨if_neg hk, rfl, fun _ => if_neg hk⟩
          · simp [weight, updateWeight, setWeight, recordWeight]
        · refine ⟨_, _, rfl, by simp, changeLocal_spec (v := -1) (h.node dst) hself hr
            (Or.inr rfl) ?_ rfl ?_ rfl (by simp) ?_ (by simp [fetchWeight])⟩
          · rw [if_neg (by omega)]; exact setLocal_self
          · exact fun k hk => ⟨if_neg hk, rfl, fun hd => hold_held_local (hself ▸ hd)⟩
          · simp [weight, updateWeight, setWeight, recordWeight]
    · right
      simp only [handleMsg, refIncoming, if_neg hself]
      cases hr : (s.node dst).remoteRefMap ref with
      | some r => exact ⟨_, _, rfl, by simp, arrive_spec (h.node dst) hself (by rw [hr])⟩
      | none => exact ⟨_, _, rfl, by simp, arrive_spec (h.node dst) hself (by rw [hr])⟩
  | update ref v =>
    obtain ⟨hd, -, hv⟩ := hrt
    cases hr : (s.node dst).localRefMap ref with
    | none => exact Or.inl ⟨ref, rfl, hr⟩
    | some r =>
      obtain ⟨st', he, hl, hrem, hf⟩ := refUpdate_eq (v := v) hr
      refine Or.inr ⟨st', [], by simp only [handleMsg, he]; rfl, by simp,
        changeLocal_spec (h.node dst) hd.symm hr hv hl hrem (hf dst) rfl (by simp) ?_
          (by simp [fetchWeight])⟩
      simp [weight, updateWeight, setWeight, recordWeight]
  | fetch ref =>
    obtain ⟨hd, hne⟩ := hrt
    cases hr : (s.node dst).localRefMap ref with
    | none => exact Or.inl ⟨ref, rfl, hr⟩
    | some r =>
      obtain ⟨st', he, hl, hrem, hf⟩ := refUpdate_eq (v := -1) hr
      refine Or.inr ⟨st', [(src, .set ref)], by simp only [handleMsg, he]; rfl, ?_,
        changeLocal_spec (h.node dst) hd.symm hr (Or.inr rfl) hl hrem (hf dst) rfl
          (by simp [Msg.ref]) ?_ ?_⟩
      · simp only [List.mem_singleton, forall_eq, Msg.Routed]
        exact ⟨hd, Ne.symm hne⟩
      · simp [weight, updateWeight, setWeight, recordWeight]
      · simp [setWeight, fetchWeight]
  | set ref =>
    right
    obtain ⟨hself, r, l, hr, hd, hl, hw, -⟩ := set_entry h hm
    obtain ⟨st', he, hspec⟩ := refSet_spec src (copy 0) (fun i => copy (i + 1)) (h.node dst) hself
      hr hd hl
    refine ⟨st', [], by simp only [handleMsg, he]; rfl, by simp, fun k => ?_⟩
    have := hspec k
    simpa only [setGain, hr, hw] using this

theorem step_done_cases (h : Inv s) {act : Act n} (hs : step s act = .done s') :
    ∃ a c input st' ms, ∃ gain : Ref n → Int, s' = System.put ⟨s.node, c⟩ a (st', ms) ∧
      Consumes s.chan c a input ∧ (∀ p ∈ ms, p.2.Routed a p.1) ∧
      (∀ k, SpecAt a (s.node a) input st' ms k (gain k)) ∧ (∀ k, 0 ≤ gain k) ∧
      ∀ k, gain k = match input with
        | none => 0
        | some (_, m) => setGain (s.node a) m k := by
  by_cases hact : ∃ src dst copy, act = .deliver src dst copy
  · obtain ⟨src, dst, copy, rfl⟩ := hact
    cases hq : s.chan src dst with
    | nil => simp [step, hq] at hs
    | cons m q =>
      have hm : m ∈ s.chan src dst := hq ▸ List.mem_cons_self
      rcases deliver_cases h copy hq with ⟨ref, hat, hr⟩ | ⟨st', ms, he, hroute, hspec⟩
      · rw [step_deliver hq, Outcome.ofOption_eq_done, Option.map_eq_some_iff] at hs
        obtain ⟨x, hx, -⟩ := hs
        cases m with
        | record ref' =>
          simp only [Msg.atOwner, Option.ite_none_right_eq_some, Option.some.injEq] at hat
          obtain ⟨hself, rfl⟩ := hat
          simp [handleMsg, refIncoming, hself, hr] at hx
        | update ref' v =>
          cases hat
          simp [handleMsg, refUpdate, hr] at hx
        | fetch ref' =>
          cases hat
          simp [handleMsg, refUpdate, hr] at hx
        | set ref' => cases hat
      · rw [he] at hs
        cases hs
        exact ⟨dst, _, some (src, m), st', ms, setGain (s.node dst) m, rfl, .some hq, hroute, hspec,
          setGain_nonneg h hm, fun _ => rfl⟩
  · have hact' : ∀ src dst copy, act ≠ .deliver src dst copy :=
      fun src dst copy e => hact ⟨src, dst, copy, e⟩
    rcases thread_cases h hact' with he | ⟨a, st', ms, he, hroute, hspec⟩
    · rw [he] at hs; cases hs
    · rw [he] at hs
      cases hs
      exact ⟨a, s.chan, none, st', ms, fun _ => 0, rfl, .none _ _, hroute, hspec, fun _ => le_rfl,
        fun _ => rfl⟩

theorem inv_init : Inv (System.init n) := by
  refine ⟨fun a b m hm => by simp [System.init, Channels.empty] at hm, fun a k => ?_, fun a k _ => ?_,
    fun k => ?_⟩
  · simp [KeyOk, System.init, NodeState.init]
  · simp [System.init, Channels.empty, Channels.load, pendingCount, NodeState.init]
  · simp [surplus, System.init, balance, ownerCount, remoteCount, NodeState.init, Channels.tally,
      Channels.load, Channels.empty]

theorem inv_step (h : Inv s) {act : Act n} (hs : step s act = .done s') : Inv s' := by
  obtain ⟨a, c, input, st', ms, gain, rfl, hc, hroute, hspec, hg, -⟩ := step_done_cases h hs
  exact h.put hc hroute hspec hg

theorem inv_reach {ok : System n → Act n → Prop} (h : Reach step ok (System.init n) s) : Inv s :=
  h.invariant inv_init fun _ _ _ hI _ hs => inv_step hI hs

/-! ## Requests and replies -/

theorem load_eq_count {f : Msg n → Int} {m : Msg n} (hf : ∀ m', f m' = if m' = m then 1 else 0)
    (c : Channels (Fin n) (Msg n)) (a b : Fin n) : c.load f a b = (c a b).count m := by
  unfold Channels.load
  induction c a b with
  | nil => rfl
  | cons m' q ih =>
    rw [List.map_cons, List.sum_cons, ih, hf, List.count_cons]
    by_cases hm : m' = m
    · simp [hm, add_comm]
    · simp [hm]

theorem pending_iff {r : RefCount} (h : r.data = none → r.list ≠ some []) :
    r.pending = true ↔ 0 < r.waiting := by
  refine ⟨waiting_pos h, fun hw => ?_⟩
  obtain ⟨c, d, l⟩ := r
  cases d <;> cases l <;> simp_all [RefCount.pending, RefCount.waiting]

/-- No request and no reply is lost or sent twice: a node whose threads wait for a datum has one request or
one reply for it in flight, and a node whose threads do not has none. -/
theorem fetch_answered_once {ok : System n → Act n → Prop} (h : Reach step ok (System.init n) s) {a : Fin n}
    {k : Ref n} (hk : a ≠ k.node) :
    (s.chan a k.node).count (.fetch k) + (s.chan k.node a).count (.set k) ≤ 1 ∧
    ((∃ r, (s.node a).remoteRefMap k = some r ∧ 0 < r.waiting) ↔
      (s.chan a k.node).count (.fetch k) + (s.chan k.node a).count (.set k) = 1) := by
  have hp := (inv_reach h).pending a k hk
  have hown := (inv_reach h).node a k
  rw [load_eq_count (m := .fetch k) fun m => by cases m <;> simp [fetchWeight],
    load_eq_count (m := .set k) fun m => by cases m <;> simp [setWeight]] at hp
  rw [KeyOk, if_neg hk.symm] at hown
  unfold pendingCount at hp
  cases hr : (s.node a).remoteRefMap k with
  | none =>
    simp only [hr] at hp
    simp only [reduceCtorEq, false_and, exists_false, false_iff]
    omega
  | some r =>
    rw [hr] at hown
    simp only [hr] at hp
    simp only [Option.some.injEq, exists_eq_left', ← pending_iff hown.2.2]
    by_cases hpend : r.pending = true
    · rw [if_pos hpend] at hp
      exact ⟨by omega, fun _ => by omega, fun _ => hpend⟩
    · rw [if_neg hpend] at hp
      exact ⟨by omega, fun h => absurd h hpend, fun _ => by omega⟩

/-- A thread of node 1 waits for a datum of node 0. -/
theorem fetch_answered_once_waiting : ∃ s : System 2,
    runAll step (System.init 2) [.create 0 7, .send 0 ⟨0, 7⟩ 1, .deliver 0 1 id, .data 1 ⟨0, 7⟩ .takeData 0] =
      .done s ∧ (s.chan 1 0).count (.fetch ⟨0, 7⟩) + (s.chan 0 1).count (.set ⟨0, 7⟩) = 1 := by
  have hrun : ∃ s : System 2, runAll step (System.init 2)
      [.create 0 7, .send 0 ⟨0, 7⟩ 1, .deliver 0 1 id, .data 1 ⟨0, 7⟩ .takeData 0] = .done s ∧
      ∃ r, (s.node 1).remoteRefMap ⟨0, 7⟩ = some r ∧ 0 < r.waiting := ⟨_, rfl, _, rfl, Nat.one_pos⟩
  obtain ⟨s, hs, hwait⟩ := hrun
  exact ⟨s, hs, (fetch_answered_once (.of_runAll .init (permitted_anyStep _ _ _) hs) (by decide)).2.1 hwait⟩

/-! ## What the owner's count covers -/

theorem lowerWeight_nonneg (k : Ref n) (m : Msg n) : 0 ≤ lowerWeight k m := by
  cases m <;> simp only [lowerWeight, le_refl]
  split <;> decide

theorem recordWeight_nonneg (k : Ref n) (m : Msg n) : 0 ≤ recordWeight k m := by
  cases m <;> simp only [recordWeight, le_refl]
  split <;> decide

theorem tally_weight (c : Channels (Fin n) (Msg n)) (k : Ref n) :
    c.tally (weight k) = c.tally (updateWeight k) + c.tally (setWeight k) -
      c.tally (recordWeight k) := by
  have h1 := Channels.tally_add (fun m => updateWeight k m + setWeight k m)
    (fun m => - recordWeight k m) c
  have h2 := Channels.tally_add (updateWeight k) (setWeight k) c
  have h3 := Channels.tally_neg (recordWeight k) c
  have h4 : c.tally (weight k) =
      c.tally (fun m => updateWeight k m + setWeight k m + - recordWeight k m) :=
    Channels.tally_congr fun _ _ m _ => by simp only [weight]; omega
  omega

theorem tally_updateWeight (h : Inv s) (k : Ref n) : s.chan.tally (updateWeight k) =
    s.chan.tally (raiseWeight k) - s.chan.tally (lowerWeight k) := by
  have h1 := Channels.tally_add (raiseWeight k) (fun m => - lowerWeight k m) s.chan
  have h2 := Channels.tally_neg (lowerWeight k) s.chan
  have h3 : s.chan.tally (updateWeight k) =
      s.chan.tally (fun m => raiseWeight k m + - lowerWeight k m) := by
    refine Channels.tally_congr fun a b m hm => ?_
    cases m with
    | update ref v =>
      obtain ⟨-, -, hv⟩ := h.routed a b _ hm
      rcases hv with rfl | rfl <;> by_cases e : ref = k <;>
        simp [updateWeight, raiseWeight, lowerWeight, e]
    | _ => rfl
  omega

theorem sum_balance (s : System n) (k : Ref n) : (∑ a, balance a (s.node a) k) =
    ownerCount (s.node k.node) k - ∑ a ∈ univ.erase k.node, remoteCount (s.node a) k := by
  rw [← Finset.add_sum_erase _ _ (mem_univ k.node)]
  have : ∑ a ∈ univ.erase k.node, balance a (s.node a) k =
      ∑ a ∈ univ.erase k.node, - remoteCount (s.node a) k :=
    sum_congr rfl fun a ha => if_neg (ne_of_mem_erase ha).symm
  rw [this, sum_neg_distrib, balance, if_pos rfl]
  omega

theorem remoteCount_ge (h : Inv s) {a : Fin n} {k : Ref n} (ha : a ≠ k.node) :
    (s.node a).held k + pendingCount (s.node a) k ≤ remoteCount (s.node a) k := by
  have hown := h.node a k
  rw [KeyOk, if_neg (Ne.symm ha)] at hown
  cases hr : (s.node a).remoteRefMap k with
  | none =>
    rw [hr] at hown
    simp only [pendingCount, remoteCount, hr, hown]
    omega
  | some r =>
    rw [hr] at hown
    simp only [pendingCount, remoteCount, hr]
    split
    · rename_i hp
      have := waiting_pos hown.2.2 hp
      omega
    · omega

theorem sum_pendingCount (h : Inv s) (k : Ref n) :
    (∑ a ∈ univ.erase k.node, pendingCount (s.node a) k) =
      s.chan.tally (fetchWeight k) + s.chan.tally (setWeight k) := by
  have hf : s.chan.tally (fetchWeight k) = ∑ a, s.chan.load (fetchWeight k) a k.node :=
    Channels.tally_eq_sum_to fun a b m hm hb => by
      cases m with
      | fetch ref =>
        simp only [fetchWeight, ite_eq_right_iff]
        rintro rfl
        exact absurd (h.routed a b _ hm).1 hb
      | _ => rfl
  have hs : s.chan.tally (setWeight k) = ∑ b, s.chan.load (setWeight k) k.node b :=
    Channels.tally_eq_sum_from fun a b m hm ha => by
      cases m with
      | set ref =>
        simp only [setWeight, ite_eq_right_iff]
        rintro rfl
        exact absurd (h.routed a b _ hm).1 ha
      | _ => rfl
  -- the owner neither requests its own datum nor replies to itself
  have h0 : s.chan.load (fetchWeight k) k.node k.node + s.chan.load (setWeight k) k.node k.node =
      0 := by
    rw [Channels.load_congr (g := fun _ => 0), Channels.load_congr (f := setWeight k)
      (g := fun _ => 0)]
    · simp [Channels.load]
    · intro m hm
      cases m with
      | set ref => exact absurd rfl (h.routed _ _ _ hm).2
      | _ => rfl
    · intro m hm
      cases m with
      | fetch ref => exact absurd rfl (h.routed _ _ _ hm).2
      | _ => rfl
  rw [hf, hs, ← sum_add_distrib, ← Finset.add_sum_erase _ _ (mem_univ k.node), h0, zero_add]
  exact sum_congr rfl fun a ha => (h.pending a k (ne_of_mem_erase ha)).symm

theorem owner_covers (h : Inv s) (k : Ref n) :
    s.chan.tally (lowerWeight k) + s.chan.tally (recordWeight k) + s.chan.tally (fetchWeight k) +
      (∑ a ∈ univ.erase k.node, ((s.node a).held k : Int)) ≤
      ownerCount (s.node k.node) k + s.chan.tally (raiseWeight k) := by
  have hs := h.surplus k
  rw [surplus, sum_balance, tally_weight, tally_updateWeight h] at hs
  have hr : (∑ a ∈ univ.erase k.node, ((s.node a).held k : Int)) +
      (∑ a ∈ univ.erase k.node, pendingCount (s.node a) k) ≤
        ∑ a ∈ univ.erase k.node, remoteCount (s.node a) k := by
    rw [← sum_add_distrib]
    exact sum_le_sum fun a ha => remoteCount_ge h (ne_of_mem_erase ha)
  rw [sum_pendingCount h] at hr
  omega

/-! ## Giving a datum up -/

/-- The reference whose owner's count a message lowers at `dst`. -/
def Msg.lowers (dst : Fin n) : Msg n → Option (Ref n)
  | .record ref => if ref.node = dst then some ref else none
  | .update ref v => if v < 0 then some ref else none
  | .fetch ref => some ref
  | .set _ => none

/-- The owner's count of a reference does not go from one to zero while an update that raises it
is in flight. -/
def SafeDelivery (s : System n) : Act n → Prop
  | .deliver src dst _ => ∀ m q k, s.chan src dst = m :: q → m.lowers dst = some k →
      ownerCount (s.node dst) k = 1 → ∀ a b, .update k 1 ∉ s.chan a b
  | _ => True

/-- The owner drops its entry for `k`. -/
def Removed (s s' : System n) (k : Ref n) : Prop :=
  (s.node k.node).localRefMap k ≠ none ∧ (s'.node k.node).localRefMap k = none

/-- The datum is still needed: another node holds the reference, a record in flight carries it,
or a request for the datum is not yet answered. (A reference in the hands of its owner is the datum
itself; the tables do not count it.) -/
def Referenced (s : System n) (k : Ref n) : Prop :=
  (∃ a, a ≠ k.node ∧ (s.node a).held k ≠ 0) ∨ ∃ a b, .record k ∈ s.chan a b ∨ .fetch k ∈ s.chan a b

/-- An operation that drops no entry of the owner and sends no raising update. -/
def Quiet (st : NodeState n) (o : Result n) : Prop :=
  ∀ st' ms, o = some (st', ms) → (∀ k, st.localRefMap k ≠ none → st'.localRefMap k ≠ none) ∧
    ∀ k, ∀ p ∈ ms, p.2 ≠ .update k 1

section Quiet

variable {a : Fin n} {st : NodeState n} {ref : Ref n}

theorem refDestroy_quiet : Quiet st (refDestroy a ref st) := by
  intro st' ms h
  unfold refDestroy at h
  repeat' split at h
  all_goals cases h
  all_goals exact ⟨fun k hk => hk, by simp⟩

theorem getData_quiet {c : Caller} {p : Ptr} : Quiet st (getData a c p ref st) := by
  intro st' ms h
  unfold getData at h
  repeat' split at h
  all_goals cases h
  all_goals exact ⟨fun k hk => by simpa using hk, by simp⟩

theorem refOutgoing_quiet {dest : Fin n} : Quiet st (refOutgoing a dest ref st) := by
  intro st' ms h
  unfold refOutgoing at h
  repeat' split at h
  all_goals cases h
  all_goals refine ⟨fun k hk => ?_, by simp⟩
  all_goals first | exact hk | (simp only [NodeState.setLocal]; split <;> simp_all)

theorem refCopy_raises {p : Ptr} {st' : NodeState n} {ms : List (Fin n × Msg n)}
    (h : refCopy a p ref st = some (st', ms)) : st'.localRefMap = st.localRefMap ∧
      ∀ k, ∀ q ∈ ms, q.2 = .update k 1 → ref = k ∧ k.node ≠ a := by
  unfold refCopy at h
  split at h
  · cases h; exact ⟨rfl, by simp⟩
  · rename_i hself
    split at h
    · cases h
    · split at h <;> cases h
      · exact ⟨rfl, by simp⟩
      · refine ⟨rfl, fun k q hq he => ?_⟩
        rw [List.mem_singleton] at hq
        subst hq
        cases he
        exact ⟨rfl, hself⟩

theorem handleMsg_drops {src : Fin n} {copy : Nat → Ptr} {m : Msg n} {st' : NodeState n}
    {ms : List (Fin n × Msg n)} (hrt : m.Routed src a) (hok : ∀ k, KeyOk a st k)
    (h : handleMsg a src copy m st = some (st', ms)) :
    (∀ k, st.localRefMap k ≠ none → st'.localRefMap k = none →
      m.lowers a = some k ∧ ownerCount st k = 1) ∧ ∀ k, ∀ p ∈ ms, p.2 ≠ .update k 1 := by
  have update : ∀ (ref : Ref n) (v : Int) (st₁ : NodeState n), a = ref.node → (v = 1 ∨ v = -1) →
      refUpdate v ref st = some st₁ → ∀ k, st.localRefMap k ≠ none → st₁.localRefMap k = none →
        v = -1 ∧ ref = k ∧ ownerCount st k = 1 := by
    intro ref v st₁ ha hv hu k hk hk'
    unfold refUpdate at hu
    split at hu
    · cases hu
    · rename_i r hlr
      have hpos := hok ref
      rw [KeyOk, if_pos ha.symm] at hpos
      have hpos := hpos.2 r hlr
      split at hu <;> cases hu <;>
        simp only [NodeState.takeLocal, NodeState.setLocal] at hk' <;> split at hk'
      · rename_i h0 e
        subst e
        have hc : ownerCount st k = r.count := by simp only [ownerCount, hlr]
        exact ⟨by omega, rfl, by omega⟩
      · exact absurd hk' hk
      · cases hk'
      · exact absurd hk' hk
  cases m with
  | record ref =>
    simp only [handleMsg, refIncoming] at h
    split at h
    · rename_i hself
      split at h
      · cases h
      · rename_i r hlr
        split at h <;> cases h <;> refine ⟨fun k hk hk' => ?_, by simp⟩ <;>
          simp only [NodeState.takeLocal, NodeState.setLocal, NodeState.hold] at hk' <;>
          split at hk'
        · rename_i h0 e
          subst e
          refine ⟨if_pos hself, ?_⟩
          simp only [ownerCount, hlr]
          omega
        · exact absurd hk' hk
        · cases hk'
        · exact absurd hk' hk
    · split at h <;> cases h <;> exact ⟨fun k hk hk' => absurd hk' hk, by simp⟩
  | update ref v =>
    simp only [handleMsg, Option.map_eq_some_iff, Prod.mk.injEq] at h
    obtain ⟨st₁, hu, rfl, rfl⟩ := h
    refine ⟨fun k hk hk' => ?_, by simp⟩
    obtain ⟨rfl, rfl, hc⟩ := update ref v st₁ hrt.1 hrt.2.2 hu k hk hk'
    exact ⟨rfl, hc⟩
  | fetch ref =>
    simp only [handleMsg, Option.map_eq_some_iff, Prod.mk.injEq] at h
    obtain ⟨st₁, hu, rfl, rfl⟩ := h
    refine ⟨fun k hk hk' => ?_, by simp⟩
    obtain ⟨-, rfl, hc⟩ := update ref (-1) st₁ hrt.1 (Or.inr rfl) hu k hk hk'
    exact ⟨rfl, hc⟩
  | set ref =>
    simp only [handleMsg, Option.map_eq_some_iff, Prod.mk.injEq] at h
    obtain ⟨st₁, hu, rfl, rfl⟩ := h
    refine ⟨fun k hk hk' => ?_, by simp⟩
    unfold refSet at hu
    split at hu
    · cases hu
    · split at hu
      · cases hu
      · split at hu <;> cases hu <;> rw [(receiveAll_eq _ _ _ _).1] at hk' <;> exact absurd hk' hk

end Quiet

theorem onHeld_done {a : Fin n} {ref : Ref n} {f : NodeState n → Result n}
    (hs : s.onHeld a ref f = .done s') : (s.node a).held ref ≠ 0 ∧
      ∃ st' ms, f (s.node a) = some (st', ms) ∧ s' = s.put a (st', ms) := by
  unfold System.onHeld at hs
  split at hs
  · cases hs
  · rename_i hh
    rw [Outcome.ofOption_eq_done, Option.map_eq_some_iff] at hs
    obtain ⟨⟨st', ms⟩, hf, rfl⟩ := hs
    exact ⟨hh, st', ms, hf, rfl⟩

/-- The operation that a step runs at its node, with what the node has then and what it sends. -/
inductive Operates (s : System n) : Act n → Fin n → NodeState n × List (Fin n × Msg n) → Prop
  | create (a : Fin n) (data : Ptr) {r} (hf : refCreate a data (s.node a) = some r) :
    Operates s (.create a data) a r
  | copy (a : Fin n) (ref : Ref n) (p : Ptr) {r} (hf : refCopy a p ref (s.node a) = some r) :
    Operates s (.copy a ref p) a r
  | destroy (a : Fin n) (ref : Ref n) {r} (hf : refDestroy a ref (s.node a) = some r) :
    Operates s (.destroy a ref) a r
  | data (a : Fin n) (ref : Ref n) (c : Caller) (p : Ptr) {r} (hf : getData a c p ref (s.node a) = some r) :
    Operates s (.data a ref c p) a r
  | send (a : Fin n) (ref : Ref n) (dest : Fin n) {r} (hf : refOutgoing a dest ref (s.node a) = some r) :
    Operates s (.send a ref dest) a r
  | deliver (src dst : Fin n) (copy : Nat → Ptr) {m : Msg n} {r}
    (hf : handleMsg dst src copy m (s.node dst) = some r) : Operates s (.deliver src dst copy) dst r

theorem step_operates {act : Act n} (hs : step s act = .done s') :
    ∃ a r c, Operates s act a r ∧ s' = System.put ⟨s.node, c⟩ a r := by
  cases act with
  | create a data =>
    rw [step, Outcome.ofOption_eq_done, Option.map_eq_some_iff] at hs
    obtain ⟨r, hf, rfl⟩ := hs
    exact ⟨a, r, s.chan, .create a data hf, rfl⟩
  | copy a ref p =>
    obtain ⟨-, st', ms, hf, rfl⟩ := onHeld_done hs
    exact ⟨a, _, s.chan, .copy a ref p hf, rfl⟩
  | destroy a ref =>
    obtain ⟨-, st', ms, hf, rfl⟩ := onHeld_done hs
    exact ⟨a, _, s.chan, .destroy a ref hf, rfl⟩
  | data a ref c p =>
    obtain ⟨-, st', ms, hf, rfl⟩ := onHeld_done hs
    exact ⟨a, _, s.chan, .data a ref c p hf, rfl⟩
  | send a ref dest =>
    obtain ⟨-, st', ms, hf, rfl⟩ := onHeld_done hs
    exact ⟨a, _, s.chan, .send a ref dest hf, rfl⟩
  | deliver src dst copy =>
    cases hq : s.chan src dst with
    | nil => simp [step, hq] at hs
    | cons m q =>
      rw [step_deliver hq, Outcome.ofOption_eq_done, Option.map_eq_some_iff] at hs
      obtain ⟨r, hf, rfl⟩ := hs
      exact ⟨dst, r, s.chan.set src dst q, .deliver src dst copy hf, rfl⟩

/-- What the operations keep at the node that runs them, a step keeps at every node. -/
theorem nodes_step {P : Fin n → NodeState n → Prop} (h : ∀ a, P a (s.node a)) {act : Act n}
    (hs : step s act = .done s') (hop : ∀ a r, Operates s act a r → P a r.1) (b : Fin n) :
    P b (s'.node b) := by
  obtain ⟨a, r, c, ho, rfl⟩ := step_operates hs
  unfold System.put
  dsimp only
  split
  · rename_i heq
    exact heq ▸ hop a r ho
  · exact h b

theorem put_keeps {a : Fin n} {st' : NodeState n} {ms : List (Fin n × Msg n)} {k : Ref n}
    (h : (s.node a).localRefMap k ≠ none → st'.localRefMap k ≠ none)
    (hk : (s.node k.node).localRefMap k ≠ none) :
    ((s.put a (st', ms)).node k.node).localRefMap k ≠ none := by
  unfold System.put
  dsimp only
  split
  · rename_i e; exact h (e ▸ hk)
  · exact hk

/-- What a step does to the owner's entry of `k` and to the raising updates for it: the entry
stays, unless a delivered message lowers its count from one; and no raising update is sent, unless
another node copies a reference it holds. -/
theorem owner_step (h : Inv s) {act : Act n} (hs : step s act = .done s') (k : Ref n) :
    (Removed s s' k → ∃ src copy m q, act = .deliver src k.node copy ∧
      s.chan src k.node = m :: q ∧ m.lowers k.node = some k ∧
        ownerCount (s.node k.node) k = 1) ∧
    ∀ a b, .update k 1 ∈ s'.chan a b → .update k 1 ∈ s.chan a b ∨
      (∃ p, act = .copy a k p) ∧ a ≠ k.node ∧ (s.node a).held k ≠ 0 := by
  have quiet : ∀ {a : Fin n} {ref : Ref n} {f : NodeState n → Result n},
      Quiet (s.node a) (f (s.node a)) → s.onHeld a ref f = .done s' →
      ¬ Removed s s' k ∧ ∀ a b, .update k 1 ∈ s'.chan a b → .update k 1 ∈ s.chan a b := by
    intro a ref f hq hs
    obtain ⟨-, st', ms, hf, rfl⟩ := onHeld_done hs
    obtain ⟨hl, hu⟩ := hq st' ms hf
    refine ⟨fun hrem => put_keeps (hl k) hrem.1 hrem.2, fun a' b' hm => ?_⟩
    rcases Channels.mem_pushAll hm with hm | ⟨-, hm⟩
    · exact hm
    · exact absurd rfl (hu k _ hm)
  cases act with
  | create a data =>
    simp only [step, refCreate, Option.map_some, Outcome.ofOption, Outcome.done.injEq] at hs
    subst hs
    exact ⟨fun hrem => absurd hrem.2 (put_keeps (fun h => h) hrem.1), fun _ _ hm => Or.inl hm⟩
  | copy a ref p =>
    obtain ⟨hh, st', ms, hf, rfl⟩ := onHeld_done hs
    obtain ⟨hl, hu⟩ := refCopy_raises hf
    refine ⟨fun hrem => absurd hrem.2 (put_keeps (fun h => by rwa [hl]) hrem.1), fun a' b' hm => ?_⟩
    rcases Channels.mem_pushAll hm with hold | ⟨ha, hnew⟩
    · exact Or.inl hold
    · obtain ⟨rfl, hne⟩ := hu k (b', .update k 1) hnew rfl
      exact Or.inr ⟨⟨p, by rw [ha]⟩, ha ▸ Ne.symm hne, ha ▸ hh⟩
  | destroy a ref =>
    obtain ⟨h1, h2⟩ := quiet refDestroy_quiet hs
    exact ⟨fun hrem => absurd hrem h1, fun a b hm => Or.inl (h2 a b hm)⟩
  | data a ref c p =>
    obtain ⟨h1, h2⟩ := quiet getData_quiet hs
    exact ⟨fun hrem => absurd hrem h1, fun a b hm => Or.inl (h2 a b hm)⟩
  | send a ref dest =>
    obtain ⟨h1, h2⟩ := quiet refOutgoing_quiet hs
    exact ⟨fun hrem => absurd hrem h1, fun a b hm => Or.inl (h2 a b hm)⟩
  | deliver src dst copy =>
    cases hq : s.chan src dst with
    | nil => simp [step, hq] at hs
    | cons m q =>
      rw [step_deliver hq, Outcome.ofOption_eq_done, Option.map_eq_some_iff] at hs
      obtain ⟨⟨st', ms⟩, hx, rfl⟩ := hs
      have hm : m ∈ s.chan src dst := hq ▸ List.mem_cons_self
      obtain ⟨hdrop, hu⟩ := handleMsg_drops (h.routed src dst m hm) (h.node dst) hx
      refine ⟨fun hrem => ?_, fun a b hmem => ?_⟩
      · by_cases hd : k.node = dst
        · subst hd
          obtain ⟨hlow, hc⟩ := hdrop k hrem.1 (by simpa [System.put] using hrem.2)
          exact ⟨src, copy, m, q, rfl, hq, hlow, hc⟩
        · exact absurd (by simpa [System.put, hd] using hrem.2) hrem.1
      · rcases Channels.mem_pushAll hmem with hmem | ⟨-, hmem⟩
        · exact Or.inl ((Consumes.some hq).sub a b _ hmem)
        · exact absurd rfl (hu k _ hmem)

/-- While an update that raises a count is in flight the owner has the entry. -/
def RaisesLand (s : System n) : Prop :=
  ∀ k a b, .update k 1 ∈ s.chan a b → (s.node k.node).localRefMap k ≠ none

theorem ownerCount_pos (h : Inv s) (k : Ref n) :
    0 < ownerCount (s.node k.node) k ↔ (s.node k.node).localRefMap k ≠ none := by
  have hown := h.node k.node k
  rw [KeyOk, if_pos rfl] at hown
  cases hr : (s.node k.node).localRefMap k with
  | none => simp [ownerCount, hr]
  | some r => simpa [ownerCount, hr] using hown.2 r hr

theorem tally_raise_eq_zero (h : Inv s) {k : Ref n} (hno : ∀ a b, .update k 1 ∉ s.chan a b) :
    s.chan.tally (raiseWeight k) = 0 := by
  rw [Channels.tally_congr (g := fun _ => 0)]
  · simp [Channels.tally, Channels.load]
  · intro a b m hm
    cases m with
    | update ref v =>
      simp only [raiseWeight, ite_eq_right_iff]
      rintro ⟨rfl, hv⟩
      obtain ⟨-, -, rfl | rfl⟩ := h.routed a b _ hm
      · exact absurd hm (hno a b)
      · omega
    | _ => rfl

theorem entry_of_remote_held (h : Inv s) (hr : RaisesLand s) {a : Fin n} {k : Ref n}
    (ha : a ≠ k.node) (hh : (s.node a).held k ≠ 0) : (s.node k.node).localRefMap k ≠ none := by
  by_cases hup : ∃ a b, .update k 1 ∈ s.chan a b
  · obtain ⟨a, b, hm⟩ := hup
    exact hr k a b hm
  · simp only [not_exists] at hup
    rw [← ownerCount_pos h]
    have hcov := owner_covers h k
    rw [tally_raise_eq_zero h hup] at hcov
    have h1 := Channels.tally_nonneg (lowerWeight_nonneg k) s.chan
    have h2 := Channels.tally_nonneg (recordWeight_nonneg k) s.chan
    have h3 := Channels.tally_nonneg (fetchWeight_nonneg k) s.chan
    have h4 : ((s.node a).held k : Int) ≤ ∑ a ∈ univ.erase k.node, ((s.node a).held k : Int) :=
      single_le_sum (f := fun a => ((s.node a).held k : Int)) (fun _ _ => by omega)
        (mem_erase.2 ⟨ha, mem_univ a⟩)
    omega

theorem raisesLand_step (h : Inv s) (hr : RaisesLand s) {act : Act n} (hok : SafeDelivery s act)
    (hs : step s act = .done s') : RaisesLand s' := by
  intro k a b hm
  obtain ⟨hrem, hup⟩ := owner_step h hs k
  -- the entry was there before the step, so only a lowering delivery can have dropped it
  have hpre : (s.node k.node).localRefMap k ≠ none := by
    rcases hup a b hm with hm | ⟨-, ha, hh⟩
    · exact hr k a b hm
    · exact entry_of_remote_held h hr ha hh
  intro hnone
  obtain ⟨src, copy, m, q, rfl, hq, hlow, hc⟩ := hrem ⟨hpre, hnone⟩
  rcases hup a b hm with hm | ⟨⟨p, e⟩, -⟩
  · exact hok m q k hq hlow hc a b hm
  · cases e

theorem raisesLand_reach (h : Reach step SafeDelivery (System.init n) s) : RaisesLand s := by
  refine h.invariant_of_reach (I := RaisesLand) ?_ fun s a s' hreach hr hok hs =>
    raisesLand_step (inv_reach hreach) hr hok hs
  intro k a b hm
  simp [System.init, Channels.empty] at hm

theorem lookup_found (h : Inv s) (hr : RaisesLand s) {src dst : Fin n} {m : Msg n} {ref : Ref n}
    (hm : m ∈ s.chan src dst) (hat : m.atOwner dst = some ref) :
    (s.node dst).localRefMap ref ≠ none := by
  have hrt := h.routed src dst m hm
  have hd : ref.node = dst := by
    cases m with
    | record ref' =>
      simp only [Msg.atOwner, Option.ite_none_right_eq_some, Option.some.injEq] at hat
      exact hat.2 ▸ hat.1
    | update ref' v => cases hat; exact hrt.1.symm
    | fetch ref' => cases hat; exact hrt.1.symm
    | set ref' => cases hat
  subst hd
  by_cases hup : ∃ a b, .update ref 1 ∈ s.chan a b
  · obtain ⟨a, b, hm⟩ := hup
    exact hr ref a b hm
  · simp only [not_exists] at hup
    rw [← ownerCount_pos h]
    have hcov := owner_covers h ref
    rw [tally_raise_eq_zero h hup] at hcov
    have h1 := Channels.tally_nonneg (lowerWeight_nonneg ref) s.chan
    have h2 := Channels.tally_nonneg (recordWeight_nonneg ref) s.chan
    have h3 := Channels.tally_nonneg (fetchWeight_nonneg ref) s.chan
    have h4 : 0 ≤ ∑ a ∈ univ.erase ref.node, ((s.node a).held ref : Int) :=
      sum_nonneg fun _ _ => by omega
    have pos : ∀ {f : Msg n → Int}, (∀ m, 0 ≤ f m) → 0 < f m → 0 < s.chan.tally f :=
      fun hf hp => (Channels.load_pos hf hm hp).trans_le (Channels.load_le_tally hf _ _ _)
    cases m with
    | record ref' =>
      simp only [Msg.atOwner, Option.ite_none_right_eq_some, Option.some.injEq] at hat
      have := pos (recordWeight_nonneg ref) (by simp [recordWeight, hat.2])
      omega
    | update ref' v =>
      cases hat
      obtain ⟨-, -, rfl | rfl⟩ := hrt
      · exact absurd hm (hup _ _)
      · have := pos (lowerWeight_nonneg ref) (by simp [lowerWeight])
        omega
    | fetch ref' =>
      cases hat
      have := pos (fetchWeight_nonneg ref) (by simp [fetchWeight])
      omega
    | set ref' => cases hat

/-- **Distributed references are not freed early**, and no lookup fails, in every run in which
no owner's count goes from one to zero while an update that raises it is in flight. -/
theorem no_early_free (h : Reach step SafeDelivery (System.init n) s) {act : Act n}
    (hok : SafeDelivery s act) : step s act ≠ .fault ∧
      ∀ s', step s act = .done s' → ∀ k, Removed s s' k → ¬ Referenced s' k := by
  have hinv := inv_reach h
  have hland := raisesLand_reach h
  refine ⟨fun hf => ?_, fun s' hs k hrem => ?_⟩
  · by_cases hact : ∃ src dst copy, act = .deliver src dst copy
    · obtain ⟨src, dst, copy, rfl⟩ := hact
      cases hq : s.chan src dst with
      | nil => simp [step, hq] at hf
      | cons m q =>
        have hm : m ∈ s.chan src dst := hq ▸ List.mem_cons_self
        rcases deliver_cases hinv copy hq with ⟨ref, hat, hnone⟩ | ⟨st', ms, he, -⟩
        · exact lookup_found hinv hland hm hat hnone
        · rw [he] at hf; cases hf
    · rcases thread_cases hinv fun src dst copy e => hact ⟨src, dst, copy, e⟩ with
        he | ⟨a, st', ms, he, -⟩ <;> rw [he] at hf <;> cases hf
  · obtain ⟨hdrop, hup⟩ := owner_step hinv hs k
    obtain ⟨src, copy, m, q, rfl, hq, hlow, hc⟩ := hdrop hrem
    have hno : ∀ a b, .update k 1 ∉ s'.chan a b := by
      intro a b hm
      rcases hup a b hm with hm | ⟨⟨p, e⟩, -⟩
      · exact hok m q k hq hlow hc a b hm
      · cases e
    have hinv' := inv_step hinv hs
    have hcov := owner_covers hinv' k
    have h0 : ownerCount (s'.node k.node) k = 0 := by simp only [ownerCount, hrem.2]
    rw [tally_raise_eq_zero hinv' hno, h0] at hcov
    have h1 := Channels.tally_nonneg (lowerWeight_nonneg k) s'.chan
    have h2 := Channels.tally_nonneg (recordWeight_nonneg k) s'.chan
    have h3 := Channels.tally_nonneg (fetchWeight_nonneg k) s'.chan
    have h4 : 0 ≤ ∑ a ∈ univ.erase k.node, ((s'.node a).held k : Int) :=
      sum_nonneg fun _ _ => by omega
    rintro (⟨a, ha, hh⟩ | ⟨a, b, hm | hm⟩)
    · have : ((s'.node a).held k : Int) ≤ ∑ a ∈ univ.erase k.node, ((s'.node a).held k : Int) :=
        single_le_sum (f := fun a => ((s'.node a).held k : Int)) (fun _ _ => by omega)
          (mem_erase.2 ⟨ha, mem_univ a⟩)
      omega
    · have := (Channels.load_pos (recordWeight_nonneg k) hm (by simp [recordWeight])).trans_le
        (Channels.load_le_tally (recordWeight_nonneg k) s'.chan a b)
      omega
    · have := (Channels.load_pos (fetchWeight_nonneg k) hm (by simp [fetchWeight])).trans_le
        (Channels.load_le_tally (fetchWeight_nonneg k) s'.chan a b)
      omega

/-- Node 1 gets the only reference to a datum of node 0 and gives it back. -/
def giveBack : List (Act 2) :=
  [.create 0 7, .send 0 ⟨0, 7⟩ 1, .deliver 0 1 id, .destroy 1 ⟨0, 7⟩]

def givenBack : System 2 := (runAll step (System.init 2) giveBack).getD (System.init 2)

theorem no_early_free_givenBack : ∃ s', step givenBack (.deliver 1 0 id) = .done s' ∧
    Removed givenBack s' ⟨0, 7⟩ ∧ ¬ Referenced s' ⟨0, 7⟩ := by
  have hrun : runAll step (System.init 2) giveBack = .done givenBack := rfl
  have hperm : Permitted step SafeDelivery (System.init 2) giveBack := by
    refine ⟨trivial, fun _ h => ?_⟩
    cases h
    refine ⟨trivial, fun _ h => ?_⟩
    cases h
    refine ⟨?_, fun _ _ => ⟨trivial, fun _ _ => trivial⟩⟩
    rintro m q k ⟨rfl, rfl⟩ h
    cases h
  have hok : SafeDelivery givenBack (.deliver 1 0 id) := by
    rintro m q k ⟨rfl, rfl⟩ h -
    cases h
    exact Fin.forall_fin_two.2 ⟨by decide, by decide⟩
  have hfree := no_early_free (.of_runAll .init hperm hrun) hok
  have hrem : Removed givenBack ((step givenBack (.deliver 1 0 id)).getD givenBack) ⟨0, 7⟩ :=
    ⟨by decide, rfl⟩
  exact ⟨_, rfl, hrem, hfree.2 _ rfl _ hrem⟩

/-- Node 0 sends the only reference to node 1, which copies it and sends the copy on to node 2. -/
def forwardCopy : List (Act 3) :=
  [.create 0 7, .send 0 ⟨0, 7⟩ 1, .deliver 0 1 id, .copy 1 ⟨0, 7⟩ 0, .send 1 ⟨0, 7⟩ 2,
    .deliver 1 2 id, .destroy 2 ⟨0, 7⟩]

def forwardedCopy : System 3 := (runAll step (System.init 3) forwardCopy).getD (System.init 3)

/-- The lowering update of node 2 overtakes the raising one of node 1: the owner gives the datum up
while node 1 holds a reference to it, and then does not find the entry to raise. -/
theorem freed_early : Reach step anyStep (System.init 3) forwardedCopy ∧
    ∃ s', step forwardedCopy (.deliver 2 0 id) = .done s' ∧ Removed forwardedCopy s' ⟨0, 7⟩ ∧
      Referenced s' ⟨0, 7⟩ ∧ step s' (.deliver 1 0 id) = .fault := by
  have hrun : runAll step (System.init 3) forwardCopy = .done forwardedCopy := rfl
  refine ⟨.of_runAll .init (permitted_anyStep _ _ _) hrun, _, rfl, ⟨by decide, rfl⟩, ?_, rfl⟩
  exact Or.inl ⟨1, by decide⟩

end SNet.Distrib
