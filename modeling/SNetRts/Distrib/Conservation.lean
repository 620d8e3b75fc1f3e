import SNetRts.Distrib.NoEarlyFree

/-!
# Conservation of reference counts

The only step that changes the surplus of a reference is the reply to a fetch, by the threads it
serves beyond the first (`setGain`). As long as no thread enters `GetData` for a reference whose
fetch is pending (`SingleWaiter`) there is exactly one such thread, the surplus stays zero
(`counts_conserved`), and the tables are empty once nothing is held and nothing is in flight. A
second thread leaves the owner's count too high for good (`second_waiter_leaks`).
-/

namespace SNet.Distrib

open Lib Finset

variable {n : Nat} {s s' : System n}

/-- `GetData` is not entered for a reference whose fetch is pending on the node. -/
def SingleWaiter (s : System n) : Act n → Prop
  | .data a ref _ _ => ref.node ≠ a →
      ∀ r, (s.node a).remoteRefMap ref = some r → r.pending = false
  | _ => True

def OneWaiting (st : NodeState n) : Prop :=
  ∀ k r, st.remoteRefMap k = some r → r.pending = true → r.waiting = 1

/-! ## Waiting threads -/

section OneWaiting

variable {a : Fin n} {st st' : NodeState n} {ref : Ref n} {r : RefCount}
  {ms : List (Fin n × Msg n)}

theorem OneWaiting.of_eq (h : OneWaiting st) (he : st'.remoteRefMap = st.remoteRefMap) :
    OneWaiting st' := by
  intro k r hk
  exact h k r (he ▸ hk)

theorem OneWaiting.setRemote (h : OneWaiting st) (hr : r.pending = true → r.waiting = 1) :
    OneWaiting (st.setRemote ref r) := by
  intro k r' hk
  simp only [NodeState.setRemote] at hk
  split at hk
  · cases hk
    exact hr
  · exact h k r' hk

theorem OneWaiting.takeRemote (h : OneWaiting st) : OneWaiting (st.takeRemote ref) := by
  intro k r' hk
  simp only [NodeState.takeRemote] at hk
  split at hk
  · cases hk
  · exact h k r' hk

theorem OneWaiting.recount (h : OneWaiting st) (hr : st.remoteRefMap ref = some r) (c : Int) :
    OneWaiting (st.setRemote ref { r with count := c }) :=
  h.setRemote (h ref r hr)

theorem refCopy_oneWaiting {p : Ptr} (h : OneWaiting st)
    (hf : refCopy a p ref st = some (st', ms)) : OneWaiting st' := by
  unfold refCopy at hf
  split at hf
  · cases hf; exact h.of_eq rfl
  · split at hf
    · cases hf
    · rename_i r hr
      split at hf <;> cases hf
      · exact h.of_eq rfl
      · exact (h.recount hr _).of_eq rfl

theorem refDestroy_oneWaiting (h : OneWaiting st) (hf : refDestroy a ref st = some (st', ms)) :
    OneWaiting st' := by
  unfold refDestroy at hf
  split at hf
  · cases hf; exact h.of_eq rfl
  · split at hf
    · cases hf
    · rename_i r hr
      have h' : OneWaiting (st.release ref) := h.of_eq rfl
      split at hf <;> cases hf
      · exact h'.takeRemote
      · exact h'.recount hr _

theorem refOutgoing_oneWaiting {dest : Fin n} (h : OneWaiting st)
    (hf : refOutgoing a dest ref st = some (st', ms)) : OneWaiting st' := by
  have h' : OneWaiting (st.release ref) := h.of_eq rfl
  unfold refOutgoing at hf
  split at hf
  · split at hf <;> cases hf <;> exact h'.of_eq rfl
  · split at hf
    · cases hf
    · rename_i r hr
      split at hf <;> cases hf
      · exact h'.takeRemote
      · exact h'.recount hr _

theorem getData_oneWaiting {c : Caller} {p : Ptr} (h : OneWaiting st)
    (hone : ref.node ≠ a → ∀ r, st.remoteRefMap ref = some r → r.pending = false)
    (hf : getData a c p ref st = some (st', ms)) : OneWaiting st' := by
  have h' : OneWaiting (st.release ref) := h.of_eq rfl
  unfold getData at hf
  split at hf
  · cases hf; exact h'.of_eq receive_remoteRefMap
  · rename_i hself
    split at hf
    · cases hf
    · rename_i r hr
      have hp := hone hself r hr
      split at hf
      · rename_i hd
        split at hf
        · rename_i l hl
          simp [RefCount.pending, hd, hl] at hp
        · cases hf
          exact h'.setRemote fun _ => by simp [RefCount.waiting, hd]
      · split at hf <;> cases hf
        · exact h'.takeRemote.of_eq receive_remoteRefMap
        · exact (h'.recount hr _).of_eq receive_remoteRefMap

theorem refUpdate_oneWaiting {v : Int} (h : OneWaiting st) (hf : refUpdate v ref st = some st') :
    OneWaiting st' := by
  unfold refUpdate at hf
  split at hf
  · cases hf
  · split at hf <;> cases hf <;> exact h.of_eq rfl

theorem handleMsg_oneWaiting {src : Fin n} {copy : Nat → Ptr} {m : Msg n} (h : OneWaiting st)
    (hf : handleMsg a src copy m st = some (st', ms)) : OneWaiting st' := by
  cases m with
  | record ref =>
    simp only [handleMsg, refIncoming] at hf
    split at hf
    · split at hf
      · cases hf
      · split at hf <;> cases hf <;> exact h.of_eq rfl
    · split at hf <;> cases hf
      · rename_i r hr
        exact (h.recount hr _).of_eq rfl
      · exact (h.setRemote (by simp [RefCount.pending])).of_eq rfl
  | update ref v =>
    simp only [handleMsg, Option.map_eq_some_iff, Prod.mk.injEq] at hf
    obtain ⟨st₁, hu, rfl, -⟩ := hf
    exact refUpdate_oneWaiting h hu
  | fetch ref =>
    simp only [handleMsg, Option.map_eq_some_iff, Prod.mk.injEq] at hf
    obtain ⟨st₁, hu, rfl, -⟩ := hf
    exact refUpdate_oneWaiting h hu
  | set ref =>
    simp only [handleMsg, Option.map_eq_some_iff, Prod.mk.injEq] at hf
    obtain ⟨st₁, hu, rfl, -⟩ := hf
    unfold refSet at hu
    split at hu
    · cases hu
    · split at hu
      · cases hu
      · split at hu <;> cases hu
        · exact (h.setRemote (by simp [RefCount.pending])).of_eq (receiveAll_eq _ _ _ _).2.1
        · exact h.takeRemote.of_eq (receiveAll_eq _ _ _ _).2.1

theorem oneWaiting_step (h : ∀ a, OneWaiting (s.node a)) {act : Act n} (hok : SingleWaiter s act)
    (hs : step s act = .done s') (b : Fin n) : OneWaiting (s'.node b) := by
  refine nodes_step (P := fun _ => OneWaiting) h hs (fun a r ho => ?_) b
  cases ho with
  | create a data hf =>
    cases hf
    exact (h a).of_eq rfl
  | copy a ref p hf => exact refCopy_oneWaiting (h a) hf
  | destroy a ref hf => exact refDestroy_oneWaiting (h a) hf
  | data a ref c p hf => exact getData_oneWaiting (h a) hok hf
  | send a ref dest hf => exact refOutgoing_oneWaiting (h a) hf
  | deliver src _ copy hf => exact handleMsg_oneWaiting (h a) hf

end OneWaiting

/-! ## The owner's table -/

section OwnKeys

variable {a : Fin n} {st st' : NodeState n} {ref : Ref n} {ms : List (Fin n × Msg n)}

/-- A node's `localRefMap` is about its own data. -/
def OwnKeys (a : Fin n) (st : NodeState n) : Prop := ∀ k, k.node ≠ a → st.localRefMap k = none

theorem OwnKeys.of_eq (h : OwnKeys a st) (he : st'.localRefMap = st.localRefMap) :
    OwnKeys a st' := by
  intro k hk
  rw [he]
  exact h k hk

theorem OwnKeys.setLocal (h : OwnKeys a st) (href : ref.node = a) (r : RefCount) :
    OwnKeys a (st.setLocal ref r) := by
  intro k hk
  have hne : k ≠ ref := fun e => hk (e ▸ href)
  simpa [NodeState.setLocal, hne] using h k hk

theorem OwnKeys.takeLocal (h : OwnKeys a st) : OwnKeys a (st.takeLocal ref) := by
  intro k hk
  simp only [NodeState.takeLocal, h k hk, ite_self]

theorem refOutgoing_ownKeys {dest : Fin n} (h : OwnKeys a st)
    (hf : refOutgoing a dest ref st = some (st', ms)) : OwnKeys a st' := by
  have h' : OwnKeys a (st.release ref) := h.of_eq rfl
  unfold refOutgoing at hf
  split at hf
  · rename_i hself
    split at hf <;> cases hf <;> exact h'.setLocal hself _
  · split at hf
    · cases hf
    · split at hf <;> cases hf <;> exact h'.of_eq rfl

theorem refUpdate_ownKeys {v : Int} (h : OwnKeys a st) (hf : refUpdate v ref st = some st') :
    OwnKeys a st' := by
  unfold refUpdate at hf
  split at hf
  · cases hf
  · rename_i r hr
    have href : ref.node = a := by
      by_contra hne
      rw [h ref hne] at hr
      cases hr
    split at hf <;> cases hf
    · exact h.takeLocal
    · exact h.setLocal href _

theorem handleMsg_ownKeys {src : Fin n} {copy : Nat → Ptr} {m : Msg n} (h : OwnKeys a st)
    (hf : handleMsg a src copy m st = some (st', ms)) : OwnKeys a st' := by
  cases m with
  | record ref =>
    simp only [handleMsg, refIncoming] at hf
    split at hf
    · rename_i hself
      split at hf
      · cases hf
      · split at hf <;> cases hf
        · exact h.takeLocal.of_eq rfl
        · exact (h.setLocal hself _).of_eq rfl
    · split at hf <;> cases hf <;> exact h.of_eq rfl
  | update ref v =>
    simp only [handleMsg, Option.map_eq_some_iff, Prod.mk.injEq] at hf
    obtain ⟨st₁, hu, rfl, -⟩ := hf
    exact refUpdate_ownKeys h hu
  | fetch ref =>
    simp only [handleMsg, Option.map_eq_some_iff, Prod.mk.injEq] at hf
    obtain ⟨st₁, hu, rfl, -⟩ := hf
    exact refUpdate_ownKeys h hu
  | set ref =>
    simp only [handleMsg, Option.map_eq_some_iff, Prod.mk.injEq] at hf
    obtain ⟨st₁, hu, rfl, -⟩ := hf
    unfold refSet at hu
    split at hu
    · cases hu
    · split at hu
      · cases hu
      · split at hu <;> cases hu <;> exact h.of_eq (receiveAll_eq _ _ _ _).1

theorem getData_localRefMap {c : Caller} {p : Ptr} (hf : getData a c p ref st = some (st', ms)) :
    st'.localRefMap = st.localRefMap := by
  unfold getData at hf
  repeat' split at hf
  all_goals cases hf
  all_goals first | rfl | exact receive_localRefMap

theorem refDestroy_localRefMap (hf : refDestroy a ref st = some (st', ms)) :
    st'.localRefMap = st.localRefMap := by
  unfold refDestroy at hf
  repeat' split at hf
  all_goals cases hf
  all_goals rfl

theorem ownKeys_step (h : ∀ a, OwnKeys a (s.node a)) {act : Act n} (hs : step s act = .done s')
    (b : Fin n) : OwnKeys b (s'.node b) := by
  refine nodes_step h hs (fun a r ho => ?_) b
  cases ho with
  | create a data hf =>
    cases hf
    exact (h a).of_eq rfl
  | copy a ref p hf => exact (h a).of_eq (refCopy_raises hf).1
  | destroy a ref hf => exact (h a).of_eq (refDestroy_localRefMap hf)
  | data a ref c p hf => exact (h a).of_eq (getData_localRefMap hf)
  | send a ref dest hf => exact refOutgoing_ownKeys (h a) hf
  | deliver src _ copy hf => exact handleMsg_ownKeys (h a) hf

theorem ownKeys_reach {ok : System n → Act n → Prop} (h : Reach step ok (System.init n) s) :
    ∀ a, OwnKeys a (s.node a) :=
  h.invariant (I := fun s => ∀ a, OwnKeys a (s.node a)) (fun _ _ _ => rfl)
    fun _ _ _ hI _ hs => ownKeys_step hI hs

end OwnKeys

/-! ## The surplus stays zero -/

theorem surplus_step (h : Inv s) (hone : ∀ a, OneWaiting (s.node a)) {act : Act n}
    (hs : step s act = .done s') (k : Ref n) : surplus s' k = surplus s k := by
  obtain ⟨a, c, input, st', ms, gain, rfl, hc, -, hspec, -, hgain⟩ := step_done_cases h hs
  have h0 : gain k = 0 := by
    rw [hgain]
    cases input with
    | none => rfl
    | some sm =>
      obtain ⟨src, m⟩ := sm
      cases m with
      | set ref =>
        obtain ⟨-, r, l, hr, hd, hl, hw, -⟩ := set_entry h (hc.mem src _ rfl)
        have h1 := hone a ref r hr (by simp [RefCount.pending, hd, hl])
        simp [setGain, hr, h1]
      | _ => rfl
  rw [surplus_put hc (hspec k), h0, add_zero]

structure Conserved (s : System n) : Prop where
  oneWaiting : ∀ a, OneWaiting (s.node a)
  surplus : ∀ k, surplus s k = 0

theorem conserved_init : Conserved (System.init n) := by
  refine ⟨fun a k r hk => by simp [System.init, NodeState.init] at hk, fun k => ?_⟩
  simp [surplus, System.init, balance, ownerCount, remoteCount, NodeState.init, Channels.tally,
    Channels.load, Channels.empty]

theorem conserved_reach (h : Reach step SingleWaiter (System.init n) s) : Conserved s := by
  refine h.invariant_of_reach conserved_init fun s a s' hreach hc hok hs => ⟨?_, fun k => ?_⟩
  · exact oneWaiting_step hc.oneWaiting hok hs
  · rw [surplus_step (inv_reach hreach) hc.oneWaiting hs, hc.surplus]

/-! ## Tables at rest -/

/-- No node holds a reference to the datum of another and no message is in flight. -/
def AtRest (s : System n) : Prop :=
  (∀ a k, a ≠ k.node → (s.node a).held k = 0) ∧ ∀ a b, s.chan a b = []

theorem load_eq_zero {c : Channels (Fin n) (Msg n)} {a b : Fin n} (h : c a b = [])
    (f : Msg n → Int) : c.load f a b = 0 := by
  simp [Channels.load, h]

theorem tally_eq_zero {c : Channels (Fin n) (Msg n)} (h : ∀ a b, c a b = []) (f : Msg n → Int) :
    c.tally f = 0 := by
  simp [Channels.tally, load_eq_zero (h _ _)]

theorem remoteRefMap_atRest (h : Inv s) (hrest : AtRest s) (a : Fin n) (k : Ref n) :
    (s.node a).remoteRefMap k = none := by
  have hown := h.node a k
  by_cases ha : k.node = a
  · rw [KeyOk, if_pos ha] at hown
    exact hown.1
  · rw [KeyOk, if_neg ha] at hown
    have hp := h.pending a k (Ne.symm ha)
    rw [load_eq_zero (hrest.2 _ _), load_eq_zero (hrest.2 _ _)] at hp
    cases hr : (s.node a).remoteRefMap k with
    | none => rfl
    | some r =>
      rw [hr] at hown
      obtain ⟨hc, hpos, -⟩ := hown
      rw [hrest.1 a k (Ne.symm ha)] at hc
      simp only [pendingCount, hr] at hp
      have hpend : r.pending = true := by
        obtain ⟨c, d, l⟩ := r
        cases d <;> cases l <;> simp_all [RefCount.waiting, RefCount.pending]
      rw [if_pos hpend] at hp
      omega

/-- **Reference counts are conserved** in every run in which no thread enters `GetData` for a
reference whose fetch is pending, and the tables of such a run end empty. -/
theorem counts_conserved (h : Reach step SingleWaiter (System.init n) s) :
    (∀ k, ownerCount (s.node k.node) k + s.chan.tally (updateWeight k) +
        s.chan.tally (setWeight k) =
      (∑ a ∈ univ.erase k.node, remoteCount (s.node a) k) + s.chan.tally (recordWeight k)) ∧
    (AtRest s → ∀ a k, (s.node a).localRefMap k = none ∧ (s.node a).remoteRefMap k = none) := by
  have hinv := inv_reach h
  have hcons := conserved_reach h
  refine ⟨fun k => ?_, fun hrest a k => ⟨?_, remoteRefMap_atRest hinv hrest a k⟩⟩
  · have hs := hcons.surplus k
    rw [surplus, sum_balance, tally_weight] at hs
    omega
  · by_cases ha : k.node = a
    · subst ha
      have hs := hcons.surplus k
      have hrem : ∑ a ∈ univ.erase k.node, remoteCount (s.node a) k = 0 :=
        sum_eq_zero fun a _ => by simp only [remoteCount, remoteRefMap_atRest hinv hrest]
      rw [surplus, sum_balance, hrem, tally_eq_zero hrest.2] at hs
      have hpos := ownerCount_pos hinv k
      by_contra hne
      have := hpos.2 hne
      omega
    · exact ownKeys_reach h a k ha

def readRemote : List (Act 2) :=
  [.create 0 7, .send 0 ⟨0, 7⟩ 1, .deliver 0 1 id, .data 1 ⟨0, 7⟩ .takeData 0, .deliver 1 0 id,
    .deliver 0 1 id]

def remoteRead : System 2 := (runAll step (System.init 2) readRemote).getD (System.init 2)

theorem counts_conserved_remoteRead : AtRest remoteRead ∧
    ∀ a k, (remoteRead.node a).localRefMap k = none ∧ (remoteRead.node a).remoteRefMap k = none := by
  have hrun : runAll step (System.init 2) readRemote = .done remoteRead := rfl
  have hperm : Permitted step SingleWaiter (System.init 2) readRemote := by
    refine ⟨trivial, fun _ h => ?_⟩
    cases h
    refine ⟨trivial, fun _ h => ?_⟩
    cases h
    refine ⟨trivial, fun _ h => ?_⟩
    cases h
    refine ⟨fun _ r hr => ?_, fun _ _ => ⟨trivial, fun _ _ => ⟨trivial, fun _ _ => trivial⟩⟩⟩
    cases hr
    rfl
  have hrest : AtRest remoteRead := by
    refine ⟨Fin.forall_fin_two.2 ⟨fun k _ => ?_, fun k _ => ?_⟩,
      Fin.forall_fin_two.2 ⟨by decide, by decide⟩⟩
    -- both nodes have held the reference once and released it
    all_goals
      show (if k = ⟨0, 7⟩ then (if k = ⟨0, 7⟩ then 0 + 1 else 0) - 1 else
        if k = ⟨0, 7⟩ then 0 + 1 else 0) = 0
      by_cases hk : k = ⟨0, 7⟩ <;> simp [hk]
  exact ⟨hrest, (counts_conserved (.of_runAll .init hperm hrun)).2 hrest⟩

def readTwice : List (Act 2) :=
  [.create 0 7, .send 0 ⟨0, 7⟩ 1, .deliver 0 1 id, .copy 1 ⟨0, 7⟩ 0, .deliver 1 0 id,
    .data 1 ⟨0, 7⟩ .takeData 0, .data 1 ⟨0, 7⟩ .takeData 0, .deliver 1 0 id, .deliver 0 1 id]

def twiceRead : System 2 := (runAll step (System.init 2) readTwice).getD (System.init 2)

/-- The reply has lowered the count of node 1 twice, the fetch the owner's only once: the counts do
not agree, and with nothing held or in flight the owner keeps its entry. -/
theorem second_waiter_leaks : Reach step anyStep (System.init 2) twiceRead ∧
    ownerCount (twiceRead.node 0) ⟨0, 7⟩ + twiceRead.chan.tally (updateWeight ⟨0, 7⟩) +
        twiceRead.chan.tally (setWeight ⟨0, 7⟩) ≠
      (∑ a ∈ univ.erase 0, remoteCount (twiceRead.node a) ⟨0, 7⟩) +
        twiceRead.chan.tally (recordWeight ⟨0, 7⟩) ∧
    AtRest twiceRead ∧ (twiceRead.node 0).localRefMap ⟨0, 7⟩ ≠ none := by
  have hrun : runAll step (System.init 2) readTwice = .done twiceRead := rfl
  refine ⟨.of_runAll .init (permitted_anyStep _ _ _) hrun, by decide, ⟨?_, ?_⟩, by decide⟩
  · refine Fin.forall_fin_two.2 ⟨fun k _ => ?_, fun k _ => ?_⟩
    · show (if k = ⟨0, 7⟩ then (if k = ⟨0, 7⟩ then 0 + 1 else 0) - 1 else
        if k = ⟨0, 7⟩ then 0 + 1 else 0) = 0
      by_cases hk : k = ⟨0, 7⟩ <;> simp [hk]
    · by_cases hk : k = ⟨0, 7⟩
      · subst hk
        decide
      · show (if k = ⟨0, 7⟩ then _ else if k = ⟨0, 7⟩ then _ else if k = ⟨0, 7⟩ then _ else
          if k = ⟨0, 7⟩ then _ else 0) = 0
        simp [hk]
  · exact Fin.forall_fin_two.2 ⟨by decide, by decide⟩

end SNet.Distrib
