import SNetRts.Distrib.Reference
import Mathlib.Algebra.Ring.Int.Defs

/-!
# The ledger of a distributed reference

The count of a reference is split over its owner's table, the tables of the other nodes and the
messages in flight. `surplus s k` is the owner's count plus the updates and replies in flight, less
the counts of the other nodes and the records in flight that carry the reference. Every operation
keeps it, with one exception: the reply to a fetch lowers the requester's count once for every
thread that waits for it, where the owner has lowered its own count once. So the surplus never
becomes negative (`Inv.surplus`).
-/

namespace SNet.Distrib

open Lib Finset

variable {n : Nat}

/-! ## Counts and weights -/

/-- The owner's count of a reference; 0 when its table does not have it. -/
def ownerCount (st : NodeState n) (k : Ref n) : Int :=
  match st.localRefMap k with
  | none => 0
  | some r => r.count

/-- A node's count of the references it holds to the datum of another. -/
def remoteCount (st : NodeState n) (k : Ref n) : Int :=
  match st.remoteRefMap k with
  | none => 0
  | some r => r.count

/-- The threads that wait in `GetData`. -/
def RefCount.waiting (r : RefCount) : Nat :=
  match r.data with
  | none => (r.list.getD []).length
  | some _ => 0

def RefCount.pending (r : RefCount) : Bool := r.data.isNone && r.list.isSome

/-- The number of replies the node still expects for the reference. -/
def pendingCount (st : NodeState n) (k : Ref n) : Int :=
  match st.remoteRefMap k with
  | none => 0
  | some r => if r.pending then 1 else 0

/-- The values of the updates for `k`. -/
def updateWeight (k : Ref n) : Msg n → Int
  | .update ref v => if ref = k then v else 0
  | _ => 0

/-- The updates that raise the count of `k`. -/
def raiseWeight (k : Ref n) : Msg n → Int
  | .update ref v => if ref = k ∧ 0 < v then 1 else 0
  | _ => 0

/-- The updates that lower the count of `k`. -/
def lowerWeight (k : Ref n) : Msg n → Int
  | .update ref v => if ref = k ∧ v < 0 then 1 else 0
  | _ => 0

/-- The replies for `k`. -/
def setWeight (k : Ref n) : Msg n → Int
  | .set ref => if ref = k then 1 else 0
  | _ => 0

/-- The requests for `k`. -/
def fetchWeight (k : Ref n) : Msg n → Int
  | .fetch ref => if ref = k then 1 else 0
  | _ => 0

/-- The records that carry `k`. -/
def recordWeight (k : Ref n) : Msg n → Int
  | .record ref => if ref = k then 1 else 0
  | _ => 0

/-- What a message in flight adds to the ledger of `k`. -/
def weight (k : Ref n) (m : Msg n) : Int := updateWeight k m + setWeight k m - recordWeight k m

/-- What the tables of node `a` add to the ledger of `k`. -/
def balance (a : Fin n) (st : NodeState n) (k : Ref n) : Int :=
  if k.node = a then ownerCount st k else - remoteCount st k

/-- The ledger of `k`. -/
def surplus (s : System n) (k : Ref n) : Int :=
  (∑ a, balance a (s.node a) k) + s.chan.tally (weight k)

/-! ## What a node keeps -/

/-- The entry of a node for a reference to the datum of another node counts the references held
and the threads that wait; the owner's entry is positive and in no other table of it. -/
def KeyOk (self : Fin n) (st : NodeState n) (k : Ref n) : Prop :=
  if k.node = self then
    st.remoteRefMap k = none ∧ ∀ r, st.localRefMap k = some r → 0 < r.count
  else
    match st.remoteRefMap k with
    | none => st.held k = 0
    | some r => r.count = st.held k + r.waiting ∧ 0 < r.count ∧ (r.data = none → r.list ≠ some [])

/-- The messages are between the right nodes and updates change the count by one. -/
def Msg.Routed (src dst : Fin n) : Msg n → Prop
  | .record _ => True
  | .update ref v => dst = ref.node ∧ src ≠ dst ∧ (v = 1 ∨ v = -1)
  | .fetch ref => dst = ref.node ∧ src ≠ dst
  | .set ref => src = ref.node ∧ src ≠ dst

/-- The tables and the messages in flight agree. -/
structure Inv (s : System n) : Prop where
  routed : ∀ a b, ∀ m ∈ s.chan a b, m.Routed a b
  node : ∀ a k, KeyOk a (s.node a) k
  pending : ∀ a k, a ≠ k.node → s.chan.load (fetchWeight k) a k.node +
    s.chan.load (setWeight k) k.node a = pendingCount (s.node a) k
  surplus : ∀ k, 0 ≤ surplus s k

/-! ## What an operation changes -/

section NodeState

variable {st : NodeState n} {a : Fin n} {ref k : Ref n} {r : RefCount} {p : Ptr}

@[simp] theorem hold_localRefMap : (st.hold ref).localRefMap = st.localRefMap := rfl
@[simp] theorem hold_remoteRefMap : (st.hold ref).remoteRefMap = st.remoteRefMap := rfl
@[simp] theorem release_localRefMap : (st.release ref).localRefMap = st.localRefMap := rfl
@[simp] theorem release_remoteRefMap : (st.release ref).remoteRefMap = st.remoteRefMap := rfl
@[simp] theorem setLocal_held : (st.setLocal ref r).held = st.held := rfl
@[simp] theorem takeLocal_held : (st.takeLocal ref).held = st.held := rfl
@[simp] theorem setRemote_held : (st.setRemote ref r).held = st.held := rfl
@[simp] theorem takeRemote_held : (st.takeRemote ref).held = st.held := rfl
@[simp] theorem setLocal_remoteRefMap : (st.setLocal ref r).remoteRefMap = st.remoteRefMap := rfl
@[simp] theorem takeLocal_remoteRefMap : (st.takeLocal ref).remoteRefMap = st.remoteRefMap := rfl
@[simp] theorem setRemote_localRefMap : (st.setRemote ref r).localRefMap = st.localRefMap := rfl
@[simp] theorem takeRemote_localRefMap : (st.takeRemote ref).localRefMap = st.localRefMap := rfl
@[simp] theorem setLocal_self : (st.setLocal ref r).localRefMap ref = some r := if_pos rfl
@[simp] theorem takeLocal_self : (st.takeLocal ref).localRefMap ref = none := if_pos rfl
@[simp] theorem setRemote_self : (st.setRemote ref r).remoteRefMap ref = some r := if_pos rfl
@[simp] theorem takeRemote_self : (st.takeRemote ref).remoteRefMap ref = none := if_pos rfl
@[simp] theorem hold_held_self : (st.hold ref).held ref = st.held ref + 1 := if_pos rfl
@[simp] theorem release_held_self : (st.release ref).held ref = st.held ref - 1 := if_pos rfl

theorem hold_held_local (h : k.node ≠ a) : (st.hold ⟨a, p⟩).held k = st.held k :=
  if_neg fun e => h (by rw [e])

@[simp] theorem receive_localRefMap {c : Caller} :
    (st.receive a c p).localRefMap = st.localRefMap := by cases c <;> rfl

@[simp] theorem receive_remoteRefMap {c : Caller} :
    (st.receive a c p).remoteRefMap = st.remoteRefMap := by cases c <;> rfl

theorem receive_held {c : Caller} (h : k.node ≠ a) : (st.receive a c p).held k = st.held k := by
  cases c
  · exact hold_held_local h
  · rfl

theorem receiveAll_eq (st : NodeState n) (a : Fin n) (l : List Caller) (copy : Nat → Ptr) :
    (st.receiveAll a copy l).localRefMap = st.localRefMap ∧
    (st.receiveAll a copy l).remoteRefMap = st.remoteRefMap ∧
    ∀ k, k.node ≠ a → (st.receiveAll a copy l).held k = st.held k := by
  induction l generalizing st copy with
  | nil => exact ⟨rfl, rfl, fun _ _ => rfl⟩
  | cons c l ih =>
    obtain ⟨hl, hr, hh⟩ := ih (st.receive a c (copy 0)) (fun i => copy (i + 1))
    refine ⟨hl.trans receive_localRefMap, hr.trans receive_remoteRefMap, fun k hk => ?_⟩
    exact (hh k hk).trans (receive_held hk)

end NodeState

def Msg.ref : Msg n → Ref n
  | .record ref => ref
  | .update ref _ => ref
  | .fetch ref => ref
  | .set ref => ref

theorem weights_of_ne {k : Ref n} {m : Msg n} (h : m.ref ≠ k) :
    weight k m = 0 ∧ fetchWeight k m = 0 ∧ setWeight k m = 0 := by
  cases m <;>
    simp_all [Msg.ref, weight, updateWeight, setWeight, recordWeight, fetchWeight]

def inputWeight (f : Msg n → Int) : Option (Fin n × Msg n) → Int
  | none => 0
  | some (_, m) => f m

/-- What an operation of node `a` does to the ledger of `k`, having consumed `input` and sent
`ms`. The last number is what the surplus gains. -/
structure SpecAt (a : Fin n) (st : NodeState n) (input : Option (Fin n × Msg n))
    (st' : NodeState n) (ms : List (Fin n × Msg n)) (k : Ref n) (gain : Int) : Prop where
  keyOk : KeyOk a st' k
  balance : balance a st' k + (ms.map fun p => weight k p.2).sum =
    balance a st k + inputWeight (weight k) input + gain
  pending : k.node ≠ a → pendingCount st' k = pendingCount st k +
    (ms.map fun p => if p.1 = k.node then fetchWeight k p.2 else 0).sum -
      inputWeight (setWeight k) input
  replies : k.node = a → ∀ b, (ms.map fun p => if p.1 = b then setWeight k p.2 else 0).sum =
    match input with
    | none => 0
    | some (src, m) => if src = b then fetchWeight k m else 0

/-- The tables change at most at `ref`, apart from references to the node's own data. -/
def FrameAt (self : Fin n) (ref : Ref n) (st st' : NodeState n) : Prop :=
  ∀ k, k ≠ ref → st'.localRefMap k = st.localRefMap k ∧ st'.remoteRefMap k = st.remoteRefMap k ∧
    (k.node ≠ self → st'.held k = st.held k)

theorem keyOk_congr {self : Fin n} {st st' : NodeState n} {k : Ref n}
    (hl : st'.localRefMap k = st.localRefMap k) (hr : st'.remoteRefMap k = st.remoteRefMap k)
    (hh : k.node ≠ self → st'.held k = st.held k) (h : KeyOk self st k) : KeyOk self st' k := by
  unfold KeyOk at h ⊢
  rw [hl, hr]
  split
  · rename_i hk; rwa [if_pos hk] at h
  · rename_i hk; rw [if_neg hk] at h; rwa [hh hk]

theorem sum_map_zero {α : Type*} {f : α → Int} {l : List α} (h : ∀ x ∈ l, f x = 0) :
    (l.map f).sum = 0 := by
  induction l with
  | nil => rfl
  | cons x l ih =>
    rw [List.map_cons, List.sum_cons, h x List.mem_cons_self,
      ih fun y hy => h y (List.mem_cons_of_mem _ hy)]
    rfl

theorem specAt_of_frame {self : Fin n} {st st' : NodeState n} {input : Option (Fin n × Msg n)}
    {ms : List (Fin n × Msg n)} {ref k : Ref n} (hf : FrameAt self ref st st')
    (hms : ∀ p ∈ ms, p.2.ref = ref) (hin : ∀ p ∈ input, p.2.ref = ref) (hk : k ≠ ref)
    (hok : KeyOk self st k) : SpecAt self st input st' ms k 0 := by
  obtain ⟨hl, hr, hh⟩ := hf k hk
  have hms' : ∀ p ∈ ms, p.2.ref ≠ k := fun p hp e => hk (e.symm.trans (hms p hp))
  have hin' : ∀ p ∈ input, p.2.ref ≠ k := fun p hp e => hk (e.symm.trans (hin p hp))
  refine ⟨keyOk_congr hl hr hh hok, ?_, fun _ => ?_, fun _ a => ?_⟩
  · rw [sum_map_zero fun p hp => (weights_of_ne (hms' p hp)).1]
    have : inputWeight (weight k) input = 0 := by
      cases input with
      | none => rfl
      | some p => exact (weights_of_ne (hin' p rfl)).1
    simp [balance, ownerCount, remoteCount, hl, hr, this]
  · rw [sum_map_zero fun p hp => by simp [(weights_of_ne (hms' p hp)).2.1]]
    have : inputWeight (setWeight k) input = 0 := by
      cases input with
      | none => rfl
      | some p => exact (weights_of_ne (hin' p rfl)).2.2
    simp [pendingCount, hr, this]
  · rw [sum_map_zero fun p hp => by simp [(weights_of_ne (hms' p hp)).2.2]]
    cases input with
    | none => rfl
    | some p => simp [(weights_of_ne (hin' p rfl)).2.1]

theorem specAt_local {self : Fin n} {st st' : NodeState n} {k : Ref n}
    (hl : st'.localRefMap = st.localRefMap) (hr : st'.remoteRefMap = st.remoteRefMap)
    (hh : k.node ≠ self → st'.held k = st.held k) (hok : KeyOk self st k) :
    SpecAt self st none st' [] k 0 := by
  refine ⟨keyOk_congr (by rw [hl]) (by rw [hr]) hh hok, ?_, fun _ => ?_, fun _ a => rfl⟩
  · simp [balance, ownerCount, remoteCount, hl, hr, inputWeight]
  · simp [pendingCount, hr, inputWeight]

/-! ## The operations of a node's threads -/

section Operations

variable {self : Fin n} {st : NodeState n} {ref : Ref n}

theorem entry_of_held (hok : KeyOk self st ref) (hself : ref.node ≠ self) (hh : st.held ref ≠ 0) :
    ∃ r, st.remoteRefMap ref = some r ∧ r.count = st.held ref + r.waiting ∧
      (r.data = none → r.list ≠ some []) := by
  unfold KeyOk at hok
  rw [if_neg hself] at hok
  cases h : st.remoteRefMap ref with
  | none => rw [h] at hok; exact absurd hok hh
  | some r => rw [h] at hok; exact ⟨r, rfl, hok.1, hok.2.2⟩

theorem waiting_pos {r : RefCount} (h : r.data = none → r.list ≠ some []) (hp : r.pending = true) :
    0 < r.waiting := by
  obtain ⟨c, d, l⟩ := r
  cases d <;> cases l <;> simp_all [RefCount.pending, RefCount.waiting, List.length_pos_iff]

/-- The outcome of an operation on a reference that is held: the assertions pass, the messages
are well addressed and the ledgers are kept. -/
def Conserves (self : Fin n) (st : NodeState n) (o : Result n) : Prop :=
  ∃ st' ms, o = some (st', ms) ∧ (∀ p ∈ ms, p.2.Routed self p.1) ∧
    ∀ k, SpecAt self st none st' ms k 0

theorem refCreate_conserves (hok : ∀ k, KeyOk self st k) (data : Ptr) :
    Conserves self st (refCreate self data st) :=
  ⟨_, _, rfl, by simp, fun k => specAt_local rfl rfl hold_held_local (hok k)⟩

@[simp] theorem waiting_count (r : RefCount) (c : Int) :
    RefCount.waiting { r with count := c } = r.waiting := rfl

@[simp] theorem pending_count (r : RefCount) (c : Int) :
    RefCount.pending { r with count := c } = r.pending := rfl

theorem keyOk_some {r : RefCount} (hself : ref.node ≠ self) (hr : st.remoteRefMap ref = some r)
    (hc : r.count = st.held ref + r.waiting) (hpos : 0 < r.count)
    (hl : r.data = none → r.list ≠ some []) : KeyOk self st ref := by
  rw [KeyOk, if_neg hself, hr]
  exact ⟨hc, hpos, hl⟩

theorem keyOk_none (hself : ref.node ≠ self) (hr : st.remoteRefMap ref = none)
    (hh : st.held ref = 0) : KeyOk self st ref := by
  rw [KeyOk, if_neg hself, hr]
  exact hh

theorem refCopy_conserves (hok : ∀ k, KeyOk self st k) (hh : st.held ref ≠ 0) (copy : Ptr) :
    Conserves self st (refCopy self copy ref st) := by
  unfold refCopy
  by_cases hself : ref.node = self
  · rw [if_pos hself, hself]
    exact ⟨_, _, rfl, by simp, fun k => specAt_local rfl rfl hold_held_local (hok k)⟩
  · obtain ⟨r, hr, hc, hl⟩ := entry_of_held (hok ref) hself hh
    rw [if_neg hself, hr]
    dsimp only
    split
    · exact ⟨_, _, rfl, by simp, fun k => specAt_local rfl rfl hold_held_local (hok k)⟩
    · refine ⟨_, _, rfl, by simp [Msg.Routed, Ne.symm hself], fun k => ?_⟩
      by_cases hk : k = ref
      · subst hk
        refine ⟨?_, ?_, fun _ => ?_, fun h => absurd h hself⟩
        · refine keyOk_some hself (r := { r with count := r.count + 1 }) (by simp) ?_ ?_ hl
          · simp; omega
          · simp only; omega
        · simp [balance, hself, remoteCount, hr, weight, updateWeight, setWeight, recordWeight,
            inputWeight]
        · simp [pendingCount, hr, fetchWeight, inputWeight]
          rfl
      · have hf : FrameAt self ref st ((st.setRemote ref { r with count := r.count + 1 }).hold ref) :=
          fun k hk => ⟨rfl, if_neg hk, fun _ => if_neg hk⟩
        exact specAt_of_frame hf (by simp [Msg.ref]) (by simp) hk (hok k)

/-- One of the held references to the datum of another node goes, and the node's count with it;
`m` is sent on its behalf. Covers `SNetRefDestroy`, `SNetRefOutgoing` and `GetData` of a datum
already fetched. -/
theorem drop_conserves {r : RefCount} {st' : NodeState n} {dest : Fin n} {m : Msg n}
    (hok : ∀ k, KeyOk self st k) (hself : ref.node ≠ self) (hh : st.held ref ≠ 0)
    (hr : st.remoteRefMap ref = some r) (hc : r.count = st.held ref + r.waiting)
    (hl : r.data = none → r.list ≠ some [])
    (hr' : st'.remoteRefMap ref =
      if r.count - 1 = 0 then none else some { r with count := r.count - 1 })
    (hf : FrameAt self ref st st') (hh' : st'.held ref = st.held ref - 1)
    (hm : m.Routed self dest) (hmr : m.ref = ref) (hw : weight ref m = -1)
    (hfw : fetchWeight ref m = 0) :
    Conserves self st (some (st', [(dest, m)])) := by
  refine ⟨_, _, rfl, by simpa using hm, fun k => ?_⟩
  by_cases hk : k = ref
  · subst hk
    by_cases h0 : r.count - 1 = 0
    · rw [if_pos h0] at hr'
      have hnp : r.pending = false := by
        by_contra hp
        have := waiting_pos hl (by simpa using hp)
        omega
      refine ⟨keyOk_none hself hr' (by omega), ?_, fun _ => ?_, fun h => absurd h hself⟩
      · simp [balance, hself, remoteCount, hr, hr', hw, inputWeight]
        omega
      · simp [pendingCount, hr, hr', hfw, hnp, inputWeight]
    · rw [if_neg h0] at hr'
      refine ⟨keyOk_some hself hr' ?_ (by simp only; omega) hl, ?_, fun _ => ?_,
        fun h => absurd h hself⟩
      · simp only [waiting_count]
        omega
      · simp [balance, hself, remoteCount, hr, hr', hw, inputWeight]
        omega
      · simp [pendingCount, hr, hr', hfw, inputWeight]
        rfl
  · exact specAt_of_frame hf (by simpa using hmr) (by simp) hk (hok k)

theorem frameAt_takeRemote : FrameAt self ref st ((st.release ref).takeRemote ref) :=
  fun _ hk => ⟨rfl, if_neg hk, fun _ => if_neg hk⟩

theorem frameAt_setRemote {r : RefCount} :
    FrameAt self ref st ((st.release ref).setRemote ref r) :=
  fun _ hk => ⟨rfl, if_neg hk, fun _ => if_neg hk⟩

theorem FrameAt.receive {st' : NodeState n} {c : Caller} {p : Ptr} (h : FrameAt self ref st st') :
    FrameAt self ref st (st'.receive self c p) := by
  intro k hk
  obtain ⟨hl, hr, hh⟩ := h k hk
  exact ⟨by simpa using hl, by simpa using hr, fun hs => (receive_held hs).trans (hh hs)⟩

theorem refDestroy_conserves (hok : ∀ k, KeyOk self st k) (hh : st.held ref ≠ 0) :
    Conserves self st (refDestroy self ref st) := by
  unfold refDestroy
  by_cases hself : ref.node = self
  · rw [if_pos hself]
    exact ⟨_, _, rfl, by simp, fun k => specAt_local rfl rfl
      (fun hk => if_neg fun e => hk (by rw [e, hself])) (hok k)⟩
  · obtain ⟨r, hr, hc, hl⟩ := entry_of_held (hok ref) hself hh
    rw [if_neg hself, hr]
    dsimp only
    split <;> rename_i h0
    · exact drop_conserves hok hself hh hr hc hl (by simp [h0]) frameAt_takeRemote (by simp)
        ⟨rfl, Ne.symm hself, Or.inr rfl⟩ rfl
        (by simp [weight, updateWeight, setWeight, recordWeight]) rfl
    · exact drop_conserves hok hself hh hr hc hl (by simp [h0]) frameAt_setRemote (by simp)
        ⟨rfl, Ne.symm hself, Or.inr rfl⟩ rfl
        (by simp [weight, updateWeight, setWeight, recordWeight]) rfl

theorem raiseLocal_conserves {r' : RefCount} (dest : Fin n) (hok : ∀ k, KeyOk self st k)
    (hself : ref.node = self) (hc : r'.count = ownerCount st ref + 1) :
    Conserves self st (some ((st.release ref).setLocal ref r', [(dest, .record ref)])) := by
  refine ⟨_, _, rfl, by simp [Msg.Routed], fun k => ?_⟩
  by_cases hk : k = ref
  · subst hk
    have hown := hok k
    rw [KeyOk, if_pos hself] at hown
    refine ⟨?_, ?_, fun h => absurd hself h, fun _ a => by simp [setWeight]⟩
    · rw [KeyOk, if_pos hself]
      refine ⟨hown.1, fun r hr => ?_⟩
      rw [setLocal_self, Option.some.injEq] at hr
      subst hr
      have hnn : 0 ≤ ownerCount st k := by
        unfold ownerCount
        split
        · exact le_rfl
        · rename_i r0 h0; exact (hown.2 r0 h0).le
      omega
    · have : ownerCount ((st.release k).setLocal k r') k = ownerCount st k + 1 := by
        rw [ownerCount, setLocal_self]; exact hc
      simp [balance, hself, this, weight, updateWeight, setWeight, recordWeight, inputWeight]
  · have hf : FrameAt self ref st ((st.release ref).setLocal ref r') :=
      fun k hk => ⟨if_neg hk, rfl, fun _ => if_neg hk⟩
    exact specAt_of_frame hf (by simp [Msg.ref]) (by simp) hk (hok k)

theorem refOutgoing_conserves (hok : ∀ k, KeyOk self st k) (hh : st.held ref ≠ 0)
    (dest : Fin n) : Conserves self st (refOutgoing self dest ref st) := by
  unfold refOutgoing
  by_cases hself : ref.node = self
  · rw [if_pos hself]
    cases h : st.localRefMap ref with
    | some r => exact raiseLocal_conserves dest hok hself (by simp [ownerCount, h])
    | none => exact raiseLocal_conserves dest hok hself (by simp [ownerCount, h])
  · obtain ⟨r, hr, hc, hl⟩ := entry_of_held (hok ref) hself hh
    rw [if_neg hself, hr]
    dsimp only
    split <;> rename_i h0
    · exact drop_conserves hok hself hh hr hc hl (by simp [h0]) frameAt_takeRemote (by simp)
        trivial rfl (by simp [weight, updateWeight, setWeight, recordWeight]) rfl
    · exact drop_conserves hok hself hh hr hc hl (by simp [h0]) frameAt_setRemote (by simp)
        trivial rfl (by simp [weight, updateWeight, setWeight, recordWeight]) rfl

theorem wait_conserves {r : RefCount} (l : List Caller) (ms : List (Fin n × Msg n))
    (hok : ∀ k, KeyOk self st k) (hself : ref.node ≠ self) (hh : st.held ref ≠ 0)
    (hr : st.remoteRefMap ref = some r) (hd : r.data = none)
    (hc : r.count = st.held ref + r.waiting) (hne : l ≠ [])
    (hl : (l.length : Int) = (r.list.getD []).length + 1)
    (hms : ms = if r.list.isSome then [] else [(ref.node, .fetch ref)]) :
    Conserves self st (some ((st.release ref).setRemote ref { r with list := some l }, ms)) := by
  have hw : RefCount.waiting { r with list := some l } = l.length := by
    simp [RefCount.waiting, hd]
  have hw0 : r.waiting = (r.list.getD []).length := by simp [RefCount.waiting, hd]
  refine ⟨_, _, rfl, ?_, fun k => ?_⟩
  · subst hms
    split <;> simp [Msg.Routed, Ne.symm hself]
  by_cases hk : k = ref
  · subst hk
    refine ⟨?_, ?_, fun _ => ?_, fun h => absurd h hself⟩
    · refine keyOk_some hself setRemote_self ?_ (by simp only; omega) (fun _ => by simpa using hne)
      simp only [hw, setRemote_held, release_held_self]
      omega
    · subst hms
      split <;> simp [balance, hself, remoteCount, hr, weight, updateWeight, setWeight,
        recordWeight, inputWeight]
    · subst hms
      cases hl : r.list <;>
        simp [pendingCount, hr, RefCount.pending, hd, hl, fetchWeight, inputWeight]
  · have hf : FrameAt self ref st ((st.release ref).setRemote ref { r with list := some l }) :=
      frameAt_setRemote
    refine specAt_of_frame hf ?_ (by simp) hk (hok k)
    subst hms
    split <;> simp [Msg.ref]

theorem getData_conserves (hok : ∀ k, KeyOk self st k) (hh : st.held ref ≠ 0) (caller : Caller)
    (copy : Ptr) : Conserves self st (getData self caller copy ref st) := by
  unfold getData
  by_cases hself : ref.node = self
  · rw [if_pos hself]
    refine ⟨_, _, rfl, by simp, fun k => specAt_local (by simp) (by simp) (fun hk => ?_) (hok k)⟩
    rw [receive_held hk]
    exact if_neg fun e => hk (by rw [e, hself])
  · obtain ⟨r, hr, hc, hl⟩ := entry_of_held (hok ref) hself hh
    rw [if_neg hself, hr]
    dsimp only
    cases hd : r.data with
    | none =>
      dsimp only
      cases hlist : r.list with
      | some l =>
        have := wait_conserves (l ++ [caller]) [] hok hself hh hr hd hc (by simp)
          (by simp [hlist]) (by simp [hlist])
        simpa [hd] using this
      | none =>
        have := wait_conserves [caller] [(ref.node, .fetch ref)] hok hself hh hr hd
          hc (by simp) (by simp [hlist]) (by simp [hlist])
        simpa [hd] using this
    | some d =>
      dsimp only
      split <;> rename_i h0
      · exact drop_conserves hok hself hh hr hc hl (by simp [h0]) frameAt_takeRemote.receive
          (by rw [receive_held hself]; simp) ⟨rfl, Ne.symm hself, Or.inr rfl⟩ rfl
          (by simp [weight, updateWeight, setWeight, recordWeight]) rfl
      · refine drop_conserves hok hself hh hr hc hl (by simp [h0, hd]) frameAt_setRemote.receive
          (by rw [receive_held hself]; simp) ⟨rfl, Ne.symm hself, Or.inr rfl⟩ rfl
          (by simp [weight, updateWeight, setWeight, recordWeight]) rfl

end Operations

/-! ## The input manager -/

section InputManager

variable {self src : Fin n} {st : NodeState n}

theorem arrive_spec {r' : RefCount} {ref : Ref n} (hok : ∀ k, KeyOk self st k)
    (hself : ref.node ≠ self)
    (hr' : r' = match st.remoteRefMap ref with
      | some r => { r with count := r.count + 1 }
      | none => { count := 1, data := none, list := none }) (k : Ref n) :
    SpecAt self st (some (src, .record ref)) ((st.setRemote ref r').hold ref) [] k 0 := by
  by_cases hk : k = ref
  · subst hk
    have hown := hok k
    rw [KeyOk, if_neg hself] at hown
    cases h : st.remoteRefMap k with
    | some r =>
      rw [h] at hr' hown
      subst hr'
      refine ⟨keyOk_some hself (r := { r with count := r.count + 1 }) (by simp) ?_ ?_ hown.2.2,
        ?_, fun _ => ?_, fun e => absurd e hself⟩
      · simp
        omega
      · simp only
        omega
      · simp [balance, hself, remoteCount, h, weight, updateWeight, setWeight, recordWeight,
          inputWeight]
        omega
      · simp [pendingCount, h, setWeight, inputWeight]
        rfl
    | none =>
      rw [h] at hr' hown
      subst hr'
      refine ⟨keyOk_some hself (r := ⟨1, none, none⟩) (by simp) ?_ (by simp) (by simp),
        ?_, fun _ => ?_, fun e => absurd e hself⟩
      · simp [RefCount.waiting, hown]
      · simp [balance, hself, remoteCount, h, weight, updateWeight, setWeight, recordWeight,
          inputWeight]
      · simp [pendingCount, h, RefCount.pending, setWeight, inputWeight]
  · refine specAt_of_frame (fun k hk => ?_) (by simp) (by simp [Msg.ref]) hk (hok k)
    exact ⟨rfl, if_neg hk, fun _ => if_neg hk⟩

theorem changeLocal_spec {ref : Ref n} {r : RefCount} {st' : NodeState n} {m : Msg n} {v : Int}
    {ms : List (Fin n × Msg n)} (hok : ∀ k, KeyOk self st k) (hself : ref.node = self)
    (hr : st.localRefMap ref = some r) (hv : v = 1 ∨ v = -1)
    (hr' : st'.localRefMap ref =
      if r.count + v = 0 then none else some { r with count := r.count + v })
    (hrem : st'.remoteRefMap ref = st.remoteRefMap ref) (hf : FrameAt self ref st st')
    (hm : m.ref = ref) (hms : ∀ p ∈ ms, p.2.ref = ref)
    (hw : v + (ms.map fun p => weight ref p.2).sum = weight ref m)
    (hrep : ∀ a, (ms.map fun p => if p.1 = a then setWeight ref p.2 else 0).sum =
      if src = a then fetchWeight ref m else 0) (k : Ref n) :
    SpecAt self st (some (src, m)) st' ms k 0 := by
  by_cases hk : k = ref
  · subst hk
    have hown := hok k
    rw [KeyOk, if_pos hself] at hown
    have hpos := hown.2 r hr
    refine ⟨?_, ?_, fun e => absurd hself e, fun _ => hrep⟩
    · rw [KeyOk, if_pos hself]
      refine ⟨hrem.trans hown.1, fun r1 h1 => ?_⟩
      rw [hr'] at h1
      split at h1
      · cases h1
      · cases h1
        simp only
        omega
    · have : ownerCount st' k = ownerCount st k + v := by
        simp only [ownerCount, hr, hr']
        split
        · rename_i h0
          split at h0
          · omega
          · cases h0
        · rename_i h0
          split at h0
          · cases h0
          · cases h0
            rfl
      simp only [balance, hself, if_true, this, inputWeight]
      omega
  · exact specAt_of_frame hf hms (by simpa using hm) hk (hok k)

theorem refSet_spec (src : Fin n) {ref : Ref n} {r : RefCount} {l : List Caller} (data : Ptr)
    (copy : Nat → Ptr) (hok : ∀ k, KeyOk self st k) (hself : ref.node ≠ self)
    (hr : st.remoteRefMap ref = some r) (hd : r.data = none) (hl : r.list = some l) :
    ∃ st', refSet self data copy ref st = some st' ∧
      ∀ k, SpecAt self st (some (src, .set ref)) st' [] k
        (if k = ref then (l.length : Int) - 1 else 0) := by
  have hown := hok ref
  rw [KeyOk, if_neg hself, hr] at hown
  have hw : r.waiting = l.length := by simp [RefCount.waiting, hd, hl]
  have hne : 0 < l.length := by
    have := hown.2.2 hd
    rw [hl] at this
    exact List.length_pos_iff.2 fun e => this (by rw [e])
  have hp : r.pending = true := by simp [RefCount.pending, hd, hl]
  unfold refSet
  rw [hr]
  dsimp only
  rw [hl]
  dsimp only
  -- both branches leave the entry with the threads that waited taken off its count
  have key : ∀ st₁ : NodeState n, FrameAt self ref st st₁ → st₁.held ref = st.held ref →
      (st₁.remoteRefMap ref = if r.count - l.length > 0 then
        some { count := r.count - l.length, data := some data, list := some [] } else none) →
      ∀ k, SpecAt self st (some (src, .set ref)) (st₁.receiveAll self copy l) [] k
        (if k = ref then (l.length : Int) - 1 else 0) := by
    intro st₁ hf hheld hrem k
    obtain ⟨e1, e2, e3⟩ := receiveAll_eq st₁ self l copy
    have hf' : FrameAt self ref st (st₁.receiveAll self copy l) := by
      intro k hk
      obtain ⟨h1, h2, h3⟩ := hf k hk
      exact ⟨by rw [e1, h1], by rw [e2, h2], fun hs => (e3 k hs).trans (h3 hs)⟩
    by_cases hk : k = ref
    · subst hk
      rw [if_pos rfl]
      have hrem' := hrem
      rw [← e2] at hrem'
      have hheld' := (e3 k hself).trans hheld
      split at hrem' <;> rename_i hc
      · refine ⟨keyOk_some hself hrem' ?_ hc (by simp), ?_, fun _ => ?_, fun e => absurd e hself⟩
        · simp only [hheld', RefCount.waiting]
          omega
        · simp [balance, hself, remoteCount, hr, hrem', weight, updateWeight, setWeight,
            recordWeight, inputWeight]
          omega
        · simp [pendingCount, hr, hrem', RefCount.pending, hd, hl, setWeight, inputWeight]
      · refine ⟨keyOk_none hself hrem' (by omega), ?_, fun _ => ?_, fun e => absurd e hself⟩
        · simp [balance, hself, remoteCount, hr, hrem', weight, updateWeight, setWeight,
            recordWeight, inputWeight]
          omega
        · simp [pendingCount, hr, hrem', hp, setWeight, inputWeight]
    · rw [if_neg hk]
      exact specAt_of_frame hf' (by simp) (by simp [Msg.ref]) hk (hok k)
  split <;> rename_i hc
  · exact ⟨_, rfl, key _ (fun k hk => ⟨rfl, if_neg hk, fun _ => rfl⟩) rfl
      (by rw [if_pos hc]; exact setRemote_self)⟩
  · exact ⟨_, rfl, key _ (fun k hk => ⟨rfl, if_neg hk, fun _ => rfl⟩) rfl
      (by rw [if_neg hc]; exact takeRemote_self)⟩

end InputManager

/-! ## The whole system -/

section System

variable {s : System n}

/-- The channels `c'` are `c` less the message that node `a` has consumed. -/
structure Consumes (c c' : Channels (Fin n) (Msg n)) (a : Fin n)
    (input : Option (Fin n × Msg n)) : Prop where
  load : ∀ f a' b', c'.load f a' b' = c.load f a' b' -
    match input with
    | none => 0
    | some (src, m) => if a' = src ∧ b' = a then f m else 0
  tally : ∀ f, c'.tally f = c.tally f - inputWeight f input
  sub : ∀ a' b', ∀ m ∈ c' a' b', m ∈ c a' b'
  mem : ∀ src m, input = some (src, m) → m ∈ c src a

theorem Consumes.none (c : Channels (Fin n) (Msg n)) (a : Fin n) : Consumes c c a none :=
  ⟨by simp, by simp [inputWeight], fun _ _ _ h => h, by simp⟩

theorem Consumes.some {c : Channels (Fin n) (Msg n)} {src a : Fin n} {m : Msg n} {q : List (Msg n)}
    (h : c src a = m :: q) : Consumes c (c.set src a q) a (some (src, m)) := by
  refine ⟨fun f a' b' => Channels.load_set_cons h a' b', fun f => Channels.tally_set_cons h,
    fun a' b' m' hm => ?_, fun src' m' he => ?_⟩
  · by_cases e : a' = src ∧ b' = a
    · obtain ⟨rfl, rfl⟩ := e
      rw [Channels.set_same] at hm
      rw [h]
      exact List.mem_cons_of_mem _ hm
    · rwa [Channels.set_other _ _ e] at hm
  · cases he
    rw [h]
    exact List.mem_cons_self

theorem surplus_put {a : Fin n} {c : Channels (Fin n) (Msg n)} {input : Option (Fin n × Msg n)}
    {st' : NodeState n} {ms : List (Fin n × Msg n)} {k : Ref n} {gain : Int}
    (hc : Consumes s.chan c a input) (hspec : SpecAt a (s.node a) input st' ms k gain) :
    surplus (System.put ⟨s.node, c⟩ a (st', ms)) k = surplus s k + gain := by
  have hsum : (∑ b, balance b (if b = a then st' else s.node b) k) =
      (∑ b, balance b (s.node b) k) + (balance a st' k - balance a (s.node a) k) := by
    rw [← Finset.add_sum_erase _ _ (mem_univ a),
      ← Finset.add_sum_erase (f := fun b => balance b (s.node b) k) _ (mem_univ a), if_pos rfl]
    have : ∑ b ∈ univ.erase a, balance b (if b = a then st' else s.node b) k =
        ∑ b ∈ univ.erase a, balance b (s.node b) k :=
      sum_congr rfl fun b hb => by rw [if_neg (ne_of_mem_erase hb)]
    omega
  have hb := hspec.balance
  unfold surplus System.put
  dsimp only
  rw [hsum, Channels.tally_pushAll, hc.tally]
  omega

theorem Inv.put {a : Fin n} {c : Channels (Fin n) (Msg n)} {input : Option (Fin n × Msg n)}
    {st' : NodeState n} {ms : List (Fin n × Msg n)} {gain : Ref n → Int} (h : Inv s)
    (hc : Consumes s.chan c a input) (hroute : ∀ p ∈ ms, p.2.Routed a p.1)
    (hspec : ∀ k, SpecAt a (s.node a) input st' ms k (gain k)) (hgain : ∀ k, 0 ≤ gain k) :
    Inv (System.put ⟨s.node, c⟩ a (st', ms)) := by
  refine ⟨fun a' b' m hm => ?_, fun b k => ?_, fun b k hb => ?_, fun k => ?_⟩
  · rcases Channels.mem_pushAll hm with hm' | ⟨ha, hm'⟩
    · exact h.routed a' b' m (hc.sub a' b' m hm')
    · exact ha ▸ hroute (b', m) hm'
  · by_cases hba : b = a
    · subst hba
      simpa [System.put] using (hspec k).keyOk
    · simpa [System.put, hba] using h.node b k
  · have hp := h.pending b k hb
    simp only [System.put]
    rw [Channels.load_pushAll, Channels.load_pushAll, hc.load, hc.load]
    by_cases hba : b = a
    · -- the requester: its fetches against the replies it has handled
      subst hba
      have hkb : ¬ k.node = b := fun e => hb e.symm
      have hpend := (hspec k).pending hkb
      rw [if_pos rfl, if_neg hkb, if_pos rfl]
      cases input with
      | none =>
        simp only [inputWeight] at hpend ⊢
        omega
      | some sm =>
        obtain ⟨src, m⟩ := sm
        have hr := h.routed src b m (hc.mem src m rfl)
        have hsrc : setWeight k m = if k.node = src then setWeight k m else 0 := by
          split
          · rfl
          · rename_i hne
            cases m with
            | set ref =>
              simp only [setWeight, ite_eq_right_iff]
              rintro rfl
              exact absurd hr.1.symm hne
            | _ => rfl
        simp only [inputWeight, hkb, and_false, if_false, and_true] at hpend ⊢
        rw [← hsrc]
        omega
    · rw [if_neg hba]
      by_cases hka : k.node = a
      · -- the owner: the fetches it has handled against its replies
        subst hka
        rw [if_pos rfl, (hspec k).replies rfl b]
        cases input with
        | none => simpa [hba] using hp
        | some sm =>
          obtain ⟨src, m⟩ := sm
          simp only [and_true, hba, and_false, if_false]
          by_cases hs : src = b
          · subst hs
            simp only [if_true]
            omega
          · have hs' : ¬ b = src := fun e => hs e.symm
            simp only [hs, hs', if_false]
            omega
      · rw [if_neg hka]
        cases input with
        | none => simpa [hba] using hp
        | some sm =>
          obtain ⟨src, m⟩ := sm
          simp only [hka, and_false, hba, if_false]
          omega
  · rw [surplus_put hc (hspec k)]
    have := h.surplus k
    have := hgain k
    omega

end System

end SNet.Distrib
