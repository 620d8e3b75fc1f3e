import SNetRts.Front.DetrefLedger

/-!
# Detref counts are exact

As long as no record that has detrefs is dropped, the reference count of a detref is zero when no data
record has it, and otherwise one more than the number of these, in every state that a front network
reaches. So no collector waits for a record that does not exist any more.
-/

namespace SNet.Front.Detrefs

open List

open Lib SNet.Sync

variable {V : Type} {s s' : State V} {c : Context V} {a : Act V}

/-! ## Records made and written -/

theorem busy_dealloc {op : Op V} {ops : List (Op V)}
    (hs : (s.dealloc d).bind (fun t => .done (t.resume { c with ops := op :: ops })) = .done s') :
    s'.busy = { c with ops := op :: ops } :: s.busy := by
  obtain ⟨t, ht, hs⟩ := Outcome.bind_eq_done.1 hs
  unfold State.dealloc at ht
  split at ht
  · cases ht
    cases hs
    rfl
  · cases ht

theorem exec_balance {op : Op V} {ops : List (Op V)} (hs : s.exec { c with ops } op = .done s') :
    ∃ c', s'.busy = c' :: s.busy ∧
      c'.made.length + balance c'.ops = c.made.length + balance (op :: ops) := by
  have hsame : ∀ ops' : List (Op V), balance ops' = balance (op :: ops) →
      (c.made.length : Int) + balance ops' = c.made.length + balance (op :: ops) := fun ops' h => by rw [h]
  cases op with
  | copy out =>
    simp only [State.exec] at hs
    split at hs
    · cases hs
      refine ⟨_, rfl, ?_⟩
      simp only [length_append, length_singleton, balance_cons, Op.balance]
      omega
    · split at hs
      · cases hs
        refine ⟨_, rfl, ?_⟩
        simp only [length_append, length_singleton, balance_cons, Op.balance]
        omega
      · cases hs
  | put =>
    simp only [State.exec] at hs
    split at hs
    · cases hs
    · rename_i out made hmade
      cases hs
      refine ⟨_, rfl, ?_⟩
      rw [show c.made = out :: made from hmade]
      simp only [length_cons, balance_cons, Op.balance]
      omega
  | forward =>
    simp only [State.exec] at hs
    split at hs
    · cases hs
    · cases hs
      exact ⟨_, rfl, hsame _ (by simp [Op.balance])⟩
  | detEnter isDet collland =>
    simp only [State.exec] at hs
    split at hs
    · cases hs
    · cases hs
      exact ⟨_, rfl, hsame _ (by simp [Op.balance])⟩
  | detrefAdd leave alone =>
    simp only [State.exec] at hs
    split at hs
    · cases hs
    · cases hs
      exact ⟨_, rfl, hsame _ (by simp [Op.balance])⟩
  | detrefDestroy =>
    simp only [State.exec] at hs
    cases hrec : c.record with
    | none =>
      rw [hrec] at hs
      cases hs
      exact ⟨_, rfl, hsame _ (by simp [Op.balance])⟩
    | some rec =>
      rw [hrec] at hs
      simp only [Option.elim, State.detrefDestroy] at hs
      split at hs
      · cases hs
        exact ⟨_, rfl, hsame _ (by simp [Op.balance])⟩
      · repeat' split at hs
        all_goals cases hs
        all_goals exact ⟨_, rfl, rfl⟩
  | destroy =>
    cases hs
    exact ⟨_, rfl, hsame _ (by simp [Op.balance])⟩
  | store =>
    cases hs
    exact ⟨_, rfl, hsame _ (by simp [Op.balance])⟩
  | collect =>
    obtain ⟨rec, -, hs⟩ := Outcome.elim_eq_done.1 hs
    simp only [State.collect, State.collectOther] at hs
    repeat' split at hs
    all_goals cases hs
    all_goals exact ⟨_, rfl, hsame _ (by simp [Op.balance])⟩
  | dequeue =>
    simp only [State.exec, State.dequeue] at hs
    repeat' split at hs
    all_goals cases hs
    all_goals exact ⟨_, rfl, hsame _ (by simp [Op.balance])⟩
  | check =>
    simp only [State.exec, State.check] at hs
    split at hs
    · cases hs
    · split at hs
      · exact ⟨_, busy_dealloc hs, hsame _ (by simp [Op.balance])⟩
      · cases hs
        exact ⟨_, rfl, hsame _ (by simp [Op.balance])⟩
  | scan k =>
    simp only [State.exec, State.scan] at hs
    repeat' split at hs
    all_goals cases hs
    all_goals exact ⟨_, rfl, hsame _ (by simp [Op.balance])⟩
  | feedbackLeave =>
    obtain ⟨rec, -, hs⟩ := Outcome.elim_eq_done.1 hs
    unfold State.feedbackLeave at hs
    repeat' split at hs
    all_goals cases hs
    exact ⟨_, rfl, hsame _ (by simp [Op.balance])⟩
  | drain =>
    simp only [State.exec, State.drain] at hs
    split at hs
    · cases hs
      exact ⟨_, rfl, hsame _ (by simp [Op.balance])⟩
    · split at hs
      · cases hs
        exact ⟨_, rfl, hsame _ (by simp [Op.balance])⟩
      · exact ⟨_, busy_dealloc hs, rfl⟩
  | fail => cases hs

/-! ## Steps and runs -/

theorem step_balanced (h : ∀ c ∈ s.busy, c.Balanced) (hs : s.step a = .done s') :
    ∀ c ∈ s'.busy, c.Balanced := by
  have hcons : ∀ {t : State V} {c : Context V}, (∀ b ∈ t.busy, b.Balanced) → c.Balanced →
      ∀ b ∈ c :: t.busy, b.Balanced :=
    fun ht hc b hb => (mem_cons.1 hb).elim (fun h => h ▸ hc) (ht b)
  cases a with
  | input rec =>
    cases hs
    exact h
  | take l i viaAccess fuel =>
    simp only [State.step] at hs
    split at hs
    · cases hs
    · split at hs
      · cases hs
      · obtain ⟨r, hr, hs⟩ := Outcome.bind_eq_done.1 hs
        cases hs
        refine hcons (t := s) h ?_
        change ((0 : Nat) : Int) + balance r.2.2 = 0
        rw [process_balance hr]
        rfl
  | go k =>
    simp only [State.step] at hs
    split at hs
    · cases hs
    · rename_i c hc
      have hothers : ∀ b ∈ s.busy.eraseIdx k, b.Balanced := fun b hb => h b (mem_of_mem_eraseIdx hb)
      have hbal : c.Balanced := h c (mem_of_getElem? hc)
      split at hs
      · cases hs
        exact hothers
      · rename_i op ops hops
        obtain ⟨c', hbusy, hc'⟩ := exec_balance hs
        rw [hbusy]
        refine hcons (t := { s with busy := s.busy.eraseIdx k }) hothers ?_
        unfold Context.Balanced at hbal ⊢
        rw [hops] at hbal
        exact hc'.trans hbal
  | note i =>
    simp only [State.step] at hs
    split at hs
    · cases hs
    · rename_i l _
      split at hs
      · cases hs
      · cases hs
        refine hcons (t := s) h ?_
        change ((0 : Nat) : Int) + balance (s.node l).noted = 0
        cases s.node l <;> rfl
  | trigger l =>
    simp only [State.step] at hs
    split at hs
    · cases hs
    · split at hs
      · cases hs
        refine hcons (t := s) h ?_
        change ((0 : Nat) : Int) + balance _ = 0
        simp [Op.balance]
      · cases hs
  | receiveSync l terminated =>
    simp only [State.step] at hs
    repeat' split at hs
    all_goals cases hs
    exact h
  | starLeader l counters =>
    simp only [State.step] at hs
    repeat' split at hs
    all_goals cases hs
    exact h
  | becomeIdentity l =>
    simp only [State.step] at hs
    repeat' split at hs
    all_goals cases hs
    all_goals exact h

theorem Inv.become {l : LandingId} {n : Node V} (h : Inv s) (hn : n.Bare) : Inv (s.become l n) := by
  refine ⟨h.ledger.congr rfl rfl rfl, h.kept, fun l' => ?_⟩
  change (Function.update s.node l n l').Bare
  by_cases hl : l' = l
  · subst hl
    rw [Function.update_self]
    exact hn
  · rw [Function.update_of_ne hl]
    exact h.bare l'

theorem Inv.start (h : Inv s) {l : LandingId} {ops : List (Op V)} (hnoEnter : NoEnter ops) :
    Inv (s.resume ⟨l, none, [], ops⟩) :=
  Inv.resume h.ledger ⟨fun _ => hnoEnter, nofun⟩ h.kept h.bare

theorem noEnter_noted (n : Node V) : NoEnter n.noted := by
  cases n with
  | collector | feedback3 | dripback2 => exact noEnter_cons.2 ⟨rfl, noEnter_nil⟩
  | box | filter | nameshift | identity | sync | zipper | parallel | split | star | feedback1 | output =>
    exact noEnter_nil

theorem noEnter_writeAll (outs : List (Record V)) : NoEnter (writeAll outs) := by
  intro op hop
  obtain ⟨out, -, hop⟩ := mem_flatMap.1 hop
  rcases mem_pair.1 hop with rfl | rfl
  · rfl
  · rfl

theorem Inv.take {l : LandingId} {i : Nat} {viaAccess : Bool} {fuel : Nat} (h : Inv s)
    (hkeeps : ∀ rec, s.flight[i]? = some rec → (s.node l).Keeps rec)
    (hs : s.step (.take l i viaAccess fuel) = .done s') : Inv s' := by
  simp only [State.step] at hs
  split at hs
  · cases hs
  · split at hs
    · cases hs
    · rename_i rec hrec
      obtain ⟨r, hr, hs⟩ := Outcome.bind_eq_done.1 hs
      cases hs
      have hsound := process_sound (h.bare l) (hkeeps rec hrec) hr
      obtain ⟨hlt, hget⟩ := List.getElem?_eq_some_iff.1 hrec
      have hflight : (rec :: s.flight.eraseIdx i).Perm s.flight := by
        have hp := getElem_cons_eraseIdx_perm hlt
        rwa [hget] at hp
      have hrecords : s.records.Perm (rec :: { s with flight := s.flight.eraseIdx i }.records) := by
        unfold State.records
        exact (hflight.symm.append_right _).append_right _
      have hbecome := h.become (l := l) hsound.stores
      refine Inv.resume ?_ ⟨nofun, fun rec' hrec' => ?_⟩ h.kept hbecome.bare
      · have hledger := h.ledger.perm hrecords
        refine ⟨hledger.nodup, hledger.fresh, ?_⟩
        have hexact := hledger.exact
        rw [map_cons, ← hsound.detref] at hexact
        exact hexact
      · cases hrec'
        rw [hsound.detref]
        exact hsound.settles

theorem Inv.step (h : Inv s) (hbal : ∀ c ∈ s.busy, c.Balanced) (hok : Keeps s a)
    (hs : s.step a = .done s') : Inv s' := by
  cases a with
  | input rec =>
    cases hs
    refine ⟨(h.ledger.push { rec with detref := none } rfl).perm (records_flight s _).symm |>.congr
      rfl rfl rfl, h.kept, h.bare⟩
  | take l i viaAccess fuel => exact h.take hok hs
  | go k =>
    simp only [State.step] at hs
    split at hs
    · cases hs
    · rename_i c hc
      have hpick := h.pick hc
      split at hs
      · rename_i hops
        cases hs
        obtain ⟨hledger, hkept, hothers, hbare⟩ := hpick.open
        -- the landing is done: its record has no detrefs, and there are no others
        have hmade : c.made = [] := by
          have := hbal c (mem_of_getElem? hc)
          unfold Context.Balanced at this
          rw [hops, balance_nil] at this
          exact eq_nil_of_length_eq_zero (by omega)
        refine ⟨?_, hothers, hbare⟩
        unfold Context.records at hledger
        rw [hmade] at hledger
        cases hrec : c.record with
        | none =>
          rw [hrec] at hledger
          exact hledger
        | some rec =>
          rw [hrec] at hledger
          have hnil := (hkept.held rec hrec).resolve_right (by rw [hops]; exact id)
          exact hledger.drop hnil.1
      · rename_i op ops hops
        have hc' : c = { c with ops := op :: ops } := by rw [← hops]
        rw [hc'] at hpick
        exact hpick.exec hs
  | note i =>
    simp only [State.step] at hs
    split at hs
    · cases hs
    · split at hs
      · cases hs
      · cases hs
        exact Inv.start (s := { s with notes := s.notes.eraseIdx i })
          ⟨h.ledger.congr rfl rfl rfl, h.kept, h.bare⟩ (noEnter_noted _)
  | trigger l =>
    simp only [State.step] at hs
    split at hs
    · cases hs
    · split at hs
      · rename_i boxfun concurrency isDet collland hnode
        cases hs
        have henter : (boxEnter concurrency isDet collland : List (Op V)) = [] := by
          unfold boxEnter
          refine if_neg fun ⟨h2, hdet⟩ => ?_
          rcases hok boxfun concurrency isDet collland hnode with hlt | hno
          · omega
          · rw [hno] at hdet
            cases hdet
        refine h.start ?_
        rw [henter]
        exact noEnter_append.2 ⟨noEnter_writeAll _, noEnter_cons.2 ⟨rfl, noEnter_nil⟩⟩
      · cases hs
  | receiveSync l terminated =>
    simp only [State.step] at hs
    repeat' split at hs
    all_goals cases hs
    exact h.become fun _ => False.elim
  | starLeader l counters =>
    simp only [State.step] at hs
    split at hs
    · cases hs
    · split at hs
      · rename_i entry _ _
        cases hs
        have hbecome : Inv (s.become l (.star entry true)) := h.become fun _ => False.elim
        exact ⟨hbecome.ledger.congr rfl rfl rfl, hbecome.kept, hbecome.bare⟩
      · cases hs
  | becomeIdentity l =>
    simp only [State.step] at hs
    repeat' split at hs
    all_goals cases hs
    all_goals exact h.become fun _ => False.elim

theorem inv_init (net : Network V) : Inv (State.init net) := by
  refine ⟨⟨nodup_nil, nofun, RefCount.exact_nil _⟩, nofun, fun l => ?_⟩
  change (net.node l).Bare
  intro rec hrec
  cases hn : net.node l with
  | sync patterns land =>
    rw [hn, net.syncInit l patterns land hn] at hrec
    obtain ⟨p, -, hp⟩ := List.mem_map.1 hrec
    cases hp
  | zipper patterns exits land =>
    rw [hn, net.zipperInit l patterns exits land hn] at hrec
    obtain ⟨a, m, hm, -⟩ := hrec
    cases hm
  | box | filter | nameshift | identity | parallel | split | star | collector | feedback1 | feedback3
    | dripback2 | output =>
    rw [hn] at hrec
    exact hrec.elim

/-- The next thing the landing does lets its record go: it destroys it, keeps it in a synchrocell, or is
done. -/
def Context.letsGo (c : Context V) : Bool :=
  match c.ops with
  | [] => true
  | .destroy :: _ => true
  | .store :: _ => true
  | _ => false

/-- The counts of all detrefs are exact. -/
structure ExactCounts (s : State V) : Prop where
  /-- One more than there are records with the detref, or zero if there is none. -/
  counts : ∀ e ∈ s.detrefs,
    s.refcount e.id = if s.holders e.id = 0 then 0 else s.holders e.id + 1
  /-- The records that are stored have no detrefs. -/
  stored : ∀ l rec, (s.node l).Stores rec → stack rec = []
  /-- A record that a landing lets go has no detrefs. -/
  released : ∀ c ∈ s.busy, c.letsGo = true → ∀ rec, c.record = some rec → stack rec = []
  /-- The records that a collector waits for exist. -/
  awaited : ∀ e ∈ s.detrefs, 0 < s.refcount e.id → ∃ rec ∈ s.records, e.id ∈ stack rec

theorem Inv.exactCounts (h : Inv s) : ExactCounts s where
  counts := by
    intro e he
    rw [h.ledger.exact.counts e.id (mem_map_of_mem he)]
    unfold RefCount.countFor RefCount.holders State.holders
    rw [countP_map]
    rfl
  stored := fun l rec hrec => stack_eq_nil (h.bare l rec hrec)
  released := by
    intro c hc hgo rec hrec
    rcases (h.kept c hc).held rec hrec with ⟨hnil, -⟩ | hsettles
    · exact hnil
    · unfold Context.letsGo at hgo
      split at hgo
      · rename_i hops
        rw [hops] at hsettles
        exact hsettles.elim
      · rename_i hops
        rw [hops] at hsettles
        exact hsettles.elim
      · rename_i hops
        rw [hops] at hsettles
        exact hsettles.elim
      · cases hgo
  awaited := by
    intro e he hpos
    obtain ⟨refs, hrefs, hm⟩ := h.ledger.exact.exists_holder (mem_map_of_mem he) hpos
    obtain ⟨rec, hrec, rfl⟩ := List.mem_map.1 hrefs
    exact ⟨rec, hrec, hm⟩

theorem balanced_of_reach {net : Network V} {ok : State V → Act V → Prop}
    (h : Reach State.step ok (State.init net) s) : ∀ c ∈ s.busy, c.Balanced :=
  h.invariant (I := fun s => ∀ c ∈ s.busy, c.Balanced) nofun fun _ _ _ hb _ hs => step_balanced hb hs

def ranged (lower upper : Int) : Record Unit :=
  ⟨.empty, (LabelMap.empty.set 0 lower).set 1 upper, .empty, 0, .binary, none⟩

/-- A deterministic split with its collector; a deterministic parallel dispatcher with two branches and
its collector, and a dispatcher of initialisers, which may be in a branch. -/
def detNetworks : Network Unit where
  node
    | 0 => .split 0 1 ⟨true, false, 1⟩
    | 1 => .collector true false
    | 2 => .parallel [[.createEmpty], [.createEmpty]] ⟨true, false, 3⟩ false ⟨fun _ => ⟨false, 0⟩, none⟩
    | 3 => .collector true false
    | 4 => .parallel [[]] ⟨false, true, 5⟩ false ⟨fun _ => ⟨false, 0⟩, none⟩
    | _ => .identity
  syncInit := by
    intro l patterns land h
    split at h <;> cases h
  zipperInit := by
    intro l patterns exits land h
    split at h <;> cases h

def splitActs : List (Act Unit) :=
  .input (ranged 1 2) :: .take 0 0 false 0 :: List.replicate 5 (.go 0)

/-- A record comes to a split with an empty tag range, and another one, in a branch of a deterministic
parallel composition, to a dispatcher without ordinary branches. -/
def droppingActs : List (Act Unit) :=
  [.input (ranged 2 1), .take 0 0 false 0, .go 0, .go 0,
    .input (ranged 1 1), .take 2 0 false 0, .go 0, .go 0, .go 0, .take 4 0 false 0, .go 0, .go 0]

end SNet.Front.Detrefs
