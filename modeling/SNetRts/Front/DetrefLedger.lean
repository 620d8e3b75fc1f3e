import SNetRts.Front.DetrefNodes
import Mathlib.Data.List.Perm.Basic

/-!
# The calls of a landing keep the counts

The invariant is that the reference counts are exact for the stacks of all data records, and that what
the landings at work have still to do will settle the detrefs of their records. Every call keeps it.
-/

namespace SNet.Front.Detrefs

open List

open Lib SNet.Sync

variable {V : Type}

/-! ## The invariant -/

/-- The detrefs allocated, and their counts for the given records. -/
structure Ledger (s : State V) (recs : List (Record V)) : Prop where
  nodup : (s.detrefs.map Ref.id).Nodup
  fresh : ∀ e ∈ s.detrefs, e.id < s.fresh
  exact : RefCount.Exact (s.detrefs.map Ref.id) s.refcount (recs.map stack)

structure Inv (s : State V) : Prop where
  ledger : Ledger s s.records
  kept : ∀ c ∈ s.busy, c.Kept
  bare : ∀ l, (s.node l).Bare

variable {s s' : State V} {c : Context V} {recs recs' : List (Record V)} {rec : Record V}
  {d : DetrefId} {e : Ref}

theorem Ledger.perm (h : Ledger s recs) (hp : recs.Perm recs') : Ledger s recs' :=
  ⟨h.nodup, h.fresh, h.exact.perm (hp.map stack)⟩

theorem Ledger.congr (h : Ledger s recs) (hd : s'.detrefs = s.detrefs) (hr : s'.refcount = s.refcount)
    (hf : s'.fresh = s.fresh) : Ledger s' recs := by
  refine ⟨?_, ?_, ?_⟩
  · rw [hd]
    exact h.nodup
  · rw [hd, hf]
    exact h.fresh
  · rw [hd, hr]
    exact h.exact

theorem Ledger.fresh_notMem (h : Ledger s recs) : s.fresh ∉ s.detrefs.map Ref.id := by
  intro hm
  obtain ⟨e, he, heq⟩ := List.mem_map.1 hm
  exact Nat.lt_irrefl _ (heq ▸ h.fresh e he)

theorem records_resume (s : State V) (c : Context V) :
    (s.resume c).records.Perm (c.records ++ s.records) := by
  unfold State.records State.resume
  rw [flatMap_cons, append_assoc, append_assoc, append_assoc]
  exact perm_append_comm_assoc _ _ _

theorem Inv.resume (hledger : Ledger s (c.records ++ s.records)) (hkept : c.Kept)
    (hothers : ∀ b ∈ s.busy, b.Kept) (hbare : ∀ l, (s.node l).Bare) : Inv (s.resume c) where
  ledger := (hledger.perm (records_resume s c).symm).congr rfl rfl rfl
  kept := fun b hb => (mem_cons.1 hb).elim (fun h => h ▸ hkept) (hothers b)
  bare := hbare

theorem Inv.pick (h : Inv s) {k : Nat} (hk : s.busy[k]? = some c) :
    Inv ({ s with busy := s.busy.eraseIdx k }.resume c) := by
  obtain ⟨hlt, rfl⟩ := List.getElem?_eq_some_iff.1 hk
  have hperm : (s.busy[k] :: s.busy.eraseIdx k).Perm s.busy := getElem_cons_eraseIdx_perm hlt
  refine ⟨(h.ledger.perm ?_).congr rfl rfl rfl, fun b hb => h.kept b (hperm.mem_iff.1 hb), h.bare⟩
  unfold State.records State.resume
  exact ((hperm.symm.flatMap_right _).append_left _).append_right _

theorem Inv.open (h : Inv (s.resume c)) : Ledger s (c.records ++ s.records) ∧ c.Kept ∧
    (∀ b ∈ s.busy, b.Kept) ∧ ∀ l, (s.node l).Bare :=
  ⟨(h.ledger.perm (records_resume s c)).congr rfl rfl rfl, h.kept c mem_cons_self,
    fun b hb => h.kept b (mem_cons_of_mem _ hb), h.bare⟩

/-! ## The functions of `xdet.c` -/

section Calls

variable {rest : List (Record V)} {seqnr : Int} {leave : LandingId}

theorem Ledger.alloc (h : Ledger s recs) (n : Nat)
    (hexact : RefCount.Exact (s.detrefs.map Ref.id ++ [s.fresh]) (Function.update s.refcount s.fresh n)
      (recs'.map stack)) : Ledger (s.alloc seqnr leave n) recs' := by
  have hids : (s.alloc seqnr leave n).detrefs.map Ref.id = s.detrefs.map Ref.id ++ [s.fresh] :=
    map_append
  refine ⟨?_, fun e he => ?_, ?_⟩
  · rw [hids]
    exact nodup_append.2 ⟨h.nodup, nodup_singleton _, fun a ha b hb heq =>
      h.fresh_notMem (mem_singleton.1 hb ▸ heq ▸ ha)⟩
  · change e.id < s.fresh + 1
    rcases mem_append.1 he with he | he
    · exact Nat.lt_succ_of_lt (h.fresh e he)
    · rw [mem_singleton.1 he]
      exact Nat.lt_succ_self _
  · rw [hids]
    exact hexact

theorem Ledger.add (h : Ledger s (rec :: rest)) :
    Ledger (s.alloc seqnr leave 2) ({ rec with detref := some (s.fresh :: stack rec) } :: rest) :=
  h.alloc 2 (h.exact.add h.fresh_notMem)

theorem Ledger.addUnused (h : Ledger s recs) : Ledger (s.alloc seqnr leave 0) recs :=
  h.alloc 0 (h.exact.addUnused h.fresh_notMem)

theorem Ledger.copy (h : Ledger s (rec :: rest)) (out : Record V) (hout : out.detref = rec.detref) :
    Ledger { s with refcount := RefCount.incrAll s.refcount (stack rec) } (out :: rec :: rest) := by
  refine ⟨h.nodup, h.fresh, ?_⟩
  rw [map_cons, stack_eq_of_detref hout]
  exact h.exact.copy

theorem Ledger.release {ds : List DetrefId} (h : Ledger s (rec :: rest)) (hd : stack rec = d :: ds) :
    Ledger (s.release rec d ds).1 ((s.release rec d ds).2 :: rest) := by
  refine ⟨h.nodup, h.fresh, ?_⟩
  have hstack : stack (s.release rec d ds).2 = ds := by
    cases ds <;> rfl
  have hexact := h.exact
  rw [map_cons, hd] at hexact
  rw [map_cons, hstack]
  exact hexact.pop

theorem Ledger.drop (h : Ledger s (rec :: rest)) (hnil : stack rec = []) : Ledger s rest := by
  have hexact := h.exact
  rw [map_cons, hnil] at hexact
  exact ⟨h.nodup, h.fresh, RefCount.Exact.cons_nil_iff.1 hexact⟩

theorem Ledger.push (h : Ledger s rest) (rec : Record V) (hnil : stack rec = []) : Ledger s (rec :: rest) := by
  refine ⟨h.nodup, h.fresh, ?_⟩
  rw [map_cons, hnil]
  exact RefCount.Exact.cons_nil_iff.2 h.exact

theorem Ledger.dealloc (h : Ledger s recs) (hzero : s.refcount d = 0) (hd : s.dealloc d = .done s') :
    Ledger s' recs ∧ s'.records = s.records ∧ s'.busy = s.busy ∧ s'.node = s.node := by
  unfold State.dealloc at hd
  split at hd
  · cases hd
    refine ⟨⟨?_, fun e he => h.fresh e (mem_of_mem_filter he), ?_⟩, rfl, rfl, rfl⟩
    · exact h.nodup.sublist (filter_sublist.map _)
    · refine h.exact.free (fun x hx => ?_) fun x hx hno => ?_
      · exact (filter_sublist.map _).subset hx
      · obtain ⟨e, he, rfl⟩ := List.mem_map.1 hx
        by_cases heq : e.id = d
        · rw [heq]
          exact hzero
        · exact absurd (mem_map_of_mem (mem_filter.2 ⟨he, by simpa using heq⟩)) hno
  · cases hd

theorem records_unqueue (s : State V) (d : DetrefId) : (s.unqueue d).records.Perm s.records := by
  have hsplit : (s.queued d ++ (s.recfifo.filter fun q => q.1 != d).map Prod.snd).Perm
      (s.recfifo.map Prod.snd) := by
    unfold State.queued
    rw [← map_append]
    exact (filter_append_perm _ _).map _
  unfold State.records State.unqueue
  refine List.Perm.trans ?_ (hsplit.append_left _)
  rw [append_assoc, append_assoc, append_assoc]
  exact (perm_append_comm_assoc _ _ _).append_left _

end Calls

/-! ## A landing at work -/

section Exec

variable {op : Op V} {ops : List (Op V)}

theorem Context.Kept.next (h : Context.Kept { c with ops := op :: ops }) (hneutral : op.neutral = true) :
    Context.Kept { c with ops } := by
  refine ⟨fun hnone => (noEnter_cons.1 (h.gone hnone)).2, fun rec hrec => ?_⟩
  exact (h.held rec hrec).imp (fun hl => ⟨hl.1, (noEnter_cons.1 hl.2).2⟩) (settles_cons hneutral).1

theorem Context.Kept.again (h : Context.Kept { c with ops }) (hneutral : op.neutral = true)
    (henters : op.enters = false) : Context.Kept { c with ops := op :: ops } := by
  refine ⟨fun hnone => noEnter_cons.2 ⟨henters, h.gone hnone⟩, fun rec hrec => ?_⟩
  exact (h.held rec hrec).imp (fun hl => ⟨hl.1, noEnter_cons.2 ⟨henters, hl.2⟩⟩)
    (settles_cons hneutral).2

theorem Context.Kept.without (h : NoEnter ops) (made : List (Record V)) :
    Context.Kept ⟨c.land, none, made, ops⟩ :=
  ⟨fun _ => h, nofun⟩

theorem records_flight (s : State V) (rec : Record V) :
    { s with flight := s.flight ++ [rec] }.records.Perm (rec :: s.records) := by
  unfold State.records
  rw [append_assoc, append_assoc, append_assoc, singleton_append]
  exact perm_middle

theorem records_queue (s : State V) (d : DetrefId) (rec : Record V) :
    { s with recfifo := s.recfifo ++ [(d, rec)] }.records.Perm (rec :: s.records) := by
  unfold State.records
  rw [map_append, ← append_assoc]
  exact perm_append_singleton _ _

theorem Ledger.head {rest : List (Record V)} (h : Ledger s (c.records ++ rest)) (hrec : c.record = some rec) :
    Ledger s (rec :: (c.made ++ rest)) := by
  unfold Context.records at h
  rw [hrec] at h
  exact h

theorem Context.Kept.noEnter (h : Context.Kept { c with ops := op :: ops }) (hrec : c.record = some rec)
    (hop : Settles (op :: ops) → NoEnter ops) : NoEnter ops :=
  (h.held rec hrec).elim (fun hl => (noEnter_cons.1 hl.2).2) hop

theorem Inv.copy {out : Record V} (h : Inv (s.resume { c with ops := .copy out :: ops }))
    (hs : s.exec { c with ops } (.copy out) = .done s') : Inv s' := by
  obtain ⟨hledger, hkept, hothers, hbare⟩ := h.open
  have hnext := hkept.next rfl
  have hmade : ∀ (out : Record V) (rest : List (Record V)),
      (out :: (c.record.toList ++ c.made ++ rest)).Perm (c.record.toList ++ (c.made ++ [out]) ++ rest) := by
    intro out rest
    rw [← append_assoc, append_assoc _ [out], singleton_append]
    exact perm_middle.symm
  simp only [State.exec] at hs
  split at hs
  · cases hs
    refine Inv.resume ?_ ⟨hnext.gone, hnext.held⟩ hothers hbare
    exact (hledger.push { out with detref := none } rfl).perm (hmade _ _)
  · rename_i rec hrec
    split at hs
    · cases hs
      refine Inv.resume ?_ ⟨hnext.gone, hnext.held⟩ hothers hbare
      have hhead : Ledger s (rec :: (c.made ++ s.records)) := hledger.head hrec
      have hcopy : Ledger { s with refcount := RefCount.incrAll s.refcount (stack rec) }
          ({ out with detref := rec.detref } :: (c.record.toList ++ c.made ++ s.records)) := by
        rw [hrec]
        exact hhead.copy _ rfl
      exact hcopy.perm (hmade _ _)
    · cases hs

theorem Inv.put (h : Inv (s.resume { c with ops := .put :: ops }))
    (hs : s.exec { c with ops } .put = .done s') : Inv s' := by
  obtain ⟨hledger, hkept, hothers, hbare⟩ := h.open
  have hnext := hkept.next rfl
  simp only [State.exec] at hs
  split at hs
  · cases hs
  · rename_i out made hmade
    cases hs
    refine Inv.resume ?_ ⟨hnext.gone, hnext.held⟩ hothers hbare
    refine (hledger.perm ?_).congr rfl rfl rfl
    change (c.record.toList ++ c.made ++ s.records).Perm (c.record.toList ++ made ++ _)
    rw [show c.made = out :: made from hmade]
    refine List.Perm.trans ?_ ((records_flight s out).symm.append_left _)
    rw [append_assoc, append_assoc, cons_append]
    exact perm_middle.symm.append_left _

theorem Inv.gone {rest : List (Record V)} (hledger : Ledger s (c.records ++ rest))
    (hrec : c.record = some rec) (hs : s.records.Perm (rec :: rest)) (hnoEnter : NoEnter ops)
    (hothers : ∀ b ∈ s.busy, b.Kept) (hbare : ∀ l, (s.node l).Bare) :
    Inv (s.resume { c with record := none, ops }) := by
  refine Inv.resume (hledger.perm ?_) (.without hnoEnter _) hothers hbare
  change (c.record.toList ++ c.made ++ rest).Perm (c.made ++ s.records)
  rw [hrec]
  exact perm_middle.symm.trans (hs.symm.append_left _)

theorem Inv.forward (h : Inv (s.resume { c with ops := .forward :: ops }))
    (hs : s.exec { c with ops } .forward = .done s') : Inv s' := by
  obtain ⟨hledger, hkept, hothers, hbare⟩ := h.open
  simp only [State.exec] at hs
  split at hs
  · cases hs
  · rename_i rec hrec
    cases hs
    have hnoEnter : NoEnter ops := hkept.noEnter hrec id
    exact Inv.gone (s := { s with flight := s.flight ++ [rec] }) (hledger.congr rfl rfl rfl) hrec
      (records_flight s rec) hnoEnter hothers hbare

theorem not_noEnter (hop : op.enters = true) : ¬ NoEnter (op :: ops) := by
  intro h
  have := (noEnter_cons.1 h).1
  rw [hop] at this
  cases this

theorem Inv.detrefAdd {seqnr : Int} {leave : LandingId} (hop : op.enters = true)
    (hneutral : op.neutral = true) (h : Inv (s.resume { c with ops := op :: ops })) :
    Inv (s.detrefAdd { c with ops } seqnr leave) := by
  obtain ⟨hledger, hkept, hothers, hbare⟩ := h.open
  have hsettles : c.record ≠ none ∧ Settles ops := by
    cases hrec : c.record with
    | none => exact absurd (hkept.gone hrec) (not_noEnter hop)
    | some rec =>
      rcases hkept.held rec hrec with ⟨-, hno⟩ | hsettles
      · exact absurd hno (not_noEnter hop)
      · exact ⟨nofun, (settles_cons hneutral).1 hsettles⟩
  obtain ⟨rec, hrec⟩ := Option.ne_none_iff_exists'.1 hsettles.1
  unfold State.detrefAdd
  refine Inv.resume ?_ ⟨fun hnone => ?_, fun _ _ => Or.inr hsettles.2⟩ hothers hbare
  · have hhead : Ledger s (rec :: (c.made ++ s.records)) := hledger.head hrec
    have hsame : (s.alloc seqnr leave 2).records = s.records := rfl
    simpa [Context.records, hrec, hsame] using hhead.add
  · simp [hrec] at hnone

theorem Inv.count (h : Inv (s.resume c)) (enter : LandingId → DetEnter) :
    Inv ({ s with enter }.resume c) :=
  ⟨h.ledger.congr rfl rfl rfl, h.kept, h.bare⟩

theorem Inv.detEnter {isDet : Bool} {collland : LandingId}
    (h : Inv (s.resume { c with ops := .detEnter isDet collland :: ops }))
    (hs : s.exec { c with ops } (.detEnter isDet collland) = .done s') : Inv s' := by
  simp only [State.exec] at hs
  split at hs
  · cases hs
  · rename_i e he
    cases hs
    exact (h.count _).detrefAdd rfl rfl

theorem Inv.detrefAddLoop {leave : LandingId} {alone : Bool}
    (h : Inv (s.resume { c with ops := .detrefAdd leave alone :: ops }))
    (hs : s.exec { c with ops } (.detrefAdd leave alone) = .done s') : Inv s' := by
  simp only [State.exec] at hs
  split at hs
  · cases hs
  · cases hs
    exact (h.count _).detrefAdd rfl rfl

theorem Inv.detrefDestroy (h : Inv (s.resume { c with ops := .detrefDestroy :: ops }))
    (hs : s.exec { c with ops } .detrefDestroy = .done s') : Inv s' := by
  obtain ⟨hledger, hkept, hothers, hbare⟩ := h.open
  simp only [State.exec] at hs
  cases hrec : c.record with
  | none =>
    rw [hrec] at hs
    cases hs
    rw [← hrec]
    refine Inv.resume hledger ⟨fun hnone => (noEnter_cons.1 (hkept.gone hnone)).2, fun rec h => ?_⟩
      hothers hbare
    rw [hrec] at h
    cases h
  | some rec =>
    rw [hrec] at hs
    have hnoEnter : NoEnter ops := hkept.noEnter hrec id
    have hhead : Ledger s (rec :: (c.made ++ s.records)) := hledger.head hrec
    simp only [Option.elim, State.detrefDestroy] at hs
    split at hs
    · rename_i hnil
      cases hs
      refine Inv.resume ?_ ⟨nofun, fun r hr => ?_⟩ hothers hbare
      · exact (hhead.drop hnil).push { rec with detref := none } rfl
      · cases hr
        exact Or.inl ⟨rfl, hnoEnter⟩
    · rename_i d ds hd
      split at hs
      · cases hs
      · split at hs
        · cases hs
        · cases hs
          refine Inv.resume ?_ ⟨nofun, fun r hr => Or.inr hnoEnter⟩ hothers hbare
          exact (hhead.release hd).congr rfl rfl rfl

theorem Inv.lost (hop : op = .destroy ∨ op = .store) (h : Inv (s.resume { c with ops := op :: ops })) :
    Inv (s.resume { c with record := none, ops }) := by
  obtain ⟨hledger, hkept, hothers, hbare⟩ := h.open
  have hsettles : ¬ Settles (op :: ops) := by
    rcases hop with rfl | rfl
    · exact id
    · exact id
  cases hrec : c.record with
  | none =>
    refine Inv.resume ?_ (.without (noEnter_cons.1 (hkept.gone hrec)).2 _) hothers hbare
    simpa [Context.records, hrec] using hledger
  | some rec =>
    obtain ⟨hnil, hnoEnter⟩ := (hkept.held rec hrec).resolve_right hsettles
    refine Inv.resume ?_ (.without (noEnter_cons.1 hnoEnter).2 _) hothers hbare
    have hhead : Ledger s (rec :: (c.made ++ s.records)) := hledger.head hrec
    simpa [Context.records] using hhead.drop hnil

theorem Inv.goOn {t : State V} (h : Inv (s.resume { c with ops := op :: ops }))
    (hneutral : op.neutral = true)
    (hledger : Ledger s (c.records ++ s.records) → Ledger t (c.records ++ s.records))
    (hrecords : t.records.Perm s.records) (hbusy : t.busy = s.busy) (hnode : t.node = s.node) :
    Inv (t.resume { c with ops }) := by
  obtain ⟨h1, hkept, hothers, hbare⟩ := h.open
  refine Inv.resume ?_ (hkept.next hneutral) (hbusy ▸ hothers) (hnode ▸ hbare)
  exact (hledger h1).perm (hrecords.symm.append_left _)

theorem Inv.again {op' : Op V} (h : Inv (s.resume { c with ops })) (hneutral : op'.neutral = true)
    (henters : op'.enters = false) : Inv (s.resume { c with ops := op' :: ops }) := by
  obtain ⟨hledger, hkept, hothers, hbare⟩ := h.open
  exact Inv.resume hledger (hkept.again hneutral henters) hothers hbare

theorem find_eq_some (hf : s.find d = some e) : e.id = d := by
  have := find?_some hf
  simpa using this

theorem Inv.dequeue (h : Inv (s.resume { c with ops := .dequeue :: ops }))
    (hs : s.exec { c with ops } .dequeue = .done s') : Inv s' := by
  simp only [State.exec, State.dequeue] at hs
  split at hs
  · cases hs
    exact h.goOn rfl id (.refl _) rfl rfl
  · rename_i e _ _
    split at hs
    · cases hs
    · cases hs
      have hgo := h.goOn (t := { s.unqueue e.id with counter := Function.update s.counter c.land e.seqnr })
        rfl (fun hl => hl.congr rfl rfl rfl) (records_unqueue s e.id) rfl rfl
      exact hgo.again rfl rfl

theorem Inv.dealloc {op' : Op V} (h : Inv (s.resume { c with ops := op :: ops }))
    (hneutral : op.neutral = true) (hneutral' : op'.neutral = true) (henters : op'.enters = false)
    (hzero : s.refcount d = 0)
    (hs : (s.dealloc d).bind (fun s => .done (s.resume { c with ops := op' :: ops })) = .done s') :
    Inv s' := by
  obtain ⟨t, ht, hs⟩ := Outcome.bind_eq_done.1 hs
  cases hs
  obtain ⟨-, hrecords, hbusy, hnode⟩ := h.open.1.dealloc hzero ht
  refine Inv.again ?_ hneutral' henters
  exact h.goOn hneutral (fun hl => (hl.dealloc hzero ht).1) (hrecords ▸ .refl _) hbusy hnode

theorem Inv.check (h : Inv (s.resume { c with ops := .check :: ops }))
    (hs : s.exec { c with ops } .check = .done s') : Inv s' := by
  simp only [State.exec, State.check] at hs
  split at hs
  · cases hs
  · split at hs
    · rename_i hzero
      exact h.dealloc rfl rfl rfl hzero hs
    · cases hs
      exact (h.goOn rfl id (.refl _) rfl rfl).again rfl rfl

theorem Inv.scan {k : Nat} (h : Inv (s.resume { c with ops := .scan k :: ops }))
    (hs : s.exec { c with ops } (.scan k) = .done s') : Inv s' := by
  simp only [State.exec, State.scan] at hs
  split at hs
  · rename_i e item _ _
    split at hs
    · cases hs
      have hgo := h.goOn (t := s.unqueue item.id) rfl (fun hl => hl.congr rfl rfl rfl)
        (records_unqueue s item.id) rfl rfl
      exact hgo.again rfl rfl
    · cases hs
      exact h.goOn rfl id (.refl _) rfl rfl
  · cases hs
  · cases hs
    exact h.goOn rfl id (.refl _) rfl rfl

theorem Inv.drain (h : Inv (s.resume { c with ops := .drain :: ops }))
    (hs : s.exec { c with ops } .drain = .done s') : Inv s' := by
  simp only [State.exec, State.drain] at hs
  split at hs
  · cases hs
    exact h.goOn rfl id (.refl _) rfl rfl
  · split at hs
    · cases hs
      exact h.goOn rfl id (.refl _) rfl rfl
    · rename_i hpos
      exact h.dealloc rfl rfl rfl (Nat.eq_zero_of_not_pos hpos) hs

theorem stack_of_top (hf : (stack rec).head?.bind s.find = some e) :
    stack rec = e.id :: (stack rec).tail := by
  cases hst : stack rec with
  | nil =>
    rw [hst] at hf
    cases hf
  | cons d ds =>
    rw [hst] at hf
    rw [find_eq_some hf]
    rfl

theorem Inv.feedbackLeave (h : Inv (s.resume { c with ops := .feedbackLeave :: ops }))
    (hs : s.exec { c with ops } .feedbackLeave = .done s') : Inv s' := by
  obtain ⟨hledger, hkept, hothers, hbare⟩ := h.open
  obtain ⟨rec, hrec, hs⟩ := Outcome.elim_eq_done.1 hs
  unfold State.feedbackLeave at hs
  split at hs
  · cases hs
  · rename_i e he
    split at hs
    · cases hs
    · cases hs
      have hstack := stack_of_top he
      have hsettles : Settles ops := by
        rcases hkept.held rec hrec with ⟨hnil, -⟩ | hsettles
        · rw [hnil] at hstack
          cases hstack
        · exact hsettles
      exact Inv.resume ((hledger.head hrec).release hstack) ⟨nofun, fun _ _ => Or.inr hsettles⟩ hothers
        hbare

theorem Inv.collectOther (h : Inv (s.resume { c with ops := .collect :: ops })) (hrec : c.record = some rec)
    (hs : s.collectOther { c with ops } rec = .done s') : Inv s' := by
  obtain ⟨hledger, hkept, hothers, hbare⟩ := h.open
  have hnoEnter : NoEnter ops := hkept.noEnter hrec id
  unfold State.collectOther at hs
  split at hs
  · cases hs
    exact Inv.gone (s := { s with flight := s.flight ++ [rec] }) (hledger.congr rfl rfl rfl) hrec
      (records_flight s rec) hnoEnter hothers hbare
  · rename_i tail _
    cases hs
    refine Inv.gone (s := { s.alloc (tail.seqnr + 1) c.land 0 with
      recfifo := s.recfifo ++ [(s.fresh, rec)] }) ?_ hrec (records_queue s s.fresh rec)
      (noEnter_cons.2 ⟨rfl, hnoEnter⟩) hothers hbare
    exact hledger.addUnused.congr rfl rfl rfl

theorem Inv.collect (h : Inv (s.resume { c with ops := .collect :: ops }))
    (hs : s.exec { c with ops } .collect = .done s') : Inv s' := by
  obtain ⟨hledger, hkept, hothers, hbare⟩ := h.open
  obtain ⟨rec, hrec, hs⟩ := Outcome.elim_eq_done.1 hs
  have hnoEnter : NoEnter ops := hkept.noEnter hrec id
  unfold State.collect at hs
  split at hs
  · rename_i e he
    split at hs
    · split at hs
      · cases hs
      · cases hs
        have hreleased : Ledger { (s.release rec e.id (stack rec).tail).1 with
            recfifo := s.recfifo ++ [(e.id, (s.release rec e.id (stack rec).tail).2)] }
            ({ c with record := some (s.release rec e.id (stack rec).tail).2 }.records ++ s.records) :=
          ((hledger.head hrec).release (stack_of_top he)).congr rfl rfl rfl
        exact Inv.gone (c := { c with record := some (s.release rec e.id (stack rec).tail).2 })
          hreleased rfl (records_queue s e.id _) (noEnter_cons.2 ⟨rfl, hnoEnter⟩) hothers hbare
    · exact h.collectOther hrec hs
  · split at hs
    · exact h.collectOther hrec hs
    · cases hs

theorem Inv.exec (h : Inv (s.resume { c with ops := op :: ops }))
    (hs : s.exec { c with ops } op = .done s') : Inv s' := by
  cases op with
  | copy out => exact h.copy hs
  | put => exact h.put hs
  | forward => exact h.forward hs
  | detEnter isDet collland => exact h.detEnter hs
  | detrefAdd leave alone => exact h.detrefAddLoop hs
  | detrefDestroy => exact h.detrefDestroy hs
  | destroy =>
    cases hs
    exact h.lost (Or.inl rfl)
  | store =>
    cases hs
    exact h.lost (Or.inr rfl)
  | collect => exact h.collect hs
  | dequeue => exact h.dequeue hs
  | check => exact h.check hs
  | scan k => exact h.scan hs
  | feedbackLeave => exact h.feedbackLeave hs
  | drain => exact h.drain hs
  | fail => cases hs

end Exec

end SNet.Front.Detrefs
