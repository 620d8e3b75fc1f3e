import SNetRts.Front.WorkerLinks

/-!
# Read licences

The ledger of the licences is balanced in every run: a record in a queue has a licence, at its descriptor or
at one that was merged into it, whatever the workers steal from each other. So a worker with a licence finds
a record, and every reference of a descriptor is accounted for.
-/

namespace SNet.Front.Work

open Function (update update_of_ne update_self)

open Lib List

variable {W R : Type*} [Fintype W] {s t : State W R}

/-! ## The ledger after a step -/

section ledger

omit [Fintype W] in
theorem SameNet.past (h : SameNet s t) : t.past = s.past := by
  funext d
  unfold State.past
  rw [h.descs, h.desc_kind]

omit [Fintype W] in
theorem SameNet.handles (h : SameNet s t) : t.handles = s.handles := by
  funext d
  unfold State.handles Landing.handles
  rw [h.landings]
  refine Finset.sum_congr rfl fun l _ => ?_
  rw [h.kind, h.ended]

theorem ledger_eq {L : Ledger Nat} (hplaces : Finset.range t.descs = L.places) (hnext : t.past = L.next)
    (hlen : ∀ d, (t.desc d).fifo.length = L.len d) (htickets : ∀ d, t.ledger.tickets d = L.tickets d)
    (hother : ∀ d, t.handles d + t.heldCount d = L.other d) (hrefs : ∀ d, (t.desc d).refs = L.refs d) :
    t.ledger = L :=
  Ledger.ext hplaces hnext (funext hlen) (funext htickets) (funext hother) (funext hrefs)

theorem SameNet.ledger_eq {L : Ledger Nat} (h : SameNet s t) (hplaces : L.places = s.ledger.places)
    (hnext : L.next = s.ledger.next) (hlen : ∀ d, (t.desc d).fifo.length = L.len d)
    (htickets : ∀ d, t.ledger.tickets d = L.tickets d) (hother : ∀ d, s.handles d + t.heldCount d = L.other d)
    (hrefs : ∀ d, (t.desc d).refs = L.refs d) : t.ledger = L := by
  refine Work.ledger_eq ?_ ?_ hlen htickets (fun d => ?_) hrefs
  · rw [hplaces]
    exact congrArg Finset.range h.descs
  · rw [hnext]
    exact h.past
  · rw [← hother d]
    exact congrArg (fun f : Nat → Nat => f d + t.heldCount d) h.handles

variable [DecidableEq W] {w : W} {x : Worker R}

theorem tickets_worker (hw : t.worker = update s.worker w x) (d : Nat) :
    t.ledger.tickets d + (s.worker w).licences d = s.ledger.tickets d + x.licences d := by
  change ∑ v, (t.worker v).licences d + _ = ∑ v, (s.worker v).licences d + _
  rw [hw]
  exact sum_worker (fun x => x.licences d) s.worker w x

theorem held_worker (hw : t.worker = update s.worker w x) (d : Nat) :
    t.heldCount d + (s.worker w).pc.held.count d = s.heldCount d + x.pc.held.count d := by
  unfold State.heldCount
  rw [hw]
  exact sum_worker (fun x => x.pc.held.count d) s.worker w x

omit [Fintype W] in
theorem setPc_worker (t : State W R) (w : W) (pc : Pc R) :
    (t.setPc w pc).worker = update t.worker w ⟨(t.worker w).item, pc⟩ := rfl

omit [Fintype W] [DecidableEq W] in
theorem licences_of_pc {x : Worker R} {pc : Pc R} (h : ∀ d, pc.licences d = x.pc.licences d) (d : Nat) :
    (Worker.mk x.item pc).licences d = x.licences d := by
  unfold Worker.licences
  rw [h]

end ledger

theorem Counts.same (h : Counts s) (hledger : t.ledger = s.ledger) (hdescs : t.descs = s.descs)
    (hdesc : t.desc = s.desc) : Counts t := by
  refine ⟨hledger ▸ h.balanced, fun d hd => ?_⟩
  rw [hdesc]
  exact h.closed d (hdescs ▸ hd)

theorem Counts.of_ledger (h : Counts s) {d : Nat} (hbalanced : t.ledger.Balanced) (hdescs : t.descs = s.descs)
    (hdesc : ∀ e, e ≠ d → t.desc e = s.desc e) (hself : (t.desc d).closed = true ↔ (t.desc d).refs = 0) : Counts t := by
  refine ⟨hbalanced, fun e he => ?_⟩
  by_cases hed : e = d
  · rw [hed]
    exact hself
  · rw [hdesc e hed]
    exact h.closed e (hdescs ▸ he)

section steps

variable [DecidableEq W]

theorem Counts.step (h : Counts s) (hs : SameNet s t) {w : W} {x : Worker R}
    (hw : t.worker = update s.worker w x) (hdesc : t.desc = s.desc)
    (hlic : ∀ d, x.licences d = (s.worker w).licences d)
    (hheld : ∀ d, x.pc.held.count d = (s.worker w).pc.held.count d) : Counts t := by
  refine h.same (hs.ledger_eq rfl rfl (fun d => ?_) (fun d => ?_) (fun d => ?_) fun d => ?_) hs.descs hdesc
  · rw [hdesc]
    rfl
  · have := tickets_worker hw d
    have := hlic d
    omega
  · have := held_worker hw d
    have := hheld d
    change _ = s.handles d + s.heldCount d
    omega
  · rw [hdesc]
    rfl

theorem Counts.stepPc (h : Counts s) (hs : SameNet s t) {w : W} {pc : Pc R}
    (hw : t.worker = update s.worker w ⟨(s.worker w).item, pc⟩) (hdesc : t.desc = s.desc)
    (hlic : ∀ d, pc.licences d = (s.worker w).pc.licences d)
    (hheld : ∀ d, pc.held.count d = (s.worker w).pc.held.count d) : Counts t :=
  h.step hs hw hdesc (licences_of_pc hlic) hheld

omit [Fintype W] [DecidableEq W] in
theorem held_of_quiet {pc : Pc R} (h : pc.quiet = true) : pc.held = [] := by
  cases pc with
  | idle | passing _ _ | looting _ _ _ => rfl
  | reading _ | serving _ _ _ | forwarding _ _ | releasing _ _ => cases h

omit [Fintype W] [DecidableEq W] in
theorem start_licences (d e : Nat) (item : R) : (s.start d item).licences e = 0 := by
  unfold State.start
  split <;> rfl

omit [Fintype W] [DecidableEq W] in
theorem start_held (d : Nat) (item : R) : (s.start d item).held = [d] := by
  unfold State.start
  split <;> rfl

omit [DecidableEq W] in
theorem Inv.past_ne (h : Inv s) {d e : Nat} (hd : d < s.descs) (hpast : s.past d = some e) : d ≠ e := by
  rintro rfl
  obtain ⟨f, -, hlead, hf⟩ := h.counts.balanced.ends d (Inv.mem_places hd)
  exact hlead.not_back hf hpast (.refl d)

theorem lead_ledger (h : Inv s) {w : W} {d next n : Nat} {x : Worker R} (hd : d < s.descs)
    (hkind : s.kind d = .garbage next)
    (hlic : ∀ e, x.licences e + (if e = d then n else 0) = (s.worker w).licences e + if e = next then n else 0)
    (hpc : (s.worker w).pc.quiet = true) (hpc' : x.pc.quiet = true) :
    ((s.letGo d n).setWorker w x).ledger = s.ledger.pass d next n ∧ n ≤ s.ledger.tickets d := by
  have hne := h.past_ne hd (past_of_garbage hd hkind)
  have hsame : SameNet s ((s.letGo d n).setWorker w x) := (SameNet.letGo hd (h.counts.closed d hd) n).trans (.workers _)
  have hmine : (s.worker w).licences d ≤ s.ledger.tickets d :=
    Finset.single_le_sum_of_canonicallyOrdered (f := fun w => (s.worker w).licences d) (Finset.mem_univ w)
  have hn : n ≤ s.ledger.tickets d := by
    have := hlic d
    rw [if_pos rfl, if_neg hne] at this
    omega
  refine ⟨hsame.ledger_eq rfl rfl (fun e => ?_) (fun e => ?_) (fun e => ?_) fun e => ?_, hn⟩
  · by_cases he : e = d
    · subst he
      simp [State.letGo]
      rfl
    · simp [State.letGo, update_of_ne he]
      rfl
  · have hsum := tickets_worker (t := (s.letGo d n).setWorker w x) (s := s) rfl e
    have := hlic e
    simp only [Ledger.pass, Ledger.at_]
    by_cases hen : e = next
    · subst hen
      rw [if_neg (Ne.symm hne), if_pos rfl] at this
      rw [update_self, update_of_ne (Ne.symm hne)]
      omega
    · rw [update_of_ne hen]
      rw [if_neg hen] at this
      by_cases hed : e = d
      · subst hed
        rw [if_pos rfl] at this
        rw [update_self]
        omega
      · rw [if_neg hed] at this
        rw [update_of_ne hed]
        omega
  · have hsum := held_worker (t := (s.letGo d n).setWorker w x) (s := s) rfl e
    rw [held_of_quiet hpc, held_of_quiet hpc'] at hsum
    change _ = s.handles e + s.heldCount e
    omega
  · simp only [Ledger.pass, Ledger.at_]
    by_cases he : e = d
    · subst he
      rw [update_self]
      simp [State.letGo]
      rfl
    · rw [update_of_ne he]
      simp [State.letGo, update_of_ne he]
      rfl

omit [Fintype W] [DecidableEq W] in
theorem desc_at {desc : Nat → Desc R} {d : Nat} {y : Desc R} (f : Desc R → Nat) {n : Nat} (hn : f y = n)
    (e : Nat) : f (update desc d y e) = Ledger.at_ (fun e => f (desc e)) d n e := by
  subst hn
  exact Function.apply_update (fun _ => f) desc d y e

omit [Fintype W] [DecidableEq W] in
theorem desc_same {desc : Nat → Desc R} {d : Nat} {y : Desc R} (f : Desc R → Nat) (hn : f y = f (desc d))
    (e : Nat) : f (update desc d y e) = f (desc e) :=
  (desc_at f hn e).trans (congrFun (Function.update_eq_self d fun e => f (desc e)) e)

omit [Fintype W] [DecidableEq W] in
theorem at_succ (g : Nat → Nat) (d e : Nat) : Ledger.at_ g d (g d + 1) e = g e + if e = d then 1 else 0 := by
  unfold Ledger.at_
  rw [Function.update_apply]
  split
  · next he => rw [he]
  · rfl

omit [Fintype W] [DecidableEq W] in
theorem at_pred (g : Nat → Nat) (d e : Nat) : Ledger.at_ g d (g d - 1) e = g e - if e = d then 1 else 0 := by
  unfold Ledger.at_
  rw [Function.update_apply]
  split
  · next he => rw [he]
  · rfl

theorem other_succ {w : W} {x : Worker R} (hw : t.worker = update s.worker w x) {d e : Nat}
    (hheld : x.pc.held.count e = (s.worker w).pc.held.count e + if e = d then 1 else 0) :
    s.handles e + t.heldCount e = Ledger.at_ s.ledger.other d (s.ledger.other d + 1) e := by
  have hsum := held_worker hw e
  refine Eq.trans ?_ (at_succ s.ledger.other d e).symm
  change _ = s.handles e + s.heldCount e + _
  omega

section changes

variable {w : W} {x : Worker R} {d : Nat} {y : Desc R} (hs : SameNet s t)
  (hw : t.worker = update s.worker w x) (hdesc : t.desc = update s.desc d y)

include hs hw hdesc

theorem put_ledger (hlen : y.fifo.length = (s.desc d).fifo.length + 1) (hrefs : y.refs = (s.desc d).refs + 1)
    (hlic : ∀ e, x.licences e = (s.worker w).licences e + if e = d then 1 else 0)
    (hheld : ∀ e, x.pc.held.count e = (s.worker w).pc.held.count e) : t.ledger = s.ledger.put d := by
  refine hs.ledger_eq rfl rfl (fun e => ?_) (fun e => ?_) (fun e => ?_) fun e => ?_
  · rw [hdesc]
    exact desc_at (fun y => y.fifo.length) hlen e
  · have hsum := tickets_worker hw e
    have := hlic e
    refine Eq.trans ?_ (at_succ s.ledger.tickets d e).symm
    omega
  · have hsum := held_worker hw e
    have := hheld e
    change _ = s.handles e + s.heldCount e
    omega
  · rw [hdesc]
    exact desc_at Desc.refs hrefs e

theorem hold_ledger (hlen : y.fifo.length = (s.desc d).fifo.length) (hrefs : y.refs = (s.desc d).refs + 1)
    (hlic : ∀ e, x.licences e = (s.worker w).licences e)
    (hheld : ∀ e, x.pc.held.count e = (s.worker w).pc.held.count e + if e = d then 1 else 0) :
    t.ledger = s.ledger.hold d := by
  refine hs.ledger_eq rfl rfl (fun e => ?_) (fun e => ?_) (fun e => ?_) fun e => ?_
  · rw [hdesc]
    exact desc_same (fun y => y.fifo.length) hlen e
  · have hsum := tickets_worker hw e
    have := hlic e
    change _ = s.ledger.tickets e
    omega
  · exact other_succ hw (hheld e)
  · rw [hdesc]
    exact desc_at Desc.refs hrefs e

theorem fetch_ledger (hlen : y.fifo.length = (s.desc d).fifo.length - 1) (hrefs : y.refs = (s.desc d).refs)
    (hlic : ∀ e, x.licences e + (if e = d then 1 else 0) = (s.worker w).licences e)
    (hheld : ∀ e, x.pc.held.count e = (s.worker w).pc.held.count e + if e = d then 1 else 0) :
    t.ledger = s.ledger.fetch d ∧ s.ledger.tickets d ≠ 0 := by
  have hmine : (s.worker w).licences d ≤ s.ledger.tickets d :=
    Finset.single_le_sum_of_canonicallyOrdered (f := fun w => (s.worker w).licences d) (Finset.mem_univ w)
  have hone := hlic d
  rw [if_pos rfl] at hone
  refine ⟨hs.ledger_eq rfl rfl (fun e => ?_) (fun e => ?_) (fun e => ?_) fun e => ?_, by omega⟩
  · rw [hdesc]
    exact desc_at (fun y => y.fifo.length) hlen e
  · have hsum := tickets_worker hw e
    have := hlic e
    refine Eq.trans ?_ (at_pred s.ledger.tickets d e).symm
    omega
  · exact other_succ hw (hheld e)
  · rw [hdesc]
    exact desc_same Desc.refs hrefs e

end changes

omit [DecidableEq W] in
theorem drop_ledger {d : Nat} {u : State W R} (hu : u.desc = s.desc) (hdescs : u.descs = s.descs)
    (hpast : u.past = s.past) (hw : ∀ v e, (u.worker v).licences e = (s.worker v).licences e)
    (hother : ∀ e, u.handles e + u.heldCount e + (if e = d then 1 else 0) = s.handles e + s.heldCount e) :
    (u.letGo d 1).ledger = s.ledger.drop d ∧ s.ledger.other d ≠ 0 := by
  have hone := hother d
  rw [if_pos rfl] at hone
  have hland : ∀ e, ((u.letGo d 1).desc e).landing = (u.desc e).landing := by
    intro e
    by_cases he : e = d
    · subst he
      simp [State.letGo]
    · simp [State.letGo, update_of_ne he]
  refine ⟨Work.ledger_eq ?_ (funext fun e => ?_) (fun e => ?_) (fun e => ?_) (fun e => ?_) fun e => ?_, ?_⟩
  · exact congrArg Finset.range hdescs
  · change (u.letGo d 1).past e = s.past e
    rw [← hpast]
    unfold State.past State.kind
    rw [hland]
    rfl
  · change ((u.letGo d 1).desc e).fifo.length = (s.desc e).fifo.length
    rw [← hu]
    by_cases he : e = d
    · subst he
      simp [State.letGo]
    · simp [State.letGo, update_of_ne he]
  · exact Finset.sum_congr rfl fun v _ => hw v e
  · have := hother e
    change u.handles e + u.heldCount e = _
    simp only [Ledger.drop, Ledger.at_]
    by_cases he : e = d
    · subst he
      rw [if_pos rfl] at this
      rw [update_self]
      change _ = s.handles e + s.heldCount e - 1
      omega
    · rw [if_neg he] at this
      rw [update_of_ne he]
      change _ = s.handles e + s.heldCount e
      omega
  · simp only [Ledger.drop, Ledger.at_]
    by_cases he : e = d
    · subst he
      rw [update_self]
      simp [State.letGo, hu]
      rfl
    · rw [update_of_ne he]
      simp [State.letGo, update_of_ne he, hu]
      rfl
  · change s.handles d + s.heldCount d ≠ 0
    omega

omit [DecidableEq W] in
theorem Counts.drop (h : Inv s) {d : Nat} {u : State W R} (hu : u.desc = s.desc) (hdescs : u.descs = s.descs)
    (hpast : u.past = s.past) (hw : ∀ v e, (u.worker v).licences e = (s.worker v).licences e)
    (hother : ∀ e, u.handles e + u.heldCount e + (if e = d then 1 else 0) = s.handles e + s.heldCount e) :
    Counts (u.letGo d 1) := by
  obtain ⟨hledger, hne⟩ := drop_ledger hu hdescs hpast hw hother
  refine h.counts.of_ledger (d := d) ?_ hdescs (fun e he => ?_) ?_
  · rw [hledger]
    exact h.counts.balanced.drop hne
  · rw [← hu]
    exact update_of_ne he _ _
  · simp [State.letGo]

omit [Fintype W] [DecidableEq W] in
theorem handles_update {l : Nat} {y : Landing W} (hl : l < s.landings) (hlands : t.landings = s.landings)
    (hland : t.landing = update s.landing l y) (e : Nat) :
    t.handles e + (s.landing l).handles e = s.handles e + y.handles e := by
  unfold State.handles
  rw [hlands, hland]
  exact sum_update_add (Finset.mem_range.2 hl) (fun x : Landing W => x.handles e) s.landing y

omit [Fintype W] [DecidableEq W] in
theorem past_eq (hdescs : t.descs = s.descs) (hland : ∀ d, (t.desc d).landing = (s.desc d).landing)
    (hkind : ∀ l e, (t.landing l).kind = .garbage e ↔ (s.landing l).kind = .garbage e) : t.past = s.past := by
  funext d
  unfold State.past
  rw [hdescs]
  split
  · have hk : ∀ e, t.kind d = .garbage e ↔ s.kind d = .garbage e := by
      intro e
      unfold State.kind
      rw [hland]
      exact hkind _ e
    cases hs : s.kind d with
    | garbage e => rw [(hk e).2 hs]
    | node _ | identity _ =>
      cases ht : t.kind d with
      | garbage e =>
        rw [(hk e).1 ht] at hs
        cases hs
      | node _ | identity _ => rfl
  · rfl

omit [DecidableEq W] in
theorem Counts.close (h : Inv s) {l d : Nat} {outs : List Nat} (hkind : (s.landing l).kind = .node outs)
    (hd : d ∈ outs) : Counts ((s.setKind l (.node (outs.erase d))).letGo d 1) := by
  have hmem : d ∈ (s.landing l).kind.outs := by
    rw [hkind]
    exact hd
  have hended : (s.landing l).ended = false := h.net.ended_of_node hkind
  refine Counts.drop h rfl rfl (past_eq rfl (fun _ => rfl) fun m e => ?_) (fun _ _ => rfl) (fun e => ?_)
  · by_cases hm : m = l
    · rw [hm, setKind_kind, hkind]
      exact ⟨nofun, nofun⟩
    · rw [setKind_kind_of_ne hm]
  · have hsum := handles_update (t := s.setKind l (.node (outs.erase d))) (h.net.lt_of_out hmem) rfl rfl e
    have hold : (s.landing l).handles e = outs.count e := by
      unfold Landing.handles
      rw [hended, hkind]
      rfl
    have hnew : ({ s.landing l with kind := .node (outs.erase d) } : Landing W).handles e = (outs.erase d).count e := by
      unfold Landing.handles
      simp only [hended]
      rfl
    rw [hold, hnew] at hsum
    change _ + s.heldCount e + _ = _
    by_cases he : e = d
    · subst he
      have hpos : 1 ≤ outs.count e := one_le_count_iff.2 hd
      rw [count_erase_self] at hsum
      rw [if_pos rfl]
      omega
    · rw [count_erase_of_ne he] at hsum
      rw [if_neg he]
      omega

omit [DecidableEq W] in
theorem Counts.end_ (h : Inv s) {l d : Nat}
    (hkind : (s.landing l).kind = .identity d ∨ (s.landing l).kind = .garbage d)
    (hended : (s.landing l).ended = false) : Counts ((s.end_ l).letGo d 1) := by
  have houts : (s.landing l).kind.outs = [d] := by rcases hkind with hk | hk <;> rw [hk] <;> rfl
  refine Counts.drop h rfl rfl (past_eq rfl (fun _ => rfl) fun m e => ?_) (fun _ _ => rfl) (fun e => ?_)
  · by_cases hm : m = l
    · subst hm
      simp [State.end_]
    · simp [State.end_, update_of_ne hm]
  · have hsum := handles_update (t := s.end_ l) (h.net.lt_of_out (d := d) (by rw [houts]; exact mem_singleton.2 rfl))
      rfl rfl e
    have hold : (s.landing l).handles e = [d].count e := by
      unfold Landing.handles
      rw [hended, houts]
      rfl
    have hnew : ({ s.landing l with ended := true } : Landing W).handles e = 0 := rfl
    rw [hold, hnew] at hsum
    change _ + s.heldCount e + _ = _
    by_cases he : e = d
    · subst he
      rw [count_singleton_self] at hsum
      rw [if_pos rfl]
      omega
    · rw [count_singleton, if_neg (by simpa using Ne.symm he)] at hsum
      rw [if_neg he]
      omega

omit [Fintype W] [DecidableEq W] in
theorem handles_replace {x : Landing W} {d next : Nat} (hended : x.ended = false)
    (hgarbage : x.kind.isGarbage = false) (hnodup : x.kind.outs.Nodup) (hd : d ∈ x.kind.outs)
    (hnext : next ∉ x.kind.outs) (e : Nat) :
    (Landing.mk (x.kind.replace d next) x.lock x.ended).handles e + (if e = d then 1 else 0) =
      x.handles e + if e = next then 1 else 0 := by
  have hiff := @mem_replace_iff d next x.kind e hgarbage hd
  have hdn : d ≠ next := fun heq => hnext (heq ▸ hd)
  unfold Landing.handles
  simp only [hended, Bool.false_eq_true, if_false]
  rw [(nodup_replace hnodup hnext).count, hnodup.count]
  by_cases hed : e = d
  · subst hed
    rw [if_pos rfl, if_pos hd, if_neg hdn, if_neg]
    exact fun h => (hiff.1 h).elim hdn fun h => h.2 rfl
  · rw [if_neg hed, Nat.add_zero]
    by_cases hen : e = next
    · subst hen
      rw [if_pos (hiff.2 (.inl rfl)), if_neg hnext, if_pos rfl]
    · rw [if_neg hen, Nat.add_zero]
      by_cases hmem : e ∈ x.kind.outs
      · rw [if_pos hmem, if_pos (hiff.2 (.inr ⟨hmem, hed⟩))]
      · rw [if_neg hmem, if_neg]
        exact fun h => (hiff.1 h).elim hen fun h => hmem h.1

omit [DecidableEq W] in
theorem Counts.merged (h : Inv s) {w : W} {l d next : Nat} (hwrites : Inv.Out s w l d)
    (hout : d ∈ (s.landing l).kind.outs) (hkind : s.kind d = .identity next) (hlock : s.lockOf d = none) :
    Counts (s.merged l d next) := by
  let L := (s.desc d).landing
  have hL : (s.landing L).kind = .identity next := hkind
  have hmemL : next ∈ (s.landing L).kind.outs := by
    rw [hL]
    exact mem_singleton.2 rfl
  have hopen := h.open_of_other hwrites.lt hwrites.other
  have hLended : (s.landing L).ended = false := by
    rw [Bool.eq_false_iff]
    intro htrue
    rcases (h.net.ended L htrue).2 d hwrites.lt rfl with hmem | hclosed
    · cases hmem
    · rw [hopen] at hclosed
      cases hclosed
  have hne := hwrites.landing_ne hlock
  have hnext : next < s.descs := h.net.out_lt L next hmemL
  have hland : (s.desc next).landing ≠ L := h.net.landing_ne hkind hnext
  have hdn : d ≠ next := fun heq => hland (heq ▸ rfl)
  have hLgarbage : (s.landing L).kind.isGarbage = false := by
    rw [hL]
    rfl
  have hnotin : next ∉ (s.landing l).kind.outs := fun hmem =>
    hne ((h.net.source L hLgarbage hLended next hmemL).symm.trans
      (h.net.source l hwrites.garbage hwrites.ended next hmem))
  have hlive := h.net.live L hLgarbage hLended next hmemL
  have hpastn : s.ledger.next next = none := past_eq_none hlive
  have hother : 1 ≤ s.ledger.other next := h.other_of_out hmemL hLended
  have hdgarbage : (s.kind d).isGarbage = false := by
    rw [hkind]
    rfl
  let P : Nat → Prop := fun a => a < s.descs ∧ (s.desc a).landing = L
  have hkindP : ∀ a, P a → s.kind a = .identity next := by
    rintro a ⟨-, ha⟩
    unfold State.kind
    rw [ha, hL]
  have hhandles : ∀ e, (s.merged l d next).handles e + (if e = d then 1 else 0) =
      s.handles e + if e = next then 1 else 0 := by
    intro e
    let y : Landing W := ⟨.garbage next, (s.landing (s.desc d).landing).lock, (s.landing (s.desc d).landing).ended⟩
    let u : State W R := { s with landing := update s.landing (s.desc d).landing y }
    have h1 := handles_update (t := u) (y := y) (h.net.landing_lt d hwrites.lt) rfl rfl e
    have hsame : y.handles e = (s.landing (s.desc d).landing).handles e := by
      unfold Landing.handles
      rw [show (s.landing (s.desc d).landing).kind = .identity next from hkind]
      rfl
    have h2 := handles_update (s := u) (t := s.merged l d next)
      (y := ⟨(s.landing l).kind.replace d next, (s.landing l).lock, (s.landing l).ended⟩)
      (h.net.lt_of_out hout) rfl rfl e
    rw [show u.landing l = s.landing l from update_of_ne (Ne.symm hne) _ _] at h2
    have h3 := handles_replace hwrites.ended hwrites.garbage (h.net.nodup l) hout hnotin e
    omega
  have hledger : (s.merged l d next).ledger = ((s.ledger.link P d next).hold next).drop d := by
    refine ledger_eq rfl (funext fun a => ?_) (fun e => ?_) (fun _ => rfl) (fun e => ?_) fun e => ?_
    · change _ = if P a then some next else s.past a
      unfold State.past
      change (if a < s.descs then _ else none) = _
      by_cases ha : a < s.descs
      · rw [if_pos ha, if_pos ha, merged_desc_kind hne]
        by_cases haL : (s.desc a).landing = (s.desc d).landing
        · rw [if_pos haL, if_pos ⟨ha, haL⟩]
        · rw [if_neg haL, if_neg (c := P a) fun h => haL h.2]
          by_cases hal : (s.desc a).landing = l
          · rw [if_pos hal]
            have hka : s.kind a = (s.landing l).kind := by
              unfold State.kind
              rw [hal]
            rw [hka]
            have hg := hwrites.garbage
            cases hl : (s.landing l).kind with
            | node _ | identity _ => rfl
            | garbage _ =>
              rw [hl] at hg
              cases hg
          · rw [if_neg hal]
      · rw [if_neg ha, if_neg ha, if_neg (c := P a) fun h => ha h.1]
    · change _ = (s.ledger.link P d next).len e
      simp only [Ledger.link, Ledger.at_]
      by_cases hen : e = next
      · rw [hen, merged_desc_next, update_self]
        exact length_append
      · rw [update_of_ne hen]
        by_cases hed : e = d
        · rw [hed, merged_desc_self hdn, update_self]
          rfl
        · rw [merged_desc_of_ne hed hen, update_of_ne hed]
          rfl
    · have := hhandles e
      change _ + s.heldCount e = _
      simp only [Ledger.drop, Ledger.hold, Ledger.link, Ledger.at_]
      by_cases hed : e = d
      · subst hed
        rw [if_pos rfl, if_neg hdn] at this
        rw [update_self, update_of_ne hdn]
        change _ = s.handles e + s.heldCount e - 1
        omega
      · rw [if_neg hed] at this
        rw [update_of_ne hed]
        by_cases hen : e = next
        · subst hen
          rw [if_pos rfl] at this
          rw [update_self]
          change _ = s.handles e + s.heldCount e + 1
          omega
        · rw [if_neg hen] at this
          rw [update_of_ne hen]
          change _ = s.handles e + s.heldCount e
          omega
    · simp only [Ledger.drop, Ledger.hold, Ledger.link, Ledger.at_]
      by_cases hen : e = next
      · rw [hen, merged_desc_next, update_of_ne (Ne.symm hdn), update_self, update_self]
        rfl
      · by_cases hed : e = d
        · rw [hed, merged_desc_self hdn, update_self, update_of_ne hdn, update_of_ne hdn]
          rfl
        · rw [merged_desc_of_ne hed hen, update_of_ne hed, update_of_ne hen, update_of_ne hen]
          rfl
  have hlink : (s.ledger.link P d next).Balanced := by
    refine h.counts.balanced.link (fun a ha => past_eq_none (by rw [hkindP a ha]; rfl))
      (fun a ha => Inv.mem_places ha.1) hpastn (Inv.mem_places hnext) (fun hP => hland hP.2) ⟨hwrites.lt, rfl⟩
      fun p hp hpd => (h.counts.closed p hp.1).1 ?_
    by_contra hnot
    exact hpd (h.net.sole p hp.1 d hwrites.lt hp.2 (Bool.eq_false_iff.2 hnot) hopen (by rw [hkindP p hp]; rfl))
  refine ⟨?_, fun e he => ?_⟩
  · rw [hledger]
    refine (hlink.hold next).drop ?_
    simp only [Ledger.hold, Ledger.link, Ledger.at_]
    rw [update_of_ne hdn]
    exact Nat.ne_of_gt hwrites.other
  · by_cases hen : e = next
    · rw [hen, merged_desc_next]
      have := h.open_of_other hnext hother
      change (s.desc next).closed = true ↔ _ + 1 = 0
      rw [this]
      exact iff_of_false Bool.false_ne_true (Nat.succ_ne_zero _)
    · by_cases hed : e = d
      · rw [hed, merged_desc_self hdn]
        exact decide_eq_true_iff
      · rw [merged_desc_of_ne hed hen]
        exact h.counts.closed e he

omit [DecidableEq W] in
theorem Counts.opened (h : Inv s) {l : Nat} {outs : List Nat} {land : Option Nat}
    (hkind : (s.landing l).kind = .node outs) (hl : l < s.landings)
    (hland : ∀ m, land = some m → m < s.landings ∧ (s.landing m).kind.isNode = true) :
    Counts (s.opened l outs land) := by
  let d := s.descs
  have hfresh := h.net.freshLanding s.landings (Nat.le_refl _)
  have hself : (s.opened l outs land).desc d = ⟨land.getD s.landings, l, [], 1, false⟩ := update_self _ _ _
  have hold : ∀ e, e ≠ d → (s.opened l outs land).desc e = s.desc e := fun e he => update_of_ne he _ _
  have hended : (s.landing l).ended = false := h.net.ended_of_node hkind
  -- nobody has heard of the descriptor
  have hnoHandle : ∀ m, (s.landing m).handles d = 0 := by
    intro m
    unfold Landing.handles
    split
    · rfl
    · exact count_eq_zero.2 fun hmem => Nat.lt_irrefl d (h.net.out_lt m d hmem)
  have hnoHeld : ∀ v, (s.worker v).pc.held.count d = 0 := by
    intro v
    refine count_eq_zero.2 fun hmem => Nat.lt_irrefl d ((h.known v).pc d ?_)
    cases hpc : (s.worker v).pc with
    | serving _ _ _ | forwarding _ _ | releasing _ _ => rwa [hpc] at hmem
    | idle | passing _ _ | looting _ _ _ | reading _ =>
      rw [hpc] at hmem
      cases hmem
  have hnoLicence : ∀ v, (s.worker v).licences d = 0 := by
    intro v
    have hitem : (s.worker v).item d = none := by
      by_contra hsome
      exact Nat.lt_irrefl d ((h.known v).item d hsome)
    have hpcs : d ∉ (s.worker v).pc.descs := fun hmem => Nat.lt_irrefl d ((h.known v).pc d hmem)
    unfold Worker.licences
    rw [hitem]
    cases hpc : (s.worker v).pc with
    | serving _ _ _ | forwarding _ _ | releasing _ _ | idle => rfl
    | passing _ _ | looting _ _ _ | reading _ =>
      rw [hpc] at hpcs
      simp only [Option.getD_none, Pc.licences, Nat.zero_add]
      refine if_neg fun heq => hpcs ?_
      rw [heq]
      exact mem_cons_self
  have hhandles : ∀ e, (s.opened l outs land).handles e = s.handles e + if e = d then 1 else 0 := by
    intro e
    let y : Landing W := ⟨.node (outs ++ [d]), (s.landing l).lock, (s.landing l).ended⟩
    let u : State W R := { s with landing := update s.landing l y }
    have h1 := handles_update (t := u) (y := y) hl rfl rfl e
    have h2 : y.handles e = (s.landing l).handles e + if e = d then 1 else 0 := by
      unfold Landing.handles
      simp only [y, hended, hkind, Bool.false_eq_true, if_false, Kind.outs, count_append, count_singleton,
        beq_iff_eq]
      by_cases he : e = d
      · rw [if_pos he, if_pos he.symm]
      · rw [if_neg he, if_neg (Ne.symm he)]
    have h3 : (s.opened l outs land).handles e = u.handles e := by
      change ∑ m ∈ Finset.range (if land.isNone then s.landings + 1 else s.landings), (u.landing m).handles e =
        ∑ m ∈ Finset.range s.landings, (u.landing m).handles e
      split
      · rw [Finset.sum_range_succ]
        have hnew : (u.landing s.landings).handles e = 0 := by
          rw [show u.landing s.landings = s.landing s.landings from update_of_ne (Nat.ne_of_gt hl) _ _, hfresh]
          rfl
        rw [hnew, Nat.add_zero]
      · rfl
    rw [h2] at h1
    omega
  have hpast : (s.opened l outs land).past = s.past := by
    funext a
    unfold State.past
    by_cases ha : a < s.descs
    · have hne : a ≠ d := Nat.ne_of_lt ha
      rw [if_pos ha, if_pos (show a < (s.opened l outs land).descs from Nat.lt_succ_of_lt ha)]
      have hka : (s.opened l outs land).kind a =
          if (s.desc a).landing = l then .node (outs ++ [d]) else s.kind a := by
        unfold State.kind
        rw [hold a hne]
        change ((s.setKind l (.node (outs ++ [d]))).landing (s.desc a).landing).kind = _
        by_cases hal : (s.desc a).landing = l
        · rw [if_pos hal, hal, setKind_kind]
        · rw [if_neg hal, setKind_kind_of_ne hal]
      rw [hka]
      by_cases hal : (s.desc a).landing = l
      · have : s.kind a = .node outs := by
          unfold State.kind
          rw [hal, hkind]
        rw [if_pos hal, this]
      · rw [if_neg hal]
    · rw [if_neg ha]
      split
      · next hlt =>
        have had : a = d := Nat.le_antisymm (Nat.le_of_lt_succ hlt) (Nat.le_of_not_lt ha)
        have hnode : ((s.opened l outs land).kind a).isNode = true := by
          unfold State.kind
          rw [had, hself]
          change ((s.setKind l (.node (outs ++ [d]))).landing (land.getD s.landings)).kind.isNode = true
          by_cases hm : land.getD s.landings = l
          · rw [hm, setKind_kind]
            rfl
          · rw [setKind_kind_of_ne hm]
            cases hl : land with
            | none =>
              rw [Option.getD_none, hfresh]
              rfl
            | some m => exact (hland m hl).2
        cases hk : (s.opened l outs land).kind a with
        | node _ | identity _ => rfl
        | garbage _ =>
          rw [hk] at hnode
          cases hnode
      · rfl
  have hledger : (s.opened l outs land).ledger = (s.ledger.add d).hold d := by
    refine ledger_eq Finset.range_add_one hpast (fun e => ?_) (fun _ => rfl) (fun e => ?_) fun e => ?_
    · by_cases he : e = d
      · rw [he, hself]
        exact (congrArg (fun x : Desc R => x.fifo.length) (h.net.fresh d (Nat.le_refl _))).symm
      · rw [hold e he]
        rfl
    · rw [hhandles]
      simp only [Ledger.hold, Ledger.add, Ledger.at_]
      change _ + s.heldCount e = _
      by_cases he : e = d
      · rw [if_pos he, he, update_self]
        exact Nat.add_right_comm _ _ _
      · rw [if_neg he, update_of_ne he]
        rfl
    · simp only [Ledger.hold, Ledger.add, Ledger.at_]
      by_cases he : e = d
      · rw [he, hself, update_self]
        exact congrArg (fun x : Desc R => x.refs + 1) (h.net.fresh d (Nat.le_refl _)).symm
      · rw [hold e he, update_of_ne he]
        rfl
  refine ⟨?_, fun e he => ?_⟩
  · rw [hledger]
    refine (h.counts.balanced.add Finset.notMem_range_self (if_neg (Nat.lt_irrefl _)) ?_ ?_ ?_ ?_).hold d
    · exact Finset.sum_eq_zero fun v _ => hnoLicence v
    · exact congrArg (fun x : Desc R => x.fifo.length) (h.net.fresh d (Nat.le_refl _))
    · change ∑ m ∈ Finset.range s.landings, (s.landing m).handles d + ∑ v, (s.worker v).pc.held.count d = 0
      exact Nat.add_eq_zero_iff.2 ⟨Finset.sum_eq_zero fun m _ => hnoHandle m, Finset.sum_eq_zero fun v _ => hnoHeld v⟩
    · exact congrArg (fun x : Desc R => x.refs) (h.net.fresh d (Nat.le_refl _))
  · by_cases hed : e = d
    · rw [hed, hself]
      exact iff_of_false Bool.false_ne_true Nat.one_ne_zero
    · rw [hold e hed]
      exact h.counts.closed e (Nat.lt_of_le_of_ne (Nat.le_of_lt_succ he) hed)

omit [Fintype W] [DecidableEq W] in
theorem held_cons (d out e : Nat) : [d, out].count e = [d].count e + if e = out then 1 else 0 := by
  rw [show [d, out] = [d] ++ [out] from rfl, count_append, count_singleton (b := out)]
  by_cases he : e = out
  · rw [if_pos he, if_pos (by simpa using he.symm)]
  · rw [if_neg he, if_neg (by simpa using Ne.symm he)]

theorem Counts.put (h : Inv s) {w : W} {l out : Nat} {item : R} (pc : Pc R) (hwrites : Inv.Out s w l out)
    (hs : SameNet s t)
    (hw : t.worker = update s.worker w
      ⟨update (s.worker w).item out (some (((s.worker w).item out).getD 0 + 1)), pc⟩)
    (hdesc : t.desc = update s.desc out
      { s.desc out with refs := (s.desc out).refs + 1, fifo := fifoPut (s.desc out).fifo item })
    (hlic : ∀ e, pc.licences e = (s.worker w).pc.licences e)
    (hheld : ∀ e, pc.held.count e = (s.worker w).pc.held.count e) : Counts t := by
  have hledger := put_ledger hs hw hdesc (length_append) rfl (fun e => by
    rw [licences_eq, hlic]
    unfold Worker.licences
    by_cases he : e = out
    · rw [if_pos he, if_pos he, he, Option.getD_some]
      omega
    · rw [if_neg he, if_neg he]
      omega) hheld
  refine h.counts.of_ledger (d := out) ?_ hs.descs (fun e he => ?_) ?_
  · rw [hledger]
    exact h.counts.balanced.put (Inv.mem_places hwrites.lt) (past_eq_none hwrites.live)
  · rw [hdesc, update_of_ne he]
  · rw [hdesc, update_self]
    change (s.desc out).closed = true ↔ _ + 1 = 0
    rw [h.open_of_other hwrites.lt hwrites.other]
    exact ⟨nofun, nofun⟩

theorem Counts.putGet (h : Inv s) {w : W} {l out : Nat} {item : R} (pc : Pc R) (hwrites : Inv.Out s w l out)
    (hs : SameNet s t) (hw : t.worker = update s.worker w ⟨(s.worker w).item, pc⟩)
    (hdesc : t.desc = (s.putGet w out item).desc) (hlic : ∀ e, pc.licences e = (s.worker w).pc.licences e)
    (hheld : ∀ e, pc.held.count e = (s.worker w).pc.held.count e + if e = out then 1 else 0) : Counts t := by
  have hdesc' : t.desc = update s.desc out
      { s.desc out with refs := (s.desc out).refs + 1, fifo := (fifoPutGet (s.desc out).fifo item).2 } := by
    rw [hdesc]
    exact State.receive_desc _ _ _
  have hlen : (fifoPutGet (s.desc out).fifo item).2.length = (s.desc out).fifo.length := by
    have := congrArg List.length (fifoPutGet_eq (s.desc out).fifo item)
    rw [length_cons, fifoPut, length_append, length_singleton] at this
    omega
  have hledger := hold_ledger hs hw hdesc' hlen rfl (licences_of_pc hlic) hheld
  refine h.counts.of_ledger (d := out) ?_ hs.descs (fun e he => ?_) ?_
  · rw [hledger]
    exact h.counts.balanced.hold out
  · rw [hdesc', update_of_ne he]
  · rw [hdesc', update_self]
    change (s.desc out).closed = true ↔ _ + 1 = 0
    rw [h.open_of_other hwrites.lt hwrites.other]
    exact ⟨nofun, nofun⟩

theorem Does.counts (h : Inv s) (hdo : Does s t) : Counts t := by
  cases hdo with
  | input w hpc hlock hnode =>
    exact h.counts.stepPc ((SameNet.setLock h.net.input _).trans (.workers _)) rfl rfl
      (fun _ => by rw [hpc]; rfl) fun _ => by rw [hpc]; rfl
  | take w d n hpc hitem hlock hkind =>
    have hd : d < s.descs := (h.known w).item d (by rw [hitem]; exact Option.some_ne_none _)
    have hsame : SameNet s (((s.setLock (s.desc d).landing (some w)).setItem w d (some n)).setPc w (.reading d)) :=
      ((SameNet.setLock (h.net.landing_lt d hd) _).trans (.workers _)).trans (.workers _)
    rw [setItem_setPc] at hsame ⊢
    refine h.counts.step hsame rfl rfl (fun e => (licences_eq e).trans ?_) fun e => by rw [hpc]; rfl
    unfold Worker.licences
    rw [hpc]
    by_cases he : e = d
    · subst he
      rw [hitem, if_pos rfl]
      simp only [Option.getD_some, Pc.licences, if_pos]
    · simp only [Pc.licences, if_neg he]
      rfl
  | lead w d next n x hd hkind hlic hpc hpc' hknown =>
    obtain ⟨hledger, hn⟩ := lead_ledger h hd hkind hlic hpc hpc'
    refine h.counts.of_ledger (d := d) ?_ rfl (fun e he => update_of_ne he _ _) ?_
    · rw [hledger]
      exact h.counts.balanced.pass (Inv.mem_places hd) (past_of_garbage hd hkind) hn
    · simp [State.letGo]
  | move worker hlic hpc hknown =>
    have hsame : SameNet s { s with worker := worker } := .workers _
    refine h.counts.same (hsame.ledger_eq rfl rfl (fun _ => rfl) hlic (fun d => ?_) fun _ => rfl) rfl rfl
    refine congrArg (s.handles d + ·) (Finset.sum_congr rfl fun v _ => ?_)
    rcases hpc v with heq | ⟨h1, h2⟩
    · exact congrArg (fun pc : Pc R => pc.held.count d) heq
    · rw [held_of_quiet h1]
      exact congrArg (List.count d) (held_of_quiet h2)
  | read w d item rest hpc hfifo =>
    have hd : d < s.descs := (h.known w).pc d (by rw [hpc]; exact mem_cons_self)
    have hplace : (s.desc d).landing ∈ s.places w := by
      unfold State.places
      rw [hpc]
      exact mem_cons_self
    have hread : SameNet s ((s.setDesc d { s.desc d with fifo := rest }).receive d item) :=
      (SameNet.setQueue hd rest (s.desc d).refs).trans (.receive d item)
    obtain ⟨u, hu⟩ : ∃ u, u = (s.setDesc d { s.desc d with fifo := rest }).receive d item := ⟨_, rfl⟩
    have hdesc : u.desc = update s.desc d { s.desc d with fifo := rest } := by
      rw [hu, State.receive_desc]
      rfl
    have hworker : u.worker = s.worker := by
      rw [hu, State.receive_worker]
      rfl
    rw [← hu] at hread ⊢
    have hsame : SameNet s (u.setPc w (s.start d item)) := hread.trans (.workers _)
    have hw : (u.setPc w (s.start d item)).worker = update s.worker w ⟨(s.worker w).item, s.start d item⟩ := by
      rw [setPc_worker, hworker]
    obtain ⟨hledger, hne⟩ := fetch_ledger hsame hw hdesc (by rw [hfifo]; rfl) rfl (fun e => by
        unfold Worker.licences
        rw [hpc]
        simp only [start_licences, Nat.add_zero]
        rfl) fun e => by
        rw [hpc]
        simp only [start_held, count_singleton, beq_iff_eq]
        by_cases he : e = d
        · rw [if_pos he, if_pos he.symm]
          rfl
        · rw [if_neg he, if_neg (Ne.symm he)]
          rfl
    refine h.counts.of_ledger (d := d) ?_ hsame.descs (fun e he => ?_) ?_
    · rw [hledger]
      exact h.counts.balanced.fetch (Inv.mem_places hd) (past_eq_none (h.garbage_of_place hplace)) hne
    · exact (congrFun hdesc e).trans (update_of_ne he _ _)
    · rw [show (u.setPc w (s.start d item)).desc d = _ from (congrFun hdesc d).trans (update_self _ _ _)]
      exact h.counts.closed d hd
  | merge w l d next hwriter hout hkind hlock => exact Counts.merged h (h.out hwriter hout) hout hkind hlock
  | write w l dn cont out item hpc hnode hout =>
    have hwrites := h.out (writer_of_serving hpc hnode) hout
    exact Counts.put h _ hwrites ((SameNet.put hwrites.lt).trans (.note _ _)) rfl rfl (fun _ => rfl) fun _ => rfl
  | writeGo w l d out item hpc hnode hout hlock =>
    have hwrites := h.out (writer_of_serving hpc hnode) hout
    have hsame : SameNet s (((s.putGet w out item).note (s.final out) [item]).setPc w
        (.serving l (some d) (some (out, (fifoPutGet (s.desc out).fifo item).1)))) :=
      ((SameNet.putGet h.net hwrites.lt).trans (.note _ _)).trans (.workers _)
    refine Counts.putGet h (.serving l (some d) (some (out, (fifoPutGet (s.desc out).fifo item).1))) hwrites hsame ?_
      rfl (fun _ => by rw [hpc]; rfl) fun e => ?_
    · rw [setPc_worker]
      change update (s.putGet w out item).worker w ⟨((s.putGet w out item).worker w).item, _⟩ = _
      rw [putGet_worker]
    · rw [hpc]
      exact held_cons d out e
  | forward w d out item hpc hkind =>
    have hout : out ∈ (s.landing (s.desc d).landing).kind.outs := outs_of_identity hkind
    have hwrites := h.out (writer_of_forwarding hpc) hout
    have hsame : SameNet s ((s.put w out item).setPc w (.serving (s.desc d).landing (some d) none)) :=
      (SameNet.put hwrites.lt).trans (.workers _)
    refine Counts.put h (.serving (s.desc d).landing (some d) none) hwrites hsame ?_ rfl (fun _ => by rw [hpc]; rfl)
      fun e => by rw [hpc]; rfl
    exact congrArg State.worker (setItem_setPc _ w out _ _)
  | forwardGo w d out item hpc hkind hlock =>
    have hout : out ∈ (s.landing (s.desc d).landing).kind.outs := outs_of_identity hkind
    have hwrites := h.out (writer_of_forwarding hpc) hout
    have hsame : SameNet s ((s.putGet w out item).setPc w
        (.serving (s.desc d).landing (some d) (some (out, (fifoPutGet (s.desc out).fifo item).1)))) :=
      (SameNet.putGet h.net hwrites.lt).trans (.workers _)
    refine Counts.putGet h (.serving (s.desc d).landing (some d)
      (some (out, (fifoPutGet (s.desc out).fifo item).1))) hwrites hsame ?_ rfl (fun _ => by rw [hpc]; rfl) fun e => ?_
    · rw [setPc_worker, putGet_worker]
    · rw [hpc]
      exact held_cons d out e
  | open_ w l outs land hwriter hkind hland =>
    have hl : l < s.landings := h.net.lt_of_lock (h.writer_eq hwriter).2
    exact Counts.opened h hkind hl hland
  | close l d outs hkind hd => exact Counts.close h hkind hd
  | end_ l d hkind hended hclosed => exact Counts.end_ h hkind hended
  | becomeIdentity w l d out cont item pc hpc hkind hland hclosed hfinal hpc' =>
    have hmem : out ∈ (s.landing l).kind.outs := by
      rw [hkind]
      exact mem_singleton.2 rfl
    have hpast : ((s.identified l d out item).setPc w pc).past = s.past := by
      refine past_eq rfl (fun _ => rfl) fun m e => ?_
      change ((s.setKind l (.identity out)).landing m).kind = _ ↔ _
      by_cases hm : m = l
      · rw [hm, setKind_kind, hkind]
        exact iff_of_false (by simp) (by simp)
      · rw [setKind_kind_of_ne hm]
    have hpcs : (∀ e, pc.licences e = (s.worker w).pc.licences e) ∧
        ∀ e, pc.held.count e = (s.worker w).pc.held.count e := by
      rw [hpc]
      rcases hpc' with ⟨-, rfl⟩ | ⟨r, -, rfl, rfl⟩
      · exact ⟨fun _ => rfl, fun _ => rfl⟩
      · exact ⟨fun _ => rfl, fun _ => rfl⟩
    refine h.counts.same (ledger_eq rfl hpast (fun _ => rfl) (fun e => ?_) (fun e => ?_) fun _ => rfl) rfl rfl
    · have hsum := tickets_worker (s := s) (t := (s.identified l d out item).setPc w pc) (x := ⟨(s.worker w).item, pc⟩)
        rfl e
      have hlic := licences_of_pc hpcs.1 e
      omega
    · have hsum := held_worker (s := s) (t := (s.identified l d out item).setPc w pc) (x := ⟨(s.worker w).item, pc⟩)
        rfl e
      have hheld : (Worker.mk (s.worker w).item pc).pc.held.count e = _ := hpcs.2 e
      have hhandles := handles_update (s := s) (t := (s.identified l d out item).setPc w pc)
        (y := ⟨.identity out, (s.landing l).lock, (s.landing l).ended⟩) (h.net.lt_of_out hmem) rfl rfl e
      have hsame : (Landing.mk (.identity out) (s.landing l).lock (s.landing l).ended).handles e =
          (s.landing l).handles e := by
        unfold Landing.handles
        rw [hkind]
        rfl
      change _ = s.handles e + s.heldCount e
      omega
  | addContext w l d hpc =>
    have hpast : ((s.addLanding w).setPc w (.serving s.landings d none)).past = s.past :=
      past_eq rfl (fun _ => rfl) fun m e => by
        change ((s.addLanding w).landing m).kind = _ ↔ _
        rw [addLanding_kind h.net]
    have hhandles : ∀ e, ((s.addLanding w).setPc w (.serving s.landings d none)).handles e = s.handles e := by
      intro e
      change ∑ m ∈ Finset.range (s.landings + 1), ((s.addLanding w).landing m).handles e = _
      rw [Finset.sum_range_succ]
      have hnew : ((s.addLanding w).landing s.landings).handles e = 0 := by
        rw [addLanding_self]
        rfl
      rw [hnew, Nat.add_zero]
      refine Finset.sum_congr rfl fun m hm => ?_
      rw [addLanding_of_ne w (Nat.ne_of_lt (Finset.mem_range.1 hm))]
    refine h.counts.same (ledger_eq rfl hpast (fun _ => rfl) (fun e => ?_) (fun e => ?_) fun _ => rfl) rfl rfl
    · have hsum := tickets_worker (s := s) (t := (s.addLanding w).setPc w (.serving s.landings d none)) rfl e
      have hlic : (Worker.mk (s.worker w).item (Pc.serving s.landings d none)).licences e = (s.worker w).licences e :=
        licences_of_pc (fun _ => by rw [hpc]; rfl) e
      rw [show (⟨((s.addLanding w).worker w).item, _⟩ : Worker R) = ⟨(s.worker w).item, _⟩ from rfl] at hsum
      omega
    · have hsum := held_worker (s := s) (t := (s.addLanding w).setPc w (.serving s.landings d none)) rfl e
      rw [hpc] at hsum
      rw [hhandles]
      change _ = s.handles e + s.heldCount e
      exact congrArg (s.handles e + ·) (Nat.add_right_cancel hsum)
  | context w l m d hpc hm hlock hnode =>
    exact h.counts.stepPc ((SameNet.setLock hm _).trans (.workers _)) rfl rfl
      (fun _ => by rw [hpc]; rfl) fun _ => by rw [hpc]; rfl
  | unlock l hplace =>
    exact h.counts.same ((SameNet.unlock h.net l).ledger_eq rfl rfl (fun _ => rfl) (fun _ => rfl) (fun _ => rfl)
      fun _ => rfl) rfl rfl
  | finishInput w l hpc =>
    exact h.counts.stepPc ((SameNet.unlock h.net l).trans (.workers _)) rfl rfl
      (fun _ => by rw [hpc]; rfl) fun _ => by rw [hpc]; rfl
  | finish w l d cont hpc =>
    exact h.counts.stepPc ((SameNet.unlock h.net l).trans (.workers _)) rfl rfl
      (fun _ => by rw [hpc]; rfl) fun _ => by rw [hpc]; rfl
  | release w d cont hpc =>
    let pc : Pc R := cont.elim .idle fun c => s.start c.1 c.2
    have hzero : ∀ e, pc.licences e = 0 := by
      intro e
      cases cont with
      | none => rfl
      | some c => exact start_licences c.1 e c.2
    have hcount : ∀ e, pc.held.count e + (if e = d then 1 else 0) = (s.worker w).pc.held.count e := by
      intro e
      rw [hpc]
      have hheld : pc.held = (cont.map Prod.fst).toList := by
        cases cont with
        | none => rfl
        | some c => exact start_held c.1 c.2
      rw [hheld]
      change _ = (d :: (cont.map Prod.fst).toList).count e
      rw [count_cons]
      by_cases he : e = d
      · rw [if_pos he, if_pos (by simpa using he.symm)]
      · rw [if_neg he, if_neg (by simpa using Ne.symm he)]
    refine Counts.drop (u := s.setPc w pc) h rfl rfl rfl (fun v e => ?_) fun e => ?_
    · by_cases hv : v = w
      · subst hv
        rw [setPc_worker, update_self]
        exact licences_of_pc (fun e => by rw [hzero, hpc]; rfl) e
      · rw [setPc_worker, update_of_ne hv]
    · have hsum := held_worker (s := s) (t := s.setPc w pc) (x := ⟨(s.worker w).item, pc⟩) rfl e
      have : (Worker.mk (s.worker w).item pc).pc.held.count e + (if e = d then 1 else 0) = _ := hcount e
      change s.handles e + _ + _ = _
      omega

/-! ## Runs -/

omit [DecidableEq W] in
theorem init_inv : Inv (State.init : State W R) := by
  refine ⟨⟨fun _ _ => rfl, fun _ _ => rfl, Nat.zero_lt_one, nofun, nofun, fun _ => nodup_nil, nofun, nofun,
    nofun, nofun, nofun, nofun⟩, ⟨fun _ hl => absurd rfl hl, nofun, fun _ => nodup_nil, nofun⟩,
    fun w => ⟨fun _ hd => absurd rfl hd, nofun, nofun, nofun⟩, ⟨⟨?_, ?_, ?_, ?_, ?_⟩, nofun⟩⟩
  · exact fun d hd => absurd hd (Finset.notMem_empty d)
  · exact fun d hd => absurd hd (Finset.notMem_empty d)
  · exact fun d hd => absurd hd (Finset.notMem_empty d)
  · nofun
  · exact fun d hd => absurd hd (Finset.notMem_empty d)

theorem Does.inv (h : Inv s) (hdo : Does s t) : Inv t := ⟨hdo.net h, hdo.locks h, hdo.known h, hdo.counts h⟩

theorem step_inv (h : Inv s) {a : Act W R} (hok : Callers s a) (hstep : step s a = .done t) : Inv t :=
  ((step_does h a hok).of_done hstep).inv h

theorem reach_inv (h : Reach step Callers (State.init : State W R) s) : Inv s :=
  h.invariant init_inv fun _ _ _ hi hok hstep => step_inv hi hok hstep

end steps

/-! ## Licences and records -/

namespace State

/-- The descriptors that lead to a descriptor over garbage, this one included. -/
noncomputable def sources (s : State W R) (d : Nat) : Finset Nat :=
  open Classical in (Finset.range s.descs).filter fun x => Leads s.past x d

end State

namespace Pc

def carried : Pc R → Nat → Nat
  | passing d n, x | looting d _ n, x => if x = d then n else 0
  | _, _ => 0

def taken : Pc R → Nat → Nat
  | reading d, x => if x = d then 1 else 0
  | _, _ => 0

omit [Fintype W] in
theorem licences_split (pc : Pc R) (d : Nat) : pc.licences d = pc.carried d + pc.taken d := by
  cases pc with
  | reading e => exact (Nat.zero_add _).symm
  | _ => rfl

end Pc

theorem ledger_total (d : Nat) : s.ledger.total d = ∑ x ∈ s.sources d, ∑ w, (s.worker w).licences x := by
  classical
  exact Finset.sum_congr (Finset.filter_congr_decidable _ _ _) fun _ _ => rfl

/-- The records in a queue are as many as the licences for them: those of the items and the booty for the
descriptor or for one that leads to it, and those that were taken and not used yet. -/
theorem Inv.fifo_length (h : Inv s) {d : Nat} (hd : d < s.descs) (hlive : (s.kind d).isGarbage = false) :
    (s.desc d).fifo.length =
      ∑ x ∈ s.sources d, ∑ w, (((s.worker w).item x).getD 0 + (s.worker w).pc.carried x) +
        ∑ w, (s.worker w).pc.taken d := by
  have hlen : (s.desc d).fifo.length = s.ledger.total d :=
    h.counts.balanced.len d (Inv.mem_places hd) (past_eq_none hlive)
  have hmem : d ∈ s.sources d := by
    classical
    exact Finset.mem_filter.2 ⟨Finset.mem_range.2 hd, .refl d⟩
  -- what was taken is a licence for a descriptor that is not garbage
  have htaken : ∀ x, x ≠ d → x ∈ s.sources d → ∑ w, (s.worker w).pc.taken x = 0 := by
    classical
    intro x hx hsource
    obtain ⟨-, hlead⟩ := Finset.mem_filter.1 hsource
    refine Finset.sum_eq_zero fun w _ => ?_
    cases hpc : (s.worker w).pc with
    | reading e =>
      refine if_neg fun hxe => hx (hlead.eq_of_none (past_eq_none ?_))
      have hplace : (s.desc e).landing ∈ s.places w := by
        unfold State.places
        rw [hpc]
        exact mem_cons_self
      rw [hxe]
      exact h.garbage_of_place hplace
    | _ => rfl
  have hsum : s.ledger.total d = ∑ x ∈ s.sources d,
      (∑ w, (((s.worker w).item x).getD 0 + (s.worker w).pc.carried x) + ∑ w, (s.worker w).pc.taken x) := by
    rw [ledger_total]
    refine Finset.sum_congr rfl fun x _ => ?_
    rw [← Finset.sum_add_distrib]
    refine Finset.sum_congr rfl fun w _ => ?_
    change ((s.worker w).item x).getD 0 + (s.worker w).pc.licences x = _
    rw [Pc.licences_split, Nat.add_assoc]
  rw [hlen, hsum, Finset.sum_add_distrib, Finset.sum_eq_single_of_mem d hmem fun x hx hne => htaken x hne hx]

/-- The licences are conserved: whatever the workers do, the records in the queue of a live descriptor are as
many as the licences for it, and no step finds an empty queue or fails another assertion. -/
theorem licences_conserved [DecidableEq W] (h : Reach step Callers (State.init : State W R) s) :
    (∀ d < s.descs, (s.kind d).isGarbage = false →
      (s.desc d).fifo.length =
        ∑ x ∈ s.sources d, ∑ w, (((s.worker w).item x).getD 0 + (s.worker w).pc.carried x) +
          ∑ w, (s.worker w).pc.taken d) ∧
    (∀ w d, (s.worker w).pc = .reading d → (s.desc d).fifo ≠ []) ∧
    ∀ a, Callers s a → step s a ≠ .fault := by
  have hinv := reach_inv h
  refine ⟨fun d hd hlive => hinv.fifo_length hd hlive, fun w d hpc => ?_,
    fun a hok => (step_does hinv a hok).ne_fault⟩
  have hplace : (s.desc d).landing ∈ s.places w := by
    unfold State.places
    rw [hpc]
    exact mem_cons_self
  have hd : d < s.descs := (hinv.known w).pc d (by rw [hpc]; exact mem_cons_self)
  refine hinv.fifo_of_licence hd (hinv.garbage_of_place hplace) (w := w) ?_
  unfold Worker.licences
  rw [hpc]
  simp only [Pc.licences, if_pos, Nat.le_add_left]

/-- The input writes three records, and another worker steals two of the licences. -/
def stolen : List (Act Bool Nat) :=
  [.input false, .open_ false none, .write false 0 10 false, .write false 0 20 false, .write false 0 30 false,
    .finish false, .steal true false 0, .loot true, .take true 0]

theorem stolen_permitted (s : State Bool Nat) : Permitted step Callers s stolen := by
  refine permitted_of_forall step (fun a ha s => ?_) s
  simp only [stolen, mem_cons, not_mem_nil, or_false] at ha
  rcases ha with rfl | rfl | rfl | rfl | rfl | rfl | rfl | rfl | rfl
  case inr.inr.inl | inr.inr.inr.inl | inr.inr.inr.inr.inl =>
    simp only [Callers]
    split
    · exact nofun
    · trivial
  all_goals trivial

theorem licences_conserved_stolen : ∃ s : State Bool Nat, runAll step .init stolen = .done s ∧
    (s.desc 0).fifo.length = 3 ∧
    (s.desc 0).fifo.length =
      ∑ x ∈ s.sources 0, ∑ w, (((s.worker w).item x).getD 0 + (s.worker w).pc.carried x) +
        ∑ w, (s.worker w).pc.taken 0 := by
  have hrun : ∃ s : State Bool Nat, runAll step .init stolen = .done s ∧ (s.desc 0).fifo.length = 3 ∧
      0 < s.descs ∧ (s.kind 0).isGarbage = false := ⟨_, rfl, rfl, by decide, rfl⟩
  obtain ⟨s, hs, hlen, hd, hlive⟩ := hrun
  exact ⟨s, hs, hlen, (licences_conserved (.of_runAll .init (stolen_permitted _) hs)).1 0 hd hlive⟩

/-! ## Progress -/

section progress

omit [Fintype W]

/-- What a worker that is not idle does next. -/
def State.goOn (s : State W R) (w : W) : Act W R :=
  match (s.worker w).pc with
  | .idle => .input w
  | .passing _ _ => .pass w true
  | .reading _ => .read w
  | .serving _ _ _ => .finish w
  | .forwarding _ _ => .forward w false
  | .releasing _ _ => .release w
  | .looting _ _ _ => .loot w

theorem goOn_callers (s : State W R) (w : W) : Callers s (s.goOn w) := by
  unfold State.goOn
  split <;> trivial

theorem descRelease_ne_blocked (d count : Nat) : s.descRelease d count ≠ .blocked := by
  unfold State.descRelease
  dsimp only
  repeat' split
  all_goals nofun

variable [DecidableEq W]

theorem work_ne_blocked (w : W) (d : Nat) (item : R) : s.work w d item ≠ .blocked := by
  unfold State.work
  split <;> nofun

theorem goOn_ne_blocked {w : W} (hpc : (s.worker w).pc ≠ .idle) : step s (s.goOn w) ≠ .blocked := by
  unfold State.goOn
  cases h : (s.worker w).pc <;> simp only [step, h]
  case idle => exact absurd h hpc
  case passing d count =>
    split
    · exact Outcome.bind_ne_blocked (descRelease_ne_blocked d _) fun _ => by simp
    · exact Outcome.bind_ne_blocked (descRelease_ne_blocked d _) fun _ => by simp
    all_goals simp
  case reading d =>
    split
    · simp
    · exact work_ne_blocked w d _
  case serving l d cont => cases d <;> simp
  case forwarding d item =>
    split
    · refine Outcome.bind_ne_blocked ?_ fun _ => by simp
      unfold State.enqueue
      dsimp only
      split <;> simp
    · simp
  case releasing d cont =>
    cases cont
    · exact Outcome.bind_ne_blocked (descRelease_ne_blocked d 1) fun _ => by simp
    · exact Outcome.bind_ne_blocked (descRelease_ne_blocked d 1) fun _ => work_ne_blocked w _ _
  case looting d known count => split <;> simp

end progress

/-- A record in the queue of a live descriptor has a licence in an item, when all workers are idle. -/
theorem Inv.exists_item (h : Inv s) {d : Nat} (hd : d < s.descs) (hlive : (s.kind d).isGarbage = false)
    (hne : (s.desc d).fifo ≠ []) (hidle : ∀ w, (s.worker w).pc = .idle) :
    ∃ w x count, (s.worker w).item x = some (count + 1) := by
  have hsum := h.fifo_length hd hlive
  simp only [hidle, Pc.carried, Pc.taken, Finset.sum_const_zero, Nat.add_zero] at hsum
  have hpos : ∑ x ∈ s.sources d, ∑ w, ((s.worker w).item x).getD 0 ≠ 0 := by
    rw [← hsum]
    exact fun hzero => hne (length_eq_zero_iff.1 hzero)
  obtain ⟨x, -, hx⟩ := Finset.exists_ne_zero_of_sum_ne_zero hpos
  obtain ⟨w, -, hw⟩ := Finset.exists_ne_zero_of_sum_ne_zero hx
  cases hitem : (s.worker w).item x with
  | none =>
    rw [hitem] at hw
    exact absurd rfl hw
  | some n =>
    rw [hitem] at hw
    obtain ⟨count, rfl⟩ := Nat.exists_eq_succ_of_ne_zero hw
    exact ⟨w, x, count, hitem⟩

/-- A landing is served by one worker at a time, and no worker is at garbage. -/
theorem served_alone [DecidableEq W] (h : Reach step Callers (State.init : State W R) s) :
    (∀ v w l, l ∈ s.places v → l ∈ s.places w → v = w) ∧ (∀ w, (s.places w).Nodup) ∧
      ∀ w, ∀ l ∈ s.places w, (s.landing l).kind.isGarbage = false := by
  have hlocks := (reach_inv h).locks
  refine ⟨fun v w l hv hw => ?_, hlocks.nodup, fun w l hl => hlocks.locked l ?_⟩
  · apply Option.some.inj
    rw [← hlocks.place v l hv, hlocks.place w l hw]
  · rw [hlocks.place w l hl]
    nofun

theorem served_alone_stolen : ∃ s : State Bool Nat, runAll step .init stolen = .done s ∧
    s.places true = [1] ∧ 1 ∉ s.places false := by
  have hrun : ∃ s : State Bool Nat, runAll step .init stolen = .done s ∧ s.places true = [1] := ⟨_, rfl, rfl⟩
  obtain ⟨s, hs, hplace⟩ := hrun
  refine ⟨s, hs, hplace, fun hmem => ?_⟩
  have halone := (served_alone (.of_runAll .init (stolen_permitted _) hs)).1 true false 1
  cases halone (hplace ▸ List.mem_singleton_self 1) hmem

end SNet.Front.Work
