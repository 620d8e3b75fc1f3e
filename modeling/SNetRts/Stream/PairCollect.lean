import SNetRts.Stream.PairSchedule

/-!
# The collector of a pair

What one iteration of the collector makes of a schedule: a mark from every branch that it listens to is
one sort record at its output, with the level that it had outside. The special record is found on
the last branch alone, and from then on the collector raises the levels there, as the dispatcher
would have done. When that branch is the only one left, the collector lets the mark go that it holds,
and hands its stream over.
-/

namespace SNet.Stream.Pair

open Lib Schedule List

variable {D Γ : Type} {num : Nat} {p : Schedule} {id : Nat → StreamId} {c : Collector D Γ} {k : Nat}

def NoSync (out : List (Rec D Γ)) : Prop := ∀ r ∈ out, ∀ input outtype, r ≠ .sync input outtype

/-- A collector that goes on follows the schedule; `id k` is the stream of branch `k`. -/
structure Held (p : Schedule) (id : Nat → StreamId) (c : Collector D Γ) : Prop where
  isStatic : c.isStatic = true
  goesOn : c.terminate = false
  ready : c.ready = p.ready.map id
  waiting : c.waiting = p.waiting.map id
  incount : c.incount = p.members.length
  sortRec : c.sortRec = if p.waiting = [] then none else p.marks[p.done]?
  last : c.last = p.seen.map id
  term : p.members = [] → c.termRec ≠ none
  out : sortEnds c.out = (p.marks.take p.done).filterMap forward
  noSync : NoSync c.out

/-- A collector that has terminated: it has handed over the stream of the last branch, or no branch is
left. -/
structure Finished (p : Schedule) (id : Nat → StreamId) (c : Collector D Γ) : Prop where
  terminate : c.terminate = true
  waiting : p.waiting = []
  out : ∃ out, sortEnds out = (p.marks.take p.done).filterMap forward ∧ NoSync out ∧
    ((∃ k, p.ready = [k] ∧ p.seen = some k ∧ c.out = out ++ [.sync (id k) none]) ∨
      (p.ready = [] ∧ ∃ flag, c.out = out ++ [.terminate flag]))

def Settled (p : Schedule) (id : Nat → StreamId) (c : Collector D Γ) : Prop :=
  (Held p id c ∧ p.ready ≠ []) ∨ Finished p id c

/-! ## The end of an iteration -/

theorem filterMap_forward_take_succ {ms : List (Int × Int)} {n : Nat} {m : Int × Int}
    (hm : ms[n]? = some m) :
    (ms.take (n + 1)).filterMap forward = (ms.take n).filterMap forward ++ (forward m).toList := by
  rw [take_add_one, hm, Option.toList_some, filterMap_append]
  congr 1

theorem Held.restore (h : Held p id c) (hok : p.Ok num) (hr : p.ready = []) (hw : p.waiting ≠ []) :
    ∃ c', c.restoreFromWaitingset = some c' ∧ Held p.turn id c' := by
  obtain ⟨m, hm⟩ : ∃ m, p.marks[p.done]? = some m :=
    ⟨_, getElem?_eq_getElem (hok.done_lt hw)⟩
  have hsort : c.sortRec = some (m.1, m.2) := by
    rw [h.sortRec, if_neg hw, hm]
  have hrestore : c.restoreFromWaitingset = some { c with
      ready := c.waiting
      waiting := []
      sortRec := none
      out := if 0 < m.1 then c.out ++ [.sortEnd (m.1 - 1) m.2] else c.out } := by
    unfold Collector.restoreFromWaitingset
    rw [hsort]
  have hmembers := members_turn hr
  refine ⟨_, hrestore, h.isStatic, h.goesOn, h.waiting, rfl, ?_, rfl, h.last, ?_, ?_, ?_⟩
  · rw [hmembers]
    exact h.incount
  · rw [hmembers]
    exact h.term
  · change sortEnds (if 0 < m.1 then c.out ++ [.sortEnd (m.1 - 1) m.2] else c.out) =
      (p.marks.take (p.done + 1)).filterMap forward
    rw [filterMap_forward_take_succ hm, ← h.out]
    unfold forward
    split
    · exact sortEnds_append ..
    · exact (append_nil _).symm
  · change NoSync (if 0 < m.1 then c.out ++ [.sortEnd (m.1 - 1) m.2] else c.out)
    split
    · refine List.forall_mem_append.2 ⟨h.noSync, forall_mem_singleton.2 ?_⟩
      nofun
    · exact h.noSync

theorem Held.finish (h : Held p id c) (hok : p.Ok num) :
    ∃ c', c.finish = some c' ∧ ∃ p', (p' = p ∨ p.ready = [] ∧ p.waiting ≠ [] ∧ p' = p.turn) ∧
      Settled p' id c' := by
  unfold Collector.finish
  by_cases hr : p.ready = []
  · have hready : c.ready = [] := by
      rw [h.ready, hr]
      rfl
    rw [if_pos hready]
    cases hw : p.waiting with
    | nil =>
      have hwaiting : c.waiting = [] := by
        rw [h.waiting, hw]
        rfl
      have hterm := h.term (by rw [members, hr, hw]; rfl)
      obtain ⟨flag, hflag⟩ := Option.ne_none_iff_exists'.1 hterm
      rw [hwaiting]
      dsimp only
      rw [hflag]
      exact ⟨_, rfl, p, Or.inl rfl, Or.inr ⟨rfl, hw, c.out, h.out, h.noSync, Or.inr ⟨hr, flag, rfl⟩⟩⟩
    | cons w ws =>
      have hne : p.waiting ≠ [] := by
        rw [hw]
        exact cons_ne_nil _ _
      have hwaiting : c.waiting = id w :: ws.map id := by
        rw [h.waiting, hw]
        rfl
      obtain ⟨c', hrestore, hheld⟩ := h.restore hok hr hne
      have hturn : p.turn = p ∨ p.ready = [] ∧ w :: ws ≠ [] ∧ p.turn = p.turn := Or.inr ⟨hr, cons_ne_nil _ _, rfl⟩
      rw [hwaiting]
      dsimp only
      by_cases hone : c.isStatic = true ∧ c.incount = 1
      · have hlen : (w :: ws).length = 1 := by
          have hcount := h.incount
          rw [hone.2, members, hr, hw] at hcount
          exact (Int.ofNat.inj hcount).symm
        obtain rfl : ws = [] := eq_nil_of_length_eq_zero (Nat.succ.inj hlen)
        have hseen := hok.seen_of_alone hr hw
        have hlast : c.last = some (id w) := by
          rw [h.last, hseen]
          rfl
        rw [if_pos hone, if_pos hlast, hrestore]
        refine ⟨_, rfl, p.turn, hturn, Or.inr ⟨rfl, rfl, c'.out, hheld.out, hheld.noSync, ?_⟩⟩
        exact Or.inl ⟨w, hw, hseen, rfl⟩
      · rw [if_neg hone, hrestore]
        refine ⟨c', rfl, p.turn, hturn, Or.inl ⟨hheld, ?_⟩⟩
        change p.waiting ≠ []
        exact hne
  · have hready : c.ready ≠ [] := by
      rw [h.ready]
      simpa using hr
    rw [if_neg hready]
    exact ⟨c, rfl, p, Or.inl rfl, Or.inl ⟨h, hr⟩⟩

/-! ## One iteration -/

def Apart (num : Nat) (id : Nat → StreamId) : Prop :=
  ∀ j k, j < num → k < num → id j = id k → j = k

theorem Apart.mem_map (h : Apart num id) {l : List Nat} (hl : ∀ j ∈ l, j < num) (hk : k < num) :
    id k ∈ l.map id ↔ k ∈ l := by
  constructor
  · intro hmem
    obtain ⟨j, hj, heq⟩ := List.mem_map.1 hmem
    exact h j k (hl j hj) hk heq ▸ hj
  · exact mem_map_of_mem

theorem Apart.map_erase (h : Apart num id) {l : List Nat} (hl : ∀ j ∈ l, j < num) (hk : k < num) :
    (l.map id).erase (id k) = (l.erase k).map id := by
  induction l with
  | nil => rfl
  | cons j l ih =>
    have hj := hl j mem_cons_self
    rw [map_cons]
    by_cases hjk : j = k
    · subst hjk
      rw [erase_cons_head, erase_cons_head]
    · have hne : id j ≠ id k := fun heq => hjk (h j k hj hk heq)
      rw [erase_cons_tail (by simpa using hne), erase_cons_tail (by simpa using hjk),
        map_cons, ih fun i hi => hl i (mem_cons_of_mem _ hi)]

theorem Held.seen_iff (h : Held p id c) (hok : p.Ok num) (hid : Apart num id) (hk : k < num) :
    c.last = some (id k) ↔ p.seen = some k := by
  rw [h.last]
  constructor
  · intro heq
    obtain ⟨j, hj, hjk⟩ := Option.map_eq_some_iff.1 heq
    rw [hj, hid j k (hok.seen_lt hj) hk hjk]
  · intro heq
    rw [heq]
    rfl

theorem Held.wait (h : Held p id c) (hok : p.Ok num) (hid : Apart num id) (hk : k ∈ p.ready)
    {m : Int × Int} (hm : p.marks[p.done]? = some m) :
    Held (p.wait k) id (c.processSortRecord (id k) m.1 m.2) := by
  have hlt : ∀ j ∈ p.ready, j < num := fun j hj => hok.lt j (mem_append_left _ hj)
  refine ⟨h.isStatic, h.goesOn, ?_, ?_, ?_, ?_, h.last, ?_, h.out, h.noSync⟩
  · change c.ready.erase (id k) = (p.ready.erase k).map id
    rw [h.ready]
    exact hid.map_erase hlt (hlt k hk)
  · change c.waiting ++ [id k] = (p.waiting ++ [k]).map id
    rw [h.waiting, map_append]
    rfl
  · rw [(members_wait hk).length_eq]
    exact h.incount
  · change some (c.sortRec.getD (m.1, m.2)) = if p.waiting ++ [k] = [] then none else p.marks[p.done]?
    rw [if_neg (by simp), hm, h.sortRec]
    split
    · rfl
    · rw [hm]
      rfl
  · intro hnil
    have hperm := members_wait hk
    rw [hnil] at hperm
    exact h.term (nil_perm.1 hperm)

theorem Held.found (h : Held p id c) (hok : p.Ok num) (hid : Apart num id) (hk : k ∈ p.ready)
    (queue : Queues D Γ) {r : Rec D Γ} {rest : List (Rec D Γ)} (hf : Found p k r rest) :
    ∃ c' p', c.process queue (id k) r = some (c', queue) ∧ Held p' id c' ∧ p'.Ok num ∧
      (p' = p.wait k ∧ p'.expected k = rest ∨
        (∃ t, p.status k = .last t) ∧ p' = p.hear k ∧ p'.expected k = rest ∨
        (∃ t, p.status k = .closed t) ∧ p' = p.lose k ∧ rest = []) := by
  have hklt : k < num := hok.lt k (mem_append_left _ hk)
  have hseen := h.seen_iff hok hid hklt
  cases hf with
  | mark m hm hns hb hrest =>
    have hlast : c.last ≠ some (id k) := fun hl => hns (hseen.1 hl)
    have hspecial : ¬ (c.last = none ∧ m.1 = 0 ∧ m.2 = -1) := fun hs =>
      hok.number m (mem_of_getElem? hm) hs.2.1 hs.2.2
    refine ⟨_, p.wait k, ?_, h.wait hok hid hk hm, hok.wait hk hb, Or.inl ⟨rfl, hrest⟩⟩
    unfold Collector.process Pair.mark
    dsimp only
    rw [if_neg hlast, if_neg hspecial]
  | under m hm hs hb hrest =>
    have hlast : c.last = some (id k) := hseen.2 hs
    have hspecial : ¬ (c.last = none ∧ m.1 = 0 ∧ m.2 = -1) := by
      rw [hlast]
      exact fun hn => nomatch hn.1
    refine ⟨_, p.wait k, ?_, h.wait hok hid hk hm, hok.wait hk hb, Or.inl ⟨rfl, hrest⟩⟩
    unfold Collector.process Pair.under
    dsimp only
    rw [if_pos hlast, Int.sub_add_cancel, if_neg hspecial]
  | special r hs hr hns hrest =>
    have hnone : c.last = none := by
      rw [h.last, hns]
      rfl
    refine ⟨{ c with last := some (id k) }, p.hear k, ?_, ?_, hok.hear hk hs hr,
      Or.inr (Or.inl ⟨⟨r, hs⟩, rfl, hrest⟩)⟩
    · have hlast : c.last ≠ some (id k) := by
        rw [hnone]
        nofun
      unfold Collector.process
      dsimp only
      rw [if_neg hlast, if_pos ⟨hnone, rfl, rfl⟩]
    · exact ⟨h.isStatic, h.goesOn, h.ready, h.waiting, h.incount, h.sortRec, rfl, h.term, h.out, h.noSync⟩
  | terminate t hs ht =>
    have hlt : ∀ j ∈ p.ready, j < num := fun j hj => hok.lt j (mem_append_left _ hj)
    refine ⟨c.processTermRecord (id k) true, p.lose k, rfl, ?_, hok.lose hs ht,
      Or.inr (Or.inr ⟨⟨t, hs⟩, rfl, rfl⟩)⟩
    refine ⟨h.isStatic, h.goesOn, ?_, h.waiting, ?_, h.sortRec, h.last, nofun, h.out, h.noSync⟩
    · change c.ready.erase (id k) = (p.ready.erase k).map id
      rw [h.ready]
      exact hid.map_erase hlt hklt
    · change c.incount - 1 = _
      have hlen := length_erase_of_mem hk
      have hpos := length_pos_of_mem hk
      have hcount := h.incount
      simp only [members, lose, length_append] at hcount ⊢
      rw [hcount, hlen]
      omega

end SNet.Stream.Pair
