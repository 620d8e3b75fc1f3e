import SNetRts.Stream.FeedbackRing

/-!
# The streams of the feedback loop

The buffer hands the collector from one stream to the next by sync records; the streams are numbered in
the order in which the buffer creates them. That, and what is under way in the ring, is kept by every
step.
-/

namespace SNet.Stream.Feedback

open Function (update update_of_ne update_self)

open Lib List

variable {D Γ : Type}

/-! ## The streams from the buffer to the collector -/

/-- From the stream that the collector reads each one leads to the next, up to the one that the buffer
writes to; the others that have been created are in the buffer. -/
structure Links (n : Net D Γ) : Prop where
  le : n.backstream ≤ n.outstream
  drained : ∀ i, i < n.backstream → n.streams i = []
  linked : ∀ i, n.backstream ≤ i → i < n.outstream →
    ∃ xs t, n.streams i = xs ++ [.sync (i + 1) t] ∧ ∀ r ∈ xs, syncTo r = none
  last : ∀ r ∈ n.streams n.outstream, syncTo r = none
  fresh : ∀ i, n.outstream < i → n.streams i = []
  queued : ∃ k, n.queue.filterMap syncTo = List.range' (n.outstream + 1) k ∧ n.created = n.outstream + k
  /-- A sync record is followed by another record in the buffer. -/
  lastQueued : ∀ r, n.queue.getLast? = some r → syncTo r = none
  reading : ∀ k, n.bufPc = .reading k → n.queue ≠ []

variable {n : Net D Γ}

theorem flatMap_range'_cons (f : StreamId → List (Rec (Item D) Γ)) {b o : Nat} (h : b ≤ o) :
    (List.range' b (o + 1 - b)).flatMap f = f b ++ (List.range' (b + 1) (o - b)).flatMap f := by
  rw [Nat.succ_sub h, range'_succ, flatMap_cons]

theorem flatMap_range'_concat (f : StreamId → List (Rec (Item D) Γ)) {b o : Nat} (h : b ≤ o) :
    (List.range' b (o + 1 - b)).flatMap f = (List.range' b (o - b)).flatMap f ++ f o := by
  have hlast : b + 1 * (o - b) = o := by omega
  rw [Nat.succ_sub h, range'_concat, flatMap_append, hlast, flatMap_singleton]

theorem flatMap_update (f : StreamId → List (Rec (Item D) Γ)) {is : List Nat} {i : Nat} (h : i ∉ is)
    (xs : List (Rec (Item D) Γ)) : is.flatMap (update f i xs) = is.flatMap f :=
  flatMap_congr fun _ hj => update_of_ne (ne_of_mem_of_not_mem hj h) _ _

namespace Links

theorem pop (h : Links n) {r : Rec (Item D) Γ} {rs : List (Rec (Item D) Γ)}
    (hq : n.streams n.backstream = r :: rs) (hr : syncTo r = none) :
    Links { n with streams := update n.streams n.backstream rs } ∧
      n.backlog = r :: Net.backlog { n with streams := update n.streams n.backstream rs } := by
  refine ⟨⟨h.le, fun i hi => ?_, fun i hb ho => ?_, fun x hx => ?_, fun i hi => ?_, h.queued,
    h.lastQueued, h.reading⟩, ?_⟩
  · dsimp only at hi ⊢
    rw [update_of_ne hi.ne]
    exact h.drained i hi
  · obtain ⟨xs, t, hxs, hsync⟩ := h.linked i hb ho
    dsimp only
    by_cases hi : i = n.backstream
    · subst hi
      rw [update_self]
      rw [hq] at hxs
      cases xs with
      | nil =>
        cases hxs
        cases hr
      | cons x xs =>
        obtain ⟨-, hxs⟩ := List.cons.inj hxs
        exact ⟨xs, t, hxs, fun y hy => hsync y (mem_cons_of_mem _ hy)⟩
    · rw [update_of_ne hi]
      exact ⟨xs, t, hxs, hsync⟩
  · dsimp only at hx
    by_cases ho : n.outstream = n.backstream
    · rw [ho, update_self] at hx
      exact h.last x (by rw [ho, hq]; exact mem_cons_of_mem _ hx)
    · rw [update_of_ne ho] at hx
      exact h.last x hx
  · dsimp only at hi ⊢
    rw [update_of_ne (h.le.trans_lt hi).ne']
    exact h.fresh i hi
  · have hnot : n.backstream ∉ List.range' (n.backstream + 1) (n.outstream - n.backstream) := by
      rw [mem_range'_1]
      omega
    unfold Net.backlog
    dsimp only
    rw [flatMap_range'_cons _ h.le, flatMap_range'_cons _ h.le, flatMap_update _ hnot,
      update_self, hq]
    rfl

theorem switch (h : Links n) {s : StreamId} {t : Option Γ} {rs : List (Rec (Item D) Γ)}
    (hq : n.streams n.backstream = .sync s t :: rs) :
    Links { n with streams := update n.streams n.backstream rs, backstream := s } ∧
      n.backlog = .sync s t :: Net.backlog
        { n with streams := update n.streams n.backstream rs, backstream := s } := by
  have hlt : n.backstream < n.outstream := by
    refine lt_of_le_of_ne h.le fun e => ?_
    have hsync := h.last (.sync s t) (by rw [← e, hq]; exact mem_cons_self)
    cases hsync
  obtain ⟨rfl, rfl⟩ : s = n.backstream + 1 ∧ rs = [] := by
    obtain ⟨xs, t', hxs, hsync⟩ := h.linked n.backstream le_rfl hlt
    rw [hq] at hxs
    cases xs with
    | nil =>
      cases hxs
      exact ⟨rfl, rfl⟩
    | cons x xs =>
      obtain ⟨rfl, -⟩ := List.cons.inj hxs
      exact absurd (hsync _ mem_cons_self) nofun
  refine ⟨⟨hlt, fun i hi => ?_, fun i hb ho => ?_, ?_, fun i hi => ?_, h.queued, h.lastQueued,
    h.reading⟩, ?_⟩
  · dsimp only at hi ⊢
    by_cases hb : i = n.backstream
    · rw [hb, update_self]
    · rw [update_of_ne hb]
      exact h.drained i (lt_of_le_of_ne (Nat.le_of_lt_succ hi) hb)
  · have hb : n.backstream < i := hb
    dsimp only
    rw [update_of_ne hb.ne']
    exact h.linked i hb.le ho
  · dsimp only
    rw [update_of_ne hlt.ne']
    exact h.last
  · dsimp only at hi ⊢
    rw [update_of_ne (hlt.trans hi).ne']
    exact h.fresh i hi
  · have hnot : n.backstream ∉ List.range' (n.backstream + 1) (n.outstream - n.backstream) := by
      rw [mem_range'_1]
      omega
    unfold Net.backlog
    dsimp only
    rw [flatMap_range'_cons _ h.le, Nat.add_sub_add_right, flatMap_update _ hnot, hq]
    rfl

theorem write (h : Links n) {r : Rec (Item D) Γ} {rs : List (Rec (Item D) Γ)} (hq : n.queue = r :: rs)
    (hr : syncTo r = none) (hpc : n.bufPc = .emptying) :
    Links { n with
      streams := update n.streams n.outstream (n.streams n.outstream ++ [r]), queue := rs } ∧
      Net.backlog { n with
        streams := update n.streams n.outstream (n.streams n.outstream ++ [r]), queue := rs } =
        n.backlog ++ [r] := by
  refine ⟨⟨h.le, fun i hi => ?_, fun i hb ho => ?_, ?_, fun i hi => ?_, ?_, fun x hx => ?_,
    fun k hk => absurd (hpc.symm.trans hk) nofun⟩, ?_⟩
  · dsimp only at hi ⊢
    rw [update_of_ne (hi.trans_le h.le).ne]
    exact h.drained i hi
  · dsimp only
    rw [update_of_ne ho.ne]
    exact h.linked i hb ho
  · dsimp only
    rw [update_self]
    exact List.forall_mem_append.2 ⟨h.last, forall_mem_singleton.2 hr⟩
  · dsimp only at hi ⊢
    rw [update_of_ne hi.ne']
    exact h.fresh i hi
  · have hqueued := h.queued
    rw [hq, filterMap_cons_none hr] at hqueued
    exact hqueued
  · refine h.lastQueued x ?_
    rw [hq]
    cases rs with
    | nil => cases hx
    | cons y ys => exact hx
  · have hnot : n.outstream ∉ List.range' n.backstream (n.outstream - n.backstream) := by
      have hle := h.le
      rw [mem_range'_1]
      omega
    unfold Net.backlog
    dsimp only
    rw [flatMap_range'_concat _ h.le, flatMap_range'_concat _ h.le, flatMap_update _ hnot,
      update_self, append_assoc]

theorem writeSync (h : Links n) {s : StreamId} {t : Option Γ} {rs : List (Rec (Item D) Γ)}
    (hq : n.queue = .sync s t :: rs) (hpc : n.bufPc = .emptying) :
    Links { n with
      streams := update n.streams n.outstream (n.streams n.outstream ++ [.sync s t])
      queue := rs, outstream := s } ∧
      Net.backlog { n with
        streams := update n.streams n.outstream (n.streams n.outstream ++ [.sync s t])
        queue := rs, outstream := s } = n.backlog ++ [.sync s t] := by
  obtain ⟨k, hk, hcreated⟩ := h.queued
  rw [hq, filterMap_cons_some (show syncTo (.sync s t : Rec (Item D) Γ) = some s from rfl)] at hk
  cases k with
  | zero => cases hk
  | succ k =>
    rw [range'_succ] at hk
    obtain ⟨rfl, hrest⟩ := List.cons.inj hk
    have hnot : n.outstream ∉ List.range' n.backstream (n.outstream - n.backstream) := by
      have hle := h.le
      rw [mem_range'_1]
      omega
    have hle : n.backstream ≤ n.outstream + 1 := h.le.trans (Nat.le_succ _)
    refine ⟨⟨hle, fun i hi => ?_, fun i hb ho => ?_, ?_, fun i hi => ?_, ⟨k, hrest, ?_⟩, fun x hx => ?_,
      fun k hk => absurd (hpc.symm.trans hk) nofun⟩, ?_⟩
    · dsimp only at hi ⊢
      rw [update_of_ne (hi.trans_le h.le).ne]
      exact h.drained i hi
    · dsimp only
      by_cases hi : i = n.outstream
      · subst hi
        rw [update_self]
        exact ⟨n.streams n.outstream, t, rfl, h.last⟩
      · rw [update_of_ne hi]
        exact h.linked i hb (lt_of_le_of_ne (Nat.le_of_lt_succ ho) hi)
    · dsimp only
      rw [update_of_ne (Nat.lt_succ_self _).ne', h.fresh _ (Nat.lt_succ_self _)]
      nofun
    · have hi : n.outstream + 1 < i := hi
      have hi' : n.outstream < i := (Nat.lt_succ_self _).trans hi
      dsimp only
      rw [update_of_ne hi'.ne']
      exact h.fresh i hi'
    · rw [hcreated, Nat.add_assoc, Nat.add_comm k 1]
    · refine h.lastQueued x ?_
      rw [hq]
      cases rs with
      | nil => cases hx
      | cons y ys => exact hx
    · unfold Net.backlog
      dsimp only
      rw [flatMap_range'_concat _ hle, update_of_ne (Nat.lt_succ_self _).ne',
        h.fresh _ (Nat.lt_succ_self _), append_nil, flatMap_range'_concat _ h.le,
        flatMap_range'_concat _ h.le, flatMap_update _ hnot, update_self, append_assoc]

theorem append (h : Links n) {r : Rec (Item D) Γ} (hr : syncTo r = none) (pc : BufPc) :
    Links { n with queue := n.queue ++ [r], bufPc := pc } := by
  obtain ⟨k, hk, hcreated⟩ := h.queued
  exact { h with
    queued := ⟨k, by
      rw [filterMap_append, filterMap_cons_none hr, filterMap_nil, append_nil]
      exact hk, hcreated⟩
    lastQueued := fun x hx => by
      rw [getLast?_concat] at hx
      cases hx
      exact hr
    reading := fun _ _ => append_ne_nil_of_right_ne_nil _ (cons_ne_nil _ _) }

theorem create (h : Links n) {r : Rec (Item D) Γ} (hr : syncTo r = none) (pc : BufPc) :
    Links { n with
      created := n.created + 1, queue := n.queue ++ [.sync (n.created + 1) none, r], bufPc := pc } := by
  obtain ⟨k, hk, hcreated⟩ := h.queued
  have hlast : n.outstream + 1 + 1 * k = n.created + 1 := by
    rw [hcreated, Nat.one_mul, Nat.add_right_comm]
  have hsync : syncTo (.sync (n.created + 1) none : Rec (Item D) Γ) = some (n.created + 1) := rfl
  exact { h with
    queued := ⟨k + 1, by
      rw [filterMap_append, hk, range'_concat, hlast, filterMap_cons_some hsync,
        filterMap_cons_none hr, filterMap_nil], by
      dsimp only
      rw [hcreated, Nat.add_assoc]⟩
    lastQueued := fun x hx => by
      rw [getLast?_append_of_ne_nil _ (cons_ne_nil _ _)] at hx
      cases hx
      exact hr
    reading := fun _ _ => append_ne_nil_of_right_ne_nil _ (cons_ne_nil _ _) }

end Links

/-! ## The invariant of the network -/

structure Inv (n : Net D Γ) : Prop where
  ring : n.ring.Inv
  links : Links n

theorem inv_init : Inv (Net.init : Net D Γ) where
  ring :=
    { shape := Shape.empty 0
      inq := nofun
      intoOp := nofun
      fromOp := nofun
      bufIn := nofun
      back := nofun
      numbers := ⟨0, rfl, rfl⟩
      past := nofun
      sorted := List.Pairwise.nil
      sorts := rfl
      stopped := nofun
      running := fun _ _ => nofun }
  links :=
    ⟨le_rfl, fun _ _ => rfl, fun _ _ h => absurd h (Nat.not_lt_zero _), nofun, fun _ _ => rfl,
      ⟨0, rfl, rfl⟩, nofun, nofun⟩

/-! What a task has still to write when it has written everything. -/

theorem ring_intoOp (hw : n.collWrites = []) : n.ring.intoOp = n.intoOp := by
  change n.intoOp ++ n.collWrites = n.intoOp
  rw [hw, append_nil]

theorem ring_fromOp (hw : n.opWrites = []) : n.ring.fromOp = n.fromOp := by
  change n.fromOp ++ n.opWrites = n.fromOp
  rw [hw, append_nil]

theorem ring_bufIn (hw : n.dispWrites = []) : n.ring.bufIn = n.bufIn := by
  change n.bufIn ++ toPort .back n.dispWrites = n.bufIn
  rw [hw]
  exact append_nil _

theorem ring_out (hw : n.dispWrites = []) : n.ring.out = n.out := by
  change n.out ++ toPort .out n.dispWrites = n.out
  rw [hw]
  exact append_nil _

namespace Inv

theorem readIn (h : Inv n) (hm : n.mode = .input) (hrun : n.collStopped = false)
    (hw : n.collWrites = []) : n.readIn.Meets Inv := by
  unfold Net.readIn
  cases hq : n.inq with
  | nil => trivial
  | cons r rs =>
    cases r with
    | data i =>
      have hring := h.ring.collData hm hrun hq
      rw [ring_intoOp hw] at hring
      exact ⟨hring, { h.links with }⟩
    | sortEnd level num =>
      have hring := h.ring.collSortEnd hq
      rw [ring_intoOp hw] at hring
      exact ⟨hring, { h.links with }⟩
    | terminate b =>
      have hring := h.ring.collTerminate hm hq
      rw [ring_intoOp hw] at hring
      exact ⟨hring, { h.links with }⟩
    | sync s t =>
      have hring := h.ring.collSync hq
      rw [ring_intoOp hw, ← append_nil n.intoOp] at hring
      exact ⟨hring, { h.links with }⟩
    | collect s =>
      have hmem : .collect s ∈ n.inq := hq ▸ mem_cons_self
      have hr := h.ring.inq _ hmem
      exact hr.elim

theorem back_eq {r : Rec (Item D) Γ} {rs : List (Rec (Item D) Γ)} (hq : n.backlog = r :: rs) :
    n.ring.back = r :: (rs ++ n.queue) := by
  change n.backlog ++ n.queue = _
  rw [hq, cons_append]

theorem readFbi (h : Inv n) (hm : n.mode ≠ .input) (hrun : n.collStopped = false)
    (hw : n.collWrites = []) : n.readFbi.Meets Inv := by
  unfold Net.readFbi
  cases hq : n.streams n.backstream with
  | nil => trivial
  | cons r rs =>
    by_cases hr : ∃ s t, r = .sync s t
    · obtain ⟨s, t, rfl⟩ := hr
      obtain ⟨hlinks, hback⟩ := h.links.switch hq
      obtain ⟨xs, mode, hring, hreact | ⟨rfl, rfl, -⟩⟩ := h.ring.fbCollReadFbi hm hrun (back_eq hback)
      · cases hreact
      · rw [ring_intoOp hw] at hring
        exact ⟨hring, { hlinks with }⟩
    · have hsync : syncTo r = none := by
        cases r with
        | sync s t => exact absurd ⟨s, t, rfl⟩ hr
        | _ => rfl
      obtain ⟨hlinks, hback⟩ := h.links.pop hq hsync
      obtain ⟨xs, mode, hring, hreact | ⟨-, -, hsync'⟩⟩ := h.ring.fbCollReadFbi hm hrun (back_eq hback)
      · have hreact : fbCollReadFbi n.mode r = some ⟨xs, .run mode⟩ := hreact
        dsimp only
        rw [hreact]
        rw [ring_intoOp hw] at hring
        exact ⟨hring, { hlinks with }⟩
      · exact absurd hsync' hr

theorem collRead (h : Inv n) : n.collRead.Meets Inv := by
  unfold Net.collRead
  split
  · trivial
  · rename_i hc
    obtain ⟨hstop, hw⟩ := not_or.1 hc
    have hrun : n.collStopped = false := Bool.eq_false_iff.2 hstop
    have hw : n.collWrites = [] := not_not.1 hw
    cases hm : n.mode with
    | input => exact h.readIn hm hrun hw
    | fb1 => exact h.readFbi (hm.trans_ne nofun) hrun hw
    | fb0 => exact h.readFbi (hm.trans_ne nofun) hrun hw

theorem collWrite (h : Inv n) : n.collWrite.Meets Inv := by
  unfold Net.collWrite
  cases hw : n.collWrites with
  | nil => trivial
  | cons r rs =>
    have heq : n.ring.intoOp = (n.intoOp ++ [r]) ++ rs := by
      change n.intoOp ++ n.collWrites = _
      rw [hw, append_assoc, singleton_append]
    have hring : Ring.Inv { n.ring with intoOp := (n.intoOp ++ [r]) ++ rs } := heq ▸ h.ring
    exact ⟨hring, { h.links with }⟩

theorem opRead (h : Inv n) (outs : List D) : (n.opRead outs).Meets Inv := by
  unfold Net.opRead
  split
  · trivial
  · rename_i hc
    have hw : n.opWrites = [] := not_not.1 (not_or.1 hc).2
    cases hq : n.intoOp with
    | nil => trivial
    | cons r rs =>
      have hinto : n.ring.intoOp = r :: (rs ++ n.collWrites) := by
        change n.intoOp ++ n.collWrites = _
        rw [hq, cons_append]
      obtain ⟨xs, stop, hreact, hring⟩ := h.ring.operand outs hinto
      dsimp only
      rw [hreact]
      rw [ring_fromOp hw] at hring
      exact ⟨hring, { h.links with }⟩

theorem opWrite (h : Inv n) : n.opWrite.Meets Inv := by
  unfold Net.opWrite
  cases hw : n.opWrites with
  | nil => trivial
  | cons r rs =>
    have heq : n.ring.fromOp = (n.fromOp ++ [r]) ++ rs := by
      change n.fromOp ++ n.opWrites = _
      rw [hw, append_assoc, singleton_append]
    have hring : Ring.Inv { n.ring with fromOp := (n.fromOp ++ [r]) ++ rs } := heq ▸ h.ring
    exact ⟨hring, { h.links with }⟩

theorem dispRead (h : Inv n) (backPatterns guards : List (D → Bool)) :
    (n.dispRead backPatterns guards).Meets Inv := by
  unfold Net.dispRead
  split
  · trivial
  · rename_i hc
    have hw : n.dispWrites = [] := not_not.1 (not_or.1 hc).2
    cases hq : n.fromOp with
    | nil => trivial
    | cons r rs =>
      have hfrom : n.ring.fromOp = r :: (rs ++ n.opWrites) := by
        change n.fromOp ++ n.opWrites = _
        rw [hq, cons_append]
      obtain ⟨ws, stop, hreact, hring⟩ := h.ring.feedbackDispTask backPatterns guards hfrom
      dsimp only
      rw [hreact]
      rw [ring_bufIn hw, ring_out hw] at hring
      exact ⟨hring, { h.links with }⟩

theorem dispWrite (h : Inv n) : n.dispWrite.Meets Inv := by
  unfold Net.dispWrite
  cases hw : n.dispWrites with
  | nil => trivial
  | cons w ws =>
    obtain ⟨p, r⟩ := w
    cases p with
    | out =>
      have hout : n.ring.out = (n.out ++ [r]) ++ toPort .out ws := by
        change n.out ++ toPort .out n.dispWrites = _
        rw [hw, append_assoc]
        rfl
      have hbuf : n.ring.bufIn = n.bufIn ++ toPort .back ws := by
        change n.bufIn ++ toPort .back n.dispWrites = _
        rw [hw]
        rfl
      have hring : Ring.Inv { n.ring with
          out := (n.out ++ [r]) ++ toPort .out ws, bufIn := n.bufIn ++ toPort .back ws } :=
        hout ▸ hbuf ▸ h.ring
      exact ⟨hring, { h.links with }⟩
    | back =>
      have hout : n.ring.out = n.out ++ toPort .out ws := by
        change n.out ++ toPort .out n.dispWrites = _
        rw [hw]
        rfl
      have hbuf : n.ring.bufIn = (n.bufIn ++ [r]) ++ toPort .back ws := by
        change n.bufIn ++ toPort .back n.dispWrites = _
        rw [hw, append_assoc]
        rfl
      have hring : Ring.Inv { n.ring with
          out := n.out ++ toPort .out ws, bufIn := (n.bufIn ++ [r]) ++ toPort .back ws } :=
        hout ▸ hbuf ▸ h.ring
      exact ⟨hring, { h.links with }⟩

theorem bufIn_eq {r : Rec (Item D) Γ} {rs : List (Rec (Item D) Γ)} (hq : n.bufIn = r :: rs) :
    n.ring.bufIn = r :: (rs ++ toPort .back n.dispWrites) := by
  change n.bufIn ++ toPort .back n.dispWrites = _
  rw [hq, cons_append]

theorem queue_eq_nil (h : Inv n) {b : Bool} {rs : List (Rec (Item D) Γ)}
    (hq : n.bufIn = .terminate b :: rs) : n.queue = [] := by
  have htokens : tokens (n.backlog ++ n.queue) = [] := h.ring.back_of_terminate (bufIn_eq hq)
  rw [tokens_append] at htokens
  have hnil := (append_eq_nil_iff.1 htokens).2
  by_contra hne
  -- The last record in the buffer is a data record or a sort record of level 0.
  have hlast := getLast?_eq_some_getLast hne
  have hsync := h.links.lastQueued _ hlast
  have hmem := getLast_mem hne
  have hback := h.ring.back _ (mem_append_right n.backlog hmem)
  have htoken := filterMap_eq_nil_iff.1 hnil _ hmem
  generalize n.queue.getLast hne = r at hsync hback htoken
  cases r with
  | data i => cases htoken
  | sortEnd level num =>
    obtain rfl : level = 0 := hback
    cases htoken
  | terminate b => exact hback.elim
  | sync s t => cases hsync
  | collect s => exact hback.elim

theorem syncTo_bufIn (h : Inv n) {r : Rec (Item D) Γ} {rs : List (Rec (Item D) Γ)}
    (hq : n.bufIn = r :: rs) : syncTo r = none := by
  have hmem : r ∈ n.ring.bufIn := by
    rw [bufIn_eq hq]
    exact mem_cons_self
  have hr := h.ring.bufIn r hmem
  cases r with
  | sync s t => exact hr.elim
  | _ => rfl

theorem bufRead (h : Inv n) {r : Rec (Item D) Γ} {rs : List (Rec (Item D) Γ)} (hq : n.bufIn = r :: rs)
    (hr : ∀ b, r ≠ .terminate b) (pc : BufPc) :
    Inv { n with bufIn := rs, queue := n.queue ++ [r], bufPc := pc } := by
  have hring := h.ring.buf_read (bufIn_eq hq) hr (Or.inl rfl)
  have hback : n.ring.back ++ ([] ++ [r]) = n.backlog ++ (n.queue ++ [r]) := by
    change n.backlog ++ n.queue ++ [r] = _
    rw [append_assoc]
  rw [hback] at hring
  exact ⟨hring, { h.links.append (h.syncTo_bufIn hq) pc with }⟩

theorem bufPut (h : Inv n) {r : Rec (Item D) Γ} {rs : List (Rec (Item D) Γ)} (hq : n.bufIn = r :: rs)
    (hr : ∀ b, r ≠ .terminate b) (pc : BufPc) : Inv { (n.put r) with bufIn := rs, bufPc := pc } := by
  unfold Net.put
  split
  · have hring := h.ring.buf_read (bufIn_eq hq) hr (Or.inr ⟨n.created + 1, none, rfl⟩)
    have hback : n.ring.back ++ ([.sync (n.created + 1) none] ++ [r]) =
        n.backlog ++ (n.queue ++ [.sync (n.created + 1) none, r]) := by
      change n.backlog ++ n.queue ++ [_, r] = _
      rw [append_assoc]
    rw [hback] at hring
    exact ⟨hring, { h.links.create (h.syncTo_bufIn hq) pc with }⟩
  · exact h.bufRead hq hr pc

theorem bufGo (h : Inv n) {pc : BufPc} (hpc : ∀ k, pc = .reading k → n.queue ≠ []) :
    Inv { n with bufPc := pc } :=
  ⟨h.ring, { h.links with reading := hpc }⟩

theorem bufWrite (h : Inv n) {r : Rec (Item D) Γ} {rs : List (Rec (Item D) Γ)} (hq : n.queue = r :: rs)
    (hpc : n.bufPc = .emptying) :
    Inv { n with
      streams := update n.streams n.outstream (n.streams n.outstream ++ [r])
      queue := rs
      outstream := (syncTo r).getD n.outstream } := by
  have hback : n.ring.back = (n.backlog ++ [r]) ++ rs := by
    change n.backlog ++ n.queue = _
    rw [hq, append_assoc, singleton_append]
  have hring : Ring.Inv { n.ring with back := (n.backlog ++ [r]) ++ rs } := hback ▸ h.ring
  by_cases hr : ∃ s t, r = .sync s t
  · obtain ⟨s, t, rfl⟩ := hr
    obtain ⟨hlinks, hlog⟩ := h.links.writeSync hq hpc
    rw [← hlog] at hring
    exact ⟨hring, hlinks⟩
  · have hsync : syncTo r = none := by
      cases r with
      | sync s t => exact absurd ⟨s, t, rfl⟩ hr
      | _ => rfl
    obtain ⟨hlinks, hlog⟩ := h.links.write hq hsync hpc
    rw [← hlog] at hring
    rw [hsync]
    exact ⟨hring, hlinks⟩

theorem buf_top (h : Inv n) (hpc : n.bufPc = .top) : n.buf.Meets Inv := by
  have hread : ∀ r rs, n.bufIn = r :: rs → (∀ b, r ≠ .terminate b) →
      Inv { n with bufIn := rs, queue := n.queue ++ [r], bufPc := .reading 1 } :=
    fun r rs hq hr => h.bufRead hq hr _
  unfold Net.buf
  rw [hpc]
  dsimp only
  split
  · cases hq : n.bufIn with
    | nil => trivial
    | cons r rs =>
      cases r with
      | terminate b =>
        exact ⟨h.ring.buf_terminate (bufIn_eq hq), { h.links with reading := nofun }⟩
      | data i => exact hread _ _ hq nofun
      | sortEnd level num => exact hread _ _ hq nofun
      | sync s t => exact hread _ _ hq nofun
      | collect s => exact hread _ _ hq nofun
  · rename_i hlen
    have hne : n.queue ≠ [] := fun e => hlen (by rw [e]; rfl)
    cases hq : n.bufIn with
    | nil =>
      have hgo := h.bufGo fun (k : Nat) (_ : BufPc.reading 0 = .reading k) => hne
      rw [hq] at hgo
      exact hgo
    | cons r rs =>
      cases r with
      | terminate b => exact absurd (h.queue_eq_nil hq) hne
      | data i => exact hread _ _ hq nofun
      | sortEnd level num => exact hread _ _ hq nofun
      | sync s t => exact hread _ _ hq nofun
      | collect s => exact hread _ _ hq nofun

theorem buf (h : Inv n) : n.buf.Meets Inv := by
  have hempty : Inv { n with bufPc := .emptying } := h.bufGo nofun
  have htop : Inv { n with bufPc := .top } := h.bufGo nofun
  cases hpc : n.bufPc with
  | top => exact h.buf_top hpc
  | stopped =>
    unfold Net.buf
    rw [hpc]
    trivial
  | reading k =>
    unfold Net.buf
    rw [hpc]
    dsimp only
    split
    · cases hq : n.bufIn with
      | nil =>
        rw [hq] at hempty
        exact hempty
      | cons r rs =>
        refine h.bufPut hq (fun b e => ?_) _
        subst e
        exact h.links.reading k hpc (h.queue_eq_nil hq)
    · exact hempty
  | emptying =>
    unfold Net.buf
    rw [hpc]
    dsimp only
    cases hq : n.queue with
    | nil =>
      rw [hq] at htop
      exact htop
    | cons r rs =>
      dsimp only
      split
      · have hwrite := h.bufWrite hq hpc
        rw [hpc] at hwrite
        exact hwrite
      · rw [hq] at htop
        exact htop

theorem input (h : Links n) {r : Rec (Item D) Γ} (hr : Ring.Inv { n.ring with inq := n.inq ++ [r] }) :
    (n.input r).Meets Inv := by
  unfold Net.input
  split
  · trivial
  · exact ⟨hr, { h with }⟩

theorem step (h : Inv n) (backPatterns guards : List (D → Bool)) (a : Act D Γ) :
    (n.step backPatterns guards a).Meets Inv := by
  cases a with
  | data value =>
    have hlinks : Links { n with arrived := n.arrived + 1 } := { h.links with }
    exact input hlinks (h.ring.data value)
  | sortEnd level num =>
    have hlinks : Links { n with sorts := n.sorts ++ [((level : Int), num)] } := { h.links with }
    exact input hlinks (h.ring.sortEnd level num)
  | sync s t => exact input h.links (h.ring.other trivial rfl rfl)
  | terminate b =>
    unfold Net.step
    dsimp only
    split
    · trivial
    · exact ⟨h.ring.other trivial rfl rfl, { h.links with }⟩
  | collRead => exact h.collRead
  | collWrite => exact h.collWrite
  | opRead outs => exact h.opRead outs
  | opSync s t =>
    unfold Net.step
    dsimp only
    split
    · trivial
    · rename_i hc
      have hring := h.ring.opSync s t
      rw [ring_fromOp (not_not.1 (not_or.1 hc).2)] at hring
      exact ⟨hring, { h.links with }⟩
  | opWrite => exact h.opWrite
  | dispRead => exact h.dispRead backPatterns guards
  | dispWrite => exact h.dispWrite
  | buf => exact h.buf

end Inv

end SNet.Stream.Feedback
