import SNetRts.Lib.Linked
import SNetRts.Lib.Run

/-!
# Rings

A set of nodes that is a ring of links, with a handle to the last node; the link of the last node goes
to the first one. A node is put in behind the last one and becomes the last; to remove a node, the ring
is searched for the one before it. A ring is `Ring next handle l` for the list `l` of its nodes.

The search takes at most `fuel` links; on a ring the number of its nodes is enough.
-/

namespace Lib

open Function (update update_of_ne update_self)

open List

variable {α : Type*} [DecidableEq α]

/-- The nodes behind `prev`, up to `stop`. -/
def ringWalk (next : α → Option α) (stop : α) : Nat → α → List α
  | 0, _ => []
  | fuel + 1, prev =>
    match next prev with
    | none => []
    | some cur => if cur = stop then [cur] else cur :: ringWalk next stop fuel cur

def ringMembers (next : α → Option α) (handle : Option α) (fuel : Nat) : List α :=
  match handle with
  | none => []
  | some last => ringWalk next last fuel last

/-- The node before `node` and the one that the search stops at, which is `node` or `stop`. -/
def ringFind (next : α → Option α) (node stop : α) : Nat → α → Option (α × α)
  | 0, _ => none
  | fuel + 1, prev =>
    match next prev with
    | none => none
    | some cur => if cur ≠ node ∧ cur ≠ stop then ringFind next node stop fuel cur else some (prev, cur)

def ringPut (next : α → Option α) (handle : Option α) (node : α) : (α → Option α) × Option α :=
  match handle with
  | none => (update next node (some node), some node)
  | some last =>
    let next := update next node (next last)
    (update next last (some node), some node)

/-- Removes a node from a set; a fault for the empty set and where a link is missing. -/
def ringRemove (next : α → Option α) (handle : Option α) (node : α) (fuel : Nat) :
    Outcome ((α → Option α) × Option α) :=
  match handle with
  | none => .fault
  | some last =>
    match ringFind next node last fuel last with
    | none => .fault
    | some (prev, cur) =>
      if cur ≠ node then .done (next, handle)
      else if prev = cur then .done (next, none)
      else
        .done (update (update next prev (next cur)) cur none,
          if last = cur then some prev else some last)

/-- The nodes `l` are linked in a ring, and the handle is the last one. -/
structure Ring (next : α → Option α) (handle : Option α) (l : List α) : Prop where
  nodup : l.Nodup
  last : handle = l.getLast?
  links : Seg (fun a => some (next a)) l.head? l l.head?

namespace Ring

variable {next next' : α → Option α} {handle : Option α} {l as bs : List α} {node : α} {fuel : Nat}

omit [DecidableEq α] in
theorem nil (next : α → Option α) : Ring next none [] := ⟨nodup_nil, rfl, rfl⟩

omit [DecidableEq α] in
theorem congr (h : Ring next handle l) (heq : ∀ a ∈ l, next' a = next a) : Ring next' handle l :=
  ⟨h.nodup, h.last, h.links.congr fun a ha => congrArg some (heq a ha)⟩

omit [DecidableEq α] in
theorem rotate (h : Ring next handle (as ++ node :: bs)) :
    Ring next (some node) (bs ++ as ++ [node]) := by
  obtain ⟨hnodup, -, hlinks⟩ := h
  have hperm : (bs ++ as ++ [node]).Perm (as ++ node :: bs) := by
    have h1 : (bs ++ (as ++ [node])).Perm ((as ++ [node]) ++ bs) := perm_append_comm
    simpa using h1
  refine ⟨hperm.nodup_iff.2 hnodup, by simp, ?_⟩
  have hlinks' : Seg (fun a => some (next a)) (as ++ node :: bs).head? ((as ++ [node]) ++ bs)
      (as ++ node :: bs).head? := by simpa using hlinks
  obtain ⟨r, h1, h2⟩ := Seg.append_iff.1 hlinks'
  have hr : r = (bs ++ as ++ [node]).head? := by
    have := h2.head_eq
    cases bs with
    | nil =>
      rw [this]
      cases as <;> simp
    | cons b bs => simpa using this
  rw [← hr, append_assoc]
  exact Seg.append_iff.2 ⟨_, h2, h1⟩

omit [DecidableEq α] in
theorem mem_rotate {a : α} : a ∈ bs ++ as ++ [node] ↔ a ∈ as ++ node :: bs := by
  simp only [mem_append, mem_cons, not_mem_nil, or_false]
  tauto

omit [DecidableEq α] in
theorem swap (h : Ring next (as ++ bs).getLast? (as ++ bs)) :
    Ring next (bs ++ as).getLast? (bs ++ as) := by
  rcases eq_nil_or_concat as with rfl | ⟨init, last, rfl⟩
  · simpa using h
  · rw [concat_eq_append, append_assoc, singleton_append] at h
    have hrot := h.rotate
    rwa [concat_eq_append, ← append_assoc, getLast?_concat]

omit [DecidableEq α] in
theorem next_mem (h : Ring next handle l) {a : α} (ha : a ∈ l) : ∃ b ∈ l, next a = some b := by
  obtain ⟨as, bs, rfl⟩ := append_of_mem ha
  have hlink := Option.some.inj h.rotate.links.link_last
  obtain ⟨b, hb⟩ : ∃ b, (bs ++ as ++ [a]).head? = some b := by
    cases hl : bs ++ as <;> simp
  exact ⟨b, mem_rotate.1 (mem_of_head? hb), hlink.trans hb⟩

omit [DecidableEq α] in
theorem next_inj (h : Ring next handle l) {a b : α} (ha : a ∈ l) (hb : b ∈ l) (heq : next a = next b) :
    a = b := by
  by_contra hne
  obtain ⟨as, bs, rfl⟩ := append_of_mem hb
  have hrot := h.rotate
  obtain ⟨cs, ds, hcs⟩ : ∃ cs ds, bs ++ as = cs ++ a :: ds := by
    apply append_of_mem
    rcases mem_append.1 (mem_rotate.2 ha) with hmem | hmem
    · exact hmem
    · exact absurd (mem_singleton.1 hmem) hne
  have hsplit : bs ++ as ++ [b] = (cs ++ [a]) ++ (ds ++ [b]) := by simp [hcs]
  rw [hsplit] at hrot
  obtain ⟨hnodup, -, hlinks⟩ := hrot
  obtain ⟨x, hx⟩ : ∃ x, (ds ++ [b]).head? = some x := by cases ds <;> simp
  obtain ⟨y, hy⟩ : ∃ y, (cs ++ [a]).head? = some y := by cases cs <;> simp
  -- `x` comes after `a`, and `y`, the first one of all, after `b`
  obtain ⟨r, h1, h2⟩ := Seg.append_iff.1 hlinks
  have hxa : next a = some x := by
    rw [Option.some.inj h1.link_last, h2.head_eq, hx]
    rfl
  have hyb : next b = some y := by
    rw [Option.some.inj h2.link_last, head?_append, hy]
    rfl
  have hxy : x = y := by
    rw [hxa, hyb] at heq
    exact Option.some.inj heq
  exact (nodup_append.1 hnodup).2.2 y (mem_of_head? hy) x (mem_of_head? hx) hxy.symm

omit [DecidableEq α] in
theorem getLast?_of_next (h : Ring next handle (node :: l)) {prev : α} (hprev : prev ∈ node :: l)
    (hnext : next prev = some node) : (node :: l).getLast? = some prev := by
  cases hl : (node :: l).getLast? with
  | none => simp at hl
  | some last =>
    obtain ⟨init, hinit⟩ := getLast?_eq_some_iff.1 hl
    have hlinks := h.links
    rw [hinit] at hlinks
    have hlast : next last = some node := by
      rw [Option.some.inj hlinks.link_last, ← hinit]
      rfl
    rw [h.next_inj hprev (mem_of_getLast? hl) (hnext.trans hlast.symm)]

omit [DecidableEq α] in
theorem rest_eq_nil (h : Ring next handle (node :: l)) (hlast : (node :: l).getLast? = some node) : l = [] := by
  cases l with
  | nil => rfl
  | cons a l =>
    rw [getLast?_cons_cons] at hlast
    exact absurd (mem_of_getLast? hlast) (nodup_cons.1 h.nodup).1

omit [DecidableEq α] in
theorem rest_getLast? {last : α} (hlast : (node :: l).getLast? = some last) (hne : last ≠ node) :
    l.getLast? = some last := by
  cases l with
  | nil =>
    rw [getLast?_singleton, Option.some.injEq] at hlast
    exact absurd hlast.symm hne
  | cons a l => rwa [getLast?_cons_cons] at hlast

theorem tail (h : Ring next handle (node :: l)) {last : α} (hlast : l.getLast? = some last) :
    Ring (update next last (next node)) l.getLast? l := by
  obtain ⟨init, rfl⟩ := getLast?_eq_some_iff.1 hlast
  obtain ⟨hnode, hnodup⟩ := nodup_cons.1 h.nodup
  have hnot : last ∉ init := fun hmem => (nodup_append.1 hnodup).2.2 last hmem last (by simp) rfl
  obtain ⟨-, r, hr, hseg⟩ := h.links
  obtain rfl : next node = r := Option.some.inj hr
  have hhead : next node = (init ++ [last]).head? := by
    have := hseg.head_eq
    rw [this]
    cases init <;> simp
  refine ⟨hnodup, rfl, ?_⟩
  rw [← hhead]
  apply hseg.set_last hnot
  · intro b hb hbl
    rw [update_of_ne hbl]
  · rw [update_self]

theorem uncons (h : Ring next handle (node :: l)) {last : α} (hlast : l.getLast? = some last)
    (hlink : next' last = next node) (helse : ∀ a ∈ l, a ≠ last → next' a = next a) :
    Ring next' l.getLast? l := by
  apply (h.tail hlast).congr
  intro a ha
  by_cases hal : a = last
  · rw [hal, hlink, update_self]
  · rw [helse a ha hal, update_of_ne hal]

theorem put (h : Ring next handle l) (hnode : node ∉ l) :
    Ring (ringPut next handle node).1 (ringPut next handle node).2 (l ++ [node]) := by
  obtain ⟨hnodup, hlast, hlinks⟩ := h
  have hnodup' : (l ++ [node]).Nodup := by
    rw [nodup_append]
    refine ⟨hnodup, nodup_cons.2 ⟨not_mem_nil, nodup_nil⟩, ?_⟩
    intro a ha b hb heq
    rw [mem_singleton] at hb
    exact hnode (hb ▸ heq ▸ ha)
  rcases eq_nil_or_concat l with rfl | ⟨init, last, rfl⟩
  · have hhandle : handle = none := hlast
    subst hhandle
    exact ⟨hnodup', rfl, by simp [ringPut, Seg]⟩
  · rw [concat_eq_append] at *
    have hhandle : handle = some last := by simpa using hlast
    subst hhandle
    have hne : node ≠ last := fun heq => hnode (by simp [heq])
    have hinit : last ∉ init := fun hmem => by
      rw [nodup_append] at hnodup
      exact hnodup.2.2 last hmem last (by simp) rfl
    obtain ⟨first, hfirst⟩ : ∃ first, (init ++ [last]).head? = some first := by
      cases init <;> simp
    have hfirst' : (init ++ [last] ++ [node]).head? = some first := by
      cases init with
      | nil => simpa using hfirst
      | cons a init => simpa using hfirst
    refine ⟨hnodup', by simp [ringPut], ?_⟩
    rw [hfirst'] 
    rw [hfirst] at hlinks
    have hlink := hlinks.link_last
    refine Seg.append_iff.2 ⟨some node, hlinks.set_last hinit (fun b hb hbl => ?_) ?_, rfl, some first, ?_, rfl⟩
    · have hbn : b ≠ node := fun heq => hnode (heq ▸ mem_append_left _ hb)
      simp [ringPut, update_of_ne hbl, update_of_ne hbn]
    · simp [ringPut]
    · simp only [ringPut, update_of_ne hne, update_self]
      simpa using hlink

theorem put_next (h : Ring next handle l) {a : α} (ha : a ∉ l) (hne : a ≠ node) :
    (ringPut next handle node).1 a = next a := by
  unfold ringPut
  cases hh : handle with
  | none => simp [update_of_ne hne]
  | some last =>
    have hal : a ≠ last := by
      rintro rfl
      exact ha (mem_of_getLast? (h.last.symm.trans hh))
    simp [update_of_ne hal, update_of_ne hne]

theorem insert (h : Ring next handle (as ++ bs)) {last : α} (hlast : (as ++ bs).getLast? = some last)
    (hnode : node ∉ as ++ bs) (hself : next' node = next last) (hlink : next' last = some node)
    (helse : ∀ a ∈ as ++ bs, a ≠ last → next' a = next a) :
    Ring next' ((bs ++ [node]) ++ as).getLast? ((bs ++ [node]) ++ as) := by
  have hput := h.put hnode
  apply swap
  rw [← append_assoc, ← hput.last]
  apply hput.congr
  intro a ha
  simp only [ringPut, h.last.trans hlast]
  by_cases hal : a = last
  · rw [hal, hlink, update_self]
  · rw [update_of_ne hal]
    by_cases han : a = node
    · rw [han, hself, update_self]
    · rw [update_of_ne han]
      rcases mem_append.1 ha with hmem | hmem
      · exact helse a hmem hal
      · exact absurd (mem_singleton.1 hmem) han

/-! ### Searching -/

theorem find_seg {p c stop : α} {q : Option α}
    (hseg : Seg (fun a => some (next a)) (next p) (as ++ [c]) q)
    (has : ∀ a ∈ as, a ≠ node ∧ a ≠ stop) (hc : c = node ∨ c = stop) (hfuel : as.length < fuel) :
    ringFind next node stop fuel p = some ((p :: as).getLast (cons_ne_nil _ _), c) := by
  induction as generalizing p fuel with
  | nil =>
    obtain ⟨fuel, rfl⟩ := Nat.exists_eq_succ_of_ne_zero (Nat.pos_iff_ne_zero.1 hfuel)
    obtain ⟨hp, -⟩ := hseg
    have hno : ¬ (c ≠ node ∧ c ≠ stop) := fun h => hc.elim h.1 h.2
    simp only [ringFind, hp, if_neg hno, getLast_singleton]
  | cons a as ih =>
    have hpos := Nat.lt_of_le_of_lt (Nat.zero_le _) hfuel
    obtain ⟨fuel, rfl⟩ := Nat.exists_eq_succ_of_ne_zero (Nat.pos_iff_ne_zero.1 hpos)
    obtain ⟨hp, r, hr, hseg⟩ := hseg
    obtain rfl : next a = r := Option.some.inj hr
    simp only [ringFind, hp, if_pos (has a mem_cons_self)]
    rw [ih hseg (fun b hb => has b (mem_cons_of_mem _ hb)) (Nat.lt_of_succ_lt_succ hfuel)]
    rw [getLast_cons (cons_ne_nil a as)]

omit [DecidableEq α] in
theorem seg_last (h : Ring next handle l) {last : α} (hl : l.getLast? = some last) :
    Seg (fun a => some (next a)) (next last) l l.head? := by
  obtain ⟨init, rfl⟩ : ∃ init, l = init ++ [last] := by
    obtain ⟨init, hinit⟩ := getLast?_eq_some_iff.1 hl
    exact ⟨init, hinit⟩
  have hlink := Option.some.inj h.links.link_last
  rw [hlink]
  exact h.links

theorem remove_not_mem (h : Ring next handle l) (hne : l ≠ []) (hnode : node ∉ l)
    (hfuel : l.length ≤ fuel) : ringRemove next handle node fuel = .done (next, handle) := by
  obtain ⟨init, last, rfl⟩ := (eq_nil_or_concat l).resolve_left hne
  rw [concat_eq_append] at *
  have hlast : (init ++ [last]).getLast? = some last := by simp
  have hhandle : handle = some last := h.last.trans hlast
  subst hhandle
  have hnodup := h.nodup
  rw [nodup_append] at hnodup
  have hfind : ringFind next node last fuel last = _ := find_seg (h.seg_last hlast)
    (fun a ha => ⟨fun heq => hnode (heq ▸ mem_append_left _ ha),
      fun heq => hnodup.2.2 a ha last (by simp) heq⟩) (Or.inr rfl)
    (by rw [length_append, length_singleton] at hfuel; omega)
  have hne' : last ≠ node := fun heq => hnode (by simp [heq])
  unfold ringRemove
  simp only [hfind, if_pos hne']

theorem find (h : Ring next handle (as ++ node :: bs)) (hfuel : (as ++ node :: bs).length ≤ fuel) {last : α}
    (hlast : (as ++ node :: bs).getLast? = some last) :
    ringFind next node last fuel last = some ((last :: as).getLast (cons_ne_nil _ _), node) := by
  obtain ⟨-, hnodup, hdisj⟩ := nodup_append.1 h.nodup
  have hmem : last ∈ node :: bs := by
    rw [getLast?_append_cons] at hlast
    exact mem_of_getLast? hlast
  have hseg := h.seg_last hlast
  rw [append_cons] at hseg
  obtain ⟨r, hseg, -⟩ := Seg.append_iff.1 hseg
  rw [length_append, length_cons] at hfuel
  apply find_seg hseg _ (.inl rfl) (by omega)
  exact fun a ha => ⟨hdisj a ha node mem_cons_self, hdisj a ha last hmem⟩

omit [DecidableEq α] in
theorem getLast_before {last prev : α} (hlast : (as ++ node :: bs).getLast? = some last)
    (hprev : (bs ++ as).getLast? = some prev) : (last :: as).getLast (cons_ne_nil _ _) = prev := by
  rcases eq_nil_or_concat as with rfl | ⟨init, a, rfl⟩
  · rw [append_nil] at hprev
    rw [nil_append, getLast?_cons, hprev] at hlast
    exact (Option.some.inj hlast).symm
  · rw [concat_eq_append, ← append_assoc, getLast?_concat] at hprev
    obtain rfl := Option.some.inj hprev
    simp

theorem getLast?_without {last prev : α} (hnode : node ∉ bs) (hlast : (as ++ node :: bs).getLast? = some last)
    (hprev : (bs ++ as).getLast? = some prev) :
    (if last = node then some prev else some last) = (as ++ bs).getLast? := by
  rw [getLast?_append_cons] at hlast
  rcases eq_nil_or_concat bs with rfl | ⟨init, b, rfl⟩
  · obtain rfl : node = last := Option.some.inj hlast
    rw [if_pos rfl, ← hprev, append_nil, nil_append]
  · rw [concat_eq_append] at *
    rw [← cons_append, getLast?_concat] at hlast
    obtain rfl := Option.some.inj hlast
    have hne : b ≠ node := fun heq => hnode (heq ▸ mem_append_right _ (mem_singleton_self b))
    rw [if_neg hne, ← append_assoc, getLast?_concat]

theorem unlink (h : Ring next handle (as ++ node :: bs)) {prev : α} (hprev : (bs ++ as).getLast? = some prev) :
    Ring (update (update next prev (next node)) node none) (if handle = some node then some prev else handle)
      (as ++ bs) := by
  -- seen from `node`, it is the first node that is taken out
  have hring : Ring next (node :: bs ++ as).getLast? (node :: bs ++ as) := by
    apply swap
    rw [← h.last]
    exact h
  obtain ⟨hnode, -⟩ := nodup_cons.1 hring.nodup
  obtain ⟨last, hlast⟩ : ∃ last, (as ++ node :: bs).getLast? = some last := by
    cases hl : (as ++ node :: bs).getLast? with
    | none => simp at hl
    | some last => exact ⟨last, rfl⟩
  have hhandle : (if handle = some node then some prev else handle) = (as ++ bs).getLast? := by
    rw [h.last, hlast, ← getLast?_without (fun hmem => hnode (mem_append_left _ hmem)) hlast hprev]
    simp only [Option.some.injEq]
  rw [hhandle]
  apply swap
  apply (hring.tail hprev).congr
  rintro a ha
  apply update_of_ne
  rintro rfl
  exact hnode ha

theorem remove (h : Ring next handle (as ++ node :: bs)) (hfuel : (as ++ node :: bs).length ≤ fuel) :
    ∃ next' handle', ringRemove next handle node fuel = .done (next', handle') ∧
      Ring next' handle' (as ++ bs) ∧ ∀ a, a ∉ as ++ node :: bs → next' a = next a := by
  obtain ⟨last, hlast⟩ : ∃ last, (as ++ node :: bs).getLast? = some last := by
    cases hl : (as ++ node :: bs).getLast? with
    | none => simp at hl
    | some last => exact ⟨last, rfl⟩
  obtain rfl : handle = some last := h.last.trans hlast
  have hfind := h.find hfuel hlast
  have hnode : node ∉ bs ++ as := fun hmem =>
    (nodup_cons.1 (nodup_middle.1 h.nodup)).1 (perm_append_comm.mem_iff.1 hmem)
  unfold ringRemove
  cases hprev : (bs ++ as).getLast? with
  | none =>
    obtain ⟨rfl, rfl⟩ := append_eq_nil_iff.1 (getLast?_eq_none_iff.1 hprev)
    obtain rfl : node = last := Option.some.inj hlast
    rw [getLast_singleton] at hfind
    simp only [hfind, ne_eq, not_true_eq_false, if_false, if_true]
    exact ⟨next, none, rfl, Ring.nil next, fun _ _ => rfl⟩
  | some prev =>
    have hne : prev ≠ node := fun heq => hnode (heq ▸ mem_of_getLast? hprev)
    have hunlink := h.unlink hprev
    rw [getLast_before hlast hprev] at hfind
    simp only [Option.some.injEq] at hunlink
    simp only [hfind, ne_eq, not_true_eq_false, if_false, if_neg hne]
    refine ⟨_, _, rfl, hunlink, fun a ha => ?_⟩
    have han : a ≠ node := fun heq => ha (by simp [heq])
    have hap : a ≠ prev := by
      rintro rfl
      apply ha
      rcases mem_append.1 (mem_of_getLast? hprev) with hmem | hmem
      · exact mem_append_right _ (mem_cons_of_mem _ hmem)
      · exact mem_append_left _ hmem
    rw [update_of_ne han, update_of_ne hap]

theorem members (h : Ring next handle l) (hfuel : l.length ≤ fuel) :
    ringMembers next handle fuel = l := by
  rcases eq_nil_or_concat l with rfl | ⟨init, last, rfl⟩
  · rw [show handle = none from h.last]
    rfl
  rw [concat_eq_append] at *
  have hlast : (init ++ [last]).getLast? = some last := by simp
  have hhandle : handle = some last := h.last.trans hlast
  subst hhandle
  have hnot : last ∉ init := fun hmem => (nodup_append.1 h.nodup).2.2 last hmem last (by simp) rfl
  have hseg := h.seg_last hlast
  unfold ringMembers
  dsimp only
  generalize (init ++ [last]).head? = q at hseg
  rw [length_append, length_singleton] at hfuel
  suffices hwalk : ∀ p fuel, init.length < fuel → Seg (fun a => some (next a)) (next p) (init ++ [last]) q →
      ringWalk next last fuel p = init ++ [last] from hwalk last fuel (by omega) hseg
  clear hseg hfuel hlast h
  induction init with
  | nil =>
    intro p fuel hfuel hseg
    obtain ⟨fuel, rfl⟩ := Nat.exists_eq_succ_of_ne_zero (Nat.pos_iff_ne_zero.1 hfuel)
    obtain ⟨hp, -⟩ := hseg
    simp [ringWalk, hp]
  | cons a init ih =>
    intro p fuel hfuel hseg
    have hpos := Nat.lt_of_le_of_lt (Nat.zero_le _) hfuel
    obtain ⟨fuel, rfl⟩ := Nat.exists_eq_succ_of_ne_zero (Nat.pos_iff_ne_zero.1 hpos)
    obtain ⟨hp, r, hr, hseg⟩ := hseg
    obtain rfl : next a = r := Option.some.inj hr
    have hne : a ≠ last := fun heq => hnot (by simp [heq])
    simp only [ringWalk, hp, if_neg hne, cons_append]
    rw [ih (fun hmem => hnot (mem_cons_of_mem _ hmem)) a fuel (Nat.lt_of_succ_lt_succ hfuel) hseg]

end Ring

end Lib
