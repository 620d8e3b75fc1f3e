import Mathlib.Data.List.Pairwise
import SNetRts.Svpgw.Conslist

/-!
# Order indices follow the cons-list

The order indices of the nodes on the list fork, each with every later one, and so they are in order. A node that
is inserted takes the room that its successor makes by lengthening its index, or by raising the last item; what
was before the successor is before both. A node that is pushed counts on from the first item of the tail, which
works until there is no greater item.
-/

namespace SNet.Svpgw

open Function (update_of_ne update_self)

open Lib IndexVector List

namespace Conslist

variable {lst lst' : Conslist} {ns pre post : List Nat} {n n1 n2 : Nat} {v : Item}

def idx (lst : Conslist) (n : Nat) : List Item := ((lst.nodes n).ordIdx.getD none).items

/-- The list holds the nodes `ns`, and their order indices are in order. -/
structure Sound (lst : Conslist) (ns : List Nat) : Prop where
  spans : lst.Spans ns
  free : ∀ n ∉ ns, lst.nodes n = .init
  ordIdx : ∀ n ∈ ns, (lst.nodes n).ordIdx = some (some (lst.idx n))
  labels : Labels lst.idx (fun n => (lst.nodes n).multCnt) ns

theorem sound_init : Sound init [] :=
  ⟨⟨nodup_nil, fun _ => by simp [init, ConsLstNode.init], rfl, rfl, trivial⟩, fun _ _ => rfl, nofun,
    .nil, nofun, nofun⟩

theorem idx_congr (h : (lst'.nodes n).ordIdx = (lst.nodes n).ordIdx) : lst'.idx n = lst.idx n := by
  rw [idx, idx, h]

theorem Sound.ordered (h : Sound lst ns) : lst.Ordered ns := by
  refine h.labels.order.imp_of_mem fun {a b} ha hb hab => ⟨_, _, h.ordIdx a ha, h.ordIdx b hb, ?_⟩
  have hless : compare false (some (lst.idx a)) (some (lst.idx b)) = .less := by
    rw [compare_some false (h.labels.pos a ha).1 (h.labels.pos b hb).1, order_less_iff]
    exact hab.1.lex
  exact ⟨hless, compare_greater_iff.2 hless⟩

theorem Sound.sorted (h : Sound lst ns) : lst.Sorted := ⟨ns, h.spans, h.ordered⟩

theorem Sound.notMem (h : Sound lst ns) (hn : (lst.nodes n).attached = false) : n ∉ ns := by
  rw [← h.spans.2.1, hn]
  decide

/-! ## Push -/

/-- The node `n` is behind the others, with the order index `v`. -/
structure Pushed (lst lst' : Conslist) (ns : List Nat) (n : Nat) (v : Item) : Prop where
  spans : lst'.Spans (ns ++ [n])
  free : ∀ a ∉ ns ++ [n], lst'.nodes a = .init
  old : ∀ a, a ≠ n → (lst'.nodes a).ordIdx = (lst.nodes a).ordIdx ∧ (lst'.nodes a).multCnt = (lst.nodes a).multCnt
  new : (lst'.nodes n).ordIdx = some (some [v]) ∧ (lst'.nodes n).multCnt = 0

def IsNext (lst : Conslist) (v : Item) : Prop :=
  lst.tail = none ∧ v = 1 ∨ ∃ t x s, lst.tail = some t ∧ lst.idx t = x :: s ∧ v = x + 1

theorem Sound.linkTail (h : Sound lst ns) (n : Nat) :
    ∃ v linked, lst.linkTail n = some (v, linked) ∧ lst.IsNext v ∧
      ∀ a, linked.nodes a = if lst.tail = some a then { lst.nodes a with next := some n } else lst.nodes a := by
  cases htail : lst.tail with
  | none => exact ⟨1, lst, by rw [Conslist.linkTail, htail], .inl ⟨htail, rfl⟩, fun a => (if_neg nofun).symm⟩
  | some t =>
    have ht : t ∈ ns := mem_of_getLast? (h.spans.2.2.2.1 ▸ htail)
    obtain ⟨x, s, hidx⟩ := exists_cons_of_ne_nil (h.labels.pos t ht).1
    refine ⟨x + 1, lst.setNode t { lst.nodes t with next := some n }, ?_, .inr ⟨t, x, s, htail, hidx, rfl⟩, fun a => ?_⟩
    · rw [Conslist.linkTail, htail]
      simp [h.ordIdx t ht, hidx, getItemValue, IndexVector.items]
    · by_cases hat : a = t
      · subst hat
        simp [setNode]
      · simp [setNode, hat, Ne.symm hat]

theorem Sound.spans_push (h : Sound lst ns) (hn : n ∉ ns) (hhead : lst'.head = lst.head.or (some n))
    (htail : lst'.tail = some n) (hnew : lst'.nodes n = ⟨true, some (some [v]), 0, none, lst.tail⟩)
    (hold : ∀ a, a ≠ n →
      lst'.nodes a = if lst.tail = some a then { lst.nodes a with next := some n } else lst.nodes a) :
    lst'.Spans (ns ++ [n]) := by
  obtain ⟨hnodup, hattached, hhd, htl, hboth⟩ := h.spans
  have hne : ∀ a ∈ ns, a ≠ n := fun a ha heq => hn (heq ▸ ha)
  refine ⟨nodup_append.2 ⟨hnodup, nodup_singleton n, fun a ha b hb => ?_⟩, fun a => ?_, ?_, ?_, ?_⟩
  · rw [mem_singleton.1 hb]
    exact hne a ha
  · by_cases ha : a = n
    · simp [ha, hnew]
    · have hmem : a ∈ ns ++ [n] ↔ a ∈ ns := by simp [ha]
      rw [hmem, hold a ha, ← hattached]
      split_ifs <;> rfl
  · rw [hhead, hhd, head?_append]
    rfl
  · rw [htail, getLast?_concat]
  · refine Both.middle_iff.2 ⟨hboth.set_next hnodup (fun a ha => ?_) (fun a ha hlast => ?_) fun a hlast => ?_, ?_, ?_,
      trivial⟩
    · rw [hold a (hne a ha)]
      split_ifs <;> rfl
    · rw [hold a (hne a ha), if_neg (htl ▸ hlast)]
    · rw [hold a (hne a (mem_of_getLast? hlast)), if_pos (htl ▸ hlast)]
    · rw [hnew, htl, Option.or_none]
    · rw [hnew]
      rfl

theorem Sound.push (h : Sound lst ns) (hn : (lst.nodes n).attached = false) :
    ∃ v lst', lst.push n = some lst' ∧ lst.IsNext v ∧ Pushed lst lst' ns n v := by
  have hnot := h.notMem hn
  obtain ⟨v, linked, hlinked, hnext, hnodes⟩ := h.linkTail n
  have hinit : lst.nodes n = ⟨false, none, 0, none, none⟩ := h.free n hnot
  refine ⟨v, { linked.setNode n ⟨true, some (some [v]), 0, none, lst.tail⟩ with
    tail := some n, head := lst.head.or (some n) }, ?_, hnext, ?_⟩
  · rw [Conslist.push, hinit, hlinked]
    rfl
  · have hold : ∀ a, a ≠ n → Function.update linked.nodes n ⟨true, some (some [v]), 0, none, lst.tail⟩ a =
        if lst.tail = some a then { lst.nodes a with next := some n } else lst.nodes a := fun a ha => by
      rw [update_of_ne ha, hnodes]
    refine ⟨h.spans_push hnot rfl rfl (update_self ..) hold, fun a ha => ?_, fun a ha => ?_, ?_⟩
    · rw [mem_append, mem_singleton, not_or] at ha
      refine (hold a ha.2).trans ?_
      rw [if_neg fun htail => ha.1 (mem_of_getLast? (h.spans.2.2.2.1 ▸ htail)), h.free a ha.1]
    · dsimp only [setNode]
      rw [hold a ha]
      split_ifs <;> exact ⟨rfl, rfl⟩
    · dsimp only [setNode]
      rw [update_self]
      exact ⟨rfl, rfl⟩

theorem Pushed.idx_new (h : Pushed lst lst' ns n v) : lst'.idx n = [v] := by
  rw [idx, h.new.1]
  rfl

theorem Pushed.idx_old (h : Pushed lst lst' ns n v) {a : Nat} (ha : a ≠ n) : lst'.idx a = lst.idx a :=
  idx_congr (h.old a ha).1

theorem Sound.above (h : Sound lst ns) (hnext : lst.IsNext v) (hok : lst.Ok (.push n)) :
    0 < v ∧ ∀ a ∈ ns, ∃ x t, lst.idx a = x :: t ∧ Below x v := by
  obtain ⟨-, -, -, htl, -⟩ := h.spans
  rcases hnext with ⟨htail, rfl⟩ | ⟨t, x, s, htail, hidx, rfl⟩
  · rw [htl, getLast?_eq_none_iff] at htail
    subst htail
    exact ⟨by decide, nofun⟩
  · obtain ⟨as, hns⟩ := getLast?_eq_some_iff.1 (htl ▸ htail)
    subst hns
    have ht : t ∈ as ++ [t] := mem_append_right as (mem_singleton_self t)
    have hbelow : Below x (x + 1) := by
      apply below_succ ((h.labels.pos t ht).2 x (hidx ▸ mem_cons_self))
      rintro rfl
      apply hok t _ htail (h.ordIdx t ht)
      rw [hidx]
      rfl
    refine ⟨hbelow.right_pos, fun a ha => ?_⟩
    obtain ⟨y, u, hy, hyx⟩ := h.labels.first_le hidx ha
    refine ⟨y, u, hy, ?_⟩
    rcases hyx with rfl | hyx
    · exact hbelow
    · exact hyx.trans hbelow

theorem Sound.pushed (h : Sound lst ns) (hn : n ∉ ns) (hpushed : Pushed lst lst' ns n v) (hnext : lst.IsNext v)
    (hok : lst.Ok (.push n)) : Sound lst' (ns ++ [n]) := by
  obtain ⟨hpos, hv⟩ := h.above hnext hok
  refine ⟨hpushed.spans, hpushed.free, fun a ha => ?_,
    h.labels.push hn hpos hv (fun a ha => ⟨hpushed.idx_old ha, (hpushed.old a ha).2⟩) hpushed.idx_new hpushed.new.2⟩
  by_cases han : a = n
  · rw [han, hpushed.idx_new, hpushed.new.1]
  · rw [mem_append, mem_singleton, or_iff_left han] at ha
    rw [hpushed.idx_old han, (hpushed.old a han).1, h.ordIdx a ha]

theorem not_less_wrapped (s : List Item) :
    compare false (some (BitVec.allOnes 64 :: s)) (some [0]) ≠ .less ∧
      compare false (some [0]) (some (BitVec.allOnes 64 :: s)) ≠ .less := by
  constructor
  · rw [compare_some false (cons_ne_nil _ _) (cons_ne_nil _ _), order_cons]
    simp [Below]
  · rw [compare_some false (cons_ne_nil _ _) (cons_ne_nil _ _), order_cons]
    simp [Below]

theorem Sound.not_sorted (h : Sound lst ns) (hn : n ∉ ns) (hpushed : Pushed lst lst' ns n v) (hnext : lst.IsNext v)
    (hok : ¬ lst.Ok (.push n)) : ¬ lst'.Sorted := by
  rintro ⟨ns', ⟨-, hattached', -⟩, hordered⟩
  simp only [Ok, not_forall, not_not] at hok
  obtain ⟨t, w, htail, hw, hval⟩ := hok
  obtain ⟨-, -, -, htl, -⟩ := h.spans
  have ht : t ∈ ns := mem_of_getLast? (htl ▸ htail)
  have htn : t ≠ n := fun heq => hn (heq ▸ ht)
  have hmem : ∀ a ∈ ns ++ [n], a ∈ ns' := fun a ha => (hattached' a).1 ((hpushed.spans.2.1 a).2 ha)
  have hidx := h.ordIdx t ht
  rw [hw, Option.some.injEq] at hidx
  subst hidx
  rcases hnext with ⟨hnone, -⟩ | ⟨t', x, s, htail', hx, rfl⟩
  · rw [hnone] at htail
    cases htail
  · rw [htail] at htail'
    cases htail'
    rw [hx] at hval
    cases hval
    have hidx_t : (lst'.nodes t).ordIdx = some (some (BitVec.allOnes 64 :: s)) := by
      rw [(hpushed.old t htn).1, hw, hx]
    have hidx_n : (lst'.nodes n).ordIdx = some (some [0]) := hpushed.new.1
    have hor : ns'.Pairwise fun a b => Less lst' a b ∨ Less lst' b a := hordered.imp .inl
    have hsymm : Std.Symm fun a b => Less lst' a b ∨ Less lst' b a := ⟨fun _ _ => Or.symm⟩
    rcases hor.forall (hmem t (mem_append_left _ ht)) (hmem n (mem_append_right _ (mem_singleton_self n)))
      htn with ⟨v', w', hv', hw', h', -⟩ | ⟨v', w', hv', hw', h', -⟩
    · rw [hidx_t] at hv'
      rw [hidx_n] at hw'
      cases hv'
      cases hw'
      exact (not_less_wrapped s).1 h'
    · rw [hidx_n] at hv'
      rw [hidx_t] at hw'
      cases hv'
      cases hw'
      exact (not_less_wrapped s).2 h'

/-! ## Insert before -/

/-- The node `n1` is before `n2`, with the order index `v1`, and that of `n2` is `v2`. -/
structure Inserted (lst lst' : Conslist) (n1 n2 : Nat) (v1 v2 : IndexVector) : Prop where
  head : lst'.head = if lst.head = some n2 then some n1 else lst.head
  tail : lst'.tail = lst.tail
  first : lst'.nodes n1 = ⟨true, some v1, 0, some n2, (lst.nodes n2).prev⟩
  second : lst'.nodes n2 = { lst.nodes n2 with
    prev := some n1, ordIdx := some v2, multCnt := ((lst.nodes n2).multCnt + 1) % 2 ^ 32 }
  old : ∀ a, a ≠ n1 → a ≠ n2 → lst'.nodes a =
    if (lst.nodes n2).prev = some a then { lst.nodes a with next := some n1 } else lst.nodes a

theorem insertBefore_eq {v v1 v2 : IndexVector} (hn1 : lst.nodes n1 = ⟨false, none, 0, none, none⟩)
    (hn2 : (lst.nodes n2).attached = true) (hne : n2 ≠ n1) (hidx : (lst.nodes n2).ordIdx = some v)
    (hmake : makeRoom (lst.nodes n2).multCnt v = some (v1, v2))
    (hprev : ∀ p, (lst.nodes n2).prev = some p → p ≠ n1 ∧ p ≠ n2) :
    ∃ lst', lst.insertBefore n1 n2 = some lst' ∧ Inserted lst lst' n1 n2 v1 v2 := by
  unfold insertBefore
  simp only [hn1, hn2, hidx, hmake, Bool.false_eq_true, not_true_eq_false, ne_eq, or_self, if_false, Option.map_some]
  refine ⟨_, rfl, ?_⟩
  cases hp : (lst.nodes n2).prev with
  | none =>
    refine ⟨rfl, rfl, ?_, ?_, fun a ha1 ha2 => ?_⟩
    · simp [setNode, update_of_ne hne.symm, hp]
    · simp [setNode, hn2]
    · simp [setNode, update_of_ne ha1, update_of_ne ha2, hp]
  | some p =>
    obtain ⟨hp1, hp2⟩ := hprev p hp
    refine ⟨rfl, rfl, ?_, ?_, fun a ha1 ha2 => ?_⟩
    · simp [setNode, update_of_ne hne.symm, update_of_ne hp1.symm, hp]
    · simp [setNode, update_of_ne hp2.symm, hn2]
    · by_cases hap : a = p
      · subst hap
        simp [setNode, update_of_ne ha1, update_of_ne ha2, hp]
      · simp [setNode, update_of_ne ha1, update_of_ne ha2, update_of_ne hap, hp, Ne.symm hap]

theorem Sound.spans_insert (h : Sound lst (pre ++ n2 :: post)) (hn1 : n1 ∉ pre ++ n2 :: post) {v1 v2 : IndexVector}
    (hins : Inserted lst lst' n1 n2 v1 v2) : lst'.Spans (pre ++ n1 :: n2 :: post) := by
  obtain ⟨hnodup, hattached, hhd, htl, hboth⟩ := h.spans
  obtain ⟨hpre, hprev, hnext2, hpost⟩ := Both.middle_iff.1 hboth
  rw [Option.or_none] at hprev
  have hnodup' : (pre ++ n1 :: n2 :: post).Nodup := nodup_middle.2 (nodup_cons.2 ⟨hn1, hnodup⟩)
  have hdisjoint := (nodup_append.1 hnodup).2.2
  have hne_pre : ∀ a ∈ pre, a ≠ n1 ∧ a ≠ n2 := fun a ha =>
    ⟨fun heq => hn1 (heq ▸ mem_append_left _ ha), hdisjoint a ha n2 mem_cons_self⟩
  have hn2_post : n2 ∉ post := (nodup_cons.1 (nodup_append.1 hnodup).2.1).1
  have hne_post : ∀ a ∈ post, a ≠ n1 ∧ a ≠ n2 := fun a ha =>
    ⟨fun heq => hn1 (heq ▸ mem_append_right _ (mem_cons_of_mem _ ha)), fun heq => hn2_post (heq ▸ ha)⟩
  -- a node behind the two has another one before it than the last of the front part
  have hsame : ∀ a ∈ post, lst'.nodes a = lst.nodes a := by
    intro a ha
    rw [hins.old a (hne_post a ha).1 (hne_post a ha).2, if_neg]
    intro hlast
    exact hdisjoint a (mem_of_getLast? (hprev ▸ hlast)) a (mem_cons_of_mem _ ha) rfl
  refine ⟨hnodup', fun a => ?_, ?_, ?_, Both.middle_iff.2 ⟨?_, ?_, ?_, ?_, ?_, ?_⟩⟩
  · by_cases ha1 : a = n1
    · simp [ha1, hins.first]
    · by_cases ha2 : a = n2
      · rw [ha2, hins.second]
        exact iff_of_true ((hattached n2).2 (by simp)) (by simp)
      · have hmem : a ∈ pre ++ n1 :: n2 :: post ↔ a ∈ pre ++ n2 :: post := by simp [ha1]
        rw [hmem, ← hattached, hins.old a ha1 ha2]
        split_ifs <;> rfl
  · rw [hins.head, hhd]
    cases pre with
    | nil => exact if_pos rfl
    | cons a pre => exact if_neg fun heq => (hne_pre a mem_cons_self).2 (Option.some.inj heq)
  · rw [hins.tail, htl, getLast?_append, getLast?_append, getLast?_cons_cons]
  · refine hpre.set_next (nodup_append.1 hnodup).1 (fun a ha => ?_) (fun a ha hlast => ?_) fun a hlast => ?_
    · rw [hins.old a (hne_pre a ha).1 (hne_pre a ha).2]
      split_ifs <;> rfl
    · rw [hins.old a (hne_pre a ha).1 (hne_pre a ha).2, if_neg (hprev ▸ hlast)]
    · have ha := mem_of_getLast? hlast
      rw [hins.old a (hne_pre a ha).1 (hne_pre a ha).2, if_pos (hprev ▸ hlast)]
  · rw [hins.first, Option.or_none]
    exact hprev
  · rw [hins.first]
    rfl
  · exact congrArg ConsLstNode.prev hins.second
  · exact (congrArg ConsLstNode.next hins.second).trans hnext2
  · exact hpost.congr (fun a ha => congrArg ConsLstNode.next (hsame a ha)) fun a ha => congrArg ConsLstNode.prev (hsame a ha)

theorem Sound.insertBefore (h : Sound lst ns) (hn1 : (lst.nodes n1).attached = false)
    (hn2 : (lst.nodes n2).attached = true) : ∃ lst' ns', lst.insertBefore n1 n2 = some lst' ∧ Sound lst' ns' := by
  have hmem := (h.spans.2.1 n2).1 hn2
  obtain ⟨pre, post, rfl⟩ := append_of_mem hmem
  have hnot := h.notMem hn1
  have hne : n2 ≠ n1 := fun heq => hnot (heq ▸ hmem)
  have hinit : lst.nodes n1 = ⟨false, none, 0, none, none⟩ := h.free n1 hnot
  obtain ⟨hnodup, -, -, -, hboth⟩ := h.spans
  have hprev := (Both.middle_iff.1 hboth).2.1
  rw [Option.or_none] at hprev
  obtain ⟨v1, v2, hmake, hroom⟩ := h.labels.makeRoom
  obtain ⟨lst', heq, hins⟩ := insertBefore_eq hinit hn2 hne (h.ordIdx n2 hmem) hmake fun p hp => by
    have hp' := mem_of_getLast? (hprev ▸ hp)
    exact ⟨fun heq => hnot (heq ▸ mem_append_left _ hp'),
      (nodup_append.1 hnodup).2.2 p hp' n2 mem_cons_self⟩
  have hold : ∀ a, a ≠ n1 → a ≠ n2 →
      (lst'.nodes a).ordIdx = (lst.nodes a).ordIdx ∧ (lst'.nodes a).multCnt = (lst.nodes a).multCnt := by
    intro a ha1 ha2
    rw [hins.old a ha1 ha2]
    split_ifs <;> exact ⟨rfl, rfl⟩
  have hidx1 : lst'.idx n1 = v1 := by
    rw [idx, hins.first]
    rfl
  have hidx2 : lst'.idx n2 = v2 := by
    rw [idx, hins.second]
    rfl
  refine ⟨lst', pre ++ n1 :: n2 :: post, heq, h.spans_insert hnot hins, fun a ha => ?_, fun a ha => ?_, ?_⟩
  · have ha1 : a ≠ n1 := fun heq => ha (by simp [heq])
    have ha2 : a ≠ n2 := fun heq => ha (by simp [heq])
    have hafter : a ∉ pre ++ n2 :: post := fun hmem => ha (by
      rw [mem_append, mem_cons] at hmem
      rw [mem_append, mem_cons, mem_cons]
      exact hmem.imp id .inr)
    rw [hins.old a ha1 ha2, if_neg, h.free a hafter]
    exact fun hp => hafter (mem_append_left _ (mem_of_getLast? (hprev ▸ hp)))
  · by_cases ha1 : a = n1
    · rw [ha1, hidx1, hins.first]
    · by_cases ha2 : a = n2
      · rw [ha2, hidx2, hins.second]
      · have hmem : a ∈ pre ++ n2 :: post := by simpa [ha1] using ha
        rw [idx_congr (hold a ha1 ha2).1, (hold a ha1 ha2).1, h.ordIdx a hmem]
  · rw [← hidx1, ← hidx2] at hroom
    refine h.labels.insert hnot ?_ ?_ ?_ fun a ha1 ha2 => ⟨idx_congr (hold a ha1 ha2).1, (hold a ha1 ha2).2⟩
    · exact (nodup_cons.1 (nodup_middle.1 hnodup)).1
    · rw [hins.second]
      exact hroom
    · rw [hins.first]

/-! ## Pop -/

/-- The node `n` is no longer before the others. -/
structure Popped (lst lst' : Conslist) (n : Nat) (ns : List Nat) : Prop where
  head : lst'.head = ns.head?
  tail : lst'.tail = ns.getLast?
  free : lst'.nodes n = .init
  old : ∀ a, a ≠ n → lst'.nodes a = if ns.head? = some a then { lst.nodes a with prev := none } else lst.nodes a

theorem Sound.pop_eq (h : Sound lst (n :: ns)) : ∃ lst', lst.pop = some (some n, lst') ∧ Popped lst lst' n ns := by
  obtain ⟨hnodup, -, hhd, htl, hboth⟩ := h.spans
  have hnot := (nodup_cons.1 hnodup).1
  have hnext : (lst.nodes n).next = ns.head? := hboth.2.1.trans Option.or_none
  rw [Conslist.pop, hhd, head?_cons]
  dsimp only
  cases ns with
  | nil =>
    rw [hnext, head?_nil, if_neg fun hcond => hcond.2 rfl]
    refine ⟨_, rfl, rfl, if_pos htl, ?_, fun a ha => ?_⟩
    · simp [setNode, ConsLstNode.init]
    · simp [setNode, update_of_ne ha]
  | cons b ns =>
    rw [getLast?_cons_cons] at htl
    have htailb : lst.tail ≠ some n := fun heq => hnot (mem_of_getLast? (htl ▸ heq))
    have hb : b ≠ n := fun heq => hnot (heq ▸ mem_cons_self)
    rw [hnext, head?_cons, if_neg fun hcond => htailb hcond.1]
    refine ⟨_, rfl, rfl, (if_neg htailb).trans htl, ?_, fun a ha => ?_⟩
    · simp [setNode, ConsLstNode.init]
    · by_cases hab : a = b
      · simp [setNode, update_of_ne hb, hab]
      · simp [setNode, update_of_ne ha, hab, Ne.symm hab]

theorem Sound.pop (h : Sound lst (n :: ns)) : ∃ lst', lst.pop = some (some n, lst') ∧ Sound lst' ns ∧
    ∀ a ∈ ns, lst'.idx a = lst.idx a := by
  obtain ⟨hnodup, hattached, -, -, hboth⟩ := h.spans
  obtain ⟨hnot, hnodup'⟩ := nodup_cons.1 hnodup
  have hne : ∀ a ∈ ns, a ≠ n := fun a ha heq => hnot (heq ▸ ha)
  obtain ⟨lst', hpop, hpopped⟩ := h.pop_eq
  have hkeep : ∀ a, a ≠ n → (lst'.nodes a).attached = (lst.nodes a).attached ∧
      (lst'.nodes a).ordIdx = (lst.nodes a).ordIdx ∧ (lst'.nodes a).multCnt = (lst.nodes a).multCnt ∧
      (lst'.nodes a).next = (lst.nodes a).next := by
    intro a ha
    rw [hpopped.old a ha]
    split_ifs <;> exact ⟨rfl, rfl, rfl, rfl⟩
  have hidx : ∀ a ∈ ns, lst'.idx a = lst.idx a := fun a ha => idx_congr (hkeep a (hne a ha)).2.1
  refine ⟨lst', hpop, ⟨⟨hnodup', fun a => ?_, hpopped.head, hpopped.tail, ?_⟩, fun a ha => ?_, fun a ha => ?_, ?_⟩, hidx⟩
  · by_cases ha : a = n
    · rw [ha, hpopped.free]
      exact iff_of_false Bool.false_ne_true hnot
    · rw [(hkeep a ha).1, hattached, mem_cons, or_iff_right ha]
  · refine hboth.2.2.set_prev hnodup' (fun a ha => (hkeep a (hne a ha)).2.2.2) (fun a ha hfirst => ?_)
      fun a hfirst => ?_
    · rw [hpopped.old a (hne a ha), if_neg hfirst]
    · rw [hpopped.old a (hne a (mem_of_head? hfirst)), if_pos hfirst]
  · by_cases han : a = n
    · rw [han, hpopped.free]
    · rw [hpopped.old a han, if_neg fun hfirst => ha (mem_of_head? hfirst),
        h.free a fun hmem => (mem_cons.1 hmem).elim han ha]
  · rw [hidx a ha, (hkeep a (hne a ha)).2.1, h.ordIdx a (mem_cons_of_mem n ha)]
  · exact h.labels.tail.congr fun a ha => ⟨hidx a ha, (hkeep a (hne a ha)).2.2.1⟩

/-! ## Runs -/

theorem Sound.exec (h : Sound lst ns) {op : Op} (hasserted : lst.Asserted op) (hok : lst.Ok op) :
    ∃ lst' ns', lst.exec op = some lst' ∧ Sound lst' ns' := by
  cases op with
  | push n =>
    obtain ⟨v, lst', heq, hnext, hpushed⟩ := h.push hasserted
    exact ⟨lst', ns ++ [n], heq, h.pushed (h.notMem hasserted) hpushed hnext hok⟩
  | insertBefore n1 n2 => exact h.insertBefore hasserted.1 hasserted.2
  | pop =>
    cases ns with
    | nil =>
      refine ⟨lst, [], ?_, h⟩
      have hhead : lst.head = none := h.spans.2.2.1
      rw [Conslist.exec, Conslist.pop, hhead]
      rfl
    | cons n ns =>
      obtain ⟨lst', heq, hsound, -⟩ := h.pop
      exact ⟨lst', ns, by rw [Conslist.exec, heq]; rfl, hsound⟩

theorem FollowsList.sorted {ops : List Op} (h : lst.FollowsList ops) : lst.Sorted := by
  cases ops with
  | nil => exact h
  | cons op ops => exact h.1

theorem Sound.followsList_iff (h : Sound lst ns) (ops : List Op) : lst.FollowsList ops ↔ lst.RunOk ops := by
  induction ops generalizing lst ns with
  | nil => exact iff_of_true h.sorted trivial
  | cons op ops ih =>
    constructor
    · rintro ⟨-, hstep⟩ hasserted
      obtain ⟨lst', heq, hfollows⟩ := hstep hasserted
      have hok : lst.Ok op := by
        by_contra hok
        cases op with
        | push n =>
          obtain ⟨v, lst'', heq', hnext, hpushed⟩ := h.push hasserted
          have hsame : lst'' = lst' := Option.some.inj (heq'.symm.trans heq)
          exact h.not_sorted (h.notMem hasserted) hpushed hnext hok (hsame ▸ hfollows.sorted)
        | insertBefore n1 n2 => exact hok trivial
        | pop => exact hok trivial
      refine ⟨hok, fun lst'' heq' => ?_⟩
      obtain ⟨lst₁, ns', heq₁, hsound⟩ := h.exec hasserted hok
      rw [heq'] at heq heq₁
      cases heq
      cases heq₁
      exact (ih hsound).1 hfollows
    · intro hrun
      refine ⟨h.sorted, fun hasserted => ?_⟩
      obtain ⟨hok, hnext⟩ := hrun hasserted
      obtain ⟨lst', ns', heq, hsound⟩ := h.exec hasserted hok
      exact ⟨lst', heq, (ih hsound).2 (hnext lst' heq)⟩

/-- The order indices follow the list as long as no node is pushed behind one with the greatest item. -/
theorem order_indices_follow_iff (ops : List Op) : init.FollowsList ops ↔ init.RunOk ops :=
  sound_init.followsList_iff ops

/-- Every node is pushed behind the one before it, which is popped then. -/
def climb : Nat → Nat → List Op
  | 0, n => [.push (n + 1)]
  | k + 1, n => .push (n + 1) :: .pop :: climb k (n + 1)

theorem not_runOk_climb (k : Nat) (h : Sound lst [n]) (hidx : lst.idx n = [v]) (hv : v.toNat + k = 2 ^ 64 - 1) :
    ¬ lst.RunOk (climb k n) := by
  have htail : lst.tail = some n := h.spans.2.2.2.1
  have hfree : (lst.nodes (n + 1)).attached = false := by
    rw [h.free (n + 1) (by simp)]
    rfl
  induction k generalizing lst n v with
  | zero =>
    intro hrun
    apply (hrun hfree).1 n (some [v]) htail
    · rw [h.ordIdx n (mem_singleton_self n), hidx]
    · exact congrArg some (BitVec.eq_of_toNat_eq hv)
  | succ k ih =>
    intro hrun
    obtain ⟨hok, hnext⟩ := hrun hfree
    obtain ⟨w, lst', heq, hw, hpushed⟩ := h.push hfree
    have hsound : Sound lst' (n :: [n + 1]) := h.pushed (h.notMem hfree) hpushed hw hok
    obtain ⟨lst'', hpop, hsound', hkeep⟩ := hsound.pop
    have hrest := (hnext lst' heq trivial).2 lst'' (by rw [Conslist.exec, hpop]; rfl)
    rcases hw with ⟨hnone, -⟩ | ⟨t, x, s, ht, hx, rfl⟩
    · rw [htail] at hnone
      cases hnone
    · rw [htail] at ht
      cases ht
      rw [hidx] at hx
      cases hx
      refine ih hsound' ((hkeep _ (mem_singleton_self _)).trans hpushed.idx_new) ?_ hsound'.spans.2.2.2.1 ?_ hrest
      · have hone : (1 : Item).toNat = 1 := rfl
        rw [BitVec.toNat_add, hone]
        omega
      · rw [hsound'.free _ (by simp)]
        rfl

theorem exists_first : ∃ lst, init.exec (.push 0) = some lst ∧ Sound lst [0] ∧ lst.idx 0 = [1] := by
  obtain ⟨v, lst, heq, hv, hpushed⟩ := sound_init.push (n := 0) rfl
  have hok : init.Ok (.push 0) := fun t v htail => absurd htail nofun
  refine ⟨lst, heq, sound_init.pushed not_mem_nil hpushed hv hok, ?_⟩
  rcases hv with ⟨-, rfl⟩ | ⟨t, x, s, htail, -⟩
  · exact hpushed.idx_new
  · cases htail

/-- The last node that is pushed gets 0, which compares with nothing. -/
theorem index_starts_again : ¬ init.FollowsList (.push 0 :: climb (2 ^ 64 - 2) 0) := by
  rw [sound_init.followsList_iff]
  intro hrun
  obtain ⟨lst, heq, hsound, hidx⟩ := exists_first
  exact not_runOk_climb _ hsound hidx rfl ((hrun rfl).2 lst heq)

end Conslist

end SNet.Svpgw
