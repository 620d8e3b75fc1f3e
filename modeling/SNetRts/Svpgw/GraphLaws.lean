import SNetRts.Svpgw.GraphIndices

/-!
# The laws of the indices

The indices of places are different, in order, and those of an operand begin with that of its combinator, as long as
the nodes of a segment can be counted in 64 bits. A later enumeration changes them exactly where the node that it
begins with stands behind a star or a split.
-/

namespace SNet.Svpgw

open Relation IndexVector List

namespace Gnodes

variable {g g' g'' : Gnodes} {n m p r c i j k a b : Nat} {S : Set Nat}

/-! ## What an enumeration leaves -/

/-- Only indices have changed, and none before `a`. -/
def Touches (g g' : Gnodes) (a : Nat) : Prop :=
  (∀ k, k < a → g'.nodes k = g.nodes k) ∧ ∀ k, ∃ idx, g'.nodes k = { g.nodes k with idx := idx }

theorem Touches.refl (g : Gnodes) (a : Nat) : Touches g g a := ⟨fun _ _ => rfl, fun k => ⟨(g.nodes k).idx, rfl⟩⟩

theorem Touches.trans (h : Touches g g' a) (h' : Touches g' g'' a) : Touches g g'' a := by
  refine ⟨fun k hk => (h'.1 k hk).trans (h.1 k hk), fun k => ?_⟩
  obtain ⟨idx, hidx⟩ := h.2 k
  obtain ⟨idx', hidx'⟩ := h'.2 k
  exact ⟨idx', by rw [hidx', hidx]⟩

theorem Touches.mono (h : Touches g g' b) (hab : a ≤ b) : Touches g g' a :=
  ⟨fun k hk => h.1 k (Nat.lt_of_lt_of_le hk hab), h.2⟩

theorem Touches.step (h : Touches g g' a) (n m : Nat) : g'.Step n m ↔ g.Step n m := by
  obtain ⟨idx, hidx⟩ := h.2 n
  unfold Step Next Operand
  rw [hidx]

theorem touches_setNode (g : Gnodes) (n : Nat) (idx : IndexVector) :
    Touches g (g.setNode n { g.nodes n with idx := idx }) n := by
  refine ⟨fun k hk => Function.update_of_ne (Nat.ne_of_lt hk) .., fun k => ?_⟩
  by_cases hk : k = n
  · subst hk
    exact ⟨idx, Function.update_self ..⟩
  · exact ⟨(g.nodes k).idx, Function.update_of_ne hk ..⟩

def Forward (g : Gnodes) : Prop := ∀ n m, g.Step n m → n < m

theorem Forward.of_touches (h : Forward g) (ht : Touches g g' a) : Forward g' := fun n m hstep =>
  h n m ((ht.step n m).1 hstep)

def Frames (segment : Nat → IndexVector → Gnodes → Option Gnodes) : Prop :=
  ∀ r idx g g', Forward g → segment r idx g = some g' → Touches g g' r

theorem touches_branches {segment : Nat → IndexVector → Gnodes → Option Gnodes} (hsegment : Frames segment)
    {idx : IndexVector} {groots : List (Option Nat)} (hforward : Forward g) (hle : ∀ r, some r ∈ groots → a ≤ r)
    (hrun : enumerateBranches segment idx i groots g = some g') : Touches g g' a := by
  induction groots generalizing i g with
  | nil =>
    cases hrun
    exact .refl _ a
  | cons groot groots ih =>
    cases groot with
    | none => cases hrun
    | some r =>
      rw [enumerateBranches] at hrun
      cases hseg : segment r ((idx.push [-(BitVec.ofNat 64 (i + 1))]).push [0]) g with
      | none =>
        rw [hseg] at hrun
        cases hrun
      | some g1 =>
        rw [hseg] at hrun
        have ht := (hsegment r _ g g1 hforward hseg).mono (hle r mem_cons_self)
        exact ht.trans (ih (hforward.of_touches ht) (fun r hr => hle r (mem_cons_of_mem _ hr)) hrun)

theorem touches_operands {segment : Nat → IndexVector → Gnodes → Option Gnodes} (hsegment : Frames segment)
    {idx : IndexVector} {node : Gnode} (hforward : Forward g) (hle : ∀ r, some r ∈ node.groots → a ≤ r)
    (hrun : enumerateOperands segment node idx g = some g') : Touches g g' a := by
  rw [enumerateOperands] at hrun
  cases htype : node.type with
  | nop | box | synccell =>
    rw [htype] at hrun
    cases hrun
    exact .refl g a
  | parallel =>
    rw [htype] at hrun
    exact touches_branches hsegment hforward hle hrun
  | star | split =>
    rw [htype] at hrun
    rcases hgroots : node.groots with _ | ⟨_ | r, _ | ⟨o, groots⟩⟩
    all_goals rw [hgroots] at hrun
    all_goals dsimp only at hrun
    all_goals first
      | cases hrun
      | exact (hsegment r _ g g' hforward hrun).mono (hle r (by rw [hgroots]; exact mem_singleton_self _))

theorem segment_cases {fuel : Nat} {idx : IndexVector} (hnop : (g.nodes n).type ≠ .nop)
    (hrun : enumerateGraphSegment (fuel + 1) (some n) idx g = some g') :
    ∃ idx' g1, idx.incrItemValue (idx.items.length - 1) 1 = some idx' ∧
      enumerateOperands (fun groot idx g => enumerateGraphSegment fuel (some groot) idx g) (g.nodes n) idx'
        (g.setNode n { g.nodes n with idx := idx' }) = some g1 ∧
      enumerateGraphSegment fuel (if (g.nodes n).merge then none else (g.nodes n).node) idx' g1 = some g' := by
  rw [enumerateGraphSegment] at hrun
  dsimp only at hrun
  rw [if_neg hnop] at hrun
  cases hincr : idx.incrItemValue (idx.items.length - 1) 1 with
  | none =>
    rw [hincr] at hrun
    cases hrun
  | some idx' =>
    rw [hincr] at hrun
    dsimp only at hrun
    cases hoperands : enumerateOperands (fun groot idx g => enumerateGraphSegment fuel (some groot) idx g)
        (g.nodes n) idx' (g.setNode n { g.nodes n with idx := idx' }) with
    | none =>
      rw [hoperands] at hrun
      cases hrun
    | some g1 =>
      rw [hoperands] at hrun
      exact ⟨idx', g1, rfl, hoperands, hrun⟩

theorem touches_segment (fuel : Nat) (o : Option Nat) {idx : IndexVector} (hforward : Forward g)
    (hle : ∀ n, o = some n → a ≤ n) (hrun : enumerateGraphSegment fuel o idx g = some g') : Touches g g' a := by
  induction fuel generalizing o idx g g' a with
  | zero => cases hrun
  | succ fuel ih =>
    cases o with
    | none =>
      cases hrun
      exact .refl g a
    | some n =>
      have hnext : ∀ k, (if (g.nodes n).merge then none else (g.nodes n).node) = some k → n ≤ k := fun k hk =>
        (hforward n k (.inl ((next_eq g n).1 hk))).le
      refine Touches.mono ?_ (hle n rfl)
      by_cases hnop : (g.nodes n).type = .nop
      · rw [enumerateGraphSegment] at hrun
        dsimp only at hrun
        rw [if_pos hnop] at hrun
        exact ih _ hforward hnext hrun
      · obtain ⟨idx', g1, -, hoperands, hrest⟩ := segment_cases hnop hrun
        have hset := touches_setNode g n idx'
        have hops : Touches (g.setNode n { g.nodes n with idx := idx' }) g1 n := by
          apply touches_operands _ (hforward.of_touches hset) _ hoperands
          · intro r idx g g' hforward hrun
            exact ih (some r) hforward (fun k hk => by cases hk; exact le_rfl) hrun
          · intro r hr
            obtain ⟨i, hi⟩ := mem_iff_getElem?.1 hr
            exact (hforward n r (.inr ⟨i, hi⟩)).le
        exact (hset.trans hops).trans (ih _ ((hforward.of_touches hset).of_touches hops) hnext hrest)

theorem idx_of_segment {fuel : Nat} {idx idx' : IndexVector} (hforward : Forward g) (hnop : (g.nodes n).type ≠ .nop)
    (hincr : idx.incrItemValue (idx.items.length - 1) 1 = some idx')
    (hrun : enumerateGraphSegment (fuel + 1) (some n) idx g = some g') : (g'.nodes n).idx = idx' := by
  obtain ⟨idx'', g1, hincr', hoperands, hrest⟩ := segment_cases hnop hrun
  rw [hincr] at hincr'
  cases hincr'
  have hset := touches_setNode g n idx'
  have hops : Touches (g.setNode n { g.nodes n with idx := idx' }) g1 (n + 1) := by
    apply touches_operands _ (hforward.of_touches hset) _ hoperands
    · intro r idx g g' hforward hrun
      exact touches_segment fuel (some r) hforward (fun k hk => by cases hk; exact le_rfl) hrun
    · intro r hr
      obtain ⟨i, hi⟩ := mem_iff_getElem?.1 hr
      exact hforward n r (.inr ⟨i, hi⟩)
  have hbehind := touches_segment (a := n + 1) fuel _ ((hforward.of_touches hset).of_touches hops)
    (fun k hk => hforward n k (.inl ((next_eq g n).1 hk))) hrest
  rw [hbehind.1 n (Nat.lt_succ_self n), hops.1 n (Nat.lt_succ_self n)]
  simp [setNode]

/-! ## Places -/

theorem Wired.forward (h : Wired g S) : Forward g := by
  rintro n m (hnext | ⟨i, hop⟩)
  · exact (h.link n m hnext).1
  · exact (h.operand n i m hop).1

theorem touches_labelled (g : Gnodes) (S : Set Nat) : Touches g (g.labelled S) 0 := by
  refine ⟨nofun, fun k => ?_⟩
  unfold labelled
  dsimp only
  split_ifs
  · exact ⟨_, rfl⟩
  · exact ⟨(g.nodes k).idx, rfl⟩

theorem Wired.not_stable (h : Wired g ∅) (hn : n < g.next) (hafter : g.AfterOperand n) :
    g.numbered.graphEnumerate n ≠ some g.numbered := by
  obtain ⟨htype, p, hparent, hp⟩ := hafter
  have hnop : (g.nodes p).type ≠ .nop := by
    rintro heq
    rw [heq] at hp
    rcases hp with hp | hp <;> cases hp
  have hnormal : g.Normal p := ⟨(h.lt_of_parent hparent).trans hn, hnop⟩
  intro hrun
  have henclosing : g.numbered.enclosing (g.next + 1) n = some (n, some p) := by
    rw [enclosing, numbered_parent, hparent]
    dsimp only
    rw [numbered_type, if_neg hnop]
  have hidx : g.numbered.startIdx n (some p) = some (g.label p ++ [0, 0]) := by
    rw [startIdx]
    simp only [h.numbered_idx hnormal, numbered_type]
    rcases hp with hp | hp <;> rw [hp] <;> rfl
  have hnext : g.numbered.next = g.next := rfl
  rw [graphEnumerate, hnext, henclosing] at hrun
  dsimp only at hrun
  rw [hidx] at hrun
  have hincr : incrItemValue (some (g.label p ++ [0, 0])) ((items (some (g.label p ++ [0, 0]))).length - 1) 1 =
      some (some (g.label p ++ [0, 1])) := by
    simp [incrItemValue, items]
  have htype' : (g.numbered.nodes n).type ≠ .nop := by
    rw [numbered_type]
    exact htype
  have hwrong := idx_of_segment (h.forward.of_touches (touches_labelled g _)) htype' hincr hrun
  rw [h.numbered_idx ⟨hn, htype⟩, Option.some.injEq] at hwrong
  have hlength := congrArg List.length hwrong
  rw [label, label, h.place_next (h.back n p htype hparent) hnop] at hlength
  simp at hlength

/-! ## Segments -/

theorem Wired.place_nop (h : Wired g S) (hr : (g.nodes r).type = .nop) : (g.place r).2 = 0 := by
  cases hp : (g.nodes r).parent with
  | none => rw [place_root hp]
  | some c =>
    obtain ⟨i, hi⟩ := h.around r c hr hp
    rw [h.place_operand hi]

theorem SegAt.normal (h : Wired g S) (hseg : g.SegAt r (j + 1) n) : g.Normal n := by
  cases hseg with
  | next _ hnext =>
    have hlink := h.link _ n hnext
    exact ⟨hlink.2.1, hlink.2.2.1⟩

theorem SegAt.place_eq (h : Wired g S) (hr : (g.nodes r).type = .nop) (hseg : g.SegAt r j n) :
    g.place n = ((g.place r).1, j - 1) := by
  induction hseg with
  | root => rw [Nat.zero_sub, ← h.place_nop hr]
  | @next j p n hseg hnext ih =>
    cases j with
    | zero =>
      cases hseg
      rw [h.place_first hnext hr, ih]
    | succ j =>
      rw [h.place_next hnext (hseg.normal h).2, ih]
      rfl

theorem SegAt.label_eq (h : Wired g S) (hr : (g.nodes r).type = .nop) (hseg : g.SegAt r (j + 1) n) :
    g.label n = (g.place r).1 ++ [BitVec.ofNat 64 (j + 1)] := by
  rw [label, hseg.place_eq h hr]
  rfl

theorem SegAt.unique (ha : g.SegAt r j a) (hb : g.SegAt r j b) : a = b := by
  induction ha generalizing b with
  | root =>
    cases hb
    rfl
  | next _ hnext ih =>
    cases hb with
    | next hseg hnext' =>
      rw [ih hseg] at hnext
      exact Option.some.inj (hnext.2.symm.trans hnext'.2)

theorem Wired.exists_segAt (h : Wired g ∅) (hn : g.Normal n) :
    ∃ r j, (g.nodes r).type = .nop ∧ r < n ∧ g.SegAt r (j + 1) n := by
  induction n using Nat.strong_induction_on with
  | _ n ih =>
    obtain ⟨p, -, hnext⟩ := h.normal_cases hn
    have hlt := (h.link p n hnext).1
    by_cases hp : (g.nodes p).type = .nop
    · exact ⟨p, 0, hp, hlt, .next .root hnext⟩
    · obtain ⟨r, j, hr, hrp, hseg⟩ := ih p hlt ⟨hlt.trans hn.1, hp⟩
      exact ⟨r, j + 1, hr, hrp.trans hlt, .next hseg hnext⟩

theorem SegAt.forward (ha : g.SegAt r j a) (hab : TransGen g.Next a b) : ∃ k, j < k ∧ g.SegAt r k b := by
  induction hab with
  | single hnext => exact ⟨j + 1, Nat.lt_succ_self j, .next ha hnext⟩
  | tail _ hnext ih =>
    obtain ⟨k, hk, hseg⟩ := ih
    exact ⟨k + 1, Nat.lt_succ_of_lt hk, .next hseg hnext⟩

theorem SegAt.back (hn : g.SegAt r j n) (hi : i < j) : ∃ m, g.SegAt r i m ∧ TransGen g.Next m n := by
  induction hn with
  | root => exact absurd hi (Nat.not_lt_zero i)
  | @next j p n hseg hnext ih =>
    rcases Nat.lt_succ_iff_lt_or_eq.1 hi with hi | rfl
    · obtain ⟨m, hm, hpath⟩ := ih hi
      exact ⟨m, hm, hpath.tail hnext⟩
    · exact ⟨p, hseg, .single hnext⟩

/-! ## The laws -/

theorem ofNat_inj (hi : i < 2 ^ 64) (hj : j < 2 ^ 64) (heq : BitVec.ofNat 64 i = BitVec.ofNat 64 j) : i = j := by
  have hnat := congrArg BitVec.toNat heq
  rwa [BitVec.toNat_ofNat, BitVec.toNat_ofNat, Nat.mod_eq_of_lt hi, Nat.mod_eq_of_lt hj] at hnat

theorem Wired.mark_inj (h : Wired g S) {r' : Nat} (hi : g.Operand c i r) (hj : g.Operand c j r')
    (heq : mark (g.nodes c).type i = mark (g.nodes c).type j) : i = j := by
  have hilt : i < (g.nodes c).groots.length := (List.getElem?_eq_some_iff.1 hi).1
  have hjlt : j < (g.nodes c).groots.length := (List.getElem?_eq_some_iff.1 hj).1
  have hadmits := h.admits c
  cases htype : (g.nodes c).type with
  | nop | box | synccell =>
    rw [htype] at hadmits
    exact absurd (hadmits ▸ hilt) (Nat.not_lt_zero i)
  | star | split =>
    rw [htype] at hadmits
    have hone : (g.nodes c).groots.length = 1 := hadmits
    omega
  | parallel =>
    rw [htype] at hadmits heq
    have hlength : (g.nodes c).groots.length < 2 ^ 32 := hadmits
    rw [mark, mark, if_pos rfl, if_pos rfl, BitVec.neg_inj] at heq
    have hsucc := ofNat_inj (by omega) (by omega) heq
    omega

theorem Wired.root_unique (h : Wired g ∅) {r' : Nat} (hr : (g.nodes r).type = .nop) (hr' : (g.nodes r').type = .nop)
    (hrlt : r < g.next) (hrlt' : r' < g.next) (heq : (g.place r).1 = (g.place r').1)
    (hbefore : ∀ c c', c < r → g.Normal c → g.Normal c' → g.label c = g.label c' → c = c') : r = r' := by
  have hzero : ∀ k, k < g.next → (g.nodes k).parent = none → k = 0 := fun k hk hp => by
    by_contra hne
    exact (h.full k hk (Set.notMem_empty k)).1 hne hp
  cases hp : (g.nodes r).parent with
  | none =>
    cases hp' : (g.nodes r').parent with
    | none => rw [hzero r hrlt hp, hzero r' hrlt' hp']
    | some c' =>
      obtain ⟨i, hi⟩ := h.around r' c' hr' hp'
      rw [place_root hp, h.place_operand hi] at heq
      simp at heq
  | some c =>
    obtain ⟨i, hi⟩ := h.around r c hr hp
    cases hp' : (g.nodes r').parent with
    | none =>
      rw [place_root hp', h.place_operand hi] at heq
      simp at heq
    | some c' =>
      obtain ⟨j, hj⟩ := h.around r' c' hr' hp'
      rw [h.place_operand hi, h.place_operand hj] at heq
      obtain ⟨hlabel, hmark⟩ := append_inj' heq rfl
      have hc := h.lt_of_parent hp
      have hc' := h.lt_of_parent hp'
      have hcc := hbefore c c' hc ⟨hc.trans hrlt, h.not_nop hi⟩ ⟨hc'.trans hrlt', h.not_nop hj⟩ hlabel
      subst hcc
      have hij := h.mark_inj hi hj (singleton_inj.1 hmark)
      subst hij
      exact Option.some.inj (Option.some.inj (hi.symm.trans hj))

theorem Wired.label_inj (h : Wired g ∅) (hshort : g.Short) (ha : g.Normal a) (hb : g.Normal b)
    (heq : g.label a = g.label b) : a = b := by
  induction a using Nat.strong_induction_on generalizing b with
  | _ a ih =>
    obtain ⟨r, j, hr, hra, hseg⟩ := h.exists_segAt ha
    obtain ⟨r', j', hr', hrb, hseg'⟩ := h.exists_segAt hb
    rw [hseg.label_eq h hr, hseg'.label_eq h hr'] at heq
    obtain ⟨hstem, hcount⟩ := append_inj' heq rfl
    have hjj := ofNat_inj (hshort r _ a hr hseg) (hshort r' _ b hr' hseg') (singleton_inj.1 hcount)
    have hroot := h.root_unique hr hr' (hra.trans ha.1) (hrb.trans hb.1) hstem fun c c' hc hcn hcn' hlabel =>
      ih c (hc.trans hra) hcn hcn' hlabel
    subst hroot
    rw [hjj] at hseg
    exact hseg.unique hseg'

theorem label_ne_nil (g : Gnodes) (n : Nat) : g.label n ≠ [] := by
  simp [label]

theorem compare_labels (h : Wired g S) (hr : (g.nodes r).type = .nop) (ha : g.SegAt r (i + 1) a)
    (hb : g.SegAt r (j + 1) b) (hij : BitVec.ofNat 64 (i + 1) ≠ BitVec.ofNat 64 (j + 1)) :
    compare false (some (g.label a)) (some (g.label b)) = .less ↔
      Below (BitVec.ofNat 64 (i + 1)) (BitVec.ofNat 64 (j + 1)) := by
  rw [compare_some false (label_ne_nil g a) (label_ne_nil g b), ha.label_eq h hr, hb.label_eq h hr,
    order_append _ [] [] hij]
  split_ifs with h1 h2
  · exact iff_of_true rfl h1
  · exact iff_of_false (by decide) h1
  · exact iff_of_false (by decide) h1

theorem Wired.labels_ordered (h : Wired g ∅) (hshort : g.Short) (ha : g.Normal a) (hab : TransGen g.Next a b) :
    compare false (some (g.label a)) (some (g.label b)) = .less := by
  obtain ⟨r, j, hr, -, hseg⟩ := h.exists_segAt ha
  obtain ⟨k, hk, hseg'⟩ := hseg.forward hab
  obtain ⟨k, rfl⟩ : ∃ k', k = k' + 1 := ⟨k - 1, by omega⟩
  have hlt := hshort r _ b hr hseg'
  have hbelow : Below (BitVec.ofNat 64 (j + 1)) (BitVec.ofNat 64 (k + 1)) := by
    constructor <;> rw [BitVec.lt_def, BitVec.toNat_ofNat]
    · rw [Nat.mod_eq_of_lt (by omega)]
      exact Nat.succ_pos j
    · rw [BitVec.toNat_ofNat, Nat.mod_eq_of_lt (by omega), Nat.mod_eq_of_lt hlt]
      exact hk
  exact (compare_labels h hr hseg hseg' hbelow.ne).2 hbelow

theorem Wired.stem_inside (h : Wired g S) (hop : g.Operand c i r) (hreach : ReflTransGen g.Step r a) :
    g.label c ++ [mark (g.nodes c).type i] <+: (g.place a).1 := by
  induction hreach with
  | refl => exact (congrArg Prod.fst (h.place_operand hop)).symm ▸ prefix_rfl
  | @tail n m _ hstep ih =>
    rcases hstep with hnext | ⟨j, hop'⟩
    · by_cases hn : (g.nodes n).type = .nop
      · rw [h.place_first hnext hn]
        exact ih
      · rw [h.place_next hnext hn]
        exact ih
    · have hlabel : g.label n = (g.place n).1 ++ [BitVec.ofNat 64 ((g.place n).2 + 1)] := rfl
      rw [h.place_operand hop', hlabel, append_assoc]
      exact ih.trans (prefix_append ..)

theorem Wired.label_inside (h : Wired g S) (hop : g.Operand c i r) (hreach : ReflTransGen g.Step r a) :
    g.label c <+: g.label a ∧ g.label c ≠ g.label a := by
  have hstem := (h.stem_inside hop hreach).trans (prefix_append _ [BitVec.ofNat 64 ((g.place a).2 + 1)])
  refine ⟨(prefix_append ..).trans hstem, fun heq => ?_⟩
  have hle := (h.stem_inside hop hreach).length_le
  have hlength : (g.label a).length = (g.place a).1.length + 1 := by simp [label]
  rw [length_append, length_singleton, heq, hlength] at hle
  omega

theorem Wired.indexed_iff (h : Wired g ∅) : g.numbered.Indexed ↔ g.Short := by
  have htouches : Touches g g.numbered 0 := touches_labelled g _
  have hnormal : ∀ n, g.numbered.Normal n ↔ g.Normal n := fun n => by
    rw [Normal, numbered_type]
    exact Iff.rfl
  have hnext : g.numbered.Next = g.Next := by
    funext n m
    rw [Next, Next]
    unfold numbered
    rw [labelled_merge, labelled_node]
  have hoperand : g.numbered.Operand = g.Operand := by
    funext c i r
    rw [Operand, Operand]
    unfold numbered
    rw [labelled_groots]
  have hstep : g.numbered.Step = g.Step := by
    funext n m
    exact propext (htouches.step n m)
  constructor
  · intro hindexed r j n hr hseg
    by_contra hlarge
    -- the node whose item is 0
    obtain ⟨m, hm⟩ : ∃ m, g.SegAt r (2 ^ 64) m := by
      rcases Nat.lt_or_eq_of_le (Nat.le_of_not_lt hlarge) with hlt | heq
      · obtain ⟨m, hm, -⟩ := hseg.back hlt
        exact ⟨m, hm⟩
      · exact ⟨n, heq ▸ hseg⟩
    obtain ⟨a, ha, hpath⟩ := hm.back (i := 0 + 1) (by decide)
    have hna := SegAt.normal h ha
    have hnm := SegAt.normal (j := 2 ^ 64 - 1) h hm
    have hless := hindexed.order a m ((hnormal a).2 hna) (hnext ▸ hpath)
    rw [h.numbered_idx hna, h.numbered_idx hnm,
      compare_labels (j := 2 ^ 64 - 1) h hr ha hm (by decide)] at hless
    exact absurd hless (by decide)
  · intro hshort
    refine ⟨fun a b ha hb heq => ?_, fun a b ha hab => ?_, fun c i r a hop hreach ha => ?_⟩
    · rw [hnormal] at ha hb
      rw [h.numbered_idx ha, h.numbered_idx hb, Option.some.injEq] at heq
      exact h.label_inj hshort ha hb heq
    · rw [hnormal] at ha
      rw [hnext] at hab
      have hb : g.Normal b := by
        obtain ⟨p, -, hlast⟩ := TransGen.tail'_iff.1 hab
        have hlink := h.link p b hlast
        exact ⟨hlink.2.1, hlink.2.2.1⟩
      rw [h.numbered_idx ha, h.numbered_idx hb]
      exact h.labels_ordered hshort ha hab
    · rw [hnormal] at ha
      rw [hoperand] at hop
      rw [hstep] at hreach
      have hc : g.Normal c := by
        have hlink := h.operand c i r hop
        exact ⟨hlink.1.trans hlink.2.1, h.not_nop hop⟩
      rw [h.numbered_idx hc, h.numbered_idx ha]
      exact h.label_inside hop hreach

/-- The enumeration holds of the graph and of a node exactly when the nodes of every segment can be counted, and the
node does not stand behind a star or a split. -/
theorem enumeration_holds_iff (net : NetExpr) (n : Nat) (hn : n < net.graph.next) :
    EnumerationHolds net n ↔ net.graph.Short ∧ ¬ net.graph.AfterOperand n := by
  have h := graph_wired net
  constructor
  · rintro ⟨g, hrun, hindexed, hstable⟩
    rw [h.graphEnumerate_root, Option.some.injEq] at hrun
    subst hrun
    exact ⟨h.indexed_iff.1 hindexed, fun hafter => h.not_stable hn hafter hstable⟩
  · rintro ⟨hshort, hafter⟩
    exact ⟨net.graph.numbered, h.graphEnumerate_root, h.indexed_iff.2 hshort, h.stable hn hafter⟩

theorem enumeration_holds_box : EnumerationHolds .box 1 ↔ NetExpr.box.graph.Short ∧ ¬ NetExpr.box.graph.AfterOperand 1 :=
  enumeration_holds_iff .box 1 (by decide)

/-- The box behind a star: its index becomes one of the operand. -/
theorem box_behind_star : ¬ EnumerationHolds (.serial (.star .box) .box) 4 := by
  rintro ⟨g, hrun, -, hstable⟩
  have hwired := graph_wired (.serial (.star .box) .box)
  rw [hwired.graphEnumerate_root, Option.some.injEq] at hrun
  subst hrun
  exact hwired.not_stable (by decide) ⟨by decide, 1, by decide, .inl (by decide)⟩ hstable

end Gnodes

end SNet.Svpgw
