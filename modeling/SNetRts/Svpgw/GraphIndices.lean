import Mathlib.Data.Set.Insert
import SNetRts.Svpgw.GraphParents

/-!
# The indices of a network graph

What `SNetGraphEnumerate` gives to the nodes is a function of their place: the index of the segment, and how many
nodes of the segment are before. From the root every node is reached, and gets the index of its place. From another
node the index to begin with is found at the parent, which is right unless the node stands behind a star or a split:
the parent is then taken for the combinator around the node.
-/

namespace SNet.Svpgw

open Relation IndexVector List

namespace Gnodes

variable {g g' : Gnodes} {n m p r c i j fuel : Nat} {S : Set Nat}

/-! ## What it is for -/

def Normal (g : Gnodes) (n : Nat) : Prop := n < g.next ∧ (g.nodes n).type ≠ .nop

/-- The walk goes on from `n` to `m`, or into an operand. -/
def Step (g : Gnodes) (n m : Nat) : Prop := g.Next n m ∨ ∃ i, g.Operand n i m

/-- What the graph walker expects of the indices. -/
structure Indexed (g : Gnodes) : Prop where
  distinct : ∀ a b, g.Normal a → g.Normal b → (g.nodes a).idx = (g.nodes b).idx → a = b
  order : ∀ a b, g.Normal a → TransGen g.Next a b → compare false (g.nodes a).idx (g.nodes b).idx = .less
  inside : ∀ c i r a, g.Operand c i r → ReflTransGen g.Step r a → g.Normal a →
    (g.nodes c).idx.items <+: (g.nodes a).idx.items ∧ (g.nodes c).idx.items ≠ (g.nodes a).idx.items

/-- The enumeration of the graph is as it is to be, and that from `n` on changes nothing. -/
def EnumerationHolds (net : NetExpr) (n : Nat) : Prop :=
  ∃ g, net.graph.graphEnumerate 0 = some g ∧ g.Indexed ∧ g.graphEnumerate n = some g

/-- The node is the `j`-th of the segment that begins with `r`. -/
inductive SegAt (g : Gnodes) (r : Nat) : Nat → Nat → Prop where
  | root : SegAt g r 0 r
  | next {j p n : Nat} : SegAt g r j p → g.Next p n → SegAt g r (j + 1) n

def Short (g : Gnodes) : Prop := ∀ r j n, (g.nodes r).type = .nop → g.SegAt r j n → j < 2 ^ 64

def AfterOperand (g : Gnodes) (n : Nat) : Prop :=
  (g.nodes n).type ≠ .nop ∧ ∃ p, (g.nodes n).parent = some p ∧ ((g.nodes p).type = .star ∨ (g.nodes p).type = .split)

/-! ## Places -/

/-- What is pushed for the `i`-th operand, before a 0. -/
def mark (type : GnodeType) (i : Nat) : Item := if type = .parallel then -(BitVec.ofNat 64 (i + 1)) else 0

/-- The index of the segment of a node without its last item, and how many nodes of the segment are before. -/
def place (g : Gnodes) (n : Nat) : List Item × Nat :=
  match (g.nodes n).parent with
  | none => ([], 0)
  | some p =>
    if p < n then
      let (stem, count) := g.place p
      if (g.nodes p).type = .nop then (stem, count)
      else if (g.nodes n).type ≠ .nop then (stem, count + 1)
      else (stem ++ [BitVec.ofNat 64 (count + 1)] ++ [mark (g.nodes p).type ((g.nodes p).groots.idxOf (some n))], 0)
    else ([], 0)

def start (g : Gnodes) (n : Nat) : List Item := (g.place n).1 ++ [BitVec.ofNat 64 (g.place n).2]

def label (g : Gnodes) (n : Nat) : List Item := (g.place n).1 ++ [BitVec.ofNat 64 ((g.place n).2 + 1)]

theorem Wired.lt_of_parent (h : Wired g S) (hp : (g.nodes n).parent = some p) : p < n := by
  by_cases hn : (g.nodes n).type = .nop
  · obtain ⟨i, hi⟩ := h.around n p hn hp
    exact (h.operand p i n hi).1
  · exact (h.link p n (h.back n p hn hp)).1

theorem place_root (hp : (g.nodes n).parent = none) : g.place n = ([], 0) := by
  rw [place, hp]

theorem Wired.place_of_parent (h : Wired g S) (hp : (g.nodes n).parent = some p) : g.place n =
    if (g.nodes p).type = .nop then g.place p
    else if (g.nodes n).type ≠ .nop then ((g.place p).1, (g.place p).2 + 1)
    else (g.label p ++ [mark (g.nodes p).type ((g.nodes p).groots.idxOf (some n))], 0) := by
  rw [place, hp]
  simp only [h.lt_of_parent hp, if_true]
  rfl

theorem Wired.place_first (h : Wired g S) (hnext : g.Next p n) (hp : (g.nodes p).type = .nop) :
    g.place n = g.place p := by
  rw [h.place_of_parent (h.link p n hnext).2.2.2, if_pos hp]

theorem Wired.place_next (h : Wired g S) (hnext : g.Next p n) (hp : (g.nodes p).type ≠ .nop) :
    g.place n = ((g.place p).1, (g.place p).2 + 1) := by
  obtain ⟨-, -, hn, hparent⟩ := h.link p n hnext
  rw [h.place_of_parent hparent, if_neg hp, if_pos hn]

theorem Wired.idxOf (h : Wired g S) (hop : g.Operand c i r) : (g.nodes c).groots.idxOf (some r) = i := by
  obtain ⟨hi, hget⟩ := List.getElem?_eq_some_iff.1 hop
  have hmem : some r ∈ (g.nodes c).groots := hget ▸ getElem_mem hi
  exact h.once c _ i r (getElem?_idxOf hmem) hop

theorem Wired.not_nop (h : Wired g S) (hop : g.Operand c i r) : (g.nodes c).type ≠ .nop := by
  intro hc
  have hadmits := h.admits c
  rw [hc] at hadmits
  rw [Operand, length_eq_zero_iff.1 hadmits] at hop
  cases hop

theorem Wired.place_operand (h : Wired g S) (hop : g.Operand c i r) :
    g.place r = (g.label c ++ [mark (g.nodes c).type i], 0) := by
  obtain ⟨-, -, hr, hparent⟩ := h.operand c i r hop
  rw [h.place_of_parent hparent, if_neg (h.not_nop hop), if_neg (not_not_intro hr), h.idxOf hop]

theorem Wired.start_first (h : Wired g S) (hnext : g.Next p n) (hp : (g.nodes p).type = .nop) :
    g.start n = g.start p := by
  rw [start, start, h.place_first hnext hp]

theorem Wired.start_next (h : Wired g S) (hnext : g.Next p n) (hp : (g.nodes p).type ≠ .nop) :
    g.start n = g.label p := by
  rw [start, label, h.place_next hnext hp]

theorem Wired.start_operand (h : Wired g S) (hop : g.Operand c i r) :
    g.start r = g.label c ++ [mark (g.nodes c).type i] ++ [0] := by
  rw [start, h.place_operand hop]
  rfl

theorem incrItemValue_start (g : Gnodes) (n : Nat) :
    incrItemValue (some (g.start n)) ((items (some (g.start n))).length - 1) 1 = some (some (g.label n)) := by
  have hone : BitVec.ofNat 64 (g.place n).2 + 1#64 = BitVec.ofNat 64 ((g.place n).2 + 1) :=
    (BitVec.ofNat_add _ 1).symm
  simp [incrItemValue, items, start, label, hone]

/-! ## What is enumerated -/

open Classical in
/-- The nodes of `S` have the indices of their places. -/
noncomputable def labelled (g : Gnodes) (S : Set Nat) : Gnodes :=
  { g with nodes := fun n => if n ∈ S then { g.nodes n with idx := some (g.label n) } else g.nodes n }

def reached (g : Gnodes) (o : Option Nat) : Set Nat :=
  { m | (g.nodes m).type ≠ .nop ∧ ∃ n, o = some n ∧ ReflTransGen g.Step n m }

@[simp] theorem labelled_idx (hn : n ∈ S) : ((g.labelled S).nodes n).idx = some (g.label n) := by
  simp [labelled, hn]

@[simp] theorem labelled_type : ((g.labelled S).nodes n).type = (g.nodes n).type := by
  unfold labelled
  dsimp only
  split_ifs <;> rfl

@[simp] theorem labelled_merge : ((g.labelled S).nodes n).merge = (g.nodes n).merge := by
  unfold labelled
  dsimp only
  split_ifs <;> rfl

@[simp] theorem labelled_node : ((g.labelled S).nodes n).node = (g.nodes n).node := by
  unfold labelled
  dsimp only
  split_ifs <;> rfl

@[simp] theorem labelled_groots : ((g.labelled S).nodes n).groots = (g.nodes n).groots := by
  unfold labelled
  dsimp only
  split_ifs <;> rfl

@[simp] theorem labelled_parent : ((g.labelled S).nodes n).parent = (g.nodes n).parent := by
  unfold labelled
  dsimp only
  split_ifs <;> rfl

theorem setNode_labelled (g : Gnodes) (S : Set Nat) (n : Nat) :
    (g.labelled S).setNode n { (g.labelled S).nodes n with idx := some (g.label n) } = g.labelled (insert n S) := by
  unfold labelled setNode
  congr 1
  funext m
  by_cases hm : m = n
  · subst hm
    by_cases hS : m ∈ S <;> simp [hS]
  · by_cases hS : m ∈ S <;> simp [hS, hm]

theorem reached_none : g.reached none = ∅ := by
  ext m
  simp [reached]

theorem mem_reached_iff : m ∈ g.reached (some n) ↔ m = n ∧ (g.nodes n).type ≠ .nop ∨
    (∃ k, g.Next n k ∧ m ∈ g.reached (some k)) ∨ ∃ i r, g.Operand n i r ∧ m ∈ g.reached (some r) := by
  constructor
  · rintro ⟨htype, k, hk, hreach⟩
    cases hk
    rcases hreach.cases_head with rfl | ⟨k, hstep, hreach⟩
    · exact .inl ⟨rfl, htype⟩
    · rcases hstep with hnext | ⟨i, hop⟩
      · exact .inr (.inl ⟨k, hnext, htype, k, rfl, hreach⟩)
      · exact .inr (.inr ⟨i, k, hop, htype, k, rfl, hreach⟩)
  · rintro (⟨rfl, htype⟩ | ⟨k, hnext, htype, k', hk, hreach⟩ | ⟨i, r, hop, htype, k', hk, hreach⟩)
    · exact ⟨htype, m, rfl, .refl⟩
    · cases hk
      exact ⟨htype, n, rfl, hreach.head (.inl hnext)⟩
    · cases hk
      exact ⟨htype, n, rfl, hreach.head (.inr ⟨i, hop⟩)⟩

/-- What is reached through the operands from the `i`-th on. -/
def inOperands (g : Gnodes) (groots : List (Option Nat)) : Set Nat :=
  { m | ∃ r, some r ∈ groots ∧ m ∈ g.reached (some r) }

theorem enumerateBranches_labelled {segment : Nat → IndexVector → Gnodes → Option Gnodes} {idx : IndexVector}
    {groots : List (Option Nat)} (hnone : none ∉ groots)
    (hsegment : ∀ k r S, groots[k]? = some (some r) →
      segment r ((idx.push [-(BitVec.ofNat 64 (i + k + 1))]).push [0]) (g.labelled S) =
        some (g.labelled (S ∪ g.reached (some r)))) :
    enumerateBranches segment idx i groots (g.labelled S) = some (g.labelled (S ∪ g.inOperands groots)) := by
  induction groots generalizing i S with
  | nil =>
    have hempty : g.inOperands [] = ∅ := by
      ext m
      simp [inOperands]
    rw [hempty, Set.union_empty]
    rfl
  | cons groot groots ih =>
    cases groot with
    | none => exact absurd mem_cons_self hnone
    | some r =>
      have hr := hsegment 0 r S rfl
      rw [Nat.add_zero] at hr
      rw [enumerateBranches, hr]
      dsimp only
      rw [ih (fun hmem => hnone (mem_cons_of_mem _ hmem)) fun k r S hk => ?_]
      · congr 2
        ext m
        simp [inOperands, or_assoc]
      · have hsucc := hsegment (k + 1) r S (by rw [getElem?_cons_succ, hk])
        rwa [show i + (k + 1) + 1 = i + 1 + k + 1 by omega] at hsucc

theorem next_eq (g : Gnodes) (n : Nat) {k : Nat} :
    (if (g.nodes n).merge then none else (g.nodes n).node) = some k ↔ g.Next n k := by
  rw [Next]
  cases (g.nodes n).merge <;> simp

theorem reached_some (g : Gnodes) (n : Nat) : g.reached (some n) = {m | m = n ∧ (g.nodes n).type ≠ .nop} ∪
    (g.inOperands (g.nodes n).groots ∪ g.reached (if (g.nodes n).merge then none else (g.nodes n).node)) := by
  ext m
  have hbehind : m ∈ g.reached (if (g.nodes n).merge then none else (g.nodes n).node) ↔
      ∃ k, g.Next n k ∧ m ∈ g.reached (some k) := by
    constructor
    · rintro ⟨htype, k, hk, hreach⟩
      exact ⟨k, (next_eq g n).1 hk, htype, k, rfl, hreach⟩
    · rintro ⟨k, hnext, htype, k', hk, hreach⟩
      cases hk
      exact ⟨htype, k, (next_eq g n).2 hnext, hreach⟩
  have hin : m ∈ g.inOperands (g.nodes n).groots ↔ ∃ i r, g.Operand n i r ∧ m ∈ g.reached (some r) := by
    constructor
    · rintro ⟨r, hr, hm⟩
      obtain ⟨i, hi⟩ := mem_iff_getElem?.1 hr
      exact ⟨i, r, hi, hm⟩
    · rintro ⟨i, r, hi, hm⟩
      exact ⟨r, mem_iff_getElem?.2 ⟨i, hi⟩, hm⟩
  rw [mem_reached_iff, Set.mem_union, Set.mem_union, hbehind, hin, or_comm (a := ∃ k, _)]
  exact Iff.rfl

theorem inOperands_empty (hn : (g.nodes n).groots.length = 0) :
    g.inOperands (g.nodes n).groots = ∅ := by
  ext m
  simp [inOperands, length_eq_zero_iff.1 hn]

theorem inOperands_singleton : g.inOperands [some r] = g.reached (some r) := by
  ext m
  simp [inOperands]

theorem Wired.single (h : Wired g ∅) (hn : n < g.next) (hlength : (g.nodes n).groots.length = 1) :
    ∃ r, (g.nodes n).groots = [some r] := by
  obtain ⟨o, ho⟩ := length_eq_one_iff.1 hlength
  cases o with
  | none => exact absurd (ho ▸ mem_singleton_self none) (h.full n hn (Set.notMem_empty n)).2
  | some r => exact ⟨r, ho⟩

theorem Wired.enumerateOperands_labelled (h : Wired g ∅) (hn : n < g.next) (S T : Set Nat)
    {segment : Nat → IndexVector → Gnodes → Option Gnodes}
    (hsegment : ∀ T i r, g.Operand n i r →
      segment r (some (g.label n ++ [mark (g.nodes n).type i] ++ [0])) (g.labelled T) =
        some (g.labelled (T ∪ g.reached (some r)))) :
    enumerateOperands segment ((g.labelled S).nodes n) (some (g.label n)) (g.labelled T) =
      some (g.labelled (T ∪ g.inOperands (g.nodes n).groots)) := by
  have hadmits := h.admits n
  have hsingle : (g.nodes n).groots.length = 1 → (g.nodes n).type ≠ .parallel →
      ∃ r, (g.nodes n).groots = [some r] ∧ segment r (push (some (g.label n)) [0, 0]) (g.labelled T) =
        some (g.labelled (T ∪ g.inOperands (g.nodes n).groots)) := by
    intro hlength htype
    obtain ⟨r, hr⟩ := h.single hn hlength
    refine ⟨r, hr, ?_⟩
    have hseg := hsegment T 0 r (by rw [Operand, hr]; rfl)
    rw [mark, if_neg htype, append_assoc] at hseg
    rw [hr, inOperands_singleton]
    exact hseg
  rw [enumerateOperands, labelled_type, labelled_groots]
  cases htype : (g.nodes n).type with
  | nop | box | synccell =>
    rw [htype] at hadmits
    rw [inOperands_empty hadmits, Set.union_empty]
  | star | split =>
    rw [htype] at hadmits hsingle
    obtain ⟨r, hr, hseg⟩ := hsingle hadmits (by decide)
    rw [hr] at hseg ⊢
    exact hseg
  | parallel =>
    apply enumerateBranches_labelled (h.full n hn (Set.notMem_empty n)).2
    intro k r T hk
    have hseg := hsegment T k r hk
    rw [mark, if_pos htype] at hseg
    rw [Nat.zero_add]
    exact hseg

theorem Wired.enumerate_labelled (h : Wired g ∅) (fuel : Nat) (o : Option Nat) {idx : IndexVector} (hfuel : 0 < fuel)
    (ho : ∀ n, o = some n → n < g.next ∧ g.next < n + fuel ∧ idx = some (g.start n)) :
    enumerateGraphSegment fuel o idx (g.labelled S) = some (g.labelled (S ∪ g.reached o)) := by
  induction fuel generalizing o idx S with
  | zero => exact absurd hfuel (Nat.lt_irrefl 0)
  | succ fuel ih =>
    cases o with
    | none => rw [enumerateGraphSegment, reached_none, Set.union_empty]
    | some n =>
      obtain ⟨hn, hlt, rfl⟩ := ho n rfl
      have hfuel' : 0 < fuel := by omega
      -- the rest of the segment
      have hrest : ∀ T idx, (∀ k, g.Next n k → idx = some (g.start k)) →
          enumerateGraphSegment fuel (if (g.nodes n).merge then none else (g.nodes n).node) idx (g.labelled T) =
            some (g.labelled (T ∪ g.reached (if (g.nodes n).merge then none else (g.nodes n).node))) := by
        intro T idx hidx
        apply ih _ hfuel'
        intro k hk
        rw [next_eq] at hk
        have hlink := h.link n k hk
        exact ⟨hlink.2.1, by omega, hidx k hk⟩
      have hoperand : ∀ T i r, g.Operand n i r →
          enumerateGraphSegment fuel (some r) (some (g.label n ++ [mark (g.nodes n).type i] ++ [0])) (g.labelled T) =
            some (g.labelled (T ∪ g.reached (some r))) := by
        intro T i r hop
        apply ih _ hfuel'
        intro k hk
        cases hk
        have hr := h.operand n i r hop
        exact ⟨hr.2.1, by omega, by rw [h.start_operand hop]⟩
      rw [enumerateGraphSegment, reached_some]
      by_cases hnop : (g.nodes n).type = .nop
      · have hadmits := h.admits n
        rw [hnop] at hadmits
        dsimp only
        rw [labelled_type, labelled_merge, labelled_node, if_pos hnop,
          hrest S _ fun k hk => by rw [h.start_first hk hnop], inOperands_empty hadmits]
        simp [hnop]
      · have hself : {m | m = n ∧ (g.nodes n).type ≠ .nop} = {n} := by
          ext m
          simp [hnop]
        dsimp only
        rw [if_neg (by rw [labelled_type]; exact hnop), incrItemValue_start]
        dsimp only
        rw [setNode_labelled, h.enumerateOperands_labelled hn S (insert n S) hoperand]
        dsimp only
        rw [labelled_merge, labelled_node, hrest _ _ fun k hk => by rw [h.start_next hk hnop], hself, Set.insert_eq,
          Set.union_comm {n} S, Set.union_assoc, Set.union_assoc]

/-! ## The whole graph -/

theorem Wired.normal_cases (h : Wired g ∅) (hn : g.Normal n) : ∃ p, (g.nodes n).parent = some p ∧ g.Next p n := by
  have hne : n ≠ 0 := fun heq => hn.2 (heq ▸ h.root.1)
  obtain ⟨p, hp⟩ := Option.ne_none_iff_exists'.1 ((h.full n hn.1 (Set.notMem_empty n)).1 hne)
  exact ⟨p, hp, h.back n p hn.2 hp⟩

theorem Wired.reach_root (h : Wired g ∅) (hn : n < g.next) : ReflTransGen g.Step 0 n := by
  induction n using Nat.strong_induction_on with
  | _ n ih =>
    by_cases hne : n = 0
    · rw [hne]
    · obtain ⟨p, hp⟩ := Option.ne_none_iff_exists'.1 ((h.full n hn (Set.notMem_empty n)).1 hne)
      have hlt := h.lt_of_parent hp
      have hstep : g.Step p n := by
        by_cases hnop : (g.nodes n).type = .nop
        · exact .inr (h.around n p hnop hp)
        · exact .inl (h.back n p hnop hp)
      exact (ih p hlt (by omega)).tail hstep

noncomputable def numbered (g : Gnodes) : Gnodes := g.labelled (g.reached (some 0))

theorem labelled_empty (g : Gnodes) : g.labelled ∅ = g := by
  unfold labelled
  congr 1
  funext n
  simp

theorem Wired.enclosing_root (h : Wired g ∅) : g.enclosing (g.next + 1) 0 = some (0, none) := by
  rw [enclosing, h.root.2]

theorem Wired.graphEnumerate_root (h : Wired g ∅) : g.graphEnumerate 0 = some g.numbered := by
  have hstart : (some [0] : IndexVector) = some (g.start 0) := by
    rw [start, place_root h.root.2]
    rfl
  rw [graphEnumerate, h.enclosing_root]
  dsimp only
  have hrun := h.enumerate_labelled (S := ∅) (g.next + 1) (some 0) (Nat.succ_pos _) fun n hn => by
    cases hn
    exact ⟨h.pos, by omega, rfl⟩
  rw [labelled_empty, Set.empty_union] at hrun
  rw [startIdx, hstart, hrun]
  rfl

/-! ## From an inner node on -/

theorem Wired.numbered_idx (h : Wired g ∅) (hn : g.Normal n) : (g.numbered.nodes n).idx = some (g.label n) :=
  labelled_idx ⟨hn.2, 0, rfl, h.reach_root hn.1⟩

theorem Wired.labelled_again (h : Wired g ∅) (hn : n < g.next) :
    g.labelled (g.reached (some 0) ∪ g.reached (some n)) = g.numbered := by
  have hsub : g.reached (some n) ⊆ g.reached (some 0) := by
    rintro m ⟨htype, k, hk, hreach⟩
    cases hk
    exact ⟨htype, 0, rfl, (h.reach_root hn).trans hreach⟩
  rw [Set.union_eq_self_of_subset_right hsub]
  rfl

theorem Wired.enumerate_again (h : Wired g ∅) (hn : n < g.next) :
    enumerateGraphSegment (g.next + 1) (some n) (some (g.start n)) g.numbered = some g.numbered := by
  have hrun := h.enumerate_labelled (S := g.reached (some 0)) (g.next + 1) (some n) (Nat.succ_pos _) fun m hm => by
    cases hm
    exact ⟨hn, by omega, rfl⟩
  rw [h.labelled_again hn] at hrun
  exact hrun

theorem Wired.startIdx_operand (h : Wired g ∅) (hc : c < g.next) (hop : g.Operand c i r) :
    g.numbered.startIdx r (some c) = some (g.start r) := by
  have hidx := h.numbered_idx ⟨hc, h.not_nop hop⟩
  have hadmits := h.admits c
  rw [h.start_operand hop, startIdx]
  simp only [hidx]
  unfold numbered
  rw [labelled_type, labelled_groots]
  cases htype : (g.nodes c).type with
  | nop => exact absurd htype (h.not_nop hop)
  | box | synccell =>
    rw [htype] at hadmits
    rw [Operand, length_eq_zero_iff.1 hadmits] at hop
    cases hop
  | star | split =>
    rw [mark, if_neg (by decide), append_assoc]
    rfl
  | parallel =>
    have hfind : (g.nodes c).groots.idxOf? (some r) = some i := by
      obtain ⟨hi, hget⟩ := List.getElem?_eq_some_iff.1 hop
      rw [idxOf?_eq_some_iff]
      refine ⟨hi, hget, fun j hj heq => ?_⟩
      have hj' := h.once c j i r (List.getElem?_eq_some_iff.2 ⟨hj.trans hi, heq⟩) hop
      omega
    rw [mark, if_pos rfl]
    dsimp only
    rw [hfind]
    rfl

theorem Wired.startIdx_next (h : Wired g ∅) (hp : g.Normal p) (hnext : g.Next p n) (hafter : ¬ g.AfterOperand n) :
    g.numbered.startIdx n (some p) = some (g.start n) := by
  have hidx := h.numbered_idx hp
  obtain ⟨hlt, hn, htype, hparent⟩ := h.link p n hnext
  rw [h.start_next hnext hp.2, startIdx]
  simp only [hidx]
  unfold numbered
  rw [labelled_type, labelled_groots]
  cases hptype : (g.nodes p).type with
  | nop => exact absurd hptype hp.2
  | box | synccell => rfl
  | star => exact absurd ⟨htype, p, hparent, .inl hptype⟩ hafter
  | split => exact absurd ⟨htype, p, hparent, .inr hptype⟩ hafter
  | parallel =>
    have hfind : (g.nodes p).groots.idxOf? (some n) = none := by
      rw [idxOf?_eq_none_iff]
      intro hmem
      obtain ⟨i, hi⟩ := mem_iff_getElem?.1 hmem
      exact htype (h.operand p i n hi).2.2.1
    dsimp only
    rw [hfind]

theorem numbered_parent : (g.numbered.nodes n).parent = (g.nodes n).parent := labelled_parent

theorem numbered_type : (g.numbered.nodes n).type = (g.nodes n).type := labelled_type

theorem Wired.stable (h : Wired g ∅) (hn : n < g.next) (hafter : ¬ g.AfterOperand n) :
    g.numbered.graphEnumerate n = some g.numbered := by
  have hstart : ∃ r o, g.numbered.enclosing (g.next + 1) n = some (r, o) ∧
      g.numbered.startIdx r o = some (g.start n) := by
    obtain ⟨fuel, hfuel⟩ : ∃ fuel, g.next + 1 = fuel + 2 := ⟨g.next - 1, by have := h.pos; omega⟩
    rw [hfuel, enclosing, numbered_parent]
    cases hp : (g.nodes n).parent with
    | none =>
      refine ⟨n, none, rfl, ?_⟩
      rw [start, place_root hp]
      rfl
    | some p =>
      have hlt := h.lt_of_parent hp
      dsimp only
      rw [numbered_type]
      by_cases hnop : (g.nodes p).type = .nop
      · have htype : (g.nodes n).type ≠ .nop := fun htype => by
          obtain ⟨i, hi⟩ := h.around n p htype hp
          exact h.not_nop hi hnop
        rw [if_pos hnop, enclosing, numbered_parent, h.start_first (h.back n p htype hp) hnop]
        cases hpp : (g.nodes p).parent with
        | none =>
          refine ⟨p, none, rfl, ?_⟩
          rw [start, place_root hpp]
          rfl
        | some c =>
          have hc := h.lt_of_parent hpp
          obtain ⟨i, hi⟩ := h.around p c hnop hpp
          refine ⟨p, some c, ?_, h.startIdx_operand (by omega) hi⟩
          dsimp only
          rw [numbered_type, if_neg (h.not_nop hi)]
      · rw [if_neg hnop]
        refine ⟨n, some p, rfl, ?_⟩
        by_cases htype : (g.nodes n).type = .nop
        · obtain ⟨i, hi⟩ := h.around n p htype hp
          exact h.startIdx_operand (by omega) hi
        · exact h.startIdx_next ⟨by omega, hnop⟩ (h.back n p htype hp) hafter
  obtain ⟨r, o, henclosing, hidx⟩ := hstart
  have hnext : g.numbered.next = g.next := rfl
  rw [graphEnumerate, hnext, henclosing]
  dsimp only
  rw [hidx, h.enumerate_again hn]

end Gnodes

end SNet.Svpgw
