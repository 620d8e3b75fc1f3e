import SNetRts.Lib.Forks
import SNetRts.Lib.Linked
import SNetRts.Svpgw.Infimum
import Mathlib.Algebra.Group.Nat.Defs

/-!
# The cons-list

`svpgw/src/gw/conslist.utc`: the list of the records in a network, in their order, with the order indices of its
nodes. Nodes that have been created and are not on the list look alike, also those that have been popped. What
else a node has (its record, handle, dynamic index and flags) the list does not read. An assertion that fails is
`none`.
-/

namespace SNet.Svpgw

open Lib IndexVector List

/-- `struct cons_list_node` -/
structure ConsLstNode where
  /-- `lst` is not `NULL`. -/
  attached : Bool
  ordIdx : Option IndexVector
  multCnt : Nat
  next : Option Nat
  prev : Option Nat
deriving DecidableEq

/-- `SNetConsLstNodeInit` -/
def ConsLstNode.init : ConsLstNode := ⟨false, none, 0, none, none⟩

/-- `struct cons_list`, with all nodes. -/
structure Conslist where
  nodes : Nat → ConsLstNode
  head : Option Nat
  tail : Option Nat

namespace Conslist

def init : Conslist := ⟨fun _ => .init, none, none⟩

def setNode (lst : Conslist) (n : Nat) (node : ConsLstNode) : Conslist :=
  { lst with nodes := Function.update lst.nodes n node }

/-- The link behind the tail and the first item of the new order index in `SNetConsLstPush`. -/
def linkTail (lst : Conslist) (n : Nat) : Option (Item × Conslist) :=
  match lst.tail with
  | none => some (1, lst)
  | some t =>
    match (lst.nodes t).ordIdx with
    | none => none
    | some v => (getItemValue v 0).map fun val => (val + 1, lst.setNode t { lst.nodes t with next := some n })

/-- `SNetConsLstPush` -/
def push (lst : Conslist) (n : Nat) : Option Conslist :=
  let node := lst.nodes n
  if node.attached ∨ node.next ≠ none ∨ node.prev ≠ none ∨ node.ordIdx ≠ none then none
  else (lst.linkTail n).map fun (ordIdxVal, linked) =>
    { linked.setNode n
        { node with attached := true, next := none, prev := lst.tail, ordIdx := some (some [ordIdxVal]) } with
      tail := some n
      head := lst.head.or (some n) }

/-- The order indices of the two nodes in `SNetConsLstInsertBefore`. -/
def makeRoom (multCnt : Nat) (v : IndexVector) : Option (IndexVector × IndexVector) :=
  if multCnt = 0 then some (v.push [1], v.push [2])
  else if 0 < v.items.length then (incrItemValue v (v.items.length - 1) 1).map (v, ·)
  else none

/-- `SNetConsLstInsertBefore` -/
def insertBefore (lst : Conslist) (n1 n2 : Nat) : Option Conslist :=
  let node1 := lst.nodes n1
  let node2 := lst.nodes n2
  match node2.ordIdx with
  | none => none
  | some v =>
    if node1.attached ∨ ¬ node2.attached ∨ node1.next ≠ none ∨ node1.prev ≠ none ∨ node1.ordIdx ≠ none then none
    else (makeRoom node2.multCnt v).map fun (v1, v2) =>
      let inserted := lst.setNode n1
        { node1 with attached := true, next := some n2, prev := node2.prev, ordIdx := some v1 }
      let counted := inserted.setNode n2
        { node2 with prev := some n1, ordIdx := some v2, multCnt := (node2.multCnt + 1) % 2 ^ 32 }
      let linked := match node2.prev with
        | none => counted
        | some p => counted.setNode p { counted.nodes p with next := some n1 }
      { linked with head := if lst.head = some n2 then some n1 else lst.head }

/-- `SNetConsLstPop` -/
def pop (lst : Conslist) : Option (Option Nat × Conslist) :=
  match lst.head with
  | none => some (none, lst)
  | some h =>
    let node := lst.nodes h
    let linked := match node.next with
      | none => lst
      | some n => lst.setNode n { lst.nodes n with prev := none }
    if lst.tail = some h ∧ node.next ≠ none then none
    else some (some h, { linked.setNode h
        { node with attached := false, next := none, prev := none, ordIdx := none, multCnt := 0 } with
      head := node.next
      tail := if lst.tail = some h then none else lst.tail })

/-! ## What it is for -/

inductive Op where
  | push (n : Nat)
  | insertBefore (n1 n2 : Nat)
  | pop

def exec (lst : Conslist) : Op → Option Conslist
  | .push n => lst.push n
  | .insertBefore n1 n2 => lst.insertBefore n1 n2
  | .pop => lst.pop.map Prod.snd

def Asserted (lst : Conslist) : Op → Prop
  | .push n => (lst.nodes n).attached = false
  | .insertBefore n1 n2 => (lst.nodes n1).attached = false ∧ (lst.nodes n2).attached = true
  | .pop => True

def Spans (lst : Conslist) (ns : List Nat) : Prop :=
  ns.Nodup ∧ (∀ n, (lst.nodes n).attached = true ↔ n ∈ ns) ∧ lst.head = ns.head? ∧ lst.tail = ns.getLast? ∧
    Both (fun n => (lst.nodes n).next) (fun n => (lst.nodes n).prev) none ns none

/-- The first node compares as one that is before the second one. -/
def Less (lst : Conslist) (a b : Nat) : Prop :=
  ∃ v w, (lst.nodes a).ordIdx = some v ∧ (lst.nodes b).ordIdx = some w ∧
    compare false v w = .less ∧ compare false w v = .greater

def Ordered (lst : Conslist) (ns : List Nat) : Prop := ns.Pairwise lst.Less

def Sorted (lst : Conslist) : Prop := ∃ ns, lst.Spans ns ∧ lst.Ordered ns

def FollowsList (lst : Conslist) : List Op → Prop
  | [] => lst.Sorted
  | op :: ops => lst.Sorted ∧ (lst.Asserted op → ∃ lst', lst.exec op = some lst' ∧ lst'.FollowsList ops)

def Ok (lst : Conslist) : Op → Prop
  | .push _ => ∀ t v, lst.tail = some t → (lst.nodes t).ordIdx = some v →
    getItemValue v 0 ≠ some (BitVec.allOnes 64)
  | .insertBefore _ _ | .pop => True

def RunOk (lst : Conslist) : List Op → Prop
  | [] => True
  | op :: ops => lst.Asserted op → lst.Ok op ∧ ∀ lst', lst.exec op = some lst' → lst'.RunOk ops

/-! ## Order indices -/

section Labels

variable {idx idx' : Nat → List Item} {cnt cnt' : Nat → Nat} {ns pre post : List Nat} {n n1 n2 : Nat}

/-- The first node is before the second one. If nodes have been inserted before it, then behind them only its last
item is its own, and the second node does not begin with the others. -/
def Before (idx : Nat → List Item) (cnt : Nat → Nat) (a b : Nat) : Prop :=
  Forks Below (idx a) (idx b) ∧ (cnt a ≠ 0 → Forks Below (idx a).dropLast (idx b))

/-- The order indices of the nodes. -/
structure Labels (idx : Nat → List Item) (cnt : Nat → Nat) (ns : List Nat) : Prop where
  order : ns.Pairwise (Before idx cnt)
  pos : ∀ n ∈ ns, idx n ≠ [] ∧ ∀ x ∈ idx n, 0 < x
  /-- The last item counts the nodes that have been inserted before. -/
  count : ∀ n ∈ ns, cnt n ≠ 0 → cnt n < 2 ^ 32 ∧ ∃ w, w ≠ [] ∧ idx n = w ++ [BitVec.ofNat 64 (cnt n + 1)]

theorem Before.congr {a b : Nat} (h : Before idx cnt a b) (ha : idx' a = idx a) (hb : idx' b = idx b)
    (hcnt : cnt' a = cnt a) : Before idx' cnt' a b := by
  rw [Before, ha, hb, hcnt]
  exact h

theorem below_succ {x : Item} (hx : 0 < x) (hmax : x ≠ BitVec.allOnes 64) : Below x (x + 1) := by
  refine ⟨hx, BitVec.lt_def.2 ?_⟩
  have hne : x.toNat ≠ (BitVec.allOnes 64).toNat := fun h => hmax (BitVec.eq_of_toNat_eq h)
  rw [BitVec.toNat_allOnes] at hne
  have hone : (1 : Item).toNat = 1 := rfl
  rw [BitVec.toNat_add, hone]
  omega

theorem Labels.first_le (h : Labels idx cnt (ns ++ [n])) {v : Item} {s : List Item} (hn : idx n = v :: s) {a : Nat}
    (ha : a ∈ ns ++ [n]) : ∃ x t, idx a = x :: t ∧ (x = v ∨ Below x v) := by
  rcases mem_append.1 ha with ha | ha
  · obtain ⟨hforks, -⟩ := (pairwise_append.1 h.order).2.2 a ha n (mem_singleton_self n)
    rw [hn] at hforks
    cases hidx : idx a with
    | nil => exact absurd hidx (h.pos a (mem_append_left _ ha)).1
    | cons x t =>
      rw [hidx] at hforks
      exact ⟨x, t, rfl, hforks.head⟩
  · rw [mem_singleton.1 ha]
    exact ⟨v, s, hn, .inl rfl⟩

theorem Labels.before_new (h : Labels idx cnt ns) {v : Item} (hv : ∀ a ∈ ns, ∃ x t, idx a = x :: t ∧ Below x v)
    {a : Nat} (ha : a ∈ ns) : Forks Below (idx a) [v] ∧ (cnt a ≠ 0 → Forks Below (idx a).dropLast [v]) := by
  obtain ⟨x, t, hidx, hx⟩ := hv a ha
  refine ⟨by rw [hidx]; exact forks_cons hx t [], fun hcnt => ?_⟩
  obtain ⟨-, w, hw, heq⟩ := h.count a ha hcnt
  cases w with
  | nil => exact absurd rfl hw
  | cons y w =>
    rw [hidx, cons_append, List.cons.injEq] at heq
    obtain ⟨rfl, rfl⟩ := heq
    rw [hidx, ← cons_append, dropLast_concat]
    exact forks_cons hx w []

theorem Labels.push (h : Labels idx cnt ns) (hn : n ∉ ns) {v : Item} (hpos : 0 < v)
    (hv : ∀ a ∈ ns, ∃ x t, idx a = x :: t ∧ Below x v) (hold : ∀ a, a ≠ n → idx' a = idx a ∧ cnt' a = cnt a)
    (hidx : idx' n = [v]) (hcnt : cnt' n = 0) : Labels idx' cnt' (ns ++ [n]) := by
  have hne : ∀ a ∈ ns, a ≠ n := fun a ha heq => hn (heq ▸ ha)
  refine ⟨pairwise_append.2 ⟨?_, pairwise_singleton _ n, ?_⟩, ?_, ?_⟩
  · exact h.order.imp_of_mem fun {a b} ha hb hab =>
      hab.congr (hold a (hne a ha)).1 (hold b (hne b hb)).1 (hold a (hne a ha)).2
  · intro a ha b hb
    rw [mem_singleton.1 hb]
    obtain ⟨hia, hca⟩ := hold a (hne a ha)
    rw [Before, hia, hca, hidx]
    exact h.before_new hv ha
  · intro a ha
    rcases mem_append.1 ha with ha | ha
    · rw [(hold a (hne a ha)).1]
      exact h.pos a ha
    · rw [mem_singleton.1 ha, hidx]
      refine ⟨nofun, fun x hx => ?_⟩
      rwa [mem_singleton.1 hx]
  · intro a ha hca
    rcases mem_append.1 ha with ha | ha
    · obtain ⟨hia, hc⟩ := hold a (hne a ha)
      rw [hia, hc]
      exact h.count a ha (hc ▸ hca)
    · rw [mem_singleton.1 ha] at hca
      exact absurd hcnt hca

/-- The indices of two nodes of which the first one is inserted before the second one, whose index was `v`. -/
structure Room (v v1 v2 : List Item) (c : Nat) (later : List (List Item)) : Prop where
  before : ∀ l, Forks Below l v → Forks Below l v1 ∧ Forks Below l v2
  forks : Forks Below v1 v2
  after : ∀ m ∈ later, Forks Below v1 m ∧ Forks Below v2 m ∧ (c ≠ 0 → Forks Below v2.dropLast m)
  pos : ∀ x ∈ v1 ++ v2, 0 < x
  ne_nil : v1 ≠ [] ∧ v2 ≠ []
  count : c ≠ 0 → c < 2 ^ 32 ∧ ∃ w, w ≠ [] ∧ v2 = w ++ [BitVec.ofNat 64 (c + 1)]

theorem Labels.insert (h : Labels idx cnt (pre ++ n2 :: post)) (hn1 : n1 ∉ pre ++ n2 :: post)
    (hn2 : n2 ∉ pre ++ post) (hroom : Room (idx n2) (idx' n1) (idx' n2) (cnt' n2) (post.map idx))
    (hcnt : cnt' n1 = 0) (hold : ∀ a, a ≠ n1 → a ≠ n2 → idx' a = idx a ∧ cnt' a = cnt a) :
    Labels idx' cnt' (pre ++ n1 :: n2 :: post) := by
  have hpre : ∀ a ∈ pre, idx' a = idx a ∧ cnt' a = cnt a := fun a ha =>
    hold a (fun heq => hn1 (heq ▸ mem_append_left _ ha)) fun heq => hn2 (heq ▸ mem_append_left _ ha)
  have hpost : ∀ a ∈ post, idx' a = idx a ∧ cnt' a = cnt a := fun a ha =>
    hold a (fun heq => hn1 (heq ▸ mem_append_right _ (mem_cons_of_mem _ ha)))
      fun heq => hn2 (heq ▸ mem_append_right _ ha)
  obtain ⟨horder_pre, horder, hcross⟩ := pairwise_append.1 h.order
  obtain ⟨hn2_post, horder_post⟩ := pairwise_cons.1 horder
  -- a node of the front part before the two nodes
  have hfront : ∀ a ∈ pre, Before idx' cnt' a n1 ∧ Before idx' cnt' a n2 := by
    intro a ha
    obtain ⟨hforks, hstem⟩ := hcross a ha n2 mem_cons_self
    obtain ⟨hia, hca⟩ := hpre a ha
    rw [Before, Before, hia, hca]
    exact ⟨⟨(hroom.before _ hforks).1, fun hc => (hroom.before _ (hstem hc)).1⟩,
      (hroom.before _ hforks).2, fun hc => (hroom.before _ (hstem hc)).2⟩
  have hback : ∀ b ∈ post, Before idx' cnt' n1 b ∧ Before idx' cnt' n2 b := by
    intro b hb
    obtain ⟨h1, h2, hstem⟩ := hroom.after _ (mem_map_of_mem hb)
    rw [Before, Before, (hpost b hb).1]
    exact ⟨⟨h1, fun hc => absurd hcnt hc⟩, h2, hstem⟩
  refine ⟨pairwise_append.2 ⟨?_, pairwise_cons.2 ⟨?_, pairwise_cons.2 ⟨fun b hb => (hback b hb).2, ?_⟩⟩,
    ?_⟩, ?_, ?_⟩
  · exact horder_pre.imp_of_mem fun {a b} ha hb hab => hab.congr (hpre a ha).1 (hpre b hb).1 (hpre a ha).2
  · intro b hb
    rcases mem_cons.1 hb with rfl | hb
    · exact ⟨hroom.forks, fun hc => absurd hcnt hc⟩
    · exact (hback b hb).1
  · exact horder_post.imp_of_mem fun {a b} ha hb hab => hab.congr (hpost a ha).1 (hpost b hb).1 (hpost a ha).2
  · intro a ha b hb
    rcases mem_cons.1 hb with rfl | hb
    · exact (hfront a ha).1
    · rcases mem_cons.1 hb with rfl | hb
      · exact (hfront a ha).2
      · exact (hcross a ha b (mem_cons_of_mem _ hb)).congr (hpre a ha).1 (hpost b hb).1 (hpre a ha).2
  · intro a ha
    rcases mem_append.1 ha with ha | ha
    · rw [(hpre a ha).1]
      exact h.pos a (mem_append_left _ ha)
    · rcases mem_cons.1 ha with rfl | ha
      · exact ⟨hroom.ne_nil.1, fun x hx => hroom.pos x (mem_append_left _ hx)⟩
      · rcases mem_cons.1 ha with rfl | ha
        · exact ⟨hroom.ne_nil.2, fun x hx => hroom.pos x (mem_append_right _ hx)⟩
        · rw [(hpost a ha).1]
          exact h.pos a (mem_append_right _ (mem_cons_of_mem _ ha))
  · intro a ha hc
    rcases mem_append.1 ha with ha | ha
    · obtain ⟨hia, hca⟩ := hpre a ha
      rw [hia, hca]
      exact h.count a (mem_append_left _ ha) (hca ▸ hc)
    · rcases mem_cons.1 ha with rfl | ha
      · exact absurd hcnt hc
      · rcases mem_cons.1 ha with rfl | ha
        · exact hroom.count hc
        · obtain ⟨hia, hca⟩ := hpost a ha
          rw [hia, hca]
          exact h.count a (mem_append_right _ (mem_cons_of_mem _ ha)) (hca ▸ hc)

theorem Labels.congr (h : Labels idx cnt ns) (heq : ∀ a ∈ ns, idx' a = idx a ∧ cnt' a = cnt a) :
    Labels idx' cnt' ns := by
  refine ⟨h.order.imp_of_mem fun {a b} ha hb hab => hab.congr (heq a ha).1 (heq b hb).1 (heq a ha).2,
    fun a ha => ?_, fun a ha hc => ?_⟩
  · rw [(heq a ha).1]
    exact h.pos a ha
  · obtain ⟨hia, hca⟩ := heq a ha
    rw [hia, hca]
    exact h.count a ha (hca ▸ hc)

theorem Labels.tail (h : Labels idx cnt (n :: ns)) : Labels idx cnt ns :=
  ⟨(pairwise_cons.1 h.order).2, fun a ha => h.pos a (mem_cons_of_mem n ha),
    fun a ha => h.count a (mem_cons_of_mem n ha)⟩

theorem room_lengthen {v : List Item} {later : List (List Item)} (hv : v ≠ []) (hpos : ∀ x ∈ v, 0 < x)
    (hlater : ∀ m ∈ later, Forks Below v m) : Room v (v ++ [1]) (v ++ [2]) 1 later := by
  refine ⟨fun l hl => ⟨hl.append_right [1], hl.append_right [2]⟩, forks_concat v (by decide), fun m hm => ?_,
    fun x hx => ?_, ⟨by simp, by simp⟩, fun _ => ⟨by decide, v, hv, rfl⟩⟩
  · rw [dropLast_concat]
    exact ⟨(hlater m hm).append_left [1], (hlater m hm).append_left [2], fun _ => hlater m hm⟩
  · simp only [mem_append, mem_singleton] at hx
    rcases hx with (hx | rfl) | hx | rfl
    · exact hpos x hx
    · decide
    · exact hpos x hx
    · decide

theorem room_raise {w : List Item} {later : List (List Item)} {c : Nat} {x : Item} (hw : w ≠ [])
    (hx : x = BitVec.ofNat 64 (c + 1)) (hlt : c < 2 ^ 32) (hpos : ∀ y ∈ w ++ [x], 0 < y)
    (hlater : ∀ m ∈ later, Forks Below (w ++ [x]) m ∧ Forks Below w m) :
    Room (w ++ [x]) (w ++ [x]) (w ++ [x + 1]) ((c + 1) % 2 ^ 32) later := by
  have hnat : x.toNat = c + 1 := by
    rw [hx, BitVec.toNat_ofNat]
    omega
  have hbelow : Below x (x + 1) := by
    apply below_succ (hpos x (mem_append_right w (mem_singleton_self x)))
    rintro rfl
    rw [BitVec.toNat_allOnes] at hnat
    omega
  refine ⟨fun l hl => ⟨hl, hl.raise fun z hz => hz.trans hbelow⟩, forks_concat w hbelow, fun m hm => ?_,
    fun y hy => ?_, ⟨by simp, by simp⟩, fun hc => ⟨Nat.mod_lt _ (by decide), w, hw, ?_⟩⟩
  · rw [dropLast_concat]
    exact ⟨(hlater m hm).1, (hlater m hm).2.append_left [x + 1], fun _ => (hlater m hm).2⟩
  · rcases mem_append.1 hy with hy | hy
    · exact hpos y hy
    · rcases mem_append.1 hy with hy | hy
      · exact hpos y (mem_append_left _ hy)
      · rw [mem_singleton.1 hy]
        exact hbelow.right_pos
  · have hmod : (c + 1) % 2 ^ 32 = c + 1 := by omega
    rw [hmod, hx, BitVec.ofNat_add (c + 1) 1]
    rfl

theorem Labels.makeRoom (h : Labels idx cnt (pre ++ n2 :: post)) :
    ∃ v1 v2, makeRoom (cnt n2) (some (idx n2)) = some (some v1, some v2) ∧
      Room (idx n2) v1 v2 ((cnt n2 + 1) % 2 ^ 32) (post.map idx) := by
  have hmem : n2 ∈ pre ++ n2 :: post := mem_append_right _ mem_cons_self
  obtain ⟨hne, hpos⟩ := h.pos n2 hmem
  have hlater : ∀ m ∈ post.map idx, Forks Below (idx n2) m ∧ (cnt n2 ≠ 0 → Forks Below (idx n2).dropLast m) := by
    intro m hm
    obtain ⟨b, hb, rfl⟩ := List.mem_map.1 hm
    exact (pairwise_cons.1 (pairwise_append.1 h.order).2.1).1 b hb
  by_cases hc : cnt n2 = 0
  · refine ⟨idx n2 ++ [1], idx n2 ++ [2], ?_, ?_⟩
    · rw [Conslist.makeRoom, if_pos hc]
      rfl
    · rw [hc]
      exact room_lengthen hne hpos fun m hm => (hlater m hm).1
  · obtain ⟨hlt, w, hw, heq⟩ := h.count n2 hmem hc
    refine ⟨idx n2, w ++ [BitVec.ofNat 64 (cnt n2 + 1) + 1], ?_, ?_⟩
    · rw [Conslist.makeRoom, if_neg hc, heq]
      simp [IndexVector.items, incrItemValue]
    · rw [heq]
      rw [heq] at hpos
      apply room_raise hw rfl hlt hpos
      intro m hm
      obtain ⟨hforks, hstem⟩ := hlater m hm
      rw [heq] at hforks hstem
      rw [dropLast_concat] at hstem
      exact ⟨hforks, hstem hc⟩

end Labels

end Conslist

end SNet.Svpgw
