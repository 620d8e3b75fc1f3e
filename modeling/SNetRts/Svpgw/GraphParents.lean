import SNetRts.Svpgw.GraphNodes
import Mathlib.Algebra.Group.Nat.Defs

/-!
# Parents in a network graph

What the links of a graph have in common with its parents: a node that is linked to has the node before as its
parent, the NOP node of an operand has the combinator, and there are no other parents. While the graph is created
some nodes are not yet reached; behind the entity that created them they are.
-/

namespace SNet.Svpgw

open List

namespace Gnodes

variable {g g' : Gnodes} {todo : Set Nat} {n m n1 n2 r c i : Nat}

/-- The node `m` is behind `n` in their segment. -/
def Next (g : Gnodes) (n m : Nat) : Prop := (g.nodes n).merge = false ∧ (g.nodes n).node = some m

/-- The `i`-th operand of `c` begins with `r`. -/
def Operand (g : Gnodes) (c i r : Nat) : Prop := (g.nodes c).groots[i]? = some (some r)

def GnodeType.Admits : GnodeType → Nat → Prop
  | .nop, k | .box, k | .synccell, k => k = 0
  | .star, k | .split, k => k = 1
  | .parallel, k => k < 2 ^ 32

/-- Links, operands and parents agree; `todo` are the nodes that are not yet complete. -/
structure Wired (g : Gnodes) (todo : Set Nat) : Prop where
  pos : 0 < g.next
  blank : ∀ n, g.next ≤ n → g.nodes n = .init .nop
  root : (g.nodes 0).type = .nop ∧ (g.nodes 0).parent = none
  link : ∀ n m, g.Next n m → n < m ∧ m < g.next ∧ (g.nodes m).type ≠ .nop ∧ (g.nodes m).parent = some n
  back : ∀ n p, (g.nodes n).type ≠ .nop → (g.nodes n).parent = some p → g.Next p n
  operand : ∀ c i r, g.Operand c i r → c < r ∧ r < g.next ∧ (g.nodes r).type = .nop ∧ (g.nodes r).parent = some c
  around : ∀ r c, (g.nodes r).type = .nop → (g.nodes r).parent = some c → ∃ i, g.Operand c i r
  once : ∀ c i j r, g.Operand c i r → g.Operand c j r → i = j
  admits : ∀ c, GnodeType.Admits (g.nodes c).type (g.nodes c).groots.length
  full : ∀ n, n < g.next → n ∉ todo → (n ≠ 0 → (g.nodes n).parent ≠ none) ∧ none ∉ (g.nodes n).groots

/-! ## What the functions change -/

theorem connect_of_ne (h1 : n ≠ n1) (h2 : n ≠ n2) (merge : Bool) :
    (g.connect n1 n2 merge).nodes n = g.nodes n := by
  cases merge <;> simp [Gnodes.connect, setNode, h1, h2]

@[simp] theorem next_connect (merge : Bool) : (g.connect n1 n2 merge).next = g.next := by
  cases merge <;> rfl

@[simp] theorem type_connect (merge : Bool) : ((g.connect n1 n2 merge).nodes n).type = (g.nodes n).type := by
  cases merge <;> simp only [Gnodes.connect, setNode, Function.update_apply] <;> grind

@[simp] theorem groots_connect (merge : Bool) : ((g.connect n1 n2 merge).nodes n).groots = (g.nodes n).groots := by
  cases merge <;> simp only [Gnodes.connect, setNode, Function.update_apply] <;> grind

theorem parent_connect (merge : Bool) : ((g.connect n1 n2 merge).nodes n).parent =
    if merge = false ∧ n = n2 then some n1 else (g.nodes n).parent := by
  cases merge <;> simp only [Gnodes.connect, setNode, Function.update_apply] <;> grind

theorem node_connect (merge : Bool) : ((g.connect n1 n2 merge).nodes n).node =
    if n = n1 then some n2 else (g.nodes n).node := by
  cases merge <;> simp only [Gnodes.connect, setNode, Function.update_apply] <;> grind

theorem isNext_connect (merge : Bool) : (g.connect n1 n2 merge).Next n m ↔
    if n = n1 then merge = false ∧ m = n2 else g.Next n m := by
  cases merge <;> simp only [Gnodes.connect, setNode, Function.update_apply, Next] <;> grind

theorem isOperand_connect (merge : Bool) : (g.connect n1 n2 merge).Operand c i r ↔ g.Operand c i r := by
  rw [Operand, groots_connect]
  exact Iff.rfl

theorem ne_of_parent {k p : Nat} (hk : (g.nodes k).parent = some p)
    (hn : (g.nodes n).parent = none) : k ≠ n := by
  rintro rfl
  rw [hn] at hk
  cases hk

theorem Wired.connect (h : Wired g (insert n2 todo)) (hlt : n1 < n2) (hn2 : n2 < g.next)
    (hfree : (g.nodes n1).node = none) (htype : (g.nodes n2).type ≠ .nop) (hparent : (g.nodes n2).parent = none)
    (hfull : none ∉ (g.nodes n2).groots) : Wired (g.connect n1 n2 false) todo where
  pos := h.pos
  blank n hn := by
    rw [next_connect] at hn
    rw [connect_of_ne (by omega) (by omega), h.blank n hn]
  root := by
    rw [type_connect, parent_connect, if_neg (by omega)]
    exact h.root
  link n m hnext := by
    rw [isNext_connect] at hnext
    rw [next_connect, type_connect, parent_connect]
    by_cases hn : n = n1
    · rw [if_pos hn] at hnext
      obtain ⟨-, rfl⟩ := hnext
      rw [if_pos ⟨rfl, rfl⟩, hn]
      exact ⟨hlt, hn2, htype, rfl⟩
    · rw [if_neg hn] at hnext
      have hm := h.link n m hnext
      rw [if_neg fun heq => ne_of_parent hm.2.2.2 hparent heq.2]
      exact hm
  back n p hn hp := by
    rw [type_connect] at hn
    rw [parent_connect] at hp
    rw [isNext_connect]
    by_cases heq : n = n2
    · rw [if_pos ⟨rfl, heq⟩, Option.some.injEq] at hp
      rw [if_pos hp.symm]
      exact ⟨rfl, heq⟩
    · rw [if_neg fun hcond => heq hcond.2] at hp
      have hnext := h.back n p hn hp
      rw [if_neg]
      · exact hnext
      · rintro rfl
        rw [hnext.2] at hfree
        cases hfree
  operand c i r hop := by
    rw [isOperand_connect] at hop
    have hr := h.operand c i r hop
    rw [next_connect, type_connect, parent_connect, if_neg fun heq => ne_of_parent hr.2.2.2 hparent heq.2]
    exact hr
  around r c hr hp := by
    rw [type_connect] at hr
    have hne : r ≠ n2 := fun heq => htype (heq ▸ hr)
    rw [parent_connect, if_neg fun hcond => hne hcond.2] at hp
    simp only [isOperand_connect]
    exact h.around r c hr hp
  once c i j r hi hj := by
    rw [isOperand_connect] at hi hj
    exact h.once c i j r hi hj
  admits c := by
    rw [type_connect, groots_connect]
    exact h.admits c
  full n hn htodo := by
    rw [next_connect] at hn
    rw [parent_connect, groots_connect]
    by_cases heq : n = n2
    · rw [if_pos ⟨rfl, heq⟩, heq]
      exact ⟨fun _ => Option.some_ne_none n1, hfull⟩
    · rw [if_neg fun hcond => heq hcond.2]
      exact h.full n hn fun hmem => hmem.elim heq htodo

theorem Wired.congr (h : Wired g todo) (hnext : g'.next = g.next)
    (hblank : ∀ n, g.next ≤ n → g'.nodes n = g.nodes n)
    (htype : ∀ n, (g'.nodes n).type = (g.nodes n).type) (hparent : ∀ n, (g'.nodes n).parent = (g.nodes n).parent)
    (hlink : ∀ n m, g'.Next n m ↔ g.Next n m) (hoperand : ∀ c i r, g'.Operand c i r ↔ g.Operand c i r)
    (hadmits : ∀ c, GnodeType.Admits (g.nodes c).type (g'.nodes c).groots.length)
    (hfull : ∀ n, n ∉ todo → (g'.nodes n).groots = (g.nodes n).groots) : Wired g' todo where
  pos := hnext ▸ h.pos
  blank n hn := by
    rw [hnext] at hn
    rw [hblank n hn, h.blank n hn]
  root := by
    rw [htype, hparent]
    exact h.root
  link n m hm := by
    rw [hlink] at hm
    rw [hnext, htype, hparent]
    exact h.link n m hm
  back n p hn hp := by
    rw [htype] at hn
    rw [hparent] at hp
    rw [hlink]
    exact h.back n p hn hp
  operand c i r hop := by
    rw [hoperand] at hop
    rw [hnext, htype, hparent]
    exact h.operand c i r hop
  around r c hr hp := by
    rw [htype] at hr
    rw [hparent] at hp
    simp only [hoperand]
    exact h.around r c hr hp
  once c i j r hi hj := by
    rw [hoperand] at hi hj
    exact h.once c i j r hi hj
  admits c := by
    rw [htype]
    exact hadmits c
  full n hn htodo := by
    rw [hnext] at hn
    rw [hparent, hfull n htodo]
    exact h.full n hn htodo

theorem Wired.connect_merge (h : Wired g todo) (hn1 : n1 < g.next) (hn2 : n2 < g.next)
    (hfree : (g.nodes n1).node = none) : Wired (g.connect n1 n2 true) todo := by
  refine h.congr (next_connect true) (fun n hn => connect_of_ne (by omega) (by omega) true) (fun n => type_connect true)
    (fun n => ?_) (fun n m => ?_) (fun c i r => isOperand_connect true) (fun c => ?_) fun n _ => groots_connect true
  · rw [parent_connect, if_neg (by simp)]
  · rw [isNext_connect]
    by_cases hn : n = n1
    · rw [if_pos hn]
      refine iff_of_false (by simp) fun hnext => ?_
      rw [hn, Next, hfree] at hnext
      cases hnext.2
    · rw [if_neg hn]
  · rw [groots_connect]
    exact h.admits c

theorem Wired.setupParallel (h : Wired g todo) (hn : n < g.next) (htodo : n ∈ todo)
    (htype : (g.nodes n).type = .parallel) (hgroots : (g.nodes n).groots = []) {branchesCnt : Nat}
    (hcnt : branchesCnt < 2 ^ 32) : Wired (g.setupParallel n branchesCnt) todo := by
  have hne : ∀ k, k ≠ n → (g.setupParallel n branchesCnt).nodes k = g.nodes k := fun k hk => by
    simp [Gnodes.setupParallel, setNode, hk]
  have hself : (g.setupParallel n branchesCnt).nodes n = { g.nodes n with groots := .replicate branchesCnt none } := by
    simp [Gnodes.setupParallel, setNode]
  refine h.congr rfl (fun k hk => hne k (by omega)) (fun k => ?_) (fun k => ?_) (fun k m => ?_) (fun c i r => ?_)
    (fun c => ?_) fun k hk => ?_
  · by_cases hk : k = n
    · rw [hk, hself]
    · rw [hne k hk]
  · by_cases hk : k = n
    · rw [hk, hself]
    · rw [hne k hk]
  · by_cases hk : k = n
    · rw [hk, Next, hself]
      exact Iff.rfl
    · rw [Next, hne k hk]
      exact Iff.rfl
  · by_cases hc : c = n
    · rw [hc, Operand, Operand, hself, hgroots]
      simp [getElem?_replicate]
    · rw [Operand, hne c hc]
      exact Iff.rfl
  · by_cases hc : c = n
    · rw [hc, htype, hself, length_replicate]
      exact hcnt
    · rw [hne c hc]
      exact h.admits c
  · rw [hne k fun heq => hk (heq ▸ htodo)]

/-! ## A new node -/

theorem create_of_ne (hn : n ≠ g.next) (type : GnodeType) : (g.create type).nodes n = g.nodes n :=
  Function.update_of_ne hn ..

theorem create_self (g : Gnodes) (type : GnodeType) : (g.create type).nodes g.next = .init type :=
  Function.update_self ..

theorem Wired.create (h : Wired g todo) (type : GnodeType) : Wired (g.create type) (insert g.next todo) := by
  have hblank : g.nodes g.next = .init .nop := h.blank g.next le_rfl
  have hparent : ∀ n, ((g.create type).nodes n).parent = (g.nodes n).parent := by
    intro n
    by_cases hn : n = g.next
    · rw [hn, create_self, hblank]
      rfl
    · rw [create_of_ne hn]
  have hlink : ∀ n m, (g.create type).Next n m ↔ g.Next n m := by
    intro n m
    by_cases hn : n = g.next
    · rw [hn, Next, Next, create_self, hblank]
      exact Iff.rfl
    · rw [Next, Next, create_of_ne hn]
  have hoperand : ∀ c i r, (g.create type).Operand c i r ↔ g.Operand c i r := by
    intro c i r
    by_cases hc : c = g.next
    · rw [hc, Operand, Operand, create_self, hblank]
      cases type <;> simp [Gnode.init, getElem?_cons]
    · rw [Operand, Operand, create_of_ne hc]
  -- links and operands are older than the new node
  have htype : ∀ n, n < g.next → ((g.create type).nodes n).type = (g.nodes n).type := fun n hn => by
    rw [create_of_ne (Nat.ne_of_lt hn)]
  have hnew : ((g.create type).nodes g.next).parent = none := by rw [hparent, hblank]; rfl
  have hold : ∀ n p, ((g.create type).nodes n).parent = some p → n ≠ g.next := fun n p hp => ne_of_parent hp hnew
  refine ⟨Nat.succ_pos _, fun n hn => ?_, ?_, fun n m hm => ?_, fun n p hn hp => ?_, fun c i r hr => ?_,
    fun r c hr hp => ?_, fun c i j r hi hj => ?_, fun c => ?_, fun n hn htodo => ?_⟩
  · have hlt : g.next < n := hn
    rw [create_of_ne (Nat.ne_of_gt hlt), h.blank n hlt.le]
  · rw [htype 0 h.pos, hparent]
    exact h.root
  · rw [hlink] at hm
    obtain ⟨hlt, hm, hrest⟩ := h.link n m hm
    rw [htype m hm, hparent]
    exact ⟨hlt, Nat.lt_succ_of_lt hm, hrest⟩
  · rw [create_of_ne (hold n p hp)] at hn hp
    exact (hlink p n).2 (h.back n p hn hp)
  · rw [hoperand] at hr
    obtain ⟨hlt, hr, hrest⟩ := h.operand c i r hr
    rw [htype r hr, hparent]
    exact ⟨hlt, Nat.lt_succ_of_lt hr, hrest⟩
  · rw [create_of_ne (hold r c hp)] at hr hp
    simp only [hoperand]
    exact h.around r c hr hp
  · rw [hoperand] at hi hj
    exact h.once c i j r hi hj
  · by_cases hc : c = g.next
    · rw [hc, create_self]
      cases type <;> simp [Gnode.init, GnodeType.Admits]
    · rw [create_of_ne hc]
      exact h.admits c
  · have hne : n ≠ g.next := fun heq => htodo (.inl heq)
    rw [create_of_ne hne]
    exact h.full n (Nat.lt_of_le_of_ne (Nat.lt_succ_iff.1 hn) hne) fun hmem => htodo (.inr hmem)

/-! ## A new operand -/

theorem setGroot_of_ne (hn : n ≠ c) (hr : n ≠ r) : (g.setGroot c i r).nodes n = g.nodes n := by
  simp [setGroot, setNode, hn, hr]

theorem setGroot_operand (hne : r ≠ c) : (g.setGroot c i r).nodes r = { g.nodes r with parent := some c } := by
  simp [setGroot, setNode, hne]

theorem setGroot_self (hne : c ≠ r) :
    (g.setGroot c i r).nodes c = { g.nodes c with groots := (g.nodes c).groots.set i (some r) } := by
  simp [setGroot, setNode, hne]

theorem isOperand_setGroot (hne : c ≠ r) (hi : i < (g.nodes c).groots.length) {c' j k : Nat} :
    (g.setGroot c i r).Operand c' j k ↔ if c' = c ∧ j = i then k = r else g.Operand c' j k := by
  by_cases hc : c' = c
  · subst hc
    rw [Operand, setGroot_self hne, getElem?_set]
    by_cases hj : i = j
    · subst hj
      simp [hi, eq_comm]
    · simp [hj, Ne.symm hj, Operand]
  · rw [if_neg fun hcond => hc hcond.1]
    by_cases hr : c' = r
    · rw [hr, Operand, setGroot_operand hne.symm]
      exact Iff.rfl
    · rw [Operand, setGroot_of_ne hc hr]
      exact Iff.rfl

theorem Wired.setGroot (h : Wired g (insert r todo)) (hlt : c < r) (hr : r < g.next) (hc : c ∈ todo)
    (hfree : (g.nodes c).groots[i]? = some none) (htype : (g.nodes r).type = .nop)
    (hparent : (g.nodes r).parent = none) : Wired (g.setGroot c i r) todo := by
  have hne : c ≠ r := Nat.ne_of_lt hlt
  have hi : i < (g.nodes c).groots.length := (List.getElem?_eq_some_iff.1 hfree).1
  have hsame : ∀ n, ((g.setGroot c i r).nodes n).type = (g.nodes n).type ∧
      ((g.setGroot c i r).nodes n).groots.length = (g.nodes n).groots.length ∧
      ((g.setGroot c i r).Next n = g.Next n) := by
    intro n
    by_cases hnc : n = c
    · rw [hnc]
      unfold Next
      rw [setGroot_self hne, length_set]
      exact ⟨rfl, rfl, rfl⟩
    · by_cases hnr : n = r
      · rw [hnr]
        unfold Next
        rw [setGroot_operand hne.symm]
        exact ⟨rfl, rfl, rfl⟩
      · unfold Next
        rw [setGroot_of_ne hnc hnr]
        exact ⟨rfl, rfl, rfl⟩
  have hparents : ∀ n, n ≠ r → ((g.setGroot c i r).nodes n).parent = (g.nodes n).parent := by
    intro n hnr
    by_cases hnc : n = c
    · rw [hnc, setGroot_self hne]
    · rw [setGroot_of_ne hnc hnr]
  have hnew : ((g.setGroot c i r).nodes r).parent = some c := by rw [setGroot_operand hne.symm]
  refine ⟨h.pos, fun n hn => ?_, ?_, fun n m hm => ?_, fun n p hn hp => ?_, fun c' j k hk => ?_, fun k c' hk hp => ?_,
    fun c' j j' k hj hj' => ?_, fun n => ?_, fun n hn htodo => ?_⟩
  · have hn : g.next ≤ n := hn
    rw [setGroot_of_ne (by omega) (by omega), h.blank n hn]
  · rw [(hsame 0).1, hparents 0 (by omega)]
    exact h.root
  · rw [(hsame n).2.2] at hm
    obtain ⟨hlt', hm, htm, hpm⟩ := h.link n m hm
    rw [(hsame m).1, hparents m (ne_of_parent hpm hparent)]
    exact ⟨hlt', hm, htm, hpm⟩
  · rw [(hsame n).1] at hn
    rw [hparents n fun heq => hn (heq ▸ htype)] at hp
    rw [(hsame p).2.2]
    exact h.back n p hn hp
  · rw [isOperand_setGroot hne hi] at hk
    by_cases hcond : c' = c ∧ j = i
    · rw [if_pos hcond] at hk
      rw [hk, (hsame r).1, hcond.1]
      exact ⟨hlt, hr, htype, hnew⟩
    · rw [if_neg hcond] at hk
      obtain ⟨hlt', hk, htk, hpk⟩ := h.operand c' j k hk
      rw [(hsame k).1, hparents k (ne_of_parent hpk hparent)]
      exact ⟨hlt', hk, htk, hpk⟩
  · simp only [isOperand_setGroot hne hi]
    by_cases hkr : k = r
    · rw [hkr, hnew, Option.some.injEq] at hp
      exact ⟨i, by rw [if_pos ⟨hp.symm, rfl⟩, hkr]⟩
    · rw [(hsame k).1] at hk
      rw [hparents k hkr] at hp
      obtain ⟨j, hj⟩ := h.around k c' hk hp
      refine ⟨j, ?_⟩
      rw [if_neg]
      · exact hj
      · rintro ⟨rfl, rfl⟩
        rw [Operand, hfree] at hj
        cases hj
  · -- the new operand was at no place before
    have hnot : ∀ c' j, ¬ g.Operand c' j r := fun c' j hop => by
      have hp := (h.operand c' j r hop).2.2.2
      rw [hparent] at hp
      cases hp
    rw [isOperand_setGroot hne hi] at hj hj'
    by_cases hcond : c' = c ∧ j = i
    · rw [if_pos hcond] at hj
      by_cases hcond' : c' = c ∧ j' = i
      · rw [hcond.2, hcond'.2]
      · rw [if_neg hcond', hj] at hj'
        exact absurd hj' (hnot c' j')
    · rw [if_neg hcond] at hj
      by_cases hcond' : c' = c ∧ j' = i
      · rw [if_pos hcond'] at hj'
        rw [hj'] at hj
        exact absurd hj (hnot c' j)
      · rw [if_neg hcond'] at hj'
        exact h.once c' j j' k hj hj'
  · rw [(hsame n).1, (hsame n).2.1]
    exact h.admits n
  · have hnc : n ≠ c := fun heq => htodo (heq ▸ hc)
    by_cases hnr : n = r
    · have hgroots := h.admits r
      rw [htype] at hgroots
      rw [hnr, setGroot_operand hne.symm]
      refine ⟨fun _ => Option.some_ne_none c, ?_⟩
      rw [length_eq_zero_iff.1 hgroots]
      exact not_mem_nil
    · rw [setGroot_of_ne hnc hnr]
      exact h.full n hn fun hmem => hmem.elim hnr htodo

/-! ## Entities -/

/-- An entity has been created behind `inNode`. -/
structure Built (g : Gnodes) (inNode : Nat) (todo : Set Nat) (out : Nat) (g' : Gnodes) : Prop where
  wired : Wired g' todo
  place : g.next ≤ out ∧ out < g'.next
  free : (g'.nodes out).node = none
  same : ∀ n, n < g.next → n ≠ inNode → g'.nodes n = g.nodes n
  kept : (g'.nodes inNode).type = (g.nodes inNode).type ∧ (g'.nodes inNode).parent = (g.nodes inNode).parent

theorem Built.finish {inNode : Nat} (h : Wired g' (insert g.next todo)) (hin : inNode < g.next)
    (hfree : (g.nodes inNode).node = none) (hlt : g.next < g'.next) (hsame : ∀ n, n < g.next → g'.nodes n = g.nodes n)
    (htype : (g'.nodes g.next).type ≠ .nop) (hout : (g'.nodes g.next).node = none)
    (hparent : (g'.nodes g.next).parent = none) (hfull : none ∉ (g'.nodes g.next).groots) :
    Built g inNode todo g.next (g'.connect inNode g.next false) where
  wired := h.connect hin hlt (by rw [hsame inNode hin, hfree]) htype hparent hfull
  place := ⟨le_rfl, hlt⟩
  free := by
    have hne : g.next ≠ inNode := Nat.ne_of_gt hin
    rw [node_connect, if_neg hne, hout]
  same n hn hne := by rw [connect_of_ne hne (Nat.ne_of_lt hn), hsame n hn]
  kept := by
    rw [type_connect, parent_connect, if_neg (by omega), hsame inNode hin]
    exact ⟨rfl, rfl⟩

/-- What the creation of an operand leaves. -/
structure Filled (g : Gnodes) (c i : Nat) (todo : Set Nat) (g' : Gnodes) : Prop where
  wired : Wired g' todo
  grows : g.next < g'.next
  same : ∀ n, n < g.next → n ≠ c → g'.nodes n = g.nodes n
  self : g'.nodes c = { g.nodes c with groots := (g.nodes c).groots.set i (some g.next) }

theorem Built.filled {opOut : Nat} (hop : Built (g.create .nop) g.next (insert g.next todo) opOut g')
    (hc : c < g.next) (htodo : c ∈ todo) (hfree : (g.nodes c).groots[i]? = some none) :
    Filled g c i todo ((g'.setGroot c i g.next).connect opOut c true) := by
  obtain ⟨hwired, ⟨hle, hlt⟩, hopOut, hsame, htype, hparent⟩ := hop
  have hnext : (g.create .nop).next = g.next + 1 := rfl
  have hself : g'.nodes c = g.nodes c := by
    rw [hsame c (by omega) (by omega), create_of_ne (by omega)]
  rw [create_self] at htype hparent
  have hset : Wired (g'.setGroot c i g.next) todo :=
    hwired.setGroot hc (by omega) htodo (by rw [hself, hfree]) htype hparent
  have hne : ∀ n, n ≤ g.next → n ≠ opOut := fun n hn => by omega
  refine ⟨hset.connect_merge hlt (by change c < g'.next; omega) ?_, ?_, fun n hn hnc => ?_, ?_⟩
  · rw [setGroot_of_ne (by omega) (by omega), hopOut]
  · rw [next_connect]
    change g.next < g'.next
    omega
  · rw [connect_of_ne (hne n hn.le) hnc, setGroot_of_ne hnc (by omega), hsame n (by omega) (by omega),
      create_of_ne (by omega)]
  · have hco := hne c hc.le
    have hcr : c ≠ g.next := Nat.ne_of_lt hc
    rw [← hself, ← setGroot_self hcr]
    simp [Gnodes.connect, setNode, hco]

/-- What the loop over the branches is given. -/
structure Branching (g : Gnodes) (out i branchesCnt : Nat) (todo : Set Nat) : Prop where
  wired : Wired g todo
  place : out < g.next ∧ out ∈ todo
  type : (g.nodes out).type = .parallel
  length : (g.nodes out).groots.length = branchesCnt
  later : ∀ j, i ≤ j → j < branchesCnt → (g.nodes out).groots[j]? = some none
  earlier : ∀ j, j < i → (g.nodes out).groots[j]? ≠ some none

/-- What the loop over the branches leaves. -/
structure Branched (g : Gnodes) (out : Nat) (todo : Set Nat) (g' : Gnodes) : Prop where
  wired : Wired g' todo
  grows : g.next ≤ g'.next
  same : ∀ n, n < g.next → n ≠ out → g'.nodes n = g.nodes n
  kept : ∃ groots, none ∉ groots ∧ g'.nodes out = { g.nodes out with groots := groots }

theorem Branching.done {branchesCnt out : Nat} (h : Branching g out i branchesCnt todo) (hi : branchesCnt ≤ i) :
    Branched g out todo g := by
  refine ⟨h.wired, le_rfl, fun _ _ _ => rfl, (g.nodes out).groots, fun hmem => ?_, rfl⟩
  obtain ⟨j, hj⟩ := mem_iff_getElem?.1 hmem
  have hlt := (List.getElem?_eq_some_iff.1 hj).1
  rw [h.length] at hlt
  exact h.earlier j (by omega) hj

theorem Branching.step {branchesCnt out : Nat} (h : Branching g out i branchesCnt todo) (hi : i < branchesCnt)
    (hfilled : Filled g out i todo g') : Branching g' out (i + 1) branchesCnt todo := by
  have hself := hfilled.self
  refine ⟨hfilled.wired, ⟨h.place.1.trans hfilled.grows, h.place.2⟩, by rw [hself, h.type], ?_, fun j hj hlt => ?_,
    fun j hj => ?_⟩
  · rw [hself, length_set, h.length]
  · rw [hself, getElem?_set_ne (by omega)]
    exact h.later j (by omega) hlt
  · rw [hself]
    by_cases hji : i = j
    · rw [← hji, getElem?_set_self (h.length ▸ hi)]
      simp
    · rw [getElem?_set_ne hji]
      exact h.earlier j (by omega)

theorem Branched.cons {out : Nat} {g'' : Gnodes} (h : Branched g' out todo g'') (hfilled : Filled g out i todo g') :
    Branched g out todo g'' := by
  obtain ⟨groots, hnone, hself⟩ := h.kept
  refine ⟨h.wired, hfilled.grows.le.trans h.grows, fun n hn hne => ?_, groots, hnone, ?_⟩
  · rw [h.same n (hn.trans hfilled.grows) hne, hfilled.same n hn hne]
  · rw [hself, hfilled.self]

theorem branching_start (h : Wired g todo) {branchesCnt : Nat} (hcnt : branchesCnt < 2 ^ 32) :
    Branching ((g.create .parallel).setupParallel g.next branchesCnt) g.next 0 branchesCnt (insert g.next todo) := by
  have hself : ((g.create .parallel).setupParallel g.next branchesCnt).nodes g.next =
      { Gnode.init .parallel with groots := .replicate branchesCnt none } := by
    simp [setupParallel, setNode, create_self]
  refine ⟨(h.create .parallel).setupParallel (Nat.lt_succ_self _) (.inl rfl) (by rw [create_self]; rfl)
    (by rw [create_self]; rfl) hcnt, ⟨Nat.lt_succ_self _, .inl rfl⟩, by rw [hself]; rfl, ?_, fun j _ hj => ?_, nofun⟩
  · rw [hself, length_replicate]
  · rw [hself, getElem?_replicate, if_pos hj]

theorem Branched.finish {inNode branchesCnt : Nat}
    (h : Branched ((g.create .parallel).setupParallel g.next branchesCnt) g.next (insert g.next todo) g')
    (hin : inNode < g.next) (hfree : (g.nodes inNode).node = none) :
    Built g inNode todo g.next (g'.connect inNode g.next false) := by
  obtain ⟨groots, hnone, hself⟩ := h.kept
  have hself' : g'.nodes g.next = { Gnode.init .parallel with groots := groots } := by
    rw [hself]
    simp [setupParallel, setNode, create_self]
  refine .finish h.wired hin hfree h.grows (fun n hn => ?_) (by rw [hself']; exact GnodeType.noConfusion)
    (by rw [hself']; rfl)
    (by rw [hself']; rfl) (by rw [hself']; exact hnone)
  have hne : n ≠ g.next := Nat.ne_of_lt hn
  rw [h.same n (Nat.lt_succ_of_lt hn) hne]
  simp [setupParallel, setNode, create_of_ne hne, hne]

theorem Built.serial {inNode mid out : Nat} {g'' : Gnodes} (h : Built g inNode todo mid g') (hin : inNode < g.next)
    (hright : Built g' mid todo out g'') : Built g inNode todo out g'' := by
  obtain ⟨hle, hlt⟩ := h.place
  obtain ⟨hle', hlt'⟩ := hright.place
  refine ⟨hright.wired, ⟨by omega, hlt'⟩, hright.free, fun n hn hne => ?_, ?_⟩
  · rw [hright.same n (by omega) (by omega), h.same n hn hne]
  · rw [hright.same inNode (by omega) (by omega)]
    exact h.kept

theorem Built.operator {type : GnodeType} {inNode opOut : Nat}
    (h : Built ((g.create type).create .nop) (g.next + 1) (insert (g.next + 1) (insert g.next todo)) opOut g')
    (hin : inNode < g.next) (hfree : (g.nodes inNode).node = none) (hgroots : (Gnode.init type).groots = [none])
    (htype : type ≠ .nop) :
    Built g inNode todo g.next
      (((g'.setGroot g.next 0 (g.next + 1)).connect opOut g.next true).connect inNode g.next false) := by
  have hfilled := Built.filled (g := g.create type) (i := 0) h (Nat.lt_succ_self _) (.inl rfl)
    (by rw [create_self, hgroots]; rfl)
  have hself := hfilled.self
  rw [create_self, hgroots] at hself
  refine .finish hfilled.wired hin hfree (Nat.lt_of_succ_lt hfilled.grows) (fun n hn => ?_) ?_ ?_ ?_ ?_
  · have hne : n ≠ g.next := Nat.ne_of_lt hn
    exact (hfilled.same n (Nat.lt_succ_of_lt hn) hne).trans (create_of_ne hne type)
  · exact (congrArg Gnode.type hself).trans_ne htype
  · exact congrArg Gnode.node hself
  · exact congrArg Gnode.parent hself
  · intro hmem
    have hgroots' := congrArg Gnode.groots hself
    have hmem' := hgroots' ▸ hmem
    simp at hmem'

mutual

theorem create_built (net : NetExpr) {inNode : Nat} {g : Gnodes} {todo : Set Nat} (h : Wired g todo)
    (hin : inNode < g.next) (hfree : (g.nodes inNode).node = none) :
    Built g inNode todo (net.create inNode g).1 (net.create inNode g).2 := by
  cases net with
  | box =>
    refine .finish (h.create .box) hin hfree (Nat.lt_succ_self _) (fun n hn => create_of_ne (Nat.ne_of_lt hn) _) ?_ ?_ ?_ ?_
    all_goals rw [create_self]; simp [Gnode.init]
  | sync =>
    refine .finish (h.create .synccell) hin hfree (Nat.lt_succ_self _) (fun n hn => create_of_ne (Nat.ne_of_lt hn) _)
      ?_ ?_ ?_ ?_
    all_goals rw [create_self]; simp [Gnode.init]
  | serial left right =>
    have hleft := create_built left h hin hfree
    have hright := create_built right hleft.wired hleft.place.2 hleft.free
    exact hleft.serial hin hright
  | parallel branches =>
    have hcnt : branches.length % 2 ^ 32 < 2 ^ 32 := Nat.mod_lt _ (by decide)
    exact (create_branched branches (branching_start h hcnt) (by omega)).finish hin hfree
  | star op =>
    exact (create_built op ((h.create .star).create .nop) (Nat.lt_succ_self _) (by rw [create_self]; rfl)).operator
      hin hfree rfl (by decide)
  | split op =>
    exact (create_built op ((h.create .split).create .nop) (Nat.lt_succ_self _) (by rw [create_self]; rfl)).operator
      hin hfree rfl (by decide)

theorem create_branched (branches : NetExprs) {out i branchesCnt : Nat} {g : Gnodes} {todo : Set Nat}
    (h : Branching g out i branchesCnt todo) (hlength : branchesCnt ≤ i + branches.length) :
    Branched g out todo (branches.create out i branchesCnt g) := by
  cases branches with
  | nil => exact h.done hlength
  | cons branch rest =>
    rw [NetExprs.create]
    split_ifs with hi
    · have hbuilt := create_built branch (h.wired.create .nop) (Nat.lt_succ_self g.next) (by rw [create_self]; rfl)
      have hfilled := hbuilt.filled h.place.1 h.place.2 (h.later i le_rfl hi)
      exact (create_branched rest (h.step hi hfilled) (by rw [NetExprs.length] at hlength; omega)).cons hfilled
    · exact h.done (Nat.le_of_not_lt hi)

end

theorem wired_root : Wired (empty.create .nop) ∅ := by
  have hnodes : ∀ n, (empty.create .nop).nodes n = .init .nop := fun n => by simp [create, empty]
  refine ⟨Nat.one_pos, fun n _ => hnodes n, ?_, fun n m hm => ?_, fun n p _ hp => ?_, fun c i r hr => ?_,
    fun r c _ hp => ?_, fun c i j r hi => ?_, fun c => ?_, fun n hn _ => ?_⟩
  · rw [hnodes]
    exact ⟨rfl, rfl⟩
  · rw [Next, hnodes] at hm
    cases hm.2
  · rw [hnodes] at hp
    cases hp
  · rw [Operand, hnodes] at hr
    cases hr
  · rw [hnodes] at hp
    cases hp
  · rw [Operand, hnodes] at hi
    cases hi
  · rw [hnodes]
    rfl
  · have hn0 : n = 0 := Nat.lt_one_iff.1 hn
    rw [hnodes]
    exact ⟨fun hne => absurd hn0 hne, not_mem_nil⟩

theorem graph_wired (net : NetExpr) : Wired net.graph ∅ := by
  have hfree : ((empty.create .nop).nodes 0).node = none := by simp [create, empty, Gnode.init]
  exact (create_built net wired_root Nat.one_pos hfree).wired

end Gnodes

end SNet.Svpgw
