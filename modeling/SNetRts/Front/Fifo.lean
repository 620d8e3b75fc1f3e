import SNetRts.Lib.Linked
import Mathlib.Data.List.Basic

/-!
# Queues

The queues of `front/xfifo.c`. A queue is a linked list with a pointer to its last node; its first node
has no item. The nodes of all queues are in one memory, since a whole tail can be moved from a queue to
another one and `SNetFifoPutGet` uses the first node again for the item that it puts in.

`FifoOp.spec` is what the operations do with the lists of the items. `Memory.run_refines` is that the
memory does the same, whatever the order of the operations on any number of queues. Nodes that are
deleted are not used again.
-/

namespace SNet.Front

open Function (update update_of_ne update_self)

open Lib List

section Lists

variable {R : Type*}

/-- `SNetFifoPut` on the list of the items. -/
def fifoPut (q : List R) (item : R) : List R := q ++ [item]

/-- `SNetFifoGet` -/
def fifoGet (q : List R) : Option R × List R := (q.head?, q.tail)

/-- `SNetFifoPutGet`: the item that comes out, and the queue then. -/
def fifoPutGet (q : List R) (item : R) : R × List R :=
  match q with
  | [] => (item, [])
  | first :: rest => (first, rest ++ [item])

theorem fifoPutGet_eq (q : List R) (item : R) :
    (fifoPutGet q item).1 :: (fifoPutGet q item).2 = fifoPut q item := by
  cases q <;> rfl

end Lists

/-- An operation on the queues `F`. -/
inductive FifoOp (F R : Type*) where
  | put (f : F) (item : R)
  | get (f : F)
  | putGet (f : F) (item : R)
  /-- `SNetFifoGetTail` of a queue and `SNetFifoPutTail` on another one. -/
  | splice (f g : F) (hne : f ≠ g)

variable {F R : Type*} [DecidableEq F]

def FifoOp.spec (q : F → List R) : FifoOp F R → Option R × (F → List R)
  | .put f item => (none, update q f (fifoPut (q f) item))
  | .get f => ((fifoGet (q f)).1, update q f (fifoGet (q f)).2)
  | .putGet f item => (some (fifoPutGet (q f) item).1, update q f (fifoPutGet (q f) item).2)
  | .splice f g _ => (none, update (update q f []) g (q g ++ q f))

/-- A node is the first one that a queue got, or one that was allocated later. -/
abbrev Node (F : Type*) := F ⊕ Nat

structure Memory (F R : Type*) where
  head : F → Node F
  tail : F → Node F
  next : Node F → Option (Node F)
  item : Node F → Option R
  allocated : Nat

namespace Memory

/-- `SNetFifoInit` of all queues. -/
def init : Memory F R where
  head := .inl
  tail := .inl
  next _ := none
  item _ := none
  allocated := 0

variable (m : Memory F R)

/-- `SNetFifoPut` -/
def put (f : F) (item : R) : Memory F R :=
  let node := .inr m.allocated
  { m with
    next := update (update m.next node none) (m.tail f) (some node)
    item := update m.item node (some item)
    tail := update m.tail f node
    allocated := m.allocated + 1 }

/-- `SNetFifoGet` -/
def get (f : F) : Option R × Memory F R :=
  match m.next (m.head f) with
  | none => (none, m)
  | some next =>
    (m.item next,
      { m with item := update m.item next none, head := update m.head f next })

/-- `SNetFifoPutGet` -/
def putGet (f : F) (item : R) : Option R × Memory F R :=
  let node := m.head f
  match m.next node with
  | none => (some item, m)
  | some next =>
    let items := update m.item node (some item)
    (items next,
      { m with
        item := update items next none
        head := update m.head f next
        next := update (update m.next node none) (m.tail f) (some node)
        tail := update m.tail f node })

/-- `SNetFifoGetTail`: the first and the last node that are taken off. -/
def getTail (f : F) : Option (Node F × Node F) × Memory F R :=
  if m.tail f = m.head f then (none, m)
  else
    ((m.next (m.head f)).map fun node => (node, m.tail f),
      { m with
        next := update m.next (m.head f) none
        tail := update m.tail f (m.head f) })

/-- `SNetFifoPutTail` -/
def putTail (g : F) (nodes : Option (Node F × Node F)) : Memory F R :=
  match nodes with
  | none => m
  | some (node, tail) =>
    { m with
      next := update m.next (m.tail g) (some node)
      tail := update m.tail g tail }

def apply : FifoOp F R → Option R × Memory F R
  | .put f item => (none, m.put f item)
  | .get f => m.get f
  | .putGet f item => m.putGet f item
  | .splice f g _ => (none, (m.getTail f).2.putTail g (m.getTail f).1)

/-- The nodes of a queue, the first one without an item, and its items. -/
structure Queue (f : F) (nodes : List (Node F)) (q : List R) : Prop where
  seg : Seg (fun a => some (m.next a)) (some (m.head f)) (m.head f :: nodes) none
  last : (m.head f :: nodes).getLast? = some (m.tail f)
  items : nodes.map m.item = q.map some
  nodup : (m.head f :: nodes).Nodup
  allocated : ∀ n, .inr n ∈ m.head f :: nodes → n < m.allocated

def Holds (q : F → List R) : Prop :=
  ∃ nodes : F → List (Node F), (∀ f, m.Queue f (nodes f) (q f)) ∧
    ∀ f g a, f ≠ g → a ∈ m.head f :: nodes f → a ∉ m.head g :: nodes g

variable {m} {m' : Memory F R} {f g : F} {nodes : List (Node F)} {q : List R}

omit [DecidableEq F] in
theorem Queue.congr (h : m.Queue f nodes q) (hhead : m'.head f = m.head f) (htail : m'.tail f = m.tail f)
    (hnext : ∀ a ∈ m.head f :: nodes, m'.next a = m.next a)
    (hitem : ∀ a ∈ nodes, m'.item a = m.item a) (hle : m.allocated ≤ m'.allocated) :
    m'.Queue f nodes q := by
  refine ⟨?_, ?_, ?_, ?_, fun n hn => ?_⟩
  · rw [hhead]
    exact h.seg.congr fun a ha => congrArg some (hnext a ha)
  · rw [hhead, htail]
    exact h.last
  · rw [← h.items]
    exact map_congr_left hitem
  · rw [hhead]
    exact h.nodup
  · rw [hhead] at hn
    exact Nat.lt_of_lt_of_le (h.allocated n hn) hle

omit [DecidableEq F] in
theorem init_holds : (init : Memory F R).Holds fun _ => [] :=
  ⟨fun _ => [], fun f => ⟨⟨rfl, none, rfl, rfl⟩, rfl, rfl, nodup_singleton _, by simp [init]⟩,
    by simp [init]⟩

omit [DecidableEq F] in
theorem Queue.not_fresh (h : m.Queue f nodes q) : .inr m.allocated ∉ m.head f :: nodes :=
  fun hmem => Nat.lt_irrefl _ (h.allocated _ hmem)

theorem Holds.set {q : F → List R} {nodes : F → List (Node F)} {nodes' : List (Node F)} {q' : List R}
    (hqueues : ∀ f, m.Queue f (nodes f) (q f))
    (hdisj : ∀ f g a, f ≠ g → a ∈ m.head f :: nodes f → a ∉ m.head g :: nodes g)
    (hf : m'.Queue f nodes' q') (hhead : ∀ g, g ≠ f → m'.head g = m.head g ∧ m'.tail g = m.tail g)
    (hmem : ∀ a, a ∉ m.head f :: nodes f → a ≠ .inr m.allocated →
      m'.next a = m.next a ∧ m'.item a = m.item a)
    (hnew : ∀ a ∈ m'.head f :: nodes', a ∈ m.head f :: nodes f ∨ a = .inr m.allocated)
    (hle : m.allocated ≤ m'.allocated) : m'.Holds (update q f q') := by
  have hkeep : ∀ g, g ≠ f → ∀ a ∈ m.head g :: nodes g, m'.next a = m.next a ∧ m'.item a = m.item a := by
    intro g hg a ha
    refine hmem a (hdisj g f a hg ha) ?_
    rintro rfl
    exact (hqueues g).not_fresh ha
  have hapart : ∀ g, g ≠ f → ∀ a ∈ m.head g :: nodes g, a ∉ m'.head f :: nodes' := by
    intro g hg a ha hmem'
    rcases hnew a hmem' with h | rfl
    · exact hdisj g f a hg ha h
    · exact (hqueues g).not_fresh ha
  refine ⟨update nodes f nodes', fun g => ?_, fun g g' a hne ha hb => ?_⟩
  · by_cases hg : g = f
    · subst hg
      rw [update_self, update_self]
      exact hf
    · rw [update_of_ne hg, update_of_ne hg]
      exact (hqueues g).congr (hhead g hg).1 (hhead g hg).2 (fun a ha => (hkeep g hg a ha).1)
        (fun a ha => (hkeep g hg a (mem_cons_of_mem _ ha)).2) hle
  · by_cases hg : g = f
    · subst hg
      have hg' : g' ≠ g := hne.symm
      rw [update_self] at ha
      rw [update_of_ne hg', (hhead g' hg').1] at hb
      exact hapart g' hg' a hb ha
    · rw [update_of_ne hg, (hhead g hg).1] at ha
      by_cases hg' : g' = f
      · subst hg'
        rw [update_self] at hb
        exact hapart g hg a ha hb
      · rw [update_of_ne hg', (hhead g' hg').1] at hb
        exact hdisj g g' a hne ha hb

/-! ### The operations -/

omit [DecidableEq F] in
theorem Queue.exists_init (h : m.Queue f nodes q) :
    ∃ init, m.head f :: nodes = init ++ [m.tail f] ∧ m.tail f ∉ init := by
  obtain ⟨init, hinit⟩ := getLast?_eq_some_iff.1 h.last
  refine ⟨init, hinit, fun hmem => ?_⟩
  have hnodup := h.nodup
  rw [hinit, nodup_append] at hnodup
  exact hnodup.2.2 _ hmem _ (mem_singleton_self _) rfl

omit [DecidableEq F] in
theorem Queue.tail_mem (h : m.Queue f nodes q) : m.tail f ∈ m.head f :: nodes :=
  mem_of_getLast? h.last

theorem Queue.append (h : m.Queue f nodes q) {node : Node F} {x : R} (hnode : node ∉ m.head f :: nodes)
    (hhead : m'.head f = m.head f) (htail : m'.tail f = node)
    (hnext : m'.next = update (update m.next node none) (m.tail f) (some node))
    (hitem : ∀ a ∈ nodes, m'.item a = m.item a) (hx : m'.item node = some x)
    (hle : m.allocated ≤ m'.allocated) (hall : ∀ n, .inr n = node → n < m'.allocated) :
    m'.Queue f (nodes ++ [node]) (q ++ [x]) := by
  obtain ⟨init, hinit, hnot⟩ := h.exists_init
  have hcells : m.head f :: (nodes ++ [node]) = (init ++ [m.tail f]) ++ [node] := by
    rw [← hinit, cons_append]
  have htailne : node ≠ m.tail f := fun heq => hnode (heq ▸ h.tail_mem)
  refine ⟨?_, ?_, ?_, ?_, fun n hn => ?_⟩
  · have hseg := h.seg
    rw [hinit] at hseg
    rw [hhead, hcells]
    refine Seg.append_iff.2 ⟨some node, hseg.set_last hnot (fun b hb hbl => ?_) ?_, rfl, none, ?_, rfl⟩
    · have hbn : b ≠ node := by
        rintro rfl
        exact hnode (hinit ▸ mem_append_left _ hb)
      rw [hnext, update_of_ne hbl, update_of_ne hbn]
    · rw [hnext, update_self]
    · simp only [hnext, update_of_ne htailne, update_self]
  · rw [hhead, hcells, htail]
    simp
  · rw [map_append, map_append, ← h.items, map_congr_left hitem]
    simp [hx]
  · rw [hhead, ← cons_append, nodup_append]
    refine ⟨h.nodup, nodup_singleton _, fun a ha b hb => ?_⟩
    rw [mem_singleton.1 hb]
    rintro rfl
    exact hnode ha
  · rw [hhead, ← cons_append, mem_append, mem_singleton] at hn
    rcases hn with hn | hn
    · exact Nat.lt_of_lt_of_le (h.allocated n hn) hle
    · exact hall n hn

theorem Holds.put {q : F → List R} (h : m.Holds q) (f : F) (x : R) :
    (m.put f x).Holds (update q f (fifoPut (q f) x)) := by
  obtain ⟨nodes, hqueues, hdisj⟩ := h
  have hf := hqueues f
  have hqueue : (m.put f x).Queue f (nodes f ++ [.inr m.allocated]) (q f ++ [x]) := by
    refine hf.append hf.not_fresh rfl (update_self _ _ _) rfl (fun a ha => ?_)
      (update_self _ _ _) (Nat.le_succ _) fun n hn => ?_
    · refine update_of_ne ?_ _ _
      rintro rfl
      exact hf.not_fresh (mem_cons_of_mem _ ha)
    · exact Sum.inr.inj hn ▸ Nat.lt_succ_self _
  refine Holds.set hqueues hdisj hqueue (fun g hg => ⟨rfl, update_of_ne hg _ _⟩)
    (fun a ha hfresh => ⟨?_, update_of_ne hfresh _ _⟩) (fun a ha => ?_) (Nat.le_succ _)
  · have hne : a ≠ m.tail f := fun heq => ha (heq ▸ hf.tail_mem)
    simp only [Memory.put, update_of_ne hne, update_of_ne hfresh]
  · rw [← cons_append, mem_append, mem_singleton] at ha
    exact ha

omit [DecidableEq F] in
theorem Queue.next_head (h : m.Queue f nodes q) : m.next (m.head f) = nodes.head? := by
  obtain ⟨-, r, hr, hseg⟩ := h.seg
  rw [Option.some.inj hr]
  have := hseg.head_eq
  rwa [Option.or_none] at this

omit [DecidableEq F] in
theorem Queue.nil_iff (h : m.Queue f nodes q) : nodes = [] ↔ q = [] := by
  have hlen := congrArg List.length h.items
  rw [length_map, length_map] at hlen
  rw [← length_eq_zero_iff, hlen, length_eq_zero_iff]

theorem Queue.get {node : Node F} {x : R} (h : m.Queue f (node :: nodes) (x :: q)) :
    m.get f = (some x,
      { m with item := update m.item node none, head := update m.head f node }) ∧
      (m.get f).2.Queue f nodes q := by
  have hnext : m.next (m.head f) = some node := h.next_head
  have hitems := h.items
  rw [map_cons, map_cons, List.cons.injEq] at hitems
  have hget : m.get f = (some x,
      { m with item := update m.item node none, head := update m.head f node }) := by
    unfold Memory.get
    rw [hnext]
    simp only [hitems.1]
  have hnodup := (nodup_cons.1 h.nodup).2
  refine ⟨hget, ?_⟩
  rw [hget]
  refine ⟨?_, ?_, ?_, ?_, fun n hn => ?_⟩
  · simp only [update_self]
    obtain ⟨-, r, hr, hseg⟩ := h.seg
    rwa [← Option.some.inj hr, hnext] at hseg
  · have hlast := h.last
    rw [getLast?_cons_cons] at hlast
    simp only [update_self]
    exact hlast
  · rw [← hitems.2]
    refine map_congr_left fun a ha => update_of_ne ?_ _ _
    rintro rfl
    exact (nodup_cons.1 hnodup).1 ha
  · simp only [update_self]
    exact hnodup
  · simp only [update_self] at hn
    exact h.allocated n (mem_cons_of_mem _ hn)

omit [DecidableEq F] in
theorem Queue.cases (h : m.Queue f nodes q) :
    (nodes = [] ∧ q = []) ∨ ∃ node rest x q', nodes = node :: rest ∧ q = x :: q' := by
  cases hnodes : nodes with
  | nil => exact .inl ⟨rfl, h.nil_iff.1 hnodes⟩
  | cons node rest =>
    cases hq : q with
    | nil => exact absurd (h.nil_iff.2 hq) (hnodes ▸ cons_ne_nil _ _)
    | cons x q' => exact .inr ⟨node, rest, x, q', rfl, rfl⟩

theorem Holds.get {q : F → List R} (h : m.Holds q) (f : F) :
    (m.get f).1 = (fifoGet (q f)).1 ∧
      (m.get f).2.Holds (update q f (fifoGet (q f)).2) := by
  obtain ⟨nodes, hqueues, hdisj⟩ := h
  have hf := hqueues f
  rcases hf.cases with ⟨hnodes, hq⟩ | ⟨node, rest, x, q', hnodes, hq⟩
  · have hnext : m.next (m.head f) = none := by
      rw [hf.next_head, hnodes]
      rfl
    have hget : m.get f = (none, m) := by
      unfold Memory.get
      rw [hnext]
    have hsame : (fifoGet (q f)).2 = q f := by rw [hq]; rfl
    rw [hget, hsame, Function.update_eq_self, hq]
    exact ⟨rfl, nodes, hqueues, hdisj⟩
  · rw [hnodes, hq] at hf
    obtain ⟨hget, hqueue⟩ := hf.get
    rw [hq]
    refine ⟨by rw [hget]; rfl, ?_⟩
    rw [hget] at hqueue ⊢
    refine Holds.set hqueues hdisj hqueue (fun g hg => ⟨update_of_ne hg _ _, rfl⟩)
      (fun a ha _ => ⟨rfl, update_of_ne ?_ _ _⟩) (fun a ha => ?_) (Nat.le_refl _)
    · rintro rfl
      exact ha (hnodes ▸ mem_cons_of_mem _ mem_cons_self)
    · simp only [update_self] at ha
      exact .inl (hnodes ▸ mem_cons_of_mem _ ha)

theorem putGet_of_none {x : R} (h : m.next (m.head f) = none) : m.putGet f x = (some x, m) := by
  unfold putGet
  simp only [h]

theorem putGet_of_some {x : R} {node : Node F} (h : m.next (m.head f) = some node) :
    m.putGet f x = (update m.item (m.head f) (some x) node,
      { m with
        item := update (update m.item (m.head f) (some x)) node none
        head := update m.head f node
        next := update (update m.next (m.head f) none) (m.tail f) (some (m.head f))
        tail := update m.tail f (m.head f) }) := by
  unfold putGet
  simp only [h]

theorem Holds.putGet {q : F → List R} (h : m.Holds q) (f : F) (x : R) :
    (m.putGet f x).1 = some (fifoPutGet (q f) x).1 ∧
      (m.putGet f x).2.Holds (update q f (fifoPutGet (q f) x).2) := by
  obtain ⟨nodes, hqueues, hdisj⟩ := h
  have hf := hqueues f
  rcases hf.cases with ⟨hnodes, hq⟩ | ⟨node, rest, y, q', hnodes, hq⟩
  · have hnext : m.next (m.head f) = none := by
      rw [hf.next_head, hnodes]
      rfl
    have hsame : (fifoPutGet (q f) x).2 = q f := by rw [hq]; rfl
    rw [putGet_of_none hnext, hsame, Function.update_eq_self, hq]
    exact ⟨rfl, nodes, hqueues, hdisj⟩
  · have hmem : ∀ a, a ∈ m.head f :: node :: rest → a ∈ m.head f :: nodes f := fun a ha => hnodes ▸ ha
    rw [hnodes, hq] at hf
    obtain ⟨hget, hqueue⟩ := hf.get
    have hnext : m.next (m.head f) = some node := hf.next_head
    have hcells := nodup_cons.1 hf.nodup
    have hne : node ≠ m.head f := fun heq => hcells.1 (heq ▸ mem_cons_self)
    have hitem : m.item node = some y := by
      have := hf.items
      rw [map_cons, map_cons, List.cons.injEq] at this
      exact this.1
    rw [hq, putGet_of_some hnext, update_of_ne hne, hitem]
    refine ⟨rfl, ?_⟩
    rw [hget] at hqueue
    have hnot : m.head f ∉ update m.head f node f :: rest := by
      rw [update_self]
      exact hcells.1
    -- the first node goes behind the last one of what is left
    refine Holds.set hqueues hdisj (hqueue.append hnot rfl
      (update_self _ _ _) rfl (fun a ha => ?_) ?_ (Nat.le_refl _)
      fun n hn => hf.allocated n (hn ▸ mem_cons_self))
      (fun g hg => ⟨update_of_ne hg _ _, update_of_ne hg _ _⟩) (fun a ha _ => ?_)
      (fun a ha => .inl (hmem a ?_)) (Nat.le_refl _)
    · have ha' : a ≠ m.head f := by
        rintro rfl
        exact hcells.1 (mem_cons_of_mem _ ha)
      by_cases han : a = node
      · simp [han]
      · simp only [update_of_ne han, update_of_ne ha']
    · simp only [update_of_ne hne.symm, update_self]
    · have h1 : a ≠ m.head f := fun heq => ha (heq ▸ mem_cons_self)
      have h2 : a ≠ node := fun heq => ha (hmem a (heq ▸ mem_cons_of_mem _ mem_cons_self))
      have h3 : a ≠ m.tail f := fun heq => ha (hmem a (heq ▸ hf.tail_mem))
      simp only [update_of_ne h1, update_of_ne h2, update_of_ne h3, and_self]
    · simp only [update_self, mem_cons, mem_append, not_mem_nil, or_false] at ha ⊢
      tauto

theorem splice_eq {node : Node F} {rest : List (Node F)} (h : m.Queue f (node :: rest) q) :
    (m.getTail f).2.putTail g (m.getTail f).1 =
      { m with
        next := update (update m.next (m.head f) none)
          (update m.tail f (m.head f) g) (some node)
        tail := update (update m.tail f (m.head f)) g (m.tail f) } := by
  have hne : m.tail f ≠ m.head f := by
    intro heq
    have hlast := h.last
    rw [getLast?_cons_cons] at hlast
    exact (nodup_cons.1 h.nodup).1 (heq ▸ mem_of_getLast? hlast)
  have hnext : m.next (m.head f) = some node := h.next_head
  unfold getTail
  rw [if_neg hne, hnext]
  rfl

omit [DecidableEq F] in
theorem Queue.cut (h : m.Queue f nodes q) (hhead : m'.head f = m.head f) (htail : m'.tail f = m.head f)
    (hnext : m'.next (m.head f) = none) (hle : m.allocated ≤ m'.allocated) :
    m'.Queue f [] ([] : List R) := by
  refine ⟨⟨rfl, none, ?_, rfl⟩, ?_, rfl, nodup_singleton _, fun n hn => ?_⟩
  · rw [hhead]
    exact congrArg some hnext
  · rw [hhead, htail]
    rfl
  · rw [mem_singleton, hhead] at hn
    exact Nat.lt_of_lt_of_le (h.allocated n (hn ▸ mem_cons_self)) hle

omit [DecidableEq F] in
theorem Queue.join {node : Node F} {rest : List (Node F)} {q' : List R} (h : m.Queue g nodes q)
    (hf : m.Queue f (node :: rest) q') (hapart : ∀ a ∈ m.head g :: nodes, a ∉ m.head f :: node :: rest)
    (hhead : m'.head g = m.head g) (htail : m'.tail g = m.tail f)
    (hlink : m'.next (m.tail g) = some node)
    (hnext : ∀ a, a ≠ m.head f → a ≠ m.tail g → m'.next a = m.next a) (hitem : m'.item = m.item)
    (hle : m.allocated ≤ m'.allocated) : m'.Queue g (nodes ++ node :: rest) (q ++ q') := by
  obtain ⟨init, hinit, hnot⟩ := h.exists_init
  have hcells := nodup_cons.1 hf.nodup
  refine ⟨?_, ?_, ?_, ?_, fun n hn => ?_⟩
  · rw [← cons_append, hhead]
    refine Seg.append_iff.2 ⟨some node, ?_, ?_⟩
    · have hseg := h.seg
      rw [hinit] at hseg ⊢
      refine hseg.set_last hnot (fun b hb hbl => ?_) (congrArg some hlink)
      refine congrArg some (hnext b (fun heq => ?_) hbl)
      exact hapart b (hinit ▸ mem_append_left _ hb) (heq ▸ mem_cons_self)
    · obtain ⟨-, r, hr, hseg⟩ := hf.seg
      rw [← Option.some.inj hr, show m.next (m.head f) = some node from hf.next_head] at hseg
      refine hseg.congr fun b hb => congrArg some (hnext b (fun heq => hcells.1 (heq ▸ hb)) fun heq => ?_)
      exact hapart _ h.tail_mem (heq ▸ mem_cons_of_mem _ hb)
  · have hlast := hf.last
    rw [getLast?_cons_cons] at hlast
    rw [← cons_append, getLast?_append, hlast, htail]
    rfl
  · rw [hitem, map_append, map_append, h.items, ← hf.items]
  · rw [← cons_append, hhead, nodup_append]
    refine ⟨h.nodup, hcells.2, fun a ha b hb => ?_⟩
    rintro rfl
    exact hapart a ha (mem_cons_of_mem _ hb)
  · rw [← cons_append, hhead, mem_append] at hn
    rcases hn with hn | hn
    · exact Nat.lt_of_lt_of_le (h.allocated n hn) hle
    · exact Nat.lt_of_lt_of_le (hf.allocated n (mem_cons_of_mem _ hn)) hle

theorem Holds.splice {q : F → List R} (h : m.Holds q) (hne : f ≠ g) :
    ((m.getTail f).2.putTail g (m.getTail f).1).Holds
      (update (update q f []) g (q g ++ q f)) := by
  obtain ⟨nodes, hqueues, hdisj⟩ := h
  have hf := hqueues f
  have hg := hqueues g
  rcases hf.cases with ⟨hnodes, hq⟩ | ⟨node, rest, x, q', hnodes, hq⟩
  · have htail : m.tail f = m.head f := by
      have := hf.last
      rw [hnodes] at this
      exact (Option.some.inj this).symm
    have hget : m.getTail f = (none, m) := by
      unfold getTail
      rw [if_pos htail]
    have hsame : update (update q f []) g (q g ++ q f) = q := by
      rw [hq, append_nil, ← hq, Function.update_eq_self, Function.update_eq_self]
    rw [hget, hsame]
    exact ⟨nodes, hqueues, hdisj⟩
  · have hapart : ∀ a ∈ m.head g :: nodes g, a ∉ m.head f :: node :: rest :=
      fun a ha hmem => hdisj g f a hne.symm ha (hnodes ▸ hmem)
    rw [hnodes] at hf
    rw [splice_eq hf, update_of_ne hne.symm]
    have hnotf : m.head f ≠ m.tail g := fun heq => hapart _ hg.tail_mem (heq ▸ mem_cons_self)
    have hnext : ∀ a, a ≠ m.head f → a ≠ m.tail g →
        update (update m.next (m.head f) none) (m.tail g) (some node) a = m.next a :=
      fun a h1 h2 => by rw [update_of_ne h2, update_of_ne h1]
    -- the cells of a queue are those that it had, or go from one queue to the other
    have hcells : ∀ k a, a ∈ m.head k :: update (update nodes f []) g
        (nodes g ++ node :: rest) k →
        a ∈ m.head k :: nodes k ∧ (k = f → a = m.head f) ∨ k = g ∧ a ∈ node :: rest := by
      intro k a ha
      by_cases hkg : k = g
      · subst hkg
        rw [update_self, ← cons_append, mem_append] at ha
        exact ha.imp (fun h => ⟨h, fun h => absurd h.symm hne⟩) fun h => ⟨rfl, h⟩
      · rw [update_of_ne hkg] at ha
        by_cases hkf : k = f
        · subst hkf
          rw [update_self, mem_singleton] at ha
          exact .inl ⟨ha ▸ mem_cons_self, fun _ => ha⟩
        · rw [update_of_ne hkf] at ha
          exact .inl ⟨ha, fun h => absurd h hkf⟩
    have hmoved : ∀ k a, k ≠ f → a ∈ node :: rest → a ∉ m.head k :: nodes k :=
      fun k a hk ha hmem => hdisj k f a hk hmem (hnodes ▸ mem_cons_of_mem _ ha)
    have hnotmem : m.head f ∉ node :: rest := (nodup_cons.1 hf.nodup).1
    refine ⟨update (update nodes f []) g (nodes g ++ node :: rest), fun k => ?_,
      fun k k' a hkk ha hb => ?_⟩
    rotate_left
    · rcases hcells k a ha with ⟨h1, hf1⟩ | ⟨hk1, h1⟩ <;> rcases hcells k' a hb with ⟨h2, hf2⟩ | ⟨hk2, h2⟩
      · exact hdisj k k' a hkk h1 h2
      · by_cases hkf : k = f
        · exact hnotmem (hf1 hkf ▸ h2)
        · exact hmoved k a hkf h2 h1
      · by_cases hkf : k' = f
        · exact hnotmem (hf2 hkf ▸ h1)
        · exact hmoved k' a hkf h1 h2
      · exact hkk (hk1.trans hk2.symm)
    by_cases hkg : k = g
    · subst hkg
      rw [update_self, update_self]
      exact hg.join hf hapart rfl (update_self _ _ _) (update_self _ _ _) hnext rfl
        (Nat.le_refl _)
    · rw [update_of_ne hkg, update_of_ne hkg]
      by_cases hkf : k = f
      · subst hkf
        rw [update_self, update_self]
        refine hf.cut rfl ?_ ?_ (Nat.le_refl _)
        · simp only [update_of_ne hkg, update_self]
        · simp only [update_of_ne hnotf, update_self]
      · rw [update_of_ne hkf, update_of_ne hkf]
        refine (hqueues k).congr rfl ?_ (fun a ha => hnext a ?_ ?_) (fun _ _ => rfl) (Nat.le_refl _)
        · simp only [update_of_ne hkg, update_of_ne hkf]
        · rintro rfl
          exact hdisj k f _ hkf ha (hnodes ▸ mem_cons_self)
        · rintro rfl
          exact hdisj k g _ hkg ha hg.tail_mem

/-! ### Runs -/

theorem Holds.apply {q : F → List R} (h : m.Holds q) (op : FifoOp F R) :
    (m.apply op).1 = (op.spec q).1 ∧ (m.apply op).2.Holds (op.spec q).2 := by
  cases op with
  | put f item => exact ⟨rfl, h.put f item⟩
  | get f => exact h.get f
  | putGet f item => exact h.putGet f item
  | splice f g hne => exact ⟨rfl, h.splice hne⟩

/-- What a sequence of operations gives out, and the memory then. -/
def run (m : Memory F R) : List (FifoOp F R) → List (Option R) × Memory F R
  | [] => ([], m)
  | op :: ops => ((m.apply op).1 :: ((m.apply op).2.run ops).1, ((m.apply op).2.run ops).2)

def runSpec (q : F → List R) : List (FifoOp F R) → List (Option R) × (F → List R)
  | [] => ([], q)
  | op :: ops => ((op.spec q).1 :: (runSpec (op.spec q).2 ops).1, (runSpec (op.spec q).2 ops).2)

theorem run_refines (ops : List (FifoOp F R)) {m : Memory F R} {q : F → List R} (h : m.Holds q) :
    (m.run ops).1 = (runSpec q ops).1 ∧ (m.run ops).2.Holds (runSpec q ops).2 := by
  induction ops generalizing m q with
  | nil => exact ⟨rfl, h⟩
  | cons op ops ih =>
    obtain ⟨hout, hstep⟩ := h.apply op
    obtain ⟨houts, hrun⟩ := ih hstep
    refine ⟨?_, hrun⟩
    rw [run, runSpec, hout, houts]

theorem queues_are_lists (ops : List (FifoOp F R)) :
    (run init ops).1 = (runSpec (fun _ => []) ops).1 ∧ (run init ops).2.Holds (runSpec (fun _ => []) ops).2 :=
  run_refines ops init_holds

end Memory

end SNet.Front
