import SNetRts.Lib.Run
import Mathlib.Data.List.Basic
import Mathlib.Logic.Function.Basic

/-!
# A queue with a reader and a writer at once

`SNetFifoPut` and `SNetFifoGet` of `front/xfifo.c` share a queue without a lock: one thread may write while
another one reads. An access to the queue, or to a node that both threads can see, is a step of its own.
Nodes are numbers, in the order in which they are allocated, and are not used again. Memory is sequentially
consistent; an access through `NULL` or to a deleted node is a fault, as a failed assertion is.
-/

namespace SNet.Front.FifoAccess

open Function (update update_of_ne update_self)

open Lib

/-- Where the writer is in `SNetFifoPut`. -/
inductive Put (R : Type*) where
  | idle
  /-- The new node is filled in and `fifo->tail` is read. -/
  | filled (node tail : Nat) (item : R)
  /-- `tail->next` is set, `fifo->tail` is not yet. -/
  | linked (node : Nat)

/-- Where the reader is in `SNetFifoGet`, past the test of `head->next`. -/
inductive Get (R : Type*) where
  | idle
  | found (head : Nat)
  | taken (head : Nat) (item : Option R)
  | cleared (head : Nat) (item : Option R)
  | moved (head : Nat) (item : Option R)

structure State (R : Type*) where
  head : Nat
  tail : Nat
  next : Nat → Option Nat
  item : Nat → Option R
  deleted : Nat → Bool
  allocated : Nat
  put : Put R
  get : Get R
  /-- The items that have been linked, and those that `SNetFifoGet` has returned. -/
  written : List R
  got : List R

inductive Act (R : Type*) where
  /-- `SNetFifoPut` is called. -/
  | put (item : R)
  | writer
  /-- The reader goes on, with another `SNetFifoGet` when it is idle. -/
  | reader

variable {R : Type*}

/-- `SNetFifoInit` -/
def State.init : State R := ⟨0, 0, fun _ => none, fun _ => none, fun _ => false, 1, .idle, .idle, [], []⟩

/-- An access by way of `head->next`. -/
def State.atNext (s : State R) (head : Nat) (f : Nat → State R) : Outcome (State R) :=
  match s.next head with
  | none => .fault
  | some node => if s.deleted head ∨ s.deleted node then .fault else .done (f node)

def step (s : State R) : Act R → Outcome (State R)
  | .put item =>
    match s.put with
    | .idle =>
      .done { s with
        next := update s.next s.allocated none
        item := update s.item s.allocated (some item)
        allocated := s.allocated + 1
        put := .filled s.allocated s.tail item }
    | _ => .blocked
  | .writer =>
    match s.put with
    | .idle => .blocked
    | .filled node tail item =>
      if s.deleted tail then .fault
      else .done { s with
        next := update s.next tail (some node), put := .linked node, written := s.written ++ [item] }
    | .linked node => .done { s with tail := node, put := .idle }
  | .reader =>
    match s.get with
    | .idle =>
      if s.deleted s.head then .fault
      else .done (if s.next s.head = none then s else { s with get := .found s.head })
    | .found head => s.atNext head fun node => { s with get := .taken head (s.item node) }
    | .taken head item =>
      s.atNext head fun node => { s with item := update s.item node none, get := .cleared head item }
    | .cleared head item => s.atNext head fun node => { s with head := node, get := .moved head item }
    | .moved head item =>
      match item with
      | none => .fault
      | some item =>
        if s.deleted head then .fault
        else .done { s with deleted := update s.deleted head true, get := .idle, got := s.got ++ [item] }

/-- The items that are out of their nodes and not returned yet. -/
def Get.pending : Get R → Nat
  | cleared _ _ | moved _ _ => 1
  | _ => 0

/-- The writer at the node `n`, the last one that is linked. -/
def Put.At (s : State R) (n : Nat) : Put R → Prop
  | idle => s.tail = n ∧ s.allocated = n + 1
  | filled node tail item => tail = n ∧ node = n + 1 ∧ s.allocated = n + 2 ∧ s.item node = some item
  | linked node => node = n ∧ s.allocated = n + 1

/-- The reader at the node `g`, the first one that is not deleted. -/
def Get.At (s : State R) (g : Nat) : Get R → Prop
  | idle => s.head = g
  | found head => head = g ∧ s.head = g ∧ g < s.written.length
  | taken head item | cleared head item => head = g ∧ s.head = g ∧ g < s.written.length ∧ item = s.written[g]?
  | moved head item => head = g ∧ s.head = g + 1 ∧ g < s.written.length ∧ item = s.written[g]?

/-- Node `i + 1` has the `i`-th item, and the nodes before that of the next item to return are deleted. -/
structure Inv (s : State R) : Prop where
  order : s.got <+: s.written
  next : ∀ i, s.next i = if i < s.written.length then some (i + 1) else none
  deleted : ∀ i, s.deleted i = decide (i < s.got.length)
  items : ∀ i, s.got.length + s.get.pending ≤ i → i < s.written.length → s.item (i + 1) = s.written[i]?
  put : s.put.At s s.written.length
  get : s.get.At s s.got.length

namespace Inv

variable {s : State R}

theorem init : Inv (State.init : State R) := by
  refine ⟨List.prefix_refl _, fun i => ?_, fun i => ?_, fun i _ hi => ?_, ⟨rfl, rfl⟩, rfl⟩
  · exact (if_neg (Nat.not_lt_zero i)).symm
  · exact (decide_eq_false (Nat.not_lt_zero i)).symm
  · exact absurd hi (Nat.not_lt_zero i)

theorem live (h : Inv s) {i : Nat} (hi : s.got.length ≤ i) : ¬ s.deleted i = true := by
  rw [h.deleted, decide_eq_true_iff]
  exact Nat.not_lt.2 hi

theorem atNext (h : Inv s) (hlt : s.got.length < s.written.length) (f : Nat → State R) :
    s.atNext s.got.length f = .done (f (s.got.length + 1)) := by
  unfold State.atNext
  rw [h.next, if_pos hlt]
  exact if_neg (not_or.2 ⟨h.live (Nat.le_refl _), h.live (Nat.le_succ _)⟩)

/-- The reader sees no next node only when it has got all the items that are linked. -/
theorem next_head (h : Inv s) (hidle : s.get = .idle) : s.next s.head = none ↔ s.got = s.written := by
  have hhead := h.get
  rw [hidle] at hhead
  rw [show s.head = s.got.length from hhead, h.next]
  constructor
  · intro hnext
    apply h.order.eq_of_length_le
    by_contra hlt
    rw [if_pos (Nat.lt_of_not_le hlt)] at hnext
    cases hnext
  · intro heq
    rw [heq, if_neg (Nat.lt_irrefl _)]

theorem fill (h : Inv s) (item : R) : (step s (.put item)).Meets Inv := by
  have hput := h.put
  unfold step
  cases hs : s.put with
  | filled _ _ _ | linked _ => trivial
  | idle =>
    rw [hs] at hput
    obtain ⟨htail, hall⟩ := hput
    refine ⟨h.order, fun i => ?_, h.deleted, fun i hi hlt => ?_,
      ⟨htail, hall, congrArg (· + 1) hall, update_self _ _ _⟩, h.get⟩
    · grind [update, h.next i]
    · grind [update, h.items i]

theorem write (h : Inv s) : (step s .writer).Meets Inv := by
  have hput := h.put
  have hget := h.get
  unfold step
  cases hs : s.put with
  | idle => trivial
  | linked node =>
    rw [hs] at hput
    exact ⟨h.order, h.next, h.deleted, h.items, hput, h.get⟩
  | filled node tail item =>
    rw [hs] at hput
    obtain ⟨rfl, rfl, hall, hitem⟩ := hput
    simp only [if_neg (h.live h.order.length_le)]
    refine ⟨h.order.trans (List.prefix_append _ _), fun i => ?_, h.deleted, fun i hi hlt => ?_, ?_, ?_⟩
    · grind [update, h.next i]
    · grind [h.items i]
    · grind [Put.At]
    · change Get.At _ _ s.get
      cases hg : s.get <;> rw [hg] at hget <;> grind [Get.At]

theorem read (h : Inv s) : (step s .reader).Meets Inv := by
  have hget := h.get
  have hput := h.put
  have hitems := h.items
  unfold step
  cases hs : s.get <;> rw [hs] at hget hitems <;> simp only
  case idle =>
    have hget : s.head = s.got.length := hget
    simp only [hget, if_neg (h.live (Nat.le_refl _)), h.next]
    by_cases hlt : s.got.length < s.written.length
    · rw [if_pos hlt]
      exact ⟨h.order, h.next, h.deleted, hitems, h.put, rfl, rfl, hlt⟩
    · rw [if_neg hlt]
      exact h
  case found head =>
    obtain ⟨rfl, hfirst, hlt⟩ := hget
    rw [h.atNext hlt]
    exact ⟨h.order, h.next, h.deleted, hitems, h.put, rfl, hfirst, hlt, hitems _ (Nat.le_refl _) hlt⟩
  case taken head item =>
    obtain ⟨rfl, hfirst, hlt, hitem⟩ := hget
    rw [h.atNext hlt]
    refine ⟨h.order, h.next, h.deleted, fun i hi hi' => ?_, ?_, rfl, hfirst, hlt, hitem⟩
    · grind [update, hitems i, Get.pending]
    · change Put.At _ _ s.put
      cases hp : s.put <;> rw [hp] at hput <;> grind [Put.At, update]
  case cleared head item =>
    obtain ⟨rfl, hfirst, hlt, hitem⟩ := hget
    rw [h.atNext hlt]
    exact ⟨h.order, h.next, h.deleted, hitems, h.put, rfl, rfl, hlt, hitem⟩
  case moved head item =>
    obtain ⟨rfl, hfirst, hlt, rfl⟩ := hget
    obtain ⟨rest, hrest⟩ := h.order
    cases rest with
    | nil => grind
    | cons item rest =>
      have hitem : s.written[s.got.length]? = some item := by grind
      simp only [hitem, if_neg (h.live (Nat.le_refl _))]
      refine ⟨⟨rest, (List.append_assoc _ _ _).trans hrest⟩, h.next, fun i => ?_, fun i hi => ?_, h.put, ?_⟩
      · grind [update, h.deleted i]
      · grind [hitems i, Get.pending]
      · grind [Get.At]

theorem step (h : Inv s) (a : Act R) : (step s a).Meets Inv := by
  cases a with
  | put item => exact h.fill item
  | writer => exact h.write
  | reader => exact h.read

end Inv

/-- No lock is needed: no access of a run goes to a deleted node or through `NULL`, the items come out in the
order in which they were linked, and the reader finds the queue empty only when it has got all of them. -/
theorem reads_in_order {s : State R} (h : Reach step anyStep State.init s) :
    (∀ a, step s a ≠ .fault) ∧ s.got <+: s.written ∧
      (s.get = .idle → (s.next s.head = none ↔ s.got = s.written)) := by
  have hinv : Inv s := h.invariant .init fun s a t hi _ ht => (hi.step a).of_done ht
  exact ⟨fun a => (hinv.step a).ne_fault, hinv.order, hinv.next_head⟩

/-- The writer links the second item while the reader is in the middle of a get. -/
theorem reads_in_order_between : ∃ s : State Nat, s.get = .idle ∧ s.got = [7] ∧ s.written = [7, 8] ∧
    (∀ a, step s a ≠ .fault) ∧ (s.next s.head = none ↔ s.got = s.written) := by
  have hrun : ∃ s : State Nat, runAll step State.init [.put 7, .writer, .reader, .reader, .writer, .put 8,
      .reader, .writer, .reader, .reader] = .done s ∧ s.get = .idle ∧ s.got = [7] ∧ s.written = [7, 8] :=
    ⟨_, rfl, rfl, rfl, rfl⟩
  obtain ⟨s, hrun, hidle, hgot, hwritten⟩ := hrun
  have hsafe := reads_in_order (.of_runAll .init (permitted_anyStep _ _ _) hrun)
  exact ⟨s, hidle, hgot, hwritten, hsafe.1, hsafe.2.2 hidle⟩

end SNet.Front.FifoAccess
