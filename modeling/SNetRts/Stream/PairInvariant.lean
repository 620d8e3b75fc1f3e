import SNetRts.Stream.PairCollect

/-!
# The invariant of a pair

In every state there is a schedule that tells which sort and terminate records are on their way on each
branch, between the dispatcher and the collector, and that the collector follows. While the
dispatcher is there, it sends its marks to the open branches, of which there are two at least if there
is one; after it the last branch reads the input in its place.
-/

namespace SNet.Stream.Pair

open Lib Schedule List

variable {D Γ : Type} {arg : ParallelArg D Γ} {input₀ : List (Rec D Γ)} {p : Schedule} {s : Pair D Γ}
  {k : Nat}

/-! ## What is on a branch -/

def line (s : Pair D Γ) (k : Nat) : List (Rec D Γ) := s.flow k ++ s.inner k

structure Lines (p : Schedule) (line : Nat → List (Rec D Γ)) : Prop where
  signs : ∀ k ∈ p.members, signs (line k) = p.expected k
  /-- A closed branch ends with its terminate record. -/
  tail : ∀ k ∈ p.members, ∀ t, p.status k = .closed t → ∃ q, line k = q ++ [.terminate true]
  gone : ∀ k, k ∉ p.members → line k = []

theorem Lines.turn {line : Nat → List (Rec D Γ)} (h : Lines p line) (hr : p.ready = []) :
    Lines p.turn line := by
  have hmembers := members_turn hr
  refine ⟨fun k hk => ?_, fun k hk => ?_, fun k hk => ?_⟩
  · rw [hmembers] at hk
    rw [expected_turn hr hk]
    exact h.signs k hk
  · rw [hmembers] at hk
    exact h.tail k hk
  · rw [hmembers] at hk
    exact h.gone k hk

theorem Lines.update {line : Nat → List (Rec D Γ)} (h : Lines p line) (hk : k ∈ p.members)
    {q : List (Rec D Γ)} (hq : Pair.signs q = Pair.signs (line k))
    (htail : ∀ t, p.status k = .closed t → ∃ q', q = q' ++ [.terminate true]) :
    Lines p (Function.update line k q) := by
  refine ⟨fun j hj => ?_, fun j hj t ht => ?_, fun j hj => ?_⟩
  · by_cases hjk : j = k
    · subst hjk
      rw [Function.update_self, hq]
      exact h.signs j hj
    · rw [Function.update_of_ne hjk]
      exact h.signs j hj
  · by_cases hjk : j = k
    · subst hjk
      rw [Function.update_self]
      exact htail t ht
    · rw [Function.update_of_ne hjk]
      exact h.tail j hj t ht
  · have hjk : j ≠ k := fun heq => hj (heq ▸ hk)
    rw [Function.update_of_ne hjk]
    exact h.gone j hj

/-! ## The dispatcher -/

def addressed (w : Writes D Γ) (k : Nat) : List (Rec D Γ) :=
  w.filterMap fun x => if x.1 = .inst k then some x.2 else none

theorem addressed_append (w w' : Writes D Γ) (k : Nat) :
    addressed (w ++ w') k = addressed w k ++ addressed w' k :=
  filterMap_append

theorem addressed_map {l : List Nat} (hl : l.Nodup) (r : Rec D Γ) (k : Nat) :
    addressed (l.map fun j => (Target.inst j, r)) k = if k ∈ l then [r] else [] := by
  induction l with
  | nil => rfl
  | cons j l ih =>
    rw [nodup_cons] at hl
    have ih := ih hl.2
    unfold addressed at *
    rw [map_cons, filterMap_cons]
    by_cases hjk : j = k
    · subst hjk
      rw [if_pos rfl, if_pos mem_cons_self, ih, if_neg hl.1]
    · rw [if_neg (fun heq => hjk (Target.inst.inj heq)), ih]
      simp [Ne.symm hjk]

theorem addressed_toOpen (num : Nat) (closed : List Nat) (r : Rec D Γ) (k : Nat) :
    addressed (toOpen num closed r) k = if k < num ∧ k ∉ closed then [r] else [] := by
  unfold toOpen
  rw [addressed_map (nodup_range.filter _)]
  simp

/-- The dispatcher is there. -/
structure Boxed (num : Nat) (p : Schedule) (st : ParallelBox) : Prop where
  counter : 0 ≤ st.counter
  opened : ∀ k < num, k ∉ st.closed → p.status k = .opened
  closed : ∀ k < num, k ∈ st.closed → ∃ t, p.status k = .closed t
  two : ∀ k < num, k ∉ st.closed → ∃ j < num, j ≠ k ∧ j ∉ st.closed

theorem Boxed.not_last {st : ParallelBox} (h : Boxed arg.num p st) (hok : p.Ok arg.num) (k r : Nat) :
    p.status k ≠ .last r := by
  intro hr
  have hk := (hok.last k r hr).1
  by_cases hc : k ∈ st.closed
  · obtain ⟨t, ht⟩ := h.closed k hk hc
    rw [hr] at ht
    cases ht
  · rw [h.opened k hk hc] at hr
    cases hr

/-- Who reads the input of the dispatcher, and what is on the streams to the operands. -/
structure Inputs (num : Nat) (p : Schedule) (s : Pair D Γ) : Prop where
  box : ∀ st, s.box = some st → Boxed num p st ∧ s.direct = none ∧ ∀ k, NoSync (s.inner k)
  left : s.box = none → ∃ k r, p.status k = .last r ∧ (∀ j ≠ k, NoSync (s.inner j)) ∧
    (s.direct = some k ∧ s.inner k = [] ∨
      s.direct = none ∧ ∃ q input outtype, s.inner k = q ++ [.sync input outtype] ∧ NoSync q)

/-- The outer sort records that have been read are the marks of a higher level. -/
structure Reading (num : Nat) (input₀ : List (Rec D Γ)) (p : Schedule) (input : List (Rec D Γ)) :
    Prop where
  outer : ∀ r ∈ input, Outer r
  part : p.marks.filterMap forward <+: sortEnds input₀
  all : (∃ k < num, ∀ t, p.status k ≠ .closed t) →
    p.marks.filterMap forward ++ sortEnds input = sortEnds input₀

/-! ## Streams -/

def handed : Rec D Γ → Option StreamId
  | .sync input _ => some input
  | _ => none

/-- The stream of a branch that the collector has come to, and those behind it. -/
def names (s : Pair D Γ) (k : Nat) : List StreamId := s.id k :: (s.flow k).filterMap handed

structure Names (num : Nat) (s : Pair D Γ) : Prop where
  nodup : ∀ k < num, (s.names k).Nodup
  apart : ∀ j < num, ∀ k < num, ∀ x, x ∈ s.names j → x ∈ s.names k → j = k
  fresh : ∀ k < num, ∀ x ∈ s.names k, x < s.fresh

theorem Names.ids {num : Nat} (h : Names num s) : Apart num s.id := fun j k hj hk heq =>
  h.apart j hj k hk (s.id j) mem_cons_self (heq ▸ mem_cons_self)

/-! ## The invariant -/

structure Inv (arg : ParallelArg D Γ) (input₀ : List (Rec D Γ)) (p : Schedule) (s : Pair D Γ) :
    Prop where
  ok : p.Ok arg.num
  lines : Lines p s.line
  plain : ∀ k, ∀ r ∈ s.line k, ∀ output, r ≠ .collect output
  inputs : Inputs arg.num p s
  reading : Reading arg.num input₀ p s.input
  names : Names arg.num s
  coll : Settled p s.id s.coll

/-! ### More marks for the collector -/

theorem Held.extend {num : Nat} {id : Nat → StreamId} {c : Collector D Γ} (h : Held p id c)
    (hok : p.Ok num) {p' : Schedule} (hready : p'.ready = p.ready) (hwaiting : p'.waiting = p.waiting)
    (hdone : p'.done = p.done) (hseen : p'.seen = p.seen) (hmarks : p.marks <+: p'.marks) :
    Held p' id c := by
  have hmembers : p'.members = p.members := by
    rw [members, members, hready, hwaiting]
  obtain ⟨ms, hms⟩ := hmarks
  refine ⟨h.isStatic, h.goesOn, ?_, ?_, ?_, ?_, ?_, ?_, ?_, h.noSync⟩
  · rw [hready]
    exact h.ready
  · rw [hwaiting]
    exact h.waiting
  · rw [hmembers]
    exact h.incount
  · rw [h.sortRec, hwaiting, hdone, ← hms]
    split
    · rfl
    · rename_i hw
      rw [getElem?_append_left (hok.done_lt hw)]
  · rw [hseen]
    exact h.last
  · rw [hmembers]
    exact h.term
  · rw [hdone, ← hms, take_append_of_le_length hok.done]
    exact h.out

theorem Settled.extend {num : Nat} {id : Nat → StreamId} {c : Collector D Γ} (h : Settled p id c)
    (hok : p.Ok num) {p' : Schedule} (hready : p'.ready = p.ready) (hwaiting : p'.waiting = p.waiting)
    (hdone : p'.done = p.done) (hseen : p'.seen = p.seen) (hmarks : p.marks <+: p'.marks) :
    Settled p' id c := by
  rcases h with ⟨hheld, hne⟩ | hfin
  · exact Or.inl ⟨hheld.extend hok hready hwaiting hdone hseen hmarks, hready ▸ hne⟩
  · obtain ⟨hterm, hw, out, hout, hno, hlast⟩ := hfin
    obtain ⟨ms, hms⟩ := hmarks
    refine Or.inr ⟨hterm, hwaiting ▸ hw, out, ?_, hno, ?_⟩
    · rw [hdone, ← hms, take_append_of_le_length hok.done]
      exact hout
    · rw [hready, hseen]
      exact hlast

end SNet.Stream.Pair
