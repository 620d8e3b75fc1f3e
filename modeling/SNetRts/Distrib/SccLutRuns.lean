import SNetRts.Distrib.SccLut

/-!
# Runs of the SCC page table allocator

Sequences of calls of `SCCMallocLut` and `SCCFreeLut` after `SCCInit`, beside the list of the runs of
pages that are handed out. Whatever was in the table before, its runs have their tags after every call.
-/

namespace SNet.Distrib.SccLut

open Lib Tile
open SccHeap (PAGE_SIZE)

/-- The table, and what is handed out: the first page, and how many pages were asked for. -/
structure State where
  lut : Table
  live : List (Nat × Nat)

inductive Call where
  | malloc (size : Nat)
  | free (p : Nat)

variable (c : Pages) (s : State)

def exec : Call → Except Halt State
  | .malloc size => do
    let (r, lut) ← mallocLut c s.lut size
    return ⟨lut, (r - c.REMOTE_LUT, size) :: s.live⟩
  | .free p => do
    let lut ← freeLut c s.lut p
    return ⟨lut, s.live.filter fun b => b.1 ≠ p / PAGE_SIZE⟩

/-- At least one page is asked for; a pointer that is freed is one into the first page of a run in use. -/
def Permitted : Call → Prop
  | .malloc size => 0 < size
  | .free p => ∃ b ∈ s.live, b.1 * PAGE_SIZE ≤ p ∧ p < (b.1 + 1) * PAGE_SIZE

/-- A call fails only for want of a free run: there is no gap of that size between the runs in use. -/
def Exhausted : Call → Prop
  | .malloc size => ∀ a, a + size ≤ c.remote_pages → ∃ b ∈ s.live, b.1 < a + size ∧ a < b.1 + b.2
  | .free _ => False

/-- The runs, with their tags, are all of the table; those in use are what is handed out, which does not
overlap. -/
def IsTagged : Prop :=
  (∃ ts, Tagged c s.lut ts ∧ (used 0 ts).Perm s.live) ∧
    s.live.Pairwise fun b d => b.1 + b.2 ≤ d.1 ∨ d.1 + d.2 ≤ b.1

def IsTaggedRun (s : State) : List Call → Prop
  | [] => IsTagged c s
  | call :: calls => IsTagged c s ∧ (Permitted s call →
    (∃ s', exec c s call = .ok s' ∧ IsTaggedRun s' calls) ∨ (exec c s call = .error .fatal ∧ Exhausted c s call))

section

variable {c s} {lut : Table} {ts pre post : List Tile} {call : Call} {calls : List Call} {n : Nat}

theorem isTagged_of_perm {live : List (Nat × Nat)} (ht : Tagged c lut ts) (hperm : (used 0 ts).Perm live) :
    IsTagged c ⟨lut, live⟩ := by
  refine ⟨⟨ts, ht, hperm⟩, ?_⟩
  have hpair : (used 0 ts).Pairwise fun b d => b.1 + b.2 ≤ d.1 ∨ d.1 + d.2 ≤ b.1 :=
    (used_pairwise 0 ts).imp fun hle => .inl hle
  exact hperm.pairwise hpair fun hor => hor.symm

theorem IsTagged.exec (ht : IsTagged c s) (hpermitted : Permitted s call) :
    (∃ s', exec c s call = .ok s' ∧ IsTagged c s') ∨ (exec c s call = .error .fatal ∧ Exhausted c s call) := by
  obtain ⟨⟨ts, ht, hperm⟩, -⟩ := ht
  cases call with
  | malloc size =>
    rcases ht.malloc hpermitted with ⟨i, lut', ts', hcall, ht', hperm'⟩ | ⟨hcall, hall⟩
    · left
      refine ⟨⟨lut', (i, size) :: s.live⟩, ?_, isTagged_of_perm ht' (hperm'.trans (hperm.cons _))⟩
      rw [SccLut.exec, hcall, ok_bind]
      dsimp only
      rw [Nat.add_sub_cancel_left]
      rfl
    · right
      refine ⟨by rw [SccLut.exec, hcall]; rfl, ?_⟩
      intro a hle
      by_contra hnone
      have hgap : ∀ b k, (b, k) ∈ used 0 ts → a + size ≤ b ∨ b + k ≤ a := by
        intro b k hmem
        by_contra hor
        rw [not_or, Nat.not_le, Nat.not_le] at hor
        exact hnone ⟨(b, k), hperm.mem_iff.1 hmem, hor⟩
      obtain ⟨b, k, hmem, hk⟩ := ht.compact.exists_free_of_gap hpermitted (Nat.zero_le a)
        (by rwa [Nat.zero_add, ht.whole]) hgap
      have := hall _ (mem_of_mem_placed hmem) rfl
      dsimp only at this
      omega
  | free p =>
    left
    obtain ⟨b, hb, hle, hlt⟩ := hpermitted
    have hplaced := mem_used.1 (hperm.mem_iff.2 hb)
    obtain ⟨pre, post, rfl, hstart⟩ := placed_split hplaced
    rw [Nat.zero_add] at hstart
    dsimp only at hstart
    have hp : p / PAGE_SIZE = total pre := by
      rw [← hstart]
      exact Nat.div_eq_of_lt_le hle hlt
    obtain ⟨lut', ts, hcall, ht', hused⟩ := ht.free hp
    refine ⟨⟨lut', s.live.filter fun d => d.1 ≠ p / PAGE_SIZE⟩, ?_, isTagged_of_perm ht' ?_⟩
    · rw [SccLut.exec, hcall]
      rfl
    · rw [hused, hp, ← ht.compact.filter_used]
      exact hperm.filter _

theorem IsTagged.isTaggedRun (ht : IsTagged c s) (calls : List Call) : IsTaggedRun c s calls := by
  induction calls generalizing s with
  | nil => exact ht
  | cons call calls ih =>
    refine ⟨ht, ?_⟩
    intro hpermitted
    rcases ht.exec hpermitted with ⟨s', hcall, ht'⟩ | hfail
    · exact .inl ⟨s', hcall, ih ht'⟩
    · exact .inr hfail

end

/-- After `SCCInit` the table has its tags in all of every run. -/
theorem lut_keeps_tags (c : Pages) (lut : Table) (calls : List Call) :
    IsTaggedRun c ⟨init c lut, []⟩ calls :=
  (isTagged_of_perm init_tagged (by simp)).isTaggedRun calls

end SNet.Distrib.SccLut
