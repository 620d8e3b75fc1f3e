import SNetRts.Distrib.SccHeap

/-!
# Runs of the SCC heap

Sequences of calls of `SCCMallocPtr` and `SCCFreePtr` after `SCCInit`, beside the list of the blocks that
are handed out; in between the program writes into these. The heap stays an arena until a block is freed
that is directly below the only free one: `SCCFreePtr` joins the two, but it takes the upper one for the
block to go on from, so that `freeList` is a pointer into the joined block.
-/

namespace SNet.Distrib.SccHeap

open Function (update update_of_ne update_self)

open Lib Tile

/-- The heap, and the blocks that are handed out: where they start, and how many units of them were asked
for. -/
structure State where
  heap : Heap
  live : List (Nat × Nat)

inductive Call where
  | malloc (size : Nat)
  | free (p : Nat)
  /-- The program writes into the unit `a`; `next` and `size` are what a header there would have. -/
  | write (a : Nat) (next : Option Nat) (size : Nat)

variable (m : Mapping) (s : State)

def exec : Call → Except Halt State
  | .malloc size => do
    let (p, heap) ← mallocPtr m s.heap size
    return ⟨heap, (p - 1, nunits m size) :: s.live⟩
  | .free p => do
    let heap ← freePtr m s.heap p
    return ⟨heap, s.live.filter fun b => b.1 ≠ p - 1⟩
  | .write a next size => return { s with heap := { s.heap with
      next := update s.heap.next a next
      size := update s.heap.size a size } }

/-- A request can be satisfied if there is a gap between the blocks in use that is large enough; only
blocks in use are freed and written. -/
def Permitted : Call → Prop
  | .malloc size => ∃ a, a + nunits m size ≤ m.units ∧
    ∀ b ∈ s.live, a + nunits m size ≤ b.1 ∨ b.1 + b.2 ≤ a
  | .free p => ∃ b ∈ s.live, p = b.1 + 1
  | .write a _ _ => ∃ b ∈ s.live, b.1 < a ∧ a < b.1 + b.2

/-- The free blocks and those handed out are all of the arena, and those handed out do not overlap. -/
def IsArena : Prop :=
  (∃ ts, Arena m s.heap ts ∧ (used 0 ts).Perm s.live) ∧
    s.live.Pairwise fun b c => b.1 + b.2 ≤ c.1 ∨ c.1 + c.2 ≤ b.1

/-- In all of the run the heap is an arena, and each call returns. -/
def IsArenaRun (s : State) : List Call → Prop
  | [] => IsArena m s
  | call :: calls => IsArena m s ∧
    (Permitted m s call → ∃ s', exec m s call = .ok s' ∧ IsArenaRun s' calls)

/-- The freed block is not directly below a free one that is linked to itself. -/
def Careful : Call → Prop
  | .free p => ∀ f, s.heap.freeList = some f → s.heap.next f = some f → p - 1 + s.heap.size (p - 1) ≠ f
  | _ => True

def AllCareful (s : State) : List Call → Prop
  | [] => True
  | call :: calls => Permitted m s call →
    Careful s call ∧ ∀ s', exec m s call = .ok s' → AllCareful s' calls

/-- After `SCCInit`, with anything in the memory, the heap is an arena in all of the run. -/
def KeepsArena (h₀ : Heap) (calls : List Call) : Prop :=
  ∃ h, init m h₀ = some h ∧ IsArenaRun m ⟨h, []⟩ calls

section

variable {m s} {s' : State} {h h₀ : Heap} {ts pre post : List Tile} {call : Call} {calls : List Call}
  {a f n : Nat}

theorem isArena_of_perm {live : List (Nat × Nat)} (ha : Arena m h ts) (hperm : (used 0 ts).Perm live) :
    IsArena m ⟨h, live⟩ := by
  refine ⟨⟨ts, ha, hperm⟩, ?_⟩
  have hpair : (used 0 ts).Pairwise fun b c => b.1 + b.2 ≤ c.1 ∨ c.1 + c.2 ≤ b.1 :=
    (used_pairwise 0 ts).imp fun hle => .inl hle
  exact hperm.pairwise hpair fun hor => hor.symm

theorem Arena.write (ha : Arena m h ts) {b : Nat × Nat} (hb : b ∈ used 0 ts) (hlt : b.1 < a)
    (hgt : a < b.1 + b.2) (next : Option Nat) (size : Nat) :
    Arena m { h with next := update h.next a next, size := update h.size a size } ts := by
  have hnot : ∀ p ∈ placed 0 ts, p.1 ≠ a := by
    rintro p hp rfl
    have hpos := ha.compact.pos _ (mem_of_mem_placed hp)
    rcases placed_apart (mem_used.1 hb) hp with heq | hle | hle
    · rw [← heq] at hlt
      omega
    · dsimp only at hle
      omega
    · dsimp only at hle
      omega
  refine ⟨ha.whole, ha.compact, ?_, ?_, ha.freeList⟩
  · intro p hp
    exact (update_of_ne (hnot p hp) ..).trans (ha.sizes p hp)
  · apply ha.ring.congr
    intro c hc
    obtain ⟨k, hk⟩ := mem_freeStarts.1 hc
    exact update_of_ne (hnot _ hk) ..

theorem Arena.of_mem_used (ha : Arena m h ts) {b : Nat × Nat} (hb : b ∈ used 0 ts) :
    ∃ pre post, ts = pre ++ ⟨b.2, false⟩ :: post ∧ b.1 = total pre ∧ h.size b.1 = b.2 := by
  have hplaced := mem_used.1 hb
  obtain ⟨pre, post, hts, hstart⟩ := placed_split hplaced
  exact ⟨pre, post, hts, by simpa using hstart, ha.sizes _ hplaced⟩

theorem IsArena.exec (ha : IsArena m s) (hpermitted : Permitted m s call) (hcareful : Careful s call) :
    ∃ s', exec m s call = .ok s' ∧ IsArena m s' := by
  obtain ⟨⟨ts, ha, hperm⟩, -⟩ := ha
  cases call with
  | malloc size =>
    obtain ⟨a, hle, hgap⟩ := hpermitted
    obtain ⟨c, k, hc, hk⟩ := ha.compact.exists_free_of_gap (nunits_pos m size) (Nat.zero_le a)
      (by rwa [Nat.zero_add, ha.whole]) fun c k hmem => hgap (c, k) (hperm.mem_iff.1 hmem)
    obtain ⟨curr, h', ts', hcall, ha', hperm'⟩ := ha.malloc ⟨c, k, hc, hk⟩
    refine ⟨⟨h', (curr, nunits m size) :: s.live⟩, ?_, isArena_of_perm ha' ?_⟩
    · rw [SccHeap.exec, hcall]
      rfl
    · exact hperm'.trans (hperm.cons _)
  | free p =>
    obtain ⟨b, hb, rfl⟩ := hpermitted
    obtain ⟨pre, post, rfl, hstart, hsize⟩ := ha.of_mem_used (hperm.mem_iff.2 hb)
    have hgood : s.heap.freeList = some (total pre + b.2) →
        s.heap.next (total pre + b.2) ≠ some (total pre + b.2) := by
      intro hfree hnext
      apply hcareful _ hfree hnext
      rw [Nat.add_sub_cancel, hsize, hstart]
    obtain ⟨h', ts, hcall, ha', hused⟩ := ha.free hgood
    refine ⟨⟨h', s.live.filter fun c => c.1 ≠ total pre⟩, ?_, isArena_of_perm ha' ?_⟩
    · rw [SccHeap.exec, hstart, hcall, Nat.add_sub_cancel]
      rfl
    · rw [hused, ← ha.compact.filter_used]
      exact hperm.filter _
  | write a next size =>
    obtain ⟨b, hb, hlt, hgt⟩ := hpermitted
    exact ⟨_, rfl, isArena_of_perm (ha.write (hperm.mem_iff.2 hb) hlt hgt next size) hperm⟩

theorem Arena.free_careless (ha : Arena m h (pre ++ ⟨n, false⟩ :: post))
    (hfree : h.freeList = some (total pre + n)) (hnext : h.next (total pre + n) = some (total pre + n)) :
    ∃ h', freePtr m h (total pre + 1) = .ok h' ∧ ∀ ts, ¬ Arena m h' ts := by
  obtain ⟨-, hn, -⟩ := compact_mid_used.1 ha.compact
  have hsize : h.size (total pre) = n := by
    have := ha.sizes
    simp only [recorded_append, recorded_cons, Nat.zero_add] at this
    exact this.2.1
  have hloop : freeLoop h (total pre) (m.units + 1) (total pre + n) = .ok (total pre + n) := by
    apply (freeLoop_succ hnext).1
    unfold Stops
    omega
  have hne : total pre + n ≠ total pre := by omega
  have hcall : freePtr m h (total pre + 1) =
      .ok { joinLower (joinUpper h (total pre) (total pre + n)) (total pre) (total pre + n) with
        freeList := some (total pre + n) } := by
    unfold freePtr
    dsimp only
    rw [Nat.add_sub_cancel, hfree]
    simp only [hloop]
    rfl
  refine ⟨_, hcall, ?_⟩
  intro ts ha'
  -- both blocks are linked to the lower one then
  have hupper : (joinUpper h (total pre) (total pre + n)).next =
      update h.next (total pre) (some (total pre)) := by
    simp only [joinUpper, hsize, hnext, if_pos]
  have hlower : (joinLower (joinUpper h (total pre) (total pre + n)) (total pre) (total pre + n)).next =
      update (update h.next (total pre) (some (total pre))) (total pre + n)
        (some (total pre)) := by
    rw [joinLower, if_neg (by omega)]
    dsimp only
    rw [hupper]
  have hring := ha'.ring
  dsimp only at hring
  rw [hlower] at hring
  obtain ⟨f, hf, heq⟩ := ha'.freeList.resolve_left fun hnil => by cases hnil.2
  cases heq
  obtain ⟨c, hc, heq⟩ := hring.next_mem hf
  rw [update_self] at heq
  cases heq
  apply hne
  apply hring.next_inj hf hc
  rw [update_self, update_of_ne hne.symm, update_self]

theorem IsArena.careful (ha : IsArena m s) (hpermitted : Permitted m s call)
    (hcall : SccHeap.exec m s call = .ok s') (ha' : IsArena m s') : Careful s call := by
  obtain ⟨⟨ts, ha, hperm⟩, -⟩ := ha
  cases call with
  | malloc size => trivial
  | write a next size => trivial
  | free p =>
    obtain ⟨b, hb, rfl⟩ := hpermitted
    obtain ⟨pre, post, rfl, hstart, hsize⟩ := ha.of_mem_used (hperm.mem_iff.2 hb)
    intro f hfree hnext heq
    rw [Nat.add_sub_cancel, hsize, hstart] at heq
    subst heq
    obtain ⟨h', hfreed, hnot⟩ := ha.free_careless hfree hnext
    rw [SccHeap.exec, hstart, hfreed] at hcall
    cases hcall
    obtain ⟨⟨ts, ha', -⟩, -⟩ := ha'
    exact hnot ts ha'

theorem IsArenaRun.isArena (hrun : IsArenaRun m s calls) : IsArena m s := by
  cases calls with
  | nil => exact hrun
  | cons call calls => exact hrun.1

theorem IsArena.isArenaRun_iff (ha : IsArena m s) : IsArenaRun m s calls ↔ AllCareful m s calls := by
  induction calls generalizing s with
  | nil => exact iff_of_true ha trivial
  | cons call calls ih =>
    constructor
    · rintro ⟨-, hrun⟩ hpermitted
      obtain ⟨s', hcall, hrun⟩ := hrun hpermitted
      refine ⟨ha.careful hpermitted hcall hrun.isArena, ?_⟩
      intro s'' hcall'
      rw [hcall] at hcall'
      cases hcall'
      exact (ih hrun.isArena).1 hrun
    · intro hall
      refine ⟨ha, ?_⟩
      intro hpermitted
      obtain ⟨hcareful, hall⟩ := hall hpermitted
      obtain ⟨s', hcall, ha'⟩ := ha.exec hpermitted hcareful
      exact ⟨s', hcall, (ih ha').2 (hall s' hcall)⟩

theorem init_isArena (hinit : init m h₀ = some h) : IsArena m ⟨h, []⟩ :=
  isArena_of_perm (init_arena hinit) (by simp)

end

/-- The heap is an arena in all of a run just if the size of the mapping is an `int` and no block is freed
that is directly below the only free one. -/
theorem heap_keeps_arena_iff (m : Mapping) (h₀ : Heap) (calls : List Call) :
    KeepsArena m h₀ calls ↔
      m.pages * PAGE_SIZE ≤ INT_MAX ∧ ∀ h, init m h₀ = some h → AllCareful m ⟨h, []⟩ calls := by
  constructor
  · rintro ⟨h, hinit, hrun⟩
    have hsize : m.pages * PAGE_SIZE ≤ INT_MAX := by
      by_contra hgt
      rw [init, if_neg hgt] at hinit
      cases hinit
    refine ⟨hsize, ?_⟩
    intro h' hinit'
    rw [hinit] at hinit'
    cases hinit'
    exact (init_isArena hinit).isArenaRun_iff.1 hrun
  · rintro ⟨hsize, hall⟩
    obtain ⟨h, hinit⟩ : ∃ h, init m h₀ = some h := ⟨_, if_pos hsize⟩
    exact ⟨h, hinit, (init_isArena hinit).isArenaRun_iff.2 (hall h hinit)⟩

def onePage : Mapping := ⟨1, 16, by decide, by decide, by decide, by decide⟩

theorem onePage_units : onePage.units = 1048576 := by decide +kernel

def zeros : Heap := ⟨none, fun _ => none, fun _ => 0⟩

theorem init_onePage {h : Heap} (hinit : init onePage zeros = some h) :
    h.freeList = some 0 ∧ h.next 0 = some 0 ∧ h.size 0 = 1048576 := by
  obtain rfl := Option.some.inj ((if_pos (by decide)).symm.trans hinit)
  exact ⟨rfl, rfl, onePage_units⟩

theorem malloc_onePage {h : Heap} (hinit : init onePage zeros = some h) :
    exec onePage ⟨h, []⟩ (.malloc 16) = .ok ⟨take h 2 0 0, [(0, 2)]⟩ := by
  obtain ⟨hfree, hnext, hsize⟩ := init_onePage hinit
  have hloop : mallocLoop h 2 (onePage.units + 1) 0 0 = .ok (0, 0) := by
    rw [mallocLoop, if_pos (by omega)]
  have hcall : mallocPtr onePage h 16 = .ok (1, take h 2 0 0) := by
    rw [mallocPtr, hfree]
    simp only [hnext]
    rw [show nunits onePage 16 = 2 from rfl, hloop]
    rfl
  rw [exec, hcall]
  rfl

/-- 16 bytes are allocated, and freed again. -/
theorem heap_loses_arena : ¬ KeepsArena onePage zeros [.malloc 16, .free 1] := by
  rintro ⟨h, hinit, hrun⟩
  obtain ⟨hfree, hnext, hsize⟩ := init_onePage hinit
  have hall := (init_isArena hinit).isArenaRun_iff.1 hrun
  have hroom : 0 + nunits onePage 16 ≤ onePage.units := by
    rw [onePage_units]
    decide
  obtain ⟨-, hall⟩ := hall ⟨0, hroom, nofun⟩
  obtain ⟨hcareful, -⟩ := hall ⟨take h 2 0 0, [(0, 2)]⟩ (malloc_onePage hinit) ⟨(0, 2), by simp, rfl⟩
  have htake : take h 2 0 0 = ⟨some 2, update (update h.next 2 (h.next 0)) 2 (some 2),
      update (update h.size 2 (h.size 0 - 2)) 0 2⟩ := by
    rw [take, if_neg (by omega)]
    rfl
  rw [htake] at hcareful
  exact hcareful 2 rfl rfl rfl

end SNet.Distrib.SccHeap
