import SNetRts.Lib.Ring
import SNetRts.Lib.Tiling

/-!
# The heap of the SCC back end

`SCCMallocPtr` and `SCCFreePtr` of `distrib/scc/sccmalloc.c`. The local mapping is an array of `block_t`,
and an address is its index there. A block of the heap starts with a header, which has its size in units
of `block_t` with the header itself; the pointer that is handed out is the one behind the header. The
free blocks are in a ring of links, with `freeList` somewhere in it.

The sum `size + sizeof(block_t) - 1` of a request is not cut to the width of `size_t`: a request that is
as large as that cannot be satisfied.
-/

namespace SNet.Distrib.SccHeap

open Function (update update_of_ne update_self)

open Lib Tile List

def PAGE_SIZE : Nat := 16 * 1024 * 1024

def INT_MAX : Nat := 2147483647

/-- The local mapping: `local_pages`, which is an `unsigned char`, and `sizeof(block_t)`. -/
structure Mapping where
  pages : Nat
  unit : Nat
  pages_pos : 0 < pages
  pages_lt : pages < 256
  unit_pos : 0 < unit
  unit_le : unit ≤ PAGE_SIZE

def Mapping.units (m : Mapping) : Nat := m.pages * PAGE_SIZE / m.unit

/-- The headers, of all units, and the list. A pointer is `none` when it is `NULL`, which is below all
units. -/
structure Heap where
  freeList : Option Nat
  next : Nat → Option Nat
  size : Nat → Nat

inductive Halt where
  /-- `SNetUtilDebugFatal` -/
  | fatal
  /-- `NULL` is followed -/
  | null
  /-- the search has not ended -/
  | loops
deriving DecidableEq

variable (m : Mapping) (h : Heap)

/-- What `SCCInit` does with the memory; `none` where the `int` product `size * PAGE_SIZE` overflows. -/
def init : Option Heap :=
  if m.pages * PAGE_SIZE ≤ INT_MAX then
    some {
      freeList := some 0
      next := update h.next 0 (some 0)
      size := update h.size 0 m.units }
  else none

/-! ## Allocating -/

def nunits (size : Nat) : Nat := (size + m.unit - 1) / m.unit + 1

/-- The loop of `SCCMallocPtr`, up to a block that is large enough: `prev` and `curr` there. -/
def mallocLoop (nunits : Nat) : Nat → Nat → Nat → Except Halt (Nat × Nat)
  | 0, _, _ => .error .loops
  | fuel + 1, prev, curr =>
    if nunits ≤ h.size curr then .ok (prev, curr)
    else if h.freeList = some curr then .error .fatal
    else
      match h.next curr with
      | none => .error .fatal
      | some next => mallocLoop nunits fuel curr next

def take (nunits prev curr : Nat) : Heap :=
  if h.size curr = nunits then
    if prev = curr then { h with freeList := none }
    else { h with next := update h.next prev (h.next curr), freeList := some prev }
  else
    let new := curr + nunits
    let next := update h.next new (h.next curr)
    let size := update (update h.size new (h.size curr - nunits)) curr nunits
    let prev := if prev = curr then new else prev
    { freeList := some prev, next := update next prev (some new), size := size }

def mallocPtr (size : Nat) : Except Halt (Nat × Heap) :=
  match h.freeList with
  | none => .error .fatal
  | some prev =>
    match h.next prev with
    | none => .error .null
    | some curr => do
      let (prev, curr) ← mallocLoop h (nunits m size) (m.units + 1) prev curr
      return (curr + 1, take h (nunits m size) prev curr)

/-! ## Freeing -/

/-- The loop of `SCCFreePtr`: where the block goes behind. -/
def freeLoop (block : Nat) : Nat → Nat → Except Halt Nat
  | 0, _ => .error .loops
  | fuel + 1, curr =>
    match h.next curr with
    | none => if curr < block then .ok curr else .error .null
    | some next =>
      if curr < block ∧ block < next then .ok curr
      else if next ≤ curr ∧ (curr < block ∨ block < next) then .ok curr
      else freeLoop block fuel next

def joinUpper (block curr : Nat) : Heap :=
  if some (block + h.size block) = h.next curr then
    let next := block + h.size block
    { h with
      size := update h.size block (h.size block + h.size next)
      next := update h.next block (if curr = next then some block else h.next next) }
  else { h with next := update h.next block (h.next curr) }

def joinLower (block curr : Nat) : Heap :=
  if curr + h.size curr = block then
    { h with
      size := update h.size curr (h.size curr + h.size block)
      next := update h.next curr (h.next block) }
  else { h with next := update h.next curr (some block) }

def freePtr (p : Nat) : Except Halt Heap :=
  let block := p - 1
  match h.freeList with
  | none => .ok { h with freeList := some block, next := update h.next block (some block) }
  | some freeList => do
    let curr ← freeLoop h block (m.units + 1) freeList
    return { joinLower (joinUpper h block curr) block curr with freeList := some curr }

/-! ## The arena -/

/-- The heap is an arena: the tiles are all units, with their sizes in the headers; the free ones are
linked in a ring, in the order of their addresses, with `freeList` in it. -/
structure Arena (ts : List Tile) : Prop where
  whole : total ts = m.units
  compact : Compact ts
  sizes : Recorded Tile.size h.size 0 ts
  ring : Ring h.next (freeStarts 0 ts).getLast? (freeStarts 0 ts)
  freeList : (freeStarts 0 ts = [] ∧ h.freeList = none) ∨ ∃ f ∈ freeStarts 0 ts, h.freeList = some f

section

variable {m h} {ts pre post : List Tile} {f curr prev block n k : Nat}

theorem Mapping.units_pos (m : Mapping) : 0 < m.units := by
  apply Nat.div_pos _ m.unit_pos
  have hle := Nat.mul_le_mul_right PAGE_SIZE m.pages_pos
  have := m.unit_le
  omega

theorem nunits_pos (m : Mapping) (size : Nat) : 0 < nunits m size := Nat.succ_pos _

theorem init_arena {h₀ : Heap} (hinit : init m h₀ = some h) : Arena m h [⟨m.units, true⟩] := by
  rw [init] at hinit
  split at hinit
  case isTrue =>
    cases hinit
    refine ⟨by simp, ?_, by simp, ?_, .inr ⟨0, by simp, rfl⟩⟩
    · rw [compact_cons]
      exact ⟨m.units_pos, Compact.nil, fun _ => not_startsFree_nil⟩
    · exact ⟨by simp, rfl, by simp⟩
  case isFalse => cases hinit

/-! ## The searches -/

theorem mallocLoop_seg {rest : List Nat} {q : Option Nat} {fuel : Nat} (hfree : h.freeList = some f)
    (hseg : Seg (fun a => some (h.next a)) (some curr) (curr :: rest) q)
    (hlast : (curr :: rest).getLast? = some f) (hnodup : (curr :: rest).Nodup)
    (hprev : h.next prev = some curr) (hfit : ∃ c ∈ curr :: rest, n ≤ h.size c) (hfuel : rest.length < fuel) :
    ∃ prev' curr', mallocLoop h n fuel prev curr = .ok (prev', curr') ∧
      prev' ∈ prev :: curr :: rest ∧ curr' ∈ curr :: rest ∧ h.next prev' = some curr' ∧ n ≤ h.size curr' := by
  induction rest generalizing prev curr fuel with
  | nil =>
    obtain ⟨fuel, rfl⟩ := Nat.exists_eq_succ_of_ne_zero (Nat.pos_iff_ne_zero.1 hfuel)
    obtain ⟨c, hc, hn⟩ := hfit
    obtain rfl := mem_singleton.1 hc
    exact ⟨prev, c, by rw [mallocLoop, if_pos hn], by simp, by simp, hprev, hn⟩
  | cons d rest ih =>
    have hpos := Nat.lt_of_le_of_lt (Nat.zero_le _) hfuel
    obtain ⟨fuel, rfl⟩ := Nat.exists_eq_succ_of_ne_zero (Nat.pos_iff_ne_zero.1 hpos)
    rw [mallocLoop]
    by_cases hn : n ≤ h.size curr
    · exact ⟨prev, curr, by rw [if_pos hn], by simp, by simp, hprev, hn⟩
    · obtain ⟨-, r, hr, hseg⟩ := hseg
      obtain rfl : h.next curr = r := Option.some.inj hr
      obtain ⟨hcurr, hnodup⟩ := nodup_cons.1 hnodup
      have hlast' : (d :: rest).getLast? = some f := by rwa [getLast?_cons_cons] at hlast
      have hne : h.freeList ≠ some curr := by
        intro heq
        rw [hfree, Option.some.injEq] at heq
        exact hcurr (heq ▸ mem_of_getLast? hlast')
      have hnext : h.next curr = some d := hseg.1
      obtain ⟨c, hc, hcn⟩ := hfit
      have hfit' : ∃ c ∈ d :: rest, n ≤ h.size c := by
        refine ⟨c, (mem_cons.1 hc).resolve_left ?_, hcn⟩
        rintro rfl
        exact hn hcn
      rw [if_neg hn, if_neg hne, hnext]
      rw [hnext] at hseg
      obtain ⟨prev', curr', hloop, hp, hc', h1, h2⟩ :=
        ih hseg hlast' hnodup hnext hfit' (Nat.lt_of_succ_lt_succ hfuel)
      exact ⟨prev', curr', hloop, mem_cons_of_mem _ hp, mem_cons_of_mem _ hc', h1, h2⟩

theorem mallocLoop_spec {fs : List Nat} {fuel : Nat} (hfree : h.freeList = some f)
    (hring : Ring h.next fs.getLast? fs) (hf : f ∈ fs) (hfit : ∃ c ∈ fs, n ≤ h.size c)
    (hfuel : fs.length < fuel) :
    ∃ c prev curr, h.next f = some c ∧ mallocLoop h n fuel f c = .ok (prev, curr) ∧
      prev ∈ fs ∧ curr ∈ fs ∧ h.next prev = some curr ∧ n ≤ h.size curr := by
  obtain ⟨as, bs, rfl⟩ := append_of_mem hf
  have hrot := hring.rotate
  have hmem : ∀ c, c ∈ bs ++ as ++ [f] ↔ c ∈ as ++ f :: bs := fun c => Ring.mem_rotate
  have hlen : (bs ++ as ++ [f]).length = (as ++ f :: bs).length := by
    simp only [length_append, length_cons, length_nil]
    omega
  cases hl : bs ++ as ++ [f] with
  | nil => simp at hl
  | cons c rest =>
    rw [hl] at hrot hmem hlen
    have hlast : (c :: rest).getLast? = some f := hrot.last.symm
    have hseg := hrot.seg_last hlast
    have hnext : h.next f = some c := hseg.1
    rw [hnext] at hseg
    obtain ⟨d, hd, hdn⟩ := hfit
    rw [length_cons] at hlen
    have hrest : rest.length < fuel := by omega
    obtain ⟨prev, curr, hloop, hprev, hcurr, h1, h2⟩ := mallocLoop_seg hfree hseg hlast
      hrot.nodup hnext ⟨d, (hmem d).2 hd, hdn⟩ hrest
    refine ⟨c, prev, curr, hnext, hloop, ?_, (hmem curr).1 hcurr, h1, h2⟩
    rcases mem_cons.1 hprev with rfl | hprev
    · exact hf
    · exact (hmem prev).1 hprev

/-- Where the loop of `SCCFreePtr` stops. -/
def Stops (block curr next : Nat) : Prop :=
  (curr < block ∧ block < next) ∨ (next ≤ curr ∧ (curr < block ∨ block < next))

/-- Going round the arena from `block` on, `a` comes before `b`. -/
def Before (block a b : Nat) : Prop :=
  (a < b ∧ (block < a ∨ b < block)) ∨ (b < block ∧ block < a)

theorem freeLoop_succ {fuel c : Nat} (hnext : h.next curr = some c) :
    (Stops block curr c → freeLoop h block (fuel + 1) curr = .ok curr) ∧
      (¬ Stops block curr c → freeLoop h block (fuel + 1) curr = freeLoop h block fuel c) := by
  unfold Stops
  constructor
  · intro hstop
    simp only [freeLoop, hnext]
    split
    · rfl
    · rw [if_pos (hstop.resolve_left ‹_›)]
  · intro hstop
    rw [not_or] at hstop
    simp only [freeLoop, hnext, if_neg hstop.1, if_neg hstop.2]

theorem stops_iff {l : List Nat} {handle : Option Nat} (hring : Ring h.next handle l)
    (hsorted : l.Pairwise (Before block)) (hne : ∀ c ∈ l, c ≠ block) (hcurr : curr ∈ l) :
    ∃ c, h.next curr = some c ∧ c ∈ l ∧ (Stops block curr c ↔ l.getLast? = some curr) := by
  obtain ⟨as, bs, rfl⟩ := append_of_mem hcurr
  have hlinks := hring.links
  rw [show as ++ curr :: bs = (as ++ [curr]) ++ bs by simp] at hlinks
  obtain ⟨r, h1, h2⟩ := Seg.append_iff.1 hlinks
  have hnext : h.next curr = r := Option.some.inj h1.link_last
  cases bs with
  | cons d bs =>
    obtain rfl : r = some d := h2.1
    refine ⟨d, hnext, by simp, iff_of_false ?_ ?_⟩
    · have hbefore : Before block curr d :=
        (pairwise_cons.1 (pairwise_append.1 hsorted).2.1).1 d mem_cons_self
      unfold Before at hbefore
      unfold Stops
      omega
    · intro hlast
      rw [getLast?_append, getLast?_cons_cons] at hlast
      have hmem : curr ∈ d :: bs := by
        cases hb : (d :: bs).getLast? with
        | none => simp at hb
        | some z =>
          rw [hb] at hlast
          exact Option.some.inj hlast ▸ mem_of_getLast? hb
      exact (nodup_cons.1 (nodup_append.1 hring.nodup).2.1).1 hmem
  | nil =>
    obtain ⟨d, hd⟩ : ∃ d, (as ++ [curr]).head? = some d := by cases as <;> simp
    obtain rfl : r = some d := by
      have := Seg.nil_iff.1 h2
      simp only [append_nil] at this
      rw [this, hd]
    have hdmem := mem_of_head? hd
    refine ⟨d, hnext, hdmem, iff_of_true ?_ (by simp)⟩
    have hcb := hne curr hcurr
    unfold Stops
    cases as with
    | nil =>
      obtain rfl : curr = d := by simpa using hd
      omega
    | cons a as =>
      obtain rfl : a = d := by simpa using hd
      have hbefore : Before block a curr :=
        (pairwise_cons.1 hsorted).1 curr (by simp)
      unfold Before at hbefore
      omega

theorem freeLoop_seg {l rest : List Nat} {handle q : Option Nat} {fuel last : Nat} (hring : Ring h.next handle l)
    (hsorted : l.Pairwise (Before block)) (hne : ∀ c ∈ l, c ≠ block) (hlast : l.getLast? = some last)
    (hseg : Seg (fun a => some (h.next a)) (some curr) (curr :: rest) q) (hsub : ∀ c ∈ curr :: rest, c ∈ l)
    (hmem : last ∈ curr :: rest) (hfuel : rest.length < fuel) : freeLoop h block fuel curr = .ok last := by
  induction rest generalizing curr fuel with
  | nil =>
    obtain ⟨fuel, rfl⟩ := Nat.exists_eq_succ_of_ne_zero (Nat.pos_iff_ne_zero.1 hfuel)
    obtain rfl := mem_singleton.1 hmem
    obtain ⟨c, hnext, -, hstop⟩ := stops_iff hring hsorted hne (hsub last mem_cons_self)
    exact (freeLoop_succ hnext).1 (hstop.2 hlast)
  | cons d rest ih =>
    have hpos := Nat.lt_of_le_of_lt (Nat.zero_le _) hfuel
    obtain ⟨fuel, rfl⟩ := Nat.exists_eq_succ_of_ne_zero (Nat.pos_iff_ne_zero.1 hpos)
    obtain ⟨c, hnext, -, hstop⟩ := stops_iff hring hsorted hne (hsub curr mem_cons_self)
    obtain ⟨-, r, hr, hseg⟩ := hseg
    obtain rfl : h.next curr = r := Option.some.inj hr
    obtain rfl : c = d := by
      have := hseg.1
      rw [hnext] at this
      exact Option.some.inj this
    by_cases hcl : last = curr
    · subst hcl
      exact (freeLoop_succ hnext).1 (hstop.2 hlast)
    · have hnot : ¬ Stops block curr c := by
        intro hs
        have := hstop.1 hs
        rw [hlast] at this
        exact hcl (Option.some.inj this)
      rw [(freeLoop_succ hnext).2 hnot]
      rw [hnext] at hseg
      exact ih hseg (fun x hx => hsub x (mem_cons_of_mem _ hx)) ((mem_cons.1 hmem).resolve_left hcl)
        (Nat.lt_of_succ_lt_succ hfuel)

theorem freeLoop_spec {l : List Nat} {fuel last : Nat} (hring : Ring h.next l.getLast? l)
    (hsorted : l.Pairwise (Before block)) (hne : ∀ c ∈ l, c ≠ block) (hlast : l.getLast? = some last)
    (hf : f ∈ l) (hfuel : l.length ≤ fuel) : freeLoop h block fuel f = .ok last := by
  obtain ⟨as, bs, rfl⟩ := append_of_mem hf
  have hseg := hring.swap.links
  rw [cons_append, head?_cons] at hseg
  have hperm : ∀ c, c ∈ f :: (bs ++ as) ↔ c ∈ as ++ f :: bs := by
    intro c
    simp only [mem_append, mem_cons]
    tauto
  apply freeLoop_seg hring hsorted hne hlast hseg (fun c hc => (hperm c).1 hc)
  · exact (hperm last).2 (mem_of_getLast? hlast)
  · simp only [length_append, length_cons] at hfuel ⊢
    omega

/-! ## Allocating in an arena -/

theorem Arena.split (ha : Arena m h ts) (hcurr : curr ∈ freeStarts 0 ts) (hprev : prev ∈ freeStarts 0 ts)
    (hnext : h.next prev = some curr) :
    ∃ pre k post, ts = pre ++ ⟨k, true⟩ :: post ∧ curr = total pre ∧ h.size curr = k ∧
      Ring h.next (curr :: (freeStarts (curr + k) post ++ freeStarts 0 pre)).getLast?
        (curr :: (freeStarts (curr + k) post ++ freeStarts 0 pre)) ∧
      (curr :: (freeStarts (curr + k) post ++ freeStarts 0 pre)).getLast? = some prev := by
  obtain ⟨k, hk⟩ := mem_freeStarts.1 hcurr
  have hsize := ha.sizes _ hk
  obtain ⟨pre, post, rfl, hstart⟩ := placed_split hk
  obtain rfl : curr = total pre := by simpa using hstart
  have hring := ha.ring
  simp only [freeStarts_append, freeStarts_free, Nat.zero_add] at hring hprev
  have hswap := hring.swap
  rw [cons_append] at hswap
  refine ⟨pre, k, post, rfl, rfl, hsize, hswap, hswap.getLast?_of_next ?_ hnext⟩
  simp only [mem_cons, mem_append] at hprev ⊢
  tauto

theorem Arena.take_exact (ha : Arena m h (pre ++ ⟨n, true⟩ :: post)) (hsize : h.size (total pre) = n)
    (hring : Ring h.next (total pre :: (freeStarts (total pre + n) post ++ freeStarts 0 pre)).getLast?
      (total pre :: (freeStarts (total pre + n) post ++ freeStarts 0 pre)))
    (hlast : (total pre :: (freeStarts (total pre + n) post ++ freeStarts 0 pre)).getLast? = some prev) :
    Arena m (take h n prev (total pre)) (pre ++ ⟨n, false⟩ :: post) := by
  obtain ⟨hpre, -, hn, hpost, -⟩ := compact_mid_free.1 ha.compact
  have htotal : total (pre ++ ⟨n, false⟩ :: post) = m.units := by
    have := ha.whole
    simpa using this
  have hrec : Recorded Tile.size h.size 0 (pre ++ ⟨n, false⟩ :: post) := by
    have := ha.sizes
    simpa using this
  have hcompact := compact_mid_used.2 ⟨hpre, hn, hpost⟩
  rw [take, if_pos hsize]
  split
  case isTrue heq =>
    subst heq
    -- it was the only one
    have hnil : freeStarts (total pre + n) post ++ freeStarts 0 pre = [] := hring.rest_eq_nil hlast
    have hstarts : freeStarts 0 (pre ++ ⟨n, false⟩ :: post) = [] := by
      simpa [and_comm] using hnil
    refine ⟨htotal, hcompact, hrec, ?_, .inl ⟨hstarts, rfl⟩⟩
    rw [hstarts]
    exact Ring.nil _
  case isFalse hne =>
    have hlast' := Ring.rest_getLast? hlast hne
    have htail := (hring.tail hlast').swap
    have hstarts : freeStarts 0 (pre ++ ⟨n, false⟩ :: post) =
        freeStarts 0 pre ++ freeStarts (total pre + n) post := by simp
    refine ⟨htotal, hcompact, hrec, ?_, .inr ⟨prev, ?_, rfl⟩⟩
    · rw [hstarts]
      exact htail
    · rw [hstarts]
      have := mem_of_getLast? hlast'
      simp only [mem_append] at this ⊢
      exact this.symm

theorem Arena.take_cut (ha : Arena m h (pre ++ ⟨k, true⟩ :: post)) (hsize : h.size (total pre) = k)
    (hring : Ring h.next (total pre :: (freeStarts (total pre + k) post ++ freeStarts 0 pre)).getLast?
      (total pre :: (freeStarts (total pre + k) post ++ freeStarts 0 pre)))
    (hlast : (total pre :: (freeStarts (total pre + k) post ++ freeStarts 0 pre)).getLast? = some prev)
    (hn : 0 < n) (hnk : n < k) :
    Arena m (take h n prev (total pre)) (pre ++ ⟨n, false⟩ :: ⟨k - n, true⟩ :: post) := by
  obtain ⟨hpre, hends, -, hpost, hstartsFree⟩ := compact_mid_free.1 ha.compact
  have hsum : total pre + n + (k - n) = total pre + k := by omega
  have htotal : total (pre ++ ⟨n, false⟩ :: ⟨k - n, true⟩ :: post) = m.units := by
    have := ha.whole
    simp only [total_append, total_cons] at this ⊢
    omega
  have hcompact : Compact (pre ++ ⟨n, false⟩ :: ⟨k - n, true⟩ :: post) := by
    apply compact_mid_used.2 ⟨hpre, hn, _⟩
    exact compact_cons.2 ⟨Nat.sub_pos_of_lt hnk, hpost, fun _ => hstartsFree⟩
  have hstarts : freeStarts 0 (pre ++ ⟨n, false⟩ :: ⟨k - n, true⟩ :: post) =
      (freeStarts 0 pre ++ [total pre + n]) ++ freeStarts (total pre + k) post := by
    simp [hsum]
  have hnew : total pre + n ∉ freeStarts (total pre + k) post ++ freeStarts 0 pre := by
    intro hmem
    rcases mem_append.1 hmem with hmem | hmem
    · have := (freeStarts_bounds hmem).1
      omega
    · have := (freeStarts_bounds hmem).2
      omega
  have hrec : Recorded Tile.size
      (update (update h.size (total pre + n) (h.size (total pre) - n)) (total pre) n) 0
      (pre ++ ⟨n, false⟩ :: ⟨k - n, true⟩ :: post) := by
    have hold := ha.sizes
    simp only [recorded_append, recorded_cons, Nat.zero_add] at hold
    refine hpre.recorded_put (compact_mid_used.1 hcompact).2.2 ?_ hn ?_ ?_
    · rfl
    · exact hpre.recorded_congr hold.1 fun b _ hb => update_of_ne (by omega) ..
    · rw [recorded_cons, hsum, update_self, hsize]
      exact ⟨rfl, hpost.recorded_congr hold.2.2 fun b hb _ => update_of_ne (by omega) ..⟩
  rw [take, if_neg (by omega)]
  by_cases heq : prev = total pre
  · subst heq
    have hnil : freeStarts (total pre + k) post ++ freeStarts 0 pre = [] := hring.rest_eq_nil hlast
    obtain ⟨h1, h2⟩ := append_eq_nil_iff.1 hnil
    rw [h1, h2] at hstarts
    refine ⟨htotal, hcompact, hrec, ?_, .inr ⟨total pre + n, ?_, ?_⟩⟩
    · rw [hstarts]
      refine ⟨by simp, rfl, ?_⟩
      simp
    · rw [hstarts]
      simp
    · simp
  · have hlast' := Ring.rest_getLast? hlast heq
    have hprev : total pre + n ≠ prev := fun heq => hnew (heq ▸ mem_of_getLast? hlast')
    refine ⟨htotal, hcompact, hrec, ?_, .inr ⟨prev, ?_, ?_⟩⟩
    · rw [hstarts]
      dsimp only
      rw [if_neg heq]
      apply (hring.tail hlast').insert hlast' hnew
      · rw [update_of_ne hprev, update_self, update_self]
      · exact update_self ..
      · intro c hc hcp
        have hcn : c ≠ total pre + n := fun heq => hnew (heq ▸ hc)
        rw [update_of_ne hcp, update_of_ne hcn, update_of_ne hcp]
    · rw [hstarts]
      have := mem_of_getLast? hlast'
      simp only [mem_append] at this ⊢
      tauto
    · simp only [if_neg heq]

theorem Arena.malloc (ha : Arena m h ts) {size : Nat}
    (hfit : ∃ c k, (c, ⟨k, true⟩) ∈ placed 0 ts ∧ nunits m size ≤ k) :
    ∃ curr h' ts', mallocPtr m h size = .ok (curr + 1, h') ∧ Arena m h' ts' ∧
      (used 0 ts').Perm ((curr, nunits m size) :: used 0 ts) := by
  obtain ⟨c, k, hc, hk⟩ := hfit
  have hcmem : c ∈ freeStarts 0 ts := mem_freeStarts.2 ⟨k, hc⟩
  obtain ⟨f, hf, hfree⟩ : ∃ f ∈ freeStarts 0 ts, h.freeList = some f := by
    apply ha.freeList.resolve_left
    rintro ⟨hnil, -⟩
    rw [hnil] at hcmem
    cases hcmem
  have hlen := ha.compact.freeStarts_length_le 0
  rw [ha.whole] at hlen
  have hck : nunits m size ≤ h.size c := Nat.le_trans hk (Nat.le_of_eq (ha.sizes _ hc).symm)
  obtain ⟨first, prev, curr, hfirst, hloop, hprev, hcurr, hnext, hn⟩ := mallocLoop_spec hfree ha.ring hf
    ⟨c, hcmem, hck⟩ (Nat.lt_succ_of_le hlen)
  have hcall : mallocPtr m h size = .ok (curr + 1, take h (nunits m size) prev curr) := by
    rw [mallocPtr, hfree]
    simp only [hfirst]
    rw [hloop]
    rfl
  obtain ⟨pre, j, post, rfl, rfl, hsize, hring, hlast⟩ := ha.split hcurr hprev hnext
  rw [hsize] at hn
  rcases Nat.eq_or_lt_of_le hn with rfl | hlt
  · refine ⟨_, _, _, hcall, ha.take_exact hsize hring hlast, ?_⟩
    simp
  · refine ⟨_, _, _, hcall, ha.take_cut hsize hring hlast (nunits_pos m size) hlt, ?_⟩
    have hsum : total pre + nunits m size + (j - nunits m size) = total pre + j := by omega
    simp [hsum]

/-! ## Freeing in an arena -/

/-- The block of `n` units behind `pre` is in no list, and goes behind `last` in the ring. -/
structure Loose (m : Mapping) (h : Heap) (pre : List Tile) (n : Nat) (post : List Tile) (last : Nat) : Prop where
  whole : total pre + n + total post = m.units
  compact : Compact (pre ++ ⟨n, false⟩ :: post)
  ends : ¬ StartsFree post
  sizes : Recorded Tile.size h.size 0 (pre ++ ⟨n, false⟩ :: post)
  isLast : (freeStarts (total pre + n) post ++ freeStarts 0 pre).getLast? = some last
  ring : Ring (update h.next last (h.next (total pre))) (some last)
    (freeStarts (total pre + n) post ++ freeStarts 0 pre)

theorem Arena.around (ha : Arena m h (pre ++ ⟨n, false⟩ :: post)) :
    Ring h.next (freeStarts (total pre + n) post ++ freeStarts 0 pre).getLast?
      (freeStarts (total pre + n) post ++ freeStarts 0 pre) ∧
    (freeStarts (total pre + n) post ++ freeStarts 0 pre).Pairwise (Before (total pre)) ∧
    (∀ c ∈ freeStarts (total pre + n) post ++ freeStarts 0 pre, c ≠ total pre) := by
  obtain ⟨hpre, hn, hpost⟩ := compact_mid_used.1 ha.compact
  have habove : ∀ c ∈ freeStarts (total pre + n) post, total pre < c := by
    intro c hc
    have := (freeStarts_bounds hc).1
    omega
  have hbelow : ∀ c ∈ freeStarts 0 pre, c < total pre := by
    intro c hc
    have := hpre.freeStarts_lt hc
    omega
  refine ⟨?_, pairwise_append.2 ⟨?_, ?_, ?_⟩, ?_⟩
  · have hring := ha.ring
    simp only [freeStarts_append, freeStarts_used, Nat.zero_add] at hring
    exact hring.swap
  · exact (hpost.freeStarts_sorted _).imp_of_mem fun hc _ hlt => .inl ⟨hlt, .inl (habove _ hc)⟩
  · exact (hpre.freeStarts_sorted _).imp_of_mem fun _ hd hlt => .inl ⟨hlt, .inr (hbelow _ hd)⟩
  · intro c hc d hd
    exact .inr ⟨hbelow d hd, habove c hc⟩
  · intro c hc
    rcases mem_append.1 hc with hc | hc
    · exact Nat.ne_of_gt (habove c hc)
    · exact Nat.ne_of_lt (hbelow c hc)

theorem Arena.next_last (ha : Arena m h (pre ++ ⟨n, false⟩ :: post)) {last : Nat}
    (hlast : (freeStarts (total pre + n) post ++ freeStarts 0 pre).getLast? = some last) :
    h.next last = (freeStarts (total pre + n) post ++ freeStarts 0 pre).head? := by
  obtain ⟨hring, -, -⟩ := ha.around
  obtain ⟨init, hinit⟩ := getLast?_eq_some_iff.1 hlast
  have hlinks := hring.links
  rw [hinit] at hlinks ⊢
  exact Option.some.inj hlinks.link_last

theorem Arena.joinUpper_free (ha : Arena m h (pre ++ ⟨n, false⟩ :: ⟨k, true⟩ :: post)) {last : Nat}
    (hlast : (freeStarts (total pre + n) (⟨k, true⟩ :: post) ++ freeStarts 0 pre).getLast? = some last)
    (hne : last ≠ total pre + n) : Loose m (joinUpper h (total pre) last) pre (n + k) post last := by
  obtain ⟨hring, -, hother⟩ := ha.around
  have hnext := ha.next_last hlast
  obtain ⟨hpre, hn, hpost⟩ := compact_mid_used.1 ha.compact
  obtain ⟨hk, hpost, hstarts⟩ := compact_cons.1 hpost
  have hsum : total pre + (n + k) = total pre + n + k := (Nat.add_assoc ..).symm
  have hwhole := ha.whole
  have hold := ha.sizes
  simp only [total_append, total_cons] at hwhole
  simp only [recorded_append, recorded_cons, Nat.zero_add] at hold
  dsimp only at hk
  rw [freeStarts_free, cons_append] at hring hlast hnext hother
  rw [head?_cons] at hnext
  have hrest := Ring.rest_getLast? hlast hne
  have hjoin : joinUpper h (total pre) last = { h with
      size := update h.size (total pre) (n + k)
      next := update h.next (total pre) (h.next (total pre + n)) } := by
    simp only [joinUpper, hold.2.1, hnext, if_pos, if_neg hne, hold.2.2.1]
  rw [hjoin]
  refine ⟨?_, ?_, hstarts rfl, ?_, ?_, ?_⟩
  · omega
  · exact compact_mid_used.2 ⟨hpre, by omega, hpost⟩
  · refine hpre.recorded_put hpost ?_ (Nat.lt_of_lt_of_le hn (Nat.le_add_right n k)) hold.1 ?_
    · rfl
    · rw [hsum]
      exact hold.2.2.2
  · rw [hsum]
    exact hrest
  · rw [hsum, ← hrest]
    apply hring.uncons hrest
    · exact (update_self ..).trans (update_self ..)
    · intro c hc hcl
      dsimp only
      rw [update_of_ne hcl, update_of_ne (hother c (mem_cons_of_mem _ hc))]

theorem Arena.next_last_ne (ha : Arena m h (pre ++ ⟨n, false⟩ :: post)) (hstarts : ¬ StartsFree post) {last : Nat}
    (hlast : (freeStarts (total pre + n) post ++ freeStarts 0 pre).getLast? = some last) :
    some (total pre + n) ≠ h.next last := by
  intro heq
  rw [ha.next_last hlast] at heq
  rcases mem_append.1 (mem_of_head? heq.symm) with hmem | hmem
  · cases post with
    | nil => cases hmem
    | cons t post =>
      obtain ⟨k, g⟩ := t
      cases g with
      | true => exact hstarts (startsFree_cons.2 rfl)
      | false =>
        have hk := (compact_cons.1 (compact_mid_used.1 ha.compact).2.2).1
        have hge := (freeStarts_bounds (freeStarts_used ▸ hmem)).1
        dsimp only at hk
        omega
  · have hlt := (freeStarts_bounds hmem).2
    have hn := (compact_mid_used.1 ha.compact).2.1
    omega

theorem Arena.joinUpper_alone (ha : Arena m h (pre ++ ⟨n, false⟩ :: post)) (hstarts : ¬ StartsFree post) {last : Nat}
    (hlast : (freeStarts (total pre + n) post ++ freeStarts 0 pre).getLast? = some last) :
    Loose m (joinUpper h (total pre) last) pre n post last := by
  obtain ⟨hring, -, hother⟩ := ha.around
  have hwhole := ha.whole
  have hold := ha.sizes
  simp only [total_append, total_cons] at hwhole
  simp only [recorded_append, recorded_cons, Nat.zero_add] at hold
  have hjoin : joinUpper h (total pre) last = { h with next := update h.next (total pre) (h.next last) } := by
    rw [joinUpper, hold.2.1, if_neg (ha.next_last_ne hstarts hlast)]
  rw [hjoin]
  refine ⟨?_, ha.compact, hstarts, ha.sizes, hlast, ?_⟩
  · omega
  · rw [hlast] at hring
    apply hring.congr
    intro c hc
    dsimp only
    rw [update_self]
    by_cases hcl : c = last
    · rw [hcl, update_self]
    · rw [update_of_ne hcl, update_of_ne (hother c hc)]

theorem Arena.loose (ha : Arena m h (pre ++ ⟨n, false⟩ :: post)) {last : Nat}
    (hlast : (freeStarts (total pre + n) post ++ freeStarts 0 pre).getLast? = some last)
    (hgood : h.next last = some (total pre + n) → last ≠ total pre + n) :
    ∃ n' post', Loose m (joinUpper h (total pre) last) pre n' post' last ∧
      used (total pre + n') post' = used (total pre + n) post := by
  by_cases hstarts : StartsFree post
  · obtain ⟨⟨k, g⟩, ht, hg⟩ := hstarts
    obtain rfl : g = true := hg
    obtain ⟨post, rfl⟩ := head?_eq_some_iff.1 ht
    have hnext := ha.next_last hlast
    rw [freeStarts_free, cons_append, head?_cons] at hnext
    refine ⟨n + k, post, ha.joinUpper_free hlast (hgood hnext), ?_⟩
    rw [used_free, Nat.add_assoc]
  · exact ⟨n, post, ha.joinUpper_alone hstarts hlast, rfl⟩

theorem Loose.joinLower_free {last : Nat} (hl : Loose m h (pre ++ [⟨k, true⟩]) n post last) :
    Arena m { joinLower h (total (pre ++ [⟨k, true⟩])) last with freeList := some last }
      (pre ++ ⟨k + n, true⟩ :: post) := by
  obtain ⟨hwhole, hcompact, hstarts, hsizes, hlast, hring⟩ := hl
  obtain ⟨hpre, hn, hpost⟩ := compact_mid_used.1 hcompact
  obtain ⟨hpre, hends, hk, -⟩ := compact_mid_free.1 hpre
  have hat : freeStarts 0 (pre ++ [⟨k, true⟩]) = freeStarts 0 pre ++ [total pre] := by simp
  have hsum : total (pre ++ [⟨k, true⟩]) = total pre + k := by simp
  have hmid : total pre + (k + n) = total pre + k + n := (Nat.add_assoc ..).symm
  rw [hsum, hat, ← append_assoc] at hlast hring
  obtain rfl : total pre = last := by
    rw [getLast?_concat] at hlast
    exact Option.some.inj hlast
  rw [hsum] at hwhole ⊢
  simp only [recorded_append, recorded_cons, total_append, total_cons, total_nil, Nat.zero_add,
    Nat.add_zero] at hsizes
  obtain ⟨⟨hpresizes, hlastsize, -⟩, hsize, hpostsizes⟩ := hsizes
  have hjoin : joinLower h (total pre + k) (total pre) = { h with
      size := update h.size (total pre) (k + n)
      next := update h.next (total pre) (h.next (total pre + k)) } := by
    rw [joinLower, hlastsize, if_pos rfl, hsize]
  have hat' : freeStarts 0 (pre ++ ⟨k + n, true⟩ :: post) =
      (freeStarts 0 pre ++ [total pre]) ++ freeStarts (total pre + k + n) post := by simp [hmid]
  rw [hjoin]
  refine ⟨?_, ?_, ?_, ?_, .inr ⟨total pre, by simp, rfl⟩⟩
  · simp only [total_append, total_cons]
    omega
  · exact compact_mid_free.2 ⟨hpre, hends, by omega, hpost, hstarts⟩
  · refine hpre.recorded_put hpost ?_ (Nat.lt_of_lt_of_le hn (Nat.le_add_left n k)) hpresizes ?_
    · rfl
    · rw [hmid]
      exact hpostsizes
  · rw [← hlast, append_assoc] at hring
    rw [hat']
    exact hring.swap

theorem Loose.last_end_ne {last : Nat} (hl : Loose m h pre n post last) (hends : ¬ EndsFree pre) :
    last + h.size last ≠ total pre := by
  obtain ⟨hpre, hn, -⟩ := compact_mid_used.1 hl.compact
  have hsizes := hl.sizes
  rw [recorded_append] at hsizes
  intro heq
  rcases mem_append.1 (mem_of_getLast? hl.isLast) with hmem | hmem
  · have hge := (freeStarts_bounds hmem).1
    omega
  · -- the last tile before the block ends there, and it is not free
    obtain ⟨k, hk⟩ := mem_freeStarts.1 hmem
    have hlastsize : h.size last = k := hsizes.1 _ hk
    rcases eq_nil_or_concat pre with rfl | ⟨pre, t, rfl⟩
    · cases hk
    · rw [concat_eq_append] at *
      have ht : (total pre, t) ∈ placed 0 (pre ++ [t]) := by simp
      have heq' : last + k = total pre + t.size := by
        rw [hlastsize] at heq
        simpa using heq
      obtain ⟨-, htk⟩ := Prod.mk.inj (hpre.end_inj hk ht heq')
      exact hends (endsFree_concat.2 (htk ▸ rfl))

theorem Loose.joinLower_alone {last : Nat} (hl : Loose m h pre n post last) (hends : ¬ EndsFree pre) :
    Arena m { joinLower h (total pre) last with freeList := some last } (pre ++ ⟨n, true⟩ :: post) := by
  have hnot := hl.last_end_ne hends
  obtain ⟨hwhole, hcompact, hstarts, hsizes, hlast, hring⟩ := hl
  obtain ⟨hpre, hn, hpost⟩ := compact_mid_used.1 hcompact
  have hnew : total pre ∉ freeStarts (total pre + n) post ++ freeStarts 0 pre := by
    intro hmem
    rcases mem_append.1 hmem with hmem | hmem
    · have hge := (freeStarts_bounds hmem).1
      omega
    · have hlt := hpre.freeStarts_lt hmem
      omega
  have hne : total pre ≠ last := fun heq => hnew (by rw [heq]; exact mem_of_getLast? (heq ▸ hlast))
  have hjoin : joinLower h (total pre) last = { h with next := update h.next last (some (total pre)) } := by
    rw [joinLower, if_neg hnot]
  have hat : freeStarts 0 (pre ++ ⟨n, true⟩ :: post) =
      (freeStarts 0 pre ++ [total pre]) ++ freeStarts (total pre + n) post := by simp
  rw [hjoin]
  refine ⟨?_, compact_mid_free.2 ⟨hpre, hends, hn, hpost, hstarts⟩, ?_, ?_, .inr ⟨last, ?_, rfl⟩⟩
  · simp only [total_append, total_cons]
    omega
  · simp only [recorded_append, recorded_cons] at hsizes ⊢
    exact hsizes
  · rw [hat]
    dsimp only
    apply hring.insert hlast hnew
    · rw [update_of_ne hne, update_self]
    · exact update_self ..
    · intro c _ hcl
      rw [update_of_ne hcl, update_of_ne hcl]
  · rw [hat]
    have hmem := mem_of_getLast? hlast
    simp only [mem_append] at hmem ⊢
    tauto

theorem Loose.arena {last : Nat} (hl : Loose m h pre n post last) :
    ∃ ts, Arena m { joinLower h (total pre) last with freeList := some last } ts ∧
      used 0 ts = used 0 pre ++ used (total pre + n) post := by
  by_cases hends : EndsFree pre
  · obtain ⟨⟨k, g⟩, ht, hg⟩ := hends
    obtain rfl : g = true := hg
    obtain ⟨pre, rfl⟩ := getLast?_eq_some_iff.1 ht
    exact ⟨_, hl.joinLower_free, by simp [Nat.add_assoc]⟩
  · exact ⟨_, hl.joinLower_alone hends, by simp⟩

theorem Arena.free (ha : Arena m h (pre ++ ⟨n, false⟩ :: post))
    (hgood : h.freeList = some (total pre + n) → h.next (total pre + n) ≠ some (total pre + n)) :
    ∃ h' ts, freePtr m h (total pre + 1) = .ok h' ∧ Arena m h' ts ∧
      used 0 ts = used 0 pre ++ used (total pre + n) post := by
  obtain ⟨hring, hsorted, hne⟩ := ha.around
  obtain ⟨hpre, hn, hpost⟩ := compact_mid_used.1 ha.compact
  have hstarts : freeStarts 0 (pre ++ ⟨n, false⟩ :: post) =
      freeStarts 0 pre ++ freeStarts (total pre + n) post := by simp
  have hmem : ∀ c, c ∈ freeStarts 0 (pre ++ ⟨n, false⟩ :: post) ↔
      c ∈ freeStarts (total pre + n) post ++ freeStarts 0 pre := by
    intro c
    rw [hstarts, mem_append, mem_append, or_comm]
  unfold freePtr
  dsimp only
  rw [Nat.add_sub_cancel]
  rcases ha.freeList with ⟨hnil, hfree⟩ | ⟨f, hf, hfree⟩
  · rw [hfree]
    rw [hstarts] at hnil
    obtain ⟨h1, h2⟩ := append_eq_nil_iff.1 hnil
    have hstarts' : freeStarts 0 (pre ++ ⟨n, true⟩ :: post) = [total pre] := by simp [h1, h2]
    refine ⟨_, pre ++ ⟨n, true⟩ :: post, rfl, ⟨?_, ?_, ?_, ?_, .inr ⟨total pre, by simp, rfl⟩⟩, by simp⟩
    · have := ha.whole
      simpa using this
    · exact compact_mid_free.2
        ⟨hpre, not_endsFree_of_freeStarts h1, hn, hpost, not_startsFree_of_freeStarts h2⟩
    · have := ha.sizes
      simpa using this
    · rw [hstarts']
      refine ⟨by simp, rfl, ?_⟩
      simp
  · have hf' := (hmem f).1 hf
    obtain ⟨last, hlast⟩ : ∃ last, (freeStarts (total pre + n) post ++ freeStarts 0 pre).getLast? = some last := by
      cases hl : (freeStarts (total pre + n) post ++ freeStarts 0 pre).getLast? with
      | none =>
        rw [getLast?_eq_none_iff.1 hl] at hf'
        cases hf'
      | some last => exact ⟨last, rfl⟩
    have hlen := ha.compact.freeStarts_length_le 0
    rw [ha.whole, hstarts, length_append, Nat.add_comm, ← length_append] at hlen
    have hloop := freeLoop_spec hring hsorted hne hlast hf' (Nat.le_succ_of_le hlen)
    have hgood' : h.next last = some (total pre + n) → last ≠ total pre + n := by
      rintro hnext rfl
      -- a block that is linked to itself is the only one
      have hsingle : ∀ c ∈ freeStarts (total pre + n) post ++ freeStarts 0 pre, c = total pre + n := by
        have hhead := ha.next_last hlast
        rw [hnext] at hhead
        obtain ⟨rest, hrest⟩ := head?_eq_some_iff.1 hhead.symm
        rw [hrest] at hring hlast ⊢
        rw [hring.rest_eq_nil hlast]
        intro c hc
        exact mem_singleton.1 hc
      exact hgood (by rw [hfree, hsingle f hf']) hnext
    obtain ⟨n', post', hloose, hused⟩ := ha.loose hlast hgood'
    obtain ⟨ts, harena, hused'⟩ := hloose.arena
    refine ⟨_, ts, ?_, harena, by rw [hused', hused]⟩
    rw [hfree]
    simp only [hloop]
    rfl

end

end SNet.Distrib.SccHeap
