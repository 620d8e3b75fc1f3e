import SNetRts.Distrib.SccHeap

/-!
# The page table entries of the SCC back end

`SCCMallocLut` and `SCCFreeLut` of `distrib/scc/sccmalloc.c`. There is a `lutState` for each page of the
remote mapping. A run of pages that is free or in use has its flag and its size in the first and in the
last entry; what is in between is left as it is. A pointer into the remote mapping is the number of its
byte there.

An access outside of `lutState` is an error of the model. Nothing is known of its entries before
`SCCInit`.
-/

namespace SNet.Distrib.SccLut

open Function (update update_of_ne update_self)

open Lib Tile
open SccHeap (PAGE_SIZE)

def MAX_PAGES : Nat := 172

def LOCAL_LUT : Nat := 0x14

/-- The size of the local mapping, with `remap`. -/
structure Pages where
  local_pages : Nat
  pos : 0 < local_pages
  lt : local_pages < MAX_PAGES

def Pages.remote_pages (c : Pages) : Nat := MAX_PAGES - c.local_pages

def Pages.REMOTE_LUT (c : Pages) : Nat := LOCAL_LUT + c.local_pages

/-- `lut_state_t`; `size` is an `unsigned char`. -/
structure LutState where
  free : Bool
  size : Nat
deriving DecidableEq

abbrev Table := Nat → LutState

inductive Halt where
  /-- `SNetUtilDebugFatal` -/
  | fatal
  /-- an access outside of the table -/
  | bounds
  /-- the search has not ended -/
  | loops
deriving DecidableEq

variable (c : Pages) (lut : Table)

def get (i : Nat) : Except Halt LutState :=
  if i < c.remote_pages then .ok (lut i) else .error .bounds

def set (i : Nat) (e : LutState) : Except Halt Table :=
  if i < c.remote_pages then .ok (update lut i e) else .error .bounds

/-- `lut[lut->size - 1] = lut[0]` -/
def setLast (i : Nat) : Except Halt Table := do
  let e ← get c lut i
  if i + e.size = 0 then .error .bounds else set c lut (i + e.size - 1) e

/-- What `SCCInit` leaves in the table. -/
def init : Table :=
  update (update lut 0 ⟨true, c.remote_pages⟩) (c.remote_pages - 1) ⟨true, c.remote_pages⟩

/-! ## Allocating -/

/-- The loop of `SCCMallocLut`, up to a run that is large enough. -/
def mallocLoop (size : Nat) : Nat → Nat → Except Halt Nat
  | 0, _ => .error .loops
  | fuel + 1, curr =>
    match get c lut curr with
    | .error e => .error e
    | .ok e =>
      if e.free = true ∧ size ≤ e.size then .ok curr
      else if curr + e.size < c.remote_pages then mallocLoop size fuel (curr + e.size)
      else .error .fatal

def take (size curr : Nat) : Except Halt Table := do
  let e ← get c lut curr
  if e.size = size then
    let lut ← set c lut curr { e with free := false }
    let last ← get c lut (curr + size - 1)
    set c lut (curr + size - 1) { last with free := false }
  else
    let next := curr + size
    let lut ← set c lut next ⟨true, (e.size - size) % 256⟩
    let lut ← setLast c lut next
    let lut ← set c lut curr ⟨false, size % 256⟩
    setLast c lut curr

/-- The number in the page table that is returned, and the table then. -/
def mallocLut (size : Nat) : Except Halt (Nat × Table) := do
  let curr ← mallocLoop c lut size (c.remote_pages + 1) 0
  let lut ← take c lut size curr
  return ((c.REMOTE_LUT + curr) % 256, lut)

/-! ## Freeing -/

def joinNext (i : Nat) : Except Halt Table := do
  let e ← get c lut i
  if i + e.size < c.remote_pages then
    let next ← get c lut (i + e.size)
    if next.free = true then set c lut i { e with size := (e.size + next.size) % 256 } else return lut
  else return lut

def joinPrev (i : Nat) : Except Halt (Nat × Table) := do
  if 0 < i then
    let prev ← get c lut (i - 1)
    if prev.free = true then
      if i < prev.size then .error .bounds
      else
        let first := i - prev.size
        let e ← get c lut first
        let next ← get c lut (first + e.size)
        let lut ← set c lut first { e with size := (e.size + next.size) % 256 }
        return (first, lut)
    else return (i, lut)
  else return (i, lut)

def freeLut (p : Nat) : Except Halt Table := do
  let i := p / PAGE_SIZE
  let lut ← joinNext c lut i
  let (i, lut) ← joinPrev c lut i
  let e ← get c lut i
  let lut ← set c lut i { e with free := true }
  setLast c lut i

/-! ## The runs -/

def entry (t : Tile) : LutState := ⟨t.free, t.size⟩

/-- The tiles are all pages, and have their tags. -/
structure Tagged (ts : List Tile) : Prop where
  whole : total ts = c.remote_pages
  compact : Compact ts
  tags : Bordered entry lut 0 ts

section

variable {c lut} {ts pre post : List Tile} {i k n size : Nat} {b : Bool} {e : LutState}

theorem Pages.remote_pos (c : Pages) : 0 < c.remote_pages := Nat.sub_pos_of_lt c.lt

theorem Pages.remote_lt (c : Pages) : c.remote_pages < 256 := by
  have : c.remote_pages ≤ MAX_PAGES := Nat.sub_le ..
  rw [MAX_PAGES] at this
  omega

theorem Pages.lut_lt (hi : i < c.remote_pages) : (c.REMOTE_LUT + i) % 256 = c.REMOTE_LUT + i := by
  apply Nat.mod_eq_of_lt
  have := c.lt
  rw [Pages.remote_pages, MAX_PAGES] at hi
  rw [Pages.REMOTE_LUT, LOCAL_LUT]
  omega

theorem get_eq (hi : i < c.remote_pages) : get c lut i = .ok (lut i) := if_pos hi

theorem set_eq (hi : i < c.remote_pages) : set c lut i e = .ok (update lut i e) := if_pos hi

theorem setLast_eq (hi : i < c.remote_pages) (hpos : 0 < (lut i).size)
    (hlast : i + (lut i).size ≤ c.remote_pages) :
    setLast c lut i = .ok (update lut (i + (lut i).size - 1) (lut i)) := by
  rw [setLast, get_eq hi]
  show (if _ then _ else _) = _
  rw [if_neg (by omega), set_eq (by omega)]

theorem init_tagged : Tagged c (init c lut) [⟨c.remote_pages, true⟩] := by
  have hpos := c.remote_pos
  refine ⟨by simp, compact_cons.2 ⟨hpos, Compact.nil, fun _ => not_startsFree_nil⟩, ?_⟩
  simp only [bordered_cons, bordered_nil, and_true, Nat.zero_add, entry]
  refine ⟨?_, update_self ..⟩
  rw [init]
  by_cases h0 : 0 = c.remote_pages - 1
  · rw [← h0, update_self]
  · rw [update_of_ne h0, update_self]

theorem Tagged.bounds (ht : Tagged c lut (pre ++ ⟨n, b⟩ :: post)) :
    0 < n ∧ total pre + n + total post = c.remote_pages ∧ lut (total pre) = ⟨b, n⟩ ∧
      lut (total pre + n - 1) = ⟨b, n⟩ := by
  have hwhole := ht.whole
  have htags := ht.tags
  simp only [total_append, total_cons] at hwhole
  simp only [bordered_append, bordered_cons, Nat.zero_add] at htags
  refine ⟨ht.compact.pos ⟨n, b⟩ (by simp), by omega, htags.2.1⟩

theorem ok_bind {α β : Type} (a : α) (f : α → Except Halt β) : (Except.ok a >>= f) = f a := rfl

/-! ## Allocating a run -/

theorem mallocLoop_spec (size : Nat) {pre : List Tile} {fuel : Nat} (ht : Tagged c lut (pre ++ post)) (hne : post ≠ [])
    (hfuel : post.length ≤ fuel) :
    (∃ pre' k post', pre ++ post = pre' ++ ⟨k, true⟩ :: post' ∧ size ≤ k ∧
      mallocLoop c lut size fuel (total pre) = .ok (total pre')) ∨
    ((∀ t ∈ post, t.free = true → t.size < size) ∧
      mallocLoop c lut size fuel (total pre) = .error .fatal) := by
  induction post generalizing pre fuel with
  | nil => exact absurd rfl hne
  | cons t post ih =>
    obtain ⟨k, g⟩ := t
    obtain ⟨fuel, rfl⟩ := Nat.exists_eq_succ_of_ne_zero (Nat.ne_of_gt (Nat.lt_of_lt_of_le (Nat.succ_pos _) hfuel))
    obtain ⟨hk, hwhole, hfirst, -⟩ := ht.bounds
    rw [mallocLoop, get_eq (by omega), hfirst]
    dsimp only
    by_cases hfit : g = true ∧ size ≤ k
    · obtain ⟨rfl, hle⟩ := hfit
      rw [if_pos ⟨rfl, hle⟩]
      exact .inl ⟨pre, k, post, rfl, hle, rfl⟩
    · have hsmall : g = true → k < size := by
        intro hg
        by_contra hge
        exact hfit ⟨hg, Nat.le_of_not_lt hge⟩
      rw [if_neg hfit]
      cases post with
      | nil =>
        rw [total_nil] at hwhole
        rw [if_neg (by omega)]
        refine .inr ⟨?_, rfl⟩
        intro t ht
        rw [List.mem_singleton.1 ht]
        exact hsmall
      | cons u post =>
        have hu := ht.compact.pos u (by simp)
        rw [total_cons] at hwhole
        rw [if_pos (by omega)]
        have ht' : Tagged c lut ((pre ++ [⟨k, g⟩]) ++ u :: post) := by simpa using ht
        have hstart : total pre + k = total (pre ++ [⟨k, g⟩]) := by simp
        rw [hstart]
        rcases ih ht' (List.cons_ne_nil _ _) (Nat.le_of_succ_le_succ hfuel) with
          ⟨pre', j, post', heq, hle, hloop⟩ | ⟨hall, hloop⟩
        · refine .inl ⟨pre', j, post', ?_, hle, hloop⟩
          rw [← heq]
          simp
        · refine .inr ⟨?_, hloop⟩
          intro t ht
          rcases List.mem_cons.1 ht with rfl | ht
          · exact hsmall
          · exact hall t ht

theorem Tagged.sides (ht : Tagged c lut (pre ++ ⟨n, b⟩ :: post)) {lut' : Table}
    (heq : ∀ i, i < total pre ∨ total pre + n ≤ i → lut' i = lut i) :
    Bordered entry lut' 0 pre ∧ Bordered entry lut' (total pre + n) post := by
  obtain ⟨hpre, hrest, -⟩ := compact_append.1 ht.compact
  obtain ⟨-, hpost, -⟩ := compact_cons.1 hrest
  have htags := ht.tags
  simp only [bordered_append, bordered_cons, Nat.zero_add] at htags
  refine ⟨hpre.bordered_congr htags.1 ?_, hpost.bordered_congr htags.2.2 ?_⟩
  · intro i _ hi
    exact heq i (.inl (by omega))
  · intro i hi _
    exact heq i (.inr hi)

theorem Tagged.take_exact (ht : Tagged c lut (pre ++ ⟨n, true⟩ :: post)) :
    ∃ lut', take c lut n (total pre) = .ok lut' ∧ Tagged c lut' (pre ++ ⟨n, false⟩ :: post) := by
  obtain ⟨hn, hwhole, hfirst, hlast⟩ := ht.bounds
  obtain ⟨hpre, -, -, hpost, -⟩ := compact_mid_free.1 ht.compact
  have hlast' : update lut (total pre) ⟨false, n⟩ (total pre + n - 1) =
      ⟨if n = 1 then false else true, n⟩ := by
    by_cases h1 : n = 1
    · subst h1
      exact update_self ..
    · rw [update_of_ne (by omega), hlast, if_neg h1]
  refine ⟨update (update lut (total pre) ⟨false, n⟩) (total pre + n - 1) ⟨false, n⟩, ?_, ?_⟩
  · rw [take, get_eq (by omega), ok_bind, hfirst, if_pos rfl, set_eq (by omega), ok_bind, get_eq (by omega),
      ok_bind, hlast', set_eq (by omega)]
  · have hsame : ∀ i, i < total pre ∨ total pre + n ≤ i → update (update lut (total pre)
        (LutState.mk false n)) (total pre + n - 1) (LutState.mk false n) i = lut i := by
      intro i hi
      rw [update_of_ne (by omega), update_of_ne (by omega)]
    have hsides := ht.sides hsame
    refine ⟨?_, compact_mid_used.2 ⟨hpre, hn, hpost⟩, ?_⟩
    · simp only [total_append, total_cons]
      omega
    · simp only [bordered_append, bordered_cons, Nat.zero_add]
      refine ⟨hsides.1, ⟨?_, update_self ..⟩, hsides.2⟩
      by_cases h1 : n = 1
      · subst h1
        exact update_self ..
      · rw [update_of_ne (by omega), update_self, entry]

theorem Tagged.take_cut (ht : Tagged c lut (pre ++ ⟨k, true⟩ :: post)) (hn : 0 < n) (hnk : n < k) :
    ∃ lut', take c lut n (total pre) = .ok lut' ∧
      Tagged c lut' (pre ++ ⟨n, false⟩ :: ⟨k - n, true⟩ :: post) := by
  obtain ⟨hk, hwhole, hfirst, -⟩ := ht.bounds
  obtain ⟨hpre, -, -, hpost, hstarts⟩ := compact_mid_free.1 ht.compact
  have hlt := c.remote_lt
  have hsum : total pre + n + (k - n) = total pre + k := by omega
  have hrest : (k - n) % 256 = k - n := Nat.mod_eq_of_lt (by omega)
  have hsize : n % 256 = n := Nat.mod_eq_of_lt (by omega)
  -- the free rest, and then the run in use
  obtain ⟨lut₁, hlut₁⟩ : ∃ lut₁, lut₁ = update lut (total pre + n) (LutState.mk true (k - n)) := ⟨_, rfl⟩
  have hfree : lut₁ (total pre + n) = ⟨true, k - n⟩ := by rw [hlut₁, update_self]
  obtain ⟨lut₂, hlut₂⟩ : ∃ lut₂, lut₂ = update lut₁ (total pre + k - 1) (LutState.mk true (k - n)) :=
    ⟨_, rfl⟩
  obtain ⟨lut₃, hlut₃⟩ : ∃ lut₃, lut₃ = update lut₂ (total pre) (LutState.mk false n) := ⟨_, rfl⟩
  have hused : lut₃ (total pre) = ⟨false, n⟩ := by rw [hlut₃, update_self]
  refine ⟨update lut₃ (total pre + n - 1) ⟨false, n⟩, ?_, ?_⟩
  · have hlast : setLast c lut₁ (total pre + n) = .ok lut₂ := by
      rw [setLast_eq (by omega) (by rw [hfree]; dsimp only; omega) (by rw [hfree]; dsimp only; omega), hfree, hlut₂]
      dsimp only
      rw [hsum]
    have hlast' : setLast c lut₃ (total pre) = .ok (update lut₃ (total pre + n - 1) ⟨false, n⟩) := by
      rw [setLast_eq (by omega) (by rw [hused]; exact hn) (by rw [hused]; dsimp only; omega), hused]
    rw [take, get_eq (by omega), ok_bind, hfirst]
    dsimp only
    rw [if_neg (by omega), hrest, hsize, set_eq (by omega), ok_bind, ← hlut₁, hlast, ok_bind, set_eq (by omega),
      ok_bind, ← hlut₃, hlast']
  · have hsame : ∀ i, i < total pre ∨ total pre + k ≤ i →
        update lut₃ (total pre + n - 1) (LutState.mk false n) i = lut i := by
      intro i hi
      rw [update_of_ne (by omega), hlut₃, update_of_ne (by omega), hlut₂,
        update_of_ne (by omega), hlut₁, update_of_ne (by omega)]
    have hsides := ht.sides hsame
    refine ⟨?_, compact_mid_used.2 ⟨hpre, hn, compact_cons.2 ⟨Nat.sub_pos_of_lt hnk, hpost, fun _ => hstarts⟩⟩, ?_⟩
    · simp only [total_append, total_cons]
      omega
    · simp only [bordered_append, bordered_cons, Nat.zero_add, hsum]
      refine ⟨hsides.1, ⟨?_, update_self ..⟩, ⟨?_, ?_⟩, hsides.2⟩
      · by_cases h1 : n = 1
        · subst h1
          exact update_self ..
        · rw [update_of_ne (by omega), hused, entry]
      · rw [update_of_ne (by omega), hlut₃, update_of_ne (by omega), hlut₂]
        by_cases h1 : k - n = 1
        · rw [show total pre + n = total pre + k - 1 by omega, update_self, entry]
        · rw [update_of_ne (by omega), hfree, entry]
      · rw [update_of_ne (by omega), hlut₃, update_of_ne (by omega), hlut₂,
          update_self, entry]

theorem Tagged.malloc (ht : Tagged c lut ts) (hsize : 0 < size) :
    (∃ i lut' ts', mallocLut c lut size = .ok (c.REMOTE_LUT + i, lut') ∧ Tagged c lut' ts' ∧
      (used 0 ts').Perm ((i, size) :: used 0 ts)) ∨
    (mallocLut c lut size = .error .fatal ∧ ∀ t ∈ ts, t.free = true → t.size < size) := by
  have hne : ts ≠ [] := by
    rintro rfl
    have hpos := c.remote_pos
    have := ht.whole
    rw [total_nil] at this
    omega
  have hlen : ts.length ≤ c.remote_pages + 1 := by
    have hle := ht.compact.length_le
    have := ht.whole
    omega
  have ht' : Tagged c lut ([] ++ ts) := ht
  rcases mallocLoop_spec size ht' hne hlen with
    ⟨pre, k, post, rfl, hle, hloop⟩ | ⟨hall, hloop⟩
  · obtain ⟨hk, hwhole, -⟩ := ht.bounds
    have hstart : total pre < c.remote_pages := by omega
    rw [total_nil] at hloop
    left
    rcases Nat.eq_or_lt_of_le hle with rfl | hlt
    · obtain ⟨lut', htake, ht'⟩ := ht.take_exact
      refine ⟨total pre, lut', _, ?_, ht', ?_⟩
      · rw [mallocLut, hloop, ok_bind, htake, ok_bind, Pages.lut_lt hstart]
        rfl
      · simp
    · obtain ⟨lut', htake, ht'⟩ := ht.take_cut hsize hlt
      refine ⟨total pre, lut', _, ?_, ht', ?_⟩
      · rw [mallocLut, hloop, ok_bind, htake, ok_bind, Pages.lut_lt hstart]
        rfl
      · have hsum : total pre + size + (k - size) = total pre + k := by omega
        simp [hsum]
  · right
    rw [total_nil] at hloop
    refine ⟨?_, hall⟩
    rw [mallocLut, hloop]
    rfl

/-! ## Freeing a run -/

/-- The run of `n` pages behind `pre` has its size in its first entry, and there is no free run behind
it. -/
structure Loose (c : Pages) (lut : Table) (pre : List Tile) (n : Nat) (post : List Tile) : Prop where
  whole : total pre + n + total post = c.remote_pages
  compact : Compact (pre ++ ⟨n, false⟩ :: post)
  ends : ¬ StartsFree post
  size : (lut (total pre)).size = n
  before : Bordered entry lut 0 pre
  behind : Bordered entry lut (total pre + n) post

theorem Tagged.loose (ht : Tagged c lut (pre ++ ⟨n, false⟩ :: post)) :
    ∃ lut' n' post', joinNext c lut (total pre) = .ok lut' ∧ Loose c lut' pre n' post' ∧
      used (total pre + n') post' = used (total pre + n) post := by
  obtain ⟨hn, hwhole, hfirst, -⟩ := ht.bounds
  obtain ⟨hpre, -, hpost⟩ := compact_mid_used.1 ht.compact
  have htags := ht.tags
  simp only [bordered_append, bordered_cons, Nat.zero_add] at htags
  obtain ⟨hbefore, -, hbehind⟩ := htags
  -- where nothing is joined
  have hkeep : ¬ StartsFree post → Loose c lut pre n post := fun hends =>
    ⟨hwhole, ht.compact, hends, by rw [hfirst], hbefore, hbehind⟩
  rw [joinNext, get_eq (by omega), ok_bind, hfirst]
  dsimp only
  cases post with
  | nil =>
    rw [total_nil] at hwhole
    rw [if_neg (by omega)]
    exact ⟨lut, n, [], rfl, hkeep not_startsFree_nil, rfl⟩
  | cons t post =>
    obtain ⟨k, g⟩ := t
    obtain ⟨hk, hpost', hstarts⟩ := compact_cons.1 hpost
    rw [total_cons] at hwhole
    dsimp only at hk hwhole
    have hnext := hbehind
    rw [bordered_cons] at hnext
    obtain ⟨⟨hnext, -⟩, hrest⟩ := hnext
    rw [if_pos (by omega), get_eq (by omega), ok_bind]
    cases g with
    | false =>
      rw [show lut (total pre + n) = ⟨false, k⟩ from hnext, if_neg (by simp)]
      exact ⟨lut, n, _, rfl, hkeep (by simp), rfl⟩
    | true =>
      have hlt := c.remote_lt
      have hmod : (n + k) % 256 = n + k := Nat.mod_eq_of_lt (by omega)
      have hsum : total pre + (n + k) = total pre + n + k := (Nat.add_assoc ..).symm
      rw [show lut (total pre + n) = ⟨true, k⟩ from hnext, if_pos rfl, set_eq (by omega)]
      dsimp only
      rw [hmod]
      refine ⟨_, n + k, post, rfl, ⟨by omega, ?_, hstarts rfl, ?_, ?_, ?_⟩, ?_⟩
      · exact compact_mid_used.2 ⟨hpre, by omega, hpost'⟩
      · rw [update_self]
      · apply hpre.bordered_congr hbefore
        intro i _ hi
        exact update_of_ne (by omega) ..
      · rw [hsum]
        apply hpost'.bordered_congr hrest
        intro i hi _
        exact update_of_ne (by omega) ..
      · rw [hsum, used_free]

theorem Loose.joinPrev (hl : Loose c lut pre n post) :
    ∃ lut' pre' n', joinPrev c lut (total pre) = .ok (total pre', lut') ∧ Loose c lut' pre' n' post ∧
      ¬ EndsFree pre' ∧ used 0 pre' = used 0 pre ∧ total pre' + n' = total pre + n := by
  have hlt := c.remote_lt
  obtain ⟨hwhole, hcompact, hends, hsize, hbefore, hbehind⟩ := hl
  obtain ⟨hpre, hn, hpost⟩ := compact_mid_used.1 hcompact
  rw [SccLut.joinPrev]
  rcases List.eq_nil_or_concat pre with rfl | ⟨pre, ⟨k, g⟩, rfl⟩
  · rw [if_neg (by simp)]
    exact ⟨lut, [], n, rfl, ⟨hwhole, hcompact, hends, hsize, hbefore, hbehind⟩, not_endsFree_nil, rfl, rfl⟩
  · rw [List.concat_eq_append] at *
    have hk := hpre.pos ⟨k, g⟩ (by simp)
    have hstart : total (pre ++ [⟨k, g⟩]) = total pre + k := by simp
    rw [hstart] at hwhole hsize hbehind ⊢
    dsimp only at hk
    have hprev := hbefore
    simp only [bordered_append, bordered_cons, Nat.zero_add] at hprev
    obtain ⟨hbefore', ⟨hfirst, hlast⟩, -⟩ := hprev
    rw [if_pos (by omega), get_eq (by omega), ok_bind]
    cases g with
    | false =>
      rw [show lut (total pre + k - 1) = ⟨false, k⟩ from hlast, if_neg (by simp)]
      refine ⟨lut, _, n, by rw [hstart]; rfl, ⟨?_, hcompact, hends, ?_, hbefore, ?_⟩, by simp, rfl, ?_⟩
      · rw [hstart]
        exact hwhole
      · rw [hstart]
        exact hsize
      · rw [hstart]
        exact hbehind
      · rw [hstart]
    | true =>
      obtain ⟨hpre', hends', -⟩ := compact_mid_free.1 hpre
      have hmod : (k + n) % 256 = k + n := Nat.mod_eq_of_lt (by omega)
      have hsum : total pre + (k + n) = total pre + k + n := (Nat.add_assoc ..).symm
      have hsub : total pre + k - k = total pre := Nat.add_sub_cancel ..
      rw [show lut (total pre + k - 1) = ⟨true, k⟩ from hlast, if_pos rfl]
      dsimp only
      rw [if_neg (by omega), hsub, get_eq (by omega), ok_bind, show lut (total pre) = ⟨true, k⟩ from hfirst]
      dsimp only
      rw [get_eq (by omega), ok_bind, set_eq (by omega), ok_bind, hsize, hmod]
      refine ⟨_, pre, k + n, rfl, ⟨by omega, ?_, hends, ?_, ?_, ?_⟩, hends', by simp, hsum⟩
      · exact compact_mid_used.2 ⟨hpre', by omega, hpost⟩
      · rw [update_self]
      · apply hpre'.bordered_congr hbefore'
        intro i _ hi
        exact update_of_ne (by omega) ..
      · rw [hsum]
        apply hpost.bordered_congr hbehind
        intro i hi _
        exact update_of_ne (by omega) ..

theorem Loose.tagged (hl : Loose c lut pre n post) (hends : ¬ EndsFree pre) :
    ∃ lut', (do
      let e ← get c lut (total pre)
      let lut ← set c lut (total pre) { e with free := true }
      setLast c lut (total pre)) = .ok lut' ∧ Tagged c lut' (pre ++ ⟨n, true⟩ :: post) := by
  obtain ⟨hwhole, hcompact, hends', hsize, hbefore, hbehind⟩ := hl
  obtain ⟨hpre, hn, hpost⟩ := compact_mid_used.1 hcompact
  obtain ⟨lut₁, hlut₁⟩ : ∃ lut₁, lut₁ = update lut (total pre) (LutState.mk true n) := ⟨_, rfl⟩
  have hfirst : lut₁ (total pre) = ⟨true, n⟩ := by rw [hlut₁, update_self]
  refine ⟨update lut₁ (total pre + n - 1) ⟨true, n⟩, ?_, ?_, ?_, ?_⟩
  · rw [get_eq (by omega), ok_bind, hsize, set_eq (by omega), ok_bind, ← hlut₁,
      setLast_eq (by omega) (by rw [hfirst]; exact hn) (by rw [hfirst]; dsimp only; omega), hfirst]
  · simp only [total_append, total_cons]
    omega
  · exact compact_mid_free.2 ⟨hpre, hends, hn, hpost, hends'⟩
  · simp only [bordered_append, bordered_cons, Nat.zero_add]
    refine ⟨?_, ⟨?_, update_self ..⟩, ?_⟩
    · apply hpre.bordered_congr hbefore
      intro i _ hi
      rw [update_of_ne (by omega), hlut₁, update_of_ne (by omega)]
    · by_cases h1 : n = 1
      · subst h1
        exact update_self ..
      · rw [update_of_ne (by omega), hfirst, entry]
    · apply hpost.bordered_congr hbehind
      intro i hi _
      rw [update_of_ne (by omega), hlut₁, update_of_ne (by omega)]

theorem Tagged.free {p : Nat} (ht : Tagged c lut (pre ++ ⟨n, false⟩ :: post)) (hp : p / PAGE_SIZE = total pre) :
    ∃ lut' ts, freeLut c lut p = .ok lut' ∧ Tagged c lut' ts ∧
      used 0 ts = used 0 pre ++ used (total pre + n) post := by
  obtain ⟨lut₁, n', post', hnext, hloose, hused⟩ := ht.loose
  obtain ⟨lut₂, pre', n'', hprev, hloose', hends, hused', hsum⟩ := hloose.joinPrev
  obtain ⟨lut₃, hlast, ht'⟩ := hloose'.tagged hends
  refine ⟨lut₃, _, ?_, ht', ?_⟩
  · rw [freeLut]
    dsimp only
    rw [hp, hnext, ok_bind, hprev, ok_bind]
    exact hlast
  · rw [used_append, Nat.zero_add, used_free, hused', hsum, hused]

end

end SNet.Distrib.SccLut
