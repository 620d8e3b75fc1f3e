import SNetRts.Distrib.SccLut

/-!
# Addresses of the SCC back end

`SCCPtr2Addr`, `SCCAddr2Ptr` and `SCCFree` of `distrib/scc/sccmalloc.c`. A pointer is the number of its
byte in the address space of a node, and an address is an entry of a page table with an offset. The
sizes of the two mappings are those of `SCCInit`; where they are is up to `mmap`.

All tests have the byte behind a mapping in it. For a pointer that is neither that of the local mapping
nor, unless the local one begins there, that of the remote one, the functions are exact, as long as the
sizes that they multiply out are `int`s.
-/

namespace SNet.Distrib.SccAddr

open SccHeap (PAGE_SIZE INT_MAX)
open SccLut (MAX_PAGES LOCAL_LUT)

/-- The two mappings. They do not overlap. -/
structure Mappings where
  remap : Bool
  node_location : Nat
  local_pages : Nat
  pages_pos : 0 < local_pages
  pages_lt : local_pages < MAX_PAGES
  /-- where `local` is -/
  localBase : Nat
  /-- where `remote` is -/
  remoteBase : Nat
  disjoint : localBase + local_pages * PAGE_SIZE ≤ remoteBase ∨
    remoteBase + (if remap then MAX_PAGES - local_pages else 1) * PAGE_SIZE ≤ localBase

/-- `lut_addr_t` -/
structure LutAddr where
  node : Nat
  lut : Nat
  offset : Nat
deriving DecidableEq

inductive Halt where
  /-- `SNetUtilDebugFatal` -/
  | fatal
  /-- a product that is no `int` -/
  | overflow
deriving DecidableEq

/-- What `SCCFree` calls. -/
inductive Callee where
  | freePtr
  | freeLut
  | nothing
deriving DecidableEq

namespace Mappings

variable (m : Mappings)

def remote_pages : Nat := if m.remap then MAX_PAGES - m.local_pages else 1

def REMOTE_LUT : Nat := LOCAL_LUT + m.local_pages

/-- `pages * PAGE_SIZE` -/
def bytes (pages : Nat) : Except Halt Nat :=
  if pages * PAGE_SIZE ≤ INT_MAX then .ok (pages * PAGE_SIZE) else .error .overflow

/-- `base <= p && p <= base + pages * PAGE_SIZE` -/
def within (base pages p : Nat) : Except Halt Bool :=
  if base ≤ p then do
    let size ← bytes pages
    return decide (p ≤ base + size)
  else .ok false

/-- The entry is an `unsigned char`. -/
def ptr2Addr (p : Nat) : Except Halt LutAddr := do
  if ← within m.localBase m.local_pages p then
    return ⟨m.node_location, (LOCAL_LUT + (p - m.localBase) / PAGE_SIZE) % 256, (p - m.localBase) % PAGE_SIZE⟩
  else if ← within m.remoteBase m.remote_pages p then
    return ⟨m.node_location, (m.REMOTE_LUT + (p - m.remoteBase) / PAGE_SIZE) % 256,
      (p - m.remoteBase) % PAGE_SIZE⟩
  else .error .fatal

/-- The offset is a `uint32_t`, and so is its sum with the product. -/
def addr2Ptr (addr : LutAddr) : Except Halt Nat :=
  if LOCAL_LUT ≤ addr.lut ∧ addr.lut < LOCAL_LUT + m.local_pages then do
    let first ← bytes (addr.lut - LOCAL_LUT)
    return (first + addr.offset) % 4294967296 + m.localBase
  else if m.REMOTE_LUT ≤ addr.lut ∧ addr.lut < m.REMOTE_LUT + m.remote_pages then do
    let first ← bytes (addr.lut - m.REMOTE_LUT)
    return (first + addr.offset) % 4294967296 + m.remoteBase
  else .error .fatal

def free (p : Nat) : Except Halt Callee := do
  if ← within m.localBase m.local_pages p then return .freePtr
  else if ← within m.remoteBase m.remote_pages p then return .freeLut
  else return .nothing

def InLocal (p : Nat) : Prop := m.localBase ≤ p ∧ p < m.localBase + m.local_pages * PAGE_SIZE

def InRemote (p : Nat) : Prop := m.remoteBase ≤ p ∧ p < m.remoteBase + m.remote_pages * PAGE_SIZE

instance (p : Nat) : Decidable (m.InLocal p) := inferInstanceAs (Decidable (_ ∧ _))

instance (p : Nat) : Decidable (m.InRemote p) := inferInstanceAs (Decidable (_ ∧ _))

/-- Pointers into a mapping come back, others are rejected; what is returned is accepted; and a pointer is
freed where it is from. -/
structure IsExact (p : Nat) : Prop where
  roundTrip : m.InLocal p ∨ m.InRemote p → ∃ addr, m.ptr2Addr p = .ok addr ∧ m.addr2Ptr addr = .ok p
  rejects : ¬ (m.InLocal p ∨ m.InRemote p) → m.ptr2Addr p = .error .fatal
  accepts : ∀ addr, m.ptr2Addr p = .ok addr → ∃ q, m.addr2Ptr addr = .ok q
  frees : ∃ callee, m.free p = .ok callee ∧ (callee = .freePtr ↔ m.InLocal p) ∧
    (callee = .freeLut ↔ m.InRemote p)

/-- The sizes that are multiplied out for the pointer are `int`s. -/
def IntSizes (p : Nat) : Prop :=
  (m.localBase ≤ p → m.local_pages * PAGE_SIZE ≤ INT_MAX) ∧
    (¬ m.InLocal p → m.remoteBase ≤ p → m.remote_pages * PAGE_SIZE ≤ INT_MAX)

section

variable {m} {p q base pages : Nat}

theorem bytes_eq (h : pages * PAGE_SIZE ≤ INT_MAX) : bytes pages = .ok (pages * PAGE_SIZE) := if_pos h

theorem ok_bind {α β : Type} (a : α) (f : α → Except Halt β) : (Except.ok a >>= f) = f a := rfl

theorem within_eq (h : base ≤ p → pages * PAGE_SIZE ≤ INT_MAX) :
    within base pages p = .ok (decide (base ≤ p ∧ p ≤ base + pages * PAGE_SIZE)) := by
  rw [within]
  by_cases hle : base ≤ p
  · rw [if_pos hle, bytes_eq (h hle), ok_bind, decide_eq_decide.2 (and_iff_right hle).symm]
    rfl
  · rw [if_neg hle, decide_eq_false fun h => hle h.1]

theorem within_overflow (hle : base ≤ p) (h : ¬ pages * PAGE_SIZE ≤ INT_MAX) :
    within base pages p = .error .overflow := by
  rw [within, if_pos hle, bytes, if_neg h]
  rfl

theorem entry_lt (m : Mappings) : m.REMOTE_LUT + m.remote_pages < 256 := by
  have := m.pages_pos
  have := m.pages_lt
  rw [REMOTE_LUT, remote_pages, LOCAL_LUT]
  rw [MAX_PAGES] at *
  split <;> omega

theorem page_offset (hle : base ≤ p) (hlt : p < base + pages * PAGE_SIZE) (hmax : pages * PAGE_SIZE ≤ INT_MAX) :
    (p - base) / PAGE_SIZE < pages ∧
      bytes ((p - base) / PAGE_SIZE) = .ok ((p - base) / PAGE_SIZE * PAGE_SIZE) ∧
      ((p - base) / PAGE_SIZE * PAGE_SIZE + (p - base) % PAGE_SIZE) % 4294967296 + base = p := by
  have hpage : (p - base) / PAGE_SIZE < pages := Nat.div_lt_of_lt_mul (by rw [Nat.mul_comm]; omega)
  have hsum := Nat.div_add_mod (p - base) PAGE_SIZE
  rw [Nat.mul_comm] at hsum
  have hbytes := Nat.mul_le_mul_right PAGE_SIZE (Nat.le_of_lt hpage)
  refine ⟨hpage, bytes_eq (Nat.le_trans hbytes hmax), ?_⟩
  rw [hsum, Nat.mod_eq_of_lt]
  · exact Nat.sub_add_cancel hle
  · rw [INT_MAX] at hmax
    omega

theorem InLocal.not_inRemote (h : m.InLocal p) : ¬ m.InRemote p := by
  obtain ⟨h1, h2⟩ := h
  rintro ⟨h3, h4⟩
  rw [remote_pages] at h4
  have := m.disjoint
  omega

theorem within_local (hsize : m.localBase ≤ p → m.local_pages * PAGE_SIZE ≤ INT_MAX)
    (hend : p ≠ m.localBase + m.local_pages * PAGE_SIZE) :
    within m.localBase m.local_pages p = .ok (decide (m.InLocal p)) := by
  rw [within_eq hsize, decide_eq_decide.2]
  unfold InLocal
  omega

theorem within_remote (hsize : m.remoteBase ≤ p → m.remote_pages * PAGE_SIZE ≤ INT_MAX)
    (hend : p ≠ m.remoteBase + m.remote_pages * PAGE_SIZE) :
    within m.remoteBase m.remote_pages p = .ok (decide (m.InRemote p)) := by
  rw [within_eq hsize, decide_eq_decide.2]
  unfold InRemote
  omega

theorem InLocal.isExact (h : m.InLocal p) (hsize : m.local_pages * PAGE_SIZE ≤ INT_MAX) : m.IsExact p := by
  have hwithin := within_local (m := m) (p := p) (fun _ => hsize) (Nat.ne_of_lt h.2)
  rw [decide_eq_true h] at hwithin
  obtain ⟨hpage, hbytes, hsum⟩ := page_offset h.1 h.2 hsize
  have hentry := m.entry_lt
  rw [REMOTE_LUT] at hentry
  have haddr : m.ptr2Addr p =
      .ok ⟨m.node_location, LOCAL_LUT + (p - m.localBase) / PAGE_SIZE, (p - m.localBase) % PAGE_SIZE⟩ := by
    rw [ptr2Addr, hwithin, ok_bind, if_pos rfl, Nat.mod_eq_of_lt (by omega)]
    rfl
  have hptr : m.addr2Ptr
      ⟨m.node_location, LOCAL_LUT + (p - m.localBase) / PAGE_SIZE, (p - m.localBase) % PAGE_SIZE⟩ = .ok p := by
    rw [addr2Ptr]
    dsimp only
    rw [if_pos ⟨Nat.le_add_right .., Nat.add_lt_add_left hpage _⟩, Nat.add_sub_cancel_left, hbytes, ok_bind, hsum]
    rfl
  refine ⟨fun _ => ⟨_, haddr, hptr⟩, fun hnot => absurd (.inl h) hnot, ?_, .freePtr, ?_, ?_, ?_⟩
  · intro addr haddr'
    rw [haddr] at haddr'
    cases haddr'
    exact ⟨p, hptr⟩
  · rw [free, hwithin, ok_bind, if_pos rfl]
    rfl
  · exact iff_of_true rfl h
  · exact iff_of_false nofun h.not_inRemote

theorem InRemote.isExact (h : m.InRemote p) (hlocal : m.localBase ≤ p → m.local_pages * PAGE_SIZE ≤ INT_MAX)
    (hend : p ≠ m.localBase + m.local_pages * PAGE_SIZE) (hsize : m.remote_pages * PAGE_SIZE ≤ INT_MAX) :
    m.IsExact p := by
  have hnot : ¬ m.InLocal p := fun hl => hl.not_inRemote h
  have hwithin := within_local hlocal hend
  rw [decide_eq_false hnot] at hwithin
  have hwithin' := within_remote (m := m) (p := p) (fun _ => hsize) (Nat.ne_of_lt h.2)
  rw [decide_eq_true h] at hwithin'
  obtain ⟨hpage, hbytes, hsum⟩ := page_offset h.1 h.2 hsize
  have hentry := m.entry_lt
  have haddr : m.ptr2Addr p =
      .ok ⟨m.node_location, m.REMOTE_LUT + (p - m.remoteBase) / PAGE_SIZE, (p - m.remoteBase) % PAGE_SIZE⟩ := by
    rw [ptr2Addr, hwithin, ok_bind, if_neg nofun, hwithin', ok_bind, if_pos rfl, Nat.mod_eq_of_lt (by omega)]
    rfl
  have hptr : m.addr2Ptr
      ⟨m.node_location, m.REMOTE_LUT + (p - m.remoteBase) / PAGE_SIZE, (p - m.remoteBase) % PAGE_SIZE⟩ = .ok p := by
    rw [addr2Ptr]
    dsimp only
    have hbehind : ¬ m.REMOTE_LUT + (p - m.remoteBase) / PAGE_SIZE < LOCAL_LUT + m.local_pages :=
      Nat.not_lt.2 (Nat.le_add_right ..)
    rw [if_neg fun hin => hbehind hin.2, if_pos ⟨Nat.le_add_right .., Nat.add_lt_add_left hpage _⟩,
      Nat.add_sub_cancel_left, hbytes, ok_bind, hsum]
    rfl
  refine ⟨fun _ => ⟨_, haddr, hptr⟩, fun hno => absurd (.inr h) hno, ?_, .freeLut, ?_, ?_, ?_⟩
  · intro addr haddr'
    rw [haddr] at haddr'
    cases haddr'
    exact ⟨p, hptr⟩
  · rw [free, hwithin, ok_bind, if_neg nofun, hwithin', ok_bind, if_pos rfl]
    rfl
  · exact iff_of_false nofun hnot
  · exact iff_of_true rfl h

theorem isExact_outside (hlocal : m.localBase ≤ p → m.local_pages * PAGE_SIZE ≤ INT_MAX)
    (hremote : m.remoteBase ≤ p → m.remote_pages * PAGE_SIZE ≤ INT_MAX)
    (hend : p ≠ m.localBase + m.local_pages * PAGE_SIZE) (hend' : p ≠ m.remoteBase + m.remote_pages * PAGE_SIZE)
    (hnot : ¬ m.InLocal p) (hnot' : ¬ m.InRemote p) : m.IsExact p := by
  have hwithin := within_local hlocal hend
  rw [decide_eq_false hnot] at hwithin
  have hwithin' := within_remote hremote hend'
  rw [decide_eq_false hnot'] at hwithin'
  have haddr : m.ptr2Addr p = .error .fatal := by
    rw [ptr2Addr, hwithin, ok_bind, if_neg nofun, hwithin', ok_bind, if_neg nofun]
  refine ⟨fun hin => (hin.elim hnot hnot').elim, fun _ => haddr, ?_, .nothing, ?_, ?_, ?_⟩
  · intro addr haddr'
    rw [haddr] at haddr'
    cases haddr'
  · rw [free, hwithin, ok_bind, if_neg nofun, hwithin', ok_bind, if_neg nofun]
    rfl
  · exact iff_of_false nofun hnot
  · exact iff_of_false nofun hnot'

theorem IsExact.local_size (h : m.IsExact p) (hle : m.localBase ≤ p) :
    m.local_pages * PAGE_SIZE ≤ INT_MAX := by
  by_contra hgt
  obtain ⟨callee, hfree, -⟩ := h.frees
  rw [free, within_overflow hle hgt] at hfree
  cases hfree

theorem IsExact.ne_local_end (h : m.IsExact p) : p ≠ m.localBase + m.local_pages * PAGE_SIZE := by
  rintro rfl
  have hwithin : within m.localBase m.local_pages (m.localBase + m.local_pages * PAGE_SIZE) = _ :=
    within_eq h.local_size
  rw [decide_eq_true ⟨Nat.le_add_right .., Nat.le_refl _⟩] at hwithin
  obtain ⟨callee, hfree, hlocal, -⟩ := h.frees
  rw [free, hwithin, ok_bind, if_pos rfl] at hfree
  cases hfree
  exact Nat.lt_irrefl _ (hlocal.1 rfl).2

theorem IsExact.remote_size (h : m.IsExact p) (hnot : ¬ m.InLocal p) (hle : m.remoteBase ≤ p) :
    m.remote_pages * PAGE_SIZE ≤ INT_MAX := by
  by_contra hgt
  have hwithin := within_local h.local_size h.ne_local_end
  rw [decide_eq_false hnot] at hwithin
  obtain ⟨callee, hfree, -⟩ := h.frees
  rw [free, hwithin, ok_bind, if_neg nofun, within_overflow hle hgt] at hfree
  cases hfree

theorem IsExact.inLocal_of_remote_end (h : m.IsExact p)
    (hend : p = m.remoteBase + m.remote_pages * PAGE_SIZE) : m.InLocal p := by
  by_contra hnot
  have hle : m.remoteBase ≤ p := by omega
  have hwithin := within_local h.local_size h.ne_local_end
  rw [decide_eq_false hnot] at hwithin
  have hwithin' := within_eq (h.remote_size hnot)
  rw [decide_eq_true ⟨hle, Nat.le_of_eq hend⟩] at hwithin'
  obtain ⟨callee, hfree, -, hremote⟩ := h.frees
  rw [free, hwithin, ok_bind, if_neg nofun, hwithin', ok_bind, if_pos rfl] at hfree
  cases hfree
  exact Nat.ne_of_lt (hremote.1 rfl).2 hend

end

/-- The functions are exact for a pointer just if it is not the end of the local mapping, nor, unless it
is into the local one, that of the remote mapping, and the sizes are `int`s. -/
theorem translation_exact_iff (m : Mappings) (p : Nat) :
    m.IsExact p ↔ m.IntSizes p ∧ p ≠ m.localBase + m.local_pages * PAGE_SIZE ∧
      (p = m.remoteBase + m.remote_pages * PAGE_SIZE → m.InLocal p) := by
  constructor
  · intro h
    exact ⟨⟨h.local_size, h.remote_size⟩, h.ne_local_end, h.inLocal_of_remote_end⟩
  · rintro ⟨⟨hlocal, hremote⟩, hend, hend'⟩
    by_cases hin : m.InLocal p
    · exact hin.isExact (hlocal hin.1)
    · by_cases hin' : m.InRemote p
      · exact hin'.isExact hlocal hend (hremote hin hin'.1)
      · exact isExact_outside hlocal (hremote hin) hend (fun heq => hin (hend' heq)) hin hin'

def adjacent : Mappings :=
  ⟨false, 0, 21, by decide, by decide, 16777216, 369098752, by decide⟩

/-- The first byte of the remote mapping is freed as one of the local mapping. -/
theorem translation_not_exact : ¬ adjacent.IsExact 369098752 := by
  intro h
  exact h.ne_local_end rfl

end Mappings

end SNet.Distrib.SccAddr
