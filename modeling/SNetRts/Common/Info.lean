import SNetRts.Lib.Run
import Mathlib.Data.List.Nodup
import Mathlib.Data.List.Perm.Subperm
import Mathlib.Logic.Function.Basic

/-!
# Info structures

`common/info.c`. An info structure is a list of cells that ends with a sentinel, a cell with the tag -1. All
infos are in one memory. The data of a tag is a number; where `SNetInfoSetTag` frees it, it is an address, and
the blocks that are allocated there are part of the memory. What the rest of the program does with those
blocks is an operation of its own. Addresses of cells are not used again.
-/

namespace SNet.Info

open Function (update_of_ne update_self)

open Lib List

variable {F : Type}

/-- `struct snet_info` -/
structure Cell (F : Type) where
  tag : Int
  data : Nat
  copyFun : Option F
  next : Option Nat
deriving DecidableEq

structure Memory (F : Type) where
  cells : Nat → Option (Cell F)
  /-- The next cell that is allocated. -/
  fresh : Nat
  /-- The blocks of data that are allocated. -/
  live : Nat → Bool

def Cell.sentinel : Cell F := ⟨-1, 0, none, none⟩

namespace Memory

def empty (live : Nat → Bool) : Memory F := ⟨fun _ => none, 0, live⟩

def write (m : Memory F) (info : Nat) (cell : Cell F) : Memory F :=
  { m with cells := Function.update m.cells info (some cell) }

/-- `SNetInfoInit` -/
def init (m : Memory F) : Nat × Memory F :=
  (m.fresh, { m with cells := Function.update m.cells m.fresh (some .sentinel), fresh := m.fresh + 1 })

/-- `SNetMemFree` of data: of a pointer that is not `NULL` there is a block. -/
def free (m : Memory F) (data : Nat) : Option (Memory F) :=
  if data = 0 then some m
  else if m.live data then some { m with live := Function.update m.live data false }
  else none

def seek (cells : Nat → Option (Cell F)) (tag : Int) : Nat → Nat → Option Nat
  | 0, _ => none
  | fuel + 1, info => do
    let cell ← cells info
    if cell.tag ≠ tag ∧ cell.tag ≠ -1 then
      let next ← cell.next
      seek cells tag fuel next
    else some info

/-- The cell in front of the first one with the tag that is not the first cell, or else the sentinel. -/
def seekBefore (cells : Nat → Option (Cell F)) (tag : Int) : Nat → Nat → Option Nat
  | 0, _ => none
  | fuel + 1, info => do
    let cell ← cells info
    match cell.next with
    | none => some info
    | some next =>
      let nextCell ← cells next
      if nextCell.tag ≠ tag then seekBefore cells tag fuel next else some info

/-- `SNetInfoSetTag` -/
def setTag (m : Memory F) (info : Nat) (tag : Int) (data : Nat) (copyFun : Option F) : Option (Memory F) := do
  let info ← seek m.cells tag (m.fresh + 1) info
  let cell ← m.cells info
  if cell.tag = tag then
    let m ← if copyFun.isSome then m.free cell.data else some m
    return m.write info { cell with data, copyFun }
  else if cell.tag = -1 then
    let (next, m) := m.init
    return m.write info { tag, data, copyFun, next := some next }
  else return m

/-- `SNetInfoDelTag` -/
def delTag (m : Memory F) (info : Nat) (tag : Int) : Option (Nat × Memory F) := do
  let info ← seekBefore m.cells tag (m.fresh + 1) info
  let cell ← m.cells info
  let tmp ← cell.next
  let tmpCell ← m.cells tmp
  let m := m.write info { cell with next := tmpCell.next }
  return (tmpCell.data, { m with cells := Function.update m.cells tmp none })

/-- `SNetInfoGetTag` -/
def getTag (m : Memory F) (info : Nat) (tag : Int) : Option Nat := do
  let info ← seek m.cells tag (m.fresh + 1) info
  let cell ← m.cells info
  if cell.tag = tag then some cell.data else none

section Copy

variable (copyData : F → Nat → Nat)

def copied (copyFun : Option F) (data : Nat) : Nat :=
  match copyFun with
  | some f => copyData f data
  | none => data

/-- The loop of `SNetInfoCopy`. -/
def copyCells : Nat → Memory F → Nat → Nat → Option (Memory F)
  | 0, _, _, _ => none
  | fuel + 1, m, source, target => do
    let cell ← m.cells source
    let data := copied copyData cell.copyFun cell.data
    match cell.next with
    | none => return m.write target { cell with data }
    | some next =>
      let (new, m) := m.init
      copyCells fuel (m.write target { cell with data, next := some new }) next new

/-- `SNetInfoCopy` -/
def copy (m : Memory F) (info : Nat) : Option (Nat × Memory F) := do
  let (result, m') := m.init
  let m' ← copyCells copyData (m.fresh + 1) m' info result
  return (result, m')

end Copy

end Memory

/-! ## What they are for -/

/-- An operation. An info is named by its address. -/
inductive Op (F : Type) where
  | init
  | setTag (info : Nat) (tag : Int) (data : Nat) (copyFun : Option F)
  | delTag (info : Nat) (tag : Int)
  | getTag (info : Nat) (tag : Int)
  | copy (info : Nat)
  /-- What the rest of the program does with the blocks of data. -/
  | others (live : Nat → Bool)

inductive Result where
  | unit
  | data (data : Nat)
  | info (info : Nat)
deriving DecidableEq

abbrev Bindings (F : Type) := Int → Option (Nat × Option F)

abbrev Maps (F : Type) := Nat → Option (Bindings F)

variable (copyData : F → Nat → Nat)

def exec (m : Memory F) : Op F → Option (Result × Memory F)
  | .init => some (.info m.init.1, m.init.2)
  | .setTag info tag data copyFun => (m.setTag info tag data copyFun).map (.unit, ·)
  | .delTag info tag => (m.delTag info tag).map fun p => (.data p.1, p.2)
  | .getTag info tag => (m.getTag info tag).map (.data ·, m)
  | .copy info => (m.copy copyData info).map fun p => (.info p.1, p.2)
  | .others live => some (.unit, { m with live })

/-- What the caller of an operation provides for: the info is there, tags are no negative numbers, and those that
are read or deleted are present. -/
def Asserted (maps : Maps F) : Op F → Prop
  | .init | .others _ => True
  | .setTag info tag _ _ => maps info ≠ none ∧ 0 ≤ tag
  | .delTag info tag | .getTag info tag => 0 ≤ tag ∧ ∃ b, maps info = some b ∧ b tag ≠ none
  | .copy info => maps info ≠ none

def Agrees (maps : Maps F) (r : Result) (maps' : Maps F) : Op F → Prop
  | .init => ∃ new, r = .info new ∧ maps new = none ∧ maps' = Function.update maps new (some fun _ => none)
  | .setTag info tag data copyFun => r = .unit ∧ ∃ b, maps info = some b ∧
    maps' = Function.update maps info (some (Function.update b tag (some (data, copyFun))))
  | .delTag info tag => ∃ b data copyFun, maps info = some b ∧ b tag = some (data, copyFun) ∧ r = .data data ∧
    maps' = Function.update maps info (some (Function.update b tag none))
  | .getTag info tag => ∃ b data copyFun, maps info = some b ∧ b tag = some (data, copyFun) ∧ r = .data data ∧
    maps' = maps
  | .copy info => ∃ b new, maps info = some b ∧ r = .info new ∧ maps new = none ∧
    maps' = Function.update maps new
      (some fun tag => (b tag).map fun p => (Memory.copied copyData p.2 p.1, p.2))
  | .others _ => r = .unit ∧ maps' = maps

/-- From here on every operation, as long as its caller provides for what it needs, does what it does on the
maps. -/
def AreMaps (m : Memory F) (maps : Maps F) : List (Op F) → Prop
  | [] => True
  | op :: ops => Asserted maps op → ∃ r m' maps', exec copyData m op = some (r, m') ∧
    Agrees copyData maps r maps' op ∧ AreMaps m' maps' ops

/-- A tag that is deleted is not that of the first cell. Data that is overwritten together with a copy function is
`NULL`, or a block that is allocated. -/
def Ok (m : Memory F) (maps : Maps F) : Op F → Prop
  | .delTag info tag => ∀ cell, m.cells info = some cell → cell.tag ≠ tag
  | .setTag info tag _ copyFun => copyFun.isSome → ∀ b data old, maps info = some b → b tag = some (data, old) →
    data = 0 ∨ m.live data
  | .init | .getTag _ _ | .copy _ | .others _ => True

/-- The operations of the run meet the condition, as long as their callers provide for what they need. -/
def RunOk (m : Memory F) (maps : Maps F) : List (Op F) → Prop
  | [] => True
  | op :: ops => Asserted maps op → Ok m maps op ∧ ∀ r m' maps', exec copyData m op = some (r, m') →
    Agrees copyData maps r maps' op → RunOk m' maps' ops

/-! ## Cells in a chain -/

/-- A cell that is not the sentinel, with its address. -/
structure Entry (F : Type) where
  addr : Nat
  tag : Int
  data : Nat
  copyFun : Option F

/-- From the address on there are the cells of the list, and then the sentinel. -/
def Chain (cells : Nat → Option (Cell F)) : Nat → List (Entry F) → Nat → Prop
  | p, [], last => p = last ∧ cells last = some .sentinel
  | p, e :: es, last => p = e.addr ∧
    ∃ next, cells e.addr = some ⟨e.tag, e.data, e.copyFun, some next⟩ ∧ Chain cells next es last

def addrs (es : List (Entry F)) (last : Nat) : List Nat := es.map Entry.addr ++ [last]

def bindings (es : List (Entry F)) : Bindings F := fun tag =>
  (es.find? fun e => e.tag = tag).map fun e => (e.data, e.copyFun)

section Chains

variable {cells cells' : Nat → Option (Cell F)} {p last fuel : Nat} {es pre post : List (Entry F)} {e e' : Entry F}
  {tag : Int}

theorem Chain.mem_addrs (h : Chain cells p es last) : p ∈ addrs es last := by
  cases es with
  | nil => exact mem_singleton.2 h.1
  | cons e es =>
    rw [h.1]
    exact mem_cons_self

theorem Chain.congr (h : Chain cells p es last) (heq : ∀ a ∈ addrs es last, cells' a = cells a) :
    Chain cells' p es last := by
  induction es generalizing p with
  | nil => exact ⟨h.1, (heq last (mem_singleton_self last)).trans h.2⟩
  | cons e es ih =>
    obtain ⟨hp, next, hcell, htail⟩ := h
    exact ⟨hp, next, (heq e.addr mem_cons_self).trans hcell,
      ih htail fun a ha => heq a (mem_cons_of_mem _ ha)⟩

theorem Chain.head (h : Chain cells p es last) :
    ∃ cell, cells p = some cell ∧ cell.tag = (es.head?.map Entry.tag).getD (-1) := by
  cases es with
  | nil => exact ⟨.sentinel, h.1 ▸ h.2, rfl⟩
  | cons e es =>
    obtain ⟨hp, next, hcell, -⟩ := h
    exact ⟨_, hp ▸ hcell, rfl⟩

theorem Chain.sentinel (h : Chain cells p es last) : cells last = some .sentinel := by
  induction es generalizing p with
  | nil => exact h.2
  | cons e es ih =>
    obtain ⟨-, next, -, htail⟩ := h
    exact ih htail

theorem Chain.append (h : Chain cells p (pre ++ post) last) : ∃ q, Chain cells q post last := by
  induction pre generalizing p with
  | nil => exact ⟨p, h⟩
  | cons e pre ih =>
    obtain ⟨-, next, -, htail⟩ := h
    exact ih htail

theorem Chain.cell (h : Chain cells p (pre ++ e :: post) last) :
    ∃ next, cells e.addr = some ⟨e.tag, e.data, e.copyFun, some next⟩ ∧ Chain cells next post last := by
  obtain ⟨q, -, hcell⟩ := h.append
  exact hcell

theorem Chain.exchange {es' : List (Entry F)} {last' : Nat} (h : Chain cells p (pre ++ es) last)
    (heq : ∀ e ∈ pre, cells' e.addr = cells e.addr)
    (htail : ∀ q, Chain cells q es last → Chain cells' q es' last') : Chain cells' p (pre ++ es') last' := by
  induction pre generalizing p with
  | nil => exact htail p h
  | cons e pre ih =>
    obtain ⟨hp, next, hcell, hchain⟩ := h
    exact ⟨hp, next, (heq e mem_cons_self).trans hcell,
      ih hchain fun e' he => heq e' (mem_cons_of_mem e he)⟩

theorem seek_found (h : Chain cells p (pre ++ e :: post) last)
    (hpre : ∀ x ∈ pre, x.tag ≠ e.tag ∧ x.tag ≠ -1) (hfuel : pre.length < fuel) :
    Memory.seek cells e.tag fuel p = some e.addr := by
  induction pre generalizing p fuel with
  | nil =>
    obtain ⟨rfl, next, hcell, -⟩ := h
    cases fuel with
    | zero => exact absurd hfuel (Nat.not_lt_zero _)
    | succ fuel => simp [Memory.seek, hcell]
  | cons x pre ih =>
    obtain ⟨rfl, next, hcell, htail⟩ := h
    cases fuel with
    | zero => exact absurd hfuel (Nat.not_lt_zero _)
    | succ fuel =>
      have hrest := ih htail (fun y hy => hpre y (mem_cons_of_mem x hy)) (Nat.lt_of_succ_lt_succ hfuel)
      simpa [Memory.seek, hcell, hpre x mem_cons_self] using hrest

theorem seek_absent (h : Chain cells p es last) (hes : ∀ x ∈ es, x.tag ≠ tag ∧ x.tag ≠ -1)
    (hfuel : es.length < fuel) : Memory.seek cells tag fuel p = some last := by
  induction es generalizing p fuel with
  | nil =>
    obtain ⟨rfl, hcell⟩ := h
    cases fuel with
    | zero => exact absurd hfuel (Nat.not_lt_zero _)
    | succ fuel => simp [Memory.seek, hcell, Cell.sentinel]
  | cons x es ih =>
    obtain ⟨rfl, next, hcell, htail⟩ := h
    cases fuel with
    | zero => exact absurd hfuel (Nat.not_lt_zero _)
    | succ fuel =>
      have hrest := ih htail (fun y hy => hes y (mem_cons_of_mem x hy)) (Nat.lt_of_succ_lt_succ hfuel)
      simpa [Memory.seek, hcell, hes x mem_cons_self] using hrest

theorem seekBefore_found (h : Chain cells p (pre ++ e :: e' :: post) last)
    (hpre : ∀ x ∈ pre ++ [e], x.tag ≠ e'.tag) (hfuel : pre.length < fuel) :
    Memory.seekBefore cells e'.tag fuel p = some e.addr := by
  induction pre generalizing p fuel with
  | nil =>
    obtain ⟨rfl, next, hcell, rfl, next', hcell', -⟩ := h
    cases fuel with
    | zero => exact absurd hfuel (Nat.not_lt_zero _)
    | succ fuel => simp [Memory.seekBefore, hcell, hcell']
  | cons x pre ih =>
    obtain ⟨rfl, next, hcell, htail⟩ := h
    cases fuel with
    | zero => exact absurd hfuel (Nat.not_lt_zero _)
    | succ fuel =>
      have hrest := ih htail (fun y hy => hpre y (mem_cons_of_mem x hy)) (Nat.lt_of_succ_lt_succ hfuel)
      obtain ⟨cell, hnext, htag⟩ := htail.head
      have hne : cell.tag ≠ e'.tag := by
        rw [htag]
        cases pre with
        | nil => exact hpre e (mem_cons_of_mem x mem_cons_self)
        | cons y pre => exact hpre y (mem_cons_of_mem x mem_cons_self)
      simpa [Memory.seekBefore, hcell, hnext, hne] using hrest

theorem seekBefore_absent (h : Chain cells p es last) (hes : ∀ x ∈ es.tail, x.tag ≠ tag) (htag : tag ≠ -1)
    (hfuel : es.length < fuel) : Memory.seekBefore cells tag fuel p = some last := by
  induction es generalizing p fuel with
  | nil =>
    obtain ⟨rfl, hcell⟩ := h
    cases fuel with
    | zero => exact absurd hfuel (Nat.not_lt_zero _)
    | succ fuel => simp [Memory.seekBefore, hcell, Cell.sentinel]
  | cons x es ih =>
    obtain ⟨rfl, next, hcell, htail⟩ := h
    cases fuel with
    | zero => exact absurd hfuel (Nat.not_lt_zero _)
    | succ fuel =>
      have hrest := ih htail (fun y hy => hes y (mem_of_mem_tail hy)) (Nat.lt_of_succ_lt_succ hfuel)
      obtain ⟨cell, hnext, hcelltag⟩ := htail.head
      have hne : cell.tag ≠ tag := by
        rw [hcelltag]
        cases es with
        | nil => exact htag.symm
        | cons y es => exact hes y mem_cons_self
      simpa [Memory.seekBefore, hcell, hnext, hne] using hrest

end Chains

/-! ## Bindings -/

section

variable {es pre post : List (Entry F)} {e : Entry F} {tag : Int}

theorem bindings_eq_none : bindings es tag = none ↔ ∀ e ∈ es, e.tag ≠ tag := by
  rw [bindings, Option.map_eq_none_iff, find?_eq_none]
  simp

theorem exists_entry (h : bindings es tag ≠ none) : ∃ pre e post, es = pre ++ e :: post ∧ e.tag = tag := by
  rw [Ne, bindings_eq_none] at h
  push Not at h
  obtain ⟨e, he, htag⟩ := h
  obtain ⟨pre, post, rfl⟩ := append_of_mem he
  exact ⟨pre, e, post, rfl, htag⟩

theorem tags_middle (h : ((pre ++ e :: post).map Entry.tag).Nodup) :
    ((pre ++ post).map Entry.tag).Nodup ∧ ∀ x ∈ pre ++ post, x.tag ≠ e.tag := by
  have hperm : ((pre ++ e :: post).map Entry.tag).Perm ((e :: (pre ++ post)).map Entry.tag) :=
    perm_middle.map _
  rw [hperm.nodup_iff, map_cons, nodup_cons] at h
  exact ⟨h.2, fun x hx heq => h.1 (heq ▸ mem_map_of_mem hx)⟩

theorem bindings_middle (h : ∀ x ∈ pre ++ post, x.tag ≠ e.tag) :
    bindings (pre ++ e :: post) = Function.update (bindings (pre ++ post)) e.tag (some (e.data, e.copyFun)) := by
  funext tag
  by_cases htag : tag = e.tag
  · subst htag
    have hpre : pre.find? (fun x => x.tag = e.tag) = none := by
      rw [find?_eq_none]
      intro x hx
      simpa using h x (mem_append_left post hx)
    rw [update_self, bindings, find?_append, hpre, Option.none_or, find?_cons_of_pos (by simp)]
    rfl
  · have hne : e.tag ≠ tag := fun h => htag h.symm
    rw [update_of_ne htag, bindings, bindings, find?_append, find?_append,
      find?_cons_of_neg (by simpa using hne)]

end

/-! ## All infos -/

/-- The entries of an info and the address of its sentinel. -/
structure Layout (F : Type) where
  entries : List (Entry F)
  last : Nat

namespace Layout

def addrs (l : Layout F) : List Nat := Info.addrs l.entries l.last

/-- No address and no tag is there twice. -/
structure Proper (l : Layout F) : Prop where
  addrs : l.addrs.Nodup
  tags : (l.entries.map Entry.tag).Nodup
  nonneg : ∀ e ∈ l.entries, 0 ≤ e.tag

end Layout

/-- Each info is a chain of its own. -/
structure Sound (m : Memory F) (infos : Nat → Option (Layout F)) : Prop where
  chain : ∀ {p l}, infos p = some l → Chain m.cells p l.entries l.last
  proper : ∀ {p l}, infos p = some l → l.Proper
  below : ∀ {p l a}, infos p = some l → a ∈ l.addrs → a < m.fresh
  apart : ∀ {p q l l' a}, infos p = some l → infos q = some l' → a ∈ l.addrs → a ∈ l'.addrs → p = q

def mapsOf (infos : Nat → Option (Layout F)) : Maps F := fun p => (infos p).map fun l => bindings l.entries

section

variable {m m' : Memory F} {infos : Nat → Option (Layout F)} {p : Nat} {l l' : Layout F}

theorem mapsOf_eq_some {b : Bindings F} (h : mapsOf infos p = some b) :
    ∃ l, infos p = some l ∧ b = bindings l.entries := by
  obtain ⟨l, hl, rfl⟩ := Option.map_eq_some_iff.1 h
  exact ⟨l, hl, rfl⟩

theorem mapsOf_ne_none (h : mapsOf infos p ≠ none) : ∃ l, infos p = some l := by
  obtain ⟨b, hb⟩ := Option.ne_none_iff_exists'.1 h
  obtain ⟨l, hl, -⟩ := mapsOf_eq_some hb
  exact ⟨l, hl⟩

theorem mapsOf_update (infos : Nat → Option (Layout F)) (p : Nat) (l : Layout F) :
    mapsOf (Function.update infos p (some l)) = Function.update (mapsOf infos) p (some (bindings l.entries)) := by
  funext q
  by_cases hq : q = p
  · subst hq
    rw [mapsOf, update_self, update_self]
    rfl
  · rw [mapsOf, update_of_ne hq, update_of_ne hq]
    rfl

theorem Sound.update (h : Sound m infos) (hfresh : m.fresh ≤ m'.fresh)
    (hcells : ∀ a, a < m.fresh → (∀ l, infos p = some l → a ∉ l.addrs) → m'.cells a = m.cells a)
    (hchain : Chain m'.cells p l'.entries l'.last) (hproper : l'.Proper)
    (haddrs : ∀ a ∈ l'.addrs, a < m'.fresh ∧ (m.fresh ≤ a ∨ ∃ l, infos p = some l ∧ a ∈ l.addrs)) :
    Sound m' (Function.update infos p (some l')) := by
  have hother : ∀ {q l}, q ≠ p → infos q = some l → ∀ a ∈ l.addrs,
      a < m.fresh ∧ ∀ l', infos p = some l' → a ∉ l'.addrs := fun hq hl a ha =>
    ⟨h.below hl ha, fun l' hl' ha' => hq (h.apart hl hl' ha ha')⟩
  have hnew : ∀ {q l}, q ≠ p → infos q = some l → ∀ a ∈ l.addrs, a ∉ l'.addrs := by
    intro q l hq hl a ha hmem
    obtain ⟨hlt, hnot⟩ := hother hq hl a ha
    obtain ⟨-, hle | ⟨l'', hl'', hin⟩⟩ := haddrs a hmem
    · exact absurd hlt (Nat.not_lt.2 hle)
    · exact hnot l'' hl'' hin
  refine ⟨?_, ?_, ?_, ?_⟩
  · intro q l hl
    by_cases hq : q = p
    · subst hq
      rw [update_self] at hl
      cases hl
      exact hchain
    · rw [update_of_ne hq] at hl
      exact (h.chain hl).congr fun a ha => hcells a (hother hq hl a ha).1 (hother hq hl a ha).2
  · intro q l hl
    by_cases hq : q = p
    · subst hq
      rw [update_self] at hl
      cases hl
      exact hproper
    · rw [update_of_ne hq] at hl
      exact h.proper hl
  · intro q l a hl ha
    by_cases hq : q = p
    · subst hq
      rw [update_self] at hl
      cases hl
      exact (haddrs a ha).1
    · rw [update_of_ne hq] at hl
      exact Nat.lt_of_lt_of_le (h.below hl ha) hfresh
  · intro q r l₁ l₂ a h₁ h₂ ha₁ ha₂
    by_cases hq : q = p
    · by_cases hr : r = p
      · rw [hq, hr]
      · subst hq
        rw [update_self] at h₁
        rw [update_of_ne hr] at h₂
        cases h₁
        exact absurd ha₁ (hnew hr h₂ a ha₂)
    · rw [update_of_ne hq] at h₁
      by_cases hr : r = p
      · subst hr
        rw [update_self] at h₂
        cases h₂
        exact absurd ha₂ (hnew hq h₁ a ha₁)
      · rw [update_of_ne hr] at h₂
        exact h.apart h₁ h₂ ha₁ ha₂

theorem Sound.length_lt (h : Sound m infos) (hl : infos p = some l) : l.entries.length < m.fresh := by
  have hlt : l.addrs ⊆ List.range m.fresh := fun a ha => mem_range.2 (h.below hl ha)
  have hle := ((h.proper hl).addrs.subperm hlt).length_le
  rw [length_range, Layout.addrs, addrs, length_append, length_map] at hle
  exact hle

theorem Sound.notMem_fresh (h : Sound m infos) : infos m.fresh = none := by
  cases hl : infos m.fresh with
  | none => rfl
  | some l => exact absurd (h.below hl (h.chain hl).mem_addrs) (Nat.lt_irrefl _)

theorem Sound.tag_ne (h : Sound m infos) (hl : infos p = some l) : ∀ e ∈ l.entries, e.tag ≠ -1 := by
  intro e he heq
  have hnonneg := (h.proper hl).nonneg e he
  rw [heq] at hnonneg
  exact absurd hnonneg (by decide)

end

/-! ## The operations -/

section

variable {m : Memory F} {infos : Nat → Option (Layout F)} {p last : Nat} {l : Layout F} {pre post : List (Entry F)}
  {e : Entry F} {tag : Int} {data : Nat} {copyFun : Option F}

theorem addrs_middle (h : (addrs (pre ++ e :: post) last).Nodup) :
    (addrs (pre ++ post) last).Nodup ∧ (∀ x ∈ pre, x.addr ≠ e.addr) ∧ e.addr ∉ addrs post last := by
  have heq : addrs (pre ++ e :: post) last = pre.map Entry.addr ++ e.addr :: addrs post last := by
    rw [addrs, addrs, map_append, map_cons, append_assoc, cons_append]
  have hrest : addrs (pre ++ post) last = pre.map Entry.addr ++ addrs post last := by
    rw [addrs, addrs, map_append, append_assoc]
  rw [heq, nodup_middle, nodup_cons, mem_append] at h
  refine ⟨hrest ▸ h.2, fun x hx hxe => h.1 (.inl (hxe ▸ mem_map_of_mem hx)), fun hmem => h.1 (.inr hmem)⟩

theorem mem_addrs_middle : e.addr ∈ addrs (pre ++ e :: post) last :=
  mem_append_left _ (mem_map_of_mem (mem_append_right pre mem_cons_self))

theorem cells_of_not {cells : Nat → Option (Cell F)} {c : Option (Cell F)} {a b : Nat} (hl : infos p = some l)
    (hb : b ∈ l.addrs) (ha : ∀ l, infos p = some l → a ∉ l.addrs) : Function.update cells b c a = cells a := by
  refine update_of_ne (a := a) ?_ c cells
  rintro rfl
  exact ha l hl hb

theorem Sound.init (h : Sound m infos) :
    Sound m.init.2 (Function.update infos m.init.1 (some ⟨[], m.init.1⟩)) := by
  refine h.update (Nat.le_succ _) ?_ ⟨rfl, update_self ..⟩ ⟨nodup_singleton _, nodup_nil, nofun⟩ ?_
  · intro a ha _
    exact update_of_ne (Nat.ne_of_lt ha) _ _
  · intro a ha
    rw [mem_singleton.1 ha]
    exact ⟨Nat.lt_succ_self _, .inl (Nat.le_refl _)⟩

theorem Sound.seek_found (h : Sound m infos) (hl : infos p = some l) (hes : l.entries = pre ++ e :: post) :
    Memory.seek m.cells e.tag (m.fresh + 1) p = some e.addr := by
  have hchain := h.chain hl
  have htags := (h.proper hl).tags
  have hlen := h.length_lt hl
  have hne := h.tag_ne hl
  rw [hes] at hchain htags hlen hne
  refine Info.seek_found hchain (fun x hx => ⟨?_, hne x (mem_append_left _ hx)⟩) ?_
  · exact (tags_middle htags).2 x (mem_append_left post hx)
  · rw [length_append] at hlen
    omega

theorem Sound.seek_absent (h : Sound m infos) (hl : infos p = some l) (htag : bindings l.entries tag = none) :
    Memory.seek m.cells tag (m.fresh + 1) p = some l.last := by
  refine Info.seek_absent (h.chain hl) (fun x hx => ⟨bindings_eq_none.1 htag x hx, h.tag_ne hl x hx⟩) ?_
  exact Nat.lt_succ_of_lt (h.length_lt hl)

theorem Sound.cell (h : Sound m infos) (hl : infos p = some l) (hes : l.entries = pre ++ e :: post) :
    ∃ next, m.cells e.addr = some ⟨e.tag, e.data, e.copyFun, some next⟩ ∧ Chain m.cells next post l.last := by
  have hchain := h.chain hl
  rw [hes] at hchain
  exact hchain.cell

theorem getTag_eq (h : Sound m infos) (hl : infos p = some l) (hes : l.entries = pre ++ e :: post) :
    m.getTag p e.tag = some e.data := by
  obtain ⟨next, hcell, -⟩ := h.cell hl hes
  simp [Memory.getTag, h.seek_found hl hes, hcell]

theorem free_eq (m : Memory F) {data : Nat} (hok : data = 0 ∨ m.live data) :
    ∃ live, m.free data = some { m with live } := by
  unfold Memory.free
  by_cases hnull : data = 0
  · exact ⟨m.live, if_pos hnull⟩
  · have hlive : m.live data := hok.resolve_left hnull
    exact ⟨Function.update m.live data false, by rw [if_neg hnull, if_pos hlive]⟩

theorem setTag_write {next : Nat} (h : Sound m infos) (hl : infos p = some l) (hes : l.entries = pre ++ e :: post)
    (hcell : m.cells e.addr = some ⟨e.tag, e.data, e.copyFun, some next⟩) :
    m.setTag p e.tag data copyFun = (if copyFun.isSome then m.free e.data else some m).bind fun m =>
      some (m.write e.addr ⟨e.tag, data, copyFun, some next⟩) := by
  cases copyFun with
  | none => simp [Memory.setTag, h.seek_found hl hes, hcell]
  | some f => simp [Memory.setTag, h.seek_found hl hes, hcell]

theorem setTag_present (data : Nat) (copyFun : Option F) (h : Sound m infos) (hl : infos p = some l)
    (hes : l.entries = pre ++ e :: post)
    (hok : copyFun.isSome → e.data = 0 ∨ m.live e.data) :
    ∃ m', m.setTag p e.tag data copyFun = some m' ∧
      Sound m' (Function.update infos p (some ⟨pre ++ { e with data, copyFun } :: post, l.last⟩)) := by
  obtain ⟨next, hcell, hpost⟩ := h.cell hl hes
  have hfree : ∃ live, (if copyFun.isSome then m.free e.data else some m) = some { m with live } := by
    by_cases hsome : copyFun.isSome
    · rw [if_pos hsome]
      exact free_eq m (hok hsome)
    · rw [if_neg hsome]
      exact ⟨m.live, rfl⟩
  obtain ⟨live, hfree⟩ := hfree
  refine ⟨Memory.write { m with live } e.addr ⟨e.tag, data, copyFun, some next⟩, ?_, ?_⟩
  · rw [setTag_write h hl hes hcell, hfree]
    rfl
  · have hproper := h.proper hl
    have hchain := h.chain hl
    have hin : e.addr ∈ l.addrs := by
      rw [Layout.addrs, hes]
      exact mem_addrs_middle
    have haddrs : addrs (pre ++ { e with data, copyFun } :: post) l.last = l.addrs := by
      rw [Layout.addrs, hes, addrs, addrs, map_append, map_append]
      rfl
    have hnodup := hproper.addrs
    rw [Layout.addrs, hes] at hnodup
    obtain ⟨-, hpre, hnot⟩ := addrs_middle hnodup
    refine h.update (Nat.le_refl _) (fun a _ ha => cells_of_not hl hin ha) ?_ ⟨?_, ?_, ?_⟩ ?_
    · rw [hes] at hchain
      refine hchain.exchange (fun x hx => update_of_ne (hpre x hx) _ _) fun q hq => ?_
      refine ⟨hq.1, next, update_self .., hpost.congr fun a ha => update_of_ne ?_ _ _⟩
      rintro rfl
      exact hnot ha
    · rw [Layout.addrs, haddrs]
      exact hproper.addrs
    · have htags := hproper.tags
      rw [hes] at htags
      simpa using htags
    · have hnonneg := hproper.nonneg
      rw [hes] at hnonneg
      intro x hx
      rcases mem_append.1 hx with hx | hx
      · exact hnonneg x (mem_append_left _ hx)
      · rcases mem_cons.1 hx with rfl | hx
        · exact hnonneg e (mem_append_right _ mem_cons_self)
        · exact hnonneg x (mem_append_right _ (mem_cons_of_mem _ hx))
    · intro a ha
      rw [Layout.addrs, haddrs] at ha
      exact ⟨h.below hl ha, .inr ⟨l, hl, ha⟩⟩

theorem setTag_fault (h : Sound m infos) (hl : infos p = some l) (hes : l.entries = pre ++ e :: post)
    (hsome : copyFun.isSome) (hnot : ¬ (e.data = 0 ∨ m.live e.data)) : m.setTag p e.tag data copyFun = none := by
  obtain ⟨next, hcell, -⟩ := h.cell hl hes
  obtain ⟨hnull, hlive⟩ := not_or.1 hnot
  simp [Memory.setTag, h.seek_found hl hes, hcell, hsome, Memory.free, hnull, hlive]

theorem setTag_absent (data : Nat) (copyFun : Option F) (h : Sound m infos) (hl : infos p = some l) (htag : 0 ≤ tag)
    (habsent : bindings l.entries tag = none) :
    ∃ m', m.setTag p tag data copyFun = some m' ∧
      Sound m' (Function.update infos p (some ⟨l.entries ++ [⟨l.last, tag, data, copyFun⟩], m.fresh⟩)) := by
  have hlast := (h.chain hl).sentinel
  have hne : (-1 : Int) ≠ tag := by omega
  have hproper := h.proper hl
  have hmem : l.last ∈ l.addrs := mem_append_right _ (mem_singleton_self _)
  have hlt := h.below hl hmem
  have haddrs : addrs (l.entries ++ [⟨l.last, tag, data, copyFun⟩]) m.fresh = l.addrs ++ [m.fresh] := by
    rw [Layout.addrs, addrs, addrs, map_append]
    rfl
  refine ⟨m.init.2.write l.last ⟨tag, data, copyFun, some m.fresh⟩, ?_, ?_⟩
  · simp [Memory.setTag, h.seek_absent hl habsent, hlast, Cell.sentinel, hne, Memory.init]
  · refine h.update (Nat.le_succ _) ?_ ?_ ⟨?_, ?_, ?_⟩ ?_
    · intro a ha hnot
      rw [Memory.write]
      dsimp only
      rw [cells_of_not hl hmem hnot]
      exact update_of_ne (Nat.ne_of_lt ha) _ _
    · have hnodup := hproper.addrs
      rw [Layout.addrs, addrs, nodup_append_comm] at hnodup
      have hnot := (nodup_cons.1 hnodup).1
      have hchain := h.chain hl
      rw [← append_nil l.entries] at hchain
      refine hchain.exchange (fun x hx => ?_) fun q hq => ?_
      · have hin : x.addr ∈ l.addrs := mem_append_left _ (mem_map_of_mem hx)
        have hxne : x.addr ≠ l.last := fun heq => hnot (heq ▸ mem_map_of_mem hx)
        have hxlt := h.below hl hin
        rw [Memory.write]
        dsimp only
        rw [update_of_ne hxne]
        exact update_of_ne (Nat.ne_of_lt hxlt) _ _
      · refine ⟨hq.1, m.fresh, update_self .., rfl, ?_⟩
        rw [Memory.write]
        dsimp only
        rw [update_of_ne (Nat.ne_of_gt hlt)]
        exact update_self ..
    · rw [Layout.addrs, haddrs, nodup_append_comm]
      exact nodup_cons.2 ⟨fun hin => Nat.lt_irrefl _ (h.below hl hin), hproper.addrs⟩
    · rw [map_append, nodup_append_comm]
      refine nodup_cons.2 ⟨?_, hproper.tags⟩
      intro hin
      obtain ⟨x, hx, hxtag⟩ := List.mem_map.1 hin
      exact bindings_eq_none.1 habsent x hx hxtag
    · intro x hx
      rcases mem_append.1 hx with hx | hx
      · exact hproper.nonneg x hx
      · rw [mem_singleton.1 hx]
        exact htag
    · intro a ha
      rw [Layout.addrs, haddrs] at ha
      rcases mem_append.1 ha with ha | ha
      · exact ⟨Nat.lt_succ_of_lt (h.below hl ha), .inr ⟨l, hl, ha⟩⟩
      · rw [mem_singleton.1 ha]
        exact ⟨Nat.lt_succ_self _, .inl (Nat.le_refl _)⟩

theorem delTag_eq {d : Entry F} (h : Sound m infos) (hl : infos p = some l)
    (hes : l.entries = pre ++ d :: e :: post) :
    ∃ m', m.delTag p e.tag = some (e.data, m') ∧
      Sound m' (Function.update infos p (some ⟨pre ++ d :: post, l.last⟩)) := by
  have hes' : l.entries = (pre ++ [d]) ++ e :: post := by rw [hes, append_assoc, singleton_append]
  have hproper := h.proper hl
  have hchain := h.chain hl
  have hlen := h.length_lt hl
  have hnodup := hproper.addrs
  have htags := hproper.tags
  have hnonneg := hproper.nonneg
  obtain ⟨next, hcell, hnext⟩ := h.cell hl hes
  obtain ⟨rfl, next', hcell', hpost⟩ := hnext
  rw [Layout.addrs, hes'] at hnodup
  rw [hes'] at htags
  obtain ⟨hrest, hpre, hnot⟩ := addrs_middle hnodup
  have hne : d.addr ≠ e.addr := hpre d (mem_append_right _ (mem_singleton_self d))
  have hseek : Memory.seekBefore m.cells e.tag (m.fresh + 1) p = some d.addr := by
    rw [hes] at hchain hlen
    refine seekBefore_found hchain (fun x hx => (tags_middle htags).2 x (mem_append_left _ hx)) ?_
    rw [length_append] at hlen
    omega
  have hrest' := hrest
  rw [append_assoc, singleton_append] at hrest'
  obtain ⟨-, hpre', hnot'⟩ := addrs_middle hrest'
  refine ⟨⟨Function.update (Function.update m.cells d.addr (some ⟨d.tag, d.data, d.copyFun, some next'⟩)) e.addr none,
    m.fresh, m.live⟩, ?_, ?_⟩
  · simp [Memory.delTag, hseek, hcell, hcell', Memory.write]
  · refine h.update (Nat.le_refl _) ?_ ?_ ⟨hrest', ?_, ?_⟩ ?_
    · intro a ha hout
      have hd : d.addr ∈ l.addrs := by
        rw [Layout.addrs, hes]
        exact mem_addrs_middle
      have he : e.addr ∈ l.addrs := by
        rw [Layout.addrs, hes']
        exact mem_addrs_middle
      dsimp only
      rw [cells_of_not hl he hout, cells_of_not hl hd hout]
    · rw [hes] at hchain
      refine hchain.exchange (fun x hx => ?_) fun q hq => ⟨hq.1, next', ?_, ?_⟩
      · dsimp only
        rw [update_of_ne (hpre x (mem_append_left _ hx)), update_of_ne (hpre' x hx)]
      · dsimp only
        rw [update_of_ne hne, update_self]
      · refine hpost.congr fun a ha => ?_
        dsimp only
        rw [update_of_ne (a := a), update_of_ne (a := a)]
        · rintro rfl
          exact hnot' ha
        · rintro rfl
          exact hnot ha
    · have htags' := (tags_middle htags).1
      rwa [append_assoc, singleton_append] at htags'
    · intro x hx
      refine hnonneg x ?_
      rw [hes]
      simp only [mem_append, mem_cons] at hx ⊢
      rcases hx with hx | hx | hx
      · exact .inl hx
      · exact .inr (.inl hx)
      · exact .inr (.inr (.inr hx))
    · intro a ha
      have hin : a ∈ l.addrs := by
        rw [Layout.addrs, addrs, hes]
        rw [Layout.addrs, addrs] at ha
        simp only [map_append, map_cons, mem_append, mem_cons] at ha ⊢
        rcases ha with (ha | ha | ha) | ha
        · exact .inl (.inl ha)
        · exact .inl (.inr (.inl ha))
        · exact .inl (.inr (.inr (.inr ha)))
        · exact .inr ha
      exact ⟨h.below hl hin, .inr ⟨l, hl, hin⟩⟩

theorem delTag_first (h : Sound m infos) (hl : infos p = some l) (hes : l.entries = e :: post) :
    m.delTag p e.tag = none := by
  have htags := (h.proper hl).tags
  have hne := h.tag_ne hl e (by rw [hes]; exact mem_cons_self)
  rw [hes, map_cons, nodup_cons] at htags
  have hseek : Memory.seekBefore m.cells e.tag (m.fresh + 1) p = some l.last := by
    refine seekBefore_absent (h.chain hl) ?_ hne (Nat.lt_succ_of_lt (h.length_lt hl))
    rw [hes]
    intro x hx heq
    exact htags.1 (heq ▸ mem_map_of_mem hx)
  simp [Memory.delTag, hseek, (h.chain hl).sentinel, Cell.sentinel]

end

/-! ## Copies -/

def Entry.binding (e : Entry F) : Int × Nat × Option F := (e.tag, e.data, e.copyFun)

section

variable {m : Memory F} {infos : Nat → Option (Layout F)} {p last : Nat} {l : Layout F} {es es' : List (Entry F)}

/-- The entries of the second list are those of the first one with their data copied. -/
def Copies (es es' : List (Entry F)) : Prop :=
  es'.map Entry.binding = es.map fun e => (e.tag, Memory.copied copyData e.copyFun e.data, e.copyFun)

theorem bindings_copies (h : Copies copyData es es') :
    bindings es' = fun tag => (bindings es tag).map fun p => (Memory.copied copyData p.2 p.1, p.2) := by
  funext tag
  induction es generalizing es' with
  | nil =>
    rw [map_eq_nil_iff.1 h]
    rfl
  | cons e es ih =>
    obtain ⟨e', es', rfl, he, hes⟩ := map_eq_cons_iff.1 h
    have hrest := ih hes
    rw [bindings] at hrest ⊢
    rw [bindings] at hrest ⊢
    have htag : e'.tag = e.tag := congrArg Prod.fst he
    by_cases heq : e.tag = tag
    · rw [find?_cons_of_pos (by simpa [htag] using heq), find?_cons_of_pos (by simpa using heq)]
      exact congrArg some (congrArg Prod.snd he)
    · rw [find?_cons_of_neg (by simpa [htag] using heq), find?_cons_of_neg (by simpa using heq)]
      exact hrest

theorem tags_copies (h : Copies copyData es es') : es'.map Entry.tag = es.map Entry.tag := by
  have hmap := congrArg (List.map Prod.fst) h
  rw [map_map, map_map] at hmap
  exact hmap

theorem copyCells_spec (target fuel : Nat) (h : Chain m.cells p es last)
    (hbelow : ∀ a ∈ addrs es last, a < m.fresh ∧ a ≠ target) (htarget : target < m.fresh) (hfuel : es.length < fuel) :
    ∃ m' es' last', Memory.copyCells copyData fuel m p target = some m' ∧ m.fresh ≤ m'.fresh ∧
      (∀ a, a < m.fresh → a ≠ target → m'.cells a = m.cells a) ∧ Chain m'.cells target es' last' ∧
      Copies copyData es es' ∧ (addrs es' last').Nodup ∧
      ∀ a ∈ addrs es' last', a < m'.fresh ∧ (a = target ∨ m.fresh ≤ a) := by
  induction es generalizing m p target fuel with
  | nil =>
    obtain ⟨rfl, hcell⟩ := h
    cases fuel with
    | zero => exact absurd hfuel (Nat.not_lt_zero _)
    | succ fuel =>
      refine ⟨m.write target .sentinel, [], target, ?_, Nat.le_refl _, fun a _ hne => update_of_ne hne _ _,
        ⟨rfl, update_self ..⟩, rfl, nodup_singleton _, ?_⟩
      · simp [Memory.copyCells, hcell, Cell.sentinel, Memory.copied]
      · intro a ha
        rw [mem_singleton.1 ha]
        exact ⟨htarget, .inl rfl⟩
  | cons e es ih =>
    obtain ⟨rfl, next, hcell, htail⟩ := h
    cases fuel with
    | zero => exact absurd hfuel (Nat.not_lt_zero _)
    | succ fuel =>
      let m₁ := m.init.2.write target ⟨e.tag, Memory.copied copyData e.copyFun e.data, e.copyFun, some m.fresh⟩
      have hold : ∀ a, a < m.fresh → a ≠ target → m₁.cells a = m.cells a := by
        intro a ha hne
        show Function.update (Function.update m.cells m.fresh _) target _ a = m.cells a
        rw [update_of_ne hne, update_of_ne (Nat.ne_of_lt ha)]
      have htail' : Chain m₁.cells next es last := by
        refine htail.congr fun a ha => ?_
        obtain ⟨hlt, hne⟩ := hbelow a (mem_cons_of_mem _ ha)
        exact hold a hlt hne
      obtain ⟨m', es', last', hcopy, hfresh, hsame, hchain, hcopies, hnodup, haddrs⟩ :=
        ih m.fresh fuel htail'
          (fun a ha => ⟨Nat.lt_succ_of_lt (hbelow a (mem_cons_of_mem _ ha)).1,
            Nat.ne_of_lt (hbelow a (mem_cons_of_mem _ ha)).1⟩)
          (Nat.lt_succ_self _) (Nat.lt_of_succ_lt_succ hfuel)
      have hnew : m₁.fresh = m.fresh + 1 := rfl
      rw [hnew] at hfresh hsame haddrs
      have hcell' : m'.cells target =
          some ⟨e.tag, Memory.copied copyData e.copyFun e.data, e.copyFun, some m.fresh⟩ := by
        rw [hsame target (Nat.lt_succ_of_lt htarget) (Nat.ne_of_lt htarget)]
        exact update_self ..
      refine ⟨m', ⟨target, e.tag, Memory.copied copyData e.copyFun e.data, e.copyFun⟩ :: es', last', ?_,
        Nat.le_of_succ_le hfresh, ?_, ⟨rfl, m.fresh, hcell', hchain⟩, congrArg (_ :: ·) hcopies, ?_, ?_⟩
      · rw [Memory.copyCells, hcell]
        exact hcopy
      · intro a ha hne
        rw [hsame a (Nat.lt_succ_of_lt ha) (Nat.ne_of_lt ha), hold a ha hne]
      · refine nodup_cons.2 ⟨fun hin => ?_, hnodup⟩
        obtain ⟨-, heq | hle⟩ := haddrs target hin
        · omega
        · omega
      · intro a ha
        rcases mem_cons.1 ha with rfl | ha
        · exact ⟨by omega, .inl rfl⟩
        · obtain ⟨hlt, hor⟩ := haddrs a ha
          exact ⟨hlt, .inr (by omega)⟩

theorem copy_eq (h : Sound m infos) (hl : infos p = some l) :
    ∃ m' l', m.copy copyData p = some (m.fresh, m') ∧ Sound m' (Function.update infos m.fresh (some l')) ∧
      Copies copyData l.entries l'.entries := by
  have hchain : Chain m.init.2.cells p l.entries l.last :=
    (h.chain hl).congr fun a ha => update_of_ne (Nat.ne_of_lt (h.below hl ha)) _ _
  obtain ⟨m', es', last', hcopy, hfresh, hsame, hchain', hcopies, hnodup, haddrs⟩ :=
    copyCells_spec copyData m.fresh (m.fresh + 1) hchain
      (fun a ha => ⟨Nat.lt_succ_of_lt (h.below hl ha), Nat.ne_of_lt (h.below hl ha)⟩) (Nat.lt_succ_self _)
      (Nat.lt_succ_of_lt (h.length_lt hl))
  have hnew : m.init.2.fresh = m.fresh + 1 := rfl
  rw [hnew] at hfresh hsame haddrs
  have htags := tags_copies copyData hcopies
  refine ⟨m', ⟨es', last'⟩, ?_, ?_, hcopies⟩
  · have hcopied : m.copy copyData p =
        (Memory.copyCells copyData (m.fresh + 1) m.init.2 p m.fresh).bind fun m' => some (m.fresh, m') := rfl
    rw [hcopied, hcopy]
    rfl
  · refine h.update (Nat.le_of_succ_le hfresh) ?_ hchain' ⟨hnodup, ?_, ?_⟩ ?_
    · intro a ha _
      rw [hsame a (Nat.lt_succ_of_lt ha) (Nat.ne_of_lt ha)]
      exact update_of_ne (Nat.ne_of_lt ha) _ _
    · rw [htags]
      exact (h.proper hl).tags
    · intro e he
      have hin : e.tag ∈ l.entries.map Entry.tag := htags ▸ mem_map_of_mem he
      obtain ⟨x, hx, heq⟩ := List.mem_map.1 hin
      rw [← heq]
      exact (h.proper hl).nonneg x hx
    · intro a ha
      obtain ⟨hlt, hor⟩ := haddrs a ha
      exact ⟨hlt, .inl (by omega)⟩

end

/-! ## Runs -/

section

variable {m : Memory F} {infos : Nat → Option (Layout F)} {maps maps' maps'' : Maps F} {r : Result} {op : Op F}

theorem Sound.exec (h : Sound m infos) (hasserted : Asserted (mapsOf infos) op) (hok : Ok m (mapsOf infos) op) :
    ∃ r m' infos', exec copyData m op = some (r, m') ∧ Agrees copyData (mapsOf infos) r (mapsOf infos') op ∧
      Sound m' infos' := by
  cases op with
  | init =>
    refine ⟨_, _, _, rfl, ⟨m.fresh, rfl, ?_, mapsOf_update ..⟩, h.init⟩
    rw [mapsOf, h.notMem_fresh]
    rfl
  | setTag p tag data copyFun =>
    obtain ⟨hinfo, htag⟩ := hasserted
    obtain ⟨l, hl⟩ := mapsOf_ne_none hinfo
    have hmaps : mapsOf infos p = some (bindings l.entries) := by rw [mapsOf, hl]; rfl
    by_cases habsent : bindings l.entries tag = none
    · obtain ⟨m', hset, hsound⟩ := setTag_absent data copyFun h hl htag habsent
      refine ⟨.unit, m', _, by rw [Info.exec, hset]; rfl, ⟨rfl, _, hmaps, ?_⟩, hsound⟩
      rw [mapsOf_update, bindings_middle (by simpa using bindings_eq_none.1 habsent), append_nil]
    · obtain ⟨pre, e, post, hes, rfl⟩ := exists_entry habsent
      have htags := (h.proper hl).tags
      rw [hes] at htags
      have hne := (tags_middle htags).2
      have hbinding : bindings l.entries e.tag = some (e.data, e.copyFun) := by
        rw [hes, bindings_middle hne, update_self]
      obtain ⟨m', hset, hsound⟩ := setTag_present data copyFun h hl hes fun hsome =>
        hok hsome _ _ _ hmaps hbinding
      refine ⟨.unit, m', _, by rw [Info.exec, hset]; rfl, ⟨rfl, _, hmaps, ?_⟩, hsound⟩
      rw [mapsOf_update, hes, bindings_middle hne, bindings_middle (e := { e with data, copyFun }) hne,
        Function.update_idem]
  | delTag p tag =>
    obtain ⟨htag, b, hb, hpresent⟩ := hasserted
    obtain ⟨l, hl, rfl⟩ := mapsOf_eq_some hb
    obtain ⟨pre, e, post, hes, rfl⟩ := exists_entry hpresent
    have htags := (h.proper hl).tags
    rw [hes] at htags
    have hne := (tags_middle htags).2
    rcases eq_nil_or_concat pre with rfl | ⟨pre, d, rfl⟩
    · have hchain := h.chain hl
      rw [hes] at hchain
      obtain ⟨rfl, next, hcell, -⟩ := hchain
      exact absurd rfl (hok _ hcell)
    · rw [concat_eq_append] at hes hne
      have hes' : l.entries = pre ++ d :: e :: post := by rw [hes, append_assoc, singleton_append]
      have hrest : pre ++ d :: post = pre ++ [d] ++ post := by rw [append_assoc, singleton_append]
      have hnone : bindings (pre ++ [d] ++ post) e.tag = none := bindings_eq_none.2 hne
      obtain ⟨m', hdel, hsound⟩ := delTag_eq h hl hes'
      refine ⟨.data e.data, m', _, by rw [Info.exec, hdel]; rfl, ⟨_, e.data, e.copyFun, hb, ?_, rfl, ?_⟩, hsound⟩
      · rw [hes, bindings_middle hne, update_self]
      · rw [mapsOf_update, hes, bindings_middle hne, Function.update_idem, ← hnone, Function.update_eq_self, hrest]
  | getTag p tag =>
    obtain ⟨htag, b, hb, hpresent⟩ := hasserted
    obtain ⟨l, hl, rfl⟩ := mapsOf_eq_some hb
    obtain ⟨pre, e, post, hes, rfl⟩ := exists_entry hpresent
    have htags := (h.proper hl).tags
    rw [hes] at htags
    refine ⟨.data e.data, m, infos, by rw [Info.exec, getTag_eq h hl hes]; rfl,
      ⟨_, e.data, e.copyFun, hb, ?_, rfl, rfl⟩, h⟩
    rw [hes, bindings_middle (tags_middle htags).2, update_self]
  | copy p =>
    obtain ⟨l, hl⟩ := mapsOf_ne_none hasserted
    obtain ⟨m', l', hcopy, hsound, hcopies⟩ := copy_eq copyData h hl
    refine ⟨.info m.fresh, m', _, by rw [Info.exec, hcopy]; rfl,
      ⟨bindings l.entries, m.fresh, by rw [mapsOf, hl]; rfl, rfl, ?_, ?_⟩, hsound⟩
    · rw [mapsOf, h.notMem_fresh]
      rfl
    · rw [mapsOf_update, bindings_copies copyData hcopies]
  | others live => exact ⟨.unit, { m with live }, infos, rfl, ⟨rfl, rfl⟩, h.chain, h.proper, h.below, h.apart⟩

theorem Sound.exec_eq_none (h : Sound m infos) (hasserted : Asserted (mapsOf infos) op)
    (hnot : ¬ Ok m (mapsOf infos) op) : Info.exec copyData m op = none := by
  cases op with
  | init | getTag | copy | others => exact absurd trivial hnot
  | setTag p tag data copyFun =>
    rw [Ok] at hnot
    push Not at hnot
    obtain ⟨hsome, b, old, oldFun, hb, hold, hnull, hlive⟩ := hnot
    obtain ⟨l, hl, rfl⟩ := mapsOf_eq_some hb
    obtain ⟨pre, e, post, hes, rfl⟩ := exists_entry (by rw [hold]; nofun)
    have htags := (h.proper hl).tags
    rw [hes] at htags
    rw [hes, bindings_middle (tags_middle htags).2, update_self] at hold
    cases hold
    rw [Info.exec, setTag_fault h hl hes hsome (not_or.2 ⟨hnull, hlive⟩)]
    rfl
  | delTag p tag =>
    rw [Ok] at hnot
    push Not at hnot
    obtain ⟨cell, hcell, rfl⟩ := hnot
    obtain ⟨htag, b, hb, hpresent⟩ := hasserted
    obtain ⟨l, hl, rfl⟩ := mapsOf_eq_some hb
    obtain ⟨cell', hcell', hhead⟩ := (h.chain hl).head
    cases hcell.symm.trans hcell'
    cases hes : l.entries with
    | nil =>
      rw [hes] at hpresent
      exact absurd rfl hpresent
    | cons e post =>
      rw [hes] at hhead
      rw [Info.exec, hhead]
      exact congrArg (Option.map _) (delTag_first h hl hes)

theorem Agrees.unique (h : Agrees copyData maps r maps' op) (h' : Agrees copyData maps r maps'' op) :
    maps' = maps'' := by
  cases op with
  | init =>
    obtain ⟨new, rfl, -, rfl⟩ := h
    obtain ⟨new', hnew, -, rfl⟩ := h'
    cases hnew
    rfl
  | setTag =>
    obtain ⟨-, b, hb, rfl⟩ := h
    obtain ⟨-, b', hb', rfl⟩ := h'
    cases hb.symm.trans hb'
    rfl
  | delTag =>
    obtain ⟨b, -, -, hb, -, -, rfl⟩ := h
    obtain ⟨b', -, -, hb', -, -, rfl⟩ := h'
    cases hb.symm.trans hb'
    rfl
  | getTag =>
    obtain ⟨-, -, -, -, -, -, rfl⟩ := h
    obtain ⟨-, -, -, -, -, -, rfl⟩ := h'
    rfl
  | copy =>
    obtain ⟨b, new, hb, rfl, -, rfl⟩ := h
    obtain ⟨b', new', hb', hnew, -, rfl⟩ := h'
    cases hb.symm.trans hb'
    cases hnew
    rfl
  | others =>
    obtain ⟨-, rfl⟩ := h
    obtain ⟨-, rfl⟩ := h'
    rfl

theorem Sound.areMaps_iff (h : Sound m infos) (ops : List (Op F)) :
    AreMaps copyData m (mapsOf infos) ops ↔ RunOk copyData m (mapsOf infos) ops := by
  induction ops generalizing m infos with
  | nil => exact Iff.rfl
  | cons op ops ih =>
    constructor
    · intro hmaps hasserted
      obtain ⟨r, m', maps', hexec, hagrees, hrest⟩ := hmaps hasserted
      have hok : Ok m (mapsOf infos) op := by
        by_contra hnot
        rw [h.exec_eq_none copyData hasserted hnot] at hexec
        cases hexec
      refine ⟨hok, fun r' m'' maps'' hexec' hagrees' => ?_⟩
      obtain ⟨r₁, m₁, infos₁, hexec₁, hagrees₁, hsound⟩ := h.exec copyData hasserted hok
      cases hexec.symm.trans hexec'
      cases hexec.symm.trans hexec₁
      rw [hagrees'.unique copyData hagrees₁]
      rw [hagrees.unique copyData hagrees₁] at hrest
      exact (ih hsound).1 hrest
    · intro hrun hasserted
      obtain ⟨hok, hrest⟩ := hrun hasserted
      obtain ⟨r, m', infos', hexec, hagrees, hsound⟩ := h.exec copyData hasserted hok
      exact ⟨r, m', _, hexec, hagrees, (ih hsound).2 (hrest r m' _ hexec hagrees)⟩

end

theorem sound_empty (live : Nat → Bool) : Sound (F := F) (Memory.empty live) fun _ => none :=
  ⟨nofun, nofun, nofun, nofun⟩

/-- Info structures are finite maps if and only if no tag that stands in the first cell is deleted, and what a call
with a copy function overwrites is `NULL` or a block. -/
theorem infos_are_maps_iff (live : Nat → Bool) (ops : List (Op F)) :
    AreMaps copyData (Memory.empty live) (fun _ => none) ops ↔
      RunOk copyData (Memory.empty live) (fun _ => none) ops :=
  (sound_empty live).areMaps_iff copyData ops

/-- The only tag cannot be deleted, and a number that is no address is freed when its tag gets a block. -/
theorem first_tag_stays :
    (¬ AreMaps (fun (_ : Unit) data => data) (Memory.empty fun _ => false) (fun _ => none)
      [.init, .setTag 0 0 5 none, .delTag 0 0]) ∧
    ¬ AreMaps (fun (_ : Unit) data => data) (Memory.empty fun _ => false) (fun _ => none)
      [.init, .setTag 0 0 5 none, .setTag 0 0 8 (some ())] := by
  constructor
  · intro h
    obtain ⟨r, m, maps, hexec, ⟨new, hr, -, rfl⟩, h⟩ := h trivial
    cases hexec
    cases hr
    obtain ⟨r, m, maps, hexec, ⟨-, b, hb, rfl⟩, h⟩ := h ⟨nofun, by decide⟩
    cases hexec
    cases hb
    obtain ⟨r, m, maps, hexec, -⟩ := h ⟨by decide, _, rfl, nofun⟩
    cases hexec
  · intro h
    obtain ⟨r, m, maps, hexec, ⟨new, hr, -, rfl⟩, h⟩ := h trivial
    cases hexec
    cases hr
    obtain ⟨r, m, maps, hexec, ⟨-, b, hb, rfl⟩, h⟩ := h ⟨nofun, by decide⟩
    cases hexec
    cases hb
    obtain ⟨r, m, maps, hexec, -⟩ := h ⟨nofun, by decide⟩
    cases hexec

end SNet.Info
