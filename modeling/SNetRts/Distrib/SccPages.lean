import SNetRts.Distrib.SccLut

/-!
# The memory pages of the SCC nodes

The loops of `SNetDistribImplementationInit` in `distrib/scc/distribution.c` that give the pages of the
cores without a node to the nodes. Every node runs them on its own. What a node maps is a list of pages,
each with its core; a core has its pages in the entries from 0 of its page table.

Each loop goes through pages in some order until the node has `max_pages`, so that in the end it has the
first ones of all pages in the loops (`init_eq`). Those of the first loop are the pages of the cores
`location + i * num_nodes`. The second one is for the cores that are left, but it begins with core
`num_nodes`; and where it comes to the end of a core it goes on with the page `i` of the next one.
-/

namespace SNet.Distrib.SccPages

open List

open SccHeap (INT_MAX)
open SccLut (MAX_PAGES)

def LINUX_PRIV_PAGES : Nat := 20

/-- `CORES` is from `SCC_API.h`. -/
structure Config where
  CORES : Nat
  PAGES_PER_CORE : Nat
  num_nodes : Nat
  remap : Bool
  nodes_pos : 0 < num_nodes
  nodes_le : num_nodes ≤ CORES

/-- `num_pages`, which is an `unsigned char`, and the pages that have been mapped. -/
structure Alloc where
  num_pages : Nat
  given : List (Nat × Nat)

def Alloc.map (s : Alloc) (core page : Nat) : Alloc :=
  ⟨(s.num_pages + 1) % 256, s.given ++ [(core, page)]⟩

namespace Config

variable (c : Config)

def max_pages : Nat := if c.remap then MAX_PAGES / 2 else MAX_PAGES - 1

/-- `num_pages` at first. -/
def start : Nat := (c.PAGES_PER_CORE + 256 - LINUX_PRIV_PAGES) % 256

def extra : Nat := c.CORES % c.num_nodes * c.PAGES_PER_CORE / c.num_nodes

def coreLoop (core : Nat) : Nat → Nat → Alloc → Alloc
  | 0, _, s => s
  | fuel + 1, lut, s =>
    if lut < c.PAGES_PER_CORE ∧ s.num_pages < c.max_pages then
      coreLoop core fuel (lut + 1) (s.map core lut)
    else s

def coresLoop (location : Nat) : Nat → Nat → Alloc → Alloc
  | 0, _, s => s
  | fuel + 1, i, s =>
    if i < c.CORES / c.num_nodes ∧ s.num_pages < c.max_pages then
      coresLoop location fuel (i + 1) (c.coreLoop (location + i * c.num_nodes) c.PAGES_PER_CORE 0 s)
    else s

def extraLoop : Nat → Nat → Nat → Nat → Alloc → Alloc
  | 0, _, _, _, s => s
  | fuel + 1, i, node, lut, s =>
    if i < c.extra ∧ s.num_pages < c.max_pages then
      if lut + i + 1 = c.PAGES_PER_CORE then extraLoop fuel (i + 1) (node + 1) 0 (s.map node (lut + i))
      else extraLoop fuel (i + 1) node lut (s.map node (lut + i))
    else s

/-- What the node at a location gets; `none` where the `int` product in `extra` overflows. -/
def init (location : Nat) : Option Alloc :=
  let s := c.coresLoop location (c.CORES / c.num_nodes) 1 ⟨c.start, []⟩
  if c.CORES % c.num_nodes * c.PAGES_PER_CORE ≤ INT_MAX then
    some (c.extraLoop c.extra 0 (c.num_nodes + location * c.extra / c.PAGES_PER_CORE)
      (location * c.extra % c.PAGES_PER_CORE) s)
  else none

/-- The pages of the nodes: no page is one of two nodes, all of them are pages of cores, those of a core
that has a node are of no other one, and no node has more than `max_pages`. -/
structure IsPartition (s : Nat → Alloc) : Prop where
  disjoint : ∀ i < c.num_nodes, ∀ j < c.num_nodes, i ≠ j → (s i).given.Disjoint (s j).given
  inside : ∀ i < c.num_nodes, ∀ x ∈ (s i).given, x.1 < c.CORES ∧ x.2 < c.PAGES_PER_CORE
  own : ∀ i < c.num_nodes, ∀ x ∈ (s i).given, x.1 < c.num_nodes → x.1 = i
  atMost : ∀ i < c.num_nodes, (s i).num_pages ≤ c.max_pages

def Partitions : Prop :=
  ∃ s : Nat → Alloc, (∀ i < c.num_nodes, c.init i = some (s i)) ∧ c.IsPartition s

/-- How many of the extra pages there is room for, if the first loop has none. -/
def room : Nat := min c.extra (c.max_pages - c.start)

/-- The extra pages of a node go over the end of a core, and come to those of the next node. -/
def Collides (location : Nat) : Prop :=
  c.PAGES_PER_CORE < location * c.extra % c.PAGES_PER_CORE + c.room ∧
    location * c.extra % c.PAGES_PER_CORE + c.extra < c.PAGES_PER_CORE + c.room

/-- The second loop maps nothing; or the first one has no cores, and no extra pages collide. -/
def Separate : Prop :=
  c.extra = 0 ∨ c.max_pages ≤ c.start + (c.CORES / c.num_nodes - 1) * c.PAGES_PER_CORE ∨
    (c.CORES / c.num_nodes = 1 ∧ ∀ i, i + 1 < c.num_nodes → ¬ c.Collides i)

/-! ## The pages in the loops -/

/-- All pages in the loop over cores, from core `i` of the node on. -/
def corePages (location i : Nat) : List (Nat × Nat) :=
  (List.range' i (c.CORES / c.num_nodes - i)).flatMap fun i =>
    (List.range' 0 c.PAGES_PER_CORE).map fun lut => (location + i * c.num_nodes, lut)

/-- The extra page `i` of a node. -/
def extraPage (location i : Nat) : Nat × Nat :=
  if location * c.extra % c.PAGES_PER_CORE + i < c.PAGES_PER_CORE then
    (c.num_nodes + location * c.extra / c.PAGES_PER_CORE, location * c.extra % c.PAGES_PER_CORE + i)
  else (c.num_nodes + location * c.extra / c.PAGES_PER_CORE + 1, i)

/-- `node` and `lut` in round `i` of the second loop. -/
def extraNode (location i : Nat) : Nat :=
  if location * c.extra % c.PAGES_PER_CORE + i < c.PAGES_PER_CORE then
    c.num_nodes + location * c.extra / c.PAGES_PER_CORE
  else c.num_nodes + location * c.extra / c.PAGES_PER_CORE + 1

def extraLut (location i : Nat) : Nat :=
  if location * c.extra % c.PAGES_PER_CORE + i < c.PAGES_PER_CORE then location * c.extra % c.PAGES_PER_CORE
  else 0

def extraPages (location : Nat) : List (Nat × Nat) := (List.range c.extra).map (c.extraPage location)

def mapAll (s : Alloc) (xs : List (Nat × Nat)) : Alloc :=
  ⟨s.num_pages + (xs.take (c.max_pages - s.num_pages)).length,
    s.given ++ xs.take (c.max_pages - s.num_pages)⟩

section

variable {c} {s : Alloc} {xs ys : List (Nat × Nat)} {i j n core lut fuel location : Nat} {x : Nat × Nat}

theorem max_pages_lt (c : Config) : c.max_pages < 255 := by
  unfold max_pages MAX_PAGES
  split <;> omega

@[simp] theorem mapAll_nil (c : Config) (s : Alloc) : c.mapAll s [] = s := by
  simp [mapAll]

theorem mapAll_full (h : ¬ s.num_pages < c.max_pages) : c.mapAll s xs = s := by
  rw [mapAll, Nat.sub_eq_zero_of_le (Nat.le_of_not_lt h)]
  simp

theorem mapAll_cons (h : s.num_pages < c.max_pages) :
    c.mapAll s (x :: xs) = c.mapAll (s.map x.1 x.2) xs := by
  have hlt := c.max_pages_lt
  have hmod : (s.num_pages + 1) % 256 = s.num_pages + 1 := Nat.mod_eq_of_lt (by omega)
  have hroom : c.max_pages - s.num_pages = c.max_pages - (s.num_pages + 1) + 1 := by omega
  rw [mapAll, mapAll, Alloc.map]
  dsimp only
  rw [hmod, hroom, take_succ_cons, length_cons, append_assoc, singleton_append]
  congr 1
  omega

theorem mapAll_append : c.mapAll s (xs ++ ys) = c.mapAll (c.mapAll s xs) ys := by
  induction xs generalizing s with
  | nil => rw [mapAll_nil, nil_append]
  | cons x xs ih =>
    by_cases h : s.num_pages < c.max_pages
    · rw [cons_append, mapAll_cons h, mapAll_cons h, ih]
    · rw [mapAll_full h, mapAll_full h, mapAll_full h]

theorem coreLoop_eq (hfuel : c.PAGES_PER_CORE ≤ lut + fuel) :
    c.coreLoop core fuel lut s =
      c.mapAll s ((List.range' lut (c.PAGES_PER_CORE - lut)).map fun lut => (core, lut)) := by
  induction fuel generalizing lut s with
  | zero =>
    rw [Nat.add_zero] at hfuel
    rw [coreLoop, Nat.sub_eq_zero_of_le hfuel]
    exact (mapAll_nil c s).symm
  | succ fuel ih =>
    rw [coreLoop]
    by_cases hlut : lut < c.PAGES_PER_CORE
    · have hleft : c.PAGES_PER_CORE - lut = c.PAGES_PER_CORE - (lut + 1) + 1 := by omega
      rw [hleft, range'_succ, map_cons]
      by_cases hnum : s.num_pages < c.max_pages
      · rw [if_pos ⟨hlut, hnum⟩, ih (by omega), mapAll_cons hnum]
      · rw [if_neg fun h => hnum h.2, mapAll_full hnum]
    · rw [if_neg fun h => hlut h.1, Nat.sub_eq_zero_of_le (Nat.le_of_not_lt hlut)]
      exact (mapAll_nil c s).symm

theorem coresLoop_eq (hfuel : c.CORES / c.num_nodes ≤ i + fuel) :
    c.coresLoop location fuel i s = c.mapAll s (c.corePages location i) := by
  induction fuel generalizing i s with
  | zero =>
    rw [Nat.add_zero] at hfuel
    rw [coresLoop, corePages, Nat.sub_eq_zero_of_le hfuel]
    exact (mapAll_nil c s).symm
  | succ fuel ih =>
    rw [coresLoop]
    by_cases hi : i < c.CORES / c.num_nodes
    · have hleft : c.CORES / c.num_nodes - i = c.CORES / c.num_nodes - (i + 1) + 1 := by omega
      rw [corePages, hleft, range'_succ, flatMap_cons, mapAll_append]
      by_cases hnum : s.num_pages < c.max_pages
      · rw [if_pos ⟨hi, hnum⟩, ih (by omega), coreLoop_eq (by omega)]
        rfl
      · rw [if_neg fun h => hnum h.2, mapAll_full hnum, mapAll_full hnum]
    · rw [if_neg fun h => hi h.1, corePages, Nat.sub_eq_zero_of_le (Nat.le_of_not_lt hi)]
      exact (mapAll_nil c s).symm

theorem extra_lt (h : 0 < c.extra) : c.extra < c.PAGES_PER_CORE := by
  have hmod := Nat.mod_lt c.CORES c.nodes_pos
  have hpages : 0 < c.PAGES_PER_CORE := by
    by_contra hzero
    rw [extra, Nat.eq_zero_of_not_pos hzero, Nat.mul_zero, Nat.zero_div] at h
    exact Nat.lt_irrefl 0 h
  rw [extra]
  apply Nat.div_lt_of_lt_mul
  exact Nat.mul_lt_mul_of_pos_right hmod hpages

theorem mul_extra_le (c : Config) : c.num_nodes * c.extra ≤ c.CORES % c.num_nodes * c.PAGES_PER_CORE :=
  Nat.mul_div_le _ _

theorem extraLoop_eq (hfuel : c.extra ≤ i + fuel) :
    c.extraLoop fuel i (c.extraNode location i) (c.extraLut location i) s =
      c.mapAll s ((List.range' i (c.extra - i)).map (c.extraPage location)) := by
  induction fuel generalizing i s with
  | zero =>
    rw [Nat.add_zero] at hfuel
    rw [extraLoop, Nat.sub_eq_zero_of_le hfuel]
    exact (mapAll_nil c s).symm
  | succ fuel ih =>
    rw [extraLoop]
    by_cases hi : i < c.extra
    · have hleft : c.extra - i = c.extra - (i + 1) + 1 := by omega
      rw [hleft, range'_succ, map_cons]
      by_cases hnum : s.num_pages < c.max_pages
      · have hpage : (s.map (c.extraNode location i) (c.extraLut location i + i)) =
            s.map (c.extraPage location i).1 (c.extraPage location i).2 := by
          unfold extraNode extraLut extraPage
          split
          · rfl
          · rw [Nat.zero_add]
        rw [if_pos ⟨hi, hnum⟩, hpage, mapAll_cons hnum, ← ih (by omega)]
        have hlt := extra_lt (c := c) (by omega)
        -- the end of the core
        by_cases hend : c.extraLut location i + i + 1 = c.PAGES_PER_CORE
        · rw [if_pos hend]
          unfold extraLut extraNode at *
          split at hend
          case isTrue hin => rw [if_pos hin, if_neg (by omega), if_neg (by omega)]
          case isFalse => omega
        · rw [if_neg hend]
          unfold extraLut extraNode at *
          split at hend
          case isTrue hin => rw [if_pos hin, if_pos hin, if_pos (by omega), if_pos (by omega)]
          case isFalse hin => rw [if_neg hin, if_neg hin, if_neg (by omega), if_neg (by omega)]
      · rw [if_neg fun h => hnum h.2, mapAll_full hnum]
    · rw [if_neg fun h => hi h.1, Nat.sub_eq_zero_of_le (Nat.le_of_not_lt hi)]
      exact (mapAll_nil c s).symm

theorem init_eq (h : c.CORES % c.num_nodes * c.PAGES_PER_CORE ≤ INT_MAX) (location : Nat) :
    c.init location = some (c.mapAll ⟨c.start, []⟩ (c.corePages location 1 ++ c.extraPages location)) := by
  rw [init, if_pos h, coresLoop_eq (Nat.le_add_left ..), mapAll_append]
  rcases Nat.eq_zero_or_pos c.extra with hzero | hpos
  · rw [extraPages, hzero]
    exact congrArg some (mapAll_nil c _).symm
  · have hlt := extra_lt hpos
    have hlut : location * c.extra % c.PAGES_PER_CORE < c.PAGES_PER_CORE := Nat.mod_lt _ (by omega)
    have heq : c.extraLoop c.extra 0 (c.extraNode location 0) (c.extraLut location 0)
        (c.mapAll ⟨c.start, []⟩ (c.corePages location 1)) = _ := extraLoop_eq (Nat.le_add_left ..)
    rw [extraNode, extraLut, Nat.add_zero, if_pos hlut, if_pos hlut, Nat.sub_zero] at heq
    rw [heq, ← range_eq_range']
    rfl

theorem mem_corePages : x ∈ c.corePages location i ↔
    ∃ j, i ≤ j ∧ j < c.CORES / c.num_nodes ∧ x.1 = location + j * c.num_nodes ∧ x.2 < c.PAGES_PER_CORE := by
  obtain ⟨core, page⟩ := x
  simp only [corePages, mem_flatMap, List.mem_map, mem_range'_1, Prod.mk.injEq]
  constructor
  · rintro ⟨j, ⟨h1, h2⟩, lut, ⟨-, h3⟩, rfl, rfl⟩
    exact ⟨j, h1, by omega, rfl, by omega⟩
  · rintro ⟨j, h1, h2, rfl, h3⟩
    exact ⟨j, ⟨h1, by omega⟩, page, ⟨Nat.zero_le _, by omega⟩, rfl, rfl⟩

theorem length_corePages : (c.corePages location i).length = (c.CORES / c.num_nodes - i) * c.PAGES_PER_CORE := by
  simp [corePages, length_flatMap]

theorem mem_extraPages_take : x ∈ (c.extraPages location).take n ↔
    ∃ i, i < min c.extra n ∧ x = c.extraPage location i := by
  rw [extraPages, ← map_take, take_range, List.mem_map]
  constructor
  · rintro ⟨i, hi, rfl⟩
    exact ⟨i, by rw [Nat.min_comm]; exact mem_range.1 hi, rfl⟩
  · rintro ⟨i, hi, rfl⟩
    exact ⟨i, mem_range.2 (by rwa [Nat.min_comm]), rfl⟩

/-! ## The extra pages -/

theorem extraPage_cases (c : Config) (location i : Nat) :
    (location * c.extra % c.PAGES_PER_CORE + i < c.PAGES_PER_CORE ∧ c.extraPage location i =
      (c.num_nodes + location * c.extra / c.PAGES_PER_CORE, location * c.extra % c.PAGES_PER_CORE + i)) ∨
    (c.PAGES_PER_CORE ≤ location * c.extra % c.PAGES_PER_CORE + i ∧ c.extraPage location i =
      (c.num_nodes + location * c.extra / c.PAGES_PER_CORE + 1, i)) := by
  unfold extraPage
  split
  case isTrue hlt => exact .inl ⟨hlt, rfl⟩
  case isFalse hge => exact .inr ⟨Nat.le_of_not_lt hge, rfl⟩

theorem extraPage_inside (hloc : location < c.num_nodes) (hi : i < c.extra) :
    c.num_nodes ≤ (c.extraPage location i).1 ∧ (c.extraPage location i).1 < c.CORES ∧
      (c.extraPage location i).2 < c.PAGES_PER_CORE := by
  have hlt := extra_lt (c := c) (by omega)
  have hsplit := Nat.div_add_mod (location * c.extra) c.PAGES_PER_CORE
  have hmul : (location + 1) * c.extra ≤ c.num_nodes * c.extra := Nat.mul_le_mul_right _ hloc
  rw [Nat.succ_mul] at hmul
  have hall := c.mul_extra_le
  have hcores := Nat.div_add_mod c.CORES c.num_nodes
  have hquot : 0 < c.CORES / c.num_nodes := Nat.div_pos c.nodes_le c.nodes_pos
  have hnodes : c.num_nodes * 1 ≤ c.num_nodes * (c.CORES / c.num_nodes) := Nat.mul_le_mul_left _ hquot
  rcases extraPage_cases c location i with ⟨hin, heq⟩ | ⟨hover, heq⟩
  · have hcore : location * c.extra / c.PAGES_PER_CORE < c.CORES % c.num_nodes := by
      apply Nat.div_lt_of_lt_mul
      rw [Nat.mul_comm c.PAGES_PER_CORE]
      omega
    rw [heq]
    exact ⟨Nat.le_add_right .., by dsimp only; omega, hin⟩
  · have hcore : location * c.extra / c.PAGES_PER_CORE + 1 < c.CORES % c.num_nodes := by
      apply Nat.lt_of_mul_lt_mul_right (a := c.PAGES_PER_CORE)
      rw [Nat.succ_mul, Nat.mul_comm (location * c.extra / c.PAGES_PER_CORE)]
      omega
    rw [heq]
    exact ⟨Nat.le_succ_of_le (Nat.le_add_right ..), by dsimp only; omega, by dsimp only; omega⟩

theorem extraPage_ne {location' : Nat} (hnone : ∀ i, i + 1 < c.num_nodes → ¬ c.Collides i)
    (hlt : location < location') (hloc : location' < c.num_nodes) (hi : i < c.room) :
    c.extraPage location i ≠ c.extraPage location' j := by
  have hroom : c.room ≤ c.extra := Nat.min_le_left ..
  have hextra := extra_lt (c := c) (by omega)
  have hmod : location * c.extra % c.PAGES_PER_CORE < c.PAGES_PER_CORE := Nat.mod_lt _ (by omega)
  have hmod' : location' * c.extra % c.PAGES_PER_CORE < c.PAGES_PER_CORE := Nat.mod_lt _ (by omega)
  have hsplit := Nat.div_add_mod (location * c.extra) c.PAGES_PER_CORE
  have hsplit' := Nat.div_add_mod (location' * c.extra) c.PAGES_PER_CORE
  have hmul : (location + 1) * c.extra ≤ location' * c.extra := Nat.mul_le_mul_right _ hlt
  rw [Nat.succ_mul] at hmul
  have hdiv : location * c.extra / c.PAGES_PER_CORE ≤ location' * c.extra / c.PAGES_PER_CORE :=
    Nat.div_le_div_right (by omega)
  have hcollides := hnone location (by omega)
  unfold Collides at hcollides
  intro heq
  rcases extraPage_cases c location i with ⟨hin, h1⟩ | ⟨hover, h1⟩ <;>
    rcases extraPage_cases c location' j with ⟨hin', h2⟩ | ⟨hover', h2⟩ <;>
      rw [h1, h2, Prod.mk.injEq] at heq <;> obtain ⟨hcore, hpage⟩ := heq
  · -- both in the core that they begin in
    have hsame : location * c.extra / c.PAGES_PER_CORE = location' * c.extra / c.PAGES_PER_CORE := by omega
    rw [hsame] at hsplit
    omega
  · omega
  · -- the first one goes over the end of the core that the second one begins behind
    have hsame : location' * c.extra / c.PAGES_PER_CORE = location * c.extra / c.PAGES_PER_CORE + 1 := by omega
    rw [hsame, Nat.mul_succ] at hsplit'
    omega
  · have hsame : location * c.extra / c.PAGES_PER_CORE = location' * c.extra / c.PAGES_PER_CORE := by omega
    rw [hsame] at hsplit
    omega

theorem Collides.exists_page (h : c.Collides location) :
    ∃ i j, i < c.room ∧ j < c.room ∧ c.extraPage location i = c.extraPage (location + 1) j := by
  obtain ⟨hover, hnext⟩ := h
  have hroom : c.room ≤ c.extra := Nat.min_le_left ..
  have hpos : 0 < c.extra := by
    by_contra hzero
    rw [Nat.eq_zero_of_not_pos hzero] at hroom hover
    rw [Nat.mul_zero, Nat.zero_mod] at hover
    omega
  have hextra := extra_lt hpos
  have hmod : location * c.extra % c.PAGES_PER_CORE < c.PAGES_PER_CORE := Nat.mod_lt _ (by omega)
  have hsplit := Nat.div_add_mod (location * c.extra) c.PAGES_PER_CORE
  -- the next node begins in the next core
  have hnode : (location + 1) * c.extra = c.PAGES_PER_CORE * (location * c.extra / c.PAGES_PER_CORE + 1) +
      (location * c.extra % c.PAGES_PER_CORE + c.extra - c.PAGES_PER_CORE) := by
    rw [Nat.succ_mul, Nat.mul_succ]
    omega
  have hsmall : location * c.extra % c.PAGES_PER_CORE + c.extra - c.PAGES_PER_CORE < c.PAGES_PER_CORE := by omega
  have hmod' : (location + 1) * c.extra % c.PAGES_PER_CORE =
      location * c.extra % c.PAGES_PER_CORE + c.extra - c.PAGES_PER_CORE := by
    rw [hnode, Nat.mul_add_mod, Nat.mod_eq_of_lt hsmall]
  have hdiv' : (location + 1) * c.extra / c.PAGES_PER_CORE = location * c.extra / c.PAGES_PER_CORE + 1 := by
    rw [hnode, Nat.mul_add_div (by omega), Nat.div_eq_of_lt hsmall, Nat.add_zero]
  obtain ⟨i, hi⟩ : ∃ i, i = max (c.PAGES_PER_CORE - location * c.extra % c.PAGES_PER_CORE)
      (location * c.extra % c.PAGES_PER_CORE + c.extra - c.PAGES_PER_CORE) := ⟨_, rfl⟩
  refine ⟨i, i - (location * c.extra % c.PAGES_PER_CORE + c.extra - c.PAGES_PER_CORE), by omega, by omega, ?_⟩
  unfold extraPage
  rw [hmod', hdiv', if_neg (by omega), if_pos (by omega), Prod.mk.injEq]
  exact ⟨by omega, by omega⟩

/-! ## The pages of the nodes -/

theorem isPartition_of_core {s : Nat → Alloc} (hmem : ∀ i, ∀ x ∈ (s i).given, x ∈ c.corePages i 1)
    (hmost : ∀ i, (s i).num_pages ≤ c.max_pages) : c.IsPartition s := by
  have hcores : c.CORES / c.num_nodes * c.num_nodes ≤ c.CORES := Nat.div_mul_le_self ..
  refine ⟨?_, ?_, ?_, fun i _ => hmost i⟩
  · intro i hi j hj hne x hx hx'
    obtain ⟨k, -, -, h1, -⟩ := mem_corePages.1 (hmem i x hx)
    obtain ⟨k', -, -, h2, -⟩ := mem_corePages.1 (hmem j x hx')
    apply hne
    calc i = (i + k * c.num_nodes) % c.num_nodes := by rw [Nat.add_mul_mod_self_right, Nat.mod_eq_of_lt hi]
      _ = (j + k' * c.num_nodes) % c.num_nodes := by rw [← h1, ← h2]
      _ = j := by rw [Nat.add_mul_mod_self_right, Nat.mod_eq_of_lt hj]
  · intro i hi x hx
    obtain ⟨k, -, hk, h1, h2⟩ := mem_corePages.1 (hmem i x hx)
    have hmul : (k + 1) * c.num_nodes ≤ c.CORES / c.num_nodes * c.num_nodes := Nat.mul_le_mul_right _ hk
    rw [Nat.succ_mul] at hmul
    exact ⟨by omega, h2⟩
  · intro i _ x hx hlt
    obtain ⟨k, hk, -, h1, -⟩ := mem_corePages.1 (hmem i x hx)
    have hmul : 1 * c.num_nodes ≤ k * c.num_nodes := Nat.mul_le_mul_right _ hk
    omega

theorem isPartition_of_extra {s : Nat → Alloc}
    (hmem : ∀ i, ∀ x ∈ (s i).given, ∃ k, k < c.room ∧ x = c.extraPage i k)
    (hmost : ∀ i, (s i).num_pages ≤ c.max_pages) (hnone : ∀ i, i + 1 < c.num_nodes → ¬ c.Collides i) :
    c.IsPartition s := by
  have hroom : c.room ≤ c.extra := Nat.min_le_left ..
  refine ⟨?_, ?_, ?_, fun i _ => hmost i⟩
  · intro i hi j hj hne x hx hx'
    obtain ⟨k, hk, h1⟩ := hmem i x hx
    obtain ⟨k', hk', h2⟩ := hmem j x hx'
    rcases Nat.lt_or_gt_of_ne hne with hlt | hgt
    · exact extraPage_ne hnone hlt hj hk (h1.symm.trans h2)
    · exact extraPage_ne hnone hgt hi hk' (h2.symm.trans h1)
  · intro i hi x hx
    obtain ⟨k, hk, rfl⟩ := hmem i x hx
    exact (extraPage_inside hi (Nat.lt_of_lt_of_le hk hroom)).2
  · intro i hi x hx hlt
    obtain ⟨k, hk, rfl⟩ := hmem i x hx
    exact absurd hlt (Nat.not_lt.2 (extraPage_inside hi (Nat.lt_of_lt_of_le hk hroom)).1)

def result (c : Config) (location : Nat) : Alloc :=
  c.mapAll ⟨c.start, []⟩ (c.corePages location 1 ++ c.extraPages location)

theorem result_given (c : Config) (location : Nat) :
    (c.result location).given = (c.corePages location 1).take (c.max_pages - c.start) ++
      (c.extraPages location).take
        (c.max_pages - c.start - (c.CORES / c.num_nodes - 1) * c.PAGES_PER_CORE) := by
  rw [result, mapAll]
  dsimp only
  rw [nil_append, take_append, length_corePages]

theorem result_num_pages (c : Config) (location : Nat) :
    (c.result location).num_pages = c.start + (c.result location).given.length := by
  rw [result, mapAll]
  dsimp only
  rw [nil_append]

theorem result_le (hstart : c.start ≤ c.max_pages) (location : Nat) :
    (c.result location).num_pages ≤ c.max_pages := by
  rw [result, mapAll]
  dsimp only
  have := length_take_le (c.max_pages - c.start) (c.corePages location 1 ++ c.extraPages location)
  omega

theorem Separate.isPartition (h : c.Separate) (hstart : c.start ≤ c.max_pages) : c.IsPartition c.result := by
  rcases h with hzero | hfull | ⟨hone, hnone⟩
  · apply isPartition_of_core _ (result_le hstart)
    intro i x hx
    rw [result_given, extraPages, hzero, range_zero, map_nil, take_nil, append_nil] at hx
    exact mem_of_mem_take hx
  · apply isPartition_of_core _ (result_le hstart)
    intro i x hx
    rw [result_given, show c.max_pages - c.start - (c.CORES / c.num_nodes - 1) * c.PAGES_PER_CORE = 0 by omega,
      take_zero, append_nil] at hx
    exact mem_of_mem_take hx
  · apply isPartition_of_extra _ (result_le hstart) hnone
    intro i x hx
    rw [result_given, hone, Nat.sub_self, Nat.zero_mul, Nat.sub_zero] at hx
    rcases mem_append.1 hx with hx | hx
    · obtain ⟨j, h1, h2, -⟩ := mem_corePages.1 (mem_of_mem_take hx)
      omega
    · exact mem_extraPages_take.1 hx

theorem IsPartition.separate (h : c.IsPartition c.result) : c.Separate := by
  by_contra hnot
  obtain ⟨hextra, hnot⟩ := not_or.1 hnot
  obtain ⟨hfull, hcollide⟩ := not_or.1 hnot
  have hpos := Nat.pos_of_ne_zero hextra
  have hlt := extra_lt hpos
  have hquot : 0 < c.CORES / c.num_nodes := Nat.div_pos c.nodes_le c.nodes_pos
  have htwo : 1 < c.num_nodes := by
    by_contra hle
    have hone : c.num_nodes = 1 := Nat.le_antisymm (Nat.le_of_not_lt hle) c.nodes_pos
    rw [extra, hone, Nat.mod_one, Nat.zero_mul, Nat.zero_div] at hpos
    exact Nat.lt_irrefl 0 hpos
  have hextraMem : ∀ i k, k < min c.extra
      (c.max_pages - c.start - (c.CORES / c.num_nodes - 1) * c.PAGES_PER_CORE) →
      c.extraPage i k ∈ (c.result i).given := by
    intro i k hk
    rw [result_given]
    exact mem_append_right _ (mem_extraPages_take.2 ⟨k, hk, rfl⟩)
  by_cases hone : c.CORES / c.num_nodes = 1
  · -- a page of two nodes in the second loop
    apply hcollide
    refine ⟨hone, ?_⟩
    intro i hi hcollides
    obtain ⟨k, k', hk, hk', heq⟩ := hcollides.exists_page
    rw [hone, Nat.sub_self, Nat.zero_mul, Nat.sub_zero] at hextraMem
    apply h.disjoint i (by omega) (i + 1) hi (by omega) (hextraMem i k hk)
    rw [heq]
    exact hextraMem (i + 1) k' hk'
  · -- the first page of node 1 in the second loop is one of node 0 in the first
    have hpage : c.extraPage 1 0 = (c.num_nodes, c.extra) := by
      rw [extraPage, Nat.one_mul, Nat.mod_eq_of_lt hlt, Nat.add_zero, if_pos hlt, Nat.div_eq_of_lt hlt,
        Nat.add_zero]
    apply h.disjoint 1 htwo 0 c.nodes_pos (by omega) (hextraMem 1 0 (by omega))
    rw [hpage, result_given, take_of_length_le (by rw [length_corePages]; omega)]
    apply mem_append_left
    exact mem_corePages.2 ⟨1, Nat.le_refl 1, by omega, by dsimp only; omega, hlt⟩

theorem Partitions.result (h : c.Partitions) :
    c.CORES % c.num_nodes * c.PAGES_PER_CORE ≤ INT_MAX ∧ c.IsPartition c.result := by
  obtain ⟨s, hs, hpart⟩ := h
  have hint : c.CORES % c.num_nodes * c.PAGES_PER_CORE ≤ INT_MAX := by
    by_contra hgt
    have := hs 0 c.nodes_pos
    rw [init, if_neg hgt] at this
    cases this
  have heq : ∀ i < c.num_nodes, s i = c.result i := by
    intro i hi
    have := hs i hi
    rw [init_eq hint] at this
    exact (Option.some.inj this).symm
  refine ⟨hint, ?_, ?_, ?_, ?_⟩
  · intro i hi j hj
    rw [← heq i hi, ← heq j hj]
    exact hpart.disjoint i hi j hj
  · intro i hi
    rw [← heq i hi]
    exact hpart.inside i hi
  · intro i hi
    rw [← heq i hi]
    exact hpart.own i hi
  · intro i hi
    rw [← heq i hi]
    exact hpart.atMost i hi

end

/-- The loops partition the pages just if the product is an `int`, a core does not have more pages than a
node may, and the loops keep the extra pages apart from the others and from each other. -/
theorem pages_partition_iff (c : Config) :
    c.Partitions ↔ c.CORES % c.num_nodes * c.PAGES_PER_CORE ≤ INT_MAX ∧ c.start ≤ c.max_pages ∧ c.Separate := by
  constructor
  · intro h
    obtain ⟨hint, hpart⟩ := h.result
    refine ⟨hint, ?_, hpart.separate⟩
    have := hpart.atMost 0 c.nodes_pos
    rw [result_num_pages] at this
    omega
  · rintro ⟨hint, hstart, hsep⟩
    exact ⟨c.result, fun i _ => init_eq hint i, hsep.isPartition hstart⟩

theorem separate_iff_of_scc {c : Config} (hpages : c.PAGES_PER_CORE = 41) :
    c.Separate ↔ c.extra = 0 ∨ c.max_pages ≤ 21 + (c.CORES / c.num_nodes - 1) * 41 ∨
      (c.CORES / c.num_nodes = 1 ∧ (c.extra = 1 ∨ c.CORES % c.num_nodes = 1)) := by
  have hstart : c.start = 21 := by
    rw [start, hpages]
    rfl
  rw [Separate, hpages, hstart]
  rcases Nat.eq_zero_or_pos c.extra with hzero | hpos
  · exact iff_of_true (.inl hzero) (.inl hzero)
  have hlt := extra_lt hpos
  rw [hpages] at hlt
  have hmax : 86 ≤ c.max_pages := by
    unfold max_pages MAX_PAGES
    split <;> omega
  have hroom : c.room = c.extra := by
    rw [room, hstart]
    omega
  have hcollides : ∀ i, c.Collides i ↔ 41 < i * c.extra % 41 + c.extra := by
    intro i
    rw [Collides, hroom, hpages]
    omega
  refine or_congr_right (or_congr_right (and_congr_right fun _ => ?_))
  constructor
  · intro hnone
    by_contra hnot
    obtain ⟨hone, hrest⟩ := not_or.1 hnot
    -- the node with the end of the first core in its pages is not the last one
    have hdecide : ∀ e < 41, 2 ≤ e → 41 < 41 / e * e % 41 + e ∧ (41 / e + 1) * (e + 1) ≤ 82 := by decide
    obtain ⟨hover, hsmall⟩ := hdecide c.extra hlt (by omega)
    have hrestpos : c.CORES % c.num_nodes ≠ 0 := by
      intro hzero
      rw [extra, hzero, Nat.zero_mul, Nat.zero_div] at hpos
      exact Nat.lt_irrefl 0 hpos
    have htwo : 2 * 41 ≤ c.CORES % c.num_nodes * 41 := Nat.mul_le_mul_right _ (by omega)
    have hdiv := Nat.lt_mul_div_succ (c.CORES % c.num_nodes * c.PAGES_PER_CORE) c.nodes_pos
    rw [← extra, hpages] at hdiv
    apply hnone (41 / c.extra) _ ((hcollides _).2 hover)
    apply Nat.lt_of_mul_lt_mul_right (a := c.extra + 1)
    omega
  · rintro (hone | hrest) i hi hcoll
    · rw [hcollides, hone, Nat.mul_one] at hcoll
      omega
    · have hall := c.mul_extra_le
      rw [hrest, hpages, Nat.one_mul] at hall
      have hmul : (i + 1) * c.extra ≤ c.num_nodes * c.extra := Nat.mul_le_mul_right _ (by omega)
      rw [Nat.succ_mul] at hmul
      rw [hcollides, Nat.mod_eq_of_lt (by omega)] at hcoll
      omega

def twentyNodes : Config := ⟨48, 41, 20, true, by decide, by decide⟩

/-- Page 16 of core 20 is one of node 0 and of node 1. -/
theorem pages_not_partition : ¬ twentyNodes.Partitions := by
  intro h
  rcases h.result.2.separate with hzero | hfull | ⟨hone, -⟩
  · exact absurd hzero (by decide)
  · exact absurd hfull (by decide)
  · exact absurd hone (by decide)

end Config

end SNet.Distrib.SccPages
