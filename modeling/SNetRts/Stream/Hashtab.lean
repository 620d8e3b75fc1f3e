import SNetRts.Lib.Probing
import SNetRts.Lib.Run
import Mathlib.Data.Finset.Card
import Mathlib.Data.Finset.Range
import Mathlib.Logic.Function.Basic

/-!
# The hash table of replica

`stream/utils/hashtab.c`: a table from numbers to pointers, with quadratic probing and a capacity that
is a power of two. The number `-1` stands for an empty slot. As long as it is not used as a key the
table is a map, of at most `3 * 2 ^ 28` keys: beyond that the capacity is no `int` any more.
-/

namespace SNet

open Function (update update_of_ne update_self)

open Lib Lib.Probing

variable {ν : Type}

def HASHTAB_NOT_KEY : Int := -1

/-- `hashtab_entry_t`; the pointer of an empty slot may be uninitialised. -/
structure HashtabEntry (ν : Type) where
  key : Int
  value : Option ν

/-- `hashtab_t`. -/
structure Hashtab (ν : Type) where
  capacity : Nat
  count : Nat
  table : Nat → HashtabEntry ν

namespace Hashtab

def emptyTable (ν : Type) : Nat → HashtabEntry ν := fun _ => ⟨HASHTAB_NOT_KEY, none⟩

/-- `HashtabCreate`. -/
def create (ν : Type) (initCap2 : Nat) : Hashtab ν := ⟨2 ^ initCap2, 0, emptyTable ν⟩

/-- The loop that `ProbePut` and `HashtabGet` go through: the first slot that is empty or has the key.
`MOD_SIZE` of a power of two is the remainder. -/
def probeLoop (ht : Hashtab ν) (key : Int) : Nat → Nat → Int → Option Nat
  | 0, _, _ => none
  | fuel + 1, i, pos =>
    let pos := place ht.capacity (pos + i)
    if (ht.table pos).key = HASHTAB_NOT_KEY ∨ (ht.table pos).key = key then some pos
    else probeLoop ht key fuel (i + 1) pos

/-- `ProbePut`. -/
def probePut (ht : Hashtab ν) (key : Int) : Option Nat := ht.probeLoop key ht.capacity 0 key

/-- An item into the slot that `ProbePut` finds. -/
def putEntry (ht : Hashtab ν) (key : Int) (value : Option ν) : Outcome (Hashtab ν) :=
  match ht.probePut key with
  | some pos => .done { ht with table := update ht.table pos ⟨key, value⟩ }
  | none => .fault

/-- The old entries into the new table, from slot `i` on. -/
def rehash (old : Nat → HashtabEntry ν) : Nat → Nat → Hashtab ν → Outcome (Hashtab ν)
  | 0, _, ht => .done ht
  | fuel + 1, i, ht =>
    (if (old i).key ≠ HASHTAB_NOT_KEY then ht.putEntry (old i).key (old i).value else .done ht).bind
      fun ht => rehash old fuel (i + 1) ht

/-- Twice the capacity, an `int`. -/
def resize (ht : Hashtab ν) : Outcome (Hashtab ν) :=
  if 2 ^ 31 ≤ 2 * ht.capacity then .fault
  else rehash ht.table ht.capacity 0 { ht with capacity := 2 * ht.capacity, table := emptyTable ν }

/-- `HashtabPut`. -/
def put (ht : Hashtab ν) (key : Int) (value : ν) : Outcome (Hashtab ν) :=
  let ht := { ht with count := ht.count + 1 }
  (if ht.count > ht.capacity - ht.capacity / 4 then ht.resize else .done ht).bind fun ht =>
    ht.putEntry key (some value)

/-- `HashtabGet`, and what the pointer of `HashtabGetPointer` points to. -/
def get (ht : Hashtab ν) (key : Int) : Option ν :=
  match ht.probeLoop key ht.capacity 0 key with
  | some pos => if (ht.table pos).key = HASHTAB_NOT_KEY then none else (ht.table pos).value
  | none => none

/-! ## Probes -/

theorem probeLoop_eq_some {ht : Hashtab ν} {n : Nat} (hcap : ht.capacity = 2 ^ n) {key : Int} {p : Nat} :
    ht.probePut key = some p ↔ ∃ i, i < 2 ^ n ∧ slot n key i = p ∧
      ((ht.table p).key = HASHTAB_NOT_KEY ∨ (ht.table p).key = key) ∧
      ∀ j, j < i → (ht.table (slot n key j)).key ≠ HASHTAB_NOT_KEY ∧ (ht.table (slot n key j)).key ≠ key := by
  have hpos : 0 < ht.capacity := hcap ▸ Nat.two_pow_pos n
  -- `pos` is the place of the probe before, so that the next place is the slot of the next probe
  have hloop : ∀ (fuel i : Nat) (pos : Int), place ht.capacity (pos + i) = slot n key i →
      (ht.probeLoop key fuel i pos = some p ↔ ∃ j, i ≤ j ∧ j < i + fuel ∧ slot n key j = p ∧
        ((ht.table p).key = HASHTAB_NOT_KEY ∨ (ht.table p).key = key) ∧
        ∀ k, i ≤ k → k < j → (ht.table (slot n key k)).key ≠ HASHTAB_NOT_KEY ∧
          (ht.table (slot n key k)).key ≠ key) := by
    intro fuel
    induction fuel with
    | zero =>
      intro i pos _
      constructor
      · nofun
      · rintro ⟨j, h1, h2, -⟩
        omega
    | succ fuel ih =>
      intro i pos hplace
      unfold probeLoop
      dsimp only
      rw [hplace]
      by_cases hstop : (ht.table (slot n key i)).key = HASHTAB_NOT_KEY ∨
          (ht.table (slot n key i)).key = key
      · rw [if_pos hstop]
        constructor
        · intro h
          cases h
          exact ⟨i, le_refl i, by omega, rfl, hstop, fun k h1 h2 => absurd h1 (by omega)⟩
        · rintro ⟨j, h1, -, rfl, -, hbefore⟩
          rcases Nat.eq_or_lt_of_le h1 with rfl | hlt
          · rfl
          · obtain ⟨hne, hne'⟩ := hbefore i (le_refl i) hlt
            exact absurd hstop (not_or.2 ⟨hne, hne'⟩)
      · rw [if_neg hstop, ih (i + 1) (slot n key i)]
        · constructor
          · rintro ⟨j, h1, h2, h3, h4, hbefore⟩
            refine ⟨j, by omega, by omega, h3, h4, fun k hk hkj => ?_⟩
            rcases Nat.eq_or_lt_of_le hk with rfl | hlt
            · exact not_or.1 hstop
            · exact hbefore k hlt hkj
          · rintro ⟨j, h1, h2, h3, h4, hbefore⟩
            have hne : i ≠ j := by
              rintro rfl
              exact hstop (h3 ▸ h4)
            exact ⟨j, by omega, by omega, h3, h4, fun k hk hkj => hbefore k (by omega) hkj⟩
        · unfold slot
          rw [hcap, place_place_add (Nat.two_pow_pos n)]
          congr 1
          rw [tri]
          push_cast
          ring
  unfold probePut
  rw [hloop ht.capacity 0 key (by unfold slot; rw [hcap]; rfl)]
  constructor
  · rintro ⟨i, -, h2, h3, h4, h5⟩
    exact ⟨i, by omega, h3, h4, fun j hj => h5 j (Nat.zero_le j) hj⟩
  · rintro ⟨i, h2, h3, h4, h5⟩
    exact ⟨i, Nat.zero_le i, by omega, h3, h4, fun j _ hj => h5 j hj⟩

/-! ## The table as a set of entries -/

def Holds (ht : Hashtab ν) (key : Int) (value : Option ν) : Prop :=
  ∃ p, p < ht.capacity ∧ (ht.table p).key = key ∧ (ht.table p).value = value

def keys (ht : Hashtab ν) : Finset Int :=
  ((Finset.range ht.capacity).image fun p => (ht.table p).key).erase HASHTAB_NOT_KEY

theorem mem_keys {ht : Hashtab ν} {key : Int} :
    key ∈ ht.keys ↔ key ≠ HASHTAB_NOT_KEY ∧ ∃ value, ht.Holds key value := by
  unfold keys
  rw [Finset.mem_erase, Finset.mem_image]
  constructor
  · rintro ⟨hne, p, hp, rfl⟩
    exact ⟨hne, _, p, Finset.mem_range.1 hp, rfl, rfl⟩
  · rintro ⟨hne, value, p, hp, rfl, -⟩
    exact ⟨hne, p, Finset.mem_range.2 hp, rfl⟩

/-- The capacity is a power of two, and each entry is found. -/
structure Sound (ht : Hashtab ν) (n : Nat) : Prop where
  capacity : ht.capacity = 2 ^ n
  found : ∀ p, p < 2 ^ n → (ht.table p).key ≠ HASHTAB_NOT_KEY → ht.probePut (ht.table p).key = some p

section

variable {ht : Hashtab ν} {n : Nat}

theorem Sound.exists_empty (h : Sound ht n) (hroom : ht.keys.card < 2 ^ n) :
    ∃ p, p < 2 ^ n ∧ (ht.table p).key = HASHTAB_NOT_KEY := by
  by_contra hnone
  have hfull : ∀ p, p < 2 ^ n → (ht.table p).key ≠ HASHTAB_NOT_KEY :=
    fun p hp he => hnone ⟨p, hp, he⟩
  have hinj : Set.InjOn (fun p => (ht.table p).key) (Finset.range (2 ^ n)) := by
    intro p hp q hq heq
    have hp' := h.found p (by simpa using hp) (hfull p (by simpa using hp))
    have hq' := h.found q (by simpa using hq) (hfull q (by simpa using hq))
    dsimp only at heq
    rw [heq, hq'] at hp'
    exact (Option.some.inj hp').symm
  have hnot : HASHTAB_NOT_KEY ∉ (Finset.range (2 ^ n)).image fun p => (ht.table p).key := by
    intro hmem
    obtain ⟨p, hp, he⟩ := Finset.mem_image.1 hmem
    exact hfull p (Finset.mem_range.1 hp) he
  have hcard : ht.keys.card = 2 ^ n := by
    unfold keys
    rw [h.capacity, Finset.erase_eq_of_notMem hnot, Finset.card_image_of_injOn hinj, Finset.card_range]
  omega

theorem Sound.probe (h : Sound ht n) (hroom : ht.keys.card < 2 ^ n) (key : Int) :
    ∃ p, p < 2 ^ n ∧ ht.probePut key = some p := by
  obtain ⟨q, hq, hempty⟩ := h.exists_empty hroom
  obtain ⟨i, hi, hslot⟩ := exists_slot key hq
  have hex : ∃ i, (ht.table (slot n key i)).key = HASHTAB_NOT_KEY ∨ (ht.table (slot n key i)).key = key :=
    ⟨i, .inl (hslot ▸ hempty)⟩
  have hle : Nat.find hex ≤ i := Nat.find_min' hex (.inl (hslot ▸ hempty))
  refine ⟨slot n key (Nat.find hex), slot_lt n key _, (probeLoop_eq_some h.capacity).2 ?_⟩
  exact ⟨Nat.find hex, by omega, rfl, Nat.find_spec hex, fun j hj => not_or.1 (Nat.find_min hex hj)⟩

theorem Sound.get_of_holds (h : Sound ht n) {key : Int} (hkey : key ≠ HASHTAB_NOT_KEY)
    {value : Option ν} (hholds : ht.Holds key value) : ht.get key = value := by
  obtain ⟨p, hp, hk, hv⟩ := hholds
  have hfound := h.found p (h.capacity ▸ hp) (hk ▸ hkey)
  rw [hk] at hfound
  unfold probePut at hfound
  unfold get
  rw [hfound]
  dsimp only
  rw [if_neg (hk ▸ hkey), hv]

theorem get_of_not_holds {key : Int} (hcap : ht.capacity = 2 ^ n)
    (hnot : ∀ value, ¬ ht.Holds key value) : ht.get key = none := by
  unfold get
  split
  · rename_i p hp
    obtain ⟨i, -, hslot, hkey, -⟩ := (probeLoop_eq_some hcap).1 hp
    have hlt : p < ht.capacity := by
      rw [hcap, ← hslot]
      exact slot_lt n key i
    rcases hkey with hkey | hkey
    · rw [if_pos hkey]
    · exact absurd ⟨p, hlt, hkey, rfl⟩ (hnot _)
  · rfl

theorem Sound.key_ne (h : Sound ht n) {key : Int} {pos p : Nat} (hprobe : ht.probePut key = some pos) (hp : p < 2 ^ n)
    (hne : (ht.table p).key ≠ HASHTAB_NOT_KEY) (hpp : p ≠ pos) : (ht.table p).key ≠ key := by
  intro he
  have hfound := h.found p hp hne
  rw [he, hprobe] at hfound
  exact hpp (Option.some.inj hfound).symm

theorem Sound.write (h : Sound ht n) {key : Int} {pos : Nat} (hkey : key ≠ HASHTAB_NOT_KEY)
    (hprobe : ht.probePut key = some pos) (value : Option ν) :
    Sound { ht with table := update ht.table pos ⟨key, value⟩ } n := by
  have hcap' : ({ ht with table := update ht.table pos ⟨key, value⟩ } : Hashtab ν).capacity =
    2 ^ n := h.capacity
  refine ⟨h.capacity, fun p hp hne => ?_⟩
  obtain ⟨i, hi, hslot, -, hbefore⟩ := (probeLoop_eq_some h.capacity).1 hprobe
  dsimp only at hne ⊢
  by_cases hpp : p = pos
  · -- the slots probed before have not changed
    subst hpp
    rw [update_self]
    refine (probeLoop_eq_some hcap').2 ⟨i, hi, hslot, .inr ?_, fun j hj => ?_⟩
    · exact congrArg HashtabEntry.key (update_self ..)
    · have hslots : slot n key j ≠ p := by
        intro he
        exact absurd (slot_inj (hj.trans hi) hi (he.trans hslot.symm)) (Nat.ne_of_lt hj)
      dsimp only
      rw [update_of_ne hslots]
      exact hbefore j hj
  · rw [update_of_ne hpp] at hne ⊢
    have hne_key := h.key_ne hprobe hp hne hpp
    obtain ⟨i', hi', hslot', hstop', hbefore'⟩ :=
      (probeLoop_eq_some h.capacity).1 (h.found p hp hne)
    refine (probeLoop_eq_some hcap').2 ⟨i', hi', hslot', .inr ?_, fun j hj => ?_⟩
    · exact congrArg HashtabEntry.key (update_of_ne hpp ..)
    · dsimp only
      by_cases hslots : slot n (ht.table p).key j = pos
      · rw [hslots, update_self]
        exact ⟨hkey, hne_key.symm⟩
      · rw [update_of_ne hslots]
        exact hbefore' j hj

theorem Sound.holds_write (h : Sound ht n) {key : Int} {pos : Nat} (hpos : pos < 2 ^ n)
    (hprobe : ht.probePut key = some pos) (value : Option ν) {k : Int} (hk : k ≠ HASHTAB_NOT_KEY) (v : Option ν) :
    ({ ht with table := update ht.table pos ⟨key, value⟩ } : Hashtab ν).Holds k v ↔
      if k = key then v = value else ht.Holds k v := by
  constructor
  · rintro ⟨p, hp, hk', hv⟩
    dsimp only at hp hk' hv
    by_cases hpp : p = pos
    · subst hpp
      rw [update_self] at hk' hv
      rw [if_pos hk'.symm]
      exact hv.symm
    · rw [update_of_ne hpp] at hk' hv
      have hne_key := h.key_ne hprobe (h.capacity ▸ hp) (hk' ▸ hk) hpp
      rw [if_neg (hk' ▸ hne_key)]
      exact ⟨p, hp, hk', hv⟩
  · intro hval
    by_cases hkk : k = key
    · rw [if_pos hkk] at hval
      refine ⟨pos, h.capacity ▸ hpos, ?_, ?_⟩
      · dsimp only
        rw [update_self, hkk]
      · dsimp only
        rw [update_self, hval]
    · rw [if_neg hkk] at hval
      obtain ⟨p, hp, hk', hv⟩ := hval
      have hpp : p ≠ pos := by
        rintro rfl
        -- the slot was empty or had the key that is put
        obtain ⟨-, -, -, hstop, -⟩ := (probeLoop_eq_some h.capacity).1 hprobe
        rcases hstop with hstop | hstop
        · exact hk (hk'.symm.trans hstop)
        · exact hkk (hk'.symm.trans hstop)
      refine ⟨p, hp, ?_, ?_⟩
      · dsimp only
        rw [update_of_ne hpp, hk']
      · dsimp only
        rw [update_of_ne hpp, hv]

theorem Sound.putEntry (h : Sound ht n) (hroom : ht.keys.card < 2 ^ n) {key : Int}
    (hkey : key ≠ HASHTAB_NOT_KEY) (value : Option ν) :
    ∃ ht', ht.putEntry key value = .done ht' ∧ Sound ht' n ∧ ht'.count = ht.count ∧
      ∀ k, k ≠ HASHTAB_NOT_KEY → ∀ v, ht'.Holds k v ↔ if k = key then v = value else ht.Holds k v := by
  obtain ⟨pos, hpos, hprobe⟩ := h.probe hroom key
  unfold Hashtab.putEntry
  rw [hprobe]
  exact ⟨_, rfl, h.write hkey hprobe value, rfl, fun k hk v => h.holds_write hpos hprobe value hk v⟩

theorem card_keys_le (ht : Hashtab ν) : ht.keys.card ≤ ht.capacity := by
  unfold keys
  refine (Finset.card_le_card (Finset.erase_subset ..)).trans (Finset.card_image_le.trans ?_)
  rw [Finset.card_range]

theorem keys_emptyTable (capacity count : Nat) : (⟨capacity, count, emptyTable ν⟩ : Hashtab ν).keys = ∅ := by
  apply Finset.eq_empty_of_forall_notMem
  intro k hk
  obtain ⟨hne, -, p, -, hkey, -⟩ := mem_keys.1 hk
  exact hne hkey.symm

theorem Sound.empty (n count : Nat) : Sound (⟨2 ^ n, count, emptyTable ν⟩ : Hashtab ν) n :=
  ⟨rfl, fun _ _ hne => absurd rfl hne⟩

theorem Sound.recount (h : Sound ht n) (count : Nat) :
    Sound (⟨ht.capacity, count, ht.table⟩ : Hashtab ν) n := by
  have hcap' : (⟨ht.capacity, count, ht.table⟩ : Hashtab ν).capacity = 2 ^ n := h.capacity
  refine ⟨hcap', fun p hp hne => (probeLoop_eq_some hcap').2 ?_⟩
  exact (probeLoop_eq_some h.capacity).1 (h.found p hp hne)

theorem Sound.slot_unique (h : Sound ht n) {p q : Nat} (hp : p < 2 ^ n) (hq : q < 2 ^ n)
    (hne : (ht.table p).key ≠ HASHTAB_NOT_KEY) (heq : (ht.table p).key = (ht.table q).key) : p = q := by
  have hp' := h.found p hp hne
  rw [heq, h.found q hq (heq ▸ hne)] at hp'
  exact (Option.some.inj hp').symm

/-! ## More slots -/

/-- The old entries below `i` are in the new table. -/
def Moved (old ht : Hashtab ν) (i : Nat) : Prop :=
  ∀ k, k ≠ HASHTAB_NOT_KEY → ∀ v, ht.Holds k v ↔
    ∃ p, p < i ∧ (old.table p).key = k ∧ (old.table p).value = v

theorem Moved.card_lt {old ht : Hashtab ν} (hold : Sound old n) {i : Nat} (hi : i ≤ 2 ^ n)
    (h : Moved old ht i) : ht.keys.card < 2 ^ (n + 1) := by
  have hsub : ht.keys ⊆ old.keys := by
    intro k hk
    obtain ⟨hne, v, hholds⟩ := mem_keys.1 hk
    obtain ⟨p, hp, hkey, -⟩ := (h k hne v).1 hholds
    refine mem_keys.2 ⟨hne, _, p, ?_, hkey, rfl⟩
    rw [hold.capacity]
    omega
  have h1 := Finset.card_le_card hsub
  have h2 := card_keys_le old
  have hpos := Nat.two_pow_pos n
  rw [hold.capacity] at h2
  rw [pow_succ]
  omega

theorem rehash_spec {old : Hashtab ν} (hold : Sound old n) (fuel i : Nat) (hi : i + fuel = 2 ^ n)
    {ht : Hashtab ν} (h : Sound ht (n + 1)) (hmoved : Moved old ht i) :
    ∃ ht', rehash old.table fuel i ht = .done ht' ∧ Sound ht' (n + 1) ∧ ht'.count = ht.count ∧
      Moved old ht' (2 ^ n) := by
  induction fuel generalizing i ht with
  | zero =>
    have hlast : i = 2 ^ n := by omega
    subst hlast
    exact ⟨ht, rfl, h, rfl, hmoved⟩
  | succ fuel ih =>
    unfold rehash
    by_cases hempty : (old.table i).key = HASHTAB_NOT_KEY
    · rw [if_neg (not_not.2 hempty), Outcome.done_bind]
      refine ih (i + 1) (by omega) h fun k hk v => (hmoved k hk v).trans ?_
      constructor
      · rintro ⟨p, hp, hkey, hv⟩
        exact ⟨p, by omega, hkey, hv⟩
      · rintro ⟨p, hp, hkey, hv⟩
        have hne : p ≠ i := by
          rintro rfl
          exact hk (hkey.symm.trans hempty)
        exact ⟨p, by omega, hkey, hv⟩
    · rw [if_pos hempty]
      obtain ⟨ht', hput, hsound, hcount, hholds⟩ :=
        h.putEntry (hmoved.card_lt hold (by omega)) hempty (old.table i).value
      rw [hput, Outcome.done_bind, ← hcount]
      refine ih (i + 1) (by omega) hsound fun k hk v => (hholds k hk v).trans ?_
      by_cases hkey : k = (old.table i).key
      · rw [if_pos hkey]
        constructor
        · intro hv
          exact ⟨i, by omega, hkey.symm, hv.symm⟩
        · rintro ⟨p, hp, hkey', hv⟩
          have hsame : p = i :=
            hold.slot_unique (by omega) (by omega) (hkey' ▸ hk) (hkey'.trans hkey)
          rw [← hsame, hv]
      · rw [if_neg hkey, hmoved k hk v]
        constructor
        · rintro ⟨p, hp, hkey', hv⟩
          exact ⟨p, by omega, hkey', hv⟩
        · rintro ⟨p, hp, hkey', hv⟩
          have hne : p ≠ i := by
            rintro rfl
            exact hkey hkey'.symm
          exact ⟨p, by omega, hkey', hv⟩

theorem Sound.resize (h : Sound ht n) (hn : n < 30) : ∃ ht', ht.resize = .done ht' ∧
    Sound ht' (n + 1) ∧ ht'.count = ht.count ∧
      ∀ k, k ≠ HASHTAB_NOT_KEY → ∀ v, ht'.Holds k v ↔ ht.Holds k v := by
  have hcap : 2 * ht.capacity = 2 ^ (n + 1) := by
    rw [h.capacity, pow_succ]
    ring
  have hle : 2 ^ (n + 1) ≤ 2 ^ 30 := Nat.pow_le_pow_right (by decide) hn
  unfold Hashtab.resize
  rw [hcap, if_neg (by omega), h.capacity]
  obtain ⟨ht', hdone, hsound, hcount, hmoved⟩ := rehash_spec h (2 ^ n) 0 (by omega)
    (Sound.empty (n + 1) ht.count) fun k hk v => by
      constructor
      · rintro ⟨p, -, hkey, -⟩
        exact absurd hkey.symm hk
      · rintro ⟨p, hp, -⟩
        omega
  refine ⟨ht', hdone, hsound, hcount, fun k hk v => (hmoved k hk v).trans ?_⟩
  unfold Holds
  rw [h.capacity]

end

/-! ## The table as a map -/

def maxKeys : Nat := 3 * 2 ^ 28

/-- The table is the map. -/
structure Represents (ht : Hashtab ν) (m : Int → Option ν) : Prop where
  sound : ∃ n, 2 ≤ n ∧ n ≤ 30 ∧ Sound ht n
  entries : ∀ k, k ≠ HASHTAB_NOT_KEY → ∀ v, ht.Holds k v ↔ ∃ x, m k = some x ∧ v = some x
  room : ht.keys.card ≤ ht.count ∧ 4 * ht.count ≤ 3 * ht.capacity

theorem Represents.create {initCap2 : Nat} (h : 2 ≤ initCap2) (h' : initCap2 ≤ 30) :
    Represents (create ν initCap2) fun _ => none := by
  refine ⟨⟨initCap2, h, h', Sound.empty _ _⟩, fun k hk v => ?_, ?_, Nat.zero_le _⟩
  · constructor
    · rintro ⟨p, -, hkey, -⟩
      exact absurd hkey.symm hk
    · rintro ⟨x, hx, -⟩
      cases hx
  · unfold Hashtab.create
    rw [keys_emptyTable]
    exact Nat.le_refl 0

section

variable {ht : Hashtab ν} {m : Int → Option ν}

theorem Represents.get (h : Represents ht m) {key : Int} (hkey : key ≠ HASHTAB_NOT_KEY) :
    ht.get key = m key := by
  obtain ⟨n, -, -, hsound⟩ := h.sound
  cases hm : m key with
  | none =>
    refine get_of_not_holds hsound.capacity fun v hholds => ?_
    obtain ⟨x, hx, -⟩ := (h.entries key hkey v).1 hholds
    cases hm.symm.trans hx
  | some x => exact hsound.get_of_holds hkey ((h.entries key hkey _).2 ⟨x, hm, rfl⟩)

theorem Represents.congr (h : Represents ht m) {m' : Int → Option ν}
    (heq : ∀ k, k ≠ HASHTAB_NOT_KEY → m k = m' k) : Represents ht m' := by
  refine ⟨h.sound, fun k hk v => ?_, h.room⟩
  rw [← heq k hk]
  exact h.entries k hk v

theorem Represents.count_le (h : Represents ht m) : ht.count ≤ maxKeys := by
  obtain ⟨n, -, hn, hsound⟩ := h.sound
  have hcap : ht.capacity ≤ 2 ^ 30 := hsound.capacity ▸ Nat.pow_le_pow_right (by decide) hn
  have hroom := h.room.2
  unfold maxKeys
  omega

theorem Represents.grown (h : Represents ht m) (hroom : ht.count < maxKeys) :
    ∃ ht₁ n₁, (if ht.count + 1 > ht.capacity - ht.capacity / 4 then
        (⟨ht.capacity, ht.count + 1, ht.table⟩ : Hashtab ν).resize
      else .done ⟨ht.capacity, ht.count + 1, ht.table⟩) = .done ht₁ ∧ 2 ≤ n₁ ∧ n₁ ≤ 30 ∧
      Sound ht₁ n₁ ∧ ht₁.count = ht.count + 1 ∧ 4 * (ht.count + 1) ≤ 3 * 2 ^ n₁ ∧
      ∀ k, k ≠ HASHTAB_NOT_KEY → ∀ v, ht₁.Holds k v ↔ ht.Holds k v := by
  obtain ⟨n, hn, hn', hsound⟩ := h.sound
  have hdvd : 4 * (2 ^ n / 4) = 2 ^ n := Nat.mul_div_cancel' (Nat.pow_dvd_pow 2 hn)
  have hsound' := hsound.recount (ht.count + 1)
  by_cases hfull : ht.count + 1 > ht.capacity - ht.capacity / 4
  · have hn30 : n < 30 := by
      by_contra hge
      have hn30 : n = 30 := by omega
      subst hn30
      have hcap := hsound.capacity
      unfold maxKeys at hroom
      omega
    obtain ⟨ht₁, hdone, hsound₁, hcount₁, hholds₁⟩ := hsound'.resize hn30
    refine ⟨ht₁, n + 1, ?_, by omega, by omega, hsound₁, hcount₁, ?_, hholds₁⟩
    · rw [if_pos hfull, hdone]
    · have hroom := h.room.2
      have hpos : 2 ^ 2 ≤ 2 ^ n := Nat.pow_le_pow_right (by decide) hn
      rw [hsound.capacity] at hroom
      rw [pow_succ]
      omega
  · refine ⟨_, n, if_neg hfull, hn, hn', hsound', rfl, ?_, fun _ _ _ => Iff.rfl⟩
    have hcap := hsound.capacity
    omega

theorem Represents.put (h : Represents ht m) {key : Int} (hkey : key ≠ HASHTAB_NOT_KEY) (value : ν)
    (hroom : ht.count < maxKeys) : ∃ ht', ht.put key value = .done ht' ∧
      Represents ht' (update m key (some value)) ∧ ht'.count = ht.count + 1 := by
  obtain ⟨ht₁, n₁, hresized, hn₁, hn₁', hsound₁, hcount₁, hroom₁, hholds₁⟩ := h.grown hroom
  have hkeys₁ : ht₁.keys.card ≤ ht.count := by
    have hsub : ht₁.keys ⊆ ht.keys := by
      intro k hk
      obtain ⟨hne, v, hholds⟩ := mem_keys.1 hk
      exact mem_keys.2 ⟨hne, v, (hholds₁ k hne v).1 hholds⟩
    exact (Finset.card_le_card hsub).trans h.room.1
  have hlt : ht₁.keys.card < 2 ^ n₁ := by
    have hpos := Nat.two_pow_pos n₁
    omega
  obtain ⟨ht₂, hput, hsound₂, hcount₂, hholds₂⟩ := hsound₁.putEntry hlt hkey (some value)
  refine ⟨ht₂, ?_, ⟨⟨n₁, hn₁, hn₁', hsound₂⟩, fun k hk v => ?_, ?_, ?_⟩, hcount₂.trans hcount₁⟩
  · unfold Hashtab.put
    dsimp only
    rw [hresized, Outcome.done_bind, hput]
  · rw [hholds₂ k hk v]
    by_cases hkk : k = key
    · rw [if_pos hkk, hkk, update_self]
      constructor
      · rintro rfl
        exact ⟨value, rfl, rfl⟩
      · rintro ⟨x, hx, rfl⟩
        cases hx
        rfl
    · rw [if_neg hkk, update_of_ne hkk, hholds₁ k hk v, h.entries k hk v]
  · have hsub : ht₂.keys ⊆ insert key ht₁.keys := by
      intro k hk
      obtain ⟨hne, v, hholds⟩ := mem_keys.1 hk
      rw [hholds₂ k hne v] at hholds
      by_cases hkk : k = key
      · exact Finset.mem_insert.2 (.inl hkk)
      · rw [if_neg hkk] at hholds
        exact Finset.mem_insert_of_mem (mem_keys.2 ⟨hne, v, hholds⟩)
    have h1 := Finset.card_le_card hsub
    have h2 := Finset.card_insert_le key ht₁.keys
    omega
  · rw [hcount₂, hcount₁, hsound₂.capacity]
    exact hroom₁

theorem Represents.put_fault (h : Represents ht m) (key : Int) (value : ν) (hfull : ht.count = maxKeys) :
    ht.put key value = .fault := by
  obtain ⟨n, hn, hn', hsound⟩ := h.sound
  have hroom := h.room.2
  have hle : 2 ^ n ≤ 2 ^ 30 := Nat.pow_le_pow_right (by decide) hn'
  rw [hsound.capacity, hfull] at hroom
  have hcap : ht.capacity = 2 ^ 30 := by
    rw [hsound.capacity]
    unfold maxKeys at hroom
    omega
  unfold Hashtab.put
  dsimp only
  rw [hfull, hcap, if_pos (by decide)]
  unfold Hashtab.resize
  dsimp only
  rw [if_pos (by decide)]
  rfl

end

end Hashtab

end SNet
