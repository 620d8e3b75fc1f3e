import SNetRts.Stream.Hashtab
import Mathlib.Data.List.Nodup

/-!
# Runs of the hash table

Sequences of `HashtabPut`, `HashtabGet` and `HashtabGetPointer` calls, beside the same calls on a map,
and the iterators of a table. The number `-1` marks an empty slot, so that an item with this key is not
found again; and `HashtabPut` counts every call, so that after `3 * 2 ^ 28` of them the capacity does
not double any more. In all other runs the table is the map.
-/

namespace SNet

open Function (update update_of_ne update_self)

open Lib List

variable {ν : Type}

namespace Hashtab

/-- `HashtabGetPointer`, as the slot that is pointed into. -/
def getPointer (ht : Hashtab ν) (key : Int) : Option Nat :=
  match ht.probeLoop key ht.capacity 0 key with
  | some pos => if (ht.table pos).key = HASHTAB_NOT_KEY then none else some pos
  | none => none

/-- A write through the pointer of `HashtabGetPointer`, if there is one. -/
def assign (ht : Hashtab ν) (key : Int) (value : ν) : Hashtab ν :=
  match ht.getPointer key with
  | some pos => { ht with table := update ht.table pos { ht.table pos with value := some value } }
  | none => ht

/-! ## Iterators -/

/-- `hashtab_iter_t`, of a given table. -/
structure Iter where
  idx : Int
  found : Bool

/-- `HashtabIterCreate` and `HashtabIterReset`. -/
def iterCreate : Iter := ⟨-1, false⟩

/-- The loop of `HashtabIterHasNext`. -/
def hasNextLoop (ht : Hashtab ν) : Nat → Iter → Option Iter
  | 0, _ => none
  | fuel + 1, it =>
    if it.found then some it
    else if it.idx + 1 < ht.capacity then
      hasNextLoop ht fuel ⟨it.idx + 1, decide ((ht.table (it.idx + 1).toNat).key ≠ HASHTAB_NOT_KEY)⟩
    else some ⟨it.idx + 1, false⟩

/-- `HashtabIterHasNext`. -/
def iterHasNext (ht : Hashtab ν) (it : Iter) : Option (Bool × Iter) :=
  (ht.hasNextLoop (ht.capacity + 2) it).map fun it => (it.found, it)

/-- `HashtabIterNext`. -/
def iterNext (ht : Hashtab ν) (it : Iter) : Option (Option ν × Iter) := do
  let (found, it) ← if it.found then some (true, it) else ht.iterHasNext it
  if found then return ((ht.table it.idx.toNat).value, { it with found := false })
  else return (none, it)

/-- The calls of an iterator. -/
inductive IterCall where
  | hasNext
  | next

/-- What the calls return. -/
inductive IterResult (ν : Type) where
  | flag (b : Bool)
  | value (v : Option ν)

def iterRun (ht : Hashtab ν) (it : Iter) : List IterCall → Option (List (IterResult ν))
  | [] => some []
  | .hasNext :: calls => do
    let (b, it) ← ht.iterHasNext it
    return .flag b :: (← iterRun ht it calls)
  | .next :: calls => do
    let (v, it) ← ht.iterNext it
    return .value v :: (← iterRun ht it calls)

/-- The same calls while the values `vs` are left. -/
def iterSeq (vs : List (Option ν)) : List IterCall → List (IterResult ν)
  | [] => []
  | .hasNext :: calls => .flag (!vs.isEmpty) :: iterSeq vs calls
  | .next :: calls => .value vs.head?.join :: iterSeq vs.tail calls

/-- The slots that are not empty, from `i` on. -/
def slotsFrom (ht : Hashtab ν) (i : Nat) : List Nat :=
  (List.range' i (ht.capacity - i)).filter fun p => (ht.table p).key ≠ HASHTAB_NOT_KEY

section

variable {ht : Hashtab ν} {i : Nat}

theorem slotsFrom_of_le (h : ht.capacity ≤ i) : ht.slotsFrom i = [] := by
  rw [slotsFrom, Nat.sub_eq_zero_of_le h]
  rfl

theorem slotsFrom_of_lt (h : i < ht.capacity) : ht.slotsFrom i =
    if (ht.table i).key ≠ HASHTAB_NOT_KEY then i :: ht.slotsFrom (i + 1) else ht.slotsFrom (i + 1) := by
  have hsub : ht.capacity - i = (ht.capacity - (i + 1)) + 1 := by omega
  rw [slotsFrom, hsub, range'_succ, filter_cons, slotsFrom]
  simp

def Iter.Left (ht : Hashtab ν) (it : Iter) (ps : List Nat) : Prop :=
  if it.found then ∃ p : Nat, it.idx = p ∧ ps = p :: ht.slotsFrom (p + 1)
  else -1 ≤ it.idx ∧ ps = ht.slotsFrom (it.idx + 1).toNat

theorem iterCreate_left : iterCreate.Left ht (ht.slotsFrom 0) := ⟨Int.le_refl _, rfl⟩

theorem hasNextLoop_spec {fuel : Nat} {it : Iter} {ps : List Nat} (h : it.Left ht ps)
    (hfuel : it.found = false → ht.capacity < (it.idx + 1).toNat + fuel) (hpos : 0 < fuel) :
    ∃ it', ht.hasNextLoop fuel it = some it' ∧ it'.Left ht ps ∧ it'.found = !ps.isEmpty := by
  induction fuel generalizing it with
  | zero => cases hpos
  | succ fuel ih =>
    rw [hasNextLoop]
    rcases hfound : it.found with _ | _
    · have hleft := h
      rw [Iter.Left, hfound] at hleft
      obtain ⟨hidx, hps⟩ := hleft
      have hfuel := hfuel hfound
      obtain ⟨i, hi⟩ : ∃ i : Nat, it.idx + 1 = i := ⟨(it.idx + 1).toNat, by omega⟩
      rw [hi, Int.toNat_natCast] at hps hfuel
      rw [if_neg Bool.false_ne_true, hi, Int.toNat_natCast]
      by_cases hlt : i < ht.capacity
      · rw [if_pos (Int.ofNat_lt.2 hlt)]
        apply ih
        · rw [slotsFrom_of_lt hlt] at hps
          by_cases hkey : (ht.table i).key ≠ HASHTAB_NOT_KEY
          · rw [if_pos hkey] at hps
            rw [Iter.Left, decide_eq_true hkey]
            exact ⟨i, rfl, hps⟩
          · rw [if_neg hkey] at hps
            rw [Iter.Left, decide_eq_false hkey]
            refine ⟨?_, ?_⟩
            · show (-1 : Int) ≤ i
              omega
            · rw [hps]
              rfl
        · intro _
          show ht.capacity < ((i : Int) + 1).toNat + fuel
          omega
        · omega
      · rw [if_neg (by omega)]
        rw [slotsFrom_of_le (Nat.not_lt.1 hlt)] at hps
        subst hps
        refine ⟨_, rfl, ⟨?_, ?_⟩, rfl⟩
        · show (-1 : Int) ≤ i
          omega
        · show [] = ht.slotsFrom ((i : Int) + 1).toNat
          rw [slotsFrom_of_le (by omega)]
    · rw [Iter.Left, hfound] at h
      obtain ⟨p, hp, rfl⟩ := h
      rw [if_pos rfl]
      refine ⟨it, rfl, ?_, hfound⟩
      rw [Iter.Left, hfound]
      exact ⟨p, hp, rfl⟩

theorem iterHasNext_spec {it : Iter} {ps : List Nat} (h : it.Left ht ps) :
    ∃ it', ht.iterHasNext it = some (!ps.isEmpty, it') ∧ it'.Left ht ps ∧ it'.found = !ps.isEmpty := by
  have hfuel : it.found = false → ht.capacity < (it.idx + 1).toNat + (ht.capacity + 2) := by
    intro _
    omega
  obtain ⟨it', hloop, hleft, hfound⟩ := hasNextLoop_spec h hfuel (by omega)
  refine ⟨it', ?_, hleft, hfound⟩
  rw [iterHasNext, hloop, Option.map_some, hfound]

theorem iterNext_spec {it : Iter} {ps : List Nat} (h : it.Left ht ps) :
    ∃ it', ht.iterNext it = some ((ps.map fun p => (ht.table p).value).head?.join, it') ∧
      it'.Left ht ps.tail := by
  -- an iterator that has found a slot gives it and goes on behind it
  have hgive : ∀ it : Iter, it.Left ht ps → it.found = true →
      (ht.table it.idx.toNat).value = (ps.map fun p => (ht.table p).value).head?.join ∧
        ({ it with found := false } : Iter).Left ht ps.tail := by
    intro it h hfound
    rw [Iter.Left, hfound] at h
    obtain ⟨p, hp, rfl⟩ := h
    rw [hp]
    refine ⟨rfl, ?_, rfl⟩
    show (-1 : Int) ≤ p
    omega
  rcases hfound : it.found with _ | _
  · obtain ⟨it', hhas, hleft, hfound'⟩ := iterHasNext_spec h
    rw [iterNext, hfound, if_neg Bool.false_ne_true, hhas, Option.bind_eq_bind, Option.bind_some]
    cases ps with
    | nil => exact ⟨it', rfl, hleft⟩
    | cons p ps =>
      obtain ⟨hvalue, hleft'⟩ := hgive it' hleft hfound'
      refine ⟨{ it' with found := false }, ?_, hleft'⟩
      rw [← hvalue]
      rfl
  · obtain ⟨hvalue, hleft'⟩ := hgive it h hfound
    refine ⟨{ it with found := false }, ?_, hleft'⟩
    rw [iterNext, hfound, if_pos rfl, ← hvalue]
    rfl

theorem iterRun_of_left {it : Iter} {ps : List Nat} (h : it.Left ht ps) (calls : List IterCall) :
    ht.iterRun it calls = some (iterSeq (ps.map fun p => (ht.table p).value) calls) := by
  induction calls generalizing it ps with
  | nil => rfl
  | cons call calls ih =>
    cases call with
    | hasNext =>
      obtain ⟨it', hhas, hleft, -⟩ := iterHasNext_spec h
      rw [iterRun, hhas, Option.bind_eq_bind, Option.bind_some]
      simp only [ih hleft, iterSeq, isEmpty_map]
      rfl
    | next =>
      obtain ⟨it', hnext, hleft⟩ := iterNext_spec h
      rw [iterRun, hnext, Option.bind_eq_bind, Option.bind_some]
      simp only [ih hleft, iterSeq, map_tail]
      rfl

end

/-! ## One call -/

/-- The calls on a table, with writes through the pointers that it gives. -/
inductive HashtabOp (ν : Type) where
  | put (key : Int) (value : ν)
  | get (key : Int)
  | getPointer (key : Int)
  | assign (key : Int) (value : ν)

/-- One call: what it returns, of `HashtabGetPointer` the value that is pointed to. -/
def exec (ht : Hashtab ν) : HashtabOp ν → Outcome (Option ν × Hashtab ν)
  | .put key value => (ht.put key value).bind fun ht => .done (none, ht)
  | .get key => .done (ht.get key, ht)
  | .getPointer key => .done ((ht.getPointer key).bind fun pos => (ht.table pos).value, ht)
  | .assign key value => .done (none, ht.assign key value)

def execMap (m : Int → Option ν) : HashtabOp ν → Option ν × (Int → Option ν)
  | .put key value => (none, update m key (some value))
  | .get key | .getPointer key => (m key, m)
  | .assign key value => (none, update m key ((m key).map fun _ => value))

/-- The table is the map: every key is looked up, there is a slot for every key, and an iterator yields
the value of every key once, however its calls follow each other. -/
structure IsMapOf (ht : Hashtab ν) (m : Int → Option ν) : Prop where
  get : ∀ key, ht.get key = m key
  pointer : ∀ key, (ht.getPointer key).isSome = (m key).isSome
  probe : ∀ key, ht.probePut key ≠ none
  iter : ∃ ks : List Int, ks.Nodup ∧ (∀ k, k ∈ ks ↔ m k ≠ none) ∧
    ∀ calls, ht.iterRun iterCreate calls = some (iterSeq (ks.map m) calls)

/-- In all of the run the table is the map, and each call returns what it does of the map. -/
def IsMap (ht : Hashtab ν) (m : Int → Option ν) : List (HashtabOp ν) → Prop
  | [] => ht.IsMapOf m
  | op :: ops => ht.IsMapOf m ∧ ∃ ht', ht.exec op = .done ((execMap m op).1, ht') ∧
    IsMap ht' (execMap m op).2 ops

def HashtabOp.Keyed : HashtabOp ν → Prop
  | .put key _ => key ≠ HASHTAB_NOT_KEY
  | _ => True

/-- The call is a `HashtabPut`. -/
def HashtabOp.isPut : HashtabOp ν → Bool
  | .put _ _ => true
  | _ => false

section

variable {ht : Hashtab ν} {m : Int → Option ν} {n : Nat} {key : Int}

theorem bind_getPointer (ht : Hashtab ν) (key : Int) :
    ((ht.getPointer key).bind fun pos => (ht.table pos).value) = ht.get key := by
  rw [getPointer, get]
  cases ht.probeLoop key ht.capacity 0 key with
  | none => rfl
  | some pos =>
    dsimp only
    split <;> rfl

theorem get_notKey (hcap : ht.capacity = 2 ^ n) : ht.get HASHTAB_NOT_KEY = none := by
  rw [get]
  split
  · rename_i pos hpos
    obtain ⟨-, -, -, hkey, -⟩ := (probeLoop_eq_some hcap).1 hpos
    rw [if_pos (or_self_iff.1 hkey)]
  · rfl

theorem getPointer_eq_some {pos : Nat} (hcap : ht.capacity = 2 ^ n) (h : ht.getPointer key = some pos) :
    ht.probePut key = some pos ∧ pos < ht.capacity ∧ (ht.table pos).key = key ∧ key ≠ HASHTAB_NOT_KEY := by
  rw [getPointer] at h
  split at h
  · rename_i p hp
    split at h
    case isTrue => cases h
    case isFalse hne =>
      cases h
      obtain ⟨i, -, hslot, hkey, -⟩ := (probeLoop_eq_some hcap).1 hp
      have hkey := hkey.resolve_left hne
      refine ⟨hp, ?_, hkey, hkey ▸ hne⟩
      rw [hcap, ← hslot]
      exact Probing.slot_lt n key i
  · cases h

theorem Represents.get_all (h : Represents ht m) (h0 : m HASHTAB_NOT_KEY = none) (key : Int) :
    ht.get key = m key := by
  obtain ⟨n, -, -, hsound⟩ := h.sound
  by_cases hkey : key = HASHTAB_NOT_KEY
  · rw [hkey, h0]
    exact get_notKey hsound.capacity
  · exact h.get hkey

theorem Represents.isSome_getPointer (h : Represents ht m) (h0 : m HASHTAB_NOT_KEY = none) (key : Int) :
    (ht.getPointer key).isSome = (m key).isSome := by
  obtain ⟨n, -, -, hsound⟩ := h.sound
  have hget := h.get_all h0 key
  rw [← bind_getPointer] at hget
  rcases hp : ht.getPointer key with _ | pos
  · rw [hp] at hget
    rw [← hget]
    rfl
  · -- an entry of the table has a value
    obtain ⟨-, hlt, hk, hne⟩ := getPointer_eq_some hsound.capacity hp
    obtain ⟨x, hx, -⟩ := (h.entries key hne _).1 ⟨pos, hlt, hk, rfl⟩
    rw [hx]
    rfl

theorem Represents.card_keys_lt (h : Represents ht m) : ht.keys.card < ht.capacity := by
  obtain ⟨n, -, -, hsound⟩ := h.sound
  have hpos := Nat.two_pow_pos n
  have hcap := hsound.capacity
  have hroom := h.room
  omega

theorem Represents.iter (h : Represents ht m) (h0 : m HASHTAB_NOT_KEY = none) :
    ∃ ks : List Int, ks.Nodup ∧ (∀ k, k ∈ ks ↔ m k ≠ none) ∧
      ∀ calls, ht.iterRun iterCreate calls = some (iterSeq (ks.map m) calls) := by
  obtain ⟨n, -, -, hsound⟩ := h.sound
  have hmem : ∀ p, p ∈ ht.slotsFrom 0 ↔ p < ht.capacity ∧ (ht.table p).key ≠ HASHTAB_NOT_KEY := by
    intro p
    simp [slotsFrom]
  refine ⟨(ht.slotsFrom 0).map fun p => (ht.table p).key, ?_, ?_, ?_⟩
  · apply List.Nodup.map_on
    · intro p hp q hq heq
      obtain ⟨hp, hne⟩ := (hmem p).1 hp
      obtain ⟨hq, -⟩ := (hmem q).1 hq
      rw [hsound.capacity] at hp hq
      exact hsound.slot_unique hp hq hne heq
    · exact List.Nodup.filter _ nodup_range'
  · intro k
    rw [List.mem_map]
    constructor
    · rintro ⟨p, hp, rfl⟩
      obtain ⟨hlt, hne⟩ := (hmem p).1 hp
      obtain ⟨x, hx, -⟩ := (h.entries _ hne _).1 ⟨p, hlt, rfl, rfl⟩
      rw [hx]
      nofun
    · intro hk
      obtain ⟨x, hx⟩ := Option.ne_none_iff_exists'.1 hk
      have hne : k ≠ HASHTAB_NOT_KEY := by
        rintro rfl
        exact hk h0
      obtain ⟨p, hlt, hkey, -⟩ := (h.entries k hne _).2 ⟨x, hx, rfl⟩
      exact ⟨p, (hmem p).2 ⟨hlt, hkey ▸ hne⟩, hkey⟩
  · intro calls
    rw [iterRun_of_left iterCreate_left, map_map]
    congr 2
    apply map_congr_left
    intro p hp
    obtain ⟨hlt, hne⟩ := (hmem p).1 hp
    obtain ⟨x, hx, hv⟩ := (h.entries _ hne _).1 ⟨p, hlt, rfl, rfl⟩
    rw [hv]
    exact hx.symm

theorem Represents.isMapOf (h : Represents ht m) (h0 : m HASHTAB_NOT_KEY = none) : ht.IsMapOf m where
  get := h.get_all h0
  pointer := h.isSome_getPointer h0
  probe key := by
    obtain ⟨n, -, -, hsound⟩ := h.sound
    obtain ⟨p, -, hp⟩ := hsound.probe (hsound.capacity ▸ h.card_keys_lt) key
    rw [hp]
    nofun
  iter := h.iter h0

theorem Represents.assign (h : Represents ht m) (h0 : m HASHTAB_NOT_KEY = none) (key : Int) (value : ν) :
    Represents (ht.assign key value) (update m key ((m key).map fun _ => value)) ∧
      (ht.assign key value).count = ht.count := by
  obtain ⟨n, hn, hn', hsound⟩ := h.sound
  have hsome := h.isSome_getPointer h0 key
  rcases hp : ht.getPointer key with _ | pos
  · rw [hp] at hsome
    have hnone : m key = none := by
      rw [← Option.isNone_iff_eq_none, ← Option.not_isSome, ← hsome]
      rfl
    rw [Hashtab.assign, hp, hnone, Option.map_none, ← hnone, Function.update_eq_self]
    exact ⟨h, rfl⟩
  · obtain ⟨hprobe, hlt, hk, hne⟩ := getPointer_eq_some hsound.capacity hp
    rw [hp] at hsome
    obtain ⟨x, hx⟩ := Option.isSome_iff_exists.1 hsome.symm
    obtain ⟨ht', hput, hsound', hcount, hholds⟩ :=
      hsound.putEntry (hsound.capacity ▸ h.card_keys_lt) hne (some value)
    have hassign : ht.assign key value = ht' := by
      rw [Hashtab.putEntry, hprobe] at hput
      cases hput
      rw [Hashtab.assign, hp, ← hk]
    rw [hassign, hx]
    refine ⟨⟨⟨n, hn, hn', hsound'⟩, ?_, ?_, ?_⟩, hcount⟩
    · intro k hk v
      rw [hholds k hk v]
      by_cases hkk : k = key
      · rw [if_pos hkk, hkk, update_self]
        constructor
        · rintro rfl
          exact ⟨value, rfl, rfl⟩
        · rintro ⟨y, hy, rfl⟩
          cases hy
          rfl
      · rw [if_neg hkk, update_of_ne hkk]
        exact h.entries k hk v
    · have hsub : ht'.keys ⊆ ht.keys := by
        intro k hkmem
        obtain ⟨hk, v, hv⟩ := mem_keys.1 hkmem
        rw [hholds k hk v] at hv
        split at hv
        case isTrue hkk =>
          subst hkk
          exact mem_keys.2 ⟨hne, _, pos, hlt, by assumption, rfl⟩
        case isFalse => exact mem_keys.2 ⟨hk, v, hv⟩
      rw [hcount]
      exact (Finset.card_le_card hsub).trans h.room.1
    · rw [hcount, hsound'.capacity, ← hsound.capacity]
      exact h.room.2

theorem put_capacity {ht' : Hashtab ν} {value : ν} (h : Represents ht m) (hput : ht.put key value = .done ht') :
    ∃ n, ht'.capacity = 2 ^ n := by
  obtain ⟨n, -, -, hsound⟩ := h.sound
  have hentry : ∀ {ht ht' : Hashtab ν} {key : Int} {value : Option ν},
      ht.putEntry key value = .done ht' → ht'.capacity = ht.capacity := by
    intro ht ht' key value hput
    rw [putEntry] at hput
    split at hput
    · cases hput
      rfl
    · cases hput
  obtain ⟨ht₁, hgrow, hput⟩ := Outcome.bind_eq_done.1 hput
  rw [hentry hput]
  split at hgrow
  case isTrue =>
    have hn : n < 30 := by
      by_contra hge
      rw [Hashtab.resize, if_pos] at hgrow
      · cases hgrow
      · show 2 ^ 31 ≤ 2 * ht.capacity
        have := Nat.pow_le_pow_right (n := 2) (by decide) (Nat.not_lt.1 hge)
        rw [hsound.capacity]
        omega
    obtain ⟨ht₂, hdone, hsound₂, -, -⟩ := (hsound.recount (ht.count + 1)).resize hn
    rw [hdone] at hgrow
    cases hgrow
    exact ⟨n + 1, hsound₂.capacity⟩
  case isFalse =>
    cases hgrow
    exact ⟨n, hsound.capacity⟩

/-! ## Runs -/

theorem IsMap.isMapOf {ops : List (HashtabOp ν)} (h : ht.IsMap m ops) : ht.IsMapOf m := by
  cases ops with
  | nil => exact h
  | cons op ops => exact h.1

def HashtabOp.counts (op : HashtabOp ν) : Nat := if op.isPut then 1 else 0

theorem Represents.exec (h : Represents ht m) (h0 : m HASHTAB_NOT_KEY = none) {op : HashtabOp ν}
    (hkeyed : op.Keyed) (hroom : ht.count + op.counts ≤ maxKeys) :
    ∃ ht', ht.exec op = .done ((execMap m op).1, ht') ∧ Represents ht' (execMap m op).2 ∧
      (execMap m op).2 HASHTAB_NOT_KEY = none ∧ ht'.count = ht.count + op.counts := by
  cases op with
  | put key value =>
    obtain ⟨ht', hput, h', hcount⟩ := h.put hkeyed value hroom
    refine ⟨ht', ?_, h', ?_, hcount⟩
    · rw [Hashtab.exec, hput]
      rfl
    · show update m key (some value) HASHTAB_NOT_KEY = none
      rw [update_of_ne (Ne.symm hkeyed), h0]
  | get key =>
    refine ⟨ht, ?_, h, h0, rfl⟩
    rw [Hashtab.exec, h.get_all h0]
    rfl
  | getPointer key =>
    refine ⟨ht, ?_, h, h0, rfl⟩
    rw [Hashtab.exec, bind_getPointer, h.get_all h0]
    rfl
  | assign key value =>
    obtain ⟨h', hcount⟩ := h.assign h0 key value
    refine ⟨_, rfl, h', ?_, hcount⟩
    show update m key ((m key).map fun _ => value) HASHTAB_NOT_KEY = none
    by_cases hkey : key = HASHTAB_NOT_KEY
    · rw [hkey, update_self, h0]
      rfl
    · rw [update_of_ne (Ne.symm hkey), h0]

theorem Represents.keyed_of_exec (h : Represents ht m) {op : HashtabOp ν} {r : Option ν} {ht' : Hashtab ν}
    (hexec : ht.exec op = .done (r, ht')) (hof : ht'.IsMapOf (execMap m op).2) :
    op.Keyed ∧ ht.count + op.counts ≤ maxKeys := by
  have hle := h.count_le
  cases op with
  | put key value =>
    obtain ⟨ht₁, hput, hdone⟩ := Outcome.bind_eq_done.1 hexec
    cases hdone
    have hlt : ht.count < maxKeys := by
      by_contra hge
      rw [h.put_fault key value (by omega)] at hput
      cases hput
    refine ⟨?_, hlt⟩
    rintro rfl
    -- the table has the item in an empty slot
    obtain ⟨n, hcap⟩ := put_capacity h hput
    have hget := hof.get HASHTAB_NOT_KEY
    rw [get_notKey hcap] at hget
    have hval : (execMap m (.put HASHTAB_NOT_KEY value)).2 HASHTAB_NOT_KEY = some value := by
      show update m HASHTAB_NOT_KEY (some value) HASHTAB_NOT_KEY = some value
      rw [update_self]
    rw [hval] at hget
    cases hget
  | get | getPointer | assign => exact ⟨trivial, hle⟩

theorem Represents.isMap_iff (h : Represents ht m) (h0 : m HASHTAB_NOT_KEY = none)
    (ops : List (HashtabOp ν)) :
    ht.IsMap m ops ↔ (∀ op ∈ ops, op.Keyed) ∧ ht.count + ops.countP (·.isPut) ≤ maxKeys := by
  induction ops generalizing ht m with
  | nil => exact iff_of_true (h.isMapOf h0) ⟨nofun, h.count_le⟩
  | cons op ops ih =>
    rw [IsMap, forall_mem_cons, countP_cons]
    constructor
    · rintro ⟨-, ht', hexec, hrest⟩
      obtain ⟨hkeyed, hroom⟩ := h.keyed_of_exec hexec hrest.isMapOf
      obtain ⟨ht'', hexec', h', h0', hcount⟩ := h.exec h0 hkeyed hroom
      rw [hexec'] at hexec
      cases hexec
      obtain ⟨hkeys, hle⟩ := (ih h' h0').1 hrest
      refine ⟨⟨hkeyed, hkeys⟩, ?_⟩
      rw [hcount, HashtabOp.counts] at hle
      omega
    · rintro ⟨⟨hkeyed, hkeys⟩, hle⟩
      have hroom : ht.count + op.counts ≤ maxKeys := by
        rw [HashtabOp.counts]
        omega
      obtain ⟨ht', hexec, h', h0', hcount⟩ := h.exec h0 hkeyed hroom
      refine ⟨h.isMapOf h0, ht', hexec, (ih h' h0').2 ⟨hkeys, ?_⟩⟩
      rw [hcount, HashtabOp.counts]
      omega

/-- A table is a map just in the runs that put no item with the key `-1`, and at most `3 * 2 ^ 28` items. -/
theorem hashtab_is_map_iff {initCap2 : Nat} (h : 2 ≤ initCap2) (h' : initCap2 ≤ 30)
    (ops : List (HashtabOp ν)) : (create ν initCap2).IsMap (fun _ => none) ops ↔
      (∀ op ∈ ops, op.Keyed) ∧ ops.countP (·.isPut) ≤ maxKeys := by
  have hiff := (Represents.create (ν := ν) h h').isMap_iff rfl ops
  rwa [create, Nat.zero_add] at hiff

theorem hashtab_is_map_two : (create Nat 2).IsMap (fun _ => none) [.put 3 7, .put (-2) 8, .get (-1)] := by
  refine (hashtab_is_map_iff (Nat.le_refl 2) (by decide) _).2 ⟨?_, by decide⟩
  simp [HashtabOp.Keyed, HASHTAB_NOT_KEY]

/-- The item with the key `-1` is not found, and the `3 * 2 ^ 28 + 1`-st call of `HashtabPut` fails. -/
theorem hashtab_is_not_map :
    (∃ ht, (create Nat 2).put (-1) 7 = .done ht ∧ ht.get (-1) = none) ∧
      ¬ (create Nat 2).IsMap (fun _ => none) [.put (-1) 7] ∧
        ¬ (create Nat 2).IsMap (fun _ => none) (List.replicate (3 * 2 ^ 28 + 1) (.put 0 7)) := by
  have hcreate := Represents.create (ν := Nat) (Nat.le_refl 2) (by decide)
  refine ⟨by decide, ?_, ?_⟩
  · rw [hcreate.isMap_iff rfl]
    rintro ⟨hkeyed, -⟩
    exact hkeyed _ mem_cons_self rfl
  · rw [hcreate.isMap_iff rfl, countP_replicate]
    rintro ⟨-, hle⟩
    exact absurd hle (by decide)

end

end Hashtab

end SNet
