import SNetRts.Common.MapTemplate
import SNetRts.Distrib.Route

/-!
# Runs of map operations

Sequences of operations on a map, beside the same operations on a finite map of the keys up to how the
instance compares them. The two agree as long as no `Rename` gives an entry a key that another one has:
`Rename` does not look for the new key, as `Set` does.
-/

namespace SNet

open List

open Lib Distrib.Route

/-! ## Finite maps of keys -/

namespace MapKey

variable {K V : Type} (c : MapKey K)

def setoid : Setoid K := ⟨fun k k' => c.cmp k k', c.equivalence⟩

abbrev Key := Quotient c.setoid

def key (k : K) : c.Key := Quotient.mk c.setoid k

instance : DecidableEq c.Key :=
  @Quotient.decidableEq K c.setoid fun k k' => inferInstanceAs (Decidable (c.cmp k k' = true))

theorem key_eq_iff {k k' : K} : c.key k = c.key k' ↔ c.cmp k k' := Quotient.eq (r := c.setoid)

theorem key_copyFun (k : K) : c.key (c.copyFun k) = c.key k := c.key_eq_iff.2 (c.cmp_copyFun k)

def bindings (es : List (K × V)) : List ((_ : c.Key) × V) := es.map fun e => ⟨c.key e.1, e.2⟩

abbrev FinMap (V : Type) := Finmap fun _ : c.Key => V

theorem bindings_middle (pre post : List (K × V)) (e : K × V) :
    c.bindings (pre ++ e :: post) = c.bindings pre ++ ⟨c.key e.1, e.2⟩ :: c.bindings post := by
  rw [bindings, map_append, map_cons]
  rfl

theorem mem_keys_bindings {es : List (K × V)} {k : K} :
    c.key k ∈ (c.bindings es).keys ↔ ∃ e ∈ es, c.cmp e.1 k := by
  simp [List.keys, bindings, key_eq_iff]

end MapKey

/-- `SNetDestCompare`: the location and the node of the parent do not count. -/
def MapKey.dest : MapKey Wire.Dest where
  cmp := destCompare
  copyFun := id
  equivalence := by
    constructor
    · intro d
      simp [destCompare]
    · intro d d' h
      simp only [destCompare, Bool.and_eq_true, decide_eq_true_eq] at h ⊢
      exact ⟨⟨⟨h.1.1.1.symm, h.1.1.2.symm⟩, h.1.2.symm⟩, h.2.symm⟩
    · intro d d' d'' h h'
      simp only [destCompare, Bool.and_eq_true, decide_eq_true_eq] at h h' ⊢
      exact ⟨⟨⟨h.1.1.1.trans h'.1.1.1, h.1.1.2.trans h'.1.1.2⟩, h.1.2.trans h'.1.2⟩, h.2.trans h'.2⟩
  cmp_copyFun d := by simp [destCompare]

/-! ## Operations -/

/-- The operations on a map. The keys that a map is created with are distinct. -/
inductive MapOp {K : Type} (c : MapKey K) (V : Type) where
  | create (entries : { es : List (K × V) // (c.bindings es).NodupKeys })
  | set (key : K) (val : V)
  | get (key : K)
  | take (key : K)
  | contains (key : K)
  | rename (oldKey newKey : K)
  | copy (copyVal : V → V)
  | findVal (val : V) (key : K)
  | size

/-- What an operation returns. -/
inductive MapResult (K V : Type) where
  | unit
  | val (v : V)
  | flag (b : Bool)
  | key (k : K)
  | count (n : Int)
deriving DecidableEq

namespace SNetMap

variable {K V : Type} {c : MapKey K} (valCmp : V → V → Bool)

/-- One operation. `Create` and `Copy` go on with the new map. -/
def exec (m : SNetMap K V) : MapOp c V → Option (MapResult K V × SNetMap K V)
  | .create entries => some (.unit, create entries)
  | .set key val => (m.set c key val).map (.unit, ·)
  | .get key => (m.get c key).map (.val ·, m)
  | .take key => (m.take c key).map fun (v, m) => (.val v, m)
  | .contains key => (m.contains c key).map (.flag ·, m)
  | .rename oldKey newKey => (m.rename c oldKey newKey).map (.unit, ·)
  | .copy copyVal => (m.copy c copyVal).map (.unit, ·)
  | .findVal val key => (m.findVal valCmp val key).map (.key ·, m)
  | .size => some (.count m.mapSize, m)

def Asserted (a : c.FinMap V) : MapOp c V → Prop
  | .get key | .take key | .rename key _ => c.key key ∈ a
  | _ => True

def Agrees (a : c.FinMap V) (r : MapResult K V) (a' : c.FinMap V) : MapOp c V → Prop
  | .create entries => r = .unit ∧ a' = (c.bindings entries.1).toFinmap
  | .set key val => r = .unit ∧ a' = a.insert (c.key key) val
  | .get key => (∃ v, a.lookup (c.key key) = some v ∧ r = .val v) ∧ a' = a
  | .take key => (∃ v, a.lookup (c.key key) = some v ∧ r = .val v) ∧ a' = a.erase (c.key key)
  | .contains key => r = .flag (c.key key ∈ a) ∧ a' = a
  | .rename oldKey newKey =>
    r = .unit ∧ ∃ v, a.lookup (c.key oldKey) = some v ∧ a' = (a.erase (c.key oldKey)).insert (c.key newKey) v
  | .copy copyVal => r = .unit ∧ ∀ k, a'.lookup k = (a.lookup k).map copyVal
  | .findVal val key =>
    ((∃ k v, a.lookup (c.key k) = some v ∧ valCmp v val ∧ r = .key k) ∨
      (∀ k v, a.lookup k = some v → valCmp v val = false) ∧ r = .key key) ∧ a' = a
  | .size => r = .count a.keys.card ∧ a' = a

def KeysDistinct (c : MapKey K) (m : SNetMap K V) : Prop :=
  ∀ i j k k', 0 ≤ i → i < j → j < m.used → getSlot m.keys i = some k → getSlot m.keys j = some k' → ¬ c.cmp k k'

/-- The map has the bindings of the finite map, each in one entry. -/
def Represents (m : SNetMap K V) (a : c.FinMap V) : Prop :=
  ∃ es, m.Holds es ∧ (c.bindings es).NodupKeys ∧ (c.bindings es).toFinmap = a

/-- From here on every operation, as long as the assertions hold, does what it does on the finite map,
and leaves a map with distinct keys and at most as many entries as there is room for. -/
def IsFiniteMap (m : SNetMap K V) (a : c.FinMap V) : List (MapOp c V) → Prop
  | [] => m.KeysDistinct c ∧ m.used ≤ m.size ∧ m.Represents a
  | op :: ops => (m.KeysDistinct c ∧ m.used ≤ m.size ∧ m.Represents a) ∧
    (Asserted a op → ∃ r m' a', m.exec valCmp op = some (r, m') ∧ Agrees valCmp a r a' op ∧
      IsFiniteMap m' a' ops)

/-- A `Rename` is to a key that is not there, or to the same key. -/
def Fresh (m : SNetMap K V) (op : MapOp c V) : Prop :=
  ∀ oldKey newKey, op = .rename oldKey newKey → m.contains c newKey = some true → c.cmp oldKey newKey

/-- Every `Rename` of the run that does not fail its assertion is to a key that is not there. -/
def RenamesFresh (m : SNetMap K V) : List (MapOp c V) → Prop
  | [] => True
  | op :: ops => ∀ r m', m.exec valCmp op = some (r, m') → m.Fresh op ∧ RenamesFresh m' ops

/-! ## One operation -/

variable {valCmp} {m m' : SNetMap K V} {es : List (K × V)} {a : c.FinMap V} {r : MapResult K V}

theorem Holds.keysDistinct (h : m.Holds es) (hnd : (c.bindings es).NodupKeys) : m.KeysDistinct c := by
  intro i j k k' hi hij hj hk hk' hcmp
  have hused := h.used
  obtain ⟨i, rfl⟩ := Int.eq_ofNat_of_zero_le hi
  obtain ⟨j, rfl⟩ := Int.eq_ofNat_of_zero_le (Int.le_of_lt (Int.lt_of_le_of_lt hi hij))
  have hjlt : j < es.length := by omega
  have hilt : i < es.length := by omega
  rw [h.slot_key (getElem?_eq_getElem hilt)] at hk
  rw [h.slot_key (getElem?_eq_getElem hjlt)] at hk'
  cases hk
  cases hk'
  have hpair := pairwise_iff_getElem.1 (nodupKeys_iff_pairwise.1 hnd) i j
    (by simpa [MapKey.bindings]) (by simpa [MapKey.bindings]) (by omega)
  apply hpair
  simp only [MapKey.bindings, getElem_map]
  exact c.key_eq_iff.2 hcmp

theorem Holds.find_cases (h : m.Holds es) (hnd : (c.bindings es).NodupKeys) (key : K) :
    (m.find c key = some (-1) ∧ c.key key ∉ (c.bindings es).toFinmap) ∨
      ∃ pre e post, es = pre ++ e :: post ∧ c.key e.1 = c.key key ∧ m.find c key = some ↑pre.length ∧
        (c.bindings es).toFinmap.lookup (c.key key) = some e.2 := by
  rcases h.find (c := c) key with ⟨hfind, hnone⟩ | ⟨pre, e, post, rfl, hcmp, hfind⟩
  · refine .inl ⟨hfind, ?_⟩
    rw [mem_toFinmap_iff, c.mem_keys_bindings]
    rintro ⟨e, he, hcmp⟩
    rw [hnone e he] at hcmp
    cases hcmp
  · have hkey := c.key_eq_iff.2 hcmp
    refine .inr ⟨pre, e, post, rfl, hkey, hfind, ?_⟩
    rw [c.bindings_middle] at hnd ⊢
    rw [← hkey]
    exact lookup_middle hnd

theorem Holds.contains_iff (h : m.Holds es) (hnd : (c.bindings es).NodupKeys) (key : K) :
    m.contains c key = some (decide (c.key key ∈ (c.bindings es).toFinmap)) := by
  rcases h.find_cases hnd key with ⟨hfind, hnot⟩ | ⟨pre, e, post, -, -, hfind, hlookup⟩
  · rw [SNetMap.contains, hfind, decide_eq_false hnot]
    rfl
  · rw [SNetMap.contains, hfind, decide_eq_true (Finmap.mem_of_lookup_eq_some hlookup)]
    simp

theorem Represents.wellFormed (h : m.Represents a) :
    m.KeysDistinct c ∧ m.used ≤ m.size ∧ m.Represents a := by
  obtain ⟨es, hholds, hnd, ha⟩ := h
  exact ⟨hholds.keysDistinct hnd, hholds.used_le_size, es, hholds, hnd, ha⟩

theorem represents_create (entries : { es : List (K × V) // (c.bindings es).NodupKeys }) :
    (create entries.1).Represents (c.bindings entries.1).toFinmap :=
  ⟨entries.1, .create _, entries.2, rfl⟩

theorem card_keys {l : List ((_ : c.Key) × V)} (h : l.NodupKeys) : l.toFinmap.keys.card = l.length := by
  induction l with
  | nil => rfl
  | cons b l ih =>
    obtain ⟨hnot, hl⟩ := nodupKeys_cons.1 h
    have hkeys : (Finmap.insert b.1 b.2 l.toFinmap).keys = insert b.1 l.toFinmap.keys := by
      ext k
      rw [Finmap.mem_keys, Finmap.mem_insert, Finset.mem_insert, Finmap.mem_keys]
    rw [Finmap.toFinmap_cons, hkeys, Finset.card_insert_of_notMem, ih hl, length_cons]
    rwa [Finmap.mem_keys, mem_toFinmap_iff]

theorem bindings_copy (copyVal : V → V) (hnd : (c.bindings es).NodupKeys) :
    (c.bindings (es.map fun e => (c.copyFun e.1, copyVal e.2))).NodupKeys ∧
      ∀ k, (c.bindings (es.map fun e => (c.copyFun e.1, copyVal e.2))).toFinmap.lookup k =
        ((c.bindings es).toFinmap.lookup k).map copyVal := by
  have hcopy : c.bindings (es.map fun e => (c.copyFun e.1, copyVal e.2)) =
      (c.bindings es).map (Sigma.map id fun _ => copyVal) := by
    rw [MapKey.bindings, MapKey.bindings, map_map, map_map]
    apply map_congr_left
    intro e _
    simp [Sigma.map, c.key_copyFun]
  rw [hcopy]
  refine ⟨hnd.map₂ _ _, ?_⟩
  intro k
  rw [Finmap.dlookup_list_toFinmap, Finmap.dlookup_list_toFinmap]
  exact dlookup_map₂ k

theorem Represents.exec (h : m.Represents a) {op : MapOp c V} (hop : Asserted a op) (hfresh : m.Fresh op) :
    ∃ r m' a', m.exec valCmp op = some (r, m') ∧ Agrees valCmp a r a' op ∧ m'.Represents a' := by
  obtain ⟨es, hholds, hnd, rfl⟩ := h
  cases op with
  | create entries => exact ⟨_, _, _, rfl, ⟨rfl, rfl⟩, represents_create entries⟩
  | set key val =>
    rcases hholds.find_cases hnd key with ⟨hfind, hnot⟩ | ⟨pre, e, post, rfl, hkey, hfind, -⟩
    · obtain ⟨m', hset, hholds'⟩ := hholds.set_new hfind val
      rw [mem_toFinmap_iff] at hnot
      have hbind : c.bindings (es ++ [(key, val)]) = c.bindings es ++ [Sigma.mk (c.key key) val] :=
        map_append
      have hnd' : (c.bindings (es ++ [(key, val)])).NodupKeys := by
        rw [hbind, nodupKeys_middle, append_nil, nodupKeys_cons]
        exact ⟨hnot, hnd⟩
      refine ⟨.unit, m', _, ?_, ⟨rfl, rfl⟩, _, hholds', hnd', ?_⟩
      · rw [SNetMap.exec, hset]
        rfl
      · rw [hbind] at hnd' ⊢
        exact toFinmap_concat hnd'
    · obtain ⟨m', hset, hholds'⟩ := hholds.set_found hfind val
      rw [c.bindings_middle] at hnd
      obtain ⟨hnd', heq⟩ := toFinmap_replace (w := val) hnd
      refine ⟨.unit, m', _, ?_, ⟨rfl, rfl⟩, _, hholds', ?_, ?_⟩
      · rw [SNetMap.exec, hset]
        rfl
      · rwa [c.bindings_middle]
      · rw [c.bindings_middle, c.bindings_middle, heq, hkey]
  | get key =>
    rcases hholds.find_cases hnd key with ⟨-, hnot⟩ | ⟨pre, e, post, rfl, -, hfind, hlookup⟩
    · exact absurd hop hnot
    · refine ⟨.val e.2, m, _, ?_, ⟨⟨e.2, hlookup, rfl⟩, rfl⟩, _, hholds, hnd, rfl⟩
      rw [SNetMap.exec, hholds.get_found hfind]
      rfl
  | take key =>
    rcases hholds.find_cases hnd key with ⟨-, hnot⟩ | ⟨pre, e, post, rfl, hkey, hfind, hlookup⟩
    · exact absurd hop hnot
    · obtain ⟨m', htake, hholds'⟩ := hholds.take_found hfind
      -- up to their order the entries that are left are those around the one that goes
      have hperm := (swapErase_perm : (swapErase (pre ++ e :: post) pre.length).Perm (pre ++ post)).map
        fun e => (⟨c.key e.1, e.2⟩ : (_ : c.Key) × V)
      rw [c.bindings_middle] at hnd
      have hnd' : (c.bindings (swapErase (pre ++ e :: post) pre.length)).NodupKeys := by
        rw [MapKey.bindings, perm_nodupKeys hperm, map_append]
        exact nodupKeys_of_middle hnd
      refine ⟨.val e.2, m', _, ?_, ⟨⟨e.2, hlookup, rfl⟩, rfl⟩, _, hholds', hnd', ?_⟩
      · rw [SNetMap.exec, htake]
        rfl
      · rw [toFinmap_perm hnd' hperm, c.bindings_middle, ← hkey, erase_middle hnd, map_append]
        rfl
  | contains key =>
    refine ⟨_, m, _, ?_, ⟨rfl, rfl⟩, _, hholds, hnd, rfl⟩
    rw [SNetMap.exec, hholds.contains_iff hnd]
    rfl
  | rename oldKey newKey =>
    rcases hholds.find_cases hnd oldKey with ⟨-, hnot⟩ | ⟨pre, e, post, rfl, hkey, hfind, hlookup⟩
    · exact absurd hop hnot
    · obtain ⟨m', hrename, hholds'⟩ := hholds.rename_found hfind newKey
      have hfree : c.key newKey ∈ (c.bindings (pre ++ e :: post)).keys → c.key newKey = c.key e.1 := by
        intro hin
        have hcontains := hholds.contains_iff hnd newKey
        rw [decide_eq_true (mem_toFinmap_iff.2 hin)] at hcontains
        rw [hkey]
        exact (c.key_eq_iff.2 (hfresh oldKey newKey rfl hcontains)).symm
      rw [c.bindings_middle] at hnd hfree
      have hnd' := (nodupKeys_rename_iff (w := e.2) hnd).2 hfree
      refine ⟨.unit, m', _, ?_, ⟨rfl, e.2, hlookup, rfl⟩, _, hholds', ?_, ?_⟩
      · rw [SNetMap.exec, hrename]
        rfl
      · rwa [c.bindings_middle]
      · rw [c.bindings_middle, c.bindings_middle, ← hkey, erase_middle hnd, toFinmap_middle hnd']
  | copy copyVal =>
    obtain ⟨m', hcopy, hholds'⟩ := hholds.copy (c := c) copyVal
    obtain ⟨hnd', hlookup⟩ := bindings_copy copyVal hnd
    refine ⟨.unit, m', _, ?_, ⟨rfl, hlookup⟩, _, hholds', hnd', rfl⟩
    rw [SNetMap.exec, hcopy]
    rfl
  | findVal val key =>
    have hcases : (m.findVal valCmp val key = some key ∧ _) ∨ _ := hholds.findVal val key
    rcases hcases with ⟨hfind, hnone⟩ | ⟨e, he, hcmp, hfind⟩
    · refine ⟨.key key, m, _, by rw [SNetMap.exec, hfind]; rfl, ⟨.inr ⟨?_, rfl⟩, rfl⟩, _, hholds, hnd, rfl⟩
      intro k v hlookup
      obtain ⟨e, he, heq⟩ := List.mem_map.1 ((lookup_toFinmap_eq_some hnd).1 hlookup)
      cases heq
      exact hnone e he
    · refine ⟨.key e.1, m, _, by rw [SNetMap.exec, hfind]; rfl, ⟨.inl ⟨e.1, e.2, ?_, hcmp, rfl⟩, rfl⟩, _,
        hholds, hnd, rfl⟩
      exact (lookup_toFinmap_eq_some hnd).2 (List.mem_map.2 ⟨e, he, rfl⟩)
  | size =>
    refine ⟨_, m, _, rfl, ⟨?_, rfl⟩, _, hholds, hnd, rfl⟩
    rw [card_keys hnd, SNetMap.mapSize, hholds.used, MapKey.bindings, length_map]

theorem Represents.exec_none (h : m.Represents a) {op : MapOp c V} (hop : ¬ Asserted a op) :
    m.exec valCmp op = none := by
  obtain ⟨es, hholds, hnd, rfl⟩ := h
  have hfail : ∀ key, c.key key ∉ (c.bindings es).toFinmap → m.find c key = some (-1) := by
    intro key hnot
    rcases hholds.find_cases hnd key with ⟨hfind, -⟩ | ⟨-, e, -, -, -, -, hlookup⟩
    · exact hfind
    · exact absurd (Finmap.mem_of_lookup_eq_some hlookup) hnot
  cases op with
  | get key =>
    rw [SNetMap.exec, SNetMap.get, hfail key hop]
    rfl
  | take key =>
    rw [SNetMap.exec, SNetMap.take, hfail key hop]
    rfl
  | rename oldKey newKey =>
    rw [SNetMap.exec, SNetMap.rename, hfail oldKey hop]
    rfl
  | create | set | contains | copy | findVal | size => exact absurd trivial hop

theorem Represents.fresh_of_exec {a' : c.FinMap V} {op : MapOp c V} (h : m.Represents a)
    (hexec : m.exec valCmp op = some (r, m')) (h' : m'.Represents a') : m.Fresh op := by
  rintro oldKey newKey rfl hcontains
  obtain ⟨es, hholds, hnd, rfl⟩ := h
  obtain ⟨es', hholds', hnd', rfl⟩ := h'
  rw [hholds.contains_iff hnd, Option.some.injEq, decide_eq_true_eq, mem_toFinmap_iff] at hcontains
  rcases hholds.find_cases hnd oldKey with ⟨hfind, -⟩ | ⟨pre, e, post, rfl, hkey, hfind, -⟩
  · rw [SNetMap.exec, SNetMap.rename, hfind] at hexec
    cases hexec
  · obtain ⟨m'', hrename, hholds''⟩ := hholds.rename_found hfind newKey
    rw [SNetMap.exec, hrename] at hexec
    cases hexec
    obtain rfl := hholds'.unique hholds''
    rw [c.bindings_middle] at hnd hnd' hcontains
    rw [← c.key_eq_iff, ← hkey]
    exact ((nodupKeys_rename_iff hnd).1 hnd' hcontains).symm

/-! ## Runs -/

theorem IsFiniteMap.represents {ops : List (MapOp c V)} (h : m.IsFiniteMap valCmp a ops) : m.Represents a := by
  cases ops with
  | nil => exact h.2.2
  | cons op ops => exact h.1.2.2

theorem Represents.isFiniteMap_iff (h : m.Represents a) (ops : List (MapOp c V)) :
    m.IsFiniteMap valCmp a ops ↔ m.RenamesFresh valCmp ops := by
  induction ops generalizing m a with
  | nil => exact iff_of_true h.wellFormed trivial
  | cons op ops ih =>
    constructor
    · rintro ⟨-, hstep⟩ r m' hexec
      have hop : Asserted a op := by
        by_contra hop
        rw [h.exec_none hop] at hexec
        cases hexec
      obtain ⟨r, m', a', hexec', -, htail⟩ := hstep hop
      rw [hexec'] at hexec
      cases hexec
      exact ⟨h.fresh_of_exec hexec' htail.represents, (ih htail.represents).1 htail⟩
    · intro hfresh
      refine ⟨h.wellFormed, ?_⟩
      intro hop
      by_cases hnew : m.Fresh op
      · obtain ⟨r, m', a', hexec, hagrees, h'⟩ : ∃ r m' a', m.exec valCmp op = some (r, m') ∧
            Agrees valCmp a r a' op ∧ m'.Represents a' := h.exec hop hnew
        exact ⟨r, m', a', hexec, hagrees, (ih h').2 (hfresh r m' hexec).2⟩
      · -- the assertion of a `Rename` holds, so it is taken, and then it has to be fresh
        exfalso
        have hnot := hnew
        simp only [Fresh, not_forall] at hnot
        obtain ⟨oldKey, newKey, rfl, -⟩ := hnot
        obtain ⟨es, hholds, hnd, rfl⟩ := h
        rcases hholds.find_cases hnd oldKey with ⟨-, hnot⟩ | ⟨pre, e, post, rfl, -, hfind, -⟩
        · exact hnot hop
        · obtain ⟨m', hrename, -⟩ := hholds.rename_found hfind newKey
          exact hnew (hfresh .unit m' (by rw [SNetMap.exec, hrename]; rfl)).1

/-- A map is a finite map in a run just if every `Rename` of the run is to a key that is not there. -/
theorem map_is_finite_map_iff (c : MapKey K) (valCmp : V → V → Bool)
    (entries : { es : List (K × V) // (c.bindings es).NodupKeys }) (ops : List (MapOp c V)) :
    (create entries.1).IsFiniteMap valCmp (c.bindings entries.1).toFinmap ops ↔
      (create entries.1).RenamesFresh valCmp ops :=
  (represents_create entries).isFiniteMap_iff ops

/-- After `Rename(2, 1)` both entries have the key 1, and 1 has the value that it had before. -/
theorem map_is_not_finite_map :
    (((create [(1, 10), (2, 20)]).exec (c := .ofEq Int) (· == ·) (.rename 2 1)).bind fun (_, m) =>
        (m.exec (c := .ofEq Int) (· == ·) (.get 1)).map Prod.fst) = some (.val 10) ∧
      ¬ (create [(1, 10), (2, 20)]).IsFiniteMap (c := .ofEq Int) (· == ·)
        ((MapKey.ofEq Int).bindings [(1, 10), (2, 20)]).toFinmap [.rename 2 1, .get 1] := by
  refine ⟨by decide, ?_⟩
  have hnd : ((MapKey.ofEq Int).bindings [(1, 10), (2, 20)]).NodupKeys := by
    unfold List.NodupKeys
    decide
  rw [(represents_create ⟨_, hnd⟩).isFiniteMap_iff]
  intro h
  exact absurd ((h .unit _ rfl).1 2 1 rfl rfl) (by decide)

end SNetMap

end SNet
