import SNetRts.Lib.IntLoop
import SNetRts.Stream.Dispatch
import SNetRts.Stream.Hashtab

/-!
# The instances of a split

`SplitBoxTask` of `stream/entity/split.c` for data records, with its table of instances. What it has in
common with the split node of the front runtime is the table and what goes to the instances: an
instance for an index is created when the table has none.
-/

namespace SNet.Split

open List

open Lib SNet.Stream

variable {R : Type}

/-- The largest `int`. -/
def INT_MAX : Int := 2 ^ 31 - 1

/-- A data record with the values of its lower and upper tag. -/
structure Input (R : Type) where
  data : R
  lower : Int
  upper : Int
  int : -2 ^ 31 ≤ lower ∧ upper ≤ INT_MAX

def Input.indices (r : Input R) : List Int := tagRange r.lower r.upper

/-- Where a split writes records: to the collector or to an instance. -/
inductive Dest where
  | collector
  | inst (k : Nat)
deriving DecidableEq, Repr

/-- The table of a split, the indices that its instances have been created for, where its data records
have gone, and which of them it has released. -/
structure Instances (R : Type) where
  tab : Hashtab Nat
  replicas : List Int
  sent : List (Dest × R)
  released : List R

namespace Instances

def init (R : Type) : Instances R := ⟨.create Nat 4, [], [], []⟩

/-- The instance of an index, which is created if the table has none. -/
def enter (i : Int) (s : Instances R) : Outcome (Nat × Instances R) :=
  match s.tab.get i with
  | some k => .done (k, s)
  | none => (s.tab.put i s.replicas.length).bind fun tab =>
    .done (s.replicas.length, { s with tab, replicas := s.replicas ++ [i] })

def toInstance (r : R) (i : Int) (s : Instances R) : Outcome (Instances R) :=
  (s.enter i).bind fun (k, s) => .done { s with sent := s.sent ++ [(.inst k, r)] }

end Instances

/-! ## `SplitBoxTask` -/

/-- What the task reads of `split_arg_t`; `stream` tells for which indices the operand ends on this
node, so that the function that builds it gives a stream. -/
structure Arg where
  isDet : Bool
  stream : Int → Bool

/-- Records that the task writes besides. -/
inductive Control where
  | collect (k : Nat)
  | sortEnd (dest : Dest) (num : Int)
deriving DecidableEq, Repr

structure Task (R : Type) where
  instances : Instances R
  counter : Int
  control : List Control

namespace Task

def init (R : Type) : Task R := ⟨.init R, 0, []⟩

def round (arg : Arg) (r : R) (i : Int) (t : Task R) : Outcome (Task R) :=
  (t.instances.toInstance r i).bind fun instances =>
    .done { t with
      instances
      control := if (t.instances.tab.get i).isNone && arg.stream i
        then t.control ++ [.collect t.instances.replicas.length] else t.control }

/-- The sort records behind the data record, to the instances and to the collector. -/
def sortEnds (t : Task R) : List Control :=
  ((List.range t.instances.replicas.length).map fun k => .sortEnd (.inst k) t.counter) ++
    [.sortEnd .collector t.counter]

/-- `SplitBoxTask` for a data record. -/
def step (arg : Arg) (t : Task R) (r : Input R) : Outcome (Task R) :=
  (IntLoop.loop INT_MAX (round arg r.data) r.lower r.upper t).bind fun t =>
    .done { t with control := if arg.isDet then t.control ++ t.sortEnds else t.control
                   counter := t.counter + 1 }

end Task

/-! ## What is asked of a split -/

/-- Each record goes to one instance for each index of it, in the order of the records, always to the
same one that has been created for the index; a record without indices is released. -/
def Multicasts (records : List (Input R)) (s : Instances R) : Prop :=
  (∃ f : Int → Nat, (∀ r ∈ records, ∀ i ∈ r.indices, s.replicas[f i]? = some i) ∧
    s.sent = records.flatMap fun r => r.indices.map fun i => (.inst (f i), r.data)) ∧
  s.released = (records.filter fun r => r.upper < r.lower).map Input.data

def allIndices (records : List (Input R)) : Finset Int := (records.flatMap Input.indices).toFinset

/-- The condition: no range is empty, goes up to the largest `int`, or has the index `-1` in it, and
there are not too many indices. -/
structure Served (records : List (Input R)) : Prop where
  nonempty : ∀ r ∈ records, r.lower ≤ r.upper
  ends : ∀ r ∈ records, r.upper < INT_MAX
  keys : ∀ r ∈ records, HASHTAB_NOT_KEY ∉ r.indices
  room : (allIndices records).card ≤ Hashtab.maxKeys

/-! ## The table and the instances -/

/-- The instances after some records have gone to them: which of them there are, that the table finds
them, and what they have got. -/
structure Good (s : Instances R) (items : List (Int × R)) : Prop where
  represents : s.tab.Represents fun i => if i ∈ s.replicas then some (s.replicas.idxOf i) else none
  count : s.tab.count = s.replicas.length
  nodup : s.replicas.Nodup
  mem : ∀ i, i ∈ s.replicas ↔ i ∈ items.map Prod.fst
  sent : s.sent = items.map fun x => (.inst (s.replicas.idxOf x.1), x.2)
  released : s.released = []

theorem good_init : Good (Instances.init R) [] :=
  ⟨.create (by decide) (by decide), rfl, nodup_nil, fun _ => Iff.rfl, rfl, rfl⟩

namespace Good

variable {s : Instances R} {items : List (Int × R)} {i : Int}

theorem toInstance_old (h : Good s items) (hi : i ≠ HASHTAB_NOT_KEY) (hmem : i ∈ s.replicas) (r : R) :
    ∃ s', s.toInstance r i = .done s' ∧ Good s' (items ++ [(i, r)]) := by
  unfold Instances.toInstance Instances.enter
  rw [h.represents.get hi, if_pos hmem]
  refine ⟨_, rfl, h.represents, h.count, h.nodup, fun j => ?_, ?_, h.released⟩
  · rw [map_append, mem_append, ← h.mem j]
    constructor
    · exact .inl
    · rintro (hj | hj)
      · exact hj
      · exact mem_singleton.1 hj ▸ hmem
  · rw [map_append, ← h.sent]
    rfl

theorem toInstance_new (h : Good s items) (hi : i ≠ HASHTAB_NOT_KEY) (hmem : i ∉ s.replicas)
    (hroom : s.replicas.length < Hashtab.maxKeys) (r : R) :
    ∃ s', s.toInstance r i = .done s' ∧ Good s' (items ++ [(i, r)]) := by
  obtain ⟨tab, hput, hrep, hcount⟩ := h.represents.put hi s.replicas.length (h.count ▸ hroom)
  unfold Instances.toInstance Instances.enter
  rw [h.represents.get hi, if_neg hmem]
  dsimp only
  rw [hput, Outcome.done_bind, Outcome.done_bind]
  refine ⟨_, rfl, ?_, ?_, ?_, fun j => ?_, ?_, h.released⟩
  · refine hrep.congr fun j _ => ?_
    dsimp only
    by_cases hj : j = i
    · rw [hj, Function.update_self, if_pos (by simp), idxOf_append_of_notMem hmem]
      simp
    · rw [Function.update_of_ne hj]
      by_cases hj' : j ∈ s.replicas
      · rw [if_pos hj', if_pos (mem_append_left _ hj'), idxOf_append_of_mem hj']
      · rw [if_neg hj', if_neg]
        rw [mem_append, mem_singleton]
        exact not_or.2 ⟨hj', hj⟩
  · rw [hcount, h.count, length_append]
    rfl
  · refine nodup_append.2 ⟨h.nodup, nodup_singleton i, fun a ha b hb => ?_⟩
    rintro rfl
    exact hmem (mem_singleton.1 hb ▸ ha)
  · dsimp only
    rw [mem_append, map_append, mem_append, h.mem j]
    rfl
  · dsimp only
    rw [map_append, h.sent]
    congr 1
    · refine map_congr_left fun x hx => ?_
      have hx' : x.1 ∈ s.replicas := (h.mem x.1).2 (mem_map_of_mem hx)
      rw [idxOf_append_of_mem hx']
    · rw [map_singleton, idxOf_append_of_notMem hmem]
      simp

theorem toInstance_yields (h : Good s items) (hi : i ≠ HASHTAB_NOT_KEY) (r : R) :
    (s.toInstance r i).Yields fun s' => Good s' (items ++ [(i, r)]) := by
  intro t ht
  by_cases hmem : i ∈ s.replicas
  · obtain ⟨s', hs', hgood⟩ := h.toInstance_old hi hmem r
    cases hs'.symm.trans ht
    exact hgood
  · have hle := h.represents.count_le
    rcases Nat.lt_or_eq_of_le hle with hlt | heq
    · obtain ⟨s', hs', hgood⟩ := h.toInstance_new hi hmem (h.count ▸ hlt) r
      cases hs'.symm.trans ht
      exact hgood
    · unfold Instances.toInstance Instances.enter at ht
      rw [h.represents.get hi, if_neg hmem] at ht
      dsimp only at ht
      rw [h.represents.put_fault i _ heq] at ht
      cases ht

end Good

/-! ## Runs -/

theorem mem_tagRange {lower upper i : Int} : i ∈ tagRange lower upper ↔ lower ≤ i ∧ i ≤ upper := by
  unfold tagRange
  rw [List.mem_map]
  constructor
  · rintro ⟨k, hk, rfl⟩
    rw [mem_range] at hk
    omega
  · rintro ⟨h1, h2⟩
    refine ⟨(i - lower).toNat, ?_, ?_⟩
    · rw [mem_range]
      omega
    · omega

theorem tagRange_succ {lower i : Int} (h : lower ≤ i) :
    tagRange lower i = tagRange lower (i - 1) ++ [i] := by
  unfold tagRange
  have hlen : (i - lower + 1).toNat = (i - 1 - lower + 1).toNat + 1 := by omega
  rw [hlen, range_succ, map_append, map_singleton]
  congr 2
  omega

theorem tagRange_start (lower : Int) : tagRange lower (lower - 1) = [] := by
  unfold tagRange
  have hlen : (lower - 1 - lower + 1).toNat = 0 := by omega
  rw [hlen]
  rfl

theorem tagRange_end (lower upper : Int) :
    tagRange lower (lower + ((upper - lower + 1).toNat : Int) - 1) = tagRange lower upper := by
  unfold tagRange
  have hlen : (lower + ((upper - lower + 1).toNat : Int) - 1 - lower + 1).toNat =
    (upper - lower + 1).toNat := by omega
  rw [hlen]

def Input.items (r : Input R) : List (Int × R) := r.indices.map fun i => (i, r.data)

/-- The loop for one record, where `write` is what is done for an index. -/
def stepWith (write : R → Int → Instances R → Outcome (Instances R)) (s : Instances R) (r : Input R) :
    Outcome (Instances R) :=
  IntLoop.loop INT_MAX (write r.data) r.lower r.upper s

section

variable {write : R → Int → Instances R → Outcome (Instances R)}
  (hwrite : ∀ r i s, i ≠ HASHTAB_NOT_KEY → write r i s = s.toInstance r i)
  (hreleased : ∀ r i s, (write r i s).Yields fun s' => s'.released = s.released)

include hwrite in
theorem stepWith_yields {s : Instances R} {items : List (Int × R)} (h : Good s items) {r : Input R}
    (hkey : HASHTAB_NOT_KEY ∉ r.indices) :
    (stepWith write s r).Yields fun s' => Good s' (items ++ r.items) := by
  have hyields := IntLoop.rounds_yields (m := INT_MAX) (f := write r.data)
    (P := fun i s => Good s (items ++ (tagRange r.lower (i - 1)).map fun i => (i, r.data)))
    (n := (r.upper - r.lower + 1).toNat) (i := r.lower) (s := s)
  rw [tagRange_start, tagRange_end] at hyields
  refine hyields (by simpa using h) fun i s h1 h2 hgood => ?_
  have hi : i ≠ HASHTAB_NOT_KEY := by
    rintro rfl
    exact hkey (mem_tagRange.2 ⟨h1, by omega⟩)
  rw [hwrite _ _ _ hi, Int.add_sub_cancel, tagRange_succ h1, map_append, ← append_assoc]
  exact hgood.toInstance_yields hi r.data

include hwrite in
theorem stepWith_done {F : Finset Int} (hF : F.card ≤ Hashtab.maxKeys) {s : Instances R}
    {items : List (Int × R)} (h : Good s items) (hitems : ∀ x ∈ items, x.1 ∈ F) {r : Input R}
    (hkey : HASHTAB_NOT_KEY ∉ r.indices) (hends : r.upper < INT_MAX)
    (hne : r.lower ≤ r.upper) (hr : ∀ i ∈ r.indices, i ∈ F) :
    ∃ s', stepWith write s r = .done s' ∧ Good s' (items ++ r.items) := by
  have hdone := IntLoop.rounds_done (m := INT_MAX) (f := write r.data)
    (P := fun i s => Good s (items ++ (tagRange r.lower (i - 1)).map fun i => (i, r.data)))
    (n := (r.upper - r.lower + 1).toNat) (i := r.lower) (s := s) (by omega)
  rw [tagRange_start, tagRange_end] at hdone
  refine hdone (by simpa using h) fun i s h1 h2 hgood => ?_
  have hmem : i ∈ r.indices := mem_tagRange.2 ⟨h1, by omega⟩
  have hi : i ≠ HASHTAB_NOT_KEY := by
    rintro rfl
    exact hkey hmem
  rw [hwrite _ _ _ hi, Int.add_sub_cancel, tagRange_succ h1, map_append, ← append_assoc]
  by_cases hold : i ∈ s.replicas
  · exact hgood.toInstance_old hi hold r.data
  · refine hgood.toInstance_new hi hold ?_ r.data
    have hsub : insert i s.replicas.toFinset ⊆ F := by
      intro j hj
      rcases Finset.mem_insert.1 hj with rfl | hj
      · exact hr j hmem
      · rw [mem_toFinset, hgood.mem j, List.mem_map] at hj
        obtain ⟨x, hx, rfl⟩ := hj
        rcases mem_append.1 hx with hx | hx
        · exact hitems x hx
        · obtain ⟨k, hk, rfl⟩ := List.mem_map.1 hx
          have hbounds := mem_tagRange.1 hk
          exact hr k (mem_tagRange.2 ⟨hbounds.1, by omega⟩)
    have hcard := Finset.card_le_card hsub
    rw [Finset.card_insert_of_notMem (by simpa using hold), toFinset_card_of_nodup hgood.nodup] at hcard
    omega

include hwrite in
theorem runWith_yields {records : List (Input R)} (hkeys : ∀ r ∈ records, HASHTAB_NOT_KEY ∉ r.indices)
    {s : Instances R} {items : List (Int × R)} (h : Good s items) :
    (runAll (stepWith write) s records).Yields fun s' => Good s' (items ++ records.flatMap Input.items) := by
  induction records generalizing s items with
  | nil =>
    intro t ht
    cases ht
    simpa using h
  | cons r records ih =>
    intro t ht
    obtain ⟨u, hu, ht⟩ := runAll_cons_eq_done.1 ht
    have hgood := stepWith_yields hwrite h (hkeys r mem_cons_self) u hu
    have hlast := ih (fun r hr => hkeys r (mem_cons_of_mem _ hr)) hgood t ht
    rw [flatMap_cons, ← append_assoc]
    exact hlast

include hwrite in
theorem runWith_done {F : Finset Int} (hF : F.card ≤ Hashtab.maxKeys) {records : List (Input R)}
    (hrecords : ∀ r ∈ records, HASHTAB_NOT_KEY ∉ r.indices ∧ r.upper < INT_MAX ∧ r.lower ≤ r.upper ∧
      ∀ i ∈ r.indices, i ∈ F) {s : Instances R} {items : List (Int × R)} (h : Good s items)
    (hitems : ∀ x ∈ items, x.1 ∈ F) :
    ∃ s', runAll (stepWith write) s records = .done s' ∧
      Good s' (items ++ records.flatMap Input.items) := by
  induction records generalizing s items with
  | nil => exact ⟨s, rfl, by simpa using h⟩
  | cons r records ih =>
    obtain ⟨hkey, hends, hne, hr⟩ := hrecords r mem_cons_self
    obtain ⟨u, hu, hgood⟩ := stepWith_done hwrite hF h hitems hkey hends hne hr
    obtain ⟨t, ht, hlast⟩ := ih (fun r hr => hrecords r (mem_cons_of_mem _ hr)) hgood fun x hx => by
      rcases mem_append.1 hx with hx | hx
      · exact hitems x hx
      · obtain ⟨i, hi, rfl⟩ := List.mem_map.1 hx
        exact hr i hi
    refine ⟨t, runAll_cons_eq_done.2 ⟨u, hu, ht⟩, ?_⟩
    rw [flatMap_cons, ← append_assoc]
    exact hlast

theorem Good.multicasts {s : Instances R} {records : List (Input R)}
    (h : Good s (records.flatMap Input.items)) (hne : ∀ r ∈ records, r.lower ≤ r.upper) :
    Multicasts records s := by
  have hmem {r : Input R} (hr : r ∈ records) {i : Int} (hi : i ∈ r.indices) : i ∈ s.replicas := by
    rw [h.mem i, List.mem_map]
    exact ⟨(i, r.data), mem_flatMap.2 ⟨r, hr, mem_map_of_mem hi⟩, rfl⟩
  refine ⟨⟨fun i => s.replicas.idxOf i, fun r hr i hi => ?_, ?_⟩, ?_⟩
  · rw [getElem?_eq_getElem (idxOf_lt_length_iff.2 (hmem hr hi)), getElem_idxOf]
  · rw [h.sent, map_flatMap]
    congr 1
    funext r
    rw [Input.items, map_map]
    rfl
  · rw [h.released, filter_eq_nil_iff.2, map_nil]
    intro r hr
    have := hne r hr
    simpa using this

include hwrite in
theorem Served.multicasts {records : List (Input R)} (h : Served records) :
    ∃ s, runAll (stepWith write) (.init R) records = .done s ∧ Multicasts records s := by
  have hindex {r : Input R} (hr : r ∈ records) {i : Int} (hi : i ∈ r.indices) :
      i ∈ (records.flatMap Input.indices).toFinset :=
    mem_toFinset.2 (mem_flatMap.2 ⟨r, hr, hi⟩)
  have hrecords : ∀ r ∈ records, HASHTAB_NOT_KEY ∉ r.indices ∧ r.upper < INT_MAX ∧ r.lower ≤ r.upper ∧
      ∀ i ∈ r.indices, i ∈ (records.flatMap Input.indices).toFinset := fun r hr =>
    ⟨h.keys r hr, h.ends r hr, h.nonempty r hr, fun i hi => hindex hr hi⟩
  obtain ⟨s, hs, hgood⟩ := runWith_done hwrite h.room hrecords good_init nofun
  exact ⟨s, hs, hgood.multicasts h.nonempty⟩

include hreleased in
theorem stepWith_released (s : Instances R) (r : Input R) :
    (stepWith write s r).Yields fun s' => s'.released = s.released :=
  IntLoop.rounds_yields (P := fun _ s' => s'.released = s.released) rfl fun i s' _ _ hs t ht =>
    (hreleased r.data i s' t ht).trans hs

include hwrite hreleased in
theorem served_of_multicasts {records : List (Input R)} {s : Instances R}
    (hrun : runAll (stepWith write) (.init R) records = .done s) (h : Multicasts records s)
    (hkeys : ∀ r ∈ records, HASHTAB_NOT_KEY ∉ r.indices) : Served records := by
  have hnone : s.released = [] :=
    runAll_invariant (I := fun s => s.released = []) (fun u r v _ hu hstep =>
      (stepWith_released hreleased u r v hstep).trans hu) rfl hrun
  have hnonempty : ∀ r ∈ records, r.lower ≤ r.upper := by
    intro r hr
    by_contra hlt
    have hmem : r ∈ records.filter fun r => r.upper < r.lower :=
      mem_filter.2 ⟨hr, by simpa using hlt⟩
    have hrel := h.2
    rw [hnone] at hrel
    rw [map_eq_nil_iff.1 hrel.symm] at hmem
    cases hmem
  refine ⟨hnonempty, fun r hr => ?_, hkeys, ?_⟩
  · obtain ⟨u, v, hstep⟩ := exists_step_of_runAll hr hrun
    exact IntLoop.loop_lt (hnonempty r hr) r.int.2 hstep
  · have hgood := runWith_yields hwrite hkeys good_init s hrun
    rw [nil_append] at hgood
    have hle := hgood.represents.count_le
    rw [hgood.count, ← toFinset_card_of_nodup hgood.nodup] at hle
    refine (Finset.card_le_card fun i hi => ?_).trans hle
    obtain ⟨r, hr, hi⟩ := mem_flatMap.1 (mem_toFinset.1 hi)
    rw [mem_toFinset, hgood.mem i, List.mem_map]
    exact ⟨(i, r.data), mem_flatMap.2 ⟨r, hr, mem_map_of_mem hi⟩, rfl⟩

end

end SNet.Split
