import SNetRts.Stream.SplitInstances

/-!
# The split of the front runtime

`SplitWrite` and `SNetNodeSplit` of `front/xsplit.c` for data records. An index of `-1` stands for the
collector there. Both splits give each record to the instances of its indices exactly if the record has
an index and none of them is `-1` or the largest `int`, as long as there is room in the table.
-/

namespace SNet.Split

open Lib List

variable {R : Type}

/-! ## `SNetNodeSplit` -/

def WriteCollector : Int := -1

/-- `landing_split_t`; `colldesc` tells whether the stream to the collector has been opened. -/
structure Landing (R : Type) where
  instances : Instances R
  colldesc : Bool
  splitCount : Nat

namespace Landing

def init (R : Type) : Landing R := ⟨.init R, false, 0⟩

/-- `SplitWrite`. -/
def splitWrite (r : R) (idx : Int) (l : Landing R) : Outcome (Landing R) :=
  if idx = WriteCollector then
    .done { l with
      colldesc := true
      instances := { l.instances with sent := l.instances.sent ++ [(.collector, r)] } }
  else
    (l.instances.toInstance r idx).bind fun instances =>
      .done { l with
        instances
        splitCount := if (l.instances.tab.get idx).isNone then l.splitCount + 1 else l.splitCount }

/-- `SNetNodeSplit` for a data record. -/
def step (l : Landing R) (r : Input R) : Outcome (Landing R) :=
  IntLoop.loop INT_MAX (splitWrite r.data) r.lower r.upper l

end Landing

/-! ## What both are asked for -/

/-- `SplitBoxTask` gets to the end of the records and has multicast them. -/
def TaskMulticasts (arg : Arg) (records : List (Input R)) : Prop :=
  ∃ t, runAll (Task.step arg) (.init R) records = .done t ∧ Multicasts records t.instances

/-- `SNetNodeSplit` does. -/
def NodeMulticasts (records : List (Input R)) : Prop :=
  ∃ l, runAll Landing.step (.init R) records = .done l ∧ Multicasts records l.instances

/-! ## The instances of the task -/

theorem task_step_part (arg : Arg) (t : Task R) (r : Input R) :
    ((t.step arg r).bind fun t => .done t.instances) =
      stepWith (fun r i s => s.toInstance r i) t.instances r := by
  have hround (i : Int) (t : Task R) : ((t.round arg r.data i).bind fun t => .done t.instances) =
      t.instances.toInstance r.data i := by
    unfold Task.round
    cases t.instances.toInstance r.data i <;> rfl
  have hpart := IntLoop.rounds_part (m := INT_MAX) hround (r.upper - r.lower + 1).toNat r.lower t
  unfold stepWith IntLoop.loop
  rw [← hpart]
  unfold Task.step IntLoop.loop
  cases IntLoop.rounds INT_MAX (Task.round arg r.data) (r.upper - r.lower + 1).toNat r.lower t <;> rfl

theorem toInstance_released (r : R) (i : Int) (s : Instances R) :
    (s.toInstance r i).Yields fun s' => s'.released = s.released := by
  intro s' hs'
  obtain ⟨⟨k, u⟩, hu, hs'⟩ := Outcome.bind_eq_done.1 hs'
  cases hs'
  unfold Instances.enter at hu
  split at hu
  · cases hu
    rfl
  · obtain ⟨tab, -, hu⟩ := Outcome.bind_eq_done.1 hu
    cases hu
    rfl

theorem taskMulticasts_iff (arg : Arg) (records : List (Input R)) : TaskMulticasts arg records ↔
    ∃ s, runAll (stepWith fun r i s => s.toInstance r i) (.init R) records = .done s ∧
      Multicasts records s := by
  have hpart := runAll_part (π := Task.instances) (task_step_part arg) (.init R) records
  constructor
  · rintro ⟨t, ht, hm⟩
    rw [ht] at hpart
    exact ⟨t.instances, hpart.symm, hm⟩
  · rintro ⟨s, hs, hm⟩
    obtain ⟨t, ht, hπ⟩ := Outcome.bind_eq_done.1 (hpart.trans hs)
    cases hπ
    exact ⟨t, ht, hm⟩

theorem served_of_task {arg : Arg} {records : List (Input R)} (h : TaskMulticasts arg records)
    (hkeys : ∀ r ∈ records, HASHTAB_NOT_KEY ∉ r.indices) : Served records := by
  obtain ⟨s, hs, hm⟩ := (taskMulticasts_iff arg records).1 h
  exact served_of_multicasts (fun _ _ _ _ => rfl) toInstance_released hs hm hkeys

/-! ## The instances of the node -/

/-- What `SplitWrite` does to the instances. -/
def nodeWrite (r : R) (i : Int) (s : Instances R) : Outcome (Instances R) :=
  if i = WriteCollector then .done { s with sent := s.sent ++ [(.collector, r)] } else s.toInstance r i

theorem nodeWrite_eq (r : R) (i : Int) (s : Instances R) (hi : i ≠ HASHTAB_NOT_KEY) :
    nodeWrite r i s = s.toInstance r i :=
  if_neg hi

theorem nodeWrite_released (r : R) (i : Int) (s : Instances R) :
    (nodeWrite r i s).Yields fun s' => s'.released = s.released := by
  unfold nodeWrite
  split
  · exact .done rfl
  · exact toInstance_released r i s

theorem node_step_part (l : Landing R) (r : Input R) :
    ((l.step r).bind fun l => .done l.instances) = stepWith nodeWrite l.instances r := by
  refine IntLoop.rounds_part (π := Landing.instances) (fun i l => ?_) _ _ l
  unfold Landing.splitWrite nodeWrite
  split
  · rfl
  · cases l.instances.toInstance r.data i <;> rfl

theorem nodeMulticasts_iff (records : List (Input R)) : NodeMulticasts records ↔
    ∃ s, runAll (stepWith nodeWrite) (.init R) records = .done s ∧ Multicasts records s := by
  have hpart := runAll_part (π := Landing.instances) node_step_part (.init R) records
  constructor
  · rintro ⟨l, hl, hm⟩
    rw [hl] at hpart
    exact ⟨l.instances, hpart.symm, hm⟩
  · rintro ⟨s, hs, hm⟩
    obtain ⟨l, hl, hπ⟩ := Outcome.bind_eq_done.1 (hpart.trans hs)
    cases hπ
    exact ⟨l, hl, hm⟩

theorem nodeWrite_sent {x : Dest × R} (r : R) (i : Int) {s : Instances R} (h : x ∈ s.sent) :
    (nodeWrite r i s).Yields fun s' => x ∈ s'.sent := by
  unfold nodeWrite
  split
  · exact .done (mem_append_left _ h)
  · intro s' hs'
    obtain ⟨⟨k, u⟩, hu, hs'⟩ := Outcome.bind_eq_done.1 hs'
    cases hs'
    apply mem_append_left
    unfold Instances.enter at hu
    split at hu
    · cases hu
      exact h
    · obtain ⟨tab, -, hu⟩ := Outcome.bind_eq_done.1 hu
      cases hu
      exact h

theorem stepWith_collector (s : Instances R) {r : Input R} (hkey : HASHTAB_NOT_KEY ∈ r.indices) :
    (stepWith nodeWrite s r).Yields fun s' => (.collector, r.data) ∈ s'.sent := by
  obtain ⟨hlower, hupper⟩ := mem_tagRange.1 hkey
  have hyields := IntLoop.rounds_yields (m := INT_MAX) (f := nodeWrite r.data)
    (P := fun i s => HASHTAB_NOT_KEY < i → (.collector, r.data) ∈ s.sent)
    (n := (r.upper - r.lower + 1).toNat) (i := r.lower) (s := s) (fun h => absurd hlower (by omega))
    fun i s _ _ hs => ?_
  · intro t ht
    exact hyields t ht (by omega)
  · by_cases hi : i = HASHTAB_NOT_KEY
    · have hi : i = WriteCollector := hi
      unfold nodeWrite
      rw [if_pos hi]
      exact .done fun _ => mem_append_right _ (mem_singleton_self _)
    · intro s' hs' hlt
      exact nodeWrite_sent r.data i (hs (by omega)) s' hs'

theorem node_keys {records : List (Input R)} {s : Instances R}
    (hrun : runAll (stepWith nodeWrite) (.init R) records = .done s) (h : Multicasts records s) :
    ∀ r ∈ records, HASHTAB_NOT_KEY ∉ r.indices := by
  have hsent : ∀ (records : List (Input R)) (s t : Instances R),
      runAll (stepWith nodeWrite) s records = .done t → ∀ r ∈ records, HASHTAB_NOT_KEY ∈ r.indices →
        (.collector, r.data) ∈ t.sent := by
    intro records
    induction records with
    | nil =>
      intro s t _ r hr
      cases hr
    | cons r records ih =>
      intro s t ht r' hr' hkey
      obtain ⟨u, hu, hrest⟩ := runAll_cons_eq_done.1 ht
      rcases mem_cons.1 hr' with rfl | hr'
      · have hfirst := stepWith_collector s hkey u hu
        refine runAll_invariant (s := u) (I := fun s => (.collector, r'.data) ∈ s.sent)
          (fun s r'' v _ hs hstep => ?_) hfirst hrest
        exact IntLoop.rounds_yields (P := fun _ s => (.collector, r'.data) ∈ s.sent) hs
          (fun i s _ _ hs => nodeWrite_sent r''.data i hs) v hstep
      · exact ih u t hrest r' hr' hkey
  intro r hr hkey
  have hmem := hsent records _ s hrun r hr hkey
  obtain ⟨⟨f, -, hf⟩, -⟩ := h
  rw [hf] at hmem
  obtain ⟨r', -, hmem⟩ := mem_flatMap.1 hmem
  obtain ⟨i, -, hi⟩ := List.mem_map.1 hmem
  cases hi

theorem served_of_node {records : List (Input R)} (h : NodeMulticasts records) : Served records := by
  obtain ⟨s, hs, hm⟩ := (nodeMulticasts_iff records).1 h
  exact served_of_multicasts nodeWrite_eq nodeWrite_released hs hm (node_keys hs hm)

/-! ## Both -/

/-- Both splits multicast the records exactly if these can be served. -/
theorem split_multicasts_iff (arg : Arg) (records : List (Input R)) :
    TaskMulticasts arg records ∧ NodeMulticasts records ↔ Served records := by
  constructor
  · intro h
    exact served_of_node h.2
  · intro h
    exact ⟨(taskMulticasts_iff arg records).2 (h.multicasts fun _ _ _ _ => rfl),
      (nodeMulticasts_iff records).2 (h.multicasts nodeWrite_eq)⟩

/-- The index `-1` alone. -/
def minusOne (data : Nat) : Input Nat := ⟨data, -1, -1, by decide⟩

/-- A split that is not deterministic and whose instances have output streams. -/
def plainArg : Arg := ⟨false, fun _ => true⟩

/-- An index `-1` goes to the collector in the front runtime and, the second time, to a new instance in
the stream runtime; a record without indices is not released, and a loop up to the largest `int` does
not end. -/
theorem split_not_exact :
    ¬ NodeMulticasts [minusOne 0] ∧ ¬ TaskMulticasts plainArg [minusOne 0, minusOne 1] ∧
      (¬ NodeMulticasts [⟨0, 1, 0, by decide⟩] ∧ ¬ TaskMulticasts plainArg [⟨0, 1, 0, by decide⟩]) ∧
      ¬ NodeMulticasts [⟨0, 7, INT_MAX, by decide⟩] ∧ ¬ TaskMulticasts plainArg [⟨0, 7, INT_MAX, by decide⟩] := by
  refine ⟨fun h => ?_, fun h => ?_, ⟨fun h => ?_, fun h => ?_⟩, fun h => ?_, fun h => ?_⟩
  · exact (served_of_node h).keys _ mem_cons_self (by decide)
  · obtain ⟨s, hs, ⟨⟨f, -, hf⟩, -⟩⟩ := (taskMulticasts_iff plainArg _).1 h
    have hsent : s.sent = [(.inst 0, 0), (.inst 1, 1)] := by
      cases hs
      rfl
    rw [hsent] at hf
    have hf : ([(.inst 0, 0), (.inst 1, 1)] : List (Dest × Nat)) =
      [(.inst (f (-1)), 0), (.inst (f (-1)), 1)] := hf
    simp only [List.cons.injEq, Prod.mk.injEq, Dest.inst.injEq, and_true] at hf
    omega
  · exact absurd ((served_of_node h).nonempty _ mem_cons_self) (by decide)
  · exact absurd ((served_of_task h (by decide)).nonempty _ mem_cons_self) (by decide)
  · exact absurd ((served_of_node h).ends _ mem_cons_self) (by decide)
  · refine absurd ((served_of_task h ?_).ends _ mem_cons_self) (by decide)
    intro r hr hkey
    cases mem_singleton.1 hr
    exact absurd (mem_tagRange.1 hkey).1 (by decide)

end SNet.Split
