import SNetRts.Stream.Parallel

/-!
# The parallel dispatcher and its data records

The dispatcher writes each data record to exactly one open branch that matches it, or stops when
none does, and writes to no stream that it has closed, as long as the branch that matches a record
best has not been closed and no outtype covers a branch that has been closed. The counters of
initialiser branches, whose variants are no matter for `CheckMatch`, keep what the memory held, and
those branches are covered by every outtype.
-/

namespace SNet.Parallel

open List

open Lib SNet.Stream

variable {V : Type} {arg : Arg}

/-- The branch that the record goes to is open, and so are those that an outtype covers. -/
def Ok (arg : Arg) (st : Box V) : Rec (Record V) Variant → Prop
  | .data d => ∀ idx, st.best arg d = some idx → st.isOpen idx = true
  | .sync _ (some synctype) => ∀ i < arg.num,
      variantIsSupertypeOfAllOthers synctype (arg.variants i) = true → st.isOpen i = true
  | _ => True

/-- The data records that have been written, and to which branch. -/
def dataWrites (log : List (Nat × Written V)) : List (Nat × Record V) :=
  log.filterMap fun e =>
    match e.2 with
    | .record (.data d) => some (e.1, d)
    | _ => none

/-- A data record has been written to one open branch that matches it, or none does and the program
stops. -/
def Delivers (arg : Arg) (st : Box V) (d : Record V) (st' : Box V) : Prop :=
  (∃ idx < arg.num, st.isOpen idx = true ∧ (∃ v ∈ arg.variants idx, Matches d v) ∧
    dataWrites st'.log = dataWrites st.log ++ [(idx, d)]) ∨
  (st'.status = .noMatch ∧ st'.log = st.log ∧
    ∀ idx < arg.num, st.isOpen idx = true → ¬ ∃ v ∈ arg.variants idx, Matches d v)

/-- What is asked of the dispatcher for a record: it writes to no closed stream, and it delivers a
data record. -/
def Sound (arg : Arg) (st : Box V) (r : Rec (Record V) Variant) (o : Outcome (Box V)) : Prop :=
  o ≠ .fault ∧ ∀ d st', r = .data d → o = .done st' → Delivers arg st d st'

/-! ## `BestMatch` -/

theorem bestMatchLoop_none {counter : Nat → Option Int} {is : List Nat} {res : Option Nat} {max : Int}
    (h : bestMatchLoop counter is res max = none) :
    res = none ∧ ∀ i ∈ is, ∀ c, counter i = some c → c ≤ max := by
  induction is generalizing res max with
  | nil => exact ⟨h, nofun⟩
  | cons i is ih =>
    simp only [bestMatchLoop] at h
    cases hc : counter i with
    | none =>
      rw [hc] at h
      obtain ⟨h1, h2⟩ := ih h
      refine ⟨h1, fun j hj c hcj => ?_⟩
      rcases mem_cons.1 hj with rfl | hj
      · rw [hc] at hcj
        cases hcj
      · exact h2 j hj c hcj
    | some c =>
      rw [hc] at h
      simp only at h
      split at h
      · cases (ih h).1
      · rename_i hle
        obtain ⟨h1, h2⟩ := ih h
        refine ⟨h1, fun j hj c' hcj => ?_⟩
        rcases mem_cons.1 hj with rfl | hj
        · rw [hc] at hcj
          cases hcj
          exact Int.not_lt.1 hle
        · exact h2 j hj c' hcj

theorem bestMatchLoop_some {counter : Nat → Option Int} {is : List Nat} {res : Option Nat} {max : Int}
    {k : Nat} (h : bestMatchLoop counter is res max = some k) :
    res = some k ∨ ∃ c, counter k = some c := by
  induction is generalizing res max with
  | nil => exact Or.inl h
  | cons i is ih =>
    simp only [bestMatchLoop] at h
    cases hc : counter i with
    | none =>
      rw [hc] at h
      exact ih h
    | some c =>
      rw [hc] at h
      simp only at h
      split at h
      · rcases ih h with hk | hk
        · obtain rfl := Option.some.inj hk
          exact Or.inr ⟨c, hc⟩
        · exact Or.inr hk
      · exact ih h

/-! ## Open branches -/

def OpenOk (arg : Arg) (st : Box V) : Prop :=
  ∀ i, st.isOpen i = true → i < arg.num ∧ arg.variants i ≠ []

theorem putToBuffers_isOpen (st : Box V) (i : Nat) (w : Written V) (counted : Bool) :
    (st.putToBuffers arg i w counted).isOpen = st.isOpen := by
  unfold Box.putToBuffers
  cases counted <;> by_cases h : st.isOpen i <;> simp [h, Box.send, Box.broadcast]

theorem initLoop_spec (arg : Arg) {is : List Nat} (hnodup : is.Nodup) (st : Box V)
    (hopen : ∀ i ∈ is, st.isOpen i = true) : ∃ st', st.initLoop arg is = some st' ∧
      ∀ i, st'.isOpen i = true ↔ st.isOpen i = true ∧ (i ∈ is → arg.variants i ≠ []) := by
  induction is generalizing st with
  | nil => exact ⟨st, rfl, by simp⟩
  | cons i is ih =>
    obtain ⟨hi, hnodup⟩ := nodup_cons.1 hnodup
    unfold Box.initLoop
    by_cases hv : arg.variants i = []
    · have hrest : ∀ j ∈ is, (st.initialise arg i).isOpen j = true := by
        intro j hj
        have hji : j ≠ i := fun h => hi (h ▸ hj)
        simp only [Box.initialise, Box.close, putToBuffers_isOpen, Function.update_of_ne hji]
        exact hopen j (mem_cons_of_mem _ hj)
      obtain ⟨st', h1, h2⟩ := ih hnodup _ hrest
      rw [if_pos hv]
      refine ⟨st', h1, fun j => ?_⟩
      rw [h2 j]
      simp only [Box.initialise, Box.close, putToBuffers_isOpen]
      by_cases hji : j = i
      · subst hji
        simp [hv]
      · simp [hji]
    · have hw : st.write i (.record (.sortEnd 0 st.counter)) =
          some (st.send i (.record (.sortEnd 0 st.counter))) := if_pos (hopen i mem_cons_self)
      obtain ⟨st', h1, h2⟩ := ih hnodup (st.send i (.record (.sortEnd 0 st.counter)))
        fun j hj => hopen j (mem_cons_of_mem _ hj)
      rw [if_neg hv, hw, Option.bind_some]
      refine ⟨st', h1, fun j => ?_⟩
      rw [h2 j]
      change st.isOpen j = true ∧ _ ↔ _
      by_cases hji : j = i
      · subst hji
        simp [hv, hi]
      · simp [hji]

theorem write_of_open (st : Box V) {i : Nat} {w : Written V} (h : st.isOpen i = true) :
    st.write i w = some (st.send i w) := if_pos h

theorem start_spec (arg : Arg) (memory : Nat → MatchCount) (input : StreamId) :
    ∃ st : Box V, Box.start arg memory input = some st ∧ OpenOk arg st := by
  obtain ⟨st, hst, hopen⟩ := initLoop_spec (V := V) arg nodup_range
    ⟨fun i => i < arg.num, 0, memory, .running, []⟩ fun i hi => decide_eq_true (mem_range.1 hi)
  have hok : OpenOk arg st := by
    intro i hi
    obtain ⟨h1, h2⟩ := (hopen i).1 hi
    have hlt : i < arg.num := of_decide_eq_true h1
    exact ⟨hlt, h2 (mem_range.2 hlt)⟩
  unfold Box.start
  rw [hst, Option.bind_eq_bind, Option.bind_some]
  cases hord : Box.ordinary arg with
  | nil => exact ⟨_, rfl, hok⟩
  | cons i is =>
    cases is with
    | cons j js => exact ⟨_, rfl, hok⟩
    | nil =>
      have hi : i ∈ Box.ordinary arg := hord ▸ mem_cons_self
      obtain ⟨hi, hv⟩ := mem_filter.1 hi
      have hop : st.isOpen i = true := (hopen i).2 ⟨decide_eq_true (mem_range.1 hi), fun _ =>
        of_decide_eq_true hv⟩
      simp only
      rw [write_of_open { st with counter := st.counter + 1 } hop]
      exact ⟨_, rfl, hok⟩

theorem terminateAffected_spec {synctype : Variant} {is : List Nat} (hnodup : is.Nodup) (st : Box V) :
    (st.terminateAffected arg synctype is = none ↔ ∃ i ∈ is,
      variantIsSupertypeOfAllOthers synctype (arg.variants i) = true ∧ st.isOpen i = false) ∧
    ∀ st', st.terminateAffected arg synctype is = some st' → st'.status = st.status ∧
      ∀ i, st'.isOpen i = true → st.isOpen i = true := by
  induction is generalizing st with
  | nil =>
    refine ⟨by simp [Box.terminateAffected], fun st' h => ?_⟩
    cases h
    exact ⟨rfl, fun _ => id⟩
  | cons i is ih =>
    obtain ⟨hi, hnodup⟩ := nodup_cons.1 hnodup
    unfold Box.terminateAffected
    by_cases hc : variantIsSupertypeOfAllOthers synctype (arg.variants i) = true
    swap
    · rw [if_neg hc]
      obtain ⟨h1, h2⟩ := ih hnodup st
      refine ⟨h1.trans ?_, h2⟩
      simp [hc]
    rw [if_pos hc]
    cases ho : st.isOpen i with
    | false =>
      have hw : st.write i (.record (.terminate true)) = none := by simp [Box.write, ho]
      rw [hw]
      exact ⟨⟨fun _ => ⟨i, mem_cons_self, hc, ho⟩, fun _ => rfl⟩, nofun⟩
    | true =>
      rw [write_of_open st ho, Option.bind_some]
      obtain ⟨h1, h2⟩ := ih hnodup ((st.send i (.record (.terminate true))).close i)
      have hsame : ∀ j ∈ is, ((st.send i (.record (.terminate true))).close i).isOpen j =
          st.isOpen j := by
        intro j hj
        have hji : j ≠ i := fun h => hi (h ▸ hj)
        exact Function.update_of_ne hji _ _
      refine ⟨h1.trans ⟨?_, ?_⟩, fun st' hst' => ⟨(h2 st' hst').1, fun j hj => ?_⟩⟩
      · rintro ⟨j, hj, h3, h4⟩
        exact ⟨j, mem_cons_of_mem _ hj, h3, hsame j hj ▸ h4⟩
      · rintro ⟨j, hj, h3, h4⟩
        rcases mem_cons.1 hj with rfl | hj
        · rw [ho] at h4
          cases h4
        · exact ⟨j, hj, h3, (hsame j hj).symm ▸ h4⟩
      · have := (h2 st' hst').2 j hj
        by_cases hji : j = i
        · exact hji ▸ ho
        · simpa [Box.close, Box.send, hji] using this

theorem leaveOrGoOn_spec (arg : Arg) (input : StreamId) (st : Box V) :
    ∃ st', st.leaveOrGoOn arg input = some st' ∧ st'.isOpen = st.isOpen := by
  unfold Box.leaveOrGoOn
  dsimp only
  split
  · rename_i last hlast
    have hmem : last ∈ (List.range arg.num).filter st.isOpen := hlast ▸ mem_cons_self
    have hop := (mem_filter.1 hmem).2
    rw [write_of_open { st with counter := st.counter + 1 } hop]
    simp only [Option.bind_eq_bind, Option.bind_some]
    rw [write_of_open (({ st with counter := st.counter + 1 } : Box V).send last
      (.record (.sortEnd 0 (-1)))) hop]
    exact ⟨_, rfl, rfl⟩
  · exact ⟨_, rfl, rfl⟩

theorem step_isOpen {st st' : Box V} {r : Rec (Record V) Variant} (h : st.step arg r = .done st') {i : Nat}
    (hi : st'.isOpen i = true) : st.isOpen i = true := by
  unfold Box.step at h
  split at h
  · cases h
  · cases r with
    | data d =>
      simp only at h
      split at h
      · cases h
        exact hi
      · cases h
        rwa [putToBuffers_isOpen] at hi
    | sync input outtype =>
      cases outtype with
      | none =>
        cases h
        exact hi
      | some synctype =>
        obtain ⟨st1, h1, h2⟩ := Option.bind_eq_some_iff.1 (Outcome.ofOption_eq_done.1 h)
        obtain ⟨st2, h3, h4⟩ := leaveOrGoOn_spec arg input st1
        obtain rfl := Option.some.inj (h2.symm.trans h3)
        rw [h4] at hi
        exact ((terminateAffected_spec nodup_range st).2 st1 h1).2 i hi
    | collect s =>
      cases h
      exact hi
    | sortEnd level num =>
      cases h
      exact hi
    | terminate flag =>
      cases h
      exact hi

/-! ## Every run -/

theorem Ok_sync_iff {st : Box V} {input : StreamId} {synctype : Variant} :
    Ok arg st (.sync input (some synctype)) ↔
      st.terminateAffected arg synctype (List.range arg.num) ≠ none := by
  rw [ne_eq, (terminateAffected_spec nodup_range st).1]
  constructor
  · rintro h ⟨i, hi, h1, h2⟩
    rw [h i (mem_range.1 hi) h1] at h2
    cases h2
  · intro h i hi h1
    by_contra h2
    exact h ⟨i, mem_range.2 hi, h1, by simpa using h2⟩

theorem dataWrites_append (l l' : List (Nat × Written V)) :
    dataWrites (l ++ l') = dataWrites l ++ dataWrites l' := filterMap_append

theorem dataWrites_putToBuffers (st : Box V) {idx : Nat} (d : Record V) (counted : Bool) :
    dataWrites (st.putToBuffers arg idx (.record (.data d)) counted).log =
      dataWrites st.log ++ if st.isOpen idx then [(idx, d)] else [] := by
  have hsort : ∀ (is : List Nat) (n : Int),
      dataWrites (V := V) (is.map fun i => (i, .record (.sortEnd 0 n))) = [] := by
    intro is n
    induction is with
    | nil => rfl
    | cons i is ih => exact ih
  unfold Box.putToBuffers
  cases ho : st.isOpen idx
  · cases counted
    · simp
    · simp [Box.broadcast, dataWrites_append, hsort]
  · have hone : dataWrites ([(idx, .record (.data d))] : List (Nat × Written V)) = [(idx, d)] := rfl
    cases counted
    · simp [Box.send, dataWrites_append, hone]
    · simp only [Box.send, Box.broadcast, if_true, dataWrites_append, hsort, hone, append_nil]

theorem putToBuffers_status (st : Box V) (i : Nat) (w : Written V) (counted : Bool) :
    (st.putToBuffers arg i w counted).status = st.status := by
  unfold Box.putToBuffers
  cases counted <;> by_cases h : st.isOpen i <;> simp [h, Box.send, Box.broadcast]

theorem sound_step_iff {st : Box V} (hst : OpenOk arg st) (hrun : st.status = .running)
    (r : Rec (Record V) Variant) : Sound arg st r (st.step arg r) ↔ Ok arg st r := by
  have hlive : ¬ st.status ≠ .running := fun h => h hrun
  unfold Box.step
  rw [if_neg hlive]
  cases r with
  | data d =>
    -- the counter of a branch that has variants tells whether it matches
    have hmatch : ∀ i, arg.variants i ≠ [] →
        ((st.checked arg d i).isMatch = true ↔ ∃ v ∈ arg.variants i, Matches d v) := fun i hi =>
      (checkMatch_spec d hi _).1
    cases hbest : st.best arg d with
    | none =>
      have hno := (bestMatchLoop_none hbest).2
      simp only [Sound, Ok, hbest]
      refine iff_of_true ⟨nofun, fun d' st' hd heq => Or.inr ?_⟩ nofun
      cases hd
      cases heq
      refine ⟨rfl, rfl, fun i hi ho hex => ?_⟩
      have hv := (hst i ho).2
      have hm := (hmatch i hv).2 hex
      have hge := (checkMatch_spec d hv (st.matchcounter i)).2 hm
      have := hno i (mem_range.2 hi) _ (if_pos hm)
      exact absurd (Int.le_trans hge this) (by decide)
    | some idx =>
      have hlt := bestMatch_lt hbest
      simp only [Sound, Ok, hbest]
      constructor
      · rintro ⟨-, hsound⟩ i hi
        obtain rfl := Option.some.inj hi
        by_contra hclosed
        have hclosed : st.isOpen idx = false := by simpa using hclosed
        rcases hsound d _ rfl rfl with ⟨i, -, -, -, hlog⟩ | ⟨hstatus, -⟩
        · rw [dataWrites_putToBuffers] at hlog
          simp [hclosed] at hlog
        · rw [putToBuffers_status, hrun] at hstatus
          cases hstatus
      · intro hok
        refine ⟨nofun, fun d' st' hd heq => Or.inl ?_⟩
        cases hd
        cases heq
        have ho := hok idx rfl
        refine ⟨idx, hlt, ho, ?_, ?_⟩
        · rcases bestMatchLoop_some hbest with h | ⟨c, hc⟩
          · cases h
          · refine (hmatch idx (hst idx ho).2).1 ?_
            by_contra hno
            rw [if_neg hno] at hc
            cases hc
        · rw [dataWrites_putToBuffers]
          simp [ho]
  | sync input outtype =>
    cases outtype with
    | none => exact iff_of_true ⟨nofun, nofun⟩ trivial
    | some synctype =>
      rw [Ok_sync_iff]
      simp only [Sound]
      cases ht : st.terminateAffected arg synctype (List.range arg.num) with
      | none => exact iff_of_false (fun h => h.1 rfl) (fun h => h rfl)
      | some st1 =>
        obtain ⟨st2, h2, -⟩ := leaveOrGoOn_spec arg input st1
        rw [Option.bind_some, h2]
        exact iff_of_true ⟨nofun, nofun⟩ nofun
  | collect s => exact iff_of_true ⟨nofun, nofun⟩ trivial
  | sortEnd level num => exact iff_of_true ⟨nofun, nofun⟩ trivial
  | terminate flag => exact iff_of_true ⟨nofun, nofun⟩ trivial

/-- The dispatcher gets as far as its main loop; and in every run in which each record so far meets
the condition, it does what is asked of it for the next record exactly if that meets it too. -/
theorem dispatcher_sound_iff (arg : Arg) (memory : Nat → MatchCount) (input : StreamId) :
    ∃ st0 : Box V, Box.start arg memory input = some st0 ∧
      ∀ st, Reach (Box.step arg) (Ok arg) st0 st → st.status = .running →
        ∀ r, Sound arg st r (st.step arg r) ↔ Ok arg st r := by
  obtain ⟨st0, h0, hopen⟩ := start_spec (V := V) arg memory input
  refine ⟨st0, h0, fun st hst hrun r => ?_⟩
  have hinv : OpenOk arg st :=
    hst.invariant hopen fun s a s' hs _ hstep i hi => hs i (step_isOpen hstep hi)
  exact sound_step_iff hinv hrun r

def threeBranches : Arg := ⟨[[⟨[1], [], []⟩], [⟨[2], [], []⟩], [⟨[3], [], []⟩]], true⟩

/-- The first record, with a field 2. -/
theorem three_branches_deliver : ∃ st0 : Box Unit,
    Box.start threeBranches (fun _ => ⟨false, 0⟩) 0 = some st0 ∧
      Sound threeBranches st0 (.data ⟨⟨[(2, ())], by decide⟩, .empty, .empty, 0, .binary, none⟩)
        (st0.step threeBranches (.data ⟨⟨[(2, ())], by decide⟩, .empty, .empty, 0, .binary, none⟩)) := by
  obtain ⟨st0, h0, h⟩ := dispatcher_sound_iff (V := Unit) threeBranches (fun _ => ⟨false, 0⟩) 0
  refine ⟨st0, h0, ?_⟩
  cases h0
  refine (h _ .init rfl _).2 fun idx hidx => ?_
  cases hidx
  rfl

/-- The same outtype twice: the second one has the dispatcher write to the stream that it closed for
the first. -/
theorem outtype_twice : ∃ st0 st1 : Box Unit,
    Box.start threeBranches (fun _ => ⟨false, 0⟩) 0 = some st0 ∧
      st0.step threeBranches (.sync 1 (some ⟨[1], [], []⟩)) = .done st1 ∧
      st1.status = .running ∧
      st1.step threeBranches (.sync 2 (some ⟨[1], [], []⟩)) = .fault := ⟨_, _, rfl, rfl, rfl, rfl⟩

end SNet.Parallel
