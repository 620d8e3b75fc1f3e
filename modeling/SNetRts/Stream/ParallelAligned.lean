import SNetRts.Stream.ParallelSound
import Mathlib.Data.List.Infix

/-!
# The sort records of the branches of a parallel combinator

All branches that are open get the same sort records once the main loop has begun. Before that, the
loop over the branches gives each ordinary branch a sort record of its own with the counter as it
stands, and has every initialiser of a deterministic combinator advance the counter with a sort
record to all open branches; so ordinary branches agree only if at most one initialiser follows the
first of them, behind all of them.
-/

namespace SNet.Parallel

open Function (update update_of_ne update_self)

open List

open Lib SNet.Stream

variable {V : Type} {arg : Arg}

/-! ## Sort records of a branch -/

def counts (level num : Int) : List (Int × Int) := if (level, num) = (0, -1) then [] else [(level, num)]

/-- The sort records of one write to branch `k`. -/
def sortOf (k : Nat) (e : Nat × Written V) : List (Int × Int) :=
  match e.2 with
  | .record (.sortEnd level num) => if e.1 = k then counts level num else []
  | _ => []

/-- The sort records that have been written to branch `k`. -/
def sortsTo (log : List (Nat × Written V)) (k : Nat) : List (Int × Int) := log.flatMap (sortOf k)

/-- Open branches have got the same sort records, and the `n`-th sort records of any two branches,
which meet at the collector, are the same. -/
structure Aligned (st : Box V) : Prop where
  same : ∀ j k, st.isOpen j = true → st.isOpen k = true → sortsTo st.log j = sortsTo st.log k
  rounds : ∀ (j k n : Nat) (x y : Int × Int), (sortsTo st.log j)[n]? = some x →
    (sortsTo st.log k)[n]? = some y → x = y

def Arg.kinds (arg : Arg) : List Bool := arg.variantLists.map fun l => l.isEmpty

/-- Initialisers, then ordinary branches, then at most one initialiser. -/
def arranged (kinds : List Bool) : Bool := ((kinds.dropWhile id).dropWhile not).length ≤ 1

variable {log : List (Nat × Written V)} {k : Nat}

theorem sortsTo_append (l l' : List (Nat × Written V)) (k : Nat) :
    sortsTo (l ++ l') k = sortsTo l k ++ sortsTo l' k := flatMap_append

theorem sortsTo_quiet {w : Written V} (hw : ∀ level num, w ≠ .record (.sortEnd level num))
    (is : List Nat) : sortsTo (is.map fun i => (i, w)) k = [] := by
  refine flatMap_eq_nil_iff.2 fun e he => ?_
  obtain ⟨i, -, rfl⟩ := List.mem_map.1 he
  cases w with
  | triggerInitialiser => rfl
  | record r =>
    cases r with
    | sortEnd level num => exact absurd rfl (hw level num)
    | _ => rfl

theorem sortsTo_sort {is : List Nat} (hnodup : is.Nodup) (level num : Int) (k : Nat) :
    sortsTo (V := V) (is.map fun i => (i, .record (.sortEnd level num))) k =
      if k ∈ is then counts level num else [] := by
  induction is with
  | nil => rfl
  | cons i is ih =>
    obtain ⟨hi, hnodup⟩ := nodup_cons.1 hnodup
    rw [map_cons, sortsTo, flatMap_cons]
    change sortOf k (i, _) ++ sortsTo _ k = _
    rw [ih hnodup]
    by_cases hk : i = k
    · subst hk
      simp [sortOf, hi]
    · simp [sortOf, hk, Ne.symm hk]

theorem sortsTo_broadcast (st : Box V) (level num : Int) :
    sortsTo (st.broadcast arg (.record (.sortEnd level num))).log k =
      sortsTo st.log k ++ if k < arg.num ∧ st.isOpen k = true then counts level num else [] := by
  rw [Box.broadcast, sortsTo_append, sortsTo_sort (nodup_range.filter _)]
  simp only [mem_filter, mem_range]

theorem sortsTo_send (st : Box V) (i : Nat) (w : Written V) :
    sortsTo (st.send i w).log k = sortsTo st.log k ++ sortOf k (i, w) := by
  rw [Box.send, sortsTo_append]
  congr 1
  exact append_nil _

theorem sortsTo_putToBuffers (st : Box V) (i : Nat) {w : Written V} (counted : Bool)
    (hw : ∀ level num, w ≠ .record (.sortEnd level num)) :
    sortsTo (st.putToBuffers arg i w counted).log k = sortsTo st.log k ++
      if counted = true ∧ k < arg.num ∧ st.isOpen k = true then counts 0 st.counter else [] := by
  have hquiet : sortOf k (i, w) = [] := by
    cases w with
    | triggerInitialiser => rfl
    | record r =>
      cases r with
      | sortEnd level num => exact absurd rfl (hw level num)
      | _ => rfl
  unfold Box.putToBuffers
  by_cases ho : st.isOpen i = true <;> cases counted
  · simp only [ho, if_true, Bool.false_eq_true, if_false, false_and, append_nil]
    rw [sortsTo_send, hquiet, append_nil]
  · simp only [ho, if_true, true_and]
    rw [sortsTo_broadcast, sortsTo_send, hquiet, append_nil]
    rfl
  · simp only [ho, Bool.false_eq_true, if_false, false_and, append_nil]
  · simp only [ho, Bool.false_eq_true, if_false, if_true, true_and]
    rw [sortsTo_broadcast]

/-! ## The main loop -/

/-- All open branches have got `base`, and the others a part of it. -/
def Based (arg : Arg) (st : Box V) (base : List (Int × Int)) : Prop :=
  (∀ k, st.isOpen k = true → k < arg.num ∧ sortsTo st.log k = base) ∧
    ∀ k, sortsTo st.log k <+: base

theorem Based.aligned {st : Box V} {base : List (Int × Int)} (h : Based arg st base) : Aligned st := by
  refine ⟨fun j k hj hk => (h.1 j hj).2.trans (h.1 k hk).2.symm, fun j k n x y hx hy => ?_⟩
  have hget : ∀ {l : List (Int × Int)} {z : Int × Int}, l <+: base → l[n]? = some z →
      base[n]? = some z := by
    rintro l z ⟨t, rfl⟩ hz
    rw [getElem?_append_left (List.getElem?_eq_some_iff.1 hz).1]
    exact hz
  exact Option.some.inj ((hget (h.2 j) hx).symm.trans (hget (h.2 k) hy))

theorem Based.grow {st st' : Box V} {base : List (Int × Int)} (more : List (Int × Int))
    (h : Based arg st base)
    (hopen : st'.isOpen = st.isOpen)
    (hlog : ∀ k, sortsTo st'.log k = sortsTo st.log k ++
      if k < arg.num ∧ st.isOpen k = true then more else []) : Based arg st' (base ++ more) := by
  refine ⟨fun k hk => ?_, fun k => ?_⟩
  · rw [hopen] at hk
    obtain ⟨h1, h2⟩ := h.1 k hk
    rw [hlog, if_pos ⟨h1, hk⟩, h2]
    exact ⟨h1, rfl⟩
  · rw [hlog]
    by_cases hk : k < arg.num ∧ st.isOpen k = true
    · rw [if_pos hk, (h.1 k hk.2).2]
    · rw [if_neg hk, append_nil]
      exact (h.2 k).trans (prefix_append _ _)

theorem Based.shrink {st st' : Box V} {base : List (Int × Int)} (h : Based arg st base)
    (hopen : ∀ k, st'.isOpen k = true → st.isOpen k = true)
    (hlog : ∀ k, sortsTo st'.log k = sortsTo st.log k) : Based arg st' base := by
  refine ⟨fun k hk => ?_, fun k => ?_⟩
  · rw [hlog]
    exact h.1 k (hopen k hk)
  · rw [hlog]
    exact h.2 k

theorem sortsTo_terminateAffected {synctype : Variant} {is : List Nat} {st st' : Box V}
    (h : st.terminateAffected arg synctype is = some st') (k : Nat) :
    sortsTo st'.log k = sortsTo st.log k := by
  induction is generalizing st with
  | nil =>
    cases h
    rfl
  | cons i is ih =>
    unfold Box.terminateAffected at h
    split at h
    · obtain ⟨st1, h1, h2⟩ := Option.bind_eq_some_iff.1 h
      unfold Box.write at h1
      split at h1
      · cases h1
        rw [ih h2]
        exact (sortsTo_send st i _).trans (append_nil _)
      · cases h1
    · exact ih h

theorem sortsTo_leaveOrGoOn {input : StreamId} {st st' : Box V}
    (h : st.leaveOrGoOn arg input = some st') (k : Nat) : sortsTo st'.log k = sortsTo st.log k := by
  unfold Box.leaveOrGoOn at h
  dsimp only at h
  split at h
  · simp only [Option.bind_eq_bind, Option.bind_eq_some_iff] at h
    obtain ⟨st1, h1, st2, h2, h3⟩ := h
    unfold Box.write at h1 h2
    split at h1
    · cases h1
      split at h2
      · cases h2
        cases h3
        change sortsTo ((Box.send _ _ _).send _ _).log k = _
        rw [sortsTo_send, sortsTo_send]
        simp [sortOf, counts]
      · cases h2
    · cases h1
  · cases h
    rfl

theorem Based.step {st st' : Box V} {base : List (Int × Int)} {r : Rec (Record V) Variant}
    (h : Based arg st base) (hstep : st.step arg r = .done st') : ∃ base', Based arg st' base' := by
  have hopen : ∀ k, st'.isOpen k = true → st.isOpen k = true := fun k => step_isOpen hstep
  unfold Box.step at hstep
  split at hstep
  · cases hstep
  · cases r with
    | data d =>
      simp only at hstep
      split at hstep
      · cases hstep
        exact ⟨base, h⟩
      · cases hstep
        refine ⟨_, h.grow (if arg.isDet then counts 0 st.counter else [])
          (putToBuffers_isOpen _ _ _ _) fun k => ?_⟩
        rw [sortsTo_putToBuffers]
        · cases arg.isDet <;> simp
        · intro level num hw
          cases hw
    | sync input outtype =>
      cases outtype with
      | none =>
        cases hstep
        exact ⟨base, h⟩
      | some synctype =>
        obtain ⟨st1, h1, h2⟩ := Option.bind_eq_some_iff.1 (Outcome.ofOption_eq_done.1 hstep)
        refine ⟨base, h.shrink hopen fun k => ?_⟩
        rw [sortsTo_leaveOrGoOn h2, sortsTo_terminateAffected h1]
    | collect s =>
      cases hstep
      exact ⟨base, h⟩
    | sortEnd level num =>
      cases hstep
      exact ⟨_, h.grow _ rfl fun k => sortsTo_broadcast st _ _⟩
    | terminate flag =>
      cases hstep
      refine ⟨base, h.shrink hopen fun k => ?_⟩
      change sortsTo (st.log ++ _) k = _
      rw [sortsTo_append, sortsTo_quiet, append_nil]
      intro level num hw
      cases hw

/-! ## The loop over the branches -/

/-- The loop has `is` before it and the counter is `a`: the branches ahead have got `todo`, the open
ones behind `done`, and the closed ones a part of `todo`. -/
structure Phase (arg : Arg) (is : List Nat) (st : Box V) (a : Nat) (todo done : List (Int × Int)) :
    Prop where
  counter : st.counter = a
  ahead : ∀ k ∈ is, st.isOpen k = true ∧ k < arg.num ∧ sortsTo st.log k = todo
  behind : ∀ k, k ∉ is → st.isOpen k = true → k < arg.num ∧ sortsTo st.log k = done
  closed : ∀ k, st.isOpen k = false → sortsTo st.log k <+: todo

def Conflict (log : List (Nat × Written V)) : Prop :=
  ∃ (j k n : Nat) (x y : Int × Int), (sortsTo log j)[n]? = some x ∧ (sortsTo log k)[n]? = some y ∧ x ≠ y

theorem counts_nat (a : Nat) : counts 0 (a : Int) = [(0, (a : Int))] := by
  have h : ((0 : Int), (a : Int)) ≠ (0, -1) := by
    intro h
    have := congrArg Prod.snd h
    simp only at this
    omega
  exact if_neg h

theorem sortsTo_initialise (st : Box V) (i : Nat) :
    sortsTo (st.initialise arg i).log k = sortsTo st.log k ++
      if arg.isDet = true ∧ k < arg.num ∧ st.isOpen k = true then counts 0 st.counter else [] := by
  change sortsTo ((st.putToBuffers arg i .triggerInitialiser arg.isDet).putToBuffers arg i
    (.record (.terminate true)) false).log k = _
  rw [sortsTo_putToBuffers, sortsTo_putToBuffers]
  · simp
  · intro level num hw
    cases hw
  · intro level num hw
    cases hw

theorem initialise_counter (st : Box V) (i : Nat) :
    (st.initialise arg i).counter = if arg.isDet then st.counter + 1 else st.counter := by
  unfold Box.initialise Box.putToBuffers
  cases arg.isDet <;> by_cases h : st.isOpen i <;> simp [h, Box.send, Box.broadcast, Box.close]

theorem initialise_isOpen (st : Box V) (i : Nat) :
    (st.initialise arg i).isOpen = update st.isOpen i false := by
  change update ((st.putToBuffers arg i .triggerInitialiser arg.isDet).putToBuffers arg i
    (.record (.terminate true)) false).isOpen i false = _
  rw [putToBuffers_isOpen, putToBuffers_isOpen]

section Phase

variable {i : Nat} {is : List Nat} {st : Box V} {a : Nat} {todo done : List (Int × Int)}

theorem Phase.initialiser (h : Phase arg (i :: is) st a todo done) (hi : i ∉ is)
    (hdet : arg.isDet = true) :
    Phase arg is (st.initialise arg i) (a + 1) (todo ++ [(0, (a : Int))]) (done ++ [(0, (a : Int))]) := by
  have hcounts : counts 0 st.counter = [(0, (a : Int))] := h.counter ▸ counts_nat a
  refine ⟨?_, fun k hk => ?_, fun k hk ho => ?_, fun k ho => ?_⟩
  · rw [initialise_counter, if_pos hdet, h.counter]
    rfl
  · obtain ⟨h1, h2, h3⟩ := h.ahead k (mem_cons_of_mem _ hk)
    have hki : k ≠ i := fun e => hi (e ▸ hk)
    rw [initialise_isOpen, update_of_ne hki, sortsTo_initialise, if_pos ⟨hdet, h2, h1⟩, h3,
      hcounts]
    exact ⟨h1, h2, rfl⟩
  · rw [initialise_isOpen] at ho
    by_cases hki : k = i
    · rw [hki, update_self] at ho
      cases ho
    · rw [update_of_ne hki] at ho
      obtain ⟨h1, h2⟩ := h.behind k (by simp [hki, hk]) ho
      rw [sortsTo_initialise, if_pos ⟨hdet, h1, ho⟩, h2, hcounts]
      exact ⟨h1, rfl⟩
  · rw [sortsTo_initialise]
    by_cases hki : k = i
    · obtain ⟨h1, h2, h3⟩ := h.ahead i mem_cons_self
      rw [hki, if_pos ⟨hdet, h2, h1⟩, h3, hcounts]
    · rw [initialise_isOpen, update_of_ne hki] at ho
      rw [if_neg (by simp [ho]), append_nil]
      exact (h.closed k ho).trans (prefix_append _ _)

theorem Phase.initialiser_nondet (h : Phase arg (i :: is) st a todo done) (hi : i ∉ is)
    (hdet : arg.isDet = false) : Phase arg is (st.initialise arg i) a todo done := by
  have hlog : ∀ k, sortsTo (st.initialise arg i).log k = sortsTo st.log k := fun k => by
    rw [sortsTo_initialise, if_neg (by simp [hdet]), append_nil]
  refine ⟨?_, fun k hk => ?_, fun k hk ho => ?_, fun k ho => ?_⟩
  · rw [initialise_counter, if_neg (by simp [hdet]), h.counter]
  · have hki : k ≠ i := fun e => hi (e ▸ hk)
    rw [initialise_isOpen, update_of_ne hki, hlog]
    exact h.ahead k (mem_cons_of_mem _ hk)
  · rw [initialise_isOpen] at ho
    by_cases hki : k = i
    · rw [hki, update_self] at ho
      cases ho
    · rw [update_of_ne hki] at ho
      rw [hlog]
      exact h.behind k (by simp [hki, hk]) ho
  · rw [hlog]
    by_cases hki : k = i
    · rw [hki, (h.ahead i mem_cons_self).2.2]
    · rw [initialise_isOpen, update_of_ne hki] at ho
      exact h.closed k ho

theorem Phase.ordinary (h : Phase arg (i :: is) st a todo (todo ++ [(0, (a : Int))])) (hi : i ∉ is) :
    Phase arg is (st.send i (.record (.sortEnd 0 st.counter))) a todo (todo ++ [(0, (a : Int))]) := by
  have hlog : ∀ k, sortsTo (st.send i (.record (.sortEnd 0 st.counter))).log k =
      sortsTo st.log k ++ if i = k then [(0, (a : Int))] else [] := fun k => by
    rw [sortsTo_send, h.counter]
    simp only [sortOf, counts_nat]
  have hother : ∀ k, k ≠ i → sortsTo (st.send i (.record (.sortEnd 0 st.counter))).log k =
      sortsTo st.log k := fun k hki => by
    rw [hlog, if_neg (Ne.symm hki), append_nil]
  refine ⟨h.counter, fun k hk => ?_, fun k hk ho => ?_, fun k ho => ?_⟩
  · have hki : k ≠ i := fun e => hi (e ▸ hk)
    rw [hother k hki]
    exact h.ahead k (mem_cons_of_mem _ hk)
  · by_cases hki : k = i
    · obtain ⟨-, h2, h3⟩ := h.ahead i mem_cons_self
      rw [hki, hlog, if_pos rfl, h3]
      exact ⟨h2, rfl⟩
    · rw [hother k hki]
      exact h.behind k (by simp [hki, hk]) ho
  · by_cases hki : k = i
    · have hopen := (h.ahead i mem_cons_self).1
      change st.isOpen k = false at ho
      rw [hki, hopen] at ho
      cases ho
    · rw [hother k hki]
      exact h.closed k ho

theorem Phase.fresh (h : Phase arg is st a todo done) (hfresh : ∀ k, k ∉ is → st.isOpen k = false)
    (done' : List (Int × Int)) : Phase arg is st a todo done' := by
  refine ⟨h.counter, h.ahead, fun k hk ho => ?_, h.closed⟩
  rw [hfresh k hk] at ho
  cases ho

theorem Phase.based (h : Phase arg [] st a todo done) (hle : todo <+: done) : Based arg st done := by
  refine ⟨fun k => h.behind k not_mem_nil, fun k => ?_⟩
  cases ho : st.isOpen k with
  | true =>
    rw [(h.behind k not_mem_nil ho).2]
  | false => exact (h.closed k ho).trans hle

end Phase

/-! ### What the loop writes stays written -/

theorem Conflict.mono {log log' : List (Nat × Written V)} (h : Conflict log) (hle : log <+: log') :
    Conflict log' := by
  obtain ⟨j, k, n, x, y, hx, hy, hne⟩ := h
  obtain ⟨more, rfl⟩ := hle
  refine ⟨j, k, n, x, y, ?_, ?_, hne⟩
  · rw [sortsTo_append, getElem?_append_left (List.getElem?_eq_some_iff.1 hx).1]
    exact hx
  · rw [sortsTo_append, getElem?_append_left (List.getElem?_eq_some_iff.1 hy).1]
    exact hy

theorem Conflict.not_aligned {st : Box V} (h : Conflict st.log) : ¬ Aligned st := by
  obtain ⟨j, k, n, x, y, hx, hy, hne⟩ := h
  exact fun hal => hne (hal.rounds j k n x y hx hy)

theorem putToBuffers_log (st : Box V) (i : Nat) (w : Written V) (counted : Bool) :
    st.log <+: (st.putToBuffers arg i w counted).log := by
  unfold Box.putToBuffers
  by_cases ho : st.isOpen i = true <;> cases counted <;>
    simp [ho, Box.send, Box.broadcast]

theorem initialise_log (st : Box V) (i : Nat) : st.log <+: (st.initialise arg i).log :=
  (putToBuffers_log st i _ _).trans (putToBuffers_log _ i _ _)

theorem initLoop_log {is : List Nat} {st st' : Box V} (h : st.initLoop arg is = some st') :
    st.log <+: st'.log := by
  induction is generalizing st with
  | nil =>
    cases h
    exact prefix_rfl
  | cons i is ih =>
    unfold Box.initLoop at h
    split at h
    · exact (initialise_log st i).trans (ih h)
    · obtain ⟨st1, h1, h2⟩ := Option.bind_eq_some_iff.1 h
      unfold Box.write at h1
      split at h1
      · cases h1
        exact (prefix_append _ _).trans (ih h2)
      · cases h1

/-! ### Which arrangements go well -/

def kind (arg : Arg) (i : Nat) : Bool := (arg.variants i).isEmpty

/-- What the loop comes to: all is well, or there is a conflict. -/
def Verdict (arg : Arg) (good : Prop) (st : Box V) : Prop :=
  (good → ∃ base, Based arg st base) ∧ (¬ good → Conflict st.log)

variable {is : List Nat} {st st' : Box V} {a : Nat} {todo : List (Int × Int)}

theorem kind_true {i : Nat} (h : arg.variants i = []) : kind arg i = true := by simp [kind, h]

theorem kind_false {i : Nat} (h : arg.variants i ≠ []) : kind arg i = false := by simp [kind, h]

theorem initLoop_after (hdet : arg.isDet = true) (hnodup : is.Nodup)
    (h : Phase arg is st (a + 1) (todo ++ [(0, (a : Int))])
      (todo ++ [(0, (a : Int))] ++ [(0, (a : Int))]))
    {j : Nat} (hj : j ∉ is) (hopen : st.isOpen j = true) (hst' : st.initLoop arg is = some st') :
    Verdict arg (is.length ≤ 0) st' := by
  cases is with
  | nil =>
    cases hst'
    exact ⟨fun _ => ⟨_, h.based (prefix_append _ _)⟩, fun hne => absurd (Nat.le_refl 0) hne⟩
  | cons i is =>
    refine ⟨fun hle => absurd hle (by simp), fun _ => ?_⟩
    obtain ⟨hi, hnodup⟩ := nodup_cons.1 hnodup
    obtain ⟨hji, hjs⟩ := not_or.1 (mem_cons.not.1 hj)
    have hjl := (h.behind j hj hopen).2
    have hdiff : ((0 : Int), ((a : Nat) : Int)) ≠ (0, ((a + 1 : Nat) : Int)) := by
      intro e
      have := congrArg Prod.snd e
      simp only at this
      omega
    -- the branch has got the number `a + 1` where the ordinary one has `a` a second time
    have hconflict : ∀ st1 : Box V, st.log <+: st1.log →
        sortsTo st1.log i = todo ++ [(0, (a : Int))] ++ [(0, ((a + 1 : Nat) : Int))] →
        Conflict st1.log := by
      rintro st1 ⟨more, hmore⟩ hil
      refine ⟨j, i, todo.length + 1, (0, (a : Int)), (0, ((a + 1 : Nat) : Int)), ?_, ?_, hdiff⟩
      · rw [← hmore, sortsTo_append, hjl]
        simp
      · rw [hil]
        simp
    obtain ⟨hio, hin, hil⟩ := h.ahead i mem_cons_self
    unfold Box.initLoop at hst'
    split at hst'
    · refine (hconflict _ (initialise_log st i) ?_).mono (initLoop_log hst')
      rw [sortsTo_initialise, if_pos ⟨hdet, hin, hio⟩, hil, h.counter, counts_nat]
    · rw [write_of_open st hio, Option.bind_some] at hst'
      refine (hconflict _ (prefix_append _ _) ?_).mono (initLoop_log hst')
      rw [sortsTo_send, hil, h.counter]
      simp only [sortOf, if_true, counts_nat]

theorem initLoop_behind_ordinary (hdet : arg.isDet = true) (hnodup : is.Nodup)
    (h : Phase arg is st a todo (todo ++ [(0, (a : Int))]))
    {j : Nat} (hj : j ∉ is) (hopen : st.isOpen j = true) (hst' : st.initLoop arg is = some st') :
    Verdict arg (((is.map (kind arg)).dropWhile not).length ≤ 1) st' := by
  induction is generalizing st with
  | nil =>
    cases hst'
    exact ⟨fun _ => ⟨_, h.based (prefix_append _ _)⟩, fun hne => absurd (Nat.zero_le 1) hne⟩
  | cons i is ih =>
    obtain ⟨hi, hnodup⟩ := nodup_cons.1 hnodup
    obtain ⟨hji, hjs⟩ := not_or.1 (mem_cons.not.1 hj)
    unfold Box.initLoop at hst'
    split at hst'
    · rename_i hv
      have hlen : (((i :: is).map (kind arg)).dropWhile not).length ≤ 1 ↔ is.length ≤ 0 := by
        simp [kind_true hv]
      have hopen' : (st.initialise arg i).isOpen j = true := by
        rw [initialise_isOpen, update_of_ne hji]
        exact hopen
      rw [hlen]
      exact initLoop_after hdet hnodup (h.initialiser hi hdet) hjs hopen' hst'
    · rename_i hv
      rw [write_of_open st (h.ahead i mem_cons_self).1, Option.bind_some] at hst'
      have hdrop : ((i :: is).map (kind arg)).dropWhile not = (is.map (kind arg)).dropWhile not := by
        simp [kind_false hv]
      rw [hdrop]
      exact ih hnodup (h.ordinary hi) hjs hopen hst'

theorem initLoop_behind_initialisers (hdet : arg.isDet = true) (hnodup : is.Nodup)
    (h : Phase arg is st a todo (todo ++ [(0, (a : Int))]))
    (hfresh : ∀ k, k ∉ is → st.isOpen k = false) (hst' : st.initLoop arg is = some st') :
    Verdict arg (arranged (is.map (kind arg)) = true) st' := by
  induction is generalizing st a todo with
  | nil =>
    cases hst'
    exact ⟨fun _ => ⟨_, h.based (prefix_append _ _)⟩, fun hne => absurd rfl hne⟩
  | cons i is ih =>
    obtain ⟨hi, hnodup'⟩ := nodup_cons.1 hnodup
    unfold Box.initLoop at hst'
    split at hst'
    · rename_i hv
      have harr : arranged ((i :: is).map (kind arg)) = arranged (is.map (kind arg)) := by
        simp [arranged, kind_true hv]
      have hfresh' : ∀ k, k ∉ is → (st.initialise arg i).isOpen k = false := by
        intro k hk
        rw [initialise_isOpen]
        by_cases hki : k = i
        · rw [hki, update_self]
        · rw [update_of_ne hki]
          exact hfresh k (by simp [hki, hk])
      rw [harr]
      exact ih hnodup' ((h.initialiser hi hdet).fresh hfresh' _) hfresh' hst'
    · rename_i hv
      have ho := (h.ahead i mem_cons_self).1
      rw [write_of_open st ho, Option.bind_some] at hst'
      have harr : (arranged ((i :: is).map (kind arg)) = true) =
          (((is.map (kind arg)).dropWhile not).length ≤ 1) := by
        simp [arranged, kind_false hv]
      rw [harr]
      exact initLoop_behind_ordinary hdet hnodup' (h.ordinary hi) hi ho hst'

theorem initLoop_nondet (hdet : arg.isDet = false) (hnodup : is.Nodup)
    (h : Phase arg is st a todo (todo ++ [(0, (a : Int))])) (hst' : st.initLoop arg is = some st') :
    Based arg st' (todo ++ [(0, (a : Int))]) := by
  induction is generalizing st with
  | nil =>
    cases hst'
    exact h.based (prefix_append _ _)
  | cons i is ih =>
    obtain ⟨hi, hnodup⟩ := nodup_cons.1 hnodup
    unfold Box.initLoop at hst'
    split at hst'
    · exact ih hnodup (h.initialiser_nondet hi hdet) hst'
    · rw [write_of_open st (h.ahead i mem_cons_self).1, Option.bind_some] at hst'
      exact ih hnodup (h.ordinary hi) hst'

theorem kinds_eq (arg : Arg) : arg.kinds = (List.range arg.num).map (kind arg) := by
  unfold Arg.kinds kind Arg.variants Arg.num
  refine ext_getElem (by simp) fun n h1 h2 => ?_
  simp only [length_map] at h1
  simp [getD_eq_getElem?_getD, h1]

theorem start_verdict (memory : Nat → MatchCount) (input : StreamId)
    (hst : Box.start arg memory input = some st) :
    Verdict arg (arg.isDet = false ∨ arranged arg.kinds = true) st := by
  unfold Box.start at hst
  rw [Option.bind_eq_bind] at hst
  obtain ⟨st1, h1, h2⟩ := Option.bind_eq_some_iff.1 hst
  have h0 : Phase (V := V) arg (List.range arg.num)
      ⟨fun i => i < arg.num, 0, memory, .running, []⟩ 0 [] ([] ++ [(0, ((0 : Nat) : Int))]) := by
    refine ⟨rfl, fun k hk => ?_, fun k hk ho => ?_, fun k _ => prefix_rfl⟩
    · have hk := mem_range.1 hk
      exact ⟨decide_eq_true hk, hk, rfl⟩
    · exact absurd (mem_range.2 (of_decide_eq_true ho)) hk
  have hfresh : ∀ k, k ∉ List.range arg.num → decide (k < arg.num) = false := by
    intro k hk
    exact decide_eq_false fun hlt => hk (mem_range.2 hlt)
  have hverdict : Verdict arg (arg.isDet = false ∨ arranged arg.kinds = true) st1 := by
    cases hdet : arg.isDet with
    | false =>
      exact ⟨fun _ => ⟨_, initLoop_nondet hdet nodup_range h0 h1⟩,
        fun hne => absurd (Or.inl rfl) hne⟩
    | true =>
      have := initLoop_behind_initialisers hdet nodup_range h0 hfresh h1
      rw [kinds_eq]
      simpa using this
  -- what is left writes no sort record
  have hsame : st.isOpen = st1.isOpen ∧ ∀ k, sortsTo st.log k = sortsTo st1.log k := by
    split at h2
    · cases h2
      exact ⟨rfl, fun _ => rfl⟩
    · obtain ⟨st2, h3, rfl⟩ := Option.map_eq_some_iff.1 h2
      unfold Box.write at h3
      split at h3
      · cases h3
        refine ⟨rfl, fun k => ?_⟩
        exact (sortsTo_send (V := V) { st1 with counter := st1.counter + 1 } _ _).trans
          (append_nil _)
      · cases h3
    · cases h2
      exact ⟨rfl, fun _ => rfl⟩
  refine ⟨fun hgood => ?_, fun hbad => ?_⟩
  · obtain ⟨base, hbase⟩ := hverdict.1 hgood
    exact ⟨base, hbase.shrink (fun k hk => hsame.1 ▸ hk) hsame.2⟩
  · obtain ⟨j, k, n, x, y, hx, hy, hne⟩ := hverdict.2 hbad
    exact ⟨j, k, n, x, y, hsame.2 j ▸ hx, hsame.2 k ▸ hy, hne⟩

/-- The dispatcher gets as far as its main loop, and keeps the branches in line in every run, exactly
if it is not deterministic or no initialiser stands between its ordinary branches and at most one
behind them. -/
theorem branches_aligned_iff (arg : Arg) (memory : Nat → MatchCount) (input : StreamId) :
    ∃ st0 : Box V, Box.start arg memory input = some st0 ∧
      ((∀ st, Reach (Box.step arg) anyStep st0 st → Aligned st) ↔
        arg.isDet = false ∨ arranged arg.kinds = true) := by
  obtain ⟨st0, h0, -⟩ := start_spec (V := V) arg memory input
  have hverdict := start_verdict memory input h0
  refine ⟨st0, h0, fun hall => ?_, fun hgood st hst => ?_⟩
  · by_contra hbad
    exact (hverdict.2 hbad).not_aligned (hall st0 .init)
  · have hbased : ∃ base, Based arg st base :=
      hst.invariant (I := fun st => ∃ base, Based arg st base) (hverdict.1 hgood)
        fun s a s' ⟨base, hs⟩ _ hstep => hs.step hstep
    obtain ⟨base, hbase⟩ := hbased
    exact hbase.aligned

/-- Two ordinary branches. -/
theorem two_branches_aligned : ∃ st0 : Box Unit,
    Box.start ⟨[[⟨[1], [], []⟩], [⟨[2], [], []⟩]], true⟩ (fun _ => ⟨false, 0⟩) 0 = some st0 ∧
      ∀ st, Reach (Box.step ⟨[[⟨[1], [], []⟩], [⟨[2], [], []⟩]], true⟩) anyStep st0 st → Aligned st := by
  obtain ⟨st0, h0, h⟩ := branches_aligned_iff (V := Unit)
    ⟨[[⟨[1], [], []⟩], [⟨[2], [], []⟩]], true⟩ (fun _ => ⟨false, 0⟩) 0
  exact ⟨st0, h0, h.2 (Or.inr rfl)⟩

/-- An initialiser between two ordinary branches: they have got different sort records when the main
loop begins. -/
theorem initialiser_between : ∃ st0 : Box Unit,
    Box.start ⟨[[⟨[1], [], []⟩], [], [⟨[2], [], []⟩]], true⟩ (fun _ => ⟨false, 0⟩) 0 = some st0 ∧
      st0.status = .running ∧ st0.isOpen 0 = true ∧ st0.isOpen 2 = true ∧
      sortsTo st0.log 0 = [(0, 0), (0, 0)] ∧ sortsTo st0.log 2 = [(0, 0), (0, 1)] ∧ ¬ Aligned st0 := by
  refine ⟨_, rfl, rfl, rfl, rfl, rfl, rfl, fun h => ?_⟩
  have hsame : [((0 : Int), (0 : Int)), (0, 0)] = [(0, 0), (0, 1)] := h.same 0 2 rfl rfl
  exact absurd hsame (by decide)

end SNet.Parallel
