import SNetRts.Front.Zipper

/-!
# The star of synchrocells, step by step

What the tests of a cell do to its slots, and the steps of the star: a record leaves it, passes a
cell that rejects it, stays in a cell, or makes a cell fire. The tests of the zipper leave out the
patterns that have rejected the record before and find the same (`testPatterns_spec`).
-/

namespace SNet.Zipper

open List

open Lib SNet.Sync

variable {V : Type} {patterns exits : List (Pattern V)}

/-! ## Matching -/

abbrev lacking (ss : List (Slot V)) : Nat := ss.countP Slot.isDummy

theorem isDummy_iff {s : Slot V} : s.isDummy = true ↔ s = .dummy := by
  cases s <;> simp [Slot.isDummy]

def Rejects (patterns : List (Pattern V)) (ss : List (Slot V)) (rec : Record V) : Prop :=
  ∀ (i : Nat) (p : Pattern V), patterns[i]? = some p → ss[i]? = some .dummy → p.accepts rec = false

theorem rejects_cons {p : Pattern V} {ps : List (Pattern V)} {s : Slot V} {ss : List (Slot V)}
    {rec : Record V} :
    Rejects (p :: ps) (s :: ss) rec ↔ (s.isDummy && p.accepts rec) = false ∧ Rejects ps ss rec := by
  constructor
  · intro h
    refine ⟨?_, fun i q hq hs => h (i + 1) q (by simpa using hq) (by simpa using hs)⟩
    cases hs : s.isDummy with
    | false => rfl
    | true => exact h 0 p rfl (by simp [isDummy_iff.1 hs])
  · rintro ⟨h1, h2⟩ i q hq hs
    cases i with
    | zero =>
      simp only [getElem?_cons_zero, Option.some.injEq] at hq hs
      subst hq
      subst hs
      simpa [Slot.isDummy] using h1
    | succ i => exact h2 i q (by simpa using hq) (by simpa using hs)

theorem matchPatterns_spec (rec : Record V) (ps : List (Pattern V)) (ss : List (Slot V))
    (found : Nat) (hlen : ss.length = ps.length) :
    (matchPatterns rec ps ss found).1.length = ss.length ∧
      (matchPatterns rec ps ss found).2 + lacking (matchPatterns rec ps ss found).1 =
        found + lacking ss ∧
      found ≤ (matchPatterns rec ps ss found).2 ∧
      ((matchPatterns rec ps ss found).2 = found ↔ Rejects ps ss rec) ∧
      (Rejects ps ss rec → (matchPatterns rec ps ss found).1 = ss) := by
  induction ps generalizing ss found with
  | nil =>
    obtain rfl : ss = [] := length_eq_zero_iff.1 hlen
    simp [matchPatterns, Rejects]
  | cons p ps ih =>
    obtain ⟨s, ss, rfl⟩ := exists_cons_of_length_eq_add_one hlen
    have hlen' : ss.length = ps.length := by simpa using hlen
    rw [rejects_cons, matchPatterns]
    cases hs : s.isDummy && p.accepts rec with
    | true =>
      obtain ⟨h1, h2, h3, -, -⟩ := ih ss (found + 1) hlen'
      have hd : s.isDummy = true := by
        rw [Bool.and_eq_true] at hs
        exact hs.1
      have hd' : (if found = 0 then Slot.stored rec else .null).isDummy = false := by
        split <;> rfl
      refine ⟨by simp [h1], ?_, by simp only [if_true]; omega, ?_, by simp⟩
      · simp only [if_true, lacking, countP_cons, hd, hd', Bool.false_eq_true, if_false] at h2 ⊢
        omega
      · simp only [if_true, Bool.true_eq_false, false_and, iff_false]
        omega
    | false =>
      obtain ⟨h1, h2, h3, h4, h5⟩ := ih ss found hlen'
      refine ⟨by simp [h1], ?_, by simpa using h3, by simpa using h4, ?_⟩
      · simp only [Bool.false_eq_true, if_false, lacking, countP_cons] at h2 ⊢
        omega
      · rintro ⟨-, h⟩
        simp [h5 h]

theorem matchPatterns_dummy (rec : Record V) (ps : List (Pattern V)) (ss : List (Slot V))
    (found : Nat) (hlen : ss.length = ps.length) (k : Nat) :
    (matchPatterns rec ps ss found).1[k]? = some .dummy ↔
      ss[k]? = some .dummy ∧ (ps[k]?).any (fun p => p.accepts rec) = false := by
  induction ps generalizing ss found k with
  | nil =>
    obtain rfl : ss = [] := length_eq_zero_iff.1 hlen
    simp [matchPatterns]
  | cons p ps ih =>
    obtain ⟨s, ss, rfl⟩ := exists_cons_of_length_eq_add_one hlen
    have hlen' : ss.length = ps.length := by simpa using hlen
    rw [matchPatterns]
    cases hs : s.isDummy && p.accepts rec with
    | true =>
      simp only [if_true]
      cases k with
      | zero =>
        rw [Bool.and_eq_true] at hs
        have hne : (if found = 0 then Slot.stored rec else .null) ≠ Slot.dummy := by split <;> simp
        simp [hs.2, hne]
      | succ k => simpa using ih ss (found + 1) hlen' k
    | false =>
      simp only [Bool.false_eq_true, if_false]
      cases k with
      | zero =>
        cases hd : s.isDummy with
        | true => simp_all
        | false =>
          have hne : s ≠ .dummy := fun e => by simp [e, Slot.isDummy] at hd
          simp [hne]
      | succ k => simpa using ih ss found hlen' k

theorem lacking_eq_zero {ss : List (Slot V)} : lacking ss = 0 ↔ ∀ i : Nat, ss[i]? ≠ some .dummy := by
  rw [lacking, countP_eq_zero]
  constructor
  · intro h i hi
    exact h _ (mem_of_getElem? hi) rfl
  · intro h s hs hd
    obtain ⟨i, hi⟩ := mem_iff_getElem?.1 hs
    exact h i (isDummy_iff.1 hd ▸ hi)

/-- The mask tells which of the slots, from pattern `i` on, lack their record. -/
def Mask (i : Nat) (ss : List (Slot V)) (unmatched : Finset Nat) : Prop :=
  ∀ k, k < ss.length → (i + k ∈ unmatched ↔ ss[k]? = some .dummy)

/-- Every pattern, from pattern `i` on, that is no longer untested rejects the record. -/
def TestedOk (i : Nat) (ps : List (Pattern V)) (rec : Record V) (untested : Finset Nat) : Prop :=
  ∀ (k : Nat) (p : Pattern V), ps[k]? = some p → i + k ∉ untested → p.accepts rec = false

theorem mask_tail {i : Nat} {s : Slot V} {ss : List (Slot V)} {u : Finset Nat}
    (h : Mask i (s :: ss) u) : Mask (i + 1) ss u := by
  intro k hk
  have := h (k + 1) (by simpa using hk)
  rw [getElem?_cons_succ] at this
  rwa [show i + 1 + k = i + (k + 1) by omega]

theorem mask_head {i : Nat} {s : Slot V} {ss : List (Slot V)} {u : Finset Nat}
    (h : Mask i (s :: ss) u) : i ∈ u ↔ s.isDummy = true := by
  have := h 0 (by simp)
  rw [isDummy_iff]
  simpa using this

theorem mask_erase {i : Nat} {ss : List (Slot V)} {u : Finset Nat} (h : Mask (i + 1) ss u) :
    Mask (i + 1) ss (u.erase i) := by
  intro k hk
  rw [← h k hk, Finset.mem_erase]
  exact and_iff_right (by omega)

theorem mask_cons {i : Nat} {s : Slot V} {ss : List (Slot V)} {u : Finset Nat}
    (h0 : i ∈ u ↔ s = .dummy) (h : Mask (i + 1) ss u) : Mask i (s :: ss) u := by
  intro k hk
  cases k with
  | zero => simpa using h0
  | succ k =>
    have := h k (by simpa using hk)
    rw [show i + (k + 1) = i + 1 + k by omega, getElem?_cons_succ]
    exact this

theorem testedOk_tail {i : Nat} {p : Pattern V} {ps : List (Pattern V)} {rec : Record V}
    {u : Finset Nat} (h : TestedOk i (p :: ps) rec u) : TestedOk (i + 1) ps rec u := by
  intro k q hq hk
  exact h (k + 1) q (by simpa using hq) (by rwa [show i + (k + 1) = i + 1 + k by omega])

theorem testedOk_erase {i : Nat} {ps : List (Pattern V)} {rec : Record V} {u : Finset Nat}
    (h : TestedOk (i + 1) ps rec u) : TestedOk (i + 1) ps rec (u.erase i) := by
  intro k q hq hk
  refine h k q hq fun hmem => hk (Finset.mem_erase.2 ⟨by omega, hmem⟩)

theorem testedOk_cons {i : Nat} {p : Pattern V} {ps : List (Pattern V)} {rec : Record V}
    {u : Finset Nat} (h0 : i ∉ u → p.accepts rec = false) (h : TestedOk (i + 1) ps rec u) :
    TestedOk i (p :: ps) rec u := by
  intro k q hq hk
  cases k with
  | zero =>
    obtain rfl : p = q := by simpa using hq
    exact h0 (by simpa using hk)
  | succ k => exact h k q (by simpa using hq) (by rwa [show i + 1 + k = i + (k + 1) by omega])

theorem testPatterns_spec (rec : Record V) (i : Nat) (ps : List (Pattern V)) (ss : List (Slot V))
    (untested unmatched : Finset Nat) (found : Nat) (hlen : ss.length = ps.length)
    (hmask : Mask i ss unmatched) (htested : TestedOk i ps rec untested) :
    let t := testPatterns rec i ps ss untested unmatched found
    let r := matchPatterns rec ps ss found
    t.storage = r.1 ∧ t.newMatches = r.2 ∧ Mask i r.1 t.unmatched ∧
      (∀ j, j < i ∨ i + ss.length ≤ j → (j ∈ t.unmatched ↔ j ∈ unmatched)) ∧
      (∀ j, j < i → (j ∈ t.untested ↔ j ∈ untested)) ∧
      (r.2 = found → TestedOk i ps rec t.untested) := by
  induction ps generalizing i ss untested unmatched found with
  | nil =>
    obtain rfl : ss = [] := length_eq_zero_iff.1 hlen
    simp [testPatterns, matchPatterns, Mask, TestedOk]
  | cons p ps ih =>
    obtain ⟨s, ss, rfl⟩ := exists_cons_of_length_eq_add_one hlen
    have hlen' : ss.length = ps.length := by simpa using hlen
    have hmask' := mask_tail hmask
    have htested' := testedOk_tail htested
    have hgt : ∀ {j : Nat}, j < i ∨ i + (s :: ss).length ≤ j → j ≠ i ∧
        (j < i + 1 ∨ i + 1 + ss.length ≤ j) := by
      intro j hj
      rw [length_cons] at hj
      omega
    intro t r
    by_cases hi : i ∈ untested ∧ i ∈ unmatched
    · have hd : s.isDummy = true := (mask_head hmask).1 hi.2
      by_cases hp : p.accepts rec = true
      · have hmatch : r = ((if found = 0 then Slot.stored rec else .null) ::
            (matchPatterns rec ps ss (found + 1)).1, (matchPatterns rec ps ss (found + 1)).2) := by
          simp [r, matchPatterns, hd, hp]
        have hnd : (if found = 0 then Slot.stored rec else .null) ≠ Slot.dummy := by
          split <;> simp
        obtain ⟨hl1, -, hge, -, hsame⟩ := matchPatterns_spec rec ps ss (found + 1) hlen'
        by_cases hempty : unmatched.erase i = ∅
        · -- the loop ends early, and the remaining slots have their records
          have hrej : Rejects ps ss rec := by
            intro k q hq hk
            have hklen : k < ss.length := by
              by_contra hcon
              rw [getElem?_eq_none (by omega)] at hk
              cases hk
            have hmem := (mask_erase hmask' k hklen).2 hk
            rw [hempty] at hmem
            exact absurd hmem (Finset.notMem_empty _)
          have h2 : (matchPatterns rec ps ss (found + 1)).2 = found + 1 :=
            (matchPatterns_spec rec ps ss (found + 1) hlen').2.2.2.1.2 hrej
          have ht : t = ⟨untested.erase i, unmatched.erase i,
              (if found = 0 then Slot.stored rec else .null) :: ss, found + 1⟩ := by
            simp [t, testPatterns, hi, hp, hempty]
          rw [ht, hmatch]
          refine ⟨by rw [hsame hrej], h2.symm, ?_, ?_, ?_, ?_⟩
          · refine mask_cons (by simp [hnd]) ?_
            rw [hsame hrej]
            exact mask_erase hmask'
          · intro j hj
            simp [(hgt hj).1]
          · intro j hj
            simp [Nat.ne_of_lt hj]
          · intro h
            have : (matchPatterns rec ps ss (found + 1)).2 = found := h
            omega
        · obtain ⟨h1, h2, h3, h4, h5, -⟩ := ih (i + 1) ss (untested.erase i) (unmatched.erase i)
            (found + 1) hlen' (mask_erase hmask') (testedOk_erase htested')
          have ht : t = { testPatterns rec (i + 1) ps ss (untested.erase i) (unmatched.erase i)
              (found + 1) with
              storage := (if found = 0 then Slot.stored rec else .null) ::
                (testPatterns rec (i + 1) ps ss (untested.erase i) (unmatched.erase i)
                  (found + 1)).storage } := by
            simp [t, testPatterns, hi, hp, hempty]
          rw [ht, hmatch]
          refine ⟨by rw [h1], h2, mask_cons ?_ h3, ?_, ?_, ?_⟩
          · simp [hnd, h4 i (Or.inl (Nat.lt_succ_self i))]
          · intro j hj
            simp [h4 j (hgt hj).2, (hgt hj).1]
          · intro j hj
            simp [h5 j (by omega), Nat.ne_of_lt hj]
          · intro h
            have : (matchPatterns rec ps ss (found + 1)).2 = found := h
            omega
      · have hp : p.accepts rec = false := by simpa using hp
        obtain ⟨h1, h2, h3, h4, h5, h6⟩ := ih (i + 1) ss (untested.erase i) unmatched found hlen'
          hmask' (testedOk_erase htested')
        have hmatch : r = (s :: (matchPatterns rec ps ss found).1, (matchPatterns rec ps ss found).2) := by
          simp [r, matchPatterns, hp]
        have ht : t = { testPatterns rec (i + 1) ps ss (untested.erase i) unmatched found with
            storage := s :: (testPatterns rec (i + 1) ps ss (untested.erase i) unmatched
              found).storage } := by
          simp [t, testPatterns, hi, hp]
        rw [ht, hmatch]
        refine ⟨by rw [h1], h2, mask_cons ?_ h3, ?_, ?_, ?_⟩
        · simp [h4 i (Or.inl (Nat.lt_succ_self i)), hi.2, isDummy_iff.1 hd]
        · intro j hj
          exact h4 j (hgt hj).2
        · intro j hj
          simp [h5 j (by omega), Nat.ne_of_lt hj]
        · intro h
          exact testedOk_cons (fun _ => hp) (h6 h)
    · have hrej : (s.isDummy && p.accepts rec) = false := by
        rw [← Bool.not_eq_true, Bool.and_eq_true, ← mask_head hmask]
        rintro ⟨hu, hp⟩
        refine hi ⟨?_, hu⟩
        by_contra hnot
        have := htested 0 p rfl (by simpa using hnot)
        rw [this] at hp
        cases hp
      obtain ⟨h1, h2, h3, h4, h5, h6⟩ := ih (i + 1) ss untested unmatched found hlen' hmask' htested'
      have hmatch : r = (s :: (matchPatterns rec ps ss found).1, (matchPatterns rec ps ss found).2) := by
        simp [r, matchPatterns, hrej]
      have ht : t = { testPatterns rec (i + 1) ps ss untested unmatched found with
          storage := s :: (testPatterns rec (i + 1) ps ss untested unmatched found).storage } := by
        simp [t, testPatterns, hi]
      rw [ht, hmatch]
      refine ⟨by rw [h1], h2, mask_cons ?_ h3, ?_, ?_, ?_⟩
      · rw [h4 i (Or.inl (Nat.lt_succ_self i)), mask_head hmask, isDummy_iff]
      · intro j hj
        exact h4 j (hgt hj).2
      · intro j hj
        exact h5 j (by omega)
      · intro h
        refine testedOk_cons (fun hnot => ?_) (h6 h)
        refine htested 0 p rfl ?_
        rw [Nat.add_zero]
        exact fun hmem => hnot ((h5 i (Nat.lt_succ_self i)).2 hmem)

/-! ## The star -/

/-- A cell that has not fired. -/
structure Waiting (patterns : List (Pattern V)) (c : SyncLanding V) : Prop where
  length : c.storage.length = patterns.length
  count : c.matchCount + lacking c.storage = patterns.length
  state : c.state ≠ .complete

theorem waiting_init (patterns : List (Pattern V)) : Waiting patterns (SyncLanding.init patterns) := by
  refine ⟨by simp [SyncLanding.init], ?_, by simp [SyncLanding.init]⟩
  simp only [SyncLanding.init, lacking, countP_map, Nat.zero_add]
  exact countP_eq_length.2 fun _ _ => rfl

variable {c : SyncLanding V} {rec : Record V}

theorem nodeSync_pass (hc : Waiting patterns c) (h : Rejects patterns c.storage rec) :
    nodeSync patterns false c rec = some (c, [.write rec]) := by
  obtain ⟨-, -, -, hcount, hsame⟩ := matchPatterns_spec rec patterns c.storage 0 hc.length
  simp [nodeSync, hc.state, nodeSyncData, hcount.2 h, hsame h]

theorem nodeSync_store (hc : Waiting patterns c) (h : ¬ Rejects patterns c.storage rec)
    (hl : lacking (matchPatterns rec patterns c.storage 0).1 ≠ 0) :
    nodeSync patterns false c rec =
      some (⟨(matchPatterns rec patterns c.storage 0).1.map (Slot.map Record.dropDetref),
        c.matchCount + (matchPatterns rec patterns c.storage 0).2, .partialSync⟩,
        [.detrefDestroy rec.detref]) := by
  obtain ⟨-, hsum, -, hcount, -⟩ := matchPatterns_spec rec patterns c.storage 0 hc.length
  have h0 : (matchPatterns rec patterns c.storage 0).2 ≠ 0 := fun e => h (hcount.1 e)
  have hne : c.matchCount + (matchPatterns rec patterns c.storage 0).2 ≠ patterns.length := by
    have := hc.count
    omega
  simp [nodeSync, hc.state, nodeSyncData, h0, hne]

theorem nodeSync_fire (hc : Waiting patterns c) (h : ¬ Rejects patterns c.storage rec)
    (hl : lacking (matchPatterns rec patterns c.storage 0).1 = 0) :
    nodeSync patterns false c rec =
      (mergeFromStorage patterns (matchPatterns rec patterns c.storage 0).1 rec).map fun r =>
        (⟨patterns.map fun _ => .dummy, patterns.length, .complete⟩, [.write r]) := by
  obtain ⟨-, hsum, -, hcount, -⟩ := matchPatterns_spec rec patterns c.storage 0 hc.length
  have h0 : (matchPatterns rec patterns c.storage 0).2 ≠ 0 := fun e => h (hcount.1 e)
  have heq : c.matchCount + (matchPatterns rec patterns c.storage 0).2 = patterns.length := by
    have := hc.count
    omega
  cases hm : mergeFromStorageFront (matchPatterns rec patterns c.storage 0).1 patterns <;>
    simp [nodeSync, hc.state, nodeSyncData, h0, heq, hm, mergeFromStorage]

variable {ch : Chain V}

/-- The cells from the record on; the first of them may not have been created yet. -/
def Chain.front (patterns : List (Pattern V)) (ch : Chain V) : List (SyncLanding V) :=
  ch.rest.headD (SyncLanding.init patterns) :: ch.rest.tail

theorem Chain.step_exit (hm : ch.moving = some rec) (he : matchExitPatterns exits rec = true) :
    ch.step patterns exits = { ch with moving := none, out := ch.out ++ [.write rec] } := by
  simp [Chain.step, hm, he]

theorem Chain.step_pass {cs : List (SyncLanding V)} (hm : ch.moving = some rec)
    (he : matchExitPatterns exits rec = false) (hf : ch.front patterns = c :: cs)
    (hc : Waiting patterns c) (h : Rejects patterns c.storage rec) :
    ch.step patterns exits = ⟨ch.passed ++ [c], cs, some rec, ch.out⟩ := by
  obtain ⟨h1, h2⟩ := List.cons.inj hf
  simp only [Chain.step, hm, he, Bool.false_eq_true, if_false, h1, h2, nodeSync_pass hc h, hc.state]

theorem Chain.step_store {cs : List (SyncLanding V)} (hm : ch.moving = some rec)
    (he : matchExitPatterns exits rec = false) (hf : ch.front patterns = c :: cs)
    (hc : Waiting patterns c) (h : ¬ Rejects patterns c.storage rec)
    (hl : lacking (matchPatterns rec patterns c.storage 0).1 ≠ 0) :
    ch.step patterns exits =
      ⟨ch.passed, ⟨(matchPatterns rec patterns c.storage 0).1.map (Slot.map Record.dropDetref),
        c.matchCount + (matchPatterns rec patterns c.storage 0).2, .partialSync⟩ :: cs, none,
        ch.out ++ [.detrefDestroy rec.detref]⟩ := by
  obtain ⟨h1, h2⟩ := List.cons.inj hf
  simp only [Chain.step, hm, he, Bool.false_eq_true, if_false, h1, h2, nodeSync_store hc h hl]

theorem Chain.step_fire {cs : List (SyncLanding V)} (hm : ch.moving = some rec)
    (he : matchExitPatterns exits rec = false) (hf : ch.front patterns = c :: cs)
    (hc : Waiting patterns c) (h : ¬ Rejects patterns c.storage rec)
    (hl : lacking (matchPatterns rec patterns c.storage 0).1 = 0) :
    ch.step patterns exits =
      match mergeFromStorage patterns (matchPatterns rec patterns c.storage 0).1 rec with
      | none => ch
      | some r => ⟨ch.passed, cs, some r, ch.out⟩ := by
  obtain ⟨h1, h2⟩ := List.cons.inj hf
  cases hmg : mergeFromStorage patterns (matchPatterns rec patterns c.storage 0).1 rec <;>
    simp only [Chain.step, hm, he, Bool.false_eq_true, if_false, h1, h2, nodeSync_fire hc h hl, hmg,
      Option.map_none, Option.map_some, if_true]

/-! ### Coming to rest -/

theorem Chain.step_of_rest (h : ch.moving = none) : ch.step patterns exits = ch := by
  simp [Chain.step, h]

theorem Chain.iterate_of_fixed (h : ch.step patterns exits = ch) (n : Nat) :
    (Chain.step patterns exits)^[n] ch = ch := Function.iterate_fixed h n

theorem Chain.peel {n : Nat} (hm : ch.moving = some rec)
    (hrest : ((Chain.step patterns exits)^[n] ch).moving = none) :
    ∃ k, n = k + 1 ∧ (Chain.step patterns exits)^[n] ch =
      (Chain.step patterns exits)^[k] (ch.step patterns exits) := by
  cases n with
  | zero => exact absurd hrest (by simp [hm])
  | succ k => exact ⟨k, rfl, Function.iterate_succ_apply _ _ _⟩

theorem Chain.pass_cells {ds es : List (SyncLanding V)} {n : Nat} (hm : ch.moving = some rec)
    (he : matchExitPatterns exits rec = false) (hr : ch.rest = ds ++ es)
    (hd : ∀ d ∈ ds, Waiting patterns d ∧ Rejects patterns d.storage rec)
    (hrest : ((Chain.step patterns exits)^[n] ch).moving = none) :
    ∃ k, n = k + ds.length ∧ (Chain.step patterns exits)^[n] ch =
      (Chain.step patterns exits)^[k] ⟨ch.passed ++ ds, es, some rec, ch.out⟩ := by
  induction ds generalizing ch n with
  | nil =>
    refine ⟨n, rfl, ?_⟩
    obtain ⟨p, r, m, o⟩ := ch
    simp only [nil_append] at hr hm
    subst hr
    subst hm
    simp
  | cons d ds ih =>
    obtain ⟨k, rfl, hk⟩ := Chain.peel hm hrest
    obtain ⟨hw, hrej⟩ := hd d mem_cons_self
    have hfront : ch.front patterns = d :: (ds ++ es) := by simp [Chain.front, hr]
    have hstep := Chain.step_pass hm he hfront hw hrej
    rw [hk, hstep] at hrest ⊢
    obtain ⟨j, rfl, hj⟩ := @ih ⟨ch.passed ++ [d], ds ++ es, some rec, ch.out⟩ _ rfl rfl
      (fun d' hd' => hd d' (mem_cons_of_mem _ hd')) hrest
    exact ⟨j, by simp [Nat.add_assoc], by simpa using hj⟩

theorem Chain.moving_of_rejected (hm : ch.moving = some rec)
    (he : matchExitPatterns exits rec = false) (hrej : ∀ p ∈ patterns, p.accepts rec = false)
    (hw : ∀ d ∈ ch.rest, Waiting patterns d) (n : Nat) :
    ((Chain.step patterns exits)^[n] ch).moving = some rec := by
  induction n generalizing ch with
  | zero => exact hm
  | succ n ih =>
    have hrejects : ∀ ss : List (Slot V), Rejects patterns ss rec := fun ss i p hp _ =>
      hrej p (mem_of_getElem? hp)
    have hwait : Waiting patterns (ch.rest.headD (SyncLanding.init patterns)) := by
      cases hr : ch.rest with
      | nil => exact waiting_init patterns
      | cons d ds => exact hw d (by simp [hr])
    rw [Function.iterate_succ_apply, Chain.step_pass hm he rfl hwait (hrejects _)]
    exact ih rfl fun d hd => hw d (mem_of_mem_tail hd)

end SNet.Zipper
