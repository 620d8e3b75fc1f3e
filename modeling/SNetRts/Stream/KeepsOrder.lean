import SNetRts.Stream.DetRouting

/-!
# Deterministic combinators keep order

What has left a deterministic combinator, at any time and for every schedule, are the data records
that stem from the input records up to some position, those of one input record after those of the
records before it, and between them the outer sort records as they entered.
-/

namespace SNet.Stream

open Lib List

variable {D Γ : Type}

/-! ## Input and output -/

/-- The input of a combinator: data records and sort records, and perhaps a terminate record at its
end. A dispatcher that reads a sync record goes on on another stream; the input are the records of
all of these, in the order in which it reads them. -/
def Plain : List (Rec D Γ) → Prop
  | [] => True
  | .data _ :: q => Plain q
  | .sortEnd level _ :: q => 0 ≤ level ∧ Plain q
  | .terminate _ :: q => q = []
  | _ :: _ => False

/-- What has left is due to the first `n` records of the input, and possibly to its record `n`, if
that is a data record: data records that stem from them in the order of the input, and the sort
records of the input as they are, each in its place. -/
inductive Leaves (input : List (Rec D Γ)) : Nat → List (Rec (Item D) Γ) → Prop
  | nil : Leaves input 0 []
  | data {n : Nat} {out : List (Rec (Item D) Γ)} {v : D} {i : Item D} (h : Leaves input n out)
      (hn : input[n]? = some (.data v)) (ho : i.origin = n) : Leaves input n (out ++ [.data i])
  | next {n : Nat} {out : List (Rec (Item D) Γ)} {v : D} (h : Leaves input n out)
      (hn : input[n]? = some (.data v)) : Leaves input (n + 1) out
  | sortEnd {n : Nat} {out : List (Rec (Item D) Γ)} {level num : Int} (h : Leaves input n out)
      (hn : input[n]? = some (.sortEnd level num)) : Leaves input (n + 1) (out ++ [.sortEnd level num])
  | terminate {n : Nat} {out : List (Rec (Item D) Γ)} {flag flag' : Bool} (h : Leaves input n out)
      (hn : input[n]? = some (.terminate flag)) : Leaves input (n + 1) (out ++ [.terminate flag'])

theorem Leaves.origins_le {input : List (Rec D Γ)} {n : Nat} {out : List (Rec (Item D) Γ)}
    (h : Leaves input n out) : ∀ i ∈ dataOf out, i.origin ≤ n := by
  induction h with
  | nil => exact fun i hi => (nomatch hi)
  | data h _ ho ih =>
    intro i hi
    rw [dataOf_append] at hi
    rcases mem_append.1 hi with hi | hi
    · exact ih i hi
    · rw [mem_singleton.1 hi]
      exact Nat.le_of_eq ho
  | next h _ ih => exact fun i hi => Nat.le_succ_of_le (ih i hi)
  | sortEnd h _ ih =>
    intro i hi
    rw [dataOf_append] at hi
    exact Nat.le_succ_of_le (ih i (by simpa [dataOf] using hi))
  | terminate h _ ih =>
    intro i hi
    rw [dataOf_append] at hi
    exact Nat.le_succ_of_le (ih i (by simpa [dataOf] using hi))

theorem Leaves.sorted {input : List (Rec D Γ)} {n : Nat} {out : List (Rec (Item D) Γ)}
    (h : Leaves input n out) : (dataOf out).Pairwise fun i j => i.origin ≤ j.origin := by
  induction h with
  | nil => exact List.Pairwise.nil
  | data h _ ho ih =>
    rw [dataOf_append]
    refine pairwise_append.2 ⟨ih, pairwise_singleton _ _, fun i hi j hj => ?_⟩
    rw [mem_singleton.1 hj, ho]
    exact h.origins_le i hi
  | next _ _ ih => exact ih
  | sortEnd _ _ ih =>
    rw [dataOf_append]
    exact (append_nil _).symm ▸ ih
  | terminate _ _ ih =>
    rw [dataOf_append]
    exact (append_nil _).symm ▸ ih

theorem Plain.get {input : List (Rec D Γ)} (h : Plain input) {n : Nat} {r : Rec D Γ}
    (hn : input[n]? = some r) : (∃ v, r = .data v) ∨ (∃ level num, r = .sortEnd level num ∧ 0 ≤ level) ∨
      ∃ flag, r = .terminate flag ∧ n + 1 = input.length := by
  induction input generalizing n with
  | nil => cases hn
  | cons a q ih =>
    cases n with
    | zero =>
      obtain rfl : a = r := Option.some.inj hn
      cases a with
      | data v => exact Or.inl ⟨v, rfl⟩
      | sync s o => exact h.elim
      | collect s => exact h.elim
      | sortEnd level num => exact Or.inr (Or.inl ⟨level, num, rfl, h.1⟩)
      | terminate flag =>
        have : q = [] := h
        exact Or.inr (Or.inr ⟨flag, rfl, by rw [this]; rfl⟩)
    | succ n =>
      have hq : Plain q := by
        cases a with
        | data v => exact h
        | sync s o => exact h.elim
        | collect s => exact h.elim
        | sortEnd level num => exact h.2
        | terminate flag =>
          have : q = [] := h
          rw [this] at hn
          cases hn
      rcases ih hq hn with h1 | h1 | ⟨flag, h1, h2⟩
      · exact Or.inl h1
      · exact Or.inr (Or.inl h1)
      · exact Or.inr (Or.inr ⟨flag, h1, by rw [length_cons, h2]⟩)

theorem labelled_drop {input : List (Rec D Γ)} {n : Nat} {r : Rec D Γ} (hn : input[n]? = some r) :
    (labelled input).drop n = label n r :: (labelled input).drop (n + 1) := by
  obtain ⟨hlt, rfl⟩ := List.getElem?_eq_some_iff.1 hn
  rw [drop_eq_getElem_cons (by rw [labelled, length_mapIdx]; exact hlt)]
  simp [labelled]

/-! ## What the dispatcher has read -/

/-- The dispatcher has read the first `n` records of the input, and the marks are those that it has
set for them. -/
structure Heard (input : List (Rec D Γ)) (n : Nat) (st : DetNet D Γ) (p : Plan) : Prop where
  rest : st.inq 0 = (labelled input).drop n
  le : n ≤ input.length
  running : st.stopped 0 = false → p.marks.length = p.offset + n ∧
    ∀ k flag, k < n → input[k]? ≠ some (.terminate flag)
  past : st.stopped 0 = true → n = input.length ∧ p.marks.length + 1 = p.offset + n ∧
    ∃ flag, input[p.marks.length - p.offset]? = some (.terminate flag)
  base : ∀ k < p.offset, p.Own k
  data : ∀ k v, k < n → input[k]? = some (.data v) → p.Own (k + p.offset)
  outer : ∀ k level num, k < n → input[k]? = some (.sortEnd level num) →
    p.marks[k + p.offset]? = some (level + 1, num)

section

variable {comb : Comb D} {input : List (Rec D Γ)} {n : Nat} {st : DetNet D Γ} {p : Plan}
  {ph : Nat → Nat}

theorem Heard.get (h : Heard input n st p) (hin : Plain input) {k : Nat} (hk : k < p.marks.length) :
    (k < p.offset ∧ p.Own k) ∨ (p.offset ≤ k ∧
      ((∃ v, input[k - p.offset]? = some (.data v) ∧ p.Own k) ∨
        ∃ level num, input[k - p.offset]? = some (.sortEnd level num) ∧ 0 ≤ level ∧
          p.marks[k]? = some (level + 1, num))) := by
  by_cases hoff : k < p.offset
  · exact Or.inl ⟨hoff, h.base k hoff⟩
  · have hle := Nat.le_of_not_lt hoff
    refine Or.inr ⟨hle, ?_⟩
    have hlt : k - p.offset < n := by
      cases hs : st.stopped 0 with
      | false =>
        have := (h.running hs).1
        omega
      | true =>
        have := (h.past hs).2.1
        omega
    have hget : input[k - p.offset]? = some (input.get ⟨k - p.offset, by have := h.le; omega⟩) :=
      getElem?_eq_getElem _
    have hback : k - p.offset + p.offset = k := Nat.sub_add_cancel hle
    rcases hin.get hget with ⟨v, hv⟩ | ⟨level, num, hv, hl⟩ | ⟨flag, hv, hlast⟩
    · rw [hv] at hget
      refine Or.inl ⟨v, hget, ?_⟩
      have := h.data _ v hlt hget
      rwa [hback] at this
    · rw [hv] at hget
      refine Or.inr ⟨level, num, hget, hl, ?_⟩
      have := h.outer _ level num hlt hget
      rwa [hback] at this
    · rw [hv] at hget
      cases hs : st.stopped 0 with
      | false => exact absurd hget ((h.running hs).2 _ flag hlt)
      | true =>
        have := (h.past hs).2.1
        have := (h.past hs).1
        omega

theorem Plan.not_own {k : Nat} {level num : Int} (hl : 0 ≤ level)
    (hm : p.marks[k]? = some (level + 1, num)) : ¬ p.Own k := by
  rintro ⟨c, hc⟩
  have := congrArg Prod.fst (Option.some.inj (hm.symm.trans hc))
  simp only at this
  omega

theorem Heard.leaves (h : Heard input n st p) (hin : Plain input) {P : Nat}
    {out : List (Rec (Item D) Γ)} (hp : Passes p P out) : Leaves input (P - p.offset) out := by
  have hlt : ∀ {k : Nat} {x : Int × Int}, p.marks[k]? = some x → k < p.marks.length := fun hx =>
    (List.getElem?_eq_some_iff.1 hx).1
  induction hp with
  | nil =>
    rw [Nat.zero_sub]
    exact .nil
  | @data k out i _ ho hk ih =>
    obtain ⟨c, hc⟩ := hk
    rcases h.get hin (hlt hc) with ⟨hoff, -⟩ | ⟨hoff, ⟨v, hv, -⟩ | ⟨level, num, -, hl, hm⟩⟩
    · omega
    · exact .data ih hv (by omega)
    · exact absurd ⟨c, hc⟩ (Plan.not_own hl hm)
  | @own k out _ hk ih =>
    obtain ⟨c, hc⟩ := hk
    rcases h.get hin (hlt hc) with ⟨hoff, -⟩ | ⟨hoff, ⟨v, hv, -⟩ | ⟨level, num, -, hl, hm⟩⟩
    · rw [Nat.sub_eq_zero_of_le hoff]
      rwa [Nat.sub_eq_zero_of_le (Nat.le_of_lt hoff)] at ih
    · rw [Nat.succ_sub hoff]
      exact .next ih hv
    · exact absurd ⟨c, hc⟩ (Plan.not_own hl hm)
  | @outer k out level num _ hk hl ih =>
    rcases h.get hin (hlt hk) with ⟨-, hown⟩ | ⟨hoff, ⟨v, -, hown⟩ | ⟨level', num', hv, -, hm⟩⟩
    · exact absurd hown (Plan.not_own hl hk)
    · exact absurd hown (Plan.not_own hl hk)
    · rw [hk] at hm
      obtain ⟨h1, rfl⟩ := Prod.mk.inj (Option.some.inj hm)
      obtain rfl : level = level' := by omega
      rw [Nat.succ_sub hoff]
      exact .sortEnd ih hv

/-! ## The invariant -/

/-- The whole state of a combinator whose dispatcher has read `n` records. -/
structure DetInv (comb : Comb D) (input : List (Rec D Γ)) (st : DetNet D Γ) (p : Plan)
    (ph : Nat → Nat) (n : Nat) : Prop where
  net : NetInv comb st p ph
  locals : LocalsOk comb st
  heard : Heard input n st p
  routed : Routed comb input st
  idle : ∀ c, st.size < c → st.read c = []

theorem Heard.next (h : Heard input n st p) (hin : Plain input) (hrun : st.stopped 0 = false)
    {r : Rec (Item D) Γ} {q : List (Rec (Item D) Γ)} (hq : st.inq 0 = r :: q) :
    ∃ r', input[n]? = some r' ∧ r = label n r' ∧ q = (labelled input).drop (n + 1) ∧
      Admits p p.marks.length q r := by
  have hlt : n < input.length := by
    by_contra hno
    have hnil : (labelled input).drop n = [] := by
      rw [drop_eq_nil_iff, labelled, length_mapIdx]
      exact Nat.le_of_not_lt hno
    rw [h.rest, hnil] at hq
    cases hq
  have hget : input[n]? = some (input.get ⟨n, hlt⟩) := getElem?_eq_getElem _
  have hdrop := labelled_drop hget
  rw [← h.rest, hq] at hdrop
  obtain ⟨rfl, rfl⟩ := List.cons.inj hdrop
  refine ⟨_, hget, rfl, rfl, ?_⟩
  rcases hin.get hget with ⟨v, hv⟩ | ⟨level, num, hv, hl⟩ | ⟨flag, hv, hlast⟩ <;> rw [hv]
  · rw [(h.running hrun).1]
    exact Nat.add_comm _ _
  · exact hl
  · change (labelled input).drop (n + 1) = []
    rw [drop_eq_nil_iff, labelled, length_mapIdx]
    exact Nat.le_of_eq hlast.symm

section

variable {e k' size' : Nat} {more : List (Int × Int)} {r : Rec (Item D) Γ} {q : List (Rec (Item D) Γ)}
  {x : Reacts D Γ}

theorem Heard.perform_other (h : Heard input n st p) (h0 : e ≠ 0)
    (hinst : instWrites comb e 0 x.writes = []) :
    Heard input n (st.perform comb e r q x) (p.extend [] st.size (ph e)) := by
  have hm : (p.extend [] st.size (ph e)).marks = p.marks := append_nil _
  have hown : ∀ k, p.Own k → (p.extend [] st.size (ph e)).Own k := fun k ⟨c, hc⟩ => ⟨c, hm ▸ hc⟩
  have hst : (st.perform comb e r q x).stopped 0 = st.stopped 0 := if_neg (Ne.symm h0)
  refine ⟨?_, h.le, fun hs => ?_, fun hs => ?_, fun k hk => hown k (h.base k hk),
    fun k v hk hv => hown _ (h.data k v hk hv), fun k level num hk hv => ?_⟩
  · simp only [DetNet.perform, if_neg (Ne.symm h0), hinst, append_nil]
    exact h.rest
  · rw [hm]
    exact h.running (hst ▸ hs)
  · rw [hm]
    exact h.past (hst ▸ hs)
  · rw [hm]
    exact h.outer k level num hk hv

theorem Heard.perform_root (h : Heard input n st p) (hrun : st.stopped 0 = false) {r' : Rec D Γ}
    (hn : input[n]? = some r') (hq : q = (labelled input).drop (n + 1))
    (hsets : Sets (label n r') more x.stop) (hadm : Admits p p.marks.length q (label n r'))
    (hinst : instWrites comb 0 0 x.writes = []) :
    Heard input (n + 1) (st.perform comb 0 r q x) (p.extend more st.size (ph 0)) := by
  obtain ⟨hlen, hopen⟩ := h.running hrun
  have hlt : n < input.length := (List.getElem?_eq_some_iff.1 hn).1
  have hst : (st.perform comb 0 r q x).stopped 0 = x.stop := by simp only [DetNet.perform, if_true]
  have hold : ∀ k y, p.marks[k]? = some y → (p.marks ++ more)[k]? = some y := fun k y hy => by
    rw [getElem?_append_left (List.getElem?_eq_some_iff.1 hy).1]
    exact hy
  have hown : ∀ k, p.Own k → (p.extend more st.size (ph 0)).Own k := by
    intro k hk
    obtain ⟨c, hc⟩ := hk
    exact ⟨c, hold k _ hc⟩
  -- the mark of the record itself
  have hnew : (p.marks ++ more)[n + p.offset]? = more[0]? := by
    rw [getElem?_append_right (by omega), hlen, Nat.add_comm n, Nat.sub_self]
  refine ⟨?_, hlt, fun hs => ?_, fun hs => ?_, fun k hk => hown k (h.base k hk), fun k v hk hv => ?_,
    fun k level num hk hv => ?_⟩
  · simp only [DetNet.perform, if_true, hinst, append_nil]
    exact hq
  · rw [hst] at hs
    rw [hs] at hsets
    refine ⟨?_, fun k flag hk => ?_⟩
    · change (p.marks ++ more).length = _
      rw [length_append, hlen]
      cases r' with
      | data v =>
        obtain ⟨-, c, -, rfl⟩ := hsets
        rfl
      | sortEnd level num =>
        obtain ⟨-, rfl⟩ := hsets
        rfl
      | terminate flag => cases hsets.1
      | sync s o => exact hsets.elim
      | collect s => exact hsets.elim
    · rcases Nat.lt_succ_iff_lt_or_eq.1 hk with hk | rfl
      · exact hopen k flag hk
      · rw [hn]
        rintro heq
        rw [Option.some.inj heq] at hsets
        cases hsets.1
  · rw [hst] at hs
    rw [hs] at hsets
    cases r' with
    | data v => cases hsets.1
    | sortEnd level num => cases hsets.1
    | sync s o => exact hsets.elim
    | collect s => exact hsets.elim
    | terminate flag =>
      obtain ⟨-, rfl⟩ := hsets
      have hend : n + 1 = input.length := by
        have hnil : q = [] := hadm
        rw [hq, drop_eq_nil_iff, labelled, length_mapIdx] at hnil
        omega
      have hmarks : (p.extend [] st.size (ph 0)).marks = p.marks := append_nil _
      rw [hmarks, hlen]
      refine ⟨hend, rfl, flag, ?_⟩
      rw [← hn]
      congr 1
      exact Nat.add_sub_cancel_left _ _
  · rcases Nat.lt_succ_iff_lt_or_eq.1 hk with hk | rfl
    · exact hown _ (h.data k v hk hv)
    · rw [hn] at hv
      rw [Option.some.inj hv] at hsets
      obtain ⟨-, c, -, rfl⟩ := hsets
      exact ⟨c, hnew⟩
  · rcases Nat.lt_succ_iff_lt_or_eq.1 hk with hk | rfl
    · exact hold _ _ (h.outer k level num hk hv)
    · rw [hn] at hv
      rw [Option.some.inj hv] at hsets
      obtain ⟨-, rfl⟩ := hsets
      exact hnew

end

theorem DetInv.react_of_cons (h : DetInv comb input st p ph n) (hin : Plain input) {e : Nat}
    (he : e ≤ st.size) (hrun : st.stopped e = false) {r : Rec (Item D) Γ} {q : List (Rec (Item D) Γ)}
    (hq : st.inq e = r :: q) (outs : List D) :
    detNetStep comb st (.run e outs) =
      Outcome.ofOption ((st.react comb outs e r).map (st.perform comb e r q)) := by
  have hsync : ∀ s o, r ≠ .sync s o := by
    rintro s o rfl
    by_cases h0 : e = 0
    · subst h0
      obtain ⟨-, -, -, -, hadm⟩ := h.heard.next hin hrun hq
      exact hadm
    · have := h.net.tree.unread e (Nat.pos_of_ne_zero h0) he hrun
      rw [hq] at this
      exact this
  have hlive : ¬ (st.size < e ∨ st.stopped e = true) := by
    rw [hrun]
    exact fun h => h.elim (Nat.not_lt_of_le he) nofun
  simp only [detNetStep, if_neg hlive, hq]

theorem DetInv.step (h : DetInv comb input st p ph n) (hin : Plain input) (a : DetAct D) :
    (detNetStep comb st a = .fault → ∃ r q, st.inq 0 = r :: q ∧ comb.Unroutable r) ∧
      ∀ st', detNetStep comb st a = .done st' → ∃ p' ph' n', DetInv comb input st' p' ph' n' := by
  cases a with
  | collect s =>
    obtain ⟨hno, hdone⟩ := h.net.collect s
    simp only [detNetStep]
    cases hc : st.coll.step st.queue s with
    | blocked => exact ⟨nofun, nofun⟩
    | fault => exact absurd hc hno
    | done y =>
      refine ⟨nofun, fun st' heq => ?_⟩
      cases heq
      have hheard := h.heard
      exact ⟨p, ph, n, hdone y.1 y.2 hc, ⟨h.locals.disp, h.locals.inst⟩,
        ⟨hheard.rest, hheard.le, hheard.running, hheard.past, hheard.base, hheard.data, hheard.outer⟩,
        h.routed, h.idle⟩
  | run e outs =>
    by_cases hlive : st.size < e ∨ st.stopped e = true
    · simp only [detNetStep, if_pos hlive]
      exact ⟨nofun, nofun⟩
    · obtain ⟨he, hrun⟩ := not_or.1 hlive
      have he := Nat.le_of_not_lt he
      have hrun : st.stopped e = false := by simpa using hrun
      cases hq : st.inq e with
      | nil =>
        simp only [detNetStep, if_neg hlive, hq]
        exact ⟨nofun, nofun⟩
      | cons r q =>
        rw [h.react_of_cons hin he hrun hq outs]
        have hadm : e = 0 → Admits p p.marks.length q r := by
          rintro rfl
          obtain ⟨-, -, -, -, hadm⟩ := h.heard.next hin hrun hq
          exact hadm
        rcases entity_step h.net.tree h.locals he hrun hq hadm outs with
          ⟨rfl, hno, hx⟩ | ⟨x, hx, hok, hloc⟩
        · rw [hx]
          exact ⟨fun _ => ⟨r, q, hq, hno⟩, nofun⟩
        · rw [hx]
          refine ⟨nofun, fun st' heq => ?_⟩
          obtain rfl := Option.some.inj (Outcome.ofOption_eq_done.1 heq)
          obtain ⟨k', more, size', hprog, heff, hlev, hsets⟩ := hok
          have hzero : instWrites comb e 0 x.writes = [] := heff.other 0 (Or.inl rfl)
          have hrouted := h.routed.perform h.net.tree h.locals h.idle h.net.unsent he hrun hq hadm heff hx
          have hidle : ∀ c, (st.perform comb e r q x).size < c →
              (st.perform comb e r q x).read c = [] := by
            intro c hc
            have hlt : st.size < c := Nat.lt_of_le_of_lt (le_grow _ _ _) hc
            rw [perform_read_other (Nat.ne_of_gt (Nat.lt_of_le_of_lt he hlt))]
            exact h.idle c hlt
          by_cases h0 : e = 0
          · subst h0
            obtain ⟨r', hr', rfl, hq', hadm⟩ := h.heard.next hin hrun hq
            exact ⟨_, _, n + 1, h.net.perform hprog heff hlev, hloc,
              h.heard.perform_root hrun hr' hq' (hsets rfl) hadm hzero, hrouted, hidle⟩
          · obtain rfl : more = [] := (hprog.below (Nat.pos_of_ne_zero h0)).1
            exact ⟨_, _, n, h.net.perform hprog heff hlev, hloc, h.heard.perform_other h0 hzero, hrouted,
              hidle⟩

/-! ## The first state -/

theorem CollInv.init {w : Writers} {c : Collector (Item D) Γ} {queue : Queues (Item D) Γ}
    (hempty : ∀ s, queue s = []) (hready : ∀ s, s ∈ c.ready ↔ w.Has s) (hne : c.ready ≠ [])
    (hnodup : c.ready.Nodup) (hwait : c.waiting = []) (hlive : c.terminate = false)
    (hstatic : c.isStatic = true → 2 ≤ c.ready.length) (hsort : c.sortRec = none)
    (hlast : c.last = none) (hcount : c.incount = c.ready.length) (hout : c.out = [])
    (hph : ∀ s, w.Has s → w.phase s = 0 ∧ w.stopped s = false)
    (hlev : ∀ (k : Nat) (x : Int × Int), p.marks[k]? = some x → 0 ≤ x.1 ∧ ¬ (x.1 = 0 ∧ x.2 = -1)) :
    CollInv p w queue c 0 [] fun _ => 0 := by
  have hno : ∀ i s, Rec.collect s ∉ queue i := fun i s h => by
    rw [hempty i] at h
    cases h
  refine ⟨⟨fun s hs _ => ?_, fun s hs => ?_, nofun, fun s hs hno => ?_, fun s _ => hempty s,
    fun i s h => absurd h (hno i s), fun i j s h => absurd h (hno i s), fun i => ?_⟩, hlive, hne, ?_,
    nofun, fun _ _ => rfl, fun s hs => ?_, fun _ => hno, fun h => ?_, fun _ h => absurd rfl h,
    fun x hx => ?_, fun h => absurd hwait h, hlast, ?_, fun s hs hst => ?_, hlev, ?_⟩
  · rw [hempty s, (hph s hs).1, (hph s hs).2]
    exact ⟨rfl, rfl⟩
  · refine (hready s).1 ?_
    simpa [hwait] using hs
  · refine absurd ?_ hno
    exact mem_append_left _ ((hready s).2 hs)
  · rw [hempty i]
    exact nodup_nil
  · rw [hwait, append_nil]
    exact hnodup
  · rw [hwait] at hs
    cases hs
  · rw [hwait]
    exact hstatic h
  · rw [hsort] at hx
    cases hx
  · rw [hcount, hwait]
    rfl
  · rw [(hph s hs).2] at hst
    cases hst
  · rw [hout]
    exact .nil

theorem total_nil (size : Nat) : total size (fun _ => ([] : List (Item D))) = 0 :=
  Finset.sum_eq_zero fun _ _ => rfl

theorem DetInv.init_dynamic (hsize : st.size = 0) (hstop : ∀ c, st.stopped c = false)
    (hinq : ∀ c, st.inq c = if c = 0 then labelled input else []) (hqueue : ∀ s, st.queue s = [])
    (hcoll : st.coll = .dynamic 0) (hsent : st.sent = fun _ => []) (hshape : comb.Shape 0)
    (hwrites : comb.writesOut 0 = true) (hloc : LocalsOk comb st) (hread : st.read = fun _ => [])
    (hrouted : Routed comb input st) :
    DetInv comb input st ⟨[], fun _ => 0, 0⟩ (fun _ => 0) 0 := by
  refine ⟨⟨⟨rfl, fun e h0 he => ?_, fun e h0 he => ?_, fun e _ hs => ?_, fun e he => ⟨?_, hstop e⟩,
    fun e s he hs => ?_, hsize ▸ hshape⟩, Or.inl ⟨0, [], fun _ => 0, CollInv.init hqueue (fun s => ?_) ?_
    ?_ ?_ ?_ ?_ ?_ ?_ ?_ ?_ (fun s _ => ⟨rfl, hstop s⟩) nofun⟩, fun h => ?_, ?_, fun i _ => ?_⟩, hloc,
    ⟨?_, Nat.zero_le _, fun _ => ⟨rfl, nofun⟩, fun h => ?_, nofun, nofun, nofun⟩, hrouted, fun c _ => ?_⟩
  · exact absurd h0 (Nat.not_lt_of_le (hsize ▸ he))
  · exact absurd h0 (Nat.not_lt_of_le (hsize ▸ he))
  · rw [hstop e] at hs
    cases hs
  · rw [hinq, if_neg (Nat.ne_of_gt (Nat.lt_of_le_of_lt (Nat.zero_le _) he))]
  · rw [hinq, if_neg (Nat.ne_of_gt he)] at hs
    cases hs
  · rw [hcoll]
    change s ∈ [0] ↔ s ≤ st.size ∧ comb.writesOut s = true
    rw [mem_singleton, hsize, Nat.le_zero]
    exact ⟨fun h => ⟨h, h ▸ hwrites⟩, And.left⟩
  · rw [hcoll]
    exact nofun
  · rw [hcoll]
    exact nodup_singleton 0
  · rw [hcoll]
    rfl
  · rw [hcoll]
    rfl
  · rw [hcoll]
    exact nofun
  · rw [hcoll]
    rfl
  · rw [hcoll]
    rfl
  · rw [hcoll]
    rfl
  · rw [hcoll]
    rfl
  · rw [hcoll] at h
    cases h
  · have hnil : inTransit st.size st.queue = 0 := by
      unfold inTransit
      simp only [hqueue]
      exact total_nil _
    rw [hnil, hsent, total_nil, hcoll]
    rfl
  · rw [hsent]
  · rw [hinq, if_pos rfl, drop_zero]
  · rw [hstop 0] at h
    cases h
  · rw [hread]

theorem parallelStart_several {arg : ParallelArg (Item D) Γ} (h : 2 ≤ arg.num) (s : StreamId) :
    parallelStart arg s = (toInstances arg.num (.sortEnd 0 0), .run ⟨[], 1⟩) := by
  rw [parallelStart, if_neg (by omega), if_neg (by omega)]

theorem init_parallel_inq (input : List (Rec D Γ)) {num : Nat} (checkMatch : D → Nat → Option Int)
    (hnum : 2 ≤ num) (c : Nat) :
    (DetNet.init (Γ := Γ) (.parallel num checkMatch) input).inq c =
      (if c = 0 then labelled input else []) ++ if 0 < c ∧ c ≤ num then [.sortEnd 0 0] else [] := by
  have hstart := parallelStart_several (Γ := Γ)
    (show 2 ≤ (Comb.parallelArg num checkMatch).num from hnum) 0
  simp only [DetNet.init, hstart]
  rw [instWrites_toInstances fun _ => rfl]
  rfl

theorem DetInv.init_parallel {num : Nat} {checkMatch : D → Nat → Option Int} (hnum : 2 ≤ num) :
    DetInv (.parallel num checkMatch) input (.init (.parallel num checkMatch) input)
      ⟨[(0, 0)], fun _ => 0, 1⟩ (fun c => if c = 0 then 1 else 0) 0 := by
  have h0 : ¬ num = 0 := by omega
  have hstart := parallelStart_several (Γ := Γ)
    (show 2 ≤ (Comb.parallelArg num checkMatch).num from hnum) 0
  have hinq := init_parallel_inq input checkMatch hnum
  have hstop : ∀ c, (DetNet.init (Γ := Γ) (.parallel num checkMatch) input).stopped c = false := by
    intro c
    simp only [DetNet.init, hstart]
  have hmark : ∀ (k : Nat) (x : Int × Int), [((0 : Int), (0 : Int))][k]? = some x → x = (0, 0) := by
    intro k x hx
    exact mem_singleton.1 (mem_of_getElem? hx)
  have hlen : ((List.range num).map fun k => k + 1).length = num := by
    rw [length_map, length_range]
  refine ⟨⟨⟨rfl, fun e he0 he _ => ?_, fun e _ _ hs => ?_, fun e _ hs => ?_, fun e he => ⟨?_, hstop e⟩,
    fun e s he hs => ?_, rfl, hnum⟩, Or.inl ⟨0, [], fun _ => 0, CollInv.init (fun _ => rfl) (fun (s : Nat) => ?_)
    ?_ ?_ rfl rfl (fun _ => hlen.symm ▸ hnum) rfl rfl ?_ rfl (fun s hs => ⟨?_, hstop s⟩)
    (fun k x hx => ?_)⟩, fun _ size' hs => hs.1, ?_, fun i _ => rfl⟩, ⟨?_, fun e _ he => ?_⟩,
    ⟨?_, Nat.zero_le _, fun _ => ⟨rfl, nofun⟩, fun h => ?_, fun k hk => ?_, nofun, nofun⟩, ?_,
    fun c _ => rfl⟩
  · change Phased _ (if e = 0 then 1 else 0) _ 1 _
    rw [hinq, hstop, if_neg (Nat.ne_of_gt he0), if_neg (Nat.ne_of_gt he0), if_pos ⟨he0, he⟩]
    exact ⟨rfl, rfl, rfl⟩
  · rw [hstop] at hs
    cases hs
  · rw [hstop] at hs
    cases hs
  · have hlt : num < e := he
    rw [hinq, if_neg (by omega), if_neg (by omega)]
    rfl
  · rw [hinq, if_neg (Nat.ne_of_gt he)] at hs
    split at hs <;> simp at hs
  · change s ∈ (List.range num).map (fun k => k + 1) ↔ s ≤ num ∧ (s != 0) = true
    rw [List.mem_map, bne_iff_ne]
    constructor
    · rintro ⟨k, hk, rfl⟩
      exact ⟨mem_range.1 hk, Nat.succ_ne_zero k⟩
    · rintro ⟨hle, hne⟩
      exact ⟨s - 1, mem_range.2 (by omega), by omega⟩
  · exact fun h => h0 (hlen.symm.trans (congrArg List.length h))
  · exact List.Nodup.map (fun a b h => Nat.succ.inj h) nodup_range
  · rfl
  · exact if_neg (bne_iff_ne.1 hs.2)
  · rw [hmark k x hx]
    decide
  · change (0 : Multiset (Item D)) + total num (fun _ => []) = total num fun _ => []
    rw [zero_add]
  · exact ⟨1, by decide, rfl⟩
  · exact if_neg (bne_iff_ne.1 he)
  · rw [hinq]
    simp
  · rw [hstop] at h
    cases h
  · exact ⟨0, by rw [Nat.lt_one_iff.1 hk]; rfl⟩
  · have hgiven : ∀ c, (DetNet.init (Γ := Γ) (.parallel num checkMatch) input).given c =
        if c = 0 then dataOf (labelled input) else [] := by
      intro c
      rw [DetNet.given, hinq, dataOf_append]
      have hsort : dataOf (if 0 < c ∧ c ≤ num then ([.sortEnd 0 0] : List (Rec (Item D) Γ)) else []) =
          [] := by
        split <;> rfl
      rw [hsort, append_nil]
      by_cases hc : c = 0 <;> simp [hc, DetNet.init, dataOf]
    have h1 : ¬ num = 1 := by omega
    simp only [Routed, if_neg h1]
    refine ⟨by rw [hgiven, if_pos rfl], fun k _ => ?_⟩
    rw [hgiven, if_neg (Nat.succ_ne_zero k)]
    rfl

/-! ## Quiescent states -/

/-- Nothing can happen: no entity and not the collector has a record to read. -/
def Quiescent (comb : Comb D) (st : DetNet D Γ) : Prop := ∀ a, detNetStep comb st a = .blocked

theorem DetInv.inq_eq_nil (h : DetInv comb input st p ph n) (hin : Plain input)
    (hquiet : Quiescent comb st) {e : Nat} (he : e ≤ st.size) (hrun : st.stopped e = false) :
    st.inq e = [] := by
  cases hq : st.inq e with
  | nil => rfl
  | cons r q =>
    have := hquiet (.run e [])
    rw [h.react_of_cons hin he hrun hq []] at this
    cases hx : st.react comb [] e r <;> rw [hx] at this <;> cases this

theorem DetInv.phase_eq (h : DetInv comb input st p ph n) (hin : Plain input)
    (hquiet : Quiescent comb st) {e : Nat} (he : e ≤ st.size) (hrun : st.stopped e = false) :
    ph e = p.marks.length ∧ st.stopped 0 = false := by
  induction e using Nat.strongRecOn with
  | ind e ih =>
    by_cases h0 : e = 0
    · subst h0
      exact ⟨h.net.tree.root, hrun⟩
    · have hpos := Nat.pos_of_ne_zero h0
      have hph := h.net.tree.unread e hpos he hrun
      rw [h.inq_eq_nil hin hquiet he hrun] at hph
      have hlt := comb.parent_lt hpos
      obtain ⟨h1, h2⟩ := ih _ hlt (Nat.le_trans (Nat.le_of_lt hlt) he) hph.2
      exact ⟨hph.1.trans h1, h2⟩

theorem DetInv.phase_le (h : DetInv comb input st p ph n) {e : Nat} (he : e ≤ st.size) :
    ph e ≤ p.marks.length := by
  induction e using Nat.strongRecOn with
  | ind e ih =>
    cases hs : st.stopped e with
    | true => exact Nat.le_of_eq (h.net.tree.final e he hs).1
    | false =>
      by_cases h0 : e = 0
      · subst h0
        exact Nat.le_of_eq h.net.tree.root
      · have hpos := Nat.pos_of_ne_zero h0
        have hlt := comb.parent_lt hpos
        exact Nat.le_trans (h.net.tree.unread e hpos he hs).le
          (ih _ hlt (Nat.le_trans (Nat.le_of_lt hlt) he))

theorem DetInv.collector_idle (h : DetInv comb input st p ph n) (hin : Plain input)
    (hquiet : Quiescent comb st) {P : Nat} {dead : List StreamId} {pos : StreamId → Nat}
    (hc : CollInv p (st.writers comb ph) st.queue st.coll P dead pos) :
    P = p.marks.length ∧ st.stopped 0 = false ∧ ∀ s, st.queue s = [] := by
  have hread : ∀ s ∈ st.coll.ready, st.queue s = [] := by
    intro s hs
    cases hq : st.queue s with
    | nil => rfl
    | cons r q =>
      have hno := hquiet (.collect s)
      have hstep : st.coll.step st.queue s ≠ .blocked := by
        unfold Collector.step
        rw [if_neg (by simp [hc.live, hs])]
        simp only [hq]
        cases hproc : st.coll.process (Function.update st.queue s q) s r with
        | none => exact nofun
        | some y => cases hfin : y.1.finish <;> simp [Outcome.ofOption, hfin]
      simp only [detNetStep] at hno
      cases hst : st.coll.step st.queue s with
      | blocked => exact absurd hst hstep
      | fault => rw [hst] at hno; cases hno
      | done y => rw [hst] at hno; cases hno
  obtain ⟨s, hs⟩ := exists_mem_of_ne_nil _ hc.readyNe
  have hph := hc.table.phased s (hc.table.has s (mem_append_left _ hs))
    (hc.disjoint s (mem_append_left _ hs))
  rw [hread s hs, hc.ready s hs] at hph
  have hle := (hc.table.has s (mem_append_left _ hs)).1
  obtain ⟨h1, h2⟩ := h.phase_eq hin hquiet hle hph.2
  have hP : P = p.marks.length := hph.1.trans h1
  have hwait : st.coll.waiting = [] := by
    refine eq_nil_iff_forall_not_mem.2 fun t ht => ?_
    have hmem := mem_append_right st.coll.ready ht
    have hhas := hc.table.has t (mem_append_right _ (mem_append_left _ ht))
    have hle := (hc.table.phased t hhas (hc.disjoint t hmem)).le
    have hmax : (st.writers comb ph).phase t ≤ p.marks.length := h.phase_le hhas.1
    rw [hc.waiting t ht, hP] at hle
    exact Nat.not_succ_le_self _ (Nat.le_trans hle hmax)
  refine ⟨hP, h2, fun t => ?_⟩
  -- a stream that has not been announced yet would have been announced by an earlier one
  induction t using Nat.strongRecOn with
  | ind t ih =>
    by_cases hhas : (st.writers comb ph).Has t
    · by_cases hk : t ∈ st.coll.ready ++ (st.coll.waiting ++ dead)
      · rw [hwait, nil_append] at hk
        rcases mem_append.1 hk with hk | hk
        · exact hread t hk
        · exact (hc.table.past t hk).2.1
      · obtain ⟨-, i, hi, hmem⟩ := hc.table.new t hhas hk
        rw [ih i hi] at hmem
        cases hmem
    · exact hc.table.idle t hhas

theorem DetInv.quiescent (h : DetInv comb input st p ph n) (hin : Plain input)
    (hquiet : Quiescent comb st) : n = input.length ∧ Leaves input input.length st.coll.out ∧
      (dataOf st.coll.out : Multiset (Item D)) = total st.size st.sent ∧
      ∀ e ≤ st.size, st.inq e = [] := by
  have hnone : (∀ s, st.queue s = []) →
      (dataOf st.coll.out : Multiset (Item D)) = total st.size st.sent := by
    intro hempty
    have hnil : inTransit st.size st.queue = 0 := by
      unfold inTransit
      simp only [hempty]
      exact total_nil _
    rw [← h.net.data, hnil, add_zero]
  have hinq : st.inq 0 = [] → n = input.length := by
    intro hnil
    rw [h.heard.rest, drop_eq_nil_iff, labelled, length_mapIdx] at hnil
    exact Nat.le_antisymm h.heard.le hnil
  rcases h.net.coll with ⟨P, dead, pos, hc⟩ | hdone
  · obtain ⟨rfl, hrun, hempty⟩ := h.collector_idle hin hquiet hc
    have hn := hinq (h.inq_eq_nil hin hquiet (Nat.zero_le _) hrun)
    refine ⟨hn, ?_, hnone hempty, fun e he => ?_⟩
    · have := h.heard.leaves hin hc.passes
      rwa [(h.heard.running hrun).1, Nat.add_sub_cancel_left, hn] at this
    · cases hs : st.stopped e with
      | false => exact h.inq_eq_nil hin hquiet he hs
      | true =>
        rw [(h.net.tree.final e he hs).2] at hrun
        cases hrun
  · have hs := hdone.all_stopped h.net.tree (Nat.zero_le st.size)
    obtain ⟨hn, hlen, flag, hlast⟩ := h.heard.past hs
    obtain ⟨out, flag', hout, hpass⟩ := hdone.passes
    refine ⟨hn, ?_, hnone hdone.empty, fun e he => ?_⟩
    · have hleft : Leaves input (p.marks.length - p.offset + 1) (out ++ [.terminate flag']) :=
        (h.heard.leaves hin hpass).terminate hlast
      have hidx : p.marks.length - p.offset + 1 = input.length := by
        have := (List.getElem?_eq_some_iff.1 hlast).1
        omega
      rwa [hidx, ← hout] at hleft
    · by_cases h0 : e = 0
      · subst h0
        rw [h.heard.rest, drop_eq_nil_iff, labelled, length_mapIdx, hn]
      · exact (h.net.tree.ended e (Nat.pos_of_ne_zero h0) he (hdone.all_stopped h.net.tree he)).1

/-! ## Order -/

/-- What is to be shown of every state that a deterministic combinator reaches: the data records of
the input have gone where they belong; what has left is in order; nothing has left that no entity
has written to the collector, or more often than that; and in a quiescent state all of the input has
been read and everything has left. -/
structure KeepsOrder (comb : Comb D) (input : List (Rec D Γ)) (st : DetNet D Γ) : Prop where
  routed : Routed comb input st
  leaves : ∃ n, Leaves input n st.output
  ordered : (dataOf st.output).Pairwise fun i j => i.origin ≤ j.origin
  notMore : (dataOf st.output : Multiset (Item D)) ≤ total st.size st.sent
  complete : Quiescent comb st → Leaves input input.length st.output ∧
    (dataOf st.output : Multiset (Item D)) = total st.size st.sent ∧ ∀ e ≤ st.size, st.inq e = []

theorem flatMap_plain {rs : List (Rec (Item D) Γ)} (f : StreamId → List (Rec (Item D) Γ))
    (h : ∀ s o, Rec.sync s o ∉ rs) : (rs.flatMap fun r =>
      match r with
      | .sync s _ => f s
      | r => [r]) = rs := by
  induction rs with
  | nil => rfl
  | cons r rs ih =>
    rw [flatMap_cons, ih fun s o hs => h s o (mem_cons_of_mem _ hs)]
    cases r with
    | sync s o => exact absurd mem_cons_self (h s o)
    | _ => rfl

theorem Leaves.output_eq (h : Leaves input n st.coll.out) : st.output = st.coll.out := by
  have hplain : ∀ {n : Nat} {out : List (Rec (Item D) Γ)}, Leaves input n out →
      ∀ s o, Rec.sync s o ∉ out := by
    intro n out h
    induction h with
    | nil => exact fun _ _ => not_mem_nil
    | next _ _ ih => exact ih
    | data _ _ _ ih => simpa using ih
    | sortEnd _ _ ih => simpa using ih
    | terminate _ _ ih => simpa using ih
  exact flatMap_plain _ (hplain h)

theorem DetInv.keepsOrder (h : DetInv comb input st p ph n) (hin : Plain input) :
    KeepsOrder comb input st := by
  have hleft : ∃ n, Leaves input n st.coll.out := by
    rcases h.net.coll with ⟨P, dead, pos, hc⟩ | hdone
    · exact ⟨_, h.heard.leaves hin hc.passes⟩
    · obtain ⟨-, -, flag, hlast⟩ := h.heard.past (hdone.all_stopped h.net.tree (Nat.zero_le _))
      obtain ⟨out, flag', hout, hpass⟩ := hdone.passes
      exact ⟨_, hout ▸ (h.heard.leaves hin hpass).terminate hlast⟩
  obtain ⟨m, hm⟩ := hleft
  have heq := hm.output_eq
  rw [← heq] at hm
  refine ⟨h.routed, ⟨m, hm⟩, hm.sorted, ?_, fun hquiet => ?_⟩
  · rw [heq, ← h.net.data]
    exact Multiset.le_add_right _ _
  · rw [heq]
    exact (h.quiescent hin hquiet).2

/-! ## A single branch -/

/-- How far the only branch is: `written` is all it has written. -/
inductive BranchAt (input : List (Rec D Γ)) (st : DetNet D Γ) : List (Rec (Item D) Γ) → Nat → Prop
  | start (h0 : st.inq 0 = labelled input) (hq : st.inq 1 = [.sortEnd 0 0, .sync 0 none])
      (hr : st.read 1 = []) (hs : st.stopped 1 = false) : BranchAt input st [] 0
  | handover (h0 : st.inq 0 = labelled input) (hq : st.inq 1 = [.sync 0 none]) (hr : st.read 1 = [])
      (hs : st.stopped 1 = false) : BranchAt input st [.sortEnd 0 0] 0
  | reads {n : Nat} {written : List (Rec (Item D) Γ)} (h0 : st.inq 0 = [])
      (hq : st.inq 1 = (labelled input).drop n) (hle : n ≤ input.length) (hs : st.stopped 1 = true → n = input.length)
      (hr : st.read 1 ++ dataOf (st.inq 1) = dataOf (labelled input)) (hl : Leaves input n written) :
      BranchAt input st (.sortEnd 0 0 :: written) n

/-- A parallel combinator of one branch: the dispatcher is gone, the branch reads the input in its
place, and the collector hands over the stream of the branch. -/
structure SingleInv (input : List (Rec D Γ)) (st : DetNet D Γ) : Prop where
  size : st.size = 1
  gone : st.stopped 0 = true
  branch : st.locals 1 = .inst
  sent : st.sent 0 = []
  records : ∃ written n, BranchAt input st written n ∧ dataOf written = st.sent 1 ∧
    ((st.queue 1 = written ∧ st.coll = .static [1]) ∨
      (written = .sortEnd 0 0 :: st.queue 1 ∧ st.coll.terminate = true ∧
        st.coll.out = [.sync 1 none]))

theorem Leaves.operand {written : List (Rec (Item D) Γ)} (hl : Leaves input n written)
    (hin : Plain input) {r : Rec D Γ} (hn : input[n]? = some r) (outs : List D) :
    ∃ ws stop, operand outs (label n r) = some (ws, stop) ∧ Leaves input (n + 1) (written ++ ws) ∧
      (stop = true → n + 1 = input.length) := by
  rcases hin.get hn with ⟨v, rfl⟩ | ⟨level, num, rfl, -⟩ | ⟨flag, rfl, hlast⟩
  · refine ⟨_, _, rfl, ?_, nofun⟩
    have hall : ∀ {w : List (Rec (Item D) Γ)}, Leaves input n w →
        Leaves input n (w ++ outs.map fun v => .data ⟨n, v⟩) := by
      induction outs with
      | nil =>
        intro w hw
        rwa [map_nil, append_nil]
      | cons o outs ih =>
        intro w hw
        rw [map_cons, append_cons]
        exact ih (hw.data hn rfl)
    exact (hall hl).next hn
  · exact ⟨_, _, rfl, hl.sortEnd hn, nofun⟩
  · exact ⟨_, _, rfl, hl.terminate hn, fun _ => hlast⟩

section

variable {checkMatch : D → Nat → Option Int}

theorem SingleInv.init : SingleInv input (.init (.parallel 1 checkMatch) input) :=
  ⟨rfl, rfl, rfl, rfl, [], 0, .start (append_nil _) rfl rfl rfl, rfl, Or.inl ⟨rfl, rfl⟩⟩

theorem BranchAt.congr {st' : DetNet D Γ} {written : List (Rec (Item D) Γ)}
    (h : BranchAt input st written n) (h0 : st'.inq 0 = st.inq 0) (hq : st'.inq 1 = st.inq 1) (hr : st'.read 1 = st.read 1)
    (hs : st'.stopped 1 = st.stopped 1) : BranchAt input st' written n := by
  cases h with
  | start h1 h2 h3 h4 => exact .start (h0 ▸ h1) (hq ▸ h2) (hr ▸ h3) (hs ▸ h4)
  | handover h1 h2 h3 h4 => exact .handover (h0 ▸ h1) (hq ▸ h2) (hr ▸ h3) (hs ▸ h4)
  | reads h1 h2 h3 h4 h5 h6 => exact .reads (h0 ▸ h1) (hq ▸ h2) h3 (hs ▸ h4) (hq ▸ hr ▸ h5) h6

theorem BranchAt.head {written : List (Rec (Item D) Γ)} (h : BranchAt input st written n) :
    written = [] ∨ ∃ w, written = .sortEnd 0 0 :: w := by
  cases h with
  | start => exact Or.inl rfl
  | handover => exact Or.inr ⟨_, rfl⟩
  | reads => exact Or.inr ⟨_, rfl⟩

theorem static_handover {queue : Queues (Item D) Γ} {w : List (Rec (Item D) Γ)}
    (hq : queue 1 = .sortEnd 0 0 :: w) : (Collector.static [1]).step queue 1 =
      .done (⟨true, [], [1], some (0, 0), none, 1, none, true, [.sync 1 none]⟩,
        Function.update queue 1 w) := by
  simp only [Collector.step, hq]
  rfl

theorem operand_newStreams {outs : List D} {r : Rec (Item D) Γ} {ws : List (Rec (Item D) Γ)}
    {stop : Bool} (h : operand outs r = some (ws, stop)) : newStreams ws = [] := by
  refine newStreams_eq_nil fun s hs => ?_
  cases r with
  | data i =>
    cases h
    obtain ⟨v, -, hv⟩ := List.mem_map.1 hs
    cases hv
  | sortEnd level num =>
    cases h
    cases mem_singleton.1 hs
  | terminate flag =>
    cases h
    cases mem_singleton.1 hs
  | sync i o => cases h
  | collect t => cases h

theorem SingleInv.wrote (h : SingleInv input st) {r : Rec (Item D) Γ}
    {q ws : List (Rec (Item D) Γ)} {stop : Bool} {n' : Nat} {written : List (Rec (Item D) Γ)}
    (hdata : dataOf written = st.sent 1)
    (hrec : (st.queue 1 = written ∧ st.coll = .static [1]) ∨
      (written = .sortEnd 0 0 :: st.queue 1 ∧ st.coll.terminate = true ∧ st.coll.out = [.sync 1 none]))
    (hws : newStreams ws = [])
    (hat : BranchAt input (st.perform (.parallel 1 checkMatch) 1 r q
      ⟨ws.map fun r => (.out, r), .inst, stop⟩) (written ++ ws) n') :
    SingleInv input (st.perform (.parallel 1 checkMatch) 1 r q
      ⟨ws.map fun r => (.out, r), .inst, stop⟩) := by
  refine ⟨?_, h.gone, rfl, h.sent, written ++ ws, n', hat, ?_, ?_⟩
  · simp only [DetNet.perform, outWrites_map_out, hws, grow_nil]
    exact h.size
  · rw [dataOf_append, hdata, perform_sent_self, outWrites_map_out]
  · simp only [DetNet.perform, outWrites_map_out, Function.update_self]
    rcases hrec with ⟨hq, hc⟩ | ⟨hw, hc⟩
    · exact Or.inl ⟨by rw [hq], hc⟩
    · exact Or.inr ⟨by rw [hw]; rfl, hc⟩

theorem SingleInv.step (h : SingleInv input st) (hin : Plain input) (a : DetAct D) :
    detNetStep (.parallel 1 checkMatch) st a ≠ .fault ∧
      ∀ st', detNetStep (.parallel 1 checkMatch) st a = .done st' → SingleInv input st' := by
  obtain ⟨written, n, hat, hdata, hrec⟩ := h.records
  cases a with
  | collect s =>
    simp only [detNetStep]
    have hblocked : (st.coll.step st.queue s = .blocked) ∨ s = 1 ∧ st.coll = .static [1] ∧
        ∃ w, st.queue 1 = .sortEnd 0 0 :: w ∧ written = .sortEnd 0 0 :: w := by
      rcases hrec with ⟨hq, hc⟩ | ⟨-, hc⟩
      · by_cases hs : s = 1
        · rcases hat.head with hw | ⟨w, hw⟩
          · refine Or.inl ?_
            simp [Collector.step, hc, Collector.static, hs, hq, hw]
          · exact Or.inr ⟨hs, hc, w, hq.trans hw, hw⟩
        · refine Or.inl ?_
          simp [Collector.step, hc, Collector.static, hs]
      · refine Or.inl ?_
        simp [Collector.step, hc.1]
    rcases hblocked with hb | ⟨rfl, hc, w, hq, hw⟩
    · rw [hb]
      exact ⟨by simp, by simp⟩
    · rw [hc, static_handover hq]
      refine ⟨by simp, fun st' heq => ?_⟩
      cases heq
      refine ⟨h.size, h.gone, h.branch, h.sent, written, n, hat.congr rfl rfl rfl rfl, hdata,
        Or.inr ⟨?_, rfl, rfl⟩⟩
      rw [hw]
      simp only [Function.update_self]
  | run e outs =>
    by_cases hno : st.size < e ∨ st.stopped e = true
    · simp only [detNetStep, if_pos hno]
      exact ⟨by simp, by simp⟩
    obtain rfl : e = 1 := by
      obtain ⟨h1, h2⟩ := not_or.1 hno
      rw [h.size] at h1
      have h0 : e ≠ 0 := fun h0 => h2 (h0 ▸ h.gone)
      omega
    have hreact : ∀ r, st.react (.parallel 1 checkMatch) outs 1 r =
        (operand outs r).map fun x => ⟨x.1.map fun r => (.out, r), .inst, x.2⟩ := by
      intro r
      simp only [DetNet.react, h.branch]
    simp only [detNetStep, if_neg hno]
    cases hat with
    | start h0 hq hr hs =>
      simp only [hq, hreact]
      refine ⟨by simp [operand], fun st' heq => ?_⟩
      obtain rfl := Option.some.inj (Outcome.ofOption_eq_done.1 heq)
      refine h.wrote hdata hrec rfl (.handover ?_ ?_ ?_ rfl)
      · simp only [DetNet.perform, instWrites_map_out, append_nil]
        exact h0
      · simp only [DetNet.perform, if_true, instWrites_map_out, append_nil]
      · rw [perform_read_self, hr]
        rfl
    | handover h0 hq hr hs =>
      simp only [hq, h.gone]
      refine ⟨by simp [Comb.child], fun st' heq => ?_⟩
      cases heq
      refine ⟨h.size, h.gone, h.branch, h.sent, [.sortEnd 0 0], 0,
        .reads ?_ ?_ (Nat.zero_le _) ?_ ?_ .nil, hdata, hrec⟩
      · simp only [Function.update_of_ne Nat.zero_ne_one, Function.update_self]
      · simp only [Function.update_self]
        exact h0
      · intro hs'
        rw [hs] at hs'
        cases hs'
      · simp only [Function.update_self]
        rw [hr, h0]
        rfl
    | @reads n written h0 hq hle hs hr hl =>
      cases hget : input[n]? with
      | none =>
        have hnil : (labelled input).drop n = [] := by
          rw [drop_eq_nil_iff, labelled, length_mapIdx]
          exact List.getElem?_eq_none_iff.1 hget
        simp only [hq, hnil]
        exact ⟨by simp, by simp⟩
      | some r =>
        have hcons := labelled_drop hget
        obtain ⟨ws, stop, hop, hleft, hend⟩ := hl.operand hin hget outs
        have hsync : ∀ s o, label n r ≠ .sync s o := by
          rintro s o heq
          rw [heq] at hop
          cases hop
        simp only [hq, hcons, hreact, hop]
        refine ⟨by simp, fun st' heq => ?_⟩
        obtain rfl := Option.some.inj (Outcome.ofOption_eq_done.1 heq)
        refine h.wrote hdata hrec (operand_newStreams hop) (.reads ?_ ?_ ?_ ?_ ?_ hleft)
        · simp only [DetNet.perform, instWrites_map_out, append_nil]
          exact h0
        · simp only [DetNet.perform, if_true, instWrites_map_out, append_nil]
        · exact (List.getElem?_eq_some_iff.1 hget).1
        · exact hend
        · rw [perform_read_self, ← hr, hq, hcons]
          simp only [DetNet.perform, if_true, instWrites_map_out, append_nil]
          rw [append_assoc]
          congr 1
          exact (dataOf_append [label n r] _).symm

theorem BranchAt.routed {written : List (Rec (Item D) Γ)} (h : BranchAt input st written n)
    (hin : Plain input) : Routed (.parallel 1 checkMatch) input st := by
  change st.read 1 ++ dataOf (st.unread 1) = dataOf (labelled input)
  cases h with
  | start h0 hq hr _ =>
    rw [hr, DetNet.unread, hq, h0]
    simp [dataOf]
  | handover h0 hq hr _ =>
    rw [hr, DetNet.unread, hq, h0]
    simp
  | reads h0 hq _ _ hr _ =>
    have hplain : ∀ s o, Rec.sync s o ∉ st.inq 1 := by
      intro s o hs
      rw [hq] at hs
      obtain ⟨k, hk⟩ := mem_iff_getElem?.1 (mem_of_mem_drop hs)
      rw [labelled, getElem?_mapIdx] at hk
      obtain ⟨r, hr, hlab⟩ := Option.map_eq_some_iff.1 hk
      rcases hin.get hr with ⟨v, rfl⟩ | ⟨level, num, rfl, -⟩ | ⟨flag, rfl, -⟩ <;> cases hlab
    have hunread : st.unread 1 = st.inq 1 := flatMap_plain (fun _ => st.inq 0) hplain
    rw [hunread]
    exact hr

theorem SingleInv.keepsOrder (h : SingleInv input st) (hin : Plain input) :
    KeepsOrder (.parallel 1 checkMatch) input st := by
  obtain ⟨written, n, hat, hdata, hrec⟩ := h.records
  have htotal : total st.size st.sent = (dataOf written : Multiset (Item D)) := by
    rw [hdata, total, h.size, Finset.sum_range_succ, Finset.sum_range_one, h.sent]
    exact zero_add _
  have hrun : st.stopped 1 = false → ¬ (st.size < 1 ∨ st.stopped 1 = true) := by
    intro hs
    rw [hs, h.size]
    exact nofun
  have hreact : ∀ r, st.react (.parallel 1 checkMatch) [] 1 r =
      (operand [] r).map fun x => ⟨x.1.map fun r => (.out, r), .inst, x.2⟩ := by
    intro r
    simp only [DetNet.react, h.branch]
  -- in a quiescent state the branch has read the input
  have hdone : Quiescent (.parallel 1 checkMatch) st →
      ∃ w, written = .sortEnd 0 0 :: w ∧ Leaves input input.length w ∧ st.inq 0 = [] ∧ st.inq 1 = [] := by
    intro hquiet
    have hq1 := hquiet (.run 1 [])
    cases hat with
    | start h0 hq hr hs =>
      simp only [detNetStep, if_neg (hrun hs), hq, hreact] at hq1
      cases hq1
    | handover h0 hq hr hs =>
      simp only [detNetStep, if_neg (hrun hs), hq, h.gone] at hq1
      cases hq1
    | @reads n w h0 hq hle hs hr hl =>
      have hn : n = input.length := by
        cases hst : st.stopped 1 with
        | true => exact hs hst
        | false =>
          refine Nat.le_antisymm hle (Nat.le_of_not_lt fun hlt => ?_)
          have hget : input[n]? = some (input.get ⟨n, hlt⟩) := getElem?_eq_getElem _
          obtain ⟨ws, stop, hop, -, -⟩ := hl.operand hin hget []
          have hsync : ∀ s o, label n (input.get ⟨n, hlt⟩) ≠ .sync s o := by
            rintro s o heq
            rw [heq] at hop
            cases hop
          simp only [detNetStep, if_neg (hrun hst), hq, labelled_drop hget, hreact, hop] at hq1
          cases hq1
      refine ⟨w, rfl, hn ▸ hl, h0, ?_⟩
      rw [hq, drop_eq_nil_iff, labelled, length_mapIdx, hn]
  have hinq : ∀ {e : Nat}, e ≤ st.size → st.inq 0 = [] → st.inq 1 = [] → st.inq e = [] := by
    intro e he h0 h1
    rw [h.size] at he
    rcases Nat.le_one_iff_eq_zero_or_eq_one.1 he with rfl | rfl
    · exact h0
    · exact h1
  rcases hrec with ⟨hq, hc⟩ | ⟨hw, hc, hout⟩
  · have hnil : st.output = [] := by
      rw [DetNet.output, hc]
      rfl
    refine ⟨hat.routed hin, ⟨0, hnil ▸ .nil⟩, by rw [hnil]; exact .nil, ?_, fun hquiet => ?_⟩
    · rw [hnil]
      exact Multiset.zero_le _
    · obtain ⟨w, hw, -⟩ := hdone hquiet
      have hcoll := hquiet (.collect 1)
      simp only [detNetStep, hc, static_handover (hq.trans hw)] at hcoll
      cases hcoll
  · have houtput : st.output = st.queue 1 := by
      rw [DetNet.output, hout]
      exact append_nil _
    have hleft : ∃ n, Leaves input n st.output := by
      rw [houtput]
      cases hat with
      | start => cases hw
      | handover =>
        rw [← (List.cons.inj hw).2]
        exact ⟨0, .nil⟩
      | reads _ _ _ _ _ hl =>
        rw [← (List.cons.inj hw).2]
        exact ⟨_, hl⟩
    have hall : (dataOf st.output : Multiset (Item D)) = total st.size st.sent := by
      rw [htotal, hw, houtput]
      rfl
    refine ⟨hat.routed hin, hleft, hleft.elim fun _ hl => hl.sorted, hall.le,
      fun hquiet => ?_⟩
    obtain ⟨w, hw', hl, h0, h1⟩ := hdone hquiet
    rw [hw] at hw'
    exact ⟨houtput ▸ (List.cons.inj hw').2 ▸ hl, hall, fun e he => hinq he h0 h1⟩

end

/-! ## Every run -/

def Comb.Valid : Comb D → Prop
  | .parallel num _ => 1 ≤ num
  | _ => True

theorem DetInv.init (hcomb : comb.Valid) (hone : ∀ checkMatch, comb ≠ .parallel 1 checkMatch) :
    ∃ p ph n, DetInv comb input (.init comb input) p ph n := by
  cases comb with
  | split ltag utag =>
    refine ⟨_, _, 0, DetInv.init_dynamic rfl (fun _ => rfl) (fun _ => rfl) (fun _ => rfl) rfl rfl trivial
      rfl ⟨⟨[], 0, Int.le_refl 0, rfl, rfl⟩, fun e he hinst => ?_⟩ rfl
      ⟨rfl, [], 0, rfl, nodup_nil, nofun, nofun⟩⟩
    exact absurd (Nat.le_zero.1 he) (bne_iff_ne.1 hinst)
  | star exits =>
    refine ⟨_, _, 0, DetInv.init_dynamic rfl (fun _ => rfl) (fun _ => rfl) (fun _ => rfl) rfl rfl rfl
      rfl ⟨fun e he _ => ⟨0, Int.le_refl 0, ?_⟩, fun e he hinst => ?_⟩ rfl ⟨rfl, fun e he _ => ?_⟩⟩
    · obtain rfl := Nat.le_zero.1 he
      rfl
    · obtain rfl := Nat.le_zero.1 he
      cases hinst
    · obtain rfl := Nat.le_zero.1 he
      exact ⟨rfl, rfl⟩
  | parallel num checkMatch =>
    have hnum : 2 ≤ num := by
      have h1 : 1 ≤ num := hcomb
      have h2 : num ≠ 1 := by
        rintro rfl
        exact hone checkMatch rfl
      omega
    exact ⟨_, _, 0, DetInv.init_parallel hnum⟩

end

/-- A split whose second instance is created behind an outer sort record. -/
def splitInput : List (Rec Int Unit) := [.data 1, .sortEnd 0 7, .data 2, .terminate true]

def splitActs : List (DetAct Int) :=
  [.run 0 [], .run 0 [], .run 0 [], .run 0 [], .run 2 [20, 21], .run 2 [], .run 2 [],
    .run 1 [10], .run 1 [], .run 1 [], .run 1 [], .run 1 [],
    .collect 0, .collect 1, .collect 0, .collect 1, .collect 0, .collect 1,
    .collect 0, .collect 2, .collect 0, .collect 2, .collect 1, .collect 2, .collect 0, .collect 1,
    .collect 2]

end SNet.Stream
