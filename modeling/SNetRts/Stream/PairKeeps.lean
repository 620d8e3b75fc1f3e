import SNetRts.Stream.PairSteps

/-!
# Outer sort records pass a pair unchanged

Whatever becomes of the dispatcher: every sort record from outside leaves the collector, or the branch
that takes its place, once and with its own level, and the data of each branch in their order. The
special record of the dispatcher stays inside.
-/

namespace SNet.Stream.Pair

open Function (update update_of_ne update_self)

open Lib Schedule List

variable {D Γ : Type} {arg : ParallelArg D Γ} {input₀ : List (Rec D Γ)} {p : Schedule}
  {s s' : Pair D Γ} {k : Nat}

/-! ## Data -/

theorem dataIn_append (q q' : List (Rec D Γ)) : dataIn (q ++ q') = dataIn q ++ dataIn q' :=
  filterMap_append

theorem dataIn_map (ds : List D) : dataIn (ds.map .data : List (Rec D Γ)) = ds := by
  unfold dataIn
  rw [filterMap_map]
  exact filterMap_some

theorem branchOf_append (log log' : List (Nat × D)) (k : Nat) :
    branchOf k (log ++ log') = branchOf k log ++ branchOf k log' :=
  filterMap_append

/-- What the operands have written and what the collector has read. -/
structure Histories (s : Pair D Γ) : Prop where
  isStatic : s.coll.isStatic = true
  wrote : ∀ k, s.wrote k = branchOf k s.heard ++ dataIn (s.flow k)
  heard : dataIn s.coll.out = s.heard.map Prod.snd

theorem process_data {c c' : Collector D Γ} {queue queue' : Queues D Γ} {i : StreamId} {r : Rec D Γ}
    (hc : c.isStatic = true) (h : c.process queue i r = some (c', queue')) :
    queue' = queue ∧ c'.isStatic = true ∧ dataIn c'.out = dataIn c.out ++ dataIn [r] := by
  cases r with
  | data d =>
    cases h
    exact ⟨rfl, hc, dataIn_append ..⟩
  | sync input outtype =>
    cases h
    exact ⟨rfl, hc, (append_nil _).symm⟩
  | collect output =>
    unfold Collector.process at h
    dsimp only at h
    rw [if_pos hc] at h
    cases h
  | sortEnd level num =>
    unfold Collector.process at h
    dsimp only at h
    generalize (if c.last = some i then level + 1 else level) = l at h
    split at h
    · cases h
      exact ⟨rfl, hc, (append_nil _).symm⟩
    · cases h
      exact ⟨rfl, hc, (append_nil _).symm⟩
  | terminate flag =>
    cases h
    exact ⟨rfl, hc, (append_nil _).symm⟩

theorem restore_data {c c' : Collector D Γ} (h : c.restoreFromWaitingset = some c') :
    c'.isStatic = c.isStatic ∧ dataIn c'.out = dataIn c.out := by
  unfold Collector.restoreFromWaitingset at h
  split at h
  · cases h
  · cases h
    refine ⟨rfl, ?_⟩
    dsimp only
    split
    · rw [dataIn_append]
      exact append_nil _
    · rfl

theorem finish_data {c c' : Collector D Γ} (h : c.finish = some c') :
    c'.isStatic = c.isStatic ∧ dataIn c'.out = dataIn c.out := by
  unfold Collector.finish at h
  split at h
  · split at h
    · split at h
      · split at h
        · cases h
        · rename_i c₁ hc₁
          cases h
          have hdata : c₁.isStatic = c.isStatic ∧ dataIn c₁.out = dataIn c.out := by
            split at hc₁
            · exact restore_data hc₁
            · cases hc₁
              exact ⟨rfl, rfl⟩
          refine ⟨hdata.1, ?_⟩
          dsimp only
          rw [dataIn_append, hdata.2]
          exact append_nil _
      · exact restore_data h
    · split at h
      · cases h
      · cases h
        refine ⟨rfl, ?_⟩
        dsimp only
        rw [dataIn_append]
        exact append_nil _
  · cases h
    exact ⟨rfl, rfl⟩

theorem Histories.init (arg : ParallelArg D Γ) (input : List (Rec D Γ)) :
    Histories (init arg input) :=
  ⟨rfl, fun _ => rfl, rfl⟩

theorem Histories.write (h : Histories s) (rs : List (Rec D Γ)) (leave : Bool) {ds : List D}
    (hds : dataIn rs = ds) :
    Histories { s.write k rs leave with wrote := update s.wrote k (s.wrote k ++ ds) } := by
  refine ⟨h.isStatic, fun j => ?_, h.heard⟩
  have hleave : dataIn (if leave then [.sync s.fresh none] else [] : List (Rec D Γ)) = [] := by
    cases leave <;> rfl
  unfold Pair.write
  dsimp only
  by_cases hjk : j = k
  · subst hjk
    rw [update_self, update_self, dataIn_append, dataIn_append, hleave, hds, h.wrote]
    simp
  · rw [update_of_ne hjk, update_of_ne hjk]
    exact h.wrote j

theorem Histories.writeSign (h : Histories s) {rs : List (Rec D Γ)} (leave : Bool)
    (hrs : dataIn rs = []) : Histories (s.write k rs leave) := by
  have hwrite := h.write (k := k) rs leave hrs
  rw [append_nil, Function.update_eq_self] at hwrite
  exact hwrite

theorem Histories.pass (h : Histories s) {ds : List D} {leave : Bool} {r : Rec D Γ}
    (hs : s.pass k ds leave r = .done s') : Histories s' := by
  cases r with
  | data d =>
    cases hs
    exact h.write _ _ (dataIn_map ds)
  | sync input outtype =>
    cases hs
    exact ⟨h.isStatic, h.wrote, h.heard⟩
  | collect output => cases hs
  | sortEnd level num =>
    cases hs
    exact h.writeSign leave rfl
  | terminate flag =>
    cases hs
    exact h.writeSign false rfl

theorem Histories.step (h : Histories s) {a : Act D} (hs : step arg s a = .done s') :
    Histories s' := by
  cases a with
  | dispatch =>
    change s.dispatch arg = _ at hs
    unfold Pair.dispatch at hs
    split at hs
    · split at hs
      · cases hs
      · cases hs
        exact ⟨h.isStatic, h.wrote, h.heard⟩
    · cases hs
  | operand k ds leave =>
    change s.operand k ds leave = _ at hs
    unfold Pair.operand at hs
    split at hs
    · rename_i r q hq
      have hnext : Histories { s with inner := update s.inner k q } :=
        ⟨h.isStatic, h.wrote, h.heard⟩
      exact hnext.pass hs
    · split at hs
      · split at hs
        · rename_i r input hinput
          have hnext : Histories { s with input := input } := ⟨h.isStatic, h.wrote, h.heard⟩
          exact hnext.pass hs
        · cases hs
      · cases hs
  | collect k =>
    change s.collect k = _ at hs
    unfold Pair.collect at hs
    obtain ⟨⟨c, queue⟩, hstep, hs⟩ := Outcome.bind_eq_done.1 hs
    cases hs
    have hgo : ¬ (s.coll.terminate = true ∨ s.id k ∉ s.coll.ready) := by
      intro hstop
      unfold Collector.step at hstep
      rw [if_pos hstop] at hstep
      cases hstep
    rw [not_or, not_not, Bool.not_eq_true] at hgo
    cases hflow : s.flow k with
    | nil =>
      unfold Collector.step at hstep
      rw [hflow, update_self, if_neg (by simp [hgo.1, hgo.2])] at hstep
      cases hstep
    | cons r q =>
      rw [hflow, Collector.step_eq hgo.1 hgo.2] at hstep
      split at hstep
      · cases hstep
      · rename_i c₁ queue₁ hprocess
        rw [Outcome.ofOption_eq_done] at hstep
        obtain ⟨c₂, hfinish, heq⟩ := Option.map_eq_some_iff.1 hstep
        cases heq
        obtain ⟨rfl, hstatic, hdata⟩ := process_data h.isStatic hprocess
        obtain ⟨hstatic', hdata'⟩ := finish_data hfinish
        rw [update_self]
        refine ⟨hstatic'.trans hstatic, fun j => ?_, ?_⟩
        · have hwrote := h.wrote j
          dsimp only
          by_cases hjk : j = k
          · subst hjk
            rw [hflow] at hwrote
            rw [update_self, hwrote]
            cases r with
            | data d =>
              dsimp only
              rw [branchOf_append, append_assoc]
              simp [branchOf, dataIn]
            | _ => rfl
          · rw [update_of_ne hjk, hwrote]
            cases r with
            | data d =>
              dsimp only
              rw [branchOf_append]
              simp [branchOf, Ne.symm hjk]
            | _ => rfl
        · dsimp only
          rw [hdata', hdata, h.heard]
          cases r with
          | data d => simp [dataIn]
          | _ => exact append_nil _

/-! ## The invariant in every state -/

theorem Inv.init (hnum : 2 ≤ arg.num) (houter : ∀ r ∈ input₀, Outer r) :
    Inv arg input₀ ⟨[(0, 0)], 0, List.range arg.num, [], none, fun _ => .opened⟩ (init arg input₀) := by
  have hstart : parallelStart arg 0 = (toInstances arg.num (.sortEnd 0 0), .run ⟨[], 1⟩) := by
    unfold parallelStart
    rw [if_neg (by omega), if_neg (by omega)]
  have hinner : ∀ k, (Pair.init arg input₀).inner k =
      if k < arg.num then [.sortEnd 0 0] else [] := by
    intro k
    change deliver (parallelStart arg 0).1 (fun _ => []) k = _
    rw [hstart]
    change addressed (toInstances arg.num (.sortEnd 0 0)) k = _
    unfold toInstances
    rw [addressed_map nodup_range]
    simp
  have hbox : (Pair.init arg input₀).box = some ⟨[], 1⟩ := by
    unfold Pair.init
    dsimp only
    rw [hstart]
  have hline : ∀ k, (Pair.init arg input₀).line k = if k < arg.num then [.sortEnd 0 0] else [] := fun k =>
    (nil_append _).trans (hinner k)
  have hmem : ∀ k, k ∈ Schedule.members
      ⟨[(0, 0)], 0, List.range arg.num, [], none, fun _ => .opened⟩ ↔ k < arg.num := by
    intro k
    simp [members]
  refine ⟨⟨?_, ?_, ?_, ?_, fun k hk => (hmem k).1 hk, ?_, ?_, by simp, by simp, by simp, ?_⟩,
    ⟨?_, by simp, ?_⟩, ?_, ⟨?_, ?_⟩, ⟨houter, ?_, ?_⟩, ⟨?_, ?_, ?_⟩, Or.inl ⟨?_, ?_⟩⟩
  · exact forall_mem_singleton.2 (Int.le_refl 0)
  · exact forall_mem_singleton.2 fun _ => by decide
  · exact Nat.zero_le _
  · rw [members, append_nil]
    exact nodup_range
  · intro k _
    exact Nat.zero_le _
  · intro k hk hk'
    exact absurd ((hmem k).2 hk) hk'
  · intro n hn
    exact Or.inr ⟨0, 1, by omega, by omega, by decide, hn, hn⟩
  · intro k hk
    rw [hline, if_pos ((hmem k).1 hk)]
    rfl
  · intro k hk
    rw [hline, if_neg fun h => hk ((hmem k).2 h)]
  · intro k
    rw [hline]
    split
    · exact forall_mem_singleton.2 (by simp)
    · simp
  · intro st hst
    rw [hbox] at hst
    cases hst
    refine ⟨⟨by decide, fun _ _ _ => rfl, by simp, fun k hk _ => ?_⟩, rfl, fun k => ?_⟩
    · by_cases hzero : k = 0
      · exact ⟨1, by omega, by omega, by simp⟩
      · exact ⟨0, by omega, Ne.symm hzero, by simp⟩
    · rw [hinner]
      split
      · exact forall_mem_singleton.2 (by simp)
      · exact forall_mem_nil _
  · intro hst
    rw [hbox] at hst
    cases hst
  · exact nil_prefix
  · intro _
    rfl
  · intro k _
    exact nodup_cons.2 ⟨not_mem_nil, nodup_nil⟩
  · intro j _ k _ x hj hk
    exact (mem_singleton.1 hj).symm.trans (mem_singleton.1 hk)
  · intro k hk x hx
    rw [mem_singleton.1 hx]
    exact hk
  · refine ⟨rfl, rfl, (map_id _).symm, rfl, ?_, rfl, rfl, ?_, rfl, forall_mem_nil _⟩
    · change ((List.range arg.num).length : Int) = ((List.range arg.num ++ []).length : Int)
      rw [append_nil]
    · intro hnil
      have hzero := (hmem 0).2 (by omega)
      rw [hnil] at hzero
      cases hzero
  · intro hnil
    have hlen := congrArg List.length hnil
    rw [length_range] at hlen
    exact absurd hlen (by simp; omega)

theorem Inv.step (h : Inv arg input₀ p s) {a : Act D} (hs : step arg s a = .done s') :
    ∃ p', Inv arg input₀ p' s' := by
  cases a with
  | dispatch => exact h.dispatch hs
  | operand k ds leave => exact h.operand hs
  | collect k => exact (h.collect k).of_done hs

theorem inv_of_reach (hnum : 2 ≤ arg.num) (houter : ∀ r ∈ input₀, Outer r)
    (h : Reach (Pair.step arg) anyStep (Pair.init arg input₀) s) :
    (∃ p, Inv arg input₀ p s) ∧ Histories s := by
  refine h.invariant (I := fun s => (∃ p, Inv arg input₀ p s) ∧ Histories s)
    ⟨⟨_, Inv.init hnum houter⟩, Histories.init arg input₀⟩ ?_
  rintro s a s' ⟨⟨p, hinv⟩, hhist⟩ - hs
  exact ⟨hinv.step hs, hhist.step hs⟩

/-! ## What comes out -/

theorem observed_of_noSync (h : NoSync s.coll.out) : s.observed arg = s.coll.out := by
  unfold Pair.observed
  split
  · rename_i input outtype hlast
    exact absurd rfl (h _ (mem_of_getLast? hlast) input outtype)
  · exact append_nil _

theorem observed_of_handed (hid : Apart arg.num s.id) (hk : k < arg.num) {out : List (Rec D Γ)}
    (hout : s.coll.out = out ++ [.sync (s.id k) none]) :
    s.observed arg = s.coll.out ++ s.flow k := by
  have hfind : (List.range arg.num).find? (fun j => s.id j = s.id k) = some k := by
    refine find?_range_eq_some.2 ⟨decide_eq_true rfl, mem_range.2 hk, fun j hj => ?_⟩
    have hne : s.id j ≠ s.id k := fun heq => Nat.ne_of_lt hj (hid j k (Nat.lt_trans hj hk) hk heq)
    simpa using hne
  unfold Pair.observed
  rw [hout, getLast?_concat]
  dsimp only
  rw [hfind]
  rfl

theorem sortEnds_finished {out : List (Rec D Γ)} {r : Rec D Γ} (hr : sortEnds [r] = []) :
    sortEnds (out ++ [r]) = sortEnds out := by
  rw [sortEnds_append, hr, append_nil]

theorem Inv.sortEnds_handed (h : Inv arg input₀ p s) (hready : p.ready = [k])
    (hseen : p.seen = some k) :
    sortEnds (s.line k) = (p.marks.drop p.done).filterMap forward := by
  have hk : k ∈ p.ready := hready ▸ mem_singleton_self k
  obtain ⟨r, hr, hle⟩ := h.ok.seen k hseen
  have hlevels : ∀ m ∈ p.marks.drop p.done, 0 < m.1 := by
    intro m hm
    refine (h.ok.last k r hr).2.2.1 m ?_
    rw [← Nat.sub_add_cancel hle, Nat.add_comm, ← drop_drop] at hm
    exact mem_of_mem_drop hm
  have hexp := h.lines.signs k (mem_append_left _ hk)
  unfold Schedule.expected at hexp
  rw [hr, h.ok.pos_ready hk] at hexp
  dsimp only at hexp
  rw [if_pos hseen] at hexp
  rw [← sortEnds_signs, hexp, sortEnds_map_under hlevels]

theorem Inv.sortEnds_observed (h : Inv arg input₀ p s) :
    sortEnds (s.observed arg) <+: p.marks.filterMap forward := by
  have hsplit : (p.marks.take p.done).filterMap forward ++ (p.marks.drop p.done).filterMap forward =
      p.marks.filterMap forward := by
    rw [← filterMap_append, take_append_drop]
  rcases h.coll with ⟨hheld, -⟩ | ⟨-, -, out, hout, hno, ⟨k, hready, hseen, heq⟩ | ⟨-, flag, heq⟩⟩
  · rw [observed_of_noSync hheld.noSync, hheld.out, ← hsplit]
    exact prefix_append _ _
  · have hk : k ∈ p.members := mem_append_left _ (hready ▸ mem_singleton_self k)
    have hrest := h.sortEnds_handed hready hseen
    rw [line, sortEnds_append] at hrest
    rw [observed_of_handed h.names.ids (h.ok.lt k hk) heq, heq, sortEnds_append,
      sortEnds_finished rfl, hout, ← hsplit, ← hrest, ← append_assoc]
    exact prefix_append _ _
  · have hno' : NoSync s.coll.out := by
      rw [heq]
      exact hno.append (forall_mem_singleton.2 (by simp))
    rw [observed_of_noSync hno', heq, sortEnds_finished rfl, hout, ← hsplit]
    exact prefix_append _ _

/-! ## In the end -/

theorem pass_ne_blocked (s : Pair D Γ) (k : Nat) (ds : List D) (leave : Bool) (r : Rec D Γ) :
    s.pass k ds leave r ≠ .blocked := by
  cases r <;> nofun

theorem Inv.quiet_inputs (h : Inv arg input₀ p s) (hbox : s.box = none) (hq : s.Quiet arg) :
    s.input = [] ∧ (∀ k, s.inner k = []) ∧ ∃ k < arg.num, ∀ t, p.status k ≠ .closed t := by
  have hinner : ∀ k, s.inner k = [] := by
    intro k
    have hop : s.operand k [] false = .blocked := hq (.operand k [] false)
    unfold Pair.operand at hop
    split at hop
    · exact absurd hop (pass_ne_blocked _ _ _ _ _)
    · rename_i hnil
      exact hnil
  obtain ⟨k, r, hk, -, hdirect | ⟨-, q, input, outtype, hsync, -⟩⟩ := h.inputs.left hbox
  · refine ⟨?_, hinner, k, (h.ok.last k r hk).1, by rw [hk]; nofun⟩
    have hop : s.operand k [] false = .blocked := hq (.operand k [] false)
    unfold Pair.operand at hop
    rw [hinner k] at hop
    dsimp only at hop
    rw [if_pos hdirect.1] at hop
    split at hop
    · exact absurd hop (pass_ne_blocked _ _ _ _ _)
    · rename_i hnil
      exact hnil
  · rw [hinner k] at hsync
    simp at hsync

theorem Held.quiet_flow (hheld : Held p s.id s.coll) (hq : s.Quiet arg) (hk : k ∈ p.ready) :
    s.flow k = [] := by
  cases hflow : s.flow k with
  | nil => rfl
  | cons r q =>
    have hcoll : s.collect k = .blocked := hq (.collect k)
    have hready : s.id k ∈ s.coll.ready := by
      rw [hheld.ready]
      exact mem_map_of_mem hk
    unfold Pair.collect at hcoll
    rw [hflow, Collector.step_eq hheld.goesOn hready] at hcoll
    split at hcoll
    · cases hcoll
    · rename_i c queue _
      cases hfin : c.finish with
      | none =>
        rw [hfin] at hcoll
        cases hcoll
      | some c' =>
        rw [hfin] at hcoll
        cases hcoll

theorem Inv.quiet_done (h : Inv arg input₀ p s) (hheld : Held p s.id s.coll) (hbox : s.box = none)
    (hready : p.ready ≠ []) (hq : s.Quiet arg) : p.done = p.marks.length ∧ p.waiting = [] := by
  obtain ⟨-, hinner, -⟩ := h.quiet_inputs hbox hq
  obtain ⟨k, hk⟩ := exists_mem_of_ne_nil _ hready
  have hexp := h.lines.signs k (mem_append_left _ hk)
  rw [line, hheld.quiet_flow hq hk, hinner k] at hexp
  have hexp : p.expected k = ([] : List (Rec D Γ)) := hexp.symm
  obtain ⟨l, r, hl, -⟩ := h.inputs.left hbox
  have hdone : p.done = p.marks.length := by
    unfold Schedule.expected at hexp
    rw [h.ok.pos_ready hk] at hexp
    cases hs : p.status k with
    | opened =>
      have hkl : k ≠ l := by
        rintro rfl
        rw [hs] at hl
        cases hl
      obtain ⟨t, ht, -⟩ := (h.ok.last l r hl).2.2.2 k (h.ok.lt k (mem_append_left _ hk)) hkl
      rw [hs] at ht
      cases ht
    | closed t =>
      rw [hs] at hexp
      simp at hexp
    | last r' =>
      rw [hs] at hexp
      dsimp only at hexp
      split at hexp
      · have hlen := congrArg List.length hexp
        rw [length_map, length_drop] at hlen
        exact Nat.le_antisymm h.ok.done (Nat.le_of_sub_eq_zero hlen)
      · simp at hexp
  refine ⟨hdone, ?_⟩
  by_contra hw
  exact Nat.lt_irrefl _ (hdone ▸ h.ok.done_lt hw)

theorem Inv.quiet_sortEnds (h : Inv arg input₀ p s) (hbox : s.box = none) (hq : s.Quiet arg) :
    sortEnds (s.observed arg) = sortEnds input₀ := by
  obtain ⟨hinput, hinner, hopen⟩ := h.quiet_inputs hbox hq
  have hall := h.reading.all hopen
  rw [hinput] at hall
  have hall : p.marks.filterMap forward = sortEnds input₀ := (append_nil _).symm.trans hall
  rw [← hall]
  rcases h.coll with ⟨hheld, hne⟩ | ⟨-, hw, out, hout, -, ⟨k, hready, hseen, heq⟩ | ⟨hready, -⟩⟩
  · rw [observed_of_noSync hheld.noSync, hheld.out, (h.quiet_done hheld hbox hne hq).1, take_length]
  · have hk : k ∈ p.members := mem_append_left _ (hready ▸ mem_singleton_self k)
    have hrest := h.sortEnds_handed hready hseen
    rw [line, hinner k, append_nil] at hrest
    rw [observed_of_handed h.names.ids (h.ok.lt k hk) heq, heq, sortEnds_append,
      sortEnds_finished rfl, hout, hrest, ← filterMap_append, take_append_drop]
  · obtain ⟨k, hk, hs⟩ := hopen
    have hmem := h.ok.mem_of_not_closed hk hs
    rw [members, hready, hw] at hmem
    cases hmem

theorem branchOf_tag (ds : List D) (j k : Nat) :
    branchOf j (ds.map fun d => (k, d)) = if j = k then ds else [] := by
  unfold branchOf
  rw [filterMap_map]
  by_cases hjk : j = k
  · subst hjk
    rw [if_pos rfl]
    refine (filterMap_congr fun d _ => ?_).trans filterMap_some
    exact if_pos rfl
  · rw [if_neg hjk]
    refine filterMap_eq_nil_iff.2 fun d _ => ?_
    exact if_neg (Ne.symm hjk)

theorem Inv.data_observed (h : Inv arg input₀ p s) (hhist : Histories s) (hbox : s.box = none) :
    ∃ log : List (Nat × D), log.map Prod.snd = dataIn (s.observed arg) ∧
      ∀ k < arg.num, branchOf k log <+: s.wrote k ∧ (s.Quiet arg → branchOf k log = s.wrote k) := by
  have hgone : ∀ j, j ∉ p.members → s.flow j = [] := fun j hj =>
    (append_eq_nil_iff.1 (h.lines.gone j hj)).1
  rcases h.coll with ⟨hheld, hne⟩ | ⟨-, hw, out, -, hno, ⟨k, hready, -, heq⟩ | ⟨hready, flag, heq⟩⟩
  · refine ⟨s.heard, ?_, fun j hj => ?_⟩
    · rw [observed_of_noSync hheld.noSync, hhist.heard]
    · rw [hhist.wrote j]
      refine ⟨prefix_append _ _, fun hq => ?_⟩
      have hflow : s.flow j = [] := by
        by_cases hmem : j ∈ p.members
        · rw [members, (h.quiet_done hheld hbox hne hq).2, append_nil] at hmem
          exact hheld.quiet_flow hq hmem
        · exact hgone j hmem
      rw [hflow]
      exact (append_nil _).symm
  · have hk : k ∈ p.members := mem_append_left _ (hready ▸ mem_singleton_self k)
    refine ⟨s.heard ++ (dataIn (s.flow k)).map fun d => (k, d), ?_, fun j _ => ?_⟩
    · rw [observed_of_handed h.names.ids (h.ok.lt k hk) heq, dataIn_append, hhist.heard,
        map_append, map_map]
      exact congrArg (_ ++ ·) (map_id _)
    · have hlog : branchOf j (s.heard ++ (dataIn (s.flow k)).map fun d => (k, d)) = s.wrote j := by
        rw [branchOf_append, branchOf_tag, hhist.wrote j]
        by_cases hjk : j = k
        · subst hjk
          rw [if_pos rfl]
        · have hmem : j ∉ p.members := by
            rw [members, hready, hw, append_nil, mem_singleton]
            exact hjk
          rw [if_neg hjk, hgone j hmem]
          rfl
      rw [hlog]
      exact ⟨prefix_refl _, fun _ => rfl⟩
  · have hno' : NoSync s.coll.out := by
      rw [heq]
      exact hno.append (forall_mem_singleton.2 (by simp))
    refine ⟨s.heard, ?_, fun j _ => ?_⟩
    · rw [observed_of_noSync hno', hhist.heard]
    · have hmem : j ∉ p.members := by
        rw [members, hready, hw]
        exact not_mem_nil
      rw [hhist.wrote j, hgone j hmem]
      exact ⟨prefix_append _ _, fun _ => (append_nil _).symm⟩

/-- Two branches for even and odd numbers; the sync record closes the first one. -/
def evenOdd : ParallelArg Nat Unit where
  num := 2
  checkMatch := fun d k => if d % 2 = k then some 1 else none
  covers := fun _ k => k == 0
  isDet := true

end SNet.Stream.Pair
