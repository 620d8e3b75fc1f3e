import SNetRts.Front.WorkerSteps

/-!
# How landings, locks and items stay together

What a step does to the landings and descriptors (`Net`), to the locks (`Locks`) and to what the workers know
of. Most steps only change queues, references and locks (`SameNet`); streams are opened, closed and merged,
landings become identities and end, and the context of a box is a new landing.
-/

namespace SNet.Front.Work

open Function (update update_of_ne update_self)

open Lib List

variable {W R : Type*} {s t : State W R}

/-! ## Landings and descriptors -/

/-- The descriptors and landings are the same, but for queues, references and locks. -/
structure SameNet (s t : State W R) : Prop where
  descs : t.descs = s.descs
  landings : t.landings = s.landings
  final : t.final = s.final
  land : ∀ d, (t.desc d).landing = (s.desc d).landing
  source : ∀ d, (t.desc d).source = (s.desc d).source
  closed : ∀ d, (s.desc d).closed = true → (t.desc d).closed = true
  kind : ∀ l, (t.landing l).kind = (s.landing l).kind
  ended : ∀ l, (t.landing l).ended = (s.landing l).ended
  fresh : ∀ d, s.descs ≤ d → t.desc d = s.desc d
  freshLanding : ∀ l, s.landings ≤ l → t.landing l = s.landing l

namespace SameNet

theorem refl (s : State W R) : SameNet s s :=
  ⟨rfl, rfl, rfl, fun _ => rfl, fun _ => rfl, fun _ h => h, fun _ => rfl, fun _ => rfl, fun _ _ => rfl, fun _ _ => rfl⟩

theorem trans {u : State W R} (h : SameNet s t) (h' : SameNet t u) : SameNet s u :=
  ⟨h'.descs.trans h.descs, h'.landings.trans h.landings, h'.final.trans h.final,
    fun d => (h'.land d).trans (h.land d), fun d => (h'.source d).trans (h.source d),
    fun d hd => h'.closed d (h.closed d hd), fun l => (h'.kind l).trans (h.kind l),
    fun l => (h'.ended l).trans (h.ended l),
    fun d hd => (h'.fresh d (h.descs ▸ hd)).trans (h.fresh d hd),
    fun l hl => (h'.freshLanding l (h.landings ▸ hl)).trans (h.freshLanding l hl)⟩

theorem setDesc {d : Nat} {x : Desc R} (hd : d < s.descs) (hland : x.landing = (s.desc d).landing)
    (hsource : x.source = (s.desc d).source) (hclosed : (s.desc d).closed = true → x.closed = true) :
    SameNet s (s.setDesc d x) := by
  refine ⟨rfl, rfl, rfl, fun e => ?_, fun e => ?_, fun e he => ?_, fun _ => rfl, fun _ => rfl, fun e he => ?_,
    fun _ _ => rfl⟩
  · by_cases h : e = d
    · subst h
      simp [hland]
    · simp [update_of_ne h]
  · by_cases h : e = d
    · subst h
      simp [hsource]
    · simp [update_of_ne h]
  · by_cases h : e = d
    · subst h
      simp [hclosed he]
    · simpa [update_of_ne h] using he
  · exact update_of_ne (Nat.ne_of_gt (Nat.lt_of_lt_of_le hd he)) _ _

theorem setQueue {d : Nat} (hd : d < s.descs) (fifo : List R) (refs : Nat) :
    SameNet s (s.setDesc d { s.desc d with fifo := fifo, refs := refs }) := setDesc hd rfl rfl fun h => h

theorem setLock {l : Nat} (hl : l < s.landings) (w : Option W) : SameNet s (s.setLock l w) := by
  refine ⟨rfl, rfl, rfl, fun _ => rfl, fun _ => rfl, fun _ h => h, fun m => ?_, fun m => ?_, fun _ _ => rfl,
    fun m hm => ?_⟩
  · by_cases h : m = l
    · subst h
      simp [State.setLock]
    · simp [State.setLock, update_of_ne h]
  · by_cases h : m = l
    · subst h
      simp [State.setLock]
    · simp [State.setLock, update_of_ne h]
  · exact update_of_ne (Nat.ne_of_gt (Nat.lt_of_lt_of_le hl hm)) _ _

theorem workers (worker : W → Worker R) : SameNet s { s with worker := worker } :=
  ⟨rfl, rfl, rfl, fun _ => rfl, fun _ => rfl, fun _ h => h, fun _ => rfl, fun _ => rfl, fun _ _ => rfl, fun _ _ => rfl⟩

theorem note (f : Nat) (items : List R) : SameNet s (s.note f items) :=
  ⟨rfl, rfl, rfl, fun _ => rfl, fun _ => rfl, fun _ h => h, fun _ => rfl, fun _ => rfl, fun _ _ => rfl, fun _ _ => rfl⟩

theorem receive (d : Nat) (item : R) : SameNet s (s.receive d item) := by
  unfold State.receive
  split
  · exact ⟨rfl, rfl, rfl, fun _ => rfl, fun _ => rfl, fun _ h => h, fun _ => rfl, fun _ => rfl, fun _ _ => rfl,
      fun _ _ => rfl⟩
  · exact refl s

theorem letGo {d : Nat} (hd : d < s.descs) (hclosed : (s.desc d).closed = true ↔ (s.desc d).refs = 0) (n : Nat) :
    SameNet s (s.letGo d n) := by
  refine setDesc hd rfl rfl fun h => ?_
  rw [hclosed.1 h, Nat.zero_sub]
  rfl

theorem desc_kind (h : SameNet s t) (d : Nat) : t.kind d = s.kind d := by
  unfold State.kind
  rw [h.land d, h.kind]

theorem next (h : SameNet s t) : t.next = s.next := by
  funext d
  unfold State.next
  rw [h.desc_kind d]

end SameNet

theorem ClosedTo.same {l : Nat} {but : List Nat} (h : ClosedTo s l but) (hs : SameNet s t) : ClosedTo t l but := by
  intro d hd hland
  rw [hs.descs] at hd
  rw [hs.land] at hland
  exact (h d hd hland).imp_right (hs.closed d)

theorem Net.same (h : Net s) (hs : SameNet s t) : Net t := by
  have hopen : ∀ d, (t.desc d).closed = false → (s.desc d).closed = false := by
    intro d hd
    rw [Bool.eq_false_iff] at hd ⊢
    exact fun htrue => hd (hs.closed d htrue)
  refine ⟨fun d hd => ?_, fun l hl => ?_, ?_, fun d hd => ?_, fun l d hd => ?_, fun l => ?_,
    fun l hl he d hd => ?_, fun l hl he d hd => ?_, fun d hd e he hland hcd hce hkind => ?_, fun l hl => ?_,
    fun d hd => ?_, fun d hd => ?_⟩
  · rw [hs.descs] at hd
    rw [hs.fresh d hd, h.fresh d hd]
  · rw [hs.landings] at hl
    rw [hs.freshLanding l hl, h.freshLanding l hl]
  · rw [hs.landings]
    exact h.input
  · rw [hs.descs] at hd
    rw [hs.land, hs.landings]
    exact h.landing_lt d hd
  · rw [hs.kind] at hd
    rw [hs.descs]
    exact h.out_lt l d hd
  · rw [hs.kind]
    exact h.nodup l
  · rw [hs.kind] at hl hd
    rw [hs.ended] at he
    rw [hs.source]
    exact h.source l hl he d hd
  · rw [hs.kind] at hl hd
    rw [hs.ended] at he
    rw [hs.desc_kind]
    exact h.live l hl he d hd
  · rw [hs.descs] at hd he
    rw [hs.land, hs.land] at hland
    rw [hs.desc_kind] at hkind
    exact h.sole d hd e he hland (hopen d hcd) (hopen e hce) hkind
  · rw [hs.ended] at hl
    rw [hs.kind]
    exact ⟨(h.ended l hl).1, (h.ended l hl).2.same hs⟩
  · rw [hs.descs] at hd ⊢
    rw [hs.final]
    exact h.final_lt d hd
  · rw [hs.descs] at hd
    rw [hs.next, hs.final, hs.desc_kind]
    exact h.final d hd

theorem SameNet.unlock (h : Net s) (l : Nat) : SameNet s (s.setLock l none) := by
  rcases Nat.lt_or_ge l s.landings with hl | hl
  · exact .setLock hl none
  · have hsame : s.setLock l none = s := by
      unfold State.setLock State.setLanding
      rw [h.freshLanding l hl]
      have : update s.landing l ⟨.node [], none, false⟩ = s.landing := by
        rw [← h.freshLanding l hl, Function.update_eq_self]
      rw [this]
    rw [hsame]
    exact .refl s

section setKind

variable {l : Nat}

theorem setKind_kind_of_ne {k : Kind} {m : Nat} (hm : m ≠ l) : ((s.setKind l k).landing m) = s.landing m :=
  update_of_ne hm _ _

theorem setKind_kind (k : Kind) : ((s.setKind l k).landing l).kind = k := by
  simp [State.setKind]

theorem setKind_ended (k : Kind) (m : Nat) : ((s.setKind l k).landing m).ended = (s.landing m).ended := by
  by_cases hm : m = l
  · subst hm
    simp [State.setKind]
  · rw [setKind_kind_of_ne hm]

theorem setKind_lock (k : Kind) (m : Nat) : ((s.setKind l k).landing m).lock = (s.landing m).lock := by
  by_cases hm : m = l
  · subst hm
    simp [State.setKind]
  · rw [setKind_kind_of_ne hm]

theorem setKind_desc_kind (k : Kind) (d : Nat) :
    (s.setKind l k).kind d = if (s.desc d).landing = l then k else s.kind d := by
  unfold State.kind
  split
  · next h =>
    rw [show ((s.setKind l k).desc d).landing = l from h, setKind_kind]
  · next h => exact congrArg Landing.kind (setKind_kind_of_ne h)

end setKind

theorem Net.setOuts (h : Net s) {l : Nat} (outs : List Nat) {outs' : List Nat} (hkind : (s.landing l).kind = .node outs)
    (hl : l < s.landings) (hnodup : outs'.Nodup)
    (hsub : ∀ d ∈ outs', d ∈ outs ∨ d < s.descs ∧ (s.desc d).source = l ∧ (s.kind d).isGarbage = false) :
    Net (s.setKind l (.node outs')) := by
  have hended : (s.landing l).ended = false := h.ended_of_node hkind
  -- what goes to this landing goes to a node before and after
  have hdesc : ∀ d, (s.setKind l (.node outs')).kind d = s.kind d ∨
      (s.setKind l (.node outs')).kind d = .node outs' ∧ s.kind d = .node outs := by
    intro d
    rw [setKind_desc_kind]
    split
    · next hd =>
      refine .inr ⟨rfl, ?_⟩
      unfold State.kind
      rw [hd]
      exact hkind
    · exact .inl rfl
  have hisNode : ∀ d, ((s.setKind l (.node outs')).kind d).isNode = (s.kind d).isNode := by
    intro d
    rcases hdesc d with heq | ⟨h1, h2⟩
    · rw [heq]
    · rw [h1, h2]
      rfl
  have hisGarbage : ∀ d, ((s.setKind l (.node outs')).kind d).isGarbage = (s.kind d).isGarbage := by
    intro d
    rcases hdesc d with heq | ⟨h1, h2⟩
    · rw [heq]
    · rw [h1, h2]
      rfl
  have hnext : (s.setKind l (.node outs')).next = s.next := by
    funext d
    unfold State.next
    rcases hdesc d with heq | ⟨h1, h2⟩
    · rw [heq]
    · rw [h1, h2]
  refine ⟨h.fresh, fun m hm => ?_, h.input, h.landing_lt, fun m d hd => ?_, fun m => ?_, fun m hm he d hd => ?_,
    fun m hm he d hd => ?_, fun d hd e he hland hcd hce hk => ?_, fun m hm => ?_, h.final_lt, fun d hd => ?_⟩
  · rw [setKind_kind_of_ne (Nat.ne_of_gt (Nat.lt_of_lt_of_le hl hm))]
    exact h.freshLanding m hm
  · by_cases hml : m = l
    · subst hml
      rw [setKind_kind] at hd
      rcases hsub d hd with hmem | ⟨hlt, -⟩
      · exact h.out_lt m d (by rw [hkind]; exact hmem)
      · exact hlt
    · rw [setKind_kind_of_ne hml] at hd
      exact h.out_lt m d hd
  · by_cases hml : m = l
    · subst hml
      rw [setKind_kind]
      exact hnodup
    · rw [setKind_kind_of_ne hml]
      exact h.nodup m
  · by_cases hml : m = l
    · subst hml
      rw [setKind_kind] at hd
      rcases hsub d hd with hmem | ⟨-, hsource, -⟩
      · exact h.source m (by rw [hkind]; rfl) hended d (by rw [hkind]; exact hmem)
      · exact hsource
    · rw [setKind_kind_of_ne hml] at hd hm he
      exact h.source m hm he d hd
  · rw [hisGarbage]
    by_cases hml : m = l
    · subst hml
      rw [setKind_kind] at hd
      rcases hsub d hd with hmem | ⟨-, -, hlive⟩
      · exact h.live m (by rw [hkind]; rfl) hended d (by rw [hkind]; exact hmem)
      · exact hlive
    · rw [setKind_kind_of_ne hml] at hd hm he
      exact h.live m hm he d hd
  · rw [hisNode] at hk
    exact h.sole d hd e he hland hcd hce hk
  · rw [setKind_ended] at hm
    have hml : m ≠ l := by
      rintro rfl
      rw [hended] at hm
      cases hm
    rw [setKind_kind_of_ne hml]
    exact h.ended m hm
  · obtain ⟨hlead, hnode⟩ := h.final d hd
    rw [hnext]
    exact ⟨hlead, (hisNode _).trans hnode⟩

theorem end_kind (l m : Nat) : ((s.end_ l).landing m).kind = (s.landing m).kind := by
  by_cases hm : m = l
  · subst hm
    simp [State.end_]
  · simp [State.end_, update_of_ne hm]

theorem Net.end_ (h : Net s) {l d : Nat} (hkind : (s.landing l).kind = .identity d ∨ (s.landing l).kind = .garbage d)
    (hclosed : ClosedTo s l []) : Net (s.end_ l) := by
  have hl : l < s.landings := by
    refine h.lt_of_out (d := d) ?_
    rcases hkind with hkind | hkind <;> rw [hkind] <;> exact mem_singleton.2 rfl
  have hk : ∀ m, ((s.end_ l).landing m).kind = (s.landing m).kind := end_kind l
  have hdesc : (s.end_ l).kind = s.kind := funext fun d => hk _
  have hnext : (s.end_ l).next = s.next := by
    funext d
    unfold State.next
    rw [hdesc]
  have hended : ∀ m, ((s.end_ l).landing m).ended = true → m = l ∨ (s.landing m).ended = true := by
    intro m hm
    by_cases hml : m = l
    · exact .inl hml
    · exact .inr (by rwa [show (s.end_ l).landing m = s.landing m from update_of_ne hml _ _] at hm)
  have hstill : ∀ m, ((s.end_ l).landing m).ended = false → (s.landing m).ended = false := by
    intro m hm
    by_cases hml : m = l
    · subst hml
      simp [State.end_] at hm
    · rwa [show (s.end_ l).landing m = s.landing m from update_of_ne hml _ _] at hm
  refine ⟨h.fresh, fun m hm => ?_, h.input, h.landing_lt, fun m d hd => ?_, fun m => ?_, fun m hm he d hd => ?_,
    fun m hm he d hd => ?_, fun d hd e he hland hcd hce hkd => ?_, fun m hm => ?_, h.final_lt, fun d hd => ?_⟩
  · exact (update_of_ne (Nat.ne_of_gt (Nat.lt_of_lt_of_le hl hm)) _ _).trans (h.freshLanding m hm)
  · rw [hk] at hd
    exact h.out_lt m d hd
  · rw [hk]
    exact h.nodup m
  · rw [hk] at hm hd
    exact h.source m hm (hstill m he) d hd
  · rw [hk] at hm hd
    rw [hdesc]
    exact h.live m hm (hstill m he) d hd
  · rw [hdesc] at hkd
    exact h.sole d hd e he hland hcd hce hkd
  · rw [hk]
    rcases hended m hm with rfl | hm
    · refine ⟨?_, hclosed⟩
      rcases hkind with hkind | hkind <;> rw [hkind] <;> rfl
    · exact h.ended m hm
  · rw [hnext, hdesc]
    exact h.final d hd

theorem addLanding_self (w : W) : (s.addLanding w).landing s.landings = ⟨.node [], some w, false⟩ :=
  update_self _ _ _

theorem addLanding_of_ne (w : W) {m : Nat} (hm : m ≠ s.landings) : (s.addLanding w).landing m = s.landing m :=
  update_of_ne hm _ _

theorem addLanding_kind (h : Net s) (w : W) (m : Nat) : ((s.addLanding w).landing m).kind = (s.landing m).kind := by
  by_cases hm : m = s.landings
  · rw [hm, addLanding_self, h.freshLanding s.landings (Nat.le_refl _)]
  · rw [addLanding_of_ne w hm]

theorem Net.addLanding (h : Net s) (w : W) : Net (s.addLanding w) := by
  have hold : ∀ m, m ≠ s.landings → (s.addLanding w).landing m = s.landing m := fun m hm => addLanding_of_ne w hm
  have hk : ∀ m, ((s.addLanding w).landing m).kind = (s.landing m).kind := addLanding_kind h w
  have he : ∀ m, ((s.addLanding w).landing m).ended = (s.landing m).ended := by
    intro m
    by_cases hm : m = s.landings
    · rw [hm, addLanding_self, h.freshLanding s.landings (Nat.le_refl _)]
    · rw [hold m hm]
  have hdesc : (s.addLanding w).kind = s.kind := funext fun d => hk _
  have hnext : (s.addLanding w).next = s.next := by
    funext d
    unfold State.next
    rw [hdesc]
  refine ⟨h.fresh, fun m hm => ?_, Nat.lt_succ_of_lt h.input, fun d hd => Nat.lt_succ_of_lt (h.landing_lt d hd),
    fun m d hd => ?_, fun m => ?_, fun m hm hem d hd => ?_,
    fun m hm hem d hd => ?_, fun d hd e he hland hcd hce hkd => ?_, fun m hm => ?_, h.final_lt, fun d hd => ?_⟩
  · rw [hold m (Nat.ne_of_gt hm)]
    exact h.freshLanding m (Nat.le_of_succ_le hm)
  · rw [hk] at hd
    exact h.out_lt m d hd
  · rw [hk]
    exact h.nodup m
  · rw [hk] at hm hd
    rw [he] at hem
    exact h.source m hm hem d hd
  · rw [hk] at hm hd
    rw [he] at hem
    rw [hdesc]
    exact h.live m hm hem d hd
  · rw [hdesc] at hkd
    exact h.sole d hd e he hland hcd hce hkd
  · rw [he] at hm
    rw [hk]
    exact h.ended m hm
  · rw [hnext, hdesc]
    exact h.final d hd

theorem Net.opened (h : Net s) {l : Nat} {outs : List Nat} {land : Option Nat}
    (hkind : (s.landing l).kind = .node outs) (hl : l < s.landings)
    (hland : ∀ m, land = some m → m < s.landings ∧ (s.landing m).kind.isNode = true) :
    Net (s.opened l outs land) := by
  let d := s.descs
  -- the descriptor is added, and then it is one of those of the landing
  let t : State W R :=
    { s.setDesc d ⟨land.getD s.landings, l, [], 1, false⟩ with
      descs := d + 1
      landings := if land.isNone then s.landings + 1 else s.landings
      final := update s.final d d
      line := update s.line d []
      got := update s.got d [] }
  have hlands : s.landings ≤ t.landings := by
    change s.landings ≤ if land.isNone then s.landings + 1 else s.landings
    split <;> omega
  have hself : t.desc d = ⟨land.getD s.landings, l, [], 1, false⟩ := update_self _ _ _
  have hold : ∀ e, e ≠ d → t.desc e = s.desc e := fun e he => update_of_ne he _ _
  have hold' : ∀ e, e < s.descs → t.desc e = s.desc e := fun e he => hold e (Nat.ne_of_lt he)
  have hkindd : (t.kind d).isNode = true := by
    unfold State.kind
    rw [hself]
    cases hl : land with
    | none =>
      change (s.landing s.landings).kind.isNode = true
      rw [h.freshLanding _ (Nat.le_refl _)]
      rfl
    | some m => exact (hland m hl).2
  have hkindo : ∀ e < s.descs, t.kind e = s.kind e :=
    fun e he => congrArg (fun x : Desc R => (s.landing x.landing).kind) (hold' e he)
  have hnexto : ∀ e < s.descs, t.next e = s.next e := by
    intro e he
    unfold State.next
    rw [hkindo e he]
  have hclosed : ∀ a b, a < s.descs → s.next a = some b → b < s.descs := by
    intro a b _ hab
    unfold State.next at hab
    cases hk : s.kind a with
    | node outs =>
      rw [hk] at hab
      cases hab
    | identity e | garbage e =>
      rw [hk] at hab
      cases hab
      refine h.out_lt (s.desc a).landing _ ?_
      rw [show (s.landing (s.desc a).landing).kind = _ from hk]
      exact mem_singleton.2 rfl
  have hlt : ∀ e, e < d + 1 → e ≠ d → e < s.descs := fun e he hne => Nat.lt_of_le_of_ne (Nat.le_of_lt_succ he) hne
  have hnet : Net t := by
    refine ⟨fun e he => ?_, fun m hm => h.freshLanding m (Nat.le_trans hlands hm),
      Nat.lt_of_lt_of_le h.input hlands, fun e he => ?_,
      fun m e he => Nat.lt_succ_of_lt (h.out_lt m e he), h.nodup, fun m hm he e hout => ?_,
      fun m hm he e hout => ?_, fun e he f hf hland hce hcf hke => ?_, fun m hm => ⟨(h.ended m hm).1, ?_⟩,
      fun e he => ?_, fun e he => ?_⟩
    · rw [hold e (Nat.ne_of_gt he)]
      exact h.fresh e (Nat.le_of_succ_le he)
    · by_cases hed : e = d
      · rw [hed, hself]
        cases hl : land with
        | none =>
          change s.landings < if land.isNone then s.landings + 1 else s.landings
          rw [hl]
          exact Nat.lt_succ_self _
        | some m => exact Nat.lt_of_lt_of_le (hland m hl).1 hlands
      · rw [hold e hed]
        exact Nat.lt_of_lt_of_le (h.landing_lt e (hlt e he hed)) hlands
    · have := h.out_lt m e hout
      rw [hold' e this]
      exact h.source m hm he e hout
    · have := h.out_lt m e hout
      rw [hkindo e this]
      exact h.live m hm he e hout
    · by_cases hed : e = d
      · rw [hed, hkindd] at hke
        cases hke
      · by_cases hfd : f = d
        · have hsame : t.kind e = t.kind f := congrArg (fun m => (t.landing m).kind) hland
          rw [hsame, hfd, hkindd] at hke
          cases hke
        · rw [hold e hed, hold f hfd] at hland
          rw [hold e hed] at hce
          rw [hold f hfd] at hcf
          rw [hkindo e (hlt e he hed)] at hke
          exact h.sole e (hlt e he hed) f (hlt f hf hfd) hland hce hcf hke
    · intro e he hland'
      by_cases hed : e = d
      · subst hed
        have hnode : (t.kind d).isNode = (s.landing m).kind.isNode :=
          congrArg (fun m => (s.landing m).kind.isNode) hland'
        rw [hkindd, (h.ended m hm).1] at hnode
        cases hnode
      · rw [hold e hed] at hland' ⊢
        exact (h.ended m hm).2 e (hlt e he hed) hland'
    · by_cases hed : e = d
      · rw [hed, show t.final d = d from update_self _ _ _]
        exact Nat.lt_succ_self d
      · rw [show t.final e = s.final e from update_of_ne hed _ _]
        exact Nat.lt_succ_of_lt (h.final_lt e (hlt e he hed))
    · by_cases hed : e = d
      · rw [hed, show t.final d = d from update_self _ _ _]
        exact ⟨.refl d, hkindd⟩
      · have hes := hlt e he hed
        obtain ⟨hlead, hnode⟩ := h.final e hes
        rw [show t.final e = s.final e from update_of_ne hed _ _, hkindo _ (h.final_lt e hes)]
        exact ⟨hlead.congr_on hclosed hnexto hes, hnode⟩
  have hnot : d ∉ outs := fun hmem => Nat.lt_irrefl _ (h.out_lt l d (by rw [hkind]; exact hmem))
  have hnodup : (outs ++ [d]).Nodup := by
    have hnd := h.nodup l
    rw [hkind] at hnd
    refine nodup_append.2 ⟨hnd, nodup_singleton d, ?_⟩
    intro a ha b hb
    rw [mem_singleton] at hb
    rintro rfl
    exact hnot (hb ▸ ha)
  refine hnet.setOuts outs hkind (Nat.lt_of_lt_of_le hl hlands) hnodup fun e he => ?_
  rcases mem_append.1 he with he | he
  · exact .inl he
  · rw [mem_singleton] at he
    refine .inr ⟨he ▸ Nat.lt_succ_self d, by rw [he, hself], ?_⟩
    rw [he]
    cases hk : t.kind d with
    | node _ | identity _ => rfl
    | garbage _ =>
      rw [hk] at hkindd
      cases hkindd

section merged

variable {l d next : Nat}

theorem merged_landing_of_ne {m : Nat} (hm : m ≠ l) (hd : m ≠ (s.desc d).landing) :
    (s.merged l d next).landing m = s.landing m :=
  (update_of_ne hm _ _).trans (update_of_ne hd _ _)

theorem merged_landing_self (hne : (s.desc d).landing ≠ l) :
    (s.merged l d next).landing (s.desc d).landing =
      { s.landing (s.desc d).landing with kind := .garbage next } :=
  (update_of_ne hne _ _).trans (update_self _ _ _)

theorem merged_landing : (s.merged l d next).landing l =
    { s.landing l with kind := (s.landing l).kind.replace d next } := update_self _ _ _

theorem merged_ended (m : Nat) : ((s.merged l d next).landing m).ended = (s.landing m).ended := by
  by_cases hm : m = l
  · rw [hm, merged_landing]
  · by_cases hd : m = (s.desc d).landing
    · rw [hd, merged_landing_self (hd ▸ hm)]
    · rw [merged_landing_of_ne hm hd]

theorem merged_lock (m : Nat) : ((s.merged l d next).landing m).lock = (s.landing m).lock := by
  by_cases hm : m = l
  · rw [hm, merged_landing]
  · by_cases hd : m = (s.desc d).landing
    · rw [hd, merged_landing_self (hd ▸ hm)]
    · rw [merged_landing_of_ne hm hd]

theorem merged_desc_of_ne {e : Nat} (hd : e ≠ d) (hn : e ≠ next) : (s.merged l d next).desc e = s.desc e :=
  (update_of_ne hn _ _).trans (update_of_ne hd _ _)

theorem merged_desc_next : (s.merged l d next).desc next =
    { s.desc next with
      fifo := (s.desc next).fifo ++ (s.desc d).fifo, source := (s.desc d).source
      refs := (s.desc next).refs + (s.desc d).fifo.length + 1 } := update_self _ _ _

theorem merged_desc_self (hne : d ≠ next) : (s.merged l d next).desc d =
    { s.desc d with fifo := [], refs := (s.desc d).refs - 1, closed := decide ((s.desc d).refs - 1 = 0) } :=
  (update_of_ne hne _ _).trans (update_self _ _ _)

theorem merged_desc_land (e : Nat) : ((s.merged l d next).desc e).landing = (s.desc e).landing := by
  by_cases hn : e = next
  · rw [hn, merged_desc_next]
  · rw [show (s.merged l d next).desc e = update s.desc d _ e from update_of_ne hn _ _]
    by_cases hd : e = d
    · subst hd
      rw [update_self]
    · rw [update_of_ne hd]

theorem merged_desc_source {e : Nat} (hn : e ≠ next) : ((s.merged l d next).desc e).source = (s.desc e).source := by
  rw [show (s.merged l d next).desc e = update s.desc d _ e from update_of_ne hn _ _]
  by_cases hd : e = d
  · subst hd
    rw [update_self]
  · rw [update_of_ne hd]

theorem merged_kind (hne : (s.desc d).landing ≠ l) (m : Nat) : ((s.merged l d next).landing m).kind =
    if m = (s.desc d).landing then .garbage next
    else if m = l then (s.landing l).kind.replace d next else (s.landing m).kind := by
  by_cases hmL : m = (s.desc d).landing
  · rw [if_pos hmL, hmL, merged_landing_self hne]
  · rw [if_neg hmL]
    by_cases hml : m = l
    · rw [if_pos hml, hml, merged_landing]
    · rw [if_neg hml, merged_landing_of_ne hml hmL]

theorem merged_desc_kind (hne : (s.desc d).landing ≠ l) (e : Nat) : (s.merged l d next).kind e =
    if (s.desc e).landing = (s.desc d).landing then .garbage next
    else if (s.desc e).landing = l then (s.landing l).kind.replace d next else s.kind e := by
  unfold State.kind
  rw [merged_desc_land, merged_kind hne]

theorem replace_isNode (k : Kind) : (k.replace d next).isNode = k.isNode := by cases k <;> rfl

theorem replace_isGarbage (k : Kind) : (k.replace d next).isGarbage = k.isGarbage := by cases k <;> rfl

theorem mem_replace {k : Kind} {e : Nat} (hk : k.isGarbage = false) (he : e ∈ (k.replace d next).outs) :
    e = next ∧ d ∈ k.outs ∨ e ∈ k.outs ∧ e ≠ d := by
  cases k with
  | node outs =>
    obtain ⟨x, hx, rfl⟩ := List.mem_map.1 he
    by_cases hxd : x = d
    · rw [if_pos hxd]
      exact .inl ⟨rfl, hxd ▸ hx⟩
    · rw [if_neg hxd]
      exact .inr ⟨hx, hxd⟩
  | identity out =>
    rw [mem_singleton.1 he]
    by_cases hxd : out = d
    · rw [if_pos hxd]
      exact .inl ⟨rfl, mem_singleton.2 hxd.symm⟩
    · rw [if_neg hxd]
      exact .inr ⟨mem_singleton.2 rfl, hxd⟩
  | garbage out => cases hk

theorem mem_replace_iff {k : Kind} {e : Nat} (hk : k.isGarbage = false) (hd : d ∈ k.outs) :
    e ∈ (k.replace d next).outs ↔ e = next ∨ e ∈ k.outs ∧ e ≠ d := by
  constructor
  · intro he
    exact (mem_replace hk he).imp_left fun h => h.1
  · cases k with
    | node outs =>
      rintro (rfl | ⟨he, hed⟩)
      · exact List.mem_map.2 ⟨d, hd, if_pos rfl⟩
      · exact List.mem_map.2 ⟨e, he, if_neg hed⟩
    | identity out =>
      obtain rfl := mem_singleton.1 hd
      rintro (rfl | ⟨he, hed⟩)
      · exact mem_singleton.2 (if_pos rfl).symm
      · exact absurd (mem_singleton.1 he) hed
    | garbage out => cases hk

theorem nodup_replace {k : Kind} (hk : k.outs.Nodup) (hn : next ∉ k.outs) : (k.replace d next).outs.Nodup := by
  cases k with
  | node outs =>
    refine List.Nodup.map_on (fun x hx y hy hxy => ?_) hk
    by_cases hxd : x = d
    · by_cases hyd : y = d
      · rw [hxd, hyd]
      · rw [if_pos hxd, if_neg hyd] at hxy
        exact absurd (hxy ▸ hy) hn
    · by_cases hyd : y = d
      · rw [if_neg hxd, if_pos hyd] at hxy
        exact absurd (hxy ▸ hx) hn
      · rwa [if_neg hxd, if_neg hyd] at hxy
  | identity out | garbage out => exact nodup_singleton _

end merged

theorem Net.merged (h : Net s) {l d next : Nat} (hended : (s.landing l).ended = false)
    (hgarbage : (s.landing l).kind.isGarbage = false) (hout : d ∈ (s.landing l).kind.outs)
    (hkind : s.kind d = .identity next) (hne : (s.desc d).landing ≠ l)
    (hopen : (s.desc d).closed = false)
    (hothers : ∀ e, e < s.descs → (∃ m, (s.landing m).kind.isGarbage = false ∧ (s.landing m).ended = false ∧
      e ∈ (s.landing m).kind.outs) → (s.desc e).closed = false) :
    Net (s.merged l d next) := by
  let L := (s.desc d).landing
  have hL : (s.landing L).kind = .identity next := hkind
  have hd : d < s.descs := h.out_lt l d hout
  have hnext : next < s.descs := h.out_lt L next (by rw [hL]; exact mem_singleton.2 rfl)
  have hLlt : L < s.landings := h.landing_lt d hd
  have hllt : l < s.landings := h.lt_of_out hout
  have hLended : (s.landing L).ended = false := by
    rw [Bool.eq_false_iff]
    intro htrue
    rcases (h.ended L htrue).2 d hd rfl with hmem | hclosed
    · cases hmem
    · rw [hopen] at hclosed
      cases hclosed
  have hland : (s.desc next).landing ≠ L := h.landing_ne hkind hnext
  have hsourced : (s.desc d).source = l := h.source l hgarbage hended d hout
  have hsourcen : (s.desc next).source = L := h.source L (by rw [hL]; rfl) hLended next
    (by rw [hL]; exact mem_singleton.2 rfl)
  have hliven : (s.kind next).isGarbage = false := h.live L (by rw [hL]; rfl) hLended next
    (by rw [hL]; exact mem_singleton.2 rfl)
  have hnotin : next ∉ (s.landing l).kind.outs := fun hmem =>
    hne (hsourcen.symm.trans (h.source l hgarbage hended next hmem))
  -- the kinds of landings after the merge
  have hk : ∀ m, ((s.merged l d next).landing m).kind =
      if m = L then .garbage next else if m = l then (s.landing l).kind.replace d next else (s.landing m).kind :=
    merged_kind hne
  have hkdesc : ∀ e, (s.merged l d next).kind e =
      if (s.desc e).landing = L then .garbage next
      else if (s.desc e).landing = l then (s.landing l).kind.replace d next else s.kind e := merged_desc_kind hne
  have hisNode : ∀ m, ((s.merged l d next).landing m).kind.isNode = (s.landing m).kind.isNode := by
    intro m
    rw [hk]
    split
    · next heq =>
      rw [heq, hL]
      rfl
    · split
      · next heq => rw [heq, replace_isNode]
      · rfl
  have hisNode' : ∀ e, ((s.merged l d next).kind e).isNode = (s.kind e).isNode := by
    intro e
    unfold State.kind
    rw [merged_desc_land]
    exact hisNode _
  have hstill : ∀ e, ((s.merged l d next).desc e).closed = false → (s.desc e).closed = false := by
    intro e he
    by_cases hed : e = d
    · rw [hed]
      exact hopen
    · by_cases hen : e = next
      · rw [hen, merged_desc_next] at he
        rw [hen]
        exact he
      · rwa [merged_desc_of_ne hed hen] at he
  have hmore : ∀ e, (s.desc e).closed = true → ((s.merged l d next).desc e).closed = true := by
    intro e he
    have hed : e ≠ d := by
      rintro rfl
      rw [hopen] at he
      cases he
    by_cases hen : e = next
    · rw [hen, merged_desc_next]
      rw [hen] at he
      exact he
    · rwa [merged_desc_of_ne hed hen]
  -- what is open at a landing
  have houts : ∀ m, ((s.merged l d next).landing m).kind.isGarbage = false → (s.landing m).ended = false →
      ∀ e ∈ ((s.merged l d next).landing m).kind.outs,
        e = next ∧ m = l ∨ m ≠ L ∧ (s.landing m).kind.isGarbage = false ∧ e ∈ (s.landing m).kind.outs ∧
          e ≠ next ∧ e ≠ d := by
    intro m hm hem e he
    rw [hk] at hm he
    by_cases hmL : m = L
    · rw [if_pos hmL] at hm
      cases hm
    · rw [if_neg hmL] at hm he
      by_cases hml : m = l
      · rw [if_pos hml] at he
        subst hml
        rcases mem_replace hgarbage he with ⟨heq, -⟩ | ⟨hmem, hned⟩
        · exact .inl ⟨heq, rfl⟩
        · exact .inr ⟨hmL, hgarbage, hmem, fun heq => hnotin (heq ▸ hmem), hned⟩
      · rw [if_neg hml] at hm he
        have hsource := h.source m hm hem e he
        refine .inr ⟨hmL, hm, he, ?_, ?_⟩
        · rintro rfl
          exact hmL (hsource.symm.trans hsourcen)
        · rintro rfl
          exact hml (hsource.symm.trans hsourced)
  -- the ways over landings that are not nodes
  have hstep : ∀ a b, s.next a = some b → (s.merged l d next).next a = some b ∨
      ∃ c, s.next b = some c ∧ (s.merged l d next).next b = some c ∧ (s.merged l d next).next a = some c := by
    intro a b hab
    have hnextd : s.next d = some next := next_of_identity hkind
    have hnextd' : (s.merged l d next).next d = some next := by
      unfold State.next
      rw [hkdesc, if_pos rfl]
    by_cases haL : (s.desc a).landing = L
    · left
      have hka : s.kind a = .identity next := by
        unfold State.kind
        rw [haL]
        exact hL
      rw [next_of_identity hka] at hab
      unfold State.next
      rw [hkdesc, if_pos haL]
      exact hab
    · by_cases hal : (s.desc a).landing = l
      · have hka : s.kind a = (s.landing l).kind := by
          unfold State.kind
          rw [hal]
        have hka' : (s.merged l d next).kind a = (s.landing l).kind.replace d next := by
          rw [hkdesc, if_neg haL, if_pos hal]
        cases hl : (s.landing l).kind with
        | node outs =>
          rw [hl] at hka
          unfold State.next at hab
          rw [hka] at hab
          cases hab
        | garbage out =>
          rw [hl] at hgarbage
          cases hgarbage
        | identity out =>
          rw [hl] at hka hka' hout
          rw [next_of_identity hka] at hab
          cases hab
          obtain rfl : d = b := mem_singleton.1 hout
          refine .inr ⟨next, hnextd, hnextd', next_of_identity ?_⟩
          rw [hka']
          exact congrArg Kind.identity (if_pos rfl)
      · left
        unfold State.next at hab ⊢
        rw [hkdesc, if_neg haL, if_neg hal]
        exact hab
  refine ⟨fun e he => ?_, fun m hm => ?_, h.input, fun e he => ?_, fun m e he => ?_, fun m => ?_,
    fun m hm hem e he => ?_, fun m hm hem e he => ?_, fun e he f hf hef hce hcf hke => ?_, fun m hm => ?_,
    h.final_lt, fun e he => ?_⟩
  · have hlt : ∀ x, x < s.descs → e ≠ x := fun x hx => Nat.ne_of_gt (Nat.lt_of_lt_of_le hx he)
    rw [merged_desc_of_ne (hlt d hd) (hlt next hnext)]
    exact h.fresh e he
  · have hlt : ∀ x, x < s.landings → m ≠ x := fun x hx => Nat.ne_of_gt (Nat.lt_of_lt_of_le hx hm)
    rw [merged_landing_of_ne (hlt l hllt) (hlt L hLlt)]
    exact h.freshLanding m hm
  · rw [merged_desc_land]
    exact h.landing_lt e he
  · rw [hk] at he
    by_cases hmL : m = L
    · rw [if_pos hmL] at he
      rw [mem_singleton.1 he]
      exact hnext
    · rw [if_neg hmL] at he
      by_cases hml : m = l
      · rw [if_pos hml] at he
        rcases mem_replace hgarbage he with ⟨rfl, -⟩ | ⟨hmem, -⟩
        · exact hnext
        · exact h.out_lt l e hmem
      · rw [if_neg hml] at he
        exact h.out_lt m e he
  · rw [hk]
    split
    · exact nodup_singleton next
    · split
      · exact nodup_replace (h.nodup l) hnotin
      · exact h.nodup m
  · rw [merged_ended] at hem
    rcases houts m hm hem e he with ⟨rfl, rfl⟩ | ⟨-, hm', hmem, hen, -⟩
    · rw [merged_desc_next]
      exact hsourced
    · rw [merged_desc_source hen]
      exact h.source m hm' hem e hmem
  · rw [merged_ended] at hem
    have hlive : (s.kind e).isGarbage = false ∧ (s.desc e).landing ≠ L := by
      rcases houts m hm hem e he with ⟨rfl, rfl⟩ | ⟨-, hm', hmem, -, hed⟩
      · exact ⟨hliven, hland⟩
      · refine ⟨h.live m hm' hem e hmem, fun heq => hed ?_⟩
        have helt := h.out_lt m e hmem
        refine h.sole e helt d hd heq (hothers e helt ⟨m, hm', hem, hmem⟩) hopen ?_
        unfold State.kind
        rw [heq, hL]
        rfl
    rw [hkdesc, if_neg hlive.2]
    split
    · rw [replace_isGarbage]
      exact hgarbage
    · exact hlive.1
  · rw [merged_desc_land, merged_desc_land] at hef
    rw [hisNode'] at hke
    exact h.sole e he f hf hef (hstill e hce) (hstill f hcf) hke
  · rw [merged_ended] at hm
    refine ⟨(hisNode m).trans (h.ended m hm).1, fun e he hem => ?_⟩
    rw [merged_desc_land] at hem
    exact ((h.ended m hm).2 e he hem).imp_right (hmore e)
  · obtain ⟨hlead, hnode⟩ := h.final e he
    exact ⟨hlead.shortcut hstep (next_eq_none hnode), (hisNode' _).trans hnode⟩

theorem Net.identified (h : Net s) {l d out : Nat} {item : Option R} (hkind : (s.landing l).kind = .node [out])
    (hclosed : ClosedTo s l [d]) (hfinal : (s.desc (s.final out)).landing ≠ l) : Net (s.identified l d out item) := by
  have hmem : out ∈ (s.landing l).kind.outs := by
    rw [hkind]
    exact mem_singleton.2 rfl
  have hout : out < s.descs := h.out_lt l out hmem
  have hllt : l < s.landings := h.lt_of_out hmem
  have hended : (s.landing l).ended = false := h.ended_of_node hkind
  let t := s.setKind l (.identity out)
  have hkt : ∀ e, (s.identified l d out item).kind e = t.kind e := fun _ => rfl
  have hland : ∀ m, (s.identified l d out item).landing m = t.landing m := fun _ => rfl
  have hkindl : (t.landing l).kind = .identity out := setKind_kind _
  have hkinde : ∀ e, t.kind e = if (s.desc e).landing = l then .identity out else s.kind e :=
    setKind_desc_kind _
  have hwas : ∀ e, (s.desc e).landing = l → s.kind e = .node [out] := by
    intro e he
    unfold State.kind
    rw [he]
    exact hkind
  have houts : ∀ m, (t.landing m).kind.outs = (s.landing m).kind.outs := by
    intro m
    by_cases hm : m = l
    · rw [hm, hkindl, hkind]
      rfl
    · rw [setKind_kind_of_ne hm]
  have hgarbage : ∀ m, (t.landing m).kind.isGarbage = (s.landing m).kind.isGarbage := by
    intro m
    by_cases hm : m = l
    · rw [hm, hkindl, hkind]
      rfl
    · rw [setKind_kind_of_ne hm]
  have hgarbage' : ∀ e, (t.kind e).isGarbage = (s.kind e).isGarbage := fun e => hgarbage _
  have hstep : ∀ a b, s.next a = some b → (s.identified l d out item).next a = some b := by
    intro a b hab
    have ha : (s.desc a).landing ≠ l := by
      intro heq
      unfold State.next at hab
      rw [hwas a heq] at hab
      cases hab
    unfold State.next at hab ⊢
    rw [hkt, hkinde, if_neg ha]
    exact hab
  refine ⟨h.fresh, fun m hm => ?_, h.input, h.landing_lt, fun m e he => ?_, fun m => ?_, fun m hm hem e he => ?_,
    fun m hm hem e he => ?_, fun e he f hf hef hce hcf hke => ?_, fun m hm => ?_, fun e he => ?_, fun e he => ?_⟩
  · rw [hland, setKind_kind_of_ne (Nat.ne_of_gt (Nat.lt_of_lt_of_le hllt hm))]
    exact h.freshLanding m hm
  · rw [hland, houts] at he
    exact h.out_lt m e he
  · rw [hland, houts]
    exact h.nodup m
  · rw [hland, hgarbage] at hm
    rw [hland, setKind_ended] at hem
    rw [hland, houts] at he
    exact h.source m hm hem e he
  · rw [hland, hgarbage] at hm
    rw [hland, setKind_ended] at hem
    rw [hland, houts] at he
    rw [hkt, hgarbage']
    exact h.live m hm hem e he
  · change (s.desc e).landing = (s.desc f).landing at hef
    by_cases hel : (s.desc e).landing = l
    · rcases hclosed e he hel with hed | htrue
      · rcases hclosed f hf (hef ▸ hel) with hfd | htrue
        · rw [mem_singleton.1 hed, mem_singleton.1 hfd]
        · exact absurd (hcf.symm.trans htrue) Bool.false_ne_true
      · exact absurd (hce.symm.trans htrue) Bool.false_ne_true
    · rw [hkt, hkinde, if_neg hel] at hke
      exact h.sole e he f hf hef hce hcf hke
  · rw [hland, setKind_ended] at hm
    have hml : m ≠ l := by
      rintro rfl
      rw [hended] at hm
      cases hm
    rw [hland, setKind_kind_of_ne hml]
    exact h.ended m hm
  · change (if (s.desc (s.final e)).landing = l then s.final out else s.final e) < s.descs
    split
    · exact h.final_lt out hout
    · exact h.final_lt e he
  · have hnode : ∀ x, (s.kind x).isNode = true → (s.desc x).landing ≠ l →
        ((s.identified l d out item).kind x).isNode = true := by
      intro x hx hxl
      rw [hkt, hkinde, if_neg hxl]
      exact hx
    obtain ⟨hlead, hend⟩ := h.final e he
    change Leads _ e (if (s.desc (s.final e)).landing = l then s.final out else s.final e) ∧
      ((s.identified l d out item).kind (if (s.desc (s.final e)).landing = l then s.final out else s.final e)).isNode =
        true
    by_cases hel : (s.desc (s.final e)).landing = l
    · rw [if_pos hel]
      obtain ⟨hlead', hend'⟩ := h.final out hout
      refine ⟨(hlead.mono hstep).trans (.head ?_ (hlead'.mono hstep)), hnode _ hend' hfinal⟩
      refine next_of_identity ?_
      rw [hkt, hkinde, if_pos hel]
    · rw [if_neg hel]
      exact ⟨hlead.mono hstep, hnode _ hend hel⟩

/-! ## Locks -/

theorem setLock_lock (s : State W R) (l m : Nat) (x : Option W) :
    ((s.setLock l x).landing m).lock = if m = l then x else (s.landing m).lock := by
  by_cases hm : m = l
  · subst hm
    simp [State.setLock]
  · rw [if_neg hm]
    exact congrArg Landing.lock (update_of_ne hm _ _)

theorem setLock_kind (s : State W R) (l m : Nat) (x : Option W) :
    ((s.setLock l x).landing m).kind = (s.landing m).kind := by
  by_cases hm : m = l
  · subst hm
    simp [State.setLock]
  · exact congrArg Landing.kind (update_of_ne hm _ _)

theorem Locks.change (h : Locks s) {w : W} {pc : Pc R} (hpc : (t.worker w).pc = pc)
    (hother : ∀ v, v ≠ w → (t.worker v).pc = (s.worker v).pc)
    (hland : ∀ d, (t.desc d).landing = (s.desc d).landing)
    (hkind : ∀ l, (t.landing l).kind = (s.landing l).kind)
    (hlocked : ∀ l, (t.landing l).lock ≠ none → (s.landing l).lock ≠ none ∨ (s.landing l).kind.isGarbage = false)
    (hkeep : ∀ v l, v ≠ w → (s.landing l).lock = some v → (t.landing l).lock = some v)
    (hplace : ∀ l ∈ pc.places fun d => (s.desc d).landing, (t.landing l).lock = some w)
    (hnodup : (pc.places fun d => (s.desc d).landing).Nodup)
    (hforward : ∀ d item, pc = .forwarding d item → ∃ e, s.kind d = .identity e) : Locks t := by
  subst hpc
  have hland' : (fun d => (t.desc d).landing) = fun d => (s.desc d).landing := funext hland
  have hdesc : ∀ d, t.kind d = s.kind d := by
    intro d
    unfold State.kind
    rw [hland, hkind]
  refine ⟨fun l hl => ?_, fun v l hl => ?_, fun v => ?_, fun v d item hv => ?_⟩
  · rw [hkind]
    exact (hlocked l hl).elim (h.locked l) id
  · unfold State.places at hl
    rw [hland'] at hl
    by_cases hv : v = w
    · subst hv
      exact hplace l hl
    · rw [hother v hv] at hl
      exact hkeep v l hv (h.place v l hl)
  · unfold State.places
    rw [hland']
    by_cases hv : v = w
    · subst hv
      exact hnodup
    · rw [hother v hv]
      exact h.nodup v
  · rw [hdesc]
    by_cases hvw : v = w
    · subst hvw
      exact hforward d item hv
    · rw [hother v hvw] at hv
      exact h.forwarding v d item hv

section change

variable {w : W} {pc : Pc R} (h : Locks s) (hpc : (t.worker w).pc = pc)
  (hother : ∀ v, v ≠ w → (t.worker v).pc = (s.worker v).pc)
  (hland : ∀ d, (t.desc d).landing = (s.desc d).landing)
  (hkind : ∀ l, (t.landing l).kind = (s.landing l).kind)
  (hforward : ∀ d item, pc = .forwarding d item → ∃ e, s.kind d = .identity e)

include h hpc hother hland hkind hforward

theorem Locks.keep (hlock : ∀ l, (t.landing l).lock = (s.landing l).lock)
    (hsub : (pc.places fun d => (s.desc d).landing).Sublist (s.places w)) : Locks t :=
  h.change hpc hother hland hkind (fun l hl => .inl (hlock l ▸ hl)) (fun _ l _ hl => (hlock l).trans hl)
    (fun l hl => (hlock l).trans (h.place w l (hsub.subset hl))) (hsub.nodup (h.nodup w)) hforward

theorem Locks.take {m : Nat}
    (hlock : ∀ l, (t.landing l).lock = if l = m then some w else (s.landing l).lock)
    (hfree : (s.landing m).lock = none) (hgarbage : (s.landing m).kind.isGarbage = false)
    (hsub : ∀ l ∈ pc.places fun d => (s.desc d).landing, l = m ∨ l ∈ s.places w)
    (hnodup : (pc.places fun d => (s.desc d).landing).Nodup) : Locks t := by
  refine h.change hpc hother hland hkind (fun l hl => ?_) (fun v l _ hl => ?_) (fun l hl => ?_) hnodup hforward
  · by_cases hlm : l = m
    · exact .inr (hlm ▸ hgarbage)
    · rw [hlock, if_neg hlm] at hl
      exact .inl hl
  · rw [hlock, if_neg]
    · exact hl
    · rintro rfl
      rw [hfree] at hl
      cases hl
  · rw [hlock]
    split
    · rfl
    · next hlm => exact h.place w l ((hsub l hl).resolve_left hlm)

theorem Locks.leave {m : Nat}
    (hlock : ∀ l, (t.landing l).lock = if l = m then none else (s.landing l).lock)
    (hplaces : s.places w = m :: pc.places fun d => (s.desc d).landing) : Locks t := by
  have hnodup := h.nodup w
  rw [hplaces, nodup_cons] at hnodup
  have hm := h.place w m (hplaces ▸ mem_cons_self)
  refine h.change hpc hother hland hkind (fun l hl => ?_) (fun v l hv hl => ?_) (fun l hl => ?_) hnodup.2 hforward
  · by_cases hlm : l = m
    · rw [hlock, if_pos hlm] at hl
      exact absurd rfl hl
    · rw [hlock, if_neg hlm] at hl
      exact .inl hl
  · rw [hlock, if_neg]
    · exact hl
    · rintro rfl
      rw [hm] at hl
      exact hv (Option.some.inj hl).symm
  · rw [hlock, if_neg]
    · exact h.place w l (hplaces ▸ mem_cons_of_mem _ hl)
    · rintro rfl
      exact hnodup.1 hl

end change

theorem Locks.kinds (h : Locks s) (hpc : ∀ v, (t.worker v).pc = (s.worker v).pc)
    (hland : ∀ v, ∀ d ∈ (s.worker v).pc.descs, (t.desc d).landing = (s.desc d).landing)
    (hlock : ∀ l, (t.landing l).lock = (s.landing l).lock)
    (hlocked : ∀ l, (s.landing l).lock ≠ none → (t.landing l).kind.isGarbage = false)
    (hforward : ∀ v d item, (s.worker v).pc = .forwarding d item → ∃ e, t.kind d = .identity e) : Locks t := by
  have hplaces : ∀ v, t.places v = s.places v := by
    intro v
    unfold State.places
    rw [hpc]
    have hv := hland v
    cases hp : (s.worker v).pc with
    | idle | passing _ _ | looting _ _ _ => rfl
    | reading d =>
      rw [hp] at hv
      simp only [Pc.places, hv d mem_cons_self]
    | forwarding d item =>
      rw [hp] at hv
      simp only [Pc.places, hv d mem_cons_self]
    | serving l dn cont =>
      cases cont with
      | none => rfl
      | some c =>
        rw [hp] at hv
        have hc : c.1 ∈ (Pc.serving l dn (some c) : Pc R).descs := mem_append_right _ mem_cons_self
        simp only [Pc.places, Option.map_some, hv c.1 hc]
    | releasing d cont =>
      cases cont with
      | none => rfl
      | some c =>
        rw [hp] at hv
        have hc : c.1 ∈ (Pc.releasing d (some c) : Pc R).descs := mem_cons_of_mem _ mem_cons_self
        simp only [Pc.places, Option.map_some, hv c.1 hc]
  refine ⟨fun l hl => ?_, fun v l hl => ?_, fun v => ?_, fun v d item hv => ?_⟩
  · rw [hlock] at hl
    exact hlocked l hl
  · rw [hplaces] at hl
    rw [hlock]
    exact h.place v l hl
  · rw [hplaces]
    exact h.nodup v
  · rw [hpc] at hv
    exact hforward v d item hv

section steps

variable [DecidableEq W]

theorem setPc_pc (t : State W R) (w : W) (pc : Pc R) : ((t.setPc w pc).worker w).pc = pc := by
  simp [State.setPc]

theorem setPc_pc_of_ne (t : State W R) {v w : W} (hv : v ≠ w) (pc : Pc R) :
    ((t.setPc w pc).worker v).pc = (t.worker v).pc := by
  simp [State.setPc, update_of_ne hv]

theorem setItem_pc (t : State W R) (v w : W) (d : Nat) (count : Option Nat) :
    ((t.setItem w d count).worker v).pc = (t.worker v).pc := by
  by_cases hv : v = w
  · subst hv
    simp [State.setItem]
  · simp [State.setItem, update_of_ne hv]

omit [DecidableEq W] in
theorem start_places (s : State W R) (d : Nat) (item : R) :
    (s.start d item).places (fun d => (s.desc d).landing) = [(s.desc d).landing] := by
  unfold State.start
  split <;> rfl

omit [DecidableEq W] in
theorem start_forwarding {d e : Nat} {item item' : R} (hkind : (s.kind d).isGarbage = false)
    (h : s.start d item = .forwarding e item') : ∃ f, s.kind e = .identity f := by
  unfold State.start at h
  split at h
  · cases h
  · next hnode =>
    cases h
    cases hk : s.kind d with
    | node _ =>
      rw [hk] at hnode
      exact absurd rfl hnode
    | identity f => exact ⟨f, rfl⟩
    | garbage _ =>
      rw [hk] at hkind
      cases hkind

variable [Fintype W]

omit [DecidableEq W] in
theorem Inv.garbage_of_place (h : Inv s) {w : W} {l : Nat} (hl : l ∈ s.places w) :
    (s.landing l).kind.isGarbage = false := h.locks.locked l (by
  rw [h.locks.place w l hl]
  exact Option.some_ne_none w)

omit [Fintype W] in
theorem SameNet.put {w : W} {d : Nat} {r : R} (hd : d < s.descs) : SameNet s (s.put w d r) :=
  (SameNet.setQueue hd (fifoPut (s.desc d).fifo r) _).trans (.workers _)

omit [DecidableEq W] [Fintype W] in
theorem SameNet.putGet {w : W} {d : Nat} {r : R} (hnet : Net s) (hd : d < s.descs) :
    SameNet s (s.putGet w d r) := by
  have hset := SameNet.setQueue hd (fifoPutGet (s.desc d).fifo r).2 ((s.desc d).refs + 1)
  have hl : (s.desc d).landing < (s.setDesc d { s.desc d with
      fifo := (fifoPutGet (s.desc d).fifo r).2, refs := (s.desc d).refs + 1 }).landings := hnet.landing_lt d hd
  exact (hset.trans (.setLock hl _)).trans (.receive _ _)

omit [Fintype W] in
theorem put_pc {v w : W} {d : Nat} {item : R} : ((s.put w d item).worker v).pc = (s.worker v).pc :=
  setItem_pc _ _ _ _ _

omit [DecidableEq W] [Fintype W] in
theorem putGet_worker {w : W} {d : Nat} {item : R} : (s.putGet w d item).worker = s.worker :=
  State.receive_worker _ _ _

omit [DecidableEq W] [Fintype W] in
theorem putGet_lock {w : W} {d : Nat} {item : R} (l : Nat) :
    ((s.putGet w d item).landing l).lock = if l = (s.desc d).landing then some w else (s.landing l).lock := by
  unfold State.putGet
  rw [State.receive_landing, setLock_lock]
  rfl

theorem Does.net (h : Inv s) (hdo : Does s t) : Net t := by
  cases hdo with
  | input w hpc hlock hnode => exact h.net.same ((SameNet.setLock h.net.input _).trans (.workers _))
  | take w d n hpc hitem hlock hkind =>
    have hd : d < s.descs := (h.known w).item d (by rw [hitem]; exact Option.some_ne_none _)
    exact h.net.same (((SameNet.setLock (h.net.landing_lt d hd) _).trans (.workers _)).trans (.workers _))
  | lead w d next n x hd hkind hlic hpc hpc' hknown =>
    exact h.net.same ((SameNet.letGo hd (h.counts.closed d hd) n).trans (.workers _))
  | move worker hlic hpc hknown => exact h.net.same (.workers _)
  | read w d item rest hpc hfifo =>
    have hd : d < s.descs := (h.known w).pc d (by rw [hpc]; exact mem_cons_self)
    exact h.net.same (((SameNet.setQueue hd rest (s.desc d).refs).trans (.receive _ _)).trans (.workers _))
  | merge w l d next hwriter hout hkind hlock =>
    have hwrites := h.out hwriter hout
    exact h.net.merged hwrites.ended hwrites.garbage hout hkind (hwrites.landing_ne hlock)
      (h.open_of_other hwrites.lt hwrites.other)
      fun e he ⟨m, hm, hem, hmem⟩ => h.open_of_other he (h.other_of_out hmem hem)
  | write w l d cont out item hpc hnode hout =>
    exact h.net.same ((SameNet.put (h.net.out_lt l out hout)).trans (.note _ _))
  | writeGo w l d out item hpc hnode hout hlock =>
    exact h.net.same (((SameNet.putGet h.net (h.net.out_lt l out hout)).trans (.note _ _)).trans (.workers _))
  | forward w d out item hpc hkind =>
    have hout : out ∈ (s.landing (s.desc d).landing).kind.outs := outs_of_identity hkind
    exact h.net.same ((SameNet.put (h.net.out_lt _ out hout)).trans (.workers _))
  | forwardGo w d out item hpc hkind hlock =>
    have hout : out ∈ (s.landing (s.desc d).landing).kind.outs := outs_of_identity hkind
    exact h.net.same ((SameNet.putGet h.net (h.net.out_lt _ out hout)).trans (.workers _))
  | open_ w l outs land hwriter hkind hland =>
    have hl : l < s.landings := h.net.lt_of_lock (h.writer_eq hwriter).2
    exact h.net.opened hkind hl hland
  | close l d outs hkind hd =>
    have hmem : d ∈ (s.landing l).kind.outs := by
      rw [hkind]
      exact hd
    have hnodup := h.net.nodup l
    rw [hkind] at hnodup
    have hnet : Net (s.setKind l (.node (outs.erase d))) :=
      h.net.setOuts _ hkind (h.net.lt_of_out hmem) (hnodup.erase d) fun e he => .inl (mem_of_mem_erase he)
    have hdlt := h.net.out_lt l d hmem
    exact hnet.same (SameNet.letGo (s := s.setKind l (.node (outs.erase d))) hdlt (h.counts.closed d hdlt) 1)
  | end_ l d hkind hended hclosed =>
    have hdlt : d < s.descs := h.net.out_lt l d (by
      rcases hkind with hkind | hkind <;> rw [hkind] <;> exact mem_singleton.2 rfl)
    exact (h.net.end_ hkind hclosed).same (SameNet.letGo (s := s.end_ l) hdlt (h.counts.closed d hdlt) 1)
  | becomeIdentity w l d out cont item pc hpc hkind hland hclosed hfinal hpc' =>
    exact (h.net.identified hkind hclosed hfinal).same (.workers _)
  | addContext w l d hpc => exact (h.net.addLanding w).same (.workers _)
  | context w l m d hpc hm hlock hnode => exact h.net.same ((SameNet.setLock hm _).trans (.workers _))
  | unlock l hplace => exact h.net.same (.unlock h.net l)
  | finishInput w l hpc => exact h.net.same ((SameNet.unlock h.net l).trans (.workers _))
  | finish w l d cont hpc => exact h.net.same ((SameNet.unlock h.net l).trans (.workers _))
  | release w d cont hpc =>
    have hd : d < s.descs := (h.known w).pc d (by rw [hpc]; exact mem_cons_self)
    exact h.net.same ((SameNet.letGo hd (h.counts.closed d hd) 1).trans (.workers _))

/-- A worker that writes for landing `l` goes on under the lock of the descriptor written to. -/
theorem Inv.locks_putGet (h : Inv s) {u : State W R} {w : W} {l d out : Nat} {item : R}
    (hout : Out s w l out) (hfree : s.lockOf out = none) (hplaces : s.places w = [l])
    (hworker : u.worker = s.worker)
    (hlock : ∀ m, (u.landing m).lock = if m = (s.desc out).landing then some w else (s.landing m).lock)
    (hsame : SameNet s u) : Locks (u.setPc w (.serving l (some d) (some (out, item)))) := by
  have hne : l ≠ (s.desc out).landing := (hout.landing_ne hfree).symm
  refine h.locks.take (setPc_pc _ _ _) (fun v hv => (setPc_pc_of_ne _ hv _).trans ?_) hsame.land hsame.kind nofun
    hlock hfree hout.live (fun m hm => ?_) ?_
  · exact congrArg (fun f : W → Worker R => (f v).pc) hworker
  · rw [hplaces]
    rcases mem_cons.1 hm with rfl | hm
    · exact .inr mem_cons_self
    · exact .inl (mem_singleton.1 hm)
  · exact nodup_cons.2 ⟨fun hm => hne (mem_singleton.1 hm), nodup_singleton _⟩

omit [DecidableEq W] [Fintype W] in
theorem Locks.setKind_locked (h : Locks s) {l m : Nat} {k : Kind} (hk : k.isGarbage = false)
    (hm : (s.landing m).lock ≠ none) : ((s.setKind l k).landing m).kind.isGarbage = false := by
  by_cases hml : m = l
  · rw [hml, setKind_kind]
    exact hk
  · rw [setKind_kind_of_ne hml]
    exact h.locked m hm

theorem Does.locks (h : Inv s) (hdo : Does s t) : Locks t := by
  cases hdo with
  | input w hpc hlock hnode =>
    have hgarbage : (s.landing 0).kind.isGarbage = false := by
      cases hk : (s.landing 0).kind with
      | node _ | identity _ => rfl
      | garbage _ =>
        rw [hk] at hnode
        cases hnode
    exact h.locks.take (setPc_pc _ _ _) (fun v hv => setPc_pc_of_ne _ hv _) (fun _ => rfl)
      (fun l => setLock_kind s 0 l _) nofun (fun l => setLock_lock s 0 l _) hlock hgarbage
      (fun l hl => .inl (mem_singleton.1 hl)) (nodup_singleton 0)
  | take w d n hpc hitem hlock hkind =>
    exact h.locks.take (setPc_pc _ _ _) (fun v hv => (setPc_pc_of_ne _ hv _).trans (setItem_pc _ _ _ _ _))
      (fun _ => rfl) (fun l => setLock_kind s _ l _) nofun (fun l => setLock_lock s _ l _) hlock hkind
      (fun l hl => .inl (mem_singleton.1 hl)) (nodup_singleton _)
  | lead w d next n x hd hkind hlic hpc hpc' hknown =>
    have hquiet : ∀ pc : Pc R, pc.quiet = true → pc.places (fun d => (s.desc d).landing) = [] := by
      intro pc hpc
      cases pc with
      | idle | passing _ _ | looting _ _ _ => rfl
      | reading _ | serving _ _ _ | forwarding _ _ | releasing _ _ => cases hpc
    have hx : (((s.letGo d n).setWorker w x).worker w).pc = x.pc := by simp
    refine h.locks.keep hx (fun v hv => by simp [update_of_ne hv, State.letGo])
      (SameNet.letGo hd (h.counts.closed d hd) n).land (fun _ => rfl) (fun d item hf => ?_) (fun _ => rfl) ?_
    · rw [hf] at hpc'
      cases hpc'
    · rw [hquiet _ hpc']
      exact nil_sublist _
  | move worker hlic hpc hknown =>
    have hplaces : ∀ v, ({ s with worker := worker } : State W R).places v = s.places v := by
      intro v
      unfold State.places
      rcases hpc v with heq | ⟨h1, h2⟩
      · exact congrArg (Pc.places fun d => (s.desc d).landing) heq
      · change (worker v).pc.places _ = _
        cases hp : (s.worker v).pc with
        | reading _ | serving _ _ _ | forwarding _ _ | releasing _ _ =>
          rw [hp] at h1
          cases h1
        | idle | passing _ _ | looting _ _ _ =>
          cases hp' : (worker v).pc with
          | reading _ | serving _ _ _ | forwarding _ _ | releasing _ _ =>
            rw [hp'] at h2
            cases h2
          | idle | passing _ _ | looting _ _ _ => rfl
    refine ⟨h.locks.locked, fun v l hl => h.locks.place v l (hplaces v ▸ hl), fun v => ?_, fun v d item hv => ?_⟩
    · rw [hplaces]
      exact h.locks.nodup v
    · rcases hpc v with heq | ⟨-, h2⟩
      · exact h.locks.forwarding v d item (heq.symm.trans hv)
      · rw [show (worker v).pc = .forwarding d item from hv] at h2
        cases h2
  | read w d item rest hpc hfifo =>
    have hd : d < s.descs := (h.known w).pc d (by rw [hpc]; exact mem_cons_self)
    have hplaces : s.places w = [(s.desc d).landing] := by
      unfold State.places
      rw [hpc]
      rfl
    have hsame := (SameNet.setQueue hd rest (s.desc d).refs).trans (.receive d item)
    refine h.locks.keep (setPc_pc _ _ _) (fun v hv => (setPc_pc_of_ne _ hv _).trans ?_) hsame.land hsame.kind
      (fun e item' hf => start_forwarding (h.garbage_of_place (w := w) (l := (s.desc d).landing) ?_) hf) (fun l => ?_) ?_
    · rw [State.receive_worker]
      rfl
    · rw [hplaces]
      exact mem_cons_self
    · exact congrArg (fun f : Nat → Landing W => (f l).lock) (State.receive_landing _ d item)
    · rw [start_places, hplaces]
  | merge w l d next hwriter hout hkind hlock =>
    have hwrites := h.out hwriter hout
    have hk : ∀ m, (s.landing m).lock ≠ none → ((s.merged l d next).landing m).kind =
        if m = l then (s.landing l).kind.replace d next else (s.landing m).kind := by
      intro m hm
      have hmd : m ≠ (s.desc d).landing := by
        rintro rfl
        exact hm hlock
      by_cases hml : m = l
      · rw [if_pos hml, hml, merged_landing]
      · rw [if_neg hml, merged_landing_of_ne hml hmd]
    refine h.locks.kinds (fun _ => rfl) (fun _ e _ => merged_desc_land e) merged_lock (fun m hm => ?_)
      fun v e item hv => ?_
    · rw [hk m hm]
      split
      · rw [replace_isGarbage]
        exact hwrites.garbage
      · exact h.locks.locked m hm
    · obtain ⟨f, hf⟩ := h.locks.forwarding v e item hv
      have hplace : (s.desc e).landing ∈ s.places v := by
        unfold State.places
        rw [hv]
        exact mem_cons_self
      have hm : (s.landing (s.desc e).landing).lock ≠ none := by
        rw [h.locks.place v _ hplace]
        exact Option.some_ne_none v
      unfold State.kind
      rw [merged_desc_land, hk _ hm]
      split
      · next heq =>
        rw [← heq, show (s.landing (s.desc e).landing).kind = .identity f from hf]
        exact ⟨_, rfl⟩
      · exact ⟨f, hf⟩
  | write w l dn cont out item hpc hnode hout =>
    have hsame := (SameNet.put (w := w) (r := item) (h.net.out_lt l out hout)).trans (.note (s.final out) [item])
    refine h.locks.keep (w := w) put_pc (fun v _ => put_pc) hsame.land hsame.kind (fun d r hf => ?_) (fun _ => rfl)
      (List.Sublist.refl _)
    rw [hpc] at hf
    cases hf
  | writeGo w l d out item hpc hnode hout hlock =>
    have hwrites := h.out (writer_of_serving hpc hnode) hout
    have hplaces : s.places w = [l] := by
      unfold State.places
      rw [hpc]
      rfl
    have hsame := (SameNet.putGet (w := w) (r := item) h.net hwrites.lt).trans (.note (s.final out) [item])
    exact h.locks_putGet hwrites hlock hplaces putGet_worker putGet_lock hsame
  | forward w d out item hpc hkind =>
    have hout : out ∈ (s.landing (s.desc d).landing).kind.outs := outs_of_identity hkind
    have hsame := SameNet.put (w := w) (r := item) (h.net.out_lt _ out hout)
    refine h.locks.keep (setPc_pc _ _ _) (fun v hv => (setPc_pc_of_ne _ hv _).trans put_pc) hsame.land hsame.kind
      nofun (fun _ => rfl) ?_
    unfold State.places
    rw [hpc]
    exact List.Sublist.refl _
  | forwardGo w d out item hpc hkind hlock =>
    have hout : out ∈ (s.landing (s.desc d).landing).kind.outs := outs_of_identity hkind
    have hwrites := h.out (writer_of_forwarding hpc) hout
    have hplaces : s.places w = [(s.desc d).landing] := by
      unfold State.places
      rw [hpc]
      rfl
    have hsame := SameNet.putGet (w := w) (r := item) h.net hwrites.lt
    exact h.locks_putGet hwrites hlock hplaces putGet_worker putGet_lock hsame
  | open_ w l outs land hwriter hkind hland =>
    have hdesc : ∀ e, e < s.descs → (s.opened l outs land).desc e = s.desc e :=
      fun e he => update_of_ne (Nat.ne_of_lt he) _ _
    refine h.locks.kinds (fun _ => rfl) (fun v e he => congrArg Desc.landing (hdesc e ((h.known v).pc e he)))
      (setKind_lock _) (fun m hm => ?_) fun v e item hv => ?_
    · exact h.locks.setKind_locked rfl hm
    · obtain ⟨f, hf⟩ := h.locks.forwarding v e item hv
      have he : e < s.descs := (h.known v).pc e (by rw [hv]; exact mem_cons_self)
      have hel : (s.desc e).landing ≠ l := by
        intro heq
        unfold State.kind at hf
        rw [heq, hkind] at hf
        cases hf
      refine ⟨f, ?_⟩
      unfold State.kind
      rw [hdesc e he]
      exact (congrArg Landing.kind (setKind_kind_of_ne hel)).trans hf
  | close l d outs hkind hd =>
    have hdlt : d < s.descs := h.net.out_lt l d (by rw [hkind]; exact hd)
    have hsame := SameNet.letGo (s := s.setKind l (.node (outs.erase d))) hdlt (h.counts.closed d hdlt) 1
    refine h.locks.kinds (fun _ => rfl) (fun _ e _ => hsame.land e) (setKind_lock _) (fun m hm => ?_)
      fun v e item hv => ?_
    · exact h.locks.setKind_locked rfl hm
    · obtain ⟨f, hf⟩ := h.locks.forwarding v e item hv
      rw [hsame.desc_kind, setKind_desc_kind, if_neg]
      · exact ⟨f, hf⟩
      · intro heq
        unfold State.kind at hf
        rw [heq, hkind] at hf
        cases hf
  | end_ l d hkind hended hclosed =>
    have hdlt : d < s.descs := h.net.out_lt l d (by
      rcases hkind with hkind | hkind <;> rw [hkind] <;> exact mem_singleton.2 rfl)
    have hsame := SameNet.letGo (s := s.end_ l) hdlt (h.counts.closed d hdlt) 1
    have hland : ∀ m, ((s.end_ l).landing m).kind = (s.landing m).kind ∧
        ((s.end_ l).landing m).lock = (s.landing m).lock := by
      intro m
      by_cases hm : m = l
      · subst hm
        simp [State.end_]
      · simp [State.end_, update_of_ne hm]
    refine h.locks.kinds (fun _ => rfl) (fun _ e _ => hsame.land e) (fun m => (hland m).2) (fun m hm => ?_)
      fun v e item hv => ?_
    · exact (congrArg Kind.isGarbage (hland m).1).trans (h.locks.locked m hm)
    · obtain ⟨f, hf⟩ := h.locks.forwarding v e item hv
      rw [hsame.desc_kind]
      exact ⟨f, (hland _).1.trans hf⟩
  | becomeIdentity w l d out cont item pc hpc hkind hland hclosed hfinal hpc' =>
    have hplaces : s.places w = l :: (cont.map fun c => (s.desc c.1).landing).toList := by
      unfold State.places
      rw [hpc]
      rfl
    have hplaces' : pc.places (fun d => (s.desc d).landing) = s.places w := by
      rw [hplaces]
      rcases hpc' with ⟨-, rfl⟩ | ⟨r, -, rfl, rfl⟩
      · rfl
      · exact congrArg (fun m => [m]) hland
    have hk : ∀ e, ((s.identified l d out item).setPc w pc).kind e =
        if (s.desc e).landing = l then .identity out else s.kind e := setKind_desc_kind _
    have hid : ∀ v e r, (s.worker v).pc = .forwarding e r →
        ∃ f, ((s.identified l d out item).setPc w pc).kind e = .identity f := by
      intro v e r hv
      rw [hk]
      split
      · exact ⟨out, rfl⟩
      · exact h.locks.forwarding v e r hv
    have hother : ∀ v, v ≠ w → (((s.identified l d out item).setPc w pc).worker v).pc = (s.worker v).pc :=
      fun v hv => setPc_pc_of_ne _ hv _
    have hsame : ∀ v, ((s.identified l d out item).setPc w pc).places v = s.places v := by
      intro v
      by_cases hv : v = w
      · subst hv
        rw [← hplaces']
        exact congrArg (Pc.places fun d => (s.desc d).landing) (setPc_pc _ _ _)
      · exact congrArg (Pc.places fun d => (s.desc d).landing) (hother v hv)
    refine ⟨fun m hm => ?_, fun v m hm => ?_, fun v => ?_, fun v e r hv => ?_⟩
    · rw [show (((s.identified l d out item).setPc w pc).landing m).lock = (s.landing m).lock from
        setKind_lock _ m] at hm
      by_cases hml : m = l
      · subst hml
        exact congrArg Kind.isGarbage (setKind_kind _)
      · exact (congrArg (fun x : Landing W => x.kind.isGarbage) (setKind_kind_of_ne hml)).trans (h.locks.locked m hm)
    · rw [hsame] at hm
      exact (setKind_lock _ m).trans (h.locks.place v m hm)
    · rw [hsame]
      exact h.locks.nodup v
    · by_cases hvw : v = w
      · subst hvw
        rw [setPc_pc] at hv
        rcases hpc' with ⟨-, rfl⟩ | ⟨r', -, -, rfl⟩
        · cases hv
        · cases hv
          rw [hk, if_pos hland]
          exact ⟨out, rfl⟩
      · rw [hother v hvw] at hv
        exact hid v e r hv
  | addContext w l d hpc =>
    have hfresh := h.net.freshLanding s.landings (Nat.le_refl _)
    have hold : ∀ m, (s.addLanding w).landing m = if m = s.landings then ⟨.node [], some w, false⟩ else s.landing m := by
      intro m
      by_cases hm : m = s.landings
      · rw [if_pos hm, hm]
        exact update_self _ _ _
      · rw [if_neg hm]
        exact update_of_ne hm _ _
    refine h.locks.take (m := s.landings) (setPc_pc _ _ _) (fun v hv => setPc_pc_of_ne _ hv _) (fun _ => rfl)
      (fun m => ?_) nofun (fun m => ?_) (by rw [hfresh]) (by rw [hfresh]; rfl)
      (fun m hm => .inl (mem_singleton.1 hm)) (nodup_singleton _)
    · change ((s.addLanding w).landing m).kind = _
      rw [hold]
      split
      · next hm => rw [hm, hfresh]
      · rfl
    · change ((s.addLanding w).landing m).lock = _
      rw [hold]
      split <;> rfl
  | context w l m d hpc hm hlock hnode =>
    have hgarbage : (s.landing m).kind.isGarbage = false := by
      cases hk : (s.landing m).kind with
      | node _ | identity _ => rfl
      | garbage _ =>
        rw [hk] at hnode
        cases hnode
    exact h.locks.take (setPc_pc _ _ _) (fun v hv => setPc_pc_of_ne _ hv _) (fun _ => rfl)
      (fun l => setLock_kind s m l _) nofun (fun l => setLock_lock s m l _) hlock hgarbage
      (fun l hl => .inl (mem_singleton.1 hl)) (nodup_singleton m)
  | unlock l hplace =>
    refine ⟨fun m hm => ?_, fun v m hm => ?_, h.locks.nodup, fun v d item hv => ?_⟩
    · rw [setLock_kind]
      rw [setLock_lock] at hm
      split at hm
      · exact absurd rfl hm
      · exact h.locks.locked m hm
    · rw [setLock_lock, if_neg]
      · exact h.locks.place v m hm
      · rintro rfl
        exact hplace v hm
    · obtain ⟨e, he⟩ := h.locks.forwarding v d item hv
      exact ⟨e, (setLock_kind s l _ none).trans he⟩
  | finishInput w l hpc =>
    refine h.locks.leave (setPc_pc _ _ _) (fun v hv => setPc_pc_of_ne _ hv _) (fun _ => rfl)
      (fun m => setLock_kind s l m _) nofun (fun m => setLock_lock s l m _) ?_
    unfold State.places
    rw [hpc]
    rfl
  | finish w l d cont hpc =>
    refine h.locks.leave (setPc_pc _ _ _) (fun v hv => setPc_pc_of_ne _ hv _) (fun _ => rfl)
      (fun m => setLock_kind s l m _) nofun (fun m => setLock_lock s l m _) ?_
    unfold State.places
    rw [hpc]
    rfl
  | release w d cont hpc =>
    have hd : d < s.descs := (h.known w).pc d (by rw [hpc]; exact mem_cons_self)
    have hplaces : s.places w = (cont.map fun c => (s.desc c.1).landing).toList := by
      unfold State.places
      rw [hpc]
      rfl
    refine h.locks.keep (setPc_pc _ _ _) (fun v hv => setPc_pc_of_ne _ hv _)
      (SameNet.letGo hd (h.counts.closed d hd) 1).land (fun _ => rfl) (fun e item hf => ?_) (fun _ => rfl) ?_
    · cases cont with
      | none => cases hf
      | some c =>
        refine start_forwarding (h.garbage_of_place (w := w) (l := (s.desc c.1).landing) ?_) hf
        rw [hplaces]
        exact mem_singleton.2 rfl
    · cases cont with
      | none => exact nil_sublist _
      | some c =>
        rw [hplaces]
        exact (start_places s c.1 c.2).symm ▸ List.Sublist.refl _

/-! ## What the workers know of -/

omit [DecidableEq W] [Fintype W] in
theorem Worker.Known.mono {x : Worker R} {m n : Nat} (h : x.Known m) (hmn : m ≤ n) : x.Known n :=
  ⟨fun d hd => Nat.lt_of_lt_of_le (h.item d hd) hmn, fun d hd => Nat.lt_of_lt_of_le (h.pc d hd) hmn, h.loot, h.input⟩

omit [DecidableEq W] [Fintype W] in
theorem start_known {d n : Nat} {item : R} {x : Worker R} (h : x.Known n) (hd : d < n) :
    (Worker.mk x.item (s.start d item)).Known n := by
  unfold State.start
  split
  · exact h.setPc (by simpa [Pc.descs, Pc.held] using hd) (by simp) (by simp)
  · exact h.setPc (by simpa [Pc.descs, Pc.held] using hd) (by simp) (by simp)

omit [Fintype W] in
theorem known_of_setPc (h : ∀ v, (t.worker v).Known s.descs) {w : W} {pc : Pc R}
    (hw : (Worker.mk (t.worker w).item pc).Known s.descs) (v : W) : ((t.setPc w pc).worker v).Known s.descs := by
  by_cases hv : v = w
  · subst hv
    rw [show (t.setPc v pc).worker v = ⟨(t.worker v).item, pc⟩ from update_self _ _ _]
    exact hw
  · rw [show (t.setPc w pc).worker v = t.worker v from update_of_ne hv _ _]
    exact h v

omit [Fintype W] in
theorem known_of_setItem (h : ∀ v, (s.worker v).Known s.descs) {w : W} {d n : Nat} (hd : d < s.descs)
    (hloot : ∀ e known c, (s.worker w).pc ≠ .looting e known c) (v : W) :
    ((s.setItem w d (some n)).worker v).Known s.descs := by
  by_cases hv : v = w
  · subst hv
    rw [show (s.setItem v d (some n)).worker v = ⟨update (s.worker v).item d (some n), (s.worker v).pc⟩ from
      update_self _ _ _]
    exact (h v).set hd (h v).pc hloot (h v).input
  · rw [show (s.setItem w d (some n)).worker v = s.worker v from update_of_ne hv _ _]
    exact h v

omit [Fintype W] in
theorem known_put {w : W} {d : Nat} {r : R} (h : ∀ v, (s.worker v).Known s.descs) (hd : d < s.descs)
    (hloot : ∀ e known c, (s.worker w).pc ≠ .looting e known c) (v : W) :
    ((s.put w d r).worker v).Known s.descs :=
  known_of_setItem (s := s) (n := (((s.worker w).item d).getD 0 + 1)) h hd hloot v

theorem Does.known (h : Inv s) (hdo : Does s t) (v : W) : (t.worker v).Known t.descs := by
  cases hdo with
  | input w hpc hlock hnode =>
    have hx : (Worker.mk (s.worker w).item (Pc.serving 0 none none)).Known s.descs :=
      (h.known w).setPc (by simp [Pc.descs, Pc.held]) (by simp) fun _ _ heq => by cases heq; rfl
    exact known_of_setPc (t := s.setLock 0 (some w)) h.known hx v
  | take w d n hpc hitem hlock hkind =>
    have hd : d < s.descs := (h.known w).item d (by rw [hitem]; exact Option.some_ne_none _)
    have hset := known_of_setItem (n := n) h.known hd (w := w) (by simp [hpc])
    have hx : (Worker.mk ((s.setItem w d (some n)).worker w).item (Pc.reading d)).Known s.descs :=
      (hset w).setPc (by simpa [Pc.descs] using hd) (by simp) (by simp)
    exact known_of_setPc (t := (s.setLock (s.desc d).landing (some w)).setItem w d (some n)) hset hx v
  | lead w d next n x hd hkind hlic hpc hpc' hknown =>
    by_cases hv : v = w
    · subst hv
      rw [show ((s.letGo d n).setWorker v x).worker v = x from update_self _ _ _]
      exact hknown
    · rw [show ((s.letGo d n).setWorker w x).worker v = s.worker v from update_of_ne hv _ _]
      exact h.known v
  | move worker hlic hpc hknown => exact hknown v
  | read w d item rest hpc hfifo =>
    have hd : d < s.descs := (h.known w).pc d (by rw [hpc]; exact mem_cons_self)
    have hworker := State.receive_worker (s.setDesc d { s.desc d with fifo := rest }) d item
    have hdescs : ((s.setDesc d { s.desc d with fifo := rest }).receive d item).descs = s.descs :=
      State.receive_descs _ _ _
    rw [show (((s.setDesc d { s.desc d with fifo := rest }).receive d item).setPc w (s.start d item)).descs =
      s.descs from hdescs]
    refine known_of_setPc (fun v => ?_) ?_ v
    · rw [hworker]
      exact h.known v
    · rw [hworker]
      exact start_known (h.known w) hd
  | merge w l d next hwriter hout hkind hlock => exact h.known v
  | write w l dn cont out item hpc hnode hout =>
    exact known_put h.known (h.net.out_lt l out hout) (by simp [hpc]) v
  | writeGo w l d out item hpc hnode hout hlock =>
    have hdescs : (s.putGet w out item).descs = s.descs := State.receive_descs _ _ _
    have hd : d < s.descs := (h.known w).pc d (by rw [hpc]; exact mem_cons_self)
    have hlt := h.net.out_lt l out hout
    rw [show (((s.putGet w out item).note (s.final out) [item]).setPc w
      (.serving l (some d) (some (out, (fifoPutGet (s.desc out).fifo item).1)))).descs = s.descs from hdescs]
    refine known_of_setPc (fun v => ?_) ?_ v
    · change ((s.putGet w out item).worker v).Known _
      rw [putGet_worker]
      exact h.known v
    · change (Worker.mk ((s.putGet w out item).worker w).item _).Known _
      rw [putGet_worker]
      exact (h.known w).setPc (by simp [Pc.descs, Pc.held, hd, hlt]) (by simp) (by simp)
  | forward w d out item hpc hkind =>
    have hout : out ∈ (s.landing (s.desc d).landing).kind.outs := outs_of_identity hkind
    have hd : d < s.descs := (h.known w).pc d (by rw [hpc]; exact mem_cons_self)
    have hput := known_put (w := w) (r := item) h.known (h.net.out_lt _ out hout) (by simp [hpc])
    have hx : (Worker.mk ((s.put w out item).worker w).item
        (Pc.serving (s.desc d).landing (some d) none)).Known s.descs :=
      (hput w).setPc (by simp [Pc.descs, Pc.held, hd]) (by simp) (by simp)
    exact known_of_setPc (t := s.put w out item) hput hx v
  | forwardGo w d out item hpc hkind hlock =>
    have hout : out ∈ (s.landing (s.desc d).landing).kind.outs := outs_of_identity hkind
    have hdescs : (s.putGet w out item).descs = s.descs := State.receive_descs _ _ _
    have hd : d < s.descs := (h.known w).pc d (by rw [hpc]; exact mem_cons_self)
    have hlt := h.net.out_lt _ out hout
    rw [show ((s.putGet w out item).setPc w
      (.serving (s.desc d).landing (some d) (some (out, (fifoPutGet (s.desc out).fifo item).1)))).descs = s.descs
      from hdescs]
    refine known_of_setPc (fun v => ?_) ?_ v
    · rw [putGet_worker]
      exact h.known v
    · rw [putGet_worker]
      exact (h.known w).setPc (by simp [Pc.descs, Pc.held, hd, hlt]) (by simp) (by simp)
  | open_ w l outs land hwriter hkind hland => exact (h.known v).mono (Nat.le_succ _)
  | close l d outs hkind hd => exact h.known v
  | end_ l d hkind hended hclosed => exact h.known v
  | becomeIdentity w l d out cont item pc hpc hkind hland hclosed hfinal hpc' =>
    have hd : d < s.descs := (h.known w).pc d (by rw [hpc]; exact mem_cons_self)
    refine known_of_setPc (t := s.identified l d out item) h.known ?_ v
    rcases hpc' with ⟨-, rfl⟩ | ⟨r, -, -, rfl⟩
    · rw [← hpc]
      exact h.known w
    · exact (h.known w).setPc (by simp [Pc.descs, Pc.held, hd]) (by simp) (by simp)
  | addContext w l d hpc =>
    have hk := (h.known w).pc
    rw [hpc] at hk
    have hx : (Worker.mk (s.worker w).item (Pc.serving s.landings d none)).Known s.descs :=
      (h.known w).setPc hk (by simp) fun _ _ heq => by cases heq; rfl
    exact known_of_setPc (t := s.addLanding w) h.known hx v
  | context w l m d hpc hm hlock hnode =>
    have hk := (h.known w).pc
    rw [hpc] at hk
    have hx : (Worker.mk (s.worker w).item (Pc.serving m d none)).Known s.descs :=
      (h.known w).setPc hk (by simp) fun _ _ heq => by cases heq; rfl
    exact known_of_setPc (t := s.setLock m (some w)) h.known hx v
  | unlock l hplace => exact h.known v
  | finishInput w l hpc =>
    have hx : (Worker.mk (s.worker w).item Pc.idle).Known s.descs :=
      (h.known w).setPc (by simp [Pc.descs, Pc.held]) (by simp) (by simp)
    exact known_of_setPc (t := s.setLock l none) h.known hx v
  | finish w l d cont hpc =>
    have hk := (h.known w).pc
    rw [hpc] at hk
    have hx : (Worker.mk (s.worker w).item (Pc.releasing d cont)).Known s.descs :=
      (h.known w).setPc hk (by simp) (by simp)
    exact known_of_setPc (t := s.setLock l none) h.known hx v
  | release w d cont hpc =>
    have hk := (h.known w).pc
    rw [hpc] at hk
    refine known_of_setPc (t := s.letGo d 1) h.known ?_ v
    cases cont with
    | none => exact (h.known w).setPc (by simp [Pc.descs, Pc.held]) (by simp) (by simp)
    | some c => exact start_known (h.known w) (hk c.1 (mem_cons_of_mem _ mem_cons_self))

end steps

end SNet.Front.Work
