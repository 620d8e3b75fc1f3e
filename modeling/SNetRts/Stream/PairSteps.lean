import SNetRts.Stream.PairInvariant

/-!
# The steps of a pair

Every step of the dispatcher, of an operand and of the collector keeps the invariant, and the collector
fails no assertion. The cases are those of the records that are read.
-/

namespace SNet.Stream.Pair

open Function (update_of_ne update_self)

open Lib Schedule List

variable {D Γ : Type} {arg : ParallelArg D Γ} {input₀ : List (Rec D Γ)} {p : Schedule}
  {s s' : Pair D Γ} {k : Nat}

/-! ## The outer records -/

theorem Reading.skip {num : Nat} {r : Rec D Γ} {input : List (Rec D Γ)}
    (h : Reading num input₀ p (r :: input)) (hr : sortEnds [r] = []) {p' : Schedule}
    (hmarks : p'.marks = p.marks)
    (hstatus : (∃ k < num, ∀ t, p'.status k ≠ .closed t) → ∃ k < num, ∀ t, p.status k ≠ .closed t) :
    Reading num input₀ p' input := by
  refine ⟨fun r hr => h.outer r (mem_cons_of_mem _ hr), hmarks ▸ h.part, fun hopen => ?_⟩
  have hall := h.all (hstatus hopen)
  rw [show r :: input = [r] ++ input from rfl, sortEnds_append, hr, nil_append] at hall
  rw [hmarks]
  exact hall

theorem Reading.own {num : Nat} {input : List (Rec D Γ)} (h : Reading num input₀ p input) (n : Int) :
    Reading num input₀ (p.grow (0, n)) input := by
  have hforward : (p.grow (0, n)).marks.filterMap forward = p.marks.filterMap forward := by
    change (p.marks ++ [(0, n)]).filterMap forward = _
    rw [filterMap_append, filterMap_cons_none rfl]
    exact append_nil _
  refine ⟨h.outer, ?_, fun hopen => ?_⟩
  · rw [hforward]
    exact h.part
  · rw [hforward]
    exact h.all hopen

theorem Reading.raise {num : Nat} {input : List (Rec D Γ)} {level n : Int}
    (h : Reading num input₀ p (.sortEnd level n :: input))
    (hopen : ∃ k < num, ∀ t, p.status k ≠ .closed t) :
    Reading num input₀ (p.grow (level + 1, n)) input := by
  have hlevel : 0 ≤ level := h.outer _ mem_cons_self
  have hforward : (p.grow (level + 1, n)).marks.filterMap forward =
      p.marks.filterMap forward ++ [(level, n)] := by
    have hf : forward (level + 1, n) = some (level, n) := by
      unfold forward
      rw [if_pos (Int.lt_add_one_of_le hlevel), Int.add_sub_cancel]
    change (p.marks ++ [(level + 1, n)]).filterMap forward = _
    rw [filterMap_append, filterMap_cons_some hf]
    rfl
  have hall : p.marks.filterMap forward ++ (level, n) :: sortEnds input = sortEnds input₀ := h.all hopen
  refine ⟨fun r hr => h.outer r (mem_cons_of_mem _ hr), ?_, fun _ => ?_⟩
  · rw [hforward, ← hall]
    exact ⟨sortEnds input, by simp⟩
  · rw [hforward, ← hall]
    simp

/-! ## The dispatcher -/

theorem line_deliver (s : Pair D Γ) (input : List (Rec D Γ)) (box : Option ParallelBox)
    (w : Writes D Γ) (k : Nat) :
    line { s with input, box, inner := deliver w s.inner } k = s.line k ++ addressed w k :=
  (append_assoc ..).symm

theorem Lines.deliver {line : Nat → List (Rec D Γ)} (h : Lines p line) {p' : Schedule}
    (hmembers : p'.members = p.members) {add : Nat → List (Rec D Γ)}
    (hexp : ∀ k ∈ p.members, p'.expected k = p.expected k ++ Pair.signs (add k))
    (htail : ∀ k ∈ p.members, ∀ t, p'.status k = .closed t →
      (add k = [] ∧ p.status k = .closed t) ∨ add k = [.terminate true])
    (hgone : ∀ k, k ∉ p.members → add k = []) : Lines p' fun k => line k ++ add k := by
  refine ⟨fun k hk => ?_, fun k hk t ht => ?_, fun k hk => ?_⟩
  · rw [hmembers] at hk
    rw [signs_append, h.signs k hk, hexp k hk]
  · rw [hmembers] at hk
    rcases htail k hk t ht with ⟨hadd, hs⟩ | hadd
    · rw [hadd, append_nil]
      exact h.tail k hk t hs
    · exact ⟨line k, by rw [hadd]⟩
  · rw [hmembers] at hk
    rw [h.gone k hk, hgone k hk]
    rfl

theorem Boxed.mem_closed {num : Nat} {st : ParallelBox} (h : Boxed num p st) (hok : p.Ok num)
    (hk : k < num) (hmem : k ∉ p.members) : k ∈ st.closed := by
  by_contra hc
  obtain ⟨t, ht, -⟩ := hok.left k hk hmem
  rw [h.opened k hk hc] at ht
  cases ht

theorem Boxed.status_of_closed {num : Nat} {st : ParallelBox} (h : Boxed num p st) (hk : k < num)
    (t : Nat) (ht : p.status k = .closed t) : k ∈ st.closed := by
  by_contra hc
  rw [h.opened k hk hc] at ht
  cases ht

theorem Inv.dispatched (h : Inv arg input₀ p s) {p' : Schedule} (hok : p'.Ok arg.num)
    (hready : p'.ready = p.ready) (hwaiting : p'.waiting = p.waiting) (hdone : p'.done = p.done)
    (hseen : p'.seen = p.seen) (hmarks : p.marks <+: p'.marks) {input : List (Rec D Γ)}
    {box : Option ParallelBox} {w : Writes D Γ}
    (hexp : ∀ k ∈ p.members, p'.expected k = p.expected k ++ Pair.signs (addressed w k))
    (htail : ∀ k ∈ p.members, ∀ t, p'.status k = .closed t →
      (addressed w k = [] ∧ p.status k = .closed t) ∨ addressed w k = [.terminate true])
    (hgone : ∀ k, k ∉ p.members → addressed w k = [])
    (hplain : ∀ k, ∀ r ∈ addressed w k, ∀ output, r ≠ .collect output)
    (hinputs : Inputs arg.num p' { s with input, box, inner := Pair.deliver w s.inner })
    (hreading : Reading arg.num input₀ p' input) :
    Inv arg input₀ p' { s with input, box, inner := Pair.deliver w s.inner } := by
  have hmembers : p'.members = p.members := by
    rw [members, members, hready, hwaiting]
  have hline : line { s with input, box, inner := Pair.deliver w s.inner } =
      fun k => s.line k ++ addressed w k :=
    funext (line_deliver s input box w)
  refine ⟨hok, ?_, ?_, hinputs, hreading, ⟨h.names.nodup, h.names.apart, h.names.fresh⟩, ?_⟩
  · rw [hline]
    exact h.lines.deliver hmembers hexp htail hgone
  · rw [hline]
    exact fun k => List.forall_mem_append.2 ⟨h.plain k, hplain k⟩
  · exact h.coll.extend h.ok hready hwaiting hdone hseen hmarks

def OnlyData (num : Nat) (closed : List Nat) (w : Writes D Γ) : Prop :=
  ∀ k, (∀ r ∈ addressed w k, ∃ d, r = .data d) ∧ (¬ (k < num ∧ k ∉ closed) → addressed w k = [])

theorem signs_of_data {q : List (Rec D Γ)} (h : ∀ r ∈ q, ∃ d, r = .data d) : Pair.signs q = [] := by
  refine filter_eq_nil_iff.2 fun r hr => ?_
  obtain ⟨d, rfl⟩ := h r hr
  nofun

theorem NoSync.append {q q' : List (Rec D Γ)} (h : NoSync q) (h' : NoSync q') : NoSync (q ++ q') :=
  List.forall_mem_append.2 ⟨h, h'⟩

theorem noSync_of_data {q : List (Rec D Γ)} (h : ∀ r ∈ q, ∃ d, r = .data d) : NoSync q := by
  intro r hr
  obtain ⟨d, rfl⟩ := h r hr
  nofun

theorem Inv.send (h : Inv arg input₀ p s) {st : ParallelBox} (hbox : s.box = some st)
    {w : Writes D Γ} (hw : OnlyData arg.num st.closed w) {input : List (Rec D Γ)}
    (hread : Reading arg.num input₀ p input) :
    Inv arg input₀ p { s with input, box := some st, inner := Pair.deliver w s.inner } := by
  obtain ⟨hb, hdirect, hno⟩ := h.inputs.box st hbox
  refine h.dispatched h.ok rfl rfl rfl rfl (prefix_refl _) ?_ ?_ ?_ ?_ ⟨?_, nofun⟩ hread
  · intro k _
    rw [signs_of_data (hw k).1, append_nil]
  · intro k hk t ht
    have hc := hb.status_of_closed (h.ok.lt k hk) t ht
    exact Or.inl ⟨(hw k).2 fun hn => hn.2 hc, ht⟩
  · intro k hk
    exact (hw k).2 fun hn => hn.2 (hb.mem_closed h.ok hn.1 hk)
  · intro k r hr output
    obtain ⟨d, rfl⟩ := (hw k).1 r hr
    nofun
  · rintro _ ⟨⟩
    exact ⟨hb, hdirect, fun k => (hno k).append (noSync_of_data (hw k).1)⟩

theorem Inv.mark (h : Inv arg input₀ p s) {st : ParallelBox} (hbox : s.box = some st)
    {w : Writes D Γ} (hw : OnlyData arg.num st.closed w) {m : Int × Int} (hlevel : 0 ≤ m.1)
    (hnumber : m.1 = 0 → m.2 ≠ -1) {input : List (Rec D Γ)}
    (hread : (∃ k < arg.num, k ∉ st.closed) → Reading arg.num input₀ (p.grow m) input)
    (hskip : Reading arg.num input₀ p input ∨ ∃ k < arg.num, k ∉ st.closed)
    {counter : Int} (hcounter : 0 ≤ counter) :
    ∃ p', Inv arg input₀ p' { s with
      input
      box := some ⟨st.closed, counter⟩
      inner := Pair.deliver (w ++ Stream.toOpen arg.num st.closed (.sortEnd m.1 m.2)) s.inner } := by
  obtain ⟨hb, hdirect, hno⟩ := h.inputs.box st hbox
  have hadd : ∀ k, addressed (w ++ Stream.toOpen arg.num st.closed (.sortEnd m.1 m.2)) k =
      addressed w k ++ if k < arg.num ∧ k ∉ st.closed then [.sortEnd m.1 m.2] else [] := by
    intro k
    rw [addressed_append, addressed_toOpen]
  have hclosed : ∀ k, ¬ (k < arg.num ∧ k ∉ st.closed) →
      addressed (w ++ Stream.toOpen arg.num st.closed (.sortEnd m.1 m.2)) k = [] := by
    intro k hk
    rw [hadd, if_neg hk, (hw k).2 hk]
    rfl
  have hsync : ∀ k, NoSync (addressed (w ++ Stream.toOpen arg.num st.closed (.sortEnd m.1 m.2)) k) := by
    intro k
    rw [hadd]
    refine (noSync_of_data (hw k).1).append ?_
    split
    · exact forall_mem_singleton.2 nofun
    · nofun
  have hplain : ∀ k, ∀ r ∈ addressed (w ++ Stream.toOpen arg.num st.closed (.sortEnd m.1 m.2)) k,
      ∀ output, r ≠ .collect output := by
    intro k
    rw [hadd]
    refine List.forall_mem_append.2 ⟨fun r hr output => ?_, ?_⟩
    · obtain ⟨d, rfl⟩ := (hw k).1 r hr
      nofun
    · split
      · exact forall_mem_singleton.2 nofun
      · nofun
  have hgone : ∀ k, k ∉ p.members →
      addressed (w ++ Stream.toOpen arg.num st.closed (.sortEnd m.1 m.2)) k = [] := fun k hk =>
    hclosed k fun hn => hn.2 (hb.mem_closed h.ok hn.1 hk)
  by_cases hopen : ∃ k < arg.num, k ∉ st.closed
  · have hok : (p.grow m).Ok arg.num := by
      refine h.ok.grow hlevel hnumber (fun k r hr => absurd hr (hb.not_last h.ok k r)) (Or.inr ?_)
      obtain ⟨k, hk, hkc⟩ := hopen
      obtain ⟨j, hj, hjk, hjc⟩ := hb.two k hk hkc
      exact ⟨j, k, hj, hk, hjk, hb.opened j hj hjc, hb.opened k hk hkc⟩
    refine ⟨p.grow m, h.dispatched hok rfl rfl rfl rfl (prefix_append _ _) ?_ ?_ hgone hplain
      ⟨?_, nofun⟩ (hread hopen)⟩
    · intro k hk
      rw [h.ok.expected_grow m hk, hadd, signs_append, signs_of_data (hw k).1, nil_append]
      have hlt := h.ok.lt k hk
      by_cases hc : k ∈ st.closed
      · obtain ⟨t, ht⟩ := hb.closed k hlt hc
        rw [ht, if_neg fun hn => hn.2 hc]
        rfl
      · rw [hb.opened k hlt hc, if_pos ⟨hlt, hc⟩]
        rfl
    · intro k hk t ht
      have hc := hb.status_of_closed (h.ok.lt k hk) t ht
      exact Or.inl ⟨hclosed k fun hn => hn.2 hc, ht⟩
    · rintro _ ⟨⟩
      exact ⟨⟨hcounter, hb.opened, hb.closed, hb.two⟩, hdirect, fun k => (hno k).append (hsync k)⟩
  · have hnil : ∀ k, addressed (w ++ Stream.toOpen arg.num st.closed (.sortEnd m.1 m.2)) k = [] :=
      fun k => hclosed k fun hn => hopen ⟨k, hn⟩
    refine ⟨p, h.dispatched h.ok rfl rfl rfl rfl (prefix_refl _) ?_ ?_ hgone hplain
      ⟨?_, nofun⟩ (hskip.resolve_right hopen)⟩
    · intro k _
      rw [hnil]
      exact (append_nil _).symm
    · exact fun k _ t ht => Or.inl ⟨hnil k, ht⟩
    · rintro _ ⟨⟩
      exact ⟨⟨hcounter, hb.opened, hb.closed, hb.two⟩, hdirect, fun k => (hno k).append (hsync k)⟩

theorem eq_singleton {l : List Nat} {a : Nat} (hl : l.Nodup) (ha : a ∈ l) (h : ∀ b ∈ l, b = a) :
    l = [a] := by
  match l, hl, ha, h with
  | [b], _, ha, _ => rw [mem_singleton.1 ha]
  | b :: b' :: l, hl, _, h =>
    have hb := h b mem_cons_self
    have hb' := h b' (mem_cons_of_mem _ mem_cons_self)
    exact absurd (hb.trans hb'.symm) fun heq => (nodup_cons.1 hl).1 (heq ▸ mem_cons_self)

theorem Inv.closeBranches (h : Inv arg input₀ p s) {st : ParallelBox} (hbox : s.box = some st)
    {affected : List Nat} (haffected : affected.Nodup) (hlt : ∀ k ∈ affected, k < arg.num)
    (hopen : ∀ k ∈ affected, k ∉ st.closed) :
    (p.close fun k => decide (k ∈ affected)).Ok arg.num ∧
      (∀ k, (p.close fun k => decide (k ∈ affected)).expected k = p.expected k ++
        Pair.signs (addressed (affected.map fun k => (Target.inst k, (.terminate true : Rec D Γ))) k)) ∧
      (∀ k < arg.num, k ∉ st.closed ++ affected →
        (p.close fun k => decide (k ∈ affected)).status k = .opened) ∧
      ∀ k < arg.num, k ∈ st.closed ++ affected →
        ∃ t, (p.close fun k => decide (k ∈ affected)).status k = .closed t := by
  obtain ⟨hb, -, -⟩ := h.inputs.box st hbox
  have hf : ∀ k, decide (k ∈ affected) = true → p.status k = .opened := fun k hk =>
    hb.opened k (hlt k (of_decide_eq_true hk)) (hopen k (of_decide_eq_true hk))
  refine ⟨h.ok.close hf (hb.not_last h.ok), fun k => ?_, fun k hk hc => ?_, fun k hk hc => ?_⟩
  · rw [expected_close hf, addressed_map haffected]
    by_cases hmem : k ∈ affected
    · rw [if_pos (decide_eq_true hmem), if_pos hmem]
      rfl
    · rw [if_neg (by simpa using hmem), if_neg hmem]
      rfl
  · rw [mem_append, not_or] at hc
    rw [status_close_of_not (by simpa using hc.2)]
    exact hb.opened k hk hc.1
  · by_cases hmem : k ∈ affected
    · exact ⟨_, status_close (decide_eq_true hmem)⟩
    · rw [status_close_of_not (by simpa using hmem)]
      exact hb.closed k hk ((mem_append.1 hc).resolve_right hmem)

theorem Inv.syncOuttype (h : Inv arg input₀ p s) {st : ParallelBox} (hbox : s.box = some st)
    {affected : List Nat} (haffected : affected.Nodup) (hlt : ∀ k ∈ affected, k < arg.num)
    (hopen : ∀ k ∈ affected, k ∉ st.closed) {input : StreamId} {outtype : Option Γ}
    {rest : List (Rec D Γ)} (hread : Reading arg.num input₀ p (.sync input outtype :: rest)) :
    (∀ k, (List.range arg.num).filter (fun k => k ∉ st.closed ++ affected) = [k] →
      ∃ p', Inv arg input₀ p' { s with
        input := rest
        box := none
        inner := Pair.deliver (affected.map (fun k => (Target.inst k, Rec.terminate true)) ++
          [(.inst k, .sortEnd 0 (-1)), (.inst k, .sync input none)]) s.inner }) ∧
    ((∀ k, (List.range arg.num).filter (fun k => k ∉ st.closed ++ affected) ≠ [k]) →
      ∃ p', Inv arg input₀ p' { s with
        input := rest
        box := some ⟨st.closed ++ affected, st.counter + 1⟩
        inner := Pair.deliver (affected.map fun k => (Target.inst k, Rec.terminate true)) s.inner }) := by
  obtain ⟨hb, hdirect, hno⟩ := h.inputs.box st hbox
  obtain ⟨hok, hexp, hopened, hclosed⟩ := h.closeBranches hbox haffected hlt hopen
  let stop : Writes D Γ := affected.map fun k => (Target.inst k, Rec.terminate true)
  have hstop : ∀ k, addressed stop k = if k ∈ affected then [.terminate true] else [] := fun k =>
    addressed_map haffected _ k
  have htail : ∀ k ∈ p.members, ∀ t, (p.close fun k => decide (k ∈ affected)).status k = .closed t →
      (addressed stop k = [] ∧ p.status k = .closed t) ∨ addressed stop k = [.terminate true] := by
    intro k _ t ht
    rw [hstop]
    by_cases hmem : k ∈ affected
    · exact Or.inr (if_pos hmem)
    · rw [status_close_of_not (by simpa using hmem)] at ht
      exact Or.inl ⟨if_neg hmem, ht⟩
  have hmember : ∀ k ∈ affected, k ∈ p.members := by
    intro k hk
    by_contra hmem
    exact hopen k hk (hb.mem_closed h.ok (hlt k hk) hmem)
  have hsync : ∀ k, NoSync (addressed stop k) := by
    intro k
    rw [hstop]
    split
    · exact forall_mem_singleton.2 nofun
    · nofun
  have hplain : ∀ k, ∀ r ∈ addressed stop k, ∀ output, r ≠ .collect output := by
    intro k
    rw [hstop]
    split
    · exact forall_mem_singleton.2 nofun
    · nofun
  have hstatus : ∀ k, (∀ t, (p.close fun k => decide (k ∈ affected)).status k ≠ .closed t) →
      ∀ t, p.status k ≠ .closed t := by
    intro k hk t ht
    by_cases hmem : k ∈ affected
    · exact hk _ (status_close (decide_eq_true hmem))
    · exact hk t ((status_close_of_not (by simpa using hmem)).trans ht)
  constructor
  · intro k hremaining
    have hmem : ∀ j, j < arg.num ∧ j ∉ st.closed ++ affected ↔ j = k := by
      intro j
      have hj : j ∈ (List.range arg.num).filter (fun k => k ∉ st.closed ++ affected) ↔ j = k := by
        rw [hremaining, mem_singleton]
      simpa using hj
    obtain ⟨hk, hkc⟩ := (hmem k).2 rfl
    have hopenk := hopened k hk hkc
    have hothers : ∀ j < arg.num, j ≠ k →
        ∃ t, (p.close fun k => decide (k ∈ affected)).status j = .closed t := by
      intro j hj hne
      refine hclosed j hj ?_
      by_contra hjc
      exact hne ((hmem j).1 ⟨hj, hjc⟩)
    have hseen : p.seen = none := by
      cases hj : p.seen with
      | none => rfl
      | some j =>
        obtain ⟨r, hr, -⟩ := h.ok.seen j hj
        exact absurd hr (hb.not_last h.ok j r)
    have hadd : ∀ j, addressed (stop ++ [(.inst k, .sortEnd 0 (-1)), (.inst k, .sync input none)]) j =
        addressed stop j ++ if j = k then [.sortEnd 0 (-1), .sync input none] else [] := by
      intro j
      rw [addressed_append]
      congr 1
      unfold addressed
      by_cases hjk : j = k
      · subst hjk
        simp
      · have hne : Target.inst k ≠ .inst j := fun heq => hjk (Target.inst.inj heq).symm
        simp [hjk, hne]
    have hkm : k ∈ p.members := by
      by_contra hm
      exact hkc (mem_append_left _ (hb.mem_closed h.ok hk hm))
    refine ⟨(p.close fun k => decide (k ∈ affected)).leave k, h.dispatched
      (hok.leave hk hopenk hothers) rfl rfl rfl rfl (prefix_refl _) ?_ ?_ ?_ ?_ ⟨nofun, ?_⟩ ?_⟩
    · intro j _
      rw [expected_leave hopenk hseen, hexp, hadd, signs_append, ← append_assoc]
      congr 1
      split <;> rfl
    · intro j hj t ht
      have hjk : j ≠ k := by
        rintro rfl
        rw [status_leave] at ht
        cases ht
      rw [status_leave_of_ne hjk] at ht
      rw [hadd, if_neg hjk, append_nil]
      exact htail j hj t ht
    · intro j hj
      have hjk : j ≠ k := fun heq => hj (heq ▸ hkm)
      rw [hadd, if_neg hjk, append_nil, hstop, if_neg fun hm => hj (hmember j hm)]
    · intro j
      rw [hadd]
      refine List.forall_mem_append.2 ⟨hplain j, ?_⟩
      split
      · simp
      · nofun
    · intro _
      refine ⟨k, _, status_leave, fun j hj => ?_, Or.inr ⟨hdirect, ?_⟩⟩
      · change NoSync (s.inner j ++ addressed _ j)
        rw [hadd, if_neg hj, append_nil]
        exact (hno j).append (hsync j)
      · refine ⟨s.inner k ++ addressed stop k ++ [.sortEnd 0 (-1)], input, none, ?_, ?_⟩
        · change s.inner k ++ addressed _ k = _
          rw [hadd, if_pos rfl]
          simp
        · exact ((hno k).append (hsync k)).append (forall_mem_singleton.2 nofun)
    · refine hread.skip rfl rfl ?_
      rintro ⟨j, hj, hjs⟩
      by_cases hjk : j = k
      · subst hjk
        refine ⟨j, hj, hstatus j fun t ht => ?_⟩
        rw [hopenk] at ht
        cases ht
      · exact ⟨j, hj, hstatus j fun t ht => hjs t ((status_leave_of_ne hjk).trans ht)⟩
  · intro hremaining
    refine ⟨p.close fun k => decide (k ∈ affected), h.dispatched hok rfl rfl rfl rfl
      (prefix_refl _) (fun k _ => hexp k) htail ?_ hplain ⟨?_, nofun⟩ ?_⟩
    · intro j hj
      exact (hstop j).trans (if_neg fun hm => hj (hmember j hm))
    · rintro _ ⟨⟩
      refine ⟨⟨Int.le_add_one hb.counter, hopened, hclosed, fun k hk hkc => ?_⟩, hdirect,
        fun k => (hno k).append (hsync k)⟩
      by_contra hno
      refine hremaining k (eq_singleton (nodup_range.filter _) ?_ fun j hj => ?_)
      · exact mem_filter.2 ⟨mem_range.2 hk, decide_eq_true hkc⟩
      · by_contra hjk
        obtain ⟨hj, hjc⟩ := mem_filter.1 hj
        exact hno ⟨j, mem_range.1 hj, hjk, of_decide_eq_true hjc⟩
    · refine hread.skip rfl rfl ?_
      rintro ⟨j, hj, hjs⟩
      exact ⟨j, hj, hstatus j hjs⟩

theorem onlyData_nil (num : Nat) (closed : List Nat) : OnlyData num closed ([] : Writes D Γ) :=
  fun _ => ⟨nofun, fun _ => rfl⟩

theorem onlyData_send {num : Nat} {closed : List Nat} {j : Nat} (hj : j < num) (d : D) :
    OnlyData num closed (if j ∈ closed then [] else [(.inst j, .data d)] : Writes D Γ) := by
  intro k
  by_cases hc : j ∈ closed
  · rw [if_pos hc]
    exact onlyData_nil num closed k
  · rw [if_neg hc]
    unfold addressed
    by_cases hjk : j = k
    · subst hjk
      refine ⟨?_, fun hn => absurd ⟨hj, hc⟩ hn⟩
      simp
    · have hne : Target.inst j ≠ .inst k := fun heq => hjk (Target.inst.inj heq)
      simp [hne]

theorem Inv.dispatch (h : Inv arg input₀ p s) (hs : s.dispatch arg = .done s') :
    ∃ p', Inv arg input₀ p' s' := by
  unfold Pair.dispatch at hs
  split at hs
  · rename_i st r rest hbox hinput
    obtain ⟨hb, -, -⟩ := h.inputs.box st hbox
    have hreading := h.reading
    rw [hinput] at hreading
    have hskip : sortEnds [r] = [] → Reading arg.num input₀ p rest := fun hr =>
      hreading.skip hr rfl fun hopen => hopen
    cases r with
    | data d =>
      simp only [parallelBoxTask] at hs
      cases hmatch : bestMatch (arg.checkMatch d) arg.num with
      | none =>
        rw [hmatch] at hs
        cases hs
      | some j =>
        have hdata : OnlyData arg.num st.closed
            (if j ∈ st.closed then [] else [(.inst j, .data d)] : Writes D Γ) :=
          onlyData_send (bestMatch_lt hmatch) d
        have hskip := hskip rfl
        rw [hmatch] at hs
        by_cases hdet : arg.isDet = true
        · simp only [putToBuffers, if_pos hdet] at hs
          cases hs
          refine h.mark hbox hdata (m := (0, st.counter)) (Int.le_refl 0) ?_ (fun _ => hskip.own _)
            (Or.inl hskip) (Int.le_add_one hb.counter)
          intro _ hneg
          have hcounter := hb.counter
          simp only at hneg
          omega
        · simp only [putToBuffers, if_neg hdet] at hs
          cases hs
          exact ⟨p, h.send hbox hdata hskip⟩
    | sync input outtype =>
      cases outtype with
      | none =>
        cases hs
        exact ⟨p, h.send hbox (onlyData_nil _ _) (hskip rfl)⟩
      | some g =>
        simp only [parallelBoxTask] at hs
        split at hs
        · cases hs
        · rename_i w next hw
          split at hw
          · cases hw
          · rename_i hany
            have hopen : ∀ k ∈ (List.range arg.num).filter (arg.covers g), k ∉ st.closed := by
              intro k hk hc
              exact hany (any_eq_true.2 ⟨k, hk, decide_eq_true hc⟩)
            have hlt : ∀ k ∈ (List.range arg.num).filter (arg.covers g), k < arg.num := fun k hk =>
              mem_range.1 (mem_filter.1 hk).1
            obtain ⟨hone, hmany⟩ :=
              h.syncOuttype hbox (nodup_range.filter _) hlt hopen hreading
            split at hw
            · rename_i k hremaining
              cases hw
              cases hs
              exact hone k hremaining
            · rename_i hremaining
              cases hw
              cases hs
              exact hmany hremaining
    | sortEnd level num =>
      cases hs
      have hlevel : 0 ≤ level := hreading.outer _ mem_cons_self
      have hopened : (∃ k < arg.num, k ∉ st.closed) → ∃ k < arg.num, ∀ t, p.status k ≠ .closed t := by
        rintro ⟨k, hk, hc⟩
        refine ⟨k, hk, fun t ht => ?_⟩
        rw [hb.opened k hk hc] at ht
        cases ht
      refine h.mark hbox (onlyData_nil _ _) (m := (level + 1, num)) (Int.le_add_one hlevel) ?_
        (fun hopen => hreading.raise (hopened hopen)) ?_ hb.counter
      · intro hzero
        simp only at hzero
        omega
      · by_cases hopen : ∃ k < arg.num, k ∉ st.closed
        · exact Or.inr hopen
        · refine Or.inl ⟨fun r hr => hreading.outer r (mem_cons_of_mem _ hr), hreading.part, ?_⟩
          rintro ⟨k, hk, hks⟩
          refine absurd ⟨k, hk, fun hc => ?_⟩ hopen
          obtain ⟨t, ht⟩ := hb.closed k hk hc
          exact hks t ht
    | collect output => exact (hreading.outer _ mem_cons_self).elim
    | terminate flag => exact (hreading.outer _ mem_cons_self).elim
  · cases hs

/-! ## The operands -/

/-- Records that an operand writes for a record, apart from sync records. -/
def Passed (rs : List (Rec D Γ)) : Prop := ∀ r ∈ rs, handed r = none ∧ ∀ output, r ≠ .collect output

theorem filterMap_handed {rs : List (Rec D Γ)} (h : Passed rs) : rs.filterMap handed = [] :=
  filterMap_eq_nil_iff.2 fun r hr => (h r hr).1

theorem signs_leave (fresh : StreamId) (leave : Bool) :
    Pair.signs (if leave then [.sync fresh none] else [] : List (Rec D Γ)) = [] := by
  cases leave <;> rfl

theorem names_write (s : Pair D Γ) {rs : List (Rec D Γ)} (hrs : Passed rs) (leave : Bool) (j : Nat) :
    (s.write k rs leave).names j = s.names j ++ if j = k ∧ leave then [s.fresh] else [] := by
  unfold Pair.names Pair.write
  by_cases hjk : j = k
  · subst hjk
    cases leave with
    | false => simp [filterMap_handed hrs]
    | true => simp [filterMap_handed hrs, handed]
  · simp [hjk]

theorem Names.write {num : Nat} (h : Names num s) {rs : List (Rec D Γ)} (hrs : Passed rs)
    (leave : Bool) : Names num (s.write k rs leave) := by
  have hmem : ∀ j x, x ∈ (s.write k rs leave).names j →
      x ∈ s.names j ∨ (j = k ∧ leave = true ∧ x = s.fresh) := by
    intro j x hx
    rw [names_write s hrs, mem_append] at hx
    refine hx.imp_right fun hx => ?_
    split at hx
    · rename_i hc
      exact ⟨hc.1, hc.2, mem_singleton.1 hx⟩
    · cases hx
  refine ⟨fun j hj => ?_, fun i hi j hj x hxi hxj => ?_, fun j hj x hx => ?_⟩
  · rw [names_write s hrs]
    refine nodup_append.2 ⟨h.nodup j hj, by split <;> simp, fun x hx y hy heq => ?_⟩
    subst heq
    split at hy
    · rw [mem_singleton] at hy
      exact Nat.lt_irrefl _ (hy ▸ h.fresh j hj x hx)
    · cases hy
  · rcases hmem i x hxi with hoi | ⟨rfl, -, rfl⟩
    · rcases hmem j x hxj with hoj | ⟨rfl, -, rfl⟩
      · exact h.apart i hi j hj x hoi hoj
      · exact absurd (h.fresh i hi _ hoi) (Nat.lt_irrefl _)
    · rcases hmem j _ hxj with hoj | ⟨rfl, -, -⟩
      · exact absurd (h.fresh j hj _ hoj) (Nat.lt_irrefl _)
      · rfl
  · have hfresh : s.fresh ≤ (s.write k rs leave).fresh := by
      unfold Pair.write
      dsimp only
      split
      · exact Nat.le_succ _
      · exact Nat.le_refl _
    rcases hmem j x hx with hx | ⟨-, hleave, rfl⟩
    · exact Nat.lt_of_lt_of_le (h.fresh j hj x hx) hfresh
    · unfold Pair.write
      dsimp only
      rw [if_pos hleave]
      exact Nat.lt_succ_self _

theorem line_write (s : Pair D Γ) (input q rs : List (Rec D Γ)) (leave : Bool) :
    (Pair.write { s with input, inner := Function.update s.inner k q } k rs leave).line =
      Function.update s.line k
        (s.flow k ++ rs ++ (if leave then [.sync s.fresh none] else []) ++ q) := by
  funext j
  unfold Pair.line Pair.write
  by_cases hjk : j = k
  · subst hjk
    simp
  · simp [hjk]

theorem plain_update {line : Nat → List (Rec D Γ)} (h : ∀ k, ∀ r ∈ line k, ∀ output, r ≠ .collect output)
    {q : List (Rec D Γ)} (hq : ∀ r ∈ q, ∀ output, r ≠ .collect output) (j : Nat) :
    ∀ r ∈ Function.update line k q j, ∀ output, r ≠ .collect output := by
  by_cases hjk : j = k
  · subst hjk
    rw [update_self]
    exact hq
  · rw [update_of_ne hjk]
    exact h j

theorem plain_leave (fresh : StreamId) (leave : Bool) :
    ∀ r ∈ (if leave then [.sync fresh none] else [] : List (Rec D Γ)), ∀ output, r ≠ .collect output := by
  cases leave with
  | false => nofun
  | true => exact forall_mem_singleton.2 nofun

theorem Inputs.read {num : Nat} (h : Inputs num p s) {r : Rec D Γ} {q : List (Rec D Γ)}
    (hinner : s.inner k = r :: q) (hr : handed r = none) :
    Inputs num p { s with inner := Function.update s.inner k q } := by
  have hsub : ∀ j, NoSync (s.inner j) → NoSync (Function.update s.inner k q j) := by
    intro j hj
    by_cases hjk : j = k
    · subst hjk
      rw [update_self]
      rw [hinner] at hj
      exact fun r hr => hj r (mem_cons_of_mem _ hr)
    · rw [update_of_ne hjk]
      exact hj
  refine ⟨fun st hst => ?_, fun hst => ?_⟩
  · obtain ⟨hb, hdirect, hno⟩ := h.box st hst
    exact ⟨hb, hdirect, fun j => hsub j (hno j)⟩
  · obtain ⟨l, t, hs, hothers, hl⟩ := h.left hst
    refine ⟨l, t, hs, fun j hj => hsub j (hothers j hj), ?_⟩
    rcases hl with ⟨hdirect, hnil⟩ | ⟨hdirect, q', input, outtype, hq', hno⟩
    · have hlk : l ≠ k := by
        rintro rfl
        rw [hinner] at hnil
        cases hnil
      exact Or.inl ⟨hdirect, (update_of_ne hlk _ _).trans hnil⟩
    · refine Or.inr ⟨hdirect, ?_⟩
      by_cases hlk : l = k
      · subst hlk
        rw [hinner] at hq'
        cases q' with
        | nil =>
          cases hq'
          cases hr
        | cons r' q' =>
          cases hq'
          exact ⟨q', input, outtype, update_self ..,
            fun r hr => hno r (mem_cons_of_mem _ hr)⟩
      · exact ⟨q', input, outtype, (update_of_ne hlk _ _).trans hq', hno⟩

theorem Inv.passed (h : Inv arg input₀ p s) {r : Rec D Γ} {q rs : List (Rec D Γ)}
    (hinner : s.inner k = r :: q) (hr : handed r = none) (hrs : Passed rs)
    (hsigns : Pair.signs rs = Pair.signs [r]) {leave : Bool}
    (hend : r = .terminate true → rs = [r] ∧ leave = false) :
    Inv arg input₀ p (Pair.write { s with inner := Function.update s.inner k q } k rs leave) := by
  have hline : s.line k = s.flow k ++ r :: q := by
    rw [line, hinner]
  have hk : k ∈ p.members := by
    by_contra hk
    have hgone := h.lines.gone k hk
    rw [hline] at hgone
    simp at hgone
  have hplain := h.plain k
  rw [hline] at hplain
  refine ⟨h.ok, ?_, ?_, ?_, h.reading, ?_, h.coll⟩
  · rw [line_write s s.input]
    refine h.lines.update hk ?_ fun t ht => ?_
    · rw [hline, signs_append, signs_append, signs_append, signs_leave, hsigns,
        show r :: q = [r] ++ q from rfl, signs_append, signs_append]
      simp
    · obtain ⟨q', hq'⟩ := h.lines.tail k hk t ht
      rw [hline] at hq'
      rcases eq_nil_or_concat q with rfl | ⟨q₁, r₁, rfl⟩
      · have hlast : r = .terminate true := singleton_inj.1 (append_inj_right' hq' rfl)
        obtain ⟨rfl, rfl⟩ := hend hlast
        exact ⟨s.flow k, by simp [hlast]⟩
      · have hsplit : (s.flow k ++ r :: q₁) ++ [r₁] = q' ++ [.terminate true] := by
          rw [← hq', concat_eq_append]
          simp
        have hlast : r₁ = .terminate true := singleton_inj.1 (append_inj_right' hsplit rfl)
        refine ⟨s.flow k ++ rs ++ (if leave then [.sync s.fresh none] else []) ++ q₁, ?_⟩
        rw [concat_eq_append, hlast]
        simp
  · rw [line_write s s.input]
    refine plain_update h.plain ?_
    refine List.forall_mem_append.2 ⟨List.forall_mem_append.2 ⟨List.forall_mem_append.2 ⟨?_, ?_⟩, ?_⟩, ?_⟩
    · exact fun r hr => hplain r (mem_append_left _ hr)
    · exact fun r hr => (hrs r hr).2
    · exact plain_leave _ _
    · exact fun r hr => hplain r (mem_append_right _ (mem_cons_of_mem _ hr))
  · have hread := h.inputs.read hinner hr
    exact ⟨hread.box, hread.left⟩
  · have hnames : Names arg.num { s with inner := Function.update s.inner k q } :=
      ⟨h.names.nodup, h.names.apart, h.names.fresh⟩
    exact hnames.write hrs leave

theorem Inv.history (h : Inv arg input₀ p s) (wrote : Nat → List D) :
    Inv arg input₀ p { s with wrote } :=
  ⟨h.ok, h.lines, h.plain, ⟨h.inputs.box, h.inputs.left⟩, h.reading,
    ⟨h.names.nodup, h.names.apart, h.names.fresh⟩, h.coll⟩

theorem passed_data (ds : List D) : Passed (ds.map .data : List (Rec D Γ)) := by
  intro r hr
  obtain ⟨d, -, rfl⟩ := List.mem_map.1 hr
  exact ⟨rfl, nofun⟩

theorem signs_data (ds : List D) : Pair.signs (ds.map .data : List (Rec D Γ)) = [] := by
  refine signs_of_data fun r hr => ?_
  obtain ⟨d, -, rfl⟩ := List.mem_map.1 hr
  exact ⟨d, rfl⟩

theorem Inv.replace (h : Inv arg input₀ p s) {input : StreamId} {outtype : Option Γ}
    {q : List (Rec D Γ)} (hinner : s.inner k = .sync input outtype :: q) :
    Inv arg input₀ p { s with inner := Function.update s.inner k q, direct := some k } := by
  have hsync : ¬ NoSync (s.inner k) := by
    intro hno
    exact hno _ (hinner ▸ mem_cons_self) _ _ rfl
  have hbox : s.box = none := by
    cases hbox : s.box with
    | none => rfl
    | some st => exact absurd ((h.inputs.box st hbox).2.2 k) hsync
  obtain ⟨l, t, hs, hothers, hl⟩ := h.inputs.left hbox
  have hlk : l = k := by
    by_contra hne
    exact hsync (hothers k (Ne.symm hne))
  subst hlk
  have hq : q = [] := by
    rcases hl with ⟨-, hnil⟩ | ⟨-, q', input', outtype', hq', hno⟩
    · rw [hinner] at hnil
      cases hnil
    · rw [hinner] at hq'
      cases q' with
      | nil =>
        cases hq'
        rfl
      | cons r' q' =>
        cases hq'
        exact absurd rfl (hno _ mem_cons_self _ _)
  subst hq
  have hl : l ∈ p.members := h.ok.mem_of_not_closed (h.ok.last l t hs).1 (by rw [hs]; nofun)
  have hline : line { s with inner := Function.update s.inner l [], direct := some l } =
      Function.update s.line l (s.flow l) := by
    funext j
    unfold line
    by_cases hjl : j = l
    · subst hjl
      simp
    · simp [hjl]
  have hold : s.line l = s.flow l ++ [.sync input outtype] := by
    rw [line, hinner]
  refine ⟨h.ok, ?_, ?_, ⟨?_, fun _ => ?_⟩, h.reading,
    ⟨h.names.nodup, h.names.apart, h.names.fresh⟩, h.coll⟩
  · rw [hline]
    refine h.lines.update hl ?_ fun t' ht' => ?_
    · rw [hold, signs_append]
      exact (append_nil _).symm
    · rw [hs] at ht'
      cases ht'
  · rw [hline]
    refine plain_update h.plain fun r hr => h.plain l r ?_
    rw [hold]
    exact mem_append_left _ hr
  · intro st hst
    change s.box = some st at hst
    rw [hbox] at hst
    cases hst
  · refine ⟨l, t, hs, fun j hj => ?_, Or.inl ⟨rfl, update_self ..⟩⟩
    change NoSync (Function.update s.inner l [] j)
    rw [update_of_ne hj]
    exact hothers j hj

theorem Inv.direct (h : Inv arg input₀ p s) (hdirect : s.direct = some k) {r : Rec D Γ}
    {input : List (Rec D Γ)} (hinput : s.input = r :: input) {rs : List (Rec D Γ)} (hrs : Passed rs)
    {leave : Bool}
    (hr : (sortEnds [r] = [] ∧ Pair.signs rs = []) ∨ ∃ level n, r = .sortEnd level n ∧ rs = [r]) :
    ∃ p', Inv arg input₀ p' (Pair.write { s with input } k rs leave) := by
  have hbox : s.box = none := by
    cases hbox : s.box with
    | none => rfl
    | some st =>
      have hnone := (h.inputs.box st hbox).2.1
      rw [hdirect] at hnone
      cases hnone
  obtain ⟨l, t, hs, hothers, hl⟩ := h.inputs.left hbox
  obtain ⟨rfl, hnil⟩ : l = k ∧ s.inner l = [] := by
    rcases hl with ⟨hl, hnil⟩ | ⟨hl, -⟩
    · exact ⟨Option.some.inj (hl.symm.trans hdirect), hnil⟩
    · rw [hdirect] at hl
      cases hl
  have hlt := (h.ok.last l t hs).1
  have hl : l ∈ p.members := h.ok.mem_of_not_closed hlt (by rw [hs]; nofun)
  have hreading := h.reading
  rw [hinput] at hreading
  have hself : Function.update s.inner l [] = s.inner := by
    rw [← hnil]
    exact Function.update_eq_self ..
  have hline : (Pair.write { s with input } l rs leave).line = Function.update s.line l
      (s.flow l ++ rs ++ (if leave then [.sync s.fresh none] else []) ++ []) := by
    rw [← line_write s input [] rs leave, hself]
  have hold : s.line l = s.flow l := by
    rw [line, hnil, append_nil]
  have hplain : ∀ j, ∀ r ∈ (Pair.write { s with input } l rs leave).line j,
      ∀ output, r ≠ .collect output := by
    rw [hline]
    refine plain_update h.plain ?_
    rw [append_nil]
    refine List.forall_mem_append.2 ⟨List.forall_mem_append.2 ⟨?_, ?_⟩, plain_leave _ _⟩
    · exact fun r hr => h.plain l r (hold ▸ hr)
    · exact fun r hr => (hrs r hr).2
  have hinputs : ∀ p', p'.status = p.status →
      Inputs arg.num p' (Pair.write { s with input } l rs leave) := by
    intro p' hp'
    refine ⟨fun st hst => ?_, fun _ => ⟨l, t, hp' ▸ hs, hothers, Or.inl ⟨hdirect, hnil⟩⟩⟩
    change s.box = some st at hst
    rw [hbox] at hst
    cases hst
  have hnames : Names arg.num (Pair.write { s with input } l rs leave) := by
    have hnames : Names arg.num { s with input } := ⟨h.names.nodup, h.names.apart, h.names.fresh⟩
    exact hnames.write hrs leave
  rcases hr with ⟨hsort, hsigns⟩ | ⟨level, n, rfl, rfl⟩
  · refine ⟨p, h.ok, ?_, hplain, hinputs p rfl, hreading.skip hsort rfl fun hopen => hopen, hnames,
      h.coll⟩
    rw [hline]
    refine h.lines.update hl ?_ fun t' ht' => ?_
    · rw [hold, append_nil, signs_append, signs_append, signs_leave, hsigns]
      simp
    · rw [hs] at ht'
      cases ht'
  · have hlevel : 0 ≤ level := hreading.outer _ mem_cons_self
    have hok : (p.grow (level + 1, n)).Ok arg.num := by
      refine h.ok.grow (Int.le_add_one hlevel) (fun hzero => ?_)
        (fun _ _ _ => Int.lt_add_one_of_le hlevel) (Or.inl ⟨l, t, hs⟩)
      simp only at hzero
      omega
    have hmembers : (p.grow (level + 1, n)).members = p.members := rfl
    have hexp : ∀ j ∈ p.members, (p.grow (level + 1, n)).expected j = p.expected j ++
        Pair.signs (if j = l then [.sortEnd level n] else [] : List (Rec D Γ)) := by
      intro j hj
      rw [h.ok.expected_grow _ hj]
      by_cases hjl : j = l
      · subst hjl
        rw [if_pos rfl, hs]
        change _ ++ [Rec.sortEnd (level + 1 - 1) n] = _
        rw [Int.add_sub_cancel]
        rfl
      · obtain ⟨t', ht', -⟩ := (h.ok.last l t hs).2.2.2 j (h.ok.lt j hj) hjl
        rw [if_neg hjl, ht']
        rfl
    have htail : ∀ j ∈ p.members, ∀ t', (p.grow (level + 1, n)).status j = .closed t' →
        ((if j = l then [.sortEnd level n] else [] : List (Rec D Γ)) = [] ∧ p.status j = .closed t') ∨
          (if j = l then [.sortEnd level n] else [] : List (Rec D Γ)) = [.terminate true] := by
      intro j _ t' ht'
      have hjl : j ≠ l := by
        rintro rfl
        change p.status j = _ at ht'
        rw [hs] at ht'
        cases ht'
      exact Or.inl ⟨if_neg hjl, ht'⟩
    have hgone : ∀ j, j ∉ p.members →
        (if j = l then [.sortEnd level n] else [] : List (Rec D Γ)) = [] := by
      intro j hj
      refine if_neg ?_
      rintro rfl
      exact hj hl
    have hgrown : Lines (p.grow (level + 1, n))
        fun j => s.line j ++ if j = l then [.sortEnd level n] else [] :=
      h.lines.deliver hmembers hexp htail hgone
    have hmerge : Function.update s.line l
        (s.flow l ++ [.sortEnd level n] ++ (if leave then [.sync s.fresh none] else []) ++ []) =
          Function.update (fun j => s.line j ++ if j = l then [.sortEnd level n] else []) l
            (s.flow l ++ [.sortEnd level n] ++ (if leave then [.sync s.fresh none] else []) ++ []) := by
      funext j
      by_cases hjl : j = l
      · subst hjl
        simp
      · simp [hjl]
    refine ⟨p.grow (level + 1, n), hok, ?_, hplain, hinputs _ rfl,
      hreading.raise ⟨l, hlt, by rw [hs]; nofun⟩, hnames,
      h.coll.extend h.ok rfl rfl rfl rfl (prefix_append _ _)⟩
    rw [hline, hmerge]
    refine hgrown.update hl ?_ fun t' ht' => ?_
    · rw [hold, if_pos rfl, append_nil, signs_append, signs_leave, append_nil]
    · change p.status l = _ at ht'
      rw [hs] at ht'
      cases ht'

theorem Inv.operand (h : Inv arg input₀ p s) {ds : List D} {leave : Bool}
    (hs : s.operand k ds leave = .done s') : ∃ p', Inv arg input₀ p' s' := by
  unfold Pair.operand at hs
  split at hs
  · rename_i r q hinner
    cases r with
    | data d =>
      cases hs
      exact ⟨p, (h.passed hinner rfl (passed_data ds) (signs_data ds) fun heq => nomatch heq).history _⟩
    | sync input outtype =>
      cases hs
      exact ⟨p, h.replace hinner⟩
    | collect output => cases hs
    | sortEnd level num =>
      cases hs
      have hrs : Passed [(.sortEnd level num : Rec D Γ)] := forall_mem_singleton.2 ⟨rfl, nofun⟩
      exact ⟨p, h.passed hinner rfl hrs rfl fun heq => nomatch heq⟩
    | terminate flag =>
      cases hs
      have hrs : Passed [(.terminate flag : Rec D Γ)] := forall_mem_singleton.2 ⟨rfl, nofun⟩
      exact ⟨p, h.passed hinner rfl hrs rfl fun _ => ⟨rfl, rfl⟩⟩
  · split at hs
    · rename_i hdirect
      split at hs
      · rename_i r rest hinput
        cases r with
        | data d =>
          cases hs
          obtain ⟨p', hp'⟩ := h.direct hdirect hinput (passed_data ds) (Or.inl ⟨rfl, signs_data ds⟩)
          exact ⟨p', hp'.history _⟩
        | sync input outtype =>
          cases hs
          have hself : { s with input := rest, direct := some k } =
              Pair.write { s with input := rest } k [] false := by
            unfold Pair.write
            simp [hdirect]
          rw [hself]
          have hrs : Passed ([] : List (Rec D Γ)) := forall_mem_nil _
          exact h.direct hdirect hinput hrs (Or.inl ⟨rfl, rfl⟩)
        | collect output => cases hs
        | sortEnd level num =>
          cases hs
          have hrs : Passed [(.sortEnd level num : Rec D Γ)] :=
            forall_mem_singleton.2 ⟨rfl, nofun⟩
          exact h.direct hdirect hinput hrs (Or.inr ⟨level, num, rfl, rfl⟩)
        | terminate flag =>
          have houter := h.reading.outer (.terminate flag) (by rw [hinput]; exact mem_cons_self)
          exact houter.elim
      · cases hs
    · cases hs

/-! ## The collector -/

theorem Schedule.expected_hear_of_ne {num r j : Nat} (h : p.Ok num) (hs : p.status k = .last r)
    (hne : j ≠ k) : ((p.hear k).expected j : List (Rec D Γ)) = p.expected j := by
  unfold Schedule.expected
  rw [show (p.hear k).status j = p.status j from rfl]
  cases hsj : p.status j with
  | opened => rfl
  | closed t => rfl
  | last r' => exact absurd (h.last_unique hs hsj) hne

theorem Lines.found {num : Nat} {line : Nat → List (Rec D Γ)} (h : Lines p line) (hok : p.Ok num)
    (hk : k ∈ p.ready) {r : Rec D Γ} {rest : List (Rec D Γ)} (hline : line k = r :: rest)
    {p' : Schedule}
    (hp' : p' = p.wait k ∧ p'.expected k = Pair.signs rest ∨
      (∃ t, p.status k = .last t) ∧ p' = p.hear k ∧ p'.expected k = Pair.signs rest ∨
      (∃ t, p.status k = .closed t) ∧ p' = p.lose k ∧ Pair.signs rest = []) :
    Lines p' (Function.update line k rest) := by
  have hmem : k ∈ p.members := mem_append_left _ hk
  have htail : ∀ t, p.status k = .closed t → rest ≠ [] → ∃ q, rest = q ++ [.terminate true] := by
    intro t ht hne
    obtain ⟨q, hq⟩ := h.tail k hmem t ht
    rw [hline] at hq
    cases q with
    | nil =>
      cases hq
      exact absurd rfl hne
    | cons r' q =>
      cases hq
      exact ⟨q, rfl⟩
  rcases hp' with ⟨rfl, hexp⟩ | ⟨⟨t, ht⟩, rfl, hexp⟩ | ⟨⟨t, ht⟩, rfl, hnil⟩
  · have hmembers : ∀ j, j ∈ (p.wait k).members ↔ j ∈ p.members := fun j => (members_wait hk).mem_iff
    refine ⟨fun j hj => ?_, fun j hj t ht => ?_, fun j hj => ?_⟩
    · by_cases hjk : j = k
      · subst hjk
        rw [update_self, hexp]
      · rw [update_of_ne hjk, expected_wait_of_ne hjk]
        exact h.signs j ((hmembers j).1 hj)
    · by_cases hjk : j = k
      · subst hjk
        rw [update_self]
        refine htail t ht ?_
        rintro rfl
        have hexp : (p.wait j).expected j = ([] : List (Rec D Γ)) := hexp
        unfold Schedule.expected at hexp
        change p.status j = _ at ht
        rw [status_wait, ht] at hexp
        simp at hexp
      · rw [update_of_ne hjk]
        exact h.tail j ((hmembers j).1 hj) t ht
    · have hjk : j ≠ k := fun heq => hj ((hmembers j).2 (heq ▸ hmem))
      rw [update_of_ne hjk]
      exact h.gone j fun hm => hj ((hmembers j).2 hm)
  · refine ⟨fun j hj => ?_, fun j hj t' ht' => ?_, fun j hj => ?_⟩
    · by_cases hjk : j = k
      · subst hjk
        rw [update_self, hexp]
      · rw [update_of_ne hjk, expected_hear_of_ne hok ht hjk]
        exact h.signs j hj
    · have hjk : j ≠ k := by
        rintro rfl
        change p.status j = _ at ht'
        rw [ht] at ht'
        cases ht'
      rw [update_of_ne hjk]
      exact h.tail j hj t' ht'
    · have hjk : j ≠ k := fun heq => hj (heq ▸ hmem)
      rw [update_of_ne hjk]
      exact h.gone j hj
  · have hnodup := (nodup_append.1 hok.nodup)
    have hmembers : ∀ j, j ∈ (p.lose k).members ↔ j ∈ p.members ∧ j ≠ k := by
      intro j
      have hnot := hok.not_waiting hk
      simp only [members, lose, mem_append, hnodup.1.mem_erase_iff]
      constructor
      · rintro (⟨hne, hj⟩ | hj)
        · exact ⟨Or.inl hj, hne⟩
        · exact ⟨Or.inr hj, fun heq => hnot (heq ▸ hj)⟩
      · rintro ⟨hj | hj, hne⟩
        · exact Or.inl ⟨hne, hj⟩
        · exact Or.inr hj
    refine ⟨fun j hj => ?_, fun j hj t ht => ?_, fun j hj => ?_⟩
    · obtain ⟨hj, hjk⟩ := (hmembers j).1 hj
      rw [update_of_ne hjk]
      exact h.signs j hj
    · obtain ⟨hj, hjk⟩ := (hmembers j).1 hj
      rw [update_of_ne hjk]
      exact h.tail j hj t ht
    · by_cases hjk : j = k
      · subst hjk
        rw [update_self]
        by_contra hne
        obtain ⟨q, rfl⟩ := htail t ht hne
        rw [signs_append] at hnil
        exact absurd (append_eq_nil_iff.1 hnil).2 (cons_ne_nil _ _)
      · rw [update_of_ne hjk]
        exact h.gone j fun hm => hj ((hmembers j).2 ⟨hm, hjk⟩)

theorem Collector.step_eq {c : Collector D Γ} {i : StreamId} (hgo : c.terminate = false)
    (hmem : i ∈ c.ready) (r : Rec D Γ) (q : List (Rec D Γ)) :
    c.step (Function.update (fun _ => []) i (r :: q)) i =
      match c.process (Function.update (Function.update (fun _ => []) i (r :: q)) i q) i r with
      | none => .fault
      | some (c, queue) => Outcome.ofOption (c.finish.map fun c => (c, queue)) := by
  unfold Collector.step
  rw [if_neg (by simp [hgo, hmem])]
  split
  · next hempty =>
    rw [update_self] at hempty
    cases hempty
  · next hread =>
    rw [update_self] at hread
    cases hread
    rfl

theorem Held.renamed {num : Nat} {id : Nat → StreamId} {c : Collector D Γ} (h : Held p id c)
    (hok : p.Ok num) (hid : Apart num id) (hk : k ∈ p.ready) (input : StreamId) :
    Held p (Function.update id k input) { c with
      ready := c.ready.map fun s => if s = id k then input else s
      last := if c.last = some (id k) then some input else c.last } := by
  have hlt : ∀ j ∈ p.members, j < num := hok.lt
  have hklt := hlt k (mem_append_left _ hk)
  have hself : ∀ j, j < num → (if id j = id k then input else id j) = Function.update id k input j := by
    intro j hj
    by_cases hjk : j = k
    · subst hjk
      rw [update_self, if_pos rfl]
    · rw [update_of_ne hjk, if_neg fun heq => hjk (hid j k hj hklt heq)]
  refine ⟨h.isStatic, h.goesOn, ?_, ?_, h.incount, h.sortRec, ?_, h.term, h.out, h.noSync⟩
  · change c.ready.map _ = _
    rw [h.ready, map_map]
    exact map_congr_left fun j hj => hself j (hlt j (mem_append_left _ hj))
  · change c.waiting = _
    rw [h.waiting]
    refine map_congr_left fun j hj => ?_
    have hjk : j ≠ k := by
      rintro rfl
      exact hok.not_waiting hk hj
    exact (update_of_ne hjk _ _).symm
  · change (if c.last = some (id k) then some input else c.last) = _
    rw [h.last]
    cases hseen : p.seen with
    | none => rfl
    | some j =>
      change (if some (id j) = some (id k) then some input else some (id j)) =
        some (Function.update id k input j)
      rw [← hself j (hok.seen_lt hseen)]
      by_cases hj : id j = id k
      · rw [if_pos (congrArg some hj), if_pos hj]
      · rw [if_neg (fun heq => hj (Option.some.inj heq)), if_neg hj]

/-- The stream of a branch after the collector has read a record. -/
def idAfter (id : Nat → StreamId) (k : Nat) : Rec D Γ → Nat → StreamId
  | .sync input _ => Function.update id k input
  | _ => id

theorem Names.read {num : Nat} (h : Names num s) {r : Rec D Γ} {q : List (Rec D Γ)}
    (hflow : s.flow k = r :: q) {t : Pair D Γ} (hflow' : t.flow = Function.update s.flow k q)
    (hid : t.id = idAfter s.id k r) (hfresh : t.fresh = s.fresh) : Names num t := by
  have hsub : ∀ j, (t.names j).Sublist (s.names j) := by
    intro j
    unfold Pair.names
    rw [hid, hflow']
    by_cases hjk : j = k
    · subst hjk
      rw [update_self, hflow]
      cases r with
      | sync input outtype =>
        rw [idAfter, update_self]
        exact sublist_cons_self _ _
      | _ => exact List.Sublist.refl _
    · rw [update_of_ne hjk]
      cases r with
      | sync input outtype =>
        rw [idAfter, update_of_ne hjk]
      | _ => exact List.Sublist.refl _
  refine ⟨fun j hj => (h.nodup j hj).sublist (hsub j),
    fun i hi j hj x hxi hxj => h.apart i hi j hj x ((hsub i).mem hxi) ((hsub j).mem hxj),
    fun j hj x hx => ?_⟩
  rw [hfresh]
  exact h.fresh j hj x ((hsub j).mem hx)

theorem Inv.process (h : Inv arg input₀ p s) (hheld : Held p s.id s.coll) (hk : k ∈ p.ready)
    (queue : Queues D Γ) {r : Rec D Γ} {q : List (Rec D Γ)} (hflow : s.flow k = r :: q) :
    ∃ c p', s.coll.process queue (s.id k) r = some (c, queue) ∧ Held p' (idAfter s.id k r) c ∧
      p'.Ok arg.num ∧ Lines p' (Function.update s.line k (q ++ s.inner k)) ∧
      p'.marks = p.marks ∧ p'.status = p.status := by
  have hline : s.line k = r :: (q ++ s.inner k) := by
    rw [line, hflow]
    rfl
  have hmem : k ∈ p.members := mem_append_left _ hk
  have hnosign : isSign r = false →
      Lines p (Function.update s.line k (q ++ s.inner k)) := by
    intro hr
    refine h.lines.update hmem ?_ fun t ht => ?_
    · rw [hline, signs_cons, hr]
      rfl
    · obtain ⟨q', hq'⟩ := h.lines.tail k hmem t ht
      rw [hline] at hq'
      cases q' with
      | nil =>
        rw [head_eq_of_cons_eq hq'] at hr
        cases hr
      | cons r' q' => exact ⟨q', tail_eq_of_cons_eq hq'⟩
  have hsign : isSign r = true → ∃ c p', s.coll.process queue (s.id k) r = some (c, queue) ∧
      Held p' s.id c ∧ p'.Ok arg.num ∧ Lines p' (Function.update s.line k (q ++ s.inner k)) ∧
      p'.marks = p.marks ∧ p'.status = p.status := by
    intro hr
    have hexp : p.expected k = r :: Pair.signs (q ++ s.inner k) := by
      rw [← h.lines.signs k hmem, hline, signs_cons, if_pos hr]
    obtain ⟨c, p', hprocess, hheld', hok, hp'⟩ :=
      hheld.found h.ok h.names.ids hk queue (h.ok.found hk hexp)
    refine ⟨c, p', hprocess, hheld', hok, h.lines.found h.ok hk hline hp', ?_⟩
    rcases hp' with ⟨rfl, -⟩ | ⟨-, rfl, -⟩ | ⟨-, rfl, -⟩ <;> exact ⟨rfl, rfl⟩
  cases r with
  | data d =>
    refine ⟨_, p, rfl, ?_, h.ok, hnosign rfl, rfl, rfl⟩
    refine ⟨hheld.isStatic, hheld.goesOn, hheld.ready, hheld.waiting, hheld.incount, hheld.sortRec,
      hheld.last, hheld.term, ?_, ?_⟩
    · change sortEnds (s.coll.out ++ [.data d]) = _
      rw [sortEnds_append]
      exact (append_nil _).trans hheld.out
    · exact hheld.noSync.append (forall_mem_singleton.2 nofun)
  | sync input outtype =>
    exact ⟨_, p, rfl, hheld.renamed h.ok h.names.ids hk input, h.ok, hnosign rfl, rfl, rfl⟩
  | collect output => exact absurd rfl (h.plain k _ (hline ▸ mem_cons_self) output)
  | sortEnd level num => exact hsign rfl
  | terminate flag => exact hsign rfl

theorem Inv.collect (h : Inv arg input₀ p s) (k : Nat) :
    (s.collect k).Meets fun s' => ∃ p', Inv arg input₀ p' s' := by
  unfold Pair.collect
  rcases h.coll with ⟨hheld, -⟩ | hfin
  · cases hflow : s.flow k with
    | nil =>
      have hblocked : s.coll.step (Function.update (fun _ => []) (s.id k) []) (s.id k) = .blocked := by
        unfold Collector.step
        rw [update_self]
        split <;> rfl
      rw [hblocked]
      trivial
    | cons r q =>
      have hmem : k ∈ p.members := by
        by_contra hk
        have hgone := h.lines.gone k hk
        rw [line, hflow] at hgone
        cases hgone
      have hread : ∀ t : Pair D Γ, t.flow = Function.update s.flow k q → t.inner = s.inner →
          t.line = Function.update s.line k (q ++ s.inner k) := by
        intro t hflow' hinner
        funext j
        rw [line, hflow', hinner]
        by_cases hjk : j = k
        · subst hjk
          rw [update_self, update_self]
        · rw [update_of_ne hjk, update_of_ne hjk]
          rfl
      have hplain : ∀ t : Pair D Γ, t.flow = Function.update s.flow k q → t.inner = s.inner →
          ∀ j, ∀ r' ∈ t.line j, ∀ output, r' ≠ .collect output := by
        intro t hflow' hinner
        rw [hread t hflow' hinner]
        refine plain_update h.plain fun r' hr' => h.plain k r' ?_
        rw [line, hflow]
        exact mem_cons_of_mem _ hr'
      by_cases hready : s.id k ∈ s.coll.ready
      · have hk : k ∈ p.ready := by
          rw [hheld.ready] at hready
          refine (h.names.ids.mem_map (fun j hj => ?_) (h.ok.lt k hmem)).1 hready
          exact h.ok.lt j (mem_append_left _ hj)
        obtain ⟨c, p₁, hprocess, hheld₁, hok₁, hlines₁, hmarks₁, hstatus₁⟩ := h.process hheld hk
          (Function.update (Function.update (fun _ => []) (s.id k) (r :: q)) (s.id k) q) hflow
        obtain ⟨c', hfinish, p₂, hp₂, hsettled⟩ := hheld₁.finish hok₁
        rw [Collector.step_eq hheld.goesOn hready, hprocess]
        dsimp only
        rw [hfinish]
        obtain ⟨hok₂, hlines₂, hmarks₂, hstatus₂⟩ : p₂.Ok arg.num ∧
            Lines p₂ (Function.update s.line k (q ++ s.inner k)) ∧ p₂.marks = p.marks ∧
              p₂.status = p.status := by
          rcases hp₂ with rfl | ⟨hr, hw, rfl⟩
          · exact ⟨hok₁, hlines₁, hmarks₁, hstatus₁⟩
          · exact ⟨hok₁.turn hr hw, hlines₁.turn hr, hmarks₁, hstatus₁⟩
        have hlines : ∀ t : Pair D Γ, t.flow = Function.update s.flow k q → t.inner = s.inner →
            Lines p₂ t.line := by
          intro t hflow' hinner
          rw [hread t hflow' hinner]
          exact hlines₂
        have hleft : Function.update (Function.update (fun _ => []) (s.id k) (r :: q)) (s.id k) q
            (s.id k) = q := update_self ..
        refine ⟨p₂, hok₂, ?_, ?_, ⟨fun st hst => ?_, fun hst => ?_⟩, ?_, ?_, ?_⟩
        · exact hlines _ (congrArg (Function.update s.flow k) hleft) rfl
        · exact hplain _ (congrArg (Function.update s.flow k) hleft) rfl
        · obtain ⟨hb, hdirect, hno⟩ := h.inputs.box st hst
          exact ⟨⟨hb.counter, hstatus₂ ▸ hb.opened, hstatus₂ ▸ hb.closed, hb.two⟩, hdirect, hno⟩
        · obtain ⟨l, t, hs, hl⟩ := h.inputs.left hst
          exact ⟨l, t, hstatus₂ ▸ hs, hl⟩
        · exact ⟨h.reading.outer, hmarks₂ ▸ h.reading.part, hmarks₂ ▸ hstatus₂ ▸ h.reading.all⟩
        · exact h.names.read hflow (congrArg (Function.update s.flow k) hleft) (by cases r <;> rfl) rfl
        · -- The name of the input behind the read is the one of `idAfter`, for each kind of record.
          cases r <;> exact hsettled
      · have hblocked : s.coll.step (Function.update (fun _ => []) (s.id k) (r :: q)) (s.id k) =
            .blocked := by
          unfold Collector.step
          rw [if_pos (Or.inr hready)]
        rw [hblocked]
        trivial
  · have hblocked : ∀ queue : Queues D Γ, s.coll.step queue (s.id k) = .blocked := by
      intro queue
      unfold Collector.step
      rw [if_pos (Or.inl hfin.terminate)]
    rw [hblocked]
    trivial

end SNet.Stream.Pair
