import SNetRts.Front.StarSplit
import Mathlib.Algebra.GroupWithZero.Nat

/-!
# One leader, and no gap

At any time a star has one landing that is its leader, or one record that carries the leadership. The
records get their detrefs in the order of entry, each of them one, before they come to an instance or
to the collector; and a deterministic star gives out consecutive numbers.
-/

namespace SNet.Front.Star

open Lib List

def Item.unnumbered : Item → Bool
  | .data d => d.nums = []
  | _ => false

def Item.isLeader : Item → Bool
  | .starLeader _ => true
  | _ => false

/-- Is the landing a leader, and how many records that carry the leadership has it? -/
def leadersAt (s : Stage) : Nat :=
  (match s.kind with
    | .star true _ => 1
    | _ => 0) + (s.hand ++ s.fifo).countP Item.isLeader

/-- The leaders of a chain, and the records that carry the leadership. -/
def leaders (stages : List Stage) : Nat := (stages.map leadersAt).sum

/-- The records without a detref, those that are farthest first. -/
def waiting : List Stage → List Nat
  | [] => []
  | s :: rest => waiting rest ++ ids ((s.hand ++ s.fifo).filter Item.unnumbered)

/-- What is asked of a star. -/
structure Led (isDet : Bool) (c : Chain) : Prop where
  /-- There is one leader, or one record that carries the leadership. -/
  unique : leaders c.stages = 1
  /-- The detrefs given out, and the records that wait for one, are in the order of entry. -/
  order : c.log.map Prod.fst ++ waiting c.stages = List.range' 1 c.entered
  consecutive : isDet = true → c.log.map Prod.snd = (List.range' 1 c.log.length).map fun i : Nat => (i : Int)
  /-- A record has the one detref that was given to it, or none yet. -/
  once : ∀ s ∈ c.stages, ∀ d, .data d ∈ s.hand ++ s.fifo → d.nums = [] ∨ d.Numbered c.log
  /-- No record gets into an instance without a detref. -/
  instances : ∀ s ∈ c.stages, ∀ seen, s.kind = .operand seen → ∀ d ∈ seen, d.Numbered c.log
  /-- No record gets to the collector without a detref. -/
  collector : ∀ d, .data d ∈ c.collected → d.Numbered c.log
  /-- A deterministic star goes on in any case. -/
  noFault : isDet = true → ∀ a, c.step isDet a ≠ .fault

/-! ## Counting in a chain that is split -/

variable {log : List (Nat × Int)}

theorem countP_behind {l : List Item} (h : ∀ x ∈ l, x.Behind log) : l.countP Item.isLeader = 0 := by
  refine countP_eq_zero.2 fun x hx => ?_
  cases x with
  | starLeader e => exact (h _ hx).elim
  | data d => nofun
  | detref => nofun
  | sync => nofun

theorem countP_before {l : List Item} (h : ∀ x ∈ l, x.Before) : l.countP Item.isLeader = 0 := by
  refine countP_eq_zero.2 fun x hx => ?_
  cases x with
  | starLeader e => exact (h _ hx).elim
  | data d => nofun
  | detref => nofun
  | sync => nofun

theorem ids_behind {l : List Item} (h : ∀ x ∈ l, x.Behind log) : ids (l.filter Item.unnumbered) = [] := by
  have hnone : l.filter Item.unnumbered = [] := by
    refine filter_eq_nil_iff.2 fun x hx => ?_
    cases x with
    | data d =>
      obtain ⟨v, hv, -⟩ : d.Numbered log := h _ hx
      simp [Item.unnumbered, hv]
    | starLeader e => nofun
    | detref => nofun
    | sync => nofun
  rw [hnone]
  rfl

theorem ids_before {l : List Item} (h : ∀ x ∈ l, x.Before) : ids (l.filter Item.unnumbered) = ids l := by
  induction l with
  | nil => rfl
  | cons x l ih =>
    have hl := ih fun y hy => h y (mem_cons_of_mem _ hy)
    cases x with
    | data d =>
      have hd : d.nums = [] := h _ mem_cons_self
      rw [filter_cons_of_pos (by simp [Item.unnumbered, hd])]
      exact congrArg (d.id :: ·) hl
    | starLeader e => exact (h _ mem_cons_self).elim
    | detref => exact hl
    | sync => exact hl

theorem leadersAt_behind {s : Stage} (h : s.Behind log) : leadersAt s = 0 := by
  unfold leadersAt
  rw [countP_append, countP_behind h.hand, countP_behind h.fifo]
  split
  · rename_i e hk
    exact absurd hk (h.leader e)
  · rfl

theorem behind_sums {post : List Stage} (h : ∀ s ∈ post, s.Behind log) :
    leaders post = 0 ∧ waiting post = [] := by
  induction post with
  | nil => exact ⟨rfl, rfl⟩
  | cons s post ih =>
    obtain ⟨h1, h2⟩ := ih fun t ht => h t (mem_cons_of_mem _ ht)
    have hs := h s mem_cons_self
    refine ⟨?_, ?_⟩
    · unfold leaders at h1 ⊢
      rw [map_cons, sum_cons, h1, leadersAt_behind hs]
    · unfold waiting
      rw [h2, filter_append, ids_append, ids_behind hs.hand, ids_behind hs.fifo]
      rfl

theorem Split.sums {stages : List Stage} {w : List Nat} {e : DetEnter} (h : Split log stages w e) :
    leaders stages = 1 ∧ waiting stages = w := by
  have hcons : ∀ (s : Stage) (post : List Stage), leaders (s :: post) = leadersAt s + leaders post :=
    fun s post => by simp [leaders]
  induction h with
  | leader hfifo hhand hpost =>
    obtain ⟨h1, h2⟩ := behind_sums hpost
    refine ⟨?_, ?_⟩
    · rw [hcons, h1]
      simp only [leadersAt]
      rw [countP_append, countP_behind hhand, countP_before hfifo]
    · simp only [waiting]
      rw [h2, filter_append, ids_append, ids_behind hhand, ids_before hfifo]
      rfl
  | inFifo hk ha hb hhand hstar hpost =>
    obtain ⟨h1, h2⟩ := behind_sums hpost
    refine ⟨?_, ?_⟩
    · rw [hcons, h1]
      simp only [leadersAt]
      rw [countP_append, countP_append, countP_cons, countP_behind hhand,
        countP_behind ha, countP_before hb]
      rcases hk with rfl | ⟨e', rfl⟩ <;> rfl
    · simp only [waiting]
      rw [h2, filter_append, filter_append, ids_append, ids_append, ids_behind hhand,
        ids_behind ha, filter_cons_of_neg (by simp [Item.unnumbered]), ids_before hb]
      rfl
  | inHand ha hfifo hstar hpost =>
    obtain ⟨h1, h2⟩ := behind_sums hpost
    refine ⟨?_, ?_⟩
    · rw [hcons, h1]
      simp only [leadersAt]
      rw [countP_append, countP_append, countP_behind ha, countP_before hfifo]
      rfl
    · simp only [waiting]
      rw [h2, filter_append, filter_append, ids_append, ids_append, ids_behind ha,
        ids_before hfifo]
      rfl
  | pass hfifo hhand h ih =>
    refine ⟨?_, ?_⟩
    · rw [hcons, ih.1]
      simp only [leadersAt]
      rw [countP_append, countP_before hhand, countP_before hfifo]
    · simp only [waiting]
      rw [ih.2, filter_append, ids_append, ids_before hhand, ids_before hfifo, ids_append]

theorem Split.once {stages : List Stage} {w : List Nat} {e : DetEnter} (h : Split log stages w e) :
    ∀ s ∈ stages, ∀ d, Item.data d ∈ s.hand ++ s.fifo → d.nums = [] ∨ d.Numbered log := by
  have hbehind : ∀ {post : List Stage}, (∀ s ∈ post, s.Behind log) → ∀ s ∈ post, ∀ d,
      Item.data d ∈ s.hand ++ s.fifo → d.nums = [] ∨ d.Numbered log := fun hpost s hs d hd =>
    Or.inr ((mem_append.1 hd).elim ((hpost s hs).hand _) ((hpost s hs).fifo _))
  induction h with
  | leader hfifo hhand hpost =>
    intro s hs d hd
    rcases mem_cons.1 hs with rfl | hs
    · exact (mem_append.1 hd).elim (fun hd => Or.inr (hhand _ hd)) fun hd => Or.inl (hfifo _ hd)
    · exact hbehind hpost s hs d hd
  | inFifo hk ha hb hhand hstar hpost =>
    intro s hs d hd
    rcases mem_cons.1 hs with rfl | hs
    · rcases mem_append.1 hd with hd | hd
      · exact Or.inr (hhand _ hd)
      · rcases mem_append.1 hd with hd | hd
        · exact Or.inr (ha _ hd)
        · exact Or.inl (hb _ ((mem_cons.1 hd).resolve_left nofun))
    · exact hbehind hpost s hs d hd
  | inHand ha hfifo hstar hpost =>
    intro s hs d hd
    rcases mem_cons.1 hs with rfl | hs
    · rcases mem_append.1 hd with hd | hd
      · rcases mem_append.1 hd with hd | hd
        · exact Or.inr (ha _ hd)
        · exact absurd (mem_singleton.1 hd) nofun
      · exact Or.inl (hfifo _ hd)
    · exact hbehind hpost s hs d hd
  | pass hfifo hhand h ih =>
    intro s hs d hd
    rcases mem_cons.1 hs with rfl | hs
    · exact Or.inl ((mem_append.1 hd).elim (hhand _) (hfifo _))
    · exact ih s hs d hd

/-! ## Every run -/

/-- The invariant of runs. -/
structure Inv (isDet : Bool) (c : Chain) (w : List Nat) (e : DetEnter) : Prop where
  split : Split c.log c.stages w e
  order : c.log.map Prod.fst ++ w = List.range' 1 c.entered
  counter : isDet = true → e.counter = c.log.length
  consecutive : isDet = true → c.log.map Prod.snd = (List.range' 1 c.log.length).map fun i : Nat => (i : Int)
  collected : ∀ x ∈ c.collected, x.Behind c.log
  endsInStar : EndsInStar c.stages

theorem Inv.led {isDet : Bool} {c : Chain} {w : List Nat} {e : DetEnter} (h : Inv isDet c w e) :
    Led isDet c := by
  obtain ⟨h1, h2⟩ := h.split.sums
  refine ⟨h1, h2.symm ▸ h.order, h.consecutive, h.split.once, fun s hs seen hk => ?_,
    fun d hd => h.collected _ hd, ?_⟩
  · exact (h.split.operand_behind s hs seen hk).seen seen hk
  · rintro rfl a
    cases a with
    | enter outer => nofun
    | enterDetref => nofun
    | enterSync => nofun
    | land k a =>
      intro hf
      rcases Outcome.bind_eq_fault.1 hf with hf | ⟨r, -, hf⟩
      · exact stepAt_no_fault h.split.operand_behind h.endsInStar hf
      · cases hf

theorem Inv.enters {isDet : Bool} {c : Chain} {w : List Nat} {e : DetEnter} (h : Inv isDet c w e)
    {x : Item} (hx : x.Before) {entered : Nat}
    (horder : c.log.map Prod.fst ++ (w ++ ids [x]) = List.range' 1 entered) :
    Inv isDet { c with stages := pushFirst x c.stages, entered := entered } (w ++ ids [x]) e := by
  have hone : ∀ y ∈ [x], y.Before := fun y hy => mem_singleton.1 hy ▸ hx
  obtain ⟨hsplit, -, hcounter, hcons, hcoll, hend⟩ := h
  cases hst : c.stages with
  | nil =>
    rw [hst] at hend
    exact hend.elim
  | cons s rest =>
    rw [hst] at hsplit hend
    exact ⟨hsplit.enters hone, horder, hcounter, hcons, hcoll, hend⟩

theorem detEnter_counter {e e' : DetEnter} {outer : Option Int} (h : detEnter true e outer = some e') :
    e'.counter = e.counter + 1 := by
  cases h
  rfl

theorem Inv.step {isDet : Bool} {c c' : Chain} {w : List Nat} {e : DetEnter} (h : Inv isDet c w e)
    {a : Act} (hc : c.step isDet a = .done c') : ∃ w' e', Inv isDet c' w' e' := by
  cases a with
  | enter outer =>
    cases hc
    refine ⟨_, _, h.enters (x := .data ⟨c.entered + 1, outer, []⟩) rfl ?_⟩
    rw [← append_assoc, h.order, range'_concat]
    simp [ids, Nat.add_comm]
  | enterDetref =>
    cases hc
    refine ⟨_, _, h.enters (x := .detref) trivial ?_⟩
    rw [← h.order]
    exact congrArg _ (append_nil _)
  | enterSync =>
    cases hc
    refine ⟨_, _, h.enters (x := .sync) trivial ?_⟩
    rw [← h.order]
    exact congrArg _ (append_nil _)
  | land k a =>
    obtain ⟨⟨stages, eff⟩, h1, h2⟩ := Outcome.bind_eq_done.1 hc
    cases h2
    obtain ⟨w', e', hsplit, hcoll, hwait⟩ := h.split.stepAt h1
    have hend := stepAt_endsInStar h.endsInStar h1
    have hcollected : ∀ x ∈ c.collected ++ eff.collected, x.Behind (c.log ++ eff.given) := by
      intro x hx
      rcases mem_append.1 hx with hx | hx
      · exact (h.collected x hx).mono fun y hy => mem_append_left _ hy
      · exact hcoll x hx
    refine ⟨w', e', hsplit, ?_, ?_, ?_, hcollected, hend⟩
    · rcases hwait with ⟨hg, rfl, rfl⟩ | ⟨i, outer, hg, rfl, -⟩
      · simpa [hg] using h.order
      · simpa [hg] using h.order
    · intro hdet
      have hcount := h.counter hdet
      rcases hwait with ⟨hg, rfl, rfl⟩ | ⟨i, outer, hg, rfl, hde⟩
      · simpa [hg] using hcount
      · rw [hdet] at hde
        rw [detEnter_counter hde, hcount]
        simp [hg]
    · intro hdet
      have hcount := h.counter hdet
      have hcons := h.consecutive hdet
      rcases hwait with ⟨hg, rfl, rfl⟩ | ⟨i, outer, hg, rfl, hde⟩
      · simpa [hg] using hcons
      · rw [hdet] at hde
        have hnum : e'.counter = ((1 + c.log.length : Nat) : Int) := by
          rw [detEnter_counter hde, hcount]
          omega
        rw [hg, map_append, hcons, length_append, length_singleton,
          range'_concat, map_append]
        simp [hnum]

/-- In every run of a star that supports determinism there is one leader, or one record that carries
the leadership; every record gets exactly one detref, in the order of entry, before it comes to an
instance or the collector; and a deterministic star gives out consecutive numbers. -/
theorem star_leadership (isDet : Bool) {c : Chain} (h : Reach (Chain.step isDet) anyStep Chain.init c) :
    Led isDet c := by
  have hinit : Inv isDet Chain.init [] ⟨0, 0⟩ := by
    refine ⟨.leader nofun nofun nofun, rfl, fun _ => rfl, fun _ => rfl, nofun, ?_⟩
    exact Or.inl ⟨rfl, rfl⟩
  have hinv : ∃ w e, Inv isDet c w e :=
    h.invariant (I := fun c => ∃ w e, Inv isDet c w e) ⟨_, _, hinit⟩
      fun s a s' ⟨w, e, hs⟩ _ hstep => hs.step hstep
  obtain ⟨w, e, hinv⟩ := hinv
  exact hinv.led

/-- A star dissolves: its instance, opened for the first record, has become an identity and been merged
away when the second one comes, and the leadership is on its way behind that. -/
theorem star_dissolves : ∃ c, Reach (Chain.step true) anyStep Chain.init c ∧ Led true c ∧
    c.stages = [⟨.identity, [], [.starLeader ⟨2, 0⟩]⟩,
      ⟨.star false ⟨0, 0⟩, [.data ⟨1, none, [1]⟩, .data ⟨2, none, [2]⟩], []⟩] := by
  have hrun : runAll (Chain.step true) Chain.init [.enter none, .enter none, .land 0 .take,
      .land 0 (.write false 0), .land 1 .dissolve, .land 1 .merge, .land 0 .take,
      .land 0 (.write false 0)] = .done ⟨[⟨.identity, [], [.starLeader ⟨2, 0⟩]⟩,
        ⟨.star false ⟨0, 0⟩, [.data ⟨1, none, [1]⟩, .data ⟨2, none, [2]⟩], []⟩], 2,
        [(1, 1), (2, 2)], []⟩ := rfl
  have hreach := Reach.of_runAll .init (permitted_anyStep _ _ _) hrun
  exact ⟨_, hreach, star_leadership true hreach, rfl⟩

end SNet.Front.Star
