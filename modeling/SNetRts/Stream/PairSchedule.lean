import SNetRts.Stream.Pair

/-!
# Which sort records a collector has yet to read

The dispatcher sends every sort record, its mark, to all branches that are open. So what the collector
has yet to read from a branch is known from the marks, from how many of them it has read, and from
what has become of the branch: an open one has all marks before it, a closed one those up to its end.
The last branch has the special record behind the marks of the dispatcher, and behind that the outer
sort records with the levels they have outside.
-/

namespace SNet.Stream.Pair

open List

variable {D Γ : Type}

/-! ## Signs -/

/-- Records that are not data and do not belong to the streams as such. -/
def isSign : Rec D Γ → Bool
  | .sortEnd _ _ => true
  | .terminate _ => true
  | _ => false

def signs (q : List (Rec D Γ)) : List (Rec D Γ) := q.filter isSign

@[simp] theorem signs_append (q q' : List (Rec D Γ)) : signs (q ++ q') = signs q ++ signs q' :=
  filter_append ..

theorem signs_cons (r : Rec D Γ) (q : List (Rec D Γ)) :
    signs (r :: q) = if isSign r then r :: signs q else signs q :=
  filter_cons

theorem sortEnds_append (q q' : List (Rec D Γ)) : sortEnds (q ++ q') = sortEnds q ++ sortEnds q' :=
  filterMap_append

theorem sortEnds_signs (q : List (Rec D Γ)) : sortEnds (signs q) = sortEnds q := by
  induction q with
  | nil => rfl
  | cons r q ih =>
    rw [signs_cons]
    cases r with
    | sortEnd level num => exact congrArg (List.cons _) ih
    | _ => exact ih

def mark (m : Int × Int) : Rec D Γ := .sortEnd m.1 m.2

def under (m : Int × Int) : Rec D Γ := .sortEnd (m.1 - 1) m.2

def forward (m : Int × Int) : Option (Int × Int) := if 0 < m.1 then some (m.1 - 1, m.2) else none

theorem sortEnds_map_under {ms : List (Int × Int)} (h : ∀ m ∈ ms, 0 < m.1) :
    sortEnds (ms.map under : List (Rec D Γ)) = ms.filterMap forward := by
  induction ms with
  | nil => rfl
  | cons m ms ih =>
    have hm : forward m = some (m.1 - 1, m.2) := if_pos (h m mem_cons_self)
    rw [filterMap_cons_some hm, ← ih fun m hm => h m (mem_cons_of_mem _ hm)]
    rfl

/-! ## Schedules -/

/-- What has become of a branch. -/
inductive Status where
  | opened
  /-- It has been closed behind so many marks. -/
  | closed (t : Nat)
  /-- The dispatcher has left behind so many marks, and this branch alone goes on. -/
  | last (r : Nat)
deriving DecidableEq

structure Schedule where
  /-- The sort records of the dispatcher, and in the same way those that come after it. -/
  marks : List (Int × Int)
  /-- How many marks have gone through the collector. -/
  done : Nat
  ready : List Nat
  waiting : List Nat
  /-- The branch from which the special record has been read. -/
  seen : Option Nat
  status : Nat → Status

namespace Schedule

variable {num : Nat} {p : Schedule} {k : Nat}

def members (p : Schedule) : List Nat := p.ready ++ p.waiting

def pos (p : Schedule) (k : Nat) : Nat := if k ∈ p.waiting then p.done + 1 else p.done

def sent (p : Schedule) (k : Nat) : Nat :=
  match p.status k with
  | .closed t => t
  | _ => p.marks.length

def bound (p : Schedule) (k : Nat) : Nat :=
  match p.status k with
  | .opened => p.marks.length
  | .closed t => t
  | .last r => if p.seen = some k then p.marks.length else r

def expected (p : Schedule) (k : Nat) : List (Rec D Γ) :=
  match p.status k with
  | .opened => (p.marks.drop (p.pos k)).map mark
  | .closed t => ((p.marks.take t).drop (p.pos k)).map mark ++ [.terminate true]
  | .last r =>
    if p.seen = some k then (p.marks.drop (p.pos k)).map under
    else ((p.marks.take r).drop (p.pos k)).map mark ++ .sortEnd 0 (-1) :: (p.marks.drop r).map under

structure Ok (num : Nat) (p : Schedule) : Prop where
  level : ∀ m ∈ p.marks, 0 ≤ m.1
  /-- No mark is the special record. -/
  number : ∀ m ∈ p.marks, m.1 = 0 → m.2 ≠ -1
  done : p.done ≤ p.marks.length
  nodup : p.members.Nodup
  lt : ∀ k ∈ p.members, k < num
  pos : ∀ k ∈ p.members, p.pos k ≤ p.bound k
  left : ∀ k < num, k ∉ p.members → ∃ t, p.status k = .closed t ∧ t ≤ p.done
  closed : ∀ k t, p.status k = .closed t → t ≤ p.marks.length
  last : ∀ k r, p.status k = .last r → k < num ∧ r ≤ p.marks.length ∧
    (∀ m ∈ p.marks.drop r, 0 < m.1) ∧ ∀ j < num, j ≠ k → ∃ t, p.status j = .closed t ∧ t ≤ r
  seen : ∀ k, p.seen = some k → ∃ r, p.status k = .last r ∧ r ≤ p.done
  /-- The dispatcher has sent each of its marks to at least two branches. -/
  shared : ∀ n < p.marks.length, (∃ k r, p.status k = .last r ∧ r ≤ n) ∨
    ∃ j k, j < num ∧ k < num ∧ j ≠ k ∧ n < p.sent j ∧ n < p.sent k

/-! ### The branches that the collector listens to -/

theorem Ok.mem_of_not_closed (h : p.Ok num) (hk : k < num) (hs : ∀ t, p.status k ≠ .closed t) :
    k ∈ p.members := by
  by_contra hmem
  obtain ⟨t, ht, -⟩ := h.left k hk hmem
  exact hs t ht

theorem Ok.mem_of_lt_sent (h : p.Ok num) (hk : k < num) (hs : p.done < p.sent k) : k ∈ p.members := by
  by_contra hmem
  obtain ⟨t, ht, hle⟩ := h.left k hk hmem
  rw [sent, ht] at hs
  exact Nat.not_lt.2 hle hs

theorem Ok.seen_lt (h : p.Ok num) (hk : p.seen = some k) : k < num := by
  obtain ⟨r, hr, -⟩ := h.seen k hk
  exact (h.last k r hr).1

theorem Ok.last_unique (h : p.Ok num) {j r r' : Nat} (hk : p.status k = .last r)
    (hj : p.status j = .last r') : j = k := by
  by_contra hne
  obtain ⟨t, ht, -⟩ := (h.last k r hk).2.2.2 j (h.last j r' hj).1 hne
  rw [hj] at ht
  cases ht

theorem Ok.seen_unique (h : p.Ok num) {j r : Nat} (hk : p.status k = .last r) (hj : p.seen = some j) :
    j = k := by
  obtain ⟨r', hr', -⟩ := h.seen j hj
  exact h.last_unique hk hr'

theorem Ok.bound_le_sent (h : p.Ok num) (k : Nat) : p.bound k ≤ p.sent k := by
  unfold bound sent
  cases hs : p.status k with
  | opened => exact Nat.le_refl _
  | closed t => exact Nat.le_refl _
  | last r =>
    dsimp only
    split
    · exact Nat.le_refl _
    · exact (h.last k r hs).2.1

theorem Ok.sent_le (h : p.Ok num) (k : Nat) : p.sent k ≤ p.marks.length := by
  unfold sent
  cases hs : p.status k with
  | closed t => exact h.closed k t hs
  | _ => exact Nat.le_refl _

theorem Ok.seen_of_alone (h : p.Ok num) (hr : p.ready = []) {w : Nat} (hw : p.waiting = [w]) :
    p.seen = some w := by
  have hmembers : p.members = [w] := by
    rw [members, hr, hw]
    rfl
  have hpos : p.done + 1 ≤ p.bound w := by
    have hp := h.pos w (hmembers ▸ mem_singleton_self w)
    rwa [Schedule.pos, if_pos (hw ▸ mem_singleton_self w)] at hp
  have hsent := Nat.le_trans hpos (h.bound_le_sent w)
  rcases h.shared p.done (Nat.lt_of_lt_of_le hsent (h.sent_le w)) with
    ⟨k, r, hk, hr⟩ | ⟨j, k, hj, hk, hne, hsj, hsk⟩
  · have hmem := h.mem_of_not_closed (h.last k r hk).1 (by rw [hk]; nofun)
    rw [hmembers, mem_singleton] at hmem
    subst hmem
    by_contra hseen
    rw [bound, hk] at hpos
    dsimp only at hpos
    rw [if_neg hseen] at hpos
    omega
  · have hjw := h.mem_of_lt_sent hj hsj
    have hkw := h.mem_of_lt_sent hk hsk
    rw [hmembers, mem_singleton] at hjw hkw
    exact absurd (hjw.trans hkw.symm) hne

/-! ### What the dispatcher does -/

def grow (p : Schedule) (m : Int × Int) : Schedule := { p with marks := p.marks ++ [m] }

theorem Ok.grow (h : p.Ok num) {m : Int × Int} (hlevel : 0 ≤ m.1) (hnumber : m.1 = 0 → m.2 ≠ -1)
    (hlast : ∀ k r, p.status k = .last r → 0 < m.1)
    (hshared : (∃ k r, p.status k = .last r) ∨
      ∃ j k, j < num ∧ k < num ∧ j ≠ k ∧ p.status j = .opened ∧ p.status k = .opened) :
    (p.grow m).Ok num where
  level := List.forall_mem_append.2 ⟨h.level, forall_mem_singleton.2 hlevel⟩
  number := List.forall_mem_append.2 ⟨h.number, forall_mem_singleton.2 hnumber⟩
  done := Nat.le_trans h.done (by simp [Schedule.grow])
  nodup := h.nodup
  lt := h.lt
  pos := by
    intro k hk
    refine Nat.le_trans (h.pos k hk) ?_
    unfold bound Schedule.grow
    cases p.status k with
    | opened => simp
    | closed t => exact Nat.le_refl _
    | last r =>
      dsimp only
      split
      · simp
      · exact Nat.le_refl _
  left := h.left
  closed := fun k t ht => Nat.le_trans (h.closed k t ht) (by simp [Schedule.grow])
  last := by
    intro k r hr
    obtain ⟨hk, hle, hmarks, hothers⟩ := h.last k r hr
    refine ⟨hk, Nat.le_trans hle (by simp [Schedule.grow]), ?_, hothers⟩
    change ∀ x ∈ (p.marks ++ [m]).drop r, 0 < x.1
    rw [drop_append_of_le_length hle]
    exact List.forall_mem_append.2 ⟨hmarks, forall_mem_singleton.2 (hlast k r hr)⟩
  seen := h.seen
  shared := by
    intro n hn
    have hsent : ∀ k, p.sent k ≤ (p.grow m).sent k := by
      intro k
      unfold sent Schedule.grow
      cases p.status k <;> simp
    by_cases hold : n < p.marks.length
    · refine (h.shared n hold).imp_right ?_
      rintro ⟨j, k, hj, hk, hne, hsj, hsk⟩
      exact ⟨j, k, hj, hk, hne, Nat.lt_of_lt_of_le hsj (hsent j), Nat.lt_of_lt_of_le hsk (hsent k)⟩
    · rcases hshared with ⟨k, r, hr⟩ | ⟨j, k, hj, hk, hne, hoj, hok⟩
      · exact Or.inl ⟨k, r, hr, Nat.le_trans (h.last k r hr).2.1 (Nat.not_lt.1 hold)⟩
      · refine Or.inr ⟨j, k, hj, hk, hne, ?_, ?_⟩
        · unfold sent Schedule.grow
          rw [hoj]
          exact hn
        · unfold sent Schedule.grow
          rw [hok]
          exact hn

def sign (m : Int × Int) : Status → List (Rec D Γ)
  | .opened => [mark m]
  | .closed _ => []
  | .last _ => [under m]

theorem Ok.expected_grow (h : p.Ok num) (m : Int × Int) (hk : k ∈ p.members) :
    ((p.grow m).expected k : List (Rec D Γ)) = p.expected k ++ sign m (p.status k) := by
  have hpos := h.pos k hk
  unfold bound at hpos
  unfold expected sign
  change (match p.status k with
    | .opened => _ | .closed t => _ | .last r => _) = _
  cases hs : p.status k with
  | opened =>
    rw [hs] at hpos
    change (((p.marks ++ [m]).drop (p.pos k)).map mark : List (Rec D Γ)) = _
    rw [drop_append_of_le_length hpos, map_append]
    rfl
  | closed t =>
    change ((((p.marks ++ [m]).take t).drop (p.pos k)).map mark ++ _ : List (Rec D Γ)) = _
    rw [take_append_of_le_length (h.closed k t hs), append_nil]
  | last r =>
    rw [hs] at hpos
    dsimp only at hpos ⊢
    have hr := (h.last k r hs).2.1
    change (if p.seen = some k then (((p.marks ++ [m]).drop (p.pos k)).map under : List (Rec D Γ))
      else ((((p.marks ++ [m]).take r).drop (p.pos k)).map mark ++
        .sortEnd 0 (-1) :: ((p.marks ++ [m]).drop r).map under)) = _
    split
    · rename_i hseen
      rw [if_pos hseen] at hpos
      rw [drop_append_of_le_length hpos, map_append]
      rfl
    · rw [take_append_of_le_length hr, drop_append_of_le_length hr, map_append,
        append_assoc]
      rfl

def close (p : Schedule) (f : Nat → Bool) : Schedule :=
  { p with status := fun k => if f k then .closed p.marks.length else p.status k }

theorem status_close {f : Nat → Bool} (hfk : f k = true) : (p.close f).status k = .closed p.marks.length :=
  if_pos hfk

theorem status_close_of_not {f : Nat → Bool} (hfk : ¬ f k = true) : (p.close f).status k = p.status k :=
  if_neg hfk

theorem Ok.close (h : p.Ok num) {f : Nat → Bool} (hf : ∀ k, f k = true → p.status k = .opened)
    (hlast : ∀ k r, p.status k ≠ .last r) : (p.close f).Ok num where
  level := h.level
  number := h.number
  done := h.done
  nodup := h.nodup
  lt := h.lt
  pos := by
    intro k hk
    have hpos := h.pos k hk
    unfold bound at *
    by_cases hfk : f k = true
    · rw [hf k hfk] at hpos
      rw [status_close hfk]
      exact hpos
    · rw [status_close_of_not hfk]
      exact hpos
  left := by
    intro k hk hmem
    obtain ⟨t, ht, hle⟩ := h.left k hk hmem
    have hfk : ¬ f k = true := fun hfk => by
      rw [hf k hfk] at ht
      cases ht
    exact ⟨t, (status_close_of_not hfk).trans ht, hle⟩
  closed := by
    intro k t ht
    by_cases hfk : f k = true
    · rw [status_close hfk] at ht
      cases ht
      exact Nat.le_refl _
    · exact h.closed k t ((status_close_of_not hfk).symm.trans ht)
  last := by
    intro k r hr
    by_cases hfk : f k = true
    · rw [status_close hfk] at hr
      cases hr
    · exact absurd ((status_close_of_not hfk).symm.trans hr) (hlast k r)
  seen := by
    intro k hk
    obtain ⟨r, hr, -⟩ := h.seen k hk
    exact absurd hr (hlast k r)
  shared := by
    intro n hn
    have hsent : ∀ k, (p.close f).sent k = p.sent k := by
      intro k
      unfold sent
      by_cases hfk : f k = true
      · rw [status_close hfk, hf k hfk]
      · rw [status_close_of_not hfk]
        rfl
    rcases h.shared n hn with ⟨k, r, hr, -⟩ | ⟨j, k, hj, hk, hne, hsj, hsk⟩
    · exact absurd hr (hlast k r)
    · exact Or.inr ⟨j, k, hj, hk, hne, (hsent j).symm ▸ hsj, (hsent k).symm ▸ hsk⟩

theorem expected_close {f : Nat → Bool} (hf : ∀ k, f k = true → p.status k = .opened) (k : Nat) :
    ((p.close f).expected k : List (Rec D Γ)) =
      p.expected k ++ if f k then [.terminate true] else [] := by
  unfold expected
  by_cases hfk : f k = true
  · rw [status_close hfk, hf k hfk, if_pos hfk]
    change (((p.marks.take p.marks.length).drop (p.pos k)).map mark ++ _ : List (Rec D Γ)) = _
    rw [take_length]
  · rw [status_close_of_not hfk, if_neg hfk, append_nil]
    rfl

def leave (p : Schedule) (k : Nat) : Schedule :=
  { p with status := Function.update p.status k (.last p.marks.length) }

theorem status_leave : (p.leave k).status k = .last p.marks.length := Function.update_self ..

theorem status_leave_of_ne {j : Nat} (hne : j ≠ k) : (p.leave k).status j = p.status j :=
  Function.update_of_ne hne ..

theorem Ok.leave (h : p.Ok num) (hk : k < num) (hopen : p.status k = .opened)
    (hothers : ∀ j < num, j ≠ k → ∃ t, p.status j = .closed t) : (p.leave k).Ok num := by
  have hnone : ∀ j r, p.status j ≠ .last r := by
    intro j r hr
    have hjk : j ≠ k := by
      rintro rfl
      rw [hopen] at hr
      cases hr
    obtain ⟨t, ht⟩ := hothers j (h.last j r hr).1 hjk
    rw [hr] at ht
    cases ht
  refine ⟨h.level, h.number, h.done, h.nodup, h.lt, ?_, ?_, ?_, ?_, ?_, ?_⟩
  · intro j hj
    have hpos := h.pos j hj
    unfold bound at *
    by_cases hjk : j = k
    · subst hjk
      rw [hopen] at hpos
      rw [status_leave]
      dsimp only
      split <;> exact hpos
    · rw [status_leave_of_ne hjk]
      exact hpos
  · intro j hj hmem
    obtain ⟨t, ht, hle⟩ := h.left j hj hmem
    have hjk : j ≠ k := by
      rintro rfl
      rw [hopen] at ht
      cases ht
    exact ⟨t, (status_leave_of_ne hjk).trans ht, hle⟩
  · intro j t ht
    by_cases hjk : j = k
    · subst hjk
      rw [status_leave] at ht
      cases ht
    · exact h.closed j t ((status_leave_of_ne hjk).symm.trans ht)
  · intro j r hr
    by_cases hjk : j = k
    · subst hjk
      rw [status_leave] at hr
      cases hr
      refine ⟨hk, Nat.le_refl _, ?_, fun i hi hne => ?_⟩
      · change ∀ m ∈ p.marks.drop p.marks.length, 0 < m.1
        rw [drop_length]
        nofun
      · obtain ⟨t, ht⟩ := hothers i hi hne
        exact ⟨t, (status_leave_of_ne hne).trans ht, h.closed i t ht⟩
    · exact absurd ((status_leave_of_ne hjk).symm.trans hr) (hnone j r)
  · intro j hj
    obtain ⟨r, hr, -⟩ := h.seen j hj
    exact absurd hr (hnone j r)
  · intro n hn
    have hsent : ∀ j, (p.leave k).sent j = p.sent j := by
      intro j
      unfold sent
      by_cases hjk : j = k
      · subst hjk
        rw [status_leave, hopen]
        rfl
      · rw [status_leave_of_ne hjk]
        rfl
    rcases h.shared n hn with ⟨j, r, hr, -⟩ | ⟨i, j, hi, hj, hne, hsi, hsj⟩
    · exact absurd hr (hnone j r)
    · exact Or.inr ⟨i, j, hi, hj, hne, (hsent i).symm ▸ hsi, (hsent j).symm ▸ hsj⟩

theorem expected_leave (hopen : p.status k = .opened) (hseen : p.seen = none) (j : Nat) :
    ((p.leave k).expected j : List (Rec D Γ)) =
      p.expected j ++ if j = k then [.sortEnd 0 (-1)] else [] := by
  unfold expected
  by_cases hjk : j = k
  · subst hjk
    rw [status_leave, if_pos rfl, hopen]
    change (if p.seen = some j then _ else ((p.marks.take p.marks.length).drop (p.pos j)).map mark ++
      .sortEnd 0 (-1) :: (p.marks.drop p.marks.length).map under : List (Rec D Γ)) = _
    rw [if_neg (by rw [hseen]; nofun), take_length, drop_length]
    rfl
  · rw [status_leave_of_ne hjk, if_neg hjk, append_nil]
    rfl

/-! ### What the collector reads -/

def hear (p : Schedule) (k : Nat) : Schedule := { p with seen := some k }

theorem Ok.hear (h : p.Ok num) {r : Nat} (hk : k ∈ p.ready) (hs : p.status k = .last r)
    (hr : r ≤ p.done) : (p.hear k).Ok num := by
  refine ⟨h.level, h.number, h.done, h.nodup, h.lt, ?_, h.left, h.closed, h.last, ?_, h.shared⟩
  · intro j hj
    unfold bound
    change p.pos j ≤ match p.status j with | .opened => _ | .closed t => _ | .last r => _
    have hpos := h.pos j hj
    unfold bound at hpos
    cases hsj : p.status j with
    | opened => rwa [hsj] at hpos
    | closed t => rwa [hsj] at hpos
    | last r' =>
      have hjk := h.last_unique hs hsj
      subst hjk
      have hseen : (p.hear j).seen = some j := rfl
      dsimp only
      rw [if_pos hseen]
      have hnot : j ∉ p.waiting := fun hw => (nodup_append.1 h.nodup).2.2 j hk j hw rfl
      rw [Schedule.pos, if_neg hnot]
      exact h.done
  · intro j hj
    cases hj
    exact ⟨r, hs, hr⟩

def wait (p : Schedule) (k : Nat) : Schedule :=
  { p with ready := p.ready.erase k, waiting := p.waiting ++ [k] }

theorem members_wait (hk : k ∈ p.ready) : (p.wait k).members.Perm p.members := by
  have hready : p.ready.Perm (k :: p.ready.erase k) := perm_cons_erase hk
  have hmove : (p.ready.erase k ++ (p.waiting ++ [k])).Perm (k :: p.ready.erase k ++ p.waiting) := by
    rw [← append_assoc]
    exact perm_append_singleton k _
  exact hmove.trans (hready.symm.append_right _)

theorem pos_wait : (p.wait k).pos k = p.done + 1 := if_pos (by simp [wait])

theorem status_wait (j : Nat) : (p.wait k).status j = p.status j := rfl

theorem pos_wait_of_ne {j : Nat} (hne : j ≠ k) : (p.wait k).pos j = p.pos j := by
  simp [Schedule.pos, wait, hne]

theorem Ok.not_waiting (h : p.Ok num) (hk : k ∈ p.ready) : k ∉ p.waiting := fun hw =>
  (nodup_append.1 h.nodup).2.2 k hk k hw rfl

theorem Ok.pos_ready (h : p.Ok num) (hk : k ∈ p.ready) : p.pos k = p.done := if_neg (h.not_waiting hk)

theorem Ok.wait (h : p.Ok num) (hk : k ∈ p.ready) (hb : p.done < p.bound k) : (p.wait k).Ok num := by
  have hperm := members_wait hk
  refine ⟨h.level, h.number, h.done, hperm.nodup_iff.2 h.nodup,
    fun j hj => h.lt j (hperm.mem_iff.1 hj), fun j hj => ?_,
    fun j hj hmem => h.left j hj fun hm => hmem (hperm.mem_iff.2 hm), h.closed, h.last, h.seen, h.shared⟩
  by_cases hjk : j = k
  · subst hjk
    rw [pos_wait]
    exact hb
  · rw [pos_wait_of_ne hjk]
    exact h.pos j (hperm.mem_iff.1 hj)

theorem expected_wait_of_ne {j : Nat} (hne : j ≠ k) :
    ((p.wait k).expected j : List (Rec D Γ)) = p.expected j := by
  unfold expected
  rw [pos_wait_of_ne hne]
  rfl

def lose (p : Schedule) (k : Nat) : Schedule := { p with ready := p.ready.erase k }

theorem Ok.lose (h : p.Ok num) {t : Nat} (hs : p.status k = .closed t) (ht : t ≤ p.done) :
    (p.lose k).Ok num := by
  have hsub : (p.lose k).members.Sublist p.members := erase_sublist.append_right _
  refine ⟨h.level, h.number, h.done, h.nodup.sublist hsub, fun j hj => h.lt j (hsub.mem hj),
    fun j hj => h.pos j (hsub.mem hj), fun j hj hmem => ?_, h.closed, h.last, h.seen, h.shared⟩
  by_cases hjk : j = k
  · exact ⟨t, hjk ▸ hs, ht⟩
  · refine h.left j hj fun hm => hmem ?_
    rcases mem_append.1 hm with hm | hm
    · exact mem_append_left _ ((mem_erase_of_ne hjk).2 hm)
    · exact mem_append_right _ hm

def turn (p : Schedule) : Schedule :=
  { p with ready := p.waiting, waiting := [], done := p.done + 1 }

theorem members_turn (hr : p.ready = []) : p.turn.members = p.members := by
  simp [members, turn, hr]

theorem pos_turn (hr : p.ready = []) (hk : k ∈ p.members) : p.turn.pos k = p.pos k := by
  have hw : k ∈ p.waiting := by simpa [members, hr] using hk
  rw [Schedule.pos, Schedule.pos, if_pos hw]
  exact if_neg not_mem_nil

theorem Ok.done_lt (h : p.Ok num) (hw : p.waiting ≠ []) : p.done < p.marks.length := by
  obtain ⟨w, hw⟩ := exists_mem_of_ne_nil _ hw
  have hpos := h.pos w (mem_append_right _ hw)
  rw [Schedule.pos, if_pos hw] at hpos
  exact Nat.lt_of_lt_of_le (Nat.lt_of_succ_le hpos) (Nat.le_trans (h.bound_le_sent w) (h.sent_le w))

theorem Ok.turn (h : p.Ok num) (hr : p.ready = []) (hw : p.waiting ≠ []) : p.turn.Ok num := by
  have hmembers := members_turn hr
  refine ⟨h.level, h.number, h.done_lt hw, hmembers.symm ▸ h.nodup, hmembers.symm ▸ h.lt, ?_, ?_,
    h.closed, h.last, ?_, h.shared⟩
  · rw [hmembers]
    intro k hk
    rw [pos_turn hr hk]
    exact h.pos k hk
  · rw [hmembers]
    intro k hk hmem
    obtain ⟨t, ht, hle⟩ := h.left k hk hmem
    exact ⟨t, ht, Nat.le_succ_of_le hle⟩
  · intro k hk
    obtain ⟨r, hs, hle⟩ := h.seen k hk
    exact ⟨r, hs, Nat.le_succ_of_le hle⟩

theorem expected_turn (hr : p.ready = []) (hk : k ∈ p.members) :
    (p.turn.expected k : List (Rec D Γ)) = p.expected k := by
  unfold expected
  rw [pos_turn hr hk]
  rfl

/-! ### What comes next on a branch -/

/-- What the collector finds next on a branch, and how it goes on. -/
inductive Found (p : Schedule) (k : Nat) : Rec D Γ → List (Rec D Γ) → Prop where
  | mark {rest : List (Rec D Γ)} (m : Int × Int) (hm : p.marks[p.done]? = some m)
      (hseen : p.seen ≠ some k) (hb : p.done < p.bound k) (hrest : (p.wait k).expected k = rest) :
      Found p k (mark m) rest
  | under {rest : List (Rec D Γ)} (m : Int × Int) (hm : p.marks[p.done]? = some m)
      (hseen : p.seen = some k) (hb : p.done < p.bound k) (hrest : (p.wait k).expected k = rest) :
      Found p k (under m) rest
  | special {rest : List (Rec D Γ)} (r : Nat) (hs : p.status k = .last r) (hr : r ≤ p.done)
      (hseen : p.seen = none) (hrest : (p.hear k).expected k = rest) : Found p k (.sortEnd 0 (-1)) rest
  | terminate (t : Nat) (hs : p.status k = .closed t) (ht : t ≤ p.done) :
      Found p k (.terminate true) []

theorem drop_eq_cons {α : Type} {l l' : List α} {n : Nat} {a : α} (h : l.drop n = a :: l') :
    n < l.length ∧ l[n]? = some a ∧ l.drop (n + 1) = l' := by
  have hlt : n < l.length := by
    by_contra hn
    rw [drop_of_length_le (Nat.not_lt.1 hn)] at h
    cases h
  rw [drop_eq_getElem_cons hlt] at h
  injection h with hhead htail
  exact ⟨hlt, by rw [getElem?_eq_getElem hlt, hhead], htail⟩

theorem take_drop_eq_cons {α : Type} {l l' : List α} {n t : Nat} {a : α} (h : (l.take t).drop n = a :: l') :
    n < t ∧ l[n]? = some a ∧ (l.take t).drop (n + 1) = l' := by
  obtain ⟨hlt, ha, hrest⟩ := drop_eq_cons h
  have hnt : n < t := Nat.lt_of_lt_of_le hlt (length_take_le t l)
  rw [getElem?_take_of_lt hnt] at ha
  exact ⟨hnt, ha, hrest⟩

theorem Ok.found (h : p.Ok num) (hk : k ∈ p.ready) {r : Rec D Γ} {rest : List (Rec D Γ)}
    (he : p.expected k = r :: rest) : Found p k r rest := by
  have hpos := h.pos_ready hk
  have hbound := h.pos k (mem_append_left _ hk)
  unfold expected at he
  cases hs : p.status k with
  | opened =>
    rw [hs, hpos] at he
    dsimp only at he
    obtain ⟨m, ms, hd, rfl, rfl⟩ := map_eq_cons_iff.1 he
    obtain ⟨hlt, hm, hd⟩ := drop_eq_cons hd
    refine .mark m hm (fun hseen => ?_) ?_ ?_
    · obtain ⟨r, hr, -⟩ := h.seen k hseen
      rw [hs] at hr
      cases hr
    · unfold bound
      rw [hs]
      exact hlt
    · unfold expected
      rw [pos_wait, status_wait, hs]
      exact congrArg _ hd
  | closed t =>
    rw [hs, hpos] at he
    dsimp only at he
    cases hd : (p.marks.take t).drop p.done with
    | nil =>
      rw [hd] at he
      cases he
      refine .terminate t hs ?_
      have hlen := congrArg List.length hd
      rw [length_drop, length_take_of_le (h.closed k t hs)] at hlen
      exact Nat.le_of_sub_eq_zero hlen
    | cons m ms =>
      rw [hd] at he
      cases he
      obtain ⟨hlt, hm, hd⟩ := take_drop_eq_cons hd
      refine .mark m hm (fun hseen => ?_) ?_ ?_
      · obtain ⟨r, hr, -⟩ := h.seen k hseen
        rw [hs] at hr
        cases hr
      · unfold bound
        rw [hs]
        exact hlt
      · unfold expected
        rw [pos_wait, status_wait, hs]
        exact congrArg (fun x : List (Int × Int) => x.map Pair.mark ++ [.terminate true]) hd
  | last r =>
    rw [hs, hpos] at he
    dsimp only at he
    by_cases hseen : p.seen = some k
    · rw [if_pos hseen] at he
      obtain ⟨m, ms, hd, rfl, rfl⟩ := map_eq_cons_iff.1 he
      obtain ⟨hlt, hm, hd⟩ := drop_eq_cons hd
      refine .under m hm hseen ?_ ?_
      · unfold bound
        rw [hs]
        dsimp only
        rw [if_pos hseen]
        exact hlt
      · unfold expected
        rw [pos_wait, status_wait, hs]
        exact (if_pos hseen).trans (congrArg _ hd)
    · rw [if_neg hseen] at he
      have hnone : p.seen = none := by
        cases hj : p.seen with
        | none => rfl
        | some j => exact absurd (hj.trans (congrArg some (h.seen_unique hs hj))) hseen
      cases hd : (p.marks.take r).drop p.done with
      | nil =>
        rw [hd] at he
        cases he
        have hlen := congrArg List.length hd
        rw [length_drop, length_take_of_le (h.last k r hs).2.1] at hlen
        have hr : r ≤ p.done := Nat.le_of_sub_eq_zero hlen
        have hdone : p.done = r := by
          unfold bound at hbound
          rw [hs, hpos] at hbound
          dsimp only at hbound
          rw [if_neg hseen] at hbound
          exact Nat.le_antisymm hbound hr
        refine .special r hs hr hnone ?_
        unfold expected
        change (match p.status k with | .opened => _ | .closed t => _ | .last r => _) = _
        rw [hs]
        refine (if_pos rfl).trans ?_
        change ((p.marks.drop (p.pos k)).map Pair.under : List (Rec D Γ)) = _
        rw [hpos, hdone]
      | cons m ms =>
        rw [hd] at he
        cases he
        obtain ⟨hlt, hm, hd⟩ := take_drop_eq_cons hd
        refine .mark m hm hseen ?_ ?_
        · unfold bound
          rw [hs]
          dsimp only
          rw [if_neg hseen]
          exact hlt
        · unfold expected
          rw [pos_wait, status_wait, hs]
          refine (if_neg hseen).trans ?_
          exact congrArg (fun x : List (Int × Int) => x.map Pair.mark ++
            .sortEnd 0 (-1) :: (p.marks.drop r).map Pair.under) hd

end Schedule

end SNet.Stream.Pair
