import SNetRts.Stream.Phases

/-!
# The collector of phased streams

The collector is in one phase at a time. It reads the streams of its ready set in this phase; those
of its waiting set have reached the next one. A stream that is announced by a record that is still
unread begins in the phase in which the collector will read the record. So all data records of a
phase leave before its mark.
-/

namespace SNet.Stream

open Function (update update_of_ne update_self)

open Lib List

variable {D Γ : Type}

/-! ## The streams to a collector -/

/-- The entities that write to a collector: their number, which of them do, the phase each of them
is in, and whether it has terminated. -/
structure Writers where
  size : Nat
  writes : Nat → Bool
  phase : Nat → Nat
  stopped : Nat → Bool

def Writers.Has (w : Writers) (s : StreamId) : Prop := s ≤ w.size ∧ w.writes s = true

/-- The streams to a collector, each with the phase that its unread part begins in. The collector
has the streams in `known`; those in `dead` have delivered a terminate record. -/
structure Table (p : Plan) (w : Writers) (queue : Queues (Item D) Γ) (known dead : List StreamId)
    (pos : StreamId → Nat) : Prop where
  phased : ∀ s, w.Has s → s ∉ dead → Phased p (pos s) (queue s) (w.phase s) (w.stopped s)
  has : ∀ s ∈ known, w.Has s
  past : ∀ s ∈ dead, s ∈ known ∧ queue s = [] ∧ w.stopped s = true
  new : ∀ s, w.Has s → s ∉ known → pos s = p.birth s ∧ ∃ i < s, Rec.collect s ∈ queue i
  idle : ∀ s, ¬ w.Has s → queue s = []
  announced : ∀ i s, Rec.collect s ∈ queue i → w.Has s ∧ s ∉ known
  unique : ∀ i j s, Rec.collect s ∈ queue i → Rec.collect s ∈ queue j → i = j
  once : ∀ i, (newStreams (queue i)).Nodup

variable {p : Plan} {w : Writers} {queue : Queues (Item D) Γ} {known dead : List StreamId}
  {pos : StreamId → Nat} {s t : StreamId} {q : List (Rec (Item D) Γ)} {r : Rec (Item D) Γ}

theorem mem_newStreams : s ∈ newStreams q ↔ Rec.collect s ∈ q := by
  unfold newStreams
  rw [mem_filterMap]
  constructor
  · rintro ⟨r, hr, h⟩
    cases r <;> simp at h
    exact h ▸ hr
  · exact fun h => ⟨_, h, rfl⟩

theorem newStreams_append (q q' : List (Rec (Item D) Γ)) :
    newStreams (q ++ q') = newStreams q ++ newStreams q' := filterMap_append

theorem collect_of_update (hq : queue s = r :: q) {i : StreamId}
    (h : Rec.collect t ∈ update queue s q i) : Rec.collect t ∈ queue i := by
  by_cases hi : i = s
  · subst hi
    rw [update_self] at h
    rw [hq]
    exact mem_cons_of_mem _ h
  · rwa [update_of_ne hi] at h

theorem once_update (h : ∀ i, (newStreams (queue i)).Nodup) (hq : queue s = r :: q) (i : StreamId) :
    (newStreams (update queue s q i)).Nodup := by
  by_cases hi : i = s
  · subst hi
    rw [update_self]
    have := h i
    rw [hq] at this
    exact this.sublist (List.Sublist.filterMap _ (sublist_cons_self _ _))
  · rw [update_of_ne hi]
    exact h i

namespace Table

theorem notMem_dead (h : Table p w queue known dead pos) (hq : queue s = r :: q) : s ∉ dead := by
  intro hs
  rw [(h.past s hs).2.1] at hq
  cases hq

theorem has_of_cons (h : Table p w queue known dead pos) (hq : queue s = r :: q) : w.Has s := by
  by_contra hno
  rw [h.idle s hno] at hq
  cases hq

theorem read (h : Table p w queue known dead pos) (hq : queue s = r :: q) (hs : s ∈ known)
    (hr : ∀ t, r ≠ .collect t) {k : Nat} (hk : Phased p k q (w.phase s) (w.stopped s)) :
    Table p w (update queue s q) known dead (update pos s k) := by
  have hnd := h.notMem_dead hq
  refine ⟨?_, h.has, ?_, ?_, ?_, fun i t ht => h.announced i t (collect_of_update hq ht),
    fun i j t hi hj => h.unique i j t (collect_of_update hq hi) (collect_of_update hq hj),
    once_update h.once hq⟩
  · intro t ht htd
    by_cases hts : t = s
    · subst hts
      rwa [update_self, update_self]
    · rw [update_of_ne hts, update_of_ne hts]
      exact h.phased t ht htd
  · intro t ht
    have hts : t ≠ s := fun e => hnd (e ▸ ht)
    rw [update_of_ne hts]
    exact h.past t ht
  · intro t ht htk
    have hts : t ≠ s := fun e => htk (e ▸ hs)
    obtain ⟨h1, i, hi, hmem⟩ := h.new t ht htk
    refine ⟨by rwa [update_of_ne hts], i, hi, ?_⟩
    by_cases his : i = s
    · subst his
      rw [update_self]
      rw [hq] at hmem
      exact (mem_cons.1 hmem).resolve_left fun e => hr t e.symm
    · rwa [update_of_ne his]
  · intro t ht
    have hts : t ≠ s := fun e => ht (e ▸ h.has_of_cons hq)
    rw [update_of_ne hts]
    exact h.idle t ht

theorem readCollect (h : Table p w queue known dead pos) (hq : queue s = .collect t :: q)
    (hs : s ∈ known) (hk : Phased p (pos s) q (w.phase s) (w.stopped s)) :
    Table p w (update queue s q) (t :: known) dead pos := by
  have hnd := h.notMem_dead hq
  obtain ⟨htw, htk⟩ := h.announced s t (by rw [hq]; exact mem_cons_self)
  have hts : t ≠ s := fun e => htk (e ▸ hs)
  -- it has been announced only once
  have hgone : ∀ i, Rec.collect t ∉ update queue s q i := by
    intro i hi
    obtain rfl : i = s := h.unique i s t (collect_of_update hq hi)
      (by rw [hq]; exact mem_cons_self)
    rw [update_self] at hi
    have hnodup := h.once i
    rw [hq] at hnodup
    exact (nodup_cons.1 hnodup).1 (mem_newStreams.2 hi)
  refine ⟨?_, ?_, ?_, ?_, ?_, ?_,
    fun i j t hi hj => h.unique i j t (collect_of_update hq hi) (collect_of_update hq hj),
    once_update h.once hq⟩
  · intro u hu hud
    by_cases hus : u = s
    · subst hus
      rwa [update_self]
    · rw [update_of_ne hus]
      exact h.phased u hu hud
  · intro u hu
    rcases mem_cons.1 hu with rfl | hu
    · exact htw
    · exact h.has u hu
  · intro u hu
    have hus : u ≠ s := fun e => hnd (e ▸ hu)
    rw [update_of_ne hus]
    obtain ⟨h1, h2, h3⟩ := h.past u hu
    exact ⟨mem_cons_of_mem _ h1, h2, h3⟩
  · intro u hu huk
    rw [mem_cons, not_or] at huk
    obtain ⟨h1, i, hi, hmem⟩ := h.new u hu huk.2
    refine ⟨h1, i, hi, ?_⟩
    by_cases his : i = s
    · subst his
      rw [update_self]
      rw [hq] at hmem
      refine (mem_cons.1 hmem).resolve_left fun e => huk.1 ?_
      cases e
      rfl
    · rwa [update_of_ne his]
  · intro u hu
    have hus : u ≠ s := fun e => hu (e ▸ h.has_of_cons hq)
    rw [update_of_ne hus]
    exact h.idle u hu
  · intro i u hu
    obtain ⟨h1, h2⟩ := h.announced i u (collect_of_update hq hu)
    refine ⟨h1, fun hmem => ?_⟩
    rcases mem_cons.1 hmem with rfl | hmem
    · exact hgone i hu
    · exact h2 hmem

theorem die (h : Table p w queue known dead pos) {flag : Bool} (hq : queue s = .terminate flag :: q)
    (hs : s ∈ known) : Table p w (update queue s q) known (s :: dead) pos ∧ q = [] ∧
      pos s = w.phase s ∧ w.stopped s = true := by
  have hnd := h.notMem_dead hq
  have hph := h.phased s (h.has s hs) hnd
  rw [hq] at hph
  obtain ⟨rfl, hpos, hfin⟩ := hph
  refine ⟨⟨?_, h.has, ?_, ?_, ?_, fun i t ht => h.announced i t (collect_of_update hq ht),
    fun i j t hi hj => h.unique i j t (collect_of_update hq hi) (collect_of_update hq hj),
    once_update h.once hq⟩, rfl, hpos, hfin⟩
  · intro t ht htd
    rw [mem_cons, not_or] at htd
    rw [update_of_ne htd.1]
    exact h.phased t ht htd.2
  · intro t ht
    by_cases hts : t = s
    · subst hts
      rw [update_self]
      exact ⟨hs, rfl, hfin⟩
    · rw [update_of_ne hts]
      exact h.past t ((mem_cons.1 ht).resolve_left hts)
  · intro t ht htk
    obtain ⟨h1, i, hi, hmem⟩ := h.new t ht htk
    refine ⟨h1, i, hi, ?_⟩
    by_cases his : i = s
    · subst his
      rw [hq] at hmem
      simp at hmem
    · rwa [update_of_ne his]
  · intro t ht
    have hts : t ≠ s := fun e => ht (e ▸ h.has_of_cons hq)
    rw [update_of_ne hts]
    exact h.idle t ht

theorem dieAll (h : Table p w queue known dead pos) {gone : List StreamId}
    (hg : ∀ s ∈ gone, s ∈ known ∧ Collector.termNext queue s = true) :
    Table p w (fun s => if s ∈ gone then (queue s).tail else queue s) known (gone ++ dead) pos := by
  have hlast : ∀ s ∈ gone, (queue s).tail = [] ∧ w.stopped s = true := by
    intro s hs
    obtain ⟨hk, ht⟩ := hg s hs
    cases hq : queue s with
    | nil => simp [Collector.termNext, hq] at ht
    | cons r q =>
      have hph := h.phased s (h.has s hk) (h.notMem_dead hq)
      rw [hq] at hph
      cases r with
      | terminate flag => exact ⟨hph.1, hph.2.2⟩
      | _ => simp [Collector.termNext, hq] at ht
  have hcol : ∀ i t, Rec.collect t ∈ (if i ∈ gone then (queue i).tail else queue i) →
      i ∉ gone ∧ Rec.collect t ∈ queue i := by
    intro i t ht
    split at ht
    · rename_i hi
      rw [(hlast i hi).1] at ht
      cases ht
    · rename_i hi
      exact ⟨hi, ht⟩
  refine ⟨?_, h.has, ?_, ?_, ?_, fun i t ht => h.announced i t (hcol i t ht).2,
    fun i j t hi hj => h.unique i j t (hcol i t hi).2 (hcol j t hj).2, ?_⟩
  · intro t ht htd
    rw [mem_append, not_or] at htd
    simp only [htd.1, if_false]
    exact h.phased t ht htd.2
  · intro t ht
    by_cases hgt : t ∈ gone
    · simp only [hgt, if_true]
      exact ⟨(hg t hgt).1, hlast t hgt⟩
    · simp only [hgt, if_false]
      exact h.past t ((mem_append.1 ht).resolve_left hgt)
  · intro t ht htk
    obtain ⟨h1, i, hi, hmem⟩ := h.new t ht htk
    refine ⟨h1, i, hi, ?_⟩
    have hgi : i ∉ gone := by
      intro hgi
      obtain ⟨hk, htn⟩ := hg i hgi
      cases hq : queue i with
      | nil => simp [hq] at hmem
      | cons r q =>
        have htl := (hlast i hgi).1
        rw [hq, tail_cons] at htl
        rw [hq, htl, mem_singleton] at hmem
        rw [Collector.termNext, hq, ← hmem] at htn
        cases htn
    simpa only [hgi, if_false] using hmem
  · intro t ht
    have hgt : t ∉ gone := fun hgt => ht (h.has t (hg t hgt).1)
    simp only [hgt, if_false]
    exact h.idle t ht
  · intro i
    by_cases hgi : i ∈ gone
    · simp only [hgi, if_true, (hlast i hgi).1]
      exact nodup_nil
    · simp only [hgi, if_false]
      exact h.once i

theorem congr_known {known' : List StreamId} (h : Table p w queue known dead pos)
    (hk : ∀ s, s ∈ known' ↔ s ∈ known) : Table p w queue known' dead pos := by
  refine ⟨h.phased, fun s hs => h.has s ((hk s).1 hs), ?_, ?_, h.idle, ?_, h.unique, h.once⟩
  · intro s hs
    obtain ⟨h1, h2⟩ := h.past s hs
    exact ⟨(hk s).2 h1, h2⟩
  · exact fun s hs hno => h.new s hs fun hmem => hno ((hk s).2 hmem)
  · intro i s hs
    obtain ⟨h1, h2⟩ := h.announced i s hs
    exact ⟨h1, fun hmem => h2 ((hk s).1 hmem)⟩

theorem all_dead (h : Table p w queue known dead pos) (hk : ∀ s ∈ known, s ∈ dead) :
    ∀ s, w.Has s → s ∈ dead := by
  intro s
  induction s using Nat.strongRecOn with
  | ind s ih =>
    intro hs
    by_contra hno
    obtain ⟨-, i, hi, hmem⟩ := h.new s hs fun hks => hno (hk s hks)
    have hempty : queue i = [] := by
      by_cases hw : w.Has i
      · exact (h.past i (ih i hi hw)).2.1
      · exact h.idle i hw
    rw [hempty] at hmem
    cases hmem

theorem feed (h : Table p w queue known dead pos) {p' : Plan} {w' : Writers} {e : Nat}
    {seg : List (Rec (Item D) Γ)} (hmarks : p.marks <+: p'.marks) (hoff : p'.offset = p.offset)
    (hbirth : ∀ s ≤ w.size, p'.birth s = p.birth s) (hsize : w.size ≤ w'.size)
    (hwrites : w'.writes = w.writes) (he : e ≤ w.size) (hstop : w.stopped e = false)
    (hsame : ∀ s ≤ w.size, s ≠ e → w'.phase s = w.phase s ∧ w'.stopped s = w.stopped s)
    (hseg : w.writes e = true → Phased p' (w.phase e) seg (w'.phase e) (w'.stopped e))
    (hquiet : w.writes e = false → seg = [])
    (hnew : ∀ s, Rec.collect s ∈ seg ↔ w.size < s ∧ s ≤ w'.size ∧ w.writes s = true)
    (hnodup : (newStreams seg).Nodup)
    (hborn : ∀ s, w.size < s → s ≤ w'.size → w'.phase s = p'.birth s ∧ w'.stopped s = false) :
    Table p' w' (update queue e (queue e ++ seg)) known dead
      (fun s => if s ≤ w.size then pos s else p'.birth s) := by
  have hold : ∀ i t, Rec.collect t ∈ queue i → t ≤ w.size := fun i t ht => (h.announced i t ht).1.1
  have hhas : ∀ t, w.Has t → w'.Has t := fun t ht => ⟨Nat.le_trans ht.1 hsize, hwrites ▸ ht.2⟩
  have hback : ∀ t, w'.Has t → t ≤ w.size → w.Has t := fun t ht hle => ⟨hle, hwrites ▸ ht.2⟩
  have hmem : ∀ i t, Rec.collect t ∈ update queue e (queue e ++ seg) i →
      Rec.collect t ∈ queue i ∨ i = e ∧ Rec.collect t ∈ seg := by
    intro i t ht
    by_cases hi : i = e
    · subst hi
      rw [update_self] at ht
      exact (mem_append.1 ht).imp_right fun h => ⟨rfl, h⟩
    · rw [update_of_ne hi] at ht
      exact Or.inl ht
  have hsub : ∀ i t, Rec.collect t ∈ queue i →
      Rec.collect t ∈ update queue e (queue e ++ seg) i := by
    intro i t ht
    by_cases hi : i = e
    · subst hi
      rw [update_self]
      exact mem_append_left _ ht
    · rwa [update_of_ne hi]
  have hed : e ∉ dead := by
    intro hmem
    rw [(h.past e hmem).2.2] at hstop
    cases hstop
  refine ⟨?_, fun t ht => hhas t (h.has t ht), ?_, ?_, ?_, ?_, ?_, ?_⟩
  · intro t ht htd
    by_cases hle : t ≤ w.size
    · have hph := (h.phased t (hback t ht hle) htd).mono hmarks hoff fun s hs =>
        hbirth s (hold t s hs)
      simp only [hle, if_true]
      by_cases hte : t = e
      · subst hte
        rw [hstop] at hph
        rw [update_self]
        exact hph.append (hseg (hback t ht hle).2)
      · rw [update_of_ne hte, (hsame t hle hte).1, (hsame t hle hte).2]
        exact hph
    · have hgt := Nat.lt_of_not_le hle
      have hte : t ≠ e := fun eq => hle (eq ▸ he)
      obtain ⟨h1, h2⟩ := hborn t hgt ht.1
      rw [if_neg hle, update_of_ne hte, h.idle t fun hw => hle hw.1]
      exact ⟨h1.symm, h2⟩
  · intro t ht
    have hte : t ≠ e := fun eq => hed (eq ▸ ht)
    obtain ⟨h1, h2, h3⟩ := h.past t ht
    rw [update_of_ne hte, (hsame t (h.has t h1).1 hte).2]
    exact ⟨h1, h2, h3⟩
  · intro t ht htk
    by_cases hle : t ≤ w.size
    · obtain ⟨h1, i, hi, hc⟩ := h.new t (hback t ht hle) htk
      refine ⟨?_, i, hi, hsub i t hc⟩
      simp only [hle, if_true, h1, hbirth t hle]
    · refine ⟨if_neg hle, e, Nat.lt_of_le_of_lt he (Nat.lt_of_not_le hle), ?_⟩
      rw [update_self]
      exact mem_append_right _ ((hnew t).2 ⟨Nat.lt_of_not_le hle, ht.1, hwrites ▸ ht.2⟩)
  · intro t ht
    have htw : ¬ w.Has t := fun hw => ht (hhas t hw)
    by_cases hte : t = e
    · subst hte
      have hno : w.writes t = false := by
        by_contra hne
        exact htw ⟨he, by simpa using hne⟩
      rw [update_self, h.idle t htw, hquiet hno]
      rfl
    · rw [update_of_ne hte]
      exact h.idle t htw
  · intro i t ht
    rcases hmem i t ht with ht | ⟨-, ht⟩
    · obtain ⟨h1, h2⟩ := h.announced i t ht
      exact ⟨hhas t h1, h2⟩
    · obtain ⟨h1, h2, h3⟩ := (hnew t).1 ht
      exact ⟨⟨h2, hwrites ▸ h3⟩, fun hk => Nat.not_le_of_lt h1 (h.has t hk).1⟩
  · intro i j t hi hj
    rcases hmem i t hi with hi' | ⟨hie, hi'⟩ <;> rcases hmem j t hj with hj' | ⟨hje, hj'⟩
    · exact h.unique i j t hi' hj'
    · exact absurd (hold i t hi') (Nat.not_le_of_lt ((hnew t).1 hj').1)
    · exact absurd (hold j t hj') (Nat.not_le_of_lt ((hnew t).1 hi').1)
    · exact hie.trans hje.symm
  · intro i
    by_cases hi : i = e
    · subst hi
      rw [update_self, newStreams_append]
      refine nodup_append.2 ⟨h.once i, hnodup, fun a ha b hb => ?_⟩
      rintro rfl
      exact absurd (hold i a (mem_newStreams.1 ha))
        (Nat.not_le_of_lt ((hnew a).1 (mem_newStreams.1 hb)).1)
    · rw [update_of_ne hi]
      exact h.once i

end Table

/-! ## The phases of the collector -/

/-- A collector in phase `P`. -/
structure CollInv (p : Plan) (w : Writers) (queue : Queues (Item D) Γ) (c : Collector (Item D) Γ)
    (P : Nat) (dead : List StreamId) (pos : StreamId → Nat) : Prop where
  table : Table p w queue (c.ready ++ (c.waiting ++ dead)) dead pos
  live : c.terminate = false
  readyNe : c.ready ≠ []
  nodup : (c.ready ++ c.waiting).Nodup
  disjoint : ∀ s ∈ c.ready ++ c.waiting, s ∉ dead
  ready : ∀ s ∈ c.ready, pos s = P
  waiting : ∀ s ∈ c.waiting, pos s = P + 1
  dynamic : c.isStatic = true → ∀ i s, Rec.collect s ∉ queue i
  several : c.isStatic = true → 2 ≤ c.ready.length + c.waiting.length + dead.length
  final : c.isStatic = true → dead ≠ [] → P = p.marks.length
  sortRec : ∀ x, c.sortRec = some x → p.marks[P]? = some x
  sortSome : c.waiting ≠ [] → c.sortRec ≠ none
  last : c.last = none
  incount : c.incount = c.ready.length + c.waiting.length
  stopped : ∀ s, w.Has s → w.stopped s = true → w.phase s = p.marks.length
  levels : ∀ (k : Nat) (x : Int × Int), p.marks[k]? = some x → 0 ≤ x.1 ∧ ¬ (x.1 = 0 ∧ x.2 = -1)
  passes : Passes p P c.out

/-- The collector has terminated after everything has left. -/
structure CollDone (p : Plan) (w : Writers) (queue : Queues (Item D) Γ)
    (c : Collector (Item D) Γ) : Prop where
  past : c.terminate = true
  empty : ∀ s, queue s = []
  stopped : ∀ s, w.Has s → w.stopped s = true
  passes : ∃ out flag, c.out = out ++ [.terminate flag] ∧ Passes p p.marks.length out

variable {c : Collector (Item D) Γ} {P : Nat}

theorem CollInv.notEmpty {c' : Collector (Item D) Γ} (h : c'.ready ≠ []) : c'.finish = some c' := by
  simp [Collector.finish, h]

/-- What is left of a stream that is ready begins in phase `P`. -/
theorem CollInv.phased_ready (h : CollInv p w queue c P dead pos) (hs : s ∈ c.ready)
    (hq : queue s = r :: q) : Phased p P (r :: q) (w.phase s) (w.stopped s) := by
  have hph := h.table.phased s (h.table.has s (mem_append_left _ hs)) (h.table.notMem_dead hq)
  rwa [hq, h.ready s hs] at hph

theorem CollInv.readData {i : Item D} (h : CollInv p w queue c P dead pos) (hs : s ∈ c.ready)
    (hq : queue s = .data i :: q) :
    CollInv p w (update queue s q) { c with out := c.out ++ [.data i] } P dead
      (update pos s P) := by
  have hk : s ∈ c.ready ++ (c.waiting ++ dead) := mem_append_left _ hs
  obtain ⟨ho, hown, hph⟩ := h.phased_ready hs hq
  refine { h with
    table := h.table.read hq hk (fun t e => by cases e) hph
    ready := ?_
    waiting := ?_
    dynamic := fun hst i t ht => h.dynamic hst i t (collect_of_update hq ht)
    passes := h.passes.data ho hown }
  · intro t ht
    by_cases hts : t = s
    · rw [hts, update_self]
    · rw [update_of_ne hts]
      exact h.ready t ht
  · intro t ht
    have hts : t ≠ s := by
      rintro rfl
      exact (nodup_append.1 h.nodup).2.2 t hs t ht rfl
    rw [update_of_ne hts]
    exact h.waiting t ht

theorem CollInv.readMark {level num : Int} (h : CollInv p w queue c P dead pos) (hs : s ∈ c.ready)
    (hq : queue s = .sortEnd level num :: q) (hne : c.ready.erase s ≠ []) :
    CollInv p w (update queue s q) (c.processSortRecord s level num) P dead
      (update pos s (P + 1)) := by
  have hk : s ∈ c.ready ++ (c.waiting ++ dead) := mem_append_left _ hs
  obtain ⟨hmark, hph⟩ := h.phased_ready hs hq
  have hndr : c.ready.Nodup := (nodup_append.1 h.nodup).1
  have hperm : (c.ready.erase s ++ (c.waiting ++ [s])).Perm (c.ready ++ c.waiting) := by
    have h1 : c.ready.Perm (s :: c.ready.erase s) := perm_cons_erase hs
    refine List.Perm.trans ?_ (h1.symm.append_right c.waiting)
    rw [← append_assoc]
    exact perm_append_comm
  have hlen : (c.ready.erase s).length + 1 = c.ready.length := by
    rw [length_erase_of_mem hs]
    have := length_pos_of_mem hs
    omega
  refine ⟨?_, h.live, hne, ?_, ?_, ?_, ?_, ?_, ?_, h.final, ?_, ?_, h.last, ?_, h.stopped, h.levels,
    h.passes⟩
  · refine (h.table.read hq hk (fun t e => by cases e) hph).congr_known fun t => ?_
    have := hperm.mem_iff (a := t)
    simp only [Collector.processSortRecord, mem_append] at this ⊢
    tauto
  · exact hperm.nodup_iff.2 h.nodup
  · exact fun t ht => h.disjoint t (hperm.mem_iff.1 ht)
  · intro t ht
    have hts : t ≠ s := by
      rintro rfl
      exact absurd ht hndr.not_mem_erase
    rw [update_of_ne hts]
    exact h.ready t (mem_of_mem_erase ht)
  · intro t ht
    by_cases hts : t = s
    · rw [hts, update_self]
    · rw [update_of_ne hts]
      rcases mem_append.1 ht with ht | ht
      · exact h.waiting t ht
      · exact absurd (mem_singleton.1 ht) hts
  · exact fun hst i t ht => h.dynamic hst i t (collect_of_update hq ht)
  · intro hst
    have := h.several hst
    simp only [Collector.processSortRecord, length_append, length_singleton]
    omega
  · intro x hx
    obtain rfl : c.sortRec.getD (level, num) = x := Option.some.inj hx
    cases hsr : c.sortRec with
    | none => exact hmark
    | some y => exact h.sortRec y hsr
  · exact fun _ => by simp [Collector.processSortRecord]
  · have := h.incount
    simp only [Collector.processSortRecord, length_append, length_singleton]
    omega

theorem CollInv.nextPhase {level num : Int} (h : CollInv p w queue c P dead pos) (hs : s ∈ c.ready)
    (hq : queue s = .sortEnd level num :: q) (hnil : c.ready.erase s = []) :
    ∃ c', (c.processSortRecord s level num).finish = some c' ∧
      CollInv p w (update queue s q) c' (P + 1) dead (update pos s (P + 1)) := by
  have hk : s ∈ c.ready ++ (c.waiting ++ dead) := mem_append_left _ hs
  obtain ⟨hmark, hph⟩ := h.phased_ready hs hq
  obtain ⟨hlevel, -⟩ := h.levels P _ hmark
  have hready : c.ready = [s] := by
    have := perm_cons_erase hs
    rw [hnil] at this
    exact perm_singleton.1 this
  have hlt : P < p.marks.length := (List.getElem?_eq_some_iff.1 hmark).1
  have hdead : c.isStatic = true → dead = [] := by
    intro hst
    by_contra hne
    have := h.final hst hne
    omega
  have hsort : c.sortRec.getD (level, num) = (level, num) := by
    cases hsr : c.sortRec with
    | none => rfl
    | some y =>
      have := h.sortRec y hsr
      rw [hmark] at this
      exact (Option.some.inj this).symm
  have hwait : c.waiting ++ [s] ≠ [] := by simp
  -- a static collector still has another stream
  have hmany : ¬ (c.isStatic = true ∧ c.incount = 1) := by
    rintro ⟨hst, hone⟩
    have h1 := h.several hst
    have h2 := h.incount
    rw [hdead hst] at h1
    simp only [length_nil] at h1
    omega
  refine ⟨{ c with
    ready := c.waiting ++ [s]
    waiting := []
    sortRec := none
    out := if 0 < level then c.out ++ [.sortEnd (level - 1) num] else c.out }, ?_, ?_⟩
  · obtain ⟨a, as, ha⟩ := exists_cons_of_ne_nil hwait
    simp only [Collector.finish, Collector.processSortRecord, hnil, if_true, ha, hmany, if_false,
      Collector.restoreFromWaitingset, hsort]
  · refine ⟨?_, h.live, hwait, ?_, ?_, ?_, ?_, ?_, ?_, ?_, ?_, ?_, h.last, ?_, h.stopped, h.levels, ?_⟩
    · refine (h.table.read hq hk (fun t e => by cases e) hph).congr_known fun t => ?_
      simp only [hready, mem_append, mem_cons, not_mem_nil, or_false, false_or]
      tauto
    · have := h.nodup
      rw [hready] at this
      simpa using perm_append_comm.nodup_iff.1 this
    · intro t ht
      refine h.disjoint t ?_
      rw [hready]
      simpa [or_comm] using ht
    · intro t ht
      by_cases hts : t = s
      · rw [hts, update_self]
      · rw [update_of_ne hts]
        rcases mem_append.1 ht with ht | ht
        · exact h.waiting t ht
        · exact absurd (mem_singleton.1 ht) hts
    · exact fun t ht => absurd ht not_mem_nil
    · exact fun hst i t ht => h.dynamic hst i t (collect_of_update hq ht)
    · intro hst
      have := h.several hst
      rw [hready] at this
      simp only [length_append, length_singleton, length_nil] at this ⊢
      omega
    · exact fun hst hne => absurd (hdead hst) hne
    · exact fun x hx => by cases hx
    · exact fun hne => absurd rfl hne
    · have := h.incount
      rw [hready] at this
      simp only [length_append, length_singleton, length_nil] at this ⊢
      push_cast at this ⊢
      omega
    · by_cases hl : 0 < level
      · simp only [hl, if_true]
        refine h.passes.outer ?_ (by omega)
        rw [hmark]
        simp
      · obtain rfl : level = 0 := by
          simp only at hlevel
          omega
        simp only [Int.lt_irrefl, if_false]
        exact h.passes.own ⟨num, hmark⟩

theorem CollInv.readCollect (h : CollInv p w queue c P dead pos) (hs : s ∈ c.ready)
    (hq : queue s = .collect t :: q) :
    ∃ c' queue' dead', c.process (update queue s q) s (.collect t) = some (c', queue') ∧
      c'.ready ≠ [] ∧ CollInv p w queue' c' P dead' pos := by
  have hk : s ∈ c.ready ++ (c.waiting ++ dead) := mem_append_left _ hs
  obtain ⟨hbirth, hph⟩ := h.phased_ready hs hq
  have hdyn : c.isStatic = false := by
    by_contra hne
    exact h.dynamic (by simpa using hne) s t (by rw [hq]; exact mem_cons_self)
  obtain ⟨htw, htk⟩ := h.table.announced s t (by rw [hq]; exact mem_cons_self)
  have hpost : pos t = P := (h.table.new t htw htk).1.trans hbirth
  have htable := h.table.readCollect hq hk (h.ready s hs ▸ hph)
  let queue1 := update queue s q
  let gone := c.waiting.filter fun s => Collector.termNext queue1 s
  let stay := c.waiting.filter fun s => !Collector.termNext queue1 s
  have hgone : ∀ u ∈ gone, u ∈ t :: (c.ready ++ (c.waiting ++ dead)) ∧
      Collector.termNext queue1 u = true := by
    intro u hu
    obtain ⟨h1, h2⟩ := mem_filter.1 hu
    exact ⟨mem_cons_of_mem _ (by simp [h1]), h2⟩
  have htable2 := htable.dieAll hgone
  have hqueue : (fun u => if u ∈ c.waiting ∧ Collector.termNext queue1 u then (queue1 u).tail
      else queue1 u) = fun u => if u ∈ gone then (queue1 u).tail else queue1 u := by
    funext u
    simp only [gone, mem_filter]
  have hlen : gone.length + stay.length = c.waiting.length :=
    (length_eq_length_filter_add _).symm
  have hcount : 0 < c.incount - gone.length := by
    have h1 := h.incount
    have h2 := length_pos_of_mem hs
    omega
  rw [mem_append, mem_append, not_or, not_or] at htk
  have hsub : ∀ u ∈ stay, u ∈ c.waiting := fun u hu => (mem_filter.1 hu).1
  refine ⟨{ c with
      ready := c.ready ++ [t]
      waiting := stay
      incount := c.incount - gone.length + 1 }, fun u => if u ∈ gone then (queue1 u).tail else queue1 u,
    gone ++ dead, ?_, by simp, ?_⟩
  · simp only [Collector.process, hdyn, Bool.false_eq_true, if_false,
      Collector.destroyTermInWaitingSet]
    rw [if_pos hcount]
    exact congrArg some (Prod.ext rfl hqueue)
  · refine ⟨?_, h.live, by simp, ?_, ?_, ?_, ?_, ?_, ?_, ?_, h.sortRec, ?_, h.last, ?_, h.stopped,
      h.levels, h.passes⟩
    · refine htable2.congr_known fun u => ?_
      simp only [mem_append, mem_cons, not_mem_nil, or_false]
      have hpart : u ∈ c.waiting ↔ u ∈ stay ∨ u ∈ gone := by
        simp only [stay, gone, mem_filter]
        cases Collector.termNext queue1 u <;> simp
      rw [hpart]
      tauto
    · have hn := nodup_append.1 h.nodup
      refine nodup_append.2 ⟨nodup_append.2 ⟨hn.1, by simp, ?_⟩, hn.2.1.filter _, ?_⟩
      · intro a ha b hb
        rw [mem_singleton.1 hb]
        rintro rfl
        exact htk.1 ha
      · intro a ha b hb
        rintro rfl
        rcases mem_append.1 ha with ha | ha
        · exact hn.2.2 a ha a (hsub a hb) rfl
        · rw [mem_singleton.1 ha] at hb
          exact htk.2.1 (hsub t hb)
    · intro u hu hud
      have hn := nodup_append.1 h.nodup
      have hug : u ∈ gone → u ∈ c.waiting := fun hg => (mem_filter.1 hg).1
      simp only [mem_append, mem_singleton] at hu
      rcases mem_append.1 hud with hud | hud
      · rcases hu with (hu | rfl) | hu
        · exact hn.2.2 u hu u (hug hud) rfl
        · exact htk.2.1 (hug hud)
        · have h1 := (mem_filter.1 hu).2
          have h2 := (mem_filter.1 hud).2
          simp [h2] at h1
      · rcases hu with (hu | rfl) | hu
        · exact h.disjoint u (mem_append_left _ hu) hud
        · exact htk.2.2 hud
        · exact h.disjoint u (mem_append_right _ (hsub u hu)) hud
    · intro u hu
      rcases mem_append.1 hu with hu | hu
      · exact h.ready u hu
      · rw [mem_singleton.1 hu]
        exact hpost
    · exact fun u hu => h.waiting u (hsub u hu)
    · exact fun hst => absurd hst (by simp [hdyn])
    · exact fun hst => absurd hst (by simp [hdyn])
    · exact fun hst => absurd hst (by simp [hdyn])
    · intro hne
      refine h.sortSome fun e => hne ?_
      simp [stay, e]
    · have := h.incount
      simp only [length_append, length_singleton]
      push_cast
      omega

theorem CollInv.readTerminate {flag : Bool} (h : CollInv p w queue c P dead pos) (hs : s ∈ c.ready)
    (hq : queue s = .terminate flag :: q) :
    ∃ c', (c.processTermRecord s flag).finish = some c' ∧
      ((∃ dead', CollInv p w (update queue s q) c' P dead' pos) ∨
        CollDone p w (update queue s q) c') := by
  have hk : s ∈ c.ready ++ (c.waiting ++ dead) := mem_append_left _ hs
  obtain ⟨htable, -, hpos, hstop⟩ := h.table.die hq hk
  have hfinal : P = p.marks.length := by
    rw [← h.ready s hs, hpos]
    exact h.stopped s (h.table.has s hk) hstop
  have hndr : c.ready.Nodup := (nodup_append.1 h.nodup).1
  have hmem : ∀ u, u ∈ c.ready ↔ u = s ∨ u ∈ c.ready.erase s := by
    intro u
    have := (perm_cons_erase hs).mem_iff (a := u)
    rwa [mem_cons] at this
  have hlen : (c.ready.erase s).length + 1 = c.ready.length := by
    rw [length_erase_of_mem hs]
    have := length_pos_of_mem hs
    omega
  by_cases hne : c.ready.erase s = []
  swap
  · refine ⟨c.processTermRecord s flag, CollInv.notEmpty hne, Or.inl ⟨s :: dead, ?_⟩⟩
    have hn := nodup_append.1 h.nodup
    refine ⟨?_, h.live, hne, ?_, ?_, ?_, h.waiting, ?_, ?_, fun _ _ => hfinal, h.sortRec, h.sortSome,
      h.last, ?_, h.stopped, h.levels, h.passes⟩
    · refine htable.congr_known fun u => ?_
      simp only [Collector.processTermRecord, mem_append, mem_cons, hmem]
      tauto
    · refine nodup_append.2 ⟨hn.1.erase s, hn.2.1, fun a ha b hb => ?_⟩
      exact hn.2.2 a (mem_of_mem_erase ha) b hb
    · intro u hu hud
      simp only [Collector.processTermRecord, mem_append] at hu
      rcases mem_cons.1 hud with rfl | hud
      · rcases hu with hu | hu
        · exact hndr.not_mem_erase hu
        · exact hn.2.2 u hs u hu rfl
      · refine h.disjoint u ?_ hud
        exact mem_append.2 (hu.imp_left mem_of_mem_erase)
    · exact fun u hu => h.ready u (mem_of_mem_erase hu)
    · exact fun hst i u hu => h.dynamic hst i u (collect_of_update hq hu)
    · intro hst
      have := h.several hst
      simp only [Collector.processTermRecord, length_cons]
      omega
    · have := h.incount
      simp only [Collector.processTermRecord]
      omega
  · -- no stream waits for the others, since there is no further mark
    have hwait : c.waiting = [] := by
      by_contra hw
      obtain ⟨x, hx⟩ := Option.ne_none_iff_exists'.1 (h.sortSome hw)
      have := (List.getElem?_eq_some_iff.1 (h.sortRec x hx)).1
      omega
    refine ⟨{ c with
        ready := []
        incount := c.incount - 1
        out := c.out ++ [.terminate (c.termRec.getD flag)]
        termRec := none
        terminate := true }, by simp [Collector.finish, Collector.processTermRecord, hne, hwait],
      Or.inr ⟨rfl, ?_, ?_, c.out, _, rfl, hfinal ▸ h.passes⟩⟩
    · have hall : ∀ u, w.Has u → u ∈ s :: dead := htable.all_dead fun u hu => by
        rw [mem_append, hmem, hne, hwait] at hu
        simpa [or_assoc] using hu
      intro u
      by_cases hu : w.Has u
      · exact (htable.past u (hall u hu)).2.1
      · exact htable.idle u hu
    · intro u hu
      have hall := htable.all_dead (fun u hu => by
        rw [mem_append, hmem, hne, hwait] at hu
        simpa [or_assoc] using hu) u hu
      exact (htable.past u hall).2.2

theorem CollInv.step (h : CollInv p w queue c P dead pos) :
    c.step queue s ≠ .fault ∧ ∀ c' queue', c.step queue s = .done (c', queue') →
      (∃ P' dead' pos', CollInv p w queue' c' P' dead' pos') ∨ CollDone p w queue' c' := by
  unfold Collector.step
  by_cases hs : s ∈ c.ready
  swap
  · simp [hs]
  rw [if_neg (by simp [h.live, hs])]
  cases hq : queue s with
  | nil => simp
  | cons r q =>
    have hk : s ∈ c.ready ++ (c.waiting ++ dead) := mem_append_left _ hs
    have hph := h.table.phased s (h.table.has s hk) (h.table.notMem_dead hq)
    rw [hq] at hph
    cases r with
    | data i =>
      have hinv := h.readData hs hq
      simp only [Collector.process, CollInv.notEmpty hinv.readyNe, Option.map_some]
      refine ⟨by simp [Outcome.ofOption], fun c' queue' heq => Or.inl ?_⟩
      obtain ⟨rfl, rfl⟩ := Prod.mk.inj (Option.some.inj (Outcome.ofOption_eq_done.1 heq))
      exact ⟨P, dead, _, hinv⟩
    | sync input outtype => exact hph.elim
    | sortEnd level num =>
      rw [h.ready s hs] at hph
      have hlev := (h.levels P _ hph.1).2
      have hproc : c.process (update queue s q) s (.sortEnd level num) =
          some (c.processSortRecord s level num, update queue s q) := by
        have hno : ¬ (level = 0 ∧ num = -1) := hlev
        simp [Collector.process, h.last, hno]
      simp only [hproc]
      by_cases hne : c.ready.erase s = []
      · obtain ⟨c1, hfin, hinv⟩ := h.nextPhase hs hq hne
        simp only [hfin, Option.map_some]
        refine ⟨by simp [Outcome.ofOption], fun c' queue' heq => Or.inl ?_⟩
        obtain ⟨rfl, rfl⟩ := Prod.mk.inj (Option.some.inj (Outcome.ofOption_eq_done.1 heq))
        exact ⟨P + 1, dead, _, hinv⟩
      · have hinv := h.readMark hs hq hne
        simp only [CollInv.notEmpty hinv.readyNe, Option.map_some]
        refine ⟨by simp [Outcome.ofOption], fun c' queue' heq => Or.inl ?_⟩
        obtain ⟨rfl, rfl⟩ := Prod.mk.inj (Option.some.inj (Outcome.ofOption_eq_done.1 heq))
        exact ⟨P, dead, _, hinv⟩
    | collect t =>
      obtain ⟨c1, queue1, dead1, hproc, hne, hinv⟩ := h.readCollect hs hq
      simp only [hproc, CollInv.notEmpty hne, Option.map_some]
      refine ⟨by simp [Outcome.ofOption], fun c' queue' heq => Or.inl ?_⟩
      obtain ⟨rfl, rfl⟩ := Prod.mk.inj (Option.some.inj (Outcome.ofOption_eq_done.1 heq))
      exact ⟨P, dead1, pos, hinv⟩
    | terminate flag =>
      obtain ⟨c1, hfin, hinv⟩ := h.readTerminate hs hq
      simp only [Collector.process, hfin, Option.map_some]
      refine ⟨by simp [Outcome.ofOption], fun c' queue' heq => ?_⟩
      obtain ⟨rfl, rfl⟩ := Prod.mk.inj (Option.some.inj (Outcome.ofOption_eq_done.1 heq))
      refine hinv.imp_left fun hdead => ?_
      obtain ⟨dead', hd⟩ := hdead
      exact ⟨P, dead', pos, hd⟩

end SNet.Stream
