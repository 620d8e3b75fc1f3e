import SNetRts.Distrib.OutputManager
import SNetRts.Distrib.InputManagerViews
import Mathlib.Data.List.Perm.Subperm

/-!
# Blocked and waiting streams

The output manager keeps each stream that it has taken over in one of its sets, and in `blocked` if and
only if the last message for its destination was a block, as long as it never goes through one of its
two lists of messages while an older message of the other list is about the same stream. If it does, it
puts a stream into a set in which it is already, and loses others.
-/

namespace SNet.Distrib.OutputManager

open Lib List
open SNet.Distrib.InputManager (Alternates)

variable {D : Type} [DecidableEq D] {s s' : State D}

/-- The messages for a destination, `true` for a block. -/
def forDest (d : D) (ms : List (Message D)) : List Bool :=
  (ms.filter fun m => m.dest = d).map Message.block

/-- The messages for a destination that have come and have not been processed. -/
def State.pending (s : State D) (d : D) : List Bool :=
  (forDest d s.arrived).drop (forDest d s.processed).length

/-- A stream of this destination has been taken over and has not ended. -/
def State.Live (s : State D) (d : D) : Prop := d ∈ s.streamMap.map Prod.snd

/-- What the manager sees of its surroundings: every destination is registered once; messages are about
streams that it has taken over, and for each destination they alternate, a block first. -/
def Surroundings (s : State D) : Act D → Prop
  | .newOut dest => dest ∉ s.registered
  | .message m => m.dest ∈ s.registered ∧ m.dest ∉ s.newStreams ∧
      Alternates (forDest m.dest (s.arrived ++ [m]))
  | _ => True

/-- When the manager goes through the list of messages of one kind, for no stream an older message of
the other kind is pending. -/
def InOrder (s : State D) : Act D → Prop
  | .go =>
    match s.pc with
    | .blocks => ∀ d, s.Live d → ∀ xs ys, s.pending d = xs ++ false :: ys → true ∉ ys
    | .unblocks => ∀ d, s.Live d → ∀ xs ys, s.pending d = xs ++ true :: ys → false ∉ ys
    | _ => True
  | _ => True

/-- Both sets are rings; each stream that has been taken over and has not ended is in one of them, and in
`blocked` if and only if the last message that has been processed for it is a block, the messages being
processed as they come. -/
structure Tracks (s : State D) (lw lb : List Desc) : Prop where
  waiting : Ring s.next s.waiting lw
  blocked : Ring s.next s.blocked lb
  wakeup : wakeupDesc ∈ lw
  one : ∀ e ∈ s.streamMap, (e.1 ∈ lw ∧ e.1 ∉ lb) ∨ (e.1 ∉ lw ∧ e.1 ∈ lb)
  isBlocked : ∀ e ∈ s.streamMap, e.1 ∈ lb ↔ (forDest e.2 s.processed).getLast? = some true
  inOrder : ∀ e ∈ s.streamMap, forDest e.2 s.processed ++ s.pending e.2 = forDest e.2 s.arrived

structure Inv (s : State D) (lw lb : List Desc) : Prop extends Tracks s lw lb where
  disjoint : ∀ sd ∈ lw, sd ∉ lb
  members : ∀ sd, sd ≠ wakeupDesc → (sd ∈ lw ∨ sd ∈ lb) → sd ∈ s.streamMap.map Prod.fst
  keys : (s.streamMap.map Prod.fst).Nodup
  proper : ∀ e ∈ s.streamMap, e.1 ≠ wakeupDesc
  opened : ∀ sd, sd ∈ lw ∨ sd ∈ lb → sd < s.opened
  dests : (s.newStreams ++ s.streamMap.map Prod.snd).Nodup
  registered : ∀ d ∈ s.newStreams ++ s.streamMap.map Prod.snd, d ∈ s.registered
  messages : ∀ m ∈ s.arrived, m.dest ∈ s.registered ∧ m.dest ∉ s.newStreams
  alternates : ∀ d, Alternates (forDest d s.arrived)
  processed : ∀ m ∈ s.processed, m ∈ s.arrived
  newBlocked : ∀ d ∈ s.newBlocked, ⟨d, true⟩ ∈ s.arrived
  newUnblocked : ∀ d ∈ s.newUnblocked, ⟨d, false⟩ ∈ s.arrived
  blocks : ∀ d, s.Live d → s.newBlocked.count d = (s.pending d).count true
  unblocks : ∀ d, s.Live d → s.newUnblocked.count d = (s.pending d).count false

/-! ## Messages -/

theorem forDest_append (d : D) (ms ms' : List (Message D)) :
    forDest d (ms ++ ms') = forDest d ms ++ forDest d ms' := by
  simp [forDest]

theorem forDest_map (d : D) (ds : List D) (b : Bool) :
    forDest d (ds.map fun d => ⟨d, b⟩) = List.replicate (ds.count d) b := by
  induction ds with
  | nil => rfl
  | cons d' ds ih =>
    unfold forDest at ih ⊢
    by_cases heq : d' = d
    · subst heq
      simp only [map_cons, filter_cons, decide_true, if_true, count_cons_self,
        replicate_succ]
      rw [ih]
    · simp only [map_cons, filter_cons, heq, decide_false, Bool.false_eq_true, if_false]
      rw [count_cons_of_ne heq, ih]

theorem forDest_eq_nil {d : D} {ms : List (Message D)} (h : ∀ m ∈ ms, m.dest ≠ d) : forDest d ms = [] := by
  unfold forDest
  rw [filter_eq_nil_iff.2 fun m hm => by simpa using h m hm]
  rfl

theorem alternates_split {ms : List Bool} {b : Bool} {rest : List Bool}
    (h : Alternates (ms ++ b :: rest)) :
    (b = true ↔ ms.getLast? ≠ some true) ∧ ∀ c rest', rest = c :: rest' → c = !b := by
  match ms, h with
  | [], h =>
    cases rest with
    | nil =>
      obtain rfl : b = true := h
      exact ⟨by simp, nofun⟩
    | cons c rest =>
      obtain ⟨rfl, rfl, -⟩ := h
      refine ⟨by simp, fun c' rest' heq => ?_⟩
      cases heq
      rfl
  | [m], h =>
    obtain ⟨rfl, rfl, hrest⟩ := h
    refine ⟨by simp, fun c rest' heq => ?_⟩
    subst heq
    cases rest' with
    | nil => exact hrest
    | cons c' rest' => exact hrest.1
  | m :: m' :: ms, h =>
    obtain ⟨rfl, rfl, hrest⟩ := h
    have hrest' : Alternates (ms ++ b :: rest) := hrest
    obtain ⟨h1, h2⟩ := alternates_split hrest'
    refine ⟨h1.trans ?_, h2⟩
    cases ms <;> simp

theorem pending_first {ms pending : List Bool} (h : Alternates (ms ++ pending)) {b : Bool}
    (horder : ∀ xs ys, pending = xs ++ (!b) :: ys → b ∉ ys) :
    pending.count b = 0 ∨ (pending.count b = 1 ∧ ∃ rest, pending = b :: rest) := by
  cases pending with
  | nil => exact Or.inl rfl
  | cons c rest =>
    by_cases hc : c = b
    · subst hc
      refine Or.inr ⟨?_, rest, rfl⟩
      rw [count_cons_self]
      have hrest : rest.count c = 0 := by
        rw [count_eq_zero]
        cases rest with
        | nil => exact not_mem_nil
        | cons c' rest =>
          obtain rfl := (alternates_split h).2 c' rest rfl
          intro hmem
          rcases mem_cons.1 hmem with heq | hmem
          · cases c <;> cases heq
          · exact horder [c] rest rfl hmem
      omega
    · have hc' : c = !b := by cases c <;> cases b <;> simp_all
      left
      rw [count_eq_zero, hc']
      intro hmem
      rcases mem_cons.1 hmem with heq | hmem
      · cases b <;> cases heq
      · exact horder [] rest (by rw [hc', nil_append]) hmem

/-! ## The map -/

omit [DecidableEq D] in
theorem length_le {l : List Desc} {n : Nat} (h : l.Nodup) (hlt : ∀ sd ∈ l, sd < n) : l.length ≤ n := by
  have hsub : l ⊆ List.range n := fun sd hsd => mem_range.2 (hlt sd hsd)
  have := (List.Nodup.subperm h hsub).length_le
  rwa [length_range] at this

theorem findVal_some {map : List (Desc × D)} {d : D} {sd : Desc} (h : findVal map d = some sd) :
    (sd, d) ∈ map := by
  obtain ⟨e, he, rfl⟩ := Option.map_eq_some_iff.1 h
  have h1 := mem_of_find?_eq_some he
  have h2 := find?_some he
  rw [decide_eq_true_eq] at h2
  exact h2 ▸ h1

omit [DecidableEq D] in
theorem eq_of_key {map : List (Desc × D)} (h : (map.map Prod.fst).Nodup) {sd : Desc} {d d' : D}
    (h1 : (sd, d) ∈ map) (h2 : (sd, d') ∈ map) : d = d' := by
  induction map with
  | nil => cases h1
  | cons e map ih =>
    rw [map_cons, nodup_cons] at h
    rcases mem_cons.1 h1 with rfl | h1'
    · rcases mem_cons.1 h2 with h2 | h2
      · exact (Prod.mk.inj h2).2.symm
      · exact absurd (mem_map_of_mem h2) h.1
    · rcases mem_cons.1 h2 with rfl | h2
      · have hkey : sd ∈ map.map Prod.fst := List.mem_map.2 ⟨(sd, d), h1', rfl⟩
        exact absurd hkey h.1
      · exact ih h.2 h1' h2

omit [DecidableEq D] in
theorem eq_of_dest {map : List (Desc × D)} (h : (map.map Prod.snd).Nodup) {sd sd' : Desc} {d : D}
    (h1 : (sd, d) ∈ map) (h2 : (sd', d) ∈ map) : sd = sd' := by
  induction map with
  | nil => cases h1
  | cons e map ih =>
    rw [map_cons, nodup_cons] at h
    rcases mem_cons.1 h1 with rfl | h1'
    · rcases mem_cons.1 h2 with h2 | h2
      · exact (Prod.mk.inj h2).1.symm
      · exact absurd (mem_map_of_mem h2) h.1
    · rcases mem_cons.1 h2 with rfl | h2
      · have hdest : d ∈ map.map Prod.snd := List.mem_map.2 ⟨(sd, d), h1', rfl⟩
        exact absurd hdest h.1
      · exact ih h.2 h1' h2

theorem findVal_of_mem {map : List (Desc × D)} (h : (map.map Prod.snd).Nodup) {sd : Desc} {d : D}
    (hmem : (sd, d) ∈ map) : findVal map d = some sd := by
  cases hf : findVal map d with
  | none =>
    unfold findVal at hf
    rw [Option.map_eq_none_iff, find?_eq_none] at hf
    exact absurd (by simp) (hf (sd, d) hmem)
  | some sd' => rw [eq_of_dest h hmem (findVal_some hf)]

theorem take_spec {map : List (Desc × D)} (h : (map.map Prod.fst).Nodup) {sd : Desc} {d : D}
    (hmem : (sd, d) ∈ map) : ∃ map', take map sd = some map' ∧ map'.Perm (map.erase (sd, d)) := by
  obtain ⟨i, hi⟩ : ∃ i, (map.findIdx? fun e => e.1 = sd) = some i := by
    cases hf : map.findIdx? fun e => e.1 = sd with
    | none =>
      rw [findIdx?_eq_none_iff] at hf
      exact absurd (hf (sd, d) hmem) (by simp)
    | some i => exact ⟨i, rfl⟩
  obtain ⟨hlt, hkey, -⟩ := findIdx?_eq_some_iff_getElem.1 hi
  rw [decide_eq_true_eq] at hkey
  have hget : map[i] = (sd, d) := by
    have hin : map[i] ∈ map := getElem_mem hlt
    have hpair : map[i] = (sd, map[i].2) := by rw [← hkey]
    rw [hpair] at hin ⊢
    rw [eq_of_key h hin hmem]
  obtain ⟨as, bs, rfl, rfl⟩ : ∃ as bs, map = as ++ (sd, d) :: bs ∧ i = as.length := by
    refine ⟨map.take i, map.drop (i + 1), ?_, (length_take_of_le (Nat.le_of_lt hlt)).symm⟩
    rw [← hget, ← drop_eq_getElem_cons hlt, take_append_drop]
  have hnot : (sd, d) ∉ as := fun hm => by
    rw [map_append, nodup_append] at h
    exact h.2.2 sd (mem_map_of_mem hm) sd (by simp) rfl
  rw [erase_append_right _ hnot, erase_cons_head]
  rcases eq_nil_or_concat bs with rfl | ⟨bs, e, rfl⟩
  · refine ⟨as, ?_, by simp⟩
    unfold take
    rw [hi]
    simp
  · rw [concat_eq_append] at *
    refine ⟨as ++ e :: bs, ?_, ?_⟩
    · have hlast : (as ++ (sd, d) :: (bs ++ [e])).getLast? = some e := by
        rw [← cons_append, ← append_assoc, getLast?_concat]
      unfold take
      rw [hi, hlast]
      dsimp only
      rw [set_append_right _ _ (Nat.le_refl _), Nat.sub_self, set_cons_zero,
        ← cons_append, ← append_assoc, dropLast_concat]
    · exact (perm_append_singleton e bs).symm.append_left as

/-! ## Going through a list of messages -/

open State (Sets updateBlocked)

def named (map : List (Desc × D)) (ds : List D) : List Desc := ds.filterMap (findVal map)

theorem updateBlocked_spec {map : List (Desc × D)} {fuel : Nat} {ds : List D} {sets : Sets}
    {lo ln : List Desc} (ho : Ring sets.next sets.oldSet lo) (hn : Ring sets.next sets.newSet ln)
    (hdisj : ∀ sd ∈ lo, sd ∉ ln) (hfuel : lo.length ≤ fuel) (hnodup : (named map ds).Nodup)
    (hmem : ∀ sd ∈ named map ds, sd ∈ lo) :
    ∃ sets' lo' ln', updateBlocked map fuel ds sets = .done sets' ∧
      Ring sets'.next sets'.oldSet lo' ∧ Ring sets'.next sets'.newSet ln' ∧ (∀ sd ∈ lo', sd ∉ ln') ∧
      (∀ sd, sd ∈ lo' ↔ sd ∈ lo ∧ sd ∉ named map ds) ∧ ∀ sd, sd ∈ ln' ↔ sd ∈ ln ∨ sd ∈ named map ds := by
  induction ds generalizing sets lo ln with
  | nil => exact ⟨sets, lo, ln, rfl, ho, hn, hdisj, by simp [named], by simp [named]⟩
  | cons d ds ih =>
    cases hf : findVal map d with
    | none =>
      have hnamed : named map (d :: ds) = named map ds := by
        unfold named
        rw [filterMap_cons_none hf]
      rw [hnamed] at hnodup hmem ⊢
      obtain ⟨sets', lo', ln', h1, h2⟩ := ih ho hn hdisj hfuel hnodup hmem
      refine ⟨sets', lo', ln', ?_, h2⟩
      simp only [updateBlocked, hf]
      exact h1
    | some sd =>
      have hnamed : named map (d :: ds) = sd :: named map ds := by
        unfold named
        rw [filterMap_cons_some hf]
      rw [hnamed] at hnodup hmem ⊢
      obtain ⟨hsd, hnodup⟩ := nodup_cons.1 hnodup
      obtain ⟨as, bs, rfl⟩ := append_of_mem (hmem sd mem_cons_self)
      obtain ⟨next, oldSet, hrm, hring, hsame⟩ := ho.remove hfuel
      have hloNodup := ho.nodup
      rw [nodup_append, nodup_cons] at hloNodup
      have hsdas : sd ∉ as := fun hm => hloNodup.2.2 sd hm sd mem_cons_self rfl
      have hsdnot : sd ∉ as ++ bs := fun hm =>
        (mem_append.1 hm).elim hsdas hloNodup.2.1.1
      have hsdln : sd ∉ ln := hdisj sd (by simp)
      have hsub : ∀ a ∈ as ++ bs, a ∈ as ++ sd :: bs := fun a ha =>
        (mem_append.1 ha).elim (fun h => mem_append_left _ h)
          fun h => mem_append_right _ (mem_cons_of_mem _ h)
      have hdisj' : ∀ a ∈ as ++ bs, a ∉ ln := fun a ha => hdisj a (hsub a ha)
      have hn' : Ring next sets.newSet ln := hn.congr fun a ha =>
        hsame a fun hm => hdisj a hm ha
      have hput := hn'.put hsdln
      have hring' : Ring (ringPut next sets.newSet sd).1 oldSet (as ++ bs) :=
        hring.congr fun a ha => hn'.put_next (hdisj' a ha) fun heq => hsdnot (heq ▸ ha)
      obtain ⟨sets', lo', ln', h1, h2, h3, h4, h5, h6⟩ := @ih
        ⟨(ringPut next sets.newSet sd).1, oldSet, (ringPut next sets.newSet sd).2⟩ _ _ hring' hput
        (fun a ha hm => by
          rcases mem_append.1 hm with hm | hm
          · exact hdisj' a ha hm
          · obtain rfl := mem_singleton.1 hm
            exact hsdnot ha)
        (by
          simp only [length_append, length_cons] at hfuel ⊢
          omega)
        hnodup (fun a ha => by
          have hm := hmem a (mem_cons_of_mem _ ha)
          rcases mem_append.1 hm with hm | hm
          · exact mem_append_left _ hm
          · rcases mem_cons.1 hm with rfl | hm
            · exact absurd ha hsd
            · exact mem_append_right _ hm)
      refine ⟨sets', lo', ln', ?_, h2, h3, h4, fun a => ?_, fun a => ?_⟩
      · simp only [updateBlocked, hf, hrm, Outcome.done_bind]
        exact h1
      · rw [h5, mem_cons, not_or]
        constructor
        · rintro ⟨ha, hno⟩
          exact ⟨hsub a ha, fun heq => hsdnot (heq ▸ ha), hno⟩
        · rintro ⟨ha, hne, hno⟩
          refine ⟨?_, hno⟩
          rcases mem_append.1 ha with ha | ha
          · exact mem_append_left _ ha
          · exact mem_append_right _ ((mem_cons.1 ha).resolve_left hne)
      · rw [h6, mem_append, mem_singleton, mem_cons, or_assoc]

theorem nodup_named {map : List (Desc × D)} (hkeys : (map.map Prod.fst).Nodup) {ds : List D}
    (h : ∀ d ∈ map.map Prod.snd, ds.count d ≤ 1) : (named map ds).Nodup := by
  induction ds with
  | nil => exact nodup_nil
  | cons d ds ih =>
    have hih := ih fun d' hd' => Nat.le_trans (count_le_count_cons) (h d' hd')
    unfold named at hih ⊢
    cases hf : findVal map d with
    | none => rwa [filterMap_cons_none hf]
    | some sd =>
      rw [filterMap_cons_some hf, nodup_cons]
      refine ⟨fun hm => ?_, hih⟩
      obtain ⟨d', hd', hf'⟩ := mem_filterMap.1 hm
      have hmem := findVal_some hf
      obtain rfl := eq_of_key hkeys hmem (findVal_some hf')
      have hone := h d (mem_map_of_mem hmem)
      rw [count_cons_self] at hone
      have := count_pos_iff.2 hd'
      omega

/-! ## Steps -/

variable {lw lb : List Desc}

theorem Inv.turn (h : Inv s lw lb) (wakeup : Bool) (pc : Pc) :
    Inv { s with wakeup := wakeup, pc := pc } lw lb :=
  { h with
    toTracks := { h.toTracks with inOrder := h.inOrder }
    blocks := h.blocks
    unblocks := h.unblocks }

theorem Inv.prefix_length (h : Inv s lw lb) {e : Desc × D} (he : e ∈ s.streamMap) :
    (forDest e.2 s.processed).length ≤ (forDest e.2 s.arrived).length := by
  have := congrArg List.length (h.inOrder e he)
  rw [length_append] at this
  omega

theorem Inv.newOut (h : Inv s lw lb) {dest : D} (hdest : dest ∉ s.registered) :
    Inv { s with newStreams := s.newStreams ++ [dest], wakeup := true,
                 registered := s.registered ++ [dest] } lw lb := by
  have hnot : ∀ d ∈ s.newStreams ++ s.streamMap.map Prod.snd, d ≠ dest := fun d hd heq =>
    hdest (heq ▸ h.registered d hd)
  exact { h with
    toTracks := { h.toTracks with inOrder := h.inOrder }
    dests := by
      have hperm : (s.newStreams ++ [dest] ++ s.streamMap.map Prod.snd).Perm
          (dest :: (s.newStreams ++ s.streamMap.map Prod.snd)) := by
        rw [append_assoc]
        exact perm_middle
      refine hperm.nodup_iff.2 (nodup_cons.2 ⟨fun hm => hnot dest hm rfl, h.dests⟩)
    registered := by
      intro d hd
      rw [append_assoc, mem_append] at hd
      rcases hd with hd | hd
      · exact mem_append_left _ (h.registered d (mem_append_left _ hd))
      · rcases mem_cons.1 hd with rfl | hd
        · exact mem_append_right _ mem_cons_self
        · exact mem_append_left _ (h.registered d (mem_append_right _ hd))
    messages := by
      intro m hm
      obtain ⟨h1, h2⟩ := h.messages m hm
      refine ⟨mem_append_left _ h1, fun hmem => ?_⟩
      rcases mem_append.1 hmem with hmem | hmem
      · exact h2 hmem
      · exact hdest (mem_singleton.1 hmem ▸ h1)
    blocks := h.blocks
    unblocks := h.unblocks }

theorem Inv.message (h : Inv s lw lb) {m : Message D} (hreg : m.dest ∈ s.registered)
    (hnew : m.dest ∉ s.newStreams) (halt : Alternates (forDest m.dest (s.arrived ++ [m]))) :
    Inv { s with
      newBlocked := if m.block then s.newBlocked ++ [m.dest] else s.newBlocked
      newUnblocked := if m.block then s.newUnblocked else s.newUnblocked ++ [m.dest]
      wakeup := true
      arrived := s.arrived ++ [m] } lw lb := by
  -- the message is the last one that is pending
  have hpending : ∀ e ∈ s.streamMap, (forDest e.2 (s.arrived ++ [m])).drop (forDest e.2 s.processed).length =
      s.pending e.2 ++ forDest e.2 [m] := by
    intro e he
    rw [forDest_append, drop_append_of_le_length (h.prefix_length he)]
    rfl
  have hone : forDest m.dest [m] = [m.block] := by simp [forDest]
  have hother : ∀ d, d ≠ m.dest → forDest d [m] = [] := fun d hd =>
    forDest_eq_nil fun m' hm' => by
      rw [mem_singleton.1 hm']
      exact hd.symm
  have hcount : ∀ e ∈ s.streamMap, ∀ (b : Bool) (q : List D), q.count e.2 = (s.pending e.2).count b →
      (if m.block = b then q ++ [m.dest] else q).count e.2 =
        ((forDest e.2 (s.arrived ++ [m])).drop (forDest e.2 s.processed).length).count b := by
    intro e he b q hq
    rw [hpending e he, count_append, ← hq]
    by_cases hd : e.2 = m.dest
    · rw [hd, hone]
      by_cases hb : m.block = b
      · simp [hb]
      · simp [hb]
    · rw [hother e.2 hd]
      split
      · rw [count_append, count_singleton]
        simp [Ne.symm hd]
      · simp
  exact { h with
    toTracks := { h.toTracks with
      inOrder := by
        intro e he
        change forDest e.2 s.processed ++ (forDest e.2 (s.arrived ++ [m])).drop _ = _
        rw [hpending e he, ← append_assoc, h.inOrder e he, forDest_append] }
    messages := by
      intro m' hm'
      rcases mem_append.1 hm' with hm' | hm'
      · exact h.messages m' hm'
      · rw [mem_singleton.1 hm']
        exact ⟨hreg, hnew⟩
    alternates := by
      intro d
      by_cases hd : d = m.dest
      · rw [hd]
        exact halt
      · rw [forDest_append, hother d hd, append_nil]
        exact h.alternates d
    processed := fun m' hm' => mem_append_left _ (h.processed m' hm')
    newBlocked := by
      intro d hd
      cases hb : m.block with
      | true =>
        simp only [hb, if_true] at hd
        rcases mem_append.1 hd with hd | hd
        · exact mem_append_left _ (h.newBlocked d hd)
        · rw [mem_singleton.1 hd, ← hb]
          exact mem_append_right _ mem_cons_self
      | false =>
        simp only [hb, Bool.false_eq_true, if_false] at hd
        exact mem_append_left _ (h.newBlocked d hd)
    newUnblocked := by
      intro d hd
      cases hb : m.block with
      | true =>
        simp only [hb, if_true] at hd
        exact mem_append_left _ (h.newUnblocked d hd)
      | false =>
        simp only [hb, Bool.false_eq_true, if_false] at hd
        rcases mem_append.1 hd with hd | hd
        · exact mem_append_left _ (h.newUnblocked d hd)
        · rw [mem_singleton.1 hd, ← hb]
          exact mem_append_right _ mem_cons_self
    blocks := by
      intro d hd
      obtain ⟨e, he, rfl⟩ := List.mem_map.1 hd
      exact hcount e he true _ (h.blocks e.2 hd)
    unblocks := by
      intro d hd
      obtain ⟨e, he, rfl⟩ := List.mem_map.1 hd
      have := hcount e he false _ (h.unblocks e.2 hd)
      change (if m.block then s.newUnblocked else s.newUnblocked ++ [m.dest]).count e.2 =
        ((forDest e.2 (s.arrived ++ [m])).drop (forDest e.2 s.processed).length).count false
      rw [← this]
      cases m.block <;> rfl }

theorem Inv.takeOver {dest : D} {rest : List D} (h : Inv { s with newStreams := dest :: rest } lw lb) :
    Inv { s.takeOver dest with newStreams := rest } (lw ++ [s.opened]) lb := by
  have hfreshW : s.opened ∉ lw := fun hm => Nat.lt_irrefl _ (h.opened _ (Or.inl hm))
  have hfreshB : s.opened ∉ lb := fun hm => Nat.lt_irrefl _ (h.opened _ (Or.inr hm))
  have hW : Ring (Function.update s.next s.opened none) s.waiting lw :=
    h.waiting.congr fun a ha => Function.update_of_ne (fun heq : a = s.opened => hfreshW (heq ▸ ha)) _ _
  have hB : Ring (Function.update s.next s.opened none) s.blocked lb :=
    h.blocked.congr fun a ha => Function.update_of_ne (fun heq : a = s.opened => hfreshB (heq ▸ ha)) _ _
  have hdests := h.dests
  rw [cons_append, nodup_cons] at hdests
  -- nothing has come for the stream yet
  have hnothing : forDest dest s.arrived = [] := forDest_eq_nil fun m hm heq =>
    (h.messages m hm).2 (heq ▸ mem_cons_self)
  have hunprocessed : forDest dest s.processed = [] := forDest_eq_nil fun m hm heq =>
    (h.messages m (h.processed m hm)).2 (heq ▸ mem_cons_self)
  have hkeyfresh : ∀ e ∈ s.streamMap, e.1 ≠ s.opened := by
    intro e he heq
    rcases h.one e he with ⟨hm, -⟩ | ⟨-, hm⟩
    · exact hfreshW (heq ▸ hm)
    · exact hfreshB (heq ▸ hm)
  have hmap : ∀ e ∈ s.streamMap ++ [(s.opened, dest)], e ∈ s.streamMap ∨ e = (s.opened, dest) :=
    fun e he => (mem_append.1 he).imp_right mem_singleton.1
  exact
    { waiting := hW.put hfreshW
      blocked := hB.congr fun a ha => hW.put_next (fun hm => h.disjoint a hm ha)
        fun heq => hfreshB (heq ▸ ha)
      wakeup := mem_append_left _ h.wakeup
      one := by
        intro e he
        rcases hmap e he with he | rfl
        · rcases h.one e he with ⟨h1, h2⟩ | ⟨h1, h2⟩
          · exact Or.inl ⟨mem_append_left _ h1, h2⟩
          · refine Or.inr ⟨fun hm => ?_, h2⟩
            rcases mem_append.1 hm with hm | hm
            · exact h1 hm
            · exact hkeyfresh e he (mem_singleton.1 hm)
        · exact Or.inl ⟨mem_append_right _ mem_cons_self, hfreshB⟩
      isBlocked := by
        intro e he
        rcases hmap e he with he | rfl
        · exact h.isBlocked e he
        · refine ⟨fun hm => absurd hm hfreshB, fun hl => ?_⟩
          change (forDest dest s.processed).getLast? = _ at hl
          rw [hunprocessed] at hl
          cases hl
      inOrder := by
        intro e he
        rcases hmap e he with he | rfl
        · exact h.inOrder e he
        · change forDest dest s.processed ++ (forDest dest s.arrived).drop _ = forDest dest s.arrived
          rw [hunprocessed, hnothing, drop_nil, nil_append]
      disjoint := by
        intro sd hsd
        rcases mem_append.1 hsd with hsd | hsd
        · exact h.disjoint sd hsd
        · exact mem_singleton.1 hsd ▸ hfreshB
      members := by
        intro sd hne hsd
        change sd ∈ (s.streamMap ++ [(s.opened, dest)]).map Prod.fst
        rw [map_append, mem_append]
        rcases hsd with hsd | hsd
        · rcases mem_append.1 hsd with hsd | hsd
          · exact Or.inl (h.members sd hne (Or.inl hsd))
          · exact Or.inr hsd
        · exact Or.inl (h.members sd hne (Or.inr hsd))
      keys := by
        change ((s.streamMap ++ [(s.opened, dest)]).map Prod.fst).Nodup
        rw [map_append, nodup_append]
        refine ⟨h.keys, nodup_cons.2 ⟨not_mem_nil, nodup_nil⟩, fun a ha b hb heq => ?_⟩
        obtain ⟨e, he, rfl⟩ := List.mem_map.1 ha
        exact hkeyfresh e he (heq.trans (mem_singleton.1 hb))
      proper := by
        intro e he
        rcases hmap e he with he | rfl
        · exact h.proper e he
        · exact Nat.pos_iff_ne_zero.1 (h.opened wakeupDesc (Or.inl h.wakeup))
      opened := by
        intro sd hsd
        change sd < s.opened + 1
        rcases hsd with hsd | hsd
        · rcases mem_append.1 hsd with hsd | hsd
          · exact Nat.lt_succ_of_lt (h.opened sd (Or.inl hsd))
          · rw [mem_singleton.1 hsd]
            exact Nat.lt_succ_self _
        · exact Nat.lt_succ_of_lt (h.opened sd (Or.inr hsd))
      dests := by
        change (rest ++ (s.streamMap ++ [(s.opened, dest)]).map Prod.snd).Nodup
        rw [map_append, ← append_assoc]
        exact (perm_append_singleton dest _).nodup_iff.2 (nodup_cons.2 hdests)
      registered := by
        intro d hd
        change d ∈ rest ++ (s.streamMap ++ [(s.opened, dest)]).map Prod.snd at hd
        rw [map_append, ← append_assoc, mem_append] at hd
        refine h.registered d ?_
        change d ∈ dest :: rest ++ s.streamMap.map Prod.snd
        rw [cons_append]
        rcases hd with hd | hd
        · exact mem_cons_of_mem _ hd
        · rw [mem_singleton.1 hd]
          exact mem_cons_self
      messages := fun m hm => ⟨(h.messages m hm).1, fun hmem =>
        (h.messages m hm).2 (mem_cons_of_mem _ hmem)⟩
      alternates := h.alternates
      processed := h.processed
      newBlocked := h.newBlocked
      newUnblocked := h.newUnblocked
      blocks := by
        intro d hd
        obtain ⟨e, he, rfl⟩ := List.mem_map.1 hd
        rcases hmap e he with he | rfl
        · exact h.blocks e.2 (mem_map_of_mem he)
        · change s.newBlocked.count dest = ((forDest dest s.arrived).drop _).count true
          rw [hnothing, drop_nil, count_nil, count_eq_zero]
          exact fun hm => (h.messages _ (h.newBlocked dest hm)).2 mem_cons_self
      unblocks := by
        intro d hd
        obtain ⟨e, he, rfl⟩ := List.mem_map.1 hd
        rcases hmap e he with he | rfl
        · exact h.unblocks e.2 (mem_map_of_mem he)
        · change s.newUnblocked.count dest = ((forDest dest s.arrived).drop _).count false
          rw [hnothing, drop_nil, count_nil, count_eq_zero]
          exact fun hm => (h.messages _ (h.newUnblocked dest hm)).2 mem_cons_self }

theorem Inv.updateOutgoing (h : Inv s lw lb) : ∃ lw', Inv s.updateOutgoing lw' lb := by
  unfold State.updateOutgoing
  suffices hfold : ∀ (ds : List D) (u : State D) (lw : List Desc), u.newStreams = [] →
      Inv { u with newStreams := ds } lw lb → ∃ lw', Inv (ds.foldl State.takeOver u) lw' lb from
    hfold s.newStreams { s with newStreams := [] } lw rfl h
  intro ds
  induction ds with
  | nil =>
    intro u lw hu hinv
    have : ({ u with newStreams := [] } : State D) = u := by rw [← hu]
    exact ⟨lw, this ▸ hinv⟩
  | cons d ds ih =>
    intro u lw hu hinv
    exact ih (u.takeOver d) _ hu hinv.takeOver

/-! ### Polling -/

theorem Inv.length_waiting (h : Inv s lw lb) : lw.length ≤ s.opened :=
  length_le h.waiting.nodup fun sd hsd => h.opened sd (Or.inl hsd)

theorem Inv.length_blocked (h : Inv s lw lb) : lb.length ≤ s.opened :=
  length_le h.blocked.nodup fun sd hsd => h.opened sd (Or.inr hsd)

theorem Inv.rotate (h : Inv s lw lb) {sd : Desc} (hsd : sd ∈ lw) :
    ∃ lw', Inv { s with waiting := some sd } lw' lb ∧ ∀ a, a ∈ lw' ↔ a ∈ lw := by
  obtain ⟨as, bs, rfl⟩ := append_of_mem hsd
  have hmem : ∀ a, a ∈ bs ++ as ++ [sd] ↔ a ∈ as ++ sd :: bs := fun _ => Ring.mem_rotate
  refine ⟨bs ++ as ++ [sd], ?_, hmem⟩
  exact { h with
    waiting := h.waiting.rotate
    wakeup := (hmem _).2 h.wakeup
    one := fun e he => by
      rw [hmem]
      exact h.one e he
    disjoint := fun a ha => h.disjoint a ((hmem a).1 ha)
    members := fun a hne ha => h.members a hne (ha.imp_left (hmem a).1)
    opened := fun a ha => h.opened a (ha.imp_left (hmem a).1)
    inOrder := h.inOrder
    blocks := h.blocks
    unblocks := h.unblocks }

theorem Inv.terminate (h : Inv s lw lb) {sd : Desc} (hsd : sd ∈ lw) (hne : sd ≠ wakeupDesc) :
    ∃ s' lw', s.handle sd .terminate = .done s' ∧ Inv s' lw' lb := by
  obtain ⟨e, he, rfl⟩ := List.mem_map.1 (h.members sd hne (Or.inl hsd))
  obtain ⟨map', htake, hperm⟩ := take_spec h.keys he
  obtain ⟨as, bs, rfl⟩ := append_of_mem hsd
  obtain ⟨next, handle, hrm, hring, hsame⟩ := h.waiting.remove h.length_waiting
  have hsub : ∀ e' ∈ map', e' ∈ s.streamMap := fun e' he' => mem_of_mem_erase (hperm.mem_iff.1 he')
  have hkeys' : (map'.map Prod.fst).Nodup :=
    (hperm.map Prod.fst).nodup_iff.2 (h.keys.sublist (erase_sublist.map _))
  have hother : ∀ e' ∈ map', e'.1 ≠ e.1 := by
    intro e' he' heq
    have hnodup : s.streamMap.Nodup := List.Nodup.of_map _ h.keys
    have hpair : e' = e := Prod.ext heq (eq_of_key h.keys (heq ▸ hsub e' he' : (e.1, e'.2) ∈ _) he)
    rw [hperm.mem_iff, hpair] at he'
    exact (hnodup.mem_erase_iff.1 he').1 rfl
  have hlw : ∀ a, a ∈ as ++ bs ↔ a ∈ as ++ e.1 :: bs ∧ a ≠ e.1 := by
    have hnodup := h.waiting.nodup
    rw [nodup_append, nodup_cons] at hnodup
    intro a
    constructor
    · intro ha
      rcases mem_append.1 ha with ha | ha
      · exact ⟨mem_append_left _ ha, hnodup.2.2 a ha _ mem_cons_self⟩
      · exact ⟨mem_append_right _ (mem_cons_of_mem _ ha), fun heq => hnodup.2.1.1 (heq ▸ ha)⟩
    · rintro ⟨ha, hne⟩
      rcases mem_append.1 ha with ha | ha
      · exact mem_append_left _ ha
      · exact mem_append_right _ ((mem_cons.1 ha).resolve_left hne)
  refine ⟨{ s with streamMap := map', next := next, waiting := handle }, as ++ bs, ?_, ?_⟩
  · unfold State.handle
    dsimp only
    rw [htake]
    dsimp only
    rw [hrm]
    rfl
  have hlive : ∀ d, d ∈ map'.map Prod.snd → s.Live d := fun d hd => by
    obtain ⟨e', he', rfl⟩ := List.mem_map.1 hd
    exact mem_map_of_mem (hsub e' he')
  exact { h with
    waiting := hring
    blocked := h.blocked.congr fun a ha => hsame a fun hm => h.disjoint a hm ha
    wakeup := (hlw _).2 ⟨h.wakeup, fun heq => h.proper e he heq.symm⟩
    one := fun e' he' => by
      rw [hlw]
      rcases h.one e' (hsub e' he') with ⟨h1, h2⟩ | ⟨h1, h2⟩
      · exact Or.inl ⟨⟨h1, hother e' he'⟩, h2⟩
      · exact Or.inr ⟨fun hm => h1 hm.1, h2⟩
    isBlocked := fun e' he' => h.isBlocked e' (hsub e' he')
    inOrder := fun e' he' => h.inOrder e' (hsub e' he')
    disjoint := fun a ha => h.disjoint a ((hlw a).1 ha).1
    members := by
      intro a hna ha
      have hane : a ≠ e.1 := by
        rcases ha with ha | ha
        · exact ((hlw a).1 ha).2
        · rintro rfl
          exact h.disjoint _ hsd ha
      obtain ⟨e', he', rfl⟩ := List.mem_map.1 (h.members a hna (ha.imp_left fun ha => ((hlw a).1 ha).1))
      refine mem_map_of_mem (hperm.mem_iff.2 ((mem_erase_of_ne ?_).2 he'))
      rintro rfl
      exact hane rfl
    keys := hkeys'
    proper := fun e' he' => h.proper e' (hsub e' he')
    opened := fun a ha => h.opened a (ha.imp_left fun ha => ((hlw a).1 ha).1)
    dests := by
      refine ((hperm.map Prod.snd).append_left s.newStreams).nodup_iff.2 ?_
      exact h.dests.sublist ((erase_sublist.map _).append_left _)
    registered := by
      intro d hd
      refine h.registered d ?_
      rcases mem_append.1 hd with hd | hd
      · exact mem_append_left _ hd
      · exact mem_append_right _ (hlive d hd)
    blocks := fun d hd => h.blocks d (hlive d hd)
    unblocks := fun d hd => h.unblocks d (hlive d hd) }

theorem Inv.poll (h : Inv s lw lb) (sd : Desc) (kind : Kind) :
    (s.poll sd kind).Meets fun s' => ∃ lw', Inv s' lw' lb := by
  unfold State.poll
  rw [h.waiting.members h.length_waiting]
  split
  case isFalse => trivial
  case isTrue hsd =>
    obtain ⟨lw', h', hmem⟩ := h.rotate hsd
    dsimp only
    split
    case isTrue =>
      split
      · exact ⟨lw', h'.turn false .outgoing⟩
      · trivial
    case isFalse hne =>
      cases kind with
      | sync => exact ⟨lw', h'⟩
      | data =>
        have hlive : ((s.streamMap.map Prod.fst).contains sd) = true := by
          rw [contains_iff_mem]
          exact h.members sd hne (Or.inl hsd)
        unfold State.handle
        dsimp only
        rw [if_pos hlive]
        exact ⟨lw', h'⟩
      | terminate =>
        obtain ⟨s', lw'', hdone, hinv⟩ := h'.terminate ((hmem sd).2 hsd) hne
        rw [hdone]
        exact ⟨lw'', hinv⟩

/-! ### Going through the messages of one kind -/

theorem replay {before pending arrived : List Bool} (harrived : before ++ pending = arrived)
    (halt : Alternates arrived) {b : Bool} (horder : ∀ xs ys, pending = xs ++ (!b) :: ys → b ∉ ys)
    {n : Nat} (hn : n = pending.count b) :
    let after := before ++ List.replicate n b
    after ++ arrived.drop after.length = arrived ∧ (arrived.drop after.length).count b = 0 ∧
      (arrived.drop after.length).count (!b) = pending.count (!b) ∧
      (after.getLast? = some true ↔ if n = 0 then before.getLast? = some true else b = true) ∧
      (n ≠ 0 → (before.getLast? = some true ↔ b = false)) := by
  subst harrived
  intro after
  rcases pending_first halt horder with h0 | ⟨h1, rest, hrest⟩
  · obtain rfl : n = 0 := hn.trans h0
    have hafter : after = before := by simp [after]
    rw [hafter]
    simp [h0]
  · obtain rfl : n = 1 := hn.trans h1
    have hafter : after = before ++ [b] := rfl
    subst hrest
    have hdrop : (before ++ b :: rest).drop after.length = rest := by
      rw [hafter, append_cons before b rest, drop_left]
    rw [count_cons_self] at h1
    rw [hdrop, hafter]
    refine ⟨by simp, by omega, ?_, by simp, fun _ => ?_⟩
    · rw [count_cons_of_ne (by cases b <;> simp)]
    · have hfirst := (alternates_split halt).1
      cases b with
      | true => exact ⟨fun hl => absurd hl (hfirst.1 rfl), fun hb => Bool.noConfusion hb⟩
      | false => exact ⟨fun _ => rfl, fun _ => by simpa using hfirst⟩

theorem Inv.mem_named (h : Inv s lw lb) {e : Desc × D} (he : e ∈ s.streamMap) (ds : List D) :
    e.1 ∈ named s.streamMap ds ↔ e.2 ∈ ds := by
  unfold named
  rw [mem_filterMap]
  constructor
  · rintro ⟨d, hd, hf⟩
    rw [eq_of_key h.keys (d := e.2) he (findVal_some hf)]
    exact hd
  · intro hd
    have hdests := (nodup_append.1 h.dests).2.1
    exact ⟨e.2, hd, findVal_of_mem hdests he⟩

theorem mem_named_key {map : List (Desc × D)} {ds : List D} {sd : Desc} (h : sd ∈ named map ds) :
    ∃ e ∈ map, e.1 = sd ∧ e.2 ∈ ds := by
  obtain ⟨d, hd, hf⟩ := mem_filterMap.1 h
  exact ⟨(sd, d), findVal_some hf, rfl, hd⟩

/-- The messages of kind `b` that are pending, in their list. -/
def State.Listed (s : State D) (b : Bool) (ds : List D) : Prop :=
  ∀ d, s.Live d → ds.count d = (s.pending d).count b

/-- No message of the other kind is before one of kind `b` among those that are pending. -/
def State.Ordered (s : State D) (b : Bool) : Prop :=
  ∀ d, s.Live d → ∀ xs ys, s.pending d = xs ++ (!b) :: ys → b ∉ ys

theorem Inv.replay_nodup (h : Inv s lw lb) {b : Bool} {ds : List D} (hds : s.Listed b ds)
    (horder : s.Ordered b) : (named s.streamMap ds).Nodup := by
  refine nodup_named h.keys fun d hd => ?_
  obtain ⟨e, he, rfl⟩ := List.mem_map.1 hd
  rw [hds e.2 hd]
  have halt := h.alternates e.2
  rw [← h.inOrder e he] at halt
  rcases pending_first halt (horder e.2 hd) with h0 | ⟨h1, -⟩ <;> omega

theorem Inv.replay_mem (h : Inv s lw lb) {b : Bool} {ds : List D} (hds : s.Listed b ds)
    (horder : s.Ordered b) {sd : Desc} (hsd : sd ∈ named s.streamMap ds) :
    if b then sd ∈ lw else sd ∈ lb := by
  obtain ⟨e, he, rfl, hd⟩ := mem_named_key hsd
  have hlive : s.Live e.2 := mem_map_of_mem he
  have halt := h.alternates e.2
  rw [← h.inOrder e he] at halt
  have hpos : ds.count e.2 ≠ 0 := Nat.pos_iff_ne_zero.1 (count_pos_iff.2 hd)
  have hlast := (replay rfl halt (horder e.2 hlive) (hds e.2 hlive)).2.2.2.2 hpos
  rw [← h.isBlocked e he] at hlast
  cases b with
  | true =>
    rcases h.one e he with ⟨hw, -⟩ | ⟨-, hb⟩
    · exact hw
    · exact Bool.noConfusion (hlast.1 hb)
  | false => exact hlast.2 rfl

theorem Inv.moved (h : Inv s lw lb) {b : Bool} {ds : List D} (hds : s.Listed b ds) (horder : s.Ordered b)
    (hsent : ∀ d ∈ ds, ⟨d, b⟩ ∈ s.arrived) {next : Desc → Option Desc} {waiting blocked : Option Desc} {lw' lb' : List Desc}
    (hw : Ring next waiting lw') (hb : Ring next blocked lb') (hdisj : ∀ sd ∈ lw', sd ∉ lb')
    (hboth : ∀ sd, (sd ∈ lw' ∨ sd ∈ lb') ↔ (sd ∈ lw ∨ sd ∈ lb))
    (hmoved : ∀ sd, sd ∈ lb' ↔ if sd ∈ named s.streamMap ds then b = true else sd ∈ lb) (pc : Pc) :
    Inv { s with
      next := next, waiting := waiting, blocked := blocked
      newBlocked := if b then [] else s.newBlocked
      newUnblocked := if b then s.newUnblocked else []
      processed := s.processed ++ ds.map fun d => ⟨d, b⟩
      pc := pc } lw' lb' := by
  -- what becomes of the messages for one stream
  have hafter : ∀ e ∈ s.streamMap, _ := fun e he =>
    replay rfl ((h.inOrder e he).symm ▸ h.alternates e.2 : Alternates (_ ++ s.pending e.2))
      (horder e.2 (mem_map_of_mem he)) (hds e.2 (mem_map_of_mem he))
  have hforDest : ∀ d, forDest d (s.processed ++ ds.map fun d => ⟨d, b⟩) =
      forDest d s.processed ++ List.replicate (ds.count d) b := fun d => by
    rw [forDest_append, forDest_map]
  have hcount0 : ∀ e ∈ s.streamMap, ((forDest e.2 s.arrived).drop
      (forDest e.2 (s.processed ++ ds.map fun d => ⟨d, b⟩)).length).count b = 0 := by
    intro e he
    have := (hafter e he).2.1
    rwa [h.inOrder e he, ← hforDest] at this
  have hcount1 : ∀ e ∈ s.streamMap, ((forDest e.2 s.arrived).drop
      (forDest e.2 (s.processed ++ ds.map fun d => ⟨d, b⟩)).length).count (!b) = (s.pending e.2).count (!b) := by
    intro e he
    have := (hafter e he).2.2.1
    rwa [h.inOrder e he, ← hforDest] at this
  have hwake : wakeupDesc ∉ lb' := by
    rw [hmoved, if_neg]
    · exact h.disjoint _ h.wakeup
    · intro hm
      obtain ⟨e, he, heq, -⟩ := mem_named_key hm
      exact h.proper e he heq
  have hin : ∀ e ∈ s.streamMap, e.1 ∈ lw' ∨ e.1 ∈ lb' := fun e he =>
    (hboth e.1).2 ((h.one e he).imp And.left And.right)
  exact { h with
    waiting := hw
    blocked := hb
    wakeup := ((hboth _).2 (Or.inl h.wakeup)).resolve_right hwake
    one := by
      intro e he
      rcases hin e he with hm | hm
      · exact Or.inl ⟨hm, hdisj _ hm⟩
      · exact Or.inr ⟨fun hm' => hdisj _ hm' hm, hm⟩
    isBlocked := by
      intro e he
      dsimp only
      have hcount : ds.count e.2 = 0 ↔ ¬ e.1 ∈ named s.streamMap ds := by
        rw [h.mem_named he, count_eq_zero]
      rw [hforDest, (hafter e he).2.2.2.1, hmoved e.1]
      by_cases hnamed : e.1 ∈ named s.streamMap ds
      · rw [if_pos hnamed, if_neg fun h0 => hcount.1 h0 hnamed]
      · rw [if_neg hnamed, if_pos (hcount.2 hnamed), h.isBlocked e he]
    inOrder := by
      intro e he
      have := (hafter e he).1
      rwa [h.inOrder e he, ← hforDest] at this
    disjoint := hdisj
    members := fun sd hne hsd => h.members sd hne ((hboth sd).1 hsd)
    opened := fun sd hsd => h.opened sd ((hboth sd).1 hsd)
    processed := by
      intro m hm
      rcases mem_append.1 hm with hm | hm
      · exact h.processed m hm
      · obtain ⟨d, hd, rfl⟩ := List.mem_map.1 hm
        exact hsent d hd
    newBlocked := by
      cases b with
      | true => exact fun d hd => absurd hd not_mem_nil
      | false => exact h.newBlocked
    newUnblocked := by
      cases b with
      | true => exact h.newUnblocked
      | false => exact fun d hd => absurd hd not_mem_nil
    blocks := by
      intro d hd
      obtain ⟨e, he, rfl⟩ := List.mem_map.1 hd
      cases b with
      | true => exact (hcount0 e he).symm
      | false => exact (h.blocks e.2 hd).trans (hcount1 e he).symm
    unblocks := by
      intro d hd
      obtain ⟨e, he, rfl⟩ := List.mem_map.1 hd
      cases b with
      | true => exact (h.unblocks e.2 hd).trans (hcount1 e he).symm
      | false => exact (hcount0 e he).symm }

theorem Inv.blocks_go (h : Inv s lw lb) (horder : s.Ordered true) (hpc : s.pc = .blocks) :
    s.go.Meets fun s' => ∃ lw' lb', Inv s' lw' lb' := by
  let sets : Sets := ⟨s.next, s.waiting, s.blocked⟩
  have hring : Ring sets.next sets.oldSet lw := h.waiting
  obtain ⟨sets, lw', lb', hrun, hw, hb, hdisj, hmemw, hmemb⟩ :=
    updateBlocked_spec hring h.blocked h.disjoint h.length_waiting
    (h.replay_nodup h.blocks horder) fun sd hsd => h.replay_mem h.blocks horder hsd
  have hinv := h.moved h.blocks horder h.newBlocked hw hb hdisj (fun sd => ?_) (fun sd => ?_) .unblocks
  · unfold State.go
    rw [hpc]
    dsimp only
    rw [hrun]
    exact ⟨lw', lb', hinv⟩
  · have := fun hsd : sd ∈ _ => h.replay_mem h.blocks horder hsd
    rw [if_pos rfl] at this
    rw [hmemw, hmemb]
    tauto
  · rw [hmemb]
    split <;> simp_all

theorem Inv.unblocks_go (h : Inv s lw lb) (horder : s.Ordered false) (hpc : s.pc = .unblocks) :
    s.go.Meets fun s' => ∃ lw' lb', Inv s' lw' lb' := by
  let sets : Sets := ⟨s.next, s.blocked, s.waiting⟩
  have hring : Ring sets.next sets.oldSet lb := h.blocked
  obtain ⟨sets, lb', lw', hrun, hb, hw, hdisj, hmemb, hmemw⟩ :=
    updateBlocked_spec hring h.waiting (fun sd hb hw => h.disjoint sd hw hb) h.length_blocked (h.replay_nodup h.unblocks horder) fun sd hsd => h.replay_mem h.unblocks horder hsd
  have hinv := h.moved h.unblocks horder h.newUnblocked hw hb (fun sd hw hb => hdisj sd hb hw)
    (fun sd => ?_) (fun sd => ?_) .poll
  · unfold State.go
    rw [hpc]
    dsimp only
    rw [hrun]
    exact ⟨lw', lb', hinv⟩
  · have := fun hsd : sd ∈ _ => h.replay_mem h.unblocks horder hsd
    rw [if_neg (by decide)] at this
    rw [hmemw, hmemb]
    tauto
  · rw [hmemb]
    split <;> simp_all

/-! ### Runs -/

theorem Inv.init (dests : List D) (hdests : dests.Nodup) : Inv (State.init dests) [wakeupDesc] [] :=
  { waiting := (Ring.nil _).put not_mem_nil
    blocked := Ring.nil _
    wakeup := mem_cons_self
    one := nofun
    isBlocked := nofun
    inOrder := nofun
    disjoint := fun _ _ => not_mem_nil
    members := by
      intro sd hne hsd
      rcases hsd with hsd | hsd
      · exact absurd (mem_singleton.1 hsd) hne
      · cases hsd
    keys := nodup_nil
    proper := nofun
    opened := by
      intro sd hsd
      rcases hsd with hsd | hsd
      · rw [mem_singleton.1 hsd]
        exact Nat.zero_lt_one
      · cases hsd
    dests := by simpa [State.init] using hdests
    registered := by simp [State.init]
    messages := nofun
    alternates := fun _ => trivial
    processed := nofun
    newBlocked := nofun
    newUnblocked := nofun
    blocks := nofun
    unblocks := nofun }

theorem Inv.step (h : Inv s lw lb) {a : Act D} (hok : Surroundings s a ∧ InOrder s a) :
    (step s a).Meets fun s' => ∃ lw' lb', Inv s' lw' lb' := by
  obtain ⟨hsur, horder⟩ := hok
  cases a with
  | newOut dest => exact ⟨lw, lb, h.newOut hsur⟩
  | message m => exact ⟨lw, lb, h.message hsur.1 hsur.2.1 hsur.2.2⟩
  | poll sd kind =>
    unfold OutputManager.step
    dsimp only
    split
    case h_1 =>
      have hpoll := h.poll sd kind
      cases hres : s.poll sd kind with
      | blocked => trivial
      | fault => exact absurd hres hpoll.ne_fault
      | done s' =>
        obtain ⟨lw', h'⟩ := hpoll.of_done hres
        exact ⟨lw', lb, h'⟩
    case h_2 => trivial
  | go =>
    change s.go.Meets _
    unfold InOrder at horder
    dsimp only at horder
    cases hpc : s.pc with
    | start =>
      obtain ⟨lw', h'⟩ := h.updateOutgoing
      unfold State.go
      rw [hpc]
      exact ⟨lw', lb, h'.turn _ .poll⟩
    | poll =>
      unfold State.go
      rw [hpc]
      trivial
    | outgoing =>
      obtain ⟨lw', h'⟩ := h.updateOutgoing
      unfold State.go
      rw [hpc]
      exact ⟨lw', lb, h'.turn _ .blocks⟩
    | blocks =>
      rw [hpc] at horder
      exact h.blocks_go horder hpc
    | unblocks =>
      rw [hpc] at horder
      exact h.unblocks_go horder hpc

theorem Inv.of_reach {dests : List D} (hdests : dests.Nodup)
    (h : Reach OutputManager.step (fun s a => Surroundings s a ∧ InOrder s a) (State.init dests) s) :
    ∃ lw lb, Inv s lw lb := by
  refine h.invariant (I := fun s => ∃ lw lb, Inv s lw lb) ⟨_, _, Inv.init dests hdests⟩ ?_
  rintro s a s' ⟨lw, lb, hinv⟩ hok hs
  exact (hinv.step hok).of_done hs

/-- As long as the messages are processed in their order, the sets tell which streams are blocked, and no
stream is removed from an empty set. -/
theorem blocked_faithful (dests : List D) (hdests : dests.Nodup) (s : State D)
    (h : Reach step (fun s a => Surroundings s a ∧ InOrder s a) (State.init dests) s) :
    (∃ lw lb, Tracks s lw lb) ∧ ∀ a, Surroundings s a → InOrder s a → step s a ≠ .fault := by
  obtain ⟨lw, lb, hinv⟩ := Inv.of_reach hdests h
  exact ⟨⟨lw, lb, hinv.toTracks⟩, fun a hsur horder => (hinv.step ⟨hsur, horder⟩).ne_fault⟩

/-- A stream is registered, taken over and blocked. -/
theorem blocked_faithful_one : ∃ s, runAll step (State.init [7])
      [.go, .message ⟨7, true⟩, .poll wakeupDesc .data, .go, .go] = .done s ∧ s.blocked = some 1 ∧
    ((∃ lw lb, Tracks s lw lb) ∧ ∀ a, Surroundings s a → InOrder s a → step s a ≠ .fault) := by
  have hok : Permitted step (fun s a => Surroundings s a ∧ InOrder s a) (State.init [7])
      [.go, .message ⟨7, true⟩, .poll wakeupDesc .data, .go, .go] := by
    refine ⟨⟨trivial, trivial⟩, fun s hs => ?_⟩
    cases hs
    refine ⟨⟨⟨mem_cons_self, not_mem_nil, rfl⟩, trivial⟩, fun s hs => ?_⟩
    cases hs
    refine ⟨⟨trivial, trivial⟩, fun s hs => ?_⟩
    cases hs
    refine ⟨⟨trivial, trivial⟩, fun s hs => ?_⟩
    cases hs
    refine ⟨⟨trivial, fun d hd xs ys hp => ?_⟩, fun _ _ => trivial⟩
    obtain rfl : d = 7 := mem_singleton.1 hd
    have hp' : [true] = xs ++ false :: ys := hp
    cases xs with
    | nil => cases hp'
    | cons x xs => cases xs <;> cases hp'
  exact ⟨_, rfl, rfl, blocked_faithful [7] (by simp) _ (Reach.init.of_runAll hok rfl)⟩

/-- Two streams are blocked, then the first is unblocked and blocked again before the manager wakes up: it
is put into `blocked` once more, and when it is removed from there the second one is in no set. -/
theorem blocked_lost : ∃ s : State Nat, Reach step Surroundings (State.init [7, 8]) s ∧ s.pc = .poll ∧
    s.wakeup = false ∧ (2, 8) ∈ s.streamMap ∧ (forDest 8 s.processed).getLast? = some true ∧
    ∀ lw lb, Ring s.next s.waiting lw → Ring s.next s.blocked lb → 2 ∉ lw ∧ 2 ∉ lb := by
  have hok : Permitted step Surroundings (State.init [7, 8]) [.go, .message ⟨7, true⟩, .message ⟨8, true⟩,
      .poll wakeupDesc .data, .go, .go, .go, .message ⟨7, false⟩, .message ⟨7, true⟩,
      .poll wakeupDesc .data, .go, .go, .go] := by
    refine ⟨trivial, fun s hs => ?_⟩
    cases hs
    refine ⟨⟨mem_cons_self, not_mem_nil, rfl⟩, fun s hs => ?_⟩
    cases hs
    refine ⟨⟨mem_cons_of_mem _ mem_cons_self, not_mem_nil, rfl⟩, fun s hs => ?_⟩
    cases hs
    refine ⟨trivial, fun s hs => ?_⟩
    cases hs
    refine ⟨trivial, fun s hs => ?_⟩
    cases hs
    refine ⟨trivial, fun s hs => ?_⟩
    cases hs
    refine ⟨trivial, fun s hs => ?_⟩
    cases hs
    refine ⟨⟨mem_cons_self, not_mem_nil, rfl, rfl, trivial⟩, fun s hs => ?_⟩
    cases hs
    refine ⟨⟨mem_cons_self, not_mem_nil, rfl, rfl, rfl⟩, fun s hs => ?_⟩
    cases hs
    refine ⟨trivial, fun s hs => ?_⟩
    cases hs
    refine ⟨trivial, fun s hs => ?_⟩
    cases hs
    refine ⟨trivial, fun s hs => ?_⟩
    cases hs
    exact ⟨trivial, fun _ _ => trivial⟩
  refine ⟨_, Reach.init.of_runAll hok rfl, rfl, rfl, mem_cons_of_mem _ mem_cons_self, rfl,
    fun lw lb hw hb => ⟨?_, ?_⟩⟩
  · -- the walk through `waiting` ends after the two others
    rw [← hw.members (Nat.le_add_right lw.length 3)]
    change 2 ∉ [0, 1]
    decide
  · obtain rfl : lb = [] := getLast?_eq_none_iff.1 hb.last.symm
    exact not_mem_nil

end SNet.Distrib.OutputManager
