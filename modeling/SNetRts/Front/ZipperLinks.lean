import SNetRts.Lib.Linked
import SNetRts.Front.Zipper

/-!
# The lists of a zipper landing

The matchings of a zipper landing form groups: a cell on the `next` list and the cells on its
`same` list. `Linked land gs` says that the pointers of the landing describe the groups `gs`, and
every operation on the lists is described by what it does to the groups. A leader without a `same`
list may have a `tail`, itself: it was once the last of a list that has been split off before it.
The second cell of a group may have one for the same reason; no other cell has.
-/

namespace SNet.Zipper

open List

open Lib SNet.Sync

variable {V : Type} {land land' : Landing V} {h h' : Heap V}

/-- A leader and the cells of its `same` list. -/
abbrev Group := Addr × List Addr

def flat (gs : List Group) : List Addr := gs.flatMap fun g => g.1 :: g.2

@[simp] theorem flat_nil : flat [] = [] := rfl

@[simp] theorem flat_cons (g : Group) (gs : List Group) : flat (g :: gs) = g.1 :: g.2 ++ flat gs := rfl

@[simp] theorem flat_append (gs hs : List Group) : flat (gs ++ hs) = flat gs ++ flat hs :=
  flatMap_append

theorem mem_flat_of_mem {g : Group} {gs : List Group} {b : Addr} (hg : g ∈ gs) (hb : b ∈ g.1 :: g.2) :
    b ∈ flat gs := mem_flatMap.2 ⟨g, hg, hb⟩

def nextLink (h : Heap V) (a : Addr) : Option (Option Addr) := (h a).map Matching.next

def sameLink (h : Heap V) (a : Addr) : Option (Option Addr) := (h a).map Matching.same

def content (h : Heap V) (a : Addr) : Option (Finset Nat × List (Slot V)) :=
  (h a).map fun m => (m.unmatched, m.storage)

/-- The pointers of a group. -/
structure GroupOk (h : Heap V) (g : Group) (m : Matching V) : Prop where
  lead : h g.1 = some m
  same : Seg (sameLink h) m.same g.2 none
  tail : m.tail = (g.1 :: g.2).getLast? ∨ g.2 = [] ∧ m.tail = none
  members : ∀ b ∈ g.2, ∃ n, h b = some n ∧ n.next = none
  tails : ∀ b ∈ g.2.tail, ∃ n, h b = some n ∧ n.tail = none

/-- The pointers of the landing describe the groups. -/
structure Linked (land : Landing V) (gs : List Group) : Prop where
  chain : Seg (nextLink land.heap) land.head (gs.map Prod.fst) none
  groups : ∀ g ∈ gs, ∃ m, GroupOk land.heap g m
  nodup : (flat gs).Nodup
  live : ∀ a, land.heap a ≠ none → a ∈ flat gs
  below : ∀ a ∈ flat gs, a < land.fresh

theorem GroupOk.congr {g : Group} {m : Matching V} (hg : GroupOk h g m)
    (heq : ∀ b ∈ g.1 :: g.2, h' b = h b) : GroupOk h' g m := by
  have hmem : ∀ b ∈ g.2, h' b = h b := fun b hb => heq b (mem_cons_of_mem _ hb)
  refine ⟨(heq _ mem_cons_self).trans hg.lead, ?_, hg.tail, ?_, ?_⟩
  · exact hg.same.congr fun b hb => by rw [sameLink, sameLink, hmem b hb]
  · intro b hb
    rw [hmem b hb]
    exact hg.members b hb
  · intro b hb
    rw [hmem b (mem_of_mem_tail hb)]
    exact hg.tails b hb

theorem linked_init : Linked (Landing.init : Landing V) [] := by
  refine ⟨rfl, ?_, nodup_nil, fun a ha => absurd rfl ha, ?_⟩ <;>
    exact fun _ h => absurd h not_mem_nil

theorem Linked.replace {bs ms ms' cs : List Group} (hl : Linked land (bs ++ ms ++ cs))
    (hhead : land'.head = land.head)
    (hframe : ∀ b, b ∉ flat ms → b ∉ flat ms' → land'.heap b = land.heap b)
    (hsub : ∀ b ∈ flat ms', b ∈ flat ms ∨ land.fresh ≤ b) (hnodup : (flat ms').Nodup)
    (hfresh : land.fresh ≤ land'.fresh) (hbelow : ∀ b ∈ flat ms', b < land'.fresh)
    (hlive : ∀ b ∈ flat ms, land'.heap b ≠ none → b ∈ flat ms')
    (hgroups : ∀ g ∈ ms', ∃ m, GroupOk land'.heap g m)
    (hseg : ∀ p q, Seg (nextLink land.heap) p (ms.map Prod.fst) q →
      Seg (nextLink land'.heap) p (ms'.map Prod.fst) q) :
    Linked land' (bs ++ ms' ++ cs) := by
  obtain ⟨hchain, hgr, hnd, hli, hbe⟩ := hl
  simp only [flat_append, append_assoc] at hnd hli hbe
  rw [nodup_append] at hnd
  obtain ⟨hnb, hnmc, hdb⟩ := hnd
  rw [nodup_append] at hnmc
  obtain ⟨-, hnc, hdc⟩ := hnmc
  -- the cells around the middle are cells of neither middle
  have houtb : ∀ b ∈ flat bs, b ∉ flat ms ∧ b ∉ flat ms' := by
    intro b hb
    have h1 : b ∉ flat ms := fun hm => hdb b hb b (mem_append_left _ hm) rfl
    refine ⟨h1, fun hm => ?_⟩
    rcases hsub b hm with hm | hm
    · exact h1 hm
    · exact absurd (hbe b (mem_append_left _ hb)) (Nat.not_lt.2 hm)
  have houtc : ∀ b ∈ flat cs, b ∉ flat ms ∧ b ∉ flat ms' := by
    intro b hb
    have h1 : b ∉ flat ms := fun hm => hdc b hm b hb rfl
    refine ⟨h1, fun hm => ?_⟩
    rcases hsub b hm with hm | hm
    · exact h1 hm
    · exact absurd (hbe b (mem_append_right _ (mem_append_right _ hb))) (Nat.not_lt.2 hm)
  have hb : ∀ b ∈ flat bs, land'.heap b = land.heap b := fun b hb =>
    hframe b (houtb b hb).1 (houtb b hb).2
  have hc : ∀ b ∈ flat cs, land'.heap b = land.heap b := fun b hb =>
    hframe b (houtc b hb).1 (houtc b hb).2
  have hlead : ∀ {gs : List Group} {a : Addr}, a ∈ gs.map Prod.fst → a ∈ flat gs := by
    intro gs a ha
    obtain ⟨g, hg, rfl⟩ := List.mem_map.1 ha
    exact mem_flat_of_mem hg mem_cons_self
  refine ⟨?_, ?_, ?_, ?_, ?_⟩
  · simp only [map_append, Seg.append_iff] at hchain ⊢
    obtain ⟨r, ⟨q, h1, h2⟩, h3⟩ := hchain
    rw [hhead]
    refine ⟨r, ⟨q, h1.congr fun a ha => ?_, hseg q r h2⟩, h3.congr fun a ha => ?_⟩
    · rw [nextLink, nextLink, hb a (hlead ha)]
    · rw [nextLink, nextLink, hc a (hlead ha)]
  · intro g hg
    simp only [mem_append] at hg
    rcases hg with (hg | hg) | hg
    · obtain ⟨m, hm⟩ := hgr g (by simp [hg])
      exact ⟨m, hm.congr fun b hbm => hb b (mem_flat_of_mem hg hbm)⟩
    · exact hgroups g hg
    · obtain ⟨m, hm⟩ := hgr g (by simp [hg])
      exact ⟨m, hm.congr fun b hbm => hc b (mem_flat_of_mem hg hbm)⟩
  · simp only [flat_append, append_assoc]
    refine nodup_append.2 ⟨hnb, nodup_append.2 ⟨hnodup, hnc, ?_⟩, ?_⟩
    · rintro a ha b hbc rfl
      exact (houtc a hbc).2 ha
    · rintro a ha b hbm rfl
      rcases mem_append.1 hbm with hm | hm
      · exact (houtb a ha).2 hm
      · exact hdb a ha a (mem_append_right _ hm) rfl
  · intro a ha
    simp only [flat_append, mem_append]
    by_cases h1 : a ∈ flat ms
    · exact Or.inl (Or.inr (hlive a h1 ha))
    by_cases h2 : a ∈ flat ms'
    · exact Or.inl (Or.inr h2)
    rw [hframe a h1 h2] at ha
    have := hli a ha
    simp only [mem_append] at this
    tauto
  · intro a ha
    simp only [flat_append, mem_append] at ha
    rcases ha with (ha | ha) | ha
    · exact Nat.lt_of_lt_of_le (hbe a (by simp [ha])) hfresh
    · exact hbelow a ha
    · exact Nat.lt_of_lt_of_le (hbe a (by simp [ha])) hfresh

/-! ## The operations on the lists -/

@[simp] theorem Landing.set_heap (land : Landing V) (a b : Addr) (m : Matching V) :
    (land.set a m).heap b = if b = a then some m else land.heap b := by
  simp [Landing.set, Function.update_apply]

@[simp] theorem Landing.set_head (land : Landing V) (a : Addr) (m : Matching V) :
    (land.set a m).head = land.head := rfl

@[simp] theorem Landing.set_fresh (land : Landing V) (a : Addr) (m : Matching V) :
    (land.set a m).fresh = land.fresh := rfl

@[simp] theorem Landing.delete_heap (land : Landing V) (a b : Addr) :
    (land.delete a).heap b = if b = a then none else land.heap b := by
  simp [Landing.delete, Function.update_apply]

@[simp] theorem Landing.alloc_heap (patterns : List (Pattern V)) (land : Landing V) (b : Addr) :
    (land.alloc patterns).heap b =
      if b = land.fresh then some (newMatching patterns) else land.heap b := by
  simp [Landing.alloc, Function.update_apply]

/-- What remains of the `same` list of a cell that leaves its group. -/
def handed : List Addr → List Group
  | [] => []
  | s :: ss => [(s, ss)]

@[simp] theorem flat_handed (as : List Addr) : flat (handed as) = as := by
  cases as <;> simp [handed]

theorem Linked.middle {bs ms cs : List Group} (hl : Linked land (bs ++ ms ++ cs)) :
    (flat ms).Nodup ∧ ∀ b ∈ flat ms, b < land.fresh := by
  have hnd := hl.nodup
  rw [flat_append, flat_append] at hnd
  refine ⟨(nodup_append.1 (nodup_append.1 hnd).1).2.1, fun b hb => hl.below b ?_⟩
  simp only [flat_append, mem_append]
  exact Or.inl (Or.inr hb)

theorem Linked.setContent {bs cs : List Group} {g : Group} {m : Matching V} {u : Finset Nat}
    {ss : List (Slot V)} (hl : Linked land (bs ++ g :: cs)) (hm : land.heap g.1 = some m) :
    Linked (land.set g.1 { m with unmatched := u, storage := ss }) (bs ++ g :: cs) := by
  have hl' : Linked land (bs ++ [g] ++ cs) := by simpa using hl
  suffices h : Linked (land.set g.1 { m with unmatched := u, storage := ss }) (bs ++ [g] ++ cs) by
    simpa using h
  obtain ⟨m', hg⟩ := hl.groups g (by simp)
  cases hm.symm.trans hg.lead
  obtain ⟨hnd, hbelow⟩ := hl'.middle
  have hmem : g.1 ∈ flat [g] := by simp
  have hnot : g.1 ∉ g.2 := by simpa using (nodup_cons.1 hnd).1
  have hother : ∀ b ∈ g.2, b ≠ g.1 := fun b hb e => hnot (e ▸ hb)
  refine hl'.replace rfl ?_ (fun b hb => Or.inl hb) hnd (Nat.le_refl _) hbelow (fun b hb _ => hb)
    ?_ ?_
  · intro b hb _
    have : b ≠ g.1 := fun e => hb (e ▸ hmem)
    simp [this]
  · intro g' hg'
    cases mem_singleton.1 hg'
    refine ⟨{ m with unmatched := u, storage := ss }, by simp, hg.same.congr fun b hb => ?_,
      hg.tail, ?_, ?_⟩
    · simp [sameLink, hother b hb]
    · intro b hb
      simpa [hother b hb] using hg.members b hb
    · intro b hb
      simpa [hother b (mem_of_mem_tail hb)] using hg.tails b hb
  · intro p q hseg
    obtain ⟨rfl, r, hr, rfl⟩ := hseg
    refine ⟨rfl, r, ?_, rfl⟩
    simpa [nextLink, hm] using hr

theorem Linked.splitSame {bs cs : List Group} {a : Addr} {as : List Addr}
    (hl : Linked land (bs ++ (a, as) :: cs))
    (hclear : ∀ s n, as.head? = some s → land.heap s = some n → n.tail = none) :
    ∃ land', land.splitSame a = some land' ∧ Linked land' (bs ++ (a, []) :: (handed as ++ cs)) ∧
      (∀ b, content land'.heap b = content land.heap b) ∧
      (∀ b, b ≠ a → b ∉ as → land'.heap b = land.heap b) ∧
      ∃ m, land'.heap a = some m ∧ (as = [] → land.heap a = some m) ∧ (as ≠ [] → m.tail = none) := by
  obtain ⟨m, hg⟩ := hl.groups (a, as) (by simp)
  have hm : land.heap a = some m := hg.lead
  cases as with
  | nil =>
    have hsame : m.same = none := hg.same
    exact ⟨land, by simp [Landing.splitSame, hm, hsame], hl, fun _ => rfl, fun _ _ _ => rfl, m, hm,
      fun _ => hm, fun h => absurd rfl h⟩
  | cons s ss =>
    obtain ⟨hsame, r, hr, hrest⟩ := hg.same
    obtain ⟨n, hn, hnext⟩ := hg.members s mem_cons_self
    have htail := hclear s n rfl hn
    have hl' : Linked land (bs ++ [(a, s :: ss)] ++ cs) := by simpa using hl
    obtain ⟨hnd, hbelow⟩ := hl'.middle
    simp only [flat_cons, flat_nil, append_nil, nodup_cons, mem_cons, not_or] at hnd
    obtain ⟨⟨has, hass⟩, hsss, hndss⟩ := hnd
    have hother : ∀ b ∈ ss, b ≠ a ∧ b ≠ s := fun b hb =>
      ⟨fun e => hass (e ▸ hb), fun e => hsss (e ▸ hb)⟩
    refine ⟨(land.set s { n with next := m.next, tail := m.tail }).set a
      { m with next := some s, same := none, tail := none },
      by simp only [Landing.splitSame, hm, hsame, hn, hnext, htail, and_self, if_true], ?_, ?_, ?_,
      { m with next := some s, same := none, tail := none }, by simp, by simp, fun _ => rfl⟩
    · suffices h : Linked _ (bs ++ [(a, []), (s, ss)] ++ cs) by simpa [handed] using h
      refine hl'.replace rfl ?_ ?_ ?_ (Nat.le_refl _) ?_ ?_ ?_ ?_
      · intro b hb _
        simp only [flat_cons, flat_nil, append_nil, mem_cons, not_or] at hb
        simp [hb.1, hb.2.1]
      · intro b hb
        exact Or.inl (by simpa using hb)
      · simp [has, hass, hsss, hndss]
      · intro b hb
        exact hbelow b (by simpa using hb)
      · intro b hb _
        simpa using hb
      · intro g hg'
        rcases mem_cons.1 hg' with rfl | hg'
        · exact ⟨{ m with next := some s, same := none, tail := none }, by simp, rfl,
            Or.inr ⟨rfl, rfl⟩, by simp, by simp⟩
        · cases mem_singleton.1 hg'
          refine ⟨{ n with next := m.next, tail := m.tail }, by simp [Ne.symm has], ?_, ?_, ?_, ?_⟩
          · have hrn : r = n.same := by simpa [sameLink, hn] using hr.symm
            exact hrn ▸ hrest.congr fun b hb => by simp [sameLink, hother b hb]
          · have htl := hg.tail
            exact Or.inl (by simpa [getLast?_cons_cons] using htl)
          · intro b hb
            simpa [hother b hb] using hg.members b (mem_cons_of_mem _ hb)
          · intro b hb
            simpa [hother b (mem_of_mem_tail hb)] using hg.tails b (mem_of_mem_tail hb)
      · intro p q hseg
        obtain ⟨rfl, r, hr, rfl⟩ := hseg
        have hr : m.next = r := by simpa [nextLink, hm] using hr
        exact ⟨rfl, some s, by simp [nextLink], rfl, r, by simp [nextLink, Ne.symm has, hr], rfl⟩
    · intro b
      by_cases hba : b = a
      · simp [content, hba, hm]
      · by_cases hbs : b = s
        · have hsa : s ≠ a := Ne.symm has
          simp [content, hbs, hsa, hn]
        · simp [content, hba, hbs]
    · intro b hba hbs
      simp only [mem_cons, not_or] at hbs
      simp [hba, hbs.1]

theorem groupOk_join {p a : Addr} {ps : List Addr} {l m : Matching V} (hg : GroupOk h (p, ps) l)
    (hm : h a = some m) (hmsame : m.same = none) (hnd : (p :: ps ++ [a]).Nodup)
    (htail : ps ≠ [] → m.tail = none) {l' m' : Matching V} (hl' : h' p = some l')
    (hm' : h' a = some m') (hlt : l'.tail = some a) (hmn : m'.next = none)
    (hms : m'.same = m.same) (hmt : m'.tail = m.tail)
    (hlsame : l'.same = (ps ++ [a]).head?)
    (hlast : ∀ ps0 t n, ps = ps0 ++ [t] → h t = some n → h' t = some { n with same := some a })
    (hframe : ∀ ps0 t, ps = ps0 ++ [t] → ∀ b ∈ ps0, h' b = h b) : GroupOk h' (p, ps ++ [a]) l' := by
  have hend : Seg (sameLink h') (some a) [a] none :=
    ⟨rfl, none, by simp [sameLink, hm', hms, hmsame], rfl⟩
  have hlasttail : l'.tail = (p :: (ps ++ [a])).getLast? := by
    rw [hlt, ← cons_append, getLast?_concat]
  rcases eq_nil_or_concat ps with rfl | ⟨ps0, t, rfl⟩
  · refine ⟨hl', by rw [hlsame]; exact hend, Or.inl hlasttail, ?_, by simp⟩
    intro b hb
    cases mem_singleton.1 hb
    exact ⟨m', hm', hmn⟩
  · rw [concat_eq_append] at *
    obtain ⟨n, hn, hnn⟩ := hg.members t (by simp)
    have ht' := hlast ps0 t n rfl hn
    have hfr := hframe ps0 t rfl
    have hhead : l'.same = l.same := by
      rw [hlsame, hg.same.head_eq]
      cases ps0 <;> simp
    refine ⟨hl', ?_, Or.inl hlasttail, ?_, ?_⟩
    · refine Seg.append_iff.2 ⟨some a, ?_, hend⟩
      rw [hhead]
      refine hg.same.set_last ?_ (fun b hb _ => by rw [sameLink, sameLink, hfr b hb]) ?_
      · intro hmem
        simp only [cons_append, nodup_cons, nodup_append] at hnd
        exact hnd.2.1.2.2 t hmem t (by simp) rfl
      · simp [sameLink, ht']
    · intro b hb
      simp only [mem_append, mem_singleton] at hb
      rcases hb with (hb | rfl) | rfl
      · rw [hfr b hb]
        exact hg.members b (by simp [hb])
      · exact ⟨_, ht', hnn⟩
      · exact ⟨m', hm', hmn⟩
    · intro b hb
      have hcases : b ∈ (ps0 ++ [t]).tail ∨ b = a := by
        cases ps0 with
        | nil => exact Or.inr (by simpa using hb)
        | cons x xs => simpa [or_assoc] using hb
      rcases hcases with hb | rfl
      · obtain ⟨k, hk, hkt⟩ := hg.tails b hb
        rcases mem_append.1 (mem_of_mem_tail hb) with hb0 | hbt
        · exact ⟨k, (hfr b hb0).trans hk, hkt⟩
        · cases mem_singleton.1 hbt
          cases hn.symm.trans hk
          exact ⟨_, ht', hkt⟩
      · exact ⟨m', hm', hmt.trans (htail (by simp))⟩

theorem Linked.join {bs cs : List Group} {p a : Addr} {ps : List Addr} {l m : Matching V}
    (hl : Linked land (bs ++ (p, ps) :: (a, []) :: cs)) (hp : land.heap p = some l)
    (ha : land.heap a = some m) (htail : ps ≠ [] → m.tail = none) (hhead : land'.head = land.head)
    (hfresh : land'.fresh = land.fresh)
    (hp' : land'.heap p =
      some { l with next := m.next, same := (ps ++ [a]).head?, tail := some a })
    (ha' : land'.heap a = some { m with next := none })
    (hlast : ∀ t n, ps.getLast? = some t → land.heap t = some n →
      land'.heap t = some { n with same := some a })
    (hframe : ∀ b, b ≠ p → b ≠ a → ps.getLast? ≠ some b → land'.heap b = land.heap b) :
    Linked land' (bs ++ (p, ps ++ [a]) :: cs) ∧
      ∀ b, content land'.heap b = content land.heap b := by
  have hl' : Linked land (bs ++ [(p, ps), (a, [])] ++ cs) := by simpa using hl
  obtain ⟨lp, hg⟩ := hl.groups (p, ps) (by simp)
  cases hp.symm.trans hg.lead
  obtain ⟨mp, hga⟩ := hl.groups (a, []) (by simp)
  cases ha.symm.trans hga.lead
  have hmsame : m.same = none := hga.same
  obtain ⟨hnd, hbelow⟩ := hl'.middle
  have hflat : flat [(p, ps), (a, [])] = p :: ps ++ [a] := by simp
  rw [hflat] at hnd hbelow
  have hflat' : flat [(p, ps ++ [a])] = p :: ps ++ [a] := by simp
  have hpa : p ≠ a := by
    intro e
    have := (nodup_cons.1 hnd).1
    simp [e] at this
  constructor
  · suffices h : Linked land' (bs ++ [(p, ps ++ [a])] ++ cs) by simpa using h
    refine hl'.replace hhead ?_ ?_ (by rw [hflat']; exact hnd) (Nat.le_of_eq hfresh.symm) ?_ ?_ ?_ ?_
    · intro b hb _
      rw [hflat] at hb
      simp only [cons_append, mem_cons, mem_append, not_mem_nil, or_false,
        not_or] at hb
      exact hframe b hb.1 hb.2.2 fun e => hb.2.1 (mem_of_getLast? e)
    · intro b hb
      rw [hflat'] at hb
      exact Or.inl (hflat ▸ hb)
    · intro b hb
      rw [hflat'] at hb
      exact hfresh ▸ hbelow b hb
    · intro b hb _
      rw [hflat'] 
      exact hflat ▸ hb
    · intro g hg'
      cases mem_singleton.1 hg'
      refine ⟨_, groupOk_join hg ha hmsame hnd htail hp' ha' rfl rfl rfl rfl rfl ?_ ?_⟩
      · rintro ps0 t n rfl hn
        exact hlast t n (by simp) hn
      · rintro ps0 t rfl b hb
        simp only [cons_append, nodup_cons, nodup_append, mem_append,
          mem_singleton, not_or] at hnd
        refine hframe b (fun e => hnd.1.1.1 (e ▸ hb)) (fun e => ?_) (fun e => ?_)
        · exact hnd.2.2.2 b (Or.inl hb) a rfl e
        · rw [getLast?_concat] at e
          exact hnd.2.1.2.2 b hb t rfl (Option.some.inj e).symm
    · intro q r hseg
      obtain ⟨rfl, r1, hr1, hq, r2, hr2, rfl⟩ := hseg
      have hr2 : m.next = r2 := by simpa [nextLink, ha] using hr2
      exact ⟨rfl, r2, by simp [nextLink, hp', hr2], rfl⟩
  · intro b
    by_cases hbp : b = p
    · simp [content, hbp, hp, hp']
    by_cases hba : b = a
    · simp [content, hba, ha, ha']
    by_cases hbt : ps.getLast? = some b
    · obtain ⟨n, hn, -⟩ := hg.members b (mem_of_getLast? hbt)
      simp [content, hn, hlast b n hbt hn]
    · simp [content, hframe b hbp hba hbt]

theorem Linked.joinPrev {bs cs : List Group} {p a : Addr} {ps : List Addr} {l m : Matching V}
    (hl : Linked land (bs ++ (p, ps) :: (a, []) :: cs)) (hp : land.heap p = some l)
    (ha : land.heap a = some m) (hmask : l.unmatched = m.unmatched)
    (hclear : l.tail = none ∨ m.tail = none) :
    ∃ land', land.joinPrev (some p) a = some land' ∧ Linked land' (bs ++ (p, ps ++ [a]) :: cs) ∧
      ∀ b, content land'.heap b = content land.heap b := by
  obtain ⟨lp, hg⟩ := hl.groups (p, ps) (by simp)
  cases hp.symm.trans hg.lead
  obtain ⟨mp, hga⟩ := hl.groups (a, []) (by simp)
  cases ha.symm.trans hga.lead
  have hmsame : m.same = none := hga.same
  have hl' : Linked land (bs ++ [(p, ps), (a, [])] ++ cs) := by simpa using hl
  have hnd := hl'.middle.1
  simp only [flat_cons, flat_nil, append_nil, cons_append, nodup_cons,
    nodup_append, mem_append, mem_singleton, not_or] at hnd
  have hpa : p ≠ a := hnd.1.2
  have hap : a ≠ p := Ne.symm hpa
  cases htl : l.tail with
  | none =>
    -- the predecessor leads no list and never has
    obtain ⟨rfl, -⟩ : ps = [] ∧ l.tail = none := by
      rcases hg.tail with ht | ht
      · rw [htl] at ht
        simp [getLast?_cons] at ht
      · exact ht
    have hlsame : l.same = none := hg.same
    refine ⟨_, by simp only [Landing.joinPrev, hp, ha, hmask, if_true, htl, hlsame]; rfl, ?_⟩
    refine hl.join hp ha (fun hne => absurd rfl hne) rfl rfl ?_ ?_ ?_ ?_
    · simp [hmask]
    · simp [hap]
    · simp
    · intro b hb1 hb2 _
      simp [hb1, hb2]
  | some t =>
    have hmt : m.tail = none := hclear.resolve_left (by simp [htl])
    have htail : some t = (p :: ps).getLast? := by
      rcases hg.tail with ht | ht
      · exact htl ▸ ht
      · exact absurd ht.2 (by simp [htl])
    rcases eq_nil_or_concat ps with rfl | ⟨ps0, t', rfl⟩
    · -- a `tail` that is the predecessor itself
      obtain rfl : t = p := by simpa using htail
      refine ⟨_, by
        simp only [Landing.joinPrev, hp, ha, hmask, if_true, htl, Landing.set_heap, hpa, if_false,
          hmsame, hmt, and_self]
        rfl, ?_⟩
      refine hl.join hp ha (fun hne => absurd rfl hne) rfl rfl ?_ ?_ ?_ ?_
      · simp [hmask]
      · simp [hap, hmsame, hmt]
      · simp
      · intro b hb1 hb2 _
        simp [hb1, hb2]
    · rw [concat_eq_append] at *
      obtain rfl : t = t' := by
        rw [← cons_append, getLast?_concat] at htail
        exact Option.some.inj htail
      obtain ⟨n, hn, -⟩ := hg.members t (by simp)
      have htp : t ≠ p := fun e => hnd.1.1 (by simp [e])
      have hta : t ≠ a := fun e => hnd.2.2.2 t (by simp) a (by simp) e
      have hpt : p ≠ t := Ne.symm htp
      refine ⟨_, by
        simp only [Landing.joinPrev, hp, ha, hmask, if_true, htl, Landing.set_heap, htp, hta, hpt,
          hpa, if_false, hn, hmsame, hmt, and_self]
        rfl, ?_⟩
      have hat : a ≠ t := Ne.symm hta
      have hsame : l.same = (ps0 ++ [t] ++ [a]).head? := by
        have := hg.same.head_eq
        cases ps0 <;> simpa using this
      refine hl.join hp ha (fun _ => hmt) rfl rfl ?_ ?_ ?_ ?_
      · simp [hmask, hsame]
      · simp [hap, hat, hmsame, hmt]
      · intro t' n' ht' hn'
        obtain rfl : t = t' := by simpa using ht'
        cases hn.symm.trans hn'
        simp [htp]
      · intro b hb1 hb2 hb3
        have hbt : b ≠ t := fun e => hb3 (by simp [e])
        simp [hb1, hb2, hbt]

theorem Linked.unlink {bs cs : List Group} {p a : Addr} {ps : List Addr}
    (hl : Linked land (bs ++ (p, ps) :: (a, []) :: cs)) :
    ∃ land', land.unlink (some p) a = some land' ∧ Linked land' (bs ++ (p, ps) :: cs) ∧
      ∀ b, b ≠ a → content land'.heap b = content land.heap b := by
  obtain ⟨l, hg⟩ := hl.groups (p, ps) (by simp)
  obtain ⟨m, hga⟩ := hl.groups (a, []) (by simp)
  have hp : land.heap p = some l := hg.lead
  have ha : land.heap a = some m := hga.lead
  have hl' : Linked land (bs ++ [(p, ps), (a, [])] ++ cs) := by simpa using hl
  obtain ⟨hnd, hbelow⟩ := hl'.middle
  simp only [flat_cons, flat_nil, append_nil, cons_append, nodup_cons,
    nodup_append, mem_append, mem_singleton, not_or] at hnd
  obtain ⟨⟨hpps, hpa⟩, hndps, -, hdis⟩ := hnd
  have hother : ∀ b ∈ ps, b ≠ p ∧ b ≠ a := fun b hb =>
    ⟨fun e => hpps (e ▸ hb), fun e => hdis b hb a rfl e⟩
  refine ⟨(land.set p { l with next := m.next }).delete a, by simp [Landing.unlink, ha, hp], ?_, ?_⟩
  · suffices h : Linked _ (bs ++ [(p, ps)] ++ cs) by simpa using h
    refine hl'.replace rfl ?_ ?_ (by simp [hpps, hndps]) (Nat.le_refl _) ?_ ?_ ?_ ?_
    · intro b hb _
      simp only [flat_cons, flat_nil, append_nil, cons_append, mem_cons,
        mem_append, not_mem_nil, or_false, not_or] at hb
      simp [hb.1, hb.2.2]
    · intro b hb
      simp only [flat_cons, flat_nil, append_nil] at hb
      exact Or.inl (by simp only [flat_cons, mem_append]; exact Or.inl hb)
    · intro b hb
      exact hbelow b (by simp only [flat_cons, mem_append]; exact Or.inl (by simpa using hb))
    · intro b hb hne
      have hba : b ≠ a := fun e => hne (by simp [e])
      simpa [hba] using hb
    · intro g hg'
      cases mem_singleton.1 hg'
      refine ⟨{ l with next := m.next }, by simp [hpa], hg.same.congr fun b hb => ?_, hg.tail,
        ?_, ?_⟩
      · simp [sameLink, hother b hb]
      · intro b hb
        simpa [hother b hb] using hg.members b hb
      · intro b hb
        simpa [hother b (mem_of_mem_tail hb)] using hg.tails b hb
    · intro q r hseg
      obtain ⟨rfl, r1, hr1, hq, r2, hr2, rfl⟩ := hseg
      have hr2 : m.next = r2 := by simpa [nextLink, ha] using hr2
      exact ⟨rfl, r2, by simp [nextLink, hpa, hr2], rfl⟩
  · intro b hba
    by_cases hbp : b = p
    · simp [content, hbp, hpa, hp]
    · simp [content, hba, hbp]

theorem Linked.unlinkHead {cs : List Group} {a : Addr} (hl : Linked land ((a, []) :: cs)) :
    ∃ land', land.unlink none a = some land' ∧ Linked land' cs ∧
      ∀ b, b ≠ a → content land'.heap b = content land.heap b := by
  obtain ⟨m, hga⟩ := hl.groups (a, []) (by simp)
  have ha : land.heap a = some m := hga.lead
  have hnd := hl.nodup
  simp only [flat_cons, cons_append, nil_append, nodup_cons] at hnd
  have hother : ∀ b ∈ flat cs, b ≠ a := fun b hb e => hnd.1 (e ▸ hb)
  refine ⟨{ land with head := m.next }.delete a, by simp [Landing.unlink, ha], ?_, ?_⟩
  · refine ⟨?_, ?_, hnd.2, ?_, ?_⟩
    · obtain ⟨-, r, hr, hrest⟩ := hl.chain
      have hr : m.next = r := by simpa [nextLink, ha] using hr
      refine (hr ▸ hrest : Seg _ m.next _ _).congr fun b hb => ?_
      obtain ⟨g, hg, rfl⟩ := List.mem_map.1 hb
      simp [nextLink, hother _ (mem_flat_of_mem hg mem_cons_self)]
    · intro g hg
      obtain ⟨n, hn⟩ := hl.groups g (mem_cons_of_mem _ hg)
      exact ⟨n, hn.congr fun b hb => by simp [hother b (mem_flat_of_mem hg hb)]⟩
    · intro b hb
      have hba : b ≠ a := fun e => hb (by simp [e])
      have := hl.live b (by simpa [hba] using hb)
      simpa [hba] using this
    · intro b hb
      exact hl.below b (by simp [hb])
  · intro b hba
    simp [content, hba]

theorem Linked.allocHead (patterns : List (Pattern V)) (hl : Linked land []) :
    Linked { land.alloc patterns with head := some land.fresh } [(land.fresh, [])] := by
  refine ⟨?_, ?_, by simp, ?_, ?_⟩
  · exact ⟨rfl, none, by simp [nextLink, newMatching], rfl⟩
  · intro g hg
    cases mem_singleton.1 hg
    exact ⟨newMatching patterns, by simp, rfl, Or.inr ⟨rfl, rfl⟩, by simp, by simp⟩
  · intro b hb
    by_cases hba : b = land.fresh
    · simp [hba]
    · exact absurd (hl.live b (by simpa [hba] using hb)) not_mem_nil
  · intro b hb
    obtain rfl : b = land.fresh := by simpa using hb
    exact Nat.lt_succ_self _

theorem Linked.allocLast (patterns : List (Pattern V)) {bs : List Group} {p : Addr} {ps : List Addr}
    {l : Matching V} (hl : Linked land (bs ++ [(p, ps)])) (hp : land.heap p = some l) :
    Linked ((land.alloc patterns).set p { l with next := some land.fresh })
      (bs ++ [(p, ps), (land.fresh, [])]) ∧
      ∀ b, b ≠ land.fresh →
        content ((land.alloc patterns).set p { l with next := some land.fresh }).heap b =
          content land.heap b := by
  obtain ⟨l', hg⟩ := hl.groups (p, ps) (by simp)
  cases hp.symm.trans hg.lead
  have hl' : Linked land (bs ++ [(p, ps)] ++ []) := by simpa using hl
  obtain ⟨hnd, hbelow⟩ := hl'.middle
  have hnot : p ∉ ps := by simpa using (nodup_cons.1 hnd).1
  have hnew : ∀ b ∈ flat [(p, ps)], b ≠ land.fresh := fun b hb e =>
    absurd (hbelow b hb) (e ▸ Nat.lt_irrefl _)
  have hpf : p ≠ land.fresh := hnew p (by simp)
  have hother : ∀ b ∈ ps, b ≠ p ∧ b ≠ land.fresh := fun b hb =>
    ⟨fun e => hnot (e ▸ hb), hnew b (by simp [hb])⟩
  constructor
  · suffices h : Linked _ (bs ++ [(p, ps), (land.fresh, [])] ++ []) by simpa using h
    refine hl'.replace rfl ?_ ?_ ?_ (Nat.le_succ _) ?_ ?_ ?_ ?_
    · intro b hb hb'
      have h1 : b ≠ p := fun e => hb (by simp [e])
      have h2 : b ≠ land.fresh := fun e => hb' (by simp [e])
      simp [h1, h2]
    · intro b hb
      simp only [flat_cons, flat_nil, append_nil, cons_append, mem_cons,
        mem_append, not_mem_nil, or_false] at hb
      rcases hb with hb | hb | hb
      · exact Or.inl (by simp [hb])
      · exact Or.inl (by simp [hb])
      · exact Or.inr (Nat.le_of_eq hb.symm)
    · have hsplit : flat [(p, ps), (land.fresh, [])] = flat [(p, ps)] ++ [land.fresh] := by simp
      rw [hsplit]
      refine nodup_append.2 ⟨hnd, by simp, fun b hb c hc => ?_⟩
      rw [mem_singleton.1 hc]
      exact hnew b hb
    · intro b hb
      have hsplit : flat [(p, ps), (land.fresh, [])] = flat [(p, ps)] ++ [land.fresh] := by simp
      rw [hsplit] at hb
      rcases mem_append.1 hb with hb | hb
      · exact Nat.lt_succ_of_lt (hbelow b hb)
      · rw [mem_singleton.1 hb]
        exact Nat.lt_succ_self _
    · intro b hb _
      simp only [flat_cons, flat_nil, append_nil] at hb
      simp only [flat_cons, mem_append]
      exact Or.inl hb
    · intro g hg'
      rcases mem_cons.1 hg' with rfl | hg'
      · refine ⟨{ l with next := some land.fresh }, by simp, hg.same.congr fun b hb => ?_, hg.tail,
          ?_, ?_⟩
        · simp [sameLink, hother b hb]
        · intro b hb
          simpa [hother b hb] using hg.members b hb
        · intro b hb
          simpa [hother b (mem_of_mem_tail hb)] using hg.tails b hb
      · cases mem_singleton.1 hg'
        exact ⟨newMatching patterns, by simp [Ne.symm hpf], rfl, Or.inr ⟨rfl, rfl⟩, by simp, by simp⟩
    · intro q r hseg
      -- the predecessor was the last
      have hlast := hl.chain
      rw [map_append] at hlast
      have hnone : nextLink land.heap p = some none := hlast.link_last
      obtain ⟨rfl, r1, hr1, rfl⟩ := hseg
      cases hnone.symm.trans hr1
      exact ⟨rfl, some land.fresh, by simp [nextLink], rfl, none,
        by simp [nextLink, Ne.symm hpf, newMatching], rfl⟩
  · intro b hb
    by_cases hbp : b = p
    · simp [content, hbp, hp]
    · simp [content, hbp, hb]

/-! ## The walk over the landing -/

theorem sameWalk_of_seg {p : Option Addr} {as : List Addr} (hs : Seg (sameLink h) p as none) :
    SameWalk h p as := by
  induction as generalizing p with
  | nil =>
    cases hs
    exact .nil
  | cons a as ih =>
    obtain ⟨rfl, r, hr, hs⟩ := hs
    obtain ⟨m, hm, rfl⟩ := Option.map_eq_some_iff.1 hr
    exact .cons hm (ih hs)

theorem walk_of_seg {p : Option Addr} {gs : List Group}
    (hs : Seg (nextLink h) p (gs.map Prod.fst) none) (hg : ∀ g ∈ gs, ∃ m, GroupOk h g m) :
    Walk h p (flat gs) := by
  induction gs generalizing p with
  | nil =>
    cases hs
    exact .nil
  | cons g gs ih =>
    obtain ⟨rfl, r, hr, hs⟩ := hs
    obtain ⟨m, hm, rfl⟩ := Option.map_eq_some_iff.1 hr
    obtain ⟨m', hok⟩ := hg g mem_cons_self
    cases hm.symm.trans hok.lead
    exact .cons hm (.cons hm (sameWalk_of_seg hok.same))
      (ih hs fun g' hg' => hg g' (mem_cons_of_mem _ hg'))

theorem Linked.walk {gs : List Group} (hl : Linked land gs) : Walk land.heap land.head (flat gs) :=
  walk_of_seg hl.chain hl.groups

end SNet.Zipper
