import SNetRts.Front.ZipperFusion

/-!
# The detrefs of what a zipper holds

The records that a zipper keeps in its matchings have no detrefs; the record that it writes has those
of the record that it has got last.
-/

namespace SNet.Zipper

open Lib SNet.Sync

variable {V : Type} {patterns exits : List (Pattern V)} {land land' : Landing V} {a b : Addr}
  {m : Matching V} {st st' : Loop V}

def Bare (storage : List (Slot V)) : Prop := ∀ rec, Slot.stored rec ∈ storage → rec.detref = none

/-- No record in a matching has a detref, those of the matching at `a` apart. -/
def BareBut (land : Landing V) (a : Addr) : Prop :=
  ∀ b m, land.heap b = some m → b ≠ a → Bare m.storage

def AllBare (land : Landing V) : Prop := ∀ b m, land.heap b = some m → Bare m.storage

/-- A record is dropped: it leads neither to an exit, nor into a matching, and nor does what it is merged
into. -/
def Dropped (patterns exits : List (Pattern V)) (land : Landing V) (rec : Record V) : Prop :=
  matchExitPatterns exits rec = false ∧
    ∃ st, Iterates patterns exits (enter patterns land rec) st ∧ st.untested = ∅

theorem allBare_init : AllBare (Landing.init : Landing V) := nofun

theorem bare_newMatching (patterns : List (Pattern V)) : Bare (newMatching patterns).storage := by
  intro rec hrec
  obtain ⟨p, -, hp⟩ := List.mem_map.1 hrec
  cases hp

theorem bare_dropDetref (storage : List (Slot V)) :
    Bare (storage.map (Slot.map Record.dropDetref)) := by
  intro rec hrec
  obtain ⟨s, -, hs⟩ := List.mem_map.1 hrec
  cases s with
  | dummy => cases hs
  | null => cases hs
  | stored r =>
    cases hs
    rfl

/-! ## Writing matchings -/

theorem AllBare.but (h : AllBare land) (a : Addr) : BareBut land a := fun b m hb _ => h b m hb

theorem BareBut.set (h : BareBut land a) (hm : b ≠ a → Bare m.storage) : BareBut (land.set b m) a := by
  intro c n hc hne
  by_cases hcb : c = b
  · subst hcb
    obtain rfl : m = n := by simpa [Landing.set] using hc
    exact hm hne
  · exact h c n (by simpa [Landing.set, Function.update_of_ne hcb] using hc) hne

theorem BareBut.setSame {n : Matching V} (h : BareBut land a) (hn : land.heap b = some n)
    (hs : m.storage = n.storage) : BareBut (land.set b m) a :=
  h.set fun hne => hs ▸ h b n hn hne

theorem BareBut.setSelf (h : BareBut land a) (hm : Bare m.storage) : AllBare (land.set a m) := by
  intro c n hc
  by_cases hca : c = a
  · subst hca
    obtain rfl : m = n := by simpa [Landing.set] using hc
    exact hm
  · exact h c n (by simpa [Landing.set, Function.update_of_ne hca] using hc) hca

theorem AllBare.setSame {n : Matching V} (h : AllBare land) (hn : land.heap b = some n)
    (hs : m.storage = n.storage) : AllBare (land.set b m) := by
  refine (h.but b).setSelf ?_
  rw [hs]
  exact h b n hn

theorem BareBut.delete (h : BareBut land a) : AllBare (land.delete a) := by
  intro c n hc
  by_cases hca : c = a
  · subst hca
    simp [Landing.delete] at hc
  · exact h c n (by simpa [Landing.delete, Function.update_of_ne hca] using hc) hca

theorem AllBare.alloc (h : AllBare land) : AllBare (land.alloc patterns) := by
  intro c n hc
  by_cases hcf : c = land.fresh
  · subst hcf
    obtain rfl : newMatching patterns = n := by simpa [Landing.alloc] using hc
    exact bare_newMatching patterns
  · exact h c n (by simpa [Landing.alloc, Function.update_of_ne hcf] using hc)

theorem BareBut.splitSame (h : BareBut land a) (hs : land.splitSame b = some land') :
    BareBut land' a := by
  unfold Landing.splitSame at hs
  split at hs
  · cases hs
  · rename_i m hm
    split at hs
    · cases hs
      exact h
    · rename_i s hsame
      split at hs
      · cases hs
      · rename_i n hn
        split at hs
        · cases hs
          have h1 := h.setSame (m := { n with next := m.next, tail := m.tail }) hn rfl
          exact h1.set fun hne => h b m hm hne
        · cases hs

theorem AllBare.joinPrev {prev : Option Addr} (h : AllBare land) (hj : land.joinPrev prev a = some land') :
    AllBare land' := by
  unfold Landing.joinPrev at hj
  split at hj
  · cases hj
    exact h
  · rename_i p
    split at hj
    · rename_i l m hl hm
      split at hj
      · -- the matchings at `p` and `a` get new links, and so does the one at the end of the list
        have hset : AllBare ((land.set p { l with next := m.next }).set a { m with next := none }) :=
          ((h.setSame (m := { l with next := m.next }) hl rfl).but a).setSelf (h a m hm)
        dsimp only at hj
        split at hj
        · rename_i t ht
          split at hj
          · cases hj
          · rename_i n hn
            have htail := hset.setSame (m := { n with same := some a }) hn rfl
            split at hj
            · cases hj
            · rename_i l' hl'
              split at hj
              · cases hj
                exact htail.setSame hl' rfl
              · cases hj
        · split at hj
          · cases hj
            exact (hset.but p).setSelf (h p l hl)
          · cases hj
      · cases hj
        exact h
    · cases hj

theorem BareBut.unlink {prev : Option Addr} (h : BareBut land a) (hu : land.unlink prev a = some land') :
    AllBare land' := by
  unfold Landing.unlink at hu
  split at hu
  · cases hu
  · rename_i m hm
    split at hu
    · cases hu
      have hhead : BareBut { land with head := m.next } a := h
      exact hhead.delete
    · rename_i p
      split at hu
      · cases hu
      · rename_i l hl
        cases hu
        exact (h.setSame (m := { l with next := m.next }) hl rfl).delete

/-! ## The loop -/

/-- What a way out of the loop body leaves: the record has the given detrefs, and no stored one has
any. -/
def Flow.Leaves (detref : Option (List DetrefId)) : Flow V → Prop
  | .next st => AllBare st.land ∧ st.record.detref = detref
  | .ret land out => AllBare land ∧
      (out = [] ∨ out = [.detrefDestroy detref] ∨ ∃ rec, rec.detref = detref ∧ out = [.write rec])
  | .fault => True

theorem advance_leaves {rec : Record V} (h : AllBare land) (p : Option Addr) (untested : Finset Nat) :
    (advance patterns land rec p untested).Leaves rec.detref := by
  unfold advance
  split
  · split
    · exact ⟨h.alloc, rfl⟩
    · trivial
  · rename_i p
    split
    · trivial
    · rename_i l hl
      split
      · exact ⟨h, rfl⟩
      · rename_i hnext
        dsimp only
        split
        · trivial
        · refine ⟨?_, rfl⟩
          exact (h.alloc.but p).setSelf (h p l hl)

theorem matched_leaves {t : Tested V} (h : AllBare st.land) :
    (matched patterns exits st m t).Leaves st.record.detref := by
  unfold matched
  have hset : BareBut (st.land.set st.matching { m with unmatched := t.unmatched, storage := t.storage })
      st.matching := (h.but _).set fun hne => absurd rfl hne
  dsimp only
  split
  · trivial
  · rename_i land1 hsplit
    have hland1 := hset.splitSame hsplit
    split
    · split
      · trivial
      · rename_i n hn
        have hstored : AllBare (land1.set st.matching
            { n with storage := t.storage.map (Slot.map Record.dropDetref) }) :=
          hland1.setSelf (bare_dropDetref t.storage)
        split
        · trivial
        · rename_i land2 hjoin
          exact ⟨hstored.joinPrev hjoin, Or.inr (Or.inl rfl)⟩
    · split
      · trivial
      · rename_i rec hmerge
        have hrec : rec.detref = st.record.detref := by
          unfold mergeFromStorage at hmerge
          obtain ⟨r, -, rfl⟩ := Option.map_eq_some_iff.1 hmerge
          rfl
        split
        · trivial
        · rename_i land2 hunlink
          have hland2 := hland1.unlink hunlink
          split
          · exact ⟨hland2, Or.inr (Or.inr ⟨rec, hrec, rfl⟩)⟩
          · rw [← hrec]
            exact advance_leaves hland2 _ _

theorem body_leaves (patterns exits : List (Pattern V)) (h : AllBare st.land) :
    (body patterns exits st).Leaves st.record.detref := by
  unfold body
  split
  · exact ⟨h, Or.inl rfl⟩
  · split
    · trivial
    · split
      · exact advance_leaves h _ _
      · dsimp only
        split
        · exact advance_leaves h _ _
        · exact matched_leaves h

theorem untested_of_ret (hb : body patterns exits st = .ret land []) : st.untested = ∅ := by
  unfold body at hb
  split at hb
  · assumption
  · exfalso
    have hadvance : ∀ land' rec p untested,
        advance patterns land' rec p untested ≠ .ret land ([] : List (Effect V)) := by
      intro land' rec p untested
      unfold advance
      repeat' split
      all_goals nofun
    split at hb
    · cases hb
    · split at hb
      · exact hadvance _ _ _ _ hb
      · dsimp only at hb
        split at hb
        · exact hadvance _ _ _ _ hb
        · unfold matched at hb
          dsimp only at hb
          split at hb
          · cases hb
          · split at hb
            · split at hb
              · cases hb
              · split at hb <;> cases hb
            · split at hb
              · cases hb
              · split at hb
                · cases hb
                · split at hb
                  · cases hb
                  · exact hadvance _ _ _ _ hb

theorem loop_leaves {fuel : Nat} {out : List (Effect V)} (h : AllBare st.land)
    (hl : loop patterns exits fuel st = .done (land, out)) :
    (Flow.ret land out).Leaves st.record.detref ∧
      (out = [] → ∃ st', Iterates patterns exits st st' ∧ st'.untested = ∅) := by
  induction fuel generalizing st with
  | zero => cases hl
  | succ fuel ih =>
    have hbody := body_leaves patterns exits h
    unfold loop at hl
    split at hl
    · rename_i st' hb
      rw [hb] at hbody
      obtain ⟨h1, h2⟩ := ih hbody.1 hl
      refine ⟨hbody.2 ▸ h1, fun he => ?_⟩
      obtain ⟨st'', hi, hu⟩ := h2 he
      exact ⟨st'', .step hb hi, hu⟩
    · rename_i land' out' hb
      cases hl
      rw [hb] at hbody
      refine ⟨hbody, fun he => ⟨st, .refl st, untested_of_ret (hb.trans (by rw [he]))⟩⟩
    · cases hl

theorem nodeZipper_leaves {fuel : Nat} {rec : Record V} {out : List (Effect V)} (h : AllBare land)
    (hz : nodeZipper patterns exits fuel land rec = .done (land', out)) :
    (Flow.ret land' out).Leaves rec.detref ∧ (out = [] → Dropped patterns exits land rec) := by
  unfold nodeZipper at hz
  split at hz
  · cases hz
    exact ⟨⟨h, Or.inr (Or.inr ⟨rec, rfl, rfl⟩)⟩, nofun⟩
  · rename_i hexit
    have henter : AllBare (enter patterns land rec).land ∧ (enter patterns land rec).record = rec := by
      unfold enter
      split
      · exact ⟨h, rfl⟩
      · exact ⟨h.alloc, rfl⟩
    obtain ⟨h1, h2⟩ := loop_leaves henter.1 hz
    rw [henter.2] at h1
    exact ⟨h1, fun he => ⟨Bool.not_eq_true _ ▸ hexit, h2 he⟩⟩

end SNet.Zipper
