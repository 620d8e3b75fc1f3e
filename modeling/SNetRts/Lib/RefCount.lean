import Mathlib.Data.List.Nodup
import Mathlib.Data.List.Count
import Mathlib.Logic.Function.Basic

/-!
# Reference counts with a spare reference

Holders refer to shared objects, each holder to a list of them. An object has a reference count: none
while nobody refers to it, and otherwise one more than it has holders, so that the last holder finds
out, from the count it leaves, that it is the last one. `Exact` is that all counts are like this;
what holders may do keeps it, and the one thing they may not do, to go without giving up what they
refer to, breaks it.
-/

namespace Lib.RefCount

open Function (update update_of_ne update_self)

open List

variable {α : Type*} [DecidableEq α]

def holders (held : List (List α)) (d : α) : Nat := held.countP fun refs => decide (d ∈ refs)

/-- The reference count of an object that has `n` holders. -/
def countFor (n : Nat) : Nat := if n = 0 then 0 else n + 1

/-- The counts of the given objects are those for the given holders, who refer to nothing else. -/
structure Exact (objects : List α) (count : α → Nat) (held : List (List α)) : Prop where
  nodup : ∀ refs ∈ held, refs.Nodup
  known : ∀ refs ∈ held, ∀ d ∈ refs, d ∈ objects
  counts : ∀ d ∈ objects, count d = countFor (holders held d)

def incrAll (count : α → Nat) (refs : List α) : α → Nat :=
  refs.foldl (fun count d => update count d (count d + 1)) count

/-- One reference less; the last holder gives up the spare one too. -/
def decr (count : α → Nat) (d : α) : α → Nat :=
  update count d (if count d - 1 = 1 then 0 else count d - 1)

/-! ## Holders -/

theorem holders_cons (refs : List α) (held : List (List α)) (d : α) :
    holders (refs :: held) d = holders held d + if d ∈ refs then 1 else 0 := by
  unfold holders
  rw [countP_cons]
  by_cases h : d ∈ refs <;> simp [h]

theorem holders_perm {held held' : List (List α)} (h : held.Perm held') (d : α) :
    holders held d = holders held' d := h.countP_eq _

theorem holders_pos {held : List (List α)} {d : α} :
    0 < holders held d ↔ ∃ refs ∈ held, d ∈ refs := by
  unfold holders
  rw [countP_pos_iff]
  simp

theorem holders_eq_zero {held : List (List α)} {d : α} (h : ∀ refs ∈ held, d ∉ refs) :
    holders held d = 0 := by
  rcases Nat.eq_zero_or_pos (holders held d) with h0 | hpos
  · exact h0
  · obtain ⟨refs, hrefs, hd⟩ := holders_pos.1 hpos
    exact absurd hd (h refs hrefs)

theorem incrAll_apply {refs : List α} (h : refs.Nodup) (count : α → Nat) (d : α) :
    incrAll count refs d = count d + if d ∈ refs then 1 else 0 := by
  induction refs generalizing count with
  | nil => rfl
  | cons x refs ih =>
    obtain ⟨hx, hrefs⟩ := nodup_cons.1 h
    change incrAll (update count x (count x + 1)) refs d = _
    rw [ih hrefs]
    by_cases hd : d = x
    · subst hd
      simp [hx]
    · simp [hd]

/-! ## What keeps the counts exact -/

variable {objects : List α} {count : α → Nat} {held held' : List (List α)} {refs : List α} {d : α}

theorem exact_nil (count : α → Nat) : Exact ([] : List α) count [] := ⟨nofun, nofun, nofun⟩

namespace Exact

theorem perm (h : Exact objects count held) (hp : held.Perm held') : Exact objects count held' := by
  refine ⟨fun refs hr => h.nodup refs (hp.mem_iff.2 hr), fun refs hr => h.known refs (hp.mem_iff.2 hr),
    fun d hd => ?_⟩
  rw [h.counts d hd, holders_perm hp]

theorem exists_holder (h : Exact objects count held) (hd : d ∈ objects) (hpos : 0 < count d) :
    ∃ refs ∈ held, d ∈ refs := by
  rw [h.counts d hd] at hpos
  refine holders_pos.1 (Nat.pos_of_ne_zero fun h0 => ?_)
  simp [countFor, h0] at hpos

theorem cons_nil_iff : Exact objects count ([] :: held) ↔ Exact objects count held := by
  have hsame : ∀ d, holders ([] :: held) d = holders held d := fun d => by simp [holders_cons]
  constructor
  · intro h
    refine ⟨fun refs hr => h.nodup refs (mem_cons_of_mem _ hr),
      fun refs hr => h.known refs (mem_cons_of_mem _ hr), fun d hd => ?_⟩
    rw [h.counts d hd, hsame]
  · intro h
    refine ⟨fun refs hr => ?_, fun refs hr => ?_, fun d hd => ?_⟩
    · rcases mem_cons.1 hr with rfl | hr
      · exact nodup_nil
      · exact h.nodup refs hr
    · rcases mem_cons.1 hr with rfl | hr
      · nofun
      · exact h.known refs hr
    · rw [h.counts d hd, hsame]

theorem copy (h : Exact objects count (refs :: held)) :
    Exact objects (incrAll count refs) (refs :: refs :: held) := by
  have hnodup := h.nodup refs mem_cons_self
  refine ⟨fun r hr => ?_, fun r hr => ?_, fun d hd => ?_⟩
  · rcases mem_cons.1 hr with rfl | hr
    · exact hnodup
    · exact h.nodup r hr
  · rcases mem_cons.1 hr with rfl | hr
    · exact h.known _ mem_cons_self
    · exact h.known r hr
  · rw [incrAll_apply hnodup, h.counts d hd, holders_cons refs (refs :: held)]
    by_cases hm : d ∈ refs
    · have hpos : holders (refs :: held) d ≠ 0 :=
        Nat.ne_of_gt (holders_pos.2 ⟨refs, mem_cons_self, hm⟩)
      simp only [countFor, if_pos hm, if_neg hpos, if_neg (Nat.succ_ne_zero _)]
    · simp only [if_neg hm, Nat.add_zero]

theorem pop (h : Exact objects count ((d :: refs) :: held)) :
    Exact objects (decr count d) (refs :: held) := by
  obtain ⟨hd, hrefs⟩ := nodup_cons.1 (h.nodup _ mem_cons_self)
  refine ⟨fun r hr => ?_, fun r hr => ?_, fun x hx => ?_⟩
  · rcases mem_cons.1 hr with rfl | hr
    · exact hrefs
    · exact h.nodup r (mem_cons_of_mem _ hr)
  · rcases mem_cons.1 hr with rfl | hr
    · exact fun x hx => h.known _ mem_cons_self x (mem_cons_of_mem _ hx)
    · exact h.known r (mem_cons_of_mem _ hr)
  · have hcount := h.counts x hx
    rw [holders_cons] at hcount ⊢
    unfold decr
    by_cases hxd : x = d
    · subst hxd
      rw [update_self, hcount, if_pos mem_cons_self, if_neg hd, countFor,
        if_neg (Nat.succ_ne_zero _), countFor]
      by_cases h0 : holders held x = 0
      · simp [h0]
      · rw [if_neg (by omega), if_neg (by omega)]
        omega
    · rw [update_of_ne hxd, hcount]
      simp [hxd]

theorem add (h : Exact objects count (refs :: held)) (hd : d ∉ objects) :
    Exact (objects ++ [d]) (update count d 2) ((d :: refs) :: held) := by
  have hfree : ∀ r ∈ refs :: held, d ∉ r := fun r hr hm => hd (h.known r hr d hm)
  refine ⟨fun r hr => ?_, fun r hr => ?_, fun x hx => ?_⟩
  · rcases mem_cons.1 hr with rfl | hr
    · exact nodup_cons.2 ⟨hfree _ mem_cons_self, h.nodup _ mem_cons_self⟩
    · exact h.nodup r (mem_cons_of_mem _ hr)
  · rcases mem_cons.1 hr with rfl | hr
    · intro x hx
      rcases mem_cons.1 hx with rfl | hx
      · exact mem_append_right _ (mem_singleton.2 rfl)
      · exact mem_append_left _ (h.known _ mem_cons_self x hx)
    · exact fun x hx => mem_append_left _ (h.known r (mem_cons_of_mem _ hr) x hx)
  · rw [holders_cons]
    by_cases hxd : x = d
    · subst hxd
      have hnone : holders held x = 0 :=
        holders_eq_zero fun r hr => hfree r (mem_cons_of_mem _ hr)
      rw [update_self, hnone, if_pos mem_cons_self]
      rfl
    · have hx : x ∈ objects :=
        (mem_append.1 hx).resolve_right fun hm => hxd (mem_singleton.1 hm)
      rw [update_of_ne hxd, h.counts x hx, holders_cons]
      simp [hxd]

theorem addUnused (h : Exact objects count held) (hd : d ∉ objects) :
    Exact (objects ++ [d]) (update count d 0) held := by
  refine ⟨h.nodup, fun r hr x hx => mem_append_left _ (h.known r hr x hx), fun x hx => ?_⟩
  by_cases hxd : x = d
  · subst hxd
    rw [update_self, holders_eq_zero fun r hr hm => hd (h.known r hr x hm)]
    rfl
  · have hx : x ∈ objects :=
      (mem_append.1 hx).resolve_right fun hm => hxd (mem_singleton.1 hm)
    rw [update_of_ne hxd, h.counts x hx]

theorem free {objects' : List α} (h : Exact objects count held) (hsub : ∀ x ∈ objects', x ∈ objects)
    (hgone : ∀ x ∈ objects, x ∉ objects' → count x = 0) : Exact objects' count held := by
  refine ⟨h.nodup, fun r hr x hx => ?_, fun x hx => h.counts x (hsub x hx)⟩
  have hobj := h.known r hr x hx
  by_contra hno
  have hpos : holders held x ≠ 0 := Nat.ne_of_gt (holders_pos.2 ⟨r, hr, hx⟩)
  have hzero := hgone x hobj hno
  rw [h.counts x hobj, countFor, if_neg hpos] at hzero
  omega

end Exact

end Lib.RefCount
