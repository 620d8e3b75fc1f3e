import SNetRts.Common.Record
import SNetRts.Lib.Run
import Mathlib.Data.List.Nodup
import Mathlib.Logic.Function.Basic

/-!
# The detrefs of a feedback loop

Records that enter a feedback network get a detref (`SNetRecDetrefAdd`), whose reference count tells
whether any record of it is still in the loop. The operand of the loop may copy a record
(`SNetRecDetrefCopy`) and absorb it (`SNetRecDetrefDestroy`); the last one to absorb a record of a
detref notifies the landing where the loop ends. Records leave there (`SNetFeedbackLeave`), and the
detrefs that are not in use any more are taken from the front of `detfifo`.

A detref is deallocated when it is taken out of `detfifo`; to use it after that is a fault, and so are
failed assertions and fatal errors.
-/

namespace SNet.Front

open Function (update update_of_ne update_self)

open Lib List

/-- The detrefs of a loop. -/
structure LoopRefs where
  detfifo : List DetrefId
  refcount : DetrefId → Nat
  /-- The records in the loop, by their detrefs. -/
  live : List DetrefId
  /-- Detrefs that a thread in `SNetRecDetrefDestroy` has decremented to one. -/
  dying : List DetrefId
  /-- The notifications under way to the end of the loop. -/
  notes : List DetrefId

namespace LoopRefs

def init : LoopRefs := ⟨[], fun _ => 0, [], [], []⟩

variable (r : LoopRefs) (d : DetrefId)

/-- `SNetRecDetrefAdd`. -/
def add : LoopRefs :=
  { r with
    detfifo := r.detfifo ++ [d]
    refcount := update r.refcount d 2
    live := r.live ++ [d] }

/-- `SNetRecDetrefCopy`. -/
def copy : Outcome LoopRefs :=
  if d ∉ r.live then .blocked
  else if d ∉ r.detfifo ∨ r.refcount d < 2 then .fault
  else .done { r with
    refcount := update r.refcount d (r.refcount d + 1)
    live := r.live ++ [d] }

/-- `SNetRecDetrefDestroy` up to the first decrement. -/
def absorb : Outcome LoopRefs :=
  if d ∉ r.live then .blocked
  else if d ∉ r.detfifo ∨ r.refcount d < 2 then .fault
  else .done { r with
    refcount := update r.refcount d (r.refcount d - 1)
    live := r.live.erase d
    dying := if r.refcount d - 1 = 1 then r.dying ++ [d] else r.dying }

/-- `SNetRecDetrefDestroy` from there on. -/
def notify : Outcome LoopRefs :=
  if d ∉ r.dying then .blocked
  else if d ∉ r.detfifo ∨ r.refcount d ≠ 1 then .fault
  else .done { r with
    refcount := update r.refcount d 0
    dying := r.dying.erase d
    notes := r.notes ++ [d] }

/-- `SNetFeedbackLeave` up to its loop. -/
def leave : Outcome LoopRefs :=
  if d ∉ r.live then .blocked
  else if d ∉ r.detfifo ∨ r.refcount d < 2 then .fault
  else .done { r with
    refcount := update r.refcount d (if r.refcount d - 1 = 1 then 0 else r.refcount d - 1)
    live := r.live.erase d }

def receive : Outcome LoopRefs :=
  if d ∈ r.notes then .done { r with notes := r.notes.erase d } else .blocked

end LoopRefs

/-- What the loops that take detrefs from `detfifo` find at its front. -/
inductive Peeked where
  | empty
  | inUse
  | unused (rest : List DetrefId)
deriving DecidableEq

/-- One look at the front of `detfifo`. -/
def LoopRefs.front (r : LoopRefs) : Peeked :=
  match r.detfifo with
  | [] => .empty
  | d :: ds => if 0 < r.refcount d then .inUse else .unused ds

/-! ## Reference counts -/

namespace LoopRefs

/-- Reference counts tell how many records have the detref; one more than these, while there are any,
and for as long as the notification of the last one has not been made. -/
structure Counted (r : LoopRefs) : Prop where
  nodup : r.detfifo.Nodup
  live : ∀ d ∈ r.live, d ∈ r.detfifo
  dying : ∀ d ∈ r.dying, d ∈ r.detfifo ∧ d ∉ r.live
  dyingNodup : r.dying.Nodup
  inUse : ∀ d ∈ r.live, r.refcount d = r.live.count d + 1
  last : ∀ d ∈ r.dying, r.refcount d = 1
  unused : ∀ d ∈ r.detfifo, d ∉ r.live → d ∉ r.dying → r.refcount d = 0

variable {r r' : LoopRefs} {d : DetrefId}

theorem counted_init : Counted init := ⟨nodup_nil, nofun, nofun, nodup_nil, nofun, nofun, nofun⟩

theorem Counted.two_le (h : Counted r) (hd : d ∈ r.live) : 2 ≤ r.refcount d := by
  have hpos : 0 < r.live.count d := count_pos_iff.2 hd
  rw [h.inUse d hd]
  omega

theorem Counted.add (h : Counted r) (hd : d ∉ r.detfifo) : Counted (r.add d) := by
  have hlive : d ∉ r.live := fun hm => hd (h.live d hm)
  have hne : ∀ x ∈ r.detfifo, x ≠ d := fun x hx e => hd (e ▸ hx)
  refine ⟨?_, fun x hx => ?_, fun x hx => ?_, h.dyingNodup, fun x hx => ?_, fun x hx => ?_,
    fun x hx hnl hnd => ?_⟩
  · exact nodup_append.2 ⟨h.nodup, nodup_singleton d, fun a ha b hb =>
      mem_singleton.1 hb ▸ hne a ha⟩
  · rcases mem_append.1 hx with hx | hx
    · exact mem_append_left _ (h.live x hx)
    · exact mem_append_right _ hx
  · obtain ⟨h1, h2⟩ := h.dying x hx
    refine ⟨mem_append_left _ h1, fun hm => ?_⟩
    rcases mem_append.1 hm with hm | hm
    · exact h2 hm
    · exact hne x h1 (mem_singleton.1 hm)
  · change update r.refcount d 2 x = (r.live ++ [d]).count x + 1
    by_cases hxd : x = d
    · rw [hxd, update_self, count_append, count_eq_zero.2 hlive]
      simp
    · have hxl : x ∈ r.live :=
        (mem_append.1 hx).resolve_right fun hm => hxd (mem_singleton.1 hm)
      rw [update_of_ne hxd, count_append, h.inUse x hxl]
      simp [Ne.symm hxd]
  · change update r.refcount d 2 x = 1
    rw [update_of_ne (hne x (h.dying x hx).1)]
    exact h.last x hx
  · change update r.refcount d 2 x = 0
    have hxd : x ≠ d := fun e => hnl (mem_append_right _ (mem_singleton.2 e))
    have hxf : x ∈ r.detfifo :=
      (mem_append.1 hx).resolve_right fun hm => hxd (mem_singleton.1 hm)
    rw [update_of_ne hxd]
    exact h.unused x hxf (fun hm => hnl (mem_append_left _ hm)) hnd

theorem Counted.asserted (h : Counted r) (hd : ¬ d ∉ r.live) : ¬ (d ∉ r.detfifo ∨ r.refcount d < 2) := by
  have hd : d ∈ r.live := not_not.1 hd
  exact not_or.2 ⟨not_not.2 (h.live d hd), Nat.not_lt.2 (h.two_le hd)⟩

theorem Counted.copy_ne_fault (h : Counted r) (d : DetrefId) : r.copy d ≠ .fault :=
  Outcome.guarded_ne_fault h.asserted

theorem Counted.absorb_ne_fault (h : Counted r) (d : DetrefId) : r.absorb d ≠ .fault :=
  Outcome.guarded_ne_fault h.asserted

theorem Counted.leave_ne_fault (h : Counted r) (d : DetrefId) : r.leave d ≠ .fault :=
  Outcome.guarded_ne_fault h.asserted

theorem Counted.notify_ne_fault (h : Counted r) (d : DetrefId) : r.notify d ≠ .fault := by
  refine Outcome.guarded_ne_fault fun hd => ?_
  have hd : d ∈ r.dying := not_not.1 hd
  exact not_or.2 ⟨not_not.2 (h.dying d hd).1, not_not.2 (h.last d hd)⟩

theorem copy_eq_done (h : r.copy d = .done r') : d ∈ r.live ∧ r' = { r with
    refcount := update r.refcount d (r.refcount d + 1), live := r.live ++ [d] } := by
  obtain ⟨hd, -, rfl⟩ := Outcome.guarded_eq_done.1 h
  exact ⟨not_not.1 hd, rfl⟩

theorem absorb_eq_done (h : r.absorb d = .done r') : d ∈ r.live ∧ r' = { r with
    refcount := update r.refcount d (r.refcount d - 1), live := r.live.erase d,
    dying := if r.refcount d - 1 = 1 then r.dying ++ [d] else r.dying } := by
  obtain ⟨hd, -, rfl⟩ := Outcome.guarded_eq_done.1 h
  exact ⟨not_not.1 hd, rfl⟩

theorem leave_eq_done (h : r.leave d = .done r') : d ∈ r.live ∧ r' = { r with
    refcount := update r.refcount d (if r.refcount d - 1 = 1 then 0 else r.refcount d - 1),
    live := r.live.erase d } := by
  obtain ⟨hd, -, rfl⟩ := Outcome.guarded_eq_done.1 h
  exact ⟨not_not.1 hd, rfl⟩

theorem notify_eq_done (h : r.notify d = .done r') : d ∈ r.dying ∧ r' = { r with
    refcount := update r.refcount d 0, dying := r.dying.erase d, notes := r.notes ++ [d] } := by
  obtain ⟨hd, -, rfl⟩ := Outcome.guarded_eq_done.1 h
  exact ⟨not_not.1 hd, rfl⟩

theorem receive_ne_fault (r : LoopRefs) (d : DetrefId) : r.receive d ≠ .fault := by
  unfold receive
  split <;> nofun

theorem detfifo_of_front (h : r.front = .empty) : r.detfifo = [] := by
  unfold front at h
  cases hq : r.detfifo with
  | nil => rfl
  | cons d ds =>
    rw [hq] at h
    dsimp only at h
    split at h <;> cases h

theorem receive_eq_done (h : r.receive d = .done r') :
    d ∈ r.notes ∧ r' = { r with notes := r.notes.erase d } := by
  unfold receive at h
  split at h
  · rename_i hd
    cases h
    exact ⟨hd, rfl⟩
  · cases h

theorem Counted.copy (h : Counted r) (hc : r.copy d = .done r') : Counted r' := by
  obtain ⟨hd, rfl⟩ := copy_eq_done hc
  have hmem : ∀ x, x ∈ r.live ++ [d] ↔ x ∈ r.live := by
    intro x
    rw [mem_append, mem_singleton]
    exact ⟨fun hx => hx.elim id fun e => e ▸ hd, Or.inl⟩
  refine ⟨h.nodup, fun x hx => h.live x ((hmem x).1 hx), fun x hx => ?_, h.dyingNodup, fun x hx => ?_,
    fun x hx => ?_, fun x hx hnl hnd => ?_⟩
  · exact ⟨(h.dying x hx).1, fun hm => (h.dying x hx).2 ((hmem x).1 hm)⟩
  · have hx := (hmem x).1 hx
    change update r.refcount d _ x = (r.live ++ [d]).count x + 1
    by_cases hxd : x = d
    · rw [hxd, update_self, count_append, h.inUse d hd]
      simp
    · rw [update_of_ne hxd, count_append, h.inUse x hx]
      simp [Ne.symm hxd]
  · have hxd : x ≠ d := fun e => (h.dying x hx).2 (e ▸ hd)
    change update r.refcount d _ x = 1
    rw [update_of_ne hxd]
    exact h.last x hx
  · have hnl : x ∉ r.live := fun hm => hnl ((hmem x).2 hm)
    have hxd : x ≠ d := fun e => hnl (e ▸ hd)
    change update r.refcount d _ x = 0
    rw [update_of_ne hxd]
    exact h.unused x hx hnl hnd

theorem Counted.drop (h : Counted r) (hd : d ∈ r.live) {n : Nat} {dy : List DetrefId}
    (hmore : d ∈ r.live.erase d → n = r.refcount d - 1 ∧ dy = r.dying)
    (hlast : d ∉ r.live.erase d → (n = 1 ∧ dy = r.dying ++ [d]) ∨ (n = 0 ∧ dy = r.dying)) :
    Counted { r with refcount := update r.refcount d n, live := r.live.erase d, dying := dy } := by
  have hother : ∀ x, x ≠ d → (x ∈ r.live.erase d ↔ x ∈ r.live) := fun x hx => mem_erase_of_ne hx
  have hdy : ∀ x ∈ dy, x ∈ r.dying ∨ (x = d ∧ d ∉ r.live.erase d ∧ n = 1) := by
    intro x hx
    by_cases hm : d ∈ r.live.erase d
    · exact Or.inl ((hmore hm).2 ▸ hx)
    · rcases hlast hm with ⟨hn, rfl⟩ | ⟨-, rfl⟩
      · exact (mem_append.1 hx).imp_right fun hx => ⟨mem_singleton.1 hx, hm, hn⟩
      · exact Or.inl hx
  have hsub : ∀ x ∈ r.dying, x ∈ dy := by
    intro x hx
    by_cases hm : d ∈ r.live.erase d
    · exact (hmore hm).2.symm ▸ hx
    · rcases hlast hm with ⟨-, rfl⟩ | ⟨-, rfl⟩
      · exact mem_append_left _ hx
      · exact hx
  have hdnot : d ∉ r.dying := fun hm => (h.dying d hm).2 hd
  refine ⟨h.nodup, fun x hx => h.live x (mem_of_mem_erase hx), fun x hx => ?_, ?_, fun x hx => ?_,
    fun x hx => ?_, fun x hx hnl hnd => ?_⟩
  · rcases hdy x hx with hx | ⟨rfl, hm, -⟩
    · exact ⟨(h.dying x hx).1, fun hm => (h.dying x hx).2 (mem_of_mem_erase hm)⟩
    · exact ⟨h.live x hd, hm⟩
  · by_cases hm : d ∈ r.live.erase d
    · exact (hmore hm).2.symm ▸ h.dyingNodup
    · rcases hlast hm with ⟨-, rfl⟩ | ⟨-, rfl⟩
      · exact nodup_append.2 ⟨h.dyingNodup, nodup_singleton d, fun a ha b hb =>
          mem_singleton.1 hb ▸ fun e => hdnot (e ▸ ha)⟩
      · exact h.dyingNodup
  · change update r.refcount d n x = (r.live.erase d).count x + 1
    by_cases hxd : x = d
    · subst hxd
      have hcount := h.inUse x hd
      have hpos : 0 < (r.live.erase x).count x := count_pos_iff.2 hx
      rw [update_self, (hmore hx).1, hcount]
      rw [count_erase_self] at hpos ⊢
      omega
    · rw [update_of_ne hxd, count_erase_of_ne hxd,
        h.inUse x ((hother x hxd).1 hx)]
  · change update r.refcount d n x = 1
    rcases hdy x hx with hx | ⟨rfl, -, hn⟩
    · have hxd : x ≠ d := fun e => hdnot (e ▸ hx)
      rw [update_of_ne hxd]
      exact h.last x hx
    · rw [update_self, hn]
  · change update r.refcount d n x = 0
    by_cases hxd : x = d
    · subst hxd
      rw [update_self]
      rcases hlast hnl with ⟨-, rfl⟩ | ⟨hn, -⟩
      · exact absurd (mem_append_right _ (mem_singleton.2 rfl)) hnd
      · exact hn
    · rw [update_of_ne hxd]
      exact h.unused x hx (fun hm => hnl ((hother x hxd).2 hm)) fun hm => hnd (hsub x hm)

theorem Counted.mem_erase_iff (h : Counted r) (hd : d ∈ r.live) :
    d ∈ r.live.erase d ↔ r.refcount d - 1 ≠ 1 := by
  have hcount := h.inUse d hd
  have hpos : 0 < r.live.count d := count_pos_iff.2 hd
  rw [← count_pos_iff, count_erase_self]
  omega

theorem Counted.absorb (h : Counted r) (ha : r.absorb d = .done r') : Counted r' := by
  obtain ⟨hd, rfl⟩ := absorb_eq_done ha
  refine h.drop hd (fun hm => ⟨rfl, if_neg ((h.mem_erase_iff hd).1 hm)⟩) fun hm => Or.inl ?_
  have hone : r.refcount d - 1 = 1 := not_not.1 (mt (h.mem_erase_iff hd).2 hm)
  exact ⟨hone, if_pos hone⟩

theorem Counted.leave (h : Counted r) (hl : r.leave d = .done r') : Counted r' := by
  obtain ⟨hd, rfl⟩ := leave_eq_done hl
  refine h.drop hd (fun hm => ⟨if_neg ((h.mem_erase_iff hd).1 hm), rfl⟩) fun hm => Or.inr ?_
  have hone : r.refcount d - 1 = 1 := not_not.1 (mt (h.mem_erase_iff hd).2 hm)
  exact ⟨if_pos hone, rfl⟩

theorem Counted.notify (h : Counted r) (hn : r.notify d = .done r') : Counted r' := by
  obtain ⟨hd, rfl⟩ := notify_eq_done hn
  have hne : ∀ x ∈ r.dying.erase d, x ∈ r.dying ∧ x ≠ d := fun x hx =>
    ⟨mem_of_mem_erase hx, fun e => h.dyingNodup.not_mem_erase (e ▸ hx)⟩
  refine ⟨h.nodup, h.live, fun x hx => h.dying x (hne x hx).1, h.dyingNodup.erase d, fun x hx => ?_,
    fun x hx => ?_, fun x hx hnl hnd => ?_⟩
  · have hxd : x ≠ d := fun e => (h.dying d hd).2 (e ▸ hx)
    change update r.refcount d 0 x = _
    rw [update_of_ne hxd]
    exact h.inUse x hx
  · change update r.refcount d 0 x = 1
    rw [update_of_ne (hne x hx).2]
    exact h.last x (hne x hx).1
  · change update r.refcount d 0 x = 0
    by_cases hxd : x = d
    · rw [hxd, update_self]
    · rw [update_of_ne hxd]
      exact h.unused x hx hnl fun hm => hnd ((mem_erase_of_ne hxd).2 hm)

theorem Counted.receive (h : Counted r) (hr : r.receive d = .done r') : Counted r' := by
  obtain ⟨-, rfl⟩ := receive_eq_done hr
  exact ⟨h.nodup, h.live, h.dying, h.dyingNodup, h.inUse, h.last, h.unused⟩

theorem Counted.pop (h : Counted r) {rest : List DetrefId} (hf : r.front = .unused rest) :
    Counted { r with detfifo := rest } ∧ ∃ d, r.detfifo = d :: rest ∧ d ∉ r.live ∧ d ∉ r.dying := by
  unfold LoopRefs.front at hf
  cases hq : r.detfifo with
  | nil =>
    rw [hq] at hf
    cases hf
  | cons d ds =>
    rw [hq] at hf
    dsimp only at hf
    split at hf
    · cases hf
    · rename_i hzero
      cases hf
      have hz : r.refcount d = 0 := Nat.eq_zero_of_not_pos hzero
      have hnl : d ∉ r.live := fun hm => absurd (h.two_le hm) (by omega)
      have hnd : d ∉ r.dying := fun hm => absurd (h.last d hm) (by omega)
      have hrest : ∀ x, x ∈ r.detfifo → x ≠ d → x ∈ rest := fun x hx hxd =>
        (mem_cons.1 (hq ▸ hx)).resolve_left hxd
      have hcons : ∀ x ∈ rest, x ∈ r.detfifo := fun x hx => hq ▸ mem_cons_of_mem _ hx
      refine ⟨⟨(nodup_cons.1 (hq ▸ h.nodup)).2, fun x hx => ?_, fun x hx => ?_, h.dyingNodup,
        h.inUse, h.last, fun x hx => h.unused x (hcons x hx)⟩, d, rfl, hnl, hnd⟩
      · exact hrest x (h.live x hx) fun e => hnl (e ▸ hx)
      · exact ⟨hrest x (h.dying x hx).1 fun e => hnd (e ▸ hx), (h.dying x hx).2⟩

theorem Counted.refcount_eq (h : Counted r) (hd : d ∈ r.detfifo) :
    r.refcount d = 1 + r.live.count d ∨ (r.live.count d = 0 ∧ r.refcount d = 0) := by
  by_cases hl : d ∈ r.live
  · exact Or.inl ((h.inUse d hl).trans (Nat.add_comm _ _))
  · have hz : r.live.count d = 0 := count_eq_zero.2 hl
    by_cases hdy : d ∈ r.dying
    · exact Or.inl ((h.last d hdy).trans (by rw [hz]))
    · exact Or.inr ⟨hz, h.unused d hd hl hdy⟩

/-- The front of `detfifo` is in use, or the notification that it is not is under way. -/
def Waits (r : LoopRefs) : Prop :=
  ∃ d rest, r.detfifo = d :: rest ∧ (0 < r.refcount d ∨ d ∈ r.notes)

theorem waits_of_front (h : r.front = .inUse) : Waits r := by
  unfold front at h
  cases hq : r.detfifo with
  | nil =>
    rw [hq] at h
    cases h
  | cons d ds =>
    rw [hq] at h
    dsimp only at h
    split at h
    · rename_i hpos
      exact ⟨d, ds, hq, Or.inl hpos⟩
    · cases h

theorem Waits.copy (h : Waits r) (hc : r.copy d = .done r') : Waits r' := by
  obtain ⟨-, rfl⟩ := copy_eq_done hc
  obtain ⟨x, rest, hq, hx⟩ := h
  refine ⟨x, rest, hq, hx.imp_left fun hpos => ?_⟩
  change 0 < update r.refcount d _ x
  by_cases hxd : x = d
  · rw [hxd, update_self]
    omega
  · rwa [update_of_ne hxd]

theorem Waits.absorb (h : Waits r) (hcount : Counted r) (ha : r.absorb d = .done r') : Waits r' := by
  obtain ⟨hd, rfl⟩ := absorb_eq_done ha
  obtain ⟨x, rest, hq, hx⟩ := h
  refine ⟨x, rest, hq, hx.imp_left fun hpos => ?_⟩
  change 0 < update r.refcount d _ x
  by_cases hxd : x = d
  · rw [hxd, update_self]
    have := hcount.two_le hd
    omega
  · rwa [update_of_ne hxd]

theorem Waits.notify (h : Waits r) (hn : r.notify d = .done r') : Waits r' := by
  obtain ⟨-, rfl⟩ := notify_eq_done hn
  obtain ⟨x, rest, hq, hx⟩ := h
  refine ⟨x, rest, hq, ?_⟩
  by_cases hxd : x = d
  · exact Or.inr (mem_append_right _ (mem_singleton.2 hxd))
  · refine hx.imp (fun hpos => ?_) (mem_append_left _)
    change 0 < update r.refcount d 0 x
    rwa [update_of_ne hxd]

theorem Counted.not_waits (h : Counted r) (hl : r.live = []) (hd : r.dying = []) (hn : r.notes = []) :
    ¬ Waits r := by
  rintro ⟨x, rest, hq, hx | hx⟩
  · have hz := h.unused x (hq ▸ mem_cons_self) (by simp [hl]) (by simp [hd])
    omega
  · rw [hn] at hx
    cases hx

end LoopRefs

end SNet.Front
