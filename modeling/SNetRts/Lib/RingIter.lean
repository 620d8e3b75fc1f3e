import SNetRts.Lib.Ring

/-!
# Going through a ring

An iterator of a ring is the node that it gave last, `none` before the first one. It goes from the last
node of the ring, which the handle leads to, over the links to the first one, and ends at the last.
-/

namespace Lib

open List

variable {α : Type*} [DecidableEq α]

def ringHasNext (handle cur : Option α) : Bool := handle.isSome && (cur ≠ handle || cur.isNone)

def ringNext (next : α → Option α) (handle cur : Option α) : Option α :=
  match cur with
  | some a => next a
  | none => handle.bind next

namespace Ring

variable {next : α → Option α} {handle : Option α} {l as bs : List α} {b : α}

theorem hasNext_iff (h : Ring next handle l) (has : as <+: l) :
    ringHasNext handle as.getLast? = true ↔ as ≠ l := by
  obtain ⟨bs, rfl⟩ := has
  rcases eq_nil_or_concat bs with rfl | ⟨bs, last, rfl⟩
  · rw [append_nil] at *
    rw [h.last]
    unfold ringHasNext
    cases as.getLast? <;> simp
  · rw [concat_eq_append] at *
    have hlast : handle = some last := by simpa using h.last
    have hne : as ≠ as ++ (bs ++ [last]) := by
      intro heq
      have := congrArg List.length heq
      simp at this
    have hcur : as.getLast? ≠ some last := by
      intro heq
      have hmem := mem_of_getLast? heq
      exact (nodup_append.1 h.nodup).2.2 last hmem last (by simp) rfl
    rw [hlast]
    unfold ringHasNext
    simp [hne, hcur]

omit [DecidableEq α] in
theorem next_eq (h : Ring next handle (as ++ b :: bs)) :
    ringNext next handle as.getLast? = some b := by
  rcases eq_nil_or_concat as with rfl | ⟨as, a, rfl⟩
  · obtain ⟨last, hlast⟩ : ∃ last, (b :: bs).getLast? = some last := by
      cases hl : (b :: bs).getLast? with
      | none => simp at hl
      | some last => exact ⟨last, rfl⟩
    have hseg := h.seg_last hlast
    have hhandle : handle = some last := h.last.trans hlast
    rw [hhandle]
    exact hseg.1
  · rw [concat_eq_append] at *
    have hlinks := h.links
    rw [show as ++ [a] ++ b :: bs = (as ++ [a]) ++ ([b] ++ bs) by simp] at hlinks
    obtain ⟨r, h1, h2⟩ := Seg.append_iff.1 hlinks
    have hr : next a = r := Option.some.inj h1.link_last
    have hb : r = some b := h2.1
    have hcur : (as ++ [a]).getLast? = some a := by simp
    rw [hcur]
    exact hr.trans hb

end Ring

end Lib
