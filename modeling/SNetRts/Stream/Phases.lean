import SNetRts.Stream.DetNet

/-!
# Streams divided into phases

The dispatcher of a deterministic combinator lets a sort record follow every data record and every
sort record that it reads, to all of its instances. These records, its marks, divide every stream of
the combinator into phases: phase `k` ends with mark `k`. `Phased` says that a stretch of a stream
that begins in one phase and ends in another has the marks in between, one after the other, that its
data records stem from the input record of their phase, and that streams are announced in the phase
they begin with.
-/

namespace SNet.Stream

variable {D Γ : Type}

/-- What the phases of a combinator are: the marks so far, the phase that each stream to the
collector begins with, and the number of phases that belong to no input record. -/
structure Plan where
  marks : List (Int × Int)
  birth : StreamId → Nat
  offset : Nat

/-- The phase ends with a mark of the combinator itself, so that it has data records. -/
def Plan.Own (p : Plan) (k : Nat) : Prop := ∃ n, p.marks[k]? = some (0, n)

/-- The stretch begins in phase `k` and ends in phase `m`, with a terminate record if `fin`. -/
def Phased (p : Plan) : Nat → List (Rec (Item D) Γ) → Nat → Bool → Prop
  | k, [], m, fin => k = m ∧ fin = false
  | k, .data i :: q, m, fin => i.origin + p.offset = k ∧ p.Own k ∧ Phased p k q m fin
  | k, .collect s :: q, m, fin => p.birth s = k ∧ Phased p k q m fin
  | k, .sortEnd level num :: q, m, fin => p.marks[k]? = some (level, num) ∧ Phased p (k + 1) q m fin
  | k, .terminate _ :: q, m, fin => q = [] ∧ k = m ∧ fin = true
  | _, .sync _ _ :: _, _, _ => False

namespace Phased

variable {p p' : Plan} {k m m' : Nat} {q q' : List (Rec (Item D) Γ)} {fin fin' : Bool}
  {s : StreamId}

theorem le (h : Phased p k q m fin) : k ≤ m := by
  induction q generalizing k with
  | nil => exact Nat.le_of_eq h.1
  | cons r q ih =>
    cases r with
    | data i => exact ih h.2.2
    | collect s => exact ih h.2
    | sortEnd level num => exact Nat.le_of_succ_le (ih h.2)
    | terminate flag => exact Nat.le_of_eq h.2.1
    | sync input outtype => exact h.elim

theorem append (h : Phased p k q m false) (h' : Phased p m q' m' fin) :
    Phased p k (q ++ q') m' fin := by
  induction q generalizing k with
  | nil =>
    obtain ⟨rfl, -⟩ := h
    exact h'
  | cons r q ih =>
    cases r with
    | data i => exact ⟨h.1, h.2.1, ih h.2.2⟩
    | collect s => exact ⟨h.1, ih h.2⟩
    | sortEnd level num => exact ⟨h.1, ih h.2⟩
    | terminate flag => exact absurd h.2.2 (by decide)
    | sync input outtype => exact h.elim

theorem mono (h : Phased p k q m fin) (hm : p.marks <+: p'.marks) (ho : p'.offset = p.offset)
    (hb : ∀ s, Rec.collect s ∈ q → p'.birth s = p.birth s) : Phased p' k q m fin := by
  have hmark : ∀ {k : Nat} {x : Int × Int}, p.marks[k]? = some x → p'.marks[k]? = some x := by
    intro k x hx
    obtain ⟨t, ht⟩ := hm
    rw [← ht]
    exact List.getElem?_append_left (List.getElem?_eq_some_iff.1 hx).1 ▸ hx
  induction q generalizing k with
  | nil => exact h
  | cons r q ih =>
    have hb' : ∀ s, Rec.collect s ∈ q → p'.birth s = p.birth s := fun s hs =>
      hb s (List.mem_cons_of_mem _ hs)
    cases r with
    | data i =>
      obtain ⟨h1, ⟨n, hn⟩, h3⟩ := h
      exact ⟨ho ▸ h1, ⟨n, hmark hn⟩, ih h3 hb'⟩
    | collect s => exact ⟨(hb s List.mem_cons_self).trans h.1, ih h.2 hb'⟩
    | sortEnd level num => exact ⟨hmark h.1, ih h.2 hb'⟩
    | terminate flag => exact h
    | sync input outtype => exact h.elim

theorem within (h : ∀ r ∈ q, (∃ i : Item D, r = .data i ∧ i.origin + p.offset = k ∧ p.Own k) ∨
    ∃ s, r = .collect s ∧ p.birth s = k) : Phased p k q k false := by
  induction q with
  | nil => exact ⟨rfl, rfl⟩
  | cons r q ih =>
    have ih := ih fun r hr => h r (List.mem_cons_of_mem _ hr)
    rcases h r List.mem_cons_self with ⟨i, rfl, h1, h2⟩ | ⟨s, rfl, hs⟩
    · exact ⟨h1, h2, ih⟩
    · exact ⟨hs, ih⟩

theorem mark {level num : Int} (h : p.marks[k]? = some (level, num)) :
    Phased p k ([.sortEnd level num] : List (Rec (Item D) Γ)) (k + 1) false := ⟨h, rfl, rfl⟩

theorem last {flag : Bool} : Phased p k ([.terminate flag] : List (Rec (Item D) Γ)) k true :=
  ⟨rfl, rfl, rfl⟩

end Phased

/-- What has left the collector in the phases before `k`, and the data records of phase `k` that
have: the records of a phase one after the other, and the outer sort records as they were. -/
inductive Passes (p : Plan) : Nat → List (Rec (Item D) Γ) → Prop
  | nil : Passes p 0 []
  | data {k : Nat} {out : List (Rec (Item D) Γ)} {i : Item D} (h : Passes p k out)
      (ho : i.origin + p.offset = k) (hk : p.Own k) : Passes p k (out ++ [.data i])
  | own {k : Nat} {out : List (Rec (Item D) Γ)} (h : Passes p k out) (hk : p.Own k) :
      Passes p (k + 1) out
  | outer {k : Nat} {out : List (Rec (Item D) Γ)} {level num : Int} (h : Passes p k out)
      (hk : p.marks[k]? = some (level + 1, num)) (hl : 0 ≤ level) :
      Passes p (k + 1) (out ++ [.sortEnd level num])

theorem Passes.mono {p p' : Plan} {k : Nat} {out : List (Rec (Item D) Γ)} (h : Passes p k out)
    (hm : p.marks <+: p'.marks) (ho : p'.offset = p.offset) : Passes p' k out := by
  have hmark : ∀ {k : Nat} {x : Int × Int}, p.marks[k]? = some x → p'.marks[k]? = some x := by
    intro k x hx
    obtain ⟨t, ht⟩ := hm
    rw [← ht]
    exact List.getElem?_append_left (List.getElem?_eq_some_iff.1 hx).1 ▸ hx
  induction h with
  | nil => exact .nil
  | data _ h1 h2 ih => exact .data ih (ho ▸ h1) (h2.imp fun _ h => hmark h)
  | own _ hk ih => exact .own ih (hk.imp fun _ h => hmark h)
  | outer _ hk hl ih => exact .outer ih (hmark hk) hl

end SNet.Stream
