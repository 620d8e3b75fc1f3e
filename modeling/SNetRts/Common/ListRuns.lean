import SNetRts.Common.ListSpec

/-!
# Runs of list operations

Sequences of operations on a list, beside the same operations on a sequence of values. The two agree up
to what `Remove` returns; `Copy` agrees for full lists only; and a list that has been read back behaves
as the one that was written only where the structure that it is read to has the right size and start.
-/

namespace SNet

open Lib List

/-- The operations on a list; the loops go on as long as `go` holds. -/
inductive ListOp (α : Type) where
  | create (vals : List α)
  | appendStart (val : α)
  | appendEnd (val : α)
  | popStart
  | popEnd
  | get (i : Int)
  | remove (i : Int)
  | contains (val : α)
  | length
  | deepCopy (copyfun : α → α)
  | forEach (go : α → Bool)
  | dequeueEach (go : α → Bool)

/-- What an operation returns; of a loop, the values it goes over. -/
inductive ListResult (α : Type) where
  | unit
  | val (v : α)
  | flag (b : Bool)
  | count (n : Int)
  | vals (vs : List α)
deriving DecidableEq

namespace SNetList

variable {α : Type} (cmp : α → α → Bool)

def noting (go : α → Bool) (seen : List α) (val : α) : List α × Bool := (seen ++ [val], go val)

/-- The elements in the order of `LIST_FOR_EACH`. -/
def elements (l : SNetList α) : Option (List α) := l.forEach (noting fun _ => true) []

/-- One operation. `Create` and `DeepCopy` go on with the new list. -/
def exec (l : SNetList α) : ListOp α → Option (ListResult α × SNetList α)
  | .create vals => some (.unit, create vals)
  | .appendStart val => (l.appendStart val).map (.unit, ·)
  | .appendEnd val => (l.appendEnd val).map (.unit, ·)
  | .popStart => l.popStart.map fun (v, l) => (.val v, l)
  | .popEnd => l.popEnd.map fun (v, l) => (.val v, l)
  | .get i => (l.get i).map (.val ·, l)
  | .remove i => (l.remove i).map fun (v, l) => (.val v, l)
  | .contains val => (l.contains cmp val).map (.flag ·, l)
  | .length => some (.count l.length, l)
  | .deepCopy copyfun => (l.deepCopy copyfun).map (.unit, ·)
  | .forEach go => (l.forEach (noting go) []).map (.vals ·, l)
  | .dequeueEach go => (l.dequeueEach (noting go) []).map fun (vs, l) => (.vals vs, l)

def visited (go : α → Bool) : List α → List α
  | [] => []
  | x :: xs => if go x then x :: visited go xs else [x]

/-- One operation on a sequence of values; none where the operation is out of bounds. -/
def execSeq (xs : List α) : ListOp α → Option (ListResult α × List α)
  | .create vals => some (.unit, vals)
  | .appendStart val => some (.unit, val :: xs)
  | .appendEnd val => some (.unit, xs ++ [val])
  | .popStart => xs.head?.map (.val ·, xs.tail)
  | .popEnd => xs.getLast?.map (.val ·, xs.dropLast)
  | .get i => if 0 ≤ i then xs[i.toNat]?.map (.val ·, xs) else none
  | .remove i => if 0 ≤ i then xs[i.toNat]?.map (.val ·, xs.eraseIdx i.toNat) else none
  | .contains val => some (.flag (xs.any (cmp · val)), xs)
  | .length => some (.count xs.length, xs)
  | .deepCopy copyfun => some (.unit, xs.map copyfun)
  | .forEach go => some (.vals (visited go xs), xs)
  | .dequeueEach go => some (.vals (visited go xs), xs.drop (visited go xs).length)

def run (l : SNetList α) : List (ListOp α) → Option (List (ListResult α) × SNetList α)
  | [] => some ([], l)
  | op :: ops => do
    let (r, l) ← l.exec cmp op
    let (rs, l) ← run l ops
    return (r :: rs, l)

def runSeq (xs : List α) : List (ListOp α) → Option (List (ListResult α) × List α)
  | [] => some ([], xs)
  | op :: ops => do
    let (r, xs) ← execSeq cmp xs op
    let (rs, xs) ← runSeq xs ops
    return (r :: rs, xs)

/-- The slot that `Remove` reads has the value of the element it removes. -/
def Straight (l : SNetList α) (op : ListOp α) : Prop :=
  ∀ i, op = .remove i → l.read i = l.readMod (l.start + i)

/-- All operations of a run are called on lists for which they are straight. -/
def Straights (l : SNetList α) : List (ListOp α) → Prop
  | [] => True
  | op :: ops => l.Straight op ∧ ∀ r l', l.exec cmp op = some (r, l') → Straights l' ops

/-- The lists that the operations lead to. -/
inductive Reachable : SNetList α → Prop
  | create (vals : List α) : Reachable (create vals)
  | exec {l l' : SNetList α} {op : ListOp α} {r : ListResult α} :
    Reachable l → l.exec cmp op = some (r, l') → Reachable l'
  | copy {l l' : SNetList α} : Reachable l → l.copy = some l' → Reachable l'

/-! ### One operation -/

section Operations

variable {cmp : α → α → Bool} {l l' : SNetList α} {s : Nat} {xs xs' : List α} {op : ListOp α}
  {ops : List (ListOp α)} {r : ListResult α}

theorem sweep_noting (go : α → Bool) (xs seen : List α) :
    sweep (noting go) xs seen = (seen ++ visited go xs, xs.drop (visited go xs).length) := by
  induction xs generalizing seen with
  | nil => simp [sweep, visited]
  | cons x xs ih =>
    rw [sweep, noting]
    rcases hgo : go x with _ | _
    · simp [visited, hgo]
    · simp [visited, hgo, ih]

theorem visited_all (xs : List α) : visited (fun _ => true) xs = xs := by
  induction xs with
  | nil => rfl
  | cons x xs ih => rw [visited, if_pos rfl, ih]

theorem Holds.elements (h : l.Holds s xs) : l.elements = some xs := by
  rw [SNetList.elements, h.forEach, sweep_noting, visited_all, nil_append]

theorem Holds.contains (h : l.Holds s xs) (val : α) :
    l.contains cmp val = some (xs.any (cmp · val)) := by
  rw [SNetList.contains, h.forEach]
  congr 1
  clear h
  induction xs with
  | nil => rfl
  | cons x xs ih =>
    rw [sweep, any_cons]
    rcases hcmp : cmp x val with _ | _
    · exact ih
    · rfl

theorem sweep_copying (f : α → α) (xs : List α) (pre : List (Option α)) :
    (sweep (fun (i, values) val => ((i + 1, values.set i (some (f val))), true)) xs
      (pre.length, pre ++ List.replicate xs.length none)).1.2 = pre ++ xs.map (some ∘ f) := by
  induction xs generalizing pre with
  | nil => rfl
  | cons x xs ih =>
    have hset : (pre ++ List.replicate (x :: xs).length none).set pre.length (some (f x)) =
        (pre ++ [some (f x)]) ++ List.replicate xs.length none := by
      rw [length_cons, replicate_succ, set_append_right _ _ (Nat.le_refl _),
        Nat.sub_self, set_cons_zero, append_assoc]
      rfl
    have hlen : pre.length + 1 = (pre ++ [some (f x)]).length := by simp
    show (sweep _ xs (pre.length + 1, (pre ++ List.replicate (x :: xs).length none).set pre.length
      (some (f x)))).1.2 = _
    rw [hset, hlen, ih, append_assoc]
    rfl

theorem Holds.deepCopy (h : l.Holds s xs) (f : α → α) :
    l.deepCopy f = some (SNetList.create (xs.map f)) := by
  have hcopy := sweep_copying f xs []
  rw [nil_append, nil_append, length_nil] at hcopy
  rw [SNetList.deepCopy, alloc, h.used, if_pos (Int.natCast_nonneg _), Int.toNat_natCast,
    Option.bind_eq_bind, Option.bind_some, h.forEach, Option.bind_eq_bind, Option.bind_some]
  simp [SNetList.create, hcopy]

theorem Holds.get (h : l.Holds s xs) {i : Nat} (hi : i < xs.length) : l.get i = some xs[i] := by
  rw [SNetList.get, if_pos (by rw [h.used]; omega), h.readMod hi]

theorem straight_of_ne (hne : ∀ i, op ≠ .remove i) : l.Straight op :=
  fun i hi => absurd hi (hne i)

/-- An operation in bounds leaves what the operation on the sequence leaves. It returns the same,
unless it removes an element and the slot that is read has another value. -/
theorem Holds.exec (h : l.Holds s xs) (hop : execSeq cmp xs op = some (r, xs')) :
    ∃ r' l' t, l.exec cmp op = some (r', l') ∧ l'.Holds t xs' ∧ (r' = r ↔ l.Straight op) := by
  -- all operations but `Remove` return what they should
  suffices hexact : (∀ i, op ≠ .remove i) → ∃ l' t, l.exec cmp op = some (r, l') ∧ l'.Holds t xs' by
    by_cases hremove : ∃ i, op = .remove i
    · obtain ⟨i, rfl⟩ := hremove
      rw [execSeq] at hop
      split at hop
      case isFalse => cases hop
      case isTrue hi =>
        obtain ⟨v, hv, heq⟩ := Option.map_eq_some_iff.1 hop
        cases heq
        obtain ⟨k, rfl⟩ : ∃ k : Nat, i = k := ⟨i.toNat, by omega⟩
        rw [Int.toNat_natCast] at hv
        obtain ⟨hlt, hget⟩ := List.getElem?_eq_some_iff.1 hv
        have hsplit : xs.take k ++ v :: xs.drop (k + 1) = xs := by
          rw [← hget, ← drop_eq_getElem_cons hlt, take_append_drop]
        have hlen : (xs.take k).length = k := length_take_of_le (Nat.le_of_lt hlt)
        rw [← hsplit] at h
        obtain ⟨r, l', hread, hremove, hholds⟩ := h.remove
        rw [hlen] at hread hremove
        refine ⟨.val r, l', s, ?_, ?_, ?_⟩
        · rw [SNetList.exec, hremove]
          rfl
        · rw [Int.toNat_natCast, eraseIdx_eq_take_drop_succ]
          exact hholds
        · have helem : l.readMod (l.start + k) = some v := by
            have := h.readMod (i := k) (by simp; omega)
            rw [this]
            simp [hlen]
          constructor
          · rintro ⟨⟩ i ⟨⟩
            rw [hread, helem]
          · intro hstraight
            have := hstraight k rfl
            rw [hread, helem] at this
            cases this
            rfl
    · have hne : ∀ i, op ≠ .remove i := fun i hi => hremove ⟨i, hi⟩
      obtain ⟨l', t, hexec, hholds⟩ := hexact hne
      exact ⟨r, l', t, hexec, hholds, iff_of_true rfl (straight_of_ne hne)⟩
  intro hne
  cases op with
  | create vals =>
    cases hop
    exact ⟨_, 0, rfl, .create _⟩
  | appendStart val =>
    cases hop
    obtain ⟨l', t, happend, hholds⟩ := h.appendStart (v := val)
    exact ⟨l', t, by rw [SNetList.exec, happend]; rfl, hholds⟩
  | appendEnd val =>
    cases hop
    obtain ⟨l', t, happend, hholds⟩ := h.appendEnd (v := val)
    exact ⟨l', t, by rw [SNetList.exec, happend]; rfl, hholds⟩
  | popStart =>
    cases xs with
    | nil => cases hop
    | cons x xs =>
      cases hop
      obtain ⟨hpop, hholds⟩ := h.popStart
      exact ⟨_, _, by rw [SNetList.exec, hpop]; rfl, hholds⟩
  | popEnd =>
    rcases eq_nil_or_concat xs with rfl | ⟨init, last, rfl⟩
    · cases hop
    · rw [concat_eq_append] at h hop
      rw [execSeq, getLast?_concat, dropLast_concat] at hop
      cases hop
      obtain ⟨hpop, hholds⟩ := h.popEnd
      exact ⟨_, _, by rw [SNetList.exec, hpop]; rfl, hholds⟩
  | get i =>
    rw [execSeq] at hop
    split at hop
    case isFalse => cases hop
    case isTrue hi =>
      obtain ⟨v, hv, heq⟩ := Option.map_eq_some_iff.1 hop
      obtain ⟨hlt, rfl⟩ := List.getElem?_eq_some_iff.1 hv
      cases heq
      have hget := h.get hlt
      rw [Int.toNat_of_nonneg hi] at hget
      exact ⟨l, s, by rw [SNetList.exec, hget]; rfl, h⟩
  | remove i => exact absurd rfl (hne i)
  | contains val =>
    cases hop
    exact ⟨l, s, by rw [SNetList.exec, h.contains]; rfl, h⟩
  | length =>
    cases hop
    exact ⟨l, s, by rw [SNetList.exec, SNetList.length, h.used], h⟩
  | deepCopy copyfun =>
    cases hop
    exact ⟨_, 0, by rw [SNetList.exec, h.deepCopy]; rfl, .create _⟩
  | forEach go =>
    cases hop
    exact ⟨l, s, by rw [SNetList.exec, h.forEach, sweep_noting]; rfl, h⟩
  | dequeueEach go =>
    cases hop
    obtain ⟨l', t, hdequeue, hholds⟩ := h.dequeueEach (noting go) []
    rw [sweep_noting] at hdequeue hholds
    exact ⟨l', t, by rw [SNetList.exec, hdequeue]; rfl, hholds⟩

theorem Holds.exec_none (h : l.Holds s xs) (hop : execSeq cmp xs op = none) :
    l.exec cmp op = none := by
  have hused := h.used
  have hout : ∀ i : Int, (if 0 ≤ i then xs[i.toNat]?.map fun v => (ListResult.val v, xs) else none) = none →
      ¬(0 ≤ i ∧ i < l.used) := by
    rintro i hi ⟨h0, hlt⟩
    rw [if_pos h0, getElem?_eq_getElem (by omega)] at hi
    cases hi
  cases op with
  | popStart =>
    cases xs with
    | nil =>
      rw [SNetList.exec, SNetList.popStart, if_neg (by rw [hused]; simp)]
      rfl
    | cons x xs => cases hop
  | popEnd =>
    cases hxs : xs.getLast? with
    | none =>
      rw [getLast?_eq_none_iff] at hxs
      rw [SNetList.exec, SNetList.popEnd, if_neg (by rw [hused, hxs]; simp)]
      rfl
    | some x =>
      rw [execSeq, hxs] at hop
      cases hop
  | get i =>
    rw [SNetList.exec, SNetList.get, if_neg (hout i (by simpa [execSeq] using hop))]
    rfl
  | remove i =>
    rw [SNetList.exec, SNetList.remove, if_neg (hout i (by simpa [execSeq] using hop))]
    rfl
  | create | appendStart | appendEnd | contains | length | deepCopy | forEach | dequeueEach =>
    cases hop

theorem length_memcpy {dst src values : List (Option α)} {pos first n : Int}
    (h : memcpy dst pos src first n = some values) : values.length = dst.length := by
  rw [memcpy] at h
  split at h
  case isFalse => cases h
  case isTrue hbounds =>
    cases h
    simp only [length_append, length_take, length_drop]
    omega

theorem Holds.copy (h : l.Holds s xs) :
    l.copy = if l.used = l.size then some (SNetList.create xs) else none := by
  have hshort := h.window.short
  rw [SNetList.copy, alloc, h.used, h.size, h.start, if_pos (Int.natCast_nonneg _), Int.toNat_natCast]
  simp only [Option.bind_eq_bind, Option.bind_some]
  split
  case isTrue hfull =>
    have hfull : xs.length = l.values.length := by omega
    have hcopy := memcpy_unwrap [] (List.replicate xs.length (none : Option α))
      h.start_le (by rw [length_replicate]; omega)
    rw [h.window.unwrap h.start_le hfull, drop_of_length_le (by simp [hfull])] at hcopy
    simp only [nil_append, length_nil, Int.natCast_zero, Int.zero_add, append_nil] at hcopy
    rw [← Option.bind_assoc, hcopy]
    rfl
  case isFalse hfull =>
    -- the second block ends behind the last of the `used` slots
    cases hfirst : memcpy (List.replicate xs.length none) 0 l.values s (l.values.length - s) with
    | none => rfl
    | some values =>
      have hlen := length_memcpy hfirst
      rw [length_replicate] at hlen
      rw [Option.bind_some, memcpy, if_neg (by omega)]
      rfl

/-! ### Runs -/

theorem Reachable.holds (h : Reachable cmp l) : ∃ s xs, l.Holds s xs := by
  induction h with
  | create vals => exact ⟨0, vals, .create vals⟩
  | @exec l l' op r _ hexec ih =>
    obtain ⟨s, xs, h⟩ := ih
    cases hop : execSeq cmp xs op with
    | none =>
      rw [h.exec_none hop] at hexec
      cases hexec
    | some p =>
      obtain ⟨r', l'', t, hexec', hholds, -⟩ := h.exec hop
      rw [hexec] at hexec'
      cases hexec'
      exact ⟨t, _, hholds⟩
  | copy _ hcopy ih =>
    obtain ⟨s, xs, h⟩ := ih
    rw [h.copy] at hcopy
    split at hcopy
    · cases hcopy
      exact ⟨0, xs, .create xs⟩
    · cases hcopy

theorem Holds.run (h : l.Holds s xs) {rs : List (ListResult α)}
    (hin : runSeq cmp xs ops = some (rs, xs')) :
    ∃ rs' l' t, l.run cmp ops = some (rs', l') ∧ l'.Holds t xs' ∧ (rs' = rs ↔ l.Straights cmp ops) := by
  induction ops generalizing l s xs rs with
  | nil =>
    cases hin
    exact ⟨[], l, s, rfl, h, iff_of_true rfl trivial⟩
  | cons op ops ih =>
    rw [runSeq, Option.bind_eq_bind, Option.bind_eq_some_iff] at hin
    obtain ⟨⟨r, ys⟩, hop, hin⟩ := hin
    rw [Option.bind_eq_bind, Option.bind_eq_some_iff] at hin
    obtain ⟨⟨rs', zs⟩, hops, heq⟩ := hin
    cases heq
    obtain ⟨r', l', t, hexec, hholds, hr⟩ := h.exec hop
    obtain ⟨rs'', l'', t', hrun, hholds', hrs⟩ := ih hholds hops
    refine ⟨r' :: rs'', l'', t', ?_, hholds', ?_⟩
    · simp only [SNetList.run, hexec, hrun, Option.bind_eq_bind, Option.bind_some]
      rfl
    · rw [List.cons.injEq, hr, hrs, Straights]
      constructor
      · rintro ⟨h1, h2⟩
        refine ⟨h1, fun r l' hexec' => ?_⟩
        rw [hexec] at hexec'
        cases hexec'
        exact h2
      · exact fun ⟨h1, h2⟩ => ⟨h1, h2 r' l' hexec⟩

end Operations

/-! ## Lists and sequences -/

/-- The runs from a list return and leave what they do on the sequence of its elements if and only if
every `Remove` is called where the slot with the number of the position has the value of the element. -/
theorem list_is_sequence_iff {l : SNetList α} (hl : Reachable cmp l) :
    ∃ xs, l.elements = some xs ∧ ∀ ops rs xs', runSeq cmp xs ops = some (rs, xs') →
      ((∃ l', l.run cmp ops = some (rs, l') ∧ l'.elements = some xs') ↔ l.Straights cmp ops) := by
  obtain ⟨s, xs, h⟩ := hl.holds
  refine ⟨xs, h.elements, fun ops rs xs' hin => ?_⟩
  obtain ⟨rs', l', t, hrun, hholds, hiff⟩ := h.run hin
  constructor
  · rintro ⟨l'', hrun', -⟩
    rw [hrun] at hrun'
    cases hrun'
    exact hiff.1 rfl
  · intro hstraight
    obtain rfl := hiff.2 hstraight
    exact ⟨l', hrun, hholds.elements⟩

/-- `Remove(0)` of a list with the elements 2 and 3, in the slots 1 and 0, returns 3. -/
theorem list_is_not_sequence :
    SNetList.Reachable (· == ·) (SNetList.create [1, 2]) ∧
    runSeq (· == ·) [1, 2] [.popStart, .appendEnd 3, .remove 0] =
      some ([.val 1, .unit, .val 2], [3]) ∧
    ¬∃ l', (SNetList.create [1, 2]).run (· == ·) [.popStart, .appendEnd 3, .remove 0] =
      some ([ListResult.val (1 : Int), .unit, .val 2], l') ∧ l'.elements = some [3] := by
  refine ⟨.create _, rfl, ?_⟩
  rintro ⟨l', hrun, -⟩
  cases hrun

theorem list_is_sequence_created :
    ∃ xs, (SNetList.create [1, 2]).elements = some xs ∧ ∀ ops rs xs', runSeq (· == ·) xs ops = some (rs, xs') →
      ((∃ l', (SNetList.create [1, 2]).run (· == ·) ops = some (rs, l') ∧
        l'.elements = some (xs' : List Int)) ↔ (SNetList.create [1, 2]).Straights (· == ·) ops) :=
  list_is_sequence_iff _ (.create [1, 2])

/-- `Copy` of a list is a list of the same elements, without an access outside of an array, if and only
if the list is full. -/
theorem copy_in_bounds_iff {l : SNetList α} (hl : Reachable cmp l) :
    (∃ l' xs, l.copy = some l' ∧ l.elements = some xs ∧ l'.elements = some xs) ↔ l.used = l.size := by
  obtain ⟨s, xs, h⟩ := hl.holds
  rw [h.copy]
  constructor
  · rintro ⟨l', ys, hcopy, -⟩
    by_contra hne
    rw [if_neg hne] at hcopy
    cases hcopy
  · intro hfull
    exact ⟨_, xs, if_pos hfull, h.elements, (Holds.create xs).elements⟩

/-- `Copy` of a list with one element in an array of two slots. -/
theorem copy_out_of_bounds :
    ∃ l : SNetList Int, SNetList.Reachable (· == ·) l ∧ l.elements = some [1] ∧ l.copy = none := by
  have hpop : ∃ r, (SNetList.create [1, 2]).exec (· == ·) .popEnd =
      some (r, ({ size := 2, used := 1, start := 0, values := [some 1, some 2] } : SNetList Int)) :=
    ⟨_, rfl⟩
  obtain ⟨r, hpop⟩ := hpop
  exact ⟨_, .exec (.create [1, 2]) hpop, rfl, rfl⟩

theorem copy_in_bounds_created :
    (∃ l' xs, (SNetList.create [1, 2]).copy = some l' ∧ (SNetList.create [1, 2]).elements = some xs ∧
      l'.elements = some (xs : List Int)) ↔
      (SNetList.create [(1 : Int), 2]).used = (SNetList.create [(1 : Int), 2]).size :=
  copy_in_bounds_iff (· == ·) (.create [1, 2])

end SNetList

end SNet
