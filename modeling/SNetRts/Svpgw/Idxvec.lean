import Mathlib.Data.List.Lex

/-!
# The order of index vectors

`compare` of `svpgw/src/gw/idxvec.utc`. Items are the 64 bits of `snet_idxvec_item_t`,
which is unsigned: labels written as negative numbers are large there, and pass every test for `> 0`.

A vector is the items behind `data`, `none` for `NULL`. Vectors that share their data have the same items,
for which the loop of `compare` says what the test on the pointers says; of that test only the case of two
`NULL`s is kept.
-/

namespace SNet.Svpgw

open List

/-- `snet_idxvec_item_t` -/
abbrev Item := BitVec 64

/-- `snet_idxvec_t` -/
abbrev IndexVector := Option (List Item)

/-- `snet_idxvec_cmp_result_t` -/
inductive CmpRes where
  | equal
  | less
  | greater
  | undefined
deriving DecidableEq, Repr

namespace IndexVector

/-- The items; none behind `NULL`. -/
def items (v : IndexVector) : List Item := v.getD []

/-- `SNetIdxVecIsInfinite` -/
def isInfinite : IndexVector → Bool
  | none => true
  | some l => l.length == 0

/-- The loop of `compare`; `none` when it runs to its end. -/
def compareItems (ext : Bool) : List Item → List Item → Option CmpRes
  | it1 :: l1, it2 :: l2 =>
    if 0 < it1 ∧ 0 < it2 ∧ it1 < it2 then some .less
    else if 0 < it1 ∧ 0 < it2 ∧ it2 < it1 then some .greater
    else if ext ∧ (it1 = 0 ∨ it2 = 0) then compareItems ext l1 l2
    else if it1 ≠ it2 then some .undefined
    else compareItems ext l1 l2
  | _, _ => none

/-- `compare` -/
def compare (ext : Bool) : IndexVector → IndexVector → CmpRes
  | none, none => .equal
  | _, none => .less
  | none, _ => .greater
  | some l1, some l2 =>
    match compareItems ext l1 l2 with
    | some res => res
    | none =>
      if l1.length = l2.length then .equal
      else if l2.length = 0 then .less
      else if l1.length = 0 then .greater
      else if l1.length < l2.length then .less else .greater

/-! ## The order of items -/

/-- The order that `compare` has on items. -/
def Below (it1 it2 : Item) : Prop := 0 < it1 ∧ it1 < it2

instance (it1 it2 : Item) : Decidable (Below it1 it2) := inferInstanceAs (Decidable (_ ∧ _))

theorem Below.trans {x y z : Item} (h1 : Below x y) (h2 : Below y z) : Below x z :=
  ⟨h1.1, BitVec.lt_trans h1.2 h2.2⟩

theorem Below.ne {x y : Item} (h : Below x y) : x ≠ y := by
  rintro rfl
  exact absurd h.2 (BitVec.lt_irrefl x)

theorem Below.right_pos {x y : Item} (h : Below x y) : 0 < y := BitVec.lt_trans h.1 h.2

theorem not_below_zero (x : Item) : ¬ Below x 0 := by
  rintro ⟨-, h⟩
  exact absurd h (by simp)

/-- How two vectors that are not infinite compare, from some position on. -/
def order (ext : Bool) (l m : List Item) : CmpRes :=
  (compareItems ext l m).getD
    (if l.length = m.length then .equal else if l.length < m.length then .less else .greater)

theorem order_cons (ext : Bool) (x y : Item) (l m : List Item) :
    order ext (x :: l) (y :: m) =
      if Below x y then .less
      else if Below y x then .greater
      else if ext ∧ (x = 0 ∨ y = 0) then order ext l m
      else if x ≠ y then .undefined
      else order ext l m := by
  have h1 : (0 < x ∧ 0 < y ∧ x < y) ↔ Below x y :=
    ⟨fun h => ⟨h.1, h.2.2⟩, fun h => ⟨h.1, h.right_pos, h.2⟩⟩
  have h2 : (0 < x ∧ 0 < y ∧ y < x) ↔ Below y x :=
    ⟨fun h => ⟨h.2.1, h.2.2⟩, fun h => ⟨h.right_pos, h.1, h.2⟩⟩
  unfold order
  rw [compareItems]
  simp only [h1, h2, length_cons, Nat.add_right_cancel_iff, Nat.add_lt_add_iff_right]
  split_ifs <;> rfl

theorem order_cons_self (x : Item) (l m : List Item) : order false (x :: l) (x :: m) = order false l m := by
  have hx : ¬ Below x x := fun h => h.ne rfl
  rw [order_cons]
  simp [hx]

theorem order_less_iff {l m : List Item} : order false l m = .less ↔ List.Lex Below l m := by
  induction l generalizing m with
  | nil =>
    cases m with
    | nil => simp [order, compareItems]
    | cons y m => simp [order, compareItems]
  | cons x l ih =>
    cases m with
    | nil => simp [order, compareItems]
    | cons y m =>
      rw [order_cons]
      by_cases hxy : Below x y
      · rw [if_pos hxy]
        exact iff_of_true rfl (.rel hxy)
      · rw [if_neg hxy]
        by_cases he : x = y
        · subst he
          simp only [hxy, if_false, Bool.false_eq_true, false_and, ne_eq, not_true_eq_false, ih]
          constructor
          · exact List.Lex.cons
          · intro h
            cases h with
            | cons h => exact h
            | rel h => exact absurd h hxy
        · have hno : ¬ List.Lex Below (x :: l) (y :: m) := by
            intro h
            cases h with
            | cons h => exact he rfl
            | rel h => exact hxy h
          rw [iff_false_intro hno, iff_false]
          split_ifs <;> simp_all

theorem order_comm (l m : List Item) : order false l m = .greater ↔ order false m l = .less := by
  induction l generalizing m with
  | nil =>
    cases m with
    | nil => simp [order, compareItems]
    | cons y m => simp [order, compareItems]
  | cons x l ih =>
    cases m with
    | nil => simp [order, compareItems]
    | cons y m =>
      have hasymm : ¬ (Below x y ∧ Below y x) := fun h => (h.1.trans h.2).ne rfl
      rw [order_cons, order_cons]
      by_cases hxy : Below x y
      · have hyx : ¬ Below y x := fun h => hasymm ⟨hxy, h⟩
        simp [hxy, hyx]
      · by_cases hyx : Below y x
        · simp [hxy, hyx]
        · by_cases he : x = y
          · subst he
            simp [hxy, ih]
          · simp [hxy, hyx, he, Ne.symm he]

theorem order_equal_iff {l m : List Item} : order false l m = .equal ↔ l = m := by
  induction l generalizing m with
  | nil =>
    cases m with
    | nil => simp [order, compareItems]
    | cons y m => simp [order, compareItems]
  | cons x l ih =>
    cases m with
    | nil => simp [order, compareItems]
    | cons y m =>
      rw [order_cons, List.cons.injEq]
      by_cases hxy : Below x y
      · simp [hxy, hxy.ne]
      · by_cases hyx : Below y x
        · simp [hxy, hyx, hyx.ne.symm]
        · by_cases he : x = y
          · subst he
            simp [hxy, ih]
          · simp [hxy, hyx, he]

theorem order_append (p s t : List Item) {x y : Item} (hxy : x ≠ y) :
    order false (p ++ x :: s) (p ++ y :: t) =
      if Below x y then .less else if Below y x then .greater else .undefined := by
  induction p with
  | nil =>
    rw [nil_append, nil_append, order_cons]
    simp [hxy]
  | cons z p ih =>
    rw [cons_append, cons_append, order_cons_self, ih]

/-! ## The order of vectors -/

theorem isInfinite_iff {v : IndexVector} : v.isInfinite = true ↔ v.items = [] := by
  cases v with
  | none => simp [isInfinite, items]
  | some l => simp [isInfinite, items]

theorem eq_some_of_finite {v : IndexVector} (h : ¬ v.isInfinite = true) :
    v = some v.items ∧ v.items ≠ [] := by
  rw [isInfinite_iff] at h
  cases v with
  | none => exact absurd rfl h
  | some l => exact ⟨rfl, h⟩

theorem compare_some (ext : Bool) {l m : List Item} (hl : l ≠ []) (hm : m ≠ []) :
    compare ext (some l) (some m) = order ext l m := by
  simp only [compare, order]
  cases compareItems ext l m with
  | some res => rfl
  | none => simp [hl, hm]

theorem compare_nil_right (ext : Bool) {l : List Item} (hl : l ≠ []) :
    compare ext (some l) (some []) = .less := by
  cases l with
  | nil => exact absurd rfl hl
  | cons x l => simp [compare, compareItems]

theorem compare_nil_left (ext : Bool) {m : List Item} (hm : m ≠ []) :
    compare ext (some []) (some m) = .greater := by
  cases m with
  | nil => exact absurd rfl hm
  | cons x m => simp [compare, compareItems]

theorem compare_nil_nil (ext : Bool) : compare ext (some []) (some []) = .equal := by
  simp [compare, compareItems]

theorem compare_less_iff {v w : IndexVector} :
    compare false v w = .less ↔
      match v, w with
      | none, _ => False
      | some _, none => True
      | some l, some [] => l ≠ []
      | some l, some m => l ≠ [] ∧ List.Lex Below l m := by
  cases v with
  | none => cases w <;> simp [compare]
  | some l =>
    cases w with
    | none => simp [compare]
    | some m =>
      cases m with
      | nil =>
        by_cases hl : l = []
        · simp [hl, compare_nil_nil]
        · simp [hl, compare_nil_right]
      | cons y m =>
        by_cases hl : l = []
        · simp [hl, compare_nil_left]
        · simp [hl, compare_some, order_less_iff]

theorem compare_greater_iff {v w : IndexVector} :
    compare false v w = .greater ↔ compare false w v = .less := by
  cases v with
  | none => cases w <;> simp [compare]
  | some l =>
    cases w with
    | none => simp [compare]
    | some m =>
      by_cases hl : l = []
      · by_cases hm : m = []
        · simp [hl, hm, compare_nil_nil]
        · simp [hl, hm, compare_nil_left, compare_nil_right]
      · by_cases hm : m = []
        · simp [hl, hm, compare_nil_left, compare_nil_right]
        · rw [compare_some _ hl hm, compare_some _ hm hl, order_comm]

theorem compare_equal_iff {v w : IndexVector} : compare false v w = .equal ↔ v = w := by
  cases v with
  | none => cases w <;> simp [compare]
  | some l =>
    cases w with
    | none => simp [compare]
    | some m =>
      by_cases hl : l = []
      · by_cases hm : m = []
        · simp [hl, hm, compare_nil_nil]
        · simp [hl, compare_nil_left _ hm, Ne.symm hm]
      · by_cases hm : m = []
        · simp [hl, hm, compare_nil_right]
        · rw [compare_some _ hl hm, order_equal_iff, Option.some.injEq]

theorem compare_trans {u v w : IndexVector} (h1 : compare false u v = .less)
    (h2 : compare false v w = .less) : compare false u w = .less := by
  rw [compare_less_iff] at *
  rcases u with _ | l
  · exact h1
  · rcases v with _ | m
    · exact h2.elim
    · rcases w with _ | n
      · trivial
      · rcases n with _ | ⟨z, n⟩
        · rcases m with _ | ⟨y, m⟩
          · exact absurd rfl h2
          · exact h1.1
        · rcases m with _ | ⟨y, m⟩
          · exact absurd rfl h2.1
          · exact ⟨h1.1, lex_trans Below.trans h1.2 h2.2⟩

/-- The vectors first differ at the items `x` and `y`. -/
def FirstDiffer (v w : IndexVector) (x y : Item) : Prop :=
  ∃ p s t, v.items = p ++ x :: s ∧ w.items = p ++ y :: t ∧ x ≠ y

/-- What the graph walker expects of the order of two vectors. -/
structure CompareLaws (v w : IndexVector) : Prop where
  equal : compare false v w = .equal ↔ v.items = w.items ∨ v.isInfinite = true ∧ w.isInfinite = true
  less : compare false v w = .less ↔ compare false w v = .greater
  greater : compare false v w = .greater ↔ compare false w v = .less
  trans : ∀ u, compare false u v = .less → compare false v w = .less → compare false u w = .less
  infinite : ¬ v.isInfinite = true → w.isInfinite = true → compare false v w = .less
  extension : ¬ v.isInfinite = true → v.items <+: w.items → v.items ≠ w.items → compare false v w = .less
  undefined : ∀ x y, FirstDiffer v w x y → x.toInt ≤ 0 ∨ y.toInt ≤ 0 → compare false v w = .undefined

/-- The vectors whose order is as expected: one representation of infinity, and no negative label against
another item than zero where they first differ. -/
structure Comparable (v w : IndexVector) : Prop where
  infinite : v.isInfinite = true → w.isInfinite = true → (v = none ↔ w = none)
  labels : ∀ x y, FirstDiffer v w x y → x.toInt ≤ 0 ∨ y.toInt ≤ 0 → x = 0 ∨ y = 0

theorem FirstDiffer.finite {v w : IndexVector} {x y : Item} (h : FirstDiffer v w x y) :
    ¬ v.isInfinite = true ∧ ¬ w.isInfinite = true := by
  obtain ⟨p, s, t, hv, hw, -⟩ := h
  rw [isInfinite_iff, isInfinite_iff, hv, hw]
  simp

theorem compare_finite (ext : Bool) {v w : IndexVector} (hv : ¬ v.isInfinite = true)
    (hw : ¬ w.isInfinite = true) : compare ext v w = order ext v.items w.items := by
  obtain ⟨hve, hvn⟩ := eq_some_of_finite hv
  obtain ⟨hwe, hwn⟩ := eq_some_of_finite hw
  rw [hve, hwe]
  exact compare_some ext hvn hwn

theorem compare_infinite (ext : Bool) {v w : IndexVector} (hv : ¬ v.isInfinite = true)
    (hw : w.isInfinite = true) : compare ext v w = .less := by
  obtain ⟨hve, hvn⟩ := eq_some_of_finite hv
  rw [hve]
  rw [isInfinite_iff] at hw
  cases w with
  | none => simp [compare]
  | some m =>
    rw [show m = [] from hw]
    exact compare_nil_right ext hvn

theorem undefined_iff {x y : Item} (hxy : x ≠ y) : (¬ Below x y ∧ ¬ Below y x) ↔ x = 0 ∨ y = 0 := by
  unfold Below
  constructor
  · rintro ⟨h1, h2⟩
    by_contra h
    rw [not_or] at h
    obtain ⟨hx0, hy0⟩ := h
    have hx : 0 < x := by bv_omega
    have hy : 0 < y := by bv_omega
    have hle : ¬ x < y := fun h => h1 ⟨hx, h⟩
    have hge : ¬ y < x := fun h => h2 ⟨hy, h⟩
    bv_omega
  · rintro (rfl | rfl)
    · exact ⟨fun h => absurd h.1 (BitVec.lt_irrefl 0), not_below_zero y⟩
    · exact ⟨not_below_zero x, fun h => absurd h.1 (BitVec.lt_irrefl 0)⟩

theorem compare_undefined_iff {v w : IndexVector} {x y : Item} (h : FirstDiffer v w x y) :
    compare false v w = .undefined ↔ x = 0 ∨ y = 0 := by
  obtain ⟨hv, hw⟩ := h.finite
  obtain ⟨p, s, t, hvi, hwi, hxy⟩ := h
  rw [compare_finite false hv hw, hvi, hwi, order_append p s t hxy, ← undefined_iff hxy]
  by_cases h1 : Below x y
  · simp [h1]
  · by_cases h2 : Below y x
    · simp [h1, h2]
    · simp [h1, h2]

/-- The order of two vectors is as expected exactly for the comparable ones. -/
theorem compare_laws_iff (v w : IndexVector) : CompareLaws v w ↔ Comparable v w := by
  constructor
  · intro h
    refine ⟨?_, ?_⟩
    · intro hv hw
      have heq := compare_equal_iff.1 (h.equal.2 (Or.inr ⟨hv, hw⟩))
      rw [heq]
    · intro x y hd hle
      exact (compare_undefined_iff hd).1 (h.undefined x y hd hle)
  · rintro ⟨hinf, hlab⟩
    refine ⟨?_, compare_greater_iff.symm, compare_greater_iff, fun u => compare_trans, compare_infinite false,
      ?_, fun x y hd hle => (compare_undefined_iff hd).2 (hlab x y hd hle)⟩
    · rw [compare_equal_iff]
      constructor
      · rintro rfl
        exact Or.inl rfl
      · intro h
        have hi : v.items = w.items := by
          rcases h with h | ⟨hv, hw⟩
          · exact h
          · rw [isInfinite_iff.1 hv, isInfinite_iff.1 hw]
        by_cases hv : v.isInfinite = true
        · have hw : w.isInfinite = true := by
            rw [isInfinite_iff] at hv ⊢
            rw [← hi, hv]
          have hn := hinf hv hw
          cases v with
          | none => exact (hn.1 rfl).symm
          | some l =>
            cases w with
            | none => exact absurd (hn.2 rfl) (by simp)
            | some m => exact congrArg some hi
        · have hw : ¬ w.isInfinite = true := by
            rw [isInfinite_iff] at hv ⊢
            rwa [← hi]
          rw [(eq_some_of_finite hv).1, (eq_some_of_finite hw).1, hi]
    · intro hv hp hne
      have hw : ¬ w.isInfinite = true := by
        rw [isInfinite_iff] at hv ⊢
        intro hw
        rw [hw] at hp
        exact hv (prefix_nil.1 hp)
      rw [compare_finite false hv hw, order_less_iff]
      obtain ⟨t, ht⟩ := hp
      cases t with
      | nil => exact absurd (by simpa using ht) hne
      | cons y t =>
        rw [← ht]
        nth_rewrite 1 [← append_nil v.items]
        exact List.Lex.append_left Below .nil v.items

/-- Two labels compare, and the two infinite vectors differ. -/
theorem labels_compare :
    ¬ CompareLaws (some [1, -3]) (some [1, -2]) ∧ ¬ CompareLaws none (some []) := by
  constructor
  · intro h
    exact absurd (h.undefined (-3) (-2) ⟨[1], [], [], rfl, rfl, by decide⟩ (Or.inl (by decide))) (by decide)
  · intro h
    exact absurd (h.equal.2 (Or.inl rfl)) (by decide)

end IndexVector

end SNet.Svpgw
