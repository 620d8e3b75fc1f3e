import SNetRts.Svpgw.Idxvec

/-!
# The infimum of index vectors

`calc_infimum` of `svpgw/src/gw/idxvec.utc`. Its loop takes the smaller of two items as long as both are
positive, also behind the first difference; where one of two different items is zero it stops. The
placeholders of the extended form are never pushed: two items that are not positive are both zero, and
equal.

A copy shares the data of its source, which is the same vector here. A text that is pushed is its items.
-/

namespace SNet.Svpgw

namespace IndexVector

/-- `SNetIdxVecPushArray`, and `SNetIdxVecPushStr` of the same items -/
def push (v : IndexVector) (arr : List Item) : IndexVector := some (v.items ++ arr)

/-- `SNetIdxVecGetItemValue`; `none` where the assertion fails, as below. -/
def getItemValue (v : IndexVector) (idx : Nat) : Option Item := v.items[idx]?

/-- `SNetIdxVecIncrItemValue` -/
def incrItemValue (v : IndexVector) (idx : Nat) (val : Item) : Option IndexVector :=
  (v.items[idx]?).map fun item => some (v.items.set idx (item + val))

/-- The loop of `calc_infimum`; `none` for an access through `NULL`. -/
def infimumLoop (ext : Bool) : List Item → List Item → IndexVector → Option IndexVector
  | it1 :: l1, it2 :: l2, infimum =>
    if 0 < it1 ∧ 0 < it2 then infimumLoop ext l1 l2 (push infimum [if it1 < it2 then it1 else it2])
    else if it1 = it2 then infimumLoop ext l1 l2 (push infimum [it1])
    else if ext = false ∨ 0 < it1 ∨ 0 < it2 then some infimum
    else
      match infimum with
      | none => none
      | some l => infimumLoop ext l1 l2 (push infimum (if l.length > 0 then [0] else [1, 0]))
  | _, _, infimum => some infimum

/-- `calc_infimum`; `none` for an access through `NULL`. -/
def calcInfimum (ext : Bool) (v1 v2 : IndexVector) : Option IndexVector :=
  if v1.isInfinite then some v2
  else if v2.isInfinite then some v1
  else
    match infimumLoop ext v1.items v2.items none with
    | none => none
    | some none => none
    | some (some l) => if l.length = 0 then some (push (some l) [1]) else some (some l)

/-! ## What the loop collects -/

def meet : List Item → List Item → List Item
  | x :: l, y :: m =>
    if 0 < x ∧ 0 < y then (if x < y then x else y) :: meet l m else if x = y then x :: meet l m else []
  | _, _ => []

theorem infimumLoop_some (ext : Bool) (l m : List Item) (v : IndexVector) (hv : v ≠ none) :
    infimumLoop ext l m v = some (push v (meet l m)) := by
  obtain ⟨acc, rfl⟩ := Option.ne_none_iff_exists'.1 hv
  induction l generalizing m acc with
  | nil => simp [infimumLoop, meet, push, items]
  | cons x l ih =>
    cases m with
    | nil => simp [infimumLoop, meet, push, items]
    | cons y m =>
      have hpush : ∀ z : Item, push (some acc) [z] = some (acc ++ [z]) := fun z => rfl
      unfold infimumLoop meet
      by_cases hpos : 0 < x ∧ 0 < y
      · rw [if_pos hpos, if_pos hpos, hpush, ih _ _ (by simp)]
        simp [push, items]
      · rw [if_neg hpos, if_neg hpos]
        by_cases hxy : x = y
        · rw [if_pos hxy, if_pos hxy, hpush, ih _ _ (by simp)]
          simp [push, items]
        · have hstop : ext = false ∨ 0 < x ∨ 0 < y := by
            right
            by_contra h
            apply hxy
            bv_omega
          rw [if_neg hxy, if_neg hxy, if_pos hstop]
          simp [push, items]

theorem infimumLoop_none (ext : Bool) (l m : List Item) :
    infimumLoop ext l m none = some (if meet l m = [] then none else some (meet l m)) := by
  cases l with
  | nil => simp [infimumLoop, meet]
  | cons x l =>
    cases m with
    | nil => simp [infimumLoop, meet]
    | cons y m =>
      unfold infimumLoop meet
      by_cases hpos : 0 < x ∧ 0 < y
      · rw [if_pos hpos, if_pos hpos, infimumLoop_some ext l m _ (by simp [push])]
        simp [push, items]
      · rw [if_neg hpos, if_neg hpos]
        by_cases hxy : x = y
        · rw [if_pos hxy, if_pos hxy, infimumLoop_some ext l m _ (by simp [push])]
          simp [push, items]
        · have hstop : ext = false ∨ 0 < x ∨ 0 < y := by
            right
            by_contra h
            apply hxy
            bv_omega
          rw [if_neg hxy, if_neg hxy, if_pos hstop]
          simp

theorem calcInfimum_finite (ext : Bool) {v w : IndexVector} (hv : ¬ v.isInfinite = true)
    (hw : ¬ w.isInfinite = true) :
    calcInfimum ext v w = if meet v.items w.items = [] then none else some (some (meet v.items w.items)) := by
  unfold calcInfimum
  rw [if_neg hv, if_neg hw, infimumLoop_none]
  by_cases h : meet v.items w.items = []
  · simp [h]
  · simp [h]

theorem meet_comm (l m : List Item) : meet l m = meet m l := by
  induction l generalizing m with
  | nil => cases m <;> simp [meet]
  | cons x l ih =>
    cases m with
    | nil => simp [meet]
    | cons y m =>
      unfold meet
      rw [ih m]
      have hmin : (if x < y then x else y) = if y < x then y else x := by
        split_ifs <;> bv_omega
      by_cases hpos : 0 < x ∧ 0 < y
      · rw [if_pos hpos, if_pos hpos.symm, hmin]
      · have hpos' : ¬ (0 < y ∧ 0 < x) := fun h => hpos h.symm
        rw [if_neg hpos, if_neg hpos']
        by_cases hxy : x = y
        · rw [if_pos hxy, if_pos hxy.symm, hxy]
        · rw [if_neg hxy, if_neg fun h => hxy h.symm]

theorem order_meet (ext : Bool) (l m : List Item) :
    order ext (meet l m) l = .less ∨ order ext (meet l m) l = .equal := by
  induction l generalizing m with
  | nil => simp [meet, order, compareItems]
  | cons x l ih =>
    cases m with
    | nil => simp [meet, order, compareItems]
    | cons y m =>
      unfold meet
      by_cases hpos : 0 < x ∧ 0 < y
      · rw [if_pos hpos, order_cons]
        by_cases hxy : x < y
        · have hx : ¬ Below x x := fun h => h.ne rfl
          simp [hxy, hx, ih m]
        · rw [if_neg hxy]
          by_cases hb : Below y x
          · simp [hb]
          · have he : y = x := by
              have hyx : ¬ y < x := fun h => hb ⟨hpos.2, h⟩
              bv_omega
            subst he
            simp [hb, ih m]
      · rw [if_neg hpos]
        by_cases hxy : x = y
        · have hx : ¬ Below x x := fun h => h.ne rfl
          rw [if_pos hxy, order_cons]
          simp only [hx, if_false, ne_eq, not_true_eq_false]
          split <;> exact ih m
        · rw [if_neg hxy]
          simp [order, compareItems]

/-- The items of `l` are those of `m` or below them, and `m` is no shorter. -/
def Itemwise : List Item → List Item → Prop
  | [], _ => True
  | _ :: _, [] => False
  | x :: l, y :: m => (x = y ∨ Below x y) ∧ Itemwise l m

theorem meet_eq_left_iff {l m : List Item} : meet l m = l ↔ Itemwise l m := by
  induction l generalizing m with
  | nil => simp [meet, Itemwise]
  | cons x l ih =>
    cases m with
    | nil => simp [meet, Itemwise]
    | cons y m =>
      unfold meet Itemwise Below
      by_cases hpos : 0 < x ∧ 0 < y
      · rw [if_pos hpos, List.cons.injEq, ih]
        apply and_congr_left'
        by_cases h : x < y
        · rw [if_pos h]
          exact iff_of_true rfl (Or.inr ⟨hpos.1, h⟩)
        · rw [if_neg h]
          constructor
          · intro he
            exact Or.inl he.symm
          · rintro (he | hb)
            · exact he.symm
            · exact absurd hb.2 h
      · rw [if_neg hpos]
        have hno : ¬ (0 < x ∧ x < y) := fun h => hpos ⟨h.1, BitVec.lt_trans h.1 h.2⟩
        by_cases hxy : x = y
        · rw [if_pos hxy, List.cons.injEq, ih]
          simp [hxy]
        · rw [if_neg hxy]
          refine iff_of_false (by simp) ?_
          rintro ⟨he | hb, -⟩
          · exact hxy he
          · exact hno hb

theorem lex_meet {l m w : List Item} (hlm : order false l m = .undefined)
    (hl : List.Lex Below w l ∨ w = l) (hm : List.Lex Below w m ∨ w = m) :
    List.Lex Below w (meet l m) ∨ w = meet l m := by
  induction l generalizing m w with
  | nil => cases m <;> simp [order, compareItems] at hlm
  | cons x l ih =>
    cases m with
    | nil => simp [order, compareItems] at hlm
    | cons y m =>
      cases w with
      | nil =>
        by_cases h : meet (x :: l) (y :: m) = []
        · exact Or.inr h.symm
        · obtain ⟨z, n, hz⟩ := List.exists_cons_of_ne_nil h
          rw [hz]
          exact Or.inl .nil
      | cons z w =>
        have hhead : ∀ {u : Item} {n : List Item}, List.Lex Below (z :: w) (u :: n) ∨ z :: w = u :: n →
            Below z u ∨ z = u ∧ (List.Lex Below w n ∨ w = n) := by
          rintro u n (h | h)
          · cases h with
            | cons h => exact Or.inr ⟨rfl, Or.inl h⟩
            | rel h => exact Or.inl h
          · injection h with h1 h2
            exact Or.inr ⟨h1, Or.inr h2⟩
        by_cases hxy : x = y
        · subst hxy
          rw [order_cons_self] at hlm
          have hmeet : meet (x :: l) (x :: m) = x :: meet l m := by
            simp [meet]
          rw [hmeet]
          rcases hhead hl with hz | ⟨rfl, hwl⟩
          · exact Or.inl (.rel hz)
          · rcases hhead hm with hz | ⟨-, hwm⟩
            · exact absurd rfl hz.ne
            · rcases ih hlm hwl hwm with h | h
              · exact Or.inl (.cons h)
              · exact Or.inr (by rw [h])
        · -- one of the items is zero, and no item is below both
          have hund : ¬ Below x y ∧ ¬ Below y x := by
            rw [order_cons] at hlm
            constructor <;> intro h <;> simp [h] at hlm
            split at hlm <;> cases hlm
          exfalso
          rcases (undefined_iff hxy).1 hund with rfl | rfl
          · rcases hhead hl with hz | ⟨rfl, -⟩
            · exact not_below_zero z hz
            · rcases hhead hm with hz | ⟨h, -⟩
              · exact absurd hz.1 (BitVec.lt_irrefl 0)
              · exact hxy h
          · rcases hhead hm with hz | ⟨rfl, -⟩
            · exact not_below_zero z hz
            · rcases hhead hl with hz | ⟨h, -⟩
              · exact absurd hz.1 (BitVec.lt_irrefl 0)
              · exact hxy h.symm

/-! ## The infimum -/

/-- `LESS` or `EQUAL`. -/
def NoGreater (ext : Bool) (v w : IndexVector) : Prop :=
  compare ext v w = .less ∨ compare ext v w = .equal

theorem noGreater_finite {t v : IndexVector} (hv : ¬ v.isInfinite = true) :
    NoGreater false t v ↔
      ¬ t.isInfinite = true ∧ (List.Lex Below t.items v.items ∨ t.items = v.items) := by
  unfold NoGreater
  by_cases ht : t.isInfinite = true
  · have hg : compare false t v = .greater := compare_greater_iff.2 (compare_infinite false hv ht)
    simp [hg, ht]
  · rw [compare_finite false ht hv, order_less_iff, order_equal_iff]
    simp [ht]

/-- What `SNetIdxVecCalcInfimum` of two vectors is to be. -/
structure IsInfimum (v w u : IndexVector) : Prop where
  left : NoGreater false u v
  right : NoGreater false u w
  greatest : ∀ t, NoGreater false t v → NoGreater false t w → NoGreater false t u
  smallerLeft : NoGreater false v w → compare false u v = .equal
  smallerRight : NoGreater false w v → compare false u w = .equal
  comm : calcInfimum false w v = some u
  neutralLeft : v.isInfinite = true → u = w
  neutralRight : w.isInfinite = true → u = v

/-- Both forms of the infimum are bounds, and the plain one is the infimum. -/
def InfimumLaws (v w : IndexVector) : Prop :=
  (∃ u, calcInfimum false v w = some u ∧ IsInfimum v w u) ∧
    ∃ u, calcInfimum true v w = some u ∧ NoGreater true u v ∧ NoGreater true u w

def FirstPositive (v : IndexVector) : Prop := ∀ x ∈ v.items.head?, 0 < x.toInt

/-- The vectors of which the loop collects the infimum: a smaller vector is smaller item by item, and no
longer than the other. -/
structure InfimumFair (v w : IndexVector) : Prop where
  infinite : v.isInfinite = true → w.isInfinite = true → (v = none ↔ w = none)
  left : ¬ v.isInfinite = true → ¬ w.isInfinite = true → compare false v w = .less →
    Itemwise v.items w.items
  right : ¬ v.isInfinite = true → ¬ w.isInfinite = true → compare false w v = .less →
    Itemwise w.items v.items

def FirstClash (v w : IndexVector) : Prop :=
  ∃ x y s t, v.items = x :: s ∧ w.items = y :: t ∧ x ≠ y ∧ (x = 0 ∨ y = 0)

theorem meet_eq_nil_iff {v w : IndexVector} (hv : ¬ v.isInfinite = true) (hw : ¬ w.isInfinite = true) :
    meet v.items w.items = [] ↔ FirstClash v w := by
  obtain ⟨x, s, hx⟩ := List.exists_cons_of_ne_nil (eq_some_of_finite hv).2
  obtain ⟨y, t, hy⟩ := List.exists_cons_of_ne_nil (eq_some_of_finite hw).2
  have hclash : FirstClash v w ↔ x ≠ y ∧ (x = 0 ∨ y = 0) := by
    unfold FirstClash
    rw [hx, hy]
    constructor
    · rintro ⟨x', y', s', t', h1, h2, h⟩
      injection h1 with h1
      injection h2 with h2
      rw [h1, h2]
      exact h
    · intro h
      exact ⟨x, y, s, t, rfl, rfl, h⟩
  rw [hclash, hx, hy]
  unfold meet
  by_cases hpos : 0 < x ∧ 0 < y
  · rw [if_pos hpos]
    refine iff_of_false (by simp) ?_
    rintro ⟨-, rfl | rfl⟩
    · exact absurd hpos.1 (BitVec.lt_irrefl 0)
    · exact absurd hpos.2 (BitVec.lt_irrefl 0)
  · rw [if_neg hpos]
    have hzero : x = 0 ∨ y = 0 := by
      by_contra h
      rw [not_or] at h
      obtain ⟨hx0, hy0⟩ := h
      apply hpos
      constructor <;> bv_omega
    by_cases hxy : x = y
    · simp [hxy]
    · simp only [if_neg hxy, true_iff]
      exact ⟨hxy, hzero⟩

theorem not_firstClash {v w : IndexVector} (hv : FirstPositive v) (hw : FirstPositive w) :
    ¬ FirstClash v w := by
  rintro ⟨x, y, s, t, hx, hy, -, rfl | rfl⟩
  · exact absurd (hv 0 (by rw [hx]; rfl)) (by decide)
  · exact absurd (hw 0 (by rw [hy]; rfl)) (by decide)

theorem calcInfimum_none_iff (ext : Bool) (v w : IndexVector) :
    calcInfimum ext v w = none ↔ FirstClash v w := by
  by_cases hv : v.isInfinite = true
  · have hno : ¬ FirstClash v w := by
      rintro ⟨x, y, s, t, hx, -⟩
      rw [isInfinite_iff, hx] at hv
      cases hv
    simp [calcInfimum, hv, hno]
  · by_cases hw : w.isInfinite = true
    · have hno : ¬ FirstClash v w := by
        rintro ⟨x, y, s, t, -, hy, -⟩
        rw [isInfinite_iff, hy] at hw
        cases hw
      simp [calcInfimum, hv, hw, hno]
    · rw [calcInfimum_finite ext hv hw, ← meet_eq_nil_iff hv hw]
      simp

theorem itemwise_refl (l : List Item) : Itemwise l l := by
  induction l with
  | nil => trivial
  | cons x l ih => exact ⟨Or.inl rfl, ih⟩

theorem compare_self (v : IndexVector) : compare false v v = .equal := compare_equal_iff.2 rfl

theorem infimumLaws_infinite {v w : IndexVector} (hv : v.isInfinite = true) (hw : w.isInfinite = true) :
    InfimumLaws v w ↔ (v = none ↔ w = none) := by
  have hvw : calcInfimum false v w = some w := by simp [calcInfimum, hv]
  have hwv : calcInfimum false w v = some v := by simp [calcInfimum, hw]
  have hx : calcInfimum true v w = some w := by simp [calcInfimum, hv]
  constructor
  · rintro ⟨⟨u, hu, h⟩, -⟩
    rw [h.neutralLeft hv] at h
    have := h.comm
    rw [hwv, Option.some.injEq] at this
    rw [this]
  · intro h
    have he : v = w := by
      rw [isInfinite_iff] at hv hw
      cases v with
      | none => exact (h.1 rfl).symm
      | some l =>
        cases w with
        | none => exact absurd (h.2 rfl) (by simp)
        | some m =>
          have hlm : l = m := hv.trans hw.symm
          rw [hlm]
    subst he
    have hself := compare_self v
    have hselfx : compare true v v = .equal := by
      rw [isInfinite_iff] at hv
      cases v with
      | none => rfl
      | some l =>
        rw [show l = [] from hv]
        rfl
    refine ⟨⟨v, hvw, ?_⟩, v, hx, Or.inr hselfx, Or.inr hselfx⟩
    exact ⟨Or.inr hself, Or.inr hself, fun t ht _ => ht, fun _ => hself, fun _ => hself, hvw, fun _ => rfl,
      fun _ => rfl⟩

theorem infimumLaws_neutral {v w : IndexVector} (hv : ¬ v.isInfinite = true) (hw : w.isInfinite = true) :
    InfimumLaws v w ∧ InfimumLaws w v := by
  have hvw : ∀ ext, calcInfimum ext v w = some v := by
    intro ext
    simp [calcInfimum, hv, hw]
  have hwv : ∀ ext, calcInfimum ext w v = some v := by
    intro ext
    simp [calcInfimum, hw]
  have hself := compare_self v
  have hless : ∀ ext, NoGreater ext v w := fun ext => Or.inl (compare_infinite ext hv hw)
  have hselfx : NoGreater true v v := by
    have h := order_meet true v.items v.items
    rw [meet_eq_left_iff.2 (itemwise_refl _)] at h
    unfold NoGreater
    rwa [compare_finite true hv hv]
  have hgreater : ¬ NoGreater false w v := by
    rintro (h | h)
    · have := compare_trans h (compare_infinite false hv hw)
      rw [compare_self] at this
      cases this
    · rw [compare_equal_iff] at h
      exact hv (h ▸ hw)
  constructor
  · refine ⟨⟨v, hvw false, ?_⟩, v, hvw true, hselfx, hless true⟩
    exact ⟨Or.inr hself, hless false, fun t ht _ => ht, fun _ => hself, fun h => absurd h hgreater,
      hwv false, fun h => absurd h hv, fun _ => rfl⟩
  · refine ⟨⟨v, hwv false, ?_⟩, v, hwv true, hless true, hselfx⟩
    exact ⟨hless false, Or.inr hself, fun t _ ht => ht, fun h => absurd h hgreater, fun _ => hself,
      hvw false, fun _ => rfl, fun h => absurd h hv⟩

theorem compare_meet_left_iff {v w : IndexVector} (hv : ¬ v.isInfinite = true)
    : compare false (some (meet v.items w.items)) v = .equal ↔ Itemwise v.items w.items := by
  rw [compare_equal_iff, ← meet_eq_left_iff, (eq_some_of_finite hv).1, Option.some.injEq]
  rfl

theorem infimumLaws_finite {v w : IndexVector} (hv : ¬ v.isInfinite = true) (hw : ¬ w.isInfinite = true)
    (hclash : ¬ FirstClash v w) :
    InfimumLaws v w ↔
      (compare false v w = .less → Itemwise v.items w.items) ∧
      (compare false w v = .less → Itemwise w.items v.items) := by
  have hne : meet v.items w.items ≠ [] := mt (meet_eq_nil_iff hv hw).1 hclash
  have hinf : ∀ ext, calcInfimum ext v w = some (some (meet v.items w.items)) := by
    intro ext
    rw [calcInfimum_finite ext hv hw, if_neg hne]
  have hinf' : calcInfimum false w v = some (some (meet v.items w.items)) := by
    rw [calcInfimum_finite false hw hv, meet_comm, if_neg hne]
  have hfin : ¬ isInfinite (some (meet v.items w.items)) = true := by
    rw [isInfinite_iff]
    exact hne
  have hbound : ∀ ext, NoGreater ext (some (meet v.items w.items)) v ∧
      NoGreater ext (some (meet v.items w.items)) w := by
    intro ext
    unfold NoGreater
    rw [compare_finite ext hfin hv, compare_finite ext hfin hw]
    refine ⟨order_meet ext v.items w.items, ?_⟩
    have h := order_meet ext w.items v.items
    rwa [meet_comm] at h
  have hleft := compare_meet_left_iff (w := w) hv
  have hright := compare_meet_left_iff (w := v) hw
  rw [meet_comm] at hright
  constructor
  · rintro ⟨⟨u, hu, h⟩, -⟩
    rw [hinf, Option.some.injEq] at hu
    subst hu
    exact ⟨fun hl => hleft.1 (h.smallerLeft (Or.inl hl)), fun hl => hright.1 (h.smallerRight (Or.inl hl))⟩
  · rintro ⟨hl, hr⟩
    have heq : compare false v w = .equal →
        Itemwise v.items w.items ∧ Itemwise w.items v.items := by
      intro h
      rw [compare_equal_iff] at h
      rw [h]
      exact ⟨itemwise_refl _, itemwise_refl _⟩
    have hsl : NoGreater false v w → compare false (some (meet v.items w.items)) v = .equal := by
      rintro (h | h)
      · exact hleft.2 (hl h)
      · exact hleft.2 (heq h).1
    have hsr : NoGreater false w v → compare false (some (meet v.items w.items)) w = .equal := by
      rintro (h | h)
      · exact hright.2 (hr h)
      · rw [compare_equal_iff] at h
        exact hright.2 (heq (compare_equal_iff.2 h.symm)).2
    refine ⟨⟨_, hinf false, (hbound false).1, (hbound false).2, ?_, hsl, hsr, hinf', fun h => absurd h hv,
      fun h => absurd h hw⟩, _, hinf true, hbound true⟩
    intro t htv htw
    cases hc : compare false v w with
    | less =>
      rw [compare_equal_iff.1 (hsl (Or.inl hc))]
      exact htv
    | equal =>
      rw [compare_equal_iff.1 (hsl (Or.inr hc))]
      exact htv
    | greater =>
      rw [compare_equal_iff.1 (hsr (Or.inl (compare_greater_iff.1 hc)))]
      exact htw
    | undefined =>
      rw [noGreater_finite hv] at htv
      rw [noGreater_finite hw] at htw
      rw [compare_finite false hv hw] at hc
      exact (noGreater_finite hfin).2 ⟨htv.1, lex_meet hc htv.2 htw.2⟩

/-- For vectors with positive first items the infimum is right exactly where the smaller of two comparable
vectors is smaller item by item and infinity has one representation; and `NULL` is read exactly behind two
different first items of which one is zero. -/
theorem infimum_laws_iff (v w : IndexVector) :
    ((FirstPositive v → FirstPositive w → InfimumLaws v w) ↔
      (FirstPositive v → FirstPositive w → InfimumFair v w)) ∧
    ((∀ ext, calcInfimum ext v w ≠ none) ↔ ¬ FirstClash v w) := by
  constructor
  · apply forall_congr'
    intro hpv
    apply forall_congr'
    intro hpw
    by_cases hv : v.isInfinite = true
    · by_cases hw : w.isInfinite = true
      · rw [infimumLaws_infinite hv hw]
        exact ⟨fun h => ⟨fun _ _ => h, fun h => absurd hv h, fun h => absurd hv h⟩, fun h => h.infinite hv hw⟩
      · exact iff_of_true (infimumLaws_neutral hw hv).2
          ⟨fun _ h => absurd h hw, fun h => absurd hv h, fun h => absurd hv h⟩
    · by_cases hw : w.isInfinite = true
      · exact iff_of_true (infimumLaws_neutral hv hw).1
          ⟨fun h => absurd h hv, fun _ h => absurd hw h, fun _ h => absurd hw h⟩
      · rw [infimumLaws_finite hv hw (not_firstClash hpv hpw)]
        exact ⟨fun h => ⟨fun h => absurd h hv, fun _ _ => h.1, fun _ _ => h.2⟩,
          fun h => ⟨h.left hv hw, h.right hv hw⟩⟩
  · simp only [ne_eq, calcInfimum_none_iff, forall_const]

/-- `1.5` is below `2.3`, but their infimum is `1.3`; and of `1` and `0` there is none to be read. -/
theorem infimum_below_smaller :
    ¬ (FirstPositive (some [1, 5]) → FirstPositive (some [2, 3]) → InfimumLaws (some [1, 5]) (some [2, 3])) ∧
    calcInfimum false (some [1]) (some [0]) = none := by
  constructor
  · intro h
    have hpos : ∀ (x : Item) (l : List Item), 0 < x.toInt → FirstPositive (some (x :: l)) := by
      intro x l hx y hy
      obtain rfl := Option.some.inj hy
      exact hx
    obtain ⟨⟨u, hu, hl⟩, -⟩ := h (hpos 1 [5] (by decide)) (hpos 2 [3] (by decide))
    cases hu
    exact absurd (hl.smallerLeft (Or.inl (by decide))) (by decide)
  · decide

end IndexVector

end SNet.Svpgw
