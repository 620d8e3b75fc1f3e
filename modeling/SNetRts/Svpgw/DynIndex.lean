import SNetRts.Lib.Behind
import SNetRts.Svpgw.Graph
import Mathlib

/-!
# Which records have the right index

The handlers decide by the lengths of the index vectors alone what of a dynamic index is to change. This
is right for the first box, synchrocell or star that a record comes to in an iteration of a star. For a
later one the item for its place in the operand is already there, and stays as it is. So the indices of a
record are right exactly as long as it does not come late in this sense, and does not come to a split,
whose handler asserts that the split has no operand.
-/

namespace SNet.Svpgw

open Lib List

/-- What a record must not do: come to a box or synchrocell late, or to a star late if its dynamic index
is already as long as that of the star, or to a split. -/
def InTime (s : State) : Act → Prop
  | .go =>
    match s.gnode with
    | .box .. | .synccell .. => s.late = false
    | _ => True
  | .again =>
    match s.gnode with
    | .star idx _ _ => s.late = false ∨ ∀ dynIdx, s.cnode.dynIdx = some dynIdx → dynIdx.length < idx.length
    | _ => True
  | .tag _ =>
    match s.gnode with
    | .split .. => False
    | _ => True
  | _ => True

/-! ## The indices of the nodes -/

/-- What follows the index of a combinator in those of the nodes of its operand. -/
def Frame.item : Frame → Int
  | .branch i => -((i : Int) + 1)
  | .star .. | .split _ => 0

def Frame.dynItem : Frame → Int
  | .branch i => -((i : Int) + 1)
  | .star _ iteration _ => iteration
  | .split tag => -(tag + 1)

def base : List Level → IdxVec
  | [] => []
  | l :: _ => l.idx ++ [l.frame.item]

def dynBase : List Level → IdxVec
  | [] => []
  | l :: levels => dynamicIdx levels l.idx ++ [l.frame.dynItem]

def starBase : List Level → IdxVec
  | [] => []
  | l :: levels => if l.isStar then dynBase (l :: levels) else starBase levels

/-- The levels are combinators of one graph, which has been enumerated. -/
def Nested : List Level → Prop
  | [] => True
  | l :: levels =>
    (∃ p next, l.idx = base levels ++ [p] ∧ l.next = enumerateGraphSegment (base levels ++ [p]) next) ∧
      (match l.frame with
        | .branch _ => True
        | .star groot _ _ => ∃ g, groot = enumerateGraphSegment (l.idx ++ [0, 0]) g
        | .split _ => False) ∧
      Nested levels

theorem modify_append_cons (f : Int → Int) (v w : IdxVec) (p : Int) :
    (v ++ p :: w).modify v.length f = v ++ f p :: w := by
  induction v with
  | nil => rfl
  | cons x v ih => rw [cons_append, length_cons, modify_succ_cons, ih, cons_append]

@[simp] theorem incrLast_append (v : IdxVec) (p : Int) : incrLast (v ++ [p]) = v ++ [p + 1] := by
  rw [incrLast, length_append, length_singleton, Nat.add_sub_cancel, modify_append_cons]

theorem set_append_cons (v w : IdxVec) (p q : Int) : (v ++ p :: w).set v.length q = v ++ q :: w := by
  induction v with
  | nil => rfl
  | cons x v ih => rw [cons_append, length_cons, set_cons_succ, ih, cons_append]

section Bases

variable {l : Level} {levels : List Level}

theorem dynamicIdx_cons (l : Level) (levels : List Level) (idx : IdxVec) :
    dynamicIdx (l :: levels) idx =
      match l.frame with
      | .branch _ => dynamicIdx levels idx
      | .star _ iteration _ => (dynamicIdx levels idx).set l.idx.length iteration
      | .split tag => (dynamicIdx levels idx).set l.idx.length (-(tag + 1)) := by
  cases h : l.frame <;> simp [dynamicIdx, h]

theorem Nested.tail (h : Nested (l :: levels)) : Nested levels := h.2.2

theorem length_dynamicIdx (levels : List Level) (idx : IdxVec) :
    (dynamicIdx levels idx).length = idx.length := by
  induction levels with
  | nil => rfl
  | cons l levels ih =>
    rw [dynamicIdx_cons]
    cases l.frame with
    | branch i => exact ih
    | star groot iteration spoilt => rw [length_set, ih]
    | split tag => rw [length_set, ih]

theorem length_dynBase (levels : List Level) : (dynBase levels).length = (base levels).length := by
  cases levels with
  | nil => rfl
  | cons l levels => simp [dynBase, base, length_dynamicIdx]

theorem dynamicIdx_base (h : Nested levels) (v : IdxVec) :
    dynamicIdx levels (base levels ++ v) = dynBase levels ++ v := by
  induction levels generalizing v with
  | nil => rfl
  | cons l levels ih =>
    obtain ⟨p, -, hidx, -⟩ := h.1
    have hrest (w : IdxVec) : dynamicIdx levels (l.idx ++ w) = dynamicIdx levels l.idx ++ w := by
      rw [hidx, append_assoc, ih h.tail, ih h.tail, append_assoc]
    have hset (q r : Int) : ((dynamicIdx levels l.idx) ++ q :: v).set l.idx.length r =
        dynamicIdx levels l.idx ++ r :: v := by
      rw [← length_dynamicIdx levels l.idx]
      exact set_append_cons _ v q r
    rw [dynamicIdx_cons, base, dynBase, append_assoc, append_assoc, hrest]
    cases hframe : l.frame with
    | branch i => rfl
    | star groot iteration spoilt => exact hset 0 iteration
    | split tag => exact hset 0 (-(tag + 1))

theorem Nested.dynBase_eq (h : Nested (l :: levels)) :
    ∃ p, l.idx = base levels ++ [p] ∧ dynBase (l :: levels) = dynBase levels ++ [p, l.frame.dynItem] := by
  obtain ⟨p, -, hidx, -⟩ := h.1
  refine ⟨p, hidx, ?_⟩
  rw [dynBase, hidx, dynamicIdx_base h.tail, append_assoc]
  rfl

theorem Nested.starBase_append (h : Nested levels) :
    starBase levels ++ (base levels).drop (starBase levels).length = dynBase levels := by
  induction levels with
  | nil => rfl
  | cons l levels ih =>
    rw [starBase]
    split_ifs with hstar
    · rw [length_dynBase, drop_length, append_nil]
    · obtain ⟨p, hidx, hdyn⟩ := h.dynBase_eq
      have hitem : l.frame.item = l.frame.dynItem := by
        have hsplit := h.2.1
        rw [Level.isStar] at hstar
        cases hframe : l.frame with
        | branch i => rfl
        | star groot iteration spoilt => simp [hframe] at hstar
        | split tag => simp [hframe] at hsplit
      have hle : (starBase levels).length ≤ (base levels).length := by
        rw [← length_dynBase, ← ih h.tail, length_append]
        omega
      rw [hdyn, base, hidx, append_assoc, drop_append_of_le_length hle, ← append_assoc,
        ih h.tail, hitem]
      rfl

theorem Nested.length_starBase_le (h : Nested levels) :
    (starBase levels).length ≤ (base levels).length := by
  rw [← length_dynBase, ← h.starBase_append, length_append]
  omega

end Bases

/-! ## The dynamic index -/

section Handlers

variable {n : ConsNode} {idx v : IdxVec}

theorem moveToGnode_of_none (h : n.dynIdx = none) (idx : IdxVec) :
    n.moveToGnode idx = some { n with gnode := some idx } := by
  rw [ConsNode.moveToGnode, h]

theorem moveToGnode_of_lt (h : n.dynIdx = some v) (hlt : v.length < idx.length) :
    n.moveToGnode idx =
      some { n with gnode := some idx, dynIdx := some (v ++ idx.drop v.length) } := by
  rw [ConsNode.moveToGnode, h]
  dsimp only
  rw [if_neg (by omega), if_neg (by omega), IdxVec.push, if_pos hlt]
  rfl

theorem moveToGnode_of_behind (h : n.dynIdx = some v) {w : IdxVec} (hv : Behind v w)
    (hw : w.length = idx.length) :
    ∃ v', n.moveToGnode idx = some { n with gnode := some idx, dynIdx := some v' } ∧ Behind v' w := by
  rcases Nat.lt_trichotomy v.length idx.length with hlt | heq | hgt
  · exact ⟨_, moveToGnode_of_lt h hlt, hv.append_left _⟩
  · refine ⟨v, ?_, hv⟩
    rw [ConsNode.moveToGnode, h]
    dsimp only
    rw [if_pos heq.symm]
  · refine ⟨v.take idx.length, ?_, hv.take (Nat.le_of_eq hw)⟩
    rw [ConsNode.moveToGnode, h]
    dsimp only
    rw [if_neg (by omega), if_pos hgt, IdxVec.popRight, if_pos (Nat.sub_le ..),
      Nat.sub_sub_self (Nat.le_of_lt hgt)]
    rfl

theorem enterOperand_of_none (h : n.dynIdx = none) (hcnt : n.dynIdxCnt = 0) (idx : IdxVec) (val : Int) :
    n.enterOperand idx val = some { n with dynIdx := some (idx ++ [val]) } := by
  simp [ConsNode.enterOperand, ConsNode.addDynGIdx, ConsNode.isDynGIdxNew, h, hcnt]

theorem enterOperand_of_some (h : n.dynIdx = some v) (idx : IdxVec) (val : Int) :
    n.enterOperand idx val = if v.length < idx.length then
      some { n with dynIdx := some (v ++ idx.drop v.length ++ [val]), dynIdxCnt := n.dynIdxCnt + 1 }
    else none := by
  rw [ConsNode.enterOperand, ConsNode.addDynGIdx, h]
  have hnew : ({ n with dynIdx := some v, dynIdxCnt := n.dynIdxCnt + 1 } : ConsNode).isDynGIdxNew = false :=
    rfl
  dsimp only
  rw [hnew, if_neg Bool.false_ne_true, IdxVec.push]
  split_ifs with hlt <;> rfl

theorem walkHndStarMerge_of_some (h : n.dynIdx = some v) (hlt : idx.length < v.length) :
    n.walkHndStarMerge idx =
      some { n with dynIdx := some ((v.take (idx.length + 1)).modify idx.length (· + 1)) } := by
  have hlen : (v.take (idx.length + 1)).length = idx.length + 1 := by
    rw [length_take]
    omega
  have hincr : IdxVec.incrItemValue (v.take (idx.length + 1)) idx.length 1 =
      some ((v.take (idx.length + 1)).modify idx.length (· + 1)) := by
    rw [IdxVec.incrItemValue, if_pos (by omega)]
  rw [ConsNode.walkHndStarMerge, h]
  dsimp only
  rw [if_neg (by omega), Nat.add_sub_cancel]
  split_ifs with hgt
  · rw [IdxVec.popRight, if_pos (Nat.sub_le ..), Nat.sub_sub_self (Nat.le_of_lt hgt), Option.bind_some, hincr]
    rfl
  · have htake : v.take (idx.length + 1) = v := take_of_length_le (by omega)
    rw [htake] at hincr ⊢
    rw [Option.bind_some, hincr]
    rfl

end Handlers

/-- What the dynamic index has kept of the stars around the record: the index of the star in its
iteration, or for a spoilt one an index behind. -/
def Entered (v : IdxVec) : List Level → Prop
  | [] => True
  | l :: levels =>
    (match l.frame with
      | .star _ _ false => v.take (l.idx.length + 1) = dynBase (l :: levels)
      | .star _ _ true => l.idx.length < v.length ∧ Behind v (dynamicIdx levels l.idx)
      | _ => True) ∧
    Entered v levels

/-- The dynamic index of a record that has come to the place `p` of a segment. -/
structure Tracks (n : ConsNode) (levels : List Level) (late : Bool) (p : Int) : Prop where
  outside : levels.any Level.isStar = false → n.dynIdx = none ∧ n.dynIdxCnt = 0 ∧ late = false
  inside : levels.any Level.isStar = true → ∃ v, n.dynIdx = some v ∧
    n.dynIdxCnt + 1 = levels.countP Level.isStar ∧ Entered v levels ∧
    if late then Behind v (dynBase levels ++ [p + 1]) else v = starBase levels

/-- Where a record is in the graph, and its dynamic index. -/
structure Inv (s : State) : Prop where
  ended : s.walking = false → s.gnode = .link
  walks : s.walking = true → Nested s.levels ∧ ∃ p g,
    s.gnode = enumerateGraphSegment (base s.levels ++ [p]) g ∧ Tracks s.cnode s.levels s.late p

section Tracks

variable {n : ConsNode} {l : Level} {levels : List Level} {late : Bool} {p : Int} {v v' : IdxVec}

theorem starBase_outside (h : levels.any Level.isStar = false) : starBase levels = [] := by
  induction levels with
  | nil => rfl
  | cons l levels ih =>
    rw [any_cons, Bool.or_eq_false_iff] at h
    rw [starBase, h.1, if_neg Bool.false_ne_true, ih h.2]

theorem Nested.dynBase_outside (hnested : Nested levels) (h : levels.any Level.isStar = false) :
    dynBase levels = base levels := by
  have happend := hnested.starBase_append
  rw [starBase_outside h] at happend
  exact happend.symm

theorem Entered.of_take (hnested : Nested levels) (h : Entered v levels)
    (htake : v'.take (starBase levels).length = v.take (starBase levels).length) :
    Entered v' levels := by
  induction levels with
  | nil => trivial
  | cons l levels ih =>
    obtain ⟨hl, hlevels⟩ := h
    obtain ⟨p, hidx, hdyn⟩ := hnested.dynBase_eq
    have hlen : l.idx.length = (base levels).length + 1 := by rw [hidx, length_append]; rfl
    have hle := hnested.tail.length_starBase_le
    cases hframe : l.frame with
    | branch i =>
      have hstar : l.isStar = false := by rw [Level.isStar, hframe]
      rw [starBase, hstar, if_neg Bool.false_ne_true] at htake
      exact ⟨by rw [hframe]; trivial, ih hnested.tail hlevels htake⟩
    | split tag =>
      have hsplit := hnested.2.1
      rw [hframe] at hsplit
      exact hsplit.elim
    | star groot iteration spoilt =>
      have hstar : l.isStar = true := by rw [Level.isStar, hframe]
      have hstarBase : (starBase (l :: levels)).length = l.idx.length + 1 := by
        rw [starBase, if_pos hstar, length_dynBase, base, length_append]
        rfl
      rw [hstarBase] at htake
      have houter : v'.take (starBase levels).length = v.take (starBase levels).length := by
        have hmin : (starBase levels).length = min (starBase levels).length (l.idx.length + 1) := by omega
        rw [hmin, ← take_take, htake, take_take]
      refine ⟨?_, ih hnested.tail hlevels houter⟩
      rw [hframe] at hl ⊢
      cases spoilt with
      | false => exact htake.trans hl
      | true =>
        obtain ⟨hlt, hbehind⟩ := hl
        refine ⟨?_, hbehind.of_take_eq (n := l.idx.length + 1) ?_ htake⟩
        · have hlength := congrArg List.length htake
          rw [length_take, length_take] at hlength
          omega
        · rw [length_dynamicIdx]
          omega

theorem Entered.length_le (hnested : Nested levels) (h : Entered v levels) :
    (starBase levels).length ≤ v.length := by
  induction levels with
  | nil => exact Nat.zero_le _
  | cons l levels ih =>
    obtain ⟨hl, hlevels⟩ := h
    rw [starBase]
    split_ifs with hstar
    · rw [length_dynBase, base, length_append, length_singleton]
      cases hframe : l.frame with
      | branch i | split tag => simp [Level.isStar, hframe] at hstar
      | star groot iteration spoilt =>
        rw [hframe] at hl
        cases spoilt with
        | false =>
          have hlength := congrArg List.length hl
          rw [length_take, length_dynBase, base, length_append, length_singleton] at hlength
          omega
        | true => exact hl.1
    · exact ih hnested.tail hlevels

theorem Tracks.not_late (h : Tracks n levels late p) (hout : levels.any Level.isStar = false) :
    late = false :=
  (h.outside hout).2.2

theorem Tracks.advance (h : Tracks n levels late p) : Tracks n levels late (p + 1) := by
  refine ⟨h.outside, fun hin => ?_⟩
  obtain ⟨v, hv, hcnt, hentered, hlate⟩ := h.inside hin
  refine ⟨v, hv, hcnt, hentered, ?_⟩
  cases late with
  | false => exact hlate
  | true => exact Behind.grow hlate (by omega) []

theorem Tracks.stop (hnested : Nested levels) (h : Tracks n levels false p) :
    ∃ n', n.moveToGnode (base levels ++ [p + 1]) = some n' ∧
      n'.gidx = some (dynBase levels ++ [p + 1]) ∧
      Tracks n' levels (levels.any Level.isStar) (p + 1) := by
  cases hany : levels.any Level.isStar with
  | false =>
    obtain ⟨hnone, hcnt, -⟩ := h.outside hany
    refine ⟨_, moveToGnode_of_none hnone _, ?_, ⟨fun _ => ⟨hnone, hcnt, rfl⟩, fun hin => ?_⟩⟩
    · simp [ConsNode.gidx, hnone, hnested.dynBase_outside hany]
    · rw [hany] at hin
      cases hin
  | true =>
    obtain ⟨v, hv, hcnt, hentered, hlate⟩ := h.inside hany
    rw [if_neg Bool.false_ne_true] at hlate
    subst hlate
    have hle := hnested.length_starBase_le
    have hlt : (starBase levels).length < (base levels ++ [p + 1]).length := by
      rw [length_append, length_singleton]
      omega
    have hdyn : starBase levels ++ (base levels ++ [p + 1]).drop (starBase levels).length =
        dynBase levels ++ [p + 1] := by
      rw [drop_append_of_le_length hle, ← append_assoc, hnested.starBase_append]
    have hmove := moveToGnode_of_lt hv hlt
    rw [hdyn] at hmove
    refine ⟨_, hmove, rfl, ⟨fun hout => ?_, fun _ => ⟨_, rfl, hcnt, hentered.of_take hnested ?_, ?_⟩⟩⟩
    · rw [hany] at hout
      cases hout
    · rw [← hnested.starBase_append, append_assoc, take_left, take_length]
    · rw [if_pos rfl]
      exact behind_cons (dynBase levels) [] [] (by omega)

theorem Tracks.stop_late (h : Tracks n levels true p) :
    ∃ n', n.moveToGnode (base levels ++ [p + 1]) = some n' ∧
      n'.gidx ≠ some (dynBase levels ++ [p + 1]) := by
  cases hany : levels.any Level.isStar with
  | false => cases h.not_late hany
  | true =>
    obtain ⟨v, hv, hcnt, hentered, hlate⟩ := h.inside hany
    rw [if_pos rfl] at hlate
    have hlen : (dynBase levels ++ [p + 1]).length = (base levels ++ [p + 1]).length := by
      rw [length_append, length_append, length_dynBase]
    obtain ⟨v', hmove, hbehind⟩ := moveToGnode_of_behind hv hlate hlen
    exact ⟨_, hmove, fun hgidx => hbehind.ne (Option.some.inj hgidx)⟩

theorem Tracks.branch (hnested : Nested levels) (h : Tracks n levels late p)
    (hl : l.idx = base levels ++ [p + 1]) (hstar : l.isStar = false) :
    Tracks n (l :: levels) late 0 := by
  have hany : (l :: levels).any Level.isStar = levels.any Level.isStar := by
    rw [any_cons, hstar, Bool.false_or]
  refine ⟨fun hout => h.outside (hany ▸ hout), fun hin => ?_⟩
  obtain ⟨v, hv, hcnt, hentered, hlate⟩ := h.inside (hany ▸ hin)
  refine ⟨v, hv, ?_, ⟨?_, hentered⟩, ?_⟩
  · rw [countP_cons, hstar]
    simpa using hcnt
  · cases hframe : l.frame with
    | branch i | split tag => trivial
    | star groot iteration spoilt => simp [Level.isStar, hframe] at hstar
  · cases late with
    | false => rw [starBase, hstar]; exact hlate
    | true =>
      rw [if_pos rfl] at hlate ⊢
      rw [dynBase, hl, dynamicIdx_base hnested, append_assoc]
      exact hlate.append_right _

theorem Tracks.merge (hnested : Nested (l :: levels)) (h : Tracks n (l :: levels) late p)
    (hstar : l.isStar = false) {q : Int} (hl : l.idx = base levels ++ [q]) : Tracks n levels late q := by
  have hany : (l :: levels).any Level.isStar = levels.any Level.isStar := by
    rw [any_cons, hstar, Bool.false_or]
  refine ⟨fun hout => h.outside (hany ▸ hout), fun hin => ?_⟩
  obtain ⟨v, hv, hcnt, ⟨-, hentered⟩, hlate⟩ := h.inside (hany ▸ hin)
  refine ⟨v, hv, ?_, hentered, ?_⟩
  · rw [countP_cons, hstar] at hcnt
    simpa using hcnt
  · cases late with
    | false => rw [starBase, hstar] at hlate; exact hlate
    | true =>
      rw [if_pos rfl] at hlate ⊢
      rw [dynBase, hl, dynamicIdx_base hnested.tail, append_assoc, append_assoc] at hlate
      exact Behind.grow hlate (by omega) []

theorem Entered.outside (h : levels.any Level.isStar = false) : Entered v levels := by
  induction levels with
  | nil => trivial
  | cons l levels ih =>
    rw [any_cons, Bool.or_eq_false_iff] at h
    refine ⟨?_, ih h.2⟩
    cases hframe : l.frame with
    | branch i | split tag => trivial
    | star groot iteration spoilt => simp [Level.isStar, hframe] at h

theorem any_isStar_of_star {groot : Graph IdxVec} {iteration : Int} {spoilt : Bool}
    (h : l.frame = .star groot iteration spoilt) : (l :: levels).any Level.isStar = true := by
  rw [any_cons, Level.isStar, h]
  rfl

theorem tracks_fresh {groot : Graph IdxVec} {iteration : Int} (h : l.frame = .star groot iteration false)
    (hdyn : n.dynIdx = some (dynBase (l :: levels))) (hcnt : n.dynIdxCnt = levels.countP Level.isStar)
    (hentered : Entered (dynBase (l :: levels)) levels) : Tracks n (l :: levels) false 0 := by
  have hstar : l.isStar = true := by rw [Level.isStar, h]
  refine ⟨fun hout => ?_, fun _ => ⟨_, hdyn, ?_, ⟨?_, hentered⟩, ?_⟩⟩
  · rw [any_isStar_of_star h] at hout
    cases hout
  · rw [countP_cons, hcnt, if_pos hstar]
  · rw [h]
    have hlen : (dynBase (l :: levels)).length = (base (l :: levels)).length := length_dynBase _
    rw [base, length_append, length_singleton] at hlen
    exact take_of_length_le (Nat.le_of_eq hlen)
  · rw [if_neg Bool.false_ne_true, starBase, if_pos hstar]

theorem tracks_spoilt {groot : Graph IdxVec} {iteration : Int} (h : l.frame = .star groot iteration true)
    (hdyn : n.dynIdx = some v) (hcnt : n.dynIdxCnt = levels.countP Level.isStar)
    (hlt : l.idx.length < v.length) (hbehind : Behind v (dynamicIdx levels l.idx))
    (hentered : Entered v levels) : Tracks n (l :: levels) true 0 := by
  have hstar : l.isStar = true := by rw [Level.isStar, h]
  refine ⟨fun hout => ?_, fun _ => ⟨_, hdyn, ?_, ⟨?_, hentered⟩, ?_⟩⟩
  · rw [any_isStar_of_star h] at hout
    cases hout
  · rw [countP_cons, hcnt, hstar]
    rfl
  · rw [h]
    exact ⟨hlt, hbehind⟩
  · rw [if_pos rfl, dynBase, append_assoc]
    exact hbehind.append_right _

theorem Tracks.enter (hnested : Nested levels) (h : Tracks n levels late p) (groot next : Graph IdxVec)
    (hlt : ∀ v, n.dynIdx = some v → v.length < (base levels ++ [p + 1]).length) :
    ∃ n', n.walkHndStar (base levels ++ [p + 1]) = some n' ∧
      Tracks n' (⟨base levels ++ [p + 1], .star groot 1 late, next⟩ :: levels) late 0 := by
  have hdyn (spoilt : Bool) : dynBase (⟨base levels ++ [p + 1], .star groot 1 spoilt, next⟩ :: levels) =
      dynBase levels ++ [p + 1] ++ [1] := by
    rw [dynBase, dynamicIdx_base hnested]
    rfl
  cases hany : levels.any Level.isStar with
  | false =>
    obtain ⟨hnone, hcnt, rfl⟩ := h.outside hany
    have hzero : levels.countP Level.isStar = 0 := by
      rw [countP_eq_zero]
      simpa using hany
    refine ⟨_, enterOperand_of_none hnone hcnt _ 1, tracks_fresh rfl ?_ (hcnt.trans hzero.symm)
      (.outside hany)⟩
    rw [hdyn, hnested.dynBase_outside hany]
  | true =>
    obtain ⟨v, hv, hcnt, hentered, hlate⟩ := h.inside hany
    have hvlt := hlt v hv
    have hwalk := enterOperand_of_some hv (base levels ++ [p + 1]) 1
    rw [if_pos hvlt] at hwalk
    refine ⟨_, hwalk, ?_⟩
    have hkeeps : (v ++ (base levels ++ [p + 1]).drop v.length ++ [1]).take (starBase levels).length =
        v.take (starBase levels).length := by
      rw [append_assoc, take_append_of_le_length (hentered.length_le hnested)]
    have hentered' := hentered.of_take hnested hkeeps
    cases late with
    | false =>
      rw [if_neg Bool.false_ne_true] at hlate
      subst hlate
      have hnew : starBase levels ++ (base levels ++ [p + 1]).drop (starBase levels).length ++ [1] =
          dynBase (⟨base levels ++ [p + 1], .star groot 1 false, next⟩ :: levels) := by
        rw [hdyn, drop_append_of_le_length hnested.length_starBase_le, ← append_assoc,
          hnested.starBase_append]
      rw [hnew] at hentered' ⊢
      exact tracks_fresh rfl rfl hcnt hentered'
    | true =>
      rw [if_pos rfl] at hlate
      refine tracks_spoilt rfl rfl hcnt ?_ ?_ hentered'
      · simp only [length_append, length_drop, length_singleton] at hvlt ⊢
        omega
      · rw [dynamicIdx_base hnested, append_assoc]
        exact hlate.append_left _

theorem Tracks.leave (hnested : Nested (l :: levels)) (h : Tracks n (l :: levels) late p)
    (hstar : l.isStar = true) {q : Int} (hl : l.idx = base levels ++ [q]) :
    Tracks n.removeDynGIdx levels (levels.any Level.isStar) q := by
  have hin : (l :: levels).any Level.isStar = true := by rw [any_cons, hstar, Bool.true_or]
  obtain ⟨v, hv, hcnt, ⟨-, hentered⟩, hlate⟩ := h.inside hin
  rw [countP_cons, hstar, if_pos rfl] at hcnt
  have hcnt' : n.dynIdxCnt = levels.countP Level.isStar := by omega
  cases hany : levels.any Level.isStar with
  | false =>
    have hzero : levels.countP Level.isStar = 0 := by
      rw [countP_eq_zero]
      simpa using hany
    have hremove : n.removeDynGIdx = { n with dynIdx := none } := by
      rw [ConsNode.removeDynGIdx, hv]
      exact if_neg (by omega)
    rw [hremove]
    refine ⟨fun _ => ⟨rfl, hcnt'.trans hzero, rfl⟩, fun hin' => ?_⟩
    rw [hany] at hin'
    cases hin'
  | true =>
    have hpos : 0 < levels.countP Level.isStar := by
      rw [countP_pos_iff]
      simpa using hany
    have hremove : n.removeDynGIdx = { n with dynIdxCnt := n.dynIdxCnt - 1 } := by
      rw [ConsNode.removeDynGIdx, hv]
      exact if_pos (by omega)
    rw [hremove]
    refine ⟨fun hout => ?_, fun _ => ⟨v, hv, ?_, hentered, ?_⟩⟩
    · rw [hany] at hout
      cases hout
    · dsimp only
      omega
    · rw [if_pos rfl]
      have hdyn : dynBase (l :: levels) = dynBase levels ++ q :: [l.frame.dynItem] := by
        rw [dynBase, hl, dynamicIdx_base hnested.tail, append_assoc]
        rfl
      cases late with
      | false =>
        rw [if_neg Bool.false_ne_true, starBase, if_pos hstar, hdyn] at hlate
        rw [hlate]
        exact behind_cons _ _ _ (by omega)
      | true =>
        rw [if_pos rfl, hdyn, append_assoc, cons_append] at hlate
        exact Behind.grow hlate (by omega) []

theorem Tracks.again {idx : IdxVec} {groot next : Graph IdxVec} {iteration : Int} {spoilt : Bool}
    (hnested : Nested (⟨idx, .star groot iteration spoilt, next⟩ :: levels))
    (h : Tracks n (⟨idx, .star groot iteration spoilt, next⟩ :: levels) late p) :
    ∃ n', n.walkHndStarMerge idx = some n' ∧
      Tracks n' (⟨idx, .star groot (iteration + 1) spoilt, next⟩ :: levels) spoilt 0 := by
  obtain ⟨v, hv, hcnt, ⟨hl, hentered⟩, -⟩ := h.inside rfl
  obtain ⟨q, -, hidx, -⟩ := hnested.1
  dsimp only at hidx hl
  have hcnt' : n.dynIdxCnt = levels.countP Level.isStar := by
    rw [countP_cons] at hcnt
    simp only [Level.isStar, if_true] at hcnt
    omega
  have hlen : idx.length = (dynamicIdx levels idx).length := (length_dynamicIdx levels idx).symm
  have hle : (starBase levels).length ≤ idx.length := by
    have := hnested.tail.length_starBase_le
    rw [hidx, length_append]
    omega
  -- only the number of the iteration changes
  have hkeeps (m : Nat) (hm : m ≤ idx.length) :
      ((v.take (idx.length + 1)).modify idx.length (· + 1)).take m = v.take m := by
    rw [take_modify, take_take, Nat.min_eq_left (by omega)]
    exact modify_eq_self (by rw [length_take]; omega)
  cases spoilt with
  | false =>
    have hv' : v.take (idx.length + 1) = dynamicIdx levels idx ++ [iteration] := hl
    have hlt : idx.length < v.length := by
      have hlength := congrArg List.length hv'
      rw [length_take, length_append, length_singleton] at hlength
      omega
    have hmodify : (v.take (idx.length + 1)).modify idx.length (· + 1) =
        dynBase (⟨idx, .star groot (iteration + 1) false, next⟩ :: levels) := by
      rw [hv', hlen, modify_append_cons]
      rfl
    have hentered' := hentered.of_take hnested.tail (hkeeps _ hle)
    have hmerge := walkHndStarMerge_of_some hv hlt
    rw [hmodify] at hmerge hentered'
    exact ⟨_, hmerge, tracks_fresh rfl rfl hcnt' hentered'⟩
  | true =>
    obtain ⟨hlt, hbehind⟩ := hl
    refine ⟨_, walkHndStarMerge_of_some hv hlt, tracks_spoilt rfl rfl hcnt' ?_ ?_ ?_⟩
    · rw [length_modify, length_take]
      dsimp only
      omega
    · exact hbehind.of_take_eq (by omega) (hkeeps _ (Nat.le_refl _))
    · exact hentered.of_take hnested.tail (hkeeps _ hle)

end Tracks

/-! ## Steps -/

section Steps

variable {s s' : State} {a : Act}

theorem enumerate_cases {v : IdxVec} {p : Int} {g : Graph Unit} :
    enumerateGraphSegment (v ++ [p]) g =
      match g with
      | .link => .link
      | .box _ next => .box (v ++ [p + 1]) (enumerateGraphSegment (v ++ [p + 1]) next)
      | .synccell _ next => .synccell (v ++ [p + 1]) (enumerateGraphSegment (v ++ [p + 1]) next)
      | .star _ groot next => .star (v ++ [p + 1]) (enumerateGraphSegment (v ++ [p + 1] ++ [0, 0]) groot)
          (enumerateGraphSegment (v ++ [p + 1]) next)
      | .split _ groot next => .split (v ++ [p + 1])
          (enumerateGraphSegment (v ++ [p + 1] ++ [0, 0]) groot)
          (enumerateGraphSegment (v ++ [p + 1]) next)
      | .parallel _ branchesCnt groot next => .parallel (v ++ [p + 1]) branchesCnt
          (fun i => enumerateGraphSegment (v ++ [p + 1] ++ [-((i : Int) + 1)] ++ [0]) (groot i))
          (enumerateGraphSegment (v ++ [p + 1]) next) := by
  cases g <;> simp [enumerateGraphSegment]

/-- A step is right exactly when it is in time, and then the record's index is known again. -/
structure Fits (s : State) (a : Act) : Prop where
  right_iff : Right s a ↔ InTime s a
  inv : InTime s a → ∀ s', step s a = .done s' → Inv s'

theorem fits_of_meets (hstop : s.stopIdx a = none) (hin : InTime s a) (h : (step s a).Meets Inv) :
    Fits s a := by
  refine ⟨⟨fun _ => hin, fun _ => ⟨h.ne_fault, fun s' _ idx hidx => ?_⟩⟩, fun _ s' hs => h.of_done hs⟩
  rw [hstop] at hidx
  cases hidx

theorem meets_finish : s.finish.Meets Inv := ⟨fun _ => rfl, nofun⟩

theorem inv_mk {n : ConsNode} {levels : List Level} {late : Bool} {p : Int} (g : Graph Unit)
    (hnested : Nested levels) (h : Tracks n levels late p) :
    Inv ⟨n, enumerateGraphSegment (base levels ++ [p]) g, levels, true, late⟩ :=
  ⟨nofun, fun _ => ⟨hnested, p, g, rfl, h⟩⟩

theorem fits_link {n : ConsNode} {levels : List Level} {late : Bool} {p : Int}
    (hnested : Nested levels) (h : Tracks n levels late p) (a : Act) :
    Fits ⟨n, .link, levels, true, late⟩ a := by
  refine fits_of_meets (by cases a <;> rfl) (by cases a <;> trivial) ?_
  cases a with
  | drop => exact meets_finish
  | branch i | tag v => trivial
  | go =>
    cases levels with
    | nil => exact meets_finish
    | cons l levels =>
      obtain ⟨q, g, hidx, hnext⟩ := hnested.1
      obtain ⟨idx, frame, next⟩ := l
      obtain rfl : next = _ := hnext
      cases frame with
      | branch i => exact inv_mk g hnested.tail (h.merge hnested rfl hidx)
      | star groot iteration spoilt => trivial
      | split tag => exact hnested.2.1.elim
  | leave =>
    cases levels with
    | nil => trivial
    | cons l levels =>
      obtain ⟨q, g, hidx, hnext⟩ := hnested.1
      obtain ⟨idx, frame, next⟩ := l
      obtain rfl : next = _ := hnext
      cases frame with
      | branch i | split tag => trivial
      | star groot iteration spoilt => exact inv_mk g hnested.tail (h.leave hnested rfl hidx)
  | again =>
    cases levels with
    | nil => trivial
    | cons l levels =>
      obtain ⟨idx, frame, next⟩ := l
      cases frame with
      | branch i | split tag => trivial
      | star groot iteration spoilt =>
        obtain ⟨n', hmerge, htracks⟩ := h.again hnested
        obtain ⟨g, hgroot⟩ := hnested.2.1
        have hnested' : Nested (⟨idx, .star groot (iteration + 1) spoilt, next⟩ :: levels) :=
          ⟨hnested.1, hnested.2.1, hnested.2.2⟩
        have hinv := inv_mk g hnested' htracks
        have hbase : base (⟨idx, .star groot (iteration + 1) spoilt, next⟩ :: levels) ++ [0] =
            idx ++ [0, 0] := by
          rw [base, append_assoc]
          rfl
        rw [hbase, ← hgroot] at hinv
        change (Outcome.ofOption ((n.walkHndStarMerge idx).map _)).Meets Inv
        rw [hmerge]
        exact hinv

theorem fits_stop {n : ConsNode} {levels : List Level} {late : Bool} {p : Int} {g : Graph Unit}
    {gnode : Graph IdxVec} (hnested : Nested levels) (h : Tracks n levels late p)
    (hgnode : gnode = .box (base levels ++ [p + 1]) (enumerateGraphSegment (base levels ++ [p + 1]) g) ∨
      gnode = .synccell (base levels ++ [p + 1]) (enumerateGraphSegment (base levels ++ [p + 1]) g))
    (a : Act) : Fits ⟨n, gnode, levels, true, late⟩ a := by
  cases a with
  | drop => exact fits_of_meets rfl trivial meets_finish
  | branch i | leave =>
    refine fits_of_meets rfl trivial ?_
    rcases hgnode with rfl | rfl <;> trivial
  | again | tag v =>
    refine fits_of_meets rfl ?_ ?_
    · rcases hgnode with rfl | rfl <;> trivial
    · rcases hgnode with rfl | rfl <;> trivial
  | go =>
    have hstep : step ⟨n, gnode, levels, true, late⟩ .go =
        State.stop ⟨n, gnode, levels, true, late⟩ (base levels ++ [p + 1])
          (enumerateGraphSegment (base levels ++ [p + 1]) g) := by
      rcases hgnode with rfl | rfl <;> rfl
    have hidx : State.stopIdx ⟨n, gnode, levels, true, late⟩ .go = some (base levels ++ [p + 1]) := by
      rcases hgnode with rfl | rfl <;> rfl
    have hin : InTime ⟨n, gnode, levels, true, late⟩ .go ↔ late = false := by
      rcases hgnode with rfl | rfl <;> exact Iff.rfl
    have hdyn := dynamicIdx_base hnested [p + 1]
    cases late with
    | false =>
      obtain ⟨n', hmove, hgidx, htracks⟩ := h.stop hnested
      rw [State.stop, hmove] at hstep
      refine ⟨⟨fun _ => hin.2 rfl, fun _ => ⟨?_, fun s' hs idx hstop => ?_⟩⟩, fun _ s' hs => ?_⟩
      · rw [hstep]
        exact nofun
      · rw [hstep] at hs
        rw [hidx] at hstop
        cases hs
        cases hstop
        rw [hdyn]
        exact hgidx
      · rw [hstep] at hs
        cases hs
        exact inv_mk g hnested htracks
    | true =>
      obtain ⟨n', hmove, hgidx⟩ := h.stop_late
      rw [State.stop, hmove] at hstep
      refine ⟨⟨fun hright => ?_, fun hlate => ?_⟩, fun hlate => ?_⟩
      · have hwrong := hright.2 _ hstep _ hidx
        rw [hdyn] at hwrong
        exact absurd hwrong hgidx
      · cases hin.1 hlate
      · cases hin.1 hlate

theorem fits_star {n : ConsNode} {levels : List Level} {late : Bool} {p : Int} (g g' : Graph Unit)
    (hnested : Nested levels) (h : Tracks n levels late p) (a : Act) :
    Fits ⟨n, .star (base levels ++ [p + 1])
      (enumerateGraphSegment (base levels ++ [p + 1] ++ [0, 0]) g)
      (enumerateGraphSegment (base levels ++ [p + 1]) g'), levels, true, late⟩ a := by
  cases a with
  | drop => exact fits_of_meets rfl trivial meets_finish
  | go | branch i => exact fits_of_meets rfl trivial trivial
  | tag v => exact fits_of_meets rfl trivial trivial
  | leave => exact fits_of_meets rfl trivial (inv_mk g' hnested h.advance)
  | again =>
    have hshort : late = false → ∀ v, n.dynIdx = some v → v.length < (base levels ++ [p + 1]).length := by
      intro hlate v hv
      subst hlate
      cases hany : levels.any Level.isStar with
      | false =>
        rw [(h.outside hany).1] at hv
        cases hv
      | true =>
        obtain ⟨w, hw, -, -, rfl⟩ := h.inside hany
        obtain rfl := Option.some.inj (hv.symm.trans hw)
        have := hnested.length_starBase_le
        rw [length_append, length_singleton]
        omega
    by_cases hlt : ∀ v, n.dynIdx = some v → v.length < (base levels ++ [p + 1]).length
    · refine fits_of_meets rfl (.inr hlt) ?_
      obtain ⟨n', henter, htracks⟩ := h.enter hnested
        (enumerateGraphSegment (base levels ++ [p + 1] ++ [0, 0]) g)
        (enumerateGraphSegment (base levels ++ [p + 1]) g') hlt
      change (Outcome.ofOption ((n.walkHndStar (base levels ++ [p + 1])).map _)).Meets Inv
      rw [henter]
      have hnested' : Nested (⟨base levels ++ [p + 1],
          .star (enumerateGraphSegment (base levels ++ [p + 1] ++ [0, 0]) g) 1 late,
          enumerateGraphSegment (base levels ++ [p + 1]) g'⟩ :: levels) :=
        ⟨⟨p + 1, g', rfl, rfl⟩, ⟨g, rfl⟩, hnested⟩
      have hinv := inv_mk g hnested' htracks
      have hbase : base levels ++ [p + 1] ++ [0] ++ [0] = base levels ++ [p + 1] ++ [0, 0] :=
        append_assoc _ _ _
      rw [base] at hinv
      dsimp only [Frame.item] at hinv
      rw [hbase] at hinv
      exact hinv
    · have hin : ¬ InTime ⟨n, .star (base levels ++ [p + 1])
          (enumerateGraphSegment (base levels ++ [p + 1] ++ [0, 0]) g)
          (enumerateGraphSegment (base levels ++ [p + 1]) g'), levels, true, late⟩ .again := by
        rintro (hlate | hlt')
        · exact hlt (hshort hlate)
        · exact hlt hlt'
      refine ⟨⟨fun hright => absurd ?_ hright.1, fun h => absurd h hin⟩, fun h => absurd h hin⟩
      rw [not_forall] at hlt
      obtain ⟨v, hlt⟩ := hlt
      rw [Classical.not_imp] at hlt
      obtain ⟨hv, hge⟩ := hlt
      change Outcome.ofOption ((n.walkHndStar (base levels ++ [p + 1])).map _) = .fault
      rw [ConsNode.walkHndStar, enterOperand_of_some hv, if_neg hge]
      rfl

theorem fits_parallel {n : ConsNode} {levels : List Level} {late : Bool} {p : Int}
    {branchesCnt : Nat} (groot : Fin branchesCnt → Graph Unit) (g : Graph Unit)
    (hnested : Nested levels) (h : Tracks n levels late p) (a : Act) :
    Fits ⟨n, .parallel (base levels ++ [p + 1]) branchesCnt
      (fun i => enumerateGraphSegment (base levels ++ [p + 1] ++ [-((i : Int) + 1)] ++ [0]) (groot i))
      (enumerateGraphSegment (base levels ++ [p + 1]) g), levels, true, late⟩ a := by
  cases a with
  | drop => exact fits_of_meets rfl trivial meets_finish
  | leave | again | tag v => exact fits_of_meets rfl trivial trivial
  | go =>
    refine fits_of_meets rfl trivial ?_
    change Outcome.Meets Inv (if branchesCnt = 0 then _ else _)
    split_ifs
    · exact inv_mk g hnested h.advance
    · trivial
  | branch i =>
    refine fits_of_meets rfl trivial ?_
    change Outcome.Meets Inv (if h : i < branchesCnt then _ else _)
    split_ifs with hi
    · have hnested' : Nested (⟨base levels ++ [p + 1], .branch i,
          enumerateGraphSegment (base levels ++ [p + 1]) g⟩ :: levels) :=
        ⟨⟨p + 1, g, rfl, rfl⟩, trivial, hnested⟩
      exact inv_mk (groot ⟨i, hi⟩) hnested' (h.branch hnested rfl rfl)
    · trivial

theorem fits_split {n : ConsNode} {levels : List Level} {late : Bool} (idx : IdxVec)
    (groot next : Graph IdxVec) (a : Act) : Fits ⟨n, .split idx groot next, levels, true, late⟩ a := by
  cases a with
  | drop => exact fits_of_meets rfl trivial meets_finish
  | go | branch i | leave | again => exact fits_of_meets rfl trivial trivial
  | tag v => exact ⟨⟨fun hright => hright.1 rfl, nofun⟩, nofun⟩

theorem Inv.fits (h : Inv s) (a : Act) : Fits s a := by
  obtain ⟨n, gnode, levels, walking, late⟩ := s
  cases walking with
  | false =>
    obtain rfl : gnode = .link := h.ended rfl
    exact fits_of_meets (by cases a <;> rfl) (by cases a <;> trivial) trivial
  | true =>
    obtain ⟨hnested, p, g, hgnode, htracks⟩ := h.walks rfl
    dsimp only at hnested hgnode htracks
    rw [enumerate_cases] at hgnode
    subst hgnode
    cases g with
    | link => exact fits_link hnested htracks a
    | box idx next => exact fits_stop hnested htracks (.inl rfl) a
    | synccell idx next => exact fits_stop hnested htracks (.inr rfl) a
    | star idx groot next => exact fits_star groot next hnested htracks a
    | split idx groot next => exact fits_split _ _ _ a
    | parallel idx branchesCnt groot next => exact fits_parallel groot next hnested htracks a

end Steps

/-! ## The result -/

theorem inv_init (groot : Graph Unit) : Inv (State.init groot) := by
  refine ⟨nofun, fun _ => ⟨trivial, 0, groot, rfl, fun _ => ⟨rfl, rfl, rfl⟩, nofun⟩⟩

/-- The index of a record follows its walk exactly as long as the record is in time. -/
theorem index_follows_iff (groot : Graph Unit) (as : List Act) :
    Permitted step Right (State.init groot) as ↔ Permitted step InTime (State.init groot) as := by
  have hall : ∀ s, Inv s → (Permitted step Right s as ↔ Permitted step InTime s as) := by
    induction as with
    | nil => exact fun _ _ => Iff.rfl
    | cons a as ih =>
      intro s hs
      have hfits := hs.fits a
      constructor
      · rintro ⟨hright, hrest⟩
        have hin := hfits.right_iff.1 hright
        exact ⟨hin, fun s' hs' => (ih s' (hfits.inv hin s' hs')).1 (hrest s' hs')⟩
      · rintro ⟨hin, hrest⟩
        exact ⟨hfits.right_iff.2 hin, fun s' hs' => (ih s' (hfits.inv hin s' hs')).2 (hrest s' hs')⟩
  exact hall _ (inv_init groot)

/-- A star with two boxes, a star with a box and a star in it, and a split: the index of the second box is
that of the first one, and the assertions of `SNetIdxVecPush` and `gnode_walk_hnd_split` fail. -/
theorem index_wrong :
    ¬ Permitted step Right (State.init (.star () (.box () (.box () .link)) .link)) [.again, .go, .go] ∧
      ¬ Permitted step Right (State.init (.star () (.box () (.star () (.box () .link) .link)) .link))
        [.again, .go, .again] ∧
      ¬ Permitted step Right (State.init (.split () (.box () .link) .link)) [.tag 0] := by
  refine ⟨fun h => ?_, fun h => ?_, fun h => h.1.1 rfl⟩
  · have hright := ((h.2 _ rfl).2 _ rfl).1
    have hidx : some ([1, 1, 1] : IdxVec) = some [1, 1, 2] := hright.2 _ rfl _ rfl
    revert hidx
    decide
  · exact ((h.2 _ rfl).2 _ rfl).1.1 rfl

end SNet.Svpgw
