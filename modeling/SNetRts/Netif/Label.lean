import SNetRts.Netif.Parser
import Mathlib.Data.List.Dedup
import Mathlib.Data.List.Nodup
import Mathlib.Algebra.Group.Int.Defs

/-!
# Numbers of labels

Sequences of calls of `SNetInLabelToId` and `SNetInIdToLabel` of `netif/label.c`. A number is an `int`, so
that a label that would get a number above `INT_MAX` is a fault. What the calls return is compared with the
list of all labels in the order in which they have become known: the number of a label is its place there.
-/

namespace SNet.Netif

open Lib List

namespace LabelTable

def INT_MAX : Int := 2 ^ 31 - 1

/-- `SNetInLabelInit` -/
def labelInit (labels : List Text) : LabelTable := ⟨labels, []⟩

inductive Call where
  | labelToId (label : Text)
  | idToLabel (i : Int)
deriving DecidableEq

inductive Answer where
  | id (i : Int)
  | label (label : Option Text)
deriving DecidableEq

def call (labels : LabelTable) : Call → Outcome (Answer × LabelTable)
  | .labelToId label =>
    let (index, labels) := Netif.labelToId labels label
    if index ≤ INT_MAX then .done (.id index, labels) else .fault
  | .idToLabel i => .done (.label (Netif.idToLabel labels i), labels)

def calls (labels : LabelTable) : List Call → Outcome (List Answer)
  | [] => .done []
  | c :: cs => (labels.call c).bind fun (answer, labels) =>
    (labels.calls cs).bind fun answers => .done (answer :: answers)

def asked : List Call → List Text
  | [] => []
  | .labelToId label :: cs => label :: asked cs
  | .idToLabel _ :: cs => asked cs

def Gave (cs : List Call) (answers : List Answer) (k : Nat) (label : Text) (i : Int) : Prop :=
  cs[k]? = some (.labelToId label) ∧ answers[k]? = some (.id i)

/-- What the calls return is a bijection that does not change: a label always has the same number, and no other
label has it; a static label has its position; and the number, once it is given, leads back to the label, and
to no label that does not have it. -/
structure StableBijection (static : List Text) (cs : List Call) (answers : List Answer) : Prop where
  length : answers.length = cs.length
  injective : ∀ {k l : Nat} {s t : Text} {i j : Int}, Gave cs answers k s i → Gave cs answers l t j → (s = t ↔ i = j)
  position : ∀ {k n : Nat} {s : Text} {i : Int}, Gave cs answers k s i → static[n]? = some s → i = n
  inverse : ∀ {k l : Nat} {s : Text} {i : Int}, Gave cs answers k s i → k < l → cs[l]? = some (.idToLabel i) →
    answers[l]? = some (.label (some s))
  back : ∀ {k l : Nat} {s t : Text} {i : Int}, Gave cs answers k s i → cs[l]? = some (.idToLabel i) →
    answers[l]? = some (.label (some t)) → t = s

/-! ## The labels in their order -/

/-- The labels that are known after one more has been asked for. -/
def learn (xs : List Text) (label : Text) : List Text := if label ∈ xs then xs else xs ++ [label]

theorem prefix_learn (xs : List Text) (label : Text) : xs <+: learn xs label := by
  unfold learn
  split
  · exact prefix_rfl
  · exact prefix_append xs [label]

theorem nodup_learn {xs : List Text} (h : xs.Nodup) (label : Text) : (learn xs label).Nodup := by
  unfold learn
  split
  · exact h
  · rename_i hnot
    rw [nodup_append_comm]
    exact nodup_cons.2 ⟨hnot, h⟩

theorem mem_learn {xs : List Text} {label s : Text} : s ∈ learn xs label ↔ s ∈ xs ∨ s = label := by
  unfold learn
  split
  · rename_i hmem
    constructor
    · exact .inl
    · rintro (h | rfl)
      · exact h
      · exact hmem
  · rw [mem_append, mem_singleton]

def known : List Text → List Call → List Text
  | xs, [] => xs
  | xs, .labelToId label :: cs => known (learn xs label) cs
  | xs, .idToLabel _ :: cs => known xs cs

theorem prefix_known (xs : List Text) (cs : List Call) : xs <+: known xs cs := by
  induction cs generalizing xs with
  | nil => exact prefix_rfl
  | cons c cs ih =>
    cases c with
    | labelToId label => exact (prefix_learn xs label).trans (ih _)
    | idToLabel i => exact ih xs

theorem nodup_known {xs : List Text} (h : xs.Nodup) (cs : List Call) : (known xs cs).Nodup := by
  induction cs generalizing xs with
  | nil => exact h
  | cons c cs ih =>
    cases c with
    | labelToId label => exact ih (nodup_learn h label)
    | idToLabel i => exact ih h

theorem mem_known {xs : List Text} {cs : List Call} {s : Text} : s ∈ known xs cs ↔ s ∈ xs ∨ s ∈ asked cs := by
  induction cs generalizing xs with
  | nil => simp [known, asked]
  | cons c cs ih =>
    cases c with
    | labelToId label => rw [known, ih, mem_learn, asked, mem_cons, or_assoc]
    | idToLabel i => exact ih

theorem length_known {xs : List Text} (h : xs.Nodup) (cs : List Call) :
    (known xs cs).length = (xs ++ asked cs).dedup.length := by
  have hperm : (known xs cs).Perm (xs ++ asked cs).dedup := by
    rw [perm_ext_iff_of_nodup (nodup_known h cs) (nodup_dedup _)]
    intro s
    rw [mem_known, mem_dedup, mem_append]
  exact hperm.length_eq

theorem idxOf_extend {xs ys : List Text} (h : xs <+: ys) {s : Text} (hs : s ∈ xs) : ys.idxOf s = xs.idxOf s := by
  obtain ⟨zs, rfl⟩ := h
  exact idxOf_append_of_mem hs

theorem getElem?_extend {xs ys : List Text} (h : xs <+: ys) {i : Nat} {s : Text} (hi : xs[i]? = some s) :
    ys[i]? = some s := by
  obtain ⟨zs, rfl⟩ := h
  obtain ⟨hlt, -⟩ := List.getElem?_eq_some_iff.1 hi
  rwa [getElem?_append_left hlt]

theorem idxOf?_of_mem {xs : List Text} {s : Text} (h : s ∈ xs) : xs.idxOf? s = some (xs.idxOf s) := by
  obtain ⟨i, hi⟩ := Option.isSome_iff_exists.1 (isSome_idxOf?.2 h)
  rw [idxOf_eq_getD_idxOf?, hi]
  rfl

/-! ## Tables and lists -/

/-- The temporary labels behind `n` static ones, the last one first. -/
def numbered (n : Nat) : List Text → List (Text × Int)
  | [] => []
  | s :: names => (s, (n + names.length : Nat)) :: numbered n names

/-- The table has the labels of the list, which are distinct, each with its place. -/
structure Lists (labels : LabelTable) (xs : List Text) : Prop where
  nodup : xs.Nodup
  temp : ∃ names, labels.temp = numbered labels.static.length names ∧ xs = labels.static ++ names.reverse

theorem lists_labelInit {static : List Text} (h : static.Nodup) : (labelInit static).Lists static :=
  ⟨h, [], rfl, (append_nil static).symm⟩

theorem find?_name_numbered (n : Nat) (names : List Text) (s : Text) (hnames : names.Nodup) :
    (numbered n names).find? (fun e => e.1 = s) =
      if s ∈ names then some (s, ((n + names.reverse.idxOf s : Nat) : Int)) else none := by
  induction names with
  | nil => rfl
  | cons t names ih =>
    obtain ⟨hnot, hnames⟩ := nodup_cons.1 hnames
    rw [numbered, find?_cons, reverse_cons]
    by_cases heq : t = s
    · subst heq
      have hrev : t ∉ names.reverse := fun h => hnot (mem_reverse.1 h)
      rw [idxOf_append_of_notMem hrev]
      simp
    · have hne : s ≠ t := fun h => heq h.symm
      simp only [heq, decide_false]
      rw [ih hnames]
      by_cases hmem : s ∈ names
      · rw [if_pos hmem, if_pos (mem_cons_of_mem t hmem), idxOf_append_of_mem (mem_reverse.2 hmem)]
      · rw [if_neg hmem, if_neg (by simp [hne, hmem])]

theorem next_numbered (n : Nat) (names : List Text) :
    (match numbered n names with
      | [] => (n : Int)
      | e :: _ => e.2 + 1 : Int) = (n + names.length : Nat) := by
  cases names with
  | nil => rfl
  | cons t names =>
    show ((n + names.length : Nat) : Int) + 1 = (n + (t :: names).length : Nat)
    rw [length_cons]
    omega

theorem find?_number_numbered (n : Nat) (names : List Text) (i : Nat) :
    ((numbered n names).find? (fun e => e.2 = (i : Int))).map Prod.fst =
      if n ≤ i then names.reverse[i - n]? else none := by
  induction names with
  | nil => simp [numbered]
  | cons t names ih =>
    rw [numbered, find?_cons, reverse_cons]
    by_cases heq : n + names.length = i
    · subst heq
      simp
    · have hne : ((n + names.length : Nat) : Int) ≠ (i : Int) := by omega
      simp only [hne, decide_false]
      rw [ih]
      by_cases hle : n ≤ i
      · rw [if_pos hle, if_pos hle]
        by_cases hlt : i - n < names.length
        · rw [getElem?_append_left (by simpa using hlt)]
        · have hlen : names.length < i - n := by omega
          rw [getElem?_eq_none (by simp; omega), getElem?_eq_none (by simp; omega)]
      · rw [if_neg hle, if_neg hle]

namespace Lists

variable {labels : LabelTable} {xs : List Text}

theorem labelToId (h : labels.Lists xs) (label : Text) :
    ∃ labels' : LabelTable, Netif.labelToId labels label = (((learn xs label).idxOf label : Int), labels') ∧
      labels'.Lists (learn xs label) := by
  obtain ⟨hnodup, names, htemp, rfl⟩ := h
  have hnames : names.Nodup := nodup_reverse.1 (nodup_append.1 hnodup).2.1
  have hlist : labels.Lists (labels.static ++ names.reverse) := ⟨hnodup, names, htemp, rfl⟩
  unfold Netif.labelToId
  by_cases hstatic : label ∈ labels.static
  · have hlearn : learn (labels.static ++ names.reverse) label = labels.static ++ names.reverse :=
      if_pos (mem_append_left _ hstatic)
    refine ⟨labels, ?_, by rwa [hlearn]⟩
    rw [hlearn, idxOf?_of_mem hstatic, idxOf_append_of_mem hstatic]
  · rw [idxOf?_eq_none_iff.2 hstatic, htemp]
    dsimp only
    rw [find?_name_numbered _ _ _ hnames]
    by_cases hmem : label ∈ names
    · have hlearn : learn (labels.static ++ names.reverse) label = labels.static ++ names.reverse :=
        if_pos (mem_append_right _ (mem_reverse.2 hmem))
      rw [if_pos hmem]
      refine ⟨labels, ?_, by rwa [hlearn]⟩
      rw [hlearn, idxOf_append_of_notMem hstatic]
    · have hnot : label ∉ labels.static ++ names.reverse := by
        rw [mem_append, mem_reverse]
        exact fun h => h.elim hstatic hmem
      have hlearn : learn (labels.static ++ names.reverse) label = labels.static ++ (label :: names).reverse := by
        rw [learn, if_neg hnot, append_assoc, reverse_cons]
      have hplace : (labels.static ++ (label :: names).reverse).idxOf label = labels.static.length + names.length := by
        rw [reverse_cons, ← append_assoc, idxOf_append_of_notMem hnot]
        simp
      rw [if_neg hmem, hlearn, hplace]
      refine ⟨_, Prod.ext (next_numbered labels.static.length names) rfl, hlearn ▸ nodup_learn hnodup label,
        label :: names, ?_, rfl⟩
      exact congrArg (fun i : Int => (label, i) :: numbered labels.static.length names)
        (next_numbered labels.static.length names)

theorem idToLabel (h : labels.Lists xs) (i : Int) :
    Netif.idToLabel labels i = if i < 0 then none else xs[i.toNat]? := by
  obtain ⟨-, names, htemp, rfl⟩ := h
  rw [Netif.idToLabel]
  by_cases hneg : i < 0
  · rw [if_pos hneg, if_pos hneg]
  · rw [if_neg hneg, if_neg hneg]
    by_cases hlt : i.toNat < labels.static.length
    · rw [getElem?_append_left hlt, getElem?_eq_getElem hlt]
    · have hle := Nat.not_lt.1 hlt
      rw [getElem?_append_right hle, getElem?_eq_none hle, htemp]
      have hfind := find?_number_numbered labels.static.length names i.toNat
      rw [Int.toNat_of_nonneg (Int.not_lt.1 hneg), if_pos hle] at hfind
      exact hfind

end Lists

/-! ## Sequences of calls -/

/-- What the calls return when the labels of the list are known. -/
def replies : List Text → List Call → List Answer
  | _, [] => []
  | xs, .labelToId label :: cs => .id ((learn xs label).idxOf label) :: replies (learn xs label) cs
  | xs, .idToLabel i :: cs => .label (if i < 0 then none else xs[i.toNat]?) :: replies xs cs

theorem length_replies (xs : List Text) (cs : List Call) : (replies xs cs).length = cs.length := by
  induction cs generalizing xs with
  | nil => rfl
  | cons c cs ih =>
    cases c with
    | labelToId label => exact congrArg (· + 1) (ih _)
    | idToLabel i => exact congrArg (· + 1) (ih xs)

theorem Lists.calls {labels : LabelTable} {xs : List Text} (h : labels.Lists xs) (hlen : (xs.length : Int) ≤ INT_MAX + 1)
    (cs : List Call) :
    labels.calls cs = if ((known xs cs).length : Int) ≤ INT_MAX + 1 then .done (replies xs cs) else .fault := by
  induction cs generalizing labels xs with
  | nil => exact (if_pos hlen).symm
  | cons c cs ih =>
    cases c with
    | idToLabel i =>
      rw [LabelTable.calls, call, Outcome.done_bind, h.idToLabel, known, replies]
      dsimp only
      rw [ih h hlen]
      by_cases hfits : ((known xs cs).length : Int) ≤ INT_MAX + 1
      · rw [if_pos hfits, if_pos hfits]
        rfl
      · rw [if_neg hfits, if_neg hfits]
        rfl
    | labelToId label =>
      obtain ⟨labels', hto, hlists⟩ := h.labelToId label
      have hlt : (learn xs label).idxOf label < (learn xs label).length :=
        idxOf_lt_length_of_mem (mem_learn.2 (.inr rfl))
      have hle := (prefix_known (learn xs label) cs).length_le
      rw [LabelTable.calls, call, hto, known, replies]
      dsimp only
      by_cases hindex : ((learn xs label).idxOf label : Int) ≤ INT_MAX
      · have hlen' : ((learn xs label).length : Int) ≤ INT_MAX + 1 := by
          by_cases hmem : label ∈ xs
          · rwa [learn, if_pos hmem]
          · rw [learn, if_neg hmem, idxOf_append_of_notMem hmem] at hindex
            rw [learn, if_neg hmem, length_append]
            simpa using hindex
        rw [if_pos hindex, Outcome.done_bind]
        dsimp only
        rw [ih hlists hlen']
        by_cases hfits : ((known (learn xs label) cs).length : Int) ≤ INT_MAX + 1
        · rw [if_pos hfits, if_pos hfits]
          rfl
        · rw [if_neg hfits, if_neg hfits]
          rfl
      · rw [if_neg hindex, if_neg (by omega)]
        rfl

theorem replies_labelToId {xs : List Text} {cs : List Call} {k : Nat} {s : Text}
    (hk : cs[k]? = some (.labelToId s)) : (replies xs cs)[k]? = some (.id ((known xs cs).idxOf s)) := by
  induction cs generalizing xs k with
  | nil => cases hk
  | cons c cs ih =>
    cases k with
    | zero =>
      cases hk
      rw [replies, known, getElem?_cons_zero, idxOf_extend (prefix_known _ cs) (mem_learn.2 (.inr rfl))]
    | succ k =>
      cases c with
      | labelToId label => exact ih hk
      | idToLabel i => exact ih hk

theorem replies_idToLabel {xs : List Text} {cs : List Call} {k : Nat} {i : Int}
    (hk : cs[k]? = some (.idToLabel i)) :
    (replies xs cs)[k]? = some (.label (if i < 0 then none else (known xs (cs.take k))[i.toNat]?)) := by
  induction cs generalizing xs k with
  | nil => cases hk
  | cons c cs ih =>
    cases k with
    | zero =>
      cases hk
      rfl
    | succ k =>
      cases c with
      | labelToId label => exact ih hk
      | idToLabel i => exact ih hk

theorem mem_asked {cs : List Call} {k : Nat} {s : Text} (hk : cs[k]? = some (.labelToId s)) : s ∈ asked cs := by
  induction cs generalizing k with
  | nil => cases hk
  | cons c cs ih =>
    cases k with
    | zero =>
      cases hk
      exact mem_cons_self
    | succ k =>
      cases c with
      | labelToId label => exact mem_cons_of_mem _ (ih hk)
      | idToLabel i => exact ih hk

theorem prefix_known_take (xs : List Text) (cs : List Call) (k : Nat) : known xs (cs.take k) <+: known xs cs := by
  induction cs generalizing xs k with
  | nil =>
    have hnil : ([] : List Call).take k = [] := take_nil
    exact ⟨[], by rw [hnil, append_nil]⟩
  | cons c cs ih =>
    cases k with
    | zero => exact prefix_known xs (c :: cs)
    | succ k =>
      cases c with
      | labelToId label => exact ih _ k
      | idToLabel i => exact ih xs k

section

variable {xs : List Text} {cs : List Call} {k l : Nat} {s t : Text} {i j : Int}

theorem gave_replies (h : Gave cs (replies xs cs) k s i) : s ∈ known xs cs ∧ i = (known xs cs).idxOf s := by
  obtain ⟨hk, hanswer⟩ := h
  rw [replies_labelToId hk] at hanswer
  cases hanswer
  exact ⟨mem_known.2 (.inr (mem_asked hk)), rfl⟩

theorem getElem?_of_gave (h : Gave cs (replies xs cs) k s i) : (known xs cs)[i.toNat]? = some s := by
  obtain ⟨hmem, rfl⟩ := gave_replies h
  rw [Int.toNat_natCast]
  exact getElem?_idxOf hmem

theorem stableBijection_replies (static : List Text) (cs : List Call) (hstatic : static.Nodup) :
    StableBijection static cs (replies static cs) where
  length := length_replies static cs
  injective hs ht := by
    obtain ⟨hmem, rfl⟩ := gave_replies hs
    obtain ⟨-, rfl⟩ := gave_replies ht
    rw [Int.natCast_inj, idxOf_inj hmem]
  position {k n s i} hs hn := by
    obtain ⟨hlt, heq⟩ := List.getElem?_eq_some_iff.1 hn
    obtain ⟨-, rfl⟩ := gave_replies hs
    rw [idxOf_extend (prefix_known static cs) (mem_of_getElem? hn), ← heq, hstatic.idxOf_getElem]
  inverse {k l s i} hs hlt hl := by
    obtain ⟨-, rfl⟩ := gave_replies hs
    have hmem : s ∈ known static (cs.take l) :=
      mem_known.2 (.inr (mem_asked (k := k) (by rw [getElem?_take_of_lt hlt]; exact hs.1)))
    rw [replies_idToLabel hl, if_neg (by omega), Int.toNat_natCast,
      idxOf_extend (prefix_known_take static cs l) hmem, getElem?_idxOf hmem]
  back {k l s t i} hs hl ht := by
    have hplace := getElem?_of_gave hs
    rw [replies_idToLabel hl] at ht
    have hget : (if i < 0 then none else (known static (cs.take l))[i.toNat]?) = some t := by
      simpa using ht
    by_cases hneg : i < 0
    · rw [if_pos hneg] at hget
      cases hget
    · rw [if_neg hneg] at hget
      rw [getElem?_extend (prefix_known_take static cs l) hget] at hplace
      exact Option.some.inj hplace

end

theorem calls_labelInit {static : List Text} (hdistinct : static.Nodup) (hlen : (static.length : Int) ≤ INT_MAX)
    (cs : List Call) :
    (labelInit static).calls cs =
      if ((static ++ asked cs).dedup.length : Int) ≤ INT_MAX + 1 then .done (replies static cs) else .fault := by
  rw [(lists_labelInit hdistinct).calls (by omega), length_known hdistinct]

/-- The calls return a stable bijection if and only if there are numbers for all labels. -/
theorem labels_are_bijection_iff {static : List Text} (hdistinct : static.Nodup)
    (hlen : (static.length : Int) ≤ INT_MAX) (cs : List Call) :
    (∃ answers, (labelInit static).calls cs = .done answers ∧ StableBijection static cs answers) ↔
      ((static ++ asked cs).dedup.length : Int) ≤ 2 ^ 31 := by
  rw [calls_labelInit hdistinct hlen]
  by_cases hfits : ((static ++ asked cs).dedup.length : Int) ≤ INT_MAX + 1
  · rw [if_pos hfits]
    exact ⟨fun _ => hfits, fun _ => ⟨_, rfl, stableBijection_replies static cs hdistinct⟩⟩
  · rw [if_neg hfits]
    exact ⟨nofun, fun h => absurd h hfits⟩

/-- A static label, two others, and the way back. -/
theorem labels_are_bijection_three :
    ∃ answers, (labelInit [['a']]).calls
        [.labelToId ['b'], .labelToId ['c'], .labelToId ['a'], .idToLabel 1, .labelToId ['b']] = .done answers ∧
      answers = [.id 1, .id 2, .id 0, .label (some ['b']), .id 1] ∧
      StableBijection [['a']] [.labelToId ['b'], .labelToId ['c'], .labelToId ['a'], .idToLabel 1, .labelToId ['b']]
        answers := by
  obtain ⟨answers, hcalls, hstable⟩ := (labels_are_bijection_iff (show [['a']].Nodup by decide) (by decide)
    [.labelToId ['b'], .labelToId ['c'], .labelToId ['a'], .idToLabel 1, .labelToId ['b']]).2 (by decide)
  refine ⟨answers, hcalls, ?_, hstable⟩
  cases hcalls
  rfl

def manyLabels (n : Nat) : List Text := (List.range n).map fun k => List.replicate k 'a'

theorem nodup_manyLabels (n : Nat) : (manyLabels n).Nodup := by
  refine nodup_range.map fun k l heq => ?_
  have hlen := congrArg List.length heq
  rwa [length_replicate, length_replicate] at hlen

theorem length_manyLabels (n : Nat) : (manyLabels n).length = n := by
  rw [manyLabels, length_map, length_range]

theorem notMem_manyLabels (n : Nat) {c : Char} (hc : c ≠ 'a') : [c] ∉ manyLabels n := by
  intro hmem
  obtain ⟨k, -, heq⟩ := List.mem_map.1 hmem
  have hin : c ∈ List.replicate k 'a' := heq ▸ mem_singleton_self c
  exact hc (eq_of_mem_replicate hin)

theorem calls_manyLabels {n : Nat} (hn : (n : Int) = INT_MAX) :
    (labelInit (manyLabels n)).calls [.labelToId ['b'], .labelToId ['c']] = .fault := by
  have hall : (manyLabels n ++ [['b'], ['c']]).Nodup := by
    rw [nodup_append_comm]
    refine nodup_cons.2 ⟨?_, nodup_cons.2 ⟨notMem_manyLabels n (by decide), nodup_manyLabels n⟩⟩
    intro hmem
    rcases mem_cons.1 hmem with heq | hmem
    · exact absurd heq (by decide)
    · exact notMem_manyLabels n (by decide) hmem
  rw [calls_labelInit (nodup_manyLabels n) (by rw [length_manyLabels]; omega), if_neg]
  rw [asked, asked, asked, hall.dedup, length_append, length_manyLabels]
  simp only [length_cons, length_nil]
  omega

/-- With as many static labels as `len` can say there is a number for one label more, and none for the next. -/
theorem labels_out_of_numbers :
    (manyLabels 2147483647).Nodup ∧ ((manyLabels 2147483647).length : Int) ≤ INT_MAX ∧
      ¬ ∃ answers, (labelInit (manyLabels 2147483647)).calls [.labelToId ['b'], .labelToId ['c']] = .done answers ∧
        StableBijection (manyLabels 2147483647) [.labelToId ['b'], .labelToId ['c']] answers := by
  refine ⟨nodup_manyLabels _, by rw [length_manyLabels]; decide, ?_⟩
  rw [calls_manyLabels (by decide)]
  nofun

end LabelTable

end SNet.Netif
