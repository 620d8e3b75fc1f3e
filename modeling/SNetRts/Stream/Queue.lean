import SNetRts.Lib.Holes

/-!
# The ordered queue

`stream/utils/queue.c`: a circular buffer of `size` entries with the elements from `head` on and the
position `tail` behind the last one, which is always free. `SNetQueueIteratorGet` takes an element out of
the middle and leaves `NULL` there; when the buffer has come to its end it is closed up by
`SNetQueueCompact`, or gets more entries. A result of `none` is a loop that does not end, or an `int`
that overflows.
-/

namespace SNet

open Function (update update_of_ne update_self)

open List

open Lib Lib.Holes

def NUM_INITIAL_ELEMENTS : Nat := 32

/-- `snet_queue_t`; an entry is `none` for `NULL`. -/
structure Queue (α : Type) where
  head : Nat
  tail : Nat
  size : Nat
  elements : Nat
  entries : Nat → Option α

namespace Queue

variable {α : Type}

/-- `SNetQueueCreate`. -/
def create (α : Type) : Queue α := ⟨0, 0, NUM_INITIAL_ELEMENTS, 0, fun _ => none⟩

/-- The position behind `i`. -/
def succ (q : Queue α) (i : Nat) : Nat := (i + 1) % q.size

/-- The loop of `SNetQueueCompact`. -/
def compactLoop (q : Queue α) : Nat → Nat → Nat → (Nat → Option α) → Option (Nat → Option α)
  | 0, _, _, _ => none
  | fuel + 1, temp, mark, entries =>
    let (mark, entries) :=
      if (entries temp).isNone ∧ mark = q.tail then (temp, entries)
      else if mark ≠ q.tail then (q.succ mark, update entries mark (entries temp))
      else (mark, entries)
    if q.succ temp ≠ q.tail then compactLoop q fuel (q.succ temp) mark entries else some entries

/-- `SNetQueueCompact`. -/
def compact (q : Queue α) : Option (Queue α) := do
  if q.elements ≠ 0 then
    let entries ← q.compactLoop q.size q.head q.tail q.entries
    return { q with entries, tail := (q.head + q.elements) % 2 ^ 32 % q.size }
  else return q

/-- The loop of `SNetQueueIncreaseSize`; `temp` is an `int`. -/
def growLoop (q : Queue α) : Nat → Nat → Nat → (Nat → Option α) → Option (Nat × (Nat → Option α))
  | 0, _, _, _ => none
  | fuel + 1, head, temp, newEntries => do
    let (temp, newEntries) ←
      if (q.entries head).isSome then
        if temp + 1 < 2 ^ 31 then some (temp + 1, update newEntries temp (q.entries head)) else none
      else some (temp, newEntries)
    if q.succ head ≠ q.tail then growLoop q fuel (q.succ head) temp newEntries else some (temp, newEntries)

/-- `SNetQueueIncreaseSize`; the `memset` is from the new tail on. -/
def increaseSize (q : Queue α) : Option (Queue α) := do
  let (temp, newEntries) ← q.growLoop q.size q.head 0 fun _ => none
  return { q with
    head := 0
    tail := temp
    size := (q.size + NUM_INITIAL_ELEMENTS) % 2 ^ 32
    entries := fun i => if i < temp then newEntries i else none }

/-- `SNetQueueSize`, an `int`. -/
def queueSize (q : Queue α) : Int :=
  if q.elements < 2 ^ 31 then q.elements else (q.elements : Int) - 2 ^ 32

def full (q : Queue α) : Bool := q.succ q.tail = q.head

/-- `SNetQueuePut`. -/
def put (q : Queue α) (value : α) : Option (Queue α) := do
  let q ←
    if q.full then
      if q.elements < q.size - 1 then q.compact else q.increaseSize
    else some q
  return { q with
    entries := update (update q.entries q.tail (some value)) (q.succ q.tail) none
    tail := q.succ q.tail
    elements := (q.elements + 1) % 2 ^ 32 }

/-- The loop that takes the head to the next entry that is not `NULL`. -/
def advance (q : Queue α) (entries : Nat → Option α) : Nat → Nat → Option Nat
  | 0, _ => none
  | fuel + 1, head =>
    if q.succ head ≠ q.tail ∧ (entries (q.succ head)).isNone then advance q entries fuel (q.succ head)
    else some (q.succ head)

/-- `SNetQueueGet`. -/
def get (q : Queue α) : Option (Option α × Queue α) := do
  if q.head ≠ q.tail then
    let head ← q.advance q.entries q.size q.head
    return (q.entries q.head, { q with head, elements := (q.elements + (2 ^ 32 - 1)) % 2 ^ 32 })
  else return (none, q)

/-- `SNetQueuePeek`. -/
def peek (q : Queue α) : Option α := if q.head ≠ q.tail then q.entries q.head else none

/-- `SNetQueueIteratorBegin`. -/
def iteratorBegin (q : Queue α) : Nat := q.head

/-- `SNetQueueIteratorEnd`. -/
def iteratorEnd (q : Queue α) : Nat := q.tail

/-- The loop of `SNetQueueIteratorNext`. -/
def nextLoop (q : Queue α) : Nat → Nat → Option Nat
  | 0, _ => none
  | fuel + 1, it =>
    if it ≠ q.tail then
      if (q.entries (q.succ it)).isSome then some (q.succ it) else nextLoop q fuel (q.succ it)
    else some it

/-- `SNetQueueIteratorNext`. -/
def iteratorNext (q : Queue α) (it : Nat) : Option Nat := q.nextLoop (q.size + 1) it

/-- `SNetQueueIteratorGet`. -/
def iteratorGet (q : Queue α) (it : Nat) : Option (Option α × Queue α) := do
  if it ≠ q.tail then
    let entries := update q.entries it none
    let head ← if q.head = it then q.advance entries q.size q.head else some q.head
    return (q.entries it, { q with head, entries, elements := (q.elements + (2 ^ 32 - 1)) % 2 ^ 32 })
  else return (none, q)

/-- `SNetQueueIteratorPeek`. -/
def iteratorPeek (q : Queue α) (it : Nat) : Option α := if it ≠ q.tail then q.entries it else none

def cells (q : Queue α) : List (Option α) :=
  (List.range ((q.tail + q.size - q.head) % q.size)).map fun i => q.entries ((q.head + i) % q.size)

/-- `SNetQueuePut` calls `SNetQueueCompact`. -/
def compacts (q : Queue α) : Bool := q.full && q.elements < q.size - 1

/-! ## What is in the queue -/

/-- The queue has the cells `cs`, of which the first is not a hole. -/
structure Shape (q : Queue α) (cs : List (Option α)) : Prop where
  holds : Circular.Holds q.size q.entries q.head q.tail cs
  first : cs.head? ≠ some none

/-- The elements are counted, and the numbers fit into their types. -/
structure Sound (q : Queue α) (cs : List (Option α)) : Prop extends q.Shape cs where
  elements : q.elements = cs.reduceOption.length
  small : q.size ≤ 2 ^ 31
  aligned : NUM_INITIAL_ELEMENTS ∣ q.size

theorem create_sound : (create α).Sound [] where
  holds := Circular.Holds.nil (show 0 < NUM_INITIAL_ELEMENTS by decide)
  first := nofun
  elements := rfl
  small := show NUM_INITIAL_ELEMENTS ≤ 2 ^ 31 by decide
  aligned := Nat.dvd_refl _

section

variable {q q' : Queue α} {cs : List (Option α)} {i : Nat} {v : α}

theorem Shape.succ_slot (i : Nat) : q.succ ((q.head + i) % q.size) = (q.head + (i + 1)) % q.size := by
  rw [succ, Nat.mod_add_mod, Nat.add_assoc]

/-! ### Loops over holes -/

theorem Shape.nextLoop (h : q.Shape cs) {fuel : Nat} (hi : i < cs.length) (hfuel : cs.length < i + fuel) :
    q.nextLoop fuel ((q.head + i) % q.size) =
      some ((q.head + (i + 1 + gap (cs.drop (i + 1)))) % q.size) := by
  induction fuel generalizing i with
  | zero => omega
  | succ fuel ih =>
    have hne : (q.head + i) % q.size ≠ q.tail := by
      intro heq
      have := (h.holds.slot_eq_stop_iff (Nat.le_of_lt hi)).1 heq
      omega
    rw [Queue.nextLoop, if_pos hne, succ_slot]
    rcases Nat.lt_or_ge (i + 1) cs.length with hlt | hge
    · rw [h.holds.cell (i + 1) hlt, drop_eq_getElem_cons hlt]
      rcases hcell : cs[i + 1] with _ | v
      · rw [if_neg (by simp), ih hlt (by omega), gap_none]
        congr 3
        omega
      · rw [if_pos (by simp), gap_some]
    · -- the end: whatever is there, the loop does not go on behind it
      have hend : (q.head + (i + 1)) % q.size = q.tail := by
        rw [h.holds.slot_eq_stop_iff (by omega)]
        omega
      rw [drop_eq_nil_of_le hge, gap_nil, Nat.add_zero, hend]
      split
      · rfl
      · obtain ⟨fuel, rfl⟩ : ∃ n, fuel = n + 1 := ⟨fuel - 1, by omega⟩
        rw [Queue.nextLoop, if_neg (by simp)]

theorem Shape.iteratorNext (h : q.Shape cs) (hi : i < cs.length) :
    q.iteratorNext ((q.head + i) % q.size) =
      some ((q.head + (i + 1 + gap (cs.drop (i + 1)))) % q.size) := by
  have hshort := h.holds.short
  exact h.nextLoop hi (by omega)

theorem advance_eq {entries : Nat → Option α} (h : Circular.Holds q.size entries q.head q.tail cs)
    {fuel : Nat} (hi : i < cs.length) (hfuel : cs.length ≤ i + fuel) :
    q.advance entries fuel ((q.head + i) % q.size) =
      some ((q.head + (i + 1 + gap (cs.drop (i + 1)))) % q.size) := by
  induction fuel generalizing i with
  | zero => omega
  | succ fuel ih =>
    rw [advance, Shape.succ_slot]
    rcases Nat.lt_or_ge (i + 1) cs.length with hlt | hge
    · have hne : (q.head + (i + 1)) % q.size ≠ q.tail := by
        intro heq
        have := (h.slot_eq_stop_iff (Nat.le_of_lt hlt)).1 heq
        omega
      rw [h.cell (i + 1) hlt, drop_eq_getElem_cons hlt]
      rcases hcell : cs[i + 1] with _ | v
      · rw [if_pos ⟨hne, rfl⟩, ih hlt (by omega), gap_none]
        congr 3
        omega
      · rw [if_neg (by simp), gap_some]
    · have hend : (q.head + (i + 1)) % q.size = q.tail := by
        rw [h.slot_eq_stop_iff (by omega)]
        omega
      rw [if_neg (by rw [hend]; simp), drop_eq_nil_of_le hge]
      rfl

theorem advance_head {entries : Nat → Option α} (h : Circular.Holds q.size entries q.head q.tail cs)
    (hpos : 0 < cs.length) :
    q.advance entries q.size q.head = some ((q.head + (1 + gap cs.tail)) % q.size) := by
  have hshort := h.short
  have hfuel : cs.length ≤ 0 + q.size := by omega
  have hadv := advance_eq h hpos hfuel
  rwa [Nat.add_zero, Nat.mod_eq_of_lt h.start_lt, Nat.zero_add, drop_one] at hadv

/-! ### What the calls do -/

theorem Shape.nil_iff (h : q.Shape cs) : q.head = q.tail ↔ cs = [] := h.holds.eq_iff

theorem Shape.cons (h : q.Shape cs) (hne : cs ≠ []) : ∃ v rest, cs = some v :: rest := by
  obtain ⟨c, rest, rfl⟩ := exists_cons_of_ne_nil hne
  cases c with
  | none => exact absurd rfl h.first
  | some v => exact ⟨v, rest, rfl⟩

theorem Shape.entries_head {rest : List (Option α)} (h : q.Shape (some v :: rest)) :
    q.entries q.head = some v := by
  have hcell := h.holds.cell 0 (Nat.zero_lt_succ _)
  rwa [Nat.add_zero, Nat.mod_eq_of_lt h.holds.start_lt] at hcell

theorem Shape.peek (h : q.Shape cs) : q.peek = cs.reduceOption.head? := by
  by_cases hcs : cs = []
  · rw [Queue.peek, if_neg (not_not.2 (h.nil_iff.2 hcs)), hcs]
    rfl
  · rw [Queue.peek, if_pos (mt h.nil_iff.1 hcs)]
    obtain ⟨v, rest, rfl⟩ := h.cons hcs
    rw [h.entries_head, reduceOption_cons_of_some, head?_cons]

theorem drop_head {entries : Nat → Option α} {c : Option α}
    (h : Circular.Holds q.size entries q.head q.tail (c :: cs)) :
    q.advance entries q.size q.head = some ((q.head + (1 + gap cs)) % q.size) ∧
      Circular.Holds q.size entries ((q.head + (1 + gap cs)) % q.size) q.tail (cs.drop (gap cs)) := by
  have hle : gap cs ≤ cs.length := gap_le
  refine ⟨advance_head h (Nat.zero_lt_succ _), ?_⟩
  have hdrop := h.drop (n := 1 + gap cs) (by rw [length_cons]; omega)
  rwa [Nat.add_comm 1, drop_succ_cons, Nat.add_comm (gap cs)] at hdrop

theorem Sound.lt_size (h : q.Sound cs) : cs.reduceOption.length ≤ cs.length ∧ cs.length < q.size :=
  ⟨cs.reduceOption_length_le, h.holds.short⟩

theorem pred_elements {n : Nat} (hpos : 0 < n) (hlt : n < 2 ^ 32) : (n + (2 ^ 32 - 1)) % 2 ^ 32 = n - 1 := by
  omega

theorem Sound.get_nil (h : q.Sound []) : q.get = some (none, q) := by
  rw [Queue.get, if_neg (not_not.2 (h.nil_iff.2 rfl))]
  rfl

theorem Sound.get_cons {rest : List (Option α)} (h : q.Sound (some v :: rest)) :
    ∃ q', q.get = some (some v, q') ∧ q'.Sound (rest.drop (gap rest)) ∧ q'.size = q.size := by
  obtain ⟨hadv, hholds⟩ := drop_head h.holds
  have hcount := h.elements
  have hsmall := h.small
  have hlt := h.lt_size
  rw [reduceOption_cons_of_some, length_cons] at hcount hlt
  refine ⟨{ q with
    head := (q.head + (1 + gap rest)) % q.size
    elements := (q.elements + (2 ^ 32 - 1)) % 2 ^ 32 }, ?_, ⟨⟨hholds, head?_drop_gap⟩, ?_, hsmall, h.aligned⟩,
    rfl⟩
  · rw [Queue.get, if_pos (mt h.nil_iff.1 (by simp)), hadv, h.entries_head]
    rfl
  · show (q.elements + (2 ^ 32 - 1)) % 2 ^ 32 = _
    rw [pred_elements (by omega) (by omega), reduceOption_drop_gap, hcount, Nat.add_sub_cancel]

theorem iteratorGet_end {it : Nat} (h : it = q.iteratorEnd) : q.iteratorGet it = some (none, q) := by
  rw [iteratorEnd] at h
  rw [Queue.iteratorGet, if_neg (not_not.2 h)]
  rfl

theorem Sound.iteratorGet {n : Nat} (h : q.Sound cs) (hn : (occupied 0 cs)[n]? = some i) :
    ∃ q' cs', q.iteratorGet ((q.head + i) % q.size) = some (cs.reduceOption[n]?, q') ∧ q'.Sound cs' ∧
      cs'.reduceOption = cs.reduceOption.eraseIdx n ∧ q'.tail = q.tail ∧ q'.size = q.size := by
  obtain ⟨-, v, hcell, hread, herase⟩ := getElem?_occupied hn
  rw [Nat.sub_zero] at hcell herase
  obtain ⟨hi, hget⟩ := List.getElem?_eq_some_iff.1 hcell
  have hentry : q.entries ((q.head + i) % q.size) = some v := by
    rw [h.holds.cell i hi, hget]
  have hne : (q.head + i) % q.size ≠ q.tail := by
    intro heq
    have := (h.holds.slot_eq_stop_iff (Nat.le_of_lt hi)).1 heq
    omega
  have hset := h.holds.set (x := none) hi
  have hcount := h.elements
  have hsmall := h.small
  have hlt := h.lt_size
  have hnlt := (List.getElem?_eq_some_iff.1 hread).1
  have helems : (q.elements + (2 ^ 32 - 1)) % 2 ^ 32 = (cs.reduceOption.eraseIdx n).length := by
    rw [pred_elements (by omega) (by omega), hcount, length_eraseIdx_of_lt hnlt]
  have hhead : q.head = (q.head + i) % q.size ↔ i = 0 := by
    have hstart := h.holds.start_lt
    constructor
    · intro heq
      have hsize : 0 < q.size := by omega
      refine Circular.Holds.slot_inj (by omega) hsize (?_ : (q.head + i) % q.size = (q.head + 0) % q.size)
      rw [← heq, Nat.add_zero, Nat.mod_eq_of_lt hstart]
    · rintro rfl
      rw [Nat.add_zero, Nat.mod_eq_of_lt hstart]
  rw [Queue.iteratorGet, if_pos hne, hentry, ← hread]
  by_cases hi0 : i = 0
  · -- the element is the first one: the head goes on to the next
    obtain ⟨v', rest, rfl⟩ := h.cons (ne_nil_of_length_pos (by omega))
    subst hi0
    rw [set_cons_zero] at hset herase
    obtain ⟨hadv, hholds⟩ := drop_head hset
    refine ⟨{ q with
      head := (q.head + (1 + gap rest)) % q.size
      entries := update q.entries ((q.head + 0) % q.size) none
      elements := (q.elements + (2 ^ 32 - 1)) % 2 ^ 32 }, rest.drop (gap rest), ?_, ⟨⟨hholds, head?_drop_gap⟩, ?_, hsmall, h.aligned⟩, ?_,
      rfl, rfl⟩
    · simp only [if_pos (hhead.2 rfl), hadv]
      rfl
    · rw [reduceOption_drop_gap, ← reduceOption_cons_of_none, herase]
      exact helems
    · rw [reduceOption_drop_gap, ← reduceOption_cons_of_none, herase]
  · refine ⟨{ q with
      entries := update q.entries ((q.head + i) % q.size) none
      elements := (q.elements + (2 ^ 32 - 1)) % 2 ^ 32 }, cs.set i none, ?_, ⟨⟨hset, ?_⟩, ?_, hsmall, h.aligned⟩, herase, rfl, rfl⟩
    · simp only [if_neg (mt hhead.1 hi0)]
      rfl
    · rw [head?_eq_getElem?, getElem?_set_ne hi0, ← head?_eq_getElem?]
      exact h.first
    · rw [herase]
      exact helems

/-! ### Room for an element -/

theorem Shape.full_iff (h : q.Shape cs) : q.full = true ↔ cs.length + 1 = q.size := by
  have hshort := h.holds.short
  have hstart := h.holds.start_lt
  have hsucc : q.succ q.tail = (q.head + (cs.length + 1)) % q.size := by
    rw [h.holds.stop_eq, Shape.succ_slot]
  rw [full, decide_eq_true_eq, hsucc]
  constructor
  · intro heq
    by_contra hne
    have hzero : (q.head + (cs.length + 1)) % q.size = (q.head + 0) % q.size := by
      rw [heq, Nat.add_zero, Nat.mod_eq_of_lt hstart]
    have := Circular.Holds.slot_inj (by omega) (by omega) hzero
    omega
  · intro heq
    rw [heq, Nat.add_mod_right, Nat.mod_eq_of_lt hstart]

theorem compactLoop_moving {fuel : Nat} {entries : Nat → Option α} {ds : List (Option α)}
    (h : Circular.Holds q.size entries q.head q.tail ds) (hi : i + 1 < ds.length)
    (hfuel : ds.length ≤ i + 1 + fuel) :
    ∃ entries' ds', q.compactLoop fuel ((q.head + (i + 1)) % q.size) ((q.head + i) % q.size) entries =
        some entries' ∧ Circular.Holds q.size entries' q.head q.tail ds' ∧ ds'.length = ds.length ∧
      ds'.take (ds.length - 1) = ds.eraseIdx i := by
  induction fuel generalizing i entries ds with
  | zero => omega
  | succ fuel ih =>
    have hshort := h.short
    have hmark : (q.head + i) % q.size ≠ q.tail := by
      intro heq
      have := (h.slot_eq_stop_iff (by omega)).1 heq
      omega
    have hset := h.set (i := i) (x := ds[i + 1]) (by omega)
    -- what has been moved: the cell behind the mark may go
    have herase : (ds.set i ds[i + 1]).eraseIdx (i + 1) = ds.eraseIdx i := by
      apply ext_getElem?
      intro j
      rw [getElem?_eraseIdx, getElem?_eraseIdx]
      rcases Nat.lt_trichotomy j i with hlt | rfl | hgt
      · rw [if_pos (by omega), if_pos hlt, getElem?_set_ne (by omega)]
      · rw [if_pos (by omega), if_neg (by omega), getElem?_set_self (by omega),
          getElem?_eq_getElem hi]
      · rw [if_neg (by omega), if_neg (by omega), getElem?_set_ne (by omega)]
    rw [Queue.compactLoop, if_neg (by simp [hmark]), if_pos hmark, h.cell (i + 1) hi, Shape.succ_slot,
      Shape.succ_slot]
    dsimp only
    by_cases hlast : i + 1 + 1 = ds.length
    · have hend : (q.head + (i + 1 + 1)) % q.size = q.tail := (h.slot_eq_stop_iff (by omega)).2 hlast
      rw [if_neg (not_not.2 hend)]
      refine ⟨_, _, rfl, hset, length_set, ?_⟩
      rw [← herase, eraseIdx_eq_take_drop_succ, drop_eq_nil_of_le (by rw [length_set]; omega),
        append_nil]
      congr 1
      omega
    · have hmore : (q.head + (i + 1 + 1)) % q.size ≠ q.tail := by
        intro heq
        exact hlast ((h.slot_eq_stop_iff (by omega)).1 heq)
      rw [if_pos hmore]
      obtain ⟨entries', ds', hloop, hholds, hlen, htake⟩ :=
        ih (i := i + 1) hset (by rw [length_set]; omega) (by rw [length_set]; omega)
      rw [length_set] at hlen htake
      exact ⟨entries', ds', hloop, hholds, hlen, htake.trans herase⟩

theorem compactLoop_looking {fuel : Nat} (h : Circular.Holds q.size q.entries q.head q.tail cs)
    {pre : List α} {post : List (Option α)} (hcs : cs = pre.map some ++ none :: post)
    (hi : i ≤ pre.length) (hfuel : cs.length ≤ i + fuel) :
    ∃ entries' cs', q.compactLoop fuel ((q.head + i) % q.size) q.tail q.entries = some entries' ∧
      Circular.Holds q.size entries' q.head q.tail cs' ∧ cs'.length = cs.length ∧
        cs'.take (cs.length - 1) = cs.eraseIdx pre.length := by
  have hlen : cs.length = pre.length + 1 + post.length := by
    rw [hcs]
    simp
    omega
  have hshort := h.short
  induction fuel generalizing i with
  | zero => omega
  | succ fuel ih =>
    rw [Queue.compactLoop, Shape.succ_slot]
    rcases Nat.eq_or_lt_of_le hi with rfl | hlt
    · -- the first hole is marked
      have hnone : q.entries ((q.head + pre.length) % q.size) = none := by
        rw [h.cell pre.length (by omega)]
        simp [hcs]
      rw [if_pos ⟨by rw [hnone]; rfl, rfl⟩]
      dsimp only
      by_cases hlast : pre.length + 1 = cs.length
      · have hend : (q.head + (pre.length + 1)) % q.size = q.tail := (h.slot_eq_stop_iff (by omega)).2 hlast
        rw [if_neg (not_not.2 hend)]
        refine ⟨_, _, rfl, h, rfl, ?_⟩
        rw [eraseIdx_eq_take_drop_succ, drop_eq_nil_of_le (by omega), append_nil]
        congr 1
        omega
      · have hmore : (q.head + (pre.length + 1)) % q.size ≠ q.tail := by
          intro heq
          exact hlast ((h.slot_eq_stop_iff (by omega)).1 heq)
        rw [if_pos hmore]
        exact compactLoop_moving h (by omega) (by omega)
    · have hsome : ∃ v, q.entries ((q.head + i) % q.size) = some v := by
        rw [h.cell i (by omega)]
        refine ⟨pre[i], ?_⟩
        simp only [hcs]
        rw [getElem_append_left (by simpa), getElem_map]
      obtain ⟨v, hv⟩ := hsome
      have hmore : (q.head + (i + 1)) % q.size ≠ q.tail := by
        intro heq
        have := (h.slot_eq_stop_iff (by omega)).1 heq
        omega
      rw [if_neg (by simp [hv]), if_neg (by simp)]
      dsimp only
      rw [if_pos hmore]
      exact ih (by omega) (by omega)

theorem Shape.cells (h : q.Shape cs) : q.cells = cs := by
  have hlen : (q.tail + q.size - q.head) % q.size = cs.length := by
    have hstart := h.holds.start_lt
    have hshort := h.holds.short
    rcases h.holds.stop_cases with ⟨_, heq⟩ | ⟨_, heq⟩
    · have hsub : q.tail + q.size - q.head = cs.length + q.size := by omega
      rw [hsub, Nat.add_mod_right, Nat.mod_eq_of_lt hshort]
    · have hsub : q.tail + q.size - q.head = cs.length := by omega
      rw [hsub, Nat.mod_eq_of_lt hshort]
  rw [Queue.cells, hlen]
  apply ext_getElem (by simp)
  intro i hi hi'
  rw [getElem_map, getElem_range]
  exact h.holds.cell i hi'

theorem Sound.compact (h : q.Sound cs) (hhole : cs.reduceOption.length < cs.length) :
    ∃ q', q.compact = some q' ∧ q'.Shape ((squeeze cs).take cs.reduceOption.length) ∧
      q'.size = q.size ∧ q'.elements = q.elements := by
  obtain ⟨v, rest, hcons⟩ := h.cons (ne_nil_of_length_pos (Nat.zero_lt_of_lt hhole))
  have hcount := h.elements
  have hstart := h.holds.start_lt
  have hshort := h.holds.short
  have hsmall := h.small
  have hpos : 0 < cs.reduceOption.length := by
    rw [hcons, reduceOption_cons_of_some]
    exact Nat.zero_lt_succ _
  obtain ⟨pre, post, hcs⟩ := exists_hole hhole
  have hfuel : cs.length ≤ 0 + q.size := by omega
  obtain ⟨entries, cs', hloop, hholds, hlen, htake⟩ :=
    compactLoop_looking h.holds hcs (Nat.zero_le _) hfuel
  rw [Nat.add_zero, Nat.mod_eq_of_lt hstart] at hloop
  have hcells : cs'.take cs.reduceOption.length = (squeeze cs).take cs.reduceOption.length := by
    have hsqueeze : squeeze cs = cs.eraseIdx pre.length := by
      rw [hcs, squeeze_eq, eraseIdx_append_of_length_le (by simp)]
      simp
    rw [hsqueeze, ← htake, take_take, Nat.min_eq_left (by omega)]
  refine ⟨{ q with entries, tail := (q.head + q.elements) % 2 ^ 32 % q.size }, ?_, ⟨?_, ?_⟩, rfl, rfl⟩
  · rw [Queue.compact, if_pos (by omega), hloop]
    rfl
  · rw [← hcells]
    have hmod : (q.head + q.elements) % 2 ^ 32 = q.head + cs.reduceOption.length := by omega
    show Circular.Holds q.size entries q.head ((q.head + q.elements) % 2 ^ 32 % q.size) _
    rw [hmod]
    exact hholds.take (by omega)
  · rw [hcons, squeeze]
    obtain ⟨n, hn⟩ : ∃ n, (some v :: rest).reduceOption.length = n + 1 :=
      ⟨rest.reduceOption.length, by rw [reduceOption_cons_of_some, length_cons]⟩
    rw [hn, take_succ_cons]
    simp

theorem Sound.growLoop {xs : List α} (h : q.Sound (xs.map some)) {fuel : Nat} (hi : i < xs.length)
    (hfuel : xs.length ≤ i + fuel) (newEntries : Nat → Option α) :
    ∃ newEntries', q.growLoop fuel ((q.head + i) % q.size) i newEntries = some (xs.length, newEntries') ∧
      (∀ j, j < i → newEntries' j = newEntries j) ∧
        ∀ j (hj : j < xs.length), i ≤ j → newEntries' j = some xs[j] := by
  have hlt := h.lt_size.2
  have hsmall := h.small
  have hlen : (xs.map some).length = xs.length := length_map _
  induction fuel generalizing i newEntries with
  | zero => omega
  | succ fuel ih =>
    have hentry : q.entries ((q.head + i) % q.size) = some xs[i] := by
      rw [h.holds.cell i (by omega), getElem_map]
    rw [Queue.growLoop, hentry, Option.isSome_some, if_pos (Eq.refl true), if_pos (by omega),
      Option.bind_eq_bind, Option.bind_some, Shape.succ_slot]
    dsimp only
    by_cases hlast : i + 1 = xs.length
    · have hend : (q.head + (i + 1)) % q.size = q.tail := (h.holds.slot_eq_stop_iff (by omega)).2 (by omega)
      rw [if_neg (not_not.2 hend), hlast]
      refine ⟨_, rfl, ?_, ?_⟩
      · intro j hj
        exact update_of_ne (by omega) ..
      · intro j hj hij
        obtain rfl : j = i := by omega
        exact update_self ..
    · have hmore : (q.head + (i + 1)) % q.size ≠ q.tail := by
        intro heq
        have := (h.holds.slot_eq_stop_iff (by omega)).1 heq
        omega
      rw [if_pos hmore]
      obtain ⟨newEntries', hloop, hbefore, hfrom⟩ :=
        ih (i := i + 1) (by omega) (by omega) (update newEntries i (some xs[i]))
      refine ⟨newEntries', hloop, ?_, ?_⟩
      · intro j hj
        rw [hbefore j (by omega), update_of_ne (by omega)]
      · intro j hj hij
        rcases Nat.eq_or_lt_of_le hij with rfl | hlt
        · rw [hbefore i (by omega), update_self]
        · exact hfrom j hj hlt

theorem Sound.increaseSize {xs : List α} (h : q.Sound (xs.map some)) (hpos : 0 < xs.length)
    (hsize : q.size < 2 ^ 31) :
    ∃ q', q.increaseSize = some q' ∧ q'.Sound (xs.map some) ∧ q'.size = q.size + NUM_INITIAL_ELEMENTS ∧
      q'.elements = q.elements := by
  have hlt := h.lt_size.2
  rw [length_map] at hlt
  have hfuel : xs.length ≤ 0 + q.size := by omega
  obtain ⟨newEntries, hloop, -, hnew⟩ := h.growLoop hpos hfuel fun _ => none
  rw [Nat.add_zero, Nat.mod_eq_of_lt h.holds.start_lt] at hloop
  obtain ⟨k, hk⟩ := h.aligned
  unfold NUM_INITIAL_ELEMENTS at hk
  have hmod : (q.size + NUM_INITIAL_ELEMENTS) % 2 ^ 32 = q.size + NUM_INITIAL_ELEMENTS := by
    unfold NUM_INITIAL_ELEMENTS
    omega
  refine ⟨{ q with
    head := 0
    tail := xs.length
    size := q.size + NUM_INITIAL_ELEMENTS
    entries := fun i => if i < xs.length then newEntries i else none },
    ?_, ⟨⟨⟨?_, ?_, ?_, ?_⟩, h.first⟩, h.elements, ?_, ?_⟩, rfl, rfl⟩
  · rw [Queue.increaseSize, hloop, hmod]
    rfl
  · show 0 < q.size + NUM_INITIAL_ELEMENTS
    omega
  · show (xs.map some).length < q.size + NUM_INITIAL_ELEMENTS
    rw [length_map]
    omega
  · show xs.length = (0 + (xs.map some).length) % (q.size + NUM_INITIAL_ELEMENTS)
    rw [length_map, Nat.zero_add, Nat.mod_eq_of_lt (by omega)]
  · intro i hi
    rw [length_map] at hi
    show (if (0 + i) % (q.size + NUM_INITIAL_ELEMENTS) < xs.length then
      newEntries ((0 + i) % (q.size + NUM_INITIAL_ELEMENTS)) else none) = _
    rw [Nat.zero_add, Nat.mod_eq_of_lt (by omega), if_pos hi, hnew i hi (Nat.zero_le i), getElem_map]
  · show q.size + NUM_INITIAL_ELEMENTS ≤ 2 ^ 31
    unfold NUM_INITIAL_ELEMENTS
    omega
  · exact Nat.dvd_add h.aligned (Nat.dvd_refl _)

theorem Shape.push (h : q.Shape cs) (hroom : cs.length + 1 < q.size) (v : α) (elements : Nat) :
    (⟨q.head, q.succ q.tail, q.size, elements,
      update (update q.entries q.tail (some v)) (q.succ q.tail) none⟩ : Queue α).Shape
      (cs ++ [some v]) := by
  have hsucc : q.succ q.tail = (q.head + (cs.length + 1)) % q.size := by
    rw [h.holds.stop_eq, Shape.succ_slot]
  refine ⟨?_, ?_⟩
  · have hsnoc := h.holds.snoc (x := some v) hroom
    have hfree := hsnoc.update_free (i := cs.length + 1) (x := none) (by simp) hroom
    rw [← hsucc] at hfree
    exact hfree
  · cases cs with
    | nil => nofun
    | cons c cs => exact h.first

theorem Sound.put (h : q.Sound cs) (hcount : q.elements + 1 < 2 ^ 31) (v : α) :
    ∃ q' cs', q.put v = some q' ∧ q'.Shape cs' ∧ q'.elements = q.elements + 1 ∧
      (q.size ≤ q'.size ∧ q'.size ≤ 2 ^ 31 ∧ NUM_INITIAL_ELEMENTS ∣ q'.size) ∧ (cs'.reduceOption = cs.reduceOption ++ [v] ↔
        (q.compacts = true → holesBeforeLast cs ≤ 1)) := by
  have hlen := h.lt_size
  have helems := h.elements
  have hmod : (q.elements + 1) % 2 ^ 32 = q.elements + 1 := by omega
  by_cases hfull : q.full = true
  · have hsize := h.full_iff.1 hfull
    by_cases hholes : q.elements < q.size - 1
    · -- there are holes, and the buffer is closed up
      obtain ⟨q₁, hcompact, hshape, hsize₁, helems₁⟩ := h.compact (by omega)
      have hcompacts : q.compacts = true := by
        rw [compacts, hfull, decide_eq_true hholes]
        rfl
      have htake := length_take_le cs.reduceOption.length (squeeze cs)
      refine ⟨_, _, ?_, hshape.push (by omega) v (q.elements + 1), rfl, ⟨?_, ?_, ?_⟩, ?_⟩
      · rw [Queue.put, if_pos hfull, if_pos hholes, hcompact, Option.bind_eq_bind, Option.bind_some]
        simp only [helems₁, hmod]
        rfl
      · exact Nat.le_of_eq hsize₁.symm
      · exact hsize₁ ▸ h.small
      · exact hsize₁ ▸ h.aligned
      · rw [reduceOption_append, ← take_squeeze_iff]
        have hv : ([some v] : List (Option α)).reduceOption = [v] := rfl
        rw [hv, append_left_inj]
        exact ⟨fun heq _ => heq, fun himp => himp hcompacts⟩
    · -- there are none, and the buffer grows
      have hmap : cs = cs.reduceOption.map some := eq_map_some (by omega)
      have hpos : 0 < cs.reduceOption.length := by
        obtain ⟨k, hk⟩ := h.aligned
        unfold NUM_INITIAL_ELEMENTS at hk
        omega
      have hsmall : q.size < 2 ^ 31 := by omega
      rw [hmap] at h
      obtain ⟨q₁, hgrow, hsound, hsize₁, helems₁⟩ := h.increaseSize hpos hsmall
      have hroom : (cs.reduceOption.map some).length + 1 < q₁.size := by
        rw [length_map, hsize₁]
        unfold NUM_INITIAL_ELEMENTS
        omega
      have hle : q.size ≤ q₁.size := by
        rw [hsize₁]
        exact Nat.le_add_right _ _
      refine ⟨_, _, ?_, hsound.push hroom v (q.elements + 1), rfl, ⟨hle, hsound.small, hsound.aligned⟩, ?_⟩
      · rw [Queue.put, if_pos hfull, if_neg hholes, hgrow, Option.bind_eq_bind, Option.bind_some]
        simp only [helems₁, hmod]
        rfl
      · refine iff_of_true ?_ ?_
        · rw [reduceOption_append, reduceOption_map_some]
          rfl
        · intro hcompacts
          rw [compacts, decide_eq_false hholes, Bool.and_false] at hcompacts
          cases hcompacts
  · have hroom : cs.length + 1 < q.size := by
      have := mt h.full_iff.2 hfull
      omega
    refine ⟨_, _, ?_, h.push hroom v (q.elements + 1), rfl, ⟨Nat.le_refl _, h.small, h.aligned⟩, ?_⟩
    · rw [Queue.put, if_neg hfull, Option.bind_eq_bind, Option.bind_some]
      simp only [hmod]
      rfl
    · refine iff_of_true ?_ ?_
      · rw [reduceOption_append]
        rfl
      · intro hcompacts
        rw [compacts, Bool.eq_false_iff.2 hfull, Bool.false_and] at hcompacts
        cases hcompacts

end

end Queue

end SNet
