import SNetRts.Stream.Queue

/-!
# Runs of the ordered queue

Sequences of calls on a queue with any number of iterator variables, beside the list of the elements
that are left. The elements are what an iterator goes over from the begin to the end. Calls keep the
list except in two cases: `SNetQueueCompact` moves what follows the first hole by one entry only, so that
with another hole in between the last element is cut off, and `SNetQueueIteratorGet` counts down also
where the iterator is not at an element any more.
-/

namespace SNet

open Function (update update_self)

open List

open Lib Lib.Holes

namespace Queue

variable {α : Type}

/-! ## Going over the elements -/

/-- The iterators from `it` to the end. -/
def positionsFrom (q : Queue α) : Nat → Nat → Option (List Nat)
  | 0, _ => none
  | fuel + 1, it => do
    if it ≠ q.iteratorEnd then
      let next ← q.iteratorNext it
      let its ← positionsFrom q fuel next
      return it :: its
    else return []

def positions (q : Queue α) : Option (List Nat) := q.positionsFrom q.size q.iteratorBegin

/-- The iterator is at the `n`-th element. -/
def At (q : Queue α) (it n : Nat) : Prop := ∃ its, q.positions = some its ∧ its[n]? = some it

/-- The queue has the elements `xs`. -/
structure IsQueueOf (q : Queue α) (xs : List α) : Prop where
  walk : ∃ its, q.positions = some its ∧ its.map q.iteratorPeek = xs.map some
  size : q.queueSize = xs.length
  peek : q.peek = xs.head?

section

variable {q : Queue α} {cs : List (Option α)} {i it n : Nat}

theorem Shape.positionsFrom (h : q.Shape cs) {fuel : Nat} (hi : i ≤ cs.length)
    (hfirst : (cs.drop i).head? ≠ some none) (hfuel : cs.length < i + fuel) :
    q.positionsFrom fuel ((q.head + i) % q.size) =
      some ((occupied i (cs.drop i)).map fun i => (q.head + i) % q.size) := by
  induction fuel generalizing i with
  | zero => omega
  | succ fuel ih =>
    rw [Queue.positionsFrom, iteratorEnd]
    rcases Nat.eq_or_lt_of_le hi with rfl | hlt
    · rw [if_neg (not_not.2 ((h.holds.slot_eq_stop_iff hi).2 rfl)), drop_length]
      rfl
    · have hne : (q.head + i) % q.size ≠ q.tail := by
        intro heq
        have := (h.holds.slot_eq_stop_iff hi).1 heq
        omega
      have hgap : gap (cs.drop (i + 1)) ≤ (cs.drop (i + 1)).length := gap_le
      rw [length_drop] at hgap
      have hdrop : cs.drop (i + 1 + gap (cs.drop (i + 1))) = (cs.drop (i + 1)).drop (gap (cs.drop (i + 1))) := by
        rw [drop_drop]
      rw [if_pos hne, h.iteratorNext hlt, Option.bind_eq_bind, Option.bind_some,
        ih (by omega) (by rw [hdrop]; exact head?_drop_gap) (by omega), hdrop, occupied_drop_gap]
      rw [drop_eq_getElem_cons hlt] at hfirst ⊢
      rcases hcell : cs[i] with _ | v
      · exact absurd (by rw [hcell]; rfl) hfirst
      · rfl

theorem Shape.positions (h : q.Shape cs) :
    q.positions = some ((occupied 0 cs).map fun i => (q.head + i) % q.size) := by
  have hstart := h.holds.start_lt
  have hshort := h.holds.short
  have hfuel : cs.length < 0 + q.size := by omega
  have hfrom := h.positionsFrom (Nat.zero_le _) h.first hfuel
  rwa [Nat.add_zero, Nat.mod_eq_of_lt hstart] at hfrom

theorem Shape.walk (h : q.Shape cs) :
    ∃ its, q.positions = some its ∧ its.map q.iteratorPeek = cs.reduceOption.map some := by
  refine ⟨_, h.positions, ?_⟩
  rw [map_map]
  apply ext_getElem (by rw [length_map, length_map, length_occupied])
  intro n hn hn'
  rw [length_map] at hn
  obtain ⟨-, v, hcell, hread, -⟩ := getElem?_occupied (getElem?_eq_getElem hn)
  rw [Nat.sub_zero] at hcell
  obtain ⟨hlt, hget⟩ := List.getElem?_eq_some_iff.1 hcell
  obtain ⟨hlt', hget'⟩ := List.getElem?_eq_some_iff.1 hread
  have hne : (q.head + (occupied 0 cs)[n]) % q.size ≠ q.tail := by
    intro heq
    have := (h.holds.slot_eq_stop_iff (Nat.le_of_lt hlt)).1 heq
    omega
  rw [getElem_map, getElem_map, Function.comp_apply, iteratorPeek, if_pos hne,
    h.holds.cell _ hlt, hget, hget']

theorem Shape.at_iff (h : q.Shape cs) :
    q.At it n ↔ ∃ i, (occupied 0 cs)[n]? = some i ∧ it = (q.head + i) % q.size := by
  rw [At, h.positions]
  constructor
  · rintro ⟨its, hits, hn⟩
    cases hits
    obtain ⟨i, hi, rfl⟩ := Option.map_eq_some_iff.1 (getElem?_map .. ▸ hn)
    exact ⟨i, hi, rfl⟩
  · rintro ⟨i, hi, rfl⟩
    refine ⟨_, rfl, ?_⟩
    rw [getElem?_map, hi]
    rfl

theorem next_of_positionsFrom {fuel it₀ : Nat} {its : List Nat} (h : q.positionsFrom fuel it₀ = some its)
    (hn : its[n]? = some it) :
    ∃ it', q.iteratorNext it = some it' ∧
      (its[n + 1]? = some it' ∨ its.length = n + 1 ∧ it' = q.iteratorEnd) := by
  induction fuel generalizing it₀ its n with
  | zero => cases h
  | succ fuel ih =>
    rw [Queue.positionsFrom] at h
    split at h
    case isTrue =>
      obtain ⟨next, hnext, h⟩ := Option.bind_eq_some_iff.1 h
      obtain ⟨rest, hrest, heq⟩ := Option.bind_eq_some_iff.1 h
      cases heq
      cases n with
      | zero =>
        cases hn
        refine ⟨next, hnext, ?_⟩
        -- the rest is empty just at the end
        cases fuel with
        | zero => cases hrest
        | succ fuel =>
          rw [Queue.positionsFrom] at hrest
          split at hrest
          case isTrue =>
            obtain ⟨next', -, hrest⟩ := Option.bind_eq_some_iff.1 hrest
            obtain ⟨rest', -, heq⟩ := Option.bind_eq_some_iff.1 hrest
            cases heq
            exact .inl rfl
          case isFalse hend =>
            cases hrest
            exact .inr ⟨rfl, not_not.1 hend⟩
      | succ n =>
        obtain ⟨it', hnext', hor⟩ := ih hrest hn
        refine ⟨it', hnext', ?_⟩
        rw [getElem?_cons_succ, length_cons, Nat.add_right_cancel_iff]
        exact hor
    case isFalse =>
      cases h
      cases hn

theorem IsQueueOf.next_at {xs : List α} (h : q.IsQueueOf xs) (hat : q.At it n) :
    ∃ it', q.iteratorNext it = some it' ∧
      (q.At it' (n + 1) ∨ xs.length = n + 1 ∧ it' = q.iteratorEnd) := by
  obtain ⟨its, hits, hn⟩ := hat
  obtain ⟨its', hits', hwalk⟩ := h.walk
  rw [hits] at hits'
  cases hits'
  obtain ⟨it', hnext, hor⟩ := next_of_positionsFrom hits hn
  have hlen := congrArg List.length hwalk
  rw [length_map, length_map] at hlen
  rw [hlen] at hor
  exact ⟨it', hnext, hor.imp_left fun hnext => ⟨its, hits, hnext⟩⟩

theorem IsQueueOf.peek_at {xs : List α} (h : q.IsQueueOf xs) (hat : q.At it n) :
    q.iteratorPeek it = xs[n]? := by
  obtain ⟨its, hits, hn⟩ := hat
  obtain ⟨its', hits', hwalk⟩ := h.walk
  rw [hits] at hits'
  cases hits'
  have hread : (its.map q.iteratorPeek)[n]? = (xs.map some)[n]? := by rw [hwalk]
  rw [getElem?_map, getElem?_map, hn] at hread
  obtain ⟨v, hv, heq⟩ := Option.map_eq_some_iff.1 hread.symm
  rw [hv, ← heq]

theorem queueSize_eq_iff (hlt : q.elements < 2 ^ 31) : q.queueSize = n ↔ q.elements = n := by
  rw [queueSize, if_pos hlt]
  exact Int.ofNat_inj

theorem Sound.elements_lt (h : q.Sound cs) : q.elements < 2 ^ 31 := by
  have hlt := h.lt_size
  have hsmall := h.small
  have helems := h.elements
  omega

theorem Sound.isQueueOf (h : q.Sound cs) : q.IsQueueOf cs.reduceOption where
  walk := h.walk
  size := (queueSize_eq_iff h.elements_lt).2 h.elements
  peek := h.peek

theorem Shape.eq_of_isQueueOf {xs : List α} (h : q.Shape cs) (hof : q.IsQueueOf xs) :
    xs = cs.reduceOption := by
  obtain ⟨its, hits, hwalk⟩ := h.walk
  obtain ⟨its', hits', hwalk'⟩ := hof.walk
  rw [hits] at hits'
  cases hits'
  rw [hwalk] at hwalk'
  exact (map_injective_iff.2 (Option.some_injective α) hwalk').symm

theorem nextLoop_ends {fuel d : Nat} (hit : it < q.size) (hd : (it + d) % q.size = q.tail) (hfuel : d < fuel) :
    ∃ it', q.nextLoop fuel it = some it' ∧ it' < q.size := by
  induction fuel generalizing it d with
  | zero => omega
  | succ fuel ih =>
    rw [Queue.nextLoop]
    by_cases hend : it = q.tail
    · rw [if_neg (not_not.2 hend)]
      exact ⟨it, rfl, hit⟩
    · have hsucc : q.succ it < q.size := Nat.mod_lt _ (by omega)
      rw [if_pos hend]
      split
      · exact ⟨_, rfl, hsucc⟩
      · cases d with
        | zero => exact absurd (by rw [← hd, Nat.add_zero, Nat.mod_eq_of_lt hit]) hend
        | succ d =>
          apply ih hsucc (d := d)
          · rw [succ, Nat.mod_add_mod, ← hd]
            congr 1
            omega
          · omega

theorem iteratorNext_ends (hit : it < q.size) (htail : q.tail < q.size) :
    ∃ it', q.iteratorNext it = some it' ∧ it' < q.size := by
  apply nextLoop_ends hit (d := (q.tail + q.size - it) % q.size)
  · rw [Nat.add_mod_mod]
    have hsum : it + (q.tail + q.size - it) = q.tail + q.size := by omega
    rw [hsum, Nat.add_mod_right, Nat.mod_eq_of_lt htail]
  · have := Nat.mod_lt (q.tail + q.size - it) (by omega : 0 < q.size)
    omega

end

/-! ## Calls -/

/-- A queue and iterator variables. -/
structure Use (α : Type) where
  queue : Queue α
  its : Nat → Option Nat

/-- The calls; those of an iterator have its variable. -/
inductive Call (α : Type) where
  | put (value : α)
  | get
  | peek
  | iteratorBegin (x : Nat)
  | iteratorEnd (x : Nat)
  | iteratorNext (x : Nat)
  | iteratorPeek (x : Nat)
  | iteratorGet (x : Nat)

namespace Use

/-- An iterator that is used: nothing is done with a variable that has not been set. -/
def withIterator (s : Use α) (x : Nat) (f : Nat → Option (Option α × Use α)) : Option (Option α × Use α) :=
  match s.its x with
  | some it => f it
  | none => some (none, s)

def exec (s : Use α) : Call α → Option (Option α × Use α)
  | .put value => (s.queue.put value).map fun queue => (none, { s with queue })
  | .get => s.queue.get.map fun (v, queue) => (v, { s with queue })
  | .peek => some (s.queue.peek, s)
  | .iteratorBegin x => some (none, { s with its := update s.its x (some s.queue.iteratorBegin) })
  | .iteratorEnd x => some (none, { s with its := update s.its x (some s.queue.iteratorEnd) })
  | .iteratorNext x => s.withIterator x fun it =>
    (s.queue.iteratorNext it).map fun it => (none, { s with its := update s.its x (some it) })
  | .iteratorPeek x => s.withIterator x fun it => some (s.queue.iteratorPeek it, s)
  | .iteratorGet x => s.withIterator x fun it =>
    (s.queue.iteratorGet it).map fun (v, queue) => (v, { s with queue })

/-- One call and the elements. An iterator that is neither at an element nor at the end has no element
to give. -/
def Agrees (s : Use α) (xs : List α) (r : Option α) (s' : Use α) (xs' : List α) : Call α → Prop
  | .put value => xs' = xs ++ [value]
  | .get => r = xs.head? ∧ xs' = xs.tail
  | .peek => r = xs.head? ∧ xs' = xs
  | .iteratorBegin _ | .iteratorEnd _ => xs' = xs
  | .iteratorNext x => xs' = xs ∧ ∀ it n, s.its x = some it → s.queue.At it n →
    ∃ it', s'.its x = some it' ∧ (s'.queue.At it' (n + 1) ∨ xs.length = n + 1 ∧ it' = s'.queue.iteratorEnd)
  | .iteratorPeek x => xs' = xs ∧ ∀ it n, s.its x = some it → s.queue.At it n → r = xs[n]?
  | .iteratorGet x => ∀ it, s.its x = some it → (it = s.queue.iteratorEnd ∧ r = none ∧ xs' = xs) ∨
    (∃ n, s.queue.At it n ∧ r = xs[n]? ∧ xs' = xs.eraseIdx n) ∨
      (it ≠ s.queue.iteratorEnd ∧ (∀ n, ¬ s.queue.At it n) ∧ xs' = xs)

/-- In all of the run the queue has the elements that are left, and each call returns what it should. -/
def IsOrdered (s : Use α) (xs : List α) : List (Call α) → Prop
  | [] => s.queue.IsQueueOf xs
  | call :: calls => s.queue.IsQueueOf xs ∧
    ∃ r s' xs', s.exec call = some (r, s') ∧ s.Agrees xs r s' xs' call ∧ IsOrdered s' xs' calls

/-- Where `SNetQueuePut` closes up the buffer there is at most one hole before the last element, and the
elements can be counted by an `int`; `SNetQueueIteratorGet` is called at an element or at the end. -/
def Careful (s : Use α) : Call α → Prop
  | .put _ => (s.queue.compacts = true → holesBeforeLast s.queue.cells ≤ 1) ∧ s.queue.elements + 1 < 2 ^ 31
  | .iteratorGet x => ∀ it, s.its x = some it → it = s.queue.iteratorEnd ∨ ∃ n, s.queue.At it n
  | _ => True

def AllCareful (s : Use α) : List (Call α) → Prop
  | [] => True
  | call :: calls => s.Careful call ∧ ∀ r s', s.exec call = some (r, s') → AllCareful s' calls

/-- A queue whose elements are `xs`, and iterators inside of the buffer. -/
structure Sound (s : Use α) (xs : List α) : Prop where
  queue : ∃ cs, s.queue.Sound cs ∧ cs.reduceOption = xs
  its : ∀ x it, s.its x = some it → it < s.queue.size

def create (α : Type) : Use α := ⟨Queue.create α, fun _ => none⟩

theorem create_sound : (create α).Sound [] := ⟨⟨[], Queue.create_sound, rfl⟩, nofun⟩

section

variable {s s' : Use α} {xs xs' : List α} {call : Call α} {x it n : Nat} {r : Option α}

theorem Sound.isQueueOf (h : s.Sound xs) : s.queue.IsQueueOf xs := by
  obtain ⟨cs, hsound, rfl⟩ := h.queue
  exact hsound.isQueueOf

theorem Sound.setIterator (h : s.Sound xs) (hit : it < s.queue.size) :
    ({ s with its := update s.its x (some it) } : Use α).Sound xs := by
  refine ⟨h.queue, ?_⟩
  intro y it' hy
  dsimp only at hy
  by_cases hyx : y = x
  · rw [hyx, update_self] at hy
    cases hy
    exact hit
  · rw [Function.update_of_ne hyx] at hy
    exact h.its y it' hy

theorem stale_get {q : Queue α} {cs : List (Option α)} (h : q.Sound cs) (hit : it < q.size)
    (hend : it ≠ q.iteratorEnd) (hnot : ∀ n, ¬ q.At it n) :
    ∃ v q', q.iteratorGet it = some (v, q') ∧ q'.Shape cs ∧ q'.queueSize ≠ cs.reduceOption.length := by
  have hstart := h.holds.start_lt
  have hshort := h.holds.short
  have hsmall := h.small
  have helems := h.elements
  have hlt := h.lt_size
  -- no element is there: it is a hole, or a free entry
  obtain ⟨i, hi, hslot⟩ : ∃ i, i < q.size ∧ it = (q.head + i) % q.size := by
    refine ⟨(it + q.size - q.head) % q.size, Nat.mod_lt _ (by omega), ?_⟩
    have hsum : q.head + (it + q.size - q.head) = it + q.size := by omega
    rw [Nat.add_mod_mod, hsum, Nat.add_mod_right, Nat.mod_eq_of_lt hit]
  have hhole : ∀ v, cs[i]? ≠ some (some v) := by
    intro v hv
    have hmem := mem_occupied (k := 0) hv
    rw [Nat.zero_add] at hmem
    obtain ⟨n, hn⟩ := mem_iff_getElem?.1 hmem
    exact hnot n (h.at_iff.2 ⟨i, hn, hslot⟩)
  have hhead : q.head ≠ it := by
    intro heq
    have hne : cs ≠ [] := by
      intro hnil
      exact hend (heq.symm.trans (h.nil_iff.2 hnil))
    obtain ⟨v, rest, rfl⟩ := h.cons hne
    have hi0 : i = 0 := by
      have hsize : 0 < q.size := by omega
      refine Circular.Holds.slot_inj hi hsize (?_ : (q.head + i) % q.size = (q.head + 0) % q.size)
      rw [← hslot, ← heq, Nat.add_zero, Nat.mod_eq_of_lt hstart]
    subst hi0
    exact hhole v rfl
  refine ⟨q.entries it, { q with
    entries := update q.entries it none
    elements := (q.elements + (2 ^ 32 - 1)) % 2 ^ 32 }, ?_, ⟨?_, h.first⟩, ?_⟩
  · rw [iteratorEnd] at hend
    rw [Queue.iteratorGet, if_pos hend]
    simp only [if_neg hhead]
    rfl
  · show Circular.Holds q.size (update q.entries it none) q.head q.tail cs
    rw [hslot]
    rcases Nat.lt_or_ge i cs.length with hlt | hge
    · have hcell : cs[i] = none := by
        rcases hc : cs[i] with _ | v
        · rfl
        · exact absurd (by rw [getElem?_eq_getElem hlt, hc]) (hhole v)
      have hnone : cs.set i none = cs := by
        calc cs.set i none = cs.set i cs[i] := by rw [hcell]
          _ = cs := set_getElem_self hlt
      have hset := h.holds.set (x := none) hlt
      rwa [hnone] at hset
    · exact h.holds.update_free hge hi
  · intro heq
    rw [queueSize] at heq
    dsimp only at heq
    split at heq <;> omega

theorem Sound.exec (h : s.Sound xs) (hcareful : s.Careful call) :
    ∃ r s' xs', s.exec call = some (r, s') ∧ s.Agrees xs r s' xs' call ∧ s'.Sound xs' := by
  obtain ⟨cs, hq, rfl⟩ := h.queue
  have hstart := hq.holds.start_lt
  cases call with
  | put value =>
    obtain ⟨hholes, hcount⟩ := hcareful
    rw [hq.cells] at hholes
    obtain ⟨q', cs', hput, hshape, helems, ⟨hle, hsmall, haligned⟩, hiff⟩ := hq.put hcount value
    have hxs := hiff.2 hholes
    refine ⟨none, { s with queue := q' }, _, ?_, hxs, ⟨cs', ⟨hshape, ?_, hsmall, haligned⟩, rfl⟩, ?_⟩
    · rw [Use.exec, hput]
      rfl
    · rw [helems, hxs, hq.elements, length_append, length_singleton]
    · exact fun x it hx => Nat.lt_of_lt_of_le (h.its x it hx) hle
  | get =>
    by_cases hnil : cs = []
    · subst hnil
      refine ⟨none, s, [], ?_, ⟨rfl, rfl⟩, h⟩
      rw [Use.exec, hq.get_nil]
      rfl
    · obtain ⟨v, rest, rfl⟩ := hq.cons hnil
      obtain ⟨q', hget, hsound, hsize⟩ := hq.get_cons
      refine ⟨some v, { s with queue := q' }, rest.reduceOption, ?_, ?_, ⟨_, hsound, reduceOption_drop_gap⟩, ?_⟩
      · rw [Use.exec, hget]
        rfl
      · rw [reduceOption_cons_of_some]
        exact ⟨rfl, rfl⟩
      · exact fun x it hx => hsize ▸ h.its x it hx
  | peek => exact ⟨_, s, _, rfl, ⟨hq.peek, rfl⟩, h⟩
  | iteratorBegin x => exact ⟨none, _, _, rfl, rfl, h.setIterator hstart⟩
  | iteratorEnd x => exact ⟨none, _, _, rfl, rfl, h.setIterator hq.holds.stop_lt⟩
  | iteratorNext x =>
    rcases hx : s.its x with _ | it
    · refine ⟨none, s, _, ?_, ⟨rfl, ?_⟩, h⟩
      · rw [Use.exec, withIterator, hx]
      · intro it n hit
        rw [hx] at hit
        cases hit
    · obtain ⟨it', hnext, hlt⟩ := iteratorNext_ends (h.its x it hx) hq.holds.stop_lt
      refine ⟨none, { s with its := update s.its x (some it') }, _, ?_, ⟨rfl, ?_⟩, h.setIterator hlt⟩
      · rw [Use.exec, withIterator, hx]
        simp only [hnext]
        rfl
      · intro it₁ n hit hat
        rw [hx] at hit
        cases hit
        refine ⟨it', update_self .., ?_⟩
        rcases hq.isQueueOf.next_at hat with ⟨it₂, hnext', hor⟩
        rw [hnext] at hnext'
        cases hnext'
        exact hor
  | iteratorPeek x =>
    rcases hx : s.its x with _ | it
    · refine ⟨none, s, _, ?_, ⟨rfl, ?_⟩, h⟩
      · rw [Use.exec, withIterator, hx]
      · intro it n hit
        rw [hx] at hit
        cases hit
    · refine ⟨s.queue.iteratorPeek it, s, _, ?_, ⟨rfl, ?_⟩, h⟩
      · rw [Use.exec, withIterator, hx]
      · intro it₁ n hit hat
        rw [hx] at hit
        cases hit
        exact hq.isQueueOf.peek_at hat
  | iteratorGet x =>
    rcases hx : s.its x with _ | it
    · refine ⟨none, s, cs.reduceOption, ?_, ?_, h⟩
      · rw [Use.exec, withIterator, hx]
      · intro it hit
        rw [hx] at hit
        cases hit
    · rcases hcareful it hx with hend | ⟨n, hat⟩
      · refine ⟨none, s, cs.reduceOption, ?_, ?_, h⟩
        · rw [Use.exec, withIterator, hx]
          simp only [iteratorGet_end hend]
          rfl
        · intro it₁ hit
          rw [hx] at hit
          cases hit
          exact .inl ⟨hend, rfl, rfl⟩
      · obtain ⟨i, hi, rfl⟩ := hq.at_iff.1 hat
        obtain ⟨q', cs', hget, hsound, hxs, -, hsize⟩ := hq.iteratorGet hi
        refine ⟨cs.reduceOption[n]?, { s with queue := q' }, _, ?_, ?_, ⟨⟨cs', hsound, hxs⟩, ?_⟩⟩
        · rw [Use.exec, withIterator, hx]
          simp only [hget]
          rfl
        · intro it₁ hit
          rw [hx] at hit
          cases hit
          exact .inr (.inl ⟨n, hat, rfl, rfl⟩)
        · exact fun x it hx => hsize ▸ h.its x it hx

theorem elements_compact {q q' : Queue α} (h : q.compact = some q') : q'.elements = q.elements := by
  rw [compact] at h
  split at h
  · obtain ⟨entries, -, heq⟩ := Option.bind_eq_some_iff.1 h
    cases heq
    rfl
  · cases h
    rfl

theorem elements_increaseSize {q q' : Queue α} (h : q.increaseSize = some q') : q'.elements = q.elements := by
  obtain ⟨⟨temp, entries⟩, -, heq⟩ := Option.bind_eq_some_iff.1 h
  cases heq
  rfl

theorem elements_put {q q' : Queue α} {v : α} (h : q.put v = some q') :
    q'.elements = (q.elements + 1) % 2 ^ 32 := by
  rw [Queue.put] at h
  split at h
  · split at h
    · obtain ⟨q₁, hroom, hpush⟩ := Option.bind_eq_some_iff.1 h
      cases hpush
      dsimp only
      rw [elements_compact hroom]
    · obtain ⟨q₁, hroom, hpush⟩ := Option.bind_eq_some_iff.1 h
      cases hpush
      dsimp only
      rw [elements_increaseSize hroom]
  · cases h
    rfl

theorem Sound.careful_of_exec (h : s.Sound xs) (hexec : s.exec call = some (r, s'))
    (hagrees : s.Agrees xs r s' xs' call) (hof : s'.queue.IsQueueOf xs') : s.Careful call := by
  obtain ⟨cs, hq, rfl⟩ := h.queue
  cases call with
  | put value =>
    obtain ⟨q', hput, heq⟩ := Option.map_eq_some_iff.1 hexec
    cases heq
    have hcount : s.queue.elements + 1 < 2 ^ 31 := by
      -- the number of elements is not negative
      have hlt := hq.elements_lt
      have helems := elements_put hput
      have hsize := hof.size
      by_contra hge
      dsimp only at hsize
      rw [queueSize, helems] at hsize
      split at hsize <;> omega
    refine ⟨?_, hcount⟩
    obtain ⟨q₁, cs', hput', hshape, -, -, hiff⟩ := hq.put hcount value
    rw [hput] at hput'
    cases hput'
    rw [hq.cells]
    apply hiff.1
    rw [← hshape.eq_of_isQueueOf hof]
    exact hagrees
  | iteratorGet x =>
    intro it hx
    by_contra hno
    rw [not_or, not_exists] at hno
    obtain ⟨hend, hnot⟩ := hno
    obtain ⟨v, q', hget, hshape, hsize⟩ := stale_get hq (h.its x it hx) hend hnot
    rw [Use.exec, withIterator, hx] at hexec
    simp only [hget, Option.map_some, Option.some.injEq, Prod.mk.injEq] at hexec
    obtain ⟨-, rfl⟩ := hexec
    rcases hagrees it hx with ⟨hend', -⟩ | ⟨n, hat, -⟩ | ⟨-, -, rfl⟩
    · exact hend hend'
    · exact hnot n hat
    · exact hsize hof.size
  | get | peek | iteratorBegin | iteratorEnd | iteratorNext | iteratorPeek => trivial

/-! ## Runs -/

theorem IsOrdered.isQueueOf {calls : List (Call α)} (h : s.IsOrdered xs calls) : s.queue.IsQueueOf xs := by
  cases calls with
  | nil => exact h
  | cons call calls => exact h.1

theorem Sound.isOrdered_iff (h : s.Sound xs) (calls : List (Call α)) :
    s.IsOrdered xs calls ↔ s.AllCareful calls := by
  induction calls generalizing s xs with
  | nil => exact iff_of_true h.isQueueOf trivial
  | cons call calls ih =>
    constructor
    · rintro ⟨-, r, s', xs', hexec, hagrees, hrest⟩
      have hcareful := h.careful_of_exec hexec hagrees hrest.isQueueOf
      obtain ⟨r₁, s₁, xs₁, hexec₁, -, hsound⟩ := h.exec hcareful
      rw [hexec] at hexec₁
      cases hexec₁
      have hxs : xs₁ = xs' := by
        obtain ⟨cs, hq, rfl⟩ := hsound.queue
        exact (hq.eq_of_isQueueOf hrest.isQueueOf).symm
      subst hxs
      refine ⟨hcareful, ?_⟩
      intro r₂ s₂ hexec₂
      rw [hexec] at hexec₂
      cases hexec₂
      exact (ih hsound).1 hrest
    · rintro ⟨hcareful, hrest⟩
      obtain ⟨r, s', xs', hexec, hagrees, hsound⟩ := h.exec hcareful
      exact ⟨h.isQueueOf, r, s', xs', hexec, hagrees, (ih hsound).2 (hrest r s' hexec)⟩

/-- A queue keeps its elements and their order just in the runs all of whose calls are careful. -/
theorem queue_keeps_order_iff (calls : List (Call α)) :
    (create α).IsOrdered [] calls ↔ (create α).AllCareful calls :=
  create_sound.isOrdered_iff calls

def run (s : Use α) (calls : List (Call α)) : Option (Use α) :=
  calls.foldlM (fun s call => (s.exec call).map Prod.snd) s

theorem IsOrdered.run {calls : List (Call α)} (h : s.IsOrdered xs calls) :
    ∃ s' xs', s.run calls = some s' ∧ s'.queue.IsQueueOf xs' := by
  induction calls generalizing s xs with
  | nil => exact ⟨s, xs, rfl, h⟩
  | cons call calls ih =>
    obtain ⟨-, r, s', xs', hexec, -, hrest⟩ := h
    obtain ⟨s'', xs'', hrun, hof⟩ := ih hrest
    refine ⟨s'', xs'', ?_, hof⟩
    rw [Use.run, foldlM_cons, hexec]
    exact hrun

theorem length_of_isQueueOf {q : Queue α} (h : q.IsQueueOf xs) :
    (q.positions.map fun its => (its.length : Int)) = some q.queueSize := by
  obtain ⟨its, hits, hwalk⟩ := h.walk
  have hlen := congrArg List.length hwalk
  rw [length_map, length_map] at hlen
  rw [hits, h.size, ← hlen]
  rfl

/-- The elements `0` to `30`, of which `1` and `3` are taken out before `31` is put in. -/
def twoHoles : List (Call Nat) :=
  (List.range 31).map .put ++ [.iteratorBegin 0, .iteratorNext 0, .iteratorGet 0, .iteratorNext 0,
    .iteratorNext 0, .iteratorGet 0, .put 31]

/-- Two holes cut off the last element but one, and a removal that is repeated counts down once more. -/
theorem queue_loses_element :
    (∃ s, (create Nat).run twoHoles = some s ∧ s.queue.queueSize = 30 ∧
      (s.queue.positions.map fun its => its.map s.queue.iteratorPeek) =
        some (([0, 2] ++ List.range' 4 26 ++ [31]).map some)) ∧
      ¬ (create Nat).IsOrdered [] twoHoles ∧
        ¬ (create Nat).IsOrdered [] [.put 1, .put 2, .iteratorBegin 0, .iteratorGet 0, .iteratorGet 0] := by
  -- what a run should come to: the number of elements is what an iterator goes over
  have hcount : ∀ {calls : List (Call Nat)} {s : Use Nat}, (create Nat).run calls = some s →
      (create Nat).IsOrdered [] calls → (s.queue.positions.map fun its => (its.length : Int)) =
        some s.queue.queueSize := by
    intro calls s hrun hordered
    obtain ⟨s', xs, hrun', hof⟩ := hordered.run
    rw [hrun] at hrun'
    cases hrun'
    exact length_of_isQueueOf hof
  have hlost : ∃ s, (create Nat).run twoHoles = some s ∧ s.queue.queueSize = 30 ∧
      (s.queue.positions.map fun its => its.map s.queue.iteratorPeek) =
        some (([0, 2] ++ List.range' 4 26 ++ [31]).map some) := by
    decide +kernel
  have hagain : ∃ s, (create Nat).run [.put 1, .put 2, .iteratorBegin 0, .iteratorGet 0, .iteratorGet 0] =
      some s ∧ (s.queue.positions.map fun its => (its.length : Int)) ≠ some s.queue.queueSize := by
    decide +kernel
  refine ⟨hlost, ?_, ?_⟩
  · obtain ⟨s, hrun, hsize, hwalk⟩ := hlost
    intro hordered
    obtain ⟨its, hits, heq⟩ := Option.map_eq_some_iff.1 hwalk
    have hlen := congrArg List.length heq
    have hboth := hcount hrun hordered
    rw [hits, hsize] at hboth
    simp at hlen hboth
    omega
  · obtain ⟨s, hrun, hne⟩ := hagain
    exact fun hordered => hne (hcount hrun hordered)

end

end Use

end Queue

end SNet
