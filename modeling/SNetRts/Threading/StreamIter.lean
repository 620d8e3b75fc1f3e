import SNetRts.Lib.RingIter

/-!
# Sets of streams and their iterators

`threading/pthread/streamset.c`: a set of stream descriptors is a ring with a handle to its last element. An
iterator has the element that it has given last and the one before it, so that it can take the former out; it may
also put elements in behind the last one, which it will give as well.

A set is not changed in other ways while it is gone through; afterwards the iterator has to be reset.
-/

namespace SNet.Threading

open Function (update update_of_ne update_self)

open Lib List

/-- The links of the descriptors, a set and a `snet_stream_iter_t` of it. -/
structure Streamset (D : Type*) where
  next : D → Option D
  set : Option D
  cur : Option D
  prev : Option D

namespace Streamset

variable {D : Type*} [DecidableEq D]

/-- `SNetStreamsetPut` -/
def put (s : Streamset D) (node : D) : Streamset D :=
  { s with next := (ringPut s.next s.set node).1, set := (ringPut s.next s.set node).2 }

/-- `SNetStreamsetRemove`; the search takes at most `fuel` links. -/
def remove (s : Streamset D) (node : D) (fuel : Nat) : Outcome (Streamset D) :=
  (ringRemove s.next s.set node fuel).bind fun r => .done { s with next := r.1, set := r.2 }

/-- `SNetStreamIterReset` -/
def iterReset (s : Streamset D) : Streamset D := { s with prev := s.set, cur := none }

/-- `SNetStreamIterHasNext` -/
def iterHasNext (s : Streamset D) : Bool := ringHasNext s.set s.cur

/-- `SNetStreamIterNext` -/
def iterNext (s : Streamset D) : Outcome (Streamset D) :=
  if s.iterHasNext then
    match s.cur with
    | some cur => .done { s with prev := some cur, cur := s.next cur }
    | none => (Outcome.ofOption s.prev).bind fun prev => .done { s with cur := s.next prev }
  else .fault

/-- `SNetStreamIterAppend` -/
def iterAppend (s : Streamset D) (node : D) : Outcome (Streamset D) :=
  (Outcome.ofOption s.set).bind fun last =>
    let next := update s.next node (s.next last)
    let next := update next last (some node)
    let prev := if s.prev = some last then some node else s.prev
    -- for a single element, which `prev` has already left
    let prev := if prev = s.cur then some node else prev
    .done ⟨next, some node, s.cur, prev⟩

/-- `SNetStreamIterRemove` -/
def iterRemove (s : Streamset D) : Outcome (Streamset D) :=
  (Outcome.ofOption s.cur).bind fun cur =>
    if s.prev = some cur then
      if s.set = some cur then .done { s with next := update s.next cur none, set := none } else .fault
    else
      (Outcome.ofOption s.prev).bind fun prev =>
        let next := update (update s.next prev (s.next cur)) cur none
        if s.set = some prev then .done { s with next := next, cur := none }
        else .done ⟨next, if s.set = some cur then some prev else s.set, some prev, some prev⟩

/-! ## Runs -/

/-- A set and what has been done with it. -/
structure Run (D : Type*) where
  code : Streamset D
  /-- What has been put in and not taken out, in this order. -/
  members : List D
  /-- The iterator has been reset, and the set is not changed by others. -/
  iterating : Bool
  /-- What was in the set when the iterator was reset. -/
  started : List D
  appended : List D
  returned : List D
  /-- What the iterator has given last, as long as it is in the set. -/
  current : Option D

inductive Op (D : Type*) where
  | put (node : D)
  | remove (node : D) (fuel : Nat)
  | iterReset
  | iterNext
  | iterAppend (node : D)
  | iterRemove

def step (s : Run D) : Op D → Outcome (Run D)
  | .put node => .done { s with code := s.code.put node, members := s.members ++ [node], iterating := false }
  | .remove node fuel => (s.code.remove node fuel).bind fun code =>
    .done { s with code := code, members := s.members.erase node, iterating := false }
  | .iterReset => .done ⟨s.code.iterReset, s.members, true, s.members, [], [], none⟩
  | .iterNext => s.code.iterNext.bind fun code =>
    .done { s with code := code, returned := s.returned ++ code.cur.toList, current := code.cur }
  | .iterAppend node => (s.code.iterAppend node).bind fun code =>
    .done { s with code := code, members := s.members ++ [node], appended := s.appended ++ [node] }
  | .iterRemove => s.code.iterRemove.bind fun code =>
    .done { s with code := code, members := s.current.elim s.members s.members.erase, current := none }

def ok (s : Run D) : Op D → Prop
  | .put node => node ∉ s.members
  | .remove node fuel => node ∈ s.members ∧ s.members.length ≤ fuel
  | .iterReset => True
  | .iterNext => s.iterating = true ∧ s.code.iterHasNext = true
  | .iterAppend node => s.iterating = true ∧ s.members ≠ [] ∧ node ∉ s.members
  | .iterRemove => s.iterating = true ∧ s.current.isSome = true

instance (s : Run D) : (op : Op D) → Decidable (ok s op)
  | .put node => inferInstanceAs (Decidable (node ∉ s.members))
  | .remove node fuel => inferInstanceAs (Decidable (node ∈ s.members ∧ s.members.length ≤ fuel))
  | .iterReset => isTrue trivial
  | .iterNext => inferInstanceAs (Decidable (s.iterating = true ∧ s.code.iterHasNext = true))
  | .iterAppend node => inferInstanceAs (Decidable (s.iterating = true ∧ s.members ≠ [] ∧ node ∉ s.members))
  | .iterRemove => inferInstanceAs (Decidable (s.iterating = true ∧ s.current.isSome = true))

def init (D : Type*) : Run D := ⟨⟨fun _ => none, none, none, none⟩, [], false, [], [], [], none⟩

/-! ## One step -/

/-- The iterator is behind `kept`: what it has given and what is still in the set. `current` is the last of these,
unless it has been taken out. -/
structure At (s : Streamset D) (kept rest : List D) (current : Option D) : Prop where
  ring : Ring s.next s.set (kept ++ rest)
  cur : kept ++ rest ≠ [] → s.cur = kept.getLast?
  prev : current = none → kept = [] → s.set ≠ none → s.prev = s.set
  current : ∀ a, current = some a → ∃ ks, kept = ks ++ [a] ∧ s.prev = ks.getLast?.or s.set

variable {s : Streamset D} {kept rest : List D} {current : Option D} {node a : D}

omit [DecidableEq D] in
theorem At.set_eq_none_iff (h : At s kept rest current) : s.set = none ↔ kept ++ rest = [] := by
  rw [h.ring.last, getLast?_eq_none_iff]

theorem At.hasNext_iff (h : At s kept rest current) : s.iterHasNext = true ↔ rest ≠ [] := by
  rw [iterHasNext]
  by_cases hnil : kept ++ rest = []
  · rw [h.set_eq_none_iff.2 hnil]
    obtain ⟨-, rfl⟩ := append_eq_nil_iff.1 hnil
    exact ⟨nofun, fun h => absurd rfl h⟩
  · rw [h.cur hnil, h.ring.hasNext_iff (prefix_append _ _), ne_eq, ne_eq, self_eq_append_right]

theorem At.next (h : At s kept (a :: rest) current) :
    ∃ t, s.iterNext = .done t ∧ t.cur = some a ∧ At t (kept ++ [a]) rest (some a) := by
  have hne : kept ++ a :: rest ≠ [] := by simp
  have hnext := h.ring.next_eq
  have hcur := h.cur hne
  have happend : kept ++ a :: rest = (kept ++ [a]) ++ rest := append_cons ..
  have hat : ∀ t : Streamset D, t.next = s.next → t.set = s.set → t.cur = some a →
      t.prev = kept.getLast?.or s.set → At t (kept ++ [a]) rest (some a) := by
    intro t htnext htset htcur htprev
    refine ⟨by rw [htnext, htset, ← happend]; exact h.ring, fun _ => by rw [htcur, getLast?_concat], nofun, ?_⟩
    rintro b ⟨⟩
    exact ⟨kept, rfl, by rw [htprev, htset]⟩
  rw [iterNext, if_pos (h.hasNext_iff.2 (cons_ne_nil _ _)), hcur]
  cases hlast : kept.getLast? with
  | some b =>
    rw [hlast] at hnext
    exact ⟨_, rfl, hnext, hat _ rfl rfl hnext (by rw [hlast]; rfl)⟩
  | none =>
    obtain rfl := getLast?_eq_none_iff.1 hlast
    have hset : s.set ≠ none := fun hnone => hne (h.set_eq_none_iff.1 hnone)
    have hprev : s.prev = s.set := by
      cases hc : current with
      | none => exact h.prev hc rfl hset
      | some b =>
        obtain ⟨ks, hks, -⟩ := h.current b hc
        exact absurd hks.symm (by simp)
    obtain ⟨last, hlast⟩ := Option.ne_none_iff_exists'.1 hset
    rw [hlast] at hnext hprev
    rw [hprev]
    exact ⟨_, rfl, hnext, hat _ rfl rfl hnext hlast.symm⟩

theorem At.append (h : At s kept rest current) (hne : kept ++ rest ≠ []) (hnode : node ∉ kept ++ rest) :
    ∃ t, s.iterAppend node = .done t ∧ At t kept (rest ++ [node]) current := by
  obtain ⟨last, hlast⟩ := Option.ne_none_iff_exists'.1 fun hnone => hne (h.set_eq_none_iff.1 hnone)
  have hput := h.ring.put hnode
  rw [hlast] at hput
  rw [iterAppend, hlast]
  refine ⟨_, rfl, by rw [← append_assoc]; exact hput, fun _ => h.cur hne, fun hcurrent hkept _ => ?_,
    fun a ha => ?_⟩
  · have hprev := h.prev hcurrent hkept (by rw [hlast]; nofun)
    have hcur := h.cur hne
    simp [hprev, hlast, hcur, hkept]
  · obtain ⟨ks, rfl, hprev⟩ := h.current a ha
    refine ⟨ks, rfl, ?_⟩
    have hnodup := h.ring.nodup
    have hcur : s.cur = some a := (h.cur hne).trans getLast?_concat
    cases hks : ks.getLast? with
    | none =>
      have hna : node ≠ a := by
        rintro rfl
        exact hnode (by simp)
      rw [hks, hlast] at hprev
      simp [hprev, hcur, hna]
    | some b =>
      -- the one before the current one is not the last one, and not the current one
      have hb := mem_of_getLast? hks
      have hba : b ≠ a := by
        rintro rfl
        rw [append_assoc] at hnodup
        exact (nodup_append.1 hnodup).2.2 b hb b (by simp) rfl
      have hblast : b ≠ last := by
        rintro rfl
        rw [append_assoc] at hnodup
        have hmem : b ∈ [a] ++ rest := by
          have hlast' := h.ring.last
          rw [hlast, append_assoc, singleton_append, getLast?_append_cons] at hlast'
          exact mem_of_getLast? hlast'.symm
        exact (nodup_append.1 hnodup).2.2 b hb b hmem rfl
      rw [hks] at hprev
      simp [hprev, hcur, hblast, hba]

theorem At.remove (h : At s kept rest (some a)) :
    ∃ ks, kept = ks ++ [a] ∧ ∃ t, s.iterRemove = .done t ∧ At t ks rest none := by
  obtain ⟨ks, rfl, hprev⟩ := h.current a rfl
  have hring := h.ring
  rw [append_assoc, singleton_append] at hring
  have hcur : s.cur = some a := (h.cur (by simp)).trans getLast?_concat
  have hnodup := nodup_middle.1 hring.nodup
  have hnot := (nodup_cons.1 hnodup).1
  rw [iterRemove, hcur]
  refine ⟨ks, rfl, ?_⟩
  cases hlast : (rest ++ ks).getLast? with
  | none =>
    -- the only element
    obtain ⟨rfl, rfl⟩ := append_eq_nil_iff.1 (getLast?_eq_none_iff.1 hlast)
    have hset : s.set = some a := hring.last
    have hsame : s.prev = some a := hprev.trans hset
    refine ⟨_, by simp only [Outcome.ofOption, Outcome.done_bind, if_pos hsame, if_pos hset]; rfl, .nil _,
      fun h => absurd rfl h, fun _ _ h => absurd rfl h, nofun⟩
  | some p =>
    have hpa : p ≠ a := by
      rintro rfl
      exact hnot (perm_append_comm.mem_iff.1 (mem_of_getLast? hlast))
    -- it is either the first one that is taken out, or there is one before it that has been given
    have hbefore : s.prev = some p ∧ (ks = [] ∧ s.set = some p ∨ ks.getLast? = some p ∧ s.set ≠ some p) := by
      have hend := hring.last
      rw [getLast?_append_cons] at hend
      rcases eq_nil_or_concat ks with rfl | ⟨ks, b, rfl⟩
      · rw [append_nil] at hlast
        rw [getLast?_cons, hlast] at hend
        exact ⟨hprev.trans hend, .inl ⟨rfl, hend⟩⟩
      · rw [concat_eq_append] at *
        rw [← append_assoc, getLast?_concat] at hlast
        obtain rfl := Option.some.inj hlast
        refine ⟨hprev.trans (by rw [getLast?_concat]; rfl), .inr ⟨getLast?_concat, fun hset => ?_⟩⟩
        have hmem := mem_of_getLast? (hend.symm.trans hset)
        exact (nodup_append.1 hring.nodup).2.2 b (by simp) b hmem rfl
    have hunlink := hring.unlink hlast
    obtain ⟨hprev', hwhere⟩ := hbefore
    simp only [Outcome.ofOption, Outcome.done_bind, hprev', Option.some.injEq, if_neg hpa]
    rcases hwhere with ⟨rfl, hset⟩ | ⟨hks, hset⟩
    · have hother : s.set ≠ some a := fun heq => hpa (Option.some.inj (hset.symm.trans heq))
      rw [if_neg hother] at hunlink
      exact ⟨_, if_pos hset, hunlink, fun _ => rfl, fun _ _ _ => hset.symm, nofun⟩
    · refine ⟨_, if_neg hset, hunlink, fun _ => hks.symm, fun _ hnil => ?_, nofun⟩
      rw [hnil] at hks
      cases hks

/-! ## Every run -/

/-- What is to be shown of a set and of an iterator that goes through it. -/
structure Holds (s : Run D) : Prop where
  ring : Ring s.code.next s.code.set s.members
  started : s.iterating = true → s.started.Nodup
  /-- The iterator gives what was there, and then what has been appended. -/
  returned : s.iterating = true → s.returned <+: s.started ++ s.appended
  hasNext : s.iterating = true → (s.code.iterHasNext = true ↔ s.returned ≠ s.started ++ s.appended)

def Inv (s : Run D) : Prop :=
  Ring s.code.next s.code.set s.members ∧ (s.iterating = true → s.started.Nodup ∧ ∃ kept rest,
    s.members = kept ++ rest ∧ s.returned ++ rest = s.started ++ s.appended ∧ At s.code kept rest s.current)

variable {r r' : Run D}

theorem Inv.holds (h : Inv r) : Holds r := by
  refine ⟨h.1, fun hi => (h.2 hi).1, fun hi => ?_, fun hi => ?_⟩ <;>
    obtain ⟨-, kept, rest, -, hall, hat⟩ := h.2 hi
  · exact ⟨rest, hall⟩
  · rw [hat.hasNext_iff, ← hall, ne_eq, ne_eq, self_eq_append_right]

theorem erase_middle {as bs : List D} (h : a ∉ as) : (as ++ a :: bs).erase a = as ++ bs := by
  rw [erase_append_right _ h, erase_cons_head]

theorem Inv.step (h : Inv r) {op : Op D} (hok : ok r op) : ∃ r', step r op = .done r' ∧ Inv r' := by
  obtain ⟨hring, hiter⟩ := h
  cases op with
  | put node => exact ⟨_, rfl, hring.put hok, nofun⟩
  | remove node fuel =>
    obtain ⟨hmem, hfuel⟩ := hok
    obtain ⟨as, bs, hsplit⟩ := append_of_mem hmem
    rw [hsplit] at hring hfuel
    obtain ⟨next', set', hremove, hring', -⟩ := hring.remove hfuel
    have hnot : node ∉ as := fun hin => (nodup_append.1 hring.nodup).2.2 node hin node mem_cons_self rfl
    refine ⟨_, by rw [Streamset.step, Streamset.remove, hremove]; rfl, ?_⟩
    refine ⟨?_, nofun⟩
    rw [hsplit, erase_middle hnot]
    exact hring'
  | iterReset =>
    exact ⟨_, rfl, hring, fun _ => ⟨hring.nodup, [], r.members, rfl, (append_nil _).symm, hring, fun _ => rfl,
      fun _ _ _ => rfl, nofun⟩⟩
  | iterNext =>
    obtain ⟨hi, hnext⟩ := hok
    obtain ⟨hstarted, kept, rest, hsplit, hall, hat⟩ := hiter hi
    obtain ⟨a, rest, rfl⟩ := exists_cons_of_ne_nil (hat.hasNext_iff.1 hnext)
    obtain ⟨t, ht, hcur, hat'⟩ := hat.next
    rw [append_cons] at hsplit hall
    refine ⟨_, by rw [Streamset.step, ht]; rfl, ?_⟩
    refine ⟨?_, fun _ => ⟨hstarted, kept ++ [a], rest, hsplit, ?_, ?_⟩⟩
    · rw [hsplit]
      exact hat'.ring
    · rw [hcur]
      exact hall
    · rw [hcur]
      exact hat'
  | iterAppend node =>
    obtain ⟨hi, hne, hnode⟩ := hok
    obtain ⟨hstarted, kept, rest, hsplit, hall, hat⟩ := hiter hi
    rw [hsplit] at hne hnode
    obtain ⟨t, ht, hat'⟩ := hat.append hne hnode
    have hsplit' : r.members ++ [node] = kept ++ (rest ++ [node]) := by rw [hsplit, append_assoc]
    refine ⟨_, by rw [Streamset.step, ht]; rfl, ?_⟩
    refine ⟨?_, fun _ => ⟨hstarted, kept, rest ++ [node], hsplit', ?_, hat'⟩⟩
    · rw [hsplit']
      exact hat'.ring
    · rw [← append_assoc, hall, append_assoc]
  | iterRemove =>
    obtain ⟨hi, hsome⟩ := hok
    obtain ⟨hstarted, kept, rest, hsplit, hall, hat⟩ := hiter hi
    obtain ⟨a, hcurrent⟩ := Option.isSome_iff_exists.1 hsome
    rw [hcurrent] at hat
    obtain ⟨ks, rfl, t, ht, hat'⟩ := hat.remove
    have hnodup := hring.nodup
    rw [hsplit, append_assoc, singleton_append] at hnodup
    have hnot : a ∉ ks := fun hin => (nodup_append.1 hnodup).2.2 a hin a mem_cons_self rfl
    have herase : r.current.elim r.members r.members.erase = ks ++ rest := by
      rw [hcurrent, hsplit, append_assoc, singleton_append]
      exact erase_middle hnot
    refine ⟨_, by rw [Streamset.step, ht]; rfl, ?_⟩
    refine ⟨?_, fun _ => ⟨hstarted, ks, rest, herase, hall, hat'⟩⟩
    rw [herase]
    exact hat'.ring

end Streamset

end SNet.Threading
