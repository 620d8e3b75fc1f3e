import SNetRts.Common.ListTemplate

/-!
# What the list operations do

A list `Holds s xs` when the elements `xs` are in its array from the slot `s` on and no access goes
wrong. Every operation leaves such a list, with the elements that the operation on a sequence leaves; a
full list that is appended to is a new one. `Remove` is the exception in what it returns.
-/

namespace SNet

open Lib List

theorem memcpy_append {α : Type} {pre post src : List (Option α)} {pos first n : Int}
    (hpos : pos = pre.length) (hfirst : 0 ≤ first) (hn : 0 ≤ n) (hpost : n ≤ post.length)
    (hsrc : first + n ≤ src.length) :
    memcpy (pre ++ post) pos src first n =
      some (pre ++ ((src.drop first.toNat).take n.toNat ++ post.drop n.toNat)) := by
  subst hpos
  rw [memcpy, if_pos (by rw [length_append]; omega), Int.toNat_natCast, take_left,
    drop_append, drop_of_length_le (Nat.le_add_right pre.length n.toNat), nil_append,
    append_assoc, Nat.add_sub_cancel_left]

theorem memcpy_unwrap {α : Type} (pre post : List (Option α)) {src : List (Option α)} {start : Nat}
    (hstart : start ≤ src.length) (hroom : src.length ≤ post.length) :
    ((memcpy (pre ++ post) pre.length src start (src.length - start)).bind fun values =>
        memcpy values (pre.length + (src.length - start)) src 0 (src.length - (src.length - start))) =
      some (pre ++ ((src.drop start ++ src.take start) ++ post.drop src.length)) := by
  have hfirst : (src.drop start).take ((src.length : Int) - start).toNat = src.drop start :=
    take_of_length_le (by rw [length_drop]; omega)
  have hrest : ((src.length : Int) - (src.length - start)).toNat = start := by omega
  have hdrop : ((src.length : Int) - start).toNat + start = src.length := by omega
  rw [memcpy_append rfl (by omega) (by omega) (by omega) (by omega), Option.bind_some,
    Int.toNat_natCast, hfirst, ← append_assoc,
    memcpy_append (by rw [length_append, length_drop]; omega) (Int.le_refl 0) (by omega)
      (by rw [length_drop]; omega) (by omega), Int.toNat_zero, drop_zero, hrest,
    drop_drop, hdrop]
  simp only [append_assoc]

namespace SNetList

variable {α σ : Type}

/-- The list holds `xs`, the first of them in the slot `s`. -/
structure Holds (l : SNetList α) (s : Nat) (xs : List α) : Prop where
  size : l.size = l.values.length
  used : l.used = xs.length
  start : l.start = s
  start_le : s ≤ l.values.length
  start_lt : 0 < l.values.length → s < l.values.length
  window : Window l.values s xs
  written : ∀ o ∈ l.values, o.isSome

theorem index_eq {l : SNetList α} (hsize : l.size = l.values.length) (hpos : 0 < l.values.length)
    (i : Nat) : l.index i = some (i % l.values.length) := by
  have hmod : (i : Int).tmod l.values.length = (i % l.values.length : Nat) := (Int.ofNat_tmod _ _).symm
  have hlt := Nat.mod_lt i hpos
  rw [index, if_neg (by omega), hsize, hmod, if_pos (by omega), Int.toNat_natCast]

theorem readMod_eq {l : SNetList α} (hsize : l.size = l.values.length) (hpos : 0 < l.values.length)
    (i : Nat) : l.readMod i = (l.values[i % l.values.length]?).join := by
  rw [readMod, index_eq hsize hpos]
  rfl

theorem writeMod_eq {l : SNetList α} (hsize : l.size = l.values.length) (hpos : 0 < l.values.length)
    (i : Nat) (v : α) :
    l.writeMod i v = some { l with values := l.values.set (i % l.values.length) (some v) } := by
  rw [writeMod, index_eq hsize hpos]
  rfl

theorem isSome_set {mem : List (Option α)} (h : ∀ o ∈ mem, o.isSome) (k : Nat) (v : α) :
    ∀ o ∈ mem.set k (some v), o.isSome := by
  intro o ho
  rcases mem_or_eq_of_mem_set ho with ho | rfl
  · exact h o ho
  · rfl

/-- A loop over a list that the body can leave, with the elements behind the last round. -/
def sweep (body : σ → α → σ × Bool) : List α → σ → σ × List α
  | [], s => (s, [])
  | x :: xs, s =>
    match body s x with
    | (s, true) => sweep body xs s
    | (s, false) => (s, xs)

namespace Holds

variable {l : SNetList α} {s : Nat} {xs : List α} {v : α}

theorem create (vals : List α) : (create vals).Holds 0 vals := by
  refine ⟨by simp [SNetList.create], rfl, rfl, Nat.zero_le _, fun h => h, ?_, ?_⟩
  · have h := Window.of_append [] [] vals
    rwa [append_nil, nil_append] at h
  · intro o ho
    obtain ⟨v, -, rfl⟩ := List.mem_map.1 ho
    rfl

theorem readMod_window {i : Nat} (hsize : l.size = l.values.length) (hstart : l.start = s)
    (h : Window l.values s xs) (hi : i < xs.length) : l.readMod (l.start + i) = some xs[i] := by
  have hsum : l.start + i = (s + i : Nat) := by rw [hstart]; rfl
  rw [hsum, readMod_eq hsize (h.pos hi), h.cell i hi]
  rfl

theorem readMod (h : l.Holds s xs) {i : Nat} (hi : i < xs.length) :
    l.readMod (l.start + i) = some xs[i] := readMod_window h.size h.start h.window hi

theorem writeMod (h : l.Holds s xs) (hpos : 0 < l.values.length) (i : Nat) (v : α) :
    l.writeMod (l.start + i) v =
      some { l with values := l.values.set ((s + i) % l.values.length) (some v) } := by
  have hsum : l.start + i = (s + i : Nat) := by rw [h.start]; rfl
  rw [hsum, writeMod_eq h.size hpos]

theorem read_isSome (h : l.Holds s xs) {k : Nat} (hk : k < l.values.length) :
    ∃ v, l.values[k]? = some (some v) := by
  obtain ⟨v, hv⟩ := Option.isSome_iff_exists.1 (h.written _ (getElem_mem hk))
  exact ⟨v, by rw [getElem?_eq_getElem hk, hv]⟩

/-! ### Appending -/

theorem grow (h : l.Holds s xs) (hfull : xs.length = l.values.length) {pre post : Nat}
    (hone : pre + post = 1) :
    l.grow pre = some { size := l.size + 1, used := l.used, start := pre, values := List.replicate pre none ++ (xs.map some ++ List.replicate post none) } := by
  have hlen : (l.values.length : Int) + 1 = (pre + (l.values.length + post) : Nat) := by omega
  have hcopy := memcpy_unwrap (List.replicate pre none)
    (List.replicate (l.values.length + post) none) h.start_le
    (by rw [length_replicate]; omega)
  rw [length_replicate, replicate_append_replicate, h.window.unwrap h.start_le hfull,
    drop_replicate, Nat.add_sub_cancel_left] at hcopy
  rw [SNetList.grow, if_pos (by rw [h.used, h.size, hfull]), alloc, h.size, hlen,
    if_pos (Int.natCast_nonneg _), Int.toNat_natCast, h.used, hfull, h.start]
  simp only [Option.bind_eq_bind, Option.bind_some]
  rw [← Option.bind_assoc, hcopy]
  rfl

theorem grow_room (h : l.Holds s xs) (hroom : xs.length < l.values.length) (first : Int) :
    l.grow first = some l := if_neg (by rw [h.used, h.size]; omega)

theorem appendEnd_full (h : l.Holds s xs) (hfull : xs.length = l.values.length) :
    l.appendEnd v = some (SNetList.create (xs ++ [v])) := by
  have hgrow : l.grow 0 = some { size := l.size + 1, used := l.used, start := 0, values := xs.map some ++ [none] } := by
    simpa using h.grow hfull (Nat.zero_add 1)
  have hsum : 0 + l.used = (xs.length : Nat) := by rw [h.used, Int.zero_add]
  rw [SNetList.appendEnd, hgrow, Option.bind_eq_bind, Option.bind_some, hsum,
    writeMod_eq (by simp [h.size, hfull]) (by simp)]
  simp [SNetList.create, h.size, h.used, hfull]

theorem appendEnd_room (h : l.Holds s xs) (hroom : xs.length < l.values.length) :
    l.appendEnd v = some { l with used := l.used + 1, values := l.values.set ((s + xs.length) % l.values.length) (some v) } ∧
      Holds { l with used := l.used + 1, values := l.values.set ((s + xs.length) % l.values.length) (some v) }
        s (xs ++ [v]) := by
  refine ⟨?_, ?_, ?_, h.start, ?_, ?_, h.window.append hroom, isSome_set h.written _ v⟩
  · have hwrite := h.writeMod (Nat.zero_lt_of_lt hroom) xs.length v
    rw [← h.used] at hwrite
    rw [SNetList.appendEnd, h.grow_room hroom, Option.bind_eq_bind, Option.bind_some, hwrite]
    rfl
  · rw [length_set]
    exact h.size
  · rw [length_append, h.used]
    rfl
  · rw [length_set]
    exact h.start_le
  · rw [length_set]
    exact h.start_lt

theorem appendEnd (h : l.Holds s xs) :
    ∃ l' t, l.appendEnd v = some l' ∧ l'.Holds t (xs ++ [v]) := by
  rcases Nat.lt_or_eq_of_le h.window.short with hroom | hfull
  · obtain ⟨happend, hholds⟩ := h.appendEnd_room (v := v) hroom
    exact ⟨_, s, happend, hholds⟩
  · exact ⟨_, 0, h.appendEnd_full hfull, create _⟩

theorem appendStart_full (h : l.Holds s xs) (hfull : xs.length = l.values.length) :
    l.appendStart v = some (SNetList.create (v :: xs)) := by
  have hgrow : l.grow 1 = some { size := l.size + 1, used := l.used, start := 1, values := none :: xs.map some } := by
    simpa using h.grow hfull (Nat.add_zero 1)
  have hsum : 1 + (l.size + 1) - 1 = (xs.length + 1 : Nat) := by
    rw [h.size, hfull]
    omega
  rw [SNetList.appendStart, hgrow, Option.bind_eq_bind, Option.bind_some, hsum,
    index_eq (by simp [h.size, hfull]) (by simp)]
  simp [SNetList.create, h.size, h.used, hfull]

theorem appendStart_room (h : l.Holds s xs) (hroom : xs.length < l.values.length) :
    l.appendStart v = some { l with
      start := ((s + l.values.length - 1) % l.values.length : Nat), used := l.used + 1
      values := l.values.set ((s + l.values.length - 1) % l.values.length) (some v) } := by
  have hsum : l.start + l.size - 1 = (s + l.values.length - 1 : Nat) := by
    rw [h.start, h.size]
    omega
  rw [SNetList.appendStart, h.grow_room hroom, Option.bind_eq_bind, Option.bind_some, hsum,
    index_eq h.size (Nat.zero_lt_of_lt hroom)]
  rfl

theorem appendStart (h : l.Holds s xs) :
    ∃ l' t, l.appendStart v = some l' ∧ l'.Holds t (v :: xs) := by
  rcases Nat.lt_or_eq_of_le h.window.short with hroom | hfull
  · have hpos : 0 < l.values.length := Nat.zero_lt_of_lt hroom
    have hslot := Nat.mod_lt (s + l.values.length - 1) hpos
    refine ⟨_, _, h.appendStart_room hroom, ?_, ?_, rfl, ?_, ?_, h.window.cons hroom, ?_⟩
    · rw [length_set]
      exact h.size
    · rw [length_cons, h.used]
      rfl
    · rw [length_set]
      exact Nat.le_of_lt hslot
    · rw [length_set]
      exact fun _ => hslot
    · exact isSome_set h.written _ v
  · exact ⟨_, 0, h.appendStart_full hfull, create _⟩

/-! ### Taking out -/

theorem popStart (h : l.Holds s (v :: xs)) :
    l.popStart = some (v, { l with used := l.used - 1, start := ((s + 1) % l.values.length : Nat) }) ∧
      Holds { l with used := l.used - 1, start := ((s + 1) % l.values.length : Nat) }
        ((s + 1) % l.values.length) xs := by
  have hpos : 0 < l.values.length := h.window.pos (i := 0) (Nat.zero_lt_succ _)
  have hmod : ((s : Int) + 1).tmod l.values.length = ((s + 1) % l.values.length : Nat) :=
    (Int.ofNat_tmod _ _).symm
  have hslot := Nat.mod_lt (s + 1) hpos
  refine ⟨?_, h.size, ?_, rfl, Nat.le_of_lt hslot, fun _ => hslot, h.window.tail, h.written⟩
  · have hsum : (((s + 1) % l.values.length : Nat) : Int) + l.values.length - 1 =
        ((s + 1) % l.values.length + l.values.length - 1 : Nat) := by omega
    have hback : ((s + 1) % l.values.length + l.values.length - 1) % l.values.length =
        s % l.values.length := by
      rw [Nat.add_sub_assoc hpos, Nat.mod_add_mod, Nat.add_assoc, Nat.add_sub_cancel' hpos,
        Nat.add_mod_right]
    have hread : SNetList.readMod { l with used := l.used - 1, start := ((s + 1) % l.values.length : Nat) }
        ((s + 1) % l.values.length + l.values.length - 1 : Nat) = some v :=
      (readMod_eq h.size hpos _).trans (by rw [hback, h.window.head]; rfl)
    rw [SNetList.popStart, if_pos ⟨by rw [h.used, length_cons]; omega, by rw [h.size]; omega⟩]
    simp only [h.start, h.size, hmod, hsum]
    rw [← h.size, hread]
    rfl
  · show l.used - 1 = xs.length
    rw [h.used, length_cons]
    omega

theorem popEnd (h : l.Holds s (xs ++ [v])) :
    l.popEnd = some (v, { l with used := l.used - 1 }) ∧ Holds { l with used := l.used - 1 } s xs := by
  have hused : l.used - 1 = xs.length := by
    rw [h.used, length_append, length_singleton]
    omega
  refine ⟨?_, h.size, hused, h.start, h.start_le, h.start_lt, h.window.dropLast, h.written⟩
  have hread := readMod_window (l := { l with used := l.used - 1 }) h.size h.start h.window
    (i := xs.length) (by simp)
  rw [SNetList.popEnd, if_pos (by omega)]
  simp only [hused] at hread ⊢
  simp [hread]

/-! ### Removing -/

theorem closeGap {v : α} {b : List α} : ∀ {a : List α} {l : SNetList α}, l.Holds s (a ++ v :: b) →
    ∃ values, l.closeGap (b.length + 1) a.length = some { l with values } ∧
      values.length = l.values.length ∧ Window values s (a ++ b) ∧ ∀ o ∈ values, o.isSome := by
  induction b generalizing v with
  | nil =>
    intro a l h
    have hpos : 0 < l.values.length := h.window.pos (i := a.length) (by simp)
    have hroom : a.length < l.values.length := by
      have := h.window.short
      rw [length_append, length_singleton] at this
      omega
    -- the last round copies what is behind the last element, which is not used any more
    obtain ⟨w, hw⟩ := h.read_isSome (Nat.mod_lt (s + a.length + 1) hpos)
    have hread : l.readMod (l.start + a.length + 1) = some w := by
      have hsum : l.start + a.length + 1 = (s + a.length + 1 : Nat) := by rw [h.start]; rfl
      rw [hsum, readMod_eq h.size hpos, hw]
      rfl
    have hwrite := h.writeMod hpos a.length w
    refine ⟨l.values.set ((s + a.length) % l.values.length) (some w), ?_, length_set, ?_,
      isSome_set h.written _ w⟩
    · simp only [SNetList.closeGap, hread, hwrite, length_nil, Option.bind_eq_bind,
        Option.bind_some]
    · rw [append_nil]
      exact h.window.dropLast.set_free (Nat.le_refl _) hroom _
  | cons w b ih =>
    intro a l h
    have hpos : 0 < l.values.length := h.window.pos (i := a.length) (by simp)
    have hread : l.readMod (l.start + a.length + 1) = some w := by
      have := h.readMod (i := a.length + 1) (by simp)
      rw [Int.add_assoc]
      simpa using this
    have hwrite := h.writeMod hpos a.length w
    have hnext : Holds { l with values := l.values.set ((s + a.length) % l.values.length) (some w) } s
        ((a ++ [w]) ++ w :: b) := by
      have hshift := h.window.shift
      rw [append_cons] at hshift
      refine ⟨?_, ?_, h.start, ?_, ?_, hshift, isSome_set h.written _ w⟩
      · rw [length_set]
        exact h.size
      · rw [h.used]
        simp
      · rw [length_set]
        exact h.start_le
      · rw [length_set]
        exact h.start_lt
    obtain ⟨values, hgap, hlen, hwindow, hwritten⟩ := ih hnext
    refine ⟨values, ?_, ?_, ?_, hwritten⟩
    · rw [length_cons, SNetList.closeGap, hread, Option.bind_eq_bind, Option.bind_some, hwrite,
        Option.bind_eq_bind, Option.bind_some, ← hgap, length_append]
      rfl
    · rw [hlen, length_set]
    · rwa [append_assoc] at hwindow

theorem remove {a b : List α} (h : l.Holds s (a ++ v :: b)) :
    ∃ r l', l.read a.length = some r ∧ l.remove a.length = some (r, l') ∧ l'.Holds s (a ++ b) := by
  have hlen : (a ++ v :: b).length = a.length + b.length + 1 := by
    rw [length_append, length_cons]
    omega
  have hshort := h.window.short
  rw [hlen] at hshort
  have hused := h.used
  rw [hlen] at hused
  obtain ⟨r, hr⟩ := h.read_isSome (by omega : a.length < l.values.length)
  have hread : l.read a.length = some r := by
    rw [read, if_pos (Int.natCast_nonneg _), Int.toNat_natCast, hr]
    rfl
  obtain ⟨values, hgap, hsize, hwindow, hwritten⟩ := h.closeGap
  refine ⟨r, { l with used := l.used - 1, values }, hread, ?_, ?_, ?_, h.start, ?_, ?_, hwindow, hwritten⟩
  · have hrounds : (l.used - a.length).toNat = b.length + 1 := by omega
    rw [SNetList.remove, if_pos (by omega), hread, hrounds, hgap]
    rfl
  · show l.size = values.length
    rw [hsize, h.size]
  · show l.used - 1 = (a ++ b).length
    rw [length_append]
    omega
  · show s ≤ values.length
    rw [hsize]
    exact h.start_le
  · show 0 < values.length → s < values.length
    rw [hsize]
    exact h.start_lt

/-! ### Loops -/

theorem forEachFrom (h : l.Holds s xs) (body : σ → α → σ × Bool) :
    ∀ {ys : List α} {i : Nat} (st : σ), xs.drop i = ys →
      l.forEachFrom body ys.length i st = some (sweep body ys st).1 := by
  intro ys
  induction ys with
  | nil => exact fun st _ => rfl
  | cons y ys ih =>
    intro i st hdrop
    have hi : i < xs.length := by
      by_contra hge
      rw [drop_of_length_le (Nat.le_of_not_lt hge)] at hdrop
      cases hdrop
    rw [drop_eq_getElem_cons hi, List.cons.injEq] at hdrop
    rw [length_cons, SNetList.forEachFrom, h.readMod hi, hdrop.1, Option.bind_eq_bind,
      Option.bind_some, sweep]
    rcases hbody : body st y with ⟨st', _ | _⟩
    · rfl
    · exact ih st' hdrop.2

theorem forEach (h : l.Holds s xs) (body : σ → α → σ × Bool) (st : σ) :
    l.forEach body st = some (sweep body xs st).1 := by
  rw [SNetList.forEach, h.used, Int.toNat_natCast]
  exact h.forEachFrom body st drop_zero

theorem dequeueFuel (body : σ → α → σ × Bool) {xs : List α} :
    ∀ {l : SNetList α} {s : Nat} (st : σ), l.Holds s xs →
      ∃ l' t, SNetList.dequeueFuel body xs.length l st = some ((sweep body xs st).1, l') ∧
        l'.Holds t (sweep body xs st).2 := by
  induction xs with
  | nil =>
    intro l s st h
    refine ⟨l, s, ?_, h⟩
    have hused : l.used = 0 := h.used
    rw [length_nil, SNetList.dequeueFuel, if_pos hused]
    rfl
  | cons x xs ih =>
    intro l s st h
    obtain ⟨-, hpop⟩ := h.popStart
    have hpos : 0 < l.values.length := h.window.pos (i := 0) (by simp)
    have hread : l.read l.start = some x := by
      have hhead := h.window.head
      rw [Nat.mod_eq_of_lt (h.start_lt hpos)] at hhead
      rw [read, h.start, if_pos (Int.natCast_nonneg _), Int.toNat_natCast, hhead]
      rfl
    have hmod : (l.start + 1).tmod l.size = ((s + 1) % l.values.length : Nat) := by
      rw [h.start, h.size]
      exact (Int.ofNat_tmod _ _).symm
    have hused : l.used ≠ 0 := by
      rw [h.used, length_cons]
      omega
    have hsize : l.size ≠ 0 := by
      rw [h.size]
      omega
    rw [length_cons, SNetList.dequeueFuel, if_neg hused, sweep]
    simp only [hread, Option.bind_eq_bind, Option.bind_some, if_neg hsize, hmod]
    rcases hbody : body st x with ⟨st', _ | _⟩
    · exact ⟨_, _, rfl, hpop⟩
    · exact ih st' hpop

theorem dequeueEach (h : l.Holds s xs) (body : σ → α → σ × Bool) (st : σ) :
    ∃ l' t, l.dequeueEach body st = some ((sweep body xs st).1, l') ∧
      l'.Holds t (sweep body xs st).2 := by
  rw [SNetList.dequeueEach, h.used, Int.toNat_natCast]
  exact dequeueFuel body st h

end Holds
end SNetList
end SNet
