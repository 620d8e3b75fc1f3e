import Mathlib.Data.List.Induction
import SNetRts.Common.ListRuns

/-!
# Reading lists back

`Serialise` writes the first `used` slots of the array, and `Deserialise` sets neither `size` nor `start`.
Two lists behave the same when all runs from them return the same. The slots that `Remove` reads tell
where a list starts and how long its array is, so that a list that has been read back behaves as the
one that was written only if it is the same list, apart from the array of one slot for no element.
-/

namespace SNet

open Lib List

namespace SNetList

variable {α β : Type} (cmp : α → α → Bool)

/-- What `Deserialise` makes of `target` when it reads what `Serialise` writes. -/
def roundTrip (c : Callbacks β α) (target l : SNetList α) : Option (SNetList α) := do
  let buf ← l.serialise c
  target.deserialise c buf

def Agree (d l : SNetList α) : Prop :=
  ∀ ops, (d.run cmp ops).map Prod.fst = (l.run cmp ops).map Prod.fst

section Agreement

variable {cmp : α → α → Bool} {d d' l l' : SNetList α} {s t : Nat} {xs xs' : List α}
  {op : ListOp α} {ops ops' : List (ListOp α)} {r : ListResult α} {rs : List (ListResult α)}

theorem results_cons : (l.run cmp (op :: ops)).map Prod.fst =
    (l.exec cmp op).bind fun p => ((p.2.run cmp ops).map Prod.fst).map (p.1 :: ·) := by
  rw [run]
  cases l.exec cmp op with
  | none => rfl
  | some p => cases hp : p.2.run cmp ops <;> simp [hp]

theorem run_append : l.run cmp (ops ++ ops') =
    (l.run cmp ops).bind fun p => (p.2.run cmp ops').map fun q => (p.1 ++ q.1, q.2) := by
  induction ops generalizing l with
  | nil =>
    rw [nil_append, run, Option.bind_some]
    simp
  | cons op ops ih =>
    rw [cons_append, run, run]
    cases l.exec cmp op with
    | none => rfl
    | some p =>
      simp only [Option.bind_eq_bind, Option.bind_some, ih]
      cases p.2.run cmp ops with
      | none => rfl
      | some q => cases hq : q.2.run cmp ops' <;> simp [hq]

theorem Agree.run (h : Agree cmp d l) (hrun : l.run cmp ops = some (rs, l')) :
    ∃ d', d.run cmp ops = some (rs, d') ∧ Agree cmp d' l' := by
  have hops := h ops
  rw [hrun, Option.map_some, Option.map_eq_some_iff] at hops
  obtain ⟨⟨rs', d'⟩, hrun', rfl⟩ := hops
  refine ⟨d', hrun', fun ops' => ?_⟩
  have happend := h (ops ++ ops')
  rw [run_append, run_append, hrun, hrun', Option.bind_some, Option.bind_some] at happend
  simp only [Option.map_map] at happend
  cases hd : d'.run cmp ops' <;> cases hl : l'.run cmp ops' <;> simp_all

theorem run_singleton (hexec : l.exec cmp op = some (r, l')) : l.run cmp [op] = some ([r], l') := by
  rw [SNetList.run, hexec]
  rfl

theorem Agree.exec (h : Agree cmp d l) (hexec : l.exec cmp op = some (r, l')) :
    ∃ d', d.exec cmp op = some (r, d') ∧ Agree cmp d' l' := by
  obtain ⟨d', hrun, hagree⟩ := h.run (run_singleton hexec)
  rw [SNetList.run, Option.bind_eq_bind, Option.bind_eq_some_iff] at hrun
  obtain ⟨⟨r', d''⟩, hexec', heq⟩ := hrun
  cases heq
  exact ⟨_, hexec', hagree⟩

/-! ### Lists without elements -/

theorem agree_one_slot (w : α) :
    Agree cmp (SNetList.create []) { size := 1, used := 0, start := 0, values := [some w] } := by
  have h0 : (SNetList.create ([] : List α)).Holds 0 [] := .create []
  have h1 : Holds { size := 1, used := 0, start := 0, values := [some w] } 0 ([] : List α) :=
    ⟨rfl, rfl, rfl, Nat.zero_le _, fun h => h, Window.nil _ _, by simp⟩
  intro ops
  induction ops with
  | nil => rfl
  | cons op ops ih =>
    -- an element is put into the one slot that either has, or nothing changes
    cases op with
    | appendStart v =>
      have hroom := h1.appendStart_room (v := v) Nat.zero_lt_one
      rw [SNetList.run, SNetList.run, SNetList.exec, SNetList.exec, h0.appendStart_full rfl, hroom]
      rfl
    | appendEnd v =>
      have hroom := (h1.appendEnd_room (v := v) Nat.zero_lt_one).1
      rw [SNetList.run, SNetList.run, SNetList.exec, SNetList.exec, h0.appendEnd_full rfl, hroom]
      rfl
    | get i | remove i | popStart | popEnd =>
      rw [results_cons, results_cons, h0.exec_none (by simp [execSeq]), h1.exec_none (by simp [execSeq])]
    | create vals => rfl
    | deepCopy f => rfl
    | contains v | length | forEach go | dequeueEach go =>
      rw [results_cons, results_cons]
      exact congrArg (Option.map _) ih

/-! ### Probing -/

/-- Puts an element in and takes it out, `m` times; the list starts one slot later each time. -/
def turns (x : α) : Nat → List (ListOp α)
  | 0 => []
  | m + 1 => turns x m ++ [.appendEnd x, .popStart]

variable (cmp) in
theorem Holds.turn (h : l.Holds s []) (hpos : 0 < l.values.length) (x : α) :
    ∃ l', l.run cmp [.appendEnd x, .popStart] = some ([.unit, .val x], l') ∧
      l'.Holds ((s + 1) % l.values.length) [] ∧ l'.values = l.values.set s (some x) := by
  obtain ⟨happend, hholds⟩ := h.appendEnd_room (v := x) hpos
  obtain ⟨hpop, hholds⟩ := hholds.popStart
  have hslot : (s + ([] : List α).length) % l.values.length = s := Nat.mod_eq_of_lt (h.start_lt hpos)
  simp only [hslot, length_set] at happend hpop hholds
  refine ⟨_, ?_, hholds, rfl⟩
  simp only [SNetList.run, SNetList.exec, happend, hpop, Option.map_some, Option.bind_eq_bind,
    Option.bind_some]
  rfl

variable (cmp) in
theorem Holds.turns (h : l.Holds s []) (hpos : 0 < l.values.length) (x : α) (m : Nat) :
    ∃ rs l', l.run cmp (SNetList.turns x m) = some (rs, l') ∧
      l'.Holds ((s + m) % l.values.length) [] ∧ l'.values.length = l.values.length ∧
      ∀ j < m, l'.values[(s + j) % l.values.length]? = some (some x) := by
  induction m with
  | zero =>
    refine ⟨[], l, rfl, ?_, rfl, fun j hj => absurd hj (Nat.not_lt_zero j)⟩
    rwa [Nat.add_zero, Nat.mod_eq_of_lt (h.start_lt hpos)]
  | succ m ih =>
    obtain ⟨rs, l', hrun, hholds, hlen, hslots⟩ := ih
    have hslot : (s + m) % l.values.length < l'.values.length := by
      rw [hlen]
      exact Nat.mod_lt _ hpos
    obtain ⟨l'', hturn, hholds', hvalues⟩ := hholds.turn cmp (by rw [hlen]; exact hpos) x
    refine ⟨rs ++ [.unit, .val x], l'', ?_, ?_, ?_, fun j hj => ?_⟩
    · rw [SNetList.turns, run_append, hrun, Option.bind_some, hturn]
      rfl
    · rwa [hlen, Nat.mod_add_mod, Nat.add_assoc] at hholds'
    · rw [hvalues, length_set, hlen]
    · rw [hvalues, getElem?_set]
      split
      case isTrue => rfl
      case isFalse hne =>
        have hjm : j ≠ m := by
          rintro rfl
          exact hne rfl
        exact hslots j (by omega)

variable (cmp) in
theorem Holds.probe_pos (h : l.Holds s []) (hpos : 0 < l.values.length) (x y : α) {m : Nat}
    (hm : l.values.length < m) :
    ∃ rs, (l.run cmp (SNetList.turns x m ++ [.appendEnd y, .remove 0])).map Prod.fst =
      some (rs ++ [.unit, .val (if (s + m) % l.values.length = 0 then y else x)]) := by
  obtain ⟨rs, l', hrun, hholds, hlen, hslots⟩ := h.turns cmp hpos x m
  have hstart := h.start_lt hpos
  have hzero : l'.values[0]? = some (some x) := by
    have := hslots (l.values.length - s) (by omega)
    rwa [Nat.add_sub_cancel' (Nat.le_of_lt hstart), Nat.mod_self] at this
  have hslot : ((s + m) % l.values.length + 0) % l'.values.length = (s + m) % l.values.length := by
    rw [hlen]
    exact Nat.mod_mod _ _
  obtain ⟨happend, hholds⟩ := hholds.appendEnd_room (v := y) (by rw [hlen]; exact hpos)
  obtain ⟨r, l'', hread, hremove, -⟩ := hholds.remove (a := []) (b := [])
  have hr : r = if (s + m) % l.values.length = 0 then y else x := by
    simp only [hslot, length_nil, read, Int.natCast_zero, Int.le_refl, if_true, Int.toNat_zero,
      getElem?_set] at hread
    split at hread
    case isTrue heq =>
      rw [if_pos heq]
      split at hread
      · exact (Option.some.inj hread).symm
      · cases hread
    case isFalse hne =>
      rw [if_neg hne]
      rw [hzero] at hread
      exact (Option.some.inj hread).symm
  refine ⟨rs, ?_⟩
  rw [run_append, hrun, Option.bind_some, ← hr]
  simp only [SNetList.run, SNetList.exec, happend, Option.map_some, Option.bind_eq_bind,
    Option.bind_some]
  rw [show (0 : Int) = (([] : List α).length : Nat) from rfl, hremove]
  rfl

theorem Holds.eq_create_nil (h : l.Holds s xs) (hlen : l.values.length = 0) :
    l = SNetList.create [] ∧ s = 0 ∧ xs = [] := by
  have hxs : xs = [] := eq_nil_of_length_eq_zero (Nat.eq_zero_of_le_zero (hlen ▸ h.window.short))
  have hs : s = 0 := Nat.eq_zero_of_le_zero (hlen ▸ h.start_le)
  subst hxs hs
  obtain ⟨size, used, start, values⟩ := l
  obtain rfl := eq_nil_of_length_eq_zero hlen
  obtain ⟨hsize, hused, hstart, -, -, -, -⟩ := h
  simp only [length_nil, Int.natCast_zero] at hsize hused hstart
  exact ⟨by rw [hsize, hused, hstart]; rfl, rfl, rfl⟩

variable (cmp) in
theorem Holds.probe (h : l.Holds s []) (x y : α) {m : Nat} (hm : max l.values.length 1 < m) :
    ∃ rs, (l.run cmp (SNetList.turns x m ++ [.appendEnd y, .remove 0])).map Prod.fst =
      some (rs ++ [.unit, .val (if (s + m) % max l.values.length 1 = 0 then y else x)]) := by
  rcases Nat.eq_zero_or_pos l.values.length with hlen | hpos
  · obtain ⟨rfl, rfl, -⟩ := h.eq_create_nil hlen
    have hone : Holds { size := 1, used := 0, start := 0, values := [some x] } 0 ([] : List α) :=
      ⟨rfl, rfl, rfl, Nat.zero_le _, fun h => h, Window.nil _ _, by simp⟩
    rw [agree_one_slot x]
    exact hone.probe_pos cmp Nat.zero_lt_one x y (Nat.lt_of_le_of_lt (Nat.le_max_right _ _) hm)
  · rw [Nat.max_eq_left hpos] at hm ⊢
    exact h.probe_pos cmp hpos x y hm

theorem Holds.start_lt_max (h : l.Holds s xs) : s < max l.values.length 1 := by
  have := h.start_le
  rcases Nat.eq_zero_or_pos l.values.length with hlen | hpos
  · omega
  · have := h.start_lt hpos
    omega

theorem Agree.slots_of_nil (hagree : Agree cmp d l) {x y : α} (hne : x ≠ y) (hd : d.Holds t [])
    (hl : l.Holds s []) : max l.values.length 1 = max d.values.length 1 ∧ s = t := by
  refine period_unique hl.start_lt_max hd.start_lt_max fun m hml hmd => ?_
  obtain ⟨rs, hrs⟩ := hl.probe cmp x y hml
  obtain ⟨rs', hrs'⟩ := hd.probe cmp x y hmd
  have heq := hagree (SNetList.turns x m ++ [.appendEnd y, .remove 0])
  rw [hrs, hrs', Option.some.injEq] at heq
  have hlast := congrArg List.getLast? heq
  simp only [getLast?_append, getLast?_cons_cons, getLast?_singleton, Option.some_or,
    Option.some.injEq, ListResult.val.injEq] at hlast
  by_cases h1 : (s + m) % max l.values.length 1 = 0 <;> by_cases h2 : (t + m) % max d.values.length 1 = 0
  · exact iff_of_true h1 h2
  · rw [if_pos h1, if_neg h2] at hlast
    exact absurd hlast hne
  · rw [if_neg h1, if_pos h2] at hlast
    exact absurd hlast.symm hne
  · exact iff_of_false h1 h2

theorem Agree.slots (hagree : Agree cmp d l) {x y : α} (hne : x ≠ y) (hd : d.Holds t xs)
    (hl : l.Holds s xs) : max l.values.length 1 = max d.values.length 1 ∧ s = t := by
  induction xs using List.reverseRecOn generalizing d l with
  | nil => exact hagree.slots_of_nil hne hd hl
  | append_singleton xs v ih =>
    obtain ⟨hpopd, hd⟩ := hd.popEnd
    obtain ⟨hpopl, hl⟩ := hl.popEnd
    have hexec : l.exec cmp .popEnd = some (.val v, { l with used := l.used - 1 }) := by
      rw [SNetList.exec, hpopl]
      rfl
    obtain ⟨d', hexec', hagree⟩ := hagree.exec hexec
    rw [SNetList.exec, hpopd] at hexec'
    cases hexec'
    have hslots := ih hagree hd hl
    exact hslots

/-! ### Lists that have been read -/

theorem index_natCast (hsize : d.size ≠ 0) (k : Nat) :
    d.index k = if k % d.size.natAbs < d.values.length then some (k % d.size.natAbs) else none := by
  have hmod : (k : Int).tmod d.size = (k % d.size.natAbs : Nat) := by
    rw [Int.ofNat_tmod]
    rcases Int.natAbs_eq d.size with heq | heq
    · rw [← heq]
    · conv_lhs => rw [heq]
      rw [Int.tmod_neg]
  rw [index, if_neg hsize, hmod, Int.toNat_natCast]
  by_cases hlt : k % d.size.natAbs < d.values.length
  · rw [if_pos ⟨Int.natCast_nonneg _, Int.ofNat_lt.2 hlt⟩, if_pos hlt]
  · rw [if_neg (fun h => hlt (Int.ofNat_lt.1 h.2)), if_neg hlt]

theorem Agree.get (hagree : Agree cmp d l) (hl : l.Holds s xs) {i : Nat} (hi : i < xs.length) :
    d.readMod (d.start + i) = some xs[i] := by
  have hexec : l.exec cmp (.get i) = some (.val xs[i], l) := by
    rw [SNetList.exec, hl.get hi]
    rfl
  obtain ⟨d', hexec', -⟩ := hagree.exec hexec
  rw [SNetList.exec, Option.map_eq_some_iff] at hexec'
  obtain ⟨v, hget, heq⟩ := hexec'
  cases heq
  rw [SNetList.get] at hget
  split at hget
  case isTrue => exact hget
  case isFalse => cases hget

theorem Agree.start (hagree : Agree cmp d l) (hl : l.Holds s xs) (hused : d.used = xs.length)
    (hpos : 0 < xs.length) : ∃ t : Nat, d.start = t ∧ t < d.values.length := by
  obtain ⟨l', t, hdequeue, -⟩ := hl.dequeueEach (noting fun _ => false) []
  have hexec : l.exec cmp (.dequeueEach fun _ => false) =
      some (.vals (sweep (noting fun _ => false) xs []).1, l') := by
    rw [SNetList.exec, hdequeue]
    rfl
  obtain ⟨d', hexec', -⟩ := hagree.exec hexec
  rw [SNetList.exec, Option.map_eq_some_iff] at hexec'
  obtain ⟨p, hdequeue', -⟩ := hexec'
  obtain ⟨n, hn⟩ : ∃ n, xs.length = n + 1 := ⟨xs.length - 1, by omega⟩
  rw [SNetList.dequeueEach, hused, Int.toNat_natCast, hn, SNetList.dequeueFuel, if_neg (by omega),
    Option.bind_eq_bind, Option.bind_eq_some_iff] at hdequeue'
  obtain ⟨v, hread, -⟩ := hdequeue'
  rw [read] at hread
  split at hread
  case isFalse => cases hread
  case isTrue h0 =>
    refine ⟨d.start.toNat, (Int.toNat_of_nonneg h0).symm, ?_⟩
    by_contra hge
    rw [getElem?_eq_none (Nat.le_of_not_lt hge)] at hread
    cases hread

theorem Agree.appendEnd (hagree : Agree cmp d l) (hl : l.Holds s xs) (v : α) :
    ∃ d' l' t, d.appendEnd v = some d' ∧ Agree cmp d' l' ∧ l'.Holds t (xs ++ [v]) := by
  obtain ⟨l', t, happend, hholds⟩ := hl.appendEnd (v := v)
  have hexec : l.exec cmp (.appendEnd v) = some (.unit, l') := by
    rw [SNetList.exec, happend]
    rfl
  obtain ⟨d', hexec', hagree'⟩ := hagree.exec hexec
  rw [SNetList.exec, Option.map_eq_some_iff] at hexec'
  obtain ⟨d'', happend', heq⟩ := hexec'
  cases heq
  exact ⟨_, l', t, happend', hagree', hholds⟩

theorem index_of_nil (hlen : d.values.length = 0) (i : Int) : d.index i = none := by
  rw [index, hlen]
  split
  · rfl
  · exact if_neg (by omega)

theorem Agree.setup_nil (hagree : Agree cmp d l) (x : α) (hl : l.Holds s []) (hused : d.used = 0)
    (hlen : d.values.length = 0) : d.size = 0 ∧ d.start = 0 := by
  obtain ⟨d', -, -, happend, -⟩ := hagree.appendEnd hl x
  rw [SNetList.appendEnd, Option.bind_eq_bind, Option.bind_eq_some_iff] at happend
  obtain ⟨d1, hgrow, hwrite⟩ := happend
  by_cases hsize : d.size = 0
  · refine ⟨hsize, ?_⟩
    -- the block copies of `AppendEnd` have a negative length otherwise
    by_contra hstart
    rw [SNetList.grow, if_pos (hused.trans hsize.symm), alloc, hsize, hused, if_pos (by decide),
      Option.bind_eq_bind, Option.bind_some] at hgrow
    obtain ⟨values, hcopy, -⟩ := Option.bind_eq_some_iff.1 hgrow
    rw [memcpy, if_neg (by omega)] at hcopy
    cases hcopy
  · rw [SNetList.grow, if_neg (by omega), Option.some.injEq] at hgrow
    subst hgrow
    rw [writeMod, index_of_nil hlen] at hwrite
    cases hwrite

theorem Agree.setup_cons (hagree : Agree cmp d l) {x y : α} (hne : x ≠ y) (hl : l.Holds s xs)
    (hused : d.used = xs.length) (hlen : d.values.length = xs.length) (hpos : 0 < xs.length) :
    d.size = xs.length ∧ ∃ t : Nat, d.start = t ∧ t < xs.length := by
  obtain ⟨t, hstart, ht⟩ := hagree.start hl hused hpos
  rw [hlen] at ht
  refine ⟨?_, t, hstart, ht⟩
  by_contra hsize
  have hsum : ∀ i : Nat, d.start + i = (t + i : Nat) := fun i => by rw [hstart]; rfl
  have hsize0 : d.size ≠ 0 := by
    intro h0
    have hget := hagree.get hl hpos
    rw [readMod, index, if_pos h0] at hget
    cases hget
  -- an element is appended without a new array
  have happend : ∀ v, ∃ l' s', (t + xs.length) % d.size.natAbs < xs.length ∧ l'.Holds s' (xs ++ [v]) ∧
      Agree cmp { d with used := d.used + 1, values := d.values.set ((t + xs.length) % d.size.natAbs) (some v) } l' := by
    intro v
    obtain ⟨d', l', s', happend, hagree', hholds⟩ := hagree.appendEnd hl v
    rw [SNetList.appendEnd, SNetList.grow, if_neg (by omega), Option.bind_eq_bind, Option.bind_some,
      hused, hsum, writeMod, index_natCast hsize0, hlen] at happend
    split at happend
    case isFalse => cases happend
    case isTrue hlt =>
      cases happend
      exact ⟨l', s', hlt, hholds, hagree'⟩
  by_cases hm : d.size.natAbs ≤ xs.length
  · -- it is put over another one
    have hi : xs.length - d.size.natAbs < xs.length := by omega
    obtain ⟨v, hv⟩ : ∃ v, v ≠ xs[xs.length - d.size.natAbs] := by
      by_cases hx : x = xs[xs.length - d.size.natAbs]
      · exact ⟨y, fun hy => hne (hx.trans hy.symm)⟩
      · exact ⟨x, hx⟩
    obtain ⟨l', s', hlt, hholds, hagree'⟩ := happend v
    have hget := hagree'.get hholds (i := xs.length - d.size.natAbs)
      (by rw [length_append, length_singleton]; omega)
    have hslot : (t + (xs.length - d.size.natAbs)) % d.size.natAbs = (t + xs.length) % d.size.natAbs := by
      rw [← Nat.add_mod_right, Nat.add_assoc, Nat.sub_add_cancel hm]
    have hindex := index_natCast
      (d := { d with used := d.used + 1, values := d.values.set ((t + xs.length) % d.size.natAbs) (some v) }) hsize0 (t + (xs.length - d.size.natAbs))
    rw [hslot, length_set, hlen, if_pos hlt] at hindex
    rw [readMod, hsum] at hget
    rw [hindex, Option.bind_eq_bind, Option.bind_some,
      getElem?_set_self (by rw [hlen]; exact hlt), getElem_append_left hi] at hget
    exact hv (Option.some.inj hget)
  · -- one of the slots up to the new one is not in the array
    obtain ⟨l', s', hlt, -, -⟩ := happend x
    rcases Nat.eq_zero_or_pos t with rfl | htpos
    · rw [Nat.zero_add, Nat.mod_eq_of_lt (by omega)] at hlt
      exact Nat.lt_irrefl _ hlt
    · have hget := hagree.get hl (i := xs.length - t) (by omega)
      rw [hsum, Nat.add_sub_cancel' (Nat.le_of_lt ht), readMod, index_natCast hsize0,
        Nat.mod_eq_of_lt (by omega), if_neg (by omega)] at hget
      cases hget

end Agreement

section RoundTrip

variable {cmp : α → α → Bool} {d l : SNetList α} {s : Nat} {xs : List α} {target : SNetList α}

theorem exists_map_some {mem : List (Option α)} (h : ∀ o ∈ mem, o.isSome) :
    ∃ vals : List α, mem = vals.map some := by
  induction mem with
  | nil => exact ⟨[], rfl⟩
  | cons o mem ih =>
    obtain ⟨v, rfl⟩ := Option.isSome_iff_exists.1 (h o mem_cons_self)
    obtain ⟨vals, rfl⟩ := ih fun o ho => h o (mem_cons_of_mem _ ho)
    exact ⟨v :: vals, rfl⟩

theorem mapM_read {vals : List α} (hvalues : l.values = vals.map some) {n : Nat}
    (hn : n ≤ vals.length) :
    (List.range n).mapM (fun (i : Nat) => l.read i) = some (vals.take n) := by
  induction n with
  | zero => rfl
  | succ n ih =>
    have hread : l.read n = some vals[n] := by
      rw [read, if_pos (Int.natCast_nonneg _), Int.toNat_natCast, hvalues, getElem?_map,
        getElem?_eq_getElem hn]
      rfl
    rw [range_succ, mapM_append, ih (Nat.le_of_succ_le hn), take_succ_eq_append_getElem hn]
    simp [hread]

theorem Holds.serialise (h : l.Holds s xs) (c : Callbacks β α) {vals : List α}
    (hvals : l.values = vals.map some) :
    l.serialise c = some (c.int.enc xs.length ++ (vals.take xs.length).flatMap c.value.enc) := by
  have hlen : xs.length ≤ vals.length := by
    have := h.window.short
    rwa [hvals, length_map] at this
  rw [SNetList.serialise, h.used, Int.toNat_natCast, mapM_read hvals hlen]
  rfl

theorem deserialise_enc (c : Callbacks β α) (target : SNetList α) (vals : List α) :
    target.deserialise c (c.int.enc vals.length ++ vals.flatMap c.value.enc) =
      some { target with used := vals.length, values := vals.map some } := by
  have hdec := c.value.decList_enc vals []
  rw [append_nil] at hdec
  rw [deserialise, c.int.dec_enc]
  simp only [Option.bind_eq_bind, Option.bind_some, alloc, if_pos (Int.natCast_nonneg _),
    Int.toNat_natCast, hdec]
  rfl

theorem Holds.roundTrip (h : l.Holds s xs) (c : Callbacks β α) :
    roundTrip c target l =
      some { target with used := l.used, values := l.values.take xs.length } := by
  obtain ⟨vals, hvals⟩ := exists_map_some h.written
  have hlen : (vals.take xs.length).length = xs.length := by
    have := h.window.short
    rw [hvals, length_map] at this
    exact length_take_of_le this
  have hdec := deserialise_enc c target (vals.take xs.length)
  rw [hlen] at hdec
  rw [SNetList.roundTrip, h.serialise c hvals, Option.bind_eq_bind, Option.bind_some, hdec, h.used, hvals,
    map_take]

theorem Holds.eq_one_slot (h : l.Holds s []) (hone : l.size = 1) :
    ∃ w, l = { size := 1, used := 0, start := 0, values := [some w] } := by
  have hlen : l.values.length = 1 := by
    have := h.size
    omega
  have hs := h.start_lt (by omega)
  obtain ⟨o, ho⟩ := length_eq_one_iff.1 hlen
  obtain ⟨w, rfl⟩ := Option.isSome_iff_exists.1 (h.written o (by rw [ho]; exact mem_cons_self))
  obtain ⟨size, used, start, values⟩ := l
  have hstart : start = 0 := h.start.trans (by rw [hlen] at hs; omega)
  have hused : used = 0 := h.used
  simp only at hone ho
  exact ⟨w, by rw [hone, hused, hstart, ho]⟩

end RoundTrip

/-- What is read back has the same elements and behaves as the list that was written, if and only if
the structure that it is read to has the `size` and the `start` of the list and the list is full, or has
no element and one slot. -/
theorem round_trip_iff [Nontrivial α] (c : Callbacks β α) (target : SNetList α) {l : SNetList α}
    (hl : Reachable cmp l) :
    (∃ d, roundTrip c target l = some d ∧ d.elements = l.elements ∧ Agree cmp d l) ↔
      target.size = l.used ∧ target.start = l.start ∧ (l.used = l.size ∨ l.used = 0 ∧ l.size = 1) := by
  obtain ⟨x, y, hne⟩ := exists_pair_ne α
  obtain ⟨s, xs, h⟩ := hl.holds
  rw [h.roundTrip]
  have hshort := h.window.short
  have hlen : (l.values.take xs.length).length = xs.length := length_take_of_le hshort
  have hwritten : ∀ o ∈ l.values.take xs.length, o.isSome := fun o ho =>
    h.written o (mem_of_mem_take ho)
  constructor
  · rintro ⟨d, heq, -, hagree⟩
    cases heq
    rcases Nat.eq_zero_or_pos xs.length with hnil | hpos
    · obtain rfl := eq_nil_of_length_eq_zero hnil
      obtain ⟨hsize, hstart⟩ := hagree.setup_nil x h h.used hlen
      have hd : Holds { target with used := l.used, values := l.values.take ([] : List α).length } 0 [] :=
        ⟨hsize, h.used, hstart, Nat.zero_le _, fun h => absurd h (by simp), Window.nil _ _, hwritten⟩
      obtain ⟨hmax, hs⟩ := hagree.slots hne hd h
      have hone : l.values.length ≤ 1 := by
        have : max l.values.length 1 = 1 := hmax
        omega
      refine ⟨hsize.trans h.used.symm, hstart.trans ?_, ?_⟩
      · rw [h.start, hs]
        rfl
      · rw [h.used, h.size]
        simp only [length_nil]
        omega
    · obtain ⟨hsize, t, hstart, ht⟩ := hagree.setup_cons hne h h.used hlen hpos
      have hwindow : Window (l.values.take xs.length) t xs := by
        refine ⟨Nat.le_of_eq hlen.symm, fun i hi => ?_⟩
        have hget := hagree.get h hi
        have hsum : target.start + i = (t + i : Nat) := by rw [hstart]; rfl
        rw [hsum, readMod_eq (hsize.trans (by rw [hlen])) (by rw [hlen]; exact hpos)] at hget
        exact Option.join_eq_some_iff.1 hget
      have hd : Holds { target with used := l.used, values := l.values.take xs.length } t xs :=
        ⟨hsize.trans (by rw [hlen]), h.used, hstart, by rw [hlen]; omega, fun _ => by rw [hlen]; exact ht,
          hwindow, hwritten⟩
      obtain ⟨hmax, hs⟩ := hagree.slots hne hd h
      have hfull : l.values.length = xs.length := by
        rw [hlen] at hmax
        omega
      refine ⟨hsize.trans h.used.symm, hstart.trans ?_, Or.inl ?_⟩
      · rw [h.start, hs]
      · rw [h.used, h.size, hfull]
  · rintro ⟨hsize, hstart, hfull | ⟨hused, hone⟩⟩
    · have hd : { target with used := l.used, values := l.values.take xs.length } = l := by
        have hvalues : l.values.take xs.length = l.values := by
          refine take_of_length_le ?_
          have := h.size
          have := h.used
          omega
        rw [hsize, hstart, hvalues, hfull]
        obtain ⟨size, used, start, values⟩ := l
        simp only at hfull
        rw [hfull]
      rw [hd]
      exact ⟨l, rfl, rfl, fun _ => rfl⟩
    · have hnil : xs = [] := by
        rw [h.used] at hused
        exact eq_nil_of_length_eq_zero (by omega)
      subst hnil
      obtain ⟨w, rfl⟩ := h.eq_one_slot hone
      have hd : { target with used := 0, values := [] } = SNetList.create ([] : List α) := by
        rw [hsize, hstart]
        rfl
      exact ⟨_, rfl, by rw [h.elements]; exact congrArg SNetList.elements hd,
        fun ops => (congrArg (fun d => (SNetList.run cmp d ops).map Prod.fst) hd).trans (agree_one_slot w ops)⟩

def plain : Callbacks Int Int :=
  let number : Codec Int Int :=
    { enc := fun a => [a], dec := fun | [] => none | a :: rest => some (a, rest), dec_enc := fun _ _ => rfl }
  { int := number, value := number }

/-- A list that is read to an empty one cannot be gone over: its size is 0. -/
theorem round_trip_to_empty :
    Reachable (· == ·) (SNetList.create [(1 : Int), 2]) ∧
    (SNetList.create [(1 : Int), 2]).elements = some [1, 2] ∧
    ∃ d, roundTrip plain (SNetList.create []) (SNetList.create [1, 2]) = some d ∧ d.elements = none :=
  ⟨.create _, rfl, _, rfl, rfl⟩

theorem round_trip_to_same_size :
    (∃ d, roundTrip plain (SNetList.create [5, 6]) (SNetList.create [1, 2]) = some d ∧
        d.elements = (SNetList.create [1, 2]).elements ∧ Agree (· == ·) d (SNetList.create [1, 2])) ↔
      (SNetList.create [(5 : Int), 6]).size = (SNetList.create [(1 : Int), 2]).used ∧
        (SNetList.create [(5 : Int), 6]).start = (SNetList.create [(1 : Int), 2]).start ∧
          ((SNetList.create [(1 : Int), 2]).used = (SNetList.create [(1 : Int), 2]).size ∨
            (SNetList.create [(1 : Int), 2]).used = 0 ∧ (SNetList.create [(1 : Int), 2]).size = 1) :=
  round_trip_iff (· == ·) plain (SNetList.create [5, 6]) (.create [1, 2])

end SNetList

end SNet
