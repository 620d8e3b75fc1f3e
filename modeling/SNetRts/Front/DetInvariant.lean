import Mathlib.Data.List.Perm.Basic
import Mathlib.Data.List.Range
import SNetRts.Front.Det

/-!
# Invariants of a deterministic network

Four invariants of a deterministic network. The addresses of all detrefs ever allocated are those
deallocated followed by those in `detfifo`, and a reference count is one more than the number of
records that have the detref (`Counted`). Sequence numbers grow along `detfifo`, from the
collector's counter to the next number `SNetDetEnter` will give out (`Ordered`). What has arrived
has been written or is queued, and the written records are in order (`Delivered`). Where the
collector is idle, the first detref is still in use or its notification is under way, and only
detrefs with larger numbers have queued records (`PcOk`). Together they exclude every fault
(`detStep_ne_fault`).

`BareOk` restricts the records that reach the collector without a detref for the network: these get
a number of the collector's own, one above the last in `detfifo`, and must not run ahead of
`SNetDetEnter`.
-/

namespace SNet.Front

open Lib DetNet List

variable {R : Type} {s s' : DetNet R} {d : DetrefId}

/-! ## Detrefs by address -/

section Modify

variable {f : Detref R → Detref R} {l : List (Detref R)} {e : Detref R}

theorem map_modifyDetref {β : Type} {g : Detref R → β} (h : ∀ e, g (f e) = g e) :
    (modifyDetref d f l).map g = l.map g := by
  simp only [modifyDetref, map_map]
  refine map_congr_left fun e _ => ?_
  simp only [Function.comp]
  split <;> simp [h]

theorem mem_modifyDetref {x : Detref R} (h : x ∈ modifyDetref d f l) :
    ∃ e ∈ l, (e.id ≠ d ∧ x = e) ∨ (e.id = d ∧ x = f e) := by
  obtain ⟨e, he, rfl⟩ := List.mem_map.1 h
  refine ⟨e, he, ?_⟩
  by_cases hd : e.id = d
  · exact Or.inr ⟨hd, if_pos hd⟩
  · exact Or.inl ⟨hd, if_neg hd⟩

theorem findDetref_some (h : findDetref d l = some e) : e ∈ l ∧ e.id = d :=
  ⟨mem_of_find?_eq_some h, by simpa using find?_some h⟩

theorem exists_findDetref (h : d ∈ l.map Detref.id) : ∃ e, findDetref d l = some e := by
  obtain ⟨e, he, rfl⟩ := List.mem_map.1 h
  rw [← Option.isSome_iff_exists, findDetref, isSome_find?]
  exact any_eq_true.2 ⟨e, he, by simp⟩

end Modify

/-! ## Reference counts -/

def holders (s : DetNet R) : List DetrefId := s.live.map Prod.snd

def expected (holders dying : List DetrefId) (d : DetrefId) : Nat :=
  if 0 < holders.count d then holders.count d + 1 else if d ∈ dying then 1 else 0

section Expected

variable {hs hs' dy dy' : List DetrefId}

theorem expected_of_pos (h : 0 < hs.count d) : expected hs dy d = hs.count d + 1 := if_pos h

theorem expected_of_dying (h : hs.count d = 0) (hd : d ∈ dy) : expected hs dy d = 1 := by
  rw [expected, if_neg (by omega), if_pos hd]

theorem expected_of_unused (h : hs.count d = 0) (hd : d ∉ dy) : expected hs dy d = 0 := by
  rw [expected, if_neg (by omega), if_neg hd]

theorem expected_congr (hc : hs'.count d = hs.count d) (hd : d ∈ dy' ↔ d ∈ dy) :
    expected hs' dy' d = expected hs dy d := by
  simp only [expected, hc, hd]

end Expected

structure Counted (s : DetNet R) : Prop where
  addresses : s.freed ++ s.detfifo.map Detref.id = List.range s.fresh
  live : ∀ d ∈ holders s, d ∈ s.detfifo.map Detref.id
  dying : ∀ d ∈ s.dying, d ∈ s.detfifo.map Detref.id ∧ d ∉ holders s
  dyingNodup : s.dying.Nodup
  refcount : ∀ e ∈ s.detfifo, e.refcount = expected (holders s) s.dying e.id

theorem Counted.nodup (h : Counted s) : (s.detfifo.map Detref.id).Nodup :=
  (h.addresses ▸ nodup_range).of_append_right

theorem Counted.fresh_notMem (h : Counted s) : s.fresh ∉ s.detfifo.map Detref.id := by
  intro hm
  have : s.fresh ∈ List.range s.fresh := h.addresses ▸ mem_append_right _ hm
  exact absurd (mem_range.1 this) (lt_irrefl _)

theorem Counted.lookup (h : Counted s) {i : Nat} {r : R} (hi : s.live[i]? = some (r, d)) :
    ∃ e, findDetref d s.detfifo = some e ∧ e ∈ s.detfifo ∧ e.id = d ∧ 2 ≤ e.refcount ∧
      e.refcount = (holders s).count d + 1 := by
  have hx : d ∈ holders s := mem_map_of_mem (mem_of_getElem? hi)
  obtain ⟨e, he⟩ := exists_findDetref (h.live _ hx)
  obtain ⟨hmem, hid⟩ := findDetref_some he
  have hpos : 0 < (holders s).count d := count_pos_iff.2 hx
  have hr := h.refcount e hmem
  rw [hid, expected, if_pos hpos] at hr
  exact ⟨e, he, hmem, hid, by omega, hr⟩

theorem refcount_modify {l : List (Detref R)} {f : Detref R → Detref R} {g g' : DetrefId → Nat}
    (h : ∀ e ∈ l, e.refcount = g e.id) (hid : ∀ e, (f e).id = e.id)
    (hf : ∀ e ∈ l, e.id = d → (f e).refcount = g' d) (hg : ∀ d', d' ≠ d → g' d' = g d') :
    ∀ e ∈ modifyDetref d f l, e.refcount = g' e.id := by
  intro x hx
  obtain ⟨e, he, ⟨hd, rfl⟩ | ⟨hd, rfl⟩⟩ := mem_modifyDetref hx
  · rw [hg _ hd]
    exact h x he
  · rw [hid, hd]
    exact hf e he hd

theorem map_set_of_eq {α β : Type} {l : List α} {k : Nat} {x y : α} {g : α → β}
    (h : l[k]? = some x) (hg : g y = g x) : (l.set k y).map g = l.map g := by
  obtain ⟨hk, rfl⟩ := List.getElem?_eq_some_iff.1 h
  have hk' : k < (l.map g).length := by simpa using hk
  have hget : (l.map g)[k] = g l[k] := by simp
  rw [map_set, hg, ← hget]
  exact set_getElem_self hk'

section Live

variable {i : Nat} {r : R}

theorem count_holders_eraseIdx (h : s.live[i]? = some (r, d)) (d' : DetrefId) :
    ((s.live.eraseIdx i).map Prod.snd).count d' + (if d = d' then 1 else 0) =
      (holders s).count d' := by
  obtain ⟨hi, hx⟩ := List.getElem?_eq_some_iff.1 h
  have hperm := (getElem_cons_eraseIdx_perm hi).map Prod.snd
  rw [holders, ← hperm.count_eq, map_cons, count_cons, hx]
  simp

theorem mem_holders_of_eraseIdx (h : d ∈ (s.live.eraseIdx i).map Prod.snd) : d ∈ holders s := by
  obtain ⟨y, hy, rfl⟩ := List.mem_map.1 h
  exact mem_map_of_mem (mem_of_mem_eraseIdx hy)

end Live

theorem counted_init : Counted (DetNet.init : DetNet R) :=
  ⟨rfl, by simp [holders, DetNet.init], by simp [DetNet.init], nodup_nil, by simp [DetNet.init]⟩

theorem Counted.modify (h : Counted s) {f : Detref R → Detref R} (hid : ∀ e, (f e).id = e.id)
    (hlive : ∀ d' ∈ holders s', d' ∈ holders s)
    (hdying : ∀ d' ∈ s'.dying, d' ∈ s.detfifo.map Detref.id ∧ d' ∉ holders s')
    (hnodup : s'.dying.Nodup)
    (hf : ∀ e ∈ s.detfifo, e.id = d → (f e).refcount = expected (holders s') s'.dying d)
    (hother : ∀ d', d' ≠ d →
      expected (holders s') s'.dying d' = expected (holders s) s.dying d')
    (hfifo : s'.detfifo = modifyDetref d f s.detfifo) (hfreed : s'.freed = s.freed)
    (hfresh : s'.fresh = s.fresh) : Counted s' := by
  have hids : s'.detfifo.map Detref.id = s.detfifo.map Detref.id := by
    rw [hfifo]
    exact map_modifyDetref hid
  refine ⟨?_, fun d' hd' => ?_, fun d' hd' => ?_, hnodup, ?_⟩
  · rw [hids, hfreed, hfresh]
    exact h.addresses
  · rw [hids]
    exact h.live d' (hlive d' hd')
  · rw [hids]
    exact hdying d' hd'
  · rw [hfifo]
    exact refcount_modify h.refcount hid hf hother

theorem Counted.append (h : Counted s) {e : Detref R} (hid : e.id = s.fresh)
    (hholders : ∃ l, holders s' = holders s ++ l ∧ (∀ d ∈ l, d = s.fresh) ∧
      e.refcount = if 0 < l.length then l.length + 1 else 0)
    (hdying : s'.dying = s.dying) (hfifo : s'.detfifo = s.detfifo ++ [e])
    (hfreed : s'.freed = s.freed) (hfresh : s'.fresh = s.fresh + 1) : Counted s' := by
  obtain ⟨l, hl, hlf, hrc⟩ := hholders
  have hnew := h.fresh_notMem
  have hno : (holders s).count s.fresh = 0 := count_eq_zero.2 fun hm => hnew (h.live _ hm)
  have hdy : s.fresh ∉ s.dying := fun hm => hnew (h.dying _ hm).1
  have hids : s'.detfifo.map Detref.id = s.detfifo.map Detref.id ++ [s.fresh] := by
    simp [hfifo, hid]
  have hcount : l.count s.fresh = l.length := count_eq_length.2 fun d hd => (hlf d hd).symm
  refine ⟨?_, fun d hd => ?_, fun d hd => ?_, hdying ▸ h.dyingNodup, fun x hx => ?_⟩
  · rw [hids, hfreed, hfresh, ← append_assoc, h.addresses, range_succ]
  · rw [hl] at hd
    rw [hids]
    rcases mem_append.1 hd with hd | hd
    · exact mem_append_left _ (h.live d hd)
    · exact mem_append_right _ (mem_singleton.2 (hlf d hd))
  · rw [hdying] at hd
    obtain ⟨h1, h2⟩ := h.dying d hd
    rw [hids, hl]
    refine ⟨mem_append_left _ h1, fun hm => ?_⟩
    rcases mem_append.1 hm with hm | hm
    · exact h2 hm
    · exact hdy (hlf d hm ▸ hd)
  · rw [hfifo, mem_append, mem_singleton] at hx
    rw [hl, hdying, expected, count_append]
    rcases hx with hx | rfl
    · have hne : x.id ≠ s.fresh := fun hid => hnew (hid ▸ mem_map_of_mem hx)
      have hz : l.count x.id = 0 := count_eq_zero.2 fun hm => hne (hlf _ hm)
      rw [hz, Nat.add_zero]
      exact h.refcount x hx
    · rw [hid, hno, hcount, Nat.zero_add, hrc, if_neg hdy]

theorem Counted.of_map_eq (h : Counted s) (hfifo : s'.detfifo.map (fun e => (e.id, e.refcount)) =
      s.detfifo.map fun e => (e.id, e.refcount)) (hfreed : s'.freed = s.freed)
    (hfresh : s'.fresh = s.fresh) (hlive : s'.live = s.live) (hdying : s'.dying = s.dying) :
    Counted s' := by
  have hids : s'.detfifo.map Detref.id = s.detfifo.map Detref.id := by
    have := congrArg (List.map Prod.fst) hfifo
    rwa [map_map, map_map] at this
  have hholders : holders s' = holders s := by rw [holders, hlive, holders]
  refine ⟨by rw [hids, hfreed, hfresh]; exact h.addresses, by rw [hids, hholders]; exact h.live,
    by rw [hids, hholders, hdying]; exact h.dying, hdying ▸ h.dyingNodup, fun e he => ?_⟩
  have hmem : (e.id, e.refcount) ∈ s.detfifo.map fun e => (e.id, e.refcount) :=
    hfifo ▸ List.mem_map.2 ⟨e, he, rfl⟩
  obtain ⟨x, hx, hxe⟩ := List.mem_map.1 hmem
  rw [Prod.mk.injEq] at hxe
  rw [hholders, hdying, ← hxe.1, ← hxe.2]
  exact h.refcount x hx

theorem counted_leaveDequeue (h : Counted s) (hs : s.leaveDequeue = .done s') : Counted s' := by
  unfold leaveDequeue at hs
  split at hs
  · cases hs
  · split at hs
    · cases hs
      exact ⟨h.addresses, h.live, h.dying, h.dyingNodup, h.refcount⟩
    · rename_i e es hfifo
      split at hs <;> cases hs
      exact h.of_map_eq (by simp [hfifo]) rfl rfl rfl rfl
  · split at hs
    · cases hs
    · rename_i e es hfifo
      split at hs
      · rename_i hzero
        split at hs <;> cases hs
        -- nothing has the first detref any more
        have hexp := h.refcount e (hfifo ▸ mem_cons_self)
        rw [hzero, expected] at hexp
        have hno : e.id ∉ holders s := by
          intro hm
          rw [if_pos (count_pos_iff.2 hm)] at hexp
          omega
        have hnd : e.id ∉ s.dying := by
          intro hm
          rw [if_neg fun hp => hno (count_pos_iff.1 hp), if_pos hm] at hexp
          omega
        have hmem : ∀ d ∈ s.detfifo.map Detref.id, d ≠ e.id → d ∈ es.map Detref.id := by
          intro d hd hne
          rw [hfifo, map_cons, mem_cons] at hd
          exact hd.resolve_left hne
        refine ⟨?_, fun d hd => ?_, fun d hd => ?_, h.dyingNodup, fun x hx => ?_⟩
        · have := h.addresses
          rw [hfifo] at this
          simpa using this
        · exact hmem d (h.live d hd) fun e' => hno (e' ▸ hd)
        · obtain ⟨h1, h2⟩ := h.dying d hd
          exact ⟨hmem d h1 fun e' => hnd (e' ▸ hd), h2⟩
        · exact h.refcount x (hfifo ▸ mem_cons_of_mem _ hx)
      · cases hs
        exact ⟨h.addresses, h.live, h.dying, h.dyingNodup, h.refcount⟩
  · split at hs
    · cases hs
    · cases hs
      exact ⟨h.addresses, h.live, h.dying, h.dyingNodup, h.refcount⟩
    · rename_i e x he hx
      split at hs <;> cases hs
      · exact h.of_map_eq (map_set_of_eq hx rfl) rfl rfl rfl rfl
      · exact ⟨h.addresses, h.live, h.dying, h.dyingNodup, h.refcount⟩

theorem counted_step (h : Counted s) {isDet : Bool} {act : DetAct R}
    (hs : s.step isDet act = .done s') : Counted s' := by
  cases act with
  | enter r top =>
    simp only [step] at hs
    split at hs
    · cases hs
    · cases hs
      exact h.append rfl ⟨[s.fresh], by simp [holders, detrefAdd], by simp, rfl⟩ rfl rfl rfl rfl
  | copy i r =>
    simp only [step] at hs
    split at hs
    · cases hs
    · rename_i y d hi
      obtain ⟨e, hfind, he, hid, hge, hcount⟩ := h.lookup hi
      have hx : d ∈ holders s := mem_map_of_mem (mem_of_getElem? hi)
      have hpos : 0 < (holders s).count d := count_pos_iff.2 hx
      rw [hfind] at hs
      simp only [Nat.not_lt.2 hge, if_false, Outcome.done.injEq] at hs
      subst hs
      have hh : (s.live ++ [(r, d)]).map Prod.snd = holders s ++ [d] := by simp [holders]
      refine h.modify (d := d) (f := fun e => { e with refcount := e.refcount + 1 }) (fun _ => rfl)
        (fun d' hd' => ?_) (fun d' hd' => ?_) h.dyingNodup (fun y hy hyd => ?_) (fun d' hd' => ?_)
        rfl rfl rfl
      · rw [holders, hh, mem_append, mem_singleton] at hd'
        exact hd'.elim id fun e => e ▸ hx
      · obtain ⟨h1, h2⟩ := h.dying d' hd'
        refine ⟨h1, fun hm => ?_⟩
        rw [holders, hh, mem_append, mem_singleton] at hm
        exact h2 (hm.elim id fun e => e ▸ hx)
      · have hc : (holders s ++ [d]).count d = (holders s).count d + 1 := by
          rw [count_append, count_singleton_self]
        rw [holders, hh, expected_of_pos (by omega), hc, h.refcount y hy, hyd, expected_of_pos hpos]
      · have hz : [d].count d' = 0 := count_eq_zero.2 (by simpa using hd')
        rw [holders, hh]
        exact expected_congr (by rw [count_append, hz, Nat.add_zero]) Iff.rfl
  | forward i r =>
    simp only [step] at hs
    split at hs
    · cases hs
    · rename_i y d hi
      cases hs
      have hh : holders { s with live := s.live.set i (r, d) } = holders s := map_set_of_eq hi rfl
      exact ⟨h.addresses, hh ▸ h.live, by rw [hh]; exact h.dying, h.dyingNodup, by
        rw [hh]; exact h.refcount⟩
  | absorb i =>
    simp only [step] at hs
    split at hs
    · cases hs
    · rename_i y d hi
      obtain ⟨e, hfind, he, hid, hge, hcount⟩ := h.lookup hi
      have hx : d ∈ holders s := mem_map_of_mem (mem_of_getElem? hi)
      have hnd : d ∉ s.dying := fun hm => (h.dying d hm).2 hx
      have hc := count_holders_eraseIdx hi
      rw [hfind] at hs
      simp only [Nat.not_lt.2 hge, if_false, Outcome.done.injEq] at hs
      subst hs
      have hd0 := hc d
      rw [if_pos rfl] at hd0
      refine h.modify (d := d) (f := fun e => { e with refcount := e.refcount - 1 }) (fun _ => rfl)
        (fun d' hd' => mem_holders_of_eraseIdx hd') (fun d' hd' => ?_) ?_ (fun y hy hyd => ?_)
        (fun d' hd' => ?_) rfl rfl rfl
      · dsimp only at hd'
        split at hd'
        · rename_i hone
          rcases mem_append.1 hd' with hd' | hd'
          · obtain ⟨h1, h2⟩ := h.dying d' hd'
            exact ⟨h1, fun hm => h2 (mem_holders_of_eraseIdx hm)⟩
          · rw [mem_singleton.1 hd']
            refine ⟨h.live d hx, fun hm => ?_⟩
            have := count_pos_iff.2 hm
            simp only [holders] at this
            omega
        · obtain ⟨h1, h2⟩ := h.dying d' hd'
          exact ⟨h1, fun hm => h2 (mem_holders_of_eraseIdx hm)⟩
      · dsimp only
        split
        · exact nodup_append'.2 ⟨h.dyingNodup, nodup_singleton d, by simpa using hnd⟩
        · exact h.dyingNodup
      · have hye : y.refcount = e.refcount := by
          rw [h.refcount y hy, h.refcount e he, hyd, hid]
        show y.refcount - 1 = expected ((s.live.eraseIdx i).map Prod.snd)
          (if e.refcount - 1 = 1 then s.dying ++ [d] else s.dying) d
        split
        · rw [expected_of_dying (by omega) (by simp)]
          omega
        · rw [expected_of_pos (by omega)]
          omega
      · have hd1 := hc d'
        rw [if_neg (Ne.symm hd'), Nat.add_zero] at hd1
        refine expected_congr hd1 ?_
        show d' ∈ (if e.refcount - 1 = 1 then s.dying ++ [d] else s.dying) ↔ _
        split <;> simp [hd']
  | notify i =>
    simp only [step] at hs
    split at hs
    · cases hs
    · rename_i d hi
      have hd : d ∈ s.dying := mem_of_getElem? hi
      obtain ⟨hids, hno⟩ := h.dying d hd
      obtain ⟨e, hfind⟩ := exists_findDetref hids
      rw [hfind] at hs
      dsimp only at hs
      split at hs <;> cases hs
      obtain ⟨hlt, rfl⟩ := List.getElem?_eq_some_iff.1 hi
      have hperm := getElem_cons_eraseIdx_perm hlt
      have hnodup := hperm.nodup_iff.2 h.dyingNodup
      rw [nodup_cons] at hnodup
      refine h.modify (d := s.dying[i]) (f := fun e => { e with refcount := 0 }) (fun _ => rfl)
        (fun d' hd' => hd') (fun d' hd' => h.dying d' (mem_of_mem_eraseIdx hd')) hnodup.2
        (fun y hy hyd => ?_) (fun d' hd' => ?_) rfl rfl rfl
      · have hz : (holders s).count s.dying[i] = 0 := count_eq_zero.2 hno
        exact (expected_of_unused hz hnodup.1).symm
      · have hiff : d' ∈ s.dying.eraseIdx i ↔ d' ∈ s.dying := by
          rw [← hperm.mem_iff, mem_cons]
          exact ⟨Or.inr, fun hm => hm.resolve_left hd'⟩
        exact expected_congr rfl hiff
  | arrive i =>
    simp only [step] at hs
    split at hs
    · cases hs
    · split at hs
      · cases hs
      · rename_i r d hi
        obtain ⟨e, hfind, he, hid, hge, hcount⟩ := h.lookup hi
        have hx : d ∈ holders s := mem_map_of_mem (mem_of_getElem? hi)
        have hnd : d ∉ s.dying := fun hm => (h.dying d hm).2 hx
        have hc := count_holders_eraseIdx hi
        rw [hfind] at hs
        dsimp only at hs
        split at hs <;> cases hs
        have hd0 := hc d
        rw [if_pos rfl] at hd0
        refine h.modify (d := e.id) (f := fun e =>
            { e with
              recfifo := e.recfifo ++ [r]
              refcount := if e.refcount - 1 = 1 then 0 else e.refcount - 1 }) (fun _ => rfl)
          (fun d' hd' => mem_holders_of_eraseIdx hd') (fun d' hd' => ?_) h.dyingNodup
          (fun y hy hyd => ?_) (fun d' hd' => ?_) rfl rfl rfl
        · obtain ⟨h1, h2⟩ := h.dying d' hd'
          exact ⟨h1, fun hm => h2 (mem_holders_of_eraseIdx hm)⟩
        · have hye : y.refcount = e.refcount := by
            rw [h.refcount y hy, h.refcount e he, hyd]
          show (if y.refcount - 1 = 1 then 0 else y.refcount - 1) =
            expected ((s.live.eraseIdx i).map Prod.snd) s.dying e.id
          rw [hid]
          split
          · rw [expected_of_unused (by omega) hnd]
          · rw [expected_of_pos (by omega)]
            omega
        · rw [hid] at hd'
          have hd1 := hc d'
          rw [if_neg (Ne.symm hd'), Nat.add_zero] at hd1
          exact expected_congr hd1 Iff.rfl
  | note i =>
    simp only [step] at hs
    split at hs
    · cases hs
    · split at hs
      · cases hs
        exact ⟨h.addresses, h.live, h.dying, h.dyingNodup, h.refcount⟩
      · cases hs
  | bare r =>
    simp only [step] at hs
    split at hs
    · cases hs
    · split at hs <;> cases hs
      · exact ⟨h.addresses, h.live, h.dying, h.dyingNodup, h.refcount⟩
      · exact h.append rfl ⟨[], by simp [holders, queueBare], by simp, rfl⟩ rfl rfl rfl rfl
  | dequeue => exact counted_leaveDequeue h hs

/-! ## Steps of the records in the network -/

def Detref.shape (e : Detref R) : DetrefId × Int × List R := (e.id, e.seqnr, e.recfifo)

def Awaited (s : DetNet R) (e : Detref R) : Prop := e.refcount ≠ 0 ∨ e.id ∈ s.notes

/-- A step of the records: it changes reference counts, and what it stops using is notified. -/
structure Inside (s s' : DetNet R) : Prop where
  shape : s'.detfifo.map Detref.shape = s.detfifo.map Detref.shape
  enter : s'.enter = s.enter
  fresh : s'.fresh = s.fresh
  counter : s'.counter = s.counter
  pc : s'.pc = s.pc
  out : s'.out = s.out
  arrived : s'.arrived = s.arrived
  freed : s'.freed = s.freed
  awaited : ∀ e ∈ s.detfifo, ∀ e' ∈ s'.detfifo, e'.id = e.id → Awaited s e → Awaited s' e'

theorem inside_modify {f : Detref R → Detref R} {live : List (R × DetrefId)}
    {dying notes : List DetrefId} (h : Counted s) (hf : ∀ e, (f e).shape = e.shape)
    (hnotes : ∀ d ∈ s.notes, d ∈ notes)
    (hlive : ∀ e ∈ s.detfifo, e.id = d → (f e).refcount ≠ 0 ∨ d ∈ notes) :
    Inside s { s with
      detfifo := modifyDetref d f s.detfifo, live := live, dying := dying, notes := notes } := by
  refine ⟨map_modifyDetref hf, rfl, rfl, rfl, rfl, rfl, rfl, rfl, fun e he e' he' hid haw => ?_⟩
  obtain ⟨x, hx, ⟨hd, rfl⟩ | ⟨hd, rfl⟩⟩ := mem_modifyDetref he'
  · have : e' = e := inj_on_of_nodup_map h.nodup hx he hid
    subst this
    exact haw.imp_right (hnotes _)
  · have hfid : (f x).id = x.id := congrArg Prod.fst (hf x)
    rcases hlive x hx hd with hne | hm
    · exact Or.inl hne
    · exact Or.inr (by rw [hfid, hd]; exact hm)

theorem step_cases (h : Counted s) {act : DetAct R} (hs : s.step true act = .done s') :
    (∃ r top, act = .enter r top ∧
      s' = { s with enter := ⟨s.enter.counter + 1, s.enter.seqnr⟩ }.detrefAdd r
        (s.enter.counter + 1)) ∨
    Inside s s' ∨
    (∃ i r e, s.pc = .idle ∧ s.live[i]? = some (r, e.id) ∧ e ∈ s.detfifo ∧
      s' = s.detLeaveRec i r e) ∨
    (∃ i, s.pc = .idle ∧ s' = { s with notes := s.notes.eraseIdx i, pc := .loop }) ∨
    (∃ r, act = .bare r ∧ s.pc = .idle ∧ s.detfifo = [] ∧
      s' = { s with out := s.out ++ [(r, none)], arrived := s.arrived ++ [(r, none)] }) ∨
    (∃ r tail, act = .bare r ∧ s.pc = .idle ∧ s.detfifo.getLast? = some tail ∧
      s' = s.queueBare r tail) ∨
    s.leaveDequeue = .done s' := by
  cases act with
  | enter r top =>
    simp only [step, detEnter, if_true] at hs
    cases hs
    exact Or.inl ⟨r, top, rfl, rfl⟩
  | copy i r =>
    refine Or.inr (Or.inl ?_)
    simp only [step] at hs
    split at hs
    · cases hs
    · rename_i y d hi
      obtain ⟨e, hfind, -, -, hge, -⟩ := h.lookup hi
      rw [hfind] at hs
      simp only [Nat.not_lt.2 hge, if_false, Outcome.done.injEq] at hs
      subst hs
      exact inside_modify h (fun _ => rfl) (fun _ hd => hd) fun _ _ _ => Or.inl (by simp)
  | forward i r =>
    refine Or.inr (Or.inl ?_)
    simp only [step] at hs
    split at hs
    · cases hs
    · cases hs
      refine ⟨rfl, rfl, rfl, rfl, rfl, rfl, rfl, rfl, fun e he e' he' hid haw => ?_⟩
      have : e' = e := inj_on_of_nodup_map h.nodup he' he hid
      exact this ▸ haw
  | absorb i =>
    refine Or.inr (Or.inl ?_)
    simp only [step] at hs
    split at hs
    · cases hs
    · rename_i y d hi
      obtain ⟨e, hfind, he, hid, hge, -⟩ := h.lookup hi
      rw [hfind] at hs
      simp only [Nat.not_lt.2 hge, if_false, Outcome.done.injEq] at hs
      subst hs
      refine inside_modify h (fun _ => rfl) (fun _ hd => hd) fun x hx hxd => Or.inl ?_
      have : x = e := inj_on_of_nodup_map h.nodup hx he (hxd.trans hid.symm)
      subst this
      show x.refcount - 1 ≠ 0
      omega
  | notify i =>
    refine Or.inr (Or.inl ?_)
    simp only [step] at hs
    split at hs
    · cases hs
    · split at hs
      · cases hs
      · split at hs <;> cases hs
        exact inside_modify h (fun _ => rfl) (fun _ hd => mem_append_left _ hd)
          fun _ _ _ => Or.inr (by simp)
  | arrive i =>
    refine Or.inr (Or.inr (Or.inl ?_))
    simp only [step] at hs
    split at hs
    · cases hs
    · rename_i hpc
      split at hs
      · cases hs
      · rename_i r d hi
        obtain ⟨e, hfind, he, hid, -⟩ := h.lookup hi
        rw [hfind] at hs
        dsimp only at hs
        split at hs <;> cases hs
        exact ⟨i, r, e, not_not.1 hpc, hid ▸ hi, he, rfl⟩
  | note i =>
    refine Or.inr (Or.inr (Or.inr (Or.inl ?_)))
    simp only [step] at hs
    split at hs
    · cases hs
    · rename_i hpc
      split at hs <;> cases hs
      exact ⟨i, not_not.1 hpc, rfl⟩
  | bare r =>
    simp only [step] at hs
    split at hs
    · cases hs
    · rename_i hpc
      split at hs <;> cases hs
      · rename_i hl
        exact Or.inr (Or.inr (Or.inr (Or.inr (Or.inl
          ⟨r, rfl, not_not.1 hpc, getLast?_eq_none_iff.1 hl, rfl⟩))))
      · rename_i tail hl
        exact Or.inr (Or.inr (Or.inr (Or.inr (Or.inr (Or.inl
          ⟨r, tail, rfl, not_not.1 hpc, hl, rfl⟩)))))
  | dequeue => exact Or.inr (Or.inr (Or.inr (Or.inr (Or.inr (Or.inr hs)))))

theorem leaveDequeue_cases (hs : s.leaveDequeue = .done s') :
    (s.pc = .loop ∧ s.detfifo = [] ∧ s' = { s with pc := .idle }) ∨
    (∃ e es, s.pc = .loop ∧ s.detfifo = e :: es ∧ s.counter ≤ e.seqnr ∧
      s' = { s with
        counter := e.seqnr
        out := s.out ++ written e
        detfifo := { e with recfifo := [] } :: es
        pc := .check }) ∨
    (∃ e es, s.pc = .check ∧ s.detfifo = e :: es ∧ e.refcount = 0 ∧ e.recfifo = [] ∧
      s' = { s with detfifo := es, freed := s.freed ++ [e.id], pc := .loop }) ∨
    (∃ e es, s.pc = .check ∧ s.detfifo = e :: es ∧ e.refcount ≠ 0 ∧ s' = { s with pc := .scan 1 }) ∨
    (∃ k e es x, s.pc = .scan k ∧ s.detfifo = e :: es ∧ s.detfifo[k]? = some x ∧
      x.seqnr = e.seqnr ∧ s' = { s with
        out := s.out ++ written x
        detfifo := s.detfifo.set k { x with recfifo := [] }
        pc := .scan (k + 1) }) ∨
    (∃ k e es, s.pc = .scan k ∧ s.detfifo = e :: es ∧
      (∀ x, s.detfifo[k]? = some x → x.seqnr ≠ e.seqnr) ∧ s' = { s with pc := .idle }) := by
  unfold leaveDequeue at hs
  split at hs
  · cases hs
  · rename_i hpc
    split at hs
    · rename_i hfifo
      cases hs
      exact Or.inl ⟨hpc, hfifo, rfl⟩
    · rename_i e es hfifo
      split at hs <;> cases hs
      rename_i hlt
      exact Or.inr (Or.inl ⟨e, es, hpc, hfifo, Int.not_lt.1 hlt, rfl⟩)
  · rename_i hpc
    split at hs
    · cases hs
    · rename_i e es hfifo
      split at hs
      · rename_i hzero
        split at hs <;> cases hs
        rename_i hemp
        exact Or.inr (Or.inr (Or.inl ⟨e, es, hpc, hfifo, hzero, List.isEmpty_iff.1 hemp, rfl⟩))
      · rename_i hne
        cases hs
        exact Or.inr (Or.inr (Or.inr (Or.inl ⟨e, es, hpc, hfifo, hne, rfl⟩)))
  · rename_i k hpc
    split at hs
    · cases hs
    · rename_i e hh hx
      cases hs
      obtain ⟨es, hfifo⟩ := head?_eq_some_iff.1 hh
      refine Or.inr (Or.inr (Or.inr (Or.inr (Or.inr ⟨k, e, es, hpc, hfifo, fun x hx' => ?_, rfl⟩))))
      rw [hx] at hx'
      cases hx'
    · rename_i e x hh hx
      obtain ⟨es, hfifo⟩ := head?_eq_some_iff.1 hh
      split at hs <;> cases hs
      · rename_i heq
        exact Or.inr (Or.inr (Or.inr (Or.inr (Or.inl ⟨k, e, es, x, hpc, hfifo, hx, heq, rfl⟩))))
      · rename_i hne
        refine Or.inr (Or.inr (Or.inr (Or.inr (Or.inr
          ⟨k, e, es, hpc, hfifo, fun x' hx' => ?_, rfl⟩))))
        rw [hx] at hx'
        cases hx'
        exact hne

/-! ## Sequence numbers -/

/-- The sequence numbers along `detfifo`. -/
def seqnrs (s : DetNet R) : List Int := s.detfifo.map Detref.seqnr

structure Ordered (s : DetNet R) : Prop where
  sorted : (seqnrs s).Pairwise (· ≤ ·)
  lower : ∀ n ∈ seqnrs s, s.counter ≤ n
  upper : ∀ n ∈ seqnrs s, n ≤ s.enter.counter + 1
  next : s.counter ≤ s.enter.counter + 1

/-- A record without a detref for the network reaches the collector only when the last number in
`detfifo` is one that `SNetDetEnter` has given out. -/
def BareOk (s : DetNet R) : DetAct R → Prop
  | .bare _ => ∀ tail, s.detfifo.getLast? = some tail → tail.seqnr ≤ s.enter.counter
  | _ => True

theorem seqnrs_of_shape {l l' : List (Detref R)} (h : l'.map Detref.shape = l.map Detref.shape) :
    l'.map Detref.seqnr = l.map Detref.seqnr := by
  have := congrArg (List.map fun x => x.2.1) h
  rwa [map_map, map_map] at this

theorem Ordered.of_eq (h : Ordered s) (hseq : seqnrs s' = seqnrs s) (he : s'.enter = s.enter)
    (hc : s'.counter = s.counter) : Ordered s' :=
  ⟨hseq ▸ h.sorted, by rw [hseq, hc]; exact h.lower, by rw [hseq, he]; exact h.upper,
    by rw [hc, he]; exact h.next⟩

theorem Ordered.append (h : Ordered s) {n : Int} (hseq : seqnrs s' = seqnrs s ++ [n])
    (hc : s'.counter = s.counter) (he : s.enter.counter ≤ s'.enter.counter)
    (hge : ∀ m ∈ seqnrs s, m ≤ n) (hlow : s.counter ≤ n) (hup : n ≤ s'.enter.counter + 1) :
    Ordered s' := by
  refine ⟨?_, fun m hm => ?_, fun m hm => ?_, ?_⟩
  · rw [hseq, pairwise_append]
    refine ⟨h.sorted, pairwise_singleton _ _, fun m hm n' hn' => ?_⟩
    rw [mem_singleton.1 hn']
    exact hge m hm
  · rw [hseq, mem_append, mem_singleton] at hm
    rw [hc]
    exact hm.elim (h.lower m) fun e => e ▸ hlow
  · rw [hseq, mem_append, mem_singleton] at hm
    rcases hm with hm | rfl
    · have := h.upper m hm
      omega
    · exact hup
  · have := h.next
    omega

theorem le_getLast_of_sorted {l : List Int} {n : Int} (h : l.Pairwise (· ≤ ·))
    (hl : l.getLast? = some n) : ∀ m ∈ l, m ≤ n := by
  obtain ⟨l', rfl⟩ := getLast?_eq_some_iff.1 hl
  intro m hm
  rw [pairwise_append] at h
  rcases mem_append.1 hm with hm | hm
  · exact h.2.2 m hm n (mem_singleton_self n)
  · exact Int.le_of_eq (mem_singleton.1 hm)

theorem ordered_leaveDequeue (h : Ordered s) (hs : s.leaveDequeue = .done s') : Ordered s' := by
  obtain ⟨-, -, rfl⟩ | ⟨e, es, -, hfifo, -, rfl⟩ | ⟨e, es, -, hfifo, -, -, rfl⟩ |
    ⟨e, es, -, -, -, rfl⟩ | ⟨k, e, es, x, -, -, hx, -, rfl⟩ | ⟨k, e, es, -, -, -, rfl⟩ :=
    leaveDequeue_cases hs
  · exact h.of_eq rfl rfl rfl
  · have hseq : seqnrs s = e.seqnr :: es.map Detref.seqnr := by rw [seqnrs, hfifo]; rfl
    have hsorted := h.sorted
    rw [hseq, pairwise_cons] at hsorted
    refine ⟨pairwise_cons.2 hsorted, fun n hn => ?_, fun n hn => h.upper n (hseq ▸ hn), ?_⟩
    · rcases mem_cons.1 hn with rfl | hn
      · exact Int.le_refl _
      · exact hsorted.1 n hn
    · exact h.upper _ (hseq ▸ mem_cons_self)
  · have hseq : seqnrs s = e.seqnr :: es.map Detref.seqnr := by rw [seqnrs, hfifo]; rfl
    have hsorted := h.sorted
    rw [hseq, pairwise_cons] at hsorted
    exact ⟨hsorted.2, fun n hn => h.lower n (hseq ▸ mem_cons_of_mem _ hn),
      fun n hn => h.upper n (hseq ▸ mem_cons_of_mem _ hn), h.next⟩
  · exact h.of_eq rfl rfl rfl
  · exact h.of_eq (map_set_of_eq hx rfl) rfl rfl
  · exact h.of_eq rfl rfl rfl

theorem ordered_init : Ordered (DetNet.init : DetNet R) :=
  ⟨List.Pairwise.nil, by simp [seqnrs, DetNet.init], by simp [seqnrs, DetNet.init],
    by simp [DetNet.init]⟩

theorem ordered_step (hc : Counted s) (h : Ordered s) {act : DetAct R} (hok : BareOk s act)
    (hs : s.step true act = .done s') : Ordered s' := by
  obtain ⟨r, top, rfl, rfl⟩ | hin | ⟨i, r, e, -, -, -, rfl⟩ | ⟨i, -, rfl⟩ | ⟨r, -, -, -, rfl⟩ |
    ⟨r, tail, rfl, -, hl, rfl⟩ | hd := step_cases hc hs
  · refine h.append (n := s.enter.counter + 1) (by simp [seqnrs, detrefAdd]) rfl ?_ h.upper h.next ?_
    · show s.enter.counter ≤ s.enter.counter + 1
      omega
    · show s.enter.counter + 1 ≤ s.enter.counter + 1 + 1
      omega
  · exact h.of_eq (seqnrs_of_shape hin.shape) hin.enter hin.counter
  · exact h.of_eq (map_modifyDetref fun _ => rfl) rfl rfl
  · exact h.of_eq rfl rfl rfl
  · exact h.of_eq rfl rfl rfl
  · have htail : (seqnrs s).getLast? = some tail.seqnr := by
      rw [seqnrs, getLast?_map, hl]
      rfl
    have hmem : tail.seqnr ∈ seqnrs s := mem_of_getLast? htail
    have hle := hok tail hl
    refine h.append (n := tail.seqnr + 1) (by simp [seqnrs, queueBare]) rfl (Int.le_refl _)
      (fun m hm => ?_) ?_ ?_
    · have := le_getLast_of_sorted h.sorted htail m hm
      omega
    · have := h.lower _ hmem
      omega
    · show tail.seqnr + 1 ≤ s.enter.counter + 1
      omega
  · exact ordered_leaveDequeue h hd

/-! ## Queued and written records -/

/-- The records queued in `detfifo`. -/
def queued (s : DetNet R) : List (R × Option Int) := s.detfifo.flatMap written

/-- Written records are in the order of their numbers, where they have one. -/
def InOrder (out : List (R × Option Int)) : Prop :=
  out.Pairwise fun a b => ∀ x ∈ a.2, ∀ y ∈ b.2, x ≤ y

structure Delivered (s : DetNet R) : Prop where
  inOrder : InOrder s.out
  upTo : ∀ o ∈ s.out, ∀ x ∈ o.2, x ≤ s.counter
  balance : s.arrived.Perm (s.out ++ queued s)

theorem queued_of_shape {l l' : List (Detref R)} (h : l'.map Detref.shape = l.map Detref.shape) :
    l'.flatMap written = l.flatMap written := by
  have hw : ∀ l : List (Detref R), l.flatMap written =
      (l.map Detref.shape).flatMap fun x => x.2.2.map fun r => (r, some x.2.1) := by
    intro l
    rw [flatMap_map]
    rfl
  rw [hw, hw, h]

theorem perm_queue {l : List (Detref R)} (hnd : (l.map Detref.id).Nodup) {e : Detref R}
    (he : e ∈ l) {f : Detref R → Detref R} {r : R}
    (hf : written (f e) = written e ++ [(r, some e.seqnr)]) :
    ((modifyDetref e.id f l).flatMap written).Perm (l.flatMap written ++ [(r, some e.seqnr)]) := by
  induction l with
  | nil => cases he
  | cons x l ih =>
    rw [map_cons, nodup_cons] at hnd
    simp only [modifyDetref, map_cons, flatMap_cons]
    by_cases hx : x.id = e.id
    · have hxe : x = e := by
        rcases mem_cons.1 he with h | h
        · exact h.symm
        · exact absurd (hx ▸ mem_map_of_mem h) hnd.1
      subst hxe
      have hrest : l.map (fun y => if y.id = x.id then f y else y) = l := by
        have hcongr : ∀ y ∈ l, (if y.id = x.id then f y else y) = id y := fun y hy =>
          if_neg fun (hid : y.id = x.id) => hnd.1 (hid ▸ mem_map_of_mem hy)
        rw [map_congr_left hcongr, map_id]
      rw [hrest, if_pos rfl, hf, append_assoc, append_assoc]
      exact List.Perm.append_left _ perm_append_comm
    · have hmem : e ∈ l := by
        rcases mem_cons.1 he with h | h
        · exact absurd (h ▸ rfl) hx
        · exact h
      rw [if_neg hx, append_assoc]
      exact (ih hnd.2 hmem).append_left _

theorem Delivered.write (h : Delivered s) {e : Detref R} {n : Int} {l : List (Detref R)}
    (hn : e.recfifo ≠ [] → n = e.seqnr) (hge : s.counter ≤ n)
    (hq : (queued s).Perm (written e ++ l.flatMap written)) (hc : s'.counter = n)
    (ho : s'.out = s.out ++ written e) (ha : s'.arrived = s.arrived)
    (hl : queued s' = l.flatMap written) : Delivered s' := by
  have hw : ∀ o ∈ written e, ∀ x ∈ o.2, x = n := by
    intro o hm x hx
    obtain ⟨r, hr, rfl⟩ := List.mem_map.1 hm
    cases hx
    exact (hn (ne_nil_of_mem hr)).symm
  refine ⟨?_, fun o hm x hx => ?_, ?_⟩
  · rw [ho, InOrder, pairwise_append]
    refine ⟨h.inOrder, ?_, fun a ha b hb x hx y hy => ?_⟩
    · refine List.Pairwise.imp_of_mem (R := fun _ _ => True) ?_
        (pairwise_of_forall fun _ _ => trivial)
      intro a b hma hmb _ x hx y hy
      exact Int.le_of_eq ((hw a hma x hx).trans (hw b hmb y hy).symm)
    · rw [hw b hb y hy]
      exact Int.le_trans (h.upTo a ha x hx) hge
  · rw [ho, mem_append] at hm
    rw [hc]
    rcases hm with hm | hm
    · exact Int.le_trans (h.upTo o hm x hx) hge
    · exact Int.le_of_eq (hw o hm x hx)
  · rw [ha, ho, hl, append_assoc]
    exact h.balance.trans (hq.append_left _)

theorem Delivered.of_eq (h : Delivered s) (ho : s'.out = s.out) (ha : s'.arrived = s.arrived)
    (hc : s'.counter = s.counter) (hq : (queued s').Perm (queued s)) : Delivered s' :=
  ⟨ho ▸ h.inOrder, by rw [ho, hc]; exact h.upTo, by
    rw [ho, ha]
    exact h.balance.trans (hq.symm.append_left _)⟩

theorem delivered_init : Delivered (DetNet.init : DetNet R) :=
  ⟨List.Pairwise.nil, by simp [DetNet.init], List.Perm.refl _⟩

/-! ## The collector -/

/-- The first detref is awaited and has nothing queued; queued records have larger numbers. -/
def Settled (s : DetNet R) : Prop :=
  ∀ e es, s.detfifo = e :: es →
    Awaited s e ∧ e.recfifo = [] ∧ ∀ x ∈ es, x.recfifo ≠ [] → e.seqnr < x.seqnr

def PcOk (s : DetNet R) : Prop :=
  match s.pc with
  | .idle => Settled s
  | .loop => True
  | .check => ∃ e es, s.detfifo = e :: es ∧ e.recfifo = [] ∧ s.counter = e.seqnr
  | .scan k => ∃ j e es, k = j + 1 ∧ s.detfifo = e :: es ∧ Awaited s e ∧ e.recfifo = [] ∧
      s.counter = e.seqnr ∧ ∀ x ∈ es.take j, x.recfifo = []

theorem written_eq_nil {e : Detref R} (h : e.recfifo = []) : written e = [] := by
  simp [written, h]

theorem delivered_leaveDequeue (hpc : PcOk s) (h : Delivered s)
    (hs : s.leaveDequeue = .done s') : Delivered s' := by
  obtain ⟨-, -, rfl⟩ | ⟨e, es, -, hfifo, hle, rfl⟩ | ⟨e, es, -, hfifo, -, hemp, rfl⟩ |
    ⟨e, es, -, -, -, rfl⟩ | ⟨k, e, es, x, hk, hfifo, hx, hseq, rfl⟩ | ⟨k, e, es, -, -, -, rfl⟩ :=
    leaveDequeue_cases hs
  · exact h.of_eq rfl rfl rfl (List.Perm.refl _)
  · refine h.write (e := e) (n := e.seqnr) (l := es) (fun _ => rfl) hle ?_ rfl rfl rfl ?_
    · rw [queued, hfifo, flatMap_cons]
    · simp [queued, written]
  · refine h.of_eq rfl rfl rfl ?_
    show (es.flatMap written).Perm (queued s)
    rw [queued, hfifo, flatMap_cons, written_eq_nil hemp, nil_append]
  · exact h.of_eq rfl rfl rfl (List.Perm.refl _)
  · simp only [PcOk, hk] at hpc
    obtain ⟨j, e', es', -, hfifo', -, -, hc, -⟩ := hpc
    rw [hfifo', List.cons.injEq] at hfifo
    obtain ⟨rfl, rfl⟩ := hfifo
    obtain ⟨hlt, hget⟩ := List.getElem?_eq_some_iff.1 hx
    have hsplit : s.detfifo = s.detfifo.take k ++ x :: s.detfifo.drop (k + 1) := by
      rw [← hget, getElem_cons_drop, take_append_drop]
    refine h.write (e := x) (n := s.counter) (l := s.detfifo.take k ++ s.detfifo.drop (k + 1))
      (fun _ => by rw [hc, hseq]) (Int.le_refl _) ?_ rfl rfl rfl ?_
    · rw [queued]
      nth_rewrite 1 [hsplit]
      rw [flatMap_append, flatMap_cons, flatMap_append, ← append_assoc,
        ← append_assoc]
      exact perm_append_comm.append_right _
    · simp only [queued, set_eq_take_append_cons_drop, hlt, if_true, flatMap_append,
        flatMap_cons]
      simp [written]
  · exact h.of_eq rfl rfl rfl (List.Perm.refl _)

theorem delivered_step (hc : Counted s) (hpc : PcOk s) (h : Delivered s)
    {act : DetAct R} (hs : s.step true act = .done s') : Delivered s' := by
  obtain ⟨r, top, rfl, rfl⟩ | hin | ⟨i, r, e, -, -, he, rfl⟩ | ⟨i, -, rfl⟩ |
    ⟨r, -, -, hfifo, rfl⟩ | ⟨r, tail, rfl, -, hl, rfl⟩ | hd := step_cases hc hs
  · refine h.of_eq rfl rfl rfl ?_
    simp [queued, detrefAdd, written]
  · refine h.of_eq hin.out hin.arrived hin.counter ?_
    rw [queued, queued, queued_of_shape hin.shape]
  · refine ⟨h.inOrder, h.upTo, ?_⟩
    have hp := perm_queue hc.nodup he (r := r) (f := fun e =>
      { e with
        recfifo := e.recfifo ++ [r]
        refcount := if e.refcount - 1 = 1 then 0 else e.refcount - 1 }) (by simp [written])
    have hb := (h.balance.append_right [(r, some e.seqnr)]).trans
      (by rw [append_assoc])
    exact hb.trans (hp.symm.append_left _)
  · exact h.of_eq rfl rfl rfl (List.Perm.refl _)
  · have hq : queued s = [] := by rw [queued, hfifo]; rfl
    refine ⟨?_, fun o hm x hx => ?_, ?_⟩
    · show InOrder (s.out ++ [(r, none)])
      rw [InOrder, pairwise_append]
      refine ⟨h.inOrder, pairwise_singleton _ _, fun a _ b hb x _ y hy => ?_⟩
      rw [mem_singleton.1 hb] at hy
      cases hy
    · rcases mem_append.1 hm with hm | hm
      · exact h.upTo o hm x hx
      · rw [mem_singleton.1 hm] at hx
        cases hx
    · have hb := h.balance
      rw [hq, append_nil] at hb
      show (s.arrived ++ [(r, none)]).Perm (s.out ++ [(r, none)] ++ queued s)
      rw [hq, append_nil]
      exact hb.append_right _
  · refine ⟨h.inOrder, h.upTo, ?_⟩
    have hq : queued (s.queueBare r tail) = queued s ++ [(r, some (tail.seqnr + 1))] := by
      simp [queued, queueBare, written]
    rw [hq]
    show (s.arrived ++ [(r, some (tail.seqnr + 1))]).Perm _
    rw [← append_assoc]
    exact h.balance.append_right _
  · exact delivered_leaveDequeue hpc h hd

/-! ### What the other threads leave in place -/

theorem mem_of_shape {l l' : List (Detref R)} (h : l'.map Detref.shape = l.map Detref.shape)
    {x' : Detref R} (hx : x' ∈ l') :
    ∃ x ∈ l, x'.id = x.id ∧ x'.seqnr = x.seqnr ∧ x'.recfifo = x.recfifo := by
  have hm : x'.shape ∈ l.map Detref.shape := h ▸ mem_map_of_mem hx
  obtain ⟨x, hx, he⟩ := List.mem_map.1 hm
  simp only [Detref.shape, Prod.mk.injEq] at he
  exact ⟨x, hx, he.1.symm, he.2.1.symm, he.2.2.symm⟩

theorem cons_of_shape {l : List (Detref R)} {e : Detref R} {es : List (Detref R)}
    (h : l.map Detref.shape = (e :: es).map Detref.shape) :
    ∃ e' es', l = e' :: es' ∧ e'.id = e.id ∧ e'.seqnr = e.seqnr ∧ e'.recfifo = e.recfifo ∧
      es'.map Detref.shape = es.map Detref.shape := by
  cases l with
  | nil => cases h
  | cons e' es' =>
    rw [map_cons, map_cons, List.cons.injEq] at h
    have he := h.1
    simp only [Detref.shape, Prod.mk.injEq] at he
    exact ⟨e', es', rfl, he.1, he.2.1, he.2.2, h.2⟩

theorem pcOk_inside (hin : Inside s s') (h : PcOk s) : PcOk s' := by
  -- the collector's own view is the same, and the first detref is awaited as before
  have haw : ∀ {e es e' es'}, s.detfifo = e :: es → s'.detfifo = e' :: es' → e'.id = e.id →
      Awaited s e → Awaited s' e' := by
    intro e es e' es' he he' hid
    exact hin.awaited e (he ▸ mem_cons_self) e' (he' ▸ mem_cons_self) hid
  unfold PcOk at h ⊢
  rw [hin.pc]
  cases hpc : s.pc with
  | idle =>
    rw [hpc] at h
    intro e' es' he'
    have hsh := hin.shape.symm
    rw [he'] at hsh
    obtain ⟨e, es, he, hid, hseq, hrec, hes⟩ := cons_of_shape hsh
    obtain ⟨h1, h2, h3⟩ := h e es he
    refine ⟨haw he he' hid.symm h1, hrec ▸ h2, fun x' hx' hne => ?_⟩
    obtain ⟨x, hx, -, hxs, hxr⟩ := mem_of_shape hes.symm hx'
    rw [hxs, ← hseq]
    exact h3 x hx (hxr ▸ hne)
  | loop => trivial
  | check =>
    rw [hpc] at h
    obtain ⟨e, es, he, hrec, hc⟩ := h
    obtain ⟨e', es', he', -, hseq, hrec', -⟩ := cons_of_shape (he ▸ hin.shape)
    exact ⟨e', es', he', hrec'.trans hrec, by rw [hin.counter, hc, hseq]⟩
  | scan k =>
    rw [hpc] at h
    obtain ⟨j, e, es, hk, he, haw', hrec, hc, htake⟩ := h
    obtain ⟨e', es', he', hid, hseq, hrec', hes⟩ := cons_of_shape (he ▸ hin.shape)
    refine ⟨j, e', es', hk, he', haw he he' hid haw', hrec'.trans hrec,
      by rw [hin.counter, hc, hseq], fun x' hx' => ?_⟩
    have htk : (es'.take j).map Detref.shape = (es.take j).map Detref.shape := by
      rw [map_take, map_take, hes]
    obtain ⟨x, hx, -, -, hxr⟩ := mem_of_shape htk hx'
    exact hxr.trans (htake x hx)

theorem pcOk_append {e : Detref R} (h : PcOk s) (he : e.recfifo = []) (haw : e.refcount ≠ 0)
    (hfifo : s'.detfifo = s.detfifo ++ [e]) (hpc : s'.pc = s.pc) (hc : s'.counter = s.counter)
    (hn : s'.notes = s.notes) : PcOk s' := by
  have haw' : ∀ x, Awaited s x → Awaited s' x := fun x hx => hx.imp_right fun hm => hn ▸ hm
  unfold PcOk at h ⊢
  rw [hpc]
  cases hp : s.pc with
  | idle =>
    rw [hp] at h
    intro x xs hx
    rw [hfifo] at hx
    cases hl : s.detfifo with
    | nil =>
      rw [hl, nil_append, List.cons.injEq] at hx
      obtain ⟨rfl, rfl⟩ := hx
      exact ⟨Or.inl haw, he, by simp⟩
    | cons y ys =>
      rw [hl, cons_append, List.cons.injEq] at hx
      obtain ⟨rfl, rfl⟩ := hx
      obtain ⟨h1, h2, h3⟩ := h y ys hl
      refine ⟨haw' _ h1, h2, fun z hz hne => ?_⟩
      rcases mem_append.1 hz with hz | hz
      · exact h3 z hz hne
      · exact absurd (mem_singleton.1 hz ▸ he) hne
  | loop => trivial
  | check =>
    rw [hp] at h
    obtain ⟨x, xs, hx, hrec, hcn⟩ := h
    exact ⟨x, xs ++ [e], by rw [hfifo, hx]; rfl, hrec, hc.trans hcn⟩
  | scan k =>
    rw [hp] at h
    obtain ⟨j, x, xs, hk, hx, h1, hrec, hcn, htake⟩ := h
    refine ⟨j, x, xs ++ [e], hk, by rw [hfifo, hx]; rfl, haw' _ h1, hrec, hc.trans hcn,
      fun z hz => ?_⟩
    rw [take_append] at hz
    rcases mem_append.1 hz with hz | hz
    · exact htake z hz
    · exact mem_singleton.1 (mem_of_mem_take hz) ▸ he

theorem pcOk_leaveDequeue (hord : Ordered s) (h : PcOk s) (hs : s.leaveDequeue = .done s') :
    PcOk s' := by
  obtain ⟨-, hfifo, rfl⟩ | ⟨e, es, -, hfifo, hle, rfl⟩ | ⟨e, es, -, hfifo, -, hemp, rfl⟩ |
    ⟨e, es, hpc, hfifo, hne, rfl⟩ | ⟨k, e, es, x, hpc, hfifo, hx, hseq, rfl⟩ |
    ⟨k, e, es, hpc, hfifo, hstop, rfl⟩ := leaveDequeue_cases hs
  · intro e es he
    rw [hfifo] at he
    cases he
  · exact ⟨_, _, rfl, rfl, rfl⟩
  · trivial
  · simp only [PcOk, hpc] at h
    obtain ⟨e', es', hfifo', hrec, hc⟩ := h
    rw [hfifo', List.cons.injEq] at hfifo
    obtain ⟨rfl, rfl⟩ := hfifo
    exact ⟨0, e', es', rfl, hfifo', Or.inl hne, hrec, hc, by simp⟩
  · simp only [PcOk, hpc] at h
    obtain ⟨j, e', es', rfl, hfifo', haw, hrec, hc, htake⟩ := h
    rw [hfifo', getElem?_cons_succ] at hx
    obtain ⟨hlt, -⟩ := List.getElem?_eq_some_iff.1 hx
    refine ⟨j + 1, e', es'.set j { x with recfifo := [] }, rfl, ?_, haw, hrec, hc, fun y hy => ?_⟩
    · show s.detfifo.set (j + 1) _ = _
      rw [hfifo']
      rfl
    · rw [take_add_one, take_set_of_le (le_refl j), getElem?_set_self hlt] at hy
      rcases mem_append.1 hy with hy | hy
      · exact htake y hy
      · rw [mem_singleton.1 hy]
  · simp only [PcOk, hpc] at h
    obtain ⟨j, e', es', rfl, hfifo', haw, hrec, hc, htake⟩ := h
    rw [hfifo', List.cons.injEq] at hfifo
    obtain ⟨rfl, rfl⟩ := hfifo
    intro a as ha
    rw [show s.detfifo = e' :: es' from hfifo', List.cons.injEq] at ha
    obtain ⟨rfl, rfl⟩ := ha
    refine ⟨haw, hrec, fun y hy hne => ?_⟩
    -- a queued record is behind the place where the scan stopped
    rw [← take_append_drop j es'] at hy
    rcases mem_append.1 hy with hy | hy
    · exact absurd (htake y hy) hne
    · have hsorted := hord.sorted
      rw [seqnrs, hfifo', map_cons, pairwise_cons] at hsorted
      cases hd : es'.drop j with
      | nil => rw [hd] at hy; cases hy
      | cons x xs =>
        have hx : s.detfifo[j + 1]? = some x := by
          rw [hfifo', getElem?_cons_succ, ← head?_drop, hd]
          rfl
        have hxne := hstop x hx
        have hxmem : x ∈ es' := mem_of_mem_drop (hd ▸ mem_cons_self)
        have hxge := hsorted.1 x.seqnr (mem_map_of_mem hxmem)
        have hyge : x.seqnr ≤ y.seqnr := by
          have hs2 := hsorted.2
          rw [← take_append_drop j es', hd, map_append, pairwise_append,
            map_cons, pairwise_cons] at hs2
          rw [hd] at hy
          rcases mem_cons.1 hy with rfl | hy
          · exact Int.le_refl _
          · exact hs2.2.1.1 y.seqnr (mem_map_of_mem hy)
        omega

theorem pcOk_step (hc : Counted s) (hord : Ordered s) (h : PcOk s) {act : DetAct R}
    (hs : s.step true act = .done s') : PcOk s' := by
  obtain ⟨r, top, rfl, rfl⟩ | hin | ⟨i, r, e, -, -, -, rfl⟩ | ⟨i, -, rfl⟩ |
    ⟨r, -, hpc, hfifo, rfl⟩ | ⟨r, tail, rfl, -, -, rfl⟩ | hd := step_cases hc hs
  · exact pcOk_append (e := ⟨s.fresh, s.enter.counter + 1, 2, []⟩) h rfl (by simp) rfl rfl rfl rfl
  · exact pcOk_inside hin h
  · trivial
  · trivial
  · unfold PcOk at h ⊢
    rw [hpc] at h
    simp only [hpc]
    intro e es he
    exact absurd (hfifo.symm.trans he) (by simp)
  · trivial
  · exact pcOk_leaveDequeue hord h hd

/-! ## Runs -/

def detStep (s : DetNet R) (act : DetAct R) : Outcome (DetNet R) := s.step true act

structure DetInv (s : DetNet R) : Prop where
  counted : Counted s
  ordered : Ordered s
  delivered : Delivered s
  pcOk : PcOk s

theorem detInv_init : DetInv (DetNet.init : DetNet R) :=
  ⟨counted_init, ordered_init, delivered_init, fun _ _ h => by cases h⟩

theorem detInv_step (h : DetInv s) {act : DetAct R} (hok : BareOk s act)
    (hs : detStep s act = .done s') : DetInv s' :=
  ⟨counted_step h.counted hs, ordered_step h.counted h.ordered hok hs,
    delivered_step h.counted h.pcOk h.delivered hs, pcOk_step h.counted h.ordered h.pcOk hs⟩

theorem detInv_reach (h : Reach detStep BareOk DetNet.init s) : DetInv s :=
  h.invariant detInv_init fun _ _ _ hI hok hs => detInv_step hI hok hs

theorem detStep_ne_fault (h : DetInv s) (act : DetAct R) : detStep s act ≠ .fault := by
  intro hf
  cases act with
  | enter r top =>
    simp only [detStep, step, detEnter, if_true] at hf
    cases hf
  | copy i r =>
    simp only [detStep, step] at hf
    split at hf
    · cases hf
    · rename_i y d hi
      obtain ⟨e, hfind, -, -, hge, -⟩ := h.counted.lookup hi
      rw [hfind] at hf
      simp only [Nat.not_lt.2 hge, if_false] at hf
      cases hf
  | forward i r =>
    simp only [detStep, step] at hf
    split at hf <;> cases hf
  | absorb i =>
    simp only [detStep, step] at hf
    split at hf
    · cases hf
    · rename_i y d hi
      obtain ⟨e, hfind, -, -, hge, -⟩ := h.counted.lookup hi
      rw [hfind] at hf
      simp only [Nat.not_lt.2 hge, if_false] at hf
      cases hf
  | notify i =>
    simp only [detStep, step] at hf
    split at hf
    · cases hf
    · rename_i d hi
      have hd : d ∈ s.dying := mem_of_getElem? hi
      obtain ⟨hids, hno⟩ := h.counted.dying d hd
      obtain ⟨e, hfind⟩ := exists_findDetref hids
      obtain ⟨he, hid⟩ := findDetref_some hfind
      have hone := h.counted.refcount e he
      rw [hid, expected_of_dying (count_eq_zero.2 hno) hd] at hone
      rw [hfind] at hf
      simp only [hone, ne_eq, not_true_eq_false, if_false] at hf
      cases hf
  | arrive i =>
    simp only [detStep, step] at hf
    split at hf
    · cases hf
    · split at hf
      · cases hf
      · rename_i r d hi
        obtain ⟨e, hfind, he, -, hge, -⟩ := h.counted.lookup hi
        have hlow := h.ordered.lower e.seqnr (mem_map_of_mem he)
        rw [hfind] at hf
        dsimp only at hf
        rw [if_neg (by omega)] at hf
        cases hf
  | note i =>
    simp only [detStep, step] at hf
    split at hf
    · cases hf
    · split at hf <;> cases hf
  | bare r =>
    simp only [detStep, step] at hf
    split at hf
    · cases hf
    · split at hf <;> cases hf
  | dequeue =>
    have hpc := h.pcOk
    simp only [detStep, step, leaveDequeue] at hf
    split at hf
    · cases hf
    · split at hf
      · cases hf
      · rename_i e es hfifo
        have hlow := h.ordered.lower e.seqnr (mem_map_of_mem (hfifo ▸ mem_cons_self))
        rw [if_neg (by omega)] at hf
        cases hf
    · rename_i hp
      simp only [PcOk, hp] at hpc
      obtain ⟨e, es, hfifo, hrec, -⟩ := hpc
      rw [hfifo] at hf
      simp only [hrec, isEmpty_nil, if_true] at hf
      split at hf <;> cases hf
    · rename_i k hp
      simp only [PcOk, hp] at hpc
      obtain ⟨j, e, es, -, hfifo, -⟩ := hpc
      split at hf
      · rename_i hh
        rw [hfifo] at hh
        cases hh
      · cases hf
      · split at hf <;> cases hf

end SNet.Front
