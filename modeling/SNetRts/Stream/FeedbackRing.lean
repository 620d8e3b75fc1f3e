import SNetRts.Stream.Feedback

/-!
# What is under way in the feedback loop

What is under way in the loop, from the streams that the collector reads back to what the collector has
still to write, is one list. Without sync records, terminate records and sort records from outside it
consists of the data records of one record from outside and the one sort record of level 0. The mode
of the collector tells where in that list the sort record is: it is not there in mode `input`, and it
is the last one in mode `fb1`.

`Ring` is the network with the writes that are still to be made regarded as made. Only the steps in
which a task reads a record change it.
-/

namespace SNet.Stream.Feedback

open Lib List

variable {D Γ : Type}

/-! ## Data records and sort records of level 0 -/

/-- The number of a data record; `none` for a sort record of level 0. -/
def token : Rec (Item D) Γ → Option (Option Nat)
  | .data i => some (some i.origin)
  | .sortEnd level _ => if level = 0 then some none else none
  | _ => none

def tokens (rs : List (Rec (Item D) Γ)) : List (Option Nat) := rs.filterMap token

@[simp] theorem tokens_nil : tokens ([] : List (Rec (Item D) Γ)) = [] := rfl

@[simp] theorem tokens_append (rs ss : List (Rec (Item D) Γ)) :
    tokens (rs ++ ss) = tokens rs ++ tokens ss :=
  filterMap_append

@[simp] theorem tokens_data (i : Item D) (rs : List (Rec (Item D) Γ)) :
    tokens (.data i :: rs) = some i.origin :: tokens rs := rfl

@[simp] theorem tokens_sync (s : StreamId) (t : Option Γ) (rs : List (Rec (Item D) Γ)) :
    tokens (.sync s t :: rs) = tokens rs := rfl

@[simp] theorem tokens_terminate (b : Bool) (rs : List (Rec (Item D) Γ)) :
    tokens (.terminate b :: rs) = tokens rs := rfl

@[simp] theorem tokens_sortEnd_zero (num : Int) (rs : List (Rec (Item D) Γ)) :
    tokens (.sortEnd 0 num :: rs) = none :: tokens rs := rfl

theorem tokens_sortEnd {level : Int} (h : level ≠ 0) (num : Int) (rs : List (Rec (Item D) Γ)) :
    tokens (.sortEnd level num :: rs) = tokens rs :=
  filterMap_cons_none (if_neg h)

/-- What the mode of the collector tells about the data records and sort records in the loop, where
`cur` is the number of the record from outside that they come from. -/
structure Shape (mode : Mode) (cur : Nat) (ts : List (Option Nat)) : Prop where
  mem : ∀ t ∈ ts, t = none ∨ t = some cur
  count : ts.count none = if mode = .input then 0 else 1
  input : mode = .input → ts = []
  last : mode = .fb1 → ts.getLast? = some none

namespace Shape

variable {mode : Mode} {cur o : Nat} {ts us : List (Option Nat)}

theorem empty (cur : Nat) : Shape .input cur [] := ⟨nofun, rfl, fun _ => rfl, nofun⟩

theorem enter (cur : Nat) : Shape .fb1 cur [some cur, none] := by
  refine ⟨fun t ht => ?_, rfl, nofun, fun _ => rfl⟩
  simpa [or_comm] using ht

theorem eq_cur (h : Shape mode cur (ts ++ some o :: us)) : o = cur := by
  rcases h.mem _ (mem_append_right _ mem_cons_self) with ht | ht
  · cases ht
  · exact Option.some.inj ht

theorem replace (h : Shape mode cur (ts ++ some o :: us)) (k : Nat) :
    Shape mode cur (ts ++ (List.replicate k (some o) ++ us)) := by
  obtain rfl := h.eq_cur
  refine ⟨fun t ht => ?_, ?_, fun hm => ?_, fun hm => ?_⟩
  · rcases mem_append.1 ht with ht | ht
    · exact h.mem t (mem_append_left _ ht)
    · rcases mem_append.1 ht with ht | ht
      · exact Or.inr (eq_of_mem_replicate ht)
      · exact h.mem t (mem_append_right _ (mem_cons_of_mem _ ht))
  · have hcount := h.count
    rw [← hcount]
    simp [count_append, count_replicate]
  · exact absurd (h.input hm) (by simp)
  · have hlast := h.last hm
    cases us with
    | nil => simp at hlast
    | cons u us =>
      rw [getLast?_append_of_ne_nil _ (cons_ne_nil _ _), getLast?_cons_cons] at hlast
      rw [getLast?_append_of_ne_nil _ (by simp),
        getLast?_append_of_ne_nil _ (cons_ne_nil _ _)]
      exact hlast

theorem again (h : Shape mode cur (some o :: ts)) : Shape .fb0 cur (ts ++ [some o]) := by
  have ho : o = cur := by
    rw [← nil_append (some o :: ts)] at h
    exact h.eq_cur
  have hcount := h.count
  refine ⟨fun t ht => ?_, ?_, nofun, nofun⟩
  · rcases mem_append.1 ht with ht | ht
    · exact h.mem t (mem_cons_of_mem _ ht)
    · exact Or.inr ((mem_singleton.1 ht).trans (congrArg some ho))
  · rw [if_neg fun hm => absurd (h.input hm) (cons_ne_nil _ _)] at hcount
    rw [if_neg nofun, ← hcount]
    simp [count_append]

theorem sort (h : Shape .fb0 cur (none :: ts)) : Shape .fb1 cur (ts ++ [none]) := by
  have hcount := h.count
  refine ⟨fun t ht => ?_, ?_, nofun, fun _ => getLast?_concat⟩
  · rcases mem_append.1 ht with ht | ht
    · exact h.mem t (mem_cons_of_mem _ ht)
    · exact Or.inl (mem_singleton.1 ht)
  · rw [count_cons] at hcount
    rw [count_append]
    exact hcount

theorem close (h : Shape .fb1 cur (none :: ts)) : ts = [] := by
  have hcount := h.count
  have hlast := h.last rfl
  cases ts with
  | nil => rfl
  | cons t us =>
    rw [getLast?_cons_cons] at hlast
    have hmem : none ∈ t :: us := mem_of_getLast? hlast
    have hpos := count_pos_iff.2 hmem
    rw [count_cons_self, if_neg nofun] at hcount
    omega

end Shape

/-! ## The ring -/

/-- The records among what the dispatcher has still to write that go to one of its streams. -/
def toPort (p : Port) (ws : List (Port × Rec (Item D) Γ)) : List (Rec (Item D) Γ) :=
  ws.filterMap fun w => if w.1 = p then some w.2 else none

/-- The network with all writes regarded as made, and the buffer and its streams as one list. -/
structure Ring (D Γ : Type) where
  inq : List (Rec (Item D) Γ)
  arrived : Nat
  sorts : List (Int × Int)
  mode : Mode
  collStopped : Bool
  entered : Nat
  intoOp : List (Rec (Item D) Γ)
  fromOp : List (Rec (Item D) Γ)
  bufIn : List (Rec (Item D) Γ)
  back : List (Rec (Item D) Γ)
  out : List (Rec (Item D) Γ)

def Net.backlog (n : Net D Γ) : List (Rec (Item D) Γ) :=
  (List.range' n.backstream (n.outstream + 1 - n.backstream)).flatMap n.streams

def Net.ring (n : Net D Γ) : Ring D Γ where
  inq := n.inq
  arrived := n.arrived
  sorts := n.sorts
  mode := n.mode
  collStopped := n.collStopped
  entered := n.entered
  intoOp := n.intoOp ++ n.collWrites
  fromOp := n.fromOp ++ n.opWrites
  bufIn := n.bufIn ++ toPort .back n.dispWrites
  back := n.backlog ++ n.queue
  out := n.out ++ toPort .out n.dispWrites

def Ring.loop (g : Ring D Γ) : List (Rec (Item D) Γ) := g.back ++ (g.bufIn ++ (g.fromOp ++ g.intoOp))

def FromOp : Rec (Item D) Γ → Prop
  | .data _ => True
  | .sortEnd level _ => 0 ≤ level
  | .terminate _ => True
  | .sync _ _ => True
  | .collect _ => False

def IntoOp : Rec (Item D) Γ → Prop
  | .data _ => True
  | .sortEnd level _ => 0 ≤ level
  | .terminate _ => True
  | .sync _ _ => False
  | .collect _ => False

def BufIn : Rec (Item D) Γ → Prop
  | .data _ => True
  | .sortEnd level _ => level = 0
  | .terminate _ => True
  | .sync _ _ => False
  | .collect _ => False

def Back : Rec (Item D) Γ → Prop
  | .data _ => True
  | .sortEnd level _ => level = 0
  | .terminate _ => False
  | .sync _ _ => True
  | .collect _ => False

def origins (rs : List (Rec (Item D) Γ)) : List Nat :=
  rs.filterMap fun | .data i => some i.origin | _ => none

@[simp] theorem origins_nil : origins ([] : List (Rec (Item D) Γ)) = [] := rfl

@[simp] theorem origins_append (rs ss : List (Rec (Item D) Γ)) :
    origins (rs ++ ss) = origins rs ++ origins ss :=
  filterMap_append

def sortEnds (rs : List (Rec (Item D) Γ)) : List (Int × Int) :=
  rs.filterMap fun | .sortEnd level num => some (level, num) | _ => none

@[simp] theorem sortEnds_nil : sortEnds ([] : List (Rec (Item D) Γ)) = [] := rfl

@[simp] theorem sortEnds_append (rs ss : List (Rec (Item D) Γ)) :
    sortEnds (rs ++ ss) = sortEnds rs ++ sortEnds ss :=
  filterMap_append

/-- The sort records from outside among those in the loop, with the levels that they have outside. -/
def outerSortEnds (rs : List (Rec (Item D) Γ)) : List (Int × Int) :=
  rs.filterMap fun | .sortEnd level num => if level = 0 then none else some (level - 1, num) | _ => none

@[simp] theorem outerSortEnds_nil : outerSortEnds ([] : List (Rec (Item D) Γ)) = [] := rfl

@[simp] theorem outerSortEnds_append (rs ss : List (Rec (Item D) Γ)) :
    outerSortEnds (rs ++ ss) = outerSortEnds rs ++ outerSortEnds ss :=
  filterMap_append

structure Ring.Inv (g : Ring D Γ) : Prop where
  shape : Shape g.mode g.entered (tokens g.loop)
  inq : ∀ r ∈ g.inq, FromOp r
  intoOp : ∀ r ∈ g.intoOp, IntoOp r
  fromOp : ∀ r ∈ g.fromOp, FromOp r
  bufIn : ∀ r ∈ g.bufIn, BufIn r
  back : ∀ r ∈ g.back, Back r
  numbers : ∃ k, origins g.inq = List.range' (g.entered + 1) k ∧ g.arrived = g.entered + k
  past : ∀ o ∈ origins g.out, o ≤ g.entered
  sorted : (origins g.out).Pairwise (· ≤ ·)
  sorts : sortEnds g.out ++ (outerSortEnds (g.fromOp ++ g.intoOp) ++ sortEnds g.inq) = g.sorts
  /-- The collector terminates in mode `input`, and only then a terminate record is in the loop. -/
  stopped : g.collStopped = true → g.mode = .input
  running : g.collStopped = false → ∀ b, Rec.terminate b ∉ g.bufIn ++ (g.fromOp ++ g.intoOp)

namespace Ring.Inv

variable {g : Ring D Γ}

/-! ### Records from outside -/

theorem data (h : Inv g) (value : D) :
    Inv { g with inq := g.inq ++ [.data ⟨g.arrived + 1, value⟩], arrived := g.arrived + 1 } := by
  obtain ⟨k, hk, harr⟩ := h.numbers
  exact { h with
    inq := List.forall_mem_append.2 ⟨h.inq, by simp [FromOp]⟩
    numbers := ⟨k + 1, by
      have hlast : g.entered + 1 + 1 * k = g.arrived + 1 := by omega
      rw [origins_append, hk, range'_concat, hlast]
      rfl, by
      dsimp only
      omega⟩
    sorts := by
      rw [sortEnds_append]
      exact (congrArg _ (congrArg _ (append_nil _))).trans h.sorts }

theorem sortEnd (h : Inv g) (level : Nat) (num : Int) :
    Inv { g with
      inq := g.inq ++ [.sortEnd level num], sorts := g.sorts ++ [((level : Int), num)] } :=
  { h with
    inq := List.forall_mem_append.2 ⟨h.inq, by simp [FromOp]⟩
    numbers := by simpa [origins] using h.numbers
    sorts := by
      rw [← h.sorts, sortEnds_append, append_assoc, append_assoc]
      rfl }

theorem other (h : Inv g) {r : Rec (Item D) Γ} (hr : FromOp r) (ho : origins [r] = [])
    (hs : sortEnds [r] = []) : Inv { g with inq := g.inq ++ [r] } :=
  { h with
    inq := List.forall_mem_append.2 ⟨h.inq, forall_mem_singleton.2 hr⟩
    numbers := by
      rw [origins_append, ho, append_nil]
      exact h.numbers
    sorts := by
      rw [sortEnds_append, hs, append_nil]
      exact h.sorts }

/-! ### The collector -/

theorem tokens_eq_nil (h : Inv g) (hm : g.mode = .input) : tokens g.loop = [] := h.shape.input hm

theorem collData (h : Inv g) (hm : g.mode = .input) (hrun : g.collStopped = false) {i : Item D}
    {rs : List (Rec (Item D) Γ)} (hq : g.inq = .data i :: rs) :
    Inv { g with
      inq := rs, entered := i.origin, mode := .fb1
      intoOp := g.intoOp ++ [.data i, .sortEnd 0 1] } := by
  obtain ⟨k, hk, harr⟩ := h.numbers
  have hnil := h.tokens_eq_nil hm
  have hterm := h.running hrun
  simp only [loop, tokens_append, append_eq_nil_iff] at hnil
  rw [hq] at hk
  have hk : i.origin :: origins rs = List.range' (g.entered + 1) k := hk
  cases k with
  | zero => cases hk
  | succ k =>
    rw [range'_succ] at hk
    obtain ⟨hi, hk⟩ := List.cons.inj hk
    exact { h with
      shape := by
        simp only [loop, tokens_append, hnil, nil_append, tokens_data, tokens_sortEnd_zero, tokens_nil]
        exact Shape.enter i.origin
      inq := fun r hr => h.inq r (hq ▸ mem_cons_of_mem _ hr)
      intoOp := List.forall_mem_append.2 ⟨h.intoOp, by simp [IntoOp]⟩
      numbers := ⟨k, by
        rw [hi]
        exact hk, by
        dsimp only
        omega⟩
      past := fun o ho => (h.past o ho).trans (hi ▸ Nat.le_succ _)
      sorts := by
        have hsorts := h.sorts
        rw [hq] at hsorts
        rw [← append_assoc g.fromOp, outerSortEnds_append _ [_, _]]
        exact (congrArg _ (congrArg₂ _ (append_nil _) rfl)).trans hsorts
      stopped := fun hs => absurd (hrun.symm.trans hs) nofun
      running := fun _ b => by
        have := hterm b
        simp only [mem_append] at this
        simpa [not_or] using this }

theorem collSortEnd (h : Inv g) {level num : Int} {rs : List (Rec (Item D) Γ)}
    (hq : g.inq = .sortEnd level num :: rs) :
    Inv { g with inq := rs, intoOp := g.intoOp ++ [.sortEnd (level + 1) num] } := by
  have hlevel : FromOp (.sortEnd level num : Rec (Item D) Γ) := h.inq _ (hq ▸ mem_cons_self)
  change 0 ≤ level at hlevel
  have hne : level + 1 ≠ 0 := by omega
  have hout : outerSortEnds [(.sortEnd (level + 1) num : Rec (Item D) Γ)] = [(level, num)] := by
    simp [outerSortEnds, hne]
  exact { h with
    shape := by
      have hshape := h.shape
      simp only [loop, tokens_append] at hshape ⊢
      rw [tokens_sortEnd hne, tokens_nil, append_nil]
      exact hshape
    inq := fun r hr => h.inq r (hq ▸ mem_cons_of_mem _ hr)
    intoOp := List.forall_mem_append.2 ⟨h.intoOp, forall_mem_singleton.2 (Int.le_add_one hlevel)⟩
    numbers := by
      have hnum := h.numbers
      rw [hq] at hnum
      exact hnum
    sorts := by
      have hsorts := h.sorts
      rw [hq] at hsorts
      rw [← append_assoc g.fromOp, outerSortEnds_append _ [_], hout, append_assoc]
      exact hsorts
    running := fun hrun b => by
      have := h.running hrun b
      simp only [mem_append] at this
      simpa [not_or] using this }

theorem collTerminate (h : Inv g) (hm : g.mode = .input) {isLocal : Bool} {rs : List (Rec (Item D) Γ)}
    (hq : g.inq = .terminate isLocal :: rs) :
    Inv { g with inq := rs, collStopped := true, intoOp := g.intoOp ++ [.terminate isLocal] } :=
  { h with
    shape := by
      have hshape := h.shape
      simp only [loop, tokens_append] at hshape ⊢
      rw [tokens_terminate, tokens_nil, append_nil]
      exact hshape
    inq := fun r hr => h.inq r (hq ▸ mem_cons_of_mem _ hr)
    intoOp := List.forall_mem_append.2 ⟨h.intoOp, by simp [IntoOp]⟩
    numbers := by
      have hnum := h.numbers
      rw [hq] at hnum
      exact hnum
    sorts := by
      have hsorts := h.sorts
      rw [hq] at hsorts
      rw [← append_assoc g.fromOp, outerSortEnds_append _ [_]]
      exact (congrArg _ (congrArg₂ _ (append_nil _) rfl)).trans hsorts
    stopped := fun _ => hm
    running := nofun }

theorem collSync (h : Inv g) {s : StreamId} {t : Option Γ} {rs : List (Rec (Item D) Γ)}
    (hq : g.inq = .sync s t :: rs) : Inv { g with inq := rs } :=
  { h with
    inq := fun r hr => h.inq r (hq ▸ mem_cons_of_mem _ hr)
    numbers := by
      have hnum := h.numbers
      rw [hq] at hnum
      exact hnum
    sorts := by
      have hsorts := h.sorts
      rw [hq] at hsorts
      exact hsorts }

theorem back_read (h : Inv g) (hrun : g.collStopped = false) {r : Rec (Item D) Γ}
    {rs xs : List (Rec (Item D) Γ)} (hq : g.back = r :: rs) {mode : Mode}
    (hshape : Shape mode g.entered (tokens (rs ++ (g.bufIn ++ (g.fromOp ++ g.intoOp)) ++ xs)))
    (hinto : ∀ r ∈ xs, IntoOp r) (hout : outerSortEnds xs = []) (hterm : ∀ b, .terminate b ∉ xs) :
    Inv { g with back := rs, mode := mode, intoOp := g.intoOp ++ xs } :=
  { h with
    shape := by simpa only [loop, append_assoc] using hshape
    intoOp := List.forall_mem_append.2 ⟨h.intoOp, hinto⟩
    back := fun r hr => h.back r (hq ▸ mem_cons_of_mem _ hr)
    sorts := by
      rw [← append_assoc g.fromOp, outerSortEnds_append _ xs, hout, append_nil]
      exact h.sorts
    stopped := fun hs => absurd (hrun.symm.trans hs) nofun
    running := fun _ b hb => by
      rw [← append_assoc g.fromOp, ← append_assoc] at hb
      exact (mem_append.1 hb).elim (h.running hrun b) (hterm b) }

theorem fbCollReadFbi (h : Inv g) (hm : g.mode ≠ .input) (hrun : g.collStopped = false)
    {r : Rec (Item D) Γ} {rs : List (Rec (Item D) Γ)} (hq : g.back = r :: rs) :
    ∃ xs mode, Inv { g with back := rs, mode := mode, intoOp := g.intoOp ++ xs } ∧
      (Feedback.fbCollReadFbi g.mode r = some ⟨xs, .run mode⟩ ∨
        mode = g.mode ∧ xs = [] ∧ ∃ s t, r = .sync s t) := by
  have hr := h.back r (hq ▸ mem_cons_self)
  have hshape := h.shape
  rw [loop, hq, cons_append] at hshape
  cases r with
  | data i =>
    refine ⟨[.data i], .fb0, h.back_read hrun hq ?_ (by simp [IntoOp]) rfl (by simp), Or.inl rfl⟩
    rw [tokens_append]
    exact Shape.again hshape
  | sortEnd level num =>
    obtain rfl : level = 0 := hr
    cases hmode : g.mode with
    | input => exact absurd hmode hm
    | fb0 =>
      rw [hmode] at hshape
      refine ⟨[.sortEnd 0 (num + 1)], .fb1, h.back_read hrun hq ?_ (by simp [IntoOp]) rfl (by simp), Or.inl rfl⟩
      rw [tokens_append]
      exact Shape.sort hshape
    | fb1 =>
      rw [hmode, tokens_sortEnd_zero] at hshape
      refine ⟨[], .input, h.back_read hrun hq ?_ nofun rfl nofun, Or.inl rfl⟩
      rw [append_nil, Shape.close hshape]
      exact Shape.empty _
  | sync s t =>
    refine ⟨[], g.mode, h.back_read hrun hq ?_ nofun rfl nofun, Or.inr ⟨rfl, rfl, s, t, rfl⟩⟩
    rw [append_nil]
    exact hshape
  | terminate b => exact hr.elim
  | collect s => exact hr.elim

/-! ### The operand and the dispatcher -/

theorem op_read (h : Inv g) {r : Rec (Item D) Γ} {rs xs : List (Rec (Item D) Γ)}
    (hq : g.intoOp = r :: rs)
    (hshape : Shape g.mode g.entered (tokens (g.back ++ (g.bufIn ++ (g.fromOp ++ (xs ++ rs))))))
    (hfrom : ∀ x ∈ xs, FromOp x) (hout : outerSortEnds xs = outerSortEnds [r])
    (hterm : ∀ b, .terminate b ∈ xs → .terminate b = r) :
    Inv { g with intoOp := rs, fromOp := g.fromOp ++ xs } :=
  { h with
    shape := by simpa only [loop, append_assoc] using hshape
    intoOp := fun x hx => h.intoOp x (hq ▸ mem_cons_of_mem _ hx)
    fromOp := List.forall_mem_append.2 ⟨h.fromOp, hfrom⟩
    sorts := by
      have hsorts := h.sorts
      rw [hq, ← singleton_append, ← append_assoc g.fromOp] at hsorts
      rw [← hsorts]
      simp only [outerSortEnds_append, hout]
    running := fun hrun b hb => by
      have hr := h.running hrun b
      simp only [hq, mem_append, mem_cons] at hr hb
      have := hterm b
      tauto }

theorem operand (h : Inv g) (outs : List D) {r : Rec (Item D) Γ} {rs : List (Rec (Item D) Γ)}
    (hq : g.intoOp = r :: rs) :
    ∃ xs stop, Stream.operand outs r = some (xs, stop) ∧
      Inv { g with intoOp := rs, fromOp := g.fromOp ++ xs } := by
  have hr := h.intoOp r (hq ▸ mem_cons_self)
  have hshape := h.shape
  rw [loop, hq] at hshape
  cases r with
  | data i =>
    refine ⟨_, _, rfl, h.op_read hq ?_ ?_ ?_ ?_⟩
    · have hmap : tokens (outs.map fun v => (.data ⟨i.origin, v⟩ : Rec (Item D) Γ)) =
          List.replicate outs.length (some i.origin) := by
        induction outs with
        | nil => rfl
        | cons v outs ih => exact congrArg _ ih
      simp only [tokens_append, tokens_data, hmap] at hshape ⊢
      simp only [← append_assoc] at hshape ⊢
      rw [append_assoc]
      exact hshape.replace outs.length
    · intro x hx
      obtain ⟨v, -, rfl⟩ := List.mem_map.1 hx
      trivial
    · change outerSortEnds _ = []
      rw [outerSortEnds, filterMap_eq_nil_iff]
      intro x hx
      obtain ⟨v, -, rfl⟩ := List.mem_map.1 hx
      rfl
    · intro b hb
      obtain ⟨v, -, hv⟩ := List.mem_map.1 hb
      cases hv
  | sortEnd level num =>
    exact ⟨_, _, rfl, h.op_read hq hshape (forall_mem_singleton.2 hr) rfl fun b hb =>
      mem_singleton.1 hb⟩
  | terminate b =>
    exact ⟨_, _, rfl, h.op_read hq hshape (forall_mem_singleton.2 trivial) rfl fun b hb =>
      mem_singleton.1 hb⟩
  | sync s t => exact hr.elim
  | collect s => exact hr.elim

theorem opSync (h : Inv g) (s : StreamId) (t : Option Γ) :
    Inv { g with fromOp := g.fromOp ++ [.sync s t] } :=
  { h with
    shape := by
      have hshape := h.shape
      simp only [loop, tokens_append, tokens_sync, tokens_nil, append_nil] at hshape ⊢
      exact hshape
    fromOp := List.forall_mem_append.2 ⟨h.fromOp, by simp [FromOp]⟩
    sorts := by
      have hsorts := h.sorts
      simp only [outerSortEnds_append] at hsorts ⊢
      rw [← hsorts]
      simp [outerSortEnds]
    running := fun hrun b => by
      have := h.running hrun b
      simp only [mem_append] at this
      simpa [not_or] using this }

theorem disp_read (h : Inv g) {r : Rec (Item D) Γ} {rs bs os : List (Rec (Item D) Γ)}
    (hq : g.fromOp = r :: rs)
    (hshape : Shape g.mode g.entered (tokens (g.back ++ (g.bufIn ++ (bs ++ (rs ++ g.intoOp))))))
    (hbuf : ∀ x ∈ bs, BufIn x) (hpast : ∀ o ∈ origins os, o = g.entered)
    (hsorts : outerSortEnds [r] = sortEnds os)
    (hterm : ∀ b, .terminate b ∈ bs → .terminate b = r) :
    Inv { g with fromOp := rs, bufIn := g.bufIn ++ bs, out := g.out ++ os } :=
  { h with
    shape := by simpa only [loop, append_assoc] using hshape
    fromOp := fun x hx => h.fromOp x (hq ▸ mem_cons_of_mem _ hx)
    bufIn := List.forall_mem_append.2 ⟨h.bufIn, hbuf⟩
    past := by
      rw [origins_append]
      exact List.forall_mem_append.2 ⟨h.past, fun o ho => (hpast o ho).le⟩
    sorted := by
      rw [origins_append]
      refine pairwise_append.2 ⟨h.sorted, ?_, fun a ha b hb => hpast b hb ▸ h.past a ha⟩
      exact pairwise_of_forall_mem_list fun a ha b hb => ((hpast a ha).trans (hpast b hb).symm).le
    sorts := by
      have hs := h.sorts
      rw [hq, ← singleton_append] at hs
      rw [← hs]
      simp only [outerSortEnds_append, sortEnds_append, hsorts, append_assoc]
    running := fun hrun b hb => by
      have hr := h.running hrun b
      simp only [hq, mem_append, mem_cons] at hr hb
      have := hterm b
      tauto }

theorem feedbackDispTask (h : Inv g) (backPatterns guards : List (D → Bool)) {r : Rec (Item D) Γ}
    {rs : List (Rec (Item D) Γ)} (hq : g.fromOp = r :: rs) :
    ∃ ws stop, Feedback.feedbackDispTask backPatterns guards r = some (ws, stop) ∧
      Inv { g with
        fromOp := rs, bufIn := g.bufIn ++ toPort .back ws, out := g.out ++ toPort .out ws } := by
  have hr := h.fromOp r (hq ▸ mem_cons_self)
  have hshape := h.shape
  rw [loop, hq] at hshape
  unfold Feedback.feedbackDispTask
  cases r with
  | data i =>
    dsimp only
    split
    · exact ⟨_, _, rfl, h.disp_read hq hshape (forall_mem_singleton.2 trivial) nofun rfl fun b hb =>
        mem_singleton.1 hb⟩
    · -- The record leaves the loop.
      simp only [tokens_append, cons_append, tokens_data, ← append_assoc] at hshape
      have hi := hshape.eq_cur
      refine ⟨_, _, rfl, h.disp_read hq ?_ nofun (forall_mem_singleton.2 hi) rfl nofun⟩
      have hout := hshape.replace 0
      simp only [replicate_zero, nil_append, append_assoc] at hout
      change Shape g.mode g.entered (tokens (g.back ++ (g.bufIn ++ (rs ++ g.intoOp))))
      rwa [tokens_append, tokens_append, tokens_append]
  | sortEnd level num =>
    by_cases hlevel : level = 0
    · refine ⟨_, _, if_pos hlevel, h.disp_read hq hshape (forall_mem_singleton.2 hlevel) nofun ?_ ?_⟩
      · simp [outerSortEnds, toPort, hlevel]
      · exact fun b hb => mem_singleton.1 hb
    · have hpos : 0 < level := by
        change 0 ≤ level at hr
        omega
      refine ⟨_, _, (if_neg hlevel).trans (if_pos hpos), h.disp_read hq ?_ nofun nofun ?_ nofun⟩
      · rw [cons_append, tokens_append, tokens_append, tokens_sortEnd hlevel, ← tokens_append,
          ← tokens_append] at hshape
        exact hshape
      · simp [outerSortEnds, sortEnds, toPort, hlevel]
  | terminate b =>
    refine ⟨_, _, rfl, h.disp_read hq hshape (forall_mem_singleton.2 trivial) nofun rfl ?_⟩
    exact fun b hb => mem_singleton.1 hb
  | sync s t =>
    rw [cons_append, tokens_append, tokens_append, tokens_sync, ← tokens_append,
      ← tokens_append] at hshape
    exact ⟨_, _, rfl, h.disp_read hq hshape nofun nofun rfl nofun⟩
  | collect s => exact hr.elim

/-! ### The buffer -/

theorem buf_read (h : Inv g) {r : Rec (Item D) Γ} {rs xs : List (Rec (Item D) Γ)}
    (hq : g.bufIn = r :: rs) (hr : ∀ b, r ≠ .terminate b) (hxs : xs = [] ∨ ∃ s t, xs = [.sync s t]) :
    Inv { g with bufIn := rs, back := g.back ++ (xs ++ [r]) } := by
  have hback : Back r := by
    have hb := h.bufIn r (hq ▸ mem_cons_self)
    cases r with
    | data i => trivial
    | sortEnd level num => exact hb
    | terminate b => exact absurd rfl (hr b)
    | sync s t => exact hb.elim
    | collect s => exact hb.elim
  have htokens : tokens xs = [] := by rcases hxs with rfl | ⟨s, t, rfl⟩ <;> rfl
  exact { h with
    shape := by
      have hshape := h.shape
      rw [loop, hq, ← singleton_append] at hshape
      simp only [loop, tokens_append, htokens, nil_append, append_assoc] at hshape ⊢
      exact hshape
    bufIn := fun x hx => h.bufIn x (hq ▸ mem_cons_of_mem _ hx)
    back := by
      refine List.forall_mem_append.2 ⟨h.back, List.forall_mem_append.2
        ⟨?_, forall_mem_singleton.2 hback⟩⟩
      rcases hxs with rfl | ⟨s, t, rfl⟩
      · nofun
      · exact forall_mem_singleton.2 trivial
    running := fun hrun b hb => h.running hrun b (by
      rw [hq]
      exact mem_cons_of_mem _ hb) }

theorem buf_terminate (h : Inv g) {b : Bool} {rs : List (Rec (Item D) Γ)}
    (hq : g.bufIn = .terminate b :: rs) : Inv { g with bufIn := rs } :=
  { h with
    shape := by
      have hshape := h.shape
      rw [loop, hq, cons_append, tokens_append, tokens_terminate, ← tokens_append] at hshape
      exact hshape
    bufIn := fun x hx => h.bufIn x (hq ▸ mem_cons_of_mem _ hx)
    running := fun hrun b hb => h.running hrun b (by
      rw [hq]
      exact mem_cons_of_mem _ hb) }

theorem stopped_of_terminate (h : Inv g) {b : Bool} {rs : List (Rec (Item D) Γ)}
    (hq : g.bufIn = .terminate b :: rs) : g.collStopped = true := by
  cases hs : g.collStopped with
  | true => rfl
  | false => exact absurd (hq ▸ mem_append_left _ mem_cons_self) (h.running hs b)

theorem back_of_terminate (h : Inv g) {b : Bool} {rs : List (Rec (Item D) Γ)}
    (hq : g.bufIn = .terminate b :: rs) : tokens g.back = [] := by
  have hnil := h.tokens_eq_nil (h.stopped (h.stopped_of_terminate hq))
  rw [loop, tokens_append] at hnil
  exact (append_eq_nil_iff.1 hnil).1

end Ring.Inv

end SNet.Stream.Feedback
