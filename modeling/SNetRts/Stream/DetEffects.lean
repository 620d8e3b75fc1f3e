import SNetRts.Stream.DetTree

/-!
# What the entities of a deterministic combinator write

For each kind of entity: the reaction to a record of its phase keeps the phases of the streams it
writes (`Effect`), moves the entity on by what it has read (`Progress`), and keeps its locals in
order (`LocalsOk`).
-/

namespace SNet.Stream

open Lib List

variable {D Γ : Type}

/-! ## Writes by target -/

section

variable {comb : Comb D} {e c n k : Nat} {r : Rec (Item D) Γ} {ws ws' : Writes (Item D) Γ}

@[simp] theorem outWrites_nil : outWrites ([] : Writes (Item D) Γ) = [] := rfl

@[simp] theorem outWrites_out : outWrites ((.out, r) :: ws) = r :: outWrites ws := rfl

@[simp] theorem outWrites_inst : outWrites ((.inst k, r) :: ws) = outWrites ws := rfl

@[simp] theorem outWrites_append : outWrites (ws ++ ws') = outWrites ws ++ outWrites ws' :=
  filterMap_append

@[simp] theorem instWrites_nil : instWrites comb e c ([] : Writes (Item D) Γ) = [] := rfl

@[simp] theorem instWrites_out : instWrites comb e c ((.out, r) :: ws) = instWrites comb e c ws := rfl

@[simp] theorem instWrites_inst : instWrites comb e c ((.inst k, r) :: ws) =
    (if comb.child e k = c then [r] else []) ++ instWrites comb e c ws := by
  unfold instWrites
  rw [filterMap_cons]
  by_cases h : comb.child e k = c <;> simp [h]

@[simp] theorem instWrites_append : instWrites comb e c (ws ++ ws') =
    instWrites comb e c ws ++ instWrites comb e c ws' := filterMap_append

@[simp] theorem newStreams_nil : newStreams ([] : List (Rec (Item D) Γ)) = [] := rfl

theorem outWrites_map_out (rs : List (Rec (Item D) Γ)) :
    outWrites (rs.map fun r => (Target.out, r)) = rs := by
  induction rs with
  | nil => rfl
  | cons r rs ih => rw [map_cons, outWrites_out, ih]

theorem instWrites_map_out (rs : List (Rec (Item D) Γ)) :
    instWrites comb e c (rs.map fun r => (Target.out, r)) = [] := by
  induction rs with
  | nil => rfl
  | cons r rs ih => rw [map_cons, instWrites_out, ih]

theorem outWrites_map_inst (rs : List (Rec (Item D) Γ)) :
    outWrites (rs.map fun r => (Target.inst k, r)) = [] := by
  induction rs with
  | nil => rfl
  | cons r rs ih => rw [map_cons, outWrites_inst, ih]

theorem instWrites_map_inst (rs : List (Rec (Item D) Γ)) :
    instWrites comb e c (rs.map fun r => (Target.inst k, r)) =
      if comb.child e k = c then rs else [] := by
  induction rs with
  | nil => simp
  | cons r rs ih =>
    rw [map_cons, instWrites_inst, ih]
    split <;> rfl

@[simp] theorem outWrites_toInstances : outWrites (toInstances n r) = [] := by
  unfold toInstances
  induction List.range n with
  | nil => rfl
  | cons k ks ih => rw [map_cons, outWrites_inst, ih]

theorem instWrites_toInstances (hchild : ∀ k, comb.child e k = k + 1) :
    instWrites comb e c (toInstances n r) = if 0 < c ∧ c ≤ n then [r] else [] := by
  unfold toInstances
  induction n with
  | zero =>
    rw [if_neg fun h => Nat.not_le_of_lt h.1 h.2]
    rfl
  | succ n ih =>
    rw [range_succ, map_append, instWrites_append, ih, map_singleton,
      instWrites_inst, hchild, instWrites_nil, append_nil]
    by_cases hc : n + 1 = c
    · subst hc
      simp
    · rw [if_neg hc, append_nil]
      congr 1
      simp only [eq_iff_iff]
      omega

@[simp] theorem outWrites_toNext {next : Bool} : outWrites (toNext next r) = [] := by
  cases next <;> rfl

theorem instWrites_toNext {exits : D → Bool} {next : Bool} :
    instWrites (.star exits) e c (toNext next r) = if next = true ∧ c = e + 1 then [r] else [] := by
  cases next
  · simp [toNext]
  · simp [toNext, Comb.child, eq_comm]

theorem toOpen_nil (num : Nat) : toOpen num [] r = toInstances num r := by
  simp [toOpen, toInstances]

end

/-! ## Reading -/

section

variable {p : Plan} {k m : Nat} {fin : Bool} {r : Rec (Item D) Γ} {q : List (Rec (Item D) Γ)}

/-- An entity that has read a record of its phase is in phase `k'`. -/
def ReadsTo (p : Plan) (k' : Nat) (q : List (Rec (Item D) Γ)) (m : Nat) (fin stop : Bool) : Prop :=
  if stop then q = [] ∧ k' = m ∧ fin = true else Phased p k' q m fin

theorem operand_reads (outs : List D) (h : Phased p k (r :: q) m fin) (hr : ∀ s, r ≠ .collect s) :
    ∃ ws stop k', operand outs r = some (ws, stop) ∧ Phased p k ws k' stop ∧
      (∀ s, Rec.collect s ∉ ws) ∧ ReadsTo p k' q m fin stop := by
  cases r with
  | data i =>
    obtain ⟨ho, hown, hq⟩ := h
    refine ⟨_, _, k, rfl, Phased.within fun r hr => Or.inl ?_, fun s hs => ?_, hq⟩
    · obtain ⟨v, -, rfl⟩ := List.mem_map.1 hr
      exact ⟨_, rfl, ho, hown⟩
    · obtain ⟨v, -, hv⟩ := List.mem_map.1 hs
      cases hv
  | sync input outtype => exact h.elim
  | collect s => exact absurd rfl (hr s)
  | sortEnd level num =>
    obtain ⟨hmark, hq⟩ := h
    exact ⟨_, _, k + 1, rfl, Phased.mark hmark, fun s hs => by simp at hs, hq⟩
  | terminate flag => exact ⟨_, _, k, rfl, Phased.last, fun s hs => by simp at hs, h⟩

end

section

variable {comb : Comb D} {st : DetNet D Γ} {p : Plan} {ph : Nat → Nat} {e k' size' : Nat}
  {r : Rec (Item D) Γ} {q : List (Rec (Item D) Γ)}

theorem TreeInv.progress (h : TreeInv comb st p ph) (he0 : 0 < e) (he : e ≤ st.size)
    (hrun : st.stopped e = false) (hq : st.inq e = r :: q) {stop : Bool}
    (hk : ReadsTo p k' q (ph (comb.parent e)) (st.stopped (comb.parent e)) stop) :
    Progress comb st p ph e k' [] r q stop := by
  have hpar : comb.parent e ≤ st.size := Nat.le_trans (Nat.le_of_lt (comb.parent_lt he0)) he
  refine ⟨⟨he, hrun⟩, hq, fun h0 => absurd h0 (Nat.ne_of_gt he0), fun _ => ⟨rfl, ?_⟩, ?_⟩
  · cases stop with
    | false => exact hk
    | true => exact ⟨hk.1, hk.2.2⟩
  · rintro rfl
    rw [append_nil, hk.2.1]
    exact (h.final _ hpar hk.2.2).1

theorem Phased.extend {k m size j : Nat} {fin : Bool} {more : List (Int × Int)}
    (h : Phased p k q m fin) (hc : ∀ s, Rec.collect s ∉ q) :
    Phased (p.extend more size j) k q m fin :=
  h.mono (prefix_append _ _) rfl fun s hs => absurd hs (hc s)

theorem newStreams_eq_nil (h : ∀ s, Rec.collect s ∉ q) : newStreams q = [] :=
  eq_nil_iff_forall_not_mem.2 fun s hs => h s (mem_newStreams.1 hs)

theorem grow_nil (comb : Comb D) (size : Nat) : grow comb size [] = size := by
  cases comb <;> rfl

/-! ## Effects -/

theorem Effect.out_only {k : Nat} {x : Reacts D Γ} {ws : List (Rec (Item D) Γ)} {p' : Plan}
    (hw : x.writes = ws.map fun r => (Target.out, r)) (hwrites : comb.writesOut e = true)
    (hleaf : ∀ c, 0 < c → comb.parent c ≠ e) (hph : Phased p' k ws k' x.stop)
    (hc : ∀ s, Rec.collect s ∉ ws) {size : Nat} : Effect comb p' size size e k k' x := by
  have hinst : ∀ c, instWrites comb e c x.writes = [] := fun c => hw ▸ instWrites_map_out ws
  have hout : outWrites x.writes = ws := hw ▸ outWrites_map_out ws
  refine ⟨fun _ => hout.symm ▸ hph, fun h => absurd hwrites (by rw [h]; decide),
    fun c hc0 _ hpar => absurd hpar (hleaf c hc0), fun c _ => hinst c, fun c s hs => ?_, fun s => ?_,
    ?_, fun c h1 h2 => absurd h1 (Nat.not_lt_of_le h2), ?_, fun _ => Nat.le_add_right _ _, id⟩
  · rw [hinst c] at hs
    cases hs
  · rw [hout]
    exact ⟨fun h => absurd h (hc s), fun ⟨h1, h2, _⟩ => absurd h1 (Nat.not_lt_of_le h2)⟩
  · rw [hout, newStreams_eq_nil hc]
    exact nodup_nil
  · rw [hout, newStreams_eq_nil hc, grow_nil]

theorem Effect.of_star {exits : D → Bool} {k size : Nat} {x : Reacts D Γ}
    (out next : List (Rec (Item D) Γ)) {p' : Plan} (hsize : size % 2 = 0)
    (hout : outWrites x.writes = out)
    (hnext : ∀ c, instWrites (.star exits) e c x.writes = if c = e + 1 then next else [])
    (hoph : e % 2 = 0 → Phased p' k out k' x.stop) (hodd : e % 2 = 1 → out = [])
    (hnph : e < size' → Phased p' k next k' x.stop) (hnil : size' ≤ e → next = [])
    (hc : ∀ s, Rec.collect s ∉ next)
    (hnew : size' = size ∧ newStreams out = [] ∨
      size' = size + 2 ∧ e = size ∧ newStreams out = [size + 2]) :
    Effect (.star exits) p' size size' e k k' x := by
  have hwrites : ∀ s, Comb.writesOut (.star exits) s = true ↔ s % 2 = 0 := fun s => beq_iff_eq
  refine ⟨fun h => hout ▸ hoph ((hwrites e).1 h), fun h => ?_, fun c hc0 hc hpar => ?_, fun c h => ?_,
    fun c s hs => ?_, fun (s : Nat) => ?_, ?_, fun c h1 h2 => ?_, ?_, fun _ => ?_, ?_⟩
  · rw [hout]
    refine hodd ?_
    have : ¬ e % 2 = 0 := fun h0 => by
      rw [(hwrites e).2 h0] at h
      cases h
    omega
  · have hce : c = e + 1 := by
      simp only [Comb.parent] at hpar
      omega
    rw [hnext c, if_pos hce]
    exact hnph (by omega)
  · rw [hnext c]
    split
    · refine hnil ?_
      simp only [Comb.parent] at h
      omega
    · rfl
  · rw [hnext c] at hs
    split at hs
    · exact hc s hs
    · cases hs
  · rw [hout, ← mem_newStreams, hwrites]
    rcases hnew with ⟨rfl, hnew⟩ | ⟨rfl, -, hnew⟩ <;> rw [hnew]
    · simp only [not_mem_nil, false_iff]
      omega
    · rw [mem_singleton]
      change @Eq Nat s (size + 2) ↔ _
      omega
  · rw [hout]
    rcases hnew with ⟨-, hnew⟩ | ⟨-, -, hnew⟩ <;> rw [hnew]
    · exact nodup_nil
    · exact nodup_singleton _
  · simp only [Comb.parent]
    rcases hnew with ⟨rfl, -⟩ | ⟨rfl, rfl, -⟩ <;> omega
  · rw [hout]
    rcases hnew with ⟨rfl, hnew⟩ | ⟨rfl, -, hnew⟩ <;> rw [hnew] <;> rfl
  · rcases hnew with ⟨rfl, -⟩ | ⟨rfl, -, -⟩
    · exact Nat.le_add_right _ _
    · exact Nat.le_refl _
  · intro _
    simp only [Comb.Shape]
    rcases hnew with ⟨rfl, -⟩ | ⟨rfl, -, -⟩ <;> omega

/-! ## One step of an entity -/

def Sets (r : Rec (Item D) Γ) (more : List (Int × Int)) (stop : Bool) : Prop :=
  match r with
  | .data _ => stop = false ∧ ∃ counter : Int, 0 ≤ counter ∧ more = [(0, counter)]
  | .sortEnd level num => stop = false ∧ more = [(level + 1, num)]
  | .terminate _ => stop = true ∧ more = []
  | _ => False

/-- What the dispatcher finds on its input in phase `k`. -/
def Admits (p : Plan) (k : Nat) (q : List (Rec (Item D) Γ)) : Rec (Item D) Γ → Prop
  | .data i => i.origin + p.offset = k
  | .sortEnd level _ => 0 ≤ level
  | .terminate _ => q = []
  | _ => False

/-- The reaction `x` of entity `e` to the record `r` keeps the phases. -/
def StepOk (comb : Comb D) (st : DetNet D Γ) (p : Plan) (ph : Nat → Nat) (e : Nat)
    (r : Rec (Item D) Γ) (q : List (Rec (Item D) Γ)) (x : Reacts D Γ) : Prop :=
  ∃ k' more size', Progress comb st p ph e k' more r q x.stop ∧
    Effect comb (p.extend more st.size (ph e)) st.size size' e (ph e) k' x ∧
    (∀ y ∈ more, 0 ≤ y.1 ∧ ¬ (y.1 = 0 ∧ y.2 = -1)) ∧ (e = 0 → Sets r more x.stop)

def Comb.isInst : Comb D → Nat → Bool
  | .star _, e => e % 2 == 1
  | _, e => e != 0

theorem Comb.pos_of_isInst {comb : Comb D} (h : comb.isInst e = true) : 0 < e := by
  refine Nat.pos_of_ne_zero ?_
  rintro rfl
  cases comb <;> cases h

theorem inst_step (h : TreeInv comb st p ph) (he : e ≤ st.size) (hrun : st.stopped e = false)
    (hq : st.inq e = r :: q) (hinst : comb.isInst e = true) (hl : st.locals e = .inst)
    (outs : List D) : ∃ x, st.react comb outs e r = some x ∧ x.locals = .inst ∧
      StepOk comb st p ph e r q x := by
  have he0 := Comb.pos_of_isInst hinst
  have hun := h.unread e he0 he hrun
  rw [hq] at hun
  have hr : ∀ s, r ≠ .collect s := by
    rintro s rfl
    exact h.plain e s he0 (by rw [hq]; exact mem_cons_self)
  obtain ⟨ws, stop, k', hop, hph, hws, hread⟩ := operand_reads outs hun hr
  have hprog := h.progress he0 he hrun hq hread
  have hph' : Phased (p.extend [] st.size (ph e)) (ph e) ws k' stop := hph.extend hws
  have h0 : e ≠ 0 := Nat.ne_of_gt he0
  have flat : ∀ comb : Comb D, comb.writesOut e = true → (∀ c, 0 < c → comb.parent c ≠ e) →
      Effect comb (p.extend [] st.size (ph e)) st.size st.size e (ph e) k'
        ⟨ws.map fun r => (.out, r), .inst, stop⟩ := fun comb hw hleaf =>
    Effect.out_only rfl hw hleaf hph' hws
  cases comb with
  | split ltag utag =>
    refine ⟨_, by simp only [DetNet.react, hl, hop]; rfl, rfl, k', [], st.size, hprog, ?_,
      fun y hy => (nomatch hy), fun h => absurd h h0⟩
    exact flat _ rfl fun c _ => Ne.symm h0
  | star exits =>
    have hodd : e % 2 = 1 := beq_iff_eq.1 hinst
    have heven : st.size % 2 = 0 := h.shape
    refine ⟨_, by simp only [DetNet.react, hl, hop]; rfl, rfl, k', [], st.size, hprog, ?_,
      fun y hy => (nomatch hy), fun h => absurd h h0⟩
    refine Effect.of_star _ ws heven rfl (fun c => ?_) (fun h => absurd h (by omega))
      (fun _ => outWrites_map_inst ws) (fun _ => hph') (fun hle => absurd hle (by omega)) hws
      (Or.inl ⟨rfl, ?_⟩)
    · rw [instWrites_map_inst]
      simp only [Comb.child, eq_comm]
    · rw [outWrites_map_inst]
      rfl
  | parallel num checkMatch =>
    refine ⟨_, by simp only [DetNet.react, hl, hop]; rfl, rfl, k', [], st.size, hprog, ?_,
      fun y hy => (nomatch hy), fun h => absurd h h0⟩
    exact flat _ hinst fun c _ => Ne.symm h0

/-! ## Star -/

/-- What a star dispatcher writes for a data record, its sort record apart. -/
def starSend (exits : D → Bool) (size e : Nat) (i : Item D) : Writes (Item D) Γ :=
  if exits i.value then [(.out, .data i)]
  else (if decide (e < size) then [] else [(.out, .collect (size + 2))]) ++ [(.inst 0, .data i)]

/-- The number of entities once the data record has been sent on. -/
def starSize (exits : D → Bool) (size e : Nat) (i : Item D) : Nat :=
  if exits i.value ∨ e < size then size else size + 2

def starNext (exits : D → Bool) (i : Item D) : List (Rec (Item D) Γ) :=
  if exits i.value then [] else [.data i]

section

variable {exits : D → Bool} {size : Nat} {i : Item D} {k : Nat}

theorem lt_starSize (he : e ≤ size) :
    decide (e < starSize exits size e i) = (decide (e < size) || !exits i.value) := by
  unfold starSize
  cases hx : exits i.value <;> by_cases hlt : e < size <;> simp [hlt]
  omega

theorem starSend_new (he : e ≤ size) :
    starSize exits size e i = size ∧ newStreams (outWrites (starSend (Γ := Γ) exits size e i)) = [] ∨
      starSize exits size e i = size + 2 ∧ e = size ∧
        newStreams (outWrites (starSend (Γ := Γ) exits size e i)) = [size + 2] := by
  unfold starSize starSend
  cases hx : exits i.value
  · by_cases hlt : e < size
    · simp [hlt]
    · have : e = size := Nat.le_antisymm he (Nat.le_of_not_lt hlt)
      simp [this, newStreams]
  · simp [newStreams]

theorem starSend_out {p' : Plan} (hown : p'.Own k) (ho : i.origin + p'.offset = k)
    (hb : p'.birth (size + 2) = k) :
    Phased p' k (outWrites (starSend (Γ := Γ) exits size e i)) k false := by
  unfold starSend
  refine Phased.within fun r hr => ?_
  split at hr
  · simp only [outWrites_out, outWrites_nil, mem_singleton] at hr
    exact Or.inl ⟨i, hr, ho, hown⟩
  · split at hr
    · simp at hr
    · simp only [singleton_append, outWrites_out, outWrites_inst, outWrites_nil,
        mem_singleton] at hr
      exact Or.inr ⟨_, hr, hb⟩

theorem starSend_inst (c : Nat) : instWrites (.star exits) e c (starSend (Γ := Γ) exits size e i) =
    if c = e + 1 then starNext exits i else [] := by
  unfold starSend starNext
  cases hx : exits i.value
  · by_cases hlt : e < size <;> simp [hlt, Comb.child, eq_comm]
  · simp

theorem starNext_phased {p' : Plan} (hown : p'.Own k) (ho : i.origin + p'.offset = k) :
    Phased p' k (starNext (Γ := Γ) exits i) k false := by
  refine Phased.within fun r hr => Or.inl ⟨i, ?_, ho, hown⟩
  unfold starNext at hr
  split at hr
  · cases hr
  · exact mem_singleton.1 hr

theorem starNext_eq_nil (he : e ≤ size) (h : starSize exits size e i ≤ e) :
    starNext (Γ := Γ) exits i = [] := by
  have : decide (e < starSize exits size e i) = (decide (e < size) || !exits i.value) :=
    lt_starSize he
  rw [decide_eq_false (Nat.not_lt_of_le h)] at this
  unfold starNext
  cases hx : exits i.value
  · simp [hx] at this
  · rfl

theorem collect_notMem_starNext (s : StreamId) : Rec.collect s ∉ starNext (Γ := Γ) exits i := by
  unfold starNext
  split <;> simp

theorem star_forward {p' : Plan} {k' : Nat} {x : Reacts D Γ} {r' : Rec (Item D) Γ}
    (heven : size % 2 = 0) (he2 : e % 2 = 0) (hw : x.writes = toNext (decide (e < size)) r' ++ [(.out, r')])
    (hr' : ∀ s, r' ≠ .collect s) (hph : Phased p' k [r'] k' x.stop) :
    Effect (.star exits) p' size size e k k' x := by
  have hnone : ∀ s, Rec.collect s ∉ [r'] := fun s hs => hr' s (mem_singleton.1 hs).symm
  have hout : outWrites x.writes = [r'] := by simp [hw]
  refine Effect.of_star _ (if e < size then [r'] else []) heven hout (fun c => ?_)
    (fun _ => hph) (fun h => absurd h (by omega)) (fun hlt => ?_) (fun hle => ?_) (fun s hs => ?_)
    (Or.inl ⟨rfl, newStreams_eq_nil hnone⟩)
  · rw [hw, instWrites_append, instWrites_toNext]
    by_cases hlt : e < size <;> by_cases hc : c = e + 1 <;> simp [hlt, hc]
  · rw [if_pos hlt]
    exact hph
  · rw [if_neg (Nat.not_lt_of_le hle)]
  · split at hs
    · exact hnone s hs
    · cases hs

end

theorem incarnate_step {exits : D → Bool} {counter : Int} (h : TreeInv (.star exits) st p ph)
    (he0 : 0 < e) (he : e ≤ st.size) (hrun : st.stopped e = false) (hq : st.inq e = r :: q)
    (he2 : e % 2 = 0) (hl : st.locals e = .star ⟨decide (e < st.size), false, counter, 0⟩)
    (outs : List D) : ∃ x, st.react (.star exits) outs e r = some x ∧
      x.locals = .star ⟨decide (e < grow (.star exits) st.size (newStreams (outWrites x.writes))), false,
        counter, 0⟩ ∧ StepOk (.star exits) st p ph e r q x := by
  have heven : st.size % 2 = 0 := h.shape
  have h0 : e ≠ 0 := Nat.ne_of_gt he0
  have hun := h.unread e he0 he hrun
  rw [hq] at hun
  have hinc : (e != 0) = true := bne_iff_ne.2 h0
  cases r with
  | data i =>
    obtain ⟨ho, hown, hrest⟩ := hun
    have hown' : (p.extend [] st.size (ph e)).Own (ph e) := by
      obtain ⟨n, hn⟩ := hown
      exact ⟨n, by rw [Plan.extend, append_nil]; exact hn⟩
    have hbirth : (p.extend [] st.size (ph e)).birth (st.size + 2) = ph e :=
      if_neg (Nat.not_le_of_lt (Nat.lt_add_of_pos_right Nat.two_pos))
    have heff : Effect (.star exits) (p.extend [] st.size (ph e)) st.size
        (starSize exits st.size e i) e (ph e) (ph e)
        ⟨starSend (Γ := Γ) exits st.size e i, .star ⟨decide (e < st.size) || !exits i.value, false, counter, 0⟩,
          false⟩ := Effect.of_star _ _ heven rfl starSend_inst
      (fun _ => starSend_out hown' ho hbirth) (fun h => absurd h (by omega))
      (fun _ => starNext_phased hown' ho) (starNext_eq_nil he) collect_notMem_starNext
      (starSend_new he)
    have hprog : Progress (.star exits) st p ph e (ph e) [] (.data i) q false :=
      h.progress he0 he hrun hq hrest
    refine ⟨_, ?_, ?_, ph e, [], _, hprog, heff, fun y hy => absurd hy not_mem_nil, fun h => absurd h h0⟩
    · simp only [DetNet.react, hl, starBoxTask, Comb.starArg, hinc, Bool.and_false, Bool.not_true,
        Reacts.ofNext, Bool.false_eq_true, if_false]
      rfl
    · rw [← heff.sizes, lt_starSize he]
  | sync input outtype => exact hun.elim
  | collect s =>
    exact absurd (by rw [hq]; exact mem_cons_self) (h.plain e s he0)
  | sortEnd level num =>
    obtain ⟨hmark, hrest⟩ := hun
    have hmark' : Phased (p.extend [] st.size (ph e)) (ph e) [.sortEnd level num] (ph e + 1) false :=
      (Phased.mark (D := D) (Γ := Γ) hmark).extend fun s hs => by simp at hs
    refine ⟨⟨toNext (decide (e < st.size)) (.sortEnd level num) ++ [(.out, .sortEnd level num)],
      .star ⟨decide (e < st.size), false, counter, 0⟩, false⟩, ?_, ?_, ph e + 1, [], _,
      h.progress he0 he hrun hq hrest, star_forward heven he2 rfl (by simp) hmark',
      fun y hy => absurd hy not_mem_nil, fun h => absurd h h0⟩
    · simp only [DetNet.react, hl, starBoxTask, Comb.starArg, hinc, if_true]
      rfl
    · simp [newStreams, grow]
  | terminate flag =>
    refine ⟨⟨toNext (decide (e < st.size)) (.terminate flag) ++ [(.out, .terminate flag)],
      .star ⟨decide (e < st.size), false, counter, 0⟩, true⟩, ?_, ?_, ph e, [], _,
      h.progress he0 he hrun hq hun, star_forward heven he2 rfl (by simp) Phased.last,
      fun y hy => absurd hy not_mem_nil, fun h => absurd h h0⟩
    · simp only [DetNet.react, hl, starBoxTask]
      rfl
    · simp [newStreams, grow]

/-! ## The first dispatcher -/

theorem root_progress {more : List (Int × Int)} {stop : Bool} (h : TreeInv comb st p ph)
    (hrun : st.stopped 0 = false) (hq : st.inq 0 = r :: q) (hk : k' = ph 0 + more.length) :
    Progress comb st p ph 0 k' more r q stop := by
  rw [h.root, ← length_append] at hk
  exact ⟨⟨Nat.zero_le _, hrun⟩, hq, fun _ => hk, fun h => absurd h (Nat.lt_irrefl 0), fun _ => hk⟩

theorem Plan.extend_mark {level num : Int} {size j : Nat} :
    (p.extend [(level, num)] size j).marks[p.marks.length]? = some (level, num) := by
  rw [Plan.extend, getElem?_append_right (Nat.le_refl _), Nat.sub_self]
  rfl

theorem TreeInv.root_mark (h : TreeInv comb st p ph) (y : Int × Int) :
    (p.extend [y] st.size (ph 0)).marks[ph 0]? = some y := by
  rw [h.root]
  exact Plan.extend_mark

theorem TreeInv.root_phased (h : TreeInv comb st p ph) (level num : Int) :
    Phased (p.extend [(level, num)] st.size (ph 0)) (ph 0) ([.sortEnd level num] : List (Rec (Item D) Γ))
      (ph 0 + 1) false :=
  Phased.mark (h.root_mark _)

theorem levels_own {counter : Int} (hc : 0 ≤ counter) :
    ∀ y ∈ [((0 : Int), counter)], 0 ≤ y.1 ∧ ¬ (y.1 = 0 ∧ y.2 = -1) := by
  intro y hy
  rw [mem_singleton.1 hy]
  refine ⟨Int.le_refl 0, fun h => ?_⟩
  have : counter = -1 := h.2
  omega

theorem levels_outer {level num : Int} (hl : 0 ≤ level) :
    ∀ y ∈ [(level + 1, num)], 0 ≤ y.1 ∧ ¬ (y.1 = 0 ∧ y.2 = -1) := by
  intro y hy
  rw [mem_singleton.1 hy]
  constructor
  · exact Int.add_nonneg hl (by decide)
  · intro h
    have : level + 1 = 0 := h.1
    omega

theorem star_root_step {exits : D → Bool} {counter : Int} (h : TreeInv (.star exits) st p ph)
    (hrun : st.stopped 0 = false) (hq : st.inq 0 = r :: q)
    (hl : st.locals 0 = .star ⟨decide (0 < st.size), false, counter, 0⟩) (hc : 0 ≤ counter)
    (hr : Admits p p.marks.length q r) (outs : List D) :
    ∃ x, st.react (.star exits) outs 0 r = some x ∧
      (∃ counter' : Int, 0 ≤ counter' ∧ x.locals = .star
        ⟨decide (0 < grow (.star exits) st.size (newStreams (outWrites x.writes))), false, counter', 0⟩) ∧
      StepOk (.star exits) st p ph 0 r q x := by
  have heven : st.size % 2 = 0 := h.shape
  have he : 0 ≤ st.size := Nat.zero_le _
  cases r with
  | data i =>
    have ho : i.origin + p.offset = p.marks.length := hr
    have hown : (p.extend [(0, counter)] st.size (ph 0)).Own (ph 0) := ⟨counter, h.root_mark _⟩
    have hbirth : (p.extend [(0, counter)] st.size (ph 0)).birth (st.size + 2) = ph 0 :=
      if_neg (Nat.not_le_of_lt (Nat.lt_add_of_pos_right Nat.two_pos))
    have ho' : i.origin + (p.extend [(0, counter)] st.size (ph 0)).offset = ph 0 := ho.trans h.root.symm
    have heff : Effect (.star exits) (p.extend [(0, counter)] st.size (ph 0)) st.size
        (starSize exits st.size 0 i) 0 (ph 0) (ph 0 + 1)
        ⟨starSend (Γ := Γ) exits st.size 0 i ++ [(.out, .sortEnd 0 counter)] ++
          toNext (decide (0 < st.size) || !exits i.value) (.sortEnd 0 counter),
          .star ⟨decide (0 < st.size) || !exits i.value, false, counter + 1, 0⟩, false⟩ := by
      refine Effect.of_star (outWrites (starSend exits st.size 0 i) ++ [.sortEnd 0 counter])
        (starNext exits i ++ if 0 < starSize exits st.size 0 i then [.sortEnd 0 counter] else [])
        heven (by simp) (fun c => ?_) (fun _ => (starSend_out hown ho' hbirth).append (h.root_phased ..))
        (fun h => absurd h (by decide)) (fun hlt => ?_) (fun hle => ?_) (fun s hs => ?_) ?_
      · rw [instWrites_append, instWrites_append, starSend_inst, instWrites_toNext, ← lt_starSize he]
        by_cases hlt : 0 < starSize exits st.size 0 i <;> by_cases hc : c = 0 + 1 <;> simp [hlt, hc]
      · rw [if_pos hlt]
        exact (starNext_phased hown ho').append (h.root_phased ..)
      · rw [if_neg (Nat.not_lt_of_le hle), starNext_eq_nil he hle]
        rfl
      · rcases mem_append.1 hs with hs | hs
        · exact collect_notMem_starNext s hs
        · split at hs <;> simp at hs
      · rw [newStreams_append]
        refine (starSend_new (Γ := Γ) he).imp (fun ⟨h1, h2⟩ => ⟨h1, ?_⟩)
          fun ⟨h1, h2, h3⟩ => ⟨h1, h2, ?_⟩
        · rw [h2]
          rfl
        · rw [h3]
          rfl
    refine ⟨_, ?_, ⟨counter + 1, Int.add_nonneg hc (by decide), ?_⟩, ph 0 + 1, [(0, counter)], _, ?_,
      heff, levels_own hc, fun _ => ⟨rfl, counter, hc, rfl⟩⟩
    · simp only [DetNet.react, hl, starBoxTask, Comb.starArg, Bool.and_false, Bool.false_eq_true,
        if_false, Reacts.ofNext]
      rfl
    · rw [← heff.sizes, lt_starSize he]
    · exact root_progress h hrun hq rfl
  | sync input outtype => exact hr.elim
  | collect s => exact hr.elim
  | sortEnd level num =>
    refine ⟨⟨toNext (decide (0 < st.size)) (.sortEnd (level + 1) num) ++
      [(.out, .sortEnd (level + 1) num)], .star ⟨decide (0 < st.size), false, counter, 0⟩, false⟩, ?_,
      ⟨counter, hc, ?_⟩, ph 0 + 1, [(level + 1, num)], _, ?_,
      star_forward heven rfl rfl nofun (h.root_phased ..), levels_outer hr,
      fun _ => ⟨rfl, rfl⟩⟩
    · simp only [DetNet.react, hl, starBoxTask]
      rfl
    · simp [newStreams, grow]
    · exact root_progress h hrun hq rfl
  | terminate flag =>
    refine ⟨⟨toNext (decide (0 < st.size)) (.terminate flag) ++ [(.out, .terminate flag)],
      .star ⟨decide (0 < st.size), false, counter, 0⟩, true⟩, ?_, ⟨counter, hc, ?_⟩, ph 0, [], _, ?_,
      star_forward heven rfl rfl nofun Phased.last, fun y hy => (nomatch hy), fun _ => ⟨rfl, rfl⟩⟩
    · simp only [DetNet.react, hl, starBoxTask]
      rfl
    · simp [newStreams, grow]
    · exact root_progress h hrun hq rfl

theorem Effect.of_flat {k size : Nat} {x : Reacts D Γ} {p' : Plan}
    (hcomb : ∀ c, comb.parent c = 0)
    (hout : comb.writesOut 0 = true → Phased p' k (outWrites x.writes) k' x.stop)
    (hquiet : comb.writesOut 0 = false → outWrites x.writes = [])
    (hwrites : ∀ c, 0 < c → comb.writesOut c = true)
    (hinst : ∀ c, 0 < c → c ≤ size' → Phased p' k (instWrites comb 0 c x.writes) k' x.stop)
    (hother : ∀ c, c = 0 ∨ size' < c → instWrites comb 0 c x.writes = [])
    (hplain : ∀ c s, Rec.collect s ∉ instWrites comb 0 c x.writes) (hsize : size ≤ size')
    (hnew : newStreams (outWrites x.writes) = List.range' (size + 1) (size' - size))
    (hgrow : ∀ ss, grow comb size ss = size + ss.length) (hshape : comb.Shape size → comb.Shape size') :
    Effect comb p' size size' 0 k k' x := by
  refine ⟨hout, hquiet, fun c hc0 hc _ => hinst c hc0 hc, fun c hc => hother c ?_, hplain,
    fun s => ?_, ?_, fun c _ _ => Or.inl (hcomb c), ?_, fun ⟨exits, hstar⟩ => ?_, hshape⟩
  · exact hc.imp_right fun h => h.resolve_right fun hne => hne (hcomb c)
  · rw [← mem_newStreams, hnew, mem_range'_1]
    constructor
    · intro h
      exact ⟨by omega, by omega, hwrites s (by omega)⟩
    · intro h
      omega
  · rw [hnew]
    exact nodup_range'
  · rw [hnew, hgrow, length_range']
    omega
  · subst hstar
    exact absurd (hcomb 2) Nat.one_ne_zero

/-! ## Split -/

theorem multicast_spec {comb : Comb D} (hchild : ∀ k, comb.child 0 k = k + 1) (d : Item D)
    (is repos : List Int) :
    repos.length ≤ (multicast (Γ := Γ) d is repos).2.length ∧
      newStreams (outWrites (multicast (Γ := Γ) d is repos).1) =
        List.range' (repos.length + 1) ((multicast (Γ := Γ) d is repos).2.length - repos.length) ∧
      (∀ r ∈ outWrites (multicast (Γ := Γ) d is repos).1, ∃ s, repos.length < s ∧ r = .collect s) ∧
      ∀ c, ∀ r ∈ instWrites comb 0 c (multicast (Γ := Γ) d is repos).1,
        r = .data d ∧ 0 < c ∧ c ≤ (multicast (Γ := Γ) d is repos).2.length := by
  induction is generalizing repos with
  | nil => simp [multicast]
  | cons i is ih =>
    by_cases hi : i ∈ repos
    · obtain ⟨h1, h2, h3, h4⟩ := ih repos
      simp only [multicast, if_pos hi, outWrites_inst, instWrites_inst, hchild]
      refine ⟨h1, h2, h3, fun c r hr => ?_⟩
      rcases mem_append.1 hr with hr | hr
      · split at hr
        · rename_i hc
          have := idxOf_lt_length_of_mem hi
          exact ⟨mem_singleton.1 hr, by omega, by omega⟩
        · cases hr
      · exact h4 c r hr
    · obtain ⟨h1, h2, h3, h4⟩ := ih (repos ++ [i])
      rw [length_append, length_singleton] at h1 h2 h3
      simp only [multicast, if_neg hi, outWrites_inst, outWrites_out, instWrites_inst, instWrites_out,
        hchild]
      refine ⟨Nat.le_of_succ_le h1, ?_, fun r hr => ?_, fun c r hr => ?_⟩
      · have hlen : (multicast (Γ := Γ) d is (repos ++ [i])).2.length - repos.length =
            (multicast (Γ := Γ) d is (repos ++ [i])).2.length - (repos.length + 1) + 1 := by omega
        rw [hlen, range'_succ, ← h2]
        rfl
      · rcases mem_cons.1 hr with rfl | hr
        · exact ⟨_, Nat.lt_succ_self _, rfl⟩
        · obtain ⟨s, hs, rfl⟩ := h3 r hr
          exact ⟨s, Nat.lt_of_succ_lt hs, rfl⟩
      · rcases mem_append.1 hr with hr | hr
        · split at hr
          · exact ⟨mem_singleton.1 hr, by omega, by omega⟩
          · cases hr
        · exact h4 c r hr

theorem split_root_step {ltag utag : D → Int} {repos : List Int} {counter : Int}
    (h : TreeInv (.split ltag utag) st p ph) (hrun : st.stopped 0 = false) (hq : st.inq 0 = r :: q)
    (hl : st.locals 0 = .split ⟨repos, counter⟩) (hlen : repos.length = st.size) (hc : 0 ≤ counter)
    (hr : Admits p p.marks.length q r) (outs : List D) :
    ∃ x, st.react (.split ltag utag) outs 0 r = some x ∧
      (∃ (repos' : List Int) (counter' : Int), 0 ≤ counter' ∧ x.locals = .split ⟨repos', counter'⟩ ∧
        repos'.length = grow (.split ltag utag) st.size (newStreams (outWrites x.writes))) ∧
      StepOk (.split ltag utag) st p ph 0 r q x := by
  have hchild : ∀ k, Comb.child (.split ltag utag) 0 k = k + 1 := fun k => rfl
  -- a record that goes to all instances and to the collector
  have hall : ∀ {p' : Plan} {k k' : Nat} {r' : Rec (Item D) Γ} {x : Reacts D Γ},
      x.writes = toInstances repos.length r' ++ [(.out, r')] → (∀ s, r' ≠ .collect s) →
      Phased p' k [r'] k' x.stop → Effect (.split ltag utag) p' st.size st.size 0 k k' x := by
    intro p' k k' r' x hw hr' hph
    have hnone : ∀ s, Rec.collect s ∉ [r'] := fun s hs => hr' s (mem_singleton.1 hs).symm
    have hout : outWrites x.writes = [r'] := by simp [hw]
    have hinst : ∀ c, instWrites (.split ltag utag) 0 c x.writes =
        if 0 < c ∧ c ≤ st.size then [r'] else [] := by
      intro c
      rw [hw, instWrites_append, instWrites_toInstances hchild, hlen]
      simp
    refine Effect.of_flat (fun _ => rfl) (fun _ => hout ▸ hph) nofun (fun _ _ => rfl)
      (fun c hc0 hc => ?_) (fun c hc => ?_) (fun c s hs => ?_) (Nat.le_refl _) ?_ (fun _ => rfl) id
    · rw [hinst, if_pos ⟨hc0, hc⟩]
      exact hph
    · rw [hinst, if_neg (by omega)]
    · rw [hinst] at hs
      split at hs
      · exact hnone s hs
      · cases hs
    · rw [hout, newStreams_eq_nil hnone, Nat.sub_self]
      rfl
  cases r with
  | data i =>
    have ho : i.origin + p.offset = p.marks.length := hr
    have hown : (p.extend [(0, counter)] st.size (ph 0)).Own (ph 0) := ⟨counter, h.root_mark _⟩
    obtain ⟨h1, h2, h3, h4⟩ := multicast_spec (Γ := Γ) hchild i
      (tagRange (ltag i.value) (utag i.value)) repos
    revert h1 h2 h3 h4
    generalize hw : multicast (Γ := Γ) i (tagRange (ltag i.value) (utag i.value)) repos = w
    intro h1 h2 h3 h4
    rw [hlen] at h1 h2 h3
    have hphout : Phased (p.extend [(0, counter)] st.size (ph 0)) (ph 0) (outWrites w.1) (ph 0) false := by
      refine Phased.within fun r hr => Or.inr ?_
      obtain ⟨s, hs, rfl⟩ := h3 r hr
      exact ⟨s, rfl, if_neg (Nat.not_le_of_lt hs)⟩
    have hphinst : ∀ c, Phased (p.extend [(0, counter)] st.size (ph 0)) (ph 0)
        (instWrites (.split ltag utag) 0 c w.1) (ph 0) false := fun c =>
      Phased.within fun r hr => Or.inl ⟨i, (h4 c r hr).1, ho.trans h.root.symm, hown⟩
    have hinst : ∀ c, instWrites (.split ltag utag) 0 c
        (w.1 ++ (toInstances w.2.length (.sortEnd 0 counter) ++ [(.out, .sortEnd 0 counter)])) =
        instWrites (.split ltag utag) 0 c w.1 ++
          if 0 < c ∧ c ≤ w.2.length then [.sortEnd 0 counter] else [] := by
      intro c
      rw [instWrites_append, instWrites_append, instWrites_toInstances hchild]
      simp
    have hout : outWrites (w.1 ++ (toInstances w.2.length (.sortEnd 0 counter) ++
        [(.out, .sortEnd 0 counter)])) = outWrites w.1 ++ [.sortEnd 0 counter] := by simp
    have heff : Effect (.split ltag utag) (p.extend [(0, counter)] st.size (ph 0)) st.size w.2.length 0
        (ph 0) (ph 0 + 1) ⟨w.1 ++ (toInstances w.2.length (.sortEnd 0 counter) ++
          [(.out, .sortEnd 0 counter)]), .split ⟨w.2, counter + 1⟩, false⟩ := by
      refine Effect.of_flat (fun _ => rfl) (fun _ => hout ▸ hphout.append (h.root_phased ..)) nofun (fun _ _ => rfl)
        (fun c hc0 hc => ?_) (fun c hc => ?_) (fun c s hs => ?_) h1 ?_ (fun _ => rfl) id
      · rw [hinst, if_pos ⟨hc0, hc⟩]
        exact (hphinst c).append (h.root_phased ..)
      · rw [hinst, if_neg (by omega), append_nil]
        refine eq_nil_iff_forall_not_mem.2 fun r hr => ?_
        have := (h4 c r hr).2
        omega
      · rw [hinst] at hs
        rcases mem_append.1 hs with hs | hs
        · cases (h4 c _ hs).1
        · split at hs <;> simp at hs
      · rw [hout, newStreams_append, h2]
        exact append_nil _
    refine ⟨_, ?_, ⟨w.2, counter + 1, Int.add_nonneg hc (by decide), rfl, heff.sizes⟩, ph 0 + 1,
      [(0, counter)], _, root_progress h hrun hq rfl, heff, levels_own hc, fun _ => ⟨rfl, counter, hc, rfl⟩⟩
    simp only [DetNet.react, hl, splitBoxTask, Comb.splitArg, if_true, hw]
    rfl
  | sync input outtype => exact hr.elim
  | collect s => exact hr.elim
  | sortEnd level num =>
    refine ⟨⟨toInstances repos.length (.sortEnd (level + 1) num) ++ [(.out, .sortEnd (level + 1) num)],
      .split ⟨repos, counter⟩, false⟩, ?_, ⟨repos, counter, hc, rfl, ?_⟩, ph 0 + 1, [(level + 1, num)], _,
      root_progress h hrun hq rfl, hall rfl nofun (h.root_phased ..), levels_outer hr,
      fun _ => ⟨rfl, rfl⟩⟩
    · simp only [DetNet.react, hl, splitBoxTask]
      rfl
    · simp [newStreams, grow, hlen]
  | terminate flag =>
    refine ⟨⟨toInstances repos.length (.terminate flag) ++ [(.out, .terminate flag)],
      .split ⟨repos, counter⟩, true⟩, ?_, ⟨repos, counter, hc, rfl, ?_⟩, ph 0, [], _,
      root_progress h hrun hq rfl, hall rfl nofun Phased.last, fun y hy => (nomatch hy),
      fun _ => ⟨rfl, rfl⟩⟩
    · simp only [DetNet.react, hl, splitBoxTask]
      rfl
    · simp [newStreams, grow, hlen]

/-! ## Parallel -/

theorem parallel_root_step {num : Nat} {checkMatch : D → Nat → Option Int} {counter : Int}
    (h : TreeInv (.parallel num checkMatch) st p ph) (hrun : st.stopped 0 = false)
    (hq : st.inq 0 = r :: q) (hl : st.locals 0 = .parallel ⟨[], counter⟩) (hc : 0 ≤ counter)
    (hr : Admits p p.marks.length q r) (outs : List D) :
    (∃ i, r = .data i ∧ bestMatch (checkMatch i.value) num = none ∧
      st.react (.parallel num checkMatch) outs 0 r = none) ∨
    ∃ x, st.react (.parallel num checkMatch) outs 0 r = some x ∧
      (∃ counter' : Int, 0 ≤ counter' ∧ x.locals = .parallel ⟨[], counter'⟩) ∧
      StepOk (.parallel num checkMatch) st p ph 0 r q x := by
  have hchild : ∀ k, Comb.child (.parallel num checkMatch) 0 k = k + 1 := fun k => rfl
  have hsize : st.size = num := h.shape.1
  -- the writes to the branches are `send` and then one record to all of them
  have hall : ∀ {p' : Plan} {k k' : Nat} {r' : Rec (Item D) Γ} {x : Reacts D Γ}
      (send : Writes (Item D) Γ), x.writes = send ++ toInstances num r' → outWrites send = [] →
      (∀ c, c = 0 ∨ num < c → instWrites (.parallel num checkMatch) 0 c send = []) →
      (∀ c, Phased p' k (instWrites (.parallel num checkMatch) 0 c send) k false) →
      (∀ c s, Rec.collect s ∉ instWrites (.parallel num checkMatch) 0 c send) →
      (∀ s, r' ≠ .collect s) → Phased p' k [r'] k' x.stop →
      Effect (.parallel num checkMatch) p' st.size st.size 0 k k' x := by
    intro p' k k' r' x send hw hsend hother hpsend hcsend hr' hph
    have hout : outWrites x.writes = [] := by simp [hw, hsend]
    have hinst : ∀ c, instWrites (.parallel num checkMatch) 0 c x.writes =
        instWrites (.parallel num checkMatch) 0 c send ++ if 0 < c ∧ c ≤ num then [r'] else [] := by
      intro c
      rw [hw, instWrites_append, instWrites_toInstances hchild]
    refine Effect.of_flat (fun _ => rfl) nofun (fun _ => hout)
      (fun c hc0 => bne_iff_ne.2 (Nat.ne_of_gt hc0)) (fun c hc0 hc => ?_) (fun c hc => ?_)
      (fun c s hs => ?_) (Nat.le_refl _) ?_ (fun _ => rfl) id
    · rw [hinst, if_pos ⟨hc0, hsize ▸ hc⟩]
      exact (hpsend c).append hph
    · rw [hsize] at hc
      rw [hinst, if_neg (by omega), append_nil]
      exact hother c hc
    · rw [hinst] at hs
      rcases mem_append.1 hs with hs | hs
      · exact hcsend c s hs
      · split at hs
        · exact hr' s (mem_singleton.1 hs).symm
        · cases hs
    · rw [hout, Nat.sub_self]
      rfl
  cases r with
  | data i =>
    cases hbest : bestMatch (checkMatch i.value) num with
    | none =>
      refine Or.inl ⟨i, rfl, hbest, ?_⟩
      simp only [DetNet.react, hl, parallelBoxTask, Comb.parallelArg, hbest]
      rfl
    | some k =>
      have hk := bestMatch_lt hbest
      have ho : i.origin + p.offset = p.marks.length := hr
      have hown : (p.extend [(0, counter)] st.size (ph 0)).Own (ph 0) := ⟨counter, h.root_mark _⟩
      have hsend : ∀ c, instWrites (.parallel num checkMatch) 0 c
          ([(.inst k, .data i)] : Writes (Item D) Γ) = if k + 1 = c then [.data i] else [] := by
        intro c
        rw [instWrites_inst, hchild, instWrites_nil, append_nil]
      refine Or.inr ⟨⟨[(.inst k, .data i)] ++ toInstances num (.sortEnd 0 counter),
        .parallel ⟨[], counter + 1⟩, false⟩, ?_, ⟨counter + 1, Int.add_nonneg hc (by decide), rfl⟩,
        ph 0 + 1, [(0, counter)], _, root_progress h hrun hq rfl,
        hall _ rfl rfl (fun c hc => ?_) (fun c => ?_) (fun c s hs => ?_) nofun
          (h.root_phased ..), levels_own hc, fun _ => ⟨rfl, counter, hc, rfl⟩⟩
      · simp only [DetNet.react, hl, parallelBoxTask, Comb.parallelArg, hbest, putToBuffers, toOpen_nil]
        rfl
      · rw [hsend, if_neg (by omega)]
      · rw [hsend]
        refine Phased.within fun r hr => Or.inl ⟨i, ?_, ho.trans h.root.symm, hown⟩
        split at hr
        · exact mem_singleton.1 hr
        · cases hr
      · rw [hsend] at hs
        split at hs <;> simp at hs
  | sync input outtype => exact hr.elim
  | collect s => exact hr.elim
  | sortEnd level num' =>
    refine Or.inr ⟨⟨toInstances num (.sortEnd (level + 1) num'), .parallel ⟨[], counter⟩, false⟩, ?_,
      ⟨counter, hc, rfl⟩, ph 0 + 1, [(level + 1, num')], _, root_progress h hrun hq rfl,
      hall [] rfl rfl (fun _ _ => rfl) (fun _ => ⟨rfl, rfl⟩) (fun _ _ => not_mem_nil)
        nofun (h.root_phased ..), levels_outer hr, fun _ => ⟨rfl, rfl⟩⟩
    simp only [DetNet.react, hl, parallelBoxTask, Comb.parallelArg, toOpen_nil]
    rfl
  | terminate flag =>
    refine Or.inr ⟨⟨toInstances num (.terminate flag), .parallel ⟨[], counter⟩, true⟩, ?_,
      ⟨counter, hc, rfl⟩, ph 0, [], _, root_progress h hrun hq rfl,
      hall [] rfl rfl (fun _ _ => rfl) (fun _ => ⟨rfl, rfl⟩) (fun _ _ => not_mem_nil)
        nofun Phased.last, fun y hy => (nomatch hy), fun _ => ⟨rfl, rfl⟩⟩
    simp only [DetNet.react, hl, parallelBoxTask, Comb.parallelArg, toOpen_nil]
    rfl

/-! ## All entities -/

/-- The locals of the entities. -/
structure LocalsOk (comb : Comb D) (st : DetNet D Γ) : Prop where
  disp : match comb with
    | .split _ _ => ∃ (repos : List Int) (counter : Int), 0 ≤ counter ∧
        st.locals 0 = .split ⟨repos, counter⟩ ∧ repos.length = st.size
    | .star _ => ∀ e ≤ st.size, e % 2 = 0 → ∃ counter : Int, 0 ≤ counter ∧
        st.locals e = .star ⟨decide (e < st.size), false, counter, 0⟩
    | .parallel _ _ => ∃ counter : Int, 0 ≤ counter ∧ st.locals 0 = .parallel ⟨[], counter⟩
  inst : ∀ e ≤ st.size, comb.isInst e = true → st.locals e = .inst

def Comb.Unroutable : Comb D → Rec (Item D) Γ → Prop
  | .parallel num checkMatch, .data i => bestMatch (checkMatch i.value) num = none
  | _, _ => False

theorem newLocal_inst {c : Nat} (h : comb.isInst c = true) : newLocal comb c = .inst := by
  cases comb with
  | split ltag utag => rfl
  | parallel num checkMatch => rfl
  | star exits =>
    have : c % 2 = 1 := beq_iff_eq.1 h
    rw [newLocal, if_neg (by omega)]

section

variable {x : Reacts D Γ}

theorem perform_locals_self : (st.perform comb e r q x).locals e = x.locals := if_pos rfl

theorem perform_locals_old {c : Nat} (hc : c ≠ e) (hle : c ≤ st.size) :
    (st.perform comb e r q x).locals c = st.locals c := by
  simp only [DetNet.perform, if_neg hc]
  exact if_neg fun h => Nat.not_le_of_lt h.1 hle

theorem perform_locals_new {c : Nat} (he : e ≤ st.size) (hlt : st.size < c)
    (hle : c ≤ (st.perform comb e r q x).size) :
    (st.perform comb e r q x).locals c = newLocal comb c := by
  have hc : c ≠ e := Nat.ne_of_gt (Nat.lt_of_le_of_lt he hlt)
  simp only [DetNet.perform, if_neg hc]
  exact if_pos ⟨hlt, hle⟩

theorem perform_inst (h : ∀ e ≤ st.size, comb.isInst e = true → st.locals e = .inst) (he : e ≤ st.size)
    (hx : comb.isInst e = true → x.locals = .inst) {c : Nat}
    (hc : c ≤ (st.perform comb e r q x).size) (hinst : comb.isInst c = true) :
    (st.perform comb e r q x).locals c = .inst := by
  by_cases hce : c = e
  · subst hce
    rw [perform_locals_self, hx hinst]
  · by_cases hle : c ≤ st.size
    · rw [perform_locals_old hce hle, h c hle hinst]
    · rw [perform_locals_new he (Nat.lt_of_not_le hle) hc, newLocal_inst hinst]

theorem perform_star {exits : D → Bool} {p' : Plan} {k : Nat}
    (h : ∀ e ≤ st.size, e % 2 = 0 → ∃ counter : Int, 0 ≤ counter ∧
      st.locals e = .star ⟨decide (e < st.size), false, counter, 0⟩) (he : e ≤ st.size)
    (hsize : st.size % 2 = 0)
    (heff : Effect (.star exits) p' st.size size' e k k' x)
    (hx : e % 2 = 0 → ∃ counter : Int, 0 ≤ counter ∧
      x.locals = .star ⟨decide (e < size'), false, counter, 0⟩) {c : Nat}
    (hc : c ≤ size') (hc2 : c % 2 = 0) : ∃ counter : Int, 0 ≤ counter ∧
      (st.perform (.star exits) e r q x).locals c = .star ⟨decide (c < size'), false, counter, 0⟩ := by
  have hsz : (st.perform (.star exits) e r q x).size = size' := heff.sizes.symm
  have hslim := heff.single ⟨exits, rfl⟩
  by_cases hce : c = e
  · subst hce
    rw [perform_locals_self]
    exact hx hc2
  · by_cases hle : c ≤ st.size
    · obtain ⟨counter, h0, hloc⟩ := h c hle hc2
      refine ⟨counter, h0, ?_⟩
      rw [perform_locals_old hce hle, hloc]
      have hlt : c < st.size ↔ c < size' := by
        have hgrow : st.size ≤ size' := heff.sizes ▸ le_grow _ _ _
        refine ⟨fun h => Nat.lt_of_lt_of_le h hgrow, fun h => ?_⟩
        by_contra hno
        have hcs : c = st.size := Nat.le_antisymm hle (Nat.le_of_not_lt hno)
        -- the entity with the highest number is the one that creates others
        rcases heff.parents (c + 1) (hcs ▸ Nat.lt_succ_self _) h with hp | hp
        · exact hce hp
        · exact absurd hp (Nat.not_lt_of_le hle)
      simp only [hlt]
    · have hlt := Nat.lt_of_not_le hle
      refine ⟨0, Int.le_refl 0, ?_⟩
      rw [perform_locals_new he hlt (hsz.symm ▸ hc), newLocal, if_pos hc2,
        decide_eq_false (by omega)]

end

theorem entity_step (h : TreeInv comb st p ph) (hloc : LocalsOk comb st) (he : e ≤ st.size)
    (hrun : st.stopped e = false) (hq : st.inq e = r :: q)
    (hr : e = 0 → Admits p p.marks.length q r) (outs : List D) :
    (e = 0 ∧ comb.Unroutable r ∧ st.react comb outs e r = none) ∨ ∃ x, st.react comb outs e r = some x ∧
      StepOk comb st p ph e r q x ∧ LocalsOk comb (st.perform comb e r q x) := by
  by_cases hinst : comb.isInst e = true
  · obtain ⟨x, hx, hxl, hok⟩ := inst_step h he hrun hq hinst (hloc.inst e he hinst) outs
    refine Or.inr ⟨x, hx, hok, ?_, fun c hc hci => perform_inst hloc.inst he (fun _ => hxl) hc hci⟩
    obtain ⟨k', more, size', hprog, heff, -⟩ := hok
    have hdisp := hloc.disp
    have h0 : 0 ≠ e := Nat.ne_of_lt (Comb.pos_of_isInst hinst)
    cases comb with
    | split ltag utag =>
      obtain ⟨repos, counter, hc, hl, hlen⟩ := hdisp
      refine ⟨repos, counter, hc, by rw [perform_locals_old h0 (Nat.zero_le _), hl], ?_⟩
      have hquiet : newStreams (outWrites x.writes) = [] := by
        refine newStreams_eq_nil fun s hs => ?_
        obtain ⟨h1, h2, h3⟩ := (heff.announces s).1 hs
        rcases heff.parents s h1 h2 with hp | hp
        · exact h0 hp
        · exact absurd hp (Nat.not_lt_zero _)
      have hsz : (st.perform (.split ltag utag) e r q x).size = size' := heff.sizes.symm
      rw [hsz, heff.sizes, hquiet, grow_nil, hlen]
    | star exits =>
      intro c hc hc2
      have hodd : e % 2 = 1 := beq_iff_eq.1 hinst
      have hsz : (st.perform (.star exits) e r q x).size = size' := heff.sizes.symm
      rw [hsz] at hc ⊢
      exact perform_star hdisp he h.shape heff (fun h => absurd h (by omega)) hc hc2
    | parallel num checkMatch =>
      obtain ⟨counter, hc, hl⟩ := hdisp
      exact ⟨counter, hc, by rw [perform_locals_old h0 (Nat.zero_le _), hl]⟩
  · have hdisp := hloc.disp
    have hno : ∀ {x : Reacts D Γ}, ∀ c ≤ (st.perform comb e r q x).size, comb.isInst c = true →
        (st.perform comb e r q x).locals c = .inst := fun c hc hci =>
      perform_inst hloc.inst he (fun h => absurd h hinst) hc hci
    cases comb with
    | split ltag utag =>
      obtain rfl : e = 0 := by simpa [Comb.isInst] using hinst
      obtain ⟨repos, counter, hc, hl, hlen⟩ := hdisp
      obtain ⟨x, hx, ⟨repos', counter', hc', hl', hlen'⟩, hok⟩ :=
        split_root_step h hrun hq hl hlen hc (hr rfl) outs
      exact Or.inr ⟨x, hx, hok, ⟨repos', counter', hc', hl', hlen'⟩, hno⟩
    | star exits =>
      have he2 : e % 2 = 0 := by
        have : ¬ e % 2 = 1 := by simpa [Comb.isInst] using hinst
        omega
      obtain ⟨counter, hc, hl⟩ := hdisp e he he2
      have hx : ∃ x, st.react (.star exits) outs e r = some x ∧
          (∃ counter' : Int, 0 ≤ counter' ∧ x.locals = .star
            ⟨decide (e < grow (.star exits) st.size (newStreams (outWrites x.writes))), false,
              counter', 0⟩) ∧ StepOk (.star exits) st p ph e r q x := by
        by_cases h0 : e = 0
        · subst h0
          exact star_root_step h hrun hq hl hc (hr rfl) outs
        · obtain ⟨x, hx, hl', hok⟩ :=
            incarnate_step h (Nat.pos_of_ne_zero h0) he hrun hq he2 hl outs
          exact ⟨x, hx, ⟨counter, hc, hl'⟩, hok⟩
      obtain ⟨x, hx, hl', hok⟩ := hx
      refine Or.inr ⟨x, hx, hok, ?_, hno⟩
      obtain ⟨k', more, size', hprog, heff, -⟩ := hok
      intro c hc hc2
      have hsz : (st.perform (.star exits) e r q x).size = size' := heff.sizes.symm
      rw [← heff.sizes] at hl'
      rw [hsz] at hc ⊢
      exact perform_star hdisp he h.shape heff (fun _ => hl') hc hc2
    | parallel num checkMatch =>
      obtain rfl : e = 0 := by simpa [Comb.isInst] using hinst
      obtain ⟨counter, hc, hl⟩ := hdisp
      rcases parallel_root_step h hrun hq hl hc (hr rfl) outs with ⟨i, rfl, hi, hx⟩ | ⟨x, hx, hl', hok⟩
      · exact Or.inl ⟨rfl, hi, hx⟩
      · obtain ⟨counter', hc', hl'⟩ := hl'
        exact Or.inr ⟨x, hx, hok, ⟨counter', hc', hl'⟩, hno⟩

end

end SNet.Stream
