import SNetRts.Stream.DetEffects

/-!
# Where the data records of a deterministic combinator go

Every instance is given exactly the data records that are meant for it, in the order in which the
dispatcher reads them: those whose tag range has its tag value (split), those that do not match the
exit pattern (star), or those whose best match it is (parallel).
-/

namespace SNet.Stream

open Lib List

variable {D Γ : Type}

/-- The data records that an entity has been given: those it has read, and those it has not read
yet. -/
def DetNet.given (st : DetNet D Γ) (e : Nat) : List (Item D) := st.read e ++ dataOf (st.inq e)

/-- What an instance has not read yet, of the stream that is handed to it as well. -/
def DetNet.unread (st : DetNet D Γ) (e : Nat) : List (Rec (Item D) Γ) :=
  (st.inq e).flatMap fun r =>
    match r with
    | .sync _ _ => st.inq 0
    | r => [r]

def Routed (comb : Comb D) (input : List (Rec D Γ)) (st : DetNet D Γ) : Prop :=
  match comb with
  | .split ltag utag => st.given 0 = dataOf (labelled input) ∧
      ∃ (repos : List Int) (counter : Int), st.locals 0 = .split ⟨repos, counter⟩ ∧ repos.Nodup ∧
        (∀ i ∈ st.read 0, ∀ t ∈ tagRange (ltag i.value) (utag i.value), t ∈ repos) ∧
        ∀ k t, repos[k]? = some t →
          st.given (k + 1) = (st.read 0).filter fun i => t ∈ tagRange (ltag i.value) (utag i.value)
  | .star exits => st.given 0 = dataOf (labelled input) ∧ ∀ e ≤ st.size, e % 2 = 0 →
      st.given (e + 1) = ((st.read e).filter fun i => !exits i.value) ∧
        st.sent e = (st.read e).filter fun i => exits i.value
  | .parallel num checkMatch =>
    if num = 1 then st.read 1 ++ dataOf (st.unread 1) = dataOf (labelled input)
    else st.given 0 = dataOf (labelled input) ∧ ∀ k < num, st.given (k + 1) =
      (st.read 0).filter fun i => bestMatch (checkMatch i.value) num = some k

section

variable {comb : Comb D} {input : List (Rec D Γ)} {st : DetNet D Γ} {e : Nat} {r : Rec (Item D) Γ}
  {q : List (Rec (Item D) Γ)} {x : Reacts D Γ}

theorem perform_read_self : (st.perform comb e r q x).read e = st.read e ++ dataOf [r] :=
  Function.update_self ..

theorem perform_read_other {c : Nat} (hc : c ≠ e) : (st.perform comb e r q x).read c = st.read c :=
  Function.update_of_ne hc ..

theorem perform_given (hq : st.inq e = r :: q) (hself : instWrites comb e e x.writes = []) (c : Nat) :
    (st.perform comb e r q x).given c = st.given c ++ dataOf (instWrites comb e c x.writes) := by
  unfold DetNet.given
  by_cases hc : c = e
  · subst hc
    have hinq : (st.perform comb c r q x).inq c = q := by
      simp only [DetNet.perform, if_true, hself, append_nil]
    have hcons : dataOf (st.inq c) = dataOf [r] ++ dataOf q := by
      rw [hq]
      exact dataOf_append [r] q
    rw [perform_read_self, hinq, hself, hcons, append_assoc]
    exact (append_nil _).symm
  · have hinq : (st.perform comb e r q x).inq c = st.inq c ++ instWrites comb e c x.writes := by
      simp only [DetNet.perform, if_neg hc]
    rw [perform_read_other hc, hinq, dataOf_append, append_assoc]

theorem multicast_data {comb : Comb D} (hchild : ∀ k, comb.child 0 k = k + 1) (d : Item D)
    {is repos : List Int} (his : is.Nodup) (hrepos : repos.Nodup) :
    repos <+: (multicast (Γ := Γ) d is repos).2 ∧ (multicast (Γ := Γ) d is repos).2.Nodup ∧
      (∀ t ∈ is, t ∈ (multicast (Γ := Γ) d is repos).2) ∧
      (∀ t ∈ (multicast (Γ := Γ) d is repos).2, t ∈ repos ∨ t ∈ is) ∧
      ∀ k t, (multicast (Γ := Γ) d is repos).2[k]? = some t →
        dataOf (instWrites comb 0 (k + 1) (multicast (Γ := Γ) d is repos).1) =
          if t ∈ is then [d] else [] := by
  induction is generalizing repos with
  | nil => simp [multicast, hrepos, dataOf]
  | cons i is ih =>
    obtain ⟨hnot, his⟩ := nodup_cons.1 his
    have hget : ∀ {l l' : List Int}, l <+: l' → ∀ {k : Nat} {t : Int}, l[k]? = some t →
        l'[k]? = some t := by
      rintro l _ ⟨m, rfl⟩ k t hk
      rw [getElem?_append_left (List.getElem?_eq_some_iff.1 hk).1]
      exact hk
    -- the data record goes to the instance at `j`, and to those that the rest of the loop finds
    have hdata : ∀ {l : List Int} {j : Nat} {ws : Writes (Item D) Γ}, l.Nodup → l[j]? = some i →
        (∀ k t, l[k]? = some t → dataOf (instWrites comb 0 (k + 1) ws) = if t ∈ is then [d] else []) →
        ∀ k t, l[k]? = some t → dataOf ((if j + 1 = k + 1 then [.data d] else []) ++
          instWrites comb 0 (k + 1) ws) = if t ∈ i :: is then [d] else [] := by
      intro l j ws hl hj hws k t hk
      rw [dataOf_append, hws k t hk]
      by_cases hti : t = i
      · subst hti
        have hjk : j = k := (getElem?_inj (List.getElem?_eq_some_iff.1 hj).1 hl).1 (hj.trans hk.symm)
        rw [if_pos (by rw [hjk]), if_neg hnot, if_pos mem_cons_self]
        rfl
      · have hjk : ¬ j + 1 = k + 1 := fun h => hti (Option.some.inj (by rw [← hk, ← hj, Nat.succ.inj h]))
        rw [if_neg hjk]
        simp [hti, dataOf]
    by_cases hi : i ∈ repos
    · obtain ⟨h1, h2, h3, h4, h5⟩ := ih his hrepos
      simp only [multicast, if_pos hi, instWrites_inst, hchild]
      refine ⟨h1, h2, fun t ht => ?_, fun t ht => (h4 t ht).imp_right (mem_cons_of_mem _),
        hdata h2 (hget h1 (getElem?_idxOf hi)) h5⟩
      rcases mem_cons.1 ht with rfl | ht
      · exact h1.subset hi
      · exact h3 t ht
    · have hnodup : (repos ++ [i]).Nodup := by
        refine nodup_append.2 ⟨hrepos, nodup_singleton i, fun a ha b hb => ?_⟩
        rintro rfl
        exact hi (mem_singleton.1 hb ▸ ha)
      obtain ⟨h1, h2, h3, h4, h5⟩ := ih his hnodup
      have hnew : (multicast (Γ := Γ) d is (repos ++ [i])).2[repos.length]? = some i :=
        hget h1 (getElem?_concat_length)
      simp only [multicast, if_neg hi, instWrites_inst, instWrites_out, hchild]
      refine ⟨(prefix_append _ _).trans h1, h2, fun t ht => ?_, fun t ht => ?_, hdata h2 hnew h5⟩
      · rcases mem_cons.1 ht with rfl | ht
        · exact h1.subset (mem_append_right _ (mem_singleton_self _))
        · exact h3 t ht
      · rcases h4 t ht with ht | ht
        · rcases mem_append.1 ht with ht | ht
          · exact Or.inl ht
          · exact Or.inr (mem_singleton.1 ht ▸ mem_cons_self)
        · exact Or.inr (mem_cons_of_mem _ ht)

theorem tagRange_nodup (lower upper : Int) : (tagRange lower upper).Nodup :=
  List.Nodup.map (fun _ _ h => Int.ofNat.inj (Int.add_left_cancel h)) nodup_range

theorem perform_sent_other {c : Nat} (hc : c ≠ e) : (st.perform comb e r q x).sent c = st.sent c :=
  Function.update_of_ne hc ..

theorem perform_sent_self :
    (st.perform comb e r q x).sent e = st.sent e ++ dataOf (outWrites x.writes) :=
  Function.update_self ..

theorem filter_append_ite {l : List (Item D)} {i : Item D} (f : Item D → Bool) :
    (l ++ dataOf [(Rec.data i : Rec (Item D) Γ)]).filter f = l.filter f ++ if f i then [i] else [] := by
  rw [filter_append]
  congr 1
  change [i].filter f = _
  cases h : f i <;> simp [h]

theorem Routed.perform_inst {p' : Plan} {size' k k' : Nat} (h : Routed comb input st)
    (hnum : ∀ checkMatch, comb ≠ .parallel 1 checkMatch) (hq : st.inq e = r :: q)
    (hinst : comb.isInst e = true) (heff : Effect comb p' st.size size' e k k' x)
    (hself : instWrites comb e e x.writes = []) : Routed comb input (st.perform comb e r q x) := by
  have h0 : 0 ≠ e := Nat.ne_of_lt (Comb.pos_of_isInst hinst)
  have hgiven : ∀ c, (st.perform comb e r q x).given c =
      st.given c ++ dataOf (instWrites comb e c x.writes) := perform_given hq hself
  have hzero : (st.perform comb e r q x).given 0 = st.given 0 := by
    rw [hgiven 0, heff.other 0 (Or.inl rfl)]
    exact append_nil _
  -- an instance writes to no entity that a dispatcher writes to
  have hsame : ∀ c, comb.parent c ≠ e → (st.perform comb e r q x).given c = st.given c := by
    intro c hc
    rw [hgiven c, heff.other c (Or.inr (Or.inr hc))]
    exact append_nil _
  cases comb with
  | split ltag utag =>
    obtain ⟨hin, repos, counter, hl, hnodup, hall, hto⟩ := h
    refine ⟨hzero.trans hin, repos, counter, ?_, hnodup, ?_, fun k t hk => ?_⟩
    · rw [perform_locals_old h0 (Nat.zero_le _), hl]
    · rw [perform_read_other h0]
      exact hall
    · rw [perform_read_other h0, hsame _ h0]
      exact hto k t hk
  | star exits =>
    have hodd : e % 2 = 1 := beq_iff_eq.1 hinst
    obtain ⟨hin, hto⟩ := h
    have hquiet : outWrites x.writes = [] := by
      refine heff.quiet ?_
      simp only [Comb.writesOut, hodd]
      rfl
    have hsz : (st.perform (.star exits) e r q x).size = st.size := by
      have hsz : (st.perform (.star exits) e r q x).size = size' := heff.sizes.symm
      rw [hsz, heff.sizes, hquiet]
      rfl
    refine ⟨hzero.trans hin, fun c hc hc2 => ?_⟩
    have hce : c ≠ e := by
      rintro rfl
      omega
    rw [hsz] at hc
    rw [perform_read_other hce, perform_sent_other hce, hsame (c + 1) hce]
    exact hto c hc hc2
  | parallel num checkMatch =>
    have h1 : ¬ num = 1 := by
      rintro rfl
      exact hnum checkMatch rfl
    simp only [Routed, if_neg h1] at h ⊢
    refine ⟨hzero.trans h.1, fun k hk => ?_⟩
    rw [perform_read_other h0, hsame _ h0]
    exact h.2 k hk

theorem Routed.perform_split {ltag utag : D → Int} {outs : List D} {p : Plan} {ph : Nat → Nat}
    {p' : Plan} {size' k k' : Nat} (h : Routed (.split ltag utag) input st)
    (htree : TreeInv (.split ltag utag) st p ph) (hloc : LocalsOk (.split ltag utag) st)
    (hunread : ∀ c, st.size < c → st.read c = []) (hq : st.inq 0 = r :: q)
    (heff : Effect (.split ltag utag) p' st.size size' 0 k k' x)
    (hx : st.react (.split ltag utag) outs 0 r = some x) :
    Routed (.split ltag utag) input (st.perform (.split ltag utag) 0 r q x) := by
  obtain ⟨hin, repos, counter, hl, hnodup, hall, hto⟩ := h
  obtain ⟨repos', counter', -, hl', hlen⟩ := hloc.disp
  obtain ⟨rfl, rfl⟩ : repos = repos' ∧ counter = counter' := by
    rw [hl] at hl'
    cases hl'
    exact ⟨rfl, rfl⟩
  have hchild : ∀ k, Comb.child (.split ltag utag) 0 k = k + 1 := fun k => rfl
  have hgiven : ∀ c, (st.perform (.split ltag utag) 0 r q x).given c =
      st.given c ++ dataOf (instWrites (.split ltag utag) 0 c x.writes) :=
    perform_given hq (heff.other 0 (Or.inl rfl))
  have hzero : (st.perform (.split ltag utag) 0 r q x).given 0 = dataOf (labelled input) := by
    rw [hgiven 0, heff.other 0 (Or.inl rfl), ← hin]
    exact append_nil _
  -- the same record, which is no data record, to all instances
  have hforward : ∀ {r' : Rec (Item D) Γ} {stop : Bool}, dataOf [r] = [] → dataOf [r'] = [] →
      x = ⟨toInstances repos.length r' ++ [(.out, r')], .split ⟨repos, counter⟩, stop⟩ →
      Routed (.split ltag utag) input (st.perform (.split ltag utag) 0 r q x) := by
    intro r' stop hr hr' hx
    refine ⟨hzero, repos, counter, ?_, hnodup, ?_, fun k t hk => ?_⟩
    · rw [perform_locals_self, hx]
    · rw [perform_read_self, hr, append_nil]
      exact hall
    · rw [perform_read_self, hr, append_nil, hgiven, ← hto k t hk, hx]
      simp only [instWrites_append, instWrites_toInstances hchild, instWrites_out, instWrites_nil,
        append_nil]
      split
      · rw [hr', append_nil]
      · exact append_nil _
  simp only [DetNet.react, hl] at hx
  cases r with
  | sync s o => cases hx
  | collect s => cases hx
  | sortEnd level num => exact hforward rfl rfl (Option.some.inj hx).symm
  | terminate flag => exact hforward rfl rfl (Option.some.inj hx).symm
  | data i =>
    obtain ⟨h1, h2, h3, h4, h5⟩ := multicast_data (Γ := Γ) hchild i
      (tagRange_nodup (ltag i.value) (utag i.value)) hnodup
    simp only [splitBoxTask, Comb.splitArg, if_true] at hx
    revert h1 h2 h3 h4 h5 hx
    generalize multicast (Γ := Γ) i (tagRange (ltag i.value) (utag i.value)) repos = w
    intro h1 h2 h3 h4 h5 hx
    obtain rfl := Option.some.inj hx
    refine ⟨hzero, w.2, counter + 1, perform_locals_self, h2, fun j hj t ht => ?_, fun k t hk => ?_⟩
    · rw [perform_read_self] at hj
      rcases mem_append.1 hj with hj | hj
      · exact h1.subset (hall j hj t ht)
      · obtain rfl : j = i := mem_singleton.1 hj
        exact h3 t ht
    · rw [hgiven, perform_read_self, filter_append_ite]
      simp only [instWrites_append, instWrites_toInstances hchild, instWrites_out, instWrites_nil,
        append_nil]
      rw [dataOf_append, h5 k t hk]
      have hsort : dataOf (if 0 < k + 1 ∧ k + 1 ≤ w.2.length then
          ([.sortEnd 0 counter] : List (Rec (Item D) Γ)) else []) = [] := by
        split <;> rfl
      rw [hsort, append_nil]
      -- an instance that is new has been given nothing, and nothing was meant for it
      have hold : st.given (k + 1) =
          (st.read 0).filter fun i => t ∈ tagRange (ltag i.value) (utag i.value) := by
        by_cases hk' : k < repos.length
        · refine hto k t ?_
          obtain ⟨m, hm⟩ := h1
          rw [← hm, getElem?_append_left hk'] at hk
          exact hk
        · have hnew : st.size < k + 1 := by
            rw [← hlen]
            omega
          have hnone : st.given (k + 1) = [] := by
            rw [DetNet.given, hunread _ hnew, (htree.fresh _ hnew).1]
            rfl
          rw [hnone]
          refine (filter_eq_nil_iff.2 fun j hj => ?_).symm
          intro ht
          have hmem := hall j hj t (of_decide_eq_true ht)
          obtain ⟨l, hl⟩ := mem_iff_getElem?.1 hmem
          have hlt := (List.getElem?_eq_some_iff.1 hl).1
          obtain ⟨m, hm⟩ := h1
          have hl2 : w.2[l]? = some t := by
            rw [← hm, getElem?_append_left hlt]
            exact hl
          have := (getElem?_inj (List.getElem?_eq_some_iff.1 hl2).1 h2).1 (hl2.trans hk.symm)
          omega
      rw [hold]
      simp only [decide_eq_true_eq]

theorem Routed.perform_parallel {num : Nat} {checkMatch : D → Nat → Option Int} {outs : List D}
    {p p' : Plan} {size' k k' : Nat} (h : Routed (.parallel num checkMatch) input st) (hnum : ¬ num = 1)
    (hloc : LocalsOk (.parallel num checkMatch) st) (hq : st.inq 0 = r :: q)
    (heff : Effect (.parallel num checkMatch) p' st.size size' 0 k k' x)
    (hx : st.react (.parallel num checkMatch) outs 0 r = some x)
    (hr : Admits p p.marks.length q r) :
    Routed (.parallel num checkMatch) input (st.perform (.parallel num checkMatch) 0 r q x) := by
  simp only [Routed, if_neg hnum] at h ⊢
  obtain ⟨counter, -, hl⟩ := hloc.disp
  have hchild : ∀ k, Comb.child (.parallel num checkMatch) 0 k = k + 1 := fun k => rfl
  have hgiven : ∀ c, (st.perform (.parallel num checkMatch) 0 r q x).given c =
      st.given c ++ dataOf (instWrites (.parallel num checkMatch) 0 c x.writes) :=
    perform_given hq (heff.other 0 (Or.inl rfl))
  refine ⟨?_, fun k hk => ?_⟩
  · rw [hgiven 0, heff.other 0 (Or.inl rfl), ← h.1]
    exact append_nil _
  have hforward : ∀ {r' : Rec (Item D) Γ}, dataOf [r] = [] → dataOf [r'] = [] →
      x.writes = toInstances num r' →
      (st.perform (.parallel num checkMatch) 0 r q x).given (k + 1) =
        ((st.perform (.parallel num checkMatch) 0 r q x).read 0).filter fun i =>
          bestMatch (checkMatch i.value) num = some k := by
    intro r' hr hr' hx
    rw [hgiven, perform_read_self, hr, append_nil, ← h.2 k hk, hx, instWrites_toInstances hchild]
    split
    · rw [hr', append_nil]
    · exact append_nil _
  simp only [DetNet.react, hl] at hx
  cases r with
  | sync s o => exact hr.elim
  | collect s => exact hr.elim
  | sortEnd level num' =>
    simp only [parallelBoxTask, Comb.parallelArg, toOpen_nil, Reacts.ofNext, Option.some.injEq] at hx
    exact hforward rfl rfl (congrArg Reacts.writes hx).symm
  | terminate flag =>
    simp only [parallelBoxTask, Comb.parallelArg, toOpen_nil, Reacts.ofNext, Option.some.injEq] at hx
    exact hforward rfl rfl (congrArg Reacts.writes hx).symm
  | data i =>
    simp only [parallelBoxTask, Comb.parallelArg] at hx
    rw [perform_read_self, filter_append_ite, hgiven, h.2 k hk]
    congr 1
    cases hbest : bestMatch (checkMatch i.value) num with
    | none =>
      rw [hbest] at hx
      cases hx
    | some j =>
      rw [hbest] at hx
      obtain rfl := Option.some.inj hx
      have hsort : dataOf (if 0 < k + 1 ∧ k + 1 ≤ num then
          ([.sortEnd 0 counter] : List (Rec (Item D) Γ)) else []) = [] := by
        split <;> rfl
      change dataOf (instWrites _ 0 (k + 1) ([(.inst j, .data i)] ++
        toOpen num [] (.sortEnd 0 counter))) = _
      rw [toOpen_nil, instWrites_append, instWrites_toInstances hchild, dataOf_append, hsort,
        instWrites_inst, hchild, append_nil]
      by_cases hjk : j = k
      · simp [hjk, dataOf]
      · simp [hjk, dataOf]

theorem dataOf_starNext {exits : D → Bool} {i : Item D} :
    dataOf (starNext (Γ := Γ) exits i) = [i].filter fun i => !exits i.value := by
  unfold starNext
  cases hx : exits i.value <;> simp [hx, dataOf]

theorem dataOf_starSend {exits : D → Bool} {size : Nat} {i : Item D} :
    dataOf (outWrites (starSend (Γ := Γ) exits size e i)) = [i].filter fun i => exits i.value := by
  unfold starSend
  cases hx : exits i.value
  · by_cases hlt : e < size <;> simp [hx, hlt, dataOf]
  · simp [hx, dataOf]

theorem Routed.perform_star {exits : D → Bool} {outs : List D} {p : Plan} {ph : Nat → Nat} {p' : Plan}
    {size' k k' : Nat} (h : Routed (.star exits) input st) (htree : TreeInv (.star exits) st p ph)
    (hloc : LocalsOk (.star exits) st) (hunread : ∀ c, st.size < c → st.read c = [])
    (hunsent : ∀ c, st.size < c → st.sent c = []) (he : e ≤ st.size) (he2 : e % 2 = 0)
    (hq : st.inq e = r :: q) (heff : Effect (.star exits) p' st.size size' e k k' x)
    (hself : instWrites (.star exits) e e x.writes = []) (hr : ∀ s o, r ≠ .sync s o)
    (hx : st.react (.star exits) outs e r = some x) :
    Routed (.star exits) input (st.perform (.star exits) e r q x) := by
  obtain ⟨hin, hto⟩ := h
  obtain ⟨counter, -, hl⟩ := hloc.disp e he he2
  have hgiven : ∀ c, (st.perform (.star exits) e r q x).given c =
      st.given c ++ dataOf (instWrites (.star exits) e c x.writes) := perform_given hq hself
  -- what the record itself adds
  have hadds : dataOf (instWrites (.star exits) e (e + 1) x.writes) =
        ((dataOf [r]).filter fun i => !exits i.value) ∧
      dataOf (outWrites x.writes) = (dataOf [r]).filter fun i => exits i.value := by
    simp only [DetNet.react, hl] at hx
    have hforward : ∀ {r' : Rec (Item D) Γ}, dataOf [r] = [] → dataOf [r'] = [] →
        x.writes = toNext (decide (e < st.size)) r' ++ [(.out, r')] →
        dataOf (instWrites (.star exits) e (e + 1) x.writes) =
            ((dataOf [r]).filter fun i => !exits i.value) ∧
          dataOf (outWrites x.writes) = (dataOf [r]).filter fun i => exits i.value := by
      intro r' hr hr' hw
      rw [hw, hr, instWrites_append, instWrites_toNext, outWrites_append, outWrites_toNext]
      refine ⟨?_, hr'⟩
      simp only [instWrites_out, instWrites_nil, append_nil]
      split
      · exact hr'
      · rfl
    cases r with
    | sync s o => exact absurd rfl (hr s o)
    | collect s => cases hx
    | sortEnd level num =>
      obtain rfl := Option.some.inj hx
      exact hforward rfl rfl rfl
    | terminate flag =>
      obtain rfl := Option.some.inj hx
      exact hforward rfl rfl rfl
    | data i =>
      by_cases h0 : e = 0
      · have hw : x.writes = starSend exits st.size e i ++ [(.out, .sortEnd 0 counter)] ++
            toNext (decide (e < st.size) || !exits i.value) (.sortEnd 0 counter) := by
          simp only [starBoxTask, Comb.starArg, h0, Bool.and_false, Bool.false_eq_true, if_false] at hx
          rw [← Option.some.inj hx, h0]
          rfl
        rw [hw, instWrites_append, instWrites_append, starSend_inst, instWrites_toNext,
          outWrites_append, outWrites_append, outWrites_toNext]
        refine ⟨?_, ?_⟩
        · rw [if_pos rfl, dataOf_append, dataOf_append, dataOf_starNext]
          have hsort : dataOf (if (decide (e < st.size) || !exits i.value) = true ∧ e + 1 = e + 1 then
              ([.sortEnd 0 counter] : List (Rec (Item D) Γ)) else []) = [] := by
            split <;> rfl
          rw [hsort, append_nil]
          exact append_nil _
        · rw [append_nil, dataOf_append, dataOf_starSend]
          exact append_nil _
      · have hw : x.writes = starSend exits st.size e i := by
          have hinc : (e != 0) = true := bne_iff_ne.2 h0
          simp only [starBoxTask, Comb.starArg, hinc, Bool.and_false, Bool.not_true, Bool.false_eq_true,
            if_false] at hx
          rw [← Option.some.inj hx]
          rfl
        rw [hw, starSend_inst, if_pos rfl]
        exact ⟨dataOf_starNext, dataOf_starSend⟩
  have hsz : (st.perform (.star exits) e r q x).size = size' := heff.sizes.symm
  refine ⟨?_, fun c hc hc2 => ?_⟩
  · rw [hgiven 0, heff.other 0 (Or.inl rfl), ← hin]
    exact append_nil _
  · by_cases hce : c = e
    · subst hce
      rw [hgiven, perform_read_self, perform_sent_self, hadds.1, hadds.2, filter_append,
        filter_append, (hto c he hc2).1, (hto c he hc2).2]
      exact ⟨rfl, rfl⟩
    · have hother : instWrites (.star exits) e (c + 1) x.writes = [] :=
        heff.other (c + 1) (Or.inr (Or.inr hce))
      rw [hgiven, hother, perform_read_other hce, perform_sent_other hce]
      by_cases hle : c ≤ st.size
      · obtain ⟨h1, h2⟩ := hto c hle hc2
        exact ⟨h1 ▸ append_nil _, h2⟩
      · have hlt := Nat.lt_of_not_le hle
        have hlt' := Nat.lt_succ_of_lt hlt
        rw [hunread c hlt, hunsent c hlt, DetNet.given, hunread _ hlt', (htree.fresh _ hlt').1]
        exact ⟨rfl, rfl⟩

theorem Routed.perform {outs : List D} {p p' : Plan} {ph : Nat → Nat} {size' k k' : Nat}
    (h : Routed comb input st) (htree : TreeInv comb st p ph) (hloc : LocalsOk comb st)
    (hunread : ∀ c, st.size < c → st.read c = []) (hunsent : ∀ c, st.size < c → st.sent c = [])
    (he : e ≤ st.size) (hrun : st.stopped e = false) (hq : st.inq e = r :: q)
    (hadm : e = 0 → Admits p p.marks.length q r) (heff : Effect comb p' st.size size' e k k' x)
    (hx : st.react comb outs e r = some x) : Routed comb input (st.perform comb e r q x) := by
  have hself : instWrites comb e e x.writes = [] := by
    refine heff.other e ?_
    by_cases h0 : e = 0
    · exact Or.inl h0
    · exact Or.inr (Or.inr (Nat.ne_of_lt (comb.parent_lt (Nat.pos_of_ne_zero h0))))
  by_cases hinst : comb.isInst e = true
  · refine h.perform_inst ?_ hq hinst heff hself
    rintro checkMatch rfl
    exact absurd htree.shape.2 (by decide)
  · cases comb with
    | split ltag utag =>
      obtain rfl : e = 0 := by simpa [Comb.isInst] using hinst
      exact h.perform_split htree hloc hunread hq heff hx
    | star exits =>
      have he2 : e % 2 = 0 := by
        have : ¬ e % 2 = 1 := by simpa [Comb.isInst] using hinst
        omega
      refine h.perform_star htree hloc hunread hunsent he he2 hq heff hself ?_ hx
      rintro s o rfl
      by_cases h0 : e = 0
      · exact hadm h0
      · have := htree.unread e (Nat.pos_of_ne_zero h0) he hrun
        rw [hq] at this
        exact this
    | parallel num checkMatch =>
      obtain rfl : e = 0 := by simpa [Comb.isInst] using hinst
      refine h.perform_parallel ?_ hloc hq heff hx (hadm rfl)
      rintro rfl
      exact absurd htree.shape.2 (by decide)

end

end SNet.Stream
