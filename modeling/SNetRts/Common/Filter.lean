import SNetRts.Common.Expr

/-!
# Filters

`FilterTask` of `stream/entity/filter.c` and `ApplyFilter` of `front/xfilter.c` for data records, with the
instructions, `SNetRecFlowInherit`, and the test for filters that are left out of a network. The two
differ in the detrefs of the new records and in how these are written.

A new record has what the instructions set, and from the input what the pattern does not name. The
latter is set last, so that it wins where an instruction has set the same label.
-/

namespace SNet

open Lib List

variable {V : Type}

/-! ## Labels of all kinds -/

/-- A label of a field, a tag or a binding tag. -/
inductive ItemLabel where
  | field (name : Int)
  | tag (name : Int)
  | btag (name : Int)
deriving DecidableEq, Repr

def Record.item? (r : Record V) : ItemLabel → Option (V ⊕ Int)
  | .field name => (r.fields.get? name).map Sum.inl
  | .tag name => (r.tags.get? name).map Sum.inr
  | .btag name => (r.btags.get? name).map Sum.inr

/-- The label is one that `SNetRecFlowInherit` copies: it is not that of a binding tag, and the pattern
does not name it. -/
def Variant.leaves (pat : Variant) : ItemLabel → Bool
  | .field name => !pat.hasField name
  | .tag name => !pat.hasTag name
  | .btag _ => false

/-- `SNetRecFlowInherit`. -/
def flowInherit (pat : Variant) (inRec outRec : Record V) : Record V :=
  { outRec with
    fields := inRec.fields.copyWhere (fun name => !pat.hasField name) outRec.fields
    tags := inRec.tags.copyWhere (fun name => !pat.hasTag name) outRec.tags }

theorem item?_flowInherit (pat : Variant) (inRec outRec : Record V) (ℓ : ItemLabel) :
    (flowInherit pat inRec outRec).item? ℓ =
      if pat.leaves ℓ then (inRec.item? ℓ).or (outRec.item? ℓ) else outRec.item? ℓ := by
  cases ℓ with
  | field name =>
    show ((inRec.fields.copyWhere _ outRec.fields).get? name).map Sum.inl = _
    rw [LabelMap.get?_copyWhere, Variant.leaves]
    split
    · exact Option.map_or
    · rfl
  | tag name =>
    show ((inRec.tags.copyWhere _ outRec.tags).get? name).map Sum.inr = _
    rw [LabelMap.get?_copyWhere, Variant.leaves]
    split
    · exact Option.map_or
    · rfl
  | btag name => rfl

theorem Record.item?_setTag (r : Record V) (name v : Int) (ℓ : ItemLabel) :
    Record.item? { r with tags := r.tags.set name v } ℓ =
      if ℓ = .tag name then some (.inr v) else r.item? ℓ := by
  cases ℓ with
  | tag k => by_cases hk : k = name <;> simp [Record.item?, hk]
  | field k | btag k => rfl

theorem Record.item?_setBTag (r : Record V) (name v : Int) (ℓ : ItemLabel) :
    Record.item? { r with btags := r.btags.set name v } ℓ =
      if ℓ = .btag name then some (.inr v) else r.item? ℓ := by
  cases ℓ with
  | btag k => by_cases hk : k = name <;> simp [Record.item?, hk]
  | field k | tag k => rfl

theorem Record.item?_setField (r : Record V) (name : Int) (v : V) (ℓ : ItemLabel) :
    Record.item? { r with fields := r.fields.set name v } ℓ =
      if ℓ = .field name then some (.inl v) else r.item? ℓ := by
  cases ℓ with
  | field k => by_cases hk : k = name <;> simp [Record.item?, hk]
  | tag k | btag k => rfl

/-! ## Instructions -/

/-- `snet_filter_instr_t`. -/
inductive FilterInstr where
  | createRecord
  | snetTag (name : Int) (expr : Option Expr)
  | snetBTag (name : Int) (expr : Option Expr)
  | snetField (newName name : Int)
deriving DecidableEq, Repr

namespace FilterInstr

def exec (inRec outRec : Record V) : FilterInstr → Outcome (Record V)
  | .createRecord => .done outRec
  | .snetTag name expr =>
    (SNetEevaluateInt expr inRec).bind fun v => .done { outRec with tags := outRec.tags.set name v }
  | .snetBTag name expr =>
    (SNetEevaluateInt expr inRec).bind fun v => .done { outRec with btags := outRec.btags.set name v }
  | .snetField newName name =>
    (Outcome.ofOption (inRec.fields.get? name)).bind fun v =>
      .done { outRec with fields := outRec.fields.set newName v }

def execAll (inRec : Record V) : List FilterInstr → Record V → Outcome (Record V)
  | [], outRec => .done outRec
  | instr :: instrs, outRec => (instr.exec inRec outRec).bind (execAll inRec instrs)

def sets : FilterInstr → Option ItemLabel
  | .createRecord => none
  | .snetTag name _ => some (.tag name)
  | .snetBTag name _ => some (.btag name)
  | .snetField newName _ => some (.field newName)

def value (inRec : Record V) : FilterInstr → Outcome (V ⊕ Int)
  | .createRecord => .blocked
  | .snetTag _ expr | .snetBTag _ expr => (SNetEevaluateInt expr inRec).bind fun v => .done (.inr v)
  | .snetField _ name => (Outcome.ofOption (inRec.fields.get? name)).bind fun v => .done (.inl v)

def lastSetting (ℓ : ItemLabel) : List FilterInstr → Option FilterInstr
  | [] => none
  | instr :: instrs => (lastSetting ℓ instrs).or (if instr.sets = some ℓ then some instr else none)

theorem exec_done {inRec outRec outRec' : Record V} {instr : FilterInstr}
    (h : instr.exec inRec outRec = .done outRec') :
    (instr.sets = none ∧ outRec' = outRec) ∨
      ∃ name v, instr.sets = some name ∧ instr.value inRec = .done v ∧
        ∀ ℓ, outRec'.item? ℓ = if ℓ = name then some v else outRec.item? ℓ := by
  cases instr with
  | createRecord =>
    cases h
    exact Or.inl ⟨rfl, rfl⟩
  | snetTag name expr =>
    obtain ⟨v, hv, h⟩ := Outcome.bind_eq_done.1 h
    cases h
    exact Or.inr ⟨_, _, rfl, by rw [value, hv]; rfl, Record.item?_setTag outRec name v⟩
  | snetBTag name expr =>
    obtain ⟨v, hv, h⟩ := Outcome.bind_eq_done.1 h
    cases h
    exact Or.inr ⟨_, _, rfl, by rw [value, hv]; rfl, Record.item?_setBTag outRec name v⟩
  | snetField newName name =>
    obtain ⟨v, hv, h⟩ := Outcome.bind_eq_done.1 h
    cases h
    exact Or.inr ⟨_, _, rfl, by rw [value, hv]; rfl, Record.item?_setField outRec newName v⟩

theorem item?_exec {inRec outRec outRec' : Record V} {instr : FilterInstr}
    (h : instr.exec inRec outRec = .done outRec') (ℓ : ItemLabel) :
    (instr.sets ≠ some ℓ ∧ outRec'.item? ℓ = outRec.item? ℓ) ∨
      (instr.sets = some ℓ ∧ ∃ v, instr.value inRec = .done v ∧ outRec'.item? ℓ = some v) := by
  rcases exec_done h with ⟨hsets, rfl⟩ | ⟨name, v, hsets, hv, hitem⟩
  · rw [hsets]
    exact Or.inl ⟨nofun, rfl⟩
  · rw [hsets, hitem]
    by_cases hname : ℓ = name
    · exact Or.inr ⟨congrArg some hname.symm, v, hv, if_pos hname⟩
    · exact Or.inl ⟨fun heq => hname (Option.some.inj heq).symm, if_neg hname⟩

theorem item?_execAll {inRec outRec outRec' : Record V} {instrs : List FilterInstr}
    (h : execAll inRec instrs outRec = .done outRec') (ℓ : ItemLabel) :
    (lastSetting ℓ instrs = none ∧ outRec'.item? ℓ = outRec.item? ℓ) ∨
      ∃ instr v, lastSetting ℓ instrs = some instr ∧ instr.value inRec = .done v ∧
        outRec'.item? ℓ = some v := by
  induction instrs generalizing outRec with
  | nil =>
    cases h
    exact Or.inl ⟨rfl, rfl⟩
  | cons instr instrs ih =>
    obtain ⟨outRec'', hexec, hrest⟩ := Outcome.bind_eq_done.1 h
    rw [lastSetting]
    rcases ih hrest with ⟨hnone, heq⟩ | ⟨instr', v, hsome, hv, heq⟩
    · rw [hnone, Option.none_or, heq]
      rcases item?_exec hexec ℓ with ⟨hsets, hsame⟩ | ⟨hsets, v, hv, hset⟩
      · exact Or.inl ⟨if_neg hsets, hsame⟩
      · exact Or.inr ⟨instr, v, if_pos hsets, hv, hset⟩
    · exact Or.inr ⟨instr', v, by rw [hsome]; rfl, hv, heq⟩

end FilterInstr

/-! ## The filter -/

/-- `filter_arg_t`: the pattern, and the guards with their lists of instruction lists. -/
structure FilterArg where
  inputVariant : Variant
  guards : List (Option Expr × List (List FilterInstr))

namespace FilterArg

/-- `FilterIsBypass`. -/
def isBypass (f : FilterArg) : Bool :=
  decide (f.inputVariant = .createEmpty) &&
    match f.guards with
    | [(_, [[.createRecord]])] => true
    | _ => false

/-- `SNetRecCreate` with the interface number and the mode of the input. -/
def createRec (detref : Option (List DetrefId)) (inRec : Record V) : Record V :=
  { fields := .empty, tags := .empty, btags := .empty, interfaceId := inRec.interfaceId, mode := inRec.mode, detref }

def makeRec (f : FilterArg) (detref : Option (List DetrefId)) (inRec : Record V)
    (instrs : List FilterInstr) : Outcome (Record V) :=
  (FilterInstr.execAll inRec instrs (createRec detref inRec)).bind fun outRec =>
    .done (flowInherit f.inputVariant inRec outRec)

section Loops

variable {σ : Type} (f : FilterArg) (detref : Option (List DetrefId)) (write : σ → Record V → σ)
  (inRec : Record V)

def forLists : List (List FilterInstr) → σ → Outcome σ
  | [], s => .done s
  | instrs :: lists, s =>
    (f.makeRec detref inRec instrs).bind fun outRec => forLists lists (write s outRec)

def forGuards : List (Option Expr × List (List FilterInstr)) → Bool → σ → Outcome (Bool × σ)
  | [], done, s => .done (done, s)
  | (expr, lists) :: guards, done, s =>
    (SNetEevaluateBool expr inRec).bind fun holds =>
      if holds && !done then
        (forLists f detref write inRec lists s).bind fun s => forGuards guards true s
      else forGuards guards done s

end Loops

/-- `FilterTask` for a data record: the records that it writes. -/
def filterTask (f : FilterArg) (inRec : Record V) : Outcome (List (Record V)) :=
  (f.forGuards none (fun outs outRec => outs ++ [outRec]) inRec f.guards false []).bind
    fun (done, outs) => if done then .done outs else .fault

/-- `ApplyFilter`: the records that it writes and the one that it returns. -/
def applyFilter (f : FilterArg) (inRec : Record V) : Outcome (List (Record V) × Option (Record V)) :=
  (f.forGuards inRec.detref (fun (outs, last) outRec => (outs ++ last.toList, some outRec)) inRec
    f.guards false ([], none)).bind fun (done, s) => if done then .done s else .fault

/-- `SNetNodeFilter` for a data record: the records that it and `ApplyFilter` write. -/
def nodeFilter (f : FilterArg) (inRec : Record V) : Outcome (List (Record V)) :=
  (f.applyFilter inRec).bind fun (outs, last) => .done (outs ++ last.toList)

def chosen (inRec : Record V) : List (Option Expr × List (List FilterInstr)) → Option (List (List FilterInstr))
  | [] => none
  | (expr, lists) :: guards =>
    match SNetEevaluateBool expr inRec with
    | .done true => some lists
    | _ => chosen inRec guards

variable {σ : Type} {f : FilterArg} {detref : Option (List DetrefId)} {inRec : Record V}

/-! ### What is written -/

theorem forLists_done {write : σ → Record V → σ} {lists : List (List FilterInstr)} {s s' : σ}
    (h : f.forLists detref write inRec lists s = .done s') :
    ∃ outs, List.Forall₂ (fun instrs out => f.makeRec detref inRec instrs = .done out) lists outs ∧
      s' = outs.foldl write s := by
  induction lists generalizing s with
  | nil =>
    cases h
    exact ⟨[], .nil, rfl⟩
  | cons instrs lists ih =>
    obtain ⟨out, hmake, h⟩ := Outcome.bind_eq_done.1 h
    obtain ⟨outs, hall, rfl⟩ := ih h
    exact ⟨out :: outs, .cons hmake hall, rfl⟩

theorem forGuards_after {write : σ → Record V → σ}
    {guards : List (Option Expr × List (List FilterInstr))} {s : σ} {p : Bool × σ}
    (h : f.forGuards detref write inRec guards true s = .done p) : p = (true, s) := by
  induction guards with
  | nil =>
    cases h
    rfl
  | cons guard guards ih =>
    obtain ⟨holds, -, h⟩ := Outcome.bind_eq_done.1 h
    rw [Bool.not_true, Bool.and_false] at h
    exact ih h

theorem forGuards_done {write : σ → Record V → σ}
    {guards : List (Option Expr × List (List FilterInstr))} {s s' : σ}
    (h : f.forGuards detref write inRec guards false s = .done (true, s')) :
    ∃ lists outs, chosen inRec guards = some lists ∧
      List.Forall₂ (fun instrs out => f.makeRec detref inRec instrs = .done out) lists outs ∧
      s' = outs.foldl write s := by
  induction guards with
  | nil => cases h
  | cons guard guards ih =>
    obtain ⟨expr, lists⟩ := guard
    obtain ⟨holds, hguard, h⟩ := Outcome.bind_eq_done.1 h
    rw [chosen, hguard]
    cases holds with
    | false => exact ih h
    | true =>
      obtain ⟨s'', hlists, h⟩ := Outcome.bind_eq_done.1 h
      obtain ⟨outs, hall, rfl⟩ := forLists_done hlists
      cases forGuards_after h
      exact ⟨lists, outs, rfl, hall, rfl⟩

theorem foldl_append (outs outs' : List (Record V)) :
    outs'.foldl (fun outs out => outs ++ [out]) outs = outs ++ outs' := by
  induction outs' generalizing outs with
  | nil => rw [foldl_nil, append_nil]
  | cons out outs' ih => rw [foldl_cons, ih, append_assoc, singleton_append]

theorem foldl_last (outs' outs : List (Record V)) (last : Option (Record V)) :
    let p := outs'.foldl (fun (outs, last) out => (outs ++ last.toList, some out)) (outs, last)
    p.1 ++ p.2.toList = outs ++ last.toList ++ outs' := by
  induction outs' generalizing outs last with
  | nil => exact (append_nil _).symm
  | cons out outs' ih => exact (ih _ _).trans (append_assoc _ _ _)

theorem filterTask_done {outs : List (Record V)} (h : f.filterTask inRec = .done outs) :
    ∃ lists, chosen inRec f.guards = some lists ∧
      List.Forall₂ (fun instrs out => f.makeRec none inRec instrs = .done out) lists outs := by
  obtain ⟨⟨done, outs'⟩, hguards, h⟩ := Outcome.bind_eq_done.1 h
  cases done with
  | false => cases h
  | true =>
    cases h
    obtain ⟨lists, outs, hchosen, hall, rfl⟩ := forGuards_done hguards
    exact ⟨lists, hchosen, by rwa [foldl_append]⟩

theorem nodeFilter_done {outs : List (Record V)} (h : f.nodeFilter inRec = .done outs) :
    ∃ lists, chosen inRec f.guards = some lists ∧
      List.Forall₂ (fun instrs out => f.makeRec inRec.detref inRec instrs = .done out) lists outs := by
  obtain ⟨p, happly, h⟩ := Outcome.bind_eq_done.1 h
  obtain ⟨⟨done, s⟩, hguards, happly⟩ := Outcome.bind_eq_done.1 happly
  cases done with
  | false => cases happly
  | true =>
    cases happly
    cases h
    obtain ⟨lists, outs, hchosen, hall, rfl⟩ := forGuards_done hguards
    refine ⟨lists, hchosen, ?_⟩
    rw [foldl_last]
    exact hall

/-! ## Inheritance -/

/-- The record has what the instructions set and inherits the rest: the labels of fields and tags that
the pattern does not name and no instruction sets. -/
structure Inherits (pat : Variant) (inRec : Record V) (instrs : List FilterInstr) (out : Record V) :
    Prop where
  set : ∀ ℓ instr, FilterInstr.lastSetting ℓ instrs = some instr →
    ∃ v, instr.value inRec = .done v ∧ out.item? ℓ = some v
  inherited : ∀ ℓ v, FilterInstr.lastSetting ℓ instrs = none → pat.leaves ℓ = true →
    inRec.item? ℓ = some v → out.item? ℓ = some v
  other : ∀ ℓ v, out.item? ℓ = some v → FilterInstr.lastSetting ℓ instrs = none →
    pat.leaves ℓ = true ∧ inRec.item? ℓ = some v

/-- A label of a field or a tag that an instruction sets is named by the pattern, or the input does not
have it, or it has it with the value that is set. -/
def KeepsSet (pat : Variant) (inRec : Record V) (instrs : List FilterInstr) : Prop :=
  ∀ ℓ instr v, FilterInstr.lastSetting ℓ instrs = some instr → pat.leaves ℓ = true →
    inRec.item? ℓ = some v → instr.value inRec = .done v

theorem item?_createRec (ℓ : ItemLabel) : (createRec detref inRec).item? ℓ = none := by
  cases ℓ <;> rfl

theorem makeRec_inherits_iff {instrs : List FilterInstr} {out : Record V}
    (h : f.makeRec detref inRec instrs = .done out) :
    Inherits f.inputVariant inRec instrs out ↔ KeepsSet f.inputVariant inRec instrs := by
  obtain ⟨made, hexec, h⟩ := Outcome.bind_eq_done.1 h
  cases h
  constructor
  · rintro ⟨hset, -, -⟩ ℓ instr v hlast hleaves hin
    obtain ⟨w, hw, hout⟩ := hset ℓ instr hlast
    rw [item?_flowInherit, if_pos hleaves, hin, Option.some_or] at hout
    cases hout
    exact hw
  · intro hkeeps
    refine ⟨fun ℓ instr hlast => ?_, fun ℓ v hlast hleaves hin => ?_, fun ℓ v hout hlast => ?_⟩
    · rcases FilterInstr.item?_execAll hexec ℓ with ⟨hnone, -⟩ | ⟨instr', v, hsome, hv, hmade⟩
      · rw [hlast] at hnone
        cases hnone
      · rw [hlast] at hsome
        cases hsome
        refine ⟨v, hv, ?_⟩
        rw [item?_flowInherit]
        split
        case isFalse => exact hmade
        case isTrue hleaves =>
          cases hin : inRec.item? ℓ with
          | none => exact hmade
          | some w =>
            have := hkeeps ℓ instr w hlast hleaves hin
            rw [hv] at this
            cases this
            rfl
    · rw [item?_flowInherit, if_pos hleaves, hin, Option.some_or]
    · rcases FilterInstr.item?_execAll hexec ℓ with ⟨-, hmade⟩ | ⟨instr', w, hsome, -, -⟩
      · rw [item?_createRec] at hmade
        rw [item?_flowInherit, hmade, Option.or_none] at hout
        split at hout
        case isTrue hleaves => exact ⟨hleaves, hout⟩
        case isFalse => cases hout
      · rw [hlast] at hsome
        cases hsome

/-- For every record that a filter writes: it has the values that the instructions compute, and inherits
the other labels that the pattern does not name, if and only if no label that an instruction sets is
inherited with another value. -/
theorem filter_inherits_iff (f : FilterArg) (inRec : Record V) {outs : List (Record V)}
    (h : f.filterTask inRec = .done outs ∨ f.nodeFilter inRec = .done outs) :
    ∃ lists, chosen inRec f.guards = some lists ∧
      List.Forall₂ (fun instrs out => Inherits f.inputVariant inRec instrs out ↔
        KeepsSet f.inputVariant inRec instrs) lists outs := by
  rcases h with h | h
  · obtain ⟨lists, hchosen, hall⟩ := filterTask_done h
    exact ⟨lists, hchosen, hall.imp fun _ _ => makeRec_inherits_iff⟩
  · obtain ⟨lists, hchosen, hall⟩ := nodeFilter_done h
    exact ⟨lists, hchosen, hall.imp fun _ _ => makeRec_inherits_iff⟩

def setsOne : FilterArg :=
  { inputVariant := .createEmpty, guards := [(none, [[.snetTag 1 (some (.CONSTI 1))]])] }

def taggedFive : Record Int :=
  { fields := .empty, tags := ⟨[(1, 5)], by decide⟩, btags := .empty, interfaceId := 0, mode := .binary, detref := none }

/-- The tag that has been set is overwritten with the one of the input. -/
theorem inherited_over_set :
    setsOne.filterTask taggedFive = .done [taggedFive] ∧ setsOne.nodeFilter taggedFive = .done [taggedFive] ∧
      ¬Inherits setsOne.inputVariant taggedFive [.snetTag 1 (some (.CONSTI 1))] taggedFive := by
  refine ⟨rfl, rfl, fun h => ?_⟩
  obtain ⟨v, hv, hout⟩ := h.set (.tag 1) _ rfl
  cases hv
  cases hout

theorem filter_inherits_tagged :
    ∃ lists, chosen taggedFive setsOne.guards = some lists ∧
      List.Forall₂ (fun instrs out => Inherits setsOne.inputVariant taggedFive instrs out ↔
        KeepsSet setsOne.inputVariant taggedFive instrs) lists [taggedFive] :=
  filter_inherits_iff setsOne taggedFive (Or.inl rfl)

end FilterArg

/-! ## Filters that are left out -/

namespace LabelMap

variable {α : Type}

theorem setEntries_of_notMem {name : Int} {v : α} {es : List (Int × α)} (h : name ∉ es.map Prod.fst) :
    setEntries name v es = es ++ [(name, v)] := by
  induction es with
  | nil => rfl
  | cons e es ih =>
    rw [map_cons, mem_cons, not_or] at h
    rw [setEntries, if_neg (Ne.symm h.1), ih h.2, cons_append]

theorem entries_foldl_set {keep : Int → Bool} (hkeep : ∀ name, keep name = true)
    (es : List (Int × α)) (dst : LabelMap α) (h : ((dst.entries ++ es).map Prod.fst).Nodup) :
    (es.foldl (fun m e => if keep e.1 then m.set e.1 e.2 else m) dst).entries = dst.entries ++ es := by
  induction es generalizing dst with
  | nil => exact (append_nil _).symm
  | cons e es ih =>
    have hnot : e.1 ∉ dst.entries.map Prod.fst := by
      rw [map_append, map_cons] at h
      exact fun hmem => (nodup_append.1 h).2.2 _ hmem _ mem_cons_self rfl
    have hset : (dst.set e.1 e.2).entries = dst.entries ++ [e] := setEntries_of_notMem hnot
    rw [foldl_cons, if_pos (hkeep e.1), ih, hset, append_assoc, singleton_append]
    rwa [hset, append_assoc, singleton_append]

theorem copyWhere_empty {keep : Int → Bool} (hkeep : ∀ name, keep name = true) (m : LabelMap α) :
    copyWhere keep m empty = m := by
  have h := entries_foldl_set hkeep m.entries empty m.nodup
  rw [show (empty : LabelMap α).entries = [] from rfl, nil_append] at h
  obtain ⟨entries, hnodup⟩ := m
  rw [LabelMap.mk.injEq]
  exact h

end LabelMap

namespace FilterArg

variable {f : FilterArg} {inRec : Record V}

theorem isBypass_iff : f.isBypass = true ↔
    f.inputVariant = .createEmpty ∧ ∃ expr, f.guards = [(expr, [[.createRecord]])] := by
  rw [isBypass, Bool.and_eq_true, decide_eq_true_eq]
  refine and_congr_right fun _ => ⟨fun h => ?_, fun ⟨expr, h⟩ => by rw [h]⟩
  split at h
  case h_1 expr heq => exact ⟨expr, heq⟩
  case h_2 => cases h

theorem makeRec_bypass (detref : Option (List DetrefId)) (hpat : f.inputVariant = .createEmpty) :
    f.makeRec detref inRec [.createRecord] = .done { inRec with btags := .empty, detref } := by
  have hfields : inRec.fields.copyWhere (fun name => !f.inputVariant.hasField name) .empty = inRec.fields :=
    LabelMap.copyWhere_empty (fun name => by rw [hpat]; rfl) _
  have htags : inRec.tags.copyWhere (fun name => !f.inputVariant.hasTag name) .empty = inRec.tags :=
    LabelMap.copyWhere_empty (fun name => by rw [hpat]; rfl) _
  simp only [makeRec, FilterInstr.execAll, FilterInstr.exec, createRec, flowInherit, hfields, htags,
    Outcome.done_bind]

/-- The records have the same fields, tags and binding tags, the same mode and the same interface. -/
structure Same (out inRec : Record V) : Prop where
  fields : out.fields = inRec.fields
  tags : out.tags = inRec.tags
  btags : out.btags = inRec.btags
  mode : out.mode = inRec.mode
  interfaceId : out.interfaceId = inRec.interfaceId

theorem same_bypass_iff (detref : Option (List DetrefId)) :
    Same { inRec with btags := .empty, detref } inRec ↔ inRec.btags = .empty :=
  ⟨fun h => h.btags.symm, fun h => ⟨rfl, rfl, h.symm, rfl, rfl⟩⟩

/-- A filter that is left out would write the record itself, in either runtime, if and only if the record
has no binding tags. -/
theorem bypass_agrees_iff (hbypass : f.isBypass = true)
    (hguard : ∀ guard ∈ f.guards, SNetEevaluateBool guard.1 inRec = .done true) :
    ((∃ out, f.filterTask inRec = .done [out] ∧ Same out inRec) ↔ inRec.btags = .empty) ∧
      ((∃ out, f.nodeFilter inRec = .done [out] ∧ Same out inRec) ↔ inRec.btags = .empty) := by
  obtain ⟨hpat, expr, hguards⟩ := isBypass_iff.1 hbypass
  have hexpr : SNetEevaluateBool expr inRec = .done true := hguard _ (by rw [hguards]; exact mem_cons_self)
  constructor
  · have hdone : f.filterTask inRec = .done [{ inRec with btags := .empty, detref := none }] := by
      rw [filterTask, hguards, forGuards, hexpr, Outcome.done_bind]
      simp only [forLists, forGuards, makeRec_bypass none hpat, Outcome.done_bind]
      rfl
    rw [hdone, ← same_bypass_iff none]
    exact ⟨fun ⟨out, h, hsame⟩ => by cases h; exact hsame, fun h => ⟨_, rfl, h⟩⟩
  · have hdone : f.nodeFilter inRec = .done [{ inRec with btags := .empty }] := by
      rw [nodeFilter, applyFilter, hguards, forGuards, hexpr, Outcome.done_bind]
      simp only [forLists, forGuards, makeRec_bypass inRec.detref hpat, Outcome.done_bind]
      rfl
    rw [hdone, ← same_bypass_iff inRec.detref]
    exact ⟨fun ⟨out, h, hsame⟩ => by cases h; exact hsame, fun h => ⟨_, rfl, h⟩⟩

def emptyFilter : FilterArg := { inputVariant := .createEmpty, guards := [(none, [[.createRecord]])] }

def bound : Record Int :=
  { fields := .empty, tags := .empty, btags := ⟨[(1, 5)], by decide⟩, interfaceId := 0, mode := .binary, detref := none }

theorem bypass_drops_btags :
    emptyFilter.isBypass = true ∧
      (∀ guard ∈ emptyFilter.guards, SNetEevaluateBool guard.1 bound = .done true) ∧
      (¬∃ out, emptyFilter.filterTask bound = .done [out] ∧ Same out bound) ∧
      ¬∃ out, emptyFilter.nodeFilter bound = .done [out] ∧ Same out bound := by
  refine ⟨rfl, by simp [emptyFilter, SNetEevaluateBool], ?_, ?_⟩
  · rintro ⟨out, h, hsame⟩
    cases h
    cases hsame.btags
  · rintro ⟨out, h, hsame⟩
    cases h
    cases hsame.btags

theorem bypass_agrees_tagged :
    ((∃ out, emptyFilter.filterTask taggedFive = .done [out] ∧ Same out taggedFive) ↔
        taggedFive.btags = .empty) ∧
      ((∃ out, emptyFilter.nodeFilter taggedFive = .done [out] ∧ Same out taggedFive) ↔
        taggedFive.btags = .empty) :=
  bypass_agrees_iff rfl (by simp [emptyFilter, SNetEevaluateBool])

end FilterArg

end SNet
