import SNetRts.Netif.Parser

/-!
# The parser and its current record

Each call of the parser begins without a current record and without an error. Its actions use the
current record only if that is a data record, and each record that is created goes to exactly one
place, unless a record of an unknown type, of none or of type `terminate` has entities that set
something in it, or a record of an unknown type or of none has the short form: then the actions go on
with a record that is not there.
-/

namespace SNet.Netif

open Lib List

variable {V : Type}

/-! ## What is asked of the parser -/

/-- Every record that has been created is in one place: it has been written, destroyed or given to
the caller, or it is the current record; and only the current record is there. -/
structure Accounted (p : Parser V) : Prop where
  once : ∀ n, (p.written.map Prod.fst).count n + p.destroyed.count n + (p.handed.map Prod.fst).count n +
    p.record.toList.count n = if n < p.created then 1 else 0
  live : ∀ n, (p.heap n).isSome = true ↔ p.record = some n

/-- What is asked of a call: it makes no use of a record that is not there or of another kind, and
accounts for all records. After a document the record remains only where there is no stream to write
it to, and if it has not been rejected: there is no error, and nothing has been destroyed but what was
left from before. -/
def Sound (output : Bool) (p : Parser V) (c : Call V) (o : Outcome (Parser V)) : Prop :=
  o ≠ .fault ∧ ∀ p', o = .done p' → Accounted p' ∧ ∀ d, c.input = .document d →
    p'.record.isSome = true → output = false ∧ c.getNext = false ∧ p'.terminate ≠ .error ∧
      p'.destroyed = p.destroyed ++ p.record.toList

/-! ## The condition -/

def Entity.stops : Entity V → Bool
  | .fieldShort _ => true
  | .field ats _ | .tag ats _ | .btag ats _ =>
    match attributes ats with
    | .done _ => false
    | _ => true

/-- The entity has its actions use the current record even if there is none: a tag that has a label,
or a field that names a known interface. -/
def Entity.usesRecord (interfaces : List Text) : Entity V → Bool
  | .fieldShort _ => false
  | .field ats _ =>
    match attributes ats with
    | .done ats =>
      match searchAttribute ats INTERFACE with
      | some finterface => interfaceToId interfaces finterface ≠ INTERFACE_UNKNOWN
      | none => false
    | _ => false
  | .tag ats _ | .btag ats _ =>
    match attributes ats with
    | .done ats => (searchAttribute ats LABEL).isSome
    | _ => false

def harmless (interfaces : List Text) (es : List (Entity V)) : Bool :=
  (es.takeWhile fun e => !e.stops).all fun e => !e.usesRecord interfaces

/-- The record is a data record, or of a type that stops the program; or, if `others` is true, one of
another type. -/
def typed (ats : List Attribute) (others : Option Text → Bool) : Bool :=
  match attributes ats with
  | .done ats =>
    match searchAttribute ats TYPE with
    | some type => type = "data".toList || type ∈ notImplemented || others (some type)
    | none => others none
  | _ => true

/-- In its short form a record has a known type. In its long form it is a data record, or of a type
that stops the program, or its entities are harmless. -/
def Proper (interfaces : List Text) : Input V → Bool
  | .document (.short ats) => typed ats fun type => type = some "terminate".toList
  | .document (.long ats es) | .syntaxErrorIn ats es => typed ats fun _ => harmless interfaces es
  | .syntaxError => true

/-! ## Records and their fate -/

/-- The actions have left all records where they were. -/
structure Kept (p p' : Parser V) : Prop where
  record : p'.record = p.record
  created : p'.created = p.created
  written : p'.written = p.written
  destroyed : p'.destroyed = p.destroyed
  handed : p'.handed = p.handed
  interface : p'.interface = p.interface
  live : ∀ n, (p'.heap n).isSome = (p.heap n).isSome
  terminate : (p'.terminate = .terminate ↔ p.terminate = .terminate) ∧
    (p.terminate = .error → p'.terminate = .error)

namespace Kept

variable {p p' p'' : Parser V}

theorem refl (p : Parser V) : Kept p p :=
  ⟨rfl, rfl, rfl, rfl, rfl, rfl, fun _ => rfl, Iff.rfl, id⟩

theorem trans (h : Kept p p') (h' : Kept p' p'') : Kept p p'' :=
  ⟨h'.record.trans h.record, h'.created.trans h.created, h'.written.trans h.written,
    h'.destroyed.trans h.destroyed, h'.handed.trans h.handed, h'.interface.trans h.interface,
    fun n => (h'.live n).trans (h.live n), h'.terminate.1.trans h.terminate.1,
    fun he => h'.terminate.2 (h.terminate.2 he)⟩

theorem yyerror (p : Parser V) : Kept p p.yyerror := by
  unfold Parser.yyerror
  split
  · rename_i h
    exact ⟨rfl, rfl, rfl, rfl, rfl, rfl, fun _ => rfl, ⟨fun e => (nomatch e), fun e => absurd e h⟩,
      fun _ => rfl⟩
  · exact refl p

theorem labels (p : Parser V) (labels : LabelTable) : Kept p { p with labels := labels } :=
  ⟨rfl, rfl, rfl, rfl, rfl, rfl, fun _ => rfl, Iff.rfl, id⟩

theorem accounted (h : Kept p p') (hp : Accounted p) : Accounted p' := by
  refine ⟨fun n => ?_, fun n => ?_⟩
  · rw [h.written, h.destroyed, h.handed, h.record, h.created]
    exact hp.once n
  · rw [h.live, h.record]
    exact hp.live n

end Kept

namespace Accounted

variable {p : Parser V}

theorem current_eq (h : Accounted p) {at' : Nat} (hat : p.record = some at') :
    ∃ r, p.heap at' = some r ∧ p.current = some (at', r) := by
  obtain ⟨r, hr⟩ := Option.isSome_iff_exists.1 ((h.live at').2 hat)
  refine ⟨r, hr, ?_⟩
  simp [Parser.current, hat, hr]

theorem current_none (hat : p.record = none) : p.current = none := by
  simp [Parser.current, hat]

theorem create (h : Accounted p) (hnone : p.record = none) (r : Rec V) : Accounted (p.create r) := by
  refine ⟨fun n => ?_, fun n => ?_⟩
  · have hn := h.once n
    simp only [hnone, Option.toList_none, count_nil, Nat.add_zero] at hn
    simp only [Parser.create, Option.toList_some, count_singleton, hn]
    by_cases hlt : n < p.created
    · simp [hlt, Nat.lt_succ_of_lt hlt, Nat.ne_of_gt hlt]
    · by_cases heq : p.created = n
      · simp [heq]
      · have : ¬ n < p.created + 1 := by omega
        simp [hlt, heq, this]
  · simp only [Parser.create]
    by_cases hn : n = p.created
    · subst hn
      simp
    · rw [Function.update_of_ne hn, h.live n, hnone]
      simp [Ne.symm hn]

theorem gone {p' : Parser V} (h : Accounted p) {at' : Nat} (hat : p.record = some at')
    (hrecord : p'.record = none) (hcreated : p'.created = p.created)
    (hheap : p'.heap = Function.update p.heap at' none)
    (hcount : ∀ n, (p'.written.map Prod.fst).count n + p'.destroyed.count n +
      (p'.handed.map Prod.fst).count n = (p.written.map Prod.fst).count n + p.destroyed.count n +
        (p.handed.map Prod.fst).count n + [at'].count n) : Accounted p' := by
  refine ⟨fun n => ?_, fun n => ?_⟩
  · have hn := h.once n
    rw [hat] at hn
    rw [hrecord, hcreated, ← hn, hcount n]
    rfl
  · rw [hheap, hrecord]
    by_cases hn : n = at'
    · simp [hn]
    · rw [Function.update_of_ne hn, h.live n, hat]
      simp [Ne.symm hn]

theorem destroy (h : Accounted p) {at' : Nat} (hat : p.record = some at') :
    ∃ p', p.destroy = .done p' ∧ Accounted p' ∧ p'.record = none ∧ p'.terminate = p.terminate ∧
      p'.destroyed = p.destroyed ++ [at'] := by
  obtain ⟨r, hr, hcur⟩ := h.current_eq hat
  unfold Parser.destroy
  simp only [hcur]
  refine ⟨_, rfl, h.gone hat rfl rfl rfl fun n => ?_, rfl, rfl, rfl⟩
  simp only [count_append]
  omega

theorem write (h : Accounted p) {at' : Nat} (hat : p.record = some at') :
    ∃ p', p.write true = .done p' ∧ Accounted p' ∧ p'.record = none ∧ p'.terminate = p.terminate := by
  obtain ⟨r, hr, hcur⟩ := h.current_eq hat
  unfold Parser.write
  simp only [if_true, hcur]
  refine ⟨_, rfl, h.gone hat rfl rfl rfl fun n => ?_, rfl, rfl⟩
  simp only [map_append, count_append, map_cons, map_nil]
  omega

theorem handOver (h : Accounted p) : ∃ p', p.handOver = .done p' ∧ Accounted p' ∧ p'.record = none := by
  unfold Parser.handOver
  cases hat : p.record with
  | none => exact ⟨p, rfl, h, hat⟩
  | some at' =>
    obtain ⟨r, hr, hcur⟩ := h.current_eq hat
    simp only [Option.isSome_some, if_true, hcur]
    refine ⟨_, rfl, h.gone hat rfl rfl rfl fun n => ?_, rfl⟩
    simp only [map_append, count_append, map_cons, map_nil]
    omega

end Accounted

/-! ## Entities of a data record -/

def OnData (p : Parser V) : Prop := ∃ at' d, p.record = some at' ∧ p.heap at' = some (.data d)

theorem OnData.current {p : Parser V} (h : OnData p) : ∃ at' d, p.current = some (at', .data d) := by
  obtain ⟨at', d, h1, h2⟩ := h
  exact ⟨at', d, by simp [Parser.current, h1, h2]⟩

/-- A computation that goes well on a data record, and leaves it one. -/
def Safe (p : Parser V) (o : Outcome (Parser V)) : Prop :=
  o ≠ .fault ∧ ∀ p', o = .done p' → Kept p p' ∧ OnData p'

namespace Safe

variable {p : Parser V}

theorem blocked : Safe p .blocked := ⟨nofun, nofun⟩

theorem done (h : OnData p) {p' : Parser V} (hk : Kept p p') (hheap : p'.heap = p.heap) :
    Safe p (.done p') := by
  refine ⟨nofun, fun q hq => ?_⟩
  cases hq
  obtain ⟨at', d, h1, h2⟩ := h
  exact ⟨hk, at', d, hk.record.trans h1, hheap ▸ h2⟩

theorem onData (h : OnData p) (f : Record (Ref V) → Record (Ref V)) : Safe p (p.onData f) := by
  obtain ⟨at', d, h1, h2⟩ := h
  have hcur : p.current = some (at', .data d) := by simp [Parser.current, h1, h2]
  unfold Parser.onData
  simp only [hcur]
  refine ⟨nofun, fun q hq => ?_⟩
  cases hq
  refine ⟨⟨rfl, rfl, rfl, rfl, rfl, rfl, fun n => ?_, Iff.rfl, id⟩, at', f d, h1, Function.update_self ..⟩
  change (Function.update p.heap at' _ n).isSome = _
  by_cases hn : n = at'
  · rw [hn, Function.update_self, h2]
    rfl
  · rw [Function.update_of_ne hn]

theorem of_kept {p' : Parser V} {o : Outcome (Parser V)} (hk : Kept p p') (h : Safe p' o) : Safe p o :=
  ⟨h.1, fun q hq => ⟨hk.trans (h.2 q hq).1, (h.2 q hq).2⟩⟩

theorem bind {o : Outcome (Parser V)} (h : Safe p o) {f : Parser V → Outcome (Parser V)}
    (hf : ∀ p', OnData p' → Safe p' (f p')) : Safe p (o.bind f) := by
  cases o with
  | blocked => exact blocked
  | fault => exact absurd rfl h.1
  | done p' =>
    obtain ⟨hk, hd⟩ := h.2 p' rfl
    exact of_kept hk (hf p' hd)

end Safe

theorem attributes_ne_fault (ats : List Attribute) : attributes ats ≠ .fault := by
  induction ats with
  | nil => nofun
  | cons a ats ih =>
    unfold attributes
    cases h : attributes ats with
    | blocked => nofun
    | fault => exact absurd h ih
    | done as =>
      rw [Outcome.done_bind]
      split
      · split <;> nofun
      · nofun

theorem OnData.labels {p : Parser V} (h : OnData p) (labels : LabelTable) :
    OnData { p with labels := labels } := h

theorem OnData.yyerror {p : Parser V} (h : OnData p) : OnData p.yyerror := by
  obtain ⟨at', d, h1, h2⟩ := h
  refine ⟨at', d, (Kept.yyerror p).record.trans h1, ?_⟩
  unfold Parser.yyerror
  split <;> exact h2

theorem yyerror_heap (p : Parser V) : p.yyerror.heap = p.heap := by
  unfold Parser.yyerror
  split <;> rfl

theorem Safe.labelled {p : Parser V} (h : OnData p)
    {set : Parser V → Int → Int → Outcome (Parser V)}
    (hset : ∀ q n v, OnData q → Safe q (set q n v)) (ats : List Attribute) (val : Int) :
    Safe p (p.labelled set ats val) := by
  unfold Parser.labelled
  split
  · exact of_kept (Kept.labels p _) (hset _ _ _ (h.labels _))
  · exact done h (Kept.yyerror p) (yyerror_heap p)

theorem fieldLabel_kept (ats : List Attribute) (p : Parser V) :
    Kept p (p.fieldLabel ats).2 ∧ (p.fieldLabel ats).2.heap = p.heap := by
  unfold Parser.fieldLabel
  split
  · exact ⟨Kept.labels p _, rfl⟩
  · exact ⟨Kept.yyerror p, yyerror_heap p⟩

theorem fieldInterface_safe (interfaces : List Text) (ats : List Attribute) {p : Parser V}
    (h : OnData p) : p.fieldInterface interfaces ats ≠ .fault ∧
      ∀ i p', p.fieldInterface interfaces ats = .done (i, p') → Kept p p' ∧ OnData p' := by
  have hquiet : ∀ (i i' : Int) (p' : Parser V), Outcome.done (i, p) = .done (i', p') →
      Kept p p' ∧ OnData p' := by
    intro i i' p' heq
    cases heq
    exact ⟨Kept.refl p, h⟩
  have herror : ∀ (i i' : Int) (p' : Parser V), Outcome.done (i, p.yyerror) = .done (i', p') →
      Kept p p' ∧ OnData p' := by
    intro i i' p' heq
    cases heq
    exact ⟨Kept.yyerror p, h.yyerror⟩
  obtain ⟨at', d, hcur⟩ := h.current
  unfold Parser.fieldInterface
  cases searchAttribute ats INTERFACE with
  | none => exact ⟨nofun, fun i => hquiet _ i⟩
  | some finterface =>
    dsimp only
    split
    · split
      · exact ⟨nofun, fun i => herror _ i⟩
      · exact ⟨nofun, fun i => hquiet _ i⟩
    · split
      · exact ⟨nofun, fun i => herror _ i⟩
      · have hget : p.getInterfaceId = .done d.interfaceId := by
          unfold Parser.getInterfaceId
          simp only [hcur]
        rw [hget, Outcome.done_bind]
        split
        · have hsafe : Safe p (p.setInterfaceId (interfaceToId interfaces finterface)) :=
            Safe.onData h _
          cases hset : p.setInterfaceId (interfaceToId interfaces finterface) with
          | blocked => exact ⟨nofun, nofun⟩
          | fault => exact absurd hset hsafe.1
          | done q =>
            refine ⟨nofun, fun i p' heq => ?_⟩
            cases heq
            exact hsafe.2 q hset
        · split
          · exact ⟨nofun, fun i => herror _ i⟩
          · exact ⟨nofun, fun i => hquiet _ i⟩

theorem Safe.field {interfaces : List Text} {ats : List Attribute} {p : Parser V} (h : OnData p)
    (read : Int → DataMode → Option V) : Safe p (p.field interfaces ats read) := by
  obtain ⟨hk, hheap⟩ := fieldLabel_kept ats p
  have hlab : OnData (p.fieldLabel ats).2 := by
    obtain ⟨at', d, h1, h2⟩ := h
    exact ⟨at', d, hk.record.trans h1, hheap ▸ h2⟩
  obtain ⟨hne, hdone⟩ := fieldInterface_safe interfaces ats hlab
  refine of_kept hk ?_
  unfold Parser.field
  cases hi : (p.fieldLabel ats).2.fieldInterface interfaces ats with
  | blocked => exact blocked
  | fault => exact absurd hi hne
  | done r =>
    obtain ⟨iid, q⟩ := r
    obtain ⟨hkq, hq⟩ := hdone iid q hi
    refine of_kept hkq ?_
    rw [Outcome.done_bind]
    dsimp only
    split
    · split
      · exact onData hq _
      · exact done hq (Kept.yyerror q) (yyerror_heap q)
    · exact done hq (Kept.refl q) rfl

theorem Safe.entity {interfaces : List Text} {p : Parser V} (h : OnData p) (e : Entity V) :
    Safe p (p.entity interfaces e) := by
  have hats : ∀ (ats : List Attribute) (f : List Attribute → Outcome (Parser V)),
      (∀ as, Safe p (f as)) → Safe p ((attributes ats).bind f) := by
    intro ats f hf
    cases ha : attributes ats with
    | blocked => exact blocked
    | fault => exact absurd ha (attributes_ne_fault ats)
    | done as => exact hf as
  cases e with
  | fieldShort ats => exact hats ats _ fun _ => blocked
  | field ats read => exact hats ats _ fun _ => Safe.field h read
  | tag ats content =>
    exact hats ats _ fun as => Safe.labelled h (fun q n v hq => onData hq _) as _
  | btag ats content =>
    exact hats ats _ fun as => Safe.labelled h (fun q n v hq => onData hq _) as _

theorem Safe.entitys {p : Parser V} (h : OnData p) (interfaces : List Text) (es : List (Entity V)) :
    Safe p (p.entitys interfaces es) := by
  induction es generalizing p with
  | nil => exact done h (Kept.refl p) rfl
  | cons e es ih => exact (Safe.entity h e).bind fun p' hp' => ih hp'

/-! ## Entities where there is no data record -/

/-- The current record is no data record, and no interface has been given. -/
structure NoData (p : Parser V) : Prop where
  current : ∀ at' d, p.current ≠ some (at', .data d)
  interface : p.interface = INTERFACE_UNKNOWN

theorem NoData.onData {p : Parser V} (h : NoData p) (f : Record (Ref V) → Record (Ref V)) :
    p.onData f = .fault := by
  unfold Parser.onData
  split
  · rename_i at' d hcur
    exact absurd hcur (h.current at' d)
  · rfl

theorem NoData.getInterfaceId {p : Parser V} (h : NoData p) : p.getInterfaceId = .fault := by
  unfold Parser.getInterfaceId
  split
  · rename_i at' d hcur
    exact absurd hcur (h.current at' d)
  · rfl

theorem NoData.of_kept {p p' : Parser V} (h : NoData p) (hk : Kept p p') (hheap : p'.heap = p.heap) :
    NoData p' := by
  refine ⟨fun at' d => ?_, hk.interface.trans h.interface⟩
  unfold Parser.current
  rw [hk.record, hheap]
  exact h.current at' d

theorem NoData.labelled {p : Parser V} (h : NoData p)
    {set : Parser V → Int → Int → Outcome (Parser V)} (hset : ∀ q n v, NoData q → set q n v = .fault)
    (ats : List Attribute) (val : Int) :
    p.labelled set ats val =
      if (searchAttribute ats LABEL).isSome then .fault else .done p.yyerror := by
  unfold Parser.labelled
  cases searchAttribute ats LABEL with
  | none => rfl
  | some label => exact hset _ _ _ (h.of_kept (Kept.labels p _) rfl)

theorem NoData.field {p : Parser V} (h : NoData p) (interfaces : List Text) (ats : List Attribute)
    (read : Int → DataMode → Option V) :
    match searchAttribute ats INTERFACE with
    | some finterface =>
      if interfaceToId interfaces finterface ≠ INTERFACE_UNKNOWN then
        p.field interfaces ats read = .fault
      else p.field interfaces ats read = .done (p.fieldLabel ats).2.yyerror
    | none => p.field interfaces ats read = .done (p.fieldLabel ats).2 := by
  obtain ⟨hk, hheap⟩ := fieldLabel_kept ats p
  have hlab := h.of_kept hk hheap
  unfold Parser.field Parser.fieldInterface
  cases searchAttribute ats INTERFACE with
  | none => simp [hlab.interface]
  | some finterface =>
    by_cases hi : interfaceToId interfaces finterface = INTERFACE_UNKNOWN
    · simp [hlab.interface, hi]
    · simp [hlab.interface, hi, hlab.getInterfaceId]

theorem NoData.entity {p : Parser V} (h : NoData p) (interfaces : List Text) (e : Entity V) :
    (e.stops = true ∧ p.entity interfaces e = .blocked) ∨
    (e.stops = false ∧ e.usesRecord interfaces = true ∧ p.entity interfaces e = .fault) ∨
    (e.stops = false ∧ e.usesRecord interfaces = false ∧ ∃ p', p.entity interfaces e = .done p' ∧
      Kept p p' ∧ p'.heap = p.heap) := by
  have hyy : ∀ q : Parser V, Kept p q → q.heap = p.heap →
      Kept p q.yyerror ∧ q.yyerror.heap = p.heap := fun q hk hh =>
    ⟨hk.trans (Kept.yyerror q), (yyerror_heap q).trans hh⟩
  have hlabelled : ∀ (set : Parser V → Int → Int → Outcome (Parser V)) (ats : List Attribute)
      (val : Int), (∀ q n v, NoData q → set q n v = .fault) →
      ((searchAttribute ats LABEL).isSome = true ∧ p.labelled set ats val = .fault) ∨
      ((searchAttribute ats LABEL).isSome = false ∧ ∃ p', p.labelled set ats val = .done p' ∧
        Kept p p' ∧ p'.heap = p.heap) := by
    intro set ats val hset
    rw [h.labelled hset]
    cases (searchAttribute ats LABEL).isSome with
    | true => exact Or.inl ⟨rfl, rfl⟩
    | false => exact Or.inr ⟨rfl, _, rfl, hyy p (Kept.refl p) rfl⟩
  cases e with
  | fieldShort ats =>
    refine Or.inl ⟨rfl, ?_⟩
    change ((attributes ats).bind fun _ => .blocked) = _
    cases ha : attributes ats with
    | blocked => rfl
    | fault => exact absurd ha (attributes_ne_fault ats)
    | done as => rfl
  | field ats read =>
    simp only [Parser.entity, Entity.stops, Entity.usesRecord]
    cases ha : attributes ats with
    | blocked => exact Or.inl ⟨rfl, rfl⟩
    | fault => exact absurd ha (attributes_ne_fault ats)
    | done as =>
      obtain ⟨hk, hheap⟩ := fieldLabel_kept as p
      have hfield := h.field interfaces as read
      dsimp only [Outcome.done_bind]
      cases hs : searchAttribute as INTERFACE with
      | none =>
        rw [hs] at hfield
        exact Or.inr (Or.inr ⟨rfl, rfl, _, hfield, hk, hheap⟩)
      | some finterface =>
        rw [hs] at hfield
        simp only at hfield
        split at hfield
        · rename_i hi
          exact Or.inr (Or.inl ⟨rfl, decide_eq_true hi, hfield⟩)
        · rename_i hi
          exact Or.inr (Or.inr ⟨rfl, decide_eq_false hi, _, hfield, hyy _ hk hheap⟩)
  | tag ats content =>
    simp only [Parser.entity, Entity.stops, Entity.usesRecord]
    cases ha : attributes ats with
    | blocked => exact Or.inl ⟨rfl, rfl⟩
    | fault => exact absurd ha (attributes_ne_fault ats)
    | done as =>
      rcases hlabelled Parser.setTag as ((content.map atoi).getD 0)
        (fun q n v hq => hq.onData _) with h1 | h1
      · exact Or.inr (Or.inl ⟨rfl, h1⟩)
      · exact Or.inr (Or.inr ⟨rfl, h1⟩)
  | btag ats content =>
    simp only [Parser.entity, Entity.stops, Entity.usesRecord]
    cases ha : attributes ats with
    | blocked => exact Or.inl ⟨rfl, rfl⟩
    | fault => exact absurd ha (attributes_ne_fault ats)
    | done as =>
      rcases hlabelled Parser.setBTag as ((content.map atoi).getD 0)
        (fun q n v hq => hq.onData _) with h1 | h1
      · exact Or.inr (Or.inl ⟨rfl, h1⟩)
      · exact Or.inr (Or.inr ⟨rfl, h1⟩)

theorem NoData.entitys {p : Parser V} (h : NoData p) (interfaces : List Text) (es : List (Entity V)) :
    (p.entitys interfaces es = .fault ↔ harmless interfaces es = false) ∧
      ∀ p', p.entitys interfaces es = .done p' → Kept p p' ∧ p'.heap = p.heap := by
  induction es generalizing p with
  | nil =>
    refine ⟨⟨nofun, nofun⟩, fun p' hp' => ?_⟩
    cases hp'
    exact ⟨Kept.refl p, rfl⟩
  | cons e es ih =>
    unfold Parser.entitys
    rcases h.entity interfaces e with ⟨hs, he⟩ | ⟨hs, hu, he⟩ | ⟨hs, hu, q, he, hk, hheap⟩
    · rw [he]
      refine ⟨⟨nofun, fun hh => ?_⟩, nofun⟩
      simp [harmless, hs] at hh
    · rw [he]
      exact ⟨⟨fun _ => by simp [harmless, hs, hu], fun _ => rfl⟩, nofun⟩
    · rw [he, Outcome.done_bind]
      obtain ⟨h1, h2⟩ := ih (h.of_kept hk hheap)
      have hharm : harmless interfaces (e :: es) = harmless interfaces es := by
        simp [harmless, hs, hu]
      rw [hharm]
      exact ⟨h1, fun p' hp' => ⟨hk.trans (h2 p' hp').1, (h2 p' hp').2.trans hheap⟩⟩

/-! ## Records -/

/-- Where `yyparse` begins. -/
structure Fresh (p : Parser V) : Prop where
  accounted : Accounted p
  record : p.record = none
  interface : p.interface = INTERFACE_UNKNOWN
  terminate : p.terminate = .goOn

theorem Fresh.createData {p : Parser V} (h : Fresh p) :
    OnData (p.create (.data (newData V))) ∧ Accounted (p.create (.data (newData V))) :=
  ⟨⟨p.created, _, rfl, Function.update_self ..⟩, h.accounted.create h.record _⟩

theorem OnData.onData {p : Parser V} (h : OnData p) (f : Record (Ref V) → Record (Ref V)) :
    ∃ p', p.onData f = .done p' ∧ Kept p p' ∧ OnData p' ∧ p'.terminate = p.terminate := by
  obtain ⟨at', d, hcur⟩ := h.current
  have hsafe := Safe.onData h f
  unfold Parser.onData at hsafe ⊢
  simp only [hcur] at hsafe ⊢
  exact ⟨_, rfl, (hsafe.2 _ rfl).1, (hsafe.2 _ rfl).2, rfl⟩

theorem Fresh.recordBegin {p : Parser V} (h : Fresh p) (interfaces : List Text) (ats : List Attribute) :
    match searchAttribute ats TYPE with
    | some type =>
      if type = "data".toList then ∃ p', p.recordBegin interfaces ats = .done p' ∧ OnData p' ∧
        Accounted p' ∧ p'.terminate = .goOn ∧ p'.destroyed = p.destroyed
      else if type ∈ notImplemented then p.recordBegin interfaces ats = .blocked
      else if type = "terminate".toList then p.recordBegin interfaces ats = .done p.createTerminate
      else p.recordBegin interfaces ats = .done p.yyerror
    | none => p.recordBegin interfaces ats = .done p.yyerror := by
  unfold Parser.recordBegin Parser.byType
  cases searchAttribute ats TYPE with
  | none => rfl
  | some type =>
    dsimp only
    by_cases hdata : type = "data".toList
    · simp only [if_pos hdata]
      obtain ⟨hd, ha⟩ := h.createData
      -- the two setters keep the record, and the fields that are set between are not about records
      have hmode : OnData ({ p.create (.data (newData V)) with mode := modeOf ats } : Parser V) := hd
      have hk : Kept (p.create (.data (newData V)))
          ({ p.create (.data (newData V)) with mode := modeOf ats } : Parser V) :=
        ⟨rfl, rfl, rfl, rfl, rfl, rfl, fun _ => rfl, Iff.rfl, id⟩
      unfold Parser.setDataMode
      obtain ⟨q, hq, hkq, hdq, htq⟩ := hmode.onData fun d => { d with mode := modeOf ats }
      rw [hq, Outcome.done_bind]
      have haq : Accounted q := (hk.trans hkq).accounted ha
      have hgo : q.terminate = .goOn := htq.trans h.terminate
      have hdes : q.destroyed = p.destroyed := (hk.trans hkq).destroyed
      split
      · rename_i interface _
        have hdi : OnData ({ q with interface := interfaceToId interfaces interface } : Parser V) := hdq
        obtain ⟨q', hq', hkq', hdq', htq'⟩ :=
          hdi.onData fun d => { d with interfaceId := interfaceToId interfaces interface }
        have hai : Accounted ({ q with interface := interfaceToId interfaces interface } : Parser V) :=
          ⟨haq.once, haq.live⟩
        exact ⟨q', hq', hdq', hkq'.accounted hai, htq'.trans hgo, hkq'.destroyed.trans hdes⟩
      · obtain ⟨q', hq', hkq', hdq', htq'⟩ :=
          hdq.onData fun d => { d with interfaceId := INTERFACE_UNKNOWN }
        exact ⟨q', hq', hdq', hkq'.accounted haq, htq'.trans hgo, hkq'.destroyed.trans hdes⟩
    · by_cases hnot : type ∈ notImplemented
      · simp only [if_neg hdata, if_pos hnot]
      · by_cases hterm : type = "terminate".toList
        · simp only [if_neg hdata, if_neg hnot, if_pos hterm]
        · simp only [if_neg hdata, if_neg hnot, if_neg hterm]

/-- What an action at the end of a record comes to: the record is gone, or stays for want of a
stream. -/
def Ended (output : Bool) (p : Parser V) (o : Outcome (Parser V)) : Prop :=
  ∃ p', o = .done p' ∧ Accounted p' ∧ (p'.record.isSome = true → output = false ∧
    p'.terminate ≠ .error ∧ p'.destroyed = p.destroyed)

theorem Accounted.discard {p : Parser V} (h : Accounted p) (hsome : p.record.isSome = true)
    (output : Bool) : Ended output p p.discard := by
  obtain ⟨at', hat⟩ := Option.isSome_iff_exists.1 hsome
  obtain ⟨q, hq, haq, hnone, -, -⟩ := h.destroy hat
  have hk := Kept.yyerror ({ q with interface := INTERFACE_UNKNOWN } : Parser V)
  have ha : Accounted ({ q with interface := INTERFACE_UNKNOWN } : Parser V) := ⟨haq.once, haq.live⟩
  have hay := hk.accounted ha
  unfold Parser.discard
  rw [hq, Outcome.done_bind]
  refine ⟨_, rfl, ⟨hay.once, hay.live⟩, fun hs => ?_⟩
  change (Parser.yyerror _).record.isSome = true at hs
  rw [hk.record, hnone] at hs
  cases hs

theorem Accounted.deliver {p : Parser V} (h : Accounted p) (hsome : p.record.isSome = true)
    (hne : p.terminate ≠ .error) (output : Bool) :
    Ended output p ((p.write output).bind fun p => .done { p with interface := INTERFACE_UNKNOWN }) := by
  obtain ⟨at', hat⟩ := Option.isSome_iff_exists.1 hsome
  cases output with
  | true =>
    obtain ⟨q, hq, haq, hnone, -⟩ := h.write hat
    rw [hq, Outcome.done_bind]
    refine ⟨_, rfl, ⟨haq.once, haq.live⟩, fun hs => ?_⟩
    change q.record.isSome = true at hs
    rw [hnone] at hs
    cases hs
  | false => exact ⟨_, rfl, ⟨h.once, h.live⟩, fun _ => ⟨rfl, hne, rfl⟩⟩

theorem Accounted.recordEnd {p : Parser V} (h : Accounted p) (output : Bool) :
    Ended output p (p.recordEnd output) := by
  unfold Parser.recordEnd
  by_cases hsome : p.record.isSome = true
  · rw [if_pos hsome]
    obtain ⟨at', hat⟩ := Option.isSome_iff_exists.1 hsome
    obtain ⟨r, hr, hcur⟩ := h.current_eq hat
    by_cases hne : p.terminate ≠ .error
    · rw [if_pos hne]
      have hlacks : ∃ lacks, p.lacksInterface = .done lacks := by
        unfold Parser.lacksInterface Parser.getInterfaceId
        rw [hcur]
        cases r with
        | data d => exact ⟨_, rfl⟩
        | terminate => exact ⟨_, rfl⟩
      obtain ⟨lacks, hlacks⟩ := hlacks
      rw [hlacks, Outcome.done_bind]
      cases lacks with
      | true => exact h.discard hsome output
      | false => exact h.deliver hsome hne output
    · rw [if_neg hne]
      exact h.discard hsome output
  · rw [if_neg hsome]
    exact ⟨p, rfl, h, fun hs => absurd hs hsome⟩

theorem Fresh.createTerminate {p : Parser V} (h : Fresh p) : Accounted p.createTerminate ∧
    NoData p.createTerminate ∧ p.createTerminate.record.isSome = true ∧
    p.createTerminate.terminate = .terminate ∧ p.createTerminate.destroyed = p.destroyed := by
  have ha := h.accounted.create h.record .terminate
  have heq : p.createTerminate = { p.create .terminate with terminate := .terminate } := by
    unfold Parser.createTerminate
    have hne : (p.create .terminate).terminate ≠ .error := by
      change p.terminate ≠ .error
      rw [h.terminate]
      nofun
    exact if_pos hne
  rw [heq]
  refine ⟨⟨ha.once, ha.live⟩, ⟨fun at' d hcur => ?_, h.interface⟩, rfl, rfl, rfl⟩
  have : (p.create .terminate).current = some (p.created, .terminate) := by
    simp [Parser.current, Parser.create]
  have := this.symm.trans hcur
  cases this

theorem Fresh.yyerror {p : Parser V} (h : Fresh p) : Accounted p.yyerror ∧ NoData p.yyerror ∧
    p.yyerror.record = none ∧ p.yyerror.terminate = .error := by
  have hk := Kept.yyerror p
  have hnone : p.yyerror.record = none := hk.record.trans h.record
  refine ⟨hk.accounted h.accounted, ⟨fun at' d hcur => ?_, hk.interface.trans h.interface⟩, hnone, ?_⟩
  · rw [Accounted.current_none hnone] at hcur
    cases hcur
  · have hne : p.terminate ≠ .terminate := by
      rw [h.terminate]
      nofun
    unfold Parser.yyerror
    rw [if_pos hne]

theorem Fresh.recordShort {p : Parser V} (h : Fresh p) (interfaces : List Text) (output : Bool)
    (ats : List Attribute) :
    match searchAttribute ats TYPE with
    | some type =>
      if type = "data".toList ∨ type = "terminate".toList then
        Ended output p (p.recordShort interfaces output ats)
      else if type ∈ notImplemented then p.recordShort interfaces output ats = .blocked
      else p.recordShort interfaces output ats = .fault
    | none => p.recordShort interfaces output ats = .fault := by
  have hbad : (Outcome.done p.yyerror).bind (fun p : Parser V => if p.terminate ≠ .error then
      if p.record.isSome then
        (p.write output).bind fun p => .done { p with interface := INTERFACE_UNKNOWN }
      else .done p else p.discard) = .fault := by
    obtain ⟨-, -, hnone, herr⟩ := h.yyerror
    rw [Outcome.done_bind, if_neg (fun hne => hne herr)]
    unfold Parser.discard Parser.destroy
    rw [Accounted.current_none hnone]
    rfl
  unfold Parser.recordShort Parser.byType
  cases searchAttribute ats TYPE with
  | none => exact hbad
  | some type =>
    dsimp only
    by_cases hdata : type = "data".toList
    · have hnodata : (p.terminate ≠ .error) := by
        rw [h.terminate]
        nofun
      simp only [if_pos hdata, if_pos (Or.inl hdata)]
      split
      · rename_i interface _
        -- the record that is created next has its mode and interface set
        have hfresh : Fresh ({ p with mode := modeOf ats } : Parser V) :=
          ⟨⟨h.accounted.once, h.accounted.live⟩, h.record, h.interface, h.terminate⟩
        obtain ⟨hd, ha⟩ := hfresh.createData
        have hdi : OnData ({ ({ p with mode := modeOf ats } : Parser V).create (.data (newData V)) with
          interface := interfaceToId interfaces interface } : Parser V) := hd
        have hai : Accounted ({ ({ p with mode := modeOf ats } : Parser V).create (.data (newData V)) with
          interface := interfaceToId interfaces interface } : Parser V) := ⟨ha.once, ha.live⟩
        unfold Parser.setInterfaceId Parser.setDataMode
        obtain ⟨q, hq, hkq, hdq, htq⟩ := hdi.onData fun d =>
          { d with interfaceId := interfaceToId interfaces interface }
        rw [hq, Outcome.done_bind]
        obtain ⟨q', hq', hkq', hdq', htq'⟩ := hdq.onData fun d => { d with mode := q.mode }
        rw [hq', Outcome.done_bind]
        have hne : q'.terminate ≠ .error := by
          rw [htq', htq]
          exact hnodata
        obtain ⟨at', d, hat, -⟩ := hdq'
        have hsome : q'.record.isSome = true := by simp [hat]
        rw [if_pos hne, if_pos hsome]
        obtain ⟨r, hr, hra, hleft⟩ := ((hkq.trans hkq').accounted hai).deliver hsome hne output
        refine ⟨r, hr, hra, fun hs => ?_⟩
        obtain ⟨h1, h2, h3⟩ := hleft hs
        exact ⟨h1, h2, h3.trans ((hkq.trans hkq').destroyed)⟩
      · rw [Outcome.done_bind]
        have hno : ¬ ({ p with mode := modeOf ats } : Parser V).record.isSome = true := by
          simp [h.record]
        rw [if_pos hnodata, if_neg hno]
        exact ⟨_, rfl, ⟨h.accounted.once, h.accounted.live⟩, fun hs => absurd hs hno⟩
    · by_cases hnot : type ∈ notImplemented
      · have hterm : type ≠ "terminate".toList := by
          rintro rfl
          exact absurd hnot (by decide)
        simp only [if_pos hnot, hdata, hterm, or_self, if_false]
        rfl
      · by_cases hterm : type = "terminate".toList
        · simp only [if_neg hdata, if_neg hnot, if_pos hterm, if_pos (Or.inr hterm)]
          obtain ⟨ha, -, hsome, hflag, hdes⟩ := h.createTerminate
          have hne : p.createTerminate.terminate ≠ .error := by
            rw [hflag]
            nofun
          rw [Outcome.done_bind, if_pos hne, if_pos hsome]
          obtain ⟨r, hr, hra, hleft⟩ := ha.deliver hsome hne output
          refine ⟨r, hr, hra, fun hs => ?_⟩
          obtain ⟨h1, h2, h3⟩ := hleft hs
          exact ⟨h1, h2, h3.trans hdes⟩
        · simp only [if_neg hnot, hdata, hterm, or_self, if_false]
          exact hbad

theorem Fresh.recordBody {p : Parser V} (h : Fresh p) (interfaces : List Text) {ats : List Attribute}
    {as : List Attribute} (has : attributes ats = .done as) (es : List (Entity V)) :
    ((p.recordBegin interfaces as).bind (Parser.entitys interfaces es) = .fault ↔
      typed ats (fun _ => harmless interfaces es) = false) ∧
    ∀ q, (p.recordBegin interfaces as).bind (Parser.entitys interfaces es) = .done q →
      Accounted q ∧ q.destroyed = p.destroyed := by
  -- a state without a data record, in which the entities are looked at
  have hnodata : ∀ q : Parser V, NoData q → Accounted q → q.destroyed = p.destroyed →
      (q.entitys interfaces es = .fault ↔ harmless interfaces es = false) ∧
      ∀ q', q.entitys interfaces es = .done q' → Accounted q' ∧ q'.destroyed = p.destroyed := by
    intro q hq ha hdes
    obtain ⟨h1, h2⟩ := hq.entitys interfaces es
    refine ⟨h1, fun q' hq' => ?_⟩
    exact ⟨(h2 q' hq').1.accounted ha, (h2 q' hq').1.destroyed.trans hdes⟩
  obtain ⟨hya, hyn, -, -⟩ := h.yyerror
  have hyes := hnodata _ hyn hya (Kept.yyerror p).destroyed
  have hbegin := h.recordBegin interfaces as
  unfold typed
  rw [has]
  dsimp only
  cases hs : searchAttribute as TYPE with
  | none =>
    rw [hs] at hbegin
    rw [hbegin, Outcome.done_bind]
    exact hyes
  | some type =>
    rw [hs] at hbegin
    dsimp only at hbegin ⊢
    by_cases hdata : type = "data".toList
    · rw [if_pos hdata] at hbegin
      obtain ⟨q, hq, hd, ha, -, hdes⟩ := hbegin
      obtain ⟨hne, hdone⟩ := Safe.entitys hd interfaces es
      rw [hq, Outcome.done_bind]
      refine ⟨iff_of_false hne (by simp [hdata]), fun q' hq' => ?_⟩
      exact ⟨(hdone q' hq').1.accounted ha, (hdone q' hq').1.destroyed.trans hdes⟩
    · rw [if_neg hdata] at hbegin
      by_cases hnot : type ∈ notImplemented
      · rw [if_pos hnot] at hbegin
        rw [hbegin]
        exact ⟨iff_of_false nofun (by simp [hnot]), nofun⟩
      · rw [if_neg hnot] at hbegin
        have htyped : (decide (type = "data".toList) || decide (type ∈ notImplemented) ||
            harmless interfaces es) = harmless interfaces es := by
          rw [decide_eq_false hdata, decide_eq_false hnot]
          rfl
        rw [htyped]
        by_cases hterm : type = "terminate".toList
        · rw [if_pos hterm] at hbegin
          obtain ⟨ha, hn, -, -, hdes⟩ := h.createTerminate
          rw [hbegin, Outcome.done_bind]
          exact hnodata _ hn ha hdes
        · rw [if_neg hterm] at hbegin
          rw [hbegin, Outcome.done_bind]
          exact hyes

/-! ## Calls -/

/-- What `yyparse` comes to. -/
def Parsed (interfaces : List Text) (output : Bool) (p : Parser V) (input : Input V)
    (o : Outcome (Parser V)) : Prop :=
  (o = .fault ↔ Proper interfaces input = false) ∧
    ∀ q, o = .done q → Accounted q ∧ ∀ d, input = .document d → q.record.isSome = true →
      output = false ∧ q.terminate ≠ .error ∧ q.destroyed = p.destroyed

section Parsed

variable {interfaces : List Text} {output : Bool} {p : Parser V}

theorem Parsed.blocked {input : Input V} (h : Proper interfaces input = true) :
    Parsed interfaces output p input .blocked :=
  ⟨iff_of_false nofun (by simp [h]), nofun⟩

theorem Parsed.fault {input : Input V} (h : Proper interfaces input = false) :
    Parsed interfaces output p input .fault := ⟨iff_of_true rfl h, nofun⟩

theorem Parsed.ended {input : Input V} {o : Outcome (Parser V)} (h : Proper interfaces input = true)
    (hended : Ended output p o) : Parsed interfaces output p input o := by
  obtain ⟨q, rfl, hqa, hleft⟩ := hended
  refine ⟨iff_of_false nofun (by simp [h]), fun q' hq' => ?_⟩
  cases hq'
  exact ⟨hqa, fun d _ => hleft⟩

theorem typed_blocked {ats : List Attribute} (h : attributes ats = .blocked)
    (others : Option Text → Bool) : typed ats others = true := by
  unfold typed
  rw [h]

theorem typed_done {ats as : List Attribute} (h : attributes ats = .done as)
    (others : Option Text → Bool) : typed ats others =
      match searchAttribute as TYPE with
      | some type => type = "data".toList || type ∈ notImplemented || others (some type)
      | none => others none := by
  unfold typed
  rw [h]

theorem Fresh.parsed_syntaxErrorIn (h : Fresh p) (ats : List Attribute) (es : List (Entity V)) :
    Parsed interfaces output p (.syntaxErrorIn ats es)
      (p.yyparse interfaces output (.syntaxErrorIn ats es)) := by
  unfold Parser.yyparse
  dsimp only
  cases ha : attributes ats with
  | blocked =>
    refine Parsed.blocked ?_
    rw [Proper]
    exact typed_blocked ha _
  | fault => exact absurd ha (attributes_ne_fault ats)
  | done as =>
    obtain ⟨h1, h2⟩ := h.recordBody interfaces ha es
    rw [Outcome.done_bind]
    refine ⟨?_, fun q hq => ?_⟩
    · rw [Proper, ← h1, Outcome.bind_eq_fault]
      exact ⟨fun hf => hf.resolve_right nofun, Or.inl⟩
    · obtain ⟨q1, hq1, hq⟩ := Outcome.bind_eq_done.1 hq
      cases hq
      exact ⟨(Kept.yyerror q1).accounted (h2 q1 hq1).1, nofun⟩

theorem Fresh.parsed_long (h : Fresh p) (ats : List Attribute) (es : List (Entity V)) :
    Parsed interfaces output p (.document (.long ats es))
      (p.yyparse interfaces output (.document (.long ats es))) := by
  unfold Parser.yyparse
  dsimp only
  cases ha : attributes ats with
  | blocked =>
    refine Parsed.blocked ?_
    rw [Proper]
    exact typed_blocked ha _
  | fault => exact absurd ha (attributes_ne_fault ats)
  | done as =>
    obtain ⟨h1, h2⟩ := h.recordBody interfaces ha es
    rw [Outcome.done_bind]
    refine ⟨?_, fun q hq => ?_⟩
    · rw [Proper, ← h1, Outcome.bind_eq_fault]
      refine ⟨fun hf => hf.resolve_right ?_, Or.inl⟩
      rintro ⟨q1, hq1, hq⟩
      obtain ⟨q2, hq2, -⟩ := (h2 q1 hq1).1.recordEnd output
      rw [hq2] at hq
      cases hq
    · obtain ⟨q1, hq1, hq⟩ := Outcome.bind_eq_done.1 hq
      obtain ⟨haq, hdes⟩ := h2 q1 hq1
      obtain ⟨q2, hq2, ha2, hleft⟩ := haq.recordEnd output
      rw [hq2] at hq
      cases hq
      refine ⟨ha2, fun d _ hs => ?_⟩
      obtain ⟨h3, h4, h5⟩ := hleft hs
      exact ⟨h3, h4, h5.trans hdes⟩

theorem Fresh.parsed_short (h : Fresh p) (ats : List Attribute) :
    Parsed interfaces output p (.document (.short ats))
      (p.yyparse interfaces output (.document (.short ats))) := by
  unfold Parser.yyparse
  dsimp only
  cases ha : attributes ats with
  | blocked =>
    refine Parsed.blocked ?_
    rw [Proper]
    exact typed_blocked ha _
  | fault => exact absurd ha (attributes_ne_fault ats)
  | done as =>
    have hshort := h.recordShort interfaces output as
    have hproper := typed_done ha fun type => type = some "terminate".toList
    rw [Outcome.done_bind]
    cases hs : searchAttribute as TYPE with
    | none =>
      rw [hs] at hshort hproper
      rw [hshort]
      exact Parsed.fault (hproper.trans (decide_eq_false nofun))
    | some type =>
      rw [hs] at hshort hproper
      simp only [Option.some.injEq] at hshort hproper
      by_cases hknown : type = "data".toList ∨ type = "terminate".toList
      · rw [if_pos hknown] at hshort
        refine Parsed.ended (hproper.trans ?_) hshort
        rcases hknown with hk | hk
        · rw [decide_eq_true hk]
          rfl
        · rw [decide_eq_true hk]
          exact Bool.or_true _
      · obtain ⟨hnd, hnt⟩ := not_or.1 hknown
        rw [if_neg hknown] at hshort
        rw [decide_eq_false hnd, decide_eq_false hnt, Bool.or_false, Bool.false_or] at hproper
        by_cases hnot : type ∈ notImplemented
        · rw [if_pos hnot] at hshort
          rw [hshort]
          exact Parsed.blocked (hproper.trans (decide_eq_true hnot))
        · rw [if_neg hnot] at hshort
          rw [hshort]
          exact Parsed.fault (hproper.trans (decide_eq_false hnot))

end Parsed

theorem Fresh.yyparse {p : Parser V} (h : Fresh p) (interfaces : List Text) (output : Bool)
    (input : Input V) : Parsed interfaces output p input (p.yyparse interfaces output input) := by
  cases input with
  | syntaxError =>
    refine ⟨⟨nofun, nofun⟩, fun q hq => ?_⟩
    cases hq
    exact ⟨h.yyerror.1, nofun⟩
  | syntaxErrorIn ats es => exact h.parsed_syntaxErrorIn ats es
  | document d =>
    cases d with
    | long ats es => exact h.parsed_long ats es
    | short ats => exact h.parsed_short ats

theorem Accounted.parserflush {p : Parser V} (h : Accounted p) : ∃ q, p.parserflush = .done q ∧
    Accounted q ∧ q.record = none ∧ q.interface = INTERFACE_UNKNOWN ∧
    q.terminate = (if p.terminate = .error then .goOn else p.terminate) ∧
    q.destroyed = p.destroyed ++ p.record.toList := by
  unfold Parser.parserflush
  cases hat : p.record with
  | none =>
    exact ⟨_, rfl, ⟨h.once, h.live⟩, hat, rfl, rfl, (append_nil _).symm⟩
  | some at' =>
    obtain ⟨q, hq, hqa, hnone, hterm, hdes⟩ := h.destroy hat
    simp only [Option.isSome_some, if_true, hq, Outcome.done_bind]
    exact ⟨_, rfl, ⟨hqa.once, hqa.live⟩, hnone, rfl, by rw [hterm], hdes⟩

theorem Accounted.call_sound_iff {p : Parser V} (h : Accounted p) (hterm : p.terminate ≠ .terminate)
    (interfaces : List Text) (output : Bool) (c : Call V) :
    Sound output p c (p.call interfaces output c) ↔ Proper interfaces c.input = true := by
  obtain ⟨q, hq, hqa, hnone, hint, hgo, hdes⟩ := h.parserflush
  have hgo : q.terminate = .goOn := by
    rw [hgo]
    cases ht : p.terminate with
    | goOn => rfl
    | error => rfl
    | terminate => exact absurd ht hterm
  obtain ⟨hfault, hdone⟩ := (Fresh.mk hqa hnone hint hgo).yyparse interfaces output c.input
  unfold Parser.call
  rw [hq, Outcome.done_bind, if_pos hgo]
  constructor
  · rintro ⟨hne, -⟩
    by_contra hbad
    have : Proper interfaces c.input = false := by simpa using hbad
    rw [hfault.2 this] at hne
    exact hne rfl
  · intro hproper
    cases hy : q.yyparse interfaces output c.input with
    | blocked => exact ⟨nofun, nofun⟩
    | fault =>
      rw [hfault.1 hy] at hproper
      cases hproper
    | done r =>
      obtain ⟨hra, hleft⟩ := hdone r hy
      rw [Outcome.done_bind]
      cases hget : c.getNext with
      | true =>
        obtain ⟨r', hr', hra', hnone'⟩ := hra.handOver
        simp only [if_true]
        rw [hr']
        refine ⟨nofun, fun p' hp' => ?_⟩
        cases hp'
        refine ⟨hra', fun d _ hs => ?_⟩
        rw [hnone'] at hs
        cases hs
      | false =>
        simp only [Bool.false_eq_true, if_false]
        refine ⟨nofun, fun p' hp' => ?_⟩
        cases hp'
        refine ⟨hra, fun d hd hs => ?_⟩
        obtain ⟨h1, h2, h3⟩ := hleft d hd hs
        exact ⟨h1, hget, h2, h3.trans hdes⟩

theorem Accounted.call_terminated {p p' : Parser V} (h : Accounted p) (hterm : p.terminate = .terminate)
    {interfaces : List Text} {output : Bool} {c : Call V} (hp' : p.call interfaces output c = .done p') :
    Accounted p' := by
  obtain ⟨q, hq, hqa, -, -, hgo, -⟩ := h.parserflush
  have hne : q.terminate ≠ .goOn := by
    rw [hgo, hterm]
    nofun
  unfold Parser.call at hp'
  rw [hq, Outcome.done_bind, if_neg hne] at hp'
  cases hp'
  exact hqa

end SNet.Netif
