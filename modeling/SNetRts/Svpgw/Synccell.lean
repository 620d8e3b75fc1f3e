import SNetRts.Svpgw.Record

/-!
# The output of a synchro-cell

What `synccell_output` of `svpgw/src/gw/gw.utc` does when the last pattern of a synchro-cell is matched. The
records of the stored handles are merged into the record of the cons-node that completes the cell, and each of
these handles is started again with a cons-node without a record. The removal of the cell's state from the
graph-node is left out.

A handle is named by its cons-node, which is named by a number. `none` stands for an assertion that fails, which
is what becomes of every use of a record that is destroyed.
-/

namespace SNet.Svpgw.Synccell

open Function (update update_of_ne)

open List

open SNet.Svpgw.Vector (unsetItemVal)
open SNet.Svpgw.ItemVec (Map)

variable {D : Type}

/-- `snet_conslst_node_state_t` -/
inductive ConsNodeState where
  | init
  | walking
  | waitSynccell
  | waitReorderPoint
deriving DecidableEq, Repr

/-- A cons-node, with what its handle knows of the synchro-cell. -/
structure ConsNode (D : Type) where
  record : Option (Record D)
  state : ConsNodeState
  /-- `CNODE_SYNCCELL_CHECK_FLAG` -/
  check : Bool
  /-- `CNODE_SYNCCELL_WAKING_FLAG` -/
  waking : Bool
  /-- The handle has a synchro-cell state. -/
  inState : Bool
  definiteMatch : Bool

/-- A pattern, with the handle that is stored for it. -/
structure Slot where
  hnd : Nat
  pattern : VariantEncoding

/-- The cons-nodes, the handles that were started, and those among them that got a new walk. -/
structure Cell (D : Type) where
  nodes : Nat → ConsNode D
  wakes : List Nat
  walks : List Nat

def moveUnconsumed : CopyFlags := ⟨true, true, false⟩

/-- `synccell_merge_records_1st_pattern`: both records afterwards -/
def mergeRecords1stPattern (r1 r2 : Record D) : Option (Record D × Record D) :=
  (Record.copyItems ⟨moveUnconsumed, true, true, true⟩ none r2 r1).map fun p => (p.2.1, p.1)

/-- The part of `synccell_merge_records` for the tags. -/
def mergeTags (tags : Vector) (r1 r2 : Record D) : Option (Record D × Record D) :=
  match tags with
  | none => some (r1, r2)
  | some l =>
    (Record.copyItems ⟨moveUnconsumed, false, true, false⟩
      (some ⟨⟨l, 0, l.length, 0, by simp⟩, none, nofun⟩) r2 r1).map fun p => (p.2.1, p.1)

def mergeBTags (btags : Vector) (r1 r2 : Record D) : Option (Record D × Record D) :=
  match btags with
  | none => some (r1, r2)
  | some l =>
    (Record.copyItems ⟨moveUnconsumed, false, false, true⟩
      (some ⟨⟨l, 0, 0, l.length, by simp⟩, none, nofun⟩) r2 r1).map fun p => (p.2.1, p.1)

def mergeFields (fields : Vector) (r1 r2 : Record D) : Option (Record D × Record D) :=
  match fields with
  | none => some (r1, r2)
  | some l =>
    (Record.copyItems ⟨moveUnconsumed, true, false, false⟩
      (some ⟨⟨l, l.length, 0, 0, rfl⟩, none, nofun⟩) r2 r1).map fun p => (p.2.1, p.1)

/-- `synccell_merge_records`: both records afterwards. The names of the tags are those of the fields. -/
def mergeRecords (r1 r2 : Record D) (pattern : VariantEncoding) : Option (Record D × Record D) := do
  let tags := pattern.fields
  let btags := pattern.btags
  let fields := pattern.fields
  let (r1, r2) ← mergeTags tags r1 r2
  let (r1, r2) ← mergeBTags btags r1 r2
  mergeFields fields r1 r2

/-- `synccell_start_gw_for_suspended_handle` -/
def startGwForSuspendedHandle (c : Cell D) (hnd : Nat) (makeNull : Bool) : Option (Cell D) := do
  let node := { c.nodes hnd with inState := false, definiteMatch := false }
  let node ← if makeNull then node.record.map fun _ => { node with record := none } else some node
  if node.state = .walking then
    some
      { c with
        nodes := update c.nodes hnd { node with check := true }
        wakes := c.wakes ++ [hnd] }
  else
    some
      { nodes := update c.nodes hnd { node with waking := false, state := .walking }
        wakes := c.wakes ++ [hnd]
        walks := c.walks ++ [hnd] }

/-- `SNetConsLstNodeGetRecord` returns a pointer, and what is done to the record is done to that of the node. -/
def setRecord (nodes : Nat → ConsNode D) (node : Nat) (r : Record D) : Nat → ConsNode D :=
  update nodes node { nodes node with record := some r }

/-- The merge of round `i` of `synccell_output`. -/
def mergeSlot (i : Nat) (cnodeRec ithRec : Record D) (pattern : VariantEncoding) : Option (Record D × Record D) :=
  if i = 0 then mergeRecords1stPattern cnodeRec ithRec else mergeRecords cnodeRec ithRec pattern

/-- Round `i` of the loop of `synccell_output`. -/
def outputSlot (cnode i : Nat) (slot : Slot) (c : Cell D) : Option (Cell D) :=
  if slot.hnd = cnode then
    some
      { c with
        nodes := update c.nodes cnode { c.nodes cnode with inState := false, definiteMatch := false } }
  else do
    let cnodeRec ← (c.nodes cnode).record
    let ithRec ← (c.nodes slot.hnd).record
    let (cnodeRec, ithRec) ← mergeSlot i cnodeRec ithRec slot.pattern
    startGwForSuspendedHandle { c with nodes := setRecord (setRecord c.nodes cnode cnodeRec) slot.hnd ithRec }
      slot.hnd true

/-- The rounds from `i` on. -/
def outputLoop (cnode : Nat) : Nat → List Slot → Cell D → Option (Cell D)
  | _, [], c => some c
  | i, slot :: slots, c => do
    let c ← outputSlot cnode i slot c
    outputLoop cnode (i + 1) slots c

/-- The first loop of `synccell_output`. -/
def markWaking (slots : List Slot) (nodes : Nat → ConsNode D) : Nat → ConsNode D :=
  slots.foldl (fun nodes slot => update nodes slot.hnd { nodes slot.hnd with waking := true }) nodes

/-- `synccell_output`, whose record is that of `cnode` afterwards -/
def synccellOutput (cnode : Nat) (slots : List Slot) (nodes : Nat → ConsNode D) : Option (Cell D) := do
  let c ← outputLoop cnode 0 slots ⟨markWaking slots nodes, [], []⟩
  some { c with nodes := update c.nodes cnode { c.nodes cnode with waking := false } }

/-! ## What the output should be -/

section Labels

variable {V : Type} (kind : ItemKind V)

def Kept (before after : Map V) : Prop := ∀ name it, before name = some it → after name = some it

/-- What is wanted of the items of `src` is there afterwards, unless its label was there before. -/
def TakesOver (wanted : Int → RecordItem V → Prop) (src before after : Map V) : Prop :=
  ∀ name it, src name = some it → wanted name it →
    after name = (before name).or (some (ItemVec.made kind moveUnconsumed it))

end Labels

variable (nodes : Nat → ConsNode D) (cnode : Nat)

/-- Round `i` changes the merged record from `before` to `after`: all unconsumed items of the record of the first
slot, and the items that are named by the pattern of another. -/
def SlotMerged (i : Nat) (slot : Slot) (before after : RecordMap D) : Prop :=
  (Kept before.fields after.fields ∧ Kept before.tags after.tags ∧ Kept before.btags after.btags) ∧
    (slot.hnd ≠ cnode → ∀ r, (nodes slot.hnd).record = some r →
      TakesOver (fieldKind D) (fun name it => if i = 0 then it.consumed = false else name ∈ slot.pattern.fields.items)
        r.maps.fields before.fields after.fields ∧
      TakesOver tagKind (fun name it => if i = 0 then it.consumed = false else name ∈ slot.pattern.tags.items)
        r.maps.tags before.tags after.tags ∧
      TakesOver tagKind (fun name it => if i = 0 then it.consumed = false else name ∈ slot.pattern.btags.items)
        r.maps.btags before.btags after.btags)

def MergesAll : Nat → List Slot → Cell D → Prop
  | _, [], _ => True
  | i, slot :: slots, c =>
    ∃ c', outputSlot cnode i slot c = some c' ∧
      (∃ r r', (c.nodes cnode).record = some r ∧ (c'.nodes cnode).record = some r' ∧
        SlotMerged nodes cnode i slot r.maps r'.maps) ∧
      MergesAll (i + 1) slots c'

/-- The merge is complete, and every other cons-node that takes part is started once, without a record. -/
structure Complete (slots : List Slot) : Prop where
  merges : MergesAll nodes cnode 0 slots ⟨markWaking slots nodes, [], []⟩
  wakes : ∃ c, synccellOutput cnode slots nodes = some c ∧ cnode ∉ c.wakes ∧
    ∀ slot ∈ slots, slot.hnd ≠ cnode →
      c.wakes.count slot.hnd = 1 ∧ (c.nodes slot.hnd).record = none ∧ (c.nodes slot.hnd).state = .walking

/-! ## When it is -/

/-- The merge takes an unconsumed item under the label from the record of slot `i`. -/
def Gives {V : Type} (codeNames : VariantEncoding → List Int) (map : Record D → Map V) (i : Nat) (slot : Slot)
    (name : Int) : Prop :=
  slot.hnd ≠ cnode ∧ (i = 0 ∨ name ∈ codeNames slot.pattern) ∧
    ∃ r it, (nodes slot.hnd).record = some r ∧ map r name = some it ∧ it.consumed = false

/-- Each label that a later pattern names and whose record has it is in the completing record, or is given by
its slot or one before. -/
def Reached {V : Type} (named codeNames : VariantEncoding → List Int) (map : Record D → Map V)
    (has : Int → Prop) (first : Nat) (slots : List Slot) : Prop :=
  ∀ k slot, slots[k]? = some slot → first + k ≠ 0 → slot.hnd ≠ cnode →
    ∀ r it name, (nodes slot.hnd).record = some r → map r name = some it → name ∈ named slot.pattern →
      has name ∨ ∃ j slot', j ≤ k ∧ slots[j]? = some slot' ∧ Gives nodes cnode codeNames map (first + j) slot' name

/-- The record has at least as many items as `synccell_merge_records` asks it for. -/
def Enough (r : Record D) (pattern : VariantEncoding) : Prop :=
  pattern.fields.size ≤ r.tags.names.size ∧ pattern.btags.size ≤ r.btags.names.size ∧
    pattern.fields.size ≤ r.fields.names.size

def AllEnough (first : Nat) (slots : List Slot) : Prop :=
  ∀ k slot, slots[k]? = some slot → first + k ≠ 0 → slot.hnd ≠ cnode →
    ∀ r, (nodes slot.hnd).record = some r → Enough r slot.pattern

def others (slots : List Slot) : List Nat := (slots.map Slot.hnd).filter (· ≠ cnode)

def Has {V : Type} (map : Record D → Map V) (name : Int) : Prop :=
  ∃ r, (nodes cnode).record = some r ∧ map r name ≠ none

/-- No other handle holds two patterns, no record is asked for more items than it has, and every label that is
named is reached; tags are looked for under the names of the fields. -/
structure Mergeable (slots : List Slot) : Prop where
  distinct : (others cnode slots).Nodup
  enough : AllEnough nodes cnode 0 slots
  fields : Reached nodes cnode (·.fields.items) (·.fields.items) (fun r : Record D => r.maps.fields)
    (Has nodes cnode fun r : Record D => r.maps.fields) 0 slots
  tags : Reached nodes cnode (·.tags.items) (·.fields.items) (fun r : Record D => r.maps.tags)
    (Has nodes cnode fun r : Record D => r.maps.tags) 0 slots
  btags : Reached nodes cnode (·.btags.items) (·.btags.items) (fun r : Record D => r.maps.btags)
    (Has nodes cnode fun r : Record D => r.maps.btags) 0 slots

/-- The cons-nodes have data records, and the label vectors of the patterns distinct labels. -/
structure Stored (slots : List Slot) : Prop where
  own : ∃ r, (nodes cnode).record = some r ∧ r.Aligned
  records : ∀ slot ∈ slots, ∃ r, (nodes slot.hnd).record = some r ∧ r.Aligned
  labels : ∀ slot ∈ slots, ∀ v ∈ [slot.pattern.fields, slot.pattern.tags, slot.pattern.btags],
    v.Distinct ∧ unsetItemVal ∉ v.items

/-! ## One kind of items -/

section Taking

variable {V : Type} {kind : ItemKind V} {named : Int → RecordItem V → Prop} {src dst : Map V} {name : Int}

/-- The map with the unconsumed items of `src` under the labels that are given. -/
def taken (kind : ItemKind V) (given : Int → Bool) (src dst : Map V) : Map V := fun name =>
  (dst name).or
    (if given name = true then
      (src name).bind fun it =>
        if it.consumed = true then none else some (ItemVec.made kind moveUnconsumed it)
    else none)

variable {given : Int → Bool}

theorem kept_taken : Kept dst (taken kind given src dst) := by
  intro name it h
  rw [taken, h]
  rfl

theorem taken_ne_none :
    taken kind given src dst name ≠ none ↔
      dst name ≠ none ∨ given name = true ∧ ∃ it, src name = some it ∧ it.consumed = false := by
  unfold taken
  rcases dst name with _ | x
  · rw [Option.none_or]
    by_cases hg : given name = true
    · rcases src name with _ | it
      · simp
      · by_cases hc : it.consumed = true
        · simp [hc]
        · simp [hg, hc]
    · simp [hg]
  · simp

variable (kind given named src dst) in
theorem takesOver_taken :
    TakesOver kind named src dst (taken kind given src dst) ↔
      ∀ name it, src name = some it → named name it →
        dst name ≠ none ∨ given name = true ∧ it.consumed = false := by
  apply forall_congr'
  intro name
  apply forall_congr'
  intro it
  apply imp_congr_right
  intro hsrc
  apply imp_congr_right
  intro _
  unfold taken
  rw [hsrc]
  rcases dst name with _ | x
  · by_cases hg : given name = true
    · by_cases hc : it.consumed = true
      · simp [hc]
      · simp [hg, hc]
    · simp [hg]
  · simp

theorem copyBindings_self (kind : ItemKind V) (flags : CopyFlags) {p : NamesPtr} {todo : List Int} {i : Nat}
    (m : Map V × Map V)
    (hp : ∀ k name, todo[k]? = some name → p (i + k) = some name) (hl : unsetItemVal ∉ todo) :
    ItemVec.CopyFair kind flags p i todo m ∧
      ItemVec.copyBindings kind flags p i todo m =
        todo.foldl (fun m name => ItemVec.copyBinding kind flags m name name) m := by
  induction todo generalizing i m with
  | nil => exact ⟨trivial, rfl⟩
  | cons name todo ih =>
    have h0 : p i = some name := hp 0 name rfl
    rw [mem_cons, not_or] at hl
    have hrest : ∀ k n, todo[k]? = some n → p (i + 1 + k) = some n := by
      intro k n hk
      rw [Nat.add_assoc, Nat.add_comm 1 k]
      exact hp (k + 1) n hk
    unfold ItemVec.CopyFair ItemVec.copyBindings
    rw [h0, Option.getD_some, foldl_cons]
    obtain ⟨hf, hb⟩ := ih (ItemVec.copyBinding kind flags m name name) hrest hl.2
    refine ⟨⟨?_, hf⟩, hb⟩
    intro it _
    exact ⟨name, rfl, Ne.symm hl.1, fun _ _ _ => rfl⟩

theorem copyAll_moveUnconsumed {m : Map V × Map V} :
    (ItemVec.copyAll kind moveUnconsumed m).2 name = taken kind (fun _ => true) m.1 m.2 name := by
  simp only [ItemVec.copyAll, taken, if_true]
  rcases m.1 name with _ | it
  · rfl
  · rcases hc : it.consumed with _ | _
    · simp [moveUnconsumed, CopyFlags.selects, hc]
    · simp [moveUnconsumed, CopyFlags.selects, hc]

/-- A call with specs for one kind of items, in which every item keeps its name: both pairs of vectors
afterwards. -/
def vecMerge (kind : ItemKind V) (v : Vector) (vec1 vec2 : ItemVec V) : Option (ItemVec V × ItemVec V) :=
  match v with
  | none => some (vec1, vec2)
  | some l =>
    (ItemVec.drecordCopyItems kind moveUnconsumed (some (namesAt l 0)) none l.length vec2 vec1).map fun p =>
      (p.2.1, p.1)

def Labels (v : Vector) : Prop := v.Distinct ∧ unsetItemVal ∉ v.items

theorem taken_nothing : taken kind (fun _ => false) src dst = dst := by
  funext name
  simp [taken]

theorem vecMerge_spec (kind : ItemKind V) {v : Vector} {vec1 vec2 : ItemVec V} (h1 : vec1.Aligned) (h2 : vec2.Aligned) (hv : Labels v) :
    (v.size ≤ vec2.names.size → ∃ p, vecMerge kind v vec1 vec2 = some p ∧ p.1.Aligned ∧
      p.1.map = taken kind v.items.contains vec2.map vec1.map) ∧
    (¬ v.size ≤ vec2.names.size → vecMerge kind v vec1 vec2 = none) := by
  rcases v with _ | l
  · refine ⟨fun _ => ⟨_, rfl, h1, taken_nothing.symm⟩, fun h => absurd (Nat.zero_le _) h⟩
  · obtain ⟨hd, hl⟩ := hv
    rw [Vector.Distinct, Vector.items_some] at hd
    rw [Vector.items_some] at hl
    have hptr : ∀ k name, l[k]? = some name → namesAt l 0 k = some name := by
      intro k name hk
      rw [namesAt, Nat.zero_add]
      exact hk
    obtain ⟨hfair, hself⟩ := copyBindings_self kind moveUnconsumed (p := namesAt l 0) (i := 0)
      (vec2.map, vec1.map) (by intro k name hk; rw [Nat.zero_add]; exact hptr k name hk) hl
    simp only [vecMerge]
    refine ⟨?_, ?_⟩
    · intro hle
      have hle : l.length ≤ vec2.names.size := hle
      obtain ⟨r, hrun, -, ha2, hm⟩ := ItemVec.drecordCopyItems_specs none
        h2 h1 (fun _ => hle) hptr (fun name hmem he => hl (he ▸ hmem)) hfair
      refine ⟨(r.2.1, r.1), ?_, ha2, ?_⟩
      · simp only [hrun, Option.map_some]
      · rw [Option.getD_none, hself, ItemVec.foldl_copyBinding hd] at hm
        rw [(Prod.mk.inj hm).2]
        funext n
        by_cases hn : n ∈ l
        · rw [if_pos hn, copyAll_moveUnconsumed, taken, taken, if_pos rfl, Vector.items_some,
            if_pos (contains_iff_mem.2 hn)]
        · rw [if_neg hn, taken, Vector.items_some, if_neg (fun h => hn (contains_iff_mem.1 h)), Option.or_none]
    · intro hgt
      have hgt : vec2.names.size < l.length := Nat.lt_of_not_le hgt
      unfold ItemVec.drecordCopyItems
      rw [if_neg (by simp [moveUnconsumed])]
      simp only [Option.isNone_some, Bool.false_eq_true, if_false]
      rw [if_pos hgt]
      rfl

end Taking

/-! ## One round -/

section Rounds

variable {r1 r2 : Record D} {l : List Int} {v : Vector} {p : VariantEncoding}

/-- The target of a merge, with what is given of each kind of items. -/
def merged (fields tags btags : Int → Bool) (src dst : RecordMap D) : RecordMap D :=
  ⟨taken (fieldKind D) fields src.fields dst.fields, taken tagKind tags src.tags dst.tags,
    taken tagKind btags src.btags dst.btags⟩

theorem mergeRecords1stPattern_spec (h1 : r1.Aligned) (h2 : r2.Aligned) :
    ∃ p, mergeRecords1stPattern r1 r2 = some p ∧ p.1.Aligned ∧
      p.1.maps = merged (fun _ => true) (fun _ => true) (fun _ => true) r2.maps r1.maps := by
  have hfair : Record.CopyItemsFair ⟨moveUnconsumed, true, true, true⟩ none r2 r1 :=
    ⟨fun _ h => (nomatch h), fun _ h => (nomatch h), fun _ h => (nomatch h), fun _ h => (nomatch h)⟩
  obtain ⟨q, hq, -, ha, hm⟩ := Record.copyItems_spec h2 h1 hfair
  refine ⟨(q.2.1, q.1), ?_, ha, ?_⟩
  · rw [mergeRecords1stPattern, hq]
    rfl
  · rw [(Prod.mk.inj hm).2]
    unfold merged
    congr 1
    · funext name
      exact copyAll_moveUnconsumed
    · funext name
      exact copyAll_moveUnconsumed
    · funext name
      exact copyAll_moveUnconsumed

theorem mergeTags_eq :
    mergeTags v r1 r2 = (vecMerge tagKind v r1.tags r2.tags).map fun p =>
      ({ r1 with tags := p.1 }, { r2 with tags := p.2 }) := by
  rcases v with _ | l
  · rfl
  · unfold mergeTags vecMerge Record.copyItems copyVec
    simp only [Bool.false_eq_true, if_false, if_true, Option.bind_eq_bind, Option.bind_some, Option.map_some,
      Option.getD_some, newNamesAt]
    rcases ItemVec.drecordCopyItems tagKind moveUnconsumed (some (namesAt l 0)) none l.length r2.tags r1.tags with _ | q
    · rfl
    · rfl

theorem mergeBTags_eq :
    mergeBTags v r1 r2 = (vecMerge tagKind v r1.btags r2.btags).map fun p =>
      ({ r1 with btags := p.1 }, { r2 with btags := p.2 }) := by
  rcases v with _ | l
  · rfl
  · unfold mergeBTags vecMerge Record.copyItems copyVec
    simp only [Bool.false_eq_true, if_false, if_true, Option.bind_eq_bind, Option.bind_some, Option.map_some,
      Option.getD_some, newNamesAt]
    rcases ItemVec.drecordCopyItems tagKind moveUnconsumed (some (namesAt l 0)) none l.length r2.btags r1.btags with _ | q
    · rfl
    · rfl

theorem mergeFields_eq :
    mergeFields v r1 r2 = (vecMerge (fieldKind D) v r1.fields r2.fields).map fun p =>
      ({ r1 with fields := p.1 }, { r2 with fields := p.2 }) := by
  rcases v with _ | l
  · rfl
  · unfold mergeFields vecMerge Record.copyItems copyVec
    simp only [Bool.false_eq_true, if_false, if_true, Option.bind_eq_bind, Option.bind_some, Option.map_some,
      Option.getD_some, newNamesAt]
    rcases ItemVec.drecordCopyItems (fieldKind D) moveUnconsumed (some (namesAt l 0)) none l.length
      r2.fields r1.fields with _ | q
    · rfl
    · rfl

theorem mergeRecords_spec (h1 : r1.Aligned) (h2 : r2.Aligned) (hf : Labels p.fields) (hb : Labels p.btags) :
    (Enough r2 p → ∃ q, mergeRecords r1 r2 p = some q ∧ q.1.Aligned ∧
      q.1.maps = merged p.fields.items.contains p.fields.items.contains p.btags.items.contains r2.maps r1.maps) ∧
    (¬ Enough r2 p → mergeRecords r1 r2 p = none) := by
  obtain ⟨htsome, htnone⟩ := vecMerge_spec tagKind h1.tags h2.tags hf
  obtain ⟨hbsome, hbnone⟩ := vecMerge_spec tagKind h1.btags h2.btags hb
  obtain ⟨hfsome, hfnone⟩ := vecMerge_spec (fieldKind D) h1.fields h2.fields hf
  unfold mergeRecords
  simp only [mergeTags_eq, mergeBTags_eq, mergeFields_eq, Option.bind_eq_bind]
  refine ⟨?_, ?_⟩
  · rintro ⟨ht, hbt, hfd⟩
    obtain ⟨t, htr, hta, htm⟩ := htsome ht
    obtain ⟨b, hbr, hba, hbm⟩ := hbsome hbt
    obtain ⟨f, hfr, hfa, hfm⟩ := hfsome hfd
    simp only [htr, Option.map_some, Option.bind_some, hbr, hfr]
    refine ⟨_, rfl, ⟨hfa, hta, hba⟩, ?_⟩
    unfold Record.maps merged
    rw [hfm, htm, hbm]
  · intro hnot
    unfold Enough at hnot
    by_cases ht : p.fields.size ≤ r2.tags.names.size
    · obtain ⟨t, htr, -, -⟩ := htsome ht
      simp only [htr, Option.map_some, Option.bind_some]
      by_cases hbt : p.btags.size ≤ r2.btags.names.size
      · obtain ⟨b, hbr, -, -⟩ := hbsome hbt
        simp only [hbr, Option.map_some, Option.bind_some]
        rw [hfnone fun hfd => hnot ⟨ht, hbt, hfd⟩]
        rfl
      · simp only [hbnone hbt, Option.map_none, Option.bind_none]
    · simp only [htnone ht, Option.map_none, Option.bind_none]

variable {c : Cell D} {i : Nat} {slot : Slot} {slots : List Slot} {rc r : Record D}

variable {nodes cnode} in
theorem startGw_spec (hnd : Nat) (h : (c.nodes hnd).record = some r) :
    ∃ c', startGwForSuspendedHandle c hnd true = some c' ∧ c'.wakes = c.wakes ++ [hnd] ∧
      (c'.nodes hnd).record = none ∧ (c'.nodes hnd).state = .walking ∧ ∀ k, k ≠ hnd → c'.nodes k = c.nodes k := by
  unfold startGwForSuspendedHandle
  simp only [if_true, h, Option.map_some, Option.bind_eq_bind, Option.bind_some]
  by_cases hw : (c.nodes hnd).state = .walking
  · rw [if_pos hw]
    refine ⟨_, rfl, rfl, ?_, ?_, ?_⟩
    · simp
    · simp [hw]
    · intro k hk
      exact update_of_ne hk _ _
  · rw [if_neg hw]
    refine ⟨_, rfl, rfl, ?_, ?_, ?_⟩
    · simp
    · simp
    · intro k hk
      exact update_of_ne hk _ _

/-- What holds between two rounds: the completing cons-node has the merged record `rc`, the cons-nodes that were
started have none, and the others have what they had. -/
structure Inv (c : Cell D) (rc : Record D) : Prop where
  own : (c.nodes cnode).record = some rc
  aligned : rc.Aligned
  asleep : cnode ∉ c.wakes
  others : ∀ h, h ≠ cnode → (c.nodes h).record = if h ∈ c.wakes then none else (nodes h).record
  walking : ∀ h ∈ c.wakes, (c.nodes h).state = .walking

variable {nodes cnode}

theorem outputSlot_own (h : Inv nodes cnode c rc) (hown : slot.hnd = cnode) :
    ∃ c', outputSlot cnode i slot c = some c' ∧ Inv nodes cnode c' rc ∧ c'.wakes = c.wakes := by
  unfold outputSlot
  rw [if_pos hown]
  refine ⟨_, rfl, ⟨?_, h.aligned, h.asleep, ?_, ?_⟩, rfl⟩
  · simp [h.own]
  · intro k hk
    rw [← h.others k hk]
    simp [update_of_ne hk]
  · intro k hk
    have hne : k ≠ cnode := fun he => h.asleep (he ▸ hk)
    rw [← h.walking k hk]
    simp [update_of_ne hne]

theorem outputSlot_woken (h : Inv nodes cnode c rc) (hne : slot.hnd ≠ cnode) (hmem : slot.hnd ∈ c.wakes) :
    outputSlot cnode i slot c = none := by
  have hnone : (c.nodes slot.hnd).record = none := by
    rw [h.others _ hne, if_pos hmem]
  unfold outputSlot
  rw [if_neg hne, h.own, hnone]
  rfl

/-- What round `i` takes of the items with these names. -/
def given (i : Nat) (names : List Int) (name : Int) : Bool := i == 0 || names.contains name

theorem given_eq_true {names : List Int} {name : Int} : given i names name = true ↔ i = 0 ∨ name ∈ names := by
  simp [given]

theorem mergeSlot_spec (h1 : r1.Aligned) (h2 : r2.Aligned) (hf : Labels p.fields) (hb : Labels p.btags) :
    (i = 0 ∨ Enough r2 p → ∃ q, mergeSlot i r1 r2 p = some q ∧ q.1.Aligned ∧
      q.1.maps = merged (given i p.fields.items) (given i p.fields.items) (given i p.btags.items) r2.maps r1.maps) ∧
    (¬ (i = 0 ∨ Enough r2 p) → mergeSlot i r1 r2 p = none) := by
  unfold mergeSlot
  by_cases hi : i = 0
  · subst hi
    exact ⟨fun _ => mergeRecords1stPattern_spec h1 h2, fun hno => absurd (.inl rfl) hno⟩
  · have hgiven : ∀ names : List Int, given i names = names.contains := by
      intro names
      funext name
      simp [given, hi]
    rw [if_neg hi, hgiven, hgiven]
    obtain ⟨hsome, hnone⟩ := mergeRecords_spec h1 h2 hf hb
    exact ⟨fun hor => hsome (hor.resolve_left hi), fun hno => hnone fun he => hno (.inr he)⟩

theorem outputSlot_fresh (h : Inv nodes cnode c rc) (hne : slot.hnd ≠ cnode) (hmem : slot.hnd ∉ c.wakes)
    (hr : (nodes slot.hnd).record = some r) (ha : r.Aligned) (hf : Labels slot.pattern.fields)
    (hb : Labels slot.pattern.btags) :
    (i = 0 ∨ Enough r slot.pattern → ∃ c' rc', outputSlot cnode i slot c = some c' ∧ Inv nodes cnode c' rc' ∧
      c'.wakes = c.wakes ++ [slot.hnd] ∧
      rc'.maps = merged (given i slot.pattern.fields.items) (given i slot.pattern.fields.items)
        (given i slot.pattern.btags.items) r.maps rc.maps) ∧
    (¬ (i = 0 ∨ Enough r slot.pattern) → outputSlot cnode i slot c = none) := by
  have hrec : (c.nodes slot.hnd).record = some r := by
    rw [h.others _ hne, if_neg hmem, hr]
  have hmerge := mergeSlot_spec (i := i) h.aligned ha hf hb
  unfold outputSlot
  rw [if_neg hne, h.own, hrec]
  simp only [Option.bind_eq_bind, Option.bind_some]
  refine ⟨?_, ?_⟩
  · intro hok
    obtain ⟨q, hq, hqa, hqm⟩ := hmerge.1 hok
    rw [hq]
    simp only [Option.bind_some]
    obtain ⟨c', hstart, hwakes, hgone, hwalk, hsame⟩ := startGw_spec slot.hnd (r := q.2)
      (c := { c with nodes := setRecord (setRecord c.nodes cnode q.1) slot.hnd q.2 }) (by simp [setRecord])
    have hmemw : ∀ k, k ∈ c'.wakes ↔ k ∈ c.wakes ∨ k = slot.hnd := by
      intro k
      rw [hwakes, mem_append, mem_singleton]
    refine ⟨c', q.1, hstart, ⟨?_, hqa, ?_, ?_, ?_⟩, hwakes, hqm⟩
    · rw [hsame cnode (Ne.symm hne)]
      simp [setRecord, update_of_ne (Ne.symm hne)]
    · rw [hmemw, not_or]
      exact ⟨h.asleep, Ne.symm hne⟩
    · intro k hk
      by_cases hks : k = slot.hnd
      · subst hks
        rw [hgone, if_pos ((hmemw _).2 (.inr rfl))]
      · rw [hsame k hks]
        simp [setRecord, update_of_ne hk, h.others k hk, hks, hmemw]
    · intro k hk
      by_cases hks : k = slot.hnd
      · subst hks
        exact hwalk
      · have hk := ((hmemw k).1 hk).resolve_right hks
        have hne' : k ≠ cnode := fun he => h.asleep (he ▸ hk)
        rw [hsame k hks]
        simp [setRecord, update_of_ne hks, update_of_ne hne', h.walking k hk]
  · intro hno
    rw [hmerge.2 hno]
    rfl

/-! ## All rounds -/

theorem slotMerged_iff (hne : slot.hnd ≠ cnode) (hr : (nodes slot.hnd).record = some r) (m : RecordMap D) :
    SlotMerged nodes cnode i slot m
      (merged (given i slot.pattern.fields.items) (given i slot.pattern.fields.items)
        (given i slot.pattern.btags.items) r.maps m) ↔
      (i ≠ 0 → (∀ name it, r.maps.fields name = some it → name ∈ slot.pattern.fields.items →
          m.fields name ≠ none ∨ given i slot.pattern.fields.items name = true ∧ it.consumed = false) ∧
        (∀ name it, r.maps.tags name = some it → name ∈ slot.pattern.tags.items →
          m.tags name ≠ none ∨ given i slot.pattern.fields.items name = true ∧ it.consumed = false) ∧
        ∀ name it, r.maps.btags name = some it → name ∈ slot.pattern.btags.items →
          m.btags name ≠ none ∨ given i slot.pattern.btags.items name = true ∧ it.consumed = false) := by
  have hfields := takesOver_taken (fieldKind D)
    (fun name it => if i = 0 then it.consumed = false else name ∈ slot.pattern.fields.items)
    r.maps.fields m.fields (given i slot.pattern.fields.items)
  have htags := takesOver_taken tagKind
    (fun name it => if i = 0 then it.consumed = false else name ∈ slot.pattern.tags.items)
    r.maps.tags m.tags (given i slot.pattern.fields.items)
  have hbtags := takesOver_taken tagKind
    (fun name it => if i = 0 then it.consumed = false else name ∈ slot.pattern.btags.items)
    r.maps.btags m.btags (given i slot.pattern.btags.items)
  constructor
  · intro h hi
    obtain ⟨hf, ht, hb⟩ := h.2 hne r hr
    refine ⟨?_, ?_, ?_⟩
    · intro name it hit hname
      exact hfields.1 hf name it hit (by rw [if_neg hi]; exact hname)
    · intro name it hit hname
      exact htags.1 ht name it hit (by rw [if_neg hi]; exact hname)
    · intro name it hit hname
      exact hbtags.1 hb name it hit (by rw [if_neg hi]; exact hname)
  · intro h
    refine ⟨⟨kept_taken, kept_taken, kept_taken⟩, ?_⟩
    intro _ r' hr'
    obtain rfl := Option.some.inj (hr.symm.trans hr')
    by_cases hi : i = 0
    · have hall : ∀ names name, given i names name = true := fun names name => given_eq_true.2 (.inl hi)
      refine ⟨hfields.2 ?_, htags.2 ?_, hbtags.2 ?_⟩
      · intro name it _ hw
        rw [if_pos hi] at hw
        exact .inr ⟨hall _ name, hw⟩
      · intro name it _ hw
        rw [if_pos hi] at hw
        exact .inr ⟨hall _ name, hw⟩
      · intro name it _ hw
        rw [if_pos hi] at hw
        exact .inr ⟨hall _ name, hw⟩
    · obtain ⟨hf, ht, hb⟩ := h hi
      refine ⟨hfields.2 ?_, htags.2 ?_, hbtags.2 ?_⟩
      · intro name it hit hw
        rw [if_neg hi] at hw
        exact hf name it hit hw
      · intro name it hit hw
        rw [if_neg hi] at hw
        exact ht name it hit hw
      · intro name it hit hw
        rw [if_neg hi] at hw
        exact hb name it hit hw

theorem allEnough_cons :
    AllEnough nodes cnode i (slot :: slots) ↔
      (i ≠ 0 → slot.hnd ≠ cnode → ∀ r, (nodes slot.hnd).record = some r → Enough r slot.pattern) ∧
        AllEnough nodes cnode (i + 1) slots := by
  constructor
  · intro h
    refine ⟨h 0 slot rfl, ?_⟩
    intro k slot' hk hi
    exact h (k + 1) slot' hk (by omega)
  · rintro ⟨h0, h⟩ k slot' hk hi
    cases k with
    | zero =>
      obtain rfl := Option.some.inj hk
      exact h0 hi
    | succ k => exact h k slot' hk (by omega)

section Kind

variable {V : Type} {named codeNames : VariantEncoding → List Int} {map : Record D → Map V} {has has' : Int → Prop}

theorem reached_congr (h : ∀ name, has name ↔ has' name) :
    Reached nodes cnode named codeNames map has i slots ↔ Reached nodes cnode named codeNames map has' i slots := by
  unfold Reached
  simp only [h]

theorem reached_cons :
    Reached nodes cnode named codeNames map has i (slot :: slots) ↔
      (i ≠ 0 → slot.hnd ≠ cnode → ∀ r it name, (nodes slot.hnd).record = some r → map r name = some it →
        name ∈ named slot.pattern → has name ∨ Gives nodes cnode codeNames map i slot name) ∧
      Reached nodes cnode named codeNames map
        (fun name => has name ∨ Gives nodes cnode codeNames map i slot name) (i + 1) slots := by
  constructor
  · intro h
    refine ⟨?_, ?_⟩
    · intro hi hne r it name hr hit hname
      rcases h 0 slot rfl hi hne r it name hr hit hname with hhas | ⟨j, slot', hj, hget, hgives⟩
      · exact .inl hhas
      · obtain rfl : j = 0 := Nat.le_zero.1 hj
        obtain rfl := Option.some.inj hget
        exact .inr hgives
    · intro k slot' hk hi hne r it name hr hit hname
      rcases h (k + 1) slot' hk (by omega) hne r it name hr hit hname with hhas | ⟨j, slot'', hj, hget, hgives⟩
      · exact .inl (.inl hhas)
      · cases j with
        | zero =>
          obtain rfl := Option.some.inj hget
          exact .inl (.inr hgives)
        | succ j =>
          rw [← Nat.add_assoc, Nat.add_right_comm] at hgives
          exact .inr ⟨j, slot'', Nat.le_of_succ_le_succ hj, hget, hgives⟩
  · rintro ⟨hhere, h⟩ k slot' hk hi hne r it name hr hit hname
    cases k with
    | zero =>
      obtain rfl := Option.some.inj hk
      rcases hhere hi hne r it name hr hit hname with hhas | hgives
      · exact .inl hhas
      · exact .inr ⟨0, slot, Nat.le_refl 0, rfl, hgives⟩
    | succ k =>
      rcases h k slot' hk (by omega) hne r it name hr hit hname with (hhas | hgives) | ⟨j, slot'', hj, hget, hgives⟩
      · exact .inl hhas
      · exact .inr ⟨0, slot, Nat.zero_le _, rfl, hgives⟩
      · rw [Nat.add_right_comm] at hgives
        exact .inr ⟨j + 1, slot'', Nat.succ_le_succ hj, hget, hgives⟩

theorem taken_iff_gives {kind : ItemKind V} {dst : Map V} {name : Int} (hne : slot.hnd ≠ cnode)
    (hr : (nodes slot.hnd).record = some r) :
    taken kind (given i (codeNames slot.pattern)) (map r) dst name ≠ none ↔
      dst name ≠ none ∨ Gives nodes cnode codeNames map i slot name := by
  rw [taken_ne_none, given_eq_true]
  apply or_congr Iff.rfl
  constructor
  · rintro ⟨hg, it, hit, hc⟩
    exact ⟨hne, hg, r, it, hr, hit, hc⟩
  · rintro ⟨-, hg, r', it, hr', hit, hc⟩
    obtain rfl := Option.some.inj (hr.symm.trans hr')
    exact ⟨hg, it, hit, hc⟩

theorem given_iff_gives {name : Int} {it : RecordItem V} (hne : slot.hnd ≠ cnode)
    (hr : (nodes slot.hnd).record = some r) (hit : map r name = some it) :
    (given i (codeNames slot.pattern) name = true ∧ it.consumed = false) ↔
      Gives nodes cnode codeNames map i slot name := by
  rw [given_eq_true]
  constructor
  · rintro ⟨hg, hc⟩
    exact ⟨hne, hg, r, it, hr, hit, hc⟩
  · rintro ⟨-, hg, r', it', hr', hit', hc⟩
    obtain rfl := Option.some.inj (hr.symm.trans hr')
    obtain rfl := Option.some.inj (hit.symm.trans hit')
    exact ⟨hg, hc⟩

end Kind

/-- The handles that are left are distinct, and none of them was started. -/
def Fresh (cnode : Nat) (wakes : List Nat) (slots : List Slot) : Prop :=
  (others cnode slots).Nodup ∧ ∀ h ∈ others cnode slots, h ∉ wakes

theorem others_cons_own (h : slot.hnd = cnode) : others cnode (slot :: slots) = others cnode slots := by
  simp [others, h]

theorem others_cons_ne (h : slot.hnd ≠ cnode) :
    others cnode (slot :: slots) = slot.hnd :: others cnode slots := by
  simp [others, h]

theorem fresh_cons {wakes : List Nat} (hne : slot.hnd ≠ cnode) :
    Fresh cnode wakes (slot :: slots) ↔ slot.hnd ∉ wakes ∧ Fresh cnode (wakes ++ [slot.hnd]) slots := by
  unfold Fresh
  rw [others_cons_ne hne, nodup_cons]
  constructor
  · rintro ⟨⟨hnot, hd⟩, hw⟩
    refine ⟨hw _ (mem_cons_self ..), hd, ?_⟩
    intro h hh
    rw [mem_append, mem_singleton, not_or]
    refine ⟨hw h (mem_cons_of_mem _ hh), ?_⟩
    rintro rfl
    exact hnot hh
  · rintro ⟨hnot, hd, hw⟩
    refine ⟨⟨?_, hd⟩, ?_⟩
    · intro hmem
      exact hw _ hmem (mem_append_right _ (mem_singleton_self _))
    · intro h hh
      rw [mem_cons] at hh
      rcases hh with rfl | hh
      · exact hnot
      · exact fun hmem => hw h hh (mem_append_left _ hmem)

/-- `Mergeable` for the rounds that are left. -/
structure MergeableFrom (nodes : Nat → ConsNode D) (cnode i : Nat) (wakes : List Nat) (m : RecordMap D)
    (slots : List Slot) : Prop where
  fresh : Fresh cnode wakes slots
  enough : AllEnough nodes cnode i slots
  fields : Reached nodes cnode (·.fields.items) (·.fields.items) (fun r : Record D => r.maps.fields)
    (fun name => m.fields name ≠ none) i slots
  tags : Reached nodes cnode (·.tags.items) (·.fields.items) (fun r : Record D => r.maps.tags)
    (fun name => m.tags name ≠ none) i slots
  btags : Reached nodes cnode (·.btags.items) (·.btags.items) (fun r : Record D => r.maps.btags)
    (fun name => m.btags name ≠ none) i slots

variable {m : RecordMap D} {wakes : List Nat}

theorem mergeableFrom_cons_own (hown : slot.hnd = cnode) :
    MergeableFrom nodes cnode i wakes m (slot :: slots) ↔ MergeableFrom nodes cnode (i + 1) wakes m slots := by
  have hno : ∀ {V : Type} {codeNames : VariantEncoding → List Int} {map : Record D → Map V} {has : Int → Prop} name,
      (has name ∨ Gives nodes cnode codeNames map i slot name) ↔ has name := by
    intro V codeNames map has name
    constructor
    · rintro (h | h)
      · exact h
      · exact absurd hown h.1
    · exact .inl
  constructor
  · rintro ⟨hw, he, hf, ht, hb⟩
    rw [Fresh, others_cons_own hown] at hw
    exact ⟨hw, (allEnough_cons.1 he).2, (reached_congr hno).1 (reached_cons.1 hf).2,
      (reached_congr hno).1 (reached_cons.1 ht).2, (reached_congr hno).1 (reached_cons.1 hb).2⟩
  · rintro ⟨hw, he, hf, ht, hb⟩
    refine ⟨?_, allEnough_cons.2 ⟨fun _ hne => absurd hown hne, he⟩,
      reached_cons.2 ⟨fun _ hne => absurd hown hne, (reached_congr hno).2 hf⟩,
      reached_cons.2 ⟨fun _ hne => absurd hown hne, (reached_congr hno).2 ht⟩,
      reached_cons.2 ⟨fun _ hne => absurd hown hne, (reached_congr hno).2 hb⟩⟩
    rw [Fresh, others_cons_own hown]
    exact hw

theorem mergeableFrom_cons_ne (hne : slot.hnd ≠ cnode) (hr : (nodes slot.hnd).record = some r) :
    MergeableFrom nodes cnode i wakes m (slot :: slots) ↔
      slot.hnd ∉ wakes ∧ (i = 0 ∨ Enough r slot.pattern) ∧
      SlotMerged nodes cnode i slot m
        (merged (given i slot.pattern.fields.items) (given i slot.pattern.fields.items)
          (given i slot.pattern.btags.items) r.maps m) ∧
      MergeableFrom nodes cnode (i + 1) (wakes ++ [slot.hnd])
        (merged (given i slot.pattern.fields.items) (given i slot.pattern.fields.items)
          (given i slot.pattern.btags.items) r.maps m) slots := by
  rw [slotMerged_iff hne hr]
  constructor
  · rintro ⟨hw, he, hf, ht, hb⟩
    obtain ⟨hnot, hw⟩ := (fresh_cons hne).1 hw
    obtain ⟨he0, he⟩ := allEnough_cons.1 he
    obtain ⟨hf0, hf⟩ := reached_cons.1 hf
    obtain ⟨ht0, ht⟩ := reached_cons.1 ht
    obtain ⟨hb0, hb⟩ := reached_cons.1 hb
    refine ⟨hnot, ?_, ?_, hw, he, (reached_congr fun name => taken_iff_gives hne hr).2 hf,
      (reached_congr fun name => taken_iff_gives hne hr).2 ht, (reached_congr fun name => taken_iff_gives hne hr).2 hb⟩
    · by_cases hi : i = 0
      · exact .inl hi
      · exact .inr (he0 hi hne r hr)
    · intro hi
      refine ⟨?_, ?_, ?_⟩
      · intro name it hit hname
        exact (hf0 hi hne r it name hr hit hname).imp_right (given_iff_gives hne hr hit).2
      · intro name it hit hname
        exact (ht0 hi hne r it name hr hit hname).imp_right (given_iff_gives hne hr hit).2
      · intro name it hit hname
        exact (hb0 hi hne r it name hr hit hname).imp_right (given_iff_gives hne hr hit).2
  · rintro ⟨hnot, he0, hhere, hw, he, hf, ht, hb⟩
    refine ⟨(fresh_cons hne).2 ⟨hnot, hw⟩, allEnough_cons.2 ⟨?_, he⟩, reached_cons.2 ⟨?_, ?_⟩,
      reached_cons.2 ⟨?_, ?_⟩, reached_cons.2 ⟨?_, ?_⟩⟩
    · intro hi _ r' hr'
      obtain rfl := Option.some.inj (hr.symm.trans hr')
      exact he0.resolve_left hi
    · intro hi _ r' it name hr' hit hname
      obtain rfl := Option.some.inj (hr.symm.trans hr')
      exact ((hhere hi).1 name it hit hname).imp_right (given_iff_gives hne hr hit).1
    · exact (reached_congr fun name => taken_iff_gives hne hr).1 hf
    · intro hi _ r' it name hr' hit hname
      obtain rfl := Option.some.inj (hr.symm.trans hr')
      exact ((hhere hi).2.1 name it hit hname).imp_right (given_iff_gives hne hr hit).1
    · exact (reached_congr fun name => taken_iff_gives hne hr).1 ht
    · intro hi _ r' it name hr' hit hname
      obtain rfl := Option.some.inj (hr.symm.trans hr')
      exact ((hhere hi).2.2 name it hit hname).imp_right (given_iff_gives hne hr hit).1
    · exact (reached_congr fun name => taken_iff_gives hne hr).1 hb

theorem mergesAll_iff (hinv : Inv nodes cnode c rc)
    (hrec : ∀ slot ∈ slots, ∃ r, (nodes slot.hnd).record = some r ∧ r.Aligned)
    (hlab : ∀ slot ∈ slots, Labels slot.pattern.fields ∧ Labels slot.pattern.btags) :
    MergesAll nodes cnode i slots c ↔ MergeableFrom nodes cnode i c.wakes rc.maps slots := by
  induction slots generalizing i c rc with
  | nil =>
    refine ⟨fun _ => ⟨⟨nodup_nil, fun h hh => absurd hh not_mem_nil⟩, ?_, ?_, ?_, ?_⟩, fun _ => trivial⟩
    · intro k slot hk
      cases hk
    · intro k slot hk
      cases hk
    · intro k slot hk
      cases hk
    · intro k slot hk
      cases hk
  | cons slot slots ih =>
    have hrec' : ∀ s ∈ slots, ∃ r, (nodes s.hnd).record = some r ∧ r.Aligned :=
      fun s hs => hrec s (mem_cons_of_mem _ hs)
    have hlab' : ∀ s ∈ slots, Labels s.pattern.fields ∧ Labels s.pattern.btags :=
      fun s hs => hlab s (mem_cons_of_mem _ hs)
    obtain ⟨r, hr, ha⟩ := hrec slot (mem_cons_self ..)
    obtain ⟨hf, hb⟩ := hlab slot (mem_cons_self ..)
    unfold MergesAll
    by_cases hown : slot.hnd = cnode
    · obtain ⟨c', hstep, hinv', hwakes⟩ := outputSlot_own (i := i) hinv hown
      rw [hstep, mergeableFrom_cons_own hown, ← hwakes, ← ih hinv' hrec' hlab']
      constructor
      · rintro ⟨c'', hc, -, hrest⟩
        obtain rfl := Option.some.inj hc
        exact hrest
      · intro hrest
        refine ⟨c', rfl, ⟨rc, rc, hinv.own, hinv'.own, ⟨fun _ _ h => h, fun _ _ h => h, fun _ _ h => h⟩, ?_⟩, hrest⟩
        exact fun hne => absurd hown hne
    · rw [mergeableFrom_cons_ne hown hr]
      by_cases hmem : slot.hnd ∈ c.wakes
      · rw [outputSlot_woken hinv hown hmem]
        constructor
        · rintro ⟨c', hc, -⟩
          cases hc
        · rintro ⟨hnot, -⟩
          exact absurd hmem hnot
      · obtain ⟨hsome, hnone⟩ := outputSlot_fresh (i := i) hinv hown hmem hr ha hf hb
        by_cases hok : i = 0 ∨ Enough r slot.pattern
        · obtain ⟨c', rc', hstep, hinv', hwakes, hmaps⟩ := hsome hok
          rw [hstep, ← hwakes, ← hmaps, ← ih hinv' hrec' hlab']
          constructor
          · rintro ⟨c'', hc, ⟨r1, r2, hr1, hr2, hm⟩, hrest⟩
            obtain rfl := Option.some.inj hc
            obtain rfl := Option.some.inj (hinv.own.symm.trans hr1)
            obtain rfl := Option.some.inj (hinv'.own.symm.trans hr2)
            exact ⟨hmem, hok, hm, hrest⟩
          · rintro ⟨-, -, hm, hrest⟩
            exact ⟨c', rfl, ⟨rc, rc', hinv.own, hinv'.own, hm⟩, hrest⟩
        · rw [hnone hok]
          constructor
          · rintro ⟨c', hc, -⟩
            cases hc
          · rintro ⟨-, hok', -⟩
            exact absurd hok' hok

theorem outputLoop_of_mergesAll (hinv : Inv nodes cnode c rc)
    (hrec : ∀ slot ∈ slots, ∃ r, (nodes slot.hnd).record = some r ∧ r.Aligned)
    (hlab : ∀ slot ∈ slots, Labels slot.pattern.fields ∧ Labels slot.pattern.btags)
    (h : MergesAll nodes cnode i slots c) :
    ∃ c' rc', outputLoop cnode i slots c = some c' ∧ Inv nodes cnode c' rc' ∧
      c'.wakes = c.wakes ++ others cnode slots := by
  induction slots generalizing i c rc with
  | nil => exact ⟨c, rc, rfl, hinv, (append_nil _).symm⟩
  | cons slot slots ih =>
    have hrec' : ∀ s ∈ slots, ∃ r, (nodes s.hnd).record = some r ∧ r.Aligned :=
      fun s hs => hrec s (mem_cons_of_mem _ hs)
    have hlab' : ∀ s ∈ slots, Labels s.pattern.fields ∧ Labels s.pattern.btags :=
      fun s hs => hlab s (mem_cons_of_mem _ hs)
    obtain ⟨r, hr, ha⟩ := hrec slot (mem_cons_self ..)
    obtain ⟨hf, hb⟩ := hlab slot (mem_cons_self ..)
    obtain ⟨c1, hstep, -, hrest⟩ := h
    by_cases hown : slot.hnd = cnode
    · obtain ⟨c1', hstep', hinv1, hwakes1⟩ := outputSlot_own (i := i) hinv hown
      obtain rfl := Option.some.inj (hstep.symm.trans hstep')
      obtain ⟨c2, rc2, hrun, hinv2, hwakes2⟩ := ih hinv1 hrec' hlab' hrest
      refine ⟨c2, rc2, ?_, hinv2, ?_⟩
      · rw [outputLoop, hstep]
        exact hrun
      · rw [hwakes2, hwakes1, others_cons_own hown]
    · have hmem : slot.hnd ∉ c.wakes := by
        intro hmem
        rw [outputSlot_woken hinv hown hmem] at hstep
        cases hstep
      obtain ⟨hsome, hnone⟩ := outputSlot_fresh (i := i) hinv hown hmem hr ha hf hb
      have hok : i = 0 ∨ Enough r slot.pattern := by
        by_contra hno
        rw [hnone hno] at hstep
        cases hstep
      obtain ⟨c1', rc1, hstep', hinv1, hwakes1, -⟩ := hsome hok
      obtain rfl := Option.some.inj (hstep.symm.trans hstep')
      obtain ⟨c2, rc2, hrun, hinv2, hwakes2⟩ := ih hinv1 hrec' hlab' hrest
      refine ⟨c2, rc2, ?_, hinv2, ?_⟩
      · rw [outputLoop, hstep]
        exact hrun
      · rw [hwakes2, hwakes1, others_cons_ne hown, append_assoc]
        rfl

theorem markWaking_record (h : Nat) : (markWaking slots nodes h).record = (nodes h).record := by
  unfold markWaking
  induction slots generalizing nodes with
  | nil => rfl
  | cons slot slots ih =>
    rw [foldl_cons, ih]
    by_cases hh : h = slot.hnd
    · subst hh
      simp
    · rw [update_of_ne hh]

variable (slots) in
theorem inv_init (hr : (nodes cnode).record = some r) (ha : r.Aligned) :
    Inv nodes cnode ⟨markWaking slots nodes, [], []⟩ r := by
  refine ⟨?_, ha, not_mem_nil, ?_, fun h hh => absurd hh not_mem_nil⟩
  · rw [markWaking_record, hr]
  · intro h _
    rw [markWaking_record, if_neg not_mem_nil]

theorem mergeable_iff (hr : (nodes cnode).record = some r) :
    Mergeable nodes cnode slots ↔ MergeableFrom nodes cnode 0 [] r.maps slots := by
  have hhas : ∀ {V : Type} (map : Record D → Map V) name, Has nodes cnode map name ↔ map r name ≠ none := by
    intro V map name
    constructor
    · rintro ⟨r', hr', h⟩
      obtain rfl := Option.some.inj (hr.symm.trans hr')
      exact h
    · intro h
      exact ⟨r, hr, h⟩
  constructor
  · rintro ⟨hd, he, hf, ht, hb⟩
    exact ⟨⟨hd, fun _ _ => not_mem_nil⟩, he, (reached_congr (hhas _)).1 hf, (reached_congr (hhas _)).1 ht,
      (reached_congr (hhas _)).1 hb⟩
  · rintro ⟨⟨hd, -⟩, he, hf, ht, hb⟩
    exact ⟨hd, he, (reached_congr (hhas _)).2 hf, (reached_congr (hhas _)).2 ht, (reached_congr (hhas _)).2 hb⟩

end Rounds

/-! ## Two cells with two patterns -/

def fieldRec (name : Int) (data : Nat) : Record Nat :=
  ⟨⟨some [name], [⟨⟨some data, true, true⟩, false, false⟩]⟩, ⟨none, []⟩, ⟨none, []⟩⟩

def btagRec (name val : Int) : Record Nat :=
  ⟨⟨none, []⟩, ⟨none, []⟩, ⟨some [name], [⟨val, false, false⟩]⟩⟩

theorem aligned_fieldRec {name : Int} {data : Nat} (h : unsetItemVal ≠ name) : (fieldRec name data).Aligned := by
  refine ⟨⟨rfl, nodup_singleton _, ?_, ?_⟩, ⟨rfl, nodup_nil, not_mem_nil, ?_⟩,
    ⟨rfl, nodup_nil, not_mem_nil, ?_⟩⟩
  · exact fun hmem => h (mem_singleton.1 hmem)
  · intro it hit
    rw [mem_singleton.1 hit]
  · exact fun it hit => absurd hit not_mem_nil
  · exact fun it hit => absurd hit not_mem_nil

theorem aligned_btagRec {name val : Int} (h : unsetItemVal ≠ name) : (btagRec name val).Aligned := by
  refine ⟨⟨rfl, nodup_nil, not_mem_nil, ?_⟩, ⟨rfl, nodup_nil, not_mem_nil, ?_⟩,
    ⟨rfl, nodup_singleton _, ?_, ?_⟩⟩
  · exact fun it hit => absurd hit not_mem_nil
  · exact fun it hit => absurd hit not_mem_nil
  · exact fun hmem => h (mem_singleton.1 hmem)
  · intro it hit
    rw [mem_singleton.1 hit]

def pair (r0 r1 : Record Nat) (h : Nat) : ConsNode Nat :=
  ⟨some (if h = 0 then r0 else r1), .waitSynccell, false, false, true, true⟩

def fieldAndBTag : List Slot := [⟨0, ⟨some [1], none, none⟩⟩, ⟨1, ⟨none, none, some [5]⟩⟩]

theorem mergeable_fieldAndBTag : Mergeable (pair (fieldRec 1 10) (btagRec 5 50)) 0 fieldAndBTag := by
  refine ⟨by decide, ?_, ?_, ?_, ?_⟩
  · rintro (_ | _ | k) slot ⟨⟩ hi hne r ⟨⟩
    · exact absurd rfl hi
    · exact ⟨by decide, by decide, by decide⟩
  · rintro (_ | _ | k) slot ⟨⟩ hi hne r it name ⟨⟩ hit hname
    · exact absurd rfl hi
    · cases hname
  · rintro (_ | _ | k) slot ⟨⟩ hi hne r it name ⟨⟩ hit hname
    · exact absurd rfl hi
    · cases hname
  · rintro (_ | _ | k) slot ⟨⟩ hi hne r it name ⟨⟩ hit hname
    · exact absurd rfl hi
    · obtain rfl := mem_singleton.1 hname
      exact .inr ⟨1, ⟨1, ⟨none, none, some [5]⟩⟩, Nat.le_refl 1, rfl, hne, .inr hname, btagRec 5 50,
        ⟨50, false, false⟩, rfl, by decide, rfl⟩

def twoFields : List Slot := [⟨0, ⟨some [1], none, none⟩⟩, ⟨1, ⟨some [2], none, none⟩⟩]

end SNet.Svpgw.Synccell
