import SNetRts.Svpgw.Record

/-!
# Runs over data records

Any sequence of operations on any number of records, over the vectors of the code and over the finite maps that
they stand for. `FairRun` says of each step that it is one that the code does rightly; `Op.step_spec` is what
one such step keeps, and `run_spec` what a run does.
-/

namespace SNet.Svpgw

open List

open SNet.Svpgw.Vector (unsetItemVal)

variable {D : Type}

/-- What an operation returns, counts apart. -/
inductive Out (D : Type) where
  | done
  | tag (val : Int)
  | field (slot : Option (Option D))
deriving DecidableEq, Repr

/-- An operation on one record. -/
inductive RecOp (D : Type) where
  | addItems (req : ItemNames)
  | removeItems (req : ItemNames)
  | getTag (name : Int)
  | takeTag (name : Int)
  | setTag (name val : Int)
  | getBTag (name : Int)
  | takeBTag (name : Int)
  | setBTag (name val : Int)
  | getField (name : Int)
  | takeField (name : Int)
  | setField (name : Int) (val : Option D)

/-- An operation on a store of records, which are named by their places. -/
inductive Op (D : Type) where
  | create (venc : VariantEncoding) (fields : List (Option D)) (tags btags : List Int)
  | createCopy (src : Nat)
  | on (i : Nat) (op : RecOp D)
  | copyItems (i j : Nat) (flags : ItemsCopyFlags) (specs : Option CopySpecs)

namespace RecOp

def run (r : Record D) : RecOp D → Option (Record D × Out D)
  | addItems req => some ((r.addItems req).1, .done)
  | removeItems req => (r.removeItems req).map fun p => (p.1, .done)
  | getTag name => (r.getTag name).map fun val => (r, .tag val)
  | takeTag name => (r.takeTag name).map fun p => (p.1, .tag p.2)
  | setTag name val => (r.setTag name val).map fun r => (r, .done)
  | getBTag name => (r.getBTag name).map fun val => (r, .tag val)
  | takeBTag name => (r.takeBTag name).map fun p => (p.1, .tag p.2)
  | setBTag name val => (r.setBTag name val).map fun r => (r, .done)
  | getField name => (r.getField name).map fun slot => (r, .field slot)
  | takeField name => (r.takeField name).map fun p => (p.1, .field p.2)
  | setField name val => (r.setField name val).map fun r => (r, .done)

def onMaps (m : RecordMap D) : RecOp D → RecordMap D × Out D
  | addItems req => (m.addItems req, .done)
  | removeItems req => (m.removeItems req, .done)
  | getTag name => (m, .tag (tagVal m.tags name))
  | takeTag name =>
    ({ m with tags := updated m.tags name fun t => { t with consumed := true } }, .tag (tagVal m.tags name))
  | setTag name val => ({ m with tags := updated m.tags name fun t => { t with val := val } }, .done)
  | getBTag name => (m, .tag (tagVal m.btags name))
  | takeBTag name =>
    ({ m with btags := updated m.btags name fun t => { t with consumed := true } }, .tag (tagVal m.btags name))
  | setBTag name val => ({ m with btags := updated m.btags name fun t => { t with val := val } }, .done)
  | getField name => (m, .field (fieldSlot m.fields name))
  | takeField name =>
    ({ m with fields := updated m.fields name fun f => { f with consumed := true } },
      .field (fieldSlot m.fields name))
  | setField name val => ({ m with fields := updated m.fields name fun _ => ⟨setFieldData val, false, false⟩ }, .done)

/-- No name is the value of an unset entry, no more names are removed than there are items, and a label vector
is there to be searched. -/
def Fair (r : Record D) : RecOp D → Prop
  | addItems req => unsetItemVal ∉ req.names
  | removeItems req =>
    unsetItemVal ∉ req.names ∧ req.fields.length ≤ r.fields.names.size ∧
      req.tags.length ≤ r.tags.names.size ∧ req.btags.length ≤ r.btags.names.size
  | getTag _ | takeTag _ | setTag _ _ => r.tags.names ≠ none
  | getBTag _ | takeBTag _ | setBTag _ _ => r.btags.names ≠ none
  | getField _ | takeField _ | setField _ _ => r.fields.names ≠ none

theorem run_spec {r : Record D} {op : RecOp D} (h : r.Aligned) (hf : op.Fair r) :
    ∃ r' out, op.run r = some (r', out) ∧ r'.Aligned ∧ op.onMaps r.maps = (r'.maps, out) := by
  obtain ⟨hfields, htags, hbtags⟩ := h
  cases op with
  | addItems req =>
    obtain ⟨ha, hm⟩ := Record.addItems_spec ⟨hfields, htags, hbtags⟩ hf
    exact ⟨_, _, rfl, ha, congrArg (·, Out.done) hm.symm⟩
  | removeItems req =>
    obtain ⟨p, hp, ha, hm⟩ := Record.removeItems_spec ⟨hfields, htags, hbtags⟩ hf.1 hf.2.1 hf.2.2.1 hf.2.2.2
    refine ⟨p.1, .done, ?_, ha, congrArg (·, Out.done) hm.symm⟩
    rw [run, hp]
    rfl
  | getTag name =>
    refine ⟨r, _, ?_, ⟨hfields, htags, hbtags⟩, rfl⟩
    rw [run, Record.getTag, htags.getTag hf]
    rfl
  | takeTag name =>
    obtain ⟨iv, hrun, ha, hm⟩ := htags.takeTag hf name
    refine ⟨{ r with tags := iv }, .tag (tagVal r.tags.map name), ?_, ⟨hfields, ha, hbtags⟩, ?_⟩
    · rw [run, Record.takeTag, hrun]
      rfl
    · rw [onMaps, Record.maps, Record.maps, hm]
  | setTag name val =>
    obtain ⟨iv, hrun, ha, hm⟩ := htags.setTag hf name val
    refine ⟨{ r with tags := iv }, .done, ?_, ⟨hfields, ha, hbtags⟩, ?_⟩
    · rw [run, Record.setTag, hrun]
      rfl
    · rw [onMaps, Record.maps, Record.maps, hm]
  | getBTag name =>
    refine ⟨r, _, ?_, ⟨hfields, htags, hbtags⟩, rfl⟩
    rw [run, Record.getBTag, hbtags.getTag hf]
    rfl
  | takeBTag name =>
    obtain ⟨iv, hrun, ha, hm⟩ := hbtags.takeTag hf name
    refine ⟨{ r with btags := iv }, .tag (tagVal r.btags.map name), ?_, ⟨hfields, htags, ha⟩, ?_⟩
    · rw [run, Record.takeBTag, hrun]
      rfl
    · rw [onMaps, Record.maps, Record.maps, hm]
  | setBTag name val =>
    obtain ⟨iv, hrun, ha, hm⟩ := hbtags.setTag hf name val
    refine ⟨{ r with btags := iv }, .done, ?_, ⟨hfields, htags, ha⟩, ?_⟩
    · rw [run, Record.setBTag, hrun]
      rfl
    · rw [onMaps, Record.maps, Record.maps, hm]
  | getField name =>
    refine ⟨r, _, ?_, ⟨hfields, htags, hbtags⟩, rfl⟩
    rw [run, Record.getField, hfields.fieldSlot hf]
    rfl
  | takeField name =>
    obtain ⟨p, hrun, ha, hm, hf⟩ :=
      hfields.updateItem hf name (f := fun f => { f with consumed := true }) fun it hit => hit
    refine ⟨{ r with fields := p.1 }, .field (fieldSlot r.fields.map name), ?_, ⟨ha, htags, hbtags⟩, ?_⟩
    · rw [run, Record.takeField, fieldSlot, hrun, ← hf]
      rfl
    · rw [onMaps, Record.maps, Record.maps, hm]
  | setField name val =>
    obtain ⟨p, hrun, ha, hm, -⟩ :=
      hfields.updateItem hf name (f := fun _ => ⟨setFieldData val, false, false⟩) fun it hit => rfl
    refine ⟨{ r with fields := p.1 }, .done, ?_, ⟨ha, htags, hbtags⟩, ?_⟩
    · rw [run, Record.setField, hrun]
      rfl
    · rw [onMaps, Record.maps, Record.maps, hm]

end RecOp

namespace Op

def step (store : List (Record D)) : Op D → Option (List (Record D) × Out D)
  | create venc fields tags btags => do
    let r ← Record.initFromArrays venc fields tags btags
    some (store ++ [r], .done)
  | createCopy src => do
    let r ← store[src]?
    let (r, copy) ← r.initCopy
    some (store.set src r ++ [copy], .done)
  | on i op => do
    let r ← store[i]?
    let (r, out) ← op.run r
    some (store.set i r, out)
  | copyItems i j flags specs => do
    let r1 ← store[i]?
    let r2 ← store[j]?
    if i = j then none
    else
      let (r1, r2, _) ← Record.copyItems flags specs r1 r2
      some ((store.set i r1).set j r2, .done)

def onMaps (store : List (RecordMap D)) : Op D → Option (List (RecordMap D) × Out D)
  | create venc fields tags btags => some (store ++ [RecordMap.initFromArrays venc fields tags btags], .done)
  | createCopy src => store[src]?.map fun m => (store.set src m.initCopy.1 ++ [m.initCopy.2], .done)
  | on i op => store[i]?.map fun m => (store.set i (op.onMaps m).1, (op.onMaps m).2)
  | copyItems i j flags specs => do
    let m1 ← store[i]?
    let m2 ← store[j]?
    let (m1, m2) := RecordMap.copyItems flags specs m1 m2
    some ((store.set i m1).set j m2, .done)

/-- A step that the code does rightly. A new record has distinct labels, none with the value of an unset entry,
and a value for each. A record that is copied has binding tags just if it has tags, unset vectors apart that are
both left out. -/
def Fair (store : List (Record D)) : Op D → Prop
  | create venc fields tags btags =>
    (∀ v ∈ [venc.fields, venc.tags, venc.btags], v.Distinct ∧ unsetItemVal ∉ v.items) ∧
      fields.length = venc.fields.size ∧ tags.length = venc.tags.size ∧ btags.length = venc.btags.size
  | createCopy src =>
    ∃ r, store[src]? = some r ∧ (r.tags.names = none → r.btags.names.items = []) ∧
      (r.tags.names ≠ none → r.btags.names ≠ none)
  | on i op => ∃ r, store[i]? = some r ∧ op.Fair r
  | copyItems i j flags specs =>
    i ≠ j ∧ ∃ r1 r2, store[i]? = some r1 ∧ store[j]? = some r2 ∧ Record.CopyItemsFair flags specs r1 r2

variable {store : List (Record D)} {op : Op D}

theorem aligned_set {r : Record D} {i : Nat} (h : ∀ r ∈ store, r.Aligned) (hr : r.Aligned) :
    ∀ r' ∈ store.set i r, r'.Aligned := by
  intro r' hr'
  rcases mem_or_eq_of_mem_set hr' with hmem | rfl
  · exact h r' hmem
  · exact hr

theorem aligned_concat {r : Record D} (h : ∀ r ∈ store, r.Aligned) (hr : r.Aligned) :
    ∀ r' ∈ store ++ [r], r'.Aligned := by
  intro r' hr'
  rw [mem_append, mem_singleton] at hr'
  rcases hr' with hmem | rfl
  · exact h r' hmem
  · exact hr

theorem step_spec (h : ∀ r ∈ store, r.Aligned) (hf : op.Fair store) :
    ∃ store' out, op.step store = some (store', out) ∧ (∀ r ∈ store', r.Aligned) ∧
      op.onMaps (store.map Record.maps) = some (store'.map Record.maps, out) := by
  cases op with
  | create venc fields tags btags =>
    obtain ⟨hvenc, hfl, htl, hbl⟩ := hf
    obtain ⟨r, hrun, ha, hm⟩ := Record.initFromArrays_spec hvenc hfl htl hbl
    refine ⟨store ++ [r], .done, ?_, aligned_concat h ha, ?_⟩
    · rw [step, hrun]
      rfl
    · rw [onMaps, ← hm, map_append]
      rfl
  | createCopy src =>
    obtain ⟨r, hr, hnull, hthere⟩ := hf
    obtain ⟨p, hrun, ha1, ha2, hm⟩ := Record.initCopy_spec (h r (mem_of_getElem? hr)) hnull hthere
    refine ⟨store.set src p.1 ++ [p.2], .done, ?_, aligned_concat (aligned_set h ha1) ha2, ?_⟩
    · rw [step, hr]
      simp only [Option.bind_eq_bind, Option.bind_some, hrun]
    · rw [onMaps, getElem?_map, hr, Option.map_some, Option.map_some, ← hm, map_append, map_set]
      rfl
  | on i op =>
    obtain ⟨r, hr, hop⟩ := hf
    obtain ⟨r', out, hrun, ha, hm⟩ := RecOp.run_spec (h r (mem_of_getElem? hr)) hop
    refine ⟨store.set i r', out, ?_, aligned_set h ha, ?_⟩
    · rw [step, hr]
      simp only [Option.bind_eq_bind, Option.bind_some, hrun]
    · rw [onMaps, getElem?_map, hr, Option.map_some, Option.map_some, hm, map_set]
  | copyItems i j flags specs =>
    obtain ⟨hij, r1, r2, hr1, hr2, hfair⟩ := hf
    obtain ⟨p, hrun, ha1, ha2, hm⟩ :=
      Record.copyItems_spec (h r1 (mem_of_getElem? hr1)) (h r2 (mem_of_getElem? hr2)) hfair
    refine ⟨(store.set i p.1).set j p.2.1, .done, ?_, aligned_set (aligned_set h ha1) ha2, ?_⟩
    · rw [step, hr1, hr2]
      simp only [Option.bind_eq_bind, Option.bind_some, if_neg hij, hrun]
    · rw [onMaps, getElem?_map, getElem?_map, hr1, hr2]
      simp only [Option.map_some, Option.bind_eq_bind, Option.bind_some, ← hm, map_set]

end Op

/-! ## Runs -/

def run : List (Op D) → List (Record D) → Option (List (Record D) × List (Out D))
  | [], store => some (store, [])
  | op :: ops, store => do
    let (store, out) ← op.step store
    let (store, outs) ← run ops store
    some (store, out :: outs)

def runOnMaps : List (Op D) → List (RecordMap D) → Option (List (RecordMap D) × List (Out D))
  | [], store => some (store, [])
  | op :: ops, store => do
    let (store, out) ← op.onMaps store
    let (store, outs) ← runOnMaps ops store
    some (store, out :: outs)

def FairRun : List (Op D) → List (Record D) → Prop
  | [], _ => True
  | op :: ops, store =>
    op.Fair store ∧
      match op.step store with
      | none => False
      | some (store, _) => FairRun ops store

variable {ops : List (Op D)} {store : List (Record D)}

theorem FairRun.take (h : FairRun ops store) (k : Nat) : FairRun (ops.take k) store := by
  induction ops generalizing k store with
  | nil => rw [take_nil]; exact trivial
  | cons op ops ih =>
    cases k with
    | zero => exact trivial
    | succ k =>
      obtain ⟨hf, hrest⟩ := h
      refine ⟨hf, ?_⟩
      split
      · next hnone =>
        rw [hnone] at hrest
        exact hrest
      · next hsome =>
        rw [hsome] at hrest
        exact ih hrest k

theorem run_spec (h : ∀ r ∈ store, r.Aligned) (hf : FairRun ops store) :
    ∃ store' outs, run ops store = some (store', outs) ∧ (∀ r ∈ store', r.Aligned) ∧
      runOnMaps ops (store.map Record.maps) = some (store'.map Record.maps, outs) := by
  induction ops generalizing store with
  | nil => exact ⟨store, [], rfl, h, rfl⟩
  | cons op ops ih =>
    obtain ⟨hstep, hrest⟩ := hf
    obtain ⟨store', out, hrun, ha, hm⟩ := Op.step_spec h hstep
    rw [hrun] at hrest
    obtain ⟨store'', outs, hrun', ha', hm'⟩ := ih ha hrest
    refine ⟨store'', out :: outs, ?_, ha', ?_⟩
    · rw [run, hrun]
      simp only [Option.bind_eq_bind, Option.bind_some, hrun']
    · rw [runOnMaps, hm]
      simp only [Option.bind_eq_bind, Option.bind_some, hm']

/-- In a fair run, every record that is reached is the map that the operations have made of it: names and values
have one length, the `k`-th value is that of the `k`-th name, and everything that was returned is right. -/
theorem records_are_maps (hf : FairRun ops []) (k : Nat) :
    ∃ store outs, run (ops.take k) [] = some (store, outs) ∧
      (∀ r ∈ store, r.Aligned ∧
        (∀ (i : Nat) (name : Int), r.fields.names.items[i]? = some name → r.maps.fields name = r.fields.items[i]?) ∧
        (∀ (i : Nat) (name : Int), r.tags.names.items[i]? = some name → r.maps.tags name = r.tags.items[i]?) ∧
        ∀ (i : Nat) (name : Int), r.btags.names.items[i]? = some name → r.maps.btags name = r.btags.items[i]?) ∧
      runOnMaps (ops.take k) [] = some (store.map Record.maps, outs) := by
  have hnil : ∀ r ∈ ([] : List (Record D)), r.Aligned := fun r hr => absurd hr not_mem_nil
  obtain ⟨store, outs, hrun, ha, hm⟩ := run_spec hnil (hf.take k)
  refine ⟨store, outs, hrun, ?_, hm⟩
  intro r hr
  have h := ha r hr
  exact ⟨h, fun i name => h.fields.map_getElem, fun i name => h.tags.map_getElem, fun i name => h.btags.map_getElem⟩

def renameTag : CopySpecs := ⟨⟨[5], 0, 1, 0, rfl⟩, some [6], fun l h => by cases h; rfl⟩

/-- A copy of a record is changed, gets a tag back under a new name, and is moved into the record. -/
def copied : List (Op Nat) :=
  [.create ⟨some [1, 2], some [5], some [7]⟩ [some 10, none] [50] [70], .createCopy 0,
    .on 1 (.removeItems ⟨[2, 5], 1, 1, 0, rfl⟩), .on 1 (.takeBTag 7),
    .copyItems 0 1 ⟨⟨false, true, false⟩, false, true, false⟩ (some renameTag),
    .copyItems 1 0 ⟨⟨true, true, true⟩, true, true, true⟩ none]

theorem fairRun_copied : FairRun copied [] := by
  refine And.intro ⟨by decide, rfl, rfl, rfl⟩ ?_
  refine And.intro ⟨_, rfl, fun h => absurd h (by decide), fun _ => by decide⟩ ?_
  refine And.intro ⟨_, rfl, And.intro (by decide) ⟨by decide, by decide, by decide⟩⟩ ?_
  refine And.intro ⟨_, rfl, show _ ≠ _ by decide⟩ ?_
  refine And.intro ⟨by decide, _, _, rfl, rfl, ?_⟩ ?_
  · refine ⟨?_, fun _ _ h => absurd h (by decide), ?_, fun _ _ h => absurd h (by decide)⟩
    · rintro s ⟨⟩
      exact ⟨by decide, fun l h => by cases h; decide⟩
    · rintro s ⟨⟩ -
      exact ⟨fun _ => by decide, .inl ⟨rfl, rfl⟩,
        fun _ _ => ⟨6, rfl, by decide, fun h => absurd h (by decide)⟩, trivial⟩
  refine And.intro ⟨by decide, _, _, rfl, rfl, ?_⟩ trivial
  exact ⟨fun _ h => (nomatch h), fun _ h => (nomatch h), fun _ h => (nomatch h), fun _ h => (nomatch h)⟩

theorem records_are_maps_copied :
    ∃ store outs, run (copied.take 6) [] = some (store, outs) ∧
      (∀ r ∈ store, r.Aligned ∧
        (∀ (i : Nat) (name : Int), r.fields.names.items[i]? = some name → r.maps.fields name = r.fields.items[i]?) ∧
        (∀ (i : Nat) (name : Int), r.tags.names.items[i]? = some name → r.maps.tags name = r.tags.items[i]?) ∧
        ∀ (i : Nat) (name : Int), r.btags.names.items[i]? = some name → r.maps.btags name = r.btags.items[i]?) ∧
      runOnMaps (copied.take 6) [] = some (store.map Record.maps, outs) :=
  records_are_maps fairRun_copied 6

/-! ## A run that is not fair -/

def renameField : CopySpecs := ⟨⟨[1], 1, 0, 0, rfl⟩, some [2], fun l h => by cases h; rfl⟩

def moved : List (Op Unit) :=
  [.create ⟨some [1], none, none⟩ [some ()] [] [], .create ⟨none, none, none⟩ [] [] [],
    .copyItems 0 1 ⟨⟨true, true, true⟩, true, false, false⟩ (some renameField)]

/-- The source keeps the name and loses the value. -/
theorem moved_apart :
    ∃ store outs, run moved [] = some (store, outs) ∧
      ∃ r ∈ store, r.fields.names.items = [1] ∧ r.fields.items = [] := by
  refine ⟨_, _, rfl, _, mem_cons_self .., ?_, ?_⟩
  · rfl
  · rfl

end SNet.Svpgw
