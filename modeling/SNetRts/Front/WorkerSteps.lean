import SNetRts.Front.Worker
import SNetRts.Lib.Tickets
import Mathlib.Data.Fintype.BigOperators
import Mathlib.Data.List.Count

/-!
# What the workers do

`Inv` is what is kept in every run of the workers: the landings fit together (`Net`), the workers have the
landings locked that they are at (`Locks`), and the ledger of the licences and references is balanced
(`Counts`). Where it holds, no step fails an assertion, and `Does` is what a step can do (`step_does`).
-/

namespace SNet.Front.Work

open Function (update update_of_ne update_self)

open Lib List

variable {W R : Type*}

namespace Pc

def licences : Pc R → Nat → Nat
  | passing d n, x | looting d _ n, x => if x = d then n else 0
  | reading d, x => if x = d then 1 else 0
  | _, _ => 0

/-- The descriptors of the records that it has taken and not finished. -/
def held : Pc R → List Nat
  | serving _ d cont => d.toList ++ (cont.map Prod.fst).toList
  | forwarding d _ => [d]
  | releasing d cont => d :: (cont.map Prod.fst).toList
  | _ => []

def quiet : Pc R → Bool
  | idle | passing _ _ | looting _ _ _ => true
  | _ => false

def descs : Pc R → List Nat
  | passing d _ | looting d _ _ | reading d => [d]
  | pc => pc.held

end Pc

namespace Worker

def licences (x : Worker R) (d : Nat) : Nat := (x.item d).getD 0 + x.pc.licences d

/-- A worker knows the first `n` descriptors. -/
structure Known (x : Worker R) (n : Nat) : Prop where
  item : ∀ d, x.item d ≠ none → d < n
  pc : ∀ d ∈ x.pc.descs, d < n
  loot : ∀ d known count, x.pc = .looting d known count → (known = true ↔ x.item d ≠ none)
  input : ∀ l cont, x.pc = .serving l none cont → cont = none

end Worker

def Landing.handles (x : Landing W) (d : Nat) : Nat := if x.ended then 0 else x.kind.outs.count d

namespace State

variable [DecidableEq W]

/-- The next descriptor on the way over landings that are not nodes. -/
def next (s : State W R) (d : Nat) : Option Nat :=
  match s.kind d with
  | .node _ => none
  | .identity e | .garbage e => some e

def past (s : State W R) (d : Nat) : Option Nat :=
  if d < s.descs then
    match s.kind d with
    | .garbage e => some e
    | _ => none
  else none

/-- The references of landings to a descriptor, and those of workers. -/
def handles (s : State W R) (d : Nat) : Nat := ∑ l ∈ Finset.range s.landings, (s.landing l).handles d

def heldCount [Fintype W] (s : State W R) (d : Nat) : Nat := ∑ w, (s.worker w).pc.held.count d

def ledger [Fintype W] (s : State W R) : Ledger Nat where
  places := Finset.range s.descs
  next := s.past
  len d := (s.desc d).fifo.length
  tickets d := ∑ w, (s.worker w).licences d
  other d := s.handles d + s.heldCount d
  refs d := (s.desc d).refs

def letGo (s : State W R) (d n : Nat) : State W R :=
  s.setDesc d { s.desc d with refs := (s.desc d).refs - n, closed := decide ((s.desc d).refs - n = 0) }

def start (s : State W R) (d : Nat) (item : R) : Pc R :=
  if (s.kind d).isNode then .serving (s.desc d).landing (some d) none else .forwarding d item

def put (s : State W R) (w : W) (d : Nat) (item : R) : State W R :=
  (s.setDesc d { s.desc d with refs := (s.desc d).refs + 1, fifo := fifoPut (s.desc d).fifo item }).todo w d

/-- A record is put into a queue, and the first one is taken out of it. -/
def putGet (s : State W R) (w : W) (d : Nat) (item : R) : State W R :=
  let r := fifoPutGet (s.desc d).fifo item
  let t := s.setDesc d { s.desc d with refs := (s.desc d).refs + 1, fifo := r.2 }
  (t.setLock (s.desc d).landing (some w)).receive d r.1

/-- A node has written a record on the way to `f`. -/
def note (s : State W R) (f : Nat) (items : List R) : State W R :=
  { s with line := update s.line f (s.line f ++ items) }

/-- The descriptor `d` of the landing `l` is merged into `next`. -/
def merged (s : State W R) (l d next : Nat) : State W R :=
  let x := s.desc d
  let y := s.desc next
  let x' : Desc R := { x with fifo := [], refs := x.refs - 1, closed := decide (x.refs - 1 = 0) }
  let y' : Desc R := { y with fifo := y.fifo ++ x.fifo, source := x.source, refs := y.refs + x.fifo.length + 1 }
  let lands := update s.landing x.landing { s.landing x.landing with kind := .garbage next }
  { s with
    desc := update (update s.desc d x') next y'
    landing := update lands l { s.landing l with kind := (s.landing l).kind.replace d next } }

/-- The landing `l` opens a descriptor. -/
def opened (s : State W R) (l : Nat) (outs : List Nat) (land : Option Nat) : State W R :=
  let d := s.descs
  { (s.setDesc d ⟨land.getD s.landings, l, [], 1, false⟩).setKind l (.node (outs ++ [d])) with
    descs := d + 1
    landings := if land.isNone then s.landings + 1 else s.landings
    final := update s.final d d
    line := update s.line d []
    got := update s.got d [] }

/-- The landing `l`, which has read from `d`, is an identity then. -/
def identified (s : State W R) (l d out : Nat) (item : Option R) : State W R :=
  { (s.setKind l (.identity out)).note (s.final out) (item.toList ++ (s.line d).drop (s.got d).length) with
    final := fun x => if (s.desc (s.final x)).landing = l then s.final out else s.final x }

def addLanding (s : State W R) (w : W) : State W R :=
  { s.setLanding s.landings ⟨.node [], some w, false⟩ with landings := s.landings + 1 }

def end_ (s : State W R) (l : Nat) : State W R := s.setLanding l { s.landing l with ended := true }

end State

/-! ## The invariant -/

section invariant

variable [DecidableEq W]

/-- The descriptors and the landings fit together. -/
structure Net (s : State W R) : Prop where
  fresh : ∀ d, s.descs ≤ d → s.desc d = ⟨0, 0, [], 0, false⟩
  freshLanding : ∀ l, s.landings ≤ l → s.landing l = ⟨.node [], none, false⟩
  input : 0 < s.landings
  landing_lt : ∀ d < s.descs, (s.desc d).landing < s.landings
  out_lt : ∀ l, ∀ d ∈ (s.landing l).kind.outs, d < s.descs
  nodup : ∀ l, (s.landing l).kind.outs.Nodup
  /-- Only its source has a descriptor open, but for garbage landings. -/
  source : ∀ l, (s.landing l).kind.isGarbage = false → (s.landing l).ended = false →
    ∀ d ∈ (s.landing l).kind.outs, (s.desc d).source = l
  /-- A descriptor that is open does not go to a garbage landing. -/
  live : ∀ l, (s.landing l).kind.isGarbage = false → (s.landing l).ended = false →
    ∀ d ∈ (s.landing l).kind.outs, (s.kind d).isGarbage = false
  /-- One descriptor to a landing that is not a node is left. -/
  sole : ∀ d < s.descs, ∀ e < s.descs, (s.desc d).landing = (s.desc e).landing →
    (s.desc d).closed = false → (s.desc e).closed = false → (s.kind d).isNode = false → d = e
  ended : ∀ l, (s.landing l).ended = true → (s.landing l).kind.isNode = false ∧ ClosedTo s l []
  final_lt : ∀ d < s.descs, s.final d < s.descs
  final : ∀ d < s.descs, Leads s.next d (s.final d) ∧ (s.kind (s.final d)).isNode = true

/-- The workers have the landings locked that they are at, and garbage is not locked. -/
structure Locks (s : State W R) : Prop where
  locked : ∀ l, (s.landing l).lock ≠ none → (s.landing l).kind.isGarbage = false
  place : ∀ w, ∀ l ∈ s.places w, (s.landing l).lock = some w
  nodup : ∀ w, (s.places w).Nodup
  forwarding : ∀ w d item, (s.worker w).pc = .forwarding d item → ∃ e, s.kind d = .identity e

/-- The queues, licences and references of the descriptors. -/
structure Counts [Fintype W] (s : State W R) : Prop where
  balanced : s.ledger.Balanced
  closed : ∀ d < s.descs, (s.desc d).closed = true ↔ (s.desc d).refs = 0

structure Inv [Fintype W] (s : State W R) : Prop where
  net : Net s
  locks : Locks s
  known : ∀ w, (s.worker w).Known s.descs
  counts : Counts s

end invariant

/-- What a step can do. -/
inductive Does [DecidableEq W] [Fintype W] (s : State W R) : State W R → Prop
  | input (w : W) (hpc : (s.worker w).pc = .idle) (hlock : (s.landing 0).lock = none)
      (hnode : (s.landing 0).kind.isNode = true) :
      Does s ((s.setLock 0 (some w)).setPc w (.serving 0 none none))
  | take (w : W) (d n : Nat) (hpc : (s.worker w).pc = .idle) (hitem : (s.worker w).item d = some (n + 1))
      (hlock : s.lockOf d = none) (hkind : (s.kind d).isGarbage = false) :
      Does s (((s.setLock (s.desc d).landing (some w)).setItem w d (some n)).setPc w (.reading d))
  /-- Licences are taken past a garbage landing. -/
  | lead (w : W) (d next n : Nat) (x : Worker R) (hd : d < s.descs) (hkind : s.kind d = .garbage next)
      (hlic : ∀ e, x.licences e + (if e = d then n else 0) =
        (s.worker w).licences e + if e = next then n else 0)
      (hpc : (s.worker w).pc.quiet = true) (hpc' : x.pc.quiet = true) (hknown : x.Known s.descs) :
      Does s ((s.letGo d n).setWorker w x)
  /-- Licences go from a worker or from an item to another one. -/
  | move (worker : W → Worker R)
      (hlic : ∀ e, ∑ w, (worker w).licences e = ∑ w, (s.worker w).licences e)
      (hpc : ∀ w, (worker w).pc = (s.worker w).pc ∨ (s.worker w).pc.quiet = true ∧ (worker w).pc.quiet = true)
      (hknown : ∀ w, (worker w).Known s.descs) : Does s { s with worker := worker }
  | read (w : W) (d : Nat) (item : R) (rest : List R) (hpc : (s.worker w).pc = .reading d)
      (hfifo : (s.desc d).fifo = item :: rest) :
      Does s (((s.setDesc d { s.desc d with fifo := rest }).receive d item).setPc w (s.start d item))
  | merge (w : W) (l d next : Nat) (hwriter : s.writer w = some l) (hout : d ∈ (s.landing l).kind.outs)
      (hkind : s.kind d = .identity next) (hlock : s.lockOf d = none) : Does s (s.merged l d next)
  | write (w : W) (l : Nat) (d : Option Nat) (cont : Option (Nat × R)) (out : Nat) (item : R)
      (hpc : (s.worker w).pc = .serving l d cont) (hnode : (s.landing l).kind.isNode = true)
      (hout : out ∈ (s.landing l).kind.outs) :
      Does s ((s.put w out item).note (s.final out) [item])
  | writeGo (w : W) (l d out : Nat) (item : R) (hpc : (s.worker w).pc = .serving l (some d) none)
      (hnode : (s.landing l).kind.isNode = true) (hout : out ∈ (s.landing l).kind.outs)
      (hlock : s.lockOf out = none) :
      Does s (((s.putGet w out item).note (s.final out) [item]).setPc w
        (.serving l (some d) (some (out, (fifoPutGet (s.desc out).fifo item).1))))
  | forward (w : W) (d out : Nat) (item : R) (hpc : (s.worker w).pc = .forwarding d item)
      (hkind : s.kind d = .identity out) :
      Does s ((s.put w out item).setPc w (.serving (s.desc d).landing (some d) none))
  | forwardGo (w : W) (d out : Nat) (item : R) (hpc : (s.worker w).pc = .forwarding d item)
      (hkind : s.kind d = .identity out) (hlock : s.lockOf out = none) :
      Does s ((s.putGet w out item).setPc w
        (.serving (s.desc d).landing (some d) (some (out, (fifoPutGet (s.desc out).fifo item).1))))
  | open_ (w : W) (l : Nat) (outs : List Nat) (land : Option Nat) (hwriter : s.writer w = some l)
      (hkind : (s.landing l).kind = .node outs)
      (hland : ∀ m, land = some m → m < s.landings ∧ (s.landing m).kind.isNode = true) :
      Does s (s.opened l outs land)
  | close (l d : Nat) (outs : List Nat) (hkind : (s.landing l).kind = .node outs) (hd : d ∈ outs) :
      Does s ((s.setKind l (.node (outs.erase d))).letGo d 1)
  | end_ (l d : Nat) (hkind : (s.landing l).kind = .identity d ∨ (s.landing l).kind = .garbage d)
      (hended : (s.landing l).ended = false) (hclosed : ClosedTo s l []) : Does s ((s.end_ l).letGo d 1)
  | becomeIdentity (w : W) (l d out : Nat) (cont : Option (Nat × R)) (item : Option R) (pc : Pc R)
      (hpc : (s.worker w).pc = .serving l (some d) cont) (hkind : (s.landing l).kind = .node [out])
      (hland : (s.desc d).landing = l) (hclosed : ClosedTo s l [d])
      (hfinal : (s.desc (s.final out)).landing ≠ l)
      (hpc' : item = none ∧ pc = .serving l (some d) cont ∨
        ∃ r, item = some r ∧ cont = none ∧ pc = .forwarding d r) :
      Does s ((s.identified l d out item).setPc w pc)
  | addContext (w : W) (l : Nat) (d : Option Nat) (hpc : (s.worker w).pc = .serving l d none) :
      Does s ((s.addLanding w).setPc w (.serving s.landings d none))
  | context (w : W) (l m : Nat) (d : Option Nat) (hpc : (s.worker w).pc = .serving l d none)
      (hm : m < s.landings) (hlock : (s.landing m).lock = none) (hnode : (s.landing m).kind.isNode = true) :
      Does s ((s.setLock m (some w)).setPc w (.serving m d none))
  | unlock (l : Nat) (hplace : ∀ w, l ∉ s.places w) : Does s (s.setLock l none)
  | finishInput (w : W) (l : Nat) (hpc : (s.worker w).pc = .serving l none none) :
      Does s ((s.setLock l none).setPc w .idle)
  | finish (w : W) (l d : Nat) (cont : Option (Nat × R)) (hpc : (s.worker w).pc = .serving l (some d) cont) :
      Does s ((s.setLock l none).setPc w (.releasing d cont))
  | release (w : W) (d : Nat) (cont : Option (Nat × R)) (hpc : (s.worker w).pc = .releasing d cont) :
      Does s ((s.letGo d 1).setPc w (cont.elim .idle fun c => s.start c.1 c.2))

/-! ## The parts of a step -/

section parts

variable {s : State W R} {w : W} {d n : Nat}

theorem descRelease_eq (hn : n ≤ (s.desc d).refs) (hclosed : (s.desc d).closed = true ↔ (s.desc d).refs = 0)
    (hfifo : (s.desc d).refs - n = 0 → (s.desc d).fifo = []) : s.descRelease d n = .done (s.letGo d n) := by
  unfold State.descRelease State.letGo
  rw [if_neg (Nat.not_lt.2 hn)]
  by_cases h0 : (s.desc d).refs - n = 0
  · simp only [h0, hfifo h0, isEmpty_nil, if_true, decide_true]
  · have hopen : (s.desc d).closed = false := by
      rw [Bool.eq_false_iff]
      intro htrue
      exact h0 (by rw [hclosed.1 htrue, Nat.zero_sub])
    rw [if_neg h0, decide_eq_false h0, ← hopen]

variable [DecidableEq W]

theorem work_eq {item : R} (h : (s.kind d).isGarbage = false) :
    s.work w d item = .done (s.setPc w (s.start d item)) := by
  unfold State.work State.start
  cases hkind : s.kind d with
  | node outs => rfl
  | identity e => rfl
  | garbage e =>
    rw [hkind] at h
    cases h

theorem enqueue_put {item : R} (hlock : (s.landing (s.desc d).source).lock = some w) :
    s.enqueue w d item false = .done (s.put w d item, none) := by
  unfold State.enqueue
  rw [if_neg (not_not.2 hlock)]
  rfl

theorem enqueue_go {item : R} (hlock : (s.landing (s.desc d).source).lock = some w)
    (hfree : s.lockOf d = none) :
    s.enqueue w d item true = .done (s.putGet w d item, some (d, (fifoPutGet (s.desc d).fifo item).1)) := by
  unfold State.enqueue
  rw [if_neg (not_not.2 hlock), if_pos rfl, if_pos hfree]
  rfl

theorem enqueue_blocked {item : R} (hlock : (s.landing (s.desc d).source).lock = some w)
    (hfree : s.lockOf d ≠ none) : s.enqueue w d item true = .blocked := by
  unfold State.enqueue
  rw [if_neg (not_not.2 hlock), if_pos rfl, if_neg hfree]

omit [DecidableEq W] in
theorem mergeStreams_eq {l next : Nat} (hne : d ≠ next) (hland : (s.desc d).landing ≠ l)
    (hrefs : 1 ≤ (s.desc d).refs) (hclosed : (s.desc d).closed = true ↔ (s.desc d).refs = 0) :
    s.mergeStreams l d next = .done (s.merged l d next) := by
  unfold State.mergeStreams
  simp only [State.descDone]
  rw [descRelease_eq]
  · refine congrArg Outcome.done ?_
    unfold State.letGo State.merged
    simp only [State.setKind, State.setLanding, State.setDesc, update_self, update_of_ne hne,
      update_of_ne hne.symm, update_of_ne hland.symm, Function.update_idem]
    congr 1
    rw [Function.update_comm hne, Function.update_comm hne, Function.update_idem]
  all_goals
    simp only [State.setKind, State.setLanding, State.setDesc, update_self, update_of_ne hne,
      update_of_ne hne.symm]
  · exact hrefs
  · exact hclosed
  · exact fun _ => trivial

end parts

/-! ## No assertion fails -/

section does

variable {s : State W R} {w : W} {d e l n : Nat}

theorem past_of_garbage (hd : d < s.descs) (h : s.kind d = .garbage e) : s.past d = some e := by
  unfold State.past
  rw [if_pos hd, h]

theorem past_eq_none (h : (s.kind d).isGarbage = false) : s.past d = none := by
  unfold State.past
  split
  · cases hkind : s.kind d with
    | node _ | identity _ => rfl
    | garbage e =>
      rw [hkind] at h
      cases h
  · rfl

theorem next_of_identity (h : s.kind d = .identity e) : s.next d = some e := by
  unfold State.next
  rw [h]

theorem next_eq_none (h : (s.kind d).isNode = true) : s.next d = none := by
  unfold State.next
  cases hkind : s.kind d with
  | node _ => rfl
  | identity _ | garbage _ =>
    rw [hkind] at h
    cases h

theorem outs_of_identity (h : s.kind d = .identity e) : e ∈ (s.landing (s.desc d).landing).kind.outs := by
  rw [show (s.landing (s.desc d).landing).kind = .identity e from h]
  exact mem_singleton.2 rfl

theorem outs_of_garbage (h : s.kind d = .garbage e) : e ∈ (s.landing (s.desc d).landing).kind.outs := by
  rw [show (s.landing (s.desc d).landing).kind = .garbage e from h]
  exact mem_singleton.2 rfl

theorem Net.lt_of_out (h : Net s) (hd : d ∈ (s.landing l).kind.outs) : l < s.landings := by
  rcases Nat.lt_or_ge l s.landings with hlt | hle
  · exact hlt
  · rw [h.freshLanding l hle] at hd
    cases hd

theorem Net.lt_of_lock (h : Net s) {w : W} (hlock : (s.landing l).lock = some w) : l < s.landings := by
  rcases Nat.lt_or_ge l s.landings with hlt | hle
  · exact hlt
  · rw [h.freshLanding l hle] at hlock
    cases hlock

theorem Net.ended_of_node (h : Net s) {outs : List Nat} (hkind : (s.landing l).kind = .node outs) :
    (s.landing l).ended = false := by
  rw [Bool.eq_false_iff]
  intro hended
  have := (h.ended l hended).1
  rw [hkind] at this
  cases this

theorem Net.landing_ne (h : Net s) (hkind : s.kind d = .identity e) (he : e < s.descs) :
    (s.desc e).landing ≠ (s.desc d).landing := by
  intro heq
  have hnext : s.next e = some e := by
    refine next_of_identity ?_
    unfold State.kind
    rw [heq]
    exact hkind
  obtain ⟨hlead, hnode⟩ := h.final e he
  exact hlead.not_back (next_eq_none hnode) hnext (.refl e)

variable [Fintype W]

namespace Inv

theorem mem_places (hd : d < s.descs) : d ∈ s.ledger.places := Finset.mem_range.2 hd

theorem other_of_held (hd : d ∈ (s.worker w).pc.held) : 1 ≤ s.ledger.other d := by
  have hcount : 1 ≤ (s.worker w).pc.held.count d := one_le_count_iff.2 hd
  have hsum := Finset.single_le_sum_of_canonicallyOrdered (f := fun w => (s.worker w).pc.held.count d)
    (Finset.mem_univ w)
  exact Nat.le_trans hcount (Nat.le_trans hsum (Nat.le_add_left _ _))

theorem other_of_out (h : Inv s) (hd : d ∈ (s.landing l).kind.outs) (hl : (s.landing l).ended = false) :
    1 ≤ s.ledger.other d := by
  have hcount : 1 ≤ (s.landing l).handles d := by
    unfold Landing.handles
    rw [hl]
    exact one_le_count_iff.2 hd
  have hsum := Finset.single_le_sum_of_canonicallyOrdered (f := fun l => (s.landing l).handles d)
    (Finset.mem_range.2 (h.net.lt_of_out hd))
  exact Nat.le_trans hcount (Nat.le_trans hsum (Nat.le_add_right _ _))

theorem fifo_of_garbage (h : Inv s) (hd : d < s.descs) (hkind : s.kind d = .garbage e) :
    (s.desc d).fifo = [] := by
  have := h.counts.balanced.merged d (mem_places hd) (by
    rw [show s.ledger.next d = some e from past_of_garbage hd hkind]
    exact Option.some_ne_none e)
  exact length_eq_zero_iff.1 this

theorem fifo_of_refs (h : Inv s) (hd : d < s.descs) (hrefs : s.ledger.refs d ≤ s.ledger.other d) :
    (s.desc d).fifo = [] := by
  have hsum := h.counts.balanced.refs d (mem_places hd)
  have hlen : s.ledger.len d = 0 := by
    by_cases hpast : s.ledger.next d = none
    · rw [h.counts.balanced.len d (mem_places hd) hpast]
      omega
    · exact h.counts.balanced.merged d (mem_places hd) hpast
  exact length_eq_zero_iff.1 hlen

theorem refs_of_other (h : Inv s) (hd : d < s.descs) (hother : 1 ≤ s.ledger.other d) :
    1 ≤ (s.desc d).refs := by
  have : (s.desc d).refs = _ := h.counts.balanced.refs d (mem_places hd)
  omega

theorem open_of_other (h : Inv s) (hd : d < s.descs) (hother : 1 ≤ s.ledger.other d) :
    (s.desc d).closed = false := by
  rw [Bool.eq_false_iff]
  intro htrue
  have := (h.counts.closed d hd).1 htrue
  have := h.refs_of_other hd hother
  omega

theorem descDone_eq (h : Inv s) {t : State W R} (ht : t.desc = s.desc) (hd : d < s.descs)
    (hother : 1 ≤ s.ledger.other d) : t.descDone d = .done (t.letGo d 1) := by
  refine descRelease_eq ?_ ?_ fun h0 => ?_
  · rw [ht]
    exact h.refs_of_other hd hother
  · rw [ht]
    exact h.counts.closed d hd
  · rw [ht] at h0 ⊢
    refine h.fifo_of_refs hd ?_
    change (s.desc d).refs ≤ _
    omega

theorem licences_le (h : Inv s) (hd : d < s.descs) (w : W) : (s.worker w).licences d ≤ (s.desc d).refs := by
  have hsum : (s.desc d).refs = _ := h.counts.balanced.refs d (mem_places hd)
  have htotal := Ledger.le_total (L := s.ledger) (mem_places hd) (.refl d)
  have hsingle := Finset.single_le_sum_of_canonicallyOrdered (f := fun w => (s.worker w).licences d)
    (Finset.mem_univ w)
  change ∑ w, (s.worker w).licences d ≤ _ at htotal
  omega

theorem descRelease_of_garbage (h : Inv s) (hd : d < s.descs) (hkind : s.kind d = .garbage e)
    (hn : n ≤ (s.worker w).licences d) : s.descRelease d n = .done (s.letGo d n) :=
  descRelease_eq (Nat.le_trans hn (h.licences_le hd w)) (h.counts.closed d hd)
    fun _ => h.fifo_of_garbage hd hkind

theorem fifo_of_licence (h : Inv s) (hd : d < s.descs) (hkind : (s.kind d).isGarbage = false)
    (hpos : 1 ≤ (s.worker w).licences d) : (s.desc d).fifo ≠ [] := by
  intro hnil
  have hlen := h.counts.balanced.len d (mem_places hd) (past_eq_none hkind)
  have htotal := Ledger.le_total (L := s.ledger) (mem_places hd) (.refl d)
  have hsingle := Finset.single_le_sum_of_canonicallyOrdered (f := fun w => (s.worker w).licences d)
    (Finset.mem_univ w)
  change (s.desc d).fifo.length = _ at hlen
  change ∑ w, (s.worker w).licences d ≤ _ at htotal
  rw [hnil, length_nil] at hlen
  omega

theorem writer_eq (h : Inv s) (hw : s.writer w = some l) :
    (s.landing l).ended = false ∧ (s.landing l).lock = some w := by
  unfold State.writer at hw
  split at hw
  · next l' d cont hpc =>
    split at hw
    · next hnode =>
      cases hw
      refine ⟨?_, h.locks.place w l ?_⟩
      · rw [Bool.eq_false_iff]
        intro hended
        rw [(h.net.ended l hended).1] at hnode
        cases hnode
      · unfold State.places
        rw [hpc]
        exact mem_cons_self
    · cases hw
  · next d item hpc =>
    cases hw
    have hheld : d ∈ (s.worker w).pc.held := by
      rw [hpc]
      exact mem_cons_self
    have hd : d < s.descs := (h.known w).pc d (by rw [hpc]; exact mem_cons_self)
    refine ⟨?_, h.locks.place w _ ?_⟩
    · rw [Bool.eq_false_iff]
      intro hended
      have hopen := h.open_of_other hd (other_of_held hheld)
      rcases (h.net.ended _ hended).2 d hd rfl with hmem | hclosed
      · cases hmem
      · rw [hopen] at hclosed
        cases hclosed
    · unfold State.places
      rw [hpc]
      exact mem_cons_self
  · cases hw

/-- What holds of a descriptor that is written to. -/
structure Out (s : State W R) (w : W) (l out : Nat) : Prop where
  lt : out < s.descs
  ended : (s.landing l).ended = false
  garbage : (s.landing l).kind.isGarbage = false
  lock : (s.landing l).lock = some w
  source : (s.desc out).source = l
  live : (s.kind out).isGarbage = false
  other : 1 ≤ s.ledger.other out

/-- The landing that is written from is locked, so no free one is the same. -/
theorem Out.landing_ne {w : W} {out : Nat} (h : Out s w l out) (hfree : s.lockOf d = none) :
    (s.desc d).landing ≠ l := by
  intro heq
  unfold State.lockOf at hfree
  rw [heq, h.lock] at hfree
  cases hfree

theorem out (h : Inv s) (hw : s.writer w = some l) (hout : e ∈ (s.landing l).kind.outs) : Out s w l e := by
  obtain ⟨hended, hlock⟩ := h.writer_eq hw
  have hgarbage := h.locks.locked l (by rw [hlock]; exact Option.some_ne_none w)
  exact ⟨h.net.out_lt l e hout, hended, hgarbage, hlock, h.net.source l hgarbage hended e hout,
    h.net.live l hgarbage hended e hout, h.other_of_out hout hended⟩

end Inv

omit [Fintype W] in
theorem writer_of_serving {dn : Option Nat} {cont : Option (Nat × R)}
    (hpc : (s.worker w).pc = .serving l dn cont) (hnode : (s.landing l).kind.isNode = true) :
    s.writer w = some l := by
  unfold State.writer
  rw [hpc]
  exact if_pos hnode

omit [Fintype W] in
theorem writer_of_forwarding {item : R} (hpc : (s.worker w).pc = .forwarding d item) :
    s.writer w = some (s.desc d).landing := by
  unfold State.writer
  rw [hpc]

end does

/-! ## The steps -/

section workers

variable {x : Worker R} {d e n : Nat} {count : Option Nat} {pc : Pc R}

theorem licences_eq (e : Nat) :
    (Worker.mk (update x.item d count) pc).licences e =
      (if e = d then count.getD 0 else (x.item e).getD 0) + pc.licences e := by
  by_cases he : e = d
  · subst he
    simp only [Worker.licences, update_self, if_pos]
  · simp only [Worker.licences, update_of_ne he, if_neg he]

theorem Worker.Known.set (h : x.Known n) (hd : d < n) (hpc : ∀ e ∈ pc.descs, e < n)
    (hloot : ∀ e known c, pc ≠ .looting e known c) (hinput : ∀ l cont, pc = .serving l none cont → cont = none) :
    (Worker.mk (update x.item d count) pc).Known n := by
  refine ⟨fun e he => ?_, hpc, fun e known c heq => absurd heq (hloot e known c), hinput⟩
  by_cases hed : e = d
  · exact hed ▸ hd
  · refine h.item e ?_
    rwa [show (Worker.mk (update x.item d count) pc).item e = x.item e from
      update_of_ne hed _ _] at he

theorem Worker.Known.setPc (h : x.Known n) (hpc : ∀ e ∈ pc.descs, e < n)
    (hloot : ∀ e known c, pc ≠ .looting e known c) (hinput : ∀ l cont, pc = .serving l none cont → cont = none) :
    (Worker.mk x.item pc).Known n :=
  ⟨h.item, hpc, fun e known c heq => absurd heq (hloot e known c), hinput⟩

end workers

section steps

variable [DecidableEq W] [Fintype W] {s : State W R} {w : W} {n : Nat}

omit [Fintype W] in
theorem setItem_setPc (t : State W R) (w : W) (d : Nat) (count : Option Nat) (pc : Pc R) :
    (t.setItem w d count).setPc w pc = t.setWorker w ⟨update (t.worker w).item d count, pc⟩ := by
  unfold State.setPc State.setItem State.setWorker
  simp only [update_self, Function.update_idem]

omit [Fintype W] in
theorem setPc_self {t : State W R} {pc : Pc R} (h : (t.worker w).pc = pc) : t.setPc w pc = t := by
  subst h
  unfold State.setPc State.setWorker
  rw [Function.update_eq_self]

theorem sum_worker (f : Worker R → Nat) (g : W → Worker R) (w : W) (x : Worker R) :
    ∑ v, f (update g w x v) + f (g w) = ∑ v, f (g v) + f x := sum_update_add (Finset.mem_univ w) f g x

theorem Does.move_one (h : Inv s) {x : Worker R} (hlic : ∀ e, x.licences e = (s.worker w).licences e)
    (hpc : (s.worker w).pc.quiet = true) (hpc' : x.pc.quiet = true) (hknown : x.Known s.descs) :
    Does s (s.setWorker w x) := by
  refine .move _ (fun e => ?_) (fun v => ?_) fun v => ?_
  · have := sum_worker (fun x => x.licences e) s.worker w x
    have := hlic e
    omega
  · by_cases hv : v = w
    · subst hv
      rw [update_self]
      exact .inr ⟨hpc, hpc'⟩
    · exact .inl (congrArg Worker.pc (update_of_ne hv _ _))
  · by_cases hv : v = w
    · subst hv
      rw [update_self]
      exact hknown
    · rw [update_of_ne hv]
      exact h.known v

theorem does_take (h : Inv s) (d : Nat) : (step s (.take w d)).Meets (Does s) := by
  simp only [step]
  split
  · next n hpc hitem =>
    split
    · next hlock =>
      have hd : d < s.descs := (h.known w).item d (by rw [hitem]; exact Option.some_ne_none _)
      cases hkind : s.kind d with
      | garbage next =>
        have hlic : n + 1 ≤ (s.worker w).licences d := by
          unfold Worker.licences
          rw [hitem]
          exact Nat.le_add_right _ _
        have hnext : next < s.descs := h.net.out_lt _ next (outs_of_garbage hkind)
        rw [h.descRelease_of_garbage hd hkind hlic]
        change Does s (((s.letGo d (n + 1)).setItem w d none).setPc w (.passing next (n + 1)))
        rw [setItem_setPc]
        refine .lead w d next (n + 1) _ hd hkind (fun e => ?_) (by rw [hpc]; rfl) rfl
          ((h.known w).set hd (by simpa [Pc.descs] using hnext) nofun nofun)
        rw [show (s.letGo d (n + 1)).worker w = s.worker w from rfl, licences_eq]
        unfold Worker.licences
        rw [hpc]
        by_cases he : e = d
        · subst he
          rw [hitem]
          simp only [Pc.licences, Option.getD_some, Option.getD_none, if_pos]
          omega
        · simp only [Pc.licences, if_neg he]
          omega
      | node outs => exact .take w d n hpc hitem hlock (by rw [hkind]; rfl)
      | identity e => exact .take w d n hpc hitem hlock (by rw [hkind]; rfl)
    · trivial
  · trivial

theorem Does.arrive (h : Inv s) {count c : Nat} (hd : d < s.descs) (hquiet : (s.worker w).pc.quiet = true)
    (hlic : ∀ e, (s.worker w).pc.licences e = if e = d then count else 0)
    (hc : c = ((s.worker w).item d).getD 0 + count) : Does s ((s.setItem w d (some c)).setPc w .idle) := by
  rw [setItem_setPc]
  refine .move_one h (fun e => ?_) hquiet rfl ((h.known w).set hd (by simp [Pc.descs, Pc.held]) nofun nofun)
  rw [licences_eq]
  unfold Worker.licences
  rw [hlic e]
  by_cases he : e = d
  · subst he
    simp only [Pc.licences, Option.getD_some, if_pos, Nat.add_zero]
    exact hc
  · simp only [Pc.licences, if_neg he]

theorem does_pass (h : Inv s) (merge : Bool) : (step s (.pass w merge)).Meets (Does s) := by
  simp only [step]
  split
  · next d count hpc =>
    have hd : d < s.descs := (h.known w).pc d (by rw [hpc]; exact mem_cons_self)
    have hquiet : (s.worker w).pc.quiet = true := by
      rw [hpc]
      rfl
    have hcount : (s.worker w).licences d = ((s.worker w).item d).getD 0 + count := by
      unfold Worker.licences
      rw [hpc]
      simp only [Pc.licences, if_pos]
    -- the licences are put to those of the item
    have harrive : ∀ c, c = ((s.worker w).item d).getD 0 + count →
        Does s ((s.setItem w d (some c)).setPc w .idle) := fun c =>
      .arrive h hd hquiet fun e => by rw [hpc]; rfl
    -- or are led on, with `m` of those of the item
    have hlead : ∀ next m c, s.kind d = .garbage next → c.getD 0 + m = ((s.worker w).item d).getD 0 →
        s.descRelease d (count + m) = .done (s.letGo d (count + m)) ∧
        Does s ((s.letGo d (count + m)).setWorker w
          ⟨update (s.worker w).item d c, .passing next (count + m)⟩) := by
      intro next m c hkind hc
      have hnext : next < s.descs := h.net.out_lt _ next (outs_of_garbage hkind)
      refine ⟨h.descRelease_of_garbage (w := w) hd hkind (by omega), ?_⟩
      refine .lead w d next (count + m) _ hd hkind (fun e => ?_) hquiet rfl
        ((h.known w).set hd (by simpa [Pc.descs] using hnext) nofun nofun)
      rw [licences_eq]
      unfold Worker.licences
      rw [hpc]
      by_cases he : e = d
      · subst he
        simp only [Pc.licences, if_pos]
        omega
      · simp only [Pc.licences, if_neg he]
        omega
    cases hkind : s.kind d with
    | garbage next =>
      obtain ⟨hrelease, hkeep⟩ := hlead next 0 ((s.worker w).item d) hkind (Nat.add_zero _)
      rw [Function.update_eq_self, Nat.add_zero] at hkeep
      rw [Nat.add_zero] at hrelease
      cases hitem : (s.worker w).item d with
      | none =>
        simp only [hrelease]
        exact hkeep
      | some lookup =>
        cases merge with
        | false =>
          simp only [hrelease]
          exact hkeep
        | true =>
          obtain ⟨hrelease, hmerged⟩ := hlead next lookup (some 0) hkind (by rw [hitem]; exact Nat.zero_add _)
          simp only [hrelease, if_pos]
          change Does s (((s.letGo d (count + lookup)).setItem w d (some 0)).setPc w _)
          rw [setItem_setPc]
          exact hmerged
    | node outs =>
      cases hitem : (s.worker w).item d with
      | none => exact harrive _ (by rw [hitem]; exact (Nat.zero_add _).symm)
      | some lookup => exact harrive _ (by rw [hitem]; rfl)
    | identity e =>
      cases hitem : (s.worker w).item d with
      | none => exact harrive _ (by rw [hitem]; exact (Nat.zero_add _).symm)
      | some lookup => exact harrive _ (by rw [hitem]; rfl)
  · trivial

theorem does_read (h : Inv s) : (step s (.read w)).Meets (Does s) := by
  simp only [step]
  split
  · next d hpc =>
    have hd : d < s.descs := (h.known w).pc d (by rw [hpc]; exact mem_cons_self)
    have hplace : (s.desc d).landing ∈ s.places w := by
      unfold State.places
      rw [hpc]
      exact mem_cons_self
    have hkind : (s.kind d).isGarbage = false := h.locks.locked _ (by
      rw [h.locks.place w _ hplace]
      exact Option.some_ne_none w)
    have hpos : 1 ≤ (s.worker w).licences d := by
      unfold Worker.licences
      rw [hpc]
      simp only [Pc.licences, if_pos, Nat.le_add_left]
    cases hfifo : (s.desc d).fifo with
    | nil => exact absurd hfifo (h.fifo_of_licence hd hkind hpos)
    | cons item rest =>
      simp only [fifoGet, head?_cons, tail_cons]
      have hsame : ((s.setDesc d { s.desc d with fifo := rest }).receive d item).kind d = s.kind d := by
        simp [State.kind]
      have hstart : ((s.setDesc d { s.desc d with fifo := rest }).receive d item).start d item = s.start d item := by
        unfold State.start
        rw [hsame]
        simp
      rw [work_eq (by rw [hsame]; exact hkind), hstart]
      exact .read w d item rest hpc hfifo
  · trivial

theorem does_merge (h : Inv s) (idx : Nat) : (step s (.merge w idx)).Meets (Does s) := by
  simp only [step]
  split
  · next l hwriter =>
    split
    · next d hout =>
      have hmem := mem_of_getElem? hout
      have hout := h.out hwriter hmem
      split
      · next next hkind =>
        split
        · next hlock =>
          have hnext : next < s.descs := h.net.out_lt _ next (outs_of_identity hkind)
          have hne := h.net.landing_ne hkind hnext
          have hland := hout.landing_ne hlock
          rw [mergeStreams_eq (fun heq => hne (congrArg (fun x => (s.desc x).landing) heq.symm)) hland (h.refs_of_other hout.lt hout.other)
            (h.counts.closed d hout.lt)]
          exact .merge w l d next hwriter hmem hkind hlock
        · trivial
      · trivial
    · trivial
  · trivial

theorem does_write (h : Inv s) (idx : Nat) (item : R) (go : Bool) (hok : Callers s (.write w idx item go)) :
    (step s (.write w idx item go)).Meets (Does s) := by
  simp only [step, Callers] at hok ⊢
  split
  · next l dn cont hpc =>
    split
    · next outs hkind =>
      split
      · next out hout =>
        have hnode : (s.landing l).kind.isNode = true := by
          rw [hkind]
          rfl
        have hmem : out ∈ (s.landing l).kind.outs := hkind ▸ mem_of_getElem? hout
        have hwrites := h.out (writer_of_serving hpc hnode) hmem
        have hlock : (s.landing (s.desc out).source).lock = some w := hwrites.source ▸ hwrites.lock
        cases go with
        | false =>
          rw [enqueue_put hlock]
          change Does s (((s.put w out item).note (s.final out) [item]).setPc w (.serving l dn cont))
          rw [setPc_self]
          · exact .write w l dn cont out item hpc hnode hmem
          · simp [State.note, State.put, State.todo, State.setItem, hpc]
        | true =>
          rw [hpc] at hok
          obtain ⟨hd, rfl⟩ := hok rfl
          by_cases hfree : s.lockOf out = none
          · rw [enqueue_go hlock hfree]
            cases dn with
            | none => exact absurd rfl hd
            | some d =>
              have hline : (s.putGet w out item).line = s.line := State.receive_line _ _ _
              have hdoes := Does.writeGo w l d out item hpc hnode hmem hfree
              unfold State.note at hdoes
              rw [hline] at hdoes
              exact hdoes
          · rw [enqueue_blocked hlock hfree]
            trivial
      · trivial
    · trivial
  · trivial

theorem does_forward (h : Inv s) (go : Bool) : (step s (.forward w go)).Meets (Does s) := by
  simp only [step]
  split
  · next d item hpc =>
    obtain ⟨out, hkind⟩ := h.locks.forwarding w d item hpc
    have hmem : out ∈ (s.landing (s.desc d).landing).kind.outs := outs_of_identity hkind
    have hwrites := h.out (writer_of_forwarding hpc) hmem
    have hlock : (s.landing (s.desc out).source).lock = some w := hwrites.source ▸ hwrites.lock
    simp only [hkind]
    cases go with
    | false =>
      rw [enqueue_put hlock]
      exact .forward w d out item hpc hkind
    | true =>
      by_cases hfree : s.lockOf out = none
      · rw [enqueue_go hlock hfree]
        exact .forwardGo w d out item hpc hkind hfree
      · rw [enqueue_blocked hlock hfree]
        trivial
  · trivial

theorem does_becomeIdentity (item : Option R) (hok : Callers s (.becomeIdentity w item)) :
    (step s (.becomeIdentity w item)).Meets (Does s) := by
  simp only [step, Callers] at hok ⊢
  split
  · next l d cont hpc =>
    split
    · next out hkind =>
      simp only [hpc, hkind] at hok
      split
      · next hland =>
        split
        · exact .becomeIdentity w l d out _ none _ hpc hkind hland hok.1 hok.2 (.inl ⟨rfl, rfl⟩)
        · next r => exact .becomeIdentity w l d out _ (some r) _ hpc hkind hland hok.1 hok.2 (.inr ⟨r, rfl, rfl, rfl⟩)
        · trivial
      · trivial
    · trivial
  · trivial

theorem does_release (h : Inv s) : (step s (.release w)).Meets (Does s) := by
  have hdone : ∀ d cont, (s.worker w).pc = .releasing d cont → s.descDone d = .done (s.letGo d 1) := by
    intro d cont hpc
    refine h.descDone_eq rfl ((h.known w).pc d ?_) (Inv.other_of_held (w := w) ?_)
    · rw [hpc]
      exact mem_cons_self
    · rw [hpc]
      exact mem_cons_self
  simp only [step]
  split
  · next d hpc =>
    rw [hdone d none hpc]
    exact .release w d none hpc
  · next d c item hpc =>
    have hplace : (s.desc c).landing ∈ s.places w := by
      unfold State.places
      rw [hpc]
      exact mem_singleton.2 rfl
    have hkind : (s.kind c).isGarbage = false := h.locks.locked _ (by
      rw [h.locks.place w _ hplace]
      exact Option.some_ne_none w)
    have hland : ((s.letGo d 1).desc c).landing = (s.desc c).landing := by
      unfold State.letGo
      by_cases hc : c = d
      · subst hc
        simp
      · simp [update_of_ne hc]
    have hsame : (s.letGo d 1).kind c = s.kind c := by
      unfold State.kind
      rw [hland]
      rfl
    rw [hdone d _ hpc]
    change ((s.letGo d 1).work w c item).Meets (Does s)
    rw [work_eq (by rw [hsame]; exact hkind)]
    have hstart : (s.letGo d 1).start c item = s.start c item := by
      unfold State.start
      rw [hsame, hland]
    rw [hstart]
    exact .release w d (some (c, item)) hpc
  · trivial

theorem amount_le (garbage : Bool) (own : Option Nat) : State.amount garbage (n + 1) own ≤ n + 1 := by
  unfold State.amount
  cases own with
  | none =>
    simp only
    split
    · exact Nat.le_refl _
    · omega
  | some lookup =>
    simp only
    split
    · exact Nat.le_refl _
    · omega

theorem does_steal (h : Inv s) (thief victim : W) (d : Nat) :
    (step s (.steal thief victim d)).Meets (Does s) := by
  simp only [step]
  split
  · next n hpc hitem =>
    split
    · next hok =>
      obtain ⟨hne, -⟩ := hok
      have hd : d < s.descs := (h.known victim).item d (by rw [hitem]; exact Option.some_ne_none _)
      have hle := amount_le (n := n) (s.kind d).isGarbage ((s.worker thief).item d)
      generalize State.amount (s.kind d).isGarbage (n + 1) ((s.worker thief).item d) = a at hle ⊢
      let x : Worker R := ⟨update (s.worker victim).item d (some (n + 1 - a)), (s.worker victim).pc⟩
      let y : Worker R := ⟨(s.worker thief).item, .looting d ((s.worker thief).item d).isSome a⟩
      have hx : ∀ e, x.licences e + (if e = d then a else 0) = (s.worker victim).licences e := by
        intro e
        rw [licences_eq]
        unfold Worker.licences
        by_cases he : e = d
        · subst he
          rw [if_pos rfl, if_pos rfl, hitem]
          simp only [Option.getD_some]
          omega
        · rw [if_neg he, if_neg he, Nat.add_zero]
      have hy : ∀ e, y.licences e = (s.worker thief).licences e + if e = d then a else 0 := by
        intro e
        unfold Worker.licences
        rw [hpc]
        rfl
      have hthief : update s.worker victim x thief = s.worker thief := update_of_ne hne _ _
      have heq : (s.setItem victim d (some (n + 1 - a))).setPc thief
          (.looting d ((s.worker thief).item d).isSome a) =
            { s with worker := update (update s.worker victim x) thief y } := by
        unfold State.setPc State.setItem State.setWorker
        simp only [update_of_ne hne]
        rfl
      change Does s ((s.setItem victim d (some (n + 1 - a))).setPc thief _)
      rw [heq]
      refine .move _ (fun e => ?_) (fun v => ?_) fun v => ?_
      · have h1 := sum_worker (fun x => x.licences e) s.worker victim x
        have h2 := sum_worker (fun x => x.licences e) (update s.worker victim x) thief y
        rw [hthief] at h2
        have := hx e
        have := hy e
        omega
      · by_cases hv : v = thief
        · subst hv
          rw [update_self]
          exact .inr ⟨by rw [hpc]; rfl, rfl⟩
        · rw [update_of_ne hv]
          by_cases hv' : v = victim
          · subst hv'
            rw [update_self]
            exact .inl rfl
          · rw [update_of_ne hv']
            exact .inl rfl
      · by_cases hv : v = thief
        · subst hv
          rw [update_self]
          refine ⟨(h.known v).item, by simpa [y, Pc.descs] using hd, fun e known c heq => ?_, nofun⟩
          cases heq
          exact Option.isSome_iff_ne_none
        · rw [update_of_ne hv]
          by_cases hv' : v = victim
          · subst hv'
            rw [update_self]
            refine ⟨fun e he => ?_, (h.known v).pc, fun e known c heq => ?_, (h.known v).input⟩
            · by_cases hed : e = d
              · exact hed ▸ hd
              · refine (h.known v).item e ?_
                rwa [show x.item e = (s.worker v).item e from update_of_ne hed _ _] at he
            · refine ((h.known v).loot e known c heq).trans ?_
              by_cases hed : e = d
              · subst hed
                rw [show x.item e = some (n + 1 - a) from update_self _ _ _, hitem]
                exact ⟨fun _ => Option.some_ne_none _, fun _ => Option.some_ne_none _⟩
              · rw [show x.item e = (s.worker v).item e from update_of_ne hed _ _]
          · rw [update_of_ne hv']
            exact h.known v
    · trivial
  · trivial

theorem does_loot (h : Inv s) : (step s (.loot w)).Meets (Does s) := by
  simp only [step]
  split
  · next d known count hpc =>
    have hd : d < s.descs := (h.known w).pc d (by rw [hpc]; exact mem_cons_self)
    have hloot := (h.known w).loot d known count hpc
    have harrive : ∀ c, c = ((s.worker w).item d).getD 0 + count →
        Does s ((s.setItem w d (some c)).setPc w .idle) := fun c =>
      .arrive h hd (by rw [hpc]; rfl) fun e => by rw [hpc]; rfl
    split
    · next own hitem => exact harrive _ (by rw [hitem]; rfl)
    · next hitem => exact absurd hitem (hloot.1 rfl)
    · next =>
      have hitem : (s.worker w).item d = none := by
        by_contra hsome
        exact Bool.false_ne_true (hloot.2 hsome)
      exact harrive _ (by rw [hitem]; exact (Nat.zero_add _).symm)
  · trivial

theorem does_remove (h : Inv s) (d : Nat) : (step s (.remove w d)).Meets (Does s) := by
  simp only [step]
  split
  · next hpc hitem =>
    have hd : d < s.descs := (h.known w).item d (by rw [hitem]; exact Option.some_ne_none _)
    change Does s (s.setWorker w ⟨update (s.worker w).item d none, (s.worker w).pc⟩)
    refine .move_one h (fun e => ?_) (by rw [hpc]; rfl) (by rw [hpc]; rfl)
      ((h.known w).set hd (by simp [hpc, Pc.descs, Pc.held]) (by simp [hpc]) (by simp [hpc]))
    rw [licences_eq]
    unfold Worker.licences
    by_cases he : e = d
    · subst he
      rw [if_pos rfl, hitem]
      rfl
    · rw [if_neg he]
  · trivial

theorem does_term (h : Inv s) (l d : Nat) (hok : Callers s (.term l d)) : (step s (.term l d)).Meets (Does s) := by
  simp only [step]
  have hover : ∀ k, (s.landing l).kind = k → d ∈ k.outs → (s.landing l).ended = false →
      (s.end_ l).descDone d = .done ((s.end_ l).letGo d 1) := by
    rintro k rfl hmem hended
    exact h.descDone_eq rfl (h.net.out_lt l d hmem) (h.other_of_out hmem hended)
  split
  · next outs hkind =>
    split
    · next hmem =>
      have hout : d ∈ (s.landing l).kind.outs := by
        rw [hkind]
        exact hmem
      have hended : (s.landing l).ended = false := h.net.ended_of_node hkind
      rw [h.descDone_eq (t := s.setKind l (.node (outs.erase d))) rfl (h.net.out_lt l d hout)
        (h.other_of_out hout hended)]
      exact .close l d outs hkind hmem
    · trivial
  · next out hkind =>
    split
    · next hout =>
      obtain ⟨rfl, hended⟩ := hout
      change ((s.end_ l).descDone out).Meets (Does s)
      rw [hover _ hkind (mem_singleton.2 rfl) hended]
      exact .end_ l out (.inl hkind) hended hok.2
    · trivial
  · next out hkind =>
    split
    · next hout =>
      obtain ⟨rfl, hended⟩ := hout
      change ((s.end_ l).descDone out).Meets (Does s)
      rw [hover _ hkind (mem_singleton.2 rfl) hended]
      exact .end_ l out (.inr hkind) hended hok.2
    · trivial

theorem step_does (h : Inv s) (a : Act W R) (hok : Callers s a) : (step s a).Meets (Does s) := by
  cases a with
  | input w =>
    simp only [step]
    split
    · next hpc =>
      split
      · next hfree => exact .input w hpc hfree.1 hfree.2
      · trivial
    · trivial
  | take w d => exact does_take h d
  | pass w merge => exact does_pass h merge
  | read w => exact does_read h
  | merge w idx => exact does_merge h idx
  | write w idx item go => exact does_write h idx item go hok
  | forward w go => exact does_forward h go
  | open_ w land =>
    simp only [step]
    split
    · next l dn cont hpc =>
      split
      · next outs hkind =>
        refine .open_ w l outs land (writer_of_serving hpc (by rw [hkind]; rfl)) hkind ?_
        rintro m rfl
        exact hok
      · trivial
    · trivial
  | close w d =>
    simp only [step]
    split
    · next l dn cont hpc =>
      split
      · next outs hkind =>
        split
        · next hmem =>
          have hout := h.out (e := d) (writer_of_serving hpc (by rw [hkind]; rfl)) (by rw [hkind]; exact hmem)
          rw [h.descDone_eq (t := s.setKind l (.node (outs.erase d))) rfl hout.lt hout.other]
          exact .close l d outs hkind hmem
        · trivial
      · trivial
    · trivial
  | becomeIdentity w item => exact does_becomeIdentity item hok
  | context w land =>
    simp only [step]
    split
    · next l d hpc =>
      split
      · exact .addContext w l d hpc
      · next m =>
        split
        · next hfree => exact .context w l m d hpc hfree.1 hfree.2.1 hfree.2.2
        · trivial
    · trivial
  | unlock l => exact .unlock l hok
  | finish w =>
    simp only [step]
    split
    · next l cont hpc =>
      obtain rfl := (h.known w).input l cont hpc
      exact .finishInput w l hpc
    · next l d cont hpc => exact .finish w l d cont hpc
    · trivial
  | release w => exact does_release h
  | remove w d => exact does_remove h d
  | steal thief victim d => exact does_steal h thief victim d
  | loot w => exact does_loot h
  | term l d => exact does_term h l d hok

end steps

end SNet.Front.Work
