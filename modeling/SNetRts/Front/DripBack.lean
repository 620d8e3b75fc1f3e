import SNetRts.Front.LoopRefs
import Mathlib.Data.List.Range

/-!
# The deterministic feedback of the front runtime

`SNetNodeDripBack` and `SNetTermDripBack` (`front/xdripback.c`): the access landing puts records from
outside into `recfifo`, counts them in `queued`, and wakes the control landing up if the counter was
zero. The control landing takes a record only when no record of the one before is left in the loop.

The access landing, the control landing and the operand interleave in any way; the two landings take
a step for each thing that they read or write and the other one may change. The operand may copy,
absorb and forward records and notifications in any order. When it absorbs a record that was the last
one to have a detref of an outer network, it sends a notification for that through the loop, too; the
control landing does not expect it there (`assert(via_access)`).
-/

namespace SNet.Front.DripBack

open Lib LoopRefs List

/-- Records from outside. -/
inductive Kind where
  /-- A data record, and whether it matches the back pattern. -/
  | data (back : Bool)
  /-- A notification for an outer network. -/
  | detref
  | sync
deriving DecidableEq, Repr

/-- `db2->state`. -/
inductive State where
  | idle
  | busy
deriving DecidableEq, Repr

/-- `db2->terminate`. -/
inductive Ending where
  | initial
  | draining
  | terminated
deriving DecidableEq, Repr

/-- Where the control landing is. -/
inductive Pc where
  | rest
  /-- in the loop of `SNetFeedbackLeave` for a record -/
  | leaving (d : DetrefId)
  /-- in `DripBackCheckBusy` for a notification -/
  | noting
  /-- behind the switch -/
  | after
  /-- in `DripBackCheckBusy` behind the switch -/
  | checking
  /-- about to take a record from `recfifo` that has been counted off -/
  | fetch
  /-- behind the loop -/
  | finish
deriving DecidableEq, Repr

structure Net where
  refs : LoopRefs
  /-- The records from outside that wait, with their numbers. -/
  recfifo : List (Nat × Kind)
  queued : Nat
  /-- How many records have come from outside. -/
  arrived : Nat
  /-- The access landing has not terminated. -/
  access : Bool
  /-- The access landing has opened the stream to the control landing. -/
  opened : Bool
  /-- The access landing has put a record into `recfifo` that it has not counted yet. -/
  putting : Bool
  /-- The access landing is about to write a wakeup. -/
  waking : Bool
  /-- The wakeups on the stream to the control landing. -/
  wakeups : Nat
  /-- The terminate record behind them. -/
  ending : Bool
  state : State
  terminate : Ending
  pc : Pc
  /-- The number of the last record taken from `recfifo`. -/
  taken : Nat
  /-- The data records that have been written outwards, by the numbers of those they come from. -/
  out : List Nat
  /-- Notifications for outer networks that are under way in the loop. -/
  foreign : Nat

def Net.init : Net :=
  ⟨.init, [], 0, 0, true, false, false, false, 0, false, .idle, .initial, .rest, 0, [], 0⟩

inductive Act where
  /-- The access landing gets a record. -/
  | arrive (k : Kind)
  | count
  | wake
  /-- The access landing terminates. -/
  | terminate
  | copy (d : DetrefId)
  /-- A record is absorbed; `outer` tells whether it was the last one of a detref of an outer network. -/
  | absorb (d : DetrefId) (outer : Bool)
  | notify (d : DetrefId)
  /-- The control landing gets a wakeup. -/
  | wakeup
  /-- The control landing gets the terminate record. -/
  | endRecord
  /-- A data record comes back from the loop; it matches the back pattern, or it leaves. -/
  | back (d : DetrefId) (again : Bool)
  /-- A notification comes back; `same` tells whether its detref has the address of the first one. -/
  | note (d : DetrefId) (same : Bool)
  /-- A notification for an outer network comes back. -/
  | noteOuter
  /-- The control landing goes on. -/
  | go

namespace Net

/-- The control landing takes a record from `recfifo`. -/
def take (n : Net) : Outcome Net :=
  match n.recfifo with
  | [] => .fault
  | (num, kind) :: recfifo =>
    let n := { n with recfifo := recfifo, taken := num, pc := .after }
    match kind with
    | .data true =>
      if n.refs.detfifo ≠ [] then .fault else .done { n with refs := n.refs.add num }
    | .data false => .done { n with out := n.out ++ [num] }
    | .detref => .done n
    | .sync => .done n

def go (n : Net) : Outcome Net :=
  match n.pc with
  | .rest => .blocked
  | .leaving d =>
    match n.refs.front with
    | .unused rest => .done { n with refs := { n.refs with detfifo := rest } }
    | _ => .done { n with out := n.out ++ [d], pc := .after }
  | .noting =>
    match n.refs.front with
    | .unused rest => .done { n with refs := { n.refs with detfifo := rest } }
    | _ => .done { n with pc := .after }
  | .after =>
    if n.state = .busy then .done { n with pc := .checking }
    else if n.refs.detfifo ≠ [] then .fault
    else if 0 < n.queued then { n with state := .busy }.take
    else .done { n with pc := .finish }
  | .checking =>
    match n.refs.front with
    | .unused rest => .done { n with refs := { n.refs with detfifo := rest } }
    | .inUse => .done { n with pc := .finish }
    | .empty =>
      if n.queued = 0 then .fault
      else if n.queued - 1 = 0 then .done { n with queued := 0, state := .idle, pc := .finish }
      else .done { n with queued := n.queued - 1, pc := .fetch }
  | .fetch => n.take
  | .finish =>
    if n.terminate = .draining ∧ n.state = .idle then
      if n.queued = 0 ∧ n.refs.front ≠ .inUse then .done { n with terminate := .terminated, pc := .rest }
      else .fault
    else .done { n with pc := .rest }

def step (n : Net) : Act → Outcome Net
  | .arrive k =>
    if n.access = true ∧ n.putting = false ∧ n.waking = false then
      .done { n with
        recfifo := n.recfifo ++ [(n.arrived + 1, k)], arrived := n.arrived + 1, putting := true }
    else .blocked
  | .count =>
    if n.putting then
      .done { n with queued := n.queued + 1, putting := false, waking := n.queued == 0 }
    else .blocked
  | .wake =>
    if n.waking then .done { n with wakeups := n.wakeups + 1, waking := false, opened := true }
    else .blocked
  | .terminate =>
    if n.access = true ∧ n.putting = false ∧ n.waking = false then
      .done { n with access := false, ending := n.opened }
    else .blocked
  | .copy d => (n.refs.copy d).bind fun refs => .done { n with refs := refs }
  | .absorb d outer => (n.refs.absorb d).bind fun refs =>
    .done { n with refs := refs, foreign := if outer then n.foreign + 1 else n.foreign }
  | .notify d => (n.refs.notify d).bind fun refs => .done { n with refs := refs }
  | .wakeup =>
    if n.pc = .rest ∧ 0 < n.wakeups then .done { n with wakeups := n.wakeups - 1, pc := .after }
    else .blocked
  | .endRecord =>
    if n.pc = .rest ∧ n.wakeups = 0 ∧ n.ending = true then
      if n.terminate ≠ .initial then .fault
      else .done { n with ending := false, terminate := .draining, pc := .after }
    else .blocked
  | .back d again =>
    if n.pc = .rest ∧ d ∈ n.refs.live then
      if again then .done { n with pc := .after }
      else (n.refs.leave d).bind fun refs => .done { n with refs := refs, pc := .leaving d }
    else .blocked
  | .note d same =>
    if n.pc = .rest ∧ (n.refs.detfifo.head? = some d → same = true) then
      (n.refs.receive d).bind fun refs =>
        .done { n with refs := refs, pc := if same then .noting else .after }
    else .blocked
  | .noteOuter => if n.pc = .rest ∧ 0 < n.foreign then .fault else .blocked
  | .go => n.go

end Net

/-- No record is absorbed that is the last one to have a detref of an outer network. -/
def NoOuter (_ : Net) : Act → Prop
  | .absorb _ outer => outer = false
  | _ => True

/-! ## The invariant -/

structure Inv (n : Net) : Prop where
  counted : LoopRefs.Counted n.refs
  /-- `queued` counts what is in `recfifo` and the record that is being worked on. -/
  counter : n.queued + n.putting.toNat + (if n.pc = .fetch then 1 else 0) =
    n.recfifo.length + (if n.state = .busy then 1 else 0)
  putting : n.putting = true → n.recfifo ≠ [] ∧ n.waking = false
  numbers : n.recfifo.map Prod.fst = List.range' (n.taken + 1) n.recfifo.length
  arrived : n.arrived = n.taken + n.recfifo.length
  /-- The records in the loop come from one record. -/
  loop : ∀ d ∈ n.refs.detfifo, d = n.taken
  past : ∀ d ∈ n.out, d ≤ n.taken
  sorted : n.out.Pairwise (· ≤ ·)
  leaving : ∀ d, n.pc = .leaving d → d = n.taken ∧ n.state = .busy
  checking : n.pc = .checking → n.state = .busy
  fetch : n.pc = .fetch → n.state = .busy ∧ n.refs.detfifo = [] ∧ 0 < n.queued
  idle : n.state = .idle → n.refs.detfifo = []
  /-- While there is a record that is being worked on there is something to wait for. -/
  busy : n.state = .busy → n.pc = .rest ∨ n.pc = .finish → Waits n.refs
  /-- No wakeup is lost. -/
  woken : n.state = .idle → 0 < n.queued →
    n.pc = .after ∨ n.pc = .noting ∨ n.waking = true ∨ 0 < n.wakeups
  access : n.access = false → n.putting = false ∧ n.waking = false
  ending : n.ending = true → n.access = false ∧ n.terminate = .initial
  draining : n.terminate ≠ .initial → n.access = false ∧ n.wakeups = 0
  terminated : n.terminate = .terminated → n.state = .idle ∧ n.queued = 0
  foreign : n.foreign = 0

theorem inv_init : Inv Net.init where
  counted := LoopRefs.counted_init
  counter := rfl
  putting := nofun
  numbers := rfl
  arrived := rfl
  loop := nofun
  past := nofun
  sorted := List.Pairwise.nil
  leaving := nofun
  checking := nofun
  fetch := nofun
  idle := fun _ => rfl
  busy := nofun
  woken := nofun
  access := nofun
  ending := nofun
  draining := fun h => absurd rfl h
  terminated := nofun
  foreign := rfl

variable {n n' : Net}

namespace Inv

theorem operand (h : Inv n) {r : LoopRefs} (hc : LoopRefs.Counted r) (hq : r.detfifo = n.refs.detfifo)
    (hw : Waits n.refs → Waits r) : Inv { n with refs := r } :=
  { h with
    counted := hc
    loop := fun d hd => h.loop d (hq ▸ hd)
    fetch := fun hp => ⟨(h.fetch hp).1, hq.trans (h.fetch hp).2.1, (h.fetch hp).2.2⟩
    idle := fun hs => hq.trans (h.idle hs)
    busy := fun hs hp => hw (h.busy hs hp) }

theorem pop (h : Inv n) {rest : List DetrefId} (hf : n.refs.front = .unused rest) {pc : Pc}
    (hpc : n.pc = pc) (hrest : pc ≠ .rest) (hfinish : pc ≠ .finish) (hfetch : pc ≠ .fetch) :
    Inv { n with refs := { n.refs with detfifo := rest }, pc := pc } := by
  subst hpc
  obtain ⟨hc, d, hq, -, -⟩ := h.counted.pop hf
  exact { h with
    counted := hc
    loop := fun x hx => h.loop x (hq ▸ mem_cons_of_mem _ hx)
    fetch := fun hp => absurd hp hfetch
    idle := fun hs => absurd (hq.symm.trans (h.idle hs)) (cons_ne_nil _ _)
    busy := fun _ hp => (hp.elim hrest hfinish).elim }

theorem queued_pos (h : Inv n) (hs : n.state = .busy) (hp : n.pc ≠ .fetch) : 0 < n.queued := by
  have hcount := h.counter
  rw [if_neg hp, if_pos hs] at hcount
  cases hput : n.putting with
  | false =>
    rw [hput] at hcount
    simp only [Bool.toNat_false] at hcount
    omega
  | true =>
    have hlen := length_pos_of_ne_nil (h.putting hput).1
    rw [hput] at hcount
    simp only [Bool.toNat_true] at hcount
    omega

theorem write (h : Inv n) : Inv { n with out := n.out ++ [n.taken] } :=
  { h with
    past := fun d hd => (mem_append.1 hd).elim (h.past d) fun hd => (mem_singleton.1 hd).le
    sorted := pairwise_append.2 ⟨h.sorted, pairwise_singleton _ _, fun a ha _ hb =>
      mem_singleton.1 hb ▸ h.past a ha⟩ }

theorem enter (h : Inv n) (hq : n.refs.detfifo = []) (hs : n.state = .busy) (hp : n.pc = .after) :
    Inv { n with refs := n.refs.add n.taken } :=
  { h with
    counted := h.counted.add (hq ▸ not_mem_nil)
    loop := fun d hd => by
      change d ∈ n.refs.detfifo ++ [n.taken] at hd
      rw [hq] at hd
      exact mem_singleton.1 hd
    fetch := fun hp' => absurd (hp.symm.trans hp') nofun
    idle := fun hs' => absurd (hs.symm.trans hs') nofun
    busy := fun _ hp' => absurd hp (hp'.elim (fun e => e ▸ nofun) fun e => e ▸ nofun) }

theorem next (h : Inv n) {num : Nat} {kind : Kind} {recfifo : List (Nat × Kind)}
    (hfifo : n.recfifo = (num, kind) :: recfifo) (hq : n.refs.detfifo = [])
    (hlen : n.queued + n.putting.toNat = n.recfifo.length) (hpos : 0 < n.queued)
    (hterm : n.terminate ≠ .terminated) :
    Inv { n with state := .busy, recfifo := recfifo, taken := num, pc := .after } := by
  have hnums := h.numbers
  rw [hfifo, map_cons, length_cons, range'_succ] at hnums
  obtain ⟨hnum, hrest⟩ := List.cons.inj hnums
  dsimp only at hnum
  have hlen' : n.queued + n.putting.toNat = recfifo.length + 1 := by
    rw [hlen, hfifo, length_cons]
  exact { h with
    counter := by simpa using hlen'
    putting := fun hput => by
      rw [hput, Bool.toNat_true] at hlen'
      refine ⟨?_, (h.putting hput).2⟩
      apply ne_nil_of_length_pos
      dsimp only
      omega
    numbers := by
      rw [hnum]
      exact hrest
    arrived := by
      have harr := h.arrived
      rw [hfifo, length_cons] at harr
      dsimp only
      omega
    loop := fun d hd => absurd hd (hq ▸ not_mem_nil)
    past := fun d hd => (h.past d hd).trans (hnum ▸ Nat.le_succ _)
    leaving := nofun
    checking := nofun
    fetch := nofun
    idle := nofun
    busy := fun _ hp => hp.elim nofun nofun
    woken := nofun
    terminated := fun ht => absurd ht hterm }

theorem take (h : Inv n) (hq : n.refs.detfifo = [])
    (hlen : n.queued + n.putting.toNat = n.recfifo.length) (hpos : 0 < n.queued)
    (hterm : n.terminate ≠ .terminated) :
    ∃ n', ({ n with state := .busy } : Net).take = .done n' ∧ Inv n' := by
  cases hfifo : n.recfifo with
  | nil =>
    rw [hfifo, length_nil] at hlen
    omega
  | cons p recfifo =>
    obtain ⟨num, kind⟩ := p
    have hnext := h.next hfifo hq hlen hpos hterm
    unfold Net.take
    dsimp only
    cases kind with
    | data back =>
      cases back with
      | false => exact ⟨_, rfl, hnext.write⟩
      | true =>
        dsimp only
        rw [if_neg (not_not.2 hq)]
        exact ⟨_, rfl, hnext.enter hq rfl rfl⟩
    | detref => exact ⟨_, rfl, hnext⟩
    | sync => exact ⟨_, rfl, hnext⟩

theorem halt (h : Inv n) {pc : Pc} (hpc : pc = .rest ∨ pc = .finish) (hfetch : n.pc ≠ .fetch)
    (hw : n.state = .busy → Waits n.refs)
    (hwoken : n.state = .idle → 0 < n.queued → n.waking = true ∨ 0 < n.wakeups) :
    Inv { n with pc := pc } := by
  have hne : pc ≠ .fetch := by rcases hpc with rfl | rfl <;> nofun
  exact { h with
    counter := by
      have hcount := h.counter
      rw [if_neg hfetch] at hcount
      dsimp only
      rw [if_neg hne]
      exact hcount
    leaving := by rcases hpc with rfl | rfl <;> nofun
    checking := by rcases hpc with rfl | rfl <;> nofun
    fetch := fun hp => absurd hp hne
    busy := fun hs _ => hw hs
    woken := fun hs hpos => Or.inr (Or.inr (hwoken hs hpos)) }

theorem goOn (h : Inv n) {r : LoopRefs} (hc : LoopRefs.Counted r) (hq : r.detfifo = n.refs.detfifo) {pc : Pc}
    (hpc : (pc = .after ∨ pc = .noting) ∨ (pc = .checking ∨ pc = .leaving n.taken) ∧ n.state = .busy)
    (hfetch : n.pc ≠ .fetch) : Inv { n with refs := r, pc := pc } := by
  have hne : pc ≠ .fetch := by rcases hpc with (rfl | rfl) | ⟨rfl | rfl, -⟩ <;> nofun
  exact { h with
    counted := hc
    counter := by
      have hcount := h.counter
      rw [if_neg hfetch] at hcount
      dsimp only
      rw [if_neg hne]
      exact hcount
    loop := fun d hd => h.loop d (hq ▸ hd)
    leaving := fun d hp => by
      rcases hpc with (rfl | rfl) | ⟨rfl | rfl, hs⟩
      · cases hp
      · cases hp
      · cases hp
      · exact ⟨(Pc.leaving.inj hp).symm, hs⟩
    checking := fun hp => by
      rcases hpc with (rfl | rfl) | ⟨-, hs⟩
      · cases hp
      · cases hp
      · exact hs
    fetch := fun hp => absurd hp hne
    idle := fun hs => hq.trans (h.idle hs)
    busy := fun _ hp => by
      rcases hpc with (rfl | rfl) | ⟨rfl | rfl, -⟩ <;> rcases hp with hp | hp <;> cases hp
    woken := fun hs _ => by
      rcases hpc with (hp | hp) | ⟨-, hs'⟩
      · exact Or.inl hp
      · exact Or.inr (Or.inl hp)
      · exact absurd (hs'.symm.trans hs) nofun }

theorem rest (h : Inv n) (hpc : n.pc = .checking) (hq : n.refs.detfifo = []) (hone : n.queued = 1) :
    Inv { n with queued := 0, state := .idle, pc := .finish } := by
  have hs := h.checking hpc
  have hcount := h.counter
  rw [hpc, hs, hone] at hcount
  exact { h with
    counter := by
      dsimp only
      simp only [reduceCtorEq, if_false, if_true] at hcount ⊢
      omega
    leaving := nofun
    checking := nofun
    fetch := nofun
    idle := fun _ => hq
    busy := nofun
    woken := fun _ hpos => absurd hpos (Nat.lt_irrefl 0)
    terminated := fun ht => ⟨rfl, rfl⟩ }

theorem fetchNext (h : Inv n) (hpc : n.pc = .checking) (hq : n.refs.detfifo = [])
    (hmore : 1 < n.queued) : Inv { n with queued := n.queued - 1, pc := .fetch } := by
  have hs := h.checking hpc
  have hcount := h.counter
  rw [hpc, hs] at hcount
  exact { h with
    counter := by
      dsimp only
      rw [hs]
      simp only [reduceCtorEq, if_false, if_true] at hcount ⊢
      omega
    leaving := nofun
    checking := nofun
    fetch := fun _ => ⟨hs, hq, Nat.sub_pos_of_lt hmore⟩
    busy := fun _ hp => hp.elim nofun nofun
    woken := fun hs' => absurd (hs.symm.trans hs') nofun
    terminated := fun ht => absurd (hs.symm.trans (h.terminated ht).1) nofun }

theorem go (h : Inv n) (hrest : n.pc ≠ .rest) : ∃ n', n.go = .done n' ∧ Inv n' := by
  unfold Net.go
  cases hpc : n.pc with
  | rest => exact absurd hpc hrest
  | leaving d =>
    obtain ⟨rfl, hs⟩ := h.leaving d hpc
    have hout := h.write.goOn h.counted rfl (Or.inl (Or.inl rfl)) (hpc.trans_ne nofun)
    dsimp only
    cases hf : n.refs.front with
    | empty => exact ⟨_, rfl, hout⟩
    | inUse => exact ⟨_, rfl, hout⟩
    | unused rest =>
      exact ⟨_, rfl, h.pop hf hpc nofun nofun nofun⟩
  | noting =>
    have hafter := h.goOn h.counted rfl (Or.inl (Or.inl rfl)) (hpc.trans_ne nofun)
    dsimp only
    cases hf : n.refs.front with
    | empty => exact ⟨_, rfl, hafter⟩
    | inUse => exact ⟨_, rfl, hafter⟩
    | unused rest =>
      exact ⟨_, rfl, h.pop hf hpc nofun nofun nofun⟩
  | after =>
    dsimp only
    by_cases hs : n.state = .busy
    · rw [if_pos hs]
      exact ⟨_, rfl, h.goOn h.counted rfl (Or.inr ⟨Or.inl rfl, hs⟩) (hpc.trans_ne nofun)⟩
    · have hidle : n.state = .idle := by
        cases hs' : n.state with
        | idle => rfl
        | busy => exact absurd hs' hs
      have hq := h.idle hidle
      rw [if_neg hs, if_neg (not_not.2 hq)]
      by_cases hpos : 0 < n.queued
      · rw [if_pos hpos]
        have hcount := h.counter
        rw [if_neg (show n.pc ≠ .fetch from hpc.trans_ne nofun), if_neg hs] at hcount
        refine h.take hq hcount hpos fun ht => ?_
        rw [(h.terminated ht).2] at hpos
        exact absurd hpos (Nat.lt_irrefl 0)
      · rw [if_neg hpos]
        exact ⟨_, rfl, h.halt (Or.inr rfl) (hpc.trans_ne nofun) (fun hs' => absurd hs' hs)
          fun _ hpos' => absurd hpos' hpos⟩
  | checking =>
    have hs := h.checking hpc
    dsimp only
    cases hf : n.refs.front with
    | unused rest =>
      exact ⟨_, rfl, h.pop hf hpc nofun nofun nofun⟩
    | inUse =>
      exact ⟨_, rfl, h.halt (Or.inr rfl) (hpc.trans_ne nofun) (fun _ => waits_of_front hf)
        fun hs' => absurd (hs.symm.trans hs') nofun⟩
    | empty =>
      have hq := LoopRefs.detfifo_of_front hf
      have hpos := h.queued_pos hs (hpc.trans_ne nofun)
      dsimp only
      rw [if_neg (Nat.pos_iff_ne_zero.1 hpos)]
      by_cases hone : n.queued - 1 = 0
      · rw [if_pos hone]
        exact ⟨_, rfl, h.rest hpc hq (by omega)⟩
      · rw [if_neg hone]
        exact ⟨_, rfl, h.fetchNext hpc hq (by omega)⟩
  | fetch =>
    obtain ⟨hs, hq, hpos⟩ := h.fetch hpc
    have hcount := h.counter
    rw [if_pos hpc, if_pos hs] at hcount
    have htake := h.take hq (Nat.add_right_cancel hcount) hpos fun ht => by
      exact absurd (hs.symm.trans (h.terminated ht).1) nofun
    rwa [← hs] at htake
  | finish =>
    have hfetch : n.pc ≠ .fetch := hpc.trans_ne nofun
    have hwoken : n.state = .idle → 0 < n.queued → n.waking = true ∨ 0 < n.wakeups := by
      intro hs hpos
      rcases h.woken hs hpos with hp | hp | hp
      · exact absurd (hpc.symm.trans hp) nofun
      · exact absurd (hpc.symm.trans hp) nofun
      · exact hp
    have hrest := h.halt (Or.inl rfl) hfetch (fun hs => h.busy hs (Or.inr hpc)) hwoken
    dsimp only
    by_cases hd : n.terminate = .draining ∧ n.state = .idle
    · obtain ⟨ht, hs⟩ := hd
      obtain ⟨hacc, hwake⟩ := h.draining (ht.trans_ne nofun)
      have hzero : n.queued = 0 := by
        by_contra hne
        rcases hwoken hs (Nat.pos_of_ne_zero hne) with hw | hw
        · exact absurd ((h.access hacc).2.symm.trans hw) nofun
        · omega
      have hfront : n.refs.front ≠ .inUse := by
        unfold LoopRefs.front
        rw [h.idle hs]
        nofun
      rw [if_pos ⟨ht, hs⟩, if_pos ⟨hzero, hfront⟩]
      refine ⟨_, rfl, { hrest with
        ending := fun he => absurd ((h.ending he).2.symm.trans ht) nofun
        draining := fun _ => ⟨hacc, hwake⟩
        terminated := fun _ => ⟨hs, hzero⟩ }⟩
    · rw [if_neg hd]
      exact ⟨_, rfl, hrest⟩

theorem arrive (h : Inv n) (k : Kind) (hacc : n.access = true) (hput : n.putting = false)
    (hwaking : n.waking = false) :
    Inv { n with
      recfifo := n.recfifo ++ [(n.arrived + 1, k)], arrived := n.arrived + 1, putting := true } :=
  { h with
    counter := by
      have hcount := h.counter
      rw [hput, Bool.toNat_false] at hcount
      simp only [Bool.toNat_true, length_append, length_singleton]
      omega
    putting := fun _ => ⟨append_ne_nil_of_right_ne_nil _ (cons_ne_nil _ _), hwaking⟩
    numbers := by
      have harr := h.arrived
      have hlast : n.taken + 1 + 1 * n.recfifo.length = n.arrived + 1 := by omega
      simp only [map_append, map_cons, map_nil, length_append, length_singleton]
      rw [h.numbers, range'_concat, hlast]
    arrived := by
      simp only [length_append, length_singleton]
      rw [h.arrived, Nat.add_assoc]
    access := fun hacc' => absurd (hacc.symm.trans hacc') nofun }

theorem count (h : Inv n) (hput : n.putting = true) :
    Inv { n with queued := n.queued + 1, putting := false, waking := n.queued == 0 } :=
  { h with
    counter := by
      have hcount := h.counter
      rw [hput, Bool.toNat_true] at hcount
      simp only [Bool.toNat_false]
      omega
    putting := nofun
    fetch := fun hp => ⟨(h.fetch hp).1, (h.fetch hp).2.1, Nat.succ_pos _⟩
    woken := fun hs _ => by
      by_cases hz : n.queued = 0
      · exact Or.inr (Or.inr (Or.inl (beq_iff_eq.2 hz)))
      · -- The wakeup for the records before it has not been handled yet.
        rcases h.woken hs (Nat.pos_of_ne_zero hz) with hp | hp | hw | hw
        · exact Or.inl hp
        · exact Or.inr (Or.inl hp)
        · exact absurd ((h.putting hput).2.symm.trans hw) nofun
        · exact Or.inr (Or.inr (Or.inr hw))
    access := fun hacc => absurd ((h.access hacc).1.symm.trans hput) nofun
    terminated := fun ht => by
      have hacc := (h.draining (ht.trans_ne nofun)).1
      exact absurd ((h.access hacc).1.symm.trans hput) nofun }

theorem step (h : Inv n) {a : Act} (hok : NoOuter n a) (ha : n.step a = .done n') : Inv n' := by
  unfold Net.step at ha
  cases a with
  | arrive k =>
    dsimp only at ha
    split at ha
    · rename_i hc
      cases ha
      exact h.arrive k hc.1 hc.2.1 hc.2.2
    · cases ha
  | count =>
    dsimp only at ha
    split at ha
    · rename_i hput
      cases ha
      exact h.count hput
    · cases ha
  | wake =>
    dsimp only at ha
    split at ha
    · rename_i hw
      cases ha
      have hput : n.putting ≠ true := fun hput => absurd ((h.putting hput).2.symm.trans hw) nofun
      exact { h with
        putting := fun hp => absurd hp hput
        woken := fun _ _ => Or.inr (Or.inr (Or.inr (Nat.succ_pos _)))
        access := fun hacc => absurd ((h.access hacc).2.symm.trans hw) nofun
        draining := fun ht => absurd ((h.access (h.draining ht).1).2.symm.trans hw) nofun }
    · cases ha
  | terminate =>
    dsimp only at ha
    split at ha
    · rename_i hc
      cases ha
      have hini : n.terminate = .initial := by
        by_contra hne
        exact absurd ((h.draining hne).1.symm.trans hc.1) nofun
      exact { h with
        access := fun _ => hc.2
        ending := fun _ => ⟨rfl, hini⟩
        draining := fun ht => absurd hini ht }
    · cases ha
  | copy d =>
    obtain ⟨r, hr, ha⟩ := Outcome.bind_eq_done.1 ha
    cases ha
    refine h.operand (h.counted.copy hr) ?_ fun hw => hw.copy hr
    obtain ⟨-, rfl⟩ := copy_eq_done hr
    rfl
  | absorb d outer =>
    obtain ⟨r, hr, ha⟩ := Outcome.bind_eq_done.1 ha
    cases ha
    cases (show outer = false from hok)
    refine h.operand (h.counted.absorb hr) ?_ fun hw => hw.absorb h.counted hr
    obtain ⟨-, rfl⟩ := absorb_eq_done hr
    rfl
  | notify d =>
    obtain ⟨r, hr, ha⟩ := Outcome.bind_eq_done.1 ha
    cases ha
    refine h.operand (h.counted.notify hr) ?_ fun hw => hw.notify hr
    obtain ⟨-, rfl⟩ := notify_eq_done hr
    rfl
  | wakeup =>
    dsimp only at ha
    split at ha
    · rename_i hc
      cases ha
      have hgo := h.goOn h.counted rfl (Or.inl (Or.inl rfl)) (hc.1.trans_ne nofun)
      exact { hgo with
        woken := fun _ _ => Or.inl rfl
        draining := fun ht => ⟨(h.draining ht).1, by
          dsimp only
          rw [(h.draining ht).2]⟩ }
    · cases ha
  | endRecord =>
    dsimp only at ha
    split at ha
    · rename_i hc
      obtain ⟨hpc, hwake, hend⟩ := hc
      split at ha
      · cases ha
      · cases ha
        have hgo := h.goOn h.counted rfl (Or.inl (Or.inl rfl)) (hpc.trans_ne nofun)
        exact { hgo with
          ending := nofun
          draining := fun _ => ⟨(h.ending hend).1, hwake⟩
          terminated := nofun }
    · cases ha
  | back d again =>
    dsimp only at ha
    split at ha
    · rename_i hc
      obtain ⟨hpc, hd⟩ := hc
      split at ha
      · cases ha
        exact h.goOn h.counted rfl (Or.inl (Or.inl rfl)) (hpc.trans_ne nofun)
      · obtain ⟨r, hr, ha⟩ := Outcome.bind_eq_done.1 ha
        cases ha
        have hq := h.counted.live d hd
        have hs : n.state = .busy := by
          cases hs : n.state with
          | idle => exact absurd hq (h.idle hs ▸ not_mem_nil)
          | busy => rfl
        have hpc' : Pc.leaving d = .leaving n.taken := congrArg _ (h.loop d hq)
        refine h.goOn (h.counted.leave hr) ?_ (Or.inr ⟨Or.inr hpc', hs⟩) (hpc.trans_ne nofun)
        obtain ⟨-, rfl⟩ := leave_eq_done hr
        rfl
    · cases ha
  | note d same =>
    dsimp only at ha
    split at ha
    · rename_i hc
      obtain ⟨r, hr, ha⟩ := Outcome.bind_eq_done.1 ha
      cases ha
      have hpc : ∀ b : Bool, (if b = true then Pc.noting else .after) = .after ∨
          (if b = true then Pc.noting else .after) = .noting := by
        intro b
        cases b with
        | false => exact Or.inl rfl
        | true => exact Or.inr rfl
      refine h.goOn (h.counted.receive hr) ?_ (Or.inl (hpc same)) (hc.1.trans_ne nofun)
      obtain ⟨-, rfl⟩ := receive_eq_done hr
      rfl
    · cases ha
  | noteOuter =>
    dsimp only at ha
    split at ha <;> cases ha
  | go =>
    have hrest : n.pc ≠ .rest := by
      intro hpc
      change n.go = .done n' at ha
      rw [Net.go, hpc] at ha
      cases ha
    obtain ⟨m, hm, hinv⟩ := h.go hrest
    cases hm.symm.trans ha
    exact hinv

theorem step_ne_fault (h : Inv n) (a : Act) : n.step a ≠ .fault := by
  cases a with
  | arrive k =>
    unfold Net.step
    dsimp only
    split <;> nofun
  | count =>
    unfold Net.step
    dsimp only
    split <;> nofun
  | wake =>
    unfold Net.step
    dsimp only
    split <;> nofun
  | terminate =>
    unfold Net.step
    dsimp only
    split <;> nofun
  | copy d => exact Outcome.bind_ne_fault (h.counted.copy_ne_fault d) fun _ _ => nofun
  | absorb d outer => exact Outcome.bind_ne_fault (h.counted.absorb_ne_fault d) fun _ _ => nofun
  | notify d => exact Outcome.bind_ne_fault (h.counted.notify_ne_fault d) fun _ _ => nofun
  | wakeup =>
    unfold Net.step
    dsimp only
    split <;> nofun
  | endRecord =>
    unfold Net.step
    dsimp only
    split
    · rename_i hc
      rw [if_neg (not_not.2 (h.ending hc.2.2).2)]
      nofun
    · nofun
  | back d again =>
    unfold Net.step
    dsimp only
    split
    · split
      · nofun
      · exact Outcome.bind_ne_fault (h.counted.leave_ne_fault d) fun _ _ => nofun
    · nofun
  | note d same =>
    unfold Net.step
    dsimp only
    split
    · exact Outcome.bind_ne_fault (n.refs.receive_ne_fault d) fun _ _ => nofun
    · nofun
  | noteOuter =>
    unfold Net.step
    dsimp only
    rw [h.foreign, if_neg fun hc => absurd hc.2 (Nat.lt_irrefl 0)]
    nofun
  | go =>
    intro hgo
    have hrest : n.pc ≠ .rest := by
      intro hpc
      change n.go = .fault at hgo
      rw [Net.go, hpc] at hgo
      cases hgo
    obtain ⟨m, hm, -⟩ := h.go hrest
    exact absurd (hm.symm.trans hgo) nofun

theorem detfifo_of_take (h : Inv n) {a : Act} (ha : n.step a = .done n')
    (hlt : n'.recfifo.length < n.recfifo.length) : n.refs.detfifo = [] := by
  have hsame : n'.recfifo = n.recfifo → n.refs.detfifo = [] := fun e =>
    absurd (e ▸ hlt) (Nat.lt_irrefl _)
  unfold Net.step at ha
  cases a with
  | go =>
    change n.go = .done n' at ha
    unfold Net.go at ha
    cases hpc : n.pc with
    | fetch => exact (h.fetch hpc).2.1
    | rest =>
      rw [hpc] at ha
      cases ha
    | leaving d =>
      rw [hpc] at ha
      dsimp only at ha
      split at ha
      · cases ha
        exact hsame rfl
      · cases ha
        exact hsame rfl
    | noting =>
      rw [hpc] at ha
      dsimp only at ha
      split at ha
      · cases ha
        exact hsame rfl
      · cases ha
        exact hsame rfl
    | after =>
      rw [hpc] at ha
      dsimp only at ha
      split at ha
      · cases ha
        exact hsame rfl
      · split at ha
        · cases ha
        · rename_i hq
          exact not_not.1 hq
    | checking =>
      rw [hpc] at ha
      dsimp only at ha
      split at ha
      · cases ha
        exact hsame rfl
      · cases ha
        exact hsame rfl
      · rename_i hf
        exact LoopRefs.detfifo_of_front hf
    | finish =>
      rw [hpc] at ha
      dsimp only at ha
      split at ha
      · split at ha
        · cases ha
          exact hsame rfl
        · cases ha
      · cases ha
        exact hsame rfl
  | arrive k =>
    dsimp only at ha
    split at ha
    · cases ha
      simp only [length_append, length_singleton] at hlt
      omega
    · cases ha
  | copy d =>
    obtain ⟨r, -, ha⟩ := Outcome.bind_eq_done.1 ha
    cases ha
    exact hsame rfl
  | absorb d outer =>
    obtain ⟨r, -, ha⟩ := Outcome.bind_eq_done.1 ha
    cases ha
    exact hsame rfl
  | notify d =>
    obtain ⟨r, -, ha⟩ := Outcome.bind_eq_done.1 ha
    cases ha
    exact hsame rfl
  | back d again =>
    dsimp only at ha
    split at ha
    · split at ha
      · cases ha
        exact hsame rfl
      · obtain ⟨r, -, ha⟩ := Outcome.bind_eq_done.1 ha
        cases ha
        exact hsame rfl
    · cases ha
  | note d same =>
    dsimp only at ha
    split at ha
    · obtain ⟨r, -, ha⟩ := Outcome.bind_eq_done.1 ha
      cases ha
      exact hsame rfl
    · cases ha
  | endRecord =>
    dsimp only at ha
    split at ha
    · split at ha
      · cases ha
      · cases ha
        exact hsame rfl
    · cases ha
  | noteOuter =>
    dsimp only at ha
    split at ha <;> cases ha
  | _ =>
    dsimp only at ha
    split at ha
    · cases ha
      exact hsame rfl
    · cases ha

theorem queued_eq (h : Inv n) (hs : n.state = .idle) : n.queued + n.putting.toNat = n.recfifo.length := by
  have hcount := h.counter
  have hfetch : n.pc ≠ .fetch := fun hp => absurd ((h.fetch hp).1.symm.trans hs) nofun
  rw [if_neg hfetch, hs] at hcount
  exact hcount

end Inv

/-! ## Every run -/

/-- Nothing is under way: the landings rest, no wakeup has been written, no record is in the loop, and
no notification. -/
structure Quiet (n : Net) : Prop where
  pc : n.pc = .rest
  putting : n.putting = false
  waking : n.waking = false
  wakeups : n.wakeups = 0
  live : n.refs.live = []
  dying : n.refs.dying = []
  notes : n.refs.notes = []

/-- What is asked of the deterministic feedback. -/
structure Correct (n : Net) : Prop where
  /-- `queued` counts the records in `recfifo`, and one more in state `busy`; while the access landing
  is between putting a record and counting it, or the control landing between counting one off and
  taking it, it is one less. -/
  queued : n.queued + n.putting.toNat + (if n.pc = .fetch then 1 else 0) =
    n.recfifo.length + (if n.state = .busy then 1 else 0)
  /-- A record from outside is taken only when `detfifo` is empty. -/
  taken : ∀ a n', n.step a = .done n' → n'.recfifo.length < n.recfifo.length → n.refs.detfifo = []
  /-- What comes from one record is written before what comes from the next one. -/
  ordered : n.out.Pairwise (· ≤ ·)
  /-- No wakeup is lost. -/
  dequeued : Quiet n → n.recfifo = []
  terminated : n.terminate = .terminated → n.recfifo = [] ∧ n.refs.live = []
  /-- No assertion fails. -/
  noFault : ∀ a, n.step a ≠ .fault

theorem Inv.dequeued (h : Inv n) (hquiet : Quiet n) : n.recfifo = [] := by
  have hs : n.state = .idle := by
    cases hs : n.state with
    | idle => rfl
    | busy =>
      have hwaits := h.busy hs (Or.inl hquiet.pc)
      exact absurd hwaits (h.counted.not_waits hquiet.live hquiet.dying hquiet.notes)
  have hlen := h.queued_eq hs
  rw [hquiet.putting, Bool.toNat_false, Nat.add_zero] at hlen
  have hzero : n.queued = 0 := by
    by_contra hne
    rcases h.woken hs (Nat.pos_of_ne_zero hne) with hp | hp | hw | hw
    · exact absurd (hquiet.pc.symm.trans hp) nofun
    · exact absurd (hquiet.pc.symm.trans hp) nofun
    · exact absurd (hquiet.waking.symm.trans hw) nofun
    · exact absurd hquiet.wakeups (Nat.pos_iff_ne_zero.1 hw)
  exact eq_nil_of_length_eq_zero (hlen.symm.trans hzero)

theorem Inv.empty_of_terminated (h : Inv n) (ht : n.terminate = .terminated) :
    n.recfifo = [] ∧ n.refs.live = [] := by
  obtain ⟨hs, hzero⟩ := h.terminated ht
  have hput := (h.access (h.draining (ht.trans_ne nofun)).1).1
  have hlen := h.queued_eq hs
  rw [hzero, hput, Bool.toNat_false] at hlen
  refine ⟨eq_nil_of_length_eq_zero hlen.symm, eq_nil_iff_forall_not_mem.2 fun d hd => ?_⟩
  have hq := h.counted.live d hd
  rw [h.idle hs] at hq
  cases hq

/-- The deterministic feedback is correct in every run in which the operand absorbs no record that is
the last one to have a detref of an outer network. -/
theorem dripback_correct (h : Reach Net.step NoOuter Net.init n) : Correct n := by
  have hinv : Inv n := h.invariant inv_init fun s a s' hs hok hstep => hs.step hok hstep
  exact ⟨hinv.counter, fun a n' ha hlt => hinv.detfifo_of_take ha hlt, hinv.sorted, hinv.dequeued,
    hinv.empty_of_terminated, hinv.step_ne_fault⟩

/-- Two records come; the first one is copied in the loop, one of the two is absorbed and the other
leaves, then the second one leaves, and the control landing terminates. -/
theorem dripback_run : ∃ n, Reach Net.step NoOuter Net.init n ∧ Correct n ∧
    n.terminate = .terminated ∧ n.out = [1, 2] := by
  obtain ⟨as, n, hok, hrun, hstate⟩ : ∃ as n, (∀ a ∈ as, ∀ s, NoOuter s a) ∧
      runAll Net.step Net.init as = .done n ∧ n.terminate = .terminated ∧ n.out = [1, 2] :=
    ⟨[.arrive (.data true), .count, .wake, .arrive (.data true), .count, .terminate, .wakeup, .go, .go,
      .go, .go, .copy 1, .absorb 1 false, .back 1 false, .go, .go, .go, .go, .go, .go, .go, .go,
      .back 2 false, .go, .go, .go, .go, .go, .endRecord, .go, .go],
      _, by simp [NoOuter], rfl, rfl, rfl⟩
  have hreach := Reach.of_runAll .init (permitted_of_forall _ hok _) hrun
  exact ⟨n, hreach, dripback_correct hreach, hstate⟩

/-- The first record is absorbed, and was the last one to have a detref of an outer network; its
notification stops the program, with the second record still in `recfifo`. -/
theorem outer_notification_fails : ∃ n, Reach Net.step anyStep Net.init n ∧
    n.refs.live = [] ∧ n.recfifo = [(2, .data true)] ∧ n.step .noteOuter = .fault ∧ ¬ Correct n := by
  have hrun : ∃ n, runAll Net.step Net.init [.arrive (.data true), .count, .wake, .arrive (.data true),
      .count, .wakeup, .go, .go, .go, .go, .absorb 1 true, .notify 1] = .done n ∧ n.refs.live = [] ∧
        n.recfifo = [(2, .data true)] ∧ n.step .noteOuter = .fault := ⟨_, rfl, rfl, rfl, rfl⟩
  obtain ⟨n, hrun, hlive, hfifo, hfault⟩ := hrun
  have hreach := Reach.of_runAll .init (permitted_anyStep _ _ _) hrun
  exact ⟨n, hreach, hlive, hfifo, hfault, fun hc => hc.noFault .noteOuter hfault⟩

end SNet.Front.DripBack
