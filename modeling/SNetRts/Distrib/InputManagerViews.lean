import SNetRts.Distrib.InputManager
import Mathlib.Data.List.Nodup

/-!
# The buffers of the input manager

What holds of a buffer at every moment is a matter of the buffer and of where the threads are with
it: its view. Every step of a thread changes the view of one buffer at most, and keeps what is asked
of it.
-/

namespace SNet.Distrib.InputManager

open Function (update update_of_ne update_self)

open Lib List

variable {D R : Type}

/-! ## Views -/

/-- Where the manager is with a buffer. -/
inductive ManagerAt (R : Type) where
  | away
  | handling (rec : Rec R)
  | handled
  | blocked
  | draining
  | drained
deriving DecidableEq

/-- Where a reader is with a buffer. -/
inductive ReaderAt where
  | away
  | waiting
  | enqueueing
  | holding
  | finishing
  | freeing
deriving DecidableEq, Repr

def ManagerPc.at (b : Nat) : ManagerPc R → ManagerAt R
  | .lockBuffer b' rec => if b' = b then .handling rec else .away
  | .unlockBuffer b' => if b' = b then .handled else .away
  | .lockBlocked b' => if b' = b then .blocked else .away
  | .drain b' => if b' = b then .draining else .away
  | .unlockBlocked b' => if b' = b then .drained else .away
  | _ => .away

def ReaderPc.at (b : Nat) : ReaderPc → ReaderAt
  | .idle => .away
  | .lockBuffer b' => if b' = b then .waiting else .away
  | .lockUnblocked b' => if b' = b then .enqueueing else .away
  | .unlockUnblocked b' => if b' = b then .holding else .away
  | .unlockBuffer b' => if b' = b then .holding else .away
  | .unlockDone b' => if b' = b then .finishing else .away
  | .free b' => if b' = b then .freeing else .away

def ManagerAt.holds : ManagerAt R → Bool
  | .handled | .draining | .drained => true
  | _ => false

def ReaderAt.holds : ReaderAt → Bool
  | .enqueueing | .holding | .finishing => true
  | _ => false

/-- Where all threads are with a buffer. -/
structure View (D R : Type) where
  /-- The buffer is in `unblocked`. -/
  queued : Prop
  /-- The destinations that `destMap` has the buffer for. -/
  maps : D → Prop
  owner : Option Thread
  manager : ManagerAt R
  reader : Nat → ReaderAt

def State.view (s : State D R) (b : Nat) : View D R where
  queued := b ∈ s.unblocked
  maps d := s.destMap d = some b
  owner := s.owner (.buffer b)
  manager := s.manager.at b
  reader t := (s.reader t).at b

def Alternates : List Bool → Prop
  | [] => True
  | [m] => m = true
  | m :: m' :: ms => m = true ∧ m' = false ∧ Alternates ms

theorem Alternates.concat {ms : List Bool} (h : Alternates ms) (m : Bool)
    (hm : m = true ↔ ms.length % 2 = 0) : Alternates (ms ++ [m]) := by
  match ms, h with
  | [], _ => exact hm.2 rfl
  | [m'], h =>
    refine ⟨h, ?_, trivial⟩
    cases m with
    | false => rfl
    | true => exact absurd (hm.1 rfl) (by simp)
  | _ :: _ :: ms, ⟨h1, h2, h⟩ =>
    refine ⟨h1, h2, h.concat m (hm.trans ?_)⟩
    simp only [length_cons]
    omega

/-- What holds of a buffer. -/
structure View.Ok (v : View D R) (x : Buffer D R) : Prop where
  owner_manager : v.owner = some .manager ↔ v.manager.holds = true
  owner_reader : ∀ t, v.owner = some (.reader t) ↔ (v.reader t).holds = true
  received : x.received = x.read ++ x.stream ++ x.list
  called : x.counter + x.called = x.read.length + x.stream.length
  waiting : ∃ ts : List Nat, ts.Nodup ∧ (∀ t, t ∈ ts ↔ v.reader t = .waiting) ∧
    x.counter = x.stream.length + ts.length
  maps : ∀ d, v.maps d → x.dest = d ∧ x.done = false ∧ v.manager ≠ .handling .terminate
  handling : ∀ rec, v.manager = .handling rec → x.done = false
  last : x.done = true → ∃ rs, x.received = rs ++ [.terminate] ∧ .terminate ∉ rs
  goesOn : x.done = false → .terminate ∉ x.received
  queued : v.queued → x.counter = 0 ∧ x.list ≠ []
  enqueueing : ∀ t, v.reader t = .enqueueing →
    x.counter = 0 ∧ x.list ≠ [] ∧ ¬ v.queued ∧ v.manager ≠ .blocked
  blocked : v.manager = .blocked → x.counter = 0 ∧ x.list ≠ [] ∧ ¬ v.queued
  draining : v.manager = .draining → (0 < x.counter ∨ x.list ≠ []) ∧ ¬ v.queued
  /-- Somebody will look after what is in the list. -/
  watched : x.list ≠ [] → 0 < x.counter ∨ v.queued ∨ (∃ t, v.reader t = .enqueueing) ∨
    v.manager = .blocked ∨ v.manager = .draining
  alternates : Alternates x.sent
  isBlocked : x.list ≠ [] ∨ v.manager = .draining → x.sent.length % 2 = 1
  isUnblocked : x.list = [] → x.done = false → v.manager ≠ .draining → x.sent.length % 2 = 0
  finishing : ∀ t, v.reader t = .finishing ∨ v.reader t = .freeing →
    x.done = true ∧ x.counter = 0 ∧ x.list = [] ∧ x.freed = false ∧ v.manager = .away ∧
      ∀ t', t' ≠ t → v.reader t' = .away
  freed : x.freed = true →
    x.done = true ∧ x.counter = 0 ∧ x.list = [] ∧ v.manager = .away ∧ ∀ t, v.reader t = .away
  ends : x.done = true → x.list = [] → x.counter = 0 →
    x.freed = true ∨ ∃ t, v.reader t = .finishing ∨ v.reader t = .freeing

namespace View.Ok

variable {v : View D R} {x : Buffer D R} {t : Nat}

theorem stream_le (h : v.Ok x) : x.stream.length ≤ x.counter := by
  obtain ⟨ts, -, -, hc⟩ := h.waiting
  omega

theorem counter_pos (h : v.Ok x) (ht : v.reader t = .waiting) : 0 < x.counter := by
  obtain ⟨ts, -, hts, hc⟩ := h.waiting
  have := length_pos_of_mem ((hts t).2 ht)
  omega

theorem not_holds (h : v.Ok x) (hm : v.manager.holds = true) (t : Nat) :
    (v.reader t).holds = false := by
  have ho := h.owner_manager.2 hm
  cases hr : (v.reader t).holds with
  | false => rfl
  | true =>
    have := (h.owner_reader t).2 hr
    rw [ho] at this
    cases this

theorem unique (h : v.Ok x) (ht : (v.reader t).holds = true) :
    v.manager.holds = false ∧ ∀ t', t' ≠ t → (v.reader t').holds = false := by
  have ho := (h.owner_reader t).2 ht
  constructor
  · cases hm : v.manager.holds with
    | false => rfl
    | true =>
      have := h.owner_manager.2 hm
      rw [ho] at this
      cases this
  · intro t' hne
    cases hr : (v.reader t').holds with
    | false => rfl
    | true =>
      have := (h.owner_reader t').2 hr
      rw [ho] at this
      cases this
      exact absurd rfl hne

theorem nobody (h : v.Ok x) (ho : v.owner = none) :
    v.manager.holds = false ∧ ∀ t, (v.reader t).holds = false := by
  constructor
  · cases hm : v.manager.holds with
    | false => rfl
    | true =>
      have := h.owner_manager.2 hm
      rw [ho] at this
      cases this
  · intro t
    cases hr : (v.reader t).holds with
    | false => rfl
    | true =>
      have := (h.owner_reader t).2 hr
      rw [ho] at this
      cases this

theorem not_freed (h : v.Ok x) (ht : v.reader t ≠ .away) : x.freed = false := by
  cases hf : x.freed with
  | false => rfl
  | true => exact absurd ((h.freed hf).2.2.2.2 t) ht

theorem not_freed' (h : v.Ok x) (hm : v.manager ≠ .away) : x.freed = false := by
  cases hf : x.freed with
  | false => rfl
  | true => exact absurd (h.freed hf).2.2.2.1 hm

theorem not_finishing (h : v.Ok x) (ht : v.reader t ≠ .away)
    (hno : ¬ (v.reader t = .finishing ∨ v.reader t = .freeing)) (t' : Nat) :
    ¬ (v.reader t' = .finishing ∨ v.reader t' = .freeing) := by
  intro ht'
  by_cases hne : t = t'
  · exact hno (hne ▸ ht')
  · exact ht ((h.finishing t' ht').2.2.2.2.2 t hne)

/-! ## Readers -/

theorem update_eq_iff {r : Nat → ReaderAt} {t t' : Nat} {a c : ReaderAt} (hne : a ≠ c) :
    update r t a t' = c ↔ t' ≠ t ∧ r t' = c := by
  by_cases ht : t' = t
  · subst ht
    simp [hne]
  · simp [ht]

/-- A reader that neither waits nor comes to wait leaves the waiting ones as they are. -/
theorem waiting_update (h : v.Ok x) {c : ReaderAt} (ht : v.reader t ≠ .waiting) (hc : c ≠ .waiting) :
    ∃ ts : List Nat, ts.Nodup ∧ (∀ t', t' ∈ ts ↔ update v.reader t c t' = .waiting) ∧
      x.counter = x.stream.length + ts.length := by
  obtain ⟨ts, hnodup, hts, hlen⟩ := h.waiting
  refine ⟨ts, hnodup, fun t' => ?_, hlen⟩
  rw [hts, update_eq_iff hc]
  refine ⟨fun hw => ⟨?_, hw⟩, And.right⟩
  rintro rfl
  exact ht hw

theorem read (h : v.Ok x) (ht : v.reader t = .away) {rec : Rec R} {stream : List (Rec R)}
    (hs : x.stream = rec :: stream) :
    View.Ok { v with reader := update v.reader t .waiting }
      { x with stream := stream, read := x.read ++ [rec] } := by
  have hpos : 0 < x.counter := by
    have := h.stream_le
    rw [hs, length_cons] at this
    omega
  have hno : ¬ (v.reader t = .finishing ∨ v.reader t = .freeing) := by simp [ht]
  exact { h with
    owner_reader := by
      intro t'
      dsimp only
      rw [h.owner_reader]
      by_cases hne : t' = t
      · subst hne
        simp [ht, ReaderAt.holds]
      · rw [update_of_ne hne]
    received := by rw [h.received, hs]; simp
    called := by
      have := h.called
      rw [hs] at this
      simp only [length_cons, length_append, length_nil] at this ⊢
      omega
    waiting := by
      obtain ⟨ts, hnodup, hts, hc⟩ := h.waiting
      have hmem : t ∉ ts := by rw [hts, ht]; simp
      refine ⟨t :: ts, nodup_cons.2 ⟨hmem, hnodup⟩, fun t' => ?_, ?_⟩
      · dsimp only
        by_cases hne : t' = t
        · subst hne
          simp
        · rw [update_of_ne hne, mem_cons, hts]
          simp [hne]
      · rw [hc, hs]
        simp only [length_cons]
        omega
    enqueueing := by
      intro t' ht'
      exact h.enqueueing t' ((update_eq_iff (by simp)).1 ht').2
    watched := fun _ => Or.inl hpos
    finishing := by
      intro t' ht'
      have ht' := ht'.imp (fun h => ((update_eq_iff (by simp)).1 h).2)
        fun h => ((update_eq_iff (by simp)).1 h).2
      have := (h.finishing t' ht').2.1
      omega
    freed := by
      intro hf
      have := (h.freed hf).2.1
      omega
    ends := by
      intro _ _ hc
      change x.counter = 0 at hc
      omega }

/-- Where a reader is with the buffer behind `--buf->counter`. -/
def countedAt (x : Buffer D R) : ReaderAt :=
  if x.counter = 0 then
    if 0 < x.list.length then .enqueueing
    else if x.done then .finishing
    else .holding
  else .holding

theorem afterCount_at (b : Nat) (x : Buffer D R) : (State.afterCount b x).at b = countedAt x := by
  unfold State.afterCount countedAt
  split
  · split
    · simp [ReaderPc.at]
    · split <;> simp [ReaderPc.at]
  · simp [ReaderPc.at]

theorem countedAt_holds (x : Buffer D R) : (countedAt x).holds = true := by
  unfold countedAt
  split
  · split
    · rfl
    · split <;> rfl
  · rfl

theorem countedAt_ne (x : Buffer D R) : countedAt x ≠ .waiting ∧ countedAt x ≠ .freeing ∧
    countedAt x ≠ .away := by
  have := countedAt_holds x
  refine ⟨fun h => ?_, fun h => ?_, fun h => ?_⟩ <;>
    · rw [h] at this
      cases this

theorem count (h : v.Ok x) (ht : v.reader t = .waiting) (ho : v.owner = none) :
    View.Ok { v with
      owner := some (.reader t)
      reader := update v.reader t
        (countedAt { x with counter := x.counter - 1, called := x.called + 1 }) }
      { x with counter := x.counter - 1, called := x.called + 1 } := by
  have hpos := h.counter_pos ht
  obtain ⟨hnoM, hnoR⟩ := h.nobody ho
  have hfin := h.not_finishing (t := t) (by simp [ht]) (by simp [ht])
  have hnq : ¬ v.queued := fun hq => by
    have := (h.queued hq).1
    omega
  have hnb : v.manager ≠ .blocked := fun hb => by
    have := (h.blocked hb).1
    omega
  have hnd : v.manager ≠ .draining := fun hd => by
    rw [hd] at hnoM
    cases hnoM
  have hne := countedAt_ne { x with counter := x.counter - 1, called := x.called + 1 }
  have hholds := countedAt_holds { x with counter := x.counter - 1, called := x.called + 1 }
  obtain ⟨ts, hnodup, hts, hc⟩ := h.waiting
  have hmem : t ∈ ts := (hts t).2 ht
  have hlen := length_erase_of_mem hmem
  have htpos := length_pos_of_mem hmem
  exact { h with
    owner_manager := by
      dsimp only
      rw [hnoM]
      exact ⟨fun h => (by cases h), nofun⟩
    owner_reader := by
      intro t'
      dsimp only
      by_cases heq : t' = t
      · subst heq
        simp only [update_self, true_iff]
        exact hholds
      · rw [update_of_ne heq, hnoR]
        simp only [Option.some.injEq, Thread.reader.injEq, Bool.false_eq_true, iff_false]
        exact fun h => heq h.symm
    called := by
      have := h.called
      dsimp only
      omega
    waiting := by
      refine ⟨ts.erase t, hnodup.erase t, fun t' => ?_, ?_⟩
      · dsimp only
        rw [hnodup.mem_erase_iff, hts, update_eq_iff hne.1]
      · change x.counter - 1 = x.stream.length + _
        omega
    queued := fun hq => absurd hq hnq
    enqueueing := by
      intro t' ht'
      dsimp only at ht' ⊢
      by_cases heq : t' = t
      · subst heq
        rw [update_self] at ht'
        unfold countedAt at ht'
        split at ht'
        · rename_i hzero
          split at ht'
          · rename_i hlist
            exact ⟨hzero, ne_nil_of_length_pos hlist, hnq, hnb⟩
          · split at ht' <;> cases ht'
        · cases ht'
      · rw [update_of_ne heq] at ht'
        have := hnoR t'
        rw [ht'] at this
        cases this
    blocked := fun hb => absurd hb hnb
    draining := fun hd => absurd hd hnd
    watched := by
      intro hl
      by_cases hzero : x.counter - 1 = 0
      · refine Or.inr (Or.inr (Or.inl ⟨t, ?_⟩))
        dsimp only
        rw [update_self, countedAt, if_pos hzero, if_pos (length_pos_of_ne_nil hl)]
      · exact Or.inl (Nat.pos_of_ne_zero hzero)
    finishing := by
      intro t' ht'
      dsimp only at ht' ⊢
      by_cases heq : t' = t
      · subst heq
        rw [update_self] at ht'
        have hf := ht'.resolve_right hne.2.1
        unfold countedAt at hf
        split at hf
        · rename_i hzero
          split at hf
          · cases hf
          · rename_i hlist
            split at hf
            · rename_i hdone
              have hnil : x.list = [] := length_eq_zero_iff.1 (Nat.eq_zero_of_not_pos hlist)
              have haway : v.manager = .away := by
                cases hm : v.manager with
                | away => rfl
                | handling rec =>
                  rw [show x.done = false from h.handling rec hm] at hdone
                  cases hdone
                | blocked => exact absurd hm hnb
                | handled | draining | drained =>
                  rw [hm] at hnoM
                  cases hnoM
              refine ⟨hdone, hzero, hnil, h.not_freed (t := t') (by simp [ht]), haway, fun t'' hne' => ?_⟩
              rw [update_of_ne hne']
              have hfin' := hfin t''
              have hno := hnoR t''
              cases hr : v.reader t'' with
              | away => rfl
              | waiting =>
                have hm'' := (hts t'').2 hr
                have hne2 : ts.erase t' ≠ [] :=
                  ne_nil_of_mem ((hnodup.mem_erase_iff).2 ⟨hne', hm''⟩)
                have hpos2 := length_pos_of_ne_nil hne2
                change x.counter - 1 = 0 at hzero
                omega
              | freeing => exact absurd (Or.inr hr) hfin'
              | enqueueing | holding | finishing =>
                rw [hr] at hno
                cases hno
            · cases hf
        · cases hf
      · rw [update_of_ne heq] at ht'
        exact absurd ht' (hfin t')
    freed := by
      intro hf
      have := h.not_freed (t := t) (by simp [ht])
      rw [show x.freed = true from hf] at this
      cases this
    ends := by
      intro hd hl hz
      refine Or.inr ⟨t, Or.inl ?_⟩
      dsimp only
      rw [update_self, countedAt, if_pos hz]
      have hl' : x.list = [] := hl
      rw [if_neg (by simp [hl']), if_pos hd] }

theorem enqueue (h : v.Ok x) (ht : v.reader t = .enqueueing) :
    View.Ok { v with queued := True, reader := update v.reader t .holding } x := by
  obtain ⟨hzero, hlist, -, hnb⟩ := h.enqueueing t ht
  obtain ⟨hnoM, hnoR⟩ := h.unique (t := t) (by rw [ht]; rfl)
  have hno := h.not_finishing (t := t) (by simp [ht]) (by simp [ht])
  exact { h with
    owner_reader := by
      intro t'
      dsimp only
      rw [h.owner_reader]
      by_cases heq : t' = t
      · subst heq
        simp [ht, ReaderAt.holds]
      · rw [update_of_ne heq]
    waiting := h.waiting_update (by simp [ht]) (by simp)
    queued := fun _ => ⟨hzero, hlist⟩
    enqueueing := by
      intro t' ht'
      obtain ⟨hne, ht'⟩ := (update_eq_iff (by simp)).1 ht'
      have := hnoR t' hne
      rw [ht'] at this
      cases this
    blocked := fun hb => absurd hb hnb
    draining := by
      intro hd
      change v.manager = _ at hd
      rw [hd] at hnoM
      cases hnoM
    watched := fun _ => Or.inr (Or.inl trivial)
    finishing := by
      intro t' ht'
      exact absurd (ht'.imp (fun h => ((update_eq_iff (by simp)).1 h).2)
        fun h => ((update_eq_iff (by simp)).1 h).2) (hno t')
    freed := by
      intro hf
      have := h.not_freed (t := t) (by simp [ht])
      rw [hf] at this
      cases this
    ends := by
      intro _ hl
      exact absurd hl hlist }

theorem release (h : v.Ok x) (ht : v.reader t = .holding) :
    View.Ok { v with owner := none, reader := update v.reader t .away } x := by
  obtain ⟨hnoM, hnoR⟩ := h.unique (t := t) (by rw [ht]; rfl)
  have hno := h.not_finishing (t := t) (by simp [ht]) (by simp [ht])
  have hmono : ∀ t' c, c ≠ .away → update v.reader t .away t' = c → v.reader t' = c :=
    fun t' c hc h => ((update_eq_iff hc.symm).1 h).2
  exact { h with
    owner_manager := by
      dsimp only
      rw [hnoM]
      exact ⟨nofun, nofun⟩
    owner_reader := by
      intro t'
      dsimp only
      by_cases heq : t' = t
      · subst heq
        simp [ReaderAt.holds]
      · rw [update_of_ne heq, hnoR t' heq]
        exact ⟨nofun, nofun⟩
    waiting := h.waiting_update (by simp [ht]) (by simp)
    enqueueing := fun t' ht' => h.enqueueing t' (hmono t' _ (by simp) ht')
    watched := by
      intro hl
      refine (h.watched hl).imp_right (Or.imp_right (Or.imp_left ?_))
      rintro ⟨t', ht'⟩
      refine ⟨t', (update_eq_iff (by simp)).2 ⟨?_, ht'⟩⟩
      rintro rfl
      rw [ht] at ht'
      cases ht'
    finishing := by
      intro t' ht'
      exact absurd (ht'.imp (hmono t' _ (by simp)) (hmono t' _ (by simp))) (hno t')
    freed := by
      intro hf
      have := h.not_freed (t := t) (by simp [ht])
      rw [hf] at this
      cases this
    ends := by
      intro hd hl hz
      rcases h.ends hd hl hz with hf | ⟨t', ht'⟩
      · exact Or.inl hf
      · exact absurd ht' (hno t') }

theorem finish (h : v.Ok x) (ht : v.reader t = .finishing) :
    View.Ok { v with owner := none, reader := update v.reader t .freeing } x := by
  obtain ⟨hdone, hzero, hlist, hfreed, haway, hothers⟩ := h.finishing t (Or.inl ht)
  have hup : ∀ t' c, c ≠ .freeing → c ≠ .away → update v.reader t .freeing t' ≠ c := by
    intro t' c hc hc' heq
    obtain ⟨hne, heq⟩ := (update_eq_iff hc.symm).1 heq
    rw [hothers t' hne] at heq
    exact hc' heq.symm
  exact { h with
    owner_manager := by
      dsimp only
      rw [haway]
      exact ⟨nofun, nofun⟩
    owner_reader := by
      intro t'
      dsimp only
      by_cases heq : t' = t
      · subst heq
        simp [ReaderAt.holds]
      · rw [update_of_ne heq, hothers t' heq]
        exact ⟨nofun, nofun⟩
    waiting := h.waiting_update (by simp [ht]) (by simp)
    enqueueing := fun t' ht' => absurd ht' (hup t' _ (by simp) (by simp))
    watched := fun hl => absurd hlist hl
    finishing := by
      intro t' ht'
      have ht' := ht'.resolve_left (hup t' _ (by simp) (by simp))
      have heq : t' = t := by
        by_contra hne
        dsimp only at ht'
        rw [update_of_ne hne, hothers t' hne] at ht'
        cases ht'
      subst heq
      refine ⟨hdone, hzero, hlist, hfreed, haway, fun t'' hne => ?_⟩
      dsimp only
      rw [update_of_ne hne, hothers t'' hne]
    freed := by
      intro hf
      rw [hf] at hfreed
      cases hfreed
    ends := fun _ _ _ => Or.inr ⟨t, Or.inr (update_self ..)⟩ }

theorem free (h : v.Ok x) (ht : v.reader t = .freeing) :
    View.Ok { v with reader := update v.reader t .away } { x with freed := true } := by
  obtain ⟨hdone, hzero, hlist, -, haway, hothers⟩ := h.finishing t (Or.inr ht)
  have hall : ∀ t', update v.reader t .away t' = .away := by
    intro t'
    by_cases heq : t' = t
    · rw [heq, update_self]
    · rw [update_of_ne heq, hothers t' heq]
  have hno : ∀ t' c, c ≠ .away → update v.reader t .away t' ≠ c :=
    fun t' c hc heq => hc (heq ▸ hall t')
  exact { h with
    owner_reader := by
      intro t'
      dsimp only
      rw [hall, h.owner_reader]
      by_cases heq : t' = t
      · simp [heq, ht, ReaderAt.holds]
      · rw [hothers t' heq]
    waiting := h.waiting_update (by simp [ht]) (by simp)
    enqueueing := fun t' ht' => absurd ht' (hno t' _ (by simp))
    watched := fun hl => absurd hlist hl
    finishing := by
      intro t' ht'
      exact absurd ht' (not_or.2 ⟨hno t' _ (by simp), hno t' _ (by simp)⟩)
    freed := fun _ => ⟨hdone, hzero, hlist, haway, hall⟩
    ends := fun _ _ _ => Or.inl rfl }

/-! ## The manager -/

theorem begin (h : v.Ok x) (hm : v.manager = .away) {d : D} (hd : v.maps d) (rec : Rec R)
    {maps : D → Prop} (hmaps : ∀ d', maps d' → v.maps d' ∧ (rec = .terminate → d' ≠ d)) :
    View.Ok { v with maps := maps, manager := .handling rec } x := by
  obtain ⟨hdest, hdone, -⟩ := h.maps d hd
  exact { h with
    owner_manager := by
      rw [h.owner_manager, hm]
      rfl
    maps := by
      intro d' hd'
      obtain ⟨hd', hne⟩ := hmaps d' hd'
      obtain ⟨hdest', -, -⟩ := h.maps d' hd'
      refine ⟨hdest', hdone, fun heq => ?_⟩
      exact hne (ManagerAt.handling.inj heq) (hdest' ▸ hdest)
    handling := fun _ _ => hdone
    enqueueing := by
      intro t' ht'
      obtain ⟨h1, h2, h3, -⟩ := h.enqueueing t' ht'
      exact ⟨h1, h2, h3, by simp⟩
    blocked := fun hb => by cases hb
    draining := fun hd => by cases hd
    watched := by
      intro hl
      refine (h.watched hl).imp_right (Or.imp_right (Or.imp_right ?_))
      rw [hm]
      exact nofun
    isBlocked := fun hl => h.isBlocked (hl.imp_right fun h => by cases h)
    isUnblocked := fun hl hd _ => h.isUnblocked hl hd (by simp [hm])
    finishing := by
      intro t' ht'
      rw [(h.finishing t' ht').1] at hdone
      cases hdone
    freed := by
      intro hf
      rw [(h.freed hf).1] at hdone
      cases hdone }

theorem unmap (h : v.Ok x) {maps : D → Prop} (hmaps : ∀ d, maps d → v.maps d) :
    View.Ok { v with maps := maps } x :=
  { h with maps := fun d hd => h.maps d (hmaps d hd) }

theorem handle_of (h : v.Ok x) {rec : Rec R} (hm : v.manager = .handling rec) (ho : v.owner = none)
    {stream list : List (Rec R)} {counter : Nat} {done : Bool} {sent : List Bool}
    (hreceived : x.stream ++ x.list ++ [rec] = stream ++ list) (hdone : done = true ↔ rec = .terminate)
    (hcounter : counter + x.stream.length = x.counter + stream.length)
    (hlist : 0 < counter ∨ list ≠ [] ∧ v.queued) (hqueued : v.queued → counter = 0 ∧ list ≠ [])
    (halternates : Alternates sent) (hodd : list ≠ [] → sent.length % 2 = 1)
    (heven : list = [] → sent.length % 2 = 0) :
    View.Ok { v with owner := some .manager, manager := .handled }
      { x with done := done, counter := counter, list := list, stream := stream,
               received := x.received ++ [rec], sent := sent } := by
  obtain ⟨-, hnoR⟩ := h.nobody ho
  have hgoes := h.handling rec hm
  have hnotin := h.goesOn hgoes
  exact { h with
    owner_manager := ⟨fun _ => rfl, fun _ => rfl⟩
    owner_reader := by
      intro t'
      dsimp only
      rw [hnoR]
      exact ⟨nofun, nofun⟩
    received := by
      dsimp only
      rw [h.received]
      simp only [append_assoc] at hreceived ⊢
      rw [hreceived]
    called := by
      have := h.called
      dsimp only
      omega
    waiting := by
      obtain ⟨ts, hnodup, hts, hc⟩ := h.waiting
      refine ⟨ts, hnodup, hts, ?_⟩
      dsimp only
      omega
    maps := by
      intro d hd
      obtain ⟨hdest, -, hne⟩ := h.maps d hd
      refine ⟨hdest, ?_, by simp⟩
      cases hd' : done with
      | false => rfl
      | true =>
        rw [hdone.1 hd'] at hm
        exact absurd hm hne
    handling := fun _ heq => by cases heq
    last := by
      intro hd
      exact ⟨x.received, by rw [hdone.1 hd], hnotin⟩
    goesOn := by
      intro hd hmem
      rcases mem_append.1 hmem with hmem | hmem
      · exact hnotin hmem
      · rw [show done = true from hdone.2 (mem_singleton.1 hmem).symm] at hd
        cases hd
    queued := hqueued
    enqueueing := by
      intro t ht
      have := hnoR t
      rw [ht] at this
      cases this
    blocked := fun heq => by cases heq
    draining := fun heq => by cases heq
    watched := fun _ => hlist.imp_right fun h => Or.inl h.2
    alternates := halternates
    isBlocked := fun hl => hodd (hl.resolve_right (by simp))
    isUnblocked := fun hl _ _ => heven hl
    finishing := by
      intro t ht
      rw [(h.finishing t ht).1] at hgoes
      cases hgoes
    freed := by
      intro hf
      rw [(h.freed hf).1] at hgoes
      cases hgoes
    ends := by
      intro _ hl hz
      rcases hlist with hpos | ⟨hne, -⟩
      · exact absurd hz (Nat.pos_iff_ne_zero.1 hpos)
      · exact absurd hl hne }

theorem handle (h : v.Ok x) {rec : Rec R} (hm : v.manager = .handling rec) (ho : v.owner = none) :
    View.Ok { v with owner := some .manager, manager := .handled } (x.handle rec) := by
  have hgoes := h.handling rec hm
  have hdone : (if rec.isTerminate then true else x.done) = true ↔ rec = .terminate := by
    cases rec <;> simp [hgoes, Rec.isTerminate]
  unfold Buffer.handle Buffer.tryWrite
  dsimp only
  by_cases hnil : x.list = []
  · rw [if_pos (by rw [hnil, length_nil])]
    have heven : x.sent.length % 2 = 0 := h.isUnblocked hnil hgoes (by simp [hm])
    have hnq : ¬ v.queued := fun hq => (h.queued hq).2 hnil
    by_cases hfull : x.stream.length = x.size.1
    · -- the stream is full
      have hpos : 0 < x.counter := Nat.lt_of_lt_of_le (hfull ▸ x.size.2) h.stream_le
      rw [if_pos hfull]
      refine h.handle_of hm ho (by simp) hdone rfl (Or.inl hpos) (fun hq => absurd hq hnq) ?_ ?_ ?_
      · simpa [hnil] using h.alternates.concat true (by simp [heven])
      · intro _
        simp only [hnil, nil_append, length_singleton, if_true, length_append]
        omega
      · intro heq
        simp at heq
    · rw [if_neg hfull]
      refine h.handle_of hm ho (by simp [hnil]) hdone ?_ (Or.inl (Nat.succ_pos _))
        (fun hq => absurd hq hnq) h.alternates (fun hne => absurd hnil hne) fun _ => heven
      simp only [length_append, length_singleton]
      omega
  · have hpos := length_pos_of_ne_nil hnil
    rw [if_neg (Nat.pos_iff_ne_zero.1 hpos)]
    have hone : ¬ (x.list ++ [rec]).length = 1 := by
      rw [length_append, length_singleton]
      omega
    rw [if_neg hone]
    refine h.handle_of hm ho (by simp) hdone rfl ?_
      (fun hq => ⟨(h.queued hq).1, by simp⟩) h.alternates (fun _ => h.isBlocked (Or.inl hnil))
      fun heq => absurd heq (by simp)
    rcases h.watched hnil with hc | hq | ⟨t, ht⟩ | hb | hd
    · exact Or.inl hc
    · exact Or.inr ⟨by simp, hq⟩
    · have := (h.nobody ho).2 t
      rw [ht] at this
      cases this
    · rw [hm] at hb
      cases hb
    · rw [hm] at hd
      cases hd

theorem giveBack (h : v.Ok x) (hm : v.manager = .handled ∨ v.manager = .drained) :
    View.Ok { v with owner := none, manager := .away } x := by
  have hholds : v.manager.holds = true := by rcases hm with hm | hm <;> rw [hm] <;> rfl
  have hnoR := h.not_holds hholds
  have haway : v.manager ≠ .away := by rcases hm with hm | hm <;> simp [hm]
  exact { h with
    owner_manager := ⟨nofun, nofun⟩
    owner_reader := by
      intro t'
      dsimp only
      rw [hnoR]
      exact ⟨nofun, nofun⟩
    maps := by
      intro d hd
      obtain ⟨h1, h2, -⟩ := h.maps d hd
      exact ⟨h1, h2, by simp⟩
    handling := fun _ heq => by cases heq
    enqueueing := by
      intro t ht
      obtain ⟨h1, h2, h3, -⟩ := h.enqueueing t ht
      exact ⟨h1, h2, h3, by simp⟩
    blocked := fun heq => by cases heq
    draining := fun heq => by cases heq
    watched := by
      intro hl
      refine (h.watched hl).imp_right (Or.imp_right (Or.imp_right ?_))
      rcases hm with hm | hm <;> rw [hm] <;> exact nofun
    isBlocked := fun hl => h.isBlocked (hl.imp_right fun h => by cases h)
    isUnblocked := by
      intro hl hd _
      exact h.isUnblocked hl hd (by rcases hm with hm | hm <;> simp [hm])
    finishing := by
      intro t ht
      exact absurd (h.finishing t ht).2.2.2.2.1 haway
    freed := by
      intro hf
      exact absurd (h.freed hf).2.2.2.1 haway }

theorem dequeue (h : v.Ok x) (hm : v.manager = .away) (hq : v.queued) :
    View.Ok { v with queued := False, manager := .blocked } x := by
  obtain ⟨hzero, hlist⟩ := h.queued hq
  exact { h with
    owner_manager := by
      rw [h.owner_manager, hm]
      rfl
    maps := by
      intro d hd
      obtain ⟨h1, h2, -⟩ := h.maps d hd
      exact ⟨h1, h2, by simp⟩
    handling := fun _ heq => by cases heq
    queued := nofun
    enqueueing := fun t ht => absurd hq (h.enqueueing t ht).2.2.1
    blocked := fun _ => ⟨hzero, hlist, not_false⟩
    draining := fun heq => by cases heq
    watched := fun _ => Or.inr (Or.inr (Or.inr (Or.inl rfl)))
    isBlocked := fun _ => h.isBlocked (Or.inl hlist)
    isUnblocked := fun hl => absurd hl hlist
    finishing := fun t ht => absurd (h.finishing t ht).2.2.1 hlist
    freed := fun hf => absurd (h.freed hf).2.2.1 hlist }

theorem lockBlocked (h : v.Ok x) (hm : v.manager = .blocked) (ho : v.owner = none) :
    View.Ok { v with owner := some .manager, manager := .draining } x := by
  obtain ⟨-, hnoR⟩ := h.nobody ho
  obtain ⟨hzero, hlist, hnq⟩ := h.blocked hm
  exact { h with
    owner_manager := ⟨fun _ => rfl, fun _ => rfl⟩
    owner_reader := by
      intro t'
      dsimp only
      rw [hnoR]
      exact ⟨nofun, nofun⟩
    maps := by
      intro d hd
      obtain ⟨h1, h2, -⟩ := h.maps d hd
      exact ⟨h1, h2, by simp⟩
    handling := fun _ heq => by cases heq
    enqueueing := by
      intro t ht
      exact absurd hm (h.enqueueing t ht).2.2.2
    blocked := fun heq => by cases heq
    draining := fun _ => ⟨Or.inr hlist, hnq⟩
    watched := fun _ => Or.inr (Or.inr (Or.inr (Or.inr rfl)))
    isBlocked := fun _ => h.isBlocked (Or.inl hlist)
    isUnblocked := fun hl => absurd hl hlist
    finishing := fun t ht => absurd (h.finishing t ht).2.2.1 hlist
    freed := fun hf => absurd (h.freed hf).2.2.1 hlist }

theorem drain (h : v.Ok x) (hm : v.manager = .draining) {rec : Rec R} {list : List (Rec R)}
    (hl : x.list = rec :: list) {x' : Buffer D R}
    (hx' : ({ x with list := list } : Buffer D R).tryWrite rec = some x') : v.Ok x' := by
  have hnoR := h.not_holds (by rw [hm]; rfl)
  have haway : v.manager ≠ .away := by simp [hm]
  obtain ⟨-, hnq⟩ := h.draining hm
  unfold Buffer.tryWrite at hx'
  split at hx'
  · cases hx'
  · cases hx'
    exact { h with
      received := by
        dsimp only
        rw [h.received, hl]
        simp
      called := by
        have := h.called
        simp only [length_append, length_singleton]
        omega
      waiting := by
        obtain ⟨ts, hnodup, hts, hc⟩ := h.waiting
        refine ⟨ts, hnodup, hts, ?_⟩
        simp only [length_append, length_singleton]
        omega
      queued := fun hq => absurd hq hnq
      enqueueing := by
        intro t ht
        have := hnoR t
        rw [ht] at this
        cases this
      blocked := fun hb => by
        rw [hm] at hb
        cases hb
      draining := fun _ => ⟨Or.inl (Nat.succ_pos _), hnq⟩
      watched := fun _ => Or.inl (Nat.succ_pos _)
      isBlocked := fun _ => h.isBlocked (Or.inr hm)
      isUnblocked := fun _ _ hne => absurd hm hne
      finishing := fun t ht => absurd (h.finishing t ht).2.2.2.2.1 haway
      freed := fun hf => absurd (h.freed hf).2.2.2.1 haway
      ends := fun _ _ hz => absurd hz (Nat.succ_ne_zero _) }

theorem drained (h : v.Ok x) (hm : v.manager = .draining)
    (hend : x.list = [] ∨ x.stream.length = x.size.1) :
    View.Ok { v with manager := .drained } x.unblock := by
  have hnoR := h.not_holds (by rw [hm]; rfl)
  have haway : v.manager ≠ .away := by simp [hm]
  obtain ⟨hsome, hnq⟩ := h.draining hm
  have hpos : 0 < x.counter := by
    rcases hend with hnil | hfull
    · exact hsome.resolve_right fun hne => hne hnil
    · exact Nat.lt_of_lt_of_le (hfull ▸ x.size.2) h.stream_le
  have hodd := h.isBlocked (Or.inr hm)
  -- all but the messages stays as it is
  have hkeep : ∀ sent : List Bool, Alternates sent → (x.list ≠ [] → sent.length % 2 = 1) →
      (x.list = [] → x.done = false → sent.length % 2 = 0) →
      View.Ok { v with manager := .drained } { x with sent := sent } := by
    intro sent halternates hsent hsent'
    exact { h with
      owner_manager := by
        rw [h.owner_manager, hm]
        rfl
      maps := by
        intro d hd
        obtain ⟨h1, h2, -⟩ := h.maps d hd
        exact ⟨h1, h2, by simp⟩
      handling := fun _ heq => by cases heq
      enqueueing := by
        intro t ht
        have := hnoR t
        rw [ht] at this
        cases this
      blocked := fun heq => by cases heq
      draining := fun heq => by cases heq
      watched := fun _ => Or.inl hpos
      alternates := halternates
      isBlocked := fun hl => hsent (hl.resolve_right (by simp))
      isUnblocked := fun hl hd _ => hsent' hl hd
      finishing := fun t ht => absurd (h.finishing t ht).2.2.2.2.1 haway
      freed := fun hf => absurd (h.freed hf).2.2.2.1 haway }
  unfold Buffer.unblock
  split
  · rename_i hfree
    have hnil : x.list = [] := length_eq_zero_iff.1 hfree.1
    refine hkeep _ (h.alternates.concat false (by simp [hodd])) (fun hne => absurd hnil hne)
      fun _ _ => ?_
    rw [length_append, length_singleton]
    omega
  · rename_i hfree
    refine hkeep x.sent h.alternates (fun _ => hodd) fun hl hd => absurd ⟨?_, hd⟩ hfree
    rw [hl, length_nil]

end View.Ok

/-! ## New buffers -/

/-- Nobody is on a buffer that has not been created. -/
structure View.Absent (v : View D R) : Prop where
  queued : ¬ v.queued
  maps : ∀ d, ¬ v.maps d
  owner : v.owner = none
  manager : v.manager = .away
  reader : ∀ t, v.reader t = .away

theorem View.Absent.create {v : View D R} (h : v.Absent) (tuple : Tuple D) :
    View.Ok { v with maps := fun d => d = tuple.1 } (.new tuple) where
  owner_manager := by
    rw [h.owner, h.manager]
    exact ⟨nofun, nofun⟩
  owner_reader t := by
    dsimp only
    rw [h.owner, h.reader]
    exact ⟨nofun, nofun⟩
  received := rfl
  called := rfl
  waiting := by
    refine ⟨[], nodup_nil, fun t => ?_, rfl⟩
    rw [h.reader]
    exact ⟨nofun, nofun⟩
  maps d hd := ⟨hd.symm, rfl, by simp [h.manager]⟩
  handling _ _ := rfl
  last := nofun
  goesOn _ := nofun
  queued hq := absurd hq h.queued
  enqueueing t ht := by
    rw [h.reader] at ht
    cases ht
  blocked hb := by
    rw [h.manager] at hb
    cases hb
  draining hd := by
    rw [h.manager] at hd
    cases hd
  watched hl := absurd rfl hl
  alternates := trivial
  isBlocked hl := by
    rcases hl with hl | hl
    · exact absurd rfl hl
    · rw [h.manager] at hl
      cases hl
  isUnblocked _ _ _ := rfl
  finishing t ht := by
    rw [h.reader] at ht
    rcases ht with ht | ht <;> cases ht
  freed := nofun
  ends := nofun

end SNet.Distrib.InputManager
