import SNetRts.Front.StarChain
import Mathlib.Data.List.Basic

/-!
# The leader of a star

Wherever the leadership of a star is, at a landing or on its way to the next one, it splits the chain:
before it there are only identities and records without a detref, in the order in which they entered;
behind it every record has exactly one detref, and no landing is a leader. So the sequence numbers are
given out in the order of entry.
-/

namespace SNet.Front.Star

open Lib List

/-! ## The two sides of the leader -/

/-- The record has one detref, with a number that was given to it. -/
def Datum.Numbered (log : List (Nat × Int)) (d : Datum) : Prop := ∃ v, d.nums = [v] ∧ (d.id, v) ∈ log

def Item.Behind (log : List (Nat × Int)) : Item → Prop
  | .data d => d.Numbered log
  | .starLeader _ => False
  | _ => True

def Item.Before : Item → Prop
  | .data d => d.nums = []
  | .starLeader _ => False
  | _ => True

def ids (l : List Item) : List Nat :=
  l.filterMap fun x =>
    match x with
    | .data d => some d.id
    | _ => none

/-- A landing behind the leader. -/
structure Stage.Behind (log : List (Nat × Int)) (s : Stage) : Prop where
  hand : ∀ x ∈ s.hand, x.Behind log
  fifo : ∀ x ∈ s.fifo, x.Behind log
  leader : ∀ e, s.kind ≠ .star true e
  seen : ∀ seen, s.kind = .operand seen → ∀ d ∈ seen, d.Numbered log

def StarAhead : List Stage → Prop
  | [] => False
  | s :: rest => s.kind.isStar = true ∨ (s.kind = .identity ∧ StarAhead rest)

def EndsInStar : List Stage → Prop
  | [] => False
  | s :: rest => (rest = [] ∧ s.kind.isStar = true) ∨ EndsInStar rest

/-- The leader splits the chain; `w` are the records that wait before it, and `e` are its counters. -/
inductive Split (log : List (Nat × Int)) : List Stage → List Nat → DetEnter → Prop
  | leader {e : DetEnter} {fifo hand : List Item} {post : List Stage}
      (hfifo : ∀ x ∈ fifo, x.Before) (hhand : ∀ x ∈ hand, x.Behind log)
      (hpost : ∀ s ∈ post, s.Behind log) : Split log (⟨.star true e, fifo, hand⟩ :: post) (ids fifo) e
  /-- The leadership is in the stream to a landing. -/
  | inFifo {k : Kind} {e : DetEnter} {a b hand : List Item} {post : List Stage}
      (hk : k = .identity ∨ ∃ e', k = .star false e') (ha : ∀ x ∈ a, x.Behind log)
      (hb : ∀ x ∈ b, x.Before) (hhand : ∀ x ∈ hand, x.Behind log)
      (hstar : StarAhead (⟨k, a ++ .starLeader e :: b, hand⟩ :: post))
      (hpost : ∀ s ∈ post, s.Behind log) :
      Split log (⟨k, a ++ .starLeader e :: b, hand⟩ :: post) (ids b) e
  /-- A landing that has become an identity is about to write it. -/
  | inHand {e : DetEnter} {a fifo : List Item} {post : List Stage}
      (ha : ∀ x ∈ a, x.Behind log) (hfifo : ∀ x ∈ fifo, x.Before) (hstar : StarAhead post)
      (hpost : ∀ s ∈ post, s.Behind log) :
      Split log (⟨.identity, fifo, a ++ [.starLeader e]⟩ :: post) (ids fifo) e
  /-- An identity before it. -/
  | pass {e : DetEnter} {fifo hand : List Item} {rest : List Stage} {w : List Nat}
      (hfifo : ∀ x ∈ fifo, x.Before) (hhand : ∀ x ∈ hand, x.Before) (h : Split log rest w e) :
      Split log (⟨.identity, fifo, hand⟩ :: rest) (w ++ ids (hand ++ fifo)) e

variable {log : List (Nat × Int)}

theorem ids_append (l l' : List Item) : ids (l ++ l') = ids l ++ ids l' := filterMap_append

theorem Datum.Numbered.mono {log' : List (Nat × Int)} {d : Datum} (h : d.Numbered log)
    (hle : ∀ x ∈ log, x ∈ log') : d.Numbered log' := by
  obtain ⟨v, h1, h2⟩ := h
  exact ⟨v, h1, hle _ h2⟩

theorem Item.Behind.mono {log' : List (Nat × Int)} {x : Item} (h : x.Behind log)
    (hle : ∀ y ∈ log, y ∈ log') : x.Behind log' := by
  cases x with
  | data d => exact Datum.Numbered.mono h hle
  | starLeader e => exact h
  | detref => trivial
  | sync => trivial

theorem Stage.Behind.mono {log' : List (Nat × Int)} {s : Stage} (h : s.Behind log)
    (hle : ∀ y ∈ log, y ∈ log') : s.Behind log' :=
  ⟨fun x hx => (h.hand x hx).mono hle, fun x hx => (h.fifo x hx).mono hle, h.leader,
    fun seen hs d hd => (h.seen seen hs d hd).mono hle⟩

theorem Stage.Behind.push {s : Stage} (h : s.Behind log) {x : Item} (hx : x.Behind log) :
    (s.push x).Behind log := by
  refine ⟨h.hand, fun y hy => ?_, h.leader, h.seen⟩
  rcases mem_append.1 hy with hy | hy
  · exact h.fifo y hy
  · exact mem_singleton.1 hy ▸ hx

theorem StarAhead.push {s : Stage} {rest : List Stage} (h : StarAhead (s :: rest)) (x : Item) :
    StarAhead (s.push x :: rest) := h

theorem Split.enters {s : Stage} {rest : List Stage} {w : List Nat} {e : DetEnter}
    (h : Split log (s :: rest) w e) {l : List Item} (hl : ∀ x ∈ l, x.Before) :
    Split log ({ s with fifo := s.fifo ++ l } :: rest) (w ++ ids l) e := by
  have happ : ∀ {l' : List Item}, (∀ y ∈ l', y.Before) → ∀ y ∈ l' ++ l, y.Before := fun hl' y hy =>
    (mem_append.1 hy).elim (hl' y) (hl y)
  cases h with
  | leader hfifo hhand hpost =>
    rw [← ids_append]
    exact .leader (happ hfifo) hhand hpost
  | inFifo hk ha hb hhand hstar hpost =>
    rename_i k a b hand
    have heq : (a ++ .starLeader e :: b) ++ l = a ++ .starLeader e :: (b ++ l) := by simp
    simp only [heq]
    rw [← ids_append]
    exact .inFifo hk ha (happ hb) hhand hstar hpost
  | inHand ha hfifo hstar hpost =>
    rw [← ids_append]
    exact .inHand ha (happ hfifo) hstar hpost
  | pass hfifo hhand h =>
    rw [append_assoc, ← ids_append, append_assoc]
    exact .pass (happ hfifo) hhand h

/-! ## Steps behind the leader -/

/-- What a step behind the leader may do. -/
structure BehindStep (log : List (Nat × Int)) (stages stages' : List Stage) (eff : Effect) : Prop where
  behind : ∀ s ∈ stages', s.Behind log
  given : eff.given = []
  collected : ∀ x ∈ eff.collected, x.Behind log
  starAhead : StarAhead stages → StarAhead stages'

theorem take_behind {isDet : Bool} {s s' : Stage} {eff : Effect} (hs : s.Behind log)
    (h : take isDet s = .done (s', eff)) : s'.Behind log ∧ eff = .none ∧
      s'.kind.isStar = s.kind.isStar ∧ (s.kind = .identity → s'.kind = .identity) := by
  obtain ⟨k, fifo, hand⟩ := s
  obtain ⟨hhand, hfifo, hleader, hseen⟩ := hs
  cases hand with
  | cons y hand =>
    unfold take at h
    cases h
  | nil =>
    cases fifo with
    | nil =>
      unfold take at h
      cases h
    | cons x fifo =>
      have hx := hfifo x mem_cons_self
      have hrest : ∀ y ∈ fifo, y.Behind log := fun y hy => hfifo y (mem_cons_of_mem _ hy)
      have hone : ∀ y ∈ [x], y.Behind log := fun y hy => mem_singleton.1 hy ▸ hx
      have hnone : ∀ y ∈ ([] : List Item), y.Behind log := nofun
      cases k with
      | star leader e =>
        cases leader with
        | true => exact absurd rfl (hleader e)
        | false =>
          cases x with
          | data d =>
            cases h
            exact ⟨⟨hone, hrest, hleader, hseen⟩, rfl, rfl, nofun⟩
          | starLeader e' => exact hx.elim
          | detref =>
            cases h
            exact ⟨⟨hone, hrest, hleader, hseen⟩, rfl, rfl, nofun⟩
          | sync =>
            cases h
            exact ⟨⟨hnone, hrest, hleader, hseen⟩, rfl, rfl, nofun⟩
      | operand seen =>
        cases x with
        | data d =>
          cases h
          refine ⟨⟨hnone, hrest, nofun, fun seen' hs d' hd' => ?_⟩, rfl, rfl, nofun⟩
          cases hs
          rcases mem_append.1 hd' with hd' | hd'
          · exact hseen seen rfl d' hd'
          · exact mem_singleton.1 hd' ▸ hx
        | starLeader e' => exact hx.elim
        | detref =>
          cases h
          exact ⟨⟨hone, hrest, hleader, hseen⟩, rfl, rfl, nofun⟩
        | sync =>
          cases h
          exact ⟨⟨hone, hrest, hleader, hseen⟩, rfl, rfl, nofun⟩
      | identity =>
        cases x <;> cases h <;> exact ⟨⟨hone, hrest, hleader, hseen⟩, rfl, rfl, fun _ => rfl⟩

theorem opened_behind {x : Item} (hx : x.Behind log) (more : Nat) : ∀ s ∈ opened x more, s.Behind log := by
  intro s hs
  have hnone : ∀ y ∈ ([] : List Item), y.Behind log := nofun
  rcases mem_cons.1 hs with rfl | hs
  · refine ⟨hnone, fun y hy => mem_singleton.1 hy ▸ hx, nofun, fun seen hs d hd => ?_⟩
    cases hs
    cases hd
  · rcases mem_append.1 hs with hs | hs
    · obtain rfl := eq_of_mem_replicate hs
      refine ⟨hnone, hnone, nofun, fun seen hs d hd => ?_⟩
      cases hs
      cases hd
    · obtain rfl := mem_singleton.1 hs
      exact ⟨hnone, hnone, nofun, nofun⟩

/-- What a star does with a record that it has in hand. -/
inductive StarWrites (more : Nat) (leader : Bool) (e : DetEnter) (fifo hand : List Item) (x : Item) :
    List Stage → List Stage → Effect → Prop
  | collects (rest : List Stage) :
      StarWrites more leader e fifo hand x rest (⟨.star leader e, fifo, hand⟩ :: rest) ⟨[], [x]⟩
  | opens :
      StarWrites more leader e fifo hand x [] (⟨.star leader e, fifo, hand⟩ :: opened x more) .none
  | leaves {next : Stage} {rest : List Stage} (hstar : next.kind.isStar = true) :
      StarWrites more leader e fifo hand x (next :: rest)
        (⟨.identity, fifo, hand ++ if leader then [.starLeader e] else []⟩ :: next.push x :: rest) .none
  | passes {next : Stage} {rest : List Stage} (hstar : ¬ next.kind.isStar = true) :
      StarWrites more leader e fifo hand x (next :: rest)
        (⟨.star leader e, fifo, hand⟩ :: next.push x :: rest) .none

theorem write_star {exits leader : Bool} {more : Nat} {e : DetEnter} {fifo hand : List Item} {x : Item}
    {rest stages' : List Stage} {eff : Effect}
    (h : write exits more ⟨.star leader e, fifo, x :: hand⟩ rest = .done (stages', eff)) :
    StarWrites more leader e fifo hand x rest stages' eff := by
  cases x with
  | data d =>
    unfold write at h
    dsimp only at h
    split at h
    · cases h
      exact .collects rest
    · cases rest with
      | nil =>
        cases h
        exact .opens
      | cons next rest =>
        dsimp only at h
        split at h
        · next hstar =>
          cases h
          exact .leaves hstar
        · next hstar =>
          cases h
          exact .passes hstar
  | starLeader e' | detref | sync =>
    cases h
    exact .collects rest

theorem write_next {exits : Bool} {more : Nat} {k : Kind} {fifo hand : List Item} {x : Item}
    {rest stages' : List Stage} {eff : Effect} (hk : k.isStar = false)
    (h : write exits more ⟨k, fifo, x :: hand⟩ rest = .done (stages', eff)) :
    ∃ next rest', rest = next :: rest' ∧ stages' = ⟨k, fifo, hand⟩ :: next.push x :: rest' ∧ eff = .none := by
  cases k with
  | star leader e => cases hk
  | operand seen | identity =>
    cases rest with
    | nil => cases x <;> cases h
    | cons next rest =>
      cases x <;> cases h <;> exact ⟨next, rest, rfl, rfl, rfl⟩

theorem Stage.Behind.tail {k : Kind} {fifo hand : List Item} {x : Item}
    (h : Stage.Behind log ⟨k, fifo, x :: hand⟩) : Stage.Behind log ⟨k, fifo, hand⟩ :=
  ⟨fun y hy => h.hand y (mem_cons_of_mem _ hy), h.fifo, h.leader, h.seen⟩

theorem Stage.Behind.identity {k : Kind} {fifo hand : List Item} (h : Stage.Behind log ⟨k, fifo, hand⟩) :
    Stage.Behind log ⟨.identity, fifo, hand⟩ := ⟨h.hand, h.fifo, nofun, nofun⟩

theorem behind_cons {s : Stage} {rest : List Stage} (hs : s.Behind log) (hrest : ∀ t ∈ rest, t.Behind log) :
    ∀ t ∈ s :: rest, t.Behind log := fun t ht =>
  (mem_cons.1 ht).elim (fun e => e ▸ hs) (hrest t)

theorem behind_push {next : Stage} {rest : List Stage} {x : Item} (h : ∀ s ∈ next :: rest, s.Behind log)
    (hx : x.Behind log) : ∀ s ∈ next.push x :: rest, s.Behind log := fun s hs =>
  (mem_cons.1 hs).elim (fun e => e ▸ (h next mem_cons_self).push hx)
    fun hs => h s (mem_cons_of_mem _ hs)

theorem write_behind {exits : Bool} {more : Nat} {s : Stage} {rest stages' : List Stage} {eff : Effect}
    (hs : s.Behind log) (hrest : ∀ t ∈ rest, t.Behind log)
    (h : write exits more s rest = .done (stages', eff)) : BehindStep log (s :: rest) stages' eff := by
  obtain ⟨k, fifo, hand⟩ := s
  cases hand with
  | nil => cases h
  | cons x hand =>
    have hx : x.Behind log := hs.hand x mem_cons_self
    have hcoll : ∀ y ∈ [x], y.Behind log := fun y hy => mem_singleton.1 hy ▸ hx
    cases k with
    | star leader e =>
      cases leader with
      | true => exact absurd rfl (hs.leader e)
      | false =>
        cases write_star h with
        | collects => exact ⟨behind_cons hs.tail hrest, rfl, hcoll, id⟩
        | opens => exact ⟨behind_cons hs.tail (opened_behind hx more), rfl, nofun, fun _ => Or.inl rfl⟩
        | leaves hstar =>
          rw [if_neg Bool.false_ne_true, append_nil]
          exact ⟨behind_cons hs.tail.identity (behind_push hrest hx), rfl, nofun, fun _ => Or.inr ⟨rfl, Or.inl hstar⟩⟩
        | passes => exact ⟨behind_cons hs.tail (behind_push hrest hx), rfl, nofun, fun _ => Or.inl rfl⟩
    | operand seen | identity =>
      obtain ⟨next, rest', rfl, rfl, rfl⟩ := write_next rfl h
      exact ⟨behind_cons hs.tail (behind_push hrest hx), rfl, nofun, id⟩

theorem localStep_behind {isDet : Bool} {a : Local} {s : Stage} {rest stages' : List Stage}
    {eff : Effect} (hs : s.Behind log) (hrest : ∀ t ∈ rest, t.Behind log)
    (h : localStep isDet a s rest = .done (stages', eff)) : BehindStep log (s :: rest) stages' eff := by
  cases a with
  | take =>
    obtain ⟨⟨s', eff'⟩, h1, h2⟩ := Outcome.bind_eq_done.1 h
    cases h2
    obtain ⟨hb, rfl, hstar, hid⟩ := take_behind hs h1
    refine ⟨behind_cons hb hrest, rfl, nofun, fun hahead => ?_⟩
    exact hahead.imp (fun hk => hstar.trans hk) fun hk => ⟨hid hk.1, hk.2⟩
  | write exits more => exact write_behind hs hrest h
  | emit outs =>
    obtain ⟨k, fifo, hand⟩ := s
    cases k with
    | operand seen =>
      unfold localStep at h
      dsimp only at h
      split at h
      · rename_i houts
        cases h
        refine ⟨behind_cons ⟨fun x hx => ?_, hs.fifo, nofun, hs.seen⟩ hrest, rfl, nofun, id⟩
        rcases mem_append.1 hx with hx | hx
        · exact hs.hand x hx
        · obtain ⟨d, hd, rfl⟩ := List.mem_map.1 hx
          exact hs.seen seen rfl d (houts d hd)
      · cases h
    | star leader e => cases h
    | identity => cases h
  | dissolve =>
    obtain ⟨k, fifo, hand⟩ := s
    cases k with
    | operand seen =>
      cases h
      refine ⟨behind_cons hs.identity hrest, rfl, nofun, fun hahead => ?_⟩
      rcases hahead with hk | hk
      · cases hk
      · cases hk.1
    | star leader e => cases h
    | identity => cases h
  | merge =>
    obtain ⟨k, fifo, hand⟩ := s
    cases k with
    | identity =>
      cases hand with
      | cons y hand => cases h
      | nil =>
        cases rest with
        | nil => cases h
        | cons next rest =>
          cases h
          have hn := hrest next mem_cons_self
          refine ⟨behind_cons ⟨hn.hand, fun x hx => ?_, hn.leader, hn.seen⟩ fun u hu =>
            hrest u (mem_cons_of_mem _ hu), rfl, nofun, fun hahead => ?_⟩
          · exact (mem_append.1 hx).elim (hn.fifo x) (hs.fifo x)
          · rcases hahead with hk | hk
            · cases hk
            · exact hk.2
    | star leader e => cases h
    | operand seen => cases h

theorem stepAt_behind {isDet : Bool} {a : Local} {k : Nat} {stages stages' : List Stage} {eff : Effect}
    (hs : ∀ s ∈ stages, s.Behind log) (h : stepAt isDet a k stages = .done (stages', eff)) :
    BehindStep log stages stages' eff := by
  induction stages generalizing k stages' eff with
  | nil =>
    unfold stepAt at h
    cases h
  | cons s rest ih =>
    have hrest : ∀ t ∈ rest, t.Behind log := fun t ht => hs t (mem_cons_of_mem _ ht)
    cases k with
    | zero => exact localStep_behind (hs s mem_cons_self) hrest h
    | succ k =>
      obtain ⟨⟨rest', eff'⟩, h1, h2⟩ := Outcome.bind_eq_done.1 h
      cases h2
      obtain ⟨hb, hg, hc, hstar⟩ := ih hrest h1
      refine ⟨fun t ht => ?_, hg, hc, fun hahead => ?_⟩
      · exact (mem_cons.1 ht).elim (fun e => e ▸ hs s mem_cons_self) (hb t)
      · exact hahead.imp id fun hk => ⟨hk.1, hstar hk.2⟩

/-! ## Steps at the leader and before it -/

/-- What a step may do: nothing to those that wait, or the first of them gets a detref. -/
structure SplitStep (isDet : Bool) (log : List (Nat × Int)) (w : List Nat) (e : DetEnter)
    (stages' : List Stage) (eff : Effect) (w' : List Nat) (e' : DetEnter) : Prop where
  split : Split (log ++ eff.given) stages' w' e'
  collected : ∀ x ∈ eff.collected, x.Behind (log ++ eff.given)
  wait : (eff.given = [] ∧ w' = w ∧ e' = e) ∨
    ∃ i outer, eff.given = [(i, e'.counter)] ∧ w = i :: w' ∧ detEnter isDet e outer = some e'

section SplitStep

variable {isDet : Bool} {w : List Nat} {e : DetEnter} {stages' : List Stage}

theorem SplitStep.quiet {collected : List Item} (h : Split log stages' w e)
    (hc : ∀ x ∈ collected, x.Behind log) : SplitStep isDet log w e stages' ⟨[], collected⟩ w e := by
  refine ⟨?_, fun x hx => ?_, Or.inl ⟨rfl, rfl, rfl⟩⟩
  · rw [append_nil]
    exact h
  · rw [append_nil]
    exact hc x hx

theorem behind_tail {x : Item} {hand : List Item} (h : ∀ y ∈ x :: hand, y.Behind log) :
    x.Behind log ∧ ∀ y ∈ hand, y.Behind log :=
  ⟨h x mem_cons_self, fun y hy => h y (mem_cons_of_mem _ hy)⟩

theorem leader_take {fifo hand : List Item} {post : List Stage} {s' : Stage} {eff : Effect}
    (hfifo : ∀ x ∈ fifo, x.Before) (hpost : ∀ s ∈ post, s.Behind log)
    (h : take isDet ⟨.star true e, fifo, hand⟩ = .done (s', eff)) :
    ∃ w' e', SplitStep isDet log (ids fifo) e (s' :: post) eff w' e' := by
  cases hand with
  | cons y hand =>
    unfold take at h
    cases h
  | nil =>
    cases fifo with
    | nil =>
      unfold take at h
      cases h
    | cons x fifo =>
      have hx := hfifo x mem_cons_self
      have hrest : ∀ y ∈ fifo, y.Before := fun y hy => hfifo y (mem_cons_of_mem _ hy)
      cases x with
      | data d =>
        unfold take at h
        dsimp only at h
        cases hd : detEnter isDet e d.outer with
        | none =>
          rw [hd] at h
          cases h
        | some e' =>
          rw [hd] at h
          cases h
          have hle : ∀ y ∈ log, y ∈ log ++ [(d.id, e'.counter)] := fun y hy => mem_append_left _ hy
          have hnew : Datum.Numbered (log ++ [(d.id, e'.counter)])
              { d with nums := d.nums ++ [e'.counter] } := by
            refine ⟨e'.counter, ?_, by simp⟩
            have hd : d.nums = [] := hx
            simp [hd]
          refine ⟨ids fifo, e', .leader hrest (fun y hy => ?_) fun s hs => (hpost s hs).mono hle, nofun,
            Or.inr ⟨d.id, d.outer, rfl, rfl, hd⟩⟩
          exact mem_singleton.1 hy ▸ hnew
      | starLeader e' => exact hx.elim
      | detref =>
        cases h
        refine ⟨_, _, SplitStep.quiet (.leader hrest (fun y hy => ?_) hpost) nofun⟩
        exact mem_singleton.1 hy ▸ trivial
      | sync =>
        cases h
        exact ⟨_, _, SplitStep.quiet (.leader hrest nofun hpost) nofun⟩

theorem leader_write {exits : Bool} {more : Nat} {fifo hand : List Item} {post : List Stage}
    {eff : Effect} (hfifo : ∀ x ∈ fifo, x.Before) (hhand : ∀ x ∈ hand, x.Behind log)
    (hpost : ∀ s ∈ post, s.Behind log)
    (h : write exits more ⟨.star true e, fifo, hand⟩ post = .done (stages', eff)) :
    ∃ w' e', SplitStep isDet log (ids fifo) e stages' eff w' e' := by
  cases hand with
  | nil => cases h
  | cons x hand =>
    obtain ⟨hx, hhand'⟩ := behind_tail hhand
    have hone : ∀ y ∈ [x], y.Behind log := fun y hy => mem_singleton.1 hy ▸ hx
    cases write_star h with
    | collects => exact ⟨_, _, SplitStep.quiet (.leader hfifo hhand' hpost) hone⟩
    | opens => exact ⟨_, _, SplitStep.quiet (.leader hfifo hhand' (opened_behind hx more)) nofun⟩
    | leaves hstar =>
      -- the leadership follows the record
      exact ⟨_, _, SplitStep.quiet (.inHand hhand' hfifo (Or.inl hstar) (behind_push hpost hx)) nofun⟩
    | passes => exact ⟨_, _, SplitStep.quiet (.leader hfifo hhand' (behind_push hpost hx)) nofun⟩

theorem inFifo_take {k : Kind} {a b hand : List Item} {post : List Stage} {s' : Stage} {eff : Effect}
    (hk : k = .identity ∨ ∃ e', k = .star false e') (ha : ∀ x ∈ a, x.Behind log)
    (hb : ∀ x ∈ b, x.Before) (hstar : StarAhead (⟨k, a ++ .starLeader e :: b, hand⟩ :: post))
    (hpost : ∀ s ∈ post, s.Behind log)
    (h : take isDet ⟨k, a ++ .starLeader e :: b, hand⟩ = .done (s', eff)) :
    ∃ w' e', SplitStep isDet log (ids b) e (s' :: post) eff w' e' := by
  cases hand with
  | cons y hand =>
    unfold take at h
    cases hk' : a ++ .starLeader e :: b <;> rw [hk'] at h <;> cases h
  | nil =>
    cases a with
    | nil =>
      rcases hk with rfl | ⟨e0, rfl⟩
      · cases h
        refine ⟨_, _, SplitStep.quiet ?_ nofun⟩
        have hahead : StarAhead post := (hstar.resolve_left nofun).2
        exact .inHand (a := []) nofun hb hahead hpost
      · cases h
        exact ⟨_, _, SplitStep.quiet (.leader hb nofun hpost) nofun⟩
    | cons x a =>
      obtain ⟨hx, ha'⟩ := behind_tail ha
      have hone : ∀ y ∈ [x], y.Behind log := fun y hy => mem_singleton.1 hy ▸ hx
      rcases hk with rfl | ⟨e0, rfl⟩
      · cases x <;> cases h <;>
          exact ⟨_, _, SplitStep.quiet (.inFifo (Or.inl rfl) ha' hb hone hstar hpost) nofun⟩
      · cases x with
        | starLeader e' => exact hx.elim
        | data d =>
          cases h
          exact ⟨_, _, SplitStep.quiet (.inFifo (Or.inr ⟨_, rfl⟩) ha' hb hone hstar hpost) nofun⟩
        | detref =>
          cases h
          exact ⟨_, _, SplitStep.quiet (.inFifo (Or.inr ⟨_, rfl⟩) ha' hb hone hstar hpost) nofun⟩
        | sync =>
          cases h
          exact ⟨_, _, SplitStep.quiet (.inFifo (Or.inr ⟨_, rfl⟩) ha' hb nofun hstar hpost) nofun⟩

theorem inFifo_write {exits : Bool} {more : Nat} {k : Kind} {a b hand : List Item} {post : List Stage}
    {eff : Effect} (hk : k = .identity ∨ ∃ e', k = .star false e') (ha : ∀ x ∈ a, x.Behind log)
    (hb : ∀ x ∈ b, x.Before) (hhand : ∀ x ∈ hand, x.Behind log)
    (hstar : StarAhead (⟨k, a ++ .starLeader e :: b, hand⟩ :: post))
    (hpost : ∀ s ∈ post, s.Behind log)
    (h : write exits more ⟨k, a ++ .starLeader e :: b, hand⟩ post = .done (stages', eff)) :
    ∃ w' e', SplitStep isDet log (ids b) e stages' eff w' e' := by
  cases hand with
  | nil => cases h
  | cons x hand =>
    obtain ⟨hx, hhand'⟩ := behind_tail hhand
    have hone : ∀ y ∈ [x], y.Behind log := fun y hy => mem_singleton.1 hy ▸ hx
    rcases hk with rfl | ⟨e0, rfl⟩
    · obtain ⟨next, post, rfl, rfl, rfl⟩ := write_next rfl h
      exact ⟨_, _, SplitStep.quiet (.inFifo (Or.inl rfl) ha hb hhand' hstar (behind_push hpost hx)) nofun⟩
    · cases write_star h with
      | collects => exact ⟨_, _, SplitStep.quiet (.inFifo (Or.inr ⟨_, rfl⟩) ha hb hhand' hstar hpost) hone⟩
      | opens =>
        exact ⟨_, _, SplitStep.quiet (.inFifo (Or.inr ⟨_, rfl⟩) ha hb hhand' (Or.inl rfl)
          (opened_behind hx more)) nofun⟩
      | leaves hnext =>
        rw [if_neg Bool.false_ne_true, append_nil]
        exact ⟨_, _, SplitStep.quiet (.inFifo (Or.inl rfl) ha hb hhand' (Or.inr ⟨rfl, Or.inl hnext⟩)
          (behind_push hpost hx)) nofun⟩
      | passes =>
        exact ⟨_, _, SplitStep.quiet (.inFifo (Or.inr ⟨_, rfl⟩) ha hb hhand' (Or.inl rfl)
          (behind_push hpost hx)) nofun⟩

theorem kind_of_starAhead {s : Stage} {rest : List Stage} (h : StarAhead (s :: rest)) (hs : s.Behind log) :
    s.kind = .identity ∨ ∃ e', s.kind = .star false e' := by
  rcases h with h | h
  · cases hk : s.kind with
    | star leader e =>
      cases leader with
      | true => exact absurd hk (hs.leader e)
      | false => exact Or.inr ⟨e, rfl⟩
    | operand seen =>
      rw [hk] at h
      cases h
    | identity =>
      rw [hk] at h
      cases h
  · exact Or.inl h.1

theorem inFifo_merge {a b : List Item} {next : Stage} {post : List Stage} (ha : ∀ x ∈ a, x.Behind log)
    (hb : ∀ x ∈ b, x.Before) (hstar : StarAhead (next :: post))
    (hpost : ∀ s ∈ next :: post, s.Behind log) :
    Split log ({ next with fifo := next.fifo ++ (a ++ .starLeader e :: b) } :: post) (ids b) e := by
  have hn := hpost next mem_cons_self
  have hkind := kind_of_starAhead hstar hn
  obtain ⟨k, fifo, hand⟩ := next
  simp only [← append_assoc]
  refine .inFifo hkind (fun x hx => ?_) hb hn.hand ?_ fun s hs => hpost s (mem_cons_of_mem _ hs)
  · exact (mem_append.1 hx).elim (hn.fifo x) (ha x)
  · exact hstar

theorem inHand_write {exits : Bool} {more : Nat} {a fifo : List Item} {post : List Stage} {eff : Effect}
    (ha : ∀ x ∈ a, x.Behind log) (hfifo : ∀ x ∈ fifo, x.Before) (hstar : StarAhead post)
    (hpost : ∀ s ∈ post, s.Behind log)
    (h : write exits more ⟨.identity, fifo, a ++ [.starLeader e]⟩ post = .done (stages', eff)) :
    ∃ w' e', SplitStep isDet log (ids fifo) e stages' eff w' e' := by
  cases post with
  | nil => exact hstar.elim
  | cons next post =>
    cases a with
    | nil =>
      cases h
      refine ⟨_, _, SplitStep.quiet ?_ nofun⟩
      have hnext := inFifo_merge (e := e) (a := []) (b := []) nofun nofun hstar hpost
      have hnone : ∀ y ∈ ([] : List Item), y.Before := nofun
      exact .pass hfifo hnone hnext
    | cons x a =>
      obtain ⟨hx, ha'⟩ := behind_tail ha
      cases x <;> cases h <;>
        exact ⟨_, _, SplitStep.quiet (.inHand ha' hfifo (hstar.push _) (behind_push hpost hx)) nofun⟩

theorem pass_take {fifo hand : List Item} {rest : List Stage} {s' : Stage} {eff : Effect}
    (hfifo : ∀ x ∈ fifo, x.Before) (h : Split log rest w e)
    (hs' : take isDet ⟨.identity, fifo, hand⟩ = .done (s', eff)) :
    ∃ w' e', SplitStep isDet log (w ++ ids (hand ++ fifo)) e (s' :: rest) eff w' e' := by
  cases hand with
  | cons y hand =>
    unfold take at hs'
    cases hs'
  | nil =>
    cases fifo with
    | nil =>
      unfold take at hs'
      cases hs'
    | cons x fifo =>
      have hx := hfifo x mem_cons_self
      have hrest : ∀ y ∈ fifo, y.Before := fun y hy => hfifo y (mem_cons_of_mem _ hy)
      have hone : ∀ y ∈ [x], y.Before := fun y hy => mem_singleton.1 hy ▸ hx
      have hsplit : Split log (⟨.identity, fifo, [x]⟩ :: rest) (w ++ ids ([x] ++ fifo)) e :=
        .pass hrest hone h
      cases x <;> cases hs' <;> exact ⟨_, _, SplitStep.quiet hsplit nofun⟩

theorem pass_write {exits : Bool} {more : Nat} {fifo hand : List Item} {rest : List Stage} {eff : Effect}
    (hfifo : ∀ x ∈ fifo, x.Before) (hhand : ∀ x ∈ hand, x.Before) (h : Split log rest w e)
    (hs' : write exits more ⟨.identity, fifo, hand⟩ rest = .done (stages', eff)) :
    ∃ w' e', SplitStep isDet log (w ++ ids (hand ++ fifo)) e stages' eff w' e' := by
  cases hand with
  | nil => cases hs'
  | cons x hand =>
    have hx := hhand x mem_cons_self
    have hrest : ∀ y ∈ hand, y.Before := fun y hy => hhand y (mem_cons_of_mem _ hy)
    cases rest with
    | nil => cases h
    | cons next rest =>
      have hnext : Split log (next.push x :: rest) (w ++ ids [x]) e :=
        h.enters fun y hy => mem_singleton.1 hy ▸ hx
      have hsplit := Split.pass hfifo hrest hnext
      have heq : (w ++ ids [x]) ++ ids (hand ++ fifo) = w ++ ids (x :: hand ++ fifo) := by
        rw [append_assoc, ← ids_append]
        rfl
      rw [heq] at hsplit
      cases x <;> cases hs' <;> exact ⟨_, _, SplitStep.quiet hsplit nofun⟩

theorem splitStep_behind {k : Nat} {a : Local} {s : Stage} {post : List Stage} {eff : Effect}
    (hsplit : ∀ post', (∀ t ∈ post', t.Behind log) → (StarAhead post → StarAhead post') →
      Split log (s :: post') w e)
    (hpost : ∀ t ∈ post, t.Behind log)
    (h : stepAt isDet a (k + 1) (s :: post) = .done (stages', eff)) :
    ∃ w' e', SplitStep isDet log w e stages' eff w' e' := by
  obtain ⟨⟨post', ⟨given, collected⟩⟩, h1, h2⟩ := Outcome.bind_eq_done.1 h
  cases h2
  obtain ⟨hb, rfl, hc, hahead⟩ := stepAt_behind hpost h1
  exact ⟨_, _, SplitStep.quiet (hsplit post' hb hahead) hc⟩

theorem Split.stepAt {stages : List Stage} {a : Local} {k : Nat} {eff : Effect}
    (h : Split log stages w e) (hs : stepAt isDet a k stages = .done (stages', eff)) :
    ∃ w' e', SplitStep isDet log w e stages' eff w' e' := by
  induction h generalizing k stages' eff with
  | leader hfifo hhand hpost =>
    cases k with
    | succ k => exact splitStep_behind (fun post' hb _ => .leader hfifo hhand hb) hpost hs
    | zero =>
      cases a with
      | take =>
        obtain ⟨⟨s', eff'⟩, h1, h2⟩ := Outcome.bind_eq_done.1 hs
        cases h2
        exact leader_take hfifo hpost h1
      | write exits more => exact leader_write hfifo hhand hpost hs
      | emit outs => cases hs
      | dissolve => cases hs
      | merge => cases hs
  | inFifo hk ha hb hhand hstar hpost =>
    cases k with
    | succ k =>
      refine splitStep_behind (fun post' hb' hahead => .inFifo hk ha hb hhand ?_ hb') hpost hs
      exact hstar.imp id fun hid => ⟨hid.1, hahead hid.2⟩
    | zero =>
      cases a with
      | take =>
        obtain ⟨⟨s', eff'⟩, h1, h2⟩ := Outcome.bind_eq_done.1 hs
        cases h2
        exact inFifo_take hk ha hb hstar hpost h1
      | write exits more => exact inFifo_write hk ha hb hhand hstar hpost hs
      | emit outs => rcases hk with rfl | ⟨e', rfl⟩ <;> cases hs
      | dissolve => rcases hk with rfl | ⟨e', rfl⟩ <;> cases hs
      | merge =>
        rename_i hand post
        rcases hk with rfl | ⟨e', rfl⟩
        · cases hand with
          | cons y hand => cases hs
          | nil =>
            cases post with
            | nil => cases hs
            | cons next post =>
              cases hs
              exact ⟨_, _, SplitStep.quiet
                (inFifo_merge ha hb (hstar.resolve_left nofun).2 hpost) nofun⟩
        · cases hs
  | inHand ha hfifo hstar hpost =>
    cases k with
    | succ k =>
      exact splitStep_behind (fun post' hb hahead => .inHand ha hfifo (hahead hstar) hb) hpost hs
    | zero =>
      rename_i a' fifo post
      cases a with
      | take =>
        obtain ⟨⟨s', eff'⟩, h1, h2⟩ := Outcome.bind_eq_done.1 hs
        unfold take at h1
        cases a' <;> cases h1
      | write exits more =>
        change write exits more _ _ = _ at hs
        exact inHand_write ha hfifo hstar hpost hs
      | emit outs => cases hs
      | dissolve => cases hs
      | merge => cases a' <;> cases hs
  | pass hfifo hhand h ih =>
    rename_i fifo hand rest w
    cases k with
    | succ k =>
      obtain ⟨⟨rest', eff'⟩, h1, h2⟩ := Outcome.bind_eq_done.1 hs
      cases h2
      obtain ⟨w', e', hsplit, hc, hwait⟩ := ih h1
      refine ⟨_, _, .pass hfifo hhand hsplit, hc, ?_⟩
      rcases hwait with ⟨h1, rfl, rfl⟩ | ⟨i, outer, h1, rfl, h2⟩
      · exact Or.inl ⟨h1, rfl, rfl⟩
      · exact Or.inr ⟨i, outer, h1, rfl, h2⟩
    | zero =>
      cases a with
      | take =>
        obtain ⟨⟨s', eff'⟩, h1, h2⟩ := Outcome.bind_eq_done.1 hs
        cases h2
        exact pass_take hfifo h h1
      | write exits more =>
        change write exits more _ _ = _ at hs
        exact pass_write hfifo hhand h hs
      | emit outs => cases hs
      | dissolve => cases hs
      | merge =>
        cases hand with
        | cons y hand => cases hs
        | nil =>
          cases rest with
          | nil => cases h
          | cons next rest =>
            cases hs
            exact ⟨_, _, SplitStep.quiet (h.enters hfifo) nofun⟩

end SplitStep

/-! ## No step fails -/

theorem take_isStar {isDet : Bool} {s s' : Stage} {eff : Effect} (h : take isDet s = .done (s', eff)) :
    s'.kind.isStar = s.kind.isStar := by
  obtain ⟨k, fifo, hand⟩ := s
  cases hand with
  | cons y hand =>
    unfold take at h
    cases h
  | nil =>
    cases fifo with
    | nil =>
      unfold take at h
      cases h
    | cons x fifo =>
      cases k with
      | star leader e =>
        cases x with
        | data d =>
          cases leader with
          | false =>
            cases h
            rfl
          | true =>
            unfold take at h
            dsimp only at h
            cases hd : detEnter isDet e d.outer with
            | none =>
              rw [hd] at h
              cases h
            | some e' =>
              rw [hd] at h
              cases h
              rfl
        | starLeader e' => cases leader <;> cases h <;> rfl
        | detref => cases leader <;> cases h <;> rfl
        | sync => cases leader <;> cases h <;> rfl
      | operand seen => cases x <;> cases h <;> rfl
      | identity => cases x <;> cases h <;> rfl

theorem endsInStar_opened (x : Item) (more : Nat) : EndsInStar (opened x more) := by
  refine Or.inr ?_
  induction more with
  | zero => exact Or.inl ⟨rfl, rfl⟩
  | succ more ih =>
    rw [replicate_succ]
    exact Or.inr ih

theorem EndsInStar.of_cons {s next : Stage} {rest : List Stage} (h : EndsInStar (s :: next :: rest)) :
    EndsInStar (next :: rest) := h.resolve_left fun h => (nomatch h.1)

theorem write_endsInStar {exits : Bool} {more : Nat} {s : Stage} {rest stages' : List Stage}
    {eff : Effect} (hend : EndsInStar (s :: rest))
    (h : write exits more s rest = .done (stages', eff)) : EndsInStar stages' := by
  obtain ⟨k, fifo, hand⟩ := s
  cases hand with
  | nil => cases h
  | cons x hand =>
    cases k with
    | star leader e =>
      cases write_star h with
      | collects => exact hend
      | opens => exact Or.inr (endsInStar_opened x more)
      | leaves | passes => exact Or.inr hend.of_cons
    | operand seen | identity =>
      obtain ⟨next, rest', rfl, rfl, rfl⟩ := write_next rfl h
      exact Or.inr hend.of_cons

theorem stepAt_endsInStar {isDet : Bool} {a : Local} {k : Nat} {stages stages' : List Stage}
    {eff : Effect} (hend : EndsInStar stages) (h : stepAt isDet a k stages = .done (stages', eff)) :
    EndsInStar stages' := by
  induction stages generalizing k stages' eff with
  | nil => exact hend.elim
  | cons s rest ih =>
    cases k with
    | succ k =>
      obtain ⟨⟨rest', eff'⟩, h1, h2⟩ := Outcome.bind_eq_done.1 h
      cases h2
      cases rest with
      | nil =>
        unfold stepAt at h1
        cases h1
      | cons next rest => exact Or.inr (ih hend.of_cons h1)
    | zero =>
      cases a with
      | take =>
        obtain ⟨⟨s', eff'⟩, h1, h2⟩ := Outcome.bind_eq_done.1 h
        cases h2
        exact hend.imp (fun hk => ⟨hk.1, (take_isStar h1).trans hk.2⟩) id
      | write exits more => exact write_endsInStar hend h
      | emit outs =>
        obtain ⟨kd, fifo, hand⟩ := s
        cases kd with
        | operand seen =>
          unfold stepAt localStep at h
          dsimp only at h
          split at h
          · cases h
            exact hend
          · cases h
        | star leader e => cases h
        | identity => cases h
      | dissolve =>
        obtain ⟨kd, fifo, hand⟩ := s
        cases kd with
        | operand seen =>
          cases h
          exact hend.imp (fun hk => (nomatch hk.2)) id
        | star leader e => cases h
        | identity => cases h
      | merge =>
        obtain ⟨kd, fifo, hand⟩ := s
        cases kd with
        | identity =>
          cases hand with
          | cons y hand => cases h
          | nil =>
            cases rest with
            | nil => cases h
            | cons next rest =>
              cases h
              exact hend.of_cons
        | star leader e => cases h
        | operand seen => cases h

theorem take_no_fault {s : Stage} (hs : ∀ seen, s.kind = .operand seen → s.Behind log) :
    take true s ≠ .fault := by
  obtain ⟨k, fifo, hand⟩ := s
  cases hand with
  | cons y hand =>
    unfold take
    nofun
  | nil =>
    cases fifo with
    | nil =>
      unfold take
      nofun
    | cons x fifo =>
      cases k with
      | star leader e => cases x <;> cases leader <;> nofun
      | identity => cases x <;> nofun
      | operand seen =>
        cases x with
        | starLeader e => exact ((hs seen rfl).fifo _ mem_cons_self).elim
        | data d => nofun
        | detref => nofun
        | sync => nofun

theorem write_no_fault {exits : Bool} {more : Nat} {s : Stage} {rest : List Stage}
    (hend : EndsInStar (s :: rest)) : write exits more s rest ≠ .fault := by
  obtain ⟨k, fifo, hand⟩ := s
  cases hand with
  | nil => nofun
  | cons x hand =>
    cases k with
    | star leader e =>
      cases x with
      | data d =>
        unfold write
        dsimp only
        cases exits with
        | true => nofun
        | false =>
          simp only [Bool.false_eq_true, if_false]
          cases rest with
          | nil => nofun
          | cons next rest =>
            dsimp only
            split <;> nofun
      | starLeader e' => nofun
      | detref => nofun
      | sync => nofun
    | operand seen =>
      cases rest with
      | nil => exact absurd hend (by simp [EndsInStar, Kind.isStar])
      | cons next rest => cases x <;> nofun
    | identity =>
      cases rest with
      | nil => exact absurd hend (by simp [EndsInStar, Kind.isStar])
      | cons next rest => cases x <;> nofun

theorem Split.operand_behind {stages : List Stage} {w : List Nat} {e : DetEnter}
    (h : Split log stages w e) : ∀ s ∈ stages, ∀ seen, s.kind = .operand seen → s.Behind log := by
  induction h with
  | leader hfifo hhand hpost =>
    intro s hs seen hk
    rcases mem_cons.1 hs with rfl | hs
    · cases hk
    · exact hpost s hs
  | inFifo hkind ha hb hhand hstar hpost =>
    intro s hs seen hk
    rcases mem_cons.1 hs with rfl | hs
    · rcases hkind with rfl | ⟨e', rfl⟩ <;> cases hk
    · exact hpost s hs
  | inHand ha hfifo hstar hpost =>
    intro s hs seen hk
    rcases mem_cons.1 hs with rfl | hs
    · cases hk
    · exact hpost s hs
  | pass hfifo hhand h ih =>
    intro s hs seen hk
    rcases mem_cons.1 hs with rfl | hs
    · cases hk
    · exact ih s hs seen hk

theorem stepAt_no_fault {a : Local} {k : Nat} {stages : List Stage}
    (hop : ∀ s ∈ stages, ∀ seen, s.kind = .operand seen → s.Behind log) (hend : EndsInStar stages) :
    stepAt true a k stages ≠ .fault := by
  induction stages generalizing k with
  | nil =>
    unfold stepAt
    nofun
  | cons s rest ih =>
    cases k with
    | succ k =>
      intro h
      rcases Outcome.bind_eq_fault.1 h with h | ⟨r, -, h⟩
      · cases rest with
        | nil =>
          unfold stepAt at h
          cases h
        | cons next rest =>
          exact ih (fun t ht => hop t (mem_cons_of_mem _ ht)) hend.of_cons h
      · cases h
    | zero =>
      cases a with
      | take =>
        intro h
        rcases Outcome.bind_eq_fault.1 h with h | ⟨r, -, h⟩
        · exact take_no_fault (hop s mem_cons_self) h
        · cases h
      | write exits more => exact write_no_fault hend
      | emit outs =>
        obtain ⟨kd, fifo, hand⟩ := s
        cases kd with
        | operand seen =>
          unfold stepAt localStep
          dsimp only
          split <;> nofun
        | star leader e => nofun
        | identity => nofun
      | dissolve =>
        obtain ⟨kd, fifo, hand⟩ := s
        cases kd <;> nofun
      | merge =>
        obtain ⟨kd, fifo, hand⟩ := s
        cases kd with
        | identity => cases hand <;> cases rest <;> nofun
        | star leader e => nofun
        | operand seen => nofun

end SNet.Front.Star
