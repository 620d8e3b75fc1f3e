import SNetRts.Front.Detrefs
import SNetRts.Front.ZipperStores
import Mathlib.Algebra.Ring.Int.Defs

/-!
# What nodes do with the detrefs of a record

A node that gets a record writes it, or releases its detrefs before it destroys it or keeps it in a
synchrocell. There are exceptions: a zipper that the record does not match, a split whose tag range is
empty, a parallel dispatcher that has no ordinary branch, and an output; these drop the record with its
detrefs. An initialiser that gets to a deterministic box takes the detref it is given there with it.
-/

namespace SNet.Front.Detrefs

open List

open Lib SNet.Sync

variable {V : Type}

/-! ## What drops records -/

/-- The landing does not drop the record, or the record has no detrefs. -/
def Node.Keeps (rec : Record V) : Node V → Prop
  | .zipper patterns exits land => stack rec = [] ∨ ¬ Zipper.Dropped patterns exits land rec
  | .parallel variantLists _ initialized _ =>
    stack rec = [] ∨ initialized = true ∨ ∃ variants ∈ variantLists, variants ≠ []
  | .split ltag utag entry => ∀ ltagVal utagVal, rec.tags.get? ltag = some ltagVal →
      rec.tags.get? utag = some utagVal →
      ltagVal ≤ utagVal ∨ stack rec = [] ∧ entry.enters = false
  | .output => stack rec = []
  | _ => True

def Keeps (s : State V) : Act V → Prop
  | .take l i _ _ => ∀ rec, s.flight[i]? = some rec → (s.node l).Keeps rec
  | .trigger l => ∀ boxfun concurrency isDet collland,
      s.node l = .box boxfun concurrency isDet collland → concurrency < 2 ∨ isDet = false
  | _ => True

/-! ## What is to be done with a record -/

def Op.enters : Op V → Bool
  | .detEnter _ _ => true
  | .detrefAdd _ _ => true
  | _ => false

def NoEnter (ops : List (Op V)) : Prop := ∀ op ∈ ops, op.enters = false

/-- The record is written, or its detrefs are released for good, before it is destroyed. -/
def Settles : List (Op V) → Prop
  | [] => False
  | .forward :: ops => NoEnter ops
  | .collect :: ops => NoEnter ops
  | .fail :: _ => True
  | .destroy :: _ => False
  | .store :: _ => False
  | .detrefDestroy :: ops => NoEnter ops
  | _ :: ops => Settles ops

/-- The landing lets no record go that has detrefs, and what it gives a detref to is a record. -/
structure Context.Kept (c : Context V) : Prop where
  gone : c.record = none → NoEnter c.ops
  held : ∀ rec, c.record = some rec → (stack rec = [] ∧ NoEnter c.ops) ∨ Settles c.ops

def Op.neutral : Op V → Bool
  | .copy _ => true
  | .put => true
  | .detEnter _ _ => true
  | .detrefAdd _ _ => true
  | .dequeue => true
  | .check => true
  | .scan _ => true
  | .feedbackLeave => true
  | .drain => true
  | _ => false

theorem settles_cons {op : Op V} (h : op.neutral = true) {ops : List (Op V)} :
    Settles (op :: ops) ↔ Settles ops := by
  cases op with
  | copy | put | detEnter | detrefAdd | dequeue | check | scan | feedbackLeave | drain => exact Iff.rfl
  | forward | detrefDestroy | destroy | store | collect | fail => cases h

theorem noEnter_nil : NoEnter ([] : List (Op V)) := nofun

theorem noEnter_cons {op : Op V} {ops : List (Op V)} :
    NoEnter (op :: ops) ↔ op.enters = false ∧ NoEnter ops := forall_mem_cons

theorem noEnter_append {ops ops' : List (Op V)} :
    NoEnter (ops ++ ops') ↔ NoEnter ops ∧ NoEnter ops' := List.forall_mem_append

theorem settles_append {ops ops' : List (Op V)} (h : ∀ op ∈ ops, op.neutral = true) :
    Settles (ops ++ ops') ↔ Settles ops' := by
  induction ops with
  | nil => exact Iff.rfl
  | cons op ops ih =>
    rw [cons_append, settles_cons (h op mem_cons_self)]
    exact ih fun op hop => h op (mem_cons_of_mem _ hop)

theorem neutral_writeAll (outs : List (Record V)) : ∀ op ∈ writeAll outs, op.neutral = true := by
  intro op hop
  obtain ⟨out, -, hop⟩ := mem_flatMap.1 hop
  rcases mem_pair.1 hop with rfl | rfl
  · rfl
  · rfl

theorem neutral_entry (e : Entry) : ∀ op ∈ (e.ops : List (Op V)), op.neutral = true := by
  unfold Entry.ops
  split
  · intro op hop
    rw [mem_singleton.1 hop]
    rfl
  · nofun

theorem neutral_boxEnter (concurrency : Nat) (isDet : Bool) (collland : LandingId) :
    ∀ op ∈ (boxEnter concurrency isDet collland : List (Op V)), op.neutral = true := by
  unfold boxEnter
  split
  · intro op hop
    rw [mem_singleton.1 hop]
    rfl
  · nofun

theorem settles_applyFilter (clauses : List (Guard V × List (Record V → Record V))) (rec : Record V) :
    Settles (applyFilter clauses rec) := by
  have hdone : ∀ op : Op V, op.enters = false → Settles [.detrefDestroy, .destroy, op] :=
    fun op hop => noEnter_cons.2 ⟨rfl, noEnter_cons.2 ⟨hop, noEnter_nil⟩⟩
  unfold applyFilter
  split
  · exact hdone .fail rfl
  · split
    · exact noEnter_cons.2 ⟨rfl, noEnter_nil⟩
    · rename_i out outs _
      refine (settles_append fun op hop => ?_).2 (hdone .put rfl)
      rcases mem_cons.1 hop with rfl | hop
      · rfl
      · obtain ⟨out', -, hop⟩ := mem_flatMap.1 hop
        rcases mem_pair.1 hop with rfl | rfl
        · rfl
        · rfl

/-! ## What a node makes of a record -/

def Node.Bare (n : Node V) : Prop := ∀ rec, n.Stores rec → rec.detref = none

/-- What is asked of what a node does with a record: it leaves the detrefs to the calls, which settle
them, and it stores no record that has detrefs. -/
structure Sound (rec : Record V) (r : Node V × Record V × List (Op V)) : Prop where
  detref : stack r.2.1 = stack rec
  settles : (stack rec = [] ∧ NoEnter r.2.2) ∨ Settles r.2.2
  stores : r.1.Bare

theorem stack_eq_nil {rec : Record V} (h : rec.detref = none) : stack rec = [] := by
  unfold stack
  rw [h]
  rfl

theorem stack_eq_of_detref {rec rec' : Record V} (h : rec.detref = rec'.detref) :
    stack rec = stack rec' := by
  unfold stack
  rw [h]

theorem sound_of_settles {n : Node V} {rec : Record V} {ops : List (Op V)}
    (hn : ∀ rec, ¬ n.Stores rec) (h : Settles ops) : Sound rec (n, rec, ops) :=
  ⟨rfl, Or.inr h, fun rec hrec => absurd hrec (hn rec)⟩

theorem matchPatterns_unmatched (rec : Record V) (ps : List (Pattern V)) (ss : List (Slot V))
    (found : Nat) : found ≤ (matchPatterns rec ps ss found).2 ∧
      ((matchPatterns rec ps ss found).2 = found → (matchPatterns rec ps ss found).1 = ss) := by
  induction ps generalizing ss found with
  | nil => exact ⟨Nat.le_refl _, fun _ => rfl⟩
  | cons p ps ih =>
    cases ss with
    | nil => exact ⟨Nat.le_refl _, fun _ => rfl⟩
    | cons s ss =>
      unfold matchPatterns
      split
      · have hle := (ih ss (found + 1)).1
        exact ⟨by simp only; omega, fun h => by simp only at h; omega⟩
      · have ih := ih ss found
        exact ⟨ih.1, fun h => by simp only [ih.2 h]⟩

theorem nodeSync_leaves {patterns : List (Pattern V)} {land land' : SyncLanding V} {rec : Record V}
    {out : List (Effect V)} (hbare : Zipper.Bare land.storage)
    (h : nodeSync patterns false land rec = some (land', out)) :
    Zipper.Bare land'.storage ∧
      (out = [.detrefDestroy rec.detref] ∨ ∃ rec', rec'.detref = rec.detref ∧ out = [.write rec']) := by
  have hdummy : Zipper.Bare (patterns.map fun _ => (Slot.dummy : Slot V)) := by
    intro r hr
    obtain ⟨p, -, hp⟩ := List.mem_map.1 hr
    cases hp
  unfold nodeSync at h
  split at h
  · cases h
    exact ⟨hbare, Or.inr ⟨rec, rfl, rfl⟩⟩
  · split at h
    · cases h
    · rename_i land1 out1 hdata
      rw [Bool.and_false, if_neg (by simp)] at h
      cases h
      unfold nodeSyncData at hdata
      dsimp only at hdata
      split at hdata
      · rename_i hzero
        rw [(matchPatterns_unmatched _ _ _ _).2 hzero] at hdata
        cases hdata
        exact ⟨hbare, Or.inr ⟨rec, rfl, rfl⟩⟩
      · split at hdata
        · split at hdata
          · cases hdata
          · rename_i recOut hmerge
            cases hdata
            exact ⟨hdummy, Or.inr ⟨{ recOut with detref := rec.detref }, rfl, rfl⟩⟩
        · cases hdata
          exact ⟨Zipper.bare_dropDetref _, Or.inl rfl⟩

theorem sound_dispatch {variantLists : List (List Variant)} {entry : Entry} {land : Parallel.Landing}
    {rec : Record V} : Sound rec (dispatch variantLists entry land rec) := by
  refine sound_of_settles (fun _ h => h) ((settles_append (neutral_entry entry)).2 ?_)
  split
  · exact noEnter_nil
  · trivial

theorem sound_zipper {patterns exits : List (Pattern V)} {land land' : Zipper.Landing V} {fuel : Nat}
    {rec : Record V} {out : List (Effect V)} (hbare : (Node.zipper patterns exits land).Bare)
    (hkeeps : (Node.zipper patterns exits land).Keeps rec)
    (hz : Zipper.nodeZipper patterns exits fuel land rec = .done (land', out)) :
    (Node.zipper patterns exits land').Bare ∧
      ((out = [] ∧ stack rec = []) ∨ out = [.detrefDestroy rec.detref] ∨
        ∃ rec', rec'.detref = rec.detref ∧ out = [.write rec']) := by
  obtain ⟨⟨hland, hout⟩, hdropped⟩ :=
    Zipper.nodeZipper_leaves (fun a m hm rec hrec => hbare rec ⟨a, m, hm, hrec⟩) hz
  refine ⟨fun rec ⟨a, m, hm, hrec⟩ => hland a m hm rec hrec, ?_⟩
  rcases hout with hnil | hrest
  · exact Or.inl ⟨hnil, hkeeps.resolve_right fun hno => hno (hdropped hnil)⟩
  · exact Or.inr hrest

theorem process_sound {n : Node V} {l : LandingId} {viaAccess : Bool} {fuel : Nat} {rec : Record V}
    {r : Node V × Record V × List (Op V)} (hbare : n.Bare) (hkeeps : n.Keeps rec)
    (h : n.process l viaAccess fuel rec = .done r) : Sound rec r := by
  have hdestroy : ∀ op : Op V, op.enters = false → NoEnter [op] := fun op hop =>
    noEnter_cons.2 ⟨hop, noEnter_nil⟩
  cases n with
  | box boxfun concurrency isDet collland =>
    cases h
    refine sound_of_settles (fun _ h => h) ((settles_append (neutral_boxEnter _ _ _)).2 ?_)
    exact (settles_append (neutral_writeAll _)).2 (hdestroy .destroy rfl)
  | filter clauses =>
    cases h
    exact sound_of_settles (fun _ h => h) (settles_applyFilter clauses rec)
  | nameshift rename =>
    cases h
    exact ⟨rfl, Or.inr noEnter_nil, fun _ h => absurd h (fun h => h)⟩
  | identity =>
    cases h
    exact sound_of_settles (fun _ h => h) noEnter_nil
  | sync patterns land =>
    simp only [Node.process] at h
    split at h
    · rename_i land' rec' hs
      cases h
      obtain ⟨h1, h2⟩ := nodeSync_leaves hbare hs
      rcases h2 with h2 | ⟨rec'', hrec, h2⟩
      · cases h2
      · cases h2
        exact ⟨stack_eq_of_detref hrec, Or.inr noEnter_nil, h1⟩
    · rename_i land' _ hs
      cases h
      exact ⟨rfl, Or.inr (hdestroy .store rfl), (nodeSync_leaves hbare hs).1⟩
    · cases h
  | zipper patterns exits land =>
    simp only [Node.process] at h
    split at h
    · rename_i land' rec' hz
      cases h
      obtain ⟨h1, h2⟩ := sound_zipper hbare hkeeps hz
      rcases h2 with ⟨h2, -⟩ | h2 | ⟨rec'', hrec, h2⟩
      · cases h2
      · cases h2
      · cases h2
        exact ⟨stack_eq_of_detref hrec, Or.inr noEnter_nil, h1⟩
    · rename_i land' _ hz
      cases h
      exact ⟨rfl, Or.inr (hdestroy .store rfl), (sound_zipper hbare hkeeps hz).1⟩
    · rename_i land' hz
      cases h
      obtain ⟨h1, h2⟩ := sound_zipper hbare hkeeps hz
      rcases h2 with ⟨-, h2⟩ | h2 | ⟨rec'', -, h2⟩
      · exact ⟨rfl, Or.inl ⟨h2, hdestroy .destroy rfl⟩, h1⟩
      · cases h2
      · cases h2
    · cases h
    · cases h
  | parallel variantLists entry initialized land =>
    simp only [Node.process] at h
    split at h
    · cases h
      exact sound_dispatch
    · rename_i hinit
      split at h
      · rename_i hnone
        cases h
        refine ⟨rfl, Or.inl ⟨?_, hdestroy .destroy rfl⟩, fun _ h => absurd h (fun h => h)⟩
        rcases hkeeps with hk | hk | ⟨variants, hmem, hne⟩
        · exact hk
        · exact absurd hk hinit
        · have := countP_eq_zero.1 hnone variants hmem
          simp [hne] at this
      · cases h
        exact sound_of_settles (fun _ h => h) noEnter_nil
      · cases h
        exact sound_dispatch
  | split ltag utag entry =>
    simp only [Node.process] at h
    split at h
    · rename_i ltagVal utagVal hl hu
      cases h
      refine ⟨rfl, ?_, fun _ h => absurd h (fun h => h)⟩
      rcases hkeeps ltagVal utagVal hl hu with hle | ⟨hnil, henters⟩
      · right
        refine (settles_append (neutral_entry entry)).2 ?_
        unfold splitLoop
        rw [if_pos hle]
        exact (settles_append (neutral_writeAll _)).2 noEnter_nil
      · by_cases hle : ltagVal ≤ utagVal
        · right
          refine (settles_append (neutral_entry entry)).2 ?_
          unfold splitLoop
          rw [if_pos hle]
          exact (settles_append (neutral_writeAll _)).2 noEnter_nil
        · left
          refine ⟨hnil, ?_⟩
          unfold Entry.ops splitLoop
          rw [henters, if_neg hle]
          nofun
    · cases h
  | star entry leader =>
    cases h
    refine sound_of_settles (fun _ h => h) ((settles_append fun op hop => ?_).2 noEnter_nil)
    split at hop
    · exact neutral_entry entry op hop
    · cases hop
  | collector isDet isDetsup =>
    cases h
    refine sound_of_settles (fun _ h => h) ?_
    split
    · exact noEnter_nil
    · exact noEnter_nil
  | feedback1 backPatterns fb3 =>
    cases h
    refine sound_of_settles (fun _ h => h) ?_
    split
    · exact noEnter_nil
    · exact noEnter_nil
  | feedback3 backPatterns =>
    cases h
    refine sound_of_settles (fun _ h => h) ?_
    split
    · exact noEnter_nil
    · exact noEnter_nil
  | dripback2 backPatterns =>
    cases h
    refine sound_of_settles (fun _ h => h) ?_
    split
    · split
      · exact noEnter_nil
      · split
        · exact noEnter_nil
        · trivial
    · split
      · exact noEnter_nil
      · split
        · exact noEnter_nil
        · trivial
  | output =>
    cases h
    exact ⟨rfl, Or.inl ⟨hkeeps, hdestroy .destroy rfl⟩, fun _ h => absurd h (fun h => h)⟩

/-! ## Records made and written -/

def Op.balance : Op V → Int
  | .copy _ => 1
  | .put => -1
  | _ => 0

def balance (ops : List (Op V)) : Int := (ops.map Op.balance).sum

def Context.Balanced (c : Context V) : Prop := c.made.length + balance c.ops = 0

@[simp] theorem balance_nil : balance ([] : List (Op V)) = 0 := rfl

@[simp] theorem balance_cons (op : Op V) (ops : List (Op V)) :
    balance (op :: ops) = op.balance + balance ops := by
  simp [balance]

@[simp] theorem balance_append (ops ops' : List (Op V)) :
    balance (ops ++ ops') = balance ops + balance ops' := by
  simp [balance]

theorem balance_flatMap {α : Type} (l : List α) {f : α → List (Op V)} (h : ∀ a, balance (f a) = 0) :
    balance (l.flatMap f) = 0 := by
  induction l with
  | nil => rfl
  | cons a l ih => rw [flatMap_cons, balance_append, h a, ih, Int.add_zero]

@[simp] theorem balance_writeAll (outs : List (Record V)) : balance (writeAll outs) = 0 :=
  balance_flatMap outs fun _ => rfl

@[simp] theorem balance_entry (e : Entry) : balance (e.ops : List (Op V)) = 0 := by
  unfold Entry.ops
  split <;> rfl

@[simp] theorem balance_boxEnter (concurrency : Nat) (isDet : Bool) (collland : LandingId) :
    balance (boxEnter concurrency isDet collland : List (Op V)) = 0 := by
  unfold boxEnter
  split <;> rfl

theorem balance_applyFilter (clauses : List (Guard V × List (Record V → Record V))) (rec : Record V) :
    balance (applyFilter clauses rec) = 0 := by
  unfold applyFilter
  split
  · rfl
  · split
    · rfl
    · rename_i out outs _
      rw [balance_append, balance_cons, balance_flatMap outs fun _ => rfl]
      rfl

theorem balance_splitLoop (rec : Record V) (ltagVal utagVal : Int) :
    balance (splitLoop rec ltagVal utagVal) = 0 := by
  unfold splitLoop
  split
  · rw [balance_append, balance_writeAll]
    rfl
  · rfl

theorem balance_dispatch (variantLists : List (List Variant)) (entry : Entry) (land : Parallel.Landing)
    (rec : Record V) : balance (dispatch variantLists entry land rec).2.2 = 0 := by
  unfold dispatch
  rw [balance_append, balance_entry]
  split <;> rfl

theorem process_balance {n : Node V} {l : LandingId} {viaAccess : Bool} {fuel : Nat} {rec : Record V}
    {r : Node V × Record V × List (Op V)} (h : n.process l viaAccess fuel rec = .done r) :
    balance r.2.2 = 0 := by
  cases n with
  | box boxfun concurrency isDet collland =>
    cases h
    simp only [boxData, balance_append, balance_boxEnter, balance_writeAll]
    rfl
  | filter clauses =>
    cases h
    exact balance_applyFilter clauses rec
  | sync patterns land =>
    simp only [Node.process] at h
    split at h <;> cases h <;> rfl
  | zipper patterns exits land =>
    simp only [Node.process] at h
    split at h <;> cases h <;> rfl
  | parallel variantLists entry initialized land =>
    simp only [Node.process] at h
    split at h
    · cases h
      exact balance_dispatch _ _ _ _
    · split at h
      · cases h
        rfl
      · cases h
        rfl
      · cases h
        exact balance_dispatch _ _ _ _
  | split ltag utag entry =>
    simp only [Node.process] at h
    split at h
    · cases h
      rw [balance_append, balance_entry, balance_splitLoop]
      rfl
    · cases h
  | star entry leader =>
    cases h
    cases leader
    · rfl
    · simp only [if_true, balance_append, balance_entry]
      rfl
  | collector isDet isDetsup =>
    cases h
    split <;> rfl
  | feedback1 backPatterns fb3 =>
    cases h
    split <;> rfl
  | feedback3 backPatterns =>
    cases h
    split <;> rfl
  | dripback2 backPatterns =>
    cases h
    repeat' split
    all_goals rfl
  | nameshift rename =>
    cases h
    rfl
  | identity =>
    cases h
    rfl
  | output =>
    cases h
    rfl

end SNet.Front.Detrefs
