import Mathlib.Data.List.Perm.Basic
import SNetRts.Common.Expr

/-!
# Name shifts

`NameshiftTask` of `stream/entity/filter.c` and `SNetNodeNameShift` of `front/xnameshift.c`: the labels that
are not untouched are renamed one after the other, in the arrays of the maps. `Rename` changes the first
entry with the old name. This is the one that the loop is at, unless an entry before it has been renamed
to its name; then that one is renamed again, so that the two entries change their names.

While the arrays are renamed their names need not be distinct, so that they are lists of entries here.
-/

namespace SNet

open Lib List

variable {α V : Type}

/-! ## The loops -/

/-- `Rename` on the arrays; `none` where it fails its assertion. -/
def renameEntries (oldKey newKey : Int) : List (Int × α) → Option (List (Int × α))
  | [] => none
  | e :: es =>
    if e.1 = oldKey then some ((newKey, e.2) :: es) else (renameEntries oldKey newKey es).map (e :: ·)

/-- The loop over a map from the position `i` on, with `n` entries left. -/
def shiftFrom (untouched : Int → Bool) (offset : Int) : Nat → Nat → List (Int × α) →
    Outcome (List (Int × α))
  | 0, _, es => .done es
  | n + 1, i, es =>
    match es[i]? with
    | none => .fault
    | some (name, _) =>
      if untouched name then shiftFrom untouched offset n (i + 1) es
      else
        (CInt.add name offset).bind fun newName =>
          (Outcome.ofOption (renameEntries name newName es)).bind (shiftFrom untouched offset n (i + 1))

def shiftMap (untouched : Int → Bool) (offset : Int) (m : LabelMap α) : Outcome (List (Int × α)) :=
  shiftFrom untouched offset m.entries.length 0 m.entries

/-- A record with the arrays of its maps. -/
structure ShiftedRecord (V : Type) where
  fields : List (Int × V)
  tags : List (Int × Int)
  btags : List (Int × Int)
  interfaceId : Int
  mode : DataMode
  detref : Option (List DetrefId)
deriving DecidableEq

def nameshift (offset : Int) (untouched : Variant) (rec : Record V) : Outcome (ShiftedRecord V) :=
  (shiftMap untouched.hasField offset rec.fields).bind fun fields =>
    (shiftMap untouched.hasTag offset rec.tags).bind fun tags =>
      (shiftMap untouched.hasBTag offset rec.btags).bind fun btags =>
        .done { fields, tags, btags, interfaceId := rec.interfaceId, mode := rec.mode, detref := rec.detref }

/-- `NameshiftTask` for a data record. -/
def nameshiftTask (offset : Int) (untouched : Variant) (rec : Record V) : Outcome (ShiftedRecord V) :=
  nameshift offset untouched rec

/-- `SNetNodeNameShift` for a data record. -/
def nodeNameShift (offset : Int) (untouched : Variant) (rec : Record V) : Outcome (ShiftedRecord V) :=
  nameshift offset untouched rec

/-! ## Renaming at once -/

section Maps

variable (untouched : Int → Bool) (offset : Int)

def shiftName (name : Int) : Int := if untouched name then name else name + offset

/-- The entries are those of the map under their new names. -/
structure Shifted (m : LabelMap α) (es : List (Int × α)) : Prop where
  nodup : (es.map Prod.fst).Nodup
  lookup : ∀ k v, es.lookup k = some v ↔ ∃ name, m.get? name = some v ∧ k = shiftName untouched offset name

def Apart (m : LabelMap α) : Prop :=
  ∀ e ∈ m.entries, ∀ e' ∈ m.entries, untouched e.1 = false → untouched e'.1 = true →
    e.1 + offset ≠ e'.1

/-- The new name is a number of type `int`. -/
def Fits (e : Int × α) : Prop :=
  untouched e.1 = false → -2 ^ 31 ≤ e.1 + offset ∧ e.1 + offset < 2 ^ 31

instance (e : Int × α) : Decidable (Fits untouched offset e) := inferInstanceAs (Decidable (_ → _))

/-- No name that is shifted becomes that of a later entry which is shifted too, unless the values are the
same, and all new names are numbers of type `int`. -/
structure InOrder (m : LabelMap α) : Prop where
  fits : ∀ e ∈ m.entries, Fits untouched offset e
  pairs : m.entries.Pairwise fun e e' =>
    untouched e.1 = false → untouched e'.1 = false → e.1 + offset = e'.1 → e.2 = e'.2

/-- What a round of the loop makes of the entries before it and of its own. -/
def advance (pre : List (Int × α)) (e : Int × α) : List (Int × α) :=
  if untouched e.1 then pre ++ [e]
  else
    match renameEntries e.1 (e.1 + offset) pre with
    | some pre => pre ++ [e]
    | none => pre ++ [(e.1 + offset, e.2)]

variable {untouched : Int → Bool} {offset : Int}

theorem renameEntries_append (old new : Int) (as bs : List (Int × α)) :
    renameEntries old new (as ++ bs) =
      ((renameEntries old new as).map (· ++ bs)).or ((renameEntries old new bs).map (as ++ ·)) := by
  induction as with
  | nil => simp [renameEntries]
  | cons a as ih =>
    rw [cons_append, renameEntries, renameEntries]
    split
    · rfl
    · rw [ih]
      cases renameEntries old new as <;> cases renameEntries old new bs <;> rfl

theorem length_renameEntries {old new : Int} {es es' : List (Int × α)}
    (h : renameEntries old new es = some es') : es'.length = es.length := by
  induction es generalizing es' with
  | nil => cases h
  | cons e es ih =>
    rw [renameEntries] at h
    split at h
    · cases h
      rfl
    · obtain ⟨es', hes, rfl⟩ := Option.map_eq_some_iff.1 h
      rw [length_cons, length_cons, ih hes]

theorem length_advance (pre : List (Int × α)) (e : Int × α) :
    (advance untouched offset pre e).length = pre.length + 1 := by
  unfold advance
  split
  · exact length_append
  · split
    case h_1 hrename => rw [length_append, length_renameEntries hrename, length_singleton]
    case h_2 => exact length_append

theorem rename_advance (pre post : List (Int × α)) {e : Int × α} (he : untouched e.1 = false) :
    renameEntries e.1 (e.1 + offset) (pre ++ e :: post) =
      some (advance untouched offset pre e ++ post) := by
  rw [renameEntries_append, advance, he]
  cases renameEntries e.1 (e.1 + offset) pre with
  | none => simp [renameEntries]
  | some pre => simp

theorem shiftFrom_eq (post pre : List (Int × α)) :
    shiftFrom untouched offset post.length pre.length (pre ++ post) =
      if ∀ e ∈ post, Fits untouched offset e then
        .done (post.foldl (advance untouched offset) pre)
      else .fault := by
  induction post generalizing pre with
  | nil => rw [append_nil, length_nil, shiftFrom, if_pos (by simp), foldl_nil]
  | cons e post ih =>
    have hget : (pre ++ e :: post)[pre.length]? = some e := by simp
    have hnext := ih (advance untouched offset pre e)
    rw [length_advance] at hnext
    rw [length_cons, shiftFrom, hget, foldl_cons]
    show (if untouched e.1 = true then _ else _) = _
    cases he : untouched e.1 with
    | true =>
      have hfits : Fits untouched offset e := fun h => by rw [he] at h; cases h
      have hadvance : pre ++ e :: post = advance untouched offset pre e ++ post := by
        rw [advance, if_pos he, append_assoc, singleton_append]
      rw [if_pos rfl, hadvance, hnext]
      exact if_congr (by rw [forall_mem_cons, and_iff_right hfits]) rfl rfl
    | false =>
      rw [if_neg Bool.false_ne_true, CInt.add, CInt.int]
      by_cases hfits : -2 ^ 31 ≤ e.1 + offset ∧ e.1 + offset < 2 ^ 31
      · have hfits' : Fits untouched offset e := fun _ => hfits
        rw [if_pos hfits, Outcome.done_bind, rename_advance pre post he, Outcome.ofOption,
          Outcome.done_bind, hnext]
        exact if_congr (by rw [forall_mem_cons, and_iff_right hfits']) rfl rfl
      · rw [if_neg hfits, if_neg fun h => hfits (h e mem_cons_self he)]
        rfl

theorem shiftMap_eq (m : LabelMap α) :
    shiftMap untouched offset m =
      if ∀ e ∈ m.entries, Fits untouched offset e then
        .done (m.entries.foldl (advance untouched offset) [])
      else .fault := shiftFrom_eq m.entries []

/-! ## What a round does -/

theorem renameEntries_perm {old new : Int} {es es' : List (Int × α)}
    (h : renameEntries old new es = some es') :
    ∃ w, (old, w) ∈ es ∧ (es' ++ [(old, w)]).Perm (es ++ [(new, w)]) := by
  induction es generalizing es' with
  | nil => cases h
  | cons e es ih =>
    rw [renameEntries] at h
    split at h
    case isTrue heq =>
      cases h
      subst heq
      refine ⟨e.2, mem_cons_self, ?_⟩
      have h1 : ((new, e.2) :: es ++ [e]).Perm ((new, e.2) :: e :: es) :=
        (perm_append_singleton e es).cons _
      have h2 : (e :: es ++ [(new, e.2)]).Perm (e :: (new, e.2) :: es) :=
        (perm_append_singleton (new, e.2) es).cons _
      exact h1.trans ((List.Perm.swap _ _ _).trans h2.symm)
    case isFalse =>
      obtain ⟨es', hes, rfl⟩ := Option.map_eq_some_iff.1 h
      obtain ⟨w, hmem, hperm⟩ := ih hes
      exact ⟨w, mem_cons_of_mem _ hmem, hperm.cons e⟩

theorem renameEntries_isSome {old : Int} (new : Int) {es : List (Int × α)} (h : old ∈ es.map Prod.fst) :
    ∃ es', renameEntries old new es = some es' := by
  induction es with
  | nil => cases h
  | cons e es ih =>
    rw [renameEntries]
    split
    · exact ⟨_, rfl⟩
    case isFalse hne =>
      rw [map_cons, mem_cons] at h
      obtain ⟨es', hes⟩ := ih (h.resolve_left fun heq => hne heq.symm)
      exact ⟨e :: es', by rw [hes]; rfl⟩

theorem mem_advance {pre : List (Int × α)} {e e' : Int × α} (hmem : e' ∈ pre) (hne : e'.1 ≠ e.1) :
    e' ∈ advance untouched offset pre e := by
  unfold advance
  split
  · exact mem_append_left _ hmem
  · split
    case h_1 pre' hrename =>
      obtain ⟨w, -, hperm⟩ := renameEntries_perm hrename
      have hmem' := hperm.mem_iff.2 (mem_append_left _ hmem)
      rcases mem_append.1 hmem' with h | h
      · exact mem_append_left _ h
      · rw [mem_singleton] at h
        exact absurd (congrArg Prod.fst h) hne
    case h_2 => exact mem_append_left _ hmem

theorem mem_foldl_advance {post pre : List (Int × α)} {e : Int × α} (hmem : e ∈ pre)
    (hne : ∀ e' ∈ post, e.1 ≠ e'.1) : e ∈ post.foldl (advance untouched offset) pre := by
  induction post generalizing pre with
  | nil => exact hmem
  | cons e' post ih =>
    exact ih (mem_advance hmem (hne e' mem_cons_self))
      fun e'' h => hne e'' (mem_cons_of_mem _ h)

theorem advance_names {ps pre : List (Int × α)} {e : Int × α}
    (h : (pre.map Prod.fst).Perm (ps.map fun e => shiftName untouched offset e.1)) :
    ((advance untouched offset pre e).map Prod.fst).Perm
      ((ps ++ [e]).map fun e => shiftName untouched offset e.1) := by
  rw [map_append, map_singleton, advance, shiftName]
  split
  · rw [map_append]
    exact h.append_right _
  · split
    case h_1 pre' hrename =>
      obtain ⟨w, -, hperm⟩ := renameEntries_perm hrename
      have hnames := hperm.map Prod.fst
      rw [map_append, map_append] at hnames
      rw [map_append]
      exact hnames.trans (h.append_right _)
    case h_2 =>
      rw [map_append]
      exact h.append_right _

theorem foldl_advance_names (post ps pre : List (Int × α))
    (h : (pre.map Prod.fst).Perm (ps.map fun e => shiftName untouched offset e.1)) :
    ((post.foldl (advance untouched offset) pre).map Prod.fst).Perm
      ((ps ++ post).map fun e => shiftName untouched offset e.1) := by
  induction post generalizing ps pre with
  | nil => rwa [append_nil]
  | cons e post ih =>
    rw [append_cons]
    exact ih _ _ (advance_names h)

def shiftEntry (untouched : Int → Bool) (offset : Int) (e : Int × α) : Int × α :=
  (shiftName untouched offset e.1, e.2)

theorem foldl_advance_perm {post pre : List (Int × α)} (ps : List (Int × α)) (hnodup : ((ps ++ post).map Prod.fst).Nodup)
    (hpairs : (ps ++ post).Pairwise fun e e' =>
      untouched e.1 = false → untouched e'.1 = false → e.1 + offset = e'.1 → e.2 = e'.2)
    (h : pre.Perm (ps.map (shiftEntry untouched offset))) :
    (post.foldl (advance untouched offset) pre).Perm ((ps ++ post).map (shiftEntry untouched offset)) := by
  induction post generalizing ps pre with
  | nil => rwa [append_nil]
  | cons e post ih =>
    have hnames : ∀ e0 ∈ ps, e0.1 ≠ e.1 := fun e0 he0 => by
      rw [map_append, map_cons] at hnodup
      exact (nodup_append.1 hnodup).2.2 _ (mem_map_of_mem he0) _ mem_cons_self
    have hstep : (advance untouched offset pre e).Perm ((ps ++ [e]).map (shiftEntry untouched offset)) := by
      rw [map_append, map_singleton, advance, shiftEntry, shiftName]
      split
      case isTrue => exact h.append_right _
      case isFalse he =>
        rw [Bool.not_eq_true] at he
        split
        case h_2 => exact h.append_right _
        case h_1 pre' hrename =>
          -- the entry that is renamed has got this name before, and has the same value
          obtain ⟨w, hmem, hperm⟩ := renameEntries_perm hrename
          obtain ⟨e0, he0, heq⟩ := List.mem_map.1 (h.mem_iff.1 hmem)
          obtain ⟨hname, rfl⟩ := Prod.mk.inj heq
          rw [shiftName] at hname
          split at hname
          case isTrue => exact absurd hname (hnames e0 he0)
          case isFalse hu =>
            rw [Bool.not_eq_true] at hu
            have hvalue : e0.2 = e.2 :=
              (pairwise_append.1 hpairs).2.2 e0 he0 e mem_cons_self hu he hname
            rw [hvalue] at hperm
            exact hperm.trans (h.append_right _)
    rw [append_cons] at hnodup hpairs ⊢
    exact ih _ hnodup hpairs hstep

theorem lookup_eq_some_iff {es : List (Int × α)} (h : (es.map Prod.fst).Nodup) {k : Int} {v : α} :
    es.lookup k = some v ↔ (k, v) ∈ es := by
  induction es with
  | nil => exact ⟨nofun, nofun⟩
  | cons e es ih =>
    obtain ⟨a, b⟩ := e
    rw [map_cons, nodup_cons] at h
    rw [lookup_cons, mem_cons, Prod.mk.injEq]
    cases hk : k == a with
    | true =>
      obtain rfl := beq_iff_eq.1 hk
      rw [Option.some.injEq]
      constructor
      · exact fun heq => Or.inl ⟨rfl, heq.symm⟩
      · rintro (⟨-, rfl⟩ | hmem)
        · rfl
        · exact absurd (mem_map_of_mem hmem) h.1
    | false =>
      have hne : k ≠ a := by simpa using hk
      rw [ih h.2]
      exact ⟨Or.inr, fun h => h.resolve_left fun heq => hne heq.1⟩

theorem shiftName_nodup {m : LabelMap α} (h : Apart untouched offset m) :
    (m.entries.map fun e => shiftName untouched offset e.1).Nodup := by
  have hmap : ((m.entries.map Prod.fst).map (shiftName untouched offset)).Nodup := by
    refine m.nodup.map_on fun a ha b hb heq => ?_
    obtain ⟨e, he, rfl⟩ := List.mem_map.1 ha
    obtain ⟨e', he', rfl⟩ := List.mem_map.1 hb
    rw [shiftName, shiftName] at heq
    cases hu : untouched e.1 <;> cases hu' : untouched e'.1 <;> rw [hu, hu'] at heq
    · exact (Int.add_left_inj offset).1 heq
    · exact absurd heq (h e he e' he' hu hu')
    · exact absurd heq.symm (h e' he' e he hu' hu)
    · exact heq
  rwa [map_map] at hmap

/-- Renaming one after the other is renaming at once if and only if no name that is shifted becomes that
of a later shifted entry with another value, and all new names fit. -/
theorem shiftMap_shifted_iff {m : LabelMap α} (h : Apart untouched offset m) :
    (∃ es, shiftMap untouched offset m = .done es ∧ Shifted untouched offset m es) ↔
      InOrder untouched offset m := by
  rw [shiftMap_eq]
  constructor
  · rintro ⟨es, heq, hshifted⟩
    split at heq
    case isFalse => cases heq
    case isTrue hfits =>
      cases heq
      refine ⟨hfits, pairwise_iff_getElem.2 fun i j hi hj hij hui huj hname => ?_⟩
      obtain ⟨ps, e, post, hsplit, hmem, hej⟩ : ∃ ps e post, m.entries = ps ++ e :: post ∧
          m.entries[i] ∈ ps ∧ m.entries[j] = e := by
        refine ⟨m.entries.take j, m.entries[j], m.entries.drop (j + 1), ?_, ?_, rfl⟩
        · rw [← drop_eq_getElem_cons hj, take_append_drop]
        · exact mem_take_iff_getElem.2 ⟨i, by omega, rfl⟩
      rw [hej] at huj hname ⊢
      -- the later entry keeps its name when the earlier one is renamed again
      have hpre : ((ps.foldl (advance untouched offset) []).map Prod.fst).Perm
          (ps.map fun e => shiftName untouched offset e.1) := by
        simpa using foldl_advance_names ps [] [] .nil
      have hfound : e.1 ∈ (ps.foldl (advance untouched offset) []).map Prod.fst := by
        refine hpre.mem_iff.2 (List.mem_map.2 ⟨_, hmem, ?_⟩)
        rw [shiftName, hui]
        exact hname
      obtain ⟨pre', hrename⟩ := renameEntries_isSome (e.1 + offset) hfound
      have hkeeps : e ∈ m.entries.foldl (advance untouched offset) [] := by
        rw [hsplit, List.foldl_append, foldl_cons]
        refine mem_foldl_advance ?_ fun e' he' heq => ?_
        · rw [advance, huj, if_neg Bool.false_ne_true, hrename]
          exact mem_append_right _ mem_cons_self
        · have hnodup := m.nodup
          rw [hsplit, map_append, map_cons] at hnodup
          exact (nodup_cons.1 (nodup_append.1 hnodup).2.1).1
            (heq ▸ mem_map_of_mem he')
      have hlater := (lookup_eq_some_iff hshifted.nodup).2 hkeeps
      have hearlier := (hshifted.lookup e.1 m.entries[i].2).2
        ⟨m.entries[i].1, (lookup_eq_some_iff m.nodup).2 (getElem_mem hi), by rw [shiftName, hui]; exact hname.symm⟩
      rw [hlater] at hearlier
      exact (Option.some.inj hearlier).symm
  · rintro ⟨hfits, hpairs⟩
    have hperm : (m.entries.foldl (advance untouched offset) []).Perm
        (m.entries.map (shiftEntry untouched offset)) :=
      foldl_advance_perm [] m.nodup hpairs .nil
    have hnodup : ((m.entries.foldl (advance untouched offset) []).map Prod.fst).Nodup := by
      have hnames := hperm.map Prod.fst
      rw [map_map] at hnames
      exact hnames.nodup_iff.2 (shiftName_nodup h)
    refine ⟨_, if_pos hfits, hnodup, fun k v => ?_⟩
    rw [lookup_eq_some_iff hnodup, hperm.mem_iff, List.mem_map]
    constructor
    · rintro ⟨e, he, heq⟩
      obtain ⟨rfl, rfl⟩ := Prod.mk.inj heq
      exact ⟨e.1, (lookup_eq_some_iff m.nodup).2 he, rfl⟩
    · rintro ⟨name, hget, rfl⟩
      exact ⟨(name, v), (lookup_eq_some_iff m.nodup).1 hget, rfl⟩

end Maps

/-! ## Records -/

/-- The record has the labels of another one under their new names, and the rest of it. -/
structure ShiftedRecord.Of (offset : Int) (untouched : Variant) (rec : Record V) (out : ShiftedRecord V) :
    Prop where
  fields : Shifted untouched.hasField offset rec.fields out.fields
  tags : Shifted untouched.hasTag offset rec.tags out.tags
  btags : Shifted untouched.hasBTag offset rec.btags out.btags
  interfaceId : out.interfaceId = rec.interfaceId
  mode : out.mode = rec.mode
  detref : out.detref = rec.detref

/-- A record whose shifted names are apart from the untouched ones is renamed at once, in either runtime,
if and only if the entries of its fields, its tags and its binding tags are in order. -/
theorem nameshift_iff (offset : Int) (untouched : Variant) (rec : Record V)
    (hfields : Apart untouched.hasField offset rec.fields)
    (htags : Apart untouched.hasTag offset rec.tags)
    (hbtags : Apart untouched.hasBTag offset rec.btags) :
    (∃ out, nameshiftTask offset untouched rec = .done out ∧ nodeNameShift offset untouched rec = .done out ∧
        out.Of offset untouched rec) ↔
      InOrder untouched.hasField offset rec.fields ∧ InOrder untouched.hasTag offset rec.tags ∧
        InOrder untouched.hasBTag offset rec.btags := by
  rw [← shiftMap_shifted_iff hfields, ← shiftMap_shifted_iff htags, ← shiftMap_shifted_iff hbtags]
  constructor
  · rintro ⟨out, hdone, -, hof⟩
    obtain ⟨fields, hf, hdone⟩ := Outcome.bind_eq_done.1 hdone
    obtain ⟨tags, ht, hdone⟩ := Outcome.bind_eq_done.1 hdone
    obtain ⟨btags, hb, hdone⟩ := Outcome.bind_eq_done.1 hdone
    cases hdone
    exact ⟨⟨fields, hf, hof.fields⟩, ⟨tags, ht, hof.tags⟩, ⟨btags, hb, hof.btags⟩⟩
  · rintro ⟨⟨fields, hf, hfields⟩, ⟨tags, ht, htags⟩, ⟨btags, hb, hbtags⟩⟩
    have hdone : nameshift offset untouched rec = .done
        { fields, tags, btags, interfaceId := rec.interfaceId, mode := rec.mode, detref := rec.detref } := by
      rw [nameshift, hf, Outcome.done_bind, ht, Outcome.done_bind, hb, Outcome.done_bind]
    exact ⟨_, hdone, hdone, hfields, htags, hbtags, rfl, rfl, rfl⟩

def twoTags : Record Int :=
  { fields := .empty, tags := ⟨[(1, 10), (2, 20)], by decide⟩, btags := .empty, interfaceId := 0, mode := .binary, detref := none }

/-- The tag 1 is shifted by 1 twice, and the tag 2 stays. -/
theorem nameshift_twice :
    Apart (Variant.createEmpty).hasTag 1 twoTags.tags ∧
      nameshiftTask 1 .createEmpty twoTags = .done { fields := [], tags := [(3, 10), (2, 20)], btags := [], interfaceId := 0, mode := .binary, detref := none } ∧
      ¬∃ out, nameshiftTask 1 .createEmpty twoTags = .done out ∧ nodeNameShift 1 .createEmpty twoTags = .done out ∧
        out.Of 1 .createEmpty twoTags := by
  refine ⟨fun _ _ _ _ _ h => absurd h Bool.false_ne_true, rfl, ?_⟩
  rintro ⟨out, h, -, hof⟩
  cases h
  have := (hof.tags.lookup 2 10).2 ⟨1, rfl, rfl⟩
  cases this

theorem nameshift_by_two :
    (∃ out, nameshiftTask 2 .createEmpty twoTags = .done out ∧ nodeNameShift 2 .createEmpty twoTags = .done out ∧
        out.Of 2 .createEmpty twoTags) ↔
      InOrder (Variant.createEmpty).hasField 2 twoTags.fields ∧
        InOrder (Variant.createEmpty).hasTag 2 twoTags.tags ∧
          InOrder (Variant.createEmpty).hasBTag 2 twoTags.btags :=
  nameshift_iff 2 .createEmpty twoTags (fun _ _ _ _ _ h => absurd h Bool.false_ne_true) (fun _ _ _ _ _ h => absurd h Bool.false_ne_true)
    (fun _ _ _ _ _ h => absurd h Bool.false_ne_true)

end SNet
