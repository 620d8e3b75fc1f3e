import SNetRts.Lib.Regions
import SNetRts.Stream.Locvec

/-!
# Location vectors are bracketed and unique

Each entity owns the location vectors that it or its instances may still give to boxes: a star those of
the incarnations to come, a split those of the tag values that have not come. A construction shares the
region of the network among its entities, and a step shares the region of a star or a split, so that no
two boxes get one vector.

A creation function meets all assertions and leaves the vector as it was, but for the number of a serial
level that it is merged into, except that a star cannot be built directly in a star.
-/

namespace SNet.Locvec

open Lib LocType List

/-! ## Regions -/

/-- The location vectors that the boxes of an entity have or may get. -/
def Entity.owns : Entity → Set Locvec
  | .box locvec => {locvec}
  | .star sarg =>
    match sarg.locvec with
    | [] => ∅
    | item :: p =>
      if sarg.created then ∅ else fan p {x | x.type = LOC_STAR ∧ item.num < x.num}
  | .split sarg =>
    match sarg.locvec with
    | [] => ∅
    | _ :: p => fan p {x | x.type = LOC_SPLIT ∧ x.num ∉ sarg.repos}

def Entity.Shape : Entity → Prop
  | .box _ => True
  | .star sarg => ∃ n p, sarg.locvec = ⟨LOC_STAR, n⟩ :: p
  | .split sarg => ∃ p, sarg.locvec = ⟨LOC_SPLIT, -1⟩ :: p

def Entity.Fresh : Entity → Prop
  | .box _ => True
  | .star sarg => sarg.created = false
  | .split sarg => sarg.repos = []

/-- Entities as they are created, in a region that they share. -/
structure Fits (R : Set Locvec) (new : List Entity) : Prop where
  apart : Separate Entity.owns new
  inside : ∀ e ∈ new, e.owns ⊆ R
  shape : ∀ e ∈ new, e.Shape
  fresh : ∀ e ∈ new, e.Fresh

namespace Fits

variable {R A B : Set Locvec} {new new' : List Entity} {e : Entity}

theorem nil (R : Set Locvec) : Fits R [] := ⟨.nil, nofun, nofun, nofun⟩

theorem single (hown : e.owns ⊆ R) (hshape : e.Shape) (hfresh : e.Fresh) : Fits R [e] := by
  refine ⟨.singleton e, fun x hx => ?_, fun x hx => ?_, fun x hx => ?_⟩
  · rw [mem_singleton.1 hx]
    exact hown
  · rw [mem_singleton.1 hx]
    exact hshape
  · rw [mem_singleton.1 hx]
    exact hfresh

theorem ite (b : Bool) (h : Fits R [e]) : Fits R (if b then [e] else []) := by
  cases b with
  | true => exact h
  | false => exact nil R

theorem mono (h : Fits A new) (hsub : A ⊆ R) : Fits R new :=
  ⟨h.apart, fun e he => (h.inside e he).trans hsub, h.shape, h.fresh⟩

theorem append (h : Fits A new) (h' : Fits B new') (hdisj : Disjoint A B) (hA : A ⊆ R) (hB : B ⊆ R) :
    Fits R (new ++ new') where
  apart := h.apart.append h'.apart h.inside h'.inside hdisj
  inside e he := (mem_append.1 he).elim (fun he => (h.inside e he).trans hA) fun he =>
    (h'.inside e he).trans hB
  shape e he := (mem_append.1 he).elim (h.shape e) (h'.shape e)
  fresh e he := (mem_append.1 he).elim (h.fresh e) (h'.fresh e)

theorem next {t : LocType} {n : Int} {p : Locvec} (h : Fits (below (⟨t, n + 1⟩ :: p)) new)
    (h' : Fits (fan p {x | x.type = t ∧ n + 1 < x.num}) new') :
    Fits (fan p {x | x.type = t ∧ n < x.num}) (new ++ new') := by
  rw [below_eq_fan] at h
  refine h.append h' (disjoint_fan (Set.disjoint_left.2 ?_)) (fan_mono ?_) (fan_mono ?_)
  · rintro x hx ⟨-, hlt⟩
    rw [Set.mem_singleton_iff.1 hx] at hlt
    exact Int.lt_irrefl _ hlt
  · rintro x hx
    rw [Set.mem_singleton_iff.1 hx]
    exact ⟨rfl, Int.lt_succ n⟩
  · rintro x ⟨htype, hlt⟩
    exact ⟨htype, by omega⟩

end Fits

/-- The incarnations behind the number `n`. -/
def starsAfter (p : Locvec) (n : Int) : Set Locvec := fan p {x | x.type = LOC_STAR ∧ n < x.num}

/-- The operands `n`, ... of a serial level, `w` of them. -/
def span (p : Locvec) (n : Int) (w : Nat) : Set Locvec :=
  fan p {x | x.type = LOC_SERIAL ∧ n ≤ x.num ∧ x.num < n + w}

theorem span_append_disjoint (p : Locvec) (n : Int) (w w' : Nat) :
    Disjoint (span p n w) (span p (n + w) w') := by
  refine disjoint_fan (Set.disjoint_left.2 ?_)
  rintro x ⟨-, -, hlt⟩ ⟨-, hle, -⟩
  omega

theorem span_left (p : Locvec) (n : Int) (w w' : Nat) : span p n w ⊆ span p n (w + w') := by
  refine fan_mono ?_
  rintro x ⟨htype, hle, hlt⟩
  exact ⟨htype, hle, by omega⟩

theorem span_right (p : Locvec) (n : Int) (w w' : Nat) : span p (n + w) w' ⊆ span p n (w + w') := by
  refine fan_mono ?_
  rintro x ⟨htype, hle, hlt⟩
  exact ⟨htype, by omega, by omega⟩

/-! ## Construction -/

/-- The operands that a network puts into the serial level that it is merged into. -/
def Net.width : Net → Nat
  | .serial boxA boxB => boxA.width + boxB.width
  | _ => 1

variable {isNode : Int → Bool} {location : Int}

variable (isNode location) in
/-- What a creation function does: on a serial level it takes as many operands as it has, on any other
vector it leaves the vector as it was. -/
def Net.Creates (net : Net) : Prop :=
  (∀ p n, ∃ new, net.create isNode location (⟨LOC_SERIAL, n⟩ :: p) =
      .done (⟨LOC_SERIAL, n + net.width - 1⟩ :: p, new) ∧ Fits (span p n net.width) new) ∧
    ∀ v, toptype v ≠ LOC_SERIAL → (toptype v = LOC_STAR → net.isStar = false) →
      ∃ new, net.create isNode location v = .done (v, new) ∧ Fits (below v) new

theorem Net.Creates.of_width {net : Net} (hw : net.width = 1)
    (h : ∀ v, (toptype v = LOC_STAR → net.isStar = false) →
      ∃ new, net.create isNode location v = .done (v, new) ∧ Fits (below v) new) :
    net.Creates isNode location := by
  refine ⟨fun p n => ?_, fun v _ => h v⟩
  obtain ⟨new, hnew, hfits⟩ := h (⟨LOC_SERIAL, n⟩ :: p) nofun
  refine ⟨new, ?_, hfits.mono (below_subset_fan ⟨rfl, Int.le_refl n, ?_⟩)⟩
  · rw [hnew, hw]
    congr 4
    omega
  · rw [hw]
    exact Int.lt_succ n

theorem star_fits (p : Locvec) (n : Int) (boxA : Net) (location : Int) :
    Fits (starsAfter p n) [.star ⟨⟨LOC_STAR, n⟩ :: p, boxA, location, false⟩] :=
  .single (Set.Subset.refl _) ⟨n, p, rfl⟩ rfl

theorem split_fits (p : Locvec) (boxA : Net) (location : Int) (isByloc : Bool) :
    Fits (below p) [.split ⟨⟨LOC_SPLIT, -1⟩ :: p, boxA, location, isByloc, []⟩] :=
  .single (fan_subset p _) ⟨p, rfl⟩ rfl

theorem createStar_creates (boxA : Net) {v : Locvec} (hv : toptype v ≠ LOC_STAR) :
    ∃ new, createStar isNode location boxA false v = .done (v, new) ∧ Fits (below v) new := by
  refine ⟨_, ?_, ((star_fits v (-1) boxA location).mono (fan_subset v _)).ite (isNode location)⟩
  unfold createStar starEnter
  rw [if_neg Bool.false_ne_true, if_pos hv]
  rfl

theorem serial_creates {boxA boxB : Net} (ha : boxA.Creates isNode location)
    (hb : boxB.Creates isNode location) : (Net.serial boxA boxB).Creates isNode location := by
  -- on a serial level, whether it has just been entered or not
  have hlevel : ∀ p n v enter, serialEnter v = (⟨LOC_SERIAL, n⟩ :: p, enter) →
      ∃ new, (Net.serial boxA boxB).create isNode location v =
        ((serialLeave (⟨LOC_SERIAL, n + (Net.serial boxA boxB).width - 1⟩ :: p) enter).bind
          fun v' => .done (v', new)) ∧ Fits (span p n (Net.serial boxA boxB).width) new := by
    intro p n v enter henter
    obtain ⟨a, hcreatea, hfitsa⟩ := ha.1 p n
    obtain ⟨b, hcreateb, hfitsb⟩ := hb.1 p (n + boxA.width)
    refine ⟨a ++ b, ?_, ?_⟩
    · have hnext : serialNext (⟨LOC_SERIAL, n + boxA.width - 1⟩ :: p) =
          .done (⟨LOC_SERIAL, n + boxA.width⟩ :: p) := by
        change Outcome.done (⟨LOC_SERIAL, n + boxA.width - 1 + 1⟩ :: p) = _
        rw [Int.sub_add_cancel]
      have hnum : n + boxA.width + boxB.width - 1 = n + (Net.serial boxA boxB).width - 1 := by
        rw [Net.width]
        omega
      rw [Net.create, henter, hcreatea, Outcome.done_bind, hnext, Outcome.done_bind, hcreateb,
        Outcome.done_bind, hnum]
    · exact hfitsa.append hfitsb (span_append_disjoint p n _ _) (span_left p n _ _) (span_right p n _ _)
  constructor
  · intro p n
    exact hlevel p n _ false rfl
  · intro v hv _
    obtain ⟨new, hnew, hfits⟩ := hlevel v 1 v true (if_pos hv)
    exact ⟨new, hnew, hfits.mono (fan_subset v _)⟩

theorem feedback_creates {boxA : Net} (ha : boxA.Creates isNode location) :
    (Net.feedback boxA).Creates isNode location := by
  refine .of_width rfl fun v _ => ?_
  obtain ⟨new, hnew, hfits⟩ := ha.2 (⟨LOC_FEEDBACK, -1⟩ :: v) nofun nofun
  refine ⟨new, ?_, hfits.mono (below_cons _ v)⟩
  rw [Net.create, feedbackEnter, append, hnew]
  rfl

def Branches.Creates (isNode : Int → Bool) (location : Int) (funs : Branches) : Prop :=
  ∀ v n, ∃ n' new, funs.create isNode location (⟨LOC_PARALLEL, n⟩ :: v) =
    .done (⟨LOC_PARALLEL, n'⟩ :: v, new) ∧ Fits (fan v {x | x.type = LOC_PARALLEL ∧ n < x.num}) new

theorem branch_creates {branch : Net} {funs : Branches} (hb : branch.Creates isNode location)
    (hfuns : funs.Creates isNode location) : (Branches.cons branch funs).Creates isNode location := by
  intro v n
  obtain ⟨a, hcreatea, hfitsa⟩ := hb.2 (⟨LOC_PARALLEL, n + 1⟩ :: v) nofun nofun
  obtain ⟨n', b, hcreateb, hfitsb⟩ := hfuns v (n + 1)
  refine ⟨n', a ++ b, ?_, ?_⟩
  · have hnext : parallelNext (⟨LOC_PARALLEL, n⟩ :: v) = .done (⟨LOC_PARALLEL, n + 1⟩ :: v) := rfl
    rw [Branches.create, hnext, Outcome.done_bind, hcreatea, Outcome.done_bind, hcreateb]
    rfl
  · exact hfitsa.next hfitsb

theorem parallel_creates {funs : Branches} (h : funs.Creates isNode location) :
    (Net.parallel funs).Creates isNode location := by
  refine .of_width rfl fun v _ => ?_
  obtain ⟨n', new, hnew, hfits⟩ := h v (-1)
  refine ⟨new, ?_, hfits.mono (fan_subset v _)⟩
  rw [Net.create, parallelEnter, append, hnew]
  cases isNode location <;> rfl

mutual

theorem Net.creates : ∀ net : Net, net.Creates isNode location
  | .box => by
    refine .of_width rfl fun v _ => ⟨_, rfl, .ite _ (.single ?_ trivial trivial)⟩
    rintro u rfl
    exact self_mem_below _
  | .filter => .of_width rfl fun v _ => ⟨[], rfl, .nil _⟩
  | .serial boxA boxB => serial_creates boxA.creates boxB.creates
  | .parallel funs => parallel_creates funs.creates
  | .split isByloc boxA =>
    .of_width rfl fun v _ => ⟨_, rfl, (split_fits v boxA location isByloc).ite _⟩
  | .star boxA => .of_width rfl fun _ hstar => createStar_creates boxA fun h => nomatch hstar h
  | .feedback boxA => feedback_creates boxA.creates

theorem Branches.creates : ∀ funs : Branches, funs.Creates isNode location
  | .nil => fun _ n => ⟨n, [], rfl, .nil _⟩
  | .cons branch funs => branch_creates branch.creates funs.creates

end

/-! ## What a creation has created -/

theorem create_serial {boxA boxB : Net} {v v' : Locvec} {new : List Entity}
    (h : (Net.serial boxA boxB).create isNode location v = .done (v', new)) :
    ∃ u a w b, boxA.create isNode location u = .done a ∧ boxB.create isNode location w = .done b ∧
      new = a.2 ++ b.2 := by
  obtain ⟨a, ha, h⟩ := Outcome.bind_eq_done.1 h
  obtain ⟨w, -, h⟩ := Outcome.bind_eq_done.1 h
  obtain ⟨b, hb, h⟩ := Outcome.bind_eq_done.1 h
  obtain ⟨v', -, h⟩ := Outcome.bind_eq_done.1 h
  cases h
  exact ⟨_, a, w, b, ha, hb, rfl⟩

theorem create_parallel {funs : Branches} {v v' : Locvec} {new : List Entity}
    (h : (Net.parallel funs).create isNode location v = .done (v', new)) :
    ∃ u u', funs.create isNode location u = .done (u', new) := by
  obtain ⟨b, hb, h⟩ := Outcome.bind_eq_done.1 h
  obtain ⟨w, -, h⟩ := Outcome.bind_eq_done.1 h
  obtain ⟨v', -, h⟩ := Outcome.bind_eq_done.1 h
  cases h
  exact ⟨_, b.1, hb⟩

theorem create_split {boxA : Net} {isByloc : Bool} {v v' : Locvec} {new : List Entity}
    (h : (Net.split isByloc boxA).create isNode location v = .done (v', new)) :
    new = if isNode location then [.split ⟨⟨LOC_SPLIT, -1⟩ :: v, boxA, location, isByloc, []⟩] else [] := by
  obtain ⟨u, -, h⟩ := Outcome.bind_eq_done.1 h
  cases h
  rfl

theorem create_feedback {boxA : Net} {v v' : Locvec} {new : List Entity}
    (h : (Net.feedback boxA).create isNode location v = .done (v', new)) :
    ∃ u u', boxA.create isNode location u = .done (u', new) := by
  obtain ⟨a, ha, h⟩ := Outcome.bind_eq_done.1 h
  obtain ⟨v', -, h⟩ := Outcome.bind_eq_done.1 h
  cases h
  exact ⟨_, a.1, ha⟩

theorem create_cons {branch : Net} {funs : Branches} {v v' : Locvec} {new : List Entity}
    (h : (Branches.cons branch funs).create isNode location v = .done (v', new)) :
    ∃ u a w b, branch.create isNode location u = .done a ∧ funs.create isNode location w = .done b ∧
      new = a.2 ++ b.2 := by
  obtain ⟨u, -, h⟩ := Outcome.bind_eq_done.1 h
  obtain ⟨a, ha, h⟩ := Outcome.bind_eq_done.1 h
  obtain ⟨b, hb, h⟩ := Outcome.bind_eq_done.1 h
  cases h
  exact ⟨u, a, a.1, b, ha, hb, rfl⟩

theorem createStar_eq_done {boxA : Net} {v v' : Locvec} {new : List Entity}
    (h : createStar isNode location boxA false v = .done (v', new)) :
    new = if isNode location then [.star ⟨⟨LOC_STAR, -1⟩ :: v, boxA, location, false⟩] else [] := by
  obtain ⟨u, hu, h⟩ := Outcome.bind_eq_done.1 h
  obtain ⟨w, -, h⟩ := Outcome.bind_eq_done.1 h
  rw [if_neg Bool.false_ne_true, starEnter] at hu
  split at hu
  · cases hu
    cases h
    rfl
  · cases hu

/-! ## Stars in stars -/

variable (isNode) in
/-- The networks that the entity creates have no star in a star. -/
def Entity.Unnested : Entity → Prop
  | .box _ => True
  | .star sarg => sarg.box.isStar = false ∧ sarg.box.Unnested isNode sarg.location
  | .split sarg => ∀ i : Int, sarg.boxfun.Unnested isNode (if sarg.isByloc then i else sarg.location)

theorem forall_mem_append {p : Entity → Prop} {l l' : List Entity} :
    (∀ e ∈ l ++ l', p e) ↔ (∀ e ∈ l, p e) ∧ ∀ e ∈ l', p e := by
  simp only [mem_append, or_imp, forall_and]

theorem forall_mem_ite {p : Entity → Prop} {b : Bool} {e : Entity} :
    (∀ x ∈ (if b then [e] else []), p x) ↔ (b = true → p e) := by
  cases b with
  | true => simp
  | false => simp

mutual

theorem Net.unnested_iff : ∀ {net : Net} {v v' : Locvec} {new : List Entity},
    net.create isNode location v = .done (v', new) →
      (net.Unnested isNode location ↔ ∀ e ∈ new, e.Unnested isNode)
  | .box, v, v', new, h => by
    cases h
    exact iff_of_true trivial (forall_mem_ite.2 fun _ => trivial)
  | .filter, v, v', new, h => by
    cases h
    exact iff_of_true trivial nofun
  | .serial boxA boxB, v, v', new, h => by
    obtain ⟨u, a, w, b, ha, hb, rfl⟩ := create_serial h
    rw [forall_mem_append, ← boxA.unnested_iff ha, ← boxB.unnested_iff hb]
    exact Iff.rfl
  | .parallel funs, v, v', new, h => by
    obtain ⟨u, u', ha⟩ := create_parallel h
    exact funs.unnested_iff ha
  | .split isByloc boxA, v, v', new, h => by
    rw [create_split h, forall_mem_ite]
    exact Iff.rfl
  | .star boxA, v, v', new, h => by
    rw [createStar_eq_done h, forall_mem_ite]
    exact Iff.rfl
  | .feedback boxA, v, v', new, h => by
    obtain ⟨u, u', ha⟩ := create_feedback h
    exact boxA.unnested_iff ha

theorem Branches.unnested_iff : ∀ {funs : Branches} {v v' : Locvec} {new : List Entity},
    funs.create isNode location v = .done (v', new) →
      (funs.Unnested isNode location ↔ ∀ e ∈ new, e.Unnested isNode)
  | .nil, v, v', new, h => by
    cases h
    exact iff_of_true trivial nofun
  | .cons branch funs, v, v', new, h => by
    obtain ⟨u, a, w, b, ha, hb, rfl⟩ := create_cons h
    rw [forall_mem_append, ← branch.unnested_iff ha, ← funs.unnested_iff hb]
    exact Iff.rfl

end

/-! ## Incarnations and instances -/

variable (isNode) in
theorem starchild_creates {sarg : StarArg} {n : Int} {p : Locvec} (hv : sarg.locvec = ⟨LOC_STAR, n⟩ :: p)
    (hstar : sarg.box.isStar = false) :
    ∃ a, sarg.box.create isNode sarg.location (⟨LOC_STAR, n + 1⟩ :: p) =
        .done (⟨LOC_STAR, n + 1⟩ :: p, a) ∧
      serialStarchild isNode sarg = .done (sarg.locvec, a ++ if isNode sarg.location then
        [.star ⟨⟨LOC_STAR, n + 1⟩ :: p, sarg.box, sarg.location, false⟩] else []) ∧
      Fits (starsAfter p n) (a ++ if isNode sarg.location then
        [.star ⟨⟨LOC_STAR, n + 1⟩ :: p, sarg.box, sarg.location, false⟩] else []) := by
  obtain ⟨a, hcreate, hfits⟩ := (@Net.creates isNode sarg.location sarg.box).2
    (⟨LOC_STAR, n + 1⟩ :: p) nofun fun _ => hstar
  refine ⟨a, hcreate, ?_, ?_⟩
  · have hspawn : starSpawn sarg.locvec = .done (⟨LOC_STAR, n + 1⟩ :: p) := by
      rw [hv]
      rfl
    have hret : starSpawnRet (⟨LOC_STAR, n + 1⟩ :: p) = .done sarg.locvec := by
      change Outcome.done (⟨LOC_STAR, n + 1 - 1⟩ :: p) = _
      rw [Int.add_sub_cancel, hv]
    have hwithin : starWithin (⟨LOC_STAR, n + 1⟩ :: p) = true := rfl
    rw [serialStarchild, hspawn, Outcome.done_bind, hcreate]
    simp only [Outcome.done_bind, hwithin, createStar, hret, ↓reduceIte]
  · exact hfits.next ((star_fits p (n + 1) sarg.box sarg.location).ite _)

theorem starchild_fault {sarg : StarArg} {n : Int} {p : Locvec} (hv : sarg.locvec = ⟨LOC_STAR, n⟩ :: p)
    (hstar : sarg.box.isStar = true) : serialStarchild isNode sarg = .fault := by
  have hspawn : starSpawn sarg.locvec = .done (⟨LOC_STAR, n + 1⟩ :: p) := by
    rw [hv]
    rfl
  cases hbox : sarg.box with
  | star boxA =>
    rw [serialStarchild, hspawn, hbox]
    rfl
  | box | filter | serial | parallel | split | feedback =>
    rw [hbox] at hstar
    cases hstar

variable (isNode) in
theorem splitInstance_creates {sarg : SplitArg} {p : Locvec} (hv : sarg.locvec = ⟨LOC_SPLIT, -1⟩ :: p)
    (i : Int) : ∃ new,
      sarg.boxfun.create isNode (if sarg.isByloc then i else sarg.location) (⟨LOC_SPLIT, i⟩ :: p) =
        .done (⟨LOC_SPLIT, i⟩ :: p, new) ∧
      splitInstance isNode sarg i = .done (⟨LOC_SPLIT, i⟩ :: p, ⟨LOC_SPLIT, i⟩ :: p, new) ∧
      Fits (below (⟨LOC_SPLIT, i⟩ :: p)) new := by
  obtain ⟨new, hcreate, hfits⟩ := (@Net.creates isNode
    (if sarg.isByloc then i else sarg.location) sarg.boxfun).2 (⟨LOC_SPLIT, i⟩ :: p) nofun nofun
  refine ⟨new, hcreate, ?_, hfits⟩
  have hspawn : splitSpawn sarg.locvec i = .done (⟨LOC_SPLIT, i⟩ :: p) := by
    rw [hv]
    rfl
  rw [splitInstance, hspawn, Outcome.done_bind, hcreate]
  rfl

/-! ## Runs -/

theorem step_star {s s' : List Entity} {j : Nat} (h : step isNode s (.star j) = .done s') :
    ∃ sarg, s[j]? = some (.star sarg) ∧ sarg.created = false ∧ ∃ r, serialStarchild isNode sarg = .done r ∧
      s' = s.set j (.star { sarg with locvec := r.1, created := true }) ++ r.2 := by
  simp only [step] at h
  split at h
  · next sarg hj =>
    split at h
    · cases h
    · next hcreated =>
      obtain ⟨r, hr, h⟩ := Outcome.bind_eq_done.1 h
      cases h
      exact ⟨sarg, hj, Bool.not_eq_true _ ▸ hcreated, r, hr, rfl⟩
  · cases h

theorem step_split {s s' : List Entity} {j : Nat} {i : Int} (h : step isNode s (.split j i) = .done s') :
    ∃ sarg, s[j]? = some (.split sarg) ∧ i ∉ sarg.repos ∧ ∃ r, splitInstance isNode sarg i = .done r ∧
      s' = s.set j (.split { sarg with repos := i :: sarg.repos }) ++ r.2.2 := by
  simp only [step] at h
  split at h
  · next sarg hj =>
    split at h
    · cases h
    · next hnew =>
      obtain ⟨r, hr, h⟩ := Outcome.bind_eq_done.1 h
      cases h
      exact ⟨sarg, hj, hnew, r, hr, rfl⟩
  · cases h

theorem step_star_eq {s : List Entity} {j : Nat} {sarg : StarArg} (hj : s[j]? = some (.star sarg))
    (hcreated : sarg.created = false) {r : Locvec × List Entity} (hr : serialStarchild isNode sarg = .done r) :
    step isNode s (.star j) = .done (s.set j (.star { sarg with locvec := r.1, created := true }) ++ r.2) := by
  simp only [step, hj, hcreated, Bool.false_eq_true, ↓reduceIte, hr]
  rfl

theorem step_split_eq {s : List Entity} {j : Nat} {sarg : SplitArg} (hj : s[j]? = some (.split sarg)) {i : Int}
    (hnew : i ∉ sarg.repos) {r : Locvec × Locvec × List Entity} (hr : splitInstance isNode sarg i = .done r) :
    step isNode s (.split j i) =
      .done (s.set j (.split { sarg with repos := i :: sarg.repos }) ++ r.2.2) := by
  simp only [step, hj, hnew, ↓reduceIte, hr]
  rfl

variable (isNode) in
/-- The entities of a run. -/
structure Inv (entities : List Entity) : Prop where
  apart : Separate Entity.owns entities
  shape : ∀ e ∈ entities, e.Shape
  unnested : ∀ e ∈ entities, e.Unnested isNode

theorem mem_set_append {l new : List Entity} {j : Nat} {y e : Entity}
    (he : e ∈ l.set j y ++ new) : e ∈ l ∨ e = y ∨ e ∈ new := by
  rcases mem_append.1 he with he | he
  · exact (mem_or_eq_of_mem_set he).imp_right .inl
  · exact .inr (.inr he)

theorem Inv.replace {l new : List Entity} {j : Nat} {x y : Entity} {R : Set Locvec} (h : Inv isNode l)
    (hj : l[j]? = some x) (hfits : Fits R new) (hR : R ⊆ x.owns) (hy : y.owns ⊆ x.owns)
    (hdisj : Disjoint y.owns R) (hshape : y.Shape) (hunnested : y.Unnested isNode)
    (hnew : ∀ e ∈ new, e.Unnested isNode) : Inv isNode (l.set j y ++ new) where
  apart := by
    refine h.apart.refine hj ?_ fun z hz => ?_
    · refine pairwise_cons.2 ⟨fun e he => ?_, hfits.apart⟩
      exact hdisj.mono_right (hfits.inside e he)
    · rcases mem_cons.1 hz with rfl | hz
      · exact hy
      · exact (hfits.inside z hz).trans hR
  shape e he := by
    rcases mem_set_append he with he | rfl | he
    · exact h.shape e he
    · exact hshape
    · exact hfits.shape e he
  unnested e he := by
    rcases mem_set_append he with he | rfl | he
    · exact h.unnested e he
    · exact hunnested
    · exact hnew e he

theorem owns_star {sarg : StarArg} {n : Int} {p : Locvec} (hv : sarg.locvec = ⟨LOC_STAR, n⟩ :: p)
    (hcreated : sarg.created = false) : (Entity.star sarg).owns = starsAfter p n := by
  unfold Entity.owns
  simp only [hv, hcreated, Bool.false_eq_true, ↓reduceIte]
  rfl

theorem owns_created (v : Locvec) (boxA : Net) (location : Int) :
    (Entity.star ⟨v, boxA, location, true⟩).owns = ∅ := by
  cases v <;> rfl

theorem owns_split {sarg : SplitArg} {p : Locvec} (hv : sarg.locvec = ⟨LOC_SPLIT, -1⟩ :: p) :
    (Entity.split sarg).owns = fan p {x | x.type = LOC_SPLIT ∧ x.num ∉ sarg.repos} := by
  unfold Entity.owns
  simp only [hv]

theorem Inv.star {s : List Entity} (h : Inv isNode s) {j : Nat} {sarg : StarArg}
    (hj : s[j]? = some (.star sarg)) (hcreated : sarg.created = false) {r : Locvec × List Entity}
    (hr : serialStarchild isNode sarg = .done r) :
    Inv isNode (s.set j (.star { sarg with locvec := r.1, created := true }) ++ r.2) := by
  obtain ⟨n, p, hv⟩ := h.shape _ (mem_of_getElem? hj)
  obtain ⟨hstar, hun⟩ := h.unnested _ (mem_of_getElem? hj)
  obtain ⟨new, hcreate, hchild, hfits⟩ := starchild_creates isNode hv hstar
  cases hchild.symm.trans hr
  refine h.replace hj hfits ?_ ?_ ?_ ⟨n, p, hv⟩ ⟨hstar, hun⟩ ?_
  · rw [owns_star hv hcreated]
  · rw [owns_created]
    exact Set.empty_subset _
  · rw [owns_created]
    exact Set.empty_disjoint _
  · exact forall_mem_append.2 ⟨(sarg.box.unnested_iff hcreate).1 hun, forall_mem_ite.2 fun _ => ⟨hstar, hun⟩⟩

theorem Inv.split {s : List Entity} (h : Inv isNode s) {j : Nat} {sarg : SplitArg}
    (hj : s[j]? = some (.split sarg)) {i : Int} (hnew : i ∉ sarg.repos) {r : Locvec × Locvec × List Entity}
    (hr : splitInstance isNode sarg i = .done r) :
    Inv isNode (s.set j (.split { sarg with repos := i :: sarg.repos }) ++ r.2.2) := by
  obtain ⟨p, hv⟩ := h.shape _ (mem_of_getElem? hj)
  have hun := h.unnested _ (mem_of_getElem? hj)
  obtain ⟨new, hcreate, hinst, hfits⟩ := splitInstance_creates isNode hv i
  cases hinst.symm.trans hr
  have hy : (Entity.split { sarg with repos := i :: sarg.repos }).owns =
      fan p {x | x.type = LOC_SPLIT ∧ x.num ∉ i :: sarg.repos} :=
    @owns_split { sarg with repos := i :: sarg.repos } p hv
  refine h.replace hj hfits ?_ ?_ ?_ ⟨p, hv⟩ hun ((sarg.boxfun.unnested_iff hcreate).1 (hun i))
  · rw [owns_split hv]
    exact below_subset_fan ⟨rfl, hnew⟩
  · rw [hy, owns_split hv]
    exact fan_mono fun x hx => ⟨hx.1, fun hmem => hx.2 (mem_cons_of_mem _ hmem)⟩
  · rw [hy]
    refine Set.disjoint_left.2 ?_
    rintro u ⟨x, ⟨-, hx⟩, hu⟩ hu'
    rw [eq_of_mem_below hu hu'] at hx
    exact hx mem_cons_self

theorem Inv.step {s s' : List Entity} {a : Act} (h : Inv isNode s) (hs : step isNode s a = .done s') :
    Inv isNode s' := by
  cases a with
  | star j =>
    obtain ⟨sarg, hj, hcreated, r, hr, rfl⟩ := step_star hs
    exact h.star hj hcreated hr
  | split j i =>
    obtain ⟨sarg, hj, hnew, r, hr, rfl⟩ := step_split hs
    exact h.split hj hnew hr

theorem Inv.bracketed {s : List Entity} (h : Inv isNode s) : Bracketed isNode s where
  star sarg hmem _ := by
    obtain ⟨n, p, hv⟩ := h.shape _ hmem
    obtain ⟨new, -, hchild, -⟩ := starchild_creates isNode hv (h.unnested _ hmem).1
    exact ⟨_, hchild⟩
  split sarg i hmem _ := by
    obtain ⟨p, hv⟩ := h.shape _ hmem
    obtain ⟨new, -, hinst, -⟩ := splitInstance_creates isNode hv i
    exact ⟨_, new, hinst⟩
  unique := by
    refine h.apart.nodup fun e v hv => ?_
    cases e with
    | box locvec =>
      cases hv
      rfl
    | star | split => cases hv

/-! ## Where the assertion fails -/

variable (isNode) in
/-- A run from these entities comes to a construction that is not bracketed. -/
def Breaks (s : List Entity) : Prop := ∃ s', Reach (step isNode) anyStep s s' ∧ ¬ Bracketed isNode s'

theorem Breaks.of_step {s s' : List Entity} {a : Act} (hs : step isNode s a = .done s')
    (h : Breaks isNode s') : Breaks isNode s := by
  obtain ⟨t, hreach, ht⟩ := h
  refine ⟨t, ?_, ht⟩
  clear ht
  induction hreach with
  | init => exact .step .init trivial hs
  | step _ hok hst ih => exact .step ih hok hst

theorem breaks_star {s : List Entity} {sarg : StarArg} {n : Int} {p : Locvec} (hmem : .star sarg ∈ s)
    (hv : sarg.locvec = ⟨LOC_STAR, n⟩ :: p) (hcreated : sarg.created = false)
    (hbox : ∀ {v v' : Locvec} {new s' : List Entity}, sarg.box.create isNode sarg.location v = .done (v', new) →
      (∀ e ∈ new, e ∈ s') → ¬ sarg.box.Unnested isNode sarg.location → Breaks isNode s')
    (hnot : ¬ (sarg.box.isStar = false ∧ sarg.box.Unnested isNode sarg.location)) : Breaks isNode s := by
  cases hstar : sarg.box.isStar with
  | true =>
    refine ⟨s, .init, fun h => ?_⟩
    obtain ⟨new, hnew⟩ := h.star sarg hmem hcreated
    rw [starchild_fault hv hstar] at hnew
    cases hnew
  | false =>
    obtain ⟨j, hj⟩ := getElem?_of_mem hmem
    obtain ⟨new, hcreate, hchild, -⟩ := starchild_creates isNode hv hstar
    refine .of_step (step_star_eq hj hcreated hchild) (hbox hcreate (fun e he => ?_) fun hun => hnot ⟨hstar, hun⟩)
    exact mem_append_right _ (mem_append_left _ he)

theorem breaks_split {s : List Entity} {sarg : SplitArg} {p : Locvec} (hmem : .split sarg ∈ s)
    (hv : sarg.locvec = ⟨LOC_SPLIT, -1⟩ :: p) (hrepos : sarg.repos = []) (i : Int)
    (hbox : ∀ {v v' : Locvec} {new s' : List Entity},
      sarg.boxfun.create isNode (if sarg.isByloc then i else sarg.location) v = .done (v', new) →
        (∀ e ∈ new, e ∈ s') → Breaks isNode s') : Breaks isNode s := by
  obtain ⟨j, hj⟩ := getElem?_of_mem hmem
  obtain ⟨new, hcreate, hinst, -⟩ := splitInstance_creates isNode hv i
  have hnew : i ∉ sarg.repos := by
    rw [hrepos]
    exact not_mem_nil
  exact .of_step (step_split_eq hj hnew hinst) (hbox hcreate fun e he => mem_append_right _ he)

mutual

theorem Net.breaks : ∀ {net : Net} {location : Int} {v v' : Locvec} {new s : List Entity},
    net.create isNode location v = .done (v', new) → (∀ e ∈ new, e ∈ s) →
      ¬ net.Unnested isNode location → Breaks isNode s
  | .box, _, _, _, _, _, _, _, hnot => absurd trivial hnot
  | .filter, _, _, _, _, _, _, _, hnot => absurd trivial hnot
  | .serial boxA boxB, location, _, _, _, _, h, hsub, hnot => by
    obtain ⟨u, a, w, b, ha, hb, rfl⟩ := create_serial h
    by_cases hun : boxA.Unnested isNode location
    · exact boxB.breaks hb (fun e he => hsub e (mem_append_right _ he)) fun hunb => hnot ⟨hun, hunb⟩
    · exact boxA.breaks ha (fun e he => hsub e (mem_append_left _ he)) hun
  | .parallel funs, location, _, _, _, _, h, hsub, hnot => by
    obtain ⟨u, u', ha⟩ := create_parallel h
    exact funs.breaks ha hsub hnot
  | .split isByloc boxA, location, v, _, _, _, h, hsub, hnot => by
    rw [create_split h] at hsub
    rw [Net.Unnested, Classical.not_imp, not_forall] at hnot
    obtain ⟨hnode, i, hi⟩ := hnot
    rw [if_pos hnode] at hsub
    have hmem := hsub _ (mem_singleton.2 rfl)
    exact breaks_split hmem rfl rfl i fun hcreate hsub => boxA.breaks hcreate hsub hi
  | .star boxA, location, v, _, _, _, h, hsub, hnot => by
    rw [createStar_eq_done h] at hsub
    rw [Net.Unnested, Classical.not_imp] at hnot
    obtain ⟨hnode, hnot⟩ := hnot
    rw [if_pos hnode] at hsub
    exact breaks_star (hsub _ (mem_singleton.2 rfl)) rfl rfl (fun h => boxA.breaks h) hnot
  | .feedback boxA, location, _, _, _, _, h, hsub, hnot => by
    obtain ⟨u, u', ha⟩ := create_feedback h
    exact boxA.breaks ha hsub hnot

theorem Branches.breaks : ∀ {funs : Branches} {location : Int} {v v' : Locvec} {new s : List Entity},
    funs.create isNode location v = .done (v', new) → (∀ e ∈ new, e ∈ s) →
      ¬ funs.Unnested isNode location → Breaks isNode s
  | .nil, _, _, _, _, _, _, _, hnot => absurd trivial hnot
  | .cons branch funs, location, _, _, _, _, h, hsub, hnot => by
    obtain ⟨u, a, w, b, ha, hb, rfl⟩ := create_cons h
    by_cases hun : branch.Unnested isNode location
    · exact funs.breaks hb (fun e he => hsub e (mem_append_right _ he)) fun hunb => hnot ⟨hun, hunb⟩
    · exact branch.breaks ha (fun e he => hsub e (mem_append_left _ he)) hun

end

/-! ## Bracketed and unique -/

end SNet.Locvec
