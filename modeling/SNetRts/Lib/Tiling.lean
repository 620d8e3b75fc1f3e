import Mathlib.Data.List.Chain
import Mathlib.Data.List.Pairwise
import Mathlib.Data.List.Nodup
import Mathlib.Algebra.GroupWithZero.Nat

/-!
# Tilings

A range of units is cut into tiles one behind the other, and each tile is free or in use. `placed a ts`
are the tiles `ts` with their starts, the first one at `a`. A tiling is `Compact` if there is no empty
tile in it and no two free tiles are next to each other, so that every gap between the tiles in use is
one tile.
-/

namespace Lib

open List

/-- A number of units that is free or in use. -/
structure Tile where
  size : Nat
  free : Bool
deriving DecidableEq

namespace Tile

def total (ts : List Tile) : Nat := (ts.map size).sum

def placed : Nat → List Tile → List (Nat × Tile)
  | _, [] => []
  | a, t :: ts => (a, t) :: placed (a + t.size) ts

def freeStarts (a : Nat) (ts : List Tile) : List Nat :=
  ((placed a ts).filter fun p => p.2.free).map Prod.fst

def used (a : Nat) (ts : List Tile) : List (Nat × Nat) :=
  ((placed a ts).filter fun p => !p.2.free).map fun p => (p.1, p.2.size)

/-- The table `tag` has at the start of every tile what `f` says of the tile. -/
def Recorded {β : Type*} (f : Tile → β) (tag : Nat → β) (a : Nat) (ts : List Tile) : Prop :=
  ∀ p ∈ placed a ts, tag p.1 = f p.2

/-- The table `tag` has that at the first and at the last unit of every tile. -/
def Bordered {β : Type*} (f : Tile → β) (tag : Nat → β) (a : Nat) (ts : List Tile) : Prop :=
  ∀ p ∈ placed a ts, tag p.1 = f p.2 ∧ tag (p.1 + p.2.size - 1) = f p.2

def StartsFree (ts : List Tile) : Prop := ∃ t ∈ ts.head?, t.free = true

def EndsFree (ts : List Tile) : Prop := ∃ t ∈ ts.getLast?, t.free = true

/-- No tile is empty, and no two free tiles are next to each other. -/
structure Compact (ts : List Tile) : Prop where
  pos : ∀ t ∈ ts, 0 < t.size
  apart : ts.IsChain fun t u => ¬ (t.free = true ∧ u.free = true)

variable {ts us pre post : List Tile} {t u : Tile} {a b n m : Nat} {p q : Nat × Tile}

/-! ## Tiles one behind the other -/

@[simp] theorem total_nil : total [] = 0 := rfl

@[simp] theorem total_cons : total (t :: ts) = t.size + total ts := by
  rw [total, map_cons, sum_cons, total]

@[simp] theorem total_append : total (ts ++ us) = total ts + total us := by
  rw [total, map_append, sum_append, total, total]

@[simp] theorem placed_nil : placed a [] = [] := rfl

@[simp] theorem placed_cons : placed a (t :: ts) = (a, t) :: placed (a + t.size) ts := rfl

@[simp] theorem placed_append : placed a (ts ++ us) = placed a ts ++ placed (a + total ts) us := by
  induction ts generalizing a with
  | nil => rfl
  | cons t ts ih =>
    rw [cons_append, placed_cons, ih, total_cons, Nat.add_assoc]
    rfl

@[simp] theorem freeStarts_nil : freeStarts a [] = [] := rfl

@[simp] theorem freeStarts_append :
    freeStarts a (ts ++ us) = freeStarts a ts ++ freeStarts (a + total ts) us := by
  simp [freeStarts]

@[simp] theorem freeStarts_free : freeStarts a (⟨n, true⟩ :: ts) = a :: freeStarts (a + n) ts := rfl

@[simp] theorem freeStarts_used : freeStarts a (⟨n, false⟩ :: ts) = freeStarts (a + n) ts := rfl

@[simp] theorem used_nil : used a [] = [] := rfl

@[simp] theorem used_append : used a (ts ++ us) = used a ts ++ used (a + total ts) us := by
  simp [used]

@[simp] theorem used_free : used a (⟨n, true⟩ :: ts) = used (a + n) ts := rfl

@[simp] theorem used_used : used a (⟨n, false⟩ :: ts) = (a, n) :: used (a + n) ts := rfl

theorem placed_bounds (hp : p ∈ placed a ts) : a ≤ p.1 ∧ p.1 + p.2.size ≤ a + total ts := by
  induction ts generalizing a with
  | nil => cases hp
  | cons t ts ih =>
    rw [total_cons]
    rcases mem_cons.1 hp with rfl | hp
    · exact ⟨Nat.le_refl _, by dsimp only; omega⟩
    · obtain ⟨h1, h2⟩ := ih hp
      omega

theorem mem_of_mem_placed (hp : p ∈ placed a ts) : p.2 ∈ ts := by
  induction ts generalizing a with
  | nil => cases hp
  | cons t ts ih =>
    rcases mem_cons.1 hp with rfl | hp
    · exact mem_cons_self
    · exact mem_cons_of_mem _ (ih hp)

theorem placed_split (hp : p ∈ placed a ts) :
    ∃ pre post, ts = pre ++ p.2 :: post ∧ p.1 = a + total pre := by
  induction ts generalizing a with
  | nil => cases hp
  | cons t ts ih =>
    rcases mem_cons.1 hp with rfl | hp
    · exact ⟨[], ts, rfl, rfl⟩
    · obtain ⟨pre, post, rfl, hstart⟩ := ih hp
      refine ⟨t :: pre, post, rfl, ?_⟩
      rw [hstart, total_cons, Nat.add_assoc]

theorem placed_apart (hp : p ∈ placed a ts) (hq : q ∈ placed a ts) :
    p = q ∨ p.1 + p.2.size ≤ q.1 ∨ q.1 + q.2.size ≤ p.1 := by
  induction ts generalizing a with
  | nil => cases hp
  | cons t ts ih =>
    rcases mem_cons.1 hp with rfl | hp <;> rcases mem_cons.1 hq with rfl | hq
    · exact .inl rfl
    · exact .inr (.inl (placed_bounds hq).1)
    · exact .inr (.inr (placed_bounds hp).1)
    · exact ih hp hq

theorem mem_freeStarts : b ∈ freeStarts a ts ↔ ∃ n, (b, ⟨n, true⟩) ∈ placed a ts := by
  rw [freeStarts, List.mem_map]
  constructor
  · rintro ⟨⟨b, n, f⟩, hmem, rfl⟩
    obtain ⟨hmem, hfree⟩ := mem_filter.1 hmem
    obtain rfl : f = true := hfree
    exact ⟨n, hmem⟩
  · rintro ⟨n, hmem⟩
    exact ⟨_, mem_filter.2 ⟨hmem, rfl⟩, rfl⟩

theorem mem_used : (b, n) ∈ used a ts ↔ (b, ⟨n, false⟩) ∈ placed a ts := by
  rw [used, List.mem_map]
  constructor
  · rintro ⟨⟨b, n, f⟩, hmem, heq⟩
    cases heq
    obtain ⟨hmem, hfree⟩ := mem_filter.1 hmem
    cases f with
    | false => exact hmem
    | true => cases hfree
  · intro hmem
    exact ⟨_, mem_filter.2 ⟨hmem, rfl⟩, rfl⟩

theorem freeStarts_bounds (hb : b ∈ freeStarts a ts) : a ≤ b ∧ b ≤ a + total ts := by
  obtain ⟨n, hb⟩ := mem_freeStarts.1 hb
  have := placed_bounds hb
  dsimp only at this
  omega

theorem used_bounds (hb : (b, n) ∈ used a ts) : a ≤ b ∧ b + n ≤ a + total ts :=
  placed_bounds (mem_used.1 hb)

theorem used_pairwise (a : Nat) (ts : List Tile) :
    (used a ts).Pairwise fun x y => x.1 + x.2 ≤ y.1 := by
  induction ts generalizing a with
  | nil => exact List.Pairwise.nil
  | cons t ts ih =>
    obtain ⟨n, f⟩ := t
    cases f with
    | true => exact ih _
    | false => exact List.Pairwise.cons (fun y hy => (used_bounds hy).1) (ih _)

/-! ## What is recorded of the tiles -/

section

variable {β : Type*} {f : Tile → β} {tag tag' : Nat → β}

@[simp] theorem recorded_nil : Recorded f tag a [] := nofun

@[simp] theorem recorded_cons :
    Recorded f tag a (t :: ts) ↔ tag a = f t ∧ Recorded f tag (a + t.size) ts :=
  forall_mem_cons

@[simp] theorem recorded_append :
    Recorded f tag a (ts ++ us) ↔ Recorded f tag a ts ∧ Recorded f tag (a + total ts) us := by
  unfold Recorded
  rw [placed_append]
  exact List.forall_mem_append

@[simp] theorem bordered_nil : Bordered f tag a [] := nofun

@[simp] theorem bordered_cons :
    Bordered f tag a (t :: ts) ↔
      (tag a = f t ∧ tag (a + t.size - 1) = f t) ∧ Bordered f tag (a + t.size) ts :=
  forall_mem_cons

@[simp] theorem bordered_append :
    Bordered f tag a (ts ++ us) ↔ Bordered f tag a ts ∧ Bordered f tag (a + total ts) us := by
  unfold Bordered
  rw [placed_append]
  exact List.forall_mem_append

end

/-! ## Compact tilings -/

theorem not_startsFree_of_freeStarts (h : freeStarts a ts = []) : ¬ StartsFree ts := by
  rintro ⟨t, ht, hfree⟩
  obtain ⟨us, rfl⟩ := head?_eq_some_iff.1 ht
  obtain ⟨n, f⟩ := t
  obtain rfl : f = true := hfree
  cases h

theorem not_endsFree_of_freeStarts (h : freeStarts a ts = []) : ¬ EndsFree ts := by
  rintro ⟨t, ht, hfree⟩
  obtain ⟨us, rfl⟩ := getLast?_eq_some_iff.1 ht
  obtain ⟨n, f⟩ := t
  obtain rfl : f = true := hfree
  simp at h

@[simp] theorem not_startsFree_nil : ¬ StartsFree [] := by simp [StartsFree]

@[simp] theorem startsFree_cons : StartsFree (t :: ts) ↔ t.free = true := by simp [StartsFree]

@[simp] theorem not_endsFree_nil : ¬ EndsFree [] := by simp [EndsFree]

@[simp] theorem endsFree_concat : EndsFree (ts ++ [t]) ↔ t.free = true := by simp [EndsFree]

theorem Compact.nil : Compact [] := ⟨nofun, isChain_nil⟩

theorem compact_cons : Compact (t :: ts) ↔ 0 < t.size ∧ Compact ts ∧ (t.free = true → ¬ StartsFree ts) := by
  constructor
  · rintro ⟨hpos, happart⟩
    refine ⟨hpos t mem_cons_self, ⟨fun u hu => hpos u (mem_cons_of_mem _ hu), happart.tail⟩, ?_⟩
    rintro ht ⟨u, hu, hfree⟩
    exact (isChain_cons.1 happart).1 u hu ⟨ht, hfree⟩
  · rintro ⟨ht, ⟨hpos, happart⟩, hfree⟩
    refine ⟨?_, isChain_cons.2 ⟨?_, happart⟩⟩
    · intro u hu
      rcases mem_cons.1 hu with rfl | hu
      · exact ht
      · exact hpos u hu
    · rintro u hu ⟨h1, h2⟩
      exact hfree h1 ⟨u, hu, h2⟩

theorem compact_append :
    Compact (ts ++ us) ↔ Compact ts ∧ Compact us ∧ (EndsFree ts → ¬ StartsFree us) := by
  constructor
  · rintro ⟨hpos, happart⟩
    obtain ⟨h1, h2, h3⟩ := isChain_append.1 happart
    refine ⟨⟨fun t ht => hpos t (mem_append_left _ ht), h1⟩,
      ⟨fun t ht => hpos t (mem_append_right _ ht), h2⟩, ?_⟩
    rintro ⟨t, ht, htfree⟩ ⟨u, hu, hufree⟩
    exact h3 t ht u hu ⟨htfree, hufree⟩
  · rintro ⟨⟨hpos, happart⟩, ⟨hpos', happart'⟩, hfree⟩
    refine ⟨?_, isChain_append.2 ⟨happart, happart', ?_⟩⟩
    · intro t ht
      rcases mem_append.1 ht with ht | ht
      · exact hpos t ht
      · exact hpos' t ht
    · rintro t ht u hu ⟨h1, h2⟩
      exact hfree ⟨t, ht, h1⟩ ⟨u, hu, h2⟩

theorem compact_mid_used :
    Compact (pre ++ ⟨n, false⟩ :: post) ↔ Compact pre ∧ 0 < n ∧ Compact post := by
  simp [compact_append, compact_cons]

theorem compact_mid_free :
    Compact (pre ++ ⟨n, true⟩ :: post) ↔
      Compact pre ∧ ¬ EndsFree pre ∧ 0 < n ∧ Compact post ∧ ¬ StartsFree post := by
  simp only [compact_append, compact_cons, startsFree_cons]
  tauto

theorem Compact.end_inj (h : Compact ts) (hp : p ∈ placed a ts) (hq : q ∈ placed a ts)
    (heq : p.1 + p.2.size = q.1 + q.2.size) : p = q := by
  have h1 := h.pos _ (mem_of_mem_placed hp)
  have h2 := h.pos _ (mem_of_mem_placed hq)
  rcases placed_apart hp hq with h | h | h
  · exact h
  · omega
  · omega

theorem Compact.freeStarts_lt (h : Compact ts) (hb : b ∈ freeStarts a ts) : b < a + total ts := by
  obtain ⟨n, hb⟩ := mem_freeStarts.1 hb
  have hpos := h.pos _ (mem_of_mem_placed hb)
  have := placed_bounds hb
  dsimp only at this hpos
  omega

theorem Compact.freeStarts_sorted (h : Compact ts) (a : Nat) : (freeStarts a ts).Pairwise (· < ·) := by
  induction ts generalizing a with
  | nil => exact List.Pairwise.nil
  | cons t ts ih =>
    obtain ⟨n, f⟩ := t
    obtain ⟨hpos, hts, -⟩ := compact_cons.1 h
    dsimp only at hpos
    cases f with
    | false => exact ih hts _
    | true =>
      refine List.Pairwise.cons ?_ (ih hts _)
      intro b hb
      have := (freeStarts_bounds hb).1
      dsimp only at this
      omega

theorem Compact.length_le (h : Compact ts) : ts.length ≤ total ts := by
  induction ts with
  | nil => exact Nat.le_refl _
  | cons t ts ih =>
    obtain ⟨hpos, hts, -⟩ := compact_cons.1 h
    have hle := ih hts
    rw [total_cons, length_cons]
    omega

theorem Compact.freeStarts_length_le (h : Compact ts) (a : Nat) : (freeStarts a ts).length ≤ total ts := by
  have hplaced : (placed a ts).length = ts.length := by
    clear h
    induction ts generalizing a with
    | nil => rfl
    | cons t ts ih => rw [placed_cons, length_cons, ih, length_cons]
  calc (freeStarts a ts).length ≤ (placed a ts).length := by
        rw [freeStarts, length_map]
        exact length_filter_le ..
    _ = ts.length := hplaced
    _ ≤ total ts := h.length_le

theorem Compact.filter_used (h : Compact (pre ++ ⟨n, false⟩ :: post)) :
    ((used 0 (pre ++ ⟨n, false⟩ :: post)).filter fun b => b.1 ≠ total pre) =
      used 0 pre ++ used (total pre + n) post := by
  obtain ⟨hpre, hn, -⟩ := compact_mid_used.1 h
  have h1 : ((used 0 pre).filter fun b => b.1 ≠ total pre) = used 0 pre := by
    apply filter_eq_self.2
    rintro ⟨b, k⟩ hb
    have hpos := hpre.pos _ (mem_of_mem_placed (mem_used.1 hb))
    have := (used_bounds hb).2
    dsimp only at hpos ⊢
    exact decide_eq_true (by omega)
  have h2 : ((used (total pre + n) post).filter fun b => b.1 ≠ total pre) = used (total pre + n) post := by
    apply filter_eq_self.2
    rintro ⟨b, k⟩ hb
    have := (used_bounds hb).1
    dsimp only
    exact decide_eq_true (by omega)
  rw [used_append, Nat.zero_add, used_used, filter_append, filter_cons, h1, h2]
  simp

theorem Compact.recorded_congr {β : Type*} {f : Tile → β} {tag tag' : Nat → β} (h : Compact ts)
    (hrec : Recorded f tag a ts) (heq : ∀ b, a ≤ b → b < a + total ts → tag' b = tag b) :
    Recorded f tag' a ts := by
  intro p hp
  have hpos := h.pos _ (mem_of_mem_placed hp)
  obtain ⟨h1, h2⟩ := placed_bounds hp
  rw [heq p.1 h1 (by omega)]
  exact hrec p hp

theorem Compact.recorded_put {β : Type*} {f : Tile → β} {tag : Nat → β} {t : Tile} {v : β} (hpre : Compact pre)
    (hpost : Compact post) (hv : f t = v) (ht : 0 < t.size) (hrecpre : Recorded f tag 0 pre)
    (hrecpost : Recorded f tag (total pre + t.size) post) :
    Recorded f (Function.update tag (total pre) v) 0 (pre ++ t :: post) := by
  simp only [recorded_append, recorded_cons, Nat.zero_add]
  refine ⟨hpre.recorded_congr hrecpre ?_, hv ▸ Function.update_self .., hpost.recorded_congr hrecpost ?_⟩
  · intro b _ hb
    rw [Function.update_of_ne (by omega)]
  · intro b hb _
    rw [Function.update_of_ne (by omega)]

theorem Compact.bordered_congr {β : Type*} {f : Tile → β} {tag tag' : Nat → β} (h : Compact ts)
    (hbord : Bordered f tag a ts) (heq : ∀ b, a ≤ b → b < a + total ts → tag' b = tag b) :
    Bordered f tag' a ts := by
  intro p hp
  have hpos := h.pos _ (mem_of_mem_placed hp)
  obtain ⟨h1, h2⟩ := placed_bounds hp
  rw [heq p.1 h1 (by omega), heq (p.1 + p.2.size - 1) (by omega) (by omega)]
  exact hbord p hp

theorem Compact.exists_free_of_gap (h : Compact ts) (hn : 0 < n) (hb : a ≤ b) (hend : b + n ≤ a + total ts)
    (hgap : ∀ c m, (c, m) ∈ used a ts → b + n ≤ c ∨ c + m ≤ b) :
    ∃ c m, (c, ⟨m, true⟩) ∈ placed a ts ∧ n ≤ m := by
  induction ts generalizing a with
  | nil =>
    rw [total_nil] at hend
    omega
  | cons t ts ih =>
    obtain ⟨m, f⟩ := t
    obtain ⟨hpos, hts, hfree⟩ := compact_cons.1 h
    dsimp only at hpos hfree
    rw [total_cons] at hend
    dsimp only at hend
    rcases Nat.lt_or_ge b (a + m) with hlt | hge
    · -- the gap starts in the first tile, so this one is free
      cases f with
      | false =>
        have := hgap a m mem_cons_self
        omega
      | true =>
        refine ⟨a, m, mem_cons_self, ?_⟩
        -- and the next one, which is in use, is behind the gap
        cases ts with
        | nil =>
          rw [total_nil] at hend
          omega
        | cons u us =>
          obtain ⟨k, g⟩ := u
          cases g with
          | true => exact absurd (startsFree_cons.2 rfl) (hfree rfl)
          | false =>
            have hk := (compact_cons.1 hts).1
            have := hgap (a + m) k mem_cons_self
            dsimp only at hk
            rw [total_cons] at hend
            omega
    · have hgap' : ∀ c k, (c, k) ∈ used (a + m) ts → b + n ≤ c ∨ c + k ≤ b := by
        intro c k hmem
        apply hgap
        cases f with
        | false => exact mem_cons_of_mem _ hmem
        | true => exact hmem
      obtain ⟨c, k, hmem, hk⟩ := ih hts hge (by omega) hgap'
      exact ⟨c, k, mem_cons_of_mem _ hmem, hk⟩

end Tile

end Lib
