import Mathlib.Data.Finmap

/-!
# Lists of bindings as finite maps

A list of bindings whose keys are distinct stands for a finite map, whatever its order. What a change of
one binding in the middle of the list does to the map follows from moving that binding to the front.
`swapErase` drops an element by putting the last one in its place.
-/

namespace Lib

open List

section Bindings

variable {κ : Type*} {β : κ → Type*} {pre post l l' : List (Sigma β)} {k : κ} {v : β k}

theorem notMem_keys_of_middle (h : (pre ++ ⟨k, v⟩ :: post).NodupKeys) : k ∉ (pre ++ post).keys :=
  (nodupKeys_cons.1 (nodupKeys_middle.1 h)).1

theorem nodupKeys_of_middle (h : (pre ++ ⟨k, v⟩ :: post).NodupKeys) : (pre ++ post).NodupKeys :=
  (nodupKeys_cons.1 (nodupKeys_middle.1 h)).2

theorem nodupKeys_rename_iff {k' : κ} {w : β k'} (h : (pre ++ ⟨k, v⟩ :: post).NodupKeys) :
    (pre ++ ⟨k', w⟩ :: post).NodupKeys ↔ k' ∈ (pre ++ ⟨k, v⟩ :: post).keys → k' = k := by
  have hkeys : k' ∈ (pre ++ ⟨k, v⟩ :: post).keys ↔ k' = k ∨ k' ∈ (pre ++ post).keys := by
    rw [← mem_cons, ← keys_cons (s := ⟨k, v⟩)]
    exact (perm_middle.map _).mem_iff
  rw [nodupKeys_middle, nodupKeys_cons, hkeys]
  constructor
  · rintro ⟨hnot, -⟩ (rfl | hin)
    · rfl
    · exact absurd hin hnot
  · intro himp
    refine ⟨?_, nodupKeys_of_middle h⟩
    intro hin
    obtain rfl := himp (.inr hin)
    exact notMem_keys_of_middle h hin

variable [DecidableEq κ]

theorem toFinmap_perm (h : l.NodupKeys) (hp : l.Perm l') : l.toFinmap = l'.toFinmap := by
  apply Finmap.ext_lookup
  intro x
  rw [Finmap.dlookup_list_toFinmap, Finmap.dlookup_list_toFinmap]
  exact perm_dlookup x h hp

theorem lookup_toFinmap_eq_some (h : l.NodupKeys) : l.toFinmap.lookup k = some v ↔ ⟨k, v⟩ ∈ l := by
  rw [Finmap.dlookup_list_toFinmap]
  exact mem_dlookup_iff h

theorem mem_toFinmap_iff : k ∈ l.toFinmap ↔ k ∈ l.keys := by
  rw [Finmap.mem_list_toFinmap, List.mem_keys]

theorem toFinmap_middle (h : (pre ++ ⟨k, v⟩ :: post).NodupKeys) :
    (pre ++ ⟨k, v⟩ :: post).toFinmap = (pre ++ post).toFinmap.insert k v := by
  rw [toFinmap_perm h perm_middle, Finmap.toFinmap_cons]

theorem toFinmap_concat (h : (l ++ [Sigma.mk k v]).NodupKeys) :
    (l ++ [Sigma.mk k v]).toFinmap = l.toFinmap.insert k v := by
  rw [toFinmap_middle h, append_nil]

theorem lookup_middle (h : (pre ++ ⟨k, v⟩ :: post).NodupKeys) :
    (pre ++ ⟨k, v⟩ :: post).toFinmap.lookup k = some v := by
  rw [toFinmap_middle h, Finmap.lookup_insert]

theorem erase_insert {s : Finmap β} (h : k ∉ s) : (s.insert k v).erase k = s := by
  apply Finmap.ext_lookup
  intro x
  by_cases hx : x = k
  · subst hx
    rw [Finmap.lookup_erase, Finmap.lookup_eq_none.2 h]
  · rw [Finmap.lookup_erase_ne hx, Finmap.lookup_insert_of_ne _ hx]

theorem erase_middle (h : (pre ++ ⟨k, v⟩ :: post).NodupKeys) :
    (pre ++ ⟨k, v⟩ :: post).toFinmap.erase k = (pre ++ post).toFinmap := by
  rw [toFinmap_middle h]
  apply erase_insert
  rw [mem_toFinmap_iff]
  exact notMem_keys_of_middle h

theorem toFinmap_replace {w : β k} (h : (pre ++ ⟨k, v⟩ :: post).NodupKeys) :
    (pre ++ ⟨k, w⟩ :: post).NodupKeys ∧
      (pre ++ ⟨k, w⟩ :: post).toFinmap = (pre ++ ⟨k, v⟩ :: post).toFinmap.insert k w := by
  have hw : (pre ++ ⟨k, w⟩ :: post).NodupKeys :=
    nodupKeys_middle.2 (nodupKeys_cons.2 ⟨notMem_keys_of_middle h, nodupKeys_of_middle h⟩)
  refine ⟨hw, ?_⟩
  rw [toFinmap_middle hw, toFinmap_middle h, Finmap.insert_insert]

end Bindings

section SwapErase

variable {α : Type*} {pre post : List α} {x y : α}

/-- The last element takes the place of the `i`-th. -/
def swapErase (l : List α) (i : Nat) : List α :=
  match l.getLast? with
  | none => []
  | some x => l.dropLast.set i x

theorem swapErase_concat_self : swapErase (pre ++ [x]) pre.length = pre := by
  rw [swapErase, getLast?_concat]
  simp only [dropLast_concat]
  exact set_eq_of_length_le (Nat.le_refl _)

theorem swapErase_middle :
    swapErase (pre ++ x :: (post ++ [y])) pre.length = pre ++ y :: post := by
  have hassoc : pre ++ x :: (post ++ [y]) = (pre ++ x :: post) ++ [y] := by simp
  rw [hassoc, swapErase, getLast?_concat]
  simp only [dropLast_concat]
  rw [set_append_right _ _ (Nat.le_refl _), Nat.sub_self, set_cons_zero]

theorem swapErase_perm : (swapErase (pre ++ x :: post) pre.length).Perm (pre ++ post) := by
  rcases eq_nil_or_concat post with rfl | ⟨post, y, rfl⟩
  · rw [swapErase_concat_self, append_nil]
  · rw [concat_eq_append, swapErase_middle]
    apply List.Perm.append_left
    exact (perm_append_singleton y post).symm

theorem getElem?_swapErase {l : List α} {i j : Nat} (hi : i < l.length) (hj : j < l.length - 1) :
    (swapErase l i)[j]? = l[if j = i then l.length - 1 else j]? := by
  have hne : l ≠ [] := by
    rintro rfl
    cases hi
  rw [swapErase, getLast?_eq_some_getLast hne]
  simp only
  rw [getElem?_set, length_dropLast]
  by_cases hji : i = j
  · subst hji
    rw [if_pos rfl, if_pos hj, if_pos rfl, ← getLast?_eq_getElem?,
      getLast?_eq_some_getLast hne]
  · rw [if_neg hji, if_neg (Ne.symm hji), getElem?_dropLast, if_pos hj]

theorem length_swapErase {l : List α} {i : Nat} : (swapErase l i).length = l.length - 1 := by
  rcases hl : l.getLast? with _ | x
  · rw [getLast?_eq_none_iff] at hl
    subst hl
    rfl
  · rw [swapErase, hl]
    simp

end SwapErase

end Lib
