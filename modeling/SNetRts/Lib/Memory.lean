import Mathlib.Data.List.GetD
import Mathlib.Data.Nat.Digits.Defs
import Mathlib.Data.UInt
import Mathlib.Logic.Function.Basic
import Mathlib.Tactic.Ring

/-!
# Bytes in memory

Memory is a function from addresses to bytes. Strings of bytes are read from it and written to it; numbers
are held least significant byte first.
-/

namespace Lib

open List

/-- The `n` bytes from address zero on. -/
def bytesAt (mem : Nat → UInt8) (n : Nat) : List UInt8 := (List.range n).map mem

/-- Memory after a string has been written at `j`. -/
def place : List UInt8 → Nat → (Nat → UInt8) → Nat → UInt8
  | [], _, mem => mem
  | x :: rest, j, mem => place rest (j + 1) (Function.update mem j x)

/-- The lowest `w` bytes of a number. -/
def leBytes (w n : Nat) : List UInt8 := (List.range w).map fun k => UInt8.ofNat (n / 256 ^ k)

def ofLeBytes (s : List UInt8) : Nat := Nat.ofDigits 256 (s.map UInt8.toNat)

namespace Memory

variable {s : List UInt8} {j k n : Nat}

theorem place_of_lt (hk : k < j) (mem : Nat → UInt8) : place s j mem k = mem k := by
  induction s generalizing j mem with
  | nil => rfl
  | cons x s ih =>
    rw [place, ih (Nat.lt_succ_of_lt hk), Function.update_of_ne (Nat.ne_of_lt hk)]

theorem place_of_ge (hk : j + s.length ≤ k) (mem : Nat → UInt8) : place s j mem k = mem k := by
  induction s generalizing j mem with
  | nil => rfl
  | cons x s ih =>
    rw [length_cons] at hk
    rw [place, ih (by omega), Function.update_of_ne (by omega)]

theorem place_getD (hk : k < s.length) (j : Nat) (mem : Nat → UInt8) :
    place s j mem (j + k) = s.getD k 0 := by
  induction s generalizing j k mem with
  | nil => cases hk
  | cons x s ih =>
    rw [length_cons] at hk
    rw [place]
    cases k with
    | zero => rw [Nat.add_zero j, place_of_lt (Nat.lt_add_one j), Function.update_self, getD_cons_zero]
    | succ k => rw [show j + (k + 1) = j + 1 + k by omega, ih (by omega), getD_cons_succ]

theorem length_bytesAt (src : Nat → UInt8) (n : Nat) : (bytesAt src n).length = n := by
  rw [bytesAt, length_map, length_range]

theorem getD_bytesAt (hk : k < n) (src : Nat → UInt8) : (bytesAt src n).getD k 0 = src k := by
  rw [bytesAt, getD_eq_getElem _ _ (by rwa [length_map, length_range]), getElem_map,
    getElem_range]

theorem bytesAt_getD (s : List UInt8) : bytesAt (s.getD · 0) s.length = s := by
  apply ext_getElem (length_bytesAt _ _)
  intro k hk _
  rw [← getD_eq_getElem _ 0, getD_bytesAt (by rwa [length_bytesAt] at hk), getD_eq_getElem]

theorem bytesAt_place (s : List UInt8) (mem : Nat → UInt8) : bytesAt (place s 0 mem) s.length = s := by
  apply ext_getElem (length_bytesAt _ _)
  intro k hk hk'
  rw [← getD_eq_getElem _ 0, getD_bytesAt (by rwa [length_bytesAt] at hk), ← getD_eq_getElem s 0,
    ← place_getD hk' 0 mem, Nat.zero_add]

theorem bytesAt_add (mem : Nat → UInt8) (v w : Nat) :
    bytesAt mem (v + w) = bytesAt mem v ++ bytesAt (fun k => mem (v + k)) w := by
  rw [bytesAt, range_add, map_append, map_map]
  rfl

theorem place_append (s t : List UInt8) (j : Nat) (mem : Nat → UInt8) :
    place (s ++ t) j mem = place t (j + s.length) (place s j mem) := by
  induction s generalizing j mem with
  | nil => rfl
  | cons x s ih =>
    rw [cons_append, place, ih, place, length_cons, Nat.add_assoc, Nat.add_comm 1]

theorem bytesAt_place_add (s : List UInt8) (w : Nat) (mem : Nat → UInt8) :
    bytesAt (place s 0 mem) (s.length + w) = s ++ bytesAt (fun k => mem (s.length + k)) w := by
  rw [bytesAt_add, bytesAt_place]
  apply congrArg
  apply map_congr_left
  intro k _
  exact place_of_ge (Nat.zero_add _ ▸ Nat.le_add_right _ _) mem

theorem length_leBytes (w n : Nat) : (leBytes w n).length = w := by
  rw [leBytes, length_map, length_range]

theorem ofLeBytes_append (s t : List UInt8) : ofLeBytes (s ++ t) = ofLeBytes s + 256 ^ s.length * ofLeBytes t := by
  rw [ofLeBytes, map_append, Nat.ofDigits_append, length_map]
  rfl

theorem ofLeBytes_leBytes (w n : Nat) : ofLeBytes (leBytes w n) = n % 256 ^ w := by
  induction w with
  | zero => exact (Nat.mod_one n).symm
  | succ w ih =>
    have hsucc : leBytes (w + 1) n = leBytes w n ++ [UInt8.ofNat (n / 256 ^ w)] := by
      rw [leBytes, range_succ, map_append]
      rfl
    rw [hsucc, ofLeBytes_append, ih, length_leBytes, Nat.mod_pow_succ, ofLeBytes, map_singleton,
      Nat.ofDigits_singleton, UInt8.toNat_ofNat']

theorem ofLeBytes_lt (s : List UInt8) : ofLeBytes s < 256 ^ s.length := by
  have hlt := Nat.ofDigits_lt_base_pow_length (b := 256) (l := s.map UInt8.toNat) (by decide) (by
    intro x hx
    obtain ⟨c, -, rfl⟩ := List.mem_map.1 hx
    exact c.toNat_lt)
  rwa [length_map] at hlt

theorem leBytes_ofLeBytes (s : List UInt8) : leBytes s.length (ofLeBytes s) = s := by
  induction s using List.reverseRecOn with
  | nil => rfl
  | append_singleton s c ih =>
    have hlt := ofLeBytes_lt s
    have hlow : leBytes s.length (ofLeBytes (s ++ [c])) = leBytes s.length (ofLeBytes s) := by
      apply map_congr_left
      intro k hk
      obtain ⟨d, hd⟩ := Nat.exists_eq_add_of_lt (mem_range.1 hk)
      apply UInt8.toNat_inj.1
      rw [UInt8.toNat_ofNat', UInt8.toNat_ofNat', ofLeBytes_append, hd,
        show 256 ^ (k + d + 1) * ofLeBytes [c] = 256 ^ k * (256 * (256 ^ d * ofLeBytes [c])) by ring,
        Nat.add_mul_div_left _ _ (Nat.pow_pos (by decide)), Nat.add_mul_mod_self_left]
    have hlast : ofLeBytes [c] = c.toNat := Nat.ofDigits_singleton
    rw [length_append, length_singleton, leBytes, range_succ, map_append, ← leBytes, hlow, ih,
      map_singleton, ofLeBytes_append, Nat.add_mul_div_left _ _ (Nat.pow_pos (by decide)),
      Nat.div_eq_of_lt hlt, Nat.zero_add, hlast, UInt8.ofNat_toNat]

theorem getD_leBytes {v w k : Nat} (n : Nat) (hk : k < w) :
    (leBytes (v + w) n).getD (v + k) 0 = (leBytes w (n / 256 ^ v)).getD k 0 := by
  have hlt : v + k < v + w := Nat.add_lt_add_left hk v
  simp only [leBytes, getD_eq_getElem?_getD, getElem?_map, getElem?_range hlt,
    getElem?_range hk, Option.map_some, Option.getD_some, Nat.pow_add, Nat.div_div_eq_div_mul]

end Memory

end Lib
