import Mathlib.Logic.Basic

/-!
# Codecs

A codec writes a value as bytes and reads it back from the front of whatever follows. Values that
are written one after the other are read back one after the other.
-/

namespace Lib

/-- An encoder and a decoder that undoes it and leaves what follows. -/
structure Codec (β α : Type*) where
  enc : α → List β
  dec : List β → Option (α × List β)
  dec_enc : ∀ a rest, dec (enc a ++ rest) = some (a, rest)

variable {β α : Type*}

/-- Reads `n` values. -/
def decList (dec : List β → Option (α × List β)) : Nat → List β → Option (List α × List β)
  | 0, buf => some ([], buf)
  | n + 1, buf => do
    let (a, buf) ← dec buf
    let (as, buf) ← decList dec n buf
    return (a :: as, buf)

theorem decList_flatMap {enc : α → List β} {dec : List β → Option (α × List β)} {f : α → α}
    (h : ∀ a rest, dec (enc a ++ rest) = some (f a, rest)) (l : List α) (rest : List β) :
    decList dec l.length (l.flatMap enc ++ rest) = some (l.map f, rest) := by
  induction l with
  | nil => rfl
  | cons a l ih =>
    rw [List.flatMap_cons, List.append_assoc, List.length_cons]
    simp only [decList, h, Option.bind_eq_bind, Option.bind_some, ih]
    rfl

theorem Codec.decList_enc (c : Codec β α) (l : List α) (rest : List β) :
    decList c.dec l.length (l.flatMap c.enc ++ rest) = some (l, rest) := by
  have := decList_flatMap (f := id) c.dec_enc l rest
  rwa [List.map_id] at this

end Lib
