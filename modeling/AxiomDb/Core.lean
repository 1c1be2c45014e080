import AxiomDb.Lib.Store

/-!
# Common types

Keys, record identifiers and the ways in which a call ends other than by
returning: an error of the engine's own (`DbError`), an index outside of an
array, or a loop that takes more steps than it was given.
-/

namespace AxiomDb

open Lib

abbrev Byte := Fin 256

instance instNeZeroByte : NeZero 256 := ⟨by decide⟩

/-- Keys and row payloads are byte strings, compared lexicographically. -/
abbrev Bytes := List Byte

/-- A heap row's address. -/
structure RecordId where
  pageId : PageId
  slotId : Nat
  deriving DecidableEq, Inhabited, Repr

/-- The errors the modelled operations return. -/
inductive DbError where
  | duplicateKey
  | keyTooLong (len max : Nat)
  | pageNotFound (pageId : PageId)
  | heapPageFull (pageId : PageId) (needed available : Nat)
  | invalidSlot (pageId : PageId) (slotId numSlots : Nat)
  | alreadyDeleted (pageId : PageId) (slotId : Nat)
  /-- `Internal`, of `restore_tuple_image`. -/
  | imageDoesNotFit (pageId : PageId) (slotId len capacity : Nat)
  deriving DecidableEq, Repr

/-- Why a call did not return: `Err`, a panic, or too little fuel for a loop. -/
inductive Stop where
  | err (e : DbError)
  | panic
  | outOfFuel
  deriving DecidableEq, Repr

/-- An access that panics where it is out of bounds. -/
def checked {σ α : Type} : Option α → EStateM Stop σ α
  | some a => pure a
  | none => throw .panic

theorem wp_checked {σ α β : Type} {s : σ} {o : Option α} {a : α} {f : α → EStateM Stop σ β}
    {R : β → σ → Prop} (ho : o = some a) (h : WP (f a) s R) : WP (checked o >>= f) s R := by
  subst ho
  exact WP.bind_ok rfl h

namespace Bytes

variable {a b : Bytes}

theorem cmp_lt (h : a < b) : cmp a b = .lt := by simp [cmp, cmpUsing, h]

theorem cmp_gt (h : b < a) : cmp a b = .gt := by simp [cmp, cmpUsing, h, lt_asymm h]

theorem cmp_self : cmp a a = .eq := by simp [cmp, cmpUsing]

end Bytes

end AxiomDb
