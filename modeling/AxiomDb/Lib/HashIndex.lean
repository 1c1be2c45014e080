import Mathlib.Data.List.Basic

/-!
# Positions by key

A hash table that holds, for each key of a list of rows, the positions of the rows with
that key, in their order. Rows may have no key, and are then not in the table. The table
is the list of its buckets; what is looked up does not depend on their order.
-/

namespace AxiomDb.Lib

open List

variable {κ β : Type} [DecidableEq κ]

/-- Keys with the positions of their rows. -/
abbrev HashIndex (κ : Type) := List (κ × List Nat)

namespace HashIndex

def get (k : κ) : HashIndex κ → Option (List Nat)
  | [] => none
  | (k', is) :: t => if k' = k then some is else get k t

/-- `entry(k).or_default().push(i)` -/
def push (k : κ) (i : Nat) : HashIndex κ → HashIndex κ
  | [] => [(k, [i])]
  | (k', is) :: t => if k' = k then (k', is ++ [i]) :: t else (k', is) :: push k i t

theorem get_push (k k' : κ) (i : Nat) (t : HashIndex κ) :
    get k' (push k i t) = if k = k' then some ((get k t).getD [] ++ [i]) else get k' t := by
  induction t with
  | nil =>
    by_cases h : k = k'
    · subst h; simp [push, get]
    · simp [push, get, h]
  | cons b t ih =>
    obtain ⟨kb, is⟩ := b
    rw [push]
    by_cases hb : kb = k
    · subst hb
      by_cases h : kb = k'
      · subst h; simp [get]
      · simp [get, h]
    · rw [if_neg hb, get, get, ih, get, if_neg hb]
      by_cases h : kb = k'
      · subst h; rw [if_pos rfl, if_pos rfl, if_neg (Ne.symm hb)]
      · rw [if_neg h, if_neg h]

/-- The rows from position `i` on, put into a table. -/
def buildFrom (key : β → Option κ) : Nat → List β → HashIndex κ → HashIndex κ
  | _, [], t => t
  | i, r :: rows, t => buildFrom key (i + 1) rows (match key r with
    | some k => push k i t
    | none => t)

def build (key : β → Option κ) (rows : List β) : HashIndex κ := buildFrom key 0 rows []

/-- The positions of the rows with a key, the first row being at `i`. -/
def positions (key : β → Option κ) (k : κ) (i : Nat) (rows : List β) : List Nat :=
  ((rows.zipIdx i).filter fun p => key p.1 = some k).map Prod.snd

section

variable (key : β → Option κ)
include key

theorem positions_cons (k : κ) (i : Nat) (r : β) (rows : List β) : positions key k i (r :: rows) =
      if key r = some k then i :: positions key k (i + 1) rows else positions key k (i + 1) rows := by
  rw [positions, zipIdx_cons, filter_cons]
  by_cases h : key r = some k
  · rw [if_pos (decide_eq_true h), if_pos h]
    rfl
  · rw [if_neg (by simp [h]), if_neg h]
    rfl

theorem get_buildFrom (k : κ) (i : Nat) (rows : List β) (t : HashIndex κ) :
    get k (buildFrom key i rows t) = if positions key k i rows = [] then get k t
      else some ((get k t).getD [] ++ positions key k i rows) := by
  induction rows generalizing i t with
  | nil => rfl
  | cons r rows ih =>
    rw [buildFrom, ih, positions_cons]
    rcases hr : key r with _ | k'
    · rw [if_neg (show ¬(none = some k) by simp)]
    dsimp only
    rw [get_push]
    by_cases hk : k' = k
    · subst hk
      rw [if_pos rfl, if_pos rfl, Option.getD_some, append_assoc, singleton_append,
        if_neg (cons_ne_nil _ _)]
      split
      next h => rw [h]
      · rfl
    · rw [if_neg hk, if_neg (show ¬(some k' = some k) by simpa using hk)]

variable (k : κ) (rows : List β)

/-- A lookup finds the positions of the rows with the key, and nothing if there are none. -/
theorem get_build : get k (build key rows) =
      if positions key k 0 rows = [] then none else some (positions key k 0 rows) := by
  rw [build, get_buildFrom]
  rfl

theorem map_getD_positions (d : β) :
    (positions key k 0 rows).map (fun i => rows.getD i d) = rows.filter fun r => key r = some k := by
  have hget : ∀ p ∈ rows.zipIdx 0, rows.getD p.2 d = p.1 := by
    rintro ⟨r, i⟩ hp
    have := mem_zipIdx_iff_getElem?.1 hp
    rw [getD_eq_getElem?_getD, this]
    rfl
  rw [positions, map_map]
  calc ((rows.zipIdx 0).filter fun p => key p.1 = some k).map ((fun i => rows.getD i d) ∘ Prod.snd)
      = ((rows.zipIdx 0).filter fun p => key p.1 = some k).map Prod.fst :=
        map_congr_left fun p hp => hget p (mem_of_mem_filter hp)
    _ = ((rows.zipIdx 0).map Prod.fst).filter fun r => key r = some k := by
        rw [filter_map]
        rfl
    _ = rows.filter fun r => key r = some k := by rw [zipIdx_map_fst]

theorem mem_positions (i : Nat) :
    i ∈ positions key k 0 rows ↔ ∃ r, rows[i]? = some r ∧ key r = some k := by
  rw [positions, mem_map]
  constructor
  · rintro ⟨⟨r, j⟩, hp, rfl⟩
    obtain ⟨hmem, hkey⟩ := mem_filter.1 hp
    exact ⟨r, mem_zipIdx_iff_getElem?.1 hmem, of_decide_eq_true hkey⟩
  · rintro ⟨r, hr, hkey⟩
    exact ⟨(r, i), mem_filter.2 ⟨mem_zipIdx_iff_getElem?.2 hr, decide_eq_true hkey⟩, rfl⟩

theorem positions_eq_nil_iff : positions key k 0 rows = [] ↔ ∀ r ∈ rows, key r ≠ some k := by
  rw [eq_nil_iff_forall_not_mem]
  constructor
  · intro h r hr hkey
    obtain ⟨i, hi⟩ := List.getElem?_of_mem hr
    exact h i ((mem_positions key k rows i).2 ⟨r, hi, hkey⟩)
  · intro h i hi
    obtain ⟨r, hr, hkey⟩ := (mem_positions key k rows i).1 hi
    exact h r (mem_of_getElem? hr) hkey

end

end HashIndex

end AxiomDb.Lib
