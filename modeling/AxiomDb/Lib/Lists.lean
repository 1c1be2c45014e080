import Mathlib

/-!
# Editing a list at the end of a part

Insertion and removal at an index, where the list is given as two parts and the
index is the length of the first.
-/

namespace AxiomDb.Lib

open List

variable {α : Type} (a b : List α) (x y : α)

theorem insertIdx_append_length : (a ++ b).insertIdx a.length x = a ++ x :: b := by
  induction a with
  | nil => rfl
  | cons z a ih => exact congrArg (z :: ·) ih

theorem insertIdx_append_length_succ :
    (a ++ y :: b).insertIdx (a.length + 1) x = a ++ y :: x :: b := by
  simpa using insertIdx_append_length (a ++ [y]) b x

theorem eraseIdx_append_length : (a ++ y :: b).eraseIdx a.length = a ++ b := by
  rw [eraseIdx_append_of_length_le (Nat.le_refl _), Nat.sub_self]
  rfl

theorem eraseIdx_append_length_succ : (a ++ x :: y :: b).eraseIdx (a.length + 1) = a ++ x :: b := by
  simpa using eraseIdx_append_length (a ++ [x]) b y

/-- A run of the list is taken to the front. -/
theorem perm_append_middle [DecidableEq α] (w : List α) : (a ++ w ++ b).Perm (w ++ (a ++ b)) :=
  perm_iff_count.mpr fun x => by simp only [count_append]; omega

/-- A predicate that holds of the first elements only. -/
theorem takeWhile_eq_filter {p : α → Bool} {l : List α}
    (h : l.Pairwise fun x y => p y → p x) : l.takeWhile p = l.filter p := by
  induction l with
  | nil => rfl
  | cons a l ih =>
    obtain ⟨ha, hl⟩ := pairwise_cons.mp h
    by_cases hp : p a
    · rw [takeWhile_cons_of_pos hp, filter_cons_of_pos hp, ih hl]
    · rw [takeWhile_cons_of_neg hp, filter_cons_of_neg hp, eq_comm, filter_eq_nil_iff]
      exact fun b hb hpb => hp (ha b hb hpb)

end AxiomDb.Lib
