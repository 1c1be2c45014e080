import Mathlib

/-!
# Binary search

The two loops that search an indexed run of sorted keys. `partitionPoint`
finds where a predicate stops holding; `binarySearch` compares with a key and
stops at an equal one. Each halves `[lo, hi)`, so `hi - lo` steps are enough,
and callers start both with the length of the run as their fuel.
-/

namespace AxiomDb.Lib

open List

/-- `while lo < hi`: halve `[lo, hi)` towards the first index where `p` fails. -/
def partitionPoint (p : Nat → Bool) : Nat → Nat → Nat → Nat
  | 0, lo, _ => lo
  | fuel + 1, lo, hi =>
    if lo < hi then
      let mid := lo + (hi - lo) / 2
      if p mid then partitionPoint p fuel (mid + 1) hi else partitionPoint p fuel lo mid
    else lo

/-- `while lo < hi`: compare the middle element; `ok` with the index of an equal
one, `error` with the index where it would be inserted. -/
def binarySearch (cmp : Nat → Ordering) : Nat → Nat → Nat → Except Nat Nat
  | 0, lo, _ => .error lo
  | fuel + 1, lo, hi =>
    if lo < hi then
      let mid := lo + (hi - lo) / 2
      match cmp mid with
      | .lt => binarySearch cmp fuel (mid + 1) hi
      | .gt => binarySearch cmp fuel lo mid
      | .eq => .ok mid
    else .error lo

/-- If `p` holds on `[lo, hi)` exactly below `j`, the loop finds `j`. -/
theorem partitionPoint_eq {p : Nat → Bool} {fuel lo hi j : Nat} (hf : hi - lo ≤ fuel)
    (hlo : lo ≤ j) (hhi : j ≤ hi) (hp : ∀ i, lo ≤ i → i < hi → (p i ↔ i < j)) :
    partitionPoint p fuel lo hi = j := by
  induction fuel generalizing lo hi with
  | zero => simp only [partitionPoint]; omega
  | succ fuel ih =>
    simp only [partitionPoint]
    split
    next hlt =>
      have hm := hp (lo + (hi - lo) / 2) (by omega) (by omega)
      split
      next h =>
        have hj := hm.mp h
        exact ih (by omega) (by omega) hhi fun i h1 h2 => hp i (by omega) h2
      next h =>
        have hj : ¬ lo + (hi - lo) / 2 < j := fun hj => h (hm.mpr hj)
        exact ih (by omega) hlo (by omega) fun i h1 h2 => hp i h1 (by omega)
    next hge => omega

/-- If the elements of `[lo, hi)` below `j` are less and those above are greater,
the loop finds the element at `j`, or its place. -/
theorem binarySearch_eq {cmp : Nat → Ordering} {fuel lo hi j : Nat} (hf : hi - lo ≤ fuel)
    (hlo : lo ≤ j) (hhi : j ≤ hi) (hl : ∀ i, lo ≤ i → i < j → cmp i = .lt)
    (hg : ∀ i, j < i → i < hi → cmp i = .gt) :
    (j < hi → cmp j = .eq → binarySearch cmp fuel lo hi = .ok j) ∧
      ((j < hi → cmp j = .gt) → binarySearch cmp fuel lo hi = .error j) := by
  induction fuel generalizing lo hi with
  | zero => exact ⟨fun _ _ => by omega, fun _ => by simp only [binarySearch]; congr 1; omega⟩
  | succ fuel ih =>
    simp only [binarySearch]
    by_cases hlt : lo < hi
    · rw [if_pos hlt]
      have hm : lo + (hi - lo) / 2 < hi := by omega
      rcases Nat.lt_trichotomy (lo + (hi - lo) / 2) j with h | h | h
      · rw [hl _ (by omega) h]
        exact ih (by omega) (by omega) hhi (fun i h1 h2 => hl i (by omega) h2) hg
      · rw [h]
        constructor
        · intro _ he; rw [he]
        · intro he
          rw [he (by omega)]
          exact (ih (by omega) hlo (Nat.le_refl j) hl fun i h1 h2 => by omega).2 fun h => by omega
      · rw [hg _ h hm]
        obtain ⟨hok, herr⟩ := ih (show lo + (hi - lo) / 2 - lo ≤ fuel by omega) hlo (by omega) hl
          fun i h1 h2 => hg i h1 (by omega)
        exact ⟨fun _ he => hok h he, fun he => herr fun _ => he (by omega)⟩
    · rw [if_neg hlt]
      exact ⟨fun h _ => by omega, fun _ => by congr 1; omega⟩

/-! ## Searching a list -/

section List

variable {α : Type} {xs a b : List α} {d : α} {c : α → Ordering}

theorem partitionPoint_append {q : α → Bool} (ha : ∀ x ∈ a, q x) (hb : ∀ x ∈ b, q x = false) :
    partitionPoint (fun i => q ((a ++ b).getD i d)) (a ++ b).length 0 (a ++ b).length = a.length := by
  refine partitionPoint_eq (by omega) (by omega) (by simp) fun i _ hi => ?_
  by_cases h : i < a.length
  · simp [getD, getElem?_append_left h, h, ha]
  · have h' : i - a.length < b.length := by rw [length_append] at hi; omega
    simp [getD, getElem?_append_right (Nat.le_of_not_lt h), h, h', hb]

theorem binarySearch_append_cons {x : α} (ha : ∀ y ∈ a, c y = .lt)
    (hx : c x = .eq) (hb : ∀ y ∈ b, c y = .gt) :
    binarySearch (fun i => c ((a ++ x :: b).getD i d)) (a ++ x :: b).length 0
      (a ++ x :: b).length = .ok a.length := by
  refine (binarySearch_eq (by omega) (by omega) (by simp) (fun i _ hi => ?_) fun i hi hi' => ?_).1
    (by simp) ?_
  · simp [getD, getElem?_append_left hi, hi, ha]
  · have h' : i - a.length - 1 < b.length := by simp at hi'; omega
    rw [getD, getElem?_append_right (Nat.le_of_lt hi),
      show i - a.length = (i - a.length - 1) + 1 by omega, getElem?_cons_succ]
    simp [h', hb]
  · simp [getD, hx]

theorem binarySearch_append (ha : ∀ y ∈ a, c y = .lt) (hb : ∀ y ∈ b, c y = .gt) :
    binarySearch (fun i => c ((a ++ b).getD i d)) (a ++ b).length 0 (a ++ b).length =
      .error a.length := by
  have hright (i : Nat) (hi : a.length ≤ i) (hi' : i < (a ++ b).length) :
      c ((a ++ b).getD i d) = .gt := by
    have h' : i - a.length < b.length := by rw [length_append] at hi'; omega
    simp [getD, getElem?_append_right hi, h', hb]
  refine (binarySearch_eq (by omega) (by omega) (by simp) (fun i _ hi => ?_) fun i hi hi' => ?_).2
    fun h => hright _ (Nat.le_refl _) h
  · simp [getD, getElem?_append_left hi, hi, ha]
  · exact hright i (Nat.le_of_lt hi) hi'

/-- Where a key stands in a list in order of `f`. -/
theorem exists_split_of_sorted {K : Type} [LinearOrder K] {f : α → K}
    (hs : xs.Pairwise fun x y => f x < f y) (k : K) :
    (∃ a x b, xs = a ++ x :: b ∧ f x = k ∧ (∀ y ∈ a, f y < k) ∧ ∀ y ∈ b, k < f y) ∨
      ∃ a b, xs = a ++ b ∧ (∀ y ∈ a, f y < k) ∧ ∀ y ∈ b, k < f y := by
  induction xs with
  | nil => exact .inr ⟨[], [], rfl, by simp, by simp⟩
  | cons x xs ih =>
    obtain ⟨hx, hs⟩ := pairwise_cons.mp hs
    rcases lt_trichotomy (f x) k with hlt | heq | hgt
    · rcases ih hs with ⟨a, y, b, rfl, hy, ha, hb⟩ | ⟨a, b, rfl, ha, hb⟩
      · exact .inl ⟨x :: a, y, b, rfl, hy, by simpa [hlt] using ha, hb⟩
      · exact .inr ⟨x :: a, b, rfl, by simpa [hlt] using ha, hb⟩
    · exact .inl ⟨[], x, xs, rfl, heq, by simp, fun y hy => heq ▸ hx y hy⟩
    · exact .inr ⟨[], x :: xs, rfl, by simp,
        forall_mem_cons.mpr ⟨hgt, fun y hy => hgt.trans (hx y hy)⟩⟩

end List

end AxiomDb.Lib
