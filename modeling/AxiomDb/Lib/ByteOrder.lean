import Mathlib

/-!
# Byte strings that keep an order

`Below u v`: the two strings part at a position where the one of `u` is less.
Unlike the lexicographic order this survives any two endings (`Below.append`),
so encodings with this property can be concatenated. `beBytes k n` is the
big-endian form of a number, `Below` for numbers of which the first is less.
-/

namespace AxiomDb.Lib

open List

/-- The strings part at a position where the first is less. -/
def Below {α : Type} [LT α] (u v : List α) : Prop :=
  ∃ p c d r s, u = p ++ c :: r ∧ v = p ++ d :: s ∧ c < d

namespace Below

variable {α : Type} [LinearOrder α] {u v : List α}

theorem cons_of_lt {c d : α} (h : c < d) (r s : List α) : Below (c :: r) (d :: s) :=
  ⟨[], c, d, r, s, rfl, rfl, h⟩

theorem append (h : Below u v) (s t : List α) : Below (u ++ s) (v ++ t) := by
  obtain ⟨p, c, d, r, r', rfl, rfl, hcd⟩ := h
  exact ⟨p, c, d, r ++ s, r' ++ t, by simp, by simp, hcd⟩

theorem prepend (h : Below u v) (p : List α) : Below (p ++ u) (p ++ v) := by
  obtain ⟨q, c, d, r, r', rfl, rfl, hcd⟩ := h
  exact ⟨p ++ q, c, d, r, r', by simp, by simp, hcd⟩

theorem cons (h : Below u v) (c : α) : Below (c :: u) (c :: v) := h.prepend [c]

theorem lt (h : Below u v) : u < v := by
  obtain ⟨p, c, d, r, s, rfl, rfl, hcd⟩ := h
  induction p with
  | nil => exact cons_lt_cons_iff.mpr (.inl hcd)
  | cons a p ih => exact cons_lt_cons_iff.mpr (.inr ⟨rfl, ih⟩)

end Below

/-- The strings part, in the order `o`. -/
def Parts {α : Type} [LT α] : Ordering → List α → List α → Prop
  | .lt, u, v => Below u v
  | .eq, _, _ => False
  | .gt, u, v => Below v u

namespace Parts

variable {α : Type} [LinearOrder α] {o : Ordering} {u v : List α}

theorem cons (h : Parts o u v) (c : α) : Parts o (c :: u) (c :: v) := by
  cases o with
  | lt => exact Below.cons h c
  | eq => exact h
  | gt => exact Below.cons h c

theorem of_ne {c d : α} (h : c ≠ d) (r s : List α) :
    Parts (compareOfLessAndEq c d) (c :: r) (d :: s) := by
  rcases lt_or_gt_of_ne h with hlt | hgt
  · rw [compareOfLessAndEq, if_pos hlt]
    exact Below.cons_of_lt hlt r s
  · rw [compareOfLessAndEq, if_neg hgt.asymm, if_neg h]
    exact Below.cons_of_lt hgt s r

/-- Whatever follows, the strings are in the order `o`. -/
theorem compare_append [DecidableLT (List α)] [DecidableEq (List α)] (h : Parts o u v)
    (s t : List α) : compareOfLessAndEq (u ++ s) (v ++ t) = o := by
  cases o with
  | lt => rw [compareOfLessAndEq, if_pos (Below.append h s t).lt]
  | eq => exact h.elim
  | gt =>
    have hlt := (Below.append h t s).lt
    rw [compareOfLessAndEq, if_neg hlt.asymm, if_neg hlt.ne']

end Parts

/-- A common beginning does not matter. -/
theorem compare_append_left {α : Type} [LinearOrder α] [DecidableLT (List α)] [DecidableEq (List α)]
    (p u v : List α) : compareOfLessAndEq (p ++ u) (p ++ v) = compareOfLessAndEq u v := by
  have hlt : p ++ u < p ++ v ↔ u < v := by
    induction p with
    | nil => rfl
    | cons a p ih => simpa [cons_lt_cons_iff] using ih
  simp only [compareOfLessAndEq, hlt, append_cancel_left_eq]

/-! ## Big-endian numbers -/

/-- A digit of base 256. -/
def byteOf (n : Nat) : Fin 256 := ⟨n % 256, Nat.mod_lt _ (by decide)⟩

/-- The last `k` bytes of `n`, most significant first. -/
def beBytes : Nat → Nat → List (Fin 256)
  | 0, _ => []
  | k + 1, n => byteOf (n / 256 ^ k) :: beBytes k n

/-- The number that bytes stand for, most significant first. -/
def ofBeBytes (bs : List (Fin 256)) : Nat := bs.foldl (fun n b => 256 * n + b.val) 0

@[simp] theorem length_beBytes (k n : Nat) : (beBytes k n).length = k := by
  induction k with
  | zero => rfl
  | succ k ih => simp [beBytes, ih]

/-- The digits below do not depend on the ones above. -/
theorem beBytes_mod {k j : Nat} (h : k ≤ j) (n : Nat) : beBytes k (n % 256 ^ j) = beBytes k n := by
  induction k with
  | zero => rfl
  | succ k ih =>
    have hdigit : n % 256 ^ j / 256 ^ k % 256 = n / 256 ^ k % 256 := by
      obtain ⟨i, rfl⟩ := Nat.exists_eq_add_of_lt h
      rw [show 256 ^ (k + i + 1) = 256 ^ k * 256 ^ (i + 1) by rw [← pow_add, add_assoc],
        Nat.mod_mul_right_div_self, Nat.mod_mod_of_dvd _ (dvd_pow_self 256 (by omega))]
    rw [beBytes, beBytes, ih (by omega), byteOf, byteOf]
    simp only [hdigit]

theorem below_beBytes {k m n : Nat} (hn : n < 256 ^ k) (h : m < n) :
    Below (beBytes k m) (beBytes k n) := by
  induction k generalizing m n with
  | zero => simp at hn; omega
  | succ k ih =>
    rw [pow_succ, mul_comm] at hn
    have hq : n / 256 ^ k < 256 := Nat.div_lt_of_lt_mul (by rwa [mul_comm])
    have hle : m / 256 ^ k ≤ n / 256 ^ k := Nat.div_le_div_right h.le
    rw [beBytes, beBytes]
    rcases hle.lt_or_eq with hlt | heq
    · refine Below.cons_of_lt ?_ _ _
      simp only [byteOf, Fin.mk_lt_mk, Nat.mod_eq_of_lt hq, Nat.mod_eq_of_lt (hlt.trans hq), hlt]
    have hrem : m % 256 ^ k < n % 256 ^ k := by
      have hm := Nat.div_add_mod m (256 ^ k)
      have hn := Nat.div_add_mod n (256 ^ k)
      rw [heq] at hm
      omega
    rw [heq, ← beBytes_mod le_rfl m, ← beBytes_mod le_rfl n]
    exact (ih (Nat.mod_lt _ (by positivity)) hrem).cons _

theorem parts_beBytes {k m n : Nat} (hm : m < 256 ^ k) (hn : n < 256 ^ k) (h : m ≠ n) :
    Parts (compareOfLessAndEq m n) (beBytes k m) (beBytes k n) := by
  rcases lt_or_gt_of_ne h with hlt | hgt
  · rw [compareOfLessAndEq, if_pos hlt]
    exact below_beBytes hn hlt
  · rw [compareOfLessAndEq, if_neg hgt.asymm, if_neg h]
    exact below_beBytes hm hgt

theorem foldl_beBytes (k n acc : Nat) :
    (beBytes k n).foldl (fun n b => 256 * n + b.val) acc = acc * 256 ^ k + n % 256 ^ k := by
  induction k generalizing acc with
  | zero => simp [beBytes, Nat.mod_one]
  | succ k ih =>
    rw [beBytes, foldl_cons, ih, Nat.mod_pow_succ, byteOf, pow_succ]
    ring

theorem ofBeBytes_beBytes {k n : Nat} (h : n < 256 ^ k) : ofBeBytes (beBytes k n) = n := by
  rw [ofBeBytes, foldl_beBytes, zero_mul, zero_add, Nat.mod_eq_of_lt h]

end AxiomDb.Lib
