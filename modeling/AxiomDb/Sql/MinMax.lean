import AxiomDb.Sql.Grouping

/-!
# `MIN` and `MAX`

The accumulators keep the first value that `compare_values_null_last` puts before, or after, all
others. It compares integers and text as `compare_values` does in a binary session, but decimals,
byte strings, dates and timestamps by their key bytes, where numbers and lengths have their low
byte first. The result is the least value for SQL exactly if of the least value and any other, the
lowest byte in which they differ is less in the least one (`min_max_iff`).
-/

namespace AxiomDb.Row

open Lib Sql List Ordering Std

variable (o : Ops) (x : TextOps) (c : SessionCollation) (pr : PrintOps)

/-! ## The accumulators -/

/-- `compare_values_null_last`: a NaN is equal to every float. -/
def compareValuesNullLast (a b : Value) : Ordering :=
  match a, b with
  | .null, .null => .eq
  | .null, _ => .gt
  | _, .null => .lt
  | .int n, .int m => compare n.val m.val
  | .bigInt n, .bigInt m => compare n.val m.val
  | .int n, .bigInt m => compare n.val m.val
  | .bigInt n, .int m => compare n.val m.val
  | .real f, .real g => (f64PartialCmp f g).getD .eq
  | .text s, .text t => compare s.bytes t.bytes
  | a, b => compare (valueToKeyBytes pr a) (valueToKeyBytes pr b)

/-- `AggAccumulator::update`: a value that compares to the one kept as asked for replaces it. -/
def updateExtreme (better : Ordering) (acc : Option Value) (v : Value) : Option Value :=
  if v.isNull then acc
  else match acc with
    | none => some v
    | some a => if compareValuesNullLast pr v a = better then some v else some a

/-- The accumulator of `MIN`. -/
def updateMin : Option Value → Value → Option Value := updateExtreme pr .lt

/-- The accumulator of `MAX`. -/
def updateMax : Option Value → Value → Option Value := updateExtreme pr .gt

/-- `MIN` and `MAX` of no values are NULL. -/
def finalize (acc : Option Value) : Value := acc.getD .null

/-- `MIN` of a column. -/
def minOf (vals : List Value) : Value := finalize (vals.foldl (updateMin pr) none)

/-- `MAX` of a column. -/
def maxOf (vals : List Value) : Value := finalize (vals.foldl (updateMax pr) none)

/-! ## What is asked of them -/

/-- The types that `compare_values` puts in an order of their own, but for floats. -/
def Value.sameType : Value → Value → Bool
  | .bool _, .bool _ | .int _, .int _ | .bigInt _, .bigInt _ | .decimal _ _, .decimal _ _
  | .text _, .text _ | .bytes _, .bytes _ | .date _, .date _ | .timestamp _, .timestamp _
  | .uuid _, .uuid _ => true
  | _, _ => false

/-- A value of the list that `compare_values` puts on the wrong side of none. -/
abbrev Extreme (worse : Ordering) (vals : List Value) (m : Value) : Prop :=
  m ∈ nonNull vals ∧
    ∀ v ∈ nonNull vals, (compareValues (sqlOps o x c) m v).toOption.any (· != worse) = true

/-- `MIN` is a least value of the column and `MAX` a greatest one. -/
abbrev FollowsOrder (vals : List Value) : Prop :=
  Extreme o x c .gt vals (minOf pr vals) ∧ Extreme o x c .lt vals (maxOf pr vals)

/-- A value that comes first in both orders. -/
abbrev FirstInBoth (better : Ordering) (vals : List Value) : Prop :=
  ∃ m ∈ vals, Extreme o x c better.swap vals m ∧
    ∀ v ∈ nonNull vals, compareValuesNullLast pr v m ≠ better

/-! ## The condition -/

/-- At the lowest of the first bytes in which the numbers differ, the byte of the first is less. -/
abbrev LowBytesLess (width a b : Nat) : Prop :=
  ∃ i < width, (∀ j < i, a / 256 ^ j % 256 = b / 256 ^ j % 256) ∧ a / 256 ^ i % 256 < b / 256 ^ i % 256

/-- A signed number in two's complement. -/
def twos {bits : Nat} (n : SInt bits) : Nat := (n.val % 2 ^ bits).toNat

/-- The first value comes before the second in their bytes, the low bytes of numbers and of lengths
first. Truth values, integers and UUIDs need nothing of the kind. -/
def Value.BytesLess : Value → Value → Prop
  | .text s, .text t => compare s.bytes t.bytes = .lt
  | .bytes a, .bytes b => LowBytesLess 4 a.length b.length ∨
      (∀ j < 4, a.length / 256 ^ j % 256 = b.length / 256 ^ j % 256) ∧ compare a b = .lt
  | .date n, .date k => LowBytesLess 4 (twos n) (twos k)
  | .timestamp n, .timestamp k => LowBytesLess 8 (twos n) (twos k)
  | .decimal n s, .decimal k t => LowBytesLess 16 (twos n) (twos k) ∨ n = k ∧ s < t
  | _, _ => True

instance : DecidableRel Value.BytesLess := fun a b => by
  unfold Value.BytesLess
  split <;> infer_instance

/-- A least value for SQL comes before all others in its bytes. -/
abbrev LeastInBytes (vals : List Value) : Prop :=
  ∃ m ∈ vals, Extreme o x c .gt vals m ∧ ∀ v ∈ nonNull vals, v ≠ m → m.BytesLess v

/-- A greatest value for SQL comes after all others in its bytes. -/
abbrev GreatestInBytes (vals : List Value) : Prop :=
  ∃ m ∈ vals, Extreme o x c .lt vals m ∧ ∀ v ∈ nonNull vals, v ≠ m → v.BytesLess m

/-! ## The order of the accumulators -/

def intKey : Value → Int
  | .int n => n.val
  | .bigInt n => n.val
  | _ => 0

def bytesKey : Value → Bytes
  | .int _ | .bigInt _ => []
  | .text s => s.bytes
  | v => valueToKeyBytes pr v

/-- The order of the accumulators on the values of one type. -/
abbrev keyCompare : Value → Value → Ordering :=
  compareLex (compareOn intKey) (compareOn (bytesKey pr))

variable {o x c pr} {a b m v : Value} {vals : List Value} {better : Ordering} {seen : List Value}

theorem compareValuesNullLast_eq (h : a.sameType b) :
    compareValuesNullLast pr a b = keyCompare pr a b := by
  cases a <;> cases b <;> cases h <;>
    simp [compareValuesNullLast, compareLex, compareOn, intKey, bytesKey]

theorem eq_of_keyCompare (h : a.sameType b) (hk : keyCompare pr a b = .eq) : a = b := by
  simp only [compareLex, compareOn, then_eq_eq, LawfulEqOrd.compare_eq_iff_eq] at hk
  obtain ⟨hint, hbytes⟩ := hk
  cases a <;> cases b <;> cases h <;> simp only [intKey, bytesKey, valueToKeyBytes] at hint hbytes
  case bool.bool p q => cases p <;> cases q <;> first | rfl | cases hbytes
  case int.int n k | bigInt.bigInt n k => cases n; cases k; cases hint; rfl
  case decimal.decimal n s k t =>
    obtain ⟨hn, hs⟩ := append_inj (cons.inj hbytes).2 (by simp only [length_leSigned])
    rw [leSigned_inj (by decide) (by decide) hn, (cons.inj hs).1]
  case text.text s t => cases s; cases t; cases hbytes; rfl
  case bytes.bytes s t => rw [(append_inj (cons.inj hbytes).2 (by simp only [length_leBytes])).2]
  case date.date n k | timestamp.timestamp n k =>
    rw [leSigned_inj (by decide) (by decide) (cons.inj hbytes).2]
  case uuid.uuid u v => rw [Value.uuid.injEq, Subtype.ext_iff, (cons.inj hbytes).2]

theorem keyCompare_trans (hb : better = .lt ∨ better = .gt)
    (h1 : keyCompare pr a m ≠ better) (h2 : keyCompare pr v a ≠ better) :
    keyCompare pr v m ≠ better := by
  rcases hb with rfl | rfl
  · simp only [← isGE_iff_ne_lt] at h1 h2 ⊢
    exact TransCmp.isGE_trans h2 h1
  · simp only [← isLE_iff_ne_gt] at h1 h2 ⊢
    exact TransCmp.isLE_trans h2 h1

/-- Two values of one type that are both first are equal. -/
theorem eq_of_first (hb : better = .lt ∨ better = .gt) (h : a.sameType b)
    (h1 : keyCompare pr a b ≠ better) (h2 : keyCompare pr b a ≠ better) : a = b := by
  suffices hk : keyCompare pr a b = .eq from eq_of_keyCompare h hk
  have hswap : keyCompare pr b a = (keyCompare pr a b).swap := OrientedCmp.eq_swap
  rw [hswap] at h2
  rcases hb with rfl | rfl <;> cases hk : keyCompare pr a b <;> simp_all

/-- All values of the column but NULLs are of one type. -/
abbrev OneType (vals : List Value) : Prop :=
  ∀ a ∈ nonNull vals, ∀ b ∈ nonNull vals, a.sameType b = true

theorem OneType.sublist (h : OneType vals) (hs : seen.Sublist vals) :
    OneType seen :=
  fun a ha b hb => h a ((hs.filter _).subset ha) b ((hs.filter _).subset hb)

/-- What is kept after the values seen: one that no other is before. -/
def Kept (pr : PrintOps) (better : Ordering) (seen : List Value) (acc : Option Value) : Prop :=
  acc = none ∧ nonNull seen = [] ∨
    ∃ m, acc = some m ∧ m ∈ nonNull seen ∧ ∀ v ∈ nonNull seen, keyCompare pr v m ≠ better

section

variable (hb : better = .lt ∨ better = .gt)
include hb

theorem Kept.update {acc : Option Value} (h : OneType (seen ++ [v])) (hk : Kept pr better seen acc) :
    Kept pr better (seen ++ [v]) (updateExtreme pr better acc v) := by
  have hself (u : Value) : keyCompare pr u u ≠ better := by
    have heq : keyCompare pr u u = .eq := ReflCmp.compare_self
    rw [heq]
    rcases hb with rfl | rfl <;> decide
  simp only [updateExtreme]
  split
  next hnull => simpa [Kept, nonNull, hnull] using hk
  next hnull =>
    have hmem {u : Value} : u ∈ nonNull (seen ++ [v]) ↔ u ∈ nonNull seen ∨ u = v := by
      simp [nonNull, filter_append, hnull]
    right
    rcases hk with ⟨rfl, hnil⟩ | ⟨m, rfl, hm, hbest⟩
    · refine ⟨v, rfl, hmem.mpr (.inr rfl), fun u hu => ?_⟩
      rcases hmem.mp hu with hu | rfl
      · exact absurd hu (by simp [hnil])
      · exact hself u
    have heq : compareValuesNullLast pr v m = keyCompare pr v m :=
      compareValuesNullLast_eq (h v (hmem.mpr (.inr rfl)) m (hmem.mpr (.inl hm)))
    simp only [heq]
    split
    next hlt =>
      -- the new value is before the old one, which no value seen is before
      refine ⟨v, rfl, hmem.mpr (.inr rfl), fun u hu => ?_⟩
      rcases hmem.mp hu with hu | rfl
      · refine keyCompare_trans hb (a := m) ?_ (hbest u hu)
        have hswap : keyCompare pr m v = (keyCompare pr v m).swap := OrientedCmp.eq_swap
        rw [hswap, hlt]
        rcases hb with rfl | rfl <;> decide
      · exact hself u
    next hge =>
      refine ⟨m, rfl, hmem.mpr (.inl hm), fun u hu => ?_⟩
      rcases hmem.mp hu with hu | rfl
      · exact hbest u hu
      · exact hge

theorem kept_foldl (h : OneType vals) :
    Kept pr better vals (vals.foldl (updateExtreme pr better) none) := by
  induction vals using reverseRecOn with
  | nil => exact .inl ⟨rfl, rfl⟩
  | append_singleton seen v ih =>
    rw [foldl_append]
    exact .update hb h (ih (h.sublist (sublist_append_left _ _)))

/-- An accumulator gives a first value exactly if there is one that is first in both orders. -/
theorem extreme_iff (h : OneType vals) (hne : nonNull vals ≠ []) :
    Extreme o x c better.swap vals (finalize (vals.foldl (updateExtreme pr better) none)) ↔
      FirstInBoth o x c pr better vals := by
  have hkept : Kept pr better vals (vals.foldl (updateExtreme pr better) none) := kept_foldl hb h
  obtain ⟨-, hnil⟩ | ⟨m, hm, hmem, hbest⟩ := hkept
  · exact absurd hnil hne
  rw [hm, finalize, Option.getD_some]
  have hcmp {u v : Value} (hu : u ∈ nonNull vals) (hv : v ∈ nonNull vals) :
      compareValuesNullLast pr u v = keyCompare pr u v :=
    compareValuesNullLast_eq (h u hu v hv)
  constructor
  · intro hext
    exact ⟨m, (mem_nonNull.mp hmem).1, hext, fun v hv => hcmp hv hmem ▸ hbest v hv⟩
  rintro ⟨n, -, hext, hfirst⟩
  have hn := hext.1
  obtain rfl : n = m := by
    refine eq_of_first hb (h n hn m hmem) (hbest n hn) ?_
    exact hcmp hmem hn ▸ hfirst m hmem
  exact hext

end

/-! ## Bytes and values -/

theorem compare_append {as bs as' bs' : Bytes} (h : as.length = bs.length) :
    compare (as ++ as') (bs ++ bs') = (compare as bs).then (compare as' bs') := by
  induction as generalizing bs with
  | nil =>
    obtain rfl := length_eq_zero_iff.mp h.symm
    rfl
  | cons a as ih =>
    cases bs with
    | nil => cases h
    | cons b bs =>
      rw [cons_append, cons_append, compare_cons_cons, compare_cons_cons, ih (Nat.succ.inj h),
        then_assoc]

theorem div_pow_succ (a j : Nat) : a / 256 ^ (j + 1) = a / 256 / 256 ^ j := by
  rw [pow_succ', Nat.div_div_eq_div_mul]

theorem byteOf_lt {a b : Nat} : byteOf a < byteOf b ↔ a % 256 < b % 256 := Iff.rfl

theorem byteOf_inj {a b : Nat} : byteOf a = byteOf b ↔ a % 256 = b % 256 := Fin.ext_iff

theorem leBytes_eq_iff {width a b : Nat} : leBytes width a = leBytes width b ↔
    ∀ j < width, a / 256 ^ j % 256 = b / 256 ^ j % 256 := by
  induction width generalizing a b with
  | zero => simp [leBytes]
  | succ width ih =>
    rw [leBytes, leBytes, cons.injEq, ih, byteOf_inj, Nat.forall_lt_succ_left]
    simp only [div_pow_succ, pow_zero, Nat.div_one]

theorem compare_leBytes_lt {width a b : Nat} :
    compare (leBytes width a) (leBytes width b) = .lt ↔ LowBytesLess width a b := by
  induction width generalizing a b with
  | zero => simp [leBytes, LowBytesLess]
  | succ width ih =>
    rw [leBytes, leBytes, compare_cons_cons, then_eq_lt, compare_lt_iff_lt,
      LawfulEqOrd.compare_eq_iff_eq, ih, byteOf_lt, byteOf_inj]
    simp only [LowBytesLess, Nat.exists_lt_succ_left, Nat.forall_lt_succ_left, div_pow_succ, pow_zero,
      Nat.div_one, Nat.not_lt_zero, IsEmpty.forall_iff, implies_true, true_and, and_assoc]
    refine or_congr_right ⟨?_, ?_⟩
    · rintro ⟨hbyte, i, hi, hrest⟩
      exact ⟨i, hi, hbyte, hrest⟩
    · rintro ⟨i, hi, hbyte, hrest⟩
      exact ⟨hbyte, i, hi, hrest⟩

theorem keyCompare_lt_iff (h : a.sameType b) (hne : a ≠ b)
    (hle : (compareValues (sqlOps o x c) a b).toOption.any (· != .gt) ∨
      (compareValues (sqlOps o x c) b a).toOption.any (· != .lt)) :
    keyCompare pr a b = .lt ↔ a.BytesLess b := by
  have hlt {α : Type} [Ord α] [OrientedOrd α] [LawfulEqOrd α] {p q : α} (hne : p ≠ q)
      (h : compare p q != .gt ∨ compare q p != .lt) : compare p q = .lt := by
    cases hc : compare p q with
    | lt => rfl
    | eq => exact absurd (LawfulEqOrd.compare_eq_iff_eq.mp hc) hne
    | gt =>
      have hc' := OrientedCmp.gt_iff_lt.mp hc
      simp [hc, hc'] at h
  cases a <;> cases b <;> cases h <;>
    simp only [compareLex, compareOn, intKey, bytesKey, valueToKeyBytes, compare_cons_cons,
      ReflCmp.compare_self, eq_then, Value.BytesLess, iff_true]
  case bool.bool p q =>
    cases p <;> cases q
    case false.true => rfl
    case true.false => rcases hle with h | h <;> exact absurd h Bool.false_ne_true
    all_goals exact absurd rfl hne
  case int.int n k | bigInt.bigInt n k =>
    have hnk : n.val ≠ k.val := fun h => hne (by cases n; cases k; cases h; rfl)
    rw [hlt hnk hle]
    rfl
  case decimal.decimal n s k t =>
    have hmantissa : leSigned n = leSigned k ↔ n = k :=
      ⟨leSigned_inj (by decide) (by decide), congrArg _⟩
    have hscale : compare [s] [t] = .lt ↔ s < t := by
      rw [compare_cons_cons, then_eq_lt, compare_lt_iff_lt]
      simp
    rw [compare_append (by simp only [length_leSigned]), then_eq_lt, LawfulEqOrd.compare_eq_iff_eq,
      hmantissa, hscale, leSigned, leSigned, compare_leBytes_lt]
    rfl
  case bytes.bytes p q =>
    rw [withLength, withLength, compare_append (by simp), then_eq_lt, compare_leBytes_lt,
      LawfulEqOrd.compare_eq_iff_eq, leBytes_eq_iff]
  case date.date n k | timestamp.timestamp n k =>
    rw [leSigned, leSigned, compare_leBytes_lt]
    rfl
  case uuid.uuid u v =>
    exact hlt (fun h => hne (by rw [Subtype.ext h])) hle

/-- Of two values of one type that differ, one comes first. -/
theorem keyCompare_ne_iff (h : a.sameType b) (hne : a ≠ b) :
    (keyCompare pr b a ≠ .lt ↔ keyCompare pr a b = .lt) ∧
      (keyCompare pr a b ≠ .gt ↔ keyCompare pr a b = .lt) := by
  have hswap : keyCompare pr b a = (keyCompare pr a b).swap := OrientedCmp.eq_swap
  rw [hswap]
  cases hk : keyCompare pr a b with
  | eq => exact absurd (eq_of_keyCompare h hk) hne
  | lt | gt => decide

/-- **`MIN` and `MAX`.** For a column of one type, `MIN` is a least value of it for SQL and `MAX` a
greatest one exactly if a least value comes before all others in its bytes, and a greatest one
after. -/
theorem min_max_iff (h : OneType vals) (hne : nonNull vals ≠ []) : FollowsOrder o x c pr vals ↔
      LeastInBytes o x c vals ∧ GreatestInBytes o x c vals := by
  refine (and_congr (extreme_iff (.inl rfl) h hne) (extreme_iff (.inr rfl) h hne)).trans ?_
  have hcmp {u v : Value} (hu : u ∈ nonNull vals) (hv : v ∈ nonNull vals) :
      compareValuesNullLast pr u v = keyCompare pr u v := compareValuesNullLast_eq (h u hu v hv)
  have hself (u : Value) : keyCompare pr u u = .eq := ReflCmp.compare_self
  refine and_congr (exists_congr fun m => and_congr_right fun _ => and_congr_right fun hext => ?_)
    (exists_congr fun m => and_congr_right fun _ => and_congr_right fun hext => ?_)
  · refine forall₂_congr fun v hv => ?_
    rw [hcmp hv hext.1]
    by_cases hvm : v = m
    · simp [hvm, hself]
    · have htype := h m hext.1 v hv
      rw [(keyCompare_ne_iff htype (Ne.symm hvm)).1,
        keyCompare_lt_iff htype (Ne.symm hvm) (.inl (hext.2 v hv))]
      simp [hvm]
  · refine forall₂_congr fun v hv => ?_
    rw [hcmp hv hext.1]
    by_cases hvm : v = m
    · simp [hvm, hself]
    · have htype := h v hv m hext.1
      rw [(keyCompare_ne_iff htype hvm).2, keyCompare_lt_iff htype hvm (.inr (hext.2 v hv))]
      simp [hvm]

/-- Two dates and a NULL. -/
def daysSince (a b : SInt 32) : List Value := [.date a, .null, .date b]

theorem min_max_iff_days :
    FollowsOrder plainOps joseText .binary plainPrint (daysSince (.wrap 32 1) (.wrap 32 2)) := by
  refine (min_max_iff ?_ (by decide)).mpr ?_
  · decide +kernel
  · decide +kernel

/-- Day 256 comes before day 1 in the order of the key bytes. -/
theorem day_256_before_day_1 :
    minOf plainPrint (daysSince (.wrap 32 1) (.wrap 32 256)) = .date (.wrap 32 256) ∧
      ¬FollowsOrder plainOps joseText .binary plainPrint
        (daysSince (.wrap 32 1) (.wrap 32 256)) := by
  decide +kernel

end AxiomDb.Row
