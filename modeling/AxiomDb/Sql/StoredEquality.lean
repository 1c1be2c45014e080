import AxiomDb.Sql.Coherence

/-!
# Equal and the same

Hash tables and sets compare values as they are stored, `=` compares what they stand for. Two values
that differ are equal for `=` if they are variants of one another: a number as INT and as BIGINT,
decimals of different scales, texts with one fold. `holds_eq_iff` says that there are no others, and
that a value is equal to itself unless it is an array with a NULL in it.
-/

namespace AxiomDb.Row

open Lib Sql List Value Except BinaryOp

variable (o : Ops) (x : TextOps) (c : SessionCollation)

/-- Two arrays that are equal element by element. -/
def ArraysEqual (as bs : List Value) : Prop :=
  arrayEquals (compareValues (sqlOps o x c)) as (.array bs) = .ok (.bool true)

/-- Two different values that stand for the same. -/
def Variants : Value → Value → Prop
  | .int n, .bigInt k => n.val = k.val
  | .bigInt n, .int k => n.val = k.val
  | .int n, .decimal m s => checkedMul n.val (pow10 s.val) = some m.val
  | .bigInt n, .decimal m s => checkedMul n.val (pow10 s.val) = some m.val
  | .decimal m s, .int n => checkedMul n.val (pow10 s.val) = some m.val
  | .decimal m s, .bigInt n => checkedMul n.val (pow10 s.val) = some m.val
  | .decimal m s, .decimal k t => s ≠ t ∧ compareScaled m.val s.val k.val t.val = .eq
  | .money m s cur, .money k t cur' =>
    cur = cur' ∧ s ≠ t ∧ compareScaled m.val s.val k.val t.val = .eq
  | .text s, .text t => s ≠ t ∧ x.textEq c s t = true
  | .array as, .array bs => as ≠ bs ∧ ArraysEqual o x c as bs
  | _, _ => False

/-- Not an array that has a NULL in it. -/
def SelfEqual : Value → Prop
  | .array as => ArraysEqual o x c as as
  | _ => True

/-- Two arrays that agree before the first NULL in one of them. -/
def ArraysUnknown : Value → Value → Prop
  | .array as, .array bs => arrayEquals (compareValues (sqlOps o x c)) as (.array bs) = .ok .null
  | _, _ => False

variable {o x c} {a b v : Value}

theorem not_variants_self (a : Value) : ¬ Variants o x c a a := by
  cases a <;> simp [Variants]

theorem sint_val_inj {bits : Nat} {m k : SInt bits} : m.val = k.val ↔ m = k :=
  ⟨fun h => by cases m; cases k; cases h; rfl, fun h => by rw [h]⟩

theorem textEq_self (s : Utf8) : x.textEq c s s := by
  cases c with
  | icu locale =>
    have := x.trans locale
    simp only [TextOps.textEq, beq_iff_eq]
    exact Std.ReflCmp.compare_self
  | _ => simp [TextOps.textEq]

theorem compareScaled_eq_iff {m k : SInt 128} {s t : Byte} :
    compareScaled m.val s.val k.val t.val = .eq ↔
      (m = k ∧ s = t) ∨ (s ≠ t ∧ compareScaled m.val s.val k.val t.val = .eq) := by
  by_cases h : s = t
  · subst h
    simp [compareScaled, sint_val_inj]
  · simp [h]

theorem compareIntDecimal_eq_iff {l r : Value} {n m : Int} {s : Nat} :
    compareIntDecimal l r n m s = .ok .eq ↔ checkedMul n (pow10 s) = some m := by
  rw [compareIntDecimal]
  cases checkedMul n (pow10 s) with
  | none => simp [incomparable]
  | some k => simp

theorem map_swap_eq_iff {r : Except EvalError Ordering} :
    r.map Ordering.swap = .ok .eq ↔ r = .ok .eq := by
  obtain e | ord := r
  · simp [Except.map]
  · cases ord <;> simp [Except.map]

/-- Equality by `compare_values`. -/
theorem compareValues_eq_iff_variants {ord : Ordering} (hk : Comparable a b)
    (hd : a.dispatches b = false) (htext : ∀ s, a ≠ .text s)
    (h : compareValues (sqlOps o x c) a b = .ok ord) :
    compareValues (sqlOps o x c) a b = .ok .eq ↔ a = b ∨ Variants o x c a b := by
  obtain ⟨hsome, hkind⟩ := hk
  cases a <;> cases hsome <;> cases b <;> cases hkind
  case text.refl.text.refl => exact (htext _ rfl).elim
  case json.refl.json.refl | jsonb.refl.jsonb.refl | composite.refl.composite.refl | xml.refl.xml.refl => cases h
  case array.refl.array.refl | range.refl.range.refl | money.refl.money.refl | ltree.refl.ltree.refl => cases hd
  case int.refl.decimal.refl | bigInt.refl.decimal.refl =>
    refine compareIntDecimal_eq_iff.trans ?_
    simp [Variants]
  case decimal.refl.int.refl | decimal.refl.bigInt.refl =>
    refine map_swap_eq_iff.trans (compareIntDecimal_eq_iff.trans ?_)
    simp [Variants]
  case decimal.refl.decimal.refl m s k t =>
    show Except.ok (compareScaled m.val s.val k.val t.val) = .ok .eq ↔ _
    rw [Except.ok.injEq, compareScaled_eq_iff]
    simp [Variants]
  case bool.refl.bool.refl b b' => cases b <;> cases b' <;> simp [compareValues, Variants]
  all_goals simp [compareValues, sqlOps, compareOther, Variants, sint_val_inj, Subtype.ext_iff]

/-- What `=` takes for equal. -/
theorem holds_eq_iff (hk : Comparable a b) (h : evalBinary (sqlOps o x c) .eq a b = .ok v) :
    Holds o x c .eq a b ↔ (a = b ∧ SelfEqual o x c a) ∨ Variants o x c a b := by
  have hpair := hk.pair o x c
  cases hpair with
  | text s t =>
    rw [Holds, evalBinary_text o x c rfl, verdict]
    by_cases hst : s = t
    · simp [hst, SelfEqual, textEq_self]
    · simp [hst, Variants]
  | range r r' =>
    rw [Holds, evalBinary_of_dispatches o x c rfl rfl]
    simp [dispatch, evalBinaryRange, verdict, SelfEqual, Variants]
  | money m s cur m' s' cur' =>
    rw [Holds, evalBinary_of_dispatches o x c rfl rfl, dispatch, evalBinaryMoney]
    by_cases hcur : cur = cur'
    · simp only [hcur, if_true, holds, Except.ok.injEq, Value.bool.injEq, beq_iff_eq]
      rw [compareScaled_eq_iff]
      simp [SelfEqual, Variants]
    · simp [hcur, Variants]
  | ltree s t =>
    rw [Holds, evalBinary_of_dispatches o x c rfl rfl]
    simp only [dispatch, evalBinaryLtree, holds, Except.ok.injEq, Value.bool.injEq, beq_iff_eq]
    rw [compare_bytes_eq_iff]
    simp [SelfEqual, Variants]
  | array as bs =>
    rw [Holds, evalBinary_of_dispatches o x c rfl rfl]
    show ArraysEqual o x c as bs ↔ _
    by_cases hab : as = bs
    · simp [hab, SelfEqual, Variants]
    · simp [hab, Variants]
  | other hd ha hb htext _ =>
    cases hord : compareValues (sqlOps o x c) a b with
    | error e =>
      rw [evalBinary_of_error o x c hd ha hb htext hord] at h
      cases h
    | ok ord =>
      have hself : SelfEqual o x c a := by
        unfold SelfEqual
        split
        · cases hd
        · trivial
      rw [Holds, evalBinary_of_compare hd ha hb htext hord, and_iff_left hself,
        ← compareValues_eq_iff_variants hk hd htext hord, hord]
      simp [holds]

/-- `=` gives NULL for two values of one kind only if they are such arrays. -/
theorem evalBinary_eq_null_iff (hk : Comparable a b) :
    evalBinary (sqlOps o x c) .eq a b = .ok .null ↔ ArraysUnknown o x c a b := by
  cases hk.pair o x c with
  | text s t =>
    rw [evalBinary_text o x c rfl]
    simp [ArraysUnknown]
  | range r r' =>
    rw [evalBinary_of_dispatches o x c rfl rfl]
    simp [dispatch, evalBinaryRange, ArraysUnknown]
  | money m s cur m' s' cur' =>
    rw [evalBinary_of_dispatches o x c rfl rfl, dispatch, evalBinaryMoney]
    by_cases hcur : cur = cur' <;> simp [hcur, ArraysUnknown]
  | ltree s t =>
    rw [evalBinary_of_dispatches o x c rfl rfl]
    simp [dispatch, evalBinaryLtree, ArraysUnknown]
  | array as bs =>
    rw [evalBinary_of_dispatches o x c rfl rfl]
    rfl
  | other hd ha hb htext _ =>
    have hnot : ¬ ArraysUnknown o x c a b := by
      unfold ArraysUnknown
      split
      · cases hd
      · exact id
    refine iff_of_false ?_ hnot
    cases hord : compareValues (sqlOps o x c) a b with
    | error e => simp [evalBinary_of_error o x c hd ha hb htext hord]
    | ok ord => simp [evalBinary_of_compare hd ha hb htext hord]

end AxiomDb.Row
