import AxiomDb.Sql.StoredEquality

/-!
# `IN` with a subquery

The evaluator asks whether the left value is among the first columns of the subquery's rows,
by a walk over them or in a hash set. Both compare values as they are stored, where `=`
compares numbers of different types and text by its collation. `in_subquery_iff` says which
variants of a value in the list (`Decides`) leave the answer that of the chain of equalities.
-/

namespace AxiomDb.Row

open Sql List Value

/-- What a membership test sees of the rows. -/
def firstColumn (rows : List (List Value)) : List Value := rows.map (·.headD .null)

/-- The loop of `run_in_check`: whether the value was found and whether a NULL came before. -/
def inCheckLoop (needle : Value) : Bool → List Value → Bool × Bool
  | hasNull, [] => (false, hasNull)
  | hasNull, v :: vs =>
    if v = .null then inCheckLoop needle true vs
    else if v = needle then (true, hasNull) else inCheckLoop needle hasNull vs

/-- `run_in_check` in `context.rs`. -/
def runInCheck (rows : List (List Value)) (needle : Value) : Bool × Bool :=
  inCheckLoop needle false (firstColumn rows)

/-- `InSubquerySet` in `core.rs`. -/
structure InSubquerySet where
  values : List Value
  hasNull : Bool

namespace InSubquerySet

def push (s : InSubquerySet) (v : Value) : InSubquerySet :=
  if v = .null then { s with hasNull := true } else { s with values := s.values.insert v }

/-- `InSubquerySet::from_query_result` in `core.rs`. -/
def fromQueryResult (rows : List (List Value)) : InSubquerySet :=
  (firstColumn rows).foldl push ⟨[], false⟩

/-- `InSubquerySet::contains` in `core.rs`. -/
def contains (s : InSubquerySet) (needle : Value) : Bool × Bool := (needle ∈ s.values, s.hasNull)

end InSubquerySet

/-- `NOT IN` for `negated`. -/
def negateIf (negated : Bool) (v : Value) : Value := if negated then applyNot v else v

/-- `Expr::InSubquery`, with either membership test. -/
def evalInSubquery (check : Value → Bool × Bool) (left : Value) (negated : Bool) : Value :=
  if left = .null then .null
  else
    let (found, hasNull) := check left
    negateIf negated (if found then .bool true else if hasNull then .null else .bool false)

/-! ## Both tests give one answer -/

def membership (needle : Value) (items : List Value) : Value :=
  if needle ∈ items then .bool true else if .null ∈ items then .null else .bool false

variable {a : Value} {items vs : List Value} {rows : List (List Value)}

theorem inCheckLoop_eq (ha : a ≠ .null) (hasNull : Bool) :
    (inCheckLoop a hasNull items).1 = decide (a ∈ items) ∧
      (a ∉ items → (inCheckLoop a hasNull items).2 = (hasNull || decide (.null ∈ items))) := by
  induction items generalizing hasNull with
  | nil => simp [inCheckLoop]
  | cons v vs ih =>
    rw [inCheckLoop]
    split
    next hv => simpa [hv, ha] using ih true
    split
    next heq => simp [heq]
    next hv hne => simpa [Ne.symm hv, Ne.symm hne] using ih hasNull

theorem foldl_push (ha : a ≠ .null) (s : InSubquerySet) :
    (items.foldl InSubquerySet.push s).contains a =
      (decide (a ∈ s.values ∨ a ∈ items), s.hasNull || decide (.null ∈ items)) := by
  induction items generalizing s with
  | nil => exact Prod.ext (decide_eq_decide.2 (by simp)) (by simp [InSubquerySet.contains])
  | cons v vs ih =>
    rw [foldl_cons, ih, InSubquerySet.push]
    split
    next hv => simp [hv, ha]
    next hv => simp [Ne.symm hv, or_left_comm, or_assoc]

theorem evalInSubquery_null (check : Value → Bool × Bool) (negated : Bool) :
    evalInSubquery check .null negated = .null :=
  if_pos rfl

theorem evalInSubquery_eq {check : Value → Bool × Bool} (ha : a ≠ .null)
    (hfound : (check a).1 = decide (a ∈ items))
    (hnull : a ∉ items → (check a).2 = decide (.null ∈ items)) (negated : Bool) :
    evalInSubquery check a negated = negateIf negated (membership a items) := by
  rw [evalInSubquery, if_neg ha, membership]
  dsimp only
  rw [hfound]
  by_cases hmem : a ∈ items
  · simp [hmem]
  · simp [hmem, hnull hmem]

theorem runInCheck_eq (ha : a ≠ .null) (negated : Bool) :
    evalInSubquery (runInCheck rows) a negated =
      negateIf negated (membership a (firstColumn rows)) := by
  obtain ⟨hfound, hnull⟩ := @inCheckLoop_eq a (firstColumn rows) ha false
  exact evalInSubquery_eq ha hfound hnull negated

theorem contains_eq (ha : a ≠ .null) (negated : Bool) :
    evalInSubquery (InSubquerySet.fromQueryResult rows).contains a negated =
      negateIf negated (membership a (firstColumn rows)) := by
  have hpush := @foldl_push a (firstColumn rows) ha ⟨[], false⟩
  refine evalInSubquery_eq ha ?_ (fun _ => ?_) negated
  · rw [InSubquerySet.fromQueryResult, hpush]
    simp
  · rw [InSubquerySet.fromQueryResult, hpush]
    rfl

/-! ## The chain of equalities -/

variable (o : Ops) (x : TextOps) (c : SessionCollation)

/-- NULL asks for a value at all; any other value that has a variant in the list is in the list
too, and is there only if it is equal to itself or has a variant there. Where `=` of two arrays is
NULL, the list has a NULL, or the array itself. -/
structure Decides (a : Value) (items : List Value) : Prop where
  nonempty : a = .null → items ≠ []
  variant : (∃ i ∈ items, Variants o x c a i) → a ∈ items
  self : a ≠ .null → a ∈ items → SelfEqual o x c a ∨ ∃ i ∈ items, Variants o x c a i
  unknown : (∃ i ∈ items, ArraysUnknown o x c a i) → .null ∈ items ∨ a ∈ items

variable {o x c}

theorem Chain.null_iff (h : Chain o x c .null items vs) : .null = anyOf vs ↔ items ≠ [] := by
  have hall : ∀ v ∈ vs, v = .null := by
    intro v hv
    obtain ⟨i, -, hi⟩ := (h.mem_iff v).1 hv
    cases i <;> cases hi <;> rfl
  rw [anyOf_eq, if_neg fun h => Value.noConfusion (hall _ h)]
  cases h with
  | nil => simp
  | cons _ _ => simp [hall _ (.head _)]

theorem Chain.membership_iff (h : Chain o x c a items vs) (ha : a ≠ .null) :
    membership a items = anyOf vs ↔
      (a ∈ items ↔ .bool true ∈ vs) ∧ (.null ∈ vs → .null ∈ items ∨ a ∈ items) := by
  have hnull : .null ∈ items → .null ∈ vs := by
    intro hi
    obtain ⟨v, hv⟩ := h.total _ hi
    have hne : a.isNull = false := by cases a <;> first | rfl | exact (ha rfl).elim
    obtain rfl := evalBinary_eq_null o x c hne hv
    exact (h.mem_iff _).2 ⟨_, hi, hv⟩
  rw [anyOf_eq, membership]
  by_cases hmem : a ∈ items <;> by_cases htrue : .bool true ∈ vs <;>
    by_cases hn : .null ∈ items <;> by_cases hv : .null ∈ vs <;> simp_all

/-- A value of the list that is equal is the value itself or a variant. -/
theorem exists_holds_iff (ha : a ≠ .null) (hk : ∀ i ∈ items, i = .null ∨ Comparable a i)
    (h : Chain o x c a items vs) :
    (∃ i ∈ items, Holds o x c .eq a i) ↔
      (a ∈ items ∧ SelfEqual o x c a) ∨ ∃ i ∈ items, Variants o x c a i := by
  have hiff : ∀ i ∈ items, Holds o x c .eq a i ↔ (a = i ∧ SelfEqual o x c a) ∨ Variants o x c a i := by
    intro i hi
    obtain ⟨v, hv⟩ := h.total i hi
    rcases hk i hi with rfl | hk
    · have hnot : ¬ Variants o x c a .null := by cases a <;> exact id
      rw [Holds, hv, evalBinary_eq_null o x c (by cases a <;> first | rfl | exact (ha rfl).elim) hv]
      simp [ha, hnot]
    · exact holds_eq_iff hk hv
  constructor
  · rintro ⟨i, hi, hh⟩
    rcases (hiff i hi).1 hh with ⟨rfl, hself⟩ | hv
    · exact .inl ⟨hi, hself⟩
    · exact .inr ⟨i, hi, hv⟩
  · rintro (⟨hi, hself⟩ | ⟨i, hi, hv⟩)
    · exact ⟨a, hi, (hiff a hi).2 (.inl ⟨rfl, hself⟩)⟩
    · exact ⟨i, hi, (hiff i hi).2 (.inr hv)⟩

/-- A NULL of the chain comes from a NULL of the list or from arrays. -/
theorem exists_null_iff (hk : ∀ i ∈ items, i = .null ∨ Comparable a i)
    (hnull : .null ∉ items) :
    (∃ i ∈ items, evalBinary (sqlOps o x c) .eq a i = .ok .null) ↔
      ∃ i ∈ items, ArraysUnknown o x c a i := by
  refine exists_congr fun i => and_congr_right fun hi => ?_
  exact evalBinary_eq_null_iff ((hk i hi).resolve_left fun h => hnull (h ▸ hi))

/-- Where `=` has a result for every value of the list, all of one kind, `IN` and `NOT IN`, with
either test, are the chain of equalities and its negation just if the list does not part the value
from its variants. -/
theorem in_subquery_iff (hk : a ≠ .null → ∀ i ∈ firstColumn rows, i = .null ∨ Comparable a i)
    (h : Chain o x c a (firstColumn rows) vs) :
    (∀ negated, evalInSubquery (runInCheck rows) a negated = negateIf negated (anyOf vs) ∧
      evalInSubquery (InSubquerySet.fromQueryResult rows).contains a negated =
        negateIf negated (anyOf vs)) ↔
    Decides o x c a (firstColumn rows) := by
  by_cases ha : a = .null
  · subst ha
    simp only [evalInSubquery_null, and_self]
    refine ⟨fun hin => ⟨fun _ => h.null_iff.1 (hin false), ?_, ?_, ?_⟩, fun hd negated => ?_⟩
    · exact fun ⟨i, _, hv⟩ => hv.elim
    · exact fun ha => (ha rfl).elim
    · exact fun ⟨i, _, hv⟩ => hv.elim
    rw [← h.null_iff.2 (hd.nonempty rfl)]
    cases negated <;> rfl
  have hiff := h.membership_iff ha
  rw [h.mem_iff, h.mem_iff] at hiff
  have hholds := exists_holds_iff ha (hk ha) h
  simp only [runInCheck_eq ha, contains_eq ha, and_self]
  constructor
  · intro hin
    obtain ⟨hfound, hunknown⟩ := hiff.1 (hin false)
    replace hfound := hfound.trans hholds
    refine ⟨fun h => (ha h).elim, fun hv => hfound.2 (.inr hv), fun _ hmem => ?_, fun hu => ?_⟩
    · exact (hfound.1 hmem).imp_left And.right
    · by_cases hnull : .null ∈ firstColumn rows
      · exact .inl hnull
      · exact hunknown ((exists_null_iff (hk ha) hnull).2 hu)
  · intro hd negated
    have hfound : a ∈ firstColumn rows ↔ ∃ i ∈ firstColumn rows, Holds o x c .eq a i := by
      rw [hholds]
      exact ⟨fun hmem => (hd.self ha hmem).imp_left (.intro hmem),
        fun hor => hor.elim And.left hd.variant⟩
    rw [hiff.2 ⟨hfound, fun hu => ?_⟩]
    by_cases hnull : .null ∈ firstColumn rows
    · exact .inl hnull
    · exact hd.unknown ((exists_null_iff (hk ha) hnull).1 hu)

/-- `'Jose' NOT IN` a list of two spellings and NULL, without regard to case. -/
theorem in_subquery_iff_spellings :
    evalInSubquery (runInCheck [[.text joseCapitals], [.text joseCapital], [.null]])
      (.text joseCapital) true = .bool false := by
  have h : Chain plainOps joseText .es (.text joseCapital)
      (firstColumn [[.text joseCapitals], [.text joseCapital], [.null]])
      [.bool true, .bool true, .null] := by
    have htext : ∀ s, evalBinary (sqlOps plainOps joseText .es) .eq (.text joseCapital) (.text s) = _ :=
      evalBinary_text plainOps joseText .es rfl joseCapital
    exact .cons (htext _) (.cons (htext _) (.cons rfl .nil))
  refine ((in_subquery_iff (fun _ i hi => ?_) h).2 ⟨?_, fun _ => ?_, fun _ _ => .inl trivial, ?_⟩ true).1
  · simp only [firstColumn, map_cons, map_nil, headD_cons, mem_cons, not_mem_nil, or_false] at hi
    rcases hi with rfl | rfl | rfl
    · exact .inr ⟨rfl, rfl⟩
    · exact .inr ⟨rfl, rfl⟩
    · exact .inl rfl
  · intro hnull
    cases hnull
  · simp [firstColumn]
  · exact fun _ => .inl (by simp [firstColumn])

/-- `1 IN (SELECT 1)` is false if the column is BIGINT, and `NULL IN` an empty list is NULL. -/
theorem in_subquery_misses :
    Holds plainOps joseText .binary .eq (.int (SInt.wrap 32 1)) (.bigInt (SInt.wrap 64 1)) ∧
      evalInSubquery (InSubquerySet.fromQueryResult [[.bigInt (SInt.wrap 64 1)]]).contains
        (.int (SInt.wrap 32 1)) false = .bool false ∧
      anyOf [] = .bool false ∧ evalInSubquery (runInCheck []) .null false = .null := by
  refine ⟨rfl, ?_, rfl, evalInSubquery_null _ _⟩
  rw [contains_eq (by simp)]
  simp [negateIf, membership, firstColumn]

end AxiomDb.Row
