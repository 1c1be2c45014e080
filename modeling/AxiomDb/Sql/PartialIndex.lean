import AxiomDb.Sql.Coherence
import AxiomDb.Sql.DeleteCandidates

/-!
# Partial indexes

The planner takes a partial index if a clause of the WHERE is, by its form, the predicate of the
index. The entries were made under the binary collation, and the WHERE holds under that of the
session. `implied_predicate_holds` says when the two agree: no text meets a text under another
collation, and no label path stands on the other side of a text.
-/

namespace AxiomDb.Row

open Lib Sql List Except

/-- `exprs_same_col` in `partial_index.rs`. -/
@[simp] def exprsSameCol : Expr → Expr → Bool
  | .column ia, .column ib => ia == ib
  | _, _ => false

/-- `exprs_same_literal` in `partial_index.rs`. -/
@[simp] def exprsSameLiteral : Expr → Expr → Bool
  | .literal va, .literal vb => va == vb
  | _, _ => false

/-- `exprs_imply` in `partial_index.rs`. -/
@[simp] def exprsImply (pred clause : Expr) : Bool :=
  match pred, clause with
  | .isNull pCol false, .isNull cCol false => exprsSameCol pCol cCol
  | .isNull pCol true, .isNull cCol true => exprsSameCol pCol cCol
  | .binaryOp .eq pL pR, .binaryOp .eq cL cR =>
    exprsSameCol pL cL && exprsSameLiteral pR cR || exprsSameCol pR cR && exprsSameLiteral pL cL ||
      -- the sides are exchanged
      exprsSameCol pL cR && exprsSameLiteral pR cL || exprsSameCol pR cL && exprsSameLiteral pL cR
  | _, _ => false

/-- `collect_and_clauses` in `partial_index.rs`. -/
@[simp] def collectAndClauses : Expr → List Expr
  | .binaryOp .and left right => collectAndClauses left ++ collectAndClauses right
  | other => [other]

/-- The predicate as `compile_predicate_sql` has compiled it. -/
@[simp] def predicateImpliedByQuery (compiled queryWhere : Option Expr) : Bool :=
  match queryWhere, compiled with
  | some queryExpr, some predExpr => (collectAndClauses queryExpr).any (exprsImply predExpr)
  | _, _ => false

variable {o : Ops} {x : TextOps} {c : SessionCollation} {row : List Value}

theorem eval_clause {e : Expr} (h : eval o row e = .ok (.bool true)) :
    ∀ clause ∈ collectAndClauses e, eval o row clause = .ok (.bool true) := by
  fun_induction collectAndClauses e with
  | case1 left right ihl ihr =>
    rw [eval] at h
    obtain ⟨hl, hr⟩ := evalAnd_eq_true h
    exact forall_mem_append.mpr ⟨ihl hl, ihr hr⟩
  | case2 => simpa using h

/-- A comparison of a column with a literal, whichever comes first. -/
inductive Expr.Compares : Expr → Nat → Value → Prop where
  | columnFirst (i : Nat) (v : Value) : Compares (.binaryOp .eq (.column i) (.literal v)) i v
  | literalFirst (i : Nat) (v : Value) : Compares (.binaryOp .eq (.literal v) (.column i)) i v

/-- A clause that implies a predicate is the predicate, or compares the same column with the same
literal and has its sides exchanged. -/
theorem form_of_exprsImply {pred clause : Expr} (h : exprsImply pred clause) :
    (∃ i negated, pred = .isNull (.column i) negated ∧ clause = pred) ∨
      ∃ i v, pred.Compares i v ∧ clause.Compares i v := by
  have hcol {a b : Expr} (h : exprsSameCol a b) : ∃ i, a = .column i ∧ b = .column i := by
    cases a <;> cases b <;> simp at h ⊢
    exact h.symm
  have hlit {a b : Expr} (h : exprsSameLiteral a b) : ∃ v, a = .literal v ∧ b = .literal v := by
    cases a <;> cases b <;> simp at h ⊢
    exact h.symm
  unfold exprsImply at h
  split at h
  case h_1 | h_2 =>
    obtain ⟨i, rfl, rfl⟩ := hcol h
    exact .inl ⟨i, _, rfl, rfl⟩
  case h_3 =>
    simp only [Bool.or_eq_true, Bool.and_eq_true] at h
    rcases h with ((⟨h, h'⟩ | ⟨h, h'⟩) | ⟨h, h'⟩) | ⟨h, h'⟩ <;> obtain ⟨i, rfl, rfl⟩ := hcol h <;>
      obtain ⟨v, rfl, rfl⟩ := hlit h'
    case inl.inl.inl => exact .inr ⟨i, v, .columnFirst i v, .columnFirst i v⟩
    case inl.inl.inr => exact .inr ⟨i, v, .literalFirst i v, .literalFirst i v⟩
    case inl.inr => exact .inr ⟨i, v, .columnFirst i v, .literalFirst i v⟩
    case inr => exact .inr ⟨i, v, .literalFirst i v, .columnFirst i v⟩
  case h_4 => cases h

/-! ## The collation -/

mutual
/-- No text, and no array with a text in it. -/
def Value.isTextFree : Value → Bool
  | .text _ => false
  | .array vs => allTextFree vs
  | _ => true

def allTextFree : List Value → Bool
  | [] => true
  | v :: vs => v.isTextFree && allTextFree vs
end

/-- No collation is looked at for two values one of which has no text. -/
theorem compareValues_collation {l r : Value} (h : l.isTextFree ∨ r.isTextFree) :
    compareValues (sqlOps o x c) l r = compareValues (sqlOps o x .binary) l r := by
  have hother : compareOther o x c l r = compareOther o x .binary l r := by
    unfold compareOther
    split
    case h_6 => simp [Value.isTextFree] at h
    all_goals rfl
  unfold compareValues
  split
  case h_15 => exact hother
  all_goals rfl

theorem elemsEqual_collation (as bs : List Value) (h : allTextFree as ∨ allTextFree bs) :
    elemsEqual (compareValues (sqlOps o x c)) as bs =
      elemsEqual (compareValues (sqlOps o x .binary)) as bs := by
  fun_induction elemsEqual (compareValues (sqlOps o x c)) as bs
  case case1 | case2 => simp [elemsEqual]
  case case3 hlen => simp [elemsEqual, hlen]
  case case4 hlen ih ih' =>
    simp only [allTextFree, Value.isTextFree, Bool.and_eq_true] at h
    rw [ih (by tauto), ih' (by tauto)]
    simp [elemsEqual, hlen]
  case case5 hl hr harr ih =>
    simp only [allTextFree, Bool.and_eq_true] at h
    rw [compareValues_collation (by tauto), ih (by tauto)]
    rw [elemsEqual]
    all_goals assumption
  case case6 h' => rw [elemsEqual]; exact h'

theorem evalBinary_collation {l r : Value} (h : l.isTextFree ∨ r.isTextFree) :
    evalBinary (sqlOps o x c) .eq l r = evalBinary (sqlOps o x .binary) .eq l r := by
  by_cases hd : l.dispatches r
  · rw [evalBinary_of_dispatches o x c rfl hd, evalBinary_of_dispatches o x .binary rfl hd]
    cases l with
    | array as =>
      cases r with
      | array bs =>
        show arrayEquals _ as (.array bs) = arrayEquals _ as (.array bs)
        rw [arrayEquals, arrayEquals, elemsEqual_collation as bs h]
      | _ => rfl
    | _ => cases r <;> rfl
  · have hne : ∀ s t, l = .text s → r = .text t → False := by
      rintro _ _ rfl rfl
      simp [Value.isTextFree] at h
    rw [evalBinary, evalBinary, if_neg hd, if_neg hd, evalComparison, evalComparison,
      compareValues_collation h]
    all_goals exact fun s t hl hr _ => hne s t hl hr

/-! ## Exchanged sides -/

/-- The comparisons that are left to `Ops` find the same values equal from either side. -/
def Ops.Symmetric (o : Ops) : Prop :=
  ∀ l r, isLoose l r → o.compareOther l r = .ok .eq → o.compareOther r l = .ok .eq

/-- A label path and a text: a text on the left has no comparison with a label path. -/
def labelAndText : Value → Value → Bool
  | .ltree _, .text _ | .text _, .ltree _ => true
  | _, _ => false

theorem compareScaled_eq_symm {m₁ m₂ : Int} {s₁ s₂ : Nat} (h : compareScaled m₁ s₁ m₂ s₂ = .eq) :
    compareScaled m₂ s₂ m₁ s₁ = .eq := by
  unfold compareScaled at h ⊢
  rcases lt_trichotomy s₁ s₂ with hs | rfl | hs
  · rw [if_neg hs.ne, if_neg hs.not_gt] at h
    rw [if_neg hs.ne', if_pos hs, Std.OrientedCmp.eq_comm]
    exact h
  · rw [if_pos rfl] at h ⊢
    exact Std.OrientedCmp.eq_symm h
  · rw [if_neg hs.ne', if_pos hs] at h
    rw [if_neg hs.ne, if_neg hs.not_gt, Std.OrientedCmp.eq_comm]
    exact h

theorem compareText_eq_symm {s t : Utf8} (h : x.compareText c s t = .eq) :
    x.compareText c t s = .eq := by
  cases c with
  | binary =>
    simp only [TextOps.compareText] at h ⊢
    exact Std.OrientedCmp.eq_symm h
  | es =>
    simp only [TextOps.compareText, Ordering.then_eq_eq] at h ⊢
    exact h.imp Std.OrientedCmp.eq_symm Std.OrientedCmp.eq_symm
  | icu locale =>
    have := x.trans locale
    simp only [TextOps.compareText] at h ⊢
    exact Std.OrientedCmp.eq_symm h

theorem textEq_symm {s t : Utf8} (h : x.textEq c s t) : x.textEq c t s := by
  cases c with
  | icu locale =>
    have := x.trans locale
    simp only [TextOps.textEq, beq_iff_eq] at h ⊢
    exact Std.OrientedCmp.eq_symm h
  | _ =>
    simp only [TextOps.textEq, beq_iff_eq] at h ⊢
    exact h.symm

theorem compareIntDecimal_eq_swap {l r : Value} {n m : Int} {s : Nat}
    (h : compareIntDecimal l r n m s = .ok .eq) :
    (compareIntDecimal r l n m s).map Ordering.swap = .ok .eq := by
  unfold compareIntDecimal at h ⊢
  split at h
  · injection h with h
    simp [Except.map, h]
  · cases h

theorem compareIntDecimal_swap_eq {l r : Value} {n m : Int} {s : Nat}
    (h : (compareIntDecimal l r n m s).map Ordering.swap = .ok .eq) :
    compareIntDecimal r l n m s = .ok .eq := by
  unfold compareIntDecimal at h ⊢
  split at h
  · simpa [Except.map, Ordering.swap_eq_eq] using h
  · cases h

theorem isLoose_symm {l r : Value} (h : isLoose l r) : isLoose r l := by
  unfold isLoose at h
  split at h
  case h_13 => cases h
  all_goals rfl

theorem compareValues_of_isLoose {l r : Value} (h : isLoose l r) :
    compareValues (sqlOps o x c) l r = o.compareOther l r := by
  unfold isLoose at h
  split at h
  case h_13 => cases h
  all_goals rfl

/-- Equality by `compare_values` does not depend on the side. -/
theorem compareValues_eq_symm (ho : o.Symmetric) {l r : Value}
    (h : compareValues (sqlOps o x c) l r = .ok .eq) :
    compareValues (sqlOps o x c) r l = .ok .eq := by
  have hsymm {α : Type} {cmp : α → α → Ordering} [Std.OrientedCmp cmp] {a b : α}
      (h : (.ok (cmp a b) : Except EvalError Ordering) = .ok .eq) :
      (.ok (cmp b a) : Except EvalError Ordering) = .ok .eq :=
    congrArg _ (Std.OrientedCmp.eq_symm (Except.ok.inj h))
  unfold compareValues at h
  split at h
  case h_8 a b =>
    simp only [compareValues, f64PartialCmp, Bool.or_comm] at h ⊢
    split_ifs at h ⊢ with hnan
    exact hsymm h
  case h_15 =>
    change compareOther o x c l r = _ at h
    unfold compareOther at h
    split at h
    case h_1 => exact congrArg _ (compareScaled_eq_symm (Except.ok.inj h))
    case h_2 | h_3 => exact compareIntDecimal_eq_swap h
    case h_4 | h_5 => exact compareIntDecimal_swap_eq h
    case h_6 => exact congrArg _ (compareText_eq_symm (Except.ok.inj h))
    case h_12 =>
      split_ifs at h with hloose
      · rw [compareValues_of_isLoose (isLoose_symm hloose)]
        exact ho _ _ hloose h
      · cases h
    all_goals exact hsymm h
  all_goals first | exact hsymm h | cases h

theorem elemsEqual_symm (ho : o.Symmetric) (as bs : List Value)
    (h : elemsEqual (compareValues (sqlOps o x c)) as bs = .ok (.bool true))
    (hlen : as.length = bs.length) :
    elemsEqual (compareValues (sqlOps o x c)) bs as = .ok (.bool true) := by
  fun_induction elemsEqual (compareValues (sqlOps o x c)) as bs
  case case1 | case2 => cases h
  case case3 => cases h
  case case4 as bs as' bs' hlen' ih ih' =>
    rw [length_cons, length_cons] at hlen
    obtain ⟨w, hw, h⟩ := bind_eq_ok.1 h
    split at h
    · have hlen'' := not_not.mp hlen'
      rw [elemsEqual, if_neg (by rw [hlen'']; simp), ih hw hlen'']
      exact ih' h (by omega)
    all_goals cases h
  case case5 as bs a b ha hb harr ih =>
    rw [length_cons, length_cons] at hlen
    obtain ⟨ord, hord, h⟩ := bind_eq_ok.1 h
    split at h
    · cases h
    · rename_i hord'
      have heq := not_not.mp hord'
      subst heq
      rw [elemsEqual, compareValues_eq_symm ho hord]
      · exact ih h (by omega)
      · exact hb
      · exact ha
      · exact fun bs' as' hbs has => harr as' bs' has hbs
  case case6 as bs hne =>
    cases as <;> cases bs <;> simp_all [elemsEqual]

/-- Equality does not depend on the side, but for a label path and a text. -/
theorem evalBinary_eq_symm (ho : o.Symmetric) {l r : Value} (hlabel : labelAndText l r = false)
    (h : evalBinary (sqlOps o x c) .eq l r = .ok (.bool true)) :
    evalBinary (sqlOps o x c) .eq r l = .ok (.bool true) := by
  by_cases hd : l.dispatches r
  · rw [evalBinary_of_dispatches o x c rfl hd] at h
    cases l with
    | array as =>
      cases r with
      | array bs =>
        rw [evalBinary_of_dispatches o x c rfl rfl]
        rw [dispatch, evalBinaryArray, arrayEquals] at h ⊢
        by_cases hlen : as.length = bs.length
        · rw [if_neg (not_not.mpr hlen)] at h
          rw [if_neg (not_not.mpr hlen.symm)]
          exact elemsEqual_symm ho as bs h hlen
        · rw [if_pos hlen] at h
          cases h
      | _ => cases h
    | range a =>
      cases r with
      | range b =>
        have hab : a = b := by
          change Except.ok (Value.bool (decide (a = b))) = _ at h
          simpa using h
        subst hab
        rw [evalBinary_of_dispatches o x c rfl rfl]
        exact h
      | _ => cases h
    | ltree a =>
      cases r with
      | ltree b =>
        rw [evalBinary_of_dispatches o x c rfl rfl]
        change Except.ok (Value.bool (compare a.bytes b.bytes == .eq)) = _ at h
        show Except.ok (Value.bool (compare b.bytes a.bytes == .eq)) = _
        have hab : compare a.bytes b.bytes = .eq := by simpa using h
        rw [Std.OrientedCmp.eq_symm hab]
        rfl
      | text => cases hlabel
      | _ => cases h
    | money m s cur =>
      cases r with
      | money m' s' cur' =>
        rw [evalBinary_of_dispatches o x c rfl rfl]
        rw [dispatch, evalBinaryMoney] at h ⊢
        by_cases hcur : cur = cur'
        · rw [if_pos hcur] at h
          have heq : compareScaled m.val s.val m'.val s'.val = .eq := by
            simpa [BinaryOp.holds] using h
          rw [if_pos hcur.symm, compareScaled_eq_symm heq]
          rfl
        · rw [if_neg hcur] at h
          cases h
      | _ => cases h
    | _ =>
      cases r <;> cases hd
      cases h
  · by_cases hd' : r.dispatches l
    -- a value without operators of its own is not compared with one that has them
    · cases r with
      | array | range | money | ltree =>
        cases l <;> first | exact (hd rfl).elim | cases h
      | _ => cases l <;> first | exact (hd rfl).elim | cases hd'
    · rw [evalBinary, if_neg hd] at h
      rw [evalBinary, if_neg hd', Bool.or_comm]
      split_ifs at h ⊢ with hnull
      · cases h
      unfold evalComparison at h
      split at h
      case h_1 a b _ =>
        have hab : x.textEq c a b := by simpa [sqlOps] using h
        simpa [evalComparison, sqlOps] using textEq_symm hab
      case h_2 hne =>
        obtain ⟨ord, hord, h⟩ := bind_eq_ok.1 h
        have heq : ord = .eq := by simpa [BinaryOp.holds] using h
        subst heq
        rw [evalComparison, compareValues_eq_symm ho hord]
        · rfl
        · exact fun b a hb ha _ => hne a b ha hb rfl

variable {e clause : Expr} {i : Nat} {u v : Value}

theorem Expr.Compares.lookup (h : e.Compares i v) (heval : eval o row e = .ok (.bool true)) :
    ∃ u, row[i]? = some u := by
  cases hrow : row[i]? with
  | some u => exact ⟨u, rfl⟩
  | none => cases h <;> simp only [eval, hrow] at heval <;> cases heval

theorem Expr.Compares.collation (h : e.Compares i v) (hu : row[i]? = some u)
    (htext : c = .binary ∨ u.isTextFree ∨ v.isTextFree) :
    eval (sqlOps o x c) row e = eval (sqlOps o x .binary) row e := by
  rcases htext with rfl | htext
  · rfl
  cases h <;> simp only [eval, BinaryOp.isComparison, if_true, hu]
  · exact evalBinary_collation htext
  · exact evalBinary_collation htext.symm

theorem Expr.Compares.exchange (ho : o.Symmetric) (h : e.Compares i v) (h' : clause.Compares i v)
    (hu : row[i]? = some u) (hlabel : labelAndText u v = false)
    (heval : eval (sqlOps o x c) row clause = .ok (.bool true)) :
    eval (sqlOps o x c) row e = .ok (.bool true) := by
  have hlabel' : labelAndText v u = false := by
    rw [← hlabel]
    cases u <;> cases v <;> rfl
  cases h <;> cases h' <;> simp only [eval, BinaryOp.isComparison, if_true, hu] at heval ⊢
  · exact heval
  · exact evalBinary_eq_symm ho hlabel' heval
  · exact evalBinary_eq_symm ho hlabel heval
  · exact heval

end AxiomDb.Row
