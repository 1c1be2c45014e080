import AxiomDb.Sql.StatementWalks

/-!
# When a cached plan is the statement's own

The hash passes over some of a statement: whether `IS NULL`, `BETWEEN`, `IN` and `LIKE` are
negated, the `ESCAPE` of a `LIKE`, join conditions, aliases, the rows of an `INSERT` after the
first, the literals that stay in `GROUP BY` and `ORDER BY`. Two statements with one hash share a
plan just if their shapes agree in what is passed over.
-/

namespace AxiomDb.StatementCache

open Lib List Option Fed
open Row (Value DataType BinaryOp UnaryOp)

/-! ## What the hash passes over -/

inductive Skipped where
  | flag (b : Bool)
  | number (n : Nat)
  | value (v : Value)
  | str (s : String)
  | optStr (s : Option String)
  | strs (l : List String)
  | escape (e : Option Expr)
  | condition (c : JoinCondition)
  | nulls (n : Option NullsOrder)
  | rows (rows : List (List Expr))

mutual

def skippedExpr : Expr → List Skipped
  | .literal v => [.value v]
  | .column colIdx _ => [.number colIdx]
  | .binaryOp _ left right => skippedExpr left ++ skippedExpr right
  | .unaryOp _ operand => skippedExpr operand
  | .isNull expr negated => .flag negated :: skippedExpr expr
  | .between expr low high negated =>
    .flag negated :: (skippedExpr expr ++ (skippedExpr low ++ skippedExpr high))
  | .inList expr list negated => .flag negated :: (skippedExpr expr ++ skippedExprs list)
  | .like expr pattern negated escape =>
    .flag negated :: .escape escape :: (skippedExpr expr ++ skippedExpr pattern)
  | .function _ args => skippedExprs args
  | .cast expr _ => skippedExpr expr
  | _ => []

def skippedExprs : List Expr → List Skipped
  | [] => []
  | e :: es => skippedExpr e ++ skippedExprs es

end

def skippedTable (t : TableRef) : List Skipped :=
  [.optStr t.database, .optStr t.aliasName, .optStr t.tablesample]

def skippedFrom : FromClause → List Skipped
  | .table t => skippedTable t
  | .unnest exprs aliasName columnNames lateral =>
    .optStr aliasName :: .strs columnNames :: .flag lateral :: skippedExprs exprs
  | .generateSeries start stop step aliasName columnName =>
    .optStr aliasName :: .optStr columnName ::
      (skippedExpr start ++ (skippedExpr stop ++ skippedExprs step.toList))
  | .other _ _ => []

def skippedJoin (j : JoinClause) : List Skipped :=
  .condition j.condition :: .flag j.natural :: skippedFrom j.table

def skippedItem : SelectItem → List Skipped
  | .wildcard => []
  | .qualifiedWildcard table => [.str table]
  | .expr e aliasName => .optStr aliasName :: skippedExpr e

def skippedGroupBy : GroupByClause → List Skipped
  | .simple exprs => skippedExprs exprs
  | _ => []

def skippedOrderBy (ob : OrderByItem) : List Skipped := .nulls ob.nulls :: skippedExpr ob.expr

def skippedSelect (s : SelectStmt) : List Skipped :=
  s.fromClause.toList.flatMap skippedFrom ++ (s.joins.flatMap skippedJoin ++
    (s.columns.flatMap skippedItem ++ (skippedExprs s.whereClause.toList ++
    (skippedGroupBy s.groupBy ++ (s.orderBy.flatMap skippedOrderBy ++
    (skippedExprs s.limit.toList ++ skippedExprs s.offset.toList))))))

def skippedSource : InsertSource → List Skipped
  | .values (first :: rows) => .rows rows :: skippedExprs first
  | _ => []

/-- What `hash_stmt` does not feed to the hasher, of a statement that is eligible. -/
def skippedStmt : Stmt → List Skipped
  | .select s => skippedSelect s
  | .insert s => skippedTable s.table ++ skippedSource s.source
  | .update s => skippedTable s.table ++
    (s.assignments.flatMap (fun a => skippedExpr a.value) ++ skippedExprs s.whereClause.toList)
  | .delete s => skippedTable s.table ++ skippedExprs s.whereClause.toList
  | .other _ => []

/-! ## Shape and hash -/

theorem hashExprs_eq (es : List Expr) : hashExprs es = es.flatMap hashExpr := by
  induction es with
  | nil => rfl
  | cons e es ih => rw [hashExprs, ih, flatMap_cons]

theorem skippedExprs_eq (es : List Expr) : skippedExprs es = es.flatMap skippedExpr := by
  induction es with
  | nil => rfl
  | cons e es ih => rw [skippedExprs, ih, flatMap_cons]

variable {es : List Expr} {r r' : List Fed} {i i' : List Skipped} {α : Type}

theorem exprsAreCacheSimple_iff : exprsAreCacheSimple es ↔ ∀ e ∈ es, exprIsCacheSimple e := by
  induction es with
  | nil => simp [exprsAreCacheSimple]
  | cons e es ih => simp [exprsAreCacheSimple, ih]

mutual

/-- An expression that is simple enough is determined by what is hashed of it and what is not. -/
theorem readExpr : ∀ e e' : Expr, exprIsCacheSimple e → exprIsCacheSimple e' →
    ∀ r r' i i', hashExpr e ++ r = hashExpr e' ++ r' → skippedExpr e ++ i = skippedExpr e' ++ i' →
      e = e' ∧ r = r' ∧ i = i'
  | .literal v, e', _, h', r, r', i, i', hr, hi => by
    cases e' with
    | literal v' =>
      simp only [hashExpr, skippedExpr, cons_append, nil_append, cons.injEq, true_and,
        Skipped.value.injEq] at hr hi
      exact ⟨by rw [hi.1], hr, hi.2⟩
    | _ => simp [hashExpr, exprIsCacheSimple] at hr h'
  | .column c n, e', _, h', r, r', i, i', hr, hi => by
    cases e' with
    | column c' n' =>
      simp only [hashExpr, skippedExpr, cons_append, nil_append, cons.injEq, true_and,
        str.injEq, Skipped.number.injEq] at hr hi
      exact ⟨by rw [hr.1, hi.1], hr.2, hi.2⟩
    | _ => simp [hashExpr, exprIsCacheSimple] at hr h'
  | .param n, e', _, h', r, r', i, i', hr, hi => by
    cases e' with
    | param n' => simpa [hashExpr, skippedExpr, and_assoc] using And.intro hr hi
    | _ => simp [hashExpr, exprIsCacheSimple] at hr h'
  | .collate _ _, _, h, _, _, _, _, _, _, _ => absurd h (by simp [exprIsCacheSimple])
  | .other _ _, _, h, _, _, _, _, _, _, _ => absurd h (by simp [exprIsCacheSimple])
  | .unaryOp op e, e', h, h', r, r', i, i', hr, hi => by
    cases e' with
    | unaryOp op' e' =>
      rw [exprIsCacheSimple] at h h'
      simp only [hashExpr, skippedExpr, cons_append, cons.injEq, true_and, unaryOp.injEq] at hr hi
      obtain ⟨rfl, rfl, rfl⟩ := readExpr e e' h h' r r' i i' hr.2 hi
      exact ⟨by rw [hr.1], rfl, rfl⟩
    | _ => simp [hashExpr, exprIsCacheSimple] at hr h'
  | .isNull e negated, e', h, h', r, r', i, i', hr, hi => by
    cases e' with
    | isNull e' negated' =>
      rw [exprIsCacheSimple] at h h'
      simp only [hashExpr, skippedExpr, cons_append, cons.injEq, true_and,
        Skipped.flag.injEq] at hr hi
      obtain ⟨rfl, rfl, rfl⟩ := readExpr e e' h h' r r' i i' hr hi.2
      exact ⟨by rw [hi.1], rfl, rfl⟩
    | _ => simp [hashExpr, exprIsCacheSimple] at hr h'
  | .cast e target, e', h, h', r, r', i, i', hr, hi => by
    cases e' with
    | cast e' target' =>
      rw [exprIsCacheSimple] at h h'
      simp only [hashExpr, skippedExpr, cons_append, cons.injEq, true_and, dataType.injEq] at hr hi
      obtain ⟨rfl, rfl, rfl⟩ := readExpr e e' h h' r r' i i' hr.2 hi
      exact ⟨by rw [hr.1], rfl, rfl⟩
    | _ => simp [hashExpr, exprIsCacheSimple] at hr h'
  | .binaryOp op l m, e', h, h', r, r', i, i', hr, hi => by
    cases e' with
    | binaryOp op' l' m' =>
      rw [exprIsCacheSimple, Bool.and_eq_true] at h h'
      simp only [hashExpr, skippedExpr, cons_append, append_assoc, cons.injEq, true_and,
        binaryOp.injEq] at hr hi
      obtain ⟨rfl, hr2, hi2⟩ := readExpr l l' h.1 h'.1 _ _ _ _ hr.2 hi
      obtain ⟨rfl, rfl, rfl⟩ := readExpr m m' h.2 h'.2 _ _ _ _ hr2 hi2
      exact ⟨by rw [hr.1], rfl, rfl⟩
    | _ => simp [hashExpr, exprIsCacheSimple] at hr h'
  | .like e p negated escape, e', h, h', r, r', i, i', hr, hi => by
    cases e' with
    | like e' p' negated' escape' =>
      rw [exprIsCacheSimple, Bool.and_eq_true] at h h'
      simp only [hashExpr, skippedExpr, cons_append, append_assoc, cons.injEq, true_and,
        Skipped.flag.injEq, Skipped.escape.injEq] at hr hi
      obtain ⟨rfl, hr2, hi2⟩ := readExpr e e' h.1 h'.1 _ _ _ _ hr hi.2.2
      obtain ⟨rfl, rfl, rfl⟩ := readExpr p p' h.2 h'.2 _ _ _ _ hr2 hi2
      exact ⟨by rw [hi.1, hi.2.1], rfl, rfl⟩
    | _ => simp [hashExpr, exprIsCacheSimple] at hr h'
  | .between e low high negated, e', h, h', r, r', i, i', hr, hi => by
    cases e' with
    | between e' low' high' negated' =>
      rw [exprIsCacheSimple, Bool.and_eq_true, Bool.and_eq_true] at h h'
      simp only [hashExpr, skippedExpr, cons_append, append_assoc, cons.injEq, true_and,
        Skipped.flag.injEq] at hr hi
      obtain ⟨rfl, hr2, hi2⟩ := readExpr e e' h.1.1 h'.1.1 _ _ _ _ hr hi.2
      obtain ⟨rfl, hr3, hi3⟩ := readExpr low low' h.1.2 h'.1.2 _ _ _ _ hr2 hi2
      obtain ⟨rfl, rfl, rfl⟩ := readExpr high high' h.2 h'.2 _ _ _ _ hr3 hi3
      exact ⟨by rw [hi.1], rfl, rfl⟩
    | _ => simp [hashExpr, exprIsCacheSimple] at hr h'
  | .inList e list negated, e', h, h', r, r', i, i', hr, hi => by
    cases e' with
    | inList e' list' negated' =>
      rw [exprIsCacheSimple, Bool.and_eq_true] at h h'
      simp only [hashExpr, skippedExpr, cons_append, append_assoc, cons.injEq, true_and,
        Skipped.flag.injEq] at hr hi
      obtain ⟨rfl, hr2, hi2⟩ := readExpr e e' h.1 h'.1 _ _ _ _ hr hi.2
      obtain ⟨hlen, hr2⟩ := cons.inj hr2
      obtain ⟨rfl, rfl, rfl⟩ := readExprs list list' (by simpa using hlen) h.2 h'.2 _ _ _ _ hr2 hi2
      exact ⟨by rw [hi.1], rfl, rfl⟩
    | _ => simp [hashExpr, exprIsCacheSimple] at hr h'
  | .function name args, e', h, h', r, r', i, i', hr, hi => by
    cases e' with
    | function name' args' =>
      rw [exprIsCacheSimple] at h h'
      simp only [hashExpr, skippedExpr, cons_append, cons.injEq, true_and, str.injEq,
        u32.injEq] at hr hi
      obtain ⟨rfl, rfl, rfl⟩ := readExprs args args' hr.2.1 h h' _ _ _ _ hr.2.2 hi
      exact ⟨by rw [hr.1], rfl, rfl⟩
    | _ => simp [hashExpr, exprIsCacheSimple] at hr h'

theorem readExprs : ∀ es es' : List Expr, es.length = es'.length → exprsAreCacheSimple es →
    exprsAreCacheSimple es' → ∀ r r' i i', hashExprs es ++ r = hashExprs es' ++ r' →
      skippedExprs es ++ i = skippedExprs es' ++ i' → es = es' ∧ r = r' ∧ i = i'
  | [], [], _, _, _, _, _, _, _, hr, hi => ⟨rfl, hr, hi⟩
  | [], _ :: _, hlen, _, _, _, _, _, _, _, _ => absurd hlen (by simp)
  | _ :: _, [], hlen, _, _, _, _, _, _, _, _ => absurd hlen (by simp)
  | e :: es, e' :: es', hlen, h, h', r, r', i, i', hr, hi => by
    rw [exprsAreCacheSimple, Bool.and_eq_true] at h h'
    rw [hashExprs, hashExprs, append_assoc, append_assoc] at hr
    rw [skippedExprs, skippedExprs, append_assoc, append_assoc] at hi
    obtain ⟨rfl, hr, hi⟩ := readExpr e e' h.1 h'.1 _ _ _ _ hr hi
    obtain ⟨rfl, hr, hi⟩ := readExprs es es' (by simpa using hlen) h.2 h'.2 _ _ _ _ hr hi
    exact ⟨rfl, hr, hi⟩

end

theorem readable_expr : Readable hashExpr skippedExpr (fun e => exprIsCacheSimple e) :=
  readExpr

/-- Every expression starts with its discriminant. -/
def Fed.isExprStart : Fed → Prop
  | .discriminant .expr _ => True
  | _ => False

theorem hashExpr_start (e : Expr) : ∃ t u, hashExpr e = t :: u ∧ t.isExprStart := by
  cases e with
  | _ =>
    rw [hashExpr]
    exact ⟨_, _, rfl, trivial⟩

/-- Expressions that are not counted, before something else. -/
theorem readExprs_until {es' : List Expr} (h : exprsAreCacheSimple es)
    (h' : exprsAreCacheSimple es') (hstop : ∀ t ∈ r.head?, ¬t.isExprStart)
    (hstop' : ∀ t ∈ r'.head?, ¬t.isExprStart) (hr : hashExprs es ++ r = hashExprs es' ++ r')
    (hi : skippedExprs es ++ i = skippedExprs es' ++ i') : es = es' ∧ r = r' ∧ i = i' := by
  rw [hashExprs_eq, hashExprs_eq] at hr
  rw [skippedExprs_eq, skippedExprs_eq] at hi
  exact readable_expr.flatMap_until (fun e _ => hashExpr_start e) es es'
    (exprsAreCacheSimple_iff.1 h) (exprsAreCacheSimple_iff.1 h') r r' i i' hstop hstop' hr hi

theorem toList_simple {o : Option Expr} (h : o.all exprIsCacheSimple) :
    exprsAreCacheSimple o.toList := by
  cases o with
  | none => rfl
  | some e =>
    rw [toList_some, exprsAreCacheSimple, exprsAreCacheSimple, Bool.and_true]
    exact h

theorem toList_inj {o o' : Option α} (h : o.toList = o'.toList) : o = o' := by
  cases o <;> cases o' <;> simp_all

/-- An optional part behind a flag. -/
theorem readFlagged {hash : α → List Fed} {skipped : α → List Skipped} {ok : α → Bool}
    (h : Readable hash skipped (fun a => ok a)) {o o' : Option α} (ho : o.all ok)
    (ho' : o'.all ok) (hr : hashFlagged hash o ++ r = hashFlagged hash o' ++ r')
    (hi : o.toList.flatMap skipped ++ i = o'.toList.flatMap skipped ++ i') :
    o = o' ∧ r = r' ∧ i = i' := by
  cases o with
  | none =>
    cases o' with
    | none => simpa [hashFlagged] using And.intro hr hi
    | some a' => simp [hashFlagged] at hr
  | some a =>
    cases o' with
    | none => simp [hashFlagged] at hr
    | some a' =>
      simp only [hashFlagged, cons_append, cons.injEq, true_and] at hr
      simp only [toList_some, flatMap_cons, flatMap_nil, append_nil] at hi
      obtain ⟨rfl, rfl, rfl⟩ := h a a' ho ho' _ _ _ _ hr hi
      exact ⟨rfl, rfl, rfl⟩

theorem readTable {t t' : TableRef} (hr : hashTable t ++ r = hashTable t' ++ r')
    (hi : skippedTable t ++ i = skippedTable t' ++ i') : t = t' ∧ r = r' ∧ i = i' := by
  cases t
  cases t'
  simp only [hashTable, skippedTable, cons_append, nil_append, cons.injEq, str.injEq,
    optStr.injEq, Skipped.optStr.injEq] at hr hi
  obtain ⟨rfl, rfl, rfl⟩ := hr
  obtain ⟨rfl, rfl, rfl, rfl⟩ := hi
  exact ⟨rfl, rfl, rfl⟩

theorem readable_from : Readable hashFrom skippedFrom (fun f => fromIsCacheSimple f) := by
  intro f f' h h' r r' i i' hr hi
  cases f with
  | other n c => simp [fromIsCacheSimple] at h
  | table t =>
    cases f' with
    | table t' =>
      simp only [hashFrom, cons_append, nil_append, cons.injEq, true_and] at hr
      have hr' : hashTable t ++ r = hashTable t' ++ r' := by
        simp only [hashTable, cons_append, nil_append, hr]
      obtain ⟨rfl, rfl, rfl⟩ := readTable hr' hi
      exact ⟨rfl, rfl, rfl⟩
    | _ => simp [hashFrom, fromIsCacheSimple] at hr h'
  | unnest exprs aliasName names lateral =>
    cases f' with
    | unnest exprs' aliasName' names' lateral' =>
      simp only [hashFrom, skippedFrom, cons_append, cons.injEq, true_and, u32.injEq,
        Skipped.optStr.injEq, Skipped.strs.injEq, Skipped.flag.injEq] at hr hi
      obtain ⟨rfl, rfl, rfl⟩ := readExprs exprs exprs' hr.1 h h' _ _ _ _ hr.2 hi.2.2.2
      exact ⟨by rw [hi.1, hi.2.1, hi.2.2.1], rfl, rfl⟩
    | _ => simp [hashFrom, fromIsCacheSimple] at hr h'
  | generateSeries start stop step aliasName name =>
    cases f' with
    | generateSeries start' stop' step' aliasName' name' =>
      simp only [fromIsCacheSimple, Bool.and_eq_true] at h h'
      simp only [hashFrom, skippedFrom, cons_append, append_assoc, cons.injEq, true_and,
        Skipped.optStr.injEq] at hr hi
      obtain ⟨rfl, hr2, hi2⟩ := readExpr start start' h.1.1 h'.1.1 _ _ _ _ hr hi.2.2
      obtain ⟨rfl, hr3, hi3⟩ := readExpr stop stop' h.1.2 h'.1.2 _ _ _ _ hr2 hi2
      rw [skippedExprs_eq, skippedExprs_eq] at hi3
      obtain ⟨rfl, rfl, rfl⟩ := readFlagged readable_expr h.2 h'.2 hr3 hi3
      exact ⟨by rw [hi.1, hi.2.1], rfl, rfl⟩
    | _ => simp [hashFrom, fromIsCacheSimple] at hr h'

theorem JoinType.eq_of_discriminant {t t' : JoinType} (h : t.discriminant = t'.discriminant) : t = t' := by
  cases t <;> cases t' <;> first | rfl | cases h

theorem SortOrder.eq_of_discriminant {o o' : SortOrder} (h : o.discriminant = o'.discriminant) :
    o = o' := by
  cases o <;> cases o' <;> first | rfl | cases h

theorem readable_join : Readable hashJoin skippedJoin (fun j => joinIsCacheSimple j) := by
  intro j j' h h' r r' i i' hr hi
  obtain ⟨type, table, condition, natural⟩ := j
  obtain ⟨type', table', condition', natural'⟩ := j'
  simp only [joinIsCacheSimple, Bool.and_eq_true] at h h'
  simp only [hashJoin, skippedJoin, cons_append, cons.injEq, discriminant.injEq, true_and,
    Skipped.condition.injEq, Skipped.flag.injEq] at hr hi
  obtain ⟨rfl, rfl, rfl⟩ := readable_from table table' h.1 h'.1 _ _ _ _ hr.2 hi.2.2
  exact ⟨by rw [JoinType.eq_of_discriminant hr.1, hi.1, hi.2.1], rfl, rfl⟩

theorem readable_item : Readable hashItem skippedItem (fun i => itemIsCacheSimple i) := by
  intro a b h h' r r' i i' hr hi
  cases a with
  | wildcard =>
    cases b with
    | wildcard => simpa [hashItem, skippedItem] using And.intro hr hi
    | _ => simp [hashItem] at hr
  | qualifiedWildcard t =>
    cases b with
    | qualifiedWildcard t' =>
      simp only [hashItem, skippedItem, cons_append, nil_append, cons.injEq, true_and,
        Skipped.str.injEq] at hr hi
      exact ⟨by rw [hi.1], hr, hi.2⟩
    | _ => simp [hashItem] at hr
  | expr e aliasName =>
    cases b with
    | expr e' aliasName' =>
      simp only [hashItem, skippedItem, cons_append, cons.injEq, true_and,
        Skipped.optStr.injEq] at hr hi
      obtain ⟨rfl, rfl, rfl⟩ := readExpr e e' h h' _ _ _ _ hr hi.2
      exact ⟨by rw [hi.1], rfl, rfl⟩
    | _ => simp [hashItem] at hr

theorem readable_orderBy :
    Readable hashOrderBy skippedOrderBy (fun ob => exprIsCacheSimple ob.expr) := by
  intro a b h h' r r' i i' hr hi
  obtain ⟨e, order, nulls⟩ := a
  obtain ⟨e', order', nulls'⟩ := b
  simp only [hashOrderBy, skippedOrderBy, append_assoc, cons_append, nil_append,
    cons.injEq, Skipped.nulls.injEq] at hr hi
  obtain ⟨rfl, hr2, rfl⟩ := readExpr e e' h h' _ _ _ _ hr hi.2
  simp only [cons.injEq, discriminant.injEq, true_and] at hr2
  exact ⟨by rw [SortOrder.eq_of_discriminant hr2.1, hi.1], hr2.2, rfl⟩

theorem readGroupBy {a b : GroupByClause} (h : groupByIsCacheSimple a)
    (h' : groupByIsCacheSimple b) (hstop : ∀ t ∈ r.head?, ¬t.isExprStart)
    (hstop' : ∀ t ∈ r'.head?, ¬t.isExprStart) (hr : hashGroupBy a ++ r = hashGroupBy b ++ r')
    (hi : skippedGroupBy a ++ i = skippedGroupBy b ++ i') : a = b ∧ r = r' ∧ i = i' := by
  cases a with
  | none =>
    cases b with
    | none => simpa [hashGroupBy, skippedGroupBy] using And.intro hr hi
    | _ => simp [hashGroupBy] at hr
  | simple exprs =>
    cases b with
    | simple exprs' =>
      simp only [hashGroupBy, skippedGroupBy, cons_append, cons.injEq, true_and] at hr hi
      obtain ⟨rfl, rfl, rfl⟩ := readExprs_until h h' hstop hstop' hr hi
      exact ⟨rfl, rfl, rfl⟩
    | _ => simp [hashGroupBy] at hr
  | withRollup _ | sets _ _ => simp [groupByIsCacheSimple] at h

theorem readSelect {s s' : SelectStmt} (h : selectIsCacheEligible s)
    (h' : selectIsCacheEligible s') (hr : hashSelect s = hashSelect s')
    (hi : skippedSelect s = skippedSelect s') : s = s' := by
  obtain ⟨ctes, distinct, distinctOn, hints, found, columns, fromC, joins, whereC, groupBy, having,
    orderBy, limit, offset, lock, rest, outfile⟩ := s
  obtain ⟨ctes', distinct', distinctOn', hints', found', columns', fromC', joins', whereC', groupBy',
    having', orderBy', limit', offset', lock', rest', outfile'⟩ := s'
  simp only [selectIsCacheEligible, Bool.and_eq_true, List.isEmpty_iff, Bool.not_eq_true',
    isNone_iff_eq_none, and_assoc] at h h'
  obtain ⟨rfl, rfl, rfl, rfl, rfl, rfl, rfl, rfl, hg, hc, hf, hj, hw, hob, hl, ho⟩ := h
  obtain ⟨rfl, rfl, rfl, rfl, rfl, rfl, rfl, rfl, hg', hc', hf', hj', hw', hob', hl', ho'⟩ := h'
  simp only [hashSelect, skippedSelect, hashExprs, nil_append, cons.injEq, true_and,
    flag.injEq] at hr hi
  obtain ⟨rfl, hr⟩ := hr
  obtain ⟨rfl, hr, hi⟩ := readFlagged readable_from hf hf' hr hi
  obtain ⟨hlen, hr⟩ := cons.inj hr
  obtain ⟨rfl, hr, hi⟩ := readable_join.flatMap joins joins' (u32.inj hlen) (all_eq_true.1 hj)
    (all_eq_true.1 hj') _ _ _ _ hr hi
  obtain ⟨hlen, hr⟩ := cons.inj hr
  obtain ⟨rfl, hr, hi⟩ := readable_item.flatMap columns columns' (u32.inj hlen)
    (all_eq_true.1 hc) (all_eq_true.1 hc') _ _ _ _ hr hi
  have hgroup : ∀ (g : GroupByClause) (r : List Fed), ∀ t ∈ (hashGroupBy g ++ r).head?, ¬t.isExprStart := by
    intro g r t ht
    cases g <;> cases ht <;> exact id
  obtain ⟨hwhere, hr2, hi2⟩ := readExprs_until (toList_simple hw) (toList_simple hw') (hgroup _ _)
    (hgroup _ _) hr hi
  obtain rfl := toList_inj hwhere
  have hcount : ∀ (n : Nat) (r : List Fed), ∀ t ∈ (u32 n :: r).head?, ¬t.isExprStart := by
    rintro n r t ⟨⟩
    exact id
  obtain ⟨rfl, hr, hi⟩ := readGroupBy hg hg' (hcount _ _) (hcount _ _) hr2 hi2
  obtain ⟨hlen, hr⟩ := cons.inj hr
  obtain ⟨rfl, hr, hi⟩ := readable_orderBy.flatMap orderBy orderBy' (u32.inj hlen)
    (all_eq_true.1 hob) (all_eq_true.1 hob') _ _ _ _ hr hi
  simp only [skippedExprs_eq] at hi
  obtain ⟨rfl, hr, hi⟩ := readFlagged readable_expr hl hl' hr hi
  rw [← append_nil (hashFlagged hashExpr offset), ← append_nil (hashFlagged hashExpr offset')] at hr
  rw [← append_nil (offset.toList.flatMap skippedExpr),
    ← append_nil (offset'.toList.flatMap skippedExpr)] at hi
  obtain ⟨rfl, -, -⟩ := readFlagged readable_expr ho ho' hr hi
  rfl

/-- The last part of a statement, if it is an optional condition. -/
theorem readWhere {w w' : Option Expr} (h : w.all exprIsCacheSimple)
    (h' : w'.all exprIsCacheSimple) (hr : hashExprs w.toList = hashExprs w'.toList)
    (hi : skippedExprs w.toList = skippedExprs w'.toList) : w = w' := by
  rw [← append_nil (hashExprs w.toList), ← append_nil (hashExprs w'.toList)] at hr
  rw [← append_nil (skippedExprs w.toList), ← append_nil (skippedExprs w'.toList)] at hi
  exact toList_inj (readExprs_until (toList_simple h) (toList_simple h') (by simp) (by simp) hr hi).1

theorem readable_assignment : Readable hashAssignment (fun a => skippedExpr a.value)
    (fun a => exprIsCacheSimple a.value) := by
  intro a b h h' r r' i i' hr hi
  obtain ⟨column, e⟩ := a
  obtain ⟨column', e'⟩ := b
  simp only [hashAssignment, cons_append, cons.injEq, str.injEq] at hr
  obtain ⟨rfl, rfl, rfl⟩ := readExpr e e' h h' _ _ _ _ hr.2 hi
  exact ⟨by rw [hr.1], rfl, rfl⟩

def Fed.isStr : Fed → Prop
  | .str _ => True
  | _ => False

theorem readRows {rows rows' : List (List Expr)} (h : rows.all exprsAreCacheSimple)
    (h' : rows'.all exprsAreCacheSimple)
    (hr : hashSource (.values rows) = hashSource (.values rows'))
    (hi : skippedSource (.values rows) = skippedSource (.values rows')) : rows = rows' := by
  cases rows with
  | nil =>
    cases rows' with
    | nil => rfl
    | cons first' rows' => simp [hashSource] at hr
  | cons first rows =>
    obtain _ | ⟨first', rows'⟩ := rows'
    · simp [hashSource] at hr
    rw [all_cons, Bool.and_eq_true] at h h'
    simp only [hashSource, skippedSource, cons.injEq, u32.injEq, Skipped.rows.injEq] at hr hi
    rw [← append_nil (hashExprs first), ← append_nil (hashExprs first')] at hr
    rw [← append_nil (skippedExprs first), ← append_nil (skippedExprs first')] at hi
    obtain ⟨rfl, -, -⟩ := readExprs first first' hr.2.1 h.1 h'.1 _ _ _ _ hr.2.2 hi.2
    rw [hi.1]

/-- An eligible statement is determined by what is hashed of it and what is passed over. -/
theorem readStmt {s s' : Stmt} (h : isCacheEligible s) (h' : isCacheEligible s')
    (hr : hashStmt s = hashStmt s') (hi : skippedStmt s = skippedStmt s') : s = s' := by
  cases s with
  | select s =>
    cases s' with
    | select s' =>
      simp only [hashStmt, cons.injEq, true_and] at hr
      rw [readSelect h h' hr hi]
    | _ => simp [hashStmt] at hr
  | insert s =>
    cases s' with
    | insert s' =>
      simp only [hashStmt, cons.injEq, true_and] at hr
      obtain ⟨ht, htail, hi⟩ := readTable hr hi
      obtain ⟨table, columns, source, ignore, replace, returning, update, conflict⟩ := s
      obtain ⟨table', columns', source', ignore', replace', returning', update', conflict'⟩ := s'
      simp only [isCacheEligible, insertIsCacheEligible, Bool.and_eq_true, Bool.not_eq_true',
        List.isEmpty_iff, isNone_iff_eq_none] at h h'
      obtain ⟨⟨⟨⟨⟨rfl, rfl⟩, rfl⟩, rfl⟩, rfl⟩, hs⟩ := h
      obtain ⟨⟨⟨⟨⟨rfl, rfl⟩, rfl⟩, rfl⟩, rfl⟩, hs'⟩ := h'
      simp only [cons.injEq, optStrs.injEq] at htail
      obtain ⟨rfl, htail⟩ := htail
      cases source with
      | values rows =>
        cases source' with
        | values rows' => rw [readRows hs hs' htail hi, show table = table' from ht]
        | _ => simp at hs'
      | _ => simp at hs
    | _ => simp [hashStmt] at hr
  | update s =>
    cases s' with
    | update s' =>
      simp only [hashStmt, cons.injEq, true_and] at hr
      obtain ⟨ht, hr, hi⟩ := readTable hr hi
      obtain ⟨table, joins, assignments, whereC, orderBy, limit, returning⟩ := s
      obtain ⟨table', joins', assignments', whereC', orderBy', limit', returning'⟩ := s'
      simp only [isCacheEligible, updateIsCacheEligible, Bool.and_eq_true, List.isEmpty_iff,
        isNone_iff_eq_none] at h h'
      obtain ⟨⟨⟨⟨⟨rfl, rfl⟩, rfl⟩, rfl⟩, ha⟩, hw⟩ := h
      obtain ⟨⟨⟨⟨⟨rfl, rfl⟩, rfl⟩, rfl⟩, ha'⟩, hw'⟩ := h'
      have hstart : ∀ a : Assignment, exprIsCacheSimple a.value →
          ∃ t u, hashAssignment a = t :: u ∧ t.isStr := fun a _ => ⟨_, _, rfl, trivial⟩
      have hstop : ∀ w : Option Expr, ∀ t ∈ (hashExprs w.toList).head?, ¬t.isStr := by
        intro w t ht
        obtain _ | e := w
        · simp [hashExprs] at ht
        obtain ⟨t', u, he, hs⟩ := hashExpr_start e
        simp only [toList_some, hashExprs, he, append_nil, head?_cons, mem_def, some.injEq] at ht
        subst ht
        intro hstr
        cases t' <;> simp [isStr, isExprStart] at hstr hs
      obtain ⟨rfl, hr, hi⟩ := readable_assignment.flatMap_until hstart assignments assignments'
        (all_eq_true.1 ha) (all_eq_true.1 ha') _ _ _ _ (hstop _) (hstop _) hr hi
      rw [readWhere hw hw' hr hi, show table = table' from ht]
    | _ => simp [hashStmt] at hr
  | delete s =>
    cases s' with
    | delete s' =>
      simp only [hashStmt, cons.injEq, true_and] at hr
      obtain ⟨ht, hr, hi⟩ := readTable hr hi
      obtain ⟨table, target, joins, whereC, orderBy, limit, returning⟩ := s
      obtain ⟨table', target', joins', whereC', orderBy', limit', returning'⟩ := s'
      simp only [isCacheEligible, deleteIsCacheEligible, Bool.and_eq_true, List.isEmpty_iff,
        isNone_iff_eq_none] at h h'
      obtain ⟨⟨⟨⟨⟨rfl, rfl⟩, rfl⟩, rfl⟩, rfl⟩, hw⟩ := h
      obtain ⟨⟨⟨⟨⟨rfl, rfl⟩, rfl⟩, rfl⟩, rfl⟩, hw'⟩ := h'
      rw [readWhere hw hw' hr hi, show table = table' from ht]
    | _ => simp [hashStmt] at hr
  | other c => simp [isCacheEligible] at h

/-! ## Shapes are eligible -/

mutual

theorem walkExpr_simple :
    ∀ (e : Expr) (out : List Value), exprIsCacheSimple (walkExprExtract e out).1 = exprIsCacheSimple e
  | .literal _, _ | .column _ _, _ | .param _, _ | .collate _ _, _ | .other _ _, _ => rfl
  | .unaryOp _ e, out | .isNull e _, out | .cast e _, out => by
    simp only [walkExprExtract, exprIsCacheSimple, walkExpr_simple e]
  | .binaryOp _ l r, out | .like l r _ _, out => by
    simp only [walkExprExtract, exprIsCacheSimple, walkExpr_simple l, walkExpr_simple r]
  | .between e lo hi _, out => by
    simp only [walkExprExtract, exprIsCacheSimple, walkExpr_simple e, walkExpr_simple lo,
      walkExpr_simple hi]
  | .inList e list _, out => by
    simp only [walkExprExtract, exprIsCacheSimple, walkExpr_simple e, walkExprs_simple list]
  | .function _ args, out => by
    simp only [walkExprExtract, exprIsCacheSimple, walkExprs_simple args]

theorem walkExprs_simple : ∀ (es : List Expr) (out : List Value),
    exprsAreCacheSimple (walkExprsExtract es out).1 = exprsAreCacheSimple es
  | [], _ => rfl
  | e :: es, out => by
    simp only [walkExprsExtract, exprsAreCacheSimple, walkExpr_simple e, walkExprs_simple es]

end

section

variable {α : Type} {walk : α → List Value → α × List Value} {ok : α → Bool} (h : ∀ a out, ok (walk a out).1 = ok a)
include h

theorem walkOption_all (o : Option α) (out : List Value) :
    (walkOption walk o out).1.all ok = o.all ok := by
  cases o with
  | none => rfl
  | some a => exact h a out

theorem walkList_all (as : List α) (out : List Value) :
    (walkList walk as out).1.all ok = as.all ok := by
  induction as generalizing out with
  | nil => rfl
  | cons a as ih => simp only [walkList, all_cons, h, ih]

end

theorem walkFrom_simple (f : FromClause) (out : List Value) :
    fromIsCacheSimple (walkFromExtract f out).1 = fromIsCacheSimple f := by
  cases f with
  | table t => rfl
  | other n c => rfl
  | unnest exprs aliasName names lateral => exact walkExprs_simple exprs out
  | generateSeries start stop step aliasName name =>
    simp only [walkFromExtract, fromIsCacheSimple, walkExpr_simple, walkOption_all walkExpr_simple]

theorem walkItem_simple (i : SelectItem) (out : List Value) :
    itemIsCacheSimple (walkItemExtract i out).1 = itemIsCacheSimple i := by
  cases i with
  | expr e aliasName => exact walkExpr_simple e out
  | _ => rfl

theorem walkJoin_simple (j : JoinClause) (out : List Value) :
    joinIsCacheSimple (walkJoinExtract j out).1 = joinIsCacheSimple j := by
  simp only [joinIsCacheSimple, walkJoinExtract, walkFrom_simple]

theorem eligible_extractLiterals (s : Stmt) :
    isCacheEligible (extractLiterals s).1 = isCacheEligible s := by
  cases s with
  | select s =>
    simp only [extractLiterals, walkStmtExtract, isCacheEligible, selectIsCacheEligible,
      walkSelectExtract, walkOption_all walkFrom_simple, walkList_all walkJoin_simple,
      walkList_all walkItem_simple, walkOption_all walkExpr_simple]
  | insert s =>
    obtain ⟨table, columns, source, ignore, replace, returning, update, conflict⟩ := s
    cases source with
    | values rows =>
      simp only [extractLiterals, walkStmtExtract, isCacheEligible, insertIsCacheEligible,
        walkInsertExtract, walkList_all walkExprs_simple]
    | _ => rfl
  | update s =>
    have hassign := @walkList_all Assignment walkAssignmentExtract
      (fun a => exprIsCacheSimple a.value) (fun a out => walkExpr_simple a.value out)
    simp only [extractLiterals, walkStmtExtract, isCacheEligible, updateIsCacheEligible,
      walkUpdateExtract, hassign, walkOption_all walkExpr_simple]
  | delete s =>
    simp only [extractLiterals, walkStmtExtract, isCacheEligible, deleteIsCacheEligible,
      walkDeleteExtract, walkOption_all walkExpr_simple]
  | other c => rfl

/-- Shapes with one hash are equal just if they agree in what the hash passes over. -/
theorem shape_eq_iff {s1 s2 : Stmt} (h1 : isCacheEligible s1) (h2 : isCacheEligible s2)
    (hhash : hashStmt (extractLiterals s1).1 = hashStmt (extractLiterals s2).1) :
    (extractLiterals s1).1 = (extractLiterals s2).1 ↔
      skippedStmt (extractLiterals s1).1 = skippedStmt (extractLiterals s2).1 :=
  ⟨fun h => by rw [h], fun h => readStmt (by rw [eligible_extractLiterals, h1])
    (by rw [eligible_extractLiterals, h2]) hhash h⟩

/-! ## Running with and without plans -/

section Run

variable {κ ε ρ : Type} [DecidableEq κ] (b : Backend κ ε ρ)

/-- Every plan was made for one of the statements of `history`. -/
def Session.PlansOf (session : Session κ) (history : List Stmt) : Prop :=
  ∀ e ∈ session.statementCache, ∃ s ∈ history, isCacheEligible s = true ∧
    e.1 = b.shapeHash (extractLiterals s).1 ∧
    b.analyze (extractLiterals s).1 = .ok e.2.1.analyzed ∧
    e.2.1.paramCount = (extractLiterals s).2.length

variable {b}

variable {history : List Stmt} {session : Session κ} {s analyzed : Stmt}

omit [DecidableEq κ] in
theorem Session.PlansOf.mono {history' : List Stmt} (h : session.PlansOf b history)
    (hsub : ∀ s ∈ history, s ∈ history') : session.PlansOf b history' := by
  intro e he
  obtain ⟨s, hs, hrest⟩ := h e he
  exact ⟨s, hsub s hs, hrest⟩

theorem Session.PlansOf.bump (h : session.PlansOf b history) (hash : κ) :
    (session.bumpCachedPlanLru hash).PlansOf b history := by
  intro e he
  obtain ⟨e0, he0, rfl⟩ := mem_map.1 he
  obtain ⟨s, hs, hrest⟩ := h e0 he0
  split
  · exact ⟨s, hs, hrest⟩
  · exact ⟨s, hs, hrest⟩

theorem Session.mem_evictOldest {e : κ × CachedPlan × Nat} (h : e ∈ session.evictOldest) :
    e ∈ session.statementCache := by
  rw [Session.evictOldest] at h
  split at h
  · exact mem_of_mem_filter h
  · exact h

theorem Session.PlansOf.cachePlan (h : session.PlansOf b history) (hs : isCacheEligible s) (ha : b.analyze (extractLiterals s).1 = .ok analyzed) :
    (session.cachePlan (b.shapeHash (extractLiterals s).1)
      ⟨analyzed, (extractLiterals s).2.length⟩).PlansOf b (s :: history) := by
  intro e he
  rcases mem_cons.1 he with rfl | he
  · exact ⟨s, mem_cons_self, hs, rfl, ha, rfl⟩
  have hmem : e ∈ session.statementCache := by
    have hkept := mem_of_mem_filter he
    split at hkept
    · exact Session.mem_evictOldest hkept
    · exact hkept
  exact h.mono (fun _ => mem_cons_of_mem s) e hmem

theorem Session.PlansOf.run (h : session.PlansOf b history) (s : Stmt) :
    (runCachedStmt b session s).2.PlansOf b (s :: history) := by
  have hmono := h.mono fun _ => mem_cons_of_mem s
  rw [runCachedStmt]
  split
  next hs =>
    dsimp only
    split
    · split
      · exact hmono
      · exact hmono.bump _
    split
    next ha => exact h.cachePlan hs ha
    · exact hmono
  · exact hmono

/-- The plans after a sequence of statements. -/
def runAll (b : Backend κ ε ρ) (session : Session κ) (history : List Stmt) : Session κ :=
  history.foldl (fun session s => (runCachedStmt b session s).2) session

theorem Session.PlansOf.runAll {done : List Stmt} (h : session.PlansOf b done) (history : List Stmt) :
    (runAll b session history).PlansOf b (history.reverse ++ done) := by
  induction history generalizing session done with
  | nil => exact h
  | cons s history ih =>
    have hnext := ih (h.run s)
    rw [reverse_cons, append_assoc]
    exact hnext

omit [DecidableEq κ] in
theorem emptySession_plansOf : (emptySession κ).PlansOf b [] := fun _ he => absurd he (by simp [emptySession])

theorem run_hit {plan : CachedPlan} (hs : isCacheEligible s)
    (hplan : session.lookup (b.shapeHash (extractLiterals s).1) = some plan)
    (hlen : (extractLiterals s).2.length = plan.paramCount) : (runCachedStmt b session s).1 =
      b.execute (substituteParams (extractLiterals s).2 plan.analyzed) := by
  rw [runCachedStmt, if_pos hs]
  dsimp only
  rw [hplan]
  dsimp only
  rw [if_neg (not_not.2 hlen)]

theorem run_miss (hs : isCacheEligible s)
    (hplan : session.lookup (b.shapeHash (extractLiterals s).1) = none)
    (ha : b.analyze (extractLiterals s).1 = .ok analyzed) : runCachedStmt b session s =
      (b.execute (substituteParams (extractLiterals s).2 analyzed),
        session.cachePlan (b.shapeHash (extractLiterals s).1)
          ⟨analyzed, (extractLiterals s).2.length⟩) := by
  rw [runCachedStmt, if_pos hs]
  dsimp only
  rw [hplan]
  dsimp only
  rw [ha]

theorem lookup_cachePlan (session : Session κ) (hash : κ) (plan : CachedPlan) :
    (session.cachePlan hash plan).lookup hash = some plan := by
  simp [Session.cachePlan, Session.lookup]

/-- If the plans with the hash of a statement were made for statements of its shape with as many
literals, it runs as without plans. -/
theorem run_eq_empty (h : session.PlansOf b history)
    (hsame : ∀ s1 ∈ history, isCacheEligible s1 →
      b.shapeHash (extractLiterals s1).1 = b.shapeHash (extractLiterals s).1 →
      (extractLiterals s1).1 = (extractLiterals s).1 ∧
        (extractLiterals s1).2.length = (extractLiterals s).2.length) :
    (runCachedStmt b session s).1 = (runCachedStmt b (emptySession κ) s).1 := by
  by_cases hs : isCacheEligible s
  · cases hplan : session.lookup (b.shapeHash (extractLiterals s).1) with
    | none =>
      have hnone : (emptySession κ).lookup (b.shapeHash (extractLiterals s).1) = none := rfl
      rw [runCachedStmt, runCachedStmt, if_pos hs, if_pos hs]
      dsimp only
      rw [hplan, hnone]
      dsimp only
      cases b.analyze (extractLiterals s).1 <;> rfl
    | some plan =>
      obtain ⟨e, he, rfl⟩ := map_eq_some_iff.1 hplan
      have hkey : e.1 = b.shapeHash (extractLiterals s).1 := by
        simpa using find?_some he
      obtain ⟨s1, hs1, hel, hk, ha, hn⟩ := h e (mem_of_find?_eq_some he)
      obtain ⟨hshape, hcount⟩ := hsame s1 hs1 hel (hk.symm.trans hkey)
      have hlen : (extractLiterals s).2.length = e.2.1.paramCount := by
        rw [hn, hcount]
      rw [hshape] at ha
      rw [run_hit hs hplan hlen, run_miss hs rfl ha]
  · rw [runCachedStmt, runCachedStmt, if_neg hs, if_neg hs]

/-- With or without placeholders: after any statements that agree with an eligible one in what the
hash passes over and in the number of literals if they have its hash, it runs as it would with no
plans. -/
theorem runs_own_plan_of_counts (b : Backend κ ε ρ) (hinj : Function.Injective b.hasher) {s : Stmt}
    (hs : isCacheEligible s) {history : List Stmt} (hagree : ∀ s₁ ∈ history, isCacheEligible s₁ →
      b.shapeHash (extractLiterals s₁).1 = b.shapeHash (extractLiterals s).1 →
      skippedStmt (extractLiterals s₁).1 = skippedStmt (extractLiterals s).1 ∧
        (extractLiterals s₁).2.length = (extractLiterals s).2.length) :
    (runCachedStmt b (runAll b (emptySession κ) history) s).1 =
      (runCachedStmt b (emptySession κ) s).1 := by
  refine run_eq_empty (emptySession_plansOf.runAll history) fun s₁ hs₁ hel hkey => ?_
  obtain ⟨hskip, hcount⟩ := hagree s₁ (by simpa using hs₁) hel hkey
  exact ⟨(shape_eq_iff hel hs (hinj hkey)).2 hskip, hcount⟩

/-- Of two eligible statements without placeholders that have one hash: the plan of the first
serves the second just if their shapes agree in what the hash passes over. And after any statements
that agree with the second one so if they have its hash, it runs as it would with no plans. -/
theorem cached_plan_is_own (b : Backend κ ε ρ) (hinj : Function.Injective b.hasher) {s₁ s₂ : Stmt}
    (h₁ : isCacheEligible s₁ = true) (h₂ : isCacheEligible s₂ = true)
    (hplain₁ : isPlain s₁ = true) (hplain₂ : isPlain s₂ = true)
    (hhash : b.shapeHash (extractLiterals s₁).1 = b.shapeHash (extractLiterals s₂).1) :
    (substituteParams (extractLiterals s₂).2 (extractLiterals s₁).1 = s₂ ↔
        skippedStmt (extractLiterals s₁).1 = skippedStmt (extractLiterals s₂).1) ∧
      ∀ history : List Stmt, (∀ s ∈ history, isCacheEligible s = true → isPlain s = true ∧
        (b.shapeHash (extractLiterals s).1 = b.shapeHash (extractLiterals s₂).1 →
          skippedStmt (extractLiterals s).1 = skippedStmt (extractLiterals s₂).1)) →
        (runCachedStmt b (runAll b (emptySession κ) history) s₂).1 =
          (runCachedStmt b (emptySession κ) s₂).1 := by
  refine ⟨(same_shape_iff hplain₁ hplain₂).trans (shape_eq_iff h₁ h₂ (hinj hhash)), ?_⟩
  intro history hagree
  refine runs_own_plan_of_counts b hinj h₂ fun s hs hel hkey => ?_
  obtain ⟨hplain, hskip⟩ := hagree s hs hel
  have hshape := (shape_eq_iff hel h₂ (hinj hkey)).2 (hskip hkey)
  exact ⟨hskip hkey, le_antisymm (literals_le_of_same_shape hplain hplain₂ hshape)
    (literals_le_of_same_shape hplain₂ hplain hshape.symm)⟩

end Run

/-! ## Statements that share a hash -/

/-- `SELECT * FROM t WHERE a IS NULL`, or `IS NOT NULL`. -/
def selectNulls (negated : Bool) : Stmt :=
  .select
    { withCtes := [], distinct := false, distinctOn := [], hints := [], calcFoundRows := false,
      columns := [.wildcard], fromClause := some (.table ⟨none, none, "t", none, none⟩), joins := [],
      whereClause := some (.isNull (.column 0 "a") negated), groupBy := .none, having := none,
      orderBy := [], limit := none, offset := none, lockClause := none, setOpRest := [],
      intoOutfile := none }

/-- A backend that executes a statement by giving it back, and keys plans by what is hashed. -/
def echo : Backend (List Fed) String Stmt where
  hasher := id
  analyze := .ok
  execute := .ok
  countMismatch := fun _ _ => "statement cache: literal count mismatch"

/-- `SELECT * FROM t LIMIT n` -/
def selectLimit (v : Value) : Stmt :=
  .select
    { withCtes := [], distinct := false, distinctOn := [], hints := [], calcFoundRows := false,
      columns := [.wildcard], fromClause := some (.table ⟨none, none, "t", none, none⟩), joins := [],
      whereClause := none, groupBy := .none, having := none,
      orderBy := [], limit := some (.literal v), offset := none, lockClause := none, setOpRest := [],
      intoOutfile := none }

open Classical in
theorem cached_plan_is_own_limit : substituteParams (extractLiterals (selectLimit .null)).2
        (extractLiterals (selectLimit (.bool true))).1 = selectLimit .null ∧
      (runCachedStmt echo (runAll echo (emptySession (List Fed)) [selectLimit (.bool true)])
        (selectLimit .null)).1 = (runCachedStmt echo (emptySession (List Fed)) (selectLimit .null)).1 :=
  have h := @cached_plan_is_own _ _ _ _ echo Function.injective_id (selectLimit (.bool true))
    (selectLimit .null) rfl rfl rfl rfl rfl
  ⟨h.1.2 rfl, h.2 _ (by simp only [mem_singleton, forall_eq]; exact fun _ => ⟨rfl, fun _ => rfl⟩)⟩

/-- `IS NULL` and `IS NOT NULL` have one hash: a session that ran the first runs it again instead of
the second. -/
theorem is_not_null_runs_is_null :
    isCacheEligible (selectNulls false) = true ∧ isCacheEligible (selectNulls true) = true ∧
      hashStmt (extractLiterals (selectNulls false)).1 = hashStmt (extractLiterals (selectNulls true)).1 ∧
      substituteParams (extractLiterals (selectNulls true)).2 (extractLiterals (selectNulls false)).1 =
        selectNulls false ∧ selectNulls false ≠ selectNulls true ∧
      ∀ (κ : Type) [DecidableEq κ] (hasher : List Fed → κ) (message : Nat → Nat → String),
        (runCachedStmt ⟨hasher, .ok, .ok, message⟩
          (runCachedStmt ⟨hasher, .ok, .ok, message⟩ (emptySession κ) (selectNulls false)).2
          (selectNulls true)).1 = (.ok (selectNulls false) : Except String Stmt) := by
  refine ⟨rfl, rfl, rfl, rfl, by simp [selectNulls], ?_⟩
  intro κ _ hasher message
  have hcached := @run_miss κ String Stmt _ ⟨hasher, .ok, .ok, message⟩ (emptySession κ)
    (selectNulls false) _ rfl rfl rfl
  rw [hcached]
  exact run_hit rfl (lookup_cachePlan _ _ _) rfl

end AxiomDb.StatementCache
