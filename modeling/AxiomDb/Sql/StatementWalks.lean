import AxiomDb.Sql.StatementShape

/-!
# Extraction and substitution of literals

`substitute_params` puts back what `extract_literals` took out, and a statement that comes out
of a shape with any literals put in has that shape again. Statements with placeholders of their
own are left out: extraction does not tell them from its own.
-/

namespace AxiomDb.StatementCache

open Lib List
open Row (Value DataType BinaryOp UnaryOp)

/-! ## Statements without placeholders -/

mutual

/-- No placeholder stands where literals are put back. -/
def exprIsPlain : Expr → Bool
  | .param _ => false
  | .binaryOp _ left right => exprIsPlain left && exprIsPlain right
  | .unaryOp _ operand => exprIsPlain operand
  | .isNull expr _ => exprIsPlain expr
  | .between expr low high _ => exprIsPlain expr && (exprIsPlain low && exprIsPlain high)
  | .inList expr list _ => exprIsPlain expr && exprsArePlain list
  | .like expr pattern _ _ => exprIsPlain expr && exprIsPlain pattern
  | .function _ args => exprsArePlain args
  | .cast expr _ => exprIsPlain expr
  | _ => true

def exprsArePlain : List Expr → Bool
  | [] => true
  | e :: es => exprIsPlain e && exprsArePlain es

end

def fromIsPlain : FromClause → Bool
  | .unnest exprs _ _ _ => exprsArePlain exprs
  | .generateSeries start stop step _ _ => exprIsPlain start && exprIsPlain stop && step.all exprIsPlain
  | _ => true

def conditionIsPlain : JoinCondition → Bool
  | .on cond => exprIsPlain cond
  | .usingCols _ => true

def joinIsPlain (j : JoinClause) : Bool := fromIsPlain j.table && conditionIsPlain j.condition

def itemIsPlain : SelectItem → Bool
  | .expr e _ => exprIsPlain e
  | _ => true

def sourceIsPlain : InsertSource → Bool
  | .values rows => rows.all exprsArePlain
  | _ => true

/-- No placeholder stands where a literal would be put back. This leaves out the statements with
placeholders and without literals too: the shape of one is also that of the statement with literals
in their place, whose literals its plan does not count. -/
def isPlain : Stmt → Bool
  | .select s => s.fromClause.all fromIsPlain && s.joins.all joinIsPlain &&
    s.columns.all itemIsPlain && s.whereClause.all exprIsPlain && s.limit.all exprIsPlain &&
    s.offset.all exprIsPlain
  | .insert s => sourceIsPlain s.source
  | .update s => s.assignments.all (fun a => exprIsPlain a.value) && s.whereClause.all exprIsPlain
  | .delete s => s.whereClause.all exprIsPlain
  | .other _ => true

/-! ## The walks belong together -/

theorem walkExprsExtract_eq : walkExprsExtract = walkList walkExprExtract := by
  funext es
  induction es with
  | nil => rfl
  | cons e es ih =>
    funext out
    simp only [walkExprsExtract, walkList, ih]

theorem subExprs_eq (vs : List Value) : subExprs vs = map (subExpr vs) := by
  funext es
  induction es with
  | nil => rfl
  | cons e es ih => simp only [subExprs, ih, map_cons]

variable {es : List Expr} {s s1 s2 : Stmt}

theorem exprsArePlain_iff : exprsArePlain es ↔ ∀ e ∈ es, exprIsPlain e := by
  induction es with
  | nil => simp [exprsArePlain]
  | cons e es ih => simp [exprsArePlain, ih]

/-- `walk_expr_extract` and `sub_expr` on an expression. -/
abbrev ExprExtracts (e : Expr) : Prop :=
  Extracts walkExprExtract subExpr (fun e => exprIsPlain e = true) e

abbrev ExprsExtract (es : List Expr) : Prop :=
  Extracts walkExprsExtract subExprs (fun es => exprsArePlain es = true) es

theorem exprsExtract_of_forall (h : ∀ e ∈ es, ExprExtracts e) : ExprsExtract es := by
  have hlist := Extracts.walkList h
  refine ⟨?_, ?_, ?_, ?_⟩
  all_goals
    simp only [walkExprsExtract_eq, subExprs_eq, exprsArePlain_iff]
  · exact hlist.grows
  · exact hlist.back
  · exact hlist.enough
  · exact hlist.again

theorem exprExtracts_literal (v : Value) : ExprExtracts (.literal v) where
  grows out := prefix_append out [v]
  back out vs hvs := by
    obtain ⟨rest, rfl⟩ := hvs
    simp [walkExprExtract, subExpr]
  enough out vs hlen hplain := by
    simp only [walkExprExtract, length_append, length_singleton]
    by_contra hlt
    have hnone : vs[out.length]? = none := getElem?_eq_none (by omega)
    simp [walkExprExtract, subExpr, hnone, exprIsPlain] at hplain
  again out out' vs hout hplain hlen := by
    cases hget : vs[out.length]? with
    | none => simp [walkExprExtract, subExpr, hget, exprIsPlain] at hplain
    | some w => simp [walkExprExtract, subExpr, hget, hout]

mutual

theorem exprExtracts : ∀ e : Expr, exprIsPlain e → ExprExtracts e
  | .literal v, _ => exprExtracts_literal v
  | .column _ _, _ | .collate _ _, _ | .other _ _, _ => .of_fixed (fun _ => rfl) fun _ => rfl
  | .param _, h => absurd h (by simp [exprIsPlain])
  | .unaryOp op e, h => by
    rw [exprIsPlain] at h
    exact .map (Expr.unaryOp op) (exprExtracts e h) (fun _ _ => rfl) (fun _ _ => rfl) fun _ hp => hp
  | .isNull e negated, h => by
    rw [exprIsPlain] at h
    exact .map (fun e => Expr.isNull e negated) (exprExtracts e h) (fun _ _ => rfl) (fun _ _ => rfl) fun _ hp => hp
  | .cast e target, h => by
    rw [exprIsPlain] at h
    exact .map (fun e => Expr.cast e target) (exprExtracts e h) (fun _ _ => rfl) (fun _ _ => rfl) fun _ hp => hp
  | .binaryOp op l r, h => by
    rw [exprIsPlain, Bool.and_eq_true] at h
    refine .map (fun p => Expr.binaryOp op p.1 p.2)
      ((exprExtracts l h.1).pair (exprExtracts r h.2)) ?_ ?_ ?_
    · exact fun _ _ => by simp only [walkExprExtract, walkPair]
    · exact fun _ _ => by simp only [subExpr]
    · exact fun _ hp => by simpa only [exprIsPlain, Bool.and_eq_true] using hp
  | .like e p negated escape, h => by
    rw [exprIsPlain, Bool.and_eq_true] at h
    refine .map (fun p => Expr.like p.1 p.2 negated escape)
      ((exprExtracts e h.1).pair (exprExtracts p h.2)) ?_ ?_ ?_
    · exact fun _ _ => by simp only [walkExprExtract, walkPair]
    · exact fun _ _ => by simp only [subExpr]
    · exact fun _ hp => by simpa only [exprIsPlain, Bool.and_eq_true] using hp
  | .between e lo hi negated, h => by
    rw [exprIsPlain, Bool.and_eq_true, Bool.and_eq_true] at h
    refine .map (fun p => Expr.between p.1 p.2.1 p.2.2 negated)
      ((exprExtracts e h.1).pair ((exprExtracts lo h.2.1).pair (exprExtracts hi h.2.2))) ?_ ?_ ?_
    · exact fun _ _ => by simp only [walkExprExtract, walkPair]
    · exact fun _ _ => by simp only [subExpr]
    · exact fun _ hp => by simpa only [exprIsPlain, Bool.and_eq_true] using hp
  | .inList e list negated, h => by
    rw [exprIsPlain, Bool.and_eq_true] at h
    refine .map (fun p => Expr.inList p.1 p.2 negated)
      ((exprExtracts e h.1).pair (exprsExtract_of_forall (exprsExtracts list h.2))) ?_ ?_ ?_
    · exact fun _ _ => by simp only [walkExprExtract, walkPair]
    · exact fun _ _ => by simp only [subExpr]
    · exact fun _ hp => by simpa only [exprIsPlain, Bool.and_eq_true] using hp
  | .function name args, h => by
    rw [exprIsPlain] at h
    refine .map (Expr.function name)
      (exprsExtract_of_forall (exprsExtracts args h)) (fun _ _ => rfl) (fun _ _ => rfl) fun _ hp => hp

theorem exprsExtracts : ∀ es : List Expr, exprsArePlain es → ∀ e ∈ es, ExprExtracts e
  | [], _, _, he => absurd he (by simp)
  | e :: es, h, e', he => by
    rw [exprsArePlain, Bool.and_eq_true] at h
    rcases mem_cons.1 he with heq | he
    · rw [heq]
      exact exprExtracts e h.1
    · exact exprsExtracts es h.2 e' he

end

mutual

theorem subExpr_plain (vs : List Value) : ∀ e : Expr, exprIsPlain e → subExpr vs e = e
  | .literal _, _ | .column _ _, _ | .collate _ _, _ | .other _ _, _ => rfl
  | .param _, h => absurd h (by simp [exprIsPlain])
  | .unaryOp _ e, h | .isNull e _, h | .cast e _, h => by
    rw [exprIsPlain] at h
    rw [subExpr, subExpr_plain vs e h]
  | .binaryOp _ l r, h | .like l r _ _, h => by
    rw [exprIsPlain, Bool.and_eq_true] at h
    rw [subExpr, subExpr_plain vs l h.1, subExpr_plain vs r h.2]
  | .between e lo hi negated, h => by
    rw [exprIsPlain, Bool.and_eq_true, Bool.and_eq_true] at h
    rw [subExpr, subExpr_plain vs e h.1, subExpr_plain vs lo h.2.1, subExpr_plain vs hi h.2.2]
  | .inList e list negated, h => by
    rw [exprIsPlain, Bool.and_eq_true] at h
    rw [subExpr, subExpr_plain vs e h.1, subExprs_plain vs list h.2]
  | .function name args, h => by
    rw [exprIsPlain] at h
    rw [subExpr, subExprs_plain vs args h]

theorem subExprs_plain (vs : List Value) : ∀ es : List Expr, exprsArePlain es → subExprs vs es = es
  | [], _ => rfl
  | e :: es, h => by
    rw [exprsArePlain, Bool.and_eq_true] at h
    rw [subExprs, subExpr_plain vs e h.1, subExprs_plain vs es h.2]

end

theorem option_all_iff {α : Type} {p : α → Bool} {o : Option α} : o.all p ↔ ∀ a ∈ o, p a := by
  cases o <;> simp

theorem fromExtracts {f : FromClause} (h : fromIsPlain f) :
    Extracts walkFromExtract subFrom (fun f => fromIsPlain f) f := by
  cases f with
  | table t | other n c => exact .of_fixed (fun _ => rfl) fun _ => rfl
  | unnest exprs aliasName names lateral =>
    exact .map (fun es => FromClause.unnest es aliasName names lateral)
      (exprsExtract_of_forall (exprsExtracts exprs h)) (fun _ _ => rfl) (fun _ _ => rfl) fun _ hp => hp
  | generateSeries start stop step aliasName name =>
    simp only [fromIsPlain, Bool.and_eq_true, option_all_iff] at h
    refine .map (fun p => FromClause.generateSeries p.1 p.2.1 p.2.2 aliasName name)
      ((exprExtracts start h.1.1).pair ((exprExtracts stop h.1.2).pair
        (.walkOption fun e he => exprExtracts e (h.2 e he)))) ?_ ?_ ?_
    · exact fun _ _ => rfl
    · exact fun _ _ => rfl
    intro p hp
    simpa only [fromIsPlain, Bool.and_eq_true, option_all_iff, and_assoc] using hp

theorem subCondition_plain (vs : List Value) {c : JoinCondition} (h : conditionIsPlain c) :
    subCondition vs c = c := by
  cases c with
  | on cond => exact congrArg JoinCondition.on (subExpr_plain vs cond h)
  | usingCols cols => rfl

theorem joinExtracts {j : JoinClause} (h : joinIsPlain j) :
    Extracts walkJoinExtract subJoin (fun j => joinIsPlain j) j := by
  rw [joinIsPlain, Bool.and_eq_true] at h
  refine .map (fun t => { j with table := t }) (fromExtracts h.1) ?_ ?_ ?_
  · exact fun _ _ => rfl
  · intro vs t
    simp only [subJoin, subCondition_plain vs h.2]
  · intro t hp
    simp only [joinIsPlain, Bool.and_eq_true] at hp
    exact hp.1

theorem itemExtracts {item : SelectItem} (h : itemIsPlain item) :
    Extracts walkItemExtract subItem (fun i => itemIsPlain i) item := by
  cases item with
  | wildcard | qualifiedWildcard t => exact .of_fixed (fun _ => rfl) fun _ => rfl
  | expr e aliasName =>
    exact .map (fun e => SelectItem.expr e aliasName) (exprExtracts e h) (fun _ _ => rfl)
      (fun _ _ => rfl) fun _ hp => hp

theorem assignmentExtracts {a : Assignment} (h : exprIsPlain a.value) :
    Extracts walkAssignmentExtract subAssignment (fun a => exprIsPlain a.value) a :=
  .map (fun e => { a with value := e }) (exprExtracts a.value h) (fun _ _ => rfl) (fun _ _ => rfl)
    fun _ hp => hp

theorem optionExtracts {o : Option Expr} (h : o.all exprIsPlain) :
    Extracts (walkOption walkExprExtract) (fun vs => Option.map (subExpr vs))
      (fun o => ∀ e ∈ o, exprIsPlain e) o :=
  .walkOption fun e he => exprExtracts e (option_all_iff.1 h e he)

theorem stmtExtracts (h : isPlain s) :
    Extracts walkStmtExtract substituteParams (fun s => isPlain s) s := by
  cases s with
  | select s =>
    simp only [isPlain, Bool.and_eq_true] at h
    obtain ⟨⟨⟨⟨⟨hf, hj⟩, hc⟩, hw⟩, hl⟩, ho⟩ := h
    refine .map (fun p => Stmt.select { s with
        fromClause := p.1, joins := p.2.1, columns := p.2.2.1, whereClause := p.2.2.2.1,
        limit := p.2.2.2.2.1, offset := p.2.2.2.2.2 })
      ((Extracts.walkOption fun f hm => fromExtracts (option_all_iff.1 hf f hm)).pair
        ((Extracts.walkList fun j hm => joinExtracts (all_eq_true.1 hj j hm)).pair
        ((Extracts.walkList fun i hm => itemExtracts (all_eq_true.1 hc i hm)).pair
        ((optionExtracts hw).pair ((optionExtracts hl).pair (optionExtracts ho))))))
      ?_ ?_ ?_
    · exact fun _ _ => rfl
    · exact fun _ _ => rfl
    intro p hp
    simpa only [isPlain, Bool.and_eq_true, option_all_iff, all_eq_true, and_assoc] using hp
  | insert s =>
    obtain ⟨table, columns, source, ignore, replace, returning, update, conflict⟩ := s
    cases source with
    | values rows =>
      refine .map (fun rows => Stmt.insert
          ⟨table, columns, .values rows, ignore, replace, returning, update, conflict⟩)
        (Extracts.walkList fun row hm => exprsExtract_of_forall
          (exprsExtracts row (all_eq_true.1 h row hm))) ?_ ?_ ?_
      · exact fun _ _ => rfl
      · exact fun _ _ => rfl
      intro rows hp
      simpa only [isPlain, sourceIsPlain, all_eq_true] using hp
    | select q | defaultValues => exact .of_fixed (fun _ => rfl) fun _ => rfl
  | update s =>
    simp only [isPlain, Bool.and_eq_true] at h
    refine .map (fun p => Stmt.update { s with assignments := p.1, whereClause := p.2 })
      ((Extracts.walkList fun a hm => assignmentExtracts (all_eq_true.1 h.1 a hm)).pair
        (optionExtracts h.2)) ?_ ?_ ?_
    · exact fun _ _ => rfl
    · exact fun _ _ => rfl
    intro p hp
    simpa only [isPlain, Bool.and_eq_true, option_all_iff, all_eq_true] using hp
  | delete s =>
    refine .map (fun w => Stmt.delete { s with whereClause := w }) (optionExtracts h) ?_ ?_ ?_
    · exact fun _ _ => rfl
    · exact fun _ _ => rfl
    intro w hp
    simpa only [isPlain, option_all_iff] using hp
  | other c => exact .of_fixed (fun _ => rfl) fun _ => rfl

/-- Substitution is the inverse of extraction. -/
theorem substituteParams_extractLiterals (h : isPlain s) :
    substituteParams (extractLiterals s).2 (extractLiterals s).1 = s :=
  (stmtExtracts h).back [] _ (prefix_refl _)

/-- A statement that is a shape with literals put in has that shape. -/
theorem shape_of_substituteParams (h : isPlain s) {vs : List Value}
    (hplain : isPlain (substituteParams vs (extractLiterals s).1)) :
    (extractLiterals (substituteParams vs (extractLiterals s).1)).1 = (extractLiterals s).1 ∧
      (extractLiterals s).2.length ≤ vs.length :=
  ⟨((stmtExtracts h).again [] [] vs rfl hplain (Nat.zero_le _)).1,
    (stmtExtracts h).enough [] vs (Nat.zero_le _) hplain⟩

theorem same_shape_iff (h1 : isPlain s1) (h2 : isPlain s2) :
    substituteParams (extractLiterals s2).2 (extractLiterals s1).1 = s2 ↔
      (extractLiterals s1).1 = (extractLiterals s2).1 := by
  refine ⟨fun h => ?_, fun h => ?_⟩
  · have hshape := (shape_of_substituteParams h1 (by rw [h]; exact h2)).1
    rw [h] at hshape
    exact hshape.symm
  · rw [h]
    exact substituteParams_extractLiterals h2

theorem literals_le_of_same_shape (h1 : isPlain s1) (h2 : isPlain s2)
    (h : (extractLiterals s1).1 = (extractLiterals s2).1) :
    (extractLiterals s1).2.length ≤ (extractLiterals s2).2.length := by
  have hsub := (same_shape_iff h1 h2).2 h
  exact (shape_of_substituteParams h1 (by rw [hsub]; exact h2)).2

end AxiomDb.StatementCache
