import AxiomDb.Sql.BatchPredicate
import AxiomDb.Lib.Extraction

/-!
# The statement cache

`run_cached_stmt` keeps the analyzed form of a statement under the hash of its shape: the
statement with its literals taken out. Three walks over the statement belong together: the
one that takes the literals out, the one that feeds the shape to the hasher, and the one that
puts literals back. The hasher is taken to be injective, so the key of a plan is the sequence
of values fed to it. The catalog does not change, so no plan is stale.
-/

namespace AxiomDb.StatementCache

open Lib
open Row (Value DataType BinaryOp UnaryOp)

/-! ## Statements -/

/-- A clause whose contents no walk looks into. -/
abbrev Clause := String

/-- `Expr`. The variants that no walk enters are one, with the number of the variant. -/
inductive Expr where
  | literal (v : Value)
  | column (colIdx : Nat) (name : String)
  | unaryOp (op : UnaryOp) (operand : Expr)
  | collate (expr : Expr) (collation : String)
  | binaryOp (op : BinaryOp) (left right : Expr)
  | isNull (expr : Expr) (negated : Bool)
  | between (expr low high : Expr) (negated : Bool)
  | like (expr pattern : Expr) (negated : Bool) (escape : Option Expr)
  | inList (expr : Expr) (list : List Expr) (negated : Bool)
  | function (name : String) (args : List Expr)
  | cast (expr : Expr) (target : DataType)
  | param (idx : Nat)
  | other (variant : Nat) (contents : Clause)

structure TableRef where
  database : Option String
  schema : Option String
  name : String
  aliasName : Option String
  tablesample : Option Clause

inductive FromClause where
  | table (t : TableRef)
  | unnest (exprs : List Expr) (aliasName : Option String) (columnNames : List String) (lateral : Bool)
  | generateSeries (start stop : Expr) (step : Option Expr) (aliasName columnName : Option String)
  | other (variant : Nat) (contents : Clause)

inductive JoinType where
  | inner | left | right | cross | full

inductive JoinCondition where
  | on (cond : Expr)
  | usingCols (cols : List String)

structure JoinClause where
  joinType : JoinType
  table : FromClause
  condition : JoinCondition
  natural : Bool

inductive SelectItem where
  | wildcard
  | qualifiedWildcard (table : String)
  | expr (expr : Expr) (aliasName : Option String)

inductive SortOrder where
  | asc | desc

inductive NullsOrder where
  | first | last

structure OrderByItem where
  expr : Expr
  order : SortOrder
  nulls : Option NullsOrder

inductive GroupByClause where
  | none
  | simple (exprs : List Expr)
  | withRollup (exprs : List Expr)
  | sets (allExprs : List Expr) (sets : List (List Nat))

structure SelectStmt where
  withCtes : List Clause
  distinct : Bool
  distinctOn : List Expr
  hints : List Clause
  calcFoundRows : Bool
  columns : List SelectItem
  fromClause : Option FromClause
  joins : List JoinClause
  whereClause : Option Expr
  groupBy : GroupByClause
  having : Option Expr
  orderBy : List OrderByItem
  limit : Option Expr
  offset : Option Expr
  lockClause : Option Clause
  setOpRest : List Clause
  intoOutfile : Option Clause

inductive InsertSource where
  | values (rows : List (List Expr))
  | select (query : Clause)
  | defaultValues

structure InsertStmt where
  table : TableRef
  columns : Option (List String)
  source : InsertSource
  ignore : Bool
  replace : Bool
  returning : List SelectItem
  onDuplicateUpdate : Option Clause
  onConflict : Option Clause

structure Assignment where
  column : String
  value : Expr

structure UpdateStmt where
  table : TableRef
  joins : List JoinClause
  assignments : List Assignment
  whereClause : Option Expr
  orderBy : List OrderByItem
  limit : Option Expr
  returning : List SelectItem

structure DeleteStmt where
  table : TableRef
  target : Option String
  joins : List JoinClause
  whereClause : Option Expr
  orderBy : List OrderByItem
  limit : Option Expr
  returning : List SelectItem

inductive Stmt where
  | select (s : SelectStmt)
  | insert (s : InsertStmt)
  | update (s : UpdateStmt)
  | delete (s : DeleteStmt)
  | other (contents : Clause)

/-! ## Taking the literals out -/

mutual

/-- `walk_expr_extract` in `statement_cache.rs`. -/
def walkExprExtract : Expr → List Value → Expr × List Value
  | .literal v, out => (.param out.length, out ++ [v])
  | .binaryOp op left right, out =>
    let l := walkExprExtract left out
    let r := walkExprExtract right l.2
    (.binaryOp op l.1 r.1, r.2)
  | .unaryOp op operand, out =>
    let e := walkExprExtract operand out
    (.unaryOp op e.1, e.2)
  | .isNull expr negated, out =>
    let e := walkExprExtract expr out
    (.isNull e.1 negated, e.2)
  | .between expr low high negated, out =>
    let e := walkExprExtract expr out
    let l := walkExprExtract low e.2
    let h := walkExprExtract high l.2
    (.between e.1 l.1 h.1 negated, h.2)
  | .inList expr list negated, out =>
    let e := walkExprExtract expr out
    let l := walkExprsExtract list e.2
    (.inList e.1 l.1 negated, l.2)
  | .like expr pattern negated escape, out =>
    let e := walkExprExtract expr out
    let p := walkExprExtract pattern e.2
    (.like e.1 p.1 negated escape, p.2)
  | .function name args, out =>
    let a := walkExprsExtract args out
    (.function name a.1, a.2)
  | .cast expr target, out =>
    let e := walkExprExtract expr out
    (.cast e.1 target, e.2)
  | e, out => (e, out)

def walkExprsExtract : List Expr → List Value → List Expr × List Value
  | [], out => ([], out)
  | e :: es, out =>
    let r := walkExprExtract e out
    let rs := walkExprsExtract es r.2
    (r.1 :: rs.1, rs.2)

end

/-- `walk_from_extract` in `statement_cache.rs`. -/
def walkFromExtract : FromClause → List Value → FromClause × List Value
  | .unnest exprs aliasName columnNames lateral, out =>
    let es := walkExprsExtract exprs out
    (.unnest es.1 aliasName columnNames lateral, es.2)
  | .generateSeries start stop step aliasName columnName, out =>
    let a := walkExprExtract start out
    let b := walkExprExtract stop a.2
    let c := walkOption walkExprExtract step b.2
    (.generateSeries a.1 b.1 c.1 aliasName columnName, c.2)
  | f, out => (f, out)

def walkJoinExtract (j : JoinClause) (out : List Value) : JoinClause × List Value :=
  ({ j with table := (walkFromExtract j.table out).1 }, (walkFromExtract j.table out).2)

def walkItemExtract : SelectItem → List Value → SelectItem × List Value
  | .expr e aliasName, out => (.expr (walkExprExtract e out).1 aliasName, (walkExprExtract e out).2)
  | item, out => (item, out)

def walkAssignmentExtract (a : Assignment) (out : List Value) : Assignment × List Value :=
  ({ a with value := (walkExprExtract a.value out).1 }, (walkExprExtract a.value out).2)

def walkSelectExtract (s : SelectStmt) (out : List Value) : SelectStmt × List Value :=
  let f := walkOption walkFromExtract s.fromClause out
  let j := walkList walkJoinExtract s.joins f.2
  let c := walkList walkItemExtract s.columns j.2
  let w := walkOption walkExprExtract s.whereClause c.2
  let l := walkOption walkExprExtract s.limit w.2
  let o := walkOption walkExprExtract s.offset l.2
  ({ s with fromClause := f.1, joins := j.1, columns := c.1, whereClause := w.1, limit := l.1,
            offset := o.1 }, o.2)

def walkInsertExtract (s : InsertStmt) (out : List Value) : InsertStmt × List Value :=
  match s.source with
  | .values rows =>
    let r := walkList walkExprsExtract rows out
    ({ s with source := .values r.1 }, r.2)
  | _ => (s, out)

def walkUpdateExtract (s : UpdateStmt) (out : List Value) : UpdateStmt × List Value :=
  let a := walkList walkAssignmentExtract s.assignments out
  let w := walkOption walkExprExtract s.whereClause a.2
  ({ s with assignments := a.1, whereClause := w.1 }, w.2)

def walkDeleteExtract (s : DeleteStmt) (out : List Value) : DeleteStmt × List Value :=
  let w := walkOption walkExprExtract s.whereClause out
  ({ s with whereClause := w.1 }, w.2)

/-- `walk_stmt_extract` in `statement_cache.rs`. -/
def walkStmtExtract : Stmt → List Value → Stmt × List Value
  | .select s, out => (.select (walkSelectExtract s out).1, (walkSelectExtract s out).2)
  | .insert s, out => (.insert (walkInsertExtract s out).1, (walkInsertExtract s out).2)
  | .update s, out => (.update (walkUpdateExtract s out).1, (walkUpdateExtract s out).2)
  | .delete s, out => (.delete (walkDeleteExtract s out).1, (walkDeleteExtract s out).2)
  | s, out => (s, out)

/-- `extract_literals` in `statement_cache.rs`. -/
def extractLiterals (stmt : Stmt) : Stmt × List Value := walkStmtExtract stmt []

/-! ## The shape hash -/

/-- The enumerations whose discriminants are hashed. -/
inductive EnumName where
  | stmt | expr | fromClause | joinType | selectItem | groupBy | sortOrder
  deriving DecidableEq

/-- A value that is fed to the hasher. Lists are shorter than `2 ^ 32`. -/
inductive Fed where
  | discriminant (e : EnumName) (n : Nat)
  | binaryOp (op : BinaryOp)
  | unaryOp (op : UnaryOp)
  | str (s : String)
  | optStr (s : Option String)
  | optStrs (l : Option (List String))
  | dataType (t : DataType)
  | u32 (n : Nat)
  | usize (n : Nat)
  | u8 (n : Nat)
  | flag (b : Bool)

mutual

/-- `hash_expr` in `statement_cache.rs`. -/
def hashExpr : Expr → List Fed
  | .literal _ => [.discriminant .expr 0, .u8 0xFF]
  | .param idx => [.discriminant .expr 21, .usize idx]
  | .column _ name => [.discriminant .expr 1, .str name]
  | .binaryOp op left right =>
    .discriminant .expr 4 :: .binaryOp op :: (hashExpr left ++ hashExpr right)
  | .unaryOp op operand => .discriminant .expr 2 :: .unaryOp op :: hashExpr operand
  | .isNull expr _ => .discriminant .expr 5 :: hashExpr expr
  | .between expr low high _ =>
    .discriminant .expr 6 :: (hashExpr expr ++ (hashExpr low ++ hashExpr high))
  | .inList expr list _ =>
    .discriminant .expr 9 :: (hashExpr expr ++ .u32 list.length :: hashExprs list)
  | .like expr pattern _ _ => .discriminant .expr 7 :: (hashExpr expr ++ hashExpr pattern)
  | .function name args => .discriminant .expr 10 :: .str name :: .u32 args.length :: hashExprs args
  | .cast expr target => .discriminant .expr 13 :: .dataType target :: hashExpr expr
  | .collate expr collation => .discriminant .expr 3 :: .str collation :: hashExpr expr
  | .other variant _ => [.discriminant .expr variant]

def hashExprs : List Expr → List Fed
  | [] => []
  | e :: es => hashExpr e ++ hashExprs es

end

/-- `true.hash` and the expression, or `false.hash`. -/
def hashFlagged {α : Type} (hash : α → List Fed) : Option α → List Fed
  | some a => .flag true :: hash a
  | none => [.flag false]

/-- `hash_from` in `statement_cache.rs`. -/
def hashFrom : FromClause → List Fed
  | .table t => [.discriminant .fromClause 0, .str t.name, .optStr t.schema]
  | .unnest exprs _ _ _ => .discriminant .fromClause 7 :: .u32 exprs.length :: hashExprs exprs
  | .generateSeries start stop step _ _ =>
    .discriminant .fromClause 8 :: (hashExpr start ++ (hashExpr stop ++ hashFlagged hashExpr step))
  | .other variant _ => [.discriminant .fromClause variant]

def JoinType.discriminant : JoinType → Nat
  | .inner => 0
  | .left => 1
  | .right => 2
  | .cross => 3
  | .full => 4

def hashJoin (j : JoinClause) : List Fed :=
  .discriminant .joinType j.joinType.discriminant :: hashFrom j.table

def hashItem : SelectItem → List Fed
  | .wildcard => [.discriminant .selectItem 0]
  | .qualifiedWildcard _ => [.discriminant .selectItem 1]
  | .expr e _ => .discriminant .selectItem 2 :: hashExpr e

def hashGroupBy : GroupByClause → List Fed
  | .none => [.discriminant .groupBy 0]
  | .simple exprs => .discriminant .groupBy 1 :: hashExprs exprs
  | .withRollup exprs => .discriminant .groupBy 2 :: hashExprs exprs
  | .sets _ _ => [.discriminant .groupBy 3]

def SortOrder.discriminant : SortOrder → Nat
  | .asc => 0
  | .desc => 1

def hashOrderBy (ob : OrderByItem) : List Fed :=
  hashExpr ob.expr ++ [.discriminant .sortOrder ob.order.discriminant]

def hashAssignment (a : Assignment) : List Fed := .str a.column :: hashExpr a.value

def hashTable (t : TableRef) : List Fed := [.str t.name, .optStr t.schema]

def hashSelect (s : SelectStmt) : List Fed :=
  .flag s.distinct :: .u32 s.distinctOn.length :: (hashExprs s.distinctOn ++
    (hashFlagged hashFrom s.fromClause ++
    .u32 s.joins.length :: (s.joins.flatMap hashJoin ++
    .u32 s.columns.length :: (s.columns.flatMap hashItem ++
    (hashExprs s.whereClause.toList ++ (hashGroupBy s.groupBy ++
    .u32 s.orderBy.length :: (s.orderBy.flatMap hashOrderBy ++
    (hashFlagged hashExpr s.limit ++ hashFlagged hashExpr s.offset))))))))

/-- Of the rows only their number and the first one are hashed. -/
def hashSource : InsertSource → List Fed
  | .values [] => [.u32 0]
  | .values (first :: rows) => .u32 (rows.length + 1) :: .u32 first.length :: hashExprs first
  | _ => []

/-- `hash_stmt` in `statement_cache.rs`. -/
def hashStmt : Stmt → List Fed
  | .insert s => .discriminant .stmt 2 ::
    (hashTable s.table ++ .optStrs s.columns :: hashSource s.source)
  | .update s => .discriminant .stmt 3 ::
    (hashTable s.table ++ (s.assignments.flatMap hashAssignment ++ hashExprs s.whereClause.toList))
  | .delete s => .discriminant .stmt 4 :: (hashTable s.table ++ hashExprs s.whereClause.toList)
  | .select s => .discriminant .stmt 0 :: hashSelect s
  | .other _ => []

/-! ## Putting literals back -/

mutual

/-- `sub_expr` in `statement_cache.rs`. -/
def subExpr (params : List Value) : Expr → Expr
  | .param idx => match params[idx]? with
    | some v => .literal v
    | none => .param idx
  | .binaryOp op left right => .binaryOp op (subExpr params left) (subExpr params right)
  | .unaryOp op operand => .unaryOp op (subExpr params operand)
  | .isNull expr negated => .isNull (subExpr params expr) negated
  | .between expr low high negated =>
    .between (subExpr params expr) (subExpr params low) (subExpr params high) negated
  | .inList expr list negated => .inList (subExpr params expr) (subExprs params list) negated
  | .like expr pattern negated escape =>
    .like (subExpr params expr) (subExpr params pattern) negated escape
  | .function name args => .function name (subExprs params args)
  | .cast expr target => .cast (subExpr params expr) target
  | e => e

def subExprs (params : List Value) : List Expr → List Expr
  | [] => []
  | e :: es => subExpr params e :: subExprs params es

end

variable (params : List Value)

/-- `sub_from` in `statement_cache.rs`. -/
def subFrom : FromClause → FromClause
  | .unnest exprs aliasName columnNames lateral =>
    .unnest (subExprs params exprs) aliasName columnNames lateral
  | .generateSeries start stop step aliasName columnName =>
    .generateSeries (subExpr params start) (subExpr params stop) (step.map (subExpr params)) aliasName
      columnName
  | f => f

def subCondition : JoinCondition → JoinCondition
  | .on cond => .on (subExpr params cond)
  | c => c

def subJoin (j : JoinClause) : JoinClause :=
  { j with table := subFrom params j.table, condition := subCondition params j.condition }

def subItem : SelectItem → SelectItem
  | .expr e aliasName => .expr (subExpr params e) aliasName
  | item => item

def subAssignment (a : Assignment) : Assignment :=
  { a with value := subExpr params a.value }

def subSource : InsertSource → InsertSource
  | .values rows => .values (rows.map (subExprs params))
  | s => s

/-- `substitute_params` in `statement_cache.rs`. -/
def substituteParams : Stmt → Stmt
  | .select s => .select
    { s with
      whereClause := s.whereClause.map (subExpr params)
      columns := s.columns.map (subItem params)
      fromClause := s.fromClause.map (subFrom params)
      joins := s.joins.map (subJoin params)
      limit := s.limit.map (subExpr params)
      offset := s.offset.map (subExpr params) }
  | .insert s => .insert { s with source := subSource params s.source }
  | .update s => .update
    { s with
      assignments := s.assignments.map (subAssignment params)
      whereClause := s.whereClause.map (subExpr params) }
  | .delete s => .delete { s with whereClause := s.whereClause.map (subExpr params) }
  | s => s

/-! ## Eligibility -/

mutual

/-- `expr_is_cache_simple` in `statement_cache.rs`. -/
def exprIsCacheSimple : Expr → Bool
  | .literal _ | .param _ | .column _ _ => true
  | .binaryOp _ left right => exprIsCacheSimple left && exprIsCacheSimple right
  | .unaryOp _ operand => exprIsCacheSimple operand
  | .isNull expr _ => exprIsCacheSimple expr
  | .between expr low high _ =>
    exprIsCacheSimple expr && exprIsCacheSimple low && exprIsCacheSimple high
  | .inList expr list _ => exprIsCacheSimple expr && exprsAreCacheSimple list
  | .like expr pattern _ _ => exprIsCacheSimple expr && exprIsCacheSimple pattern
  | .function _ args => exprsAreCacheSimple args
  | .cast expr _ => exprIsCacheSimple expr
  | _ => false

def exprsAreCacheSimple : List Expr → Bool
  | [] => true
  | e :: es => exprIsCacheSimple e && exprsAreCacheSimple es

end

/-- `from_is_cache_simple` in `statement_cache.rs`. -/
def fromIsCacheSimple : FromClause → Bool
  | .table t => t.tablesample.isNone
  | .unnest exprs _ _ _ => exprsAreCacheSimple exprs
  | .generateSeries start stop step _ _ =>
    exprIsCacheSimple start && exprIsCacheSimple stop && step.all exprIsCacheSimple
  | .other _ _ => false

def groupByIsCacheSimple : GroupByClause → Bool
  | .none => true
  | .simple exprs => exprsAreCacheSimple exprs
  | _ => false

def itemIsCacheSimple : SelectItem → Bool
  | .expr e _ => exprIsCacheSimple e
  | _ => true

def conditionIsCacheSimple : JoinCondition → Bool
  | .on cond => exprIsCacheSimple cond
  | .usingCols _ => true

def joinIsCacheSimple (j : JoinClause) : Bool :=
  fromIsCacheSimple j.table && conditionIsCacheSimple j.condition

/-- `select_is_cache_eligible` in `statement_cache.rs`. -/
def selectIsCacheEligible (s : SelectStmt) : Bool :=
  (s.withCtes.isEmpty && s.distinctOn.isEmpty && s.hints.isEmpty && !s.calcFoundRows &&
    s.having.isNone && s.lockClause.isNone && s.setOpRest.isEmpty && s.intoOutfile.isNone) &&
  groupByIsCacheSimple s.groupBy && s.columns.all itemIsCacheSimple &&
  s.fromClause.all fromIsCacheSimple && s.joins.all joinIsCacheSimple &&
  s.whereClause.all exprIsCacheSimple && s.orderBy.all (fun ob => exprIsCacheSimple ob.expr) &&
  s.limit.all exprIsCacheSimple && s.offset.all exprIsCacheSimple

/-- `insert_is_cache_eligible` in `statement_cache.rs`. -/
def insertIsCacheEligible (s : InsertStmt) : Bool :=
  !s.ignore && !s.replace && s.returning.isEmpty && s.onConflict.isNone &&
    s.onDuplicateUpdate.isNone &&
  match s.source with
  | .values rows => rows.all exprsAreCacheSimple
  | _ => false

/-- `update_is_cache_eligible` in `statement_cache.rs`. -/
def updateIsCacheEligible (s : UpdateStmt) : Bool :=
  s.joins.isEmpty && s.orderBy.isEmpty && s.limit.isNone && s.returning.isEmpty &&
    s.assignments.all (fun a => exprIsCacheSimple a.value) && s.whereClause.all exprIsCacheSimple

/-- `delete_is_cache_eligible` in `statement_cache.rs`. -/
def deleteIsCacheEligible (s : DeleteStmt) : Bool :=
  s.target.isNone && s.joins.isEmpty && s.orderBy.isEmpty && s.limit.isNone &&
    s.returning.isEmpty && s.whereClause.all exprIsCacheSimple

/-- `is_cache_eligible` in `statement_cache.rs`. -/
def isCacheEligible : Stmt → Bool
  | .select s => selectIsCacheEligible s
  | .insert s => insertIsCacheEligible s
  | .update s => updateIsCacheEligible s
  | .delete s => deleteIsCacheEligible s
  | .other _ => false

/-! ## Running a statement -/

/-- `CachedPlan` in `statement_cache.rs`. -/
structure CachedPlan where
  analyzed : Stmt
  paramCount : Nat

def statementCacheMaxEntries : Nat := 256

/-- `SessionContext`, as far as the cache goes: the plans with the sequence numbers of their
last uses. -/
structure Session (κ : Type) where
  statementCache : List (κ × CachedPlan × Nat)
  statementLruSeq : Nat

def emptySession (κ : Type) : Session κ := ⟨[], 0⟩

section Run

variable {κ ε ρ : Type} [DecidableEq κ]

def Session.lookup (s : Session κ) (hash : κ) : Option CachedPlan :=
  (s.statementCache.find? fun e => e.1 = hash).map fun e => e.2.1

def Session.bumpCachedPlanLru (s : Session κ) (hash : κ) : Session κ where
  statementCache := s.statementCache.map fun e =>
    if e.1 = hash then (e.1, e.2.1, s.statementLruSeq + 1) else e
  statementLruSeq := s.statementLruSeq + 1

/-- The entries without the one that was used longest ago. -/
def Session.evictOldest (s : Session κ) : List (κ × CachedPlan × Nat) :=
  match s.statementCache.argmin fun e => e.2.2 with
  | some oldest => s.statementCache.filter fun e => e.1 ≠ oldest.1
  | none => s.statementCache

def Session.cachePlan (s : Session κ) (hash : κ) (plan : CachedPlan) : Session κ :=
  let kept := if statementCacheMaxEntries ≤ s.statementCache.length ∧ (s.lookup hash).isNone
    then s.evictOldest else s.statementCache
  { statementCache := (hash, plan, s.statementLruSeq + 1) :: kept.filter fun e => e.1 ≠ hash
    statementLruSeq := s.statementLruSeq + 1 }

/-- What the cache is used with: the hasher, the analyzer and the executor, and the error of a
plan with another number of literals. -/
structure Backend (κ ε ρ : Type) where
  hasher : List Fed → κ
  analyze : Stmt → Except ε Stmt
  execute : Stmt → Except ε ρ
  countMismatch : Nat → Nat → ε

/-- `shape_hash` in `statement_cache.rs`. -/
def Backend.shapeHash (b : Backend κ ε ρ) (stmt : Stmt) : κ := b.hasher (hashStmt stmt)

/-- `run_cached_stmt` in `statement_cache.rs`. -/
def runCachedStmt (b : Backend κ ε ρ) (session : Session κ) (stmt : Stmt) :
    Except ε ρ × Session κ :=
  if isCacheEligible stmt then
    let shape := (extractLiterals stmt).1
    let extracted := (extractLiterals stmt).2
    let hash := b.shapeHash shape
    match session.lookup hash with
    | some plan =>
      if extracted.length ≠ plan.paramCount then
        (.error (b.countMismatch plan.paramCount extracted.length), session)
      else (b.execute (substituteParams extracted plan.analyzed), session.bumpCachedPlanLru hash)
    | none => match b.analyze shape with
      | .ok analyzed => (b.execute (substituteParams extracted analyzed),
          session.cachePlan hash ⟨analyzed, extracted.length⟩)
      | .error e => (.error e, session)
  else (b.analyze stmt >>= b.execute, session)

end Run

end AxiomDb.StatementCache
