import AxiomDb.Sql.RowRoundTrip

/-!
# Expressions, and predicates on encoded rows

`try_compile` turns a conjunction of comparisons of columns with literals into a list
of checks that read the columns at their offsets in the encoded row. The offset of a
column behind columns of fixed size is computed once, from the schema alone; behind
others it is found by walking over the row.
-/

namespace AxiomDb.Row

open Lib Sql

/-! ## Expressions -/

inductive BinaryOp where
  | add | sub | mul | div | mod
  | eq | notEq | lt | ltEq | gt | gtEq
  | and | or | xor
  | concat | nullSafe | intDiv
  | bitAnd | bitOr | bitXor | shiftLeft | shiftRight
  | regexp | regexpTilde | regexpITilde | regexpNotTilde | regexpNotITilde
  | jsonSub | jsonContains | jsonContainedBy | jsonExists | jsonbPathExists | jsonbPathMatch
  | jsonExistsAny | jsonExistsAll | jsonPathExtract | jsonPathExtractText | jsonPathDelete
  | arrayOverlap
  deriving DecidableEq

inductive UnaryOp where
  | neg | not | bitNot
  deriving DecidableEq

/-- The forms that are no operators and no function calls, with what they hold besides
their subexpressions. -/
inductive SpecialForm where
  | between (negated : Bool)
  | like (negated escape : Bool)
  | isBoolean (value negated : Bool)
  | inList (negated : Bool)
  | case (operand elseResult : Bool)
  | cast (target : DataType)
  | collate (collation : String)

/-- `Expr`, without subqueries and window functions. -/
inductive Expr where
  | literal (v : Value)
  | column (colIdx : Nat)
  | unaryOp (op : UnaryOp) (operand : Expr)
  | binaryOp (op : BinaryOp) (left right : Expr)
  | isNull (expr : Expr) (negated : Bool)
  | function (name : String) (args : List Expr)
  | special (form : SpecialForm) (subs : List Expr)

inductive EvalError where
  | columnIndexOutOfBounds (idx len : Nat)
  | typeMismatch (expected got : String)
  | other (message : String)
  deriving DecidableEq

abbrev EvalResult := Except EvalError Value

/-- The parts of the evaluator that are not modelled: what the other forms compute from
the results of their subexpressions, and comparisons of the other types. -/
structure Ops where
  combine : Expr → List EvalResult → EvalResult
  compareOther : Value → Value → Except EvalError Ordering
  textCompare : BinaryOp → Utf8 → Utf8 → Bool
  dispatch : BinaryOp → Value → Value → EvalResult

/-- `is_truthy` in `ops.rs`. -/
def isTruthy : Value → Bool
  | .bool true => true
  | _ => false

/-- The place of a number among the others, from its bits; `-0.0` and `0.0` have the same. -/
def f64Place (f : Fin (2 ^ 64)) : Int := if f.val < 2 ^ 63 then f.val else -(f.val - 2 ^ 63 : Int)

/-- `f64::partial_cmp` -/
def f64PartialCmp (f g : Fin (2 ^ 64)) : Option Ordering :=
  if isNan f.val || isNan g.val then none else some (compare (f64Place f) (f64Place g))

/-- `compare_values` in `ops.rs`. -/
def compareValues (o : Ops) (l r : Value) : Except EvalError Ordering :=
  match l, r with
  | .bool a, .bool b => .ok (compare a.toNat b.toNat)
  | .int a, .int b => .ok (compare a.val b.val)
  | .int a, .bigInt b => .ok (compare a.val b.val)
  | .bigInt a, .int b => .ok (compare a.val b.val)
  | .bigInt a, .bigInt b => .ok (compare a.val b.val)
  | .date a, .date b => .ok (compare a.val b.val)
  | .timestamp a, .timestamp b => .ok (compare a.val b.val)
  | .real a, .real b => match f64PartialCmp a b with
    | some ord => .ok ord
    | none => .error (.typeMismatch "comparable Real" "NaN")
  -- `coerce_for_op` takes TRUE to be 1 and FALSE to be 0
  | .bool a, .int b => .ok (compare (a.toNat : Int) b.val)
  | .int a, .bool b => .ok (compare a.val (b.toNat : Int))
  | .bool a, .bigInt b => .ok (compare (a.toNat : Int) b.val)
  | .bigInt a, .bool b => .ok (compare a.val (b.toNat : Int))
  | .date _, .int _ => .error (.typeMismatch "comparable types" "Date and Int")
  | .int _, .date _ => .error (.typeMismatch "comparable types" "Int and Date")
  | l, r => o.compareOther l r

/-- What an ordering makes of a comparison. -/
def BinaryOp.holds : BinaryOp → Ordering → Bool
  | .eq, ord => ord == .eq
  | .notEq, ord => ord != .eq
  | .lt, ord => ord == .lt
  | .ltEq, ord => ord != .gt
  | .gt, ord => ord == .gt
  | .gtEq, ord => ord != .lt
  | _, _ => false

def BinaryOp.isComparison : BinaryOp → Bool
  | .eq | .notEq | .lt | .ltEq | .gt | .gtEq => true
  | _ => false

/-- `eval_comparison` in `ops.rs`. -/
def evalComparison (o : Ops) (op : BinaryOp) (l r : Value) : EvalResult :=
  match l, r, op == .eq || op == .notEq with
  | .text a, .text b, true => .ok (.bool (o.textCompare op a b))
  | l, r, _ => do
    let ord ← compareValues o l r
    .ok (.bool (op.holds ord))

/-- The operands that have operators of their own. -/
def Value.dispatches (l r : Value) : Bool :=
  match l, r with
  | .array _, _ | .range _, _ | .money _ _ _, _ | _, .money _ _ _ | .ltree _, _ => true
  | _, _ => false

/-- `eval_binary`, for the comparisons. -/
def evalBinary (o : Ops) (op : BinaryOp) (l r : Value) : EvalResult :=
  if l.dispatches r then o.dispatch op l r
  else if l.isNull || r.isNull then .ok .null
  else evalComparison o op l r

/-- `eval_and`, of what the operands evaluate to: the second one is not looked at if the
first is false. -/
def evalAnd (l r : EvalResult) : EvalResult := do
  match ← l with
  | .bool false => .ok (.bool false)
  | .bool true => r
  | .null => do
    match ← r with
    | .bool false => .ok (.bool false)
    | _ => .ok .null
  | other => .error (.typeMismatch "Bool" other.variantName)

/-- `eval` in `core.rs`. -/
def eval (o : Ops) (row : List Value) : Expr → EvalResult
  | .literal v => .ok v
  | .column colIdx => match row[colIdx]? with
    | some v => .ok v
    | none => .error (.columnIndexOutOfBounds colIdx row.length)
  | .binaryOp .and left right => evalAnd (eval o row left) (eval o row right)
  | .binaryOp op left right =>
    if op.isComparison then do
      let l ← eval o row left
      let r ← eval o row right
      evalBinary o op l r
    else o.combine (.binaryOp op left right) [eval o row left, eval o row right]
  | .isNull expr negated => do
    let v ← eval o row expr
    .ok (.bool (v.isNull != negated))
  | .unaryOp op operand => o.combine (.unaryOp op operand) [eval o row operand]
  | .function name args => o.combine (.function name args) (args.map fun a => eval o row a)
  | .special form subs => o.combine (.special form subs) (subs.map fun a => eval o row a)

/-! ## Compiled predicates -/

/-- `CmpOp` in `batch.rs`. -/
inductive CmpOp where
  | eq
  | notEq
  | lt
  | ltEq
  | gt
  | gtEq
  deriving DecidableEq

/-- `CmpOp::flip` in `batch.rs`. -/
def CmpOp.flip : CmpOp → CmpOp
  | .eq => .eq
  | .notEq => .notEq
  | .lt => .gt
  | .ltEq => .gtEq
  | .gt => .lt
  | .gtEq => .ltEq

/-- `CmpOp::from_binary_op` in `batch.rs`. -/
def CmpOp.fromBinaryOp (op : BinaryOp) (reversed : Bool) : Option CmpOp :=
  let cmp : Option CmpOp := match op with
    | .eq => some .eq
    | .notEq => some .notEq
    | .lt => some .lt
    | .ltEq => some .ltEq
    | .gt => some .gt
    | .gtEq => some .gtEq
    | _ => none
  cmp.map fun c => if reversed then c.flip else c

def CmpOp.toBinaryOp : CmpOp → BinaryOp
  | .eq => .eq
  | .notEq => .notEq
  | .lt => .lt
  | .ltEq => .ltEq
  | .gt => .gt
  | .gtEq => .gtEq

/-- One comparison of a column with a literal, whose bytes are in `literalBytes`. -/
structure SingleCheck where
  colIdx : Nat
  op : CmpOp
  literalBytes : Bytes
  literalLen : Nat
  dataType : DataType
  fixedOffset : Option Nat

/-- `BatchPredicate` in `batch.rs`. -/
structure BatchPredicate where
  checks : List SingleCheck
  schema : List DataType
  bitmapLen : Nat

/-- The eight bytes of a buffer that starts with `b`. -/
def literalBuf (b : Bytes) : Bytes := b ++ List.replicate (8 - b.length) 0

/-- `encode_literal` in `batch.rs`. -/
def encodeLiteral (x : Externals) (v : Value) (dt : DataType) : Option (Bytes × Nat) :=
  match dt, v with
  | .bool, .bool b => some (literalBuf [if b then 1 else 0], 1)
  | .bool, .int n => some (literalBuf [if n.val ≠ 0 then 1 else 0], 1)
  | .int, .int n => some (literalBuf (leSigned n), 4)
  | .int, .bigInt n => some (literalBuf (leSigned (SInt.wrap 32 n.val)), 4)  -- `as i32`
  | .date, .int n => some (literalBuf (leSigned n), 4)
  | .date, .date d => some (literalBuf (leSigned d), 4)
  | .bigInt, .bigInt n => some (literalBuf (leSigned n), 8)
  | .bigInt, .int n => some (literalBuf (leSigned (SInt.wrap 64 n.val)), 8)  -- `as i64`
  | .float, .real f => some (literalBuf (leBytes 4 (x.toF32 f).val), 4)
  | .real, .real f => some (literalBuf (leBytes 8 f.val), 8)
  | .timestamp, .timestamp t => some (literalBuf (leSigned t), 8)
  | _, _ => none

/-- A check of one column, its offset still open. -/
def compileCheck (x : Externals) (schema : List DataType) (op : BinaryOp) (colIdx : Nat) (v : Value)
    (reversed : Bool) : Option (List SingleCheck) := do
  let cmpOp ← CmpOp.fromBinaryOp op reversed
  let dt ← schema[colIdx]?
  let (literalBytes, literalLen) ← encodeLiteral x v dt
  some [⟨colIdx, cmpOp, literalBytes, literalLen, dt, none⟩]

/-- `collect_checks` in `batch.rs`. -/
def collectChecks (x : Externals) (schema : List DataType) : Expr → Option (List SingleCheck)
  | .binaryOp .and left right => do
    let l ← collectChecks x schema left
    let r ← collectChecks x schema right
    some (l ++ r)
  | .binaryOp op (.column colIdx) (.literal v) => compileCheck x schema op colIdx v false
  | .binaryOp op (.literal v) (.column colIdx) => compileCheck x schema op colIdx v true
  | _ => none

/-- `fixed_size` in `batch.rs`. -/
def fixedSize : DataType → Option Nat
  | .bool => some 1
  | .tinyInt | .smallInt | .int | .float | .date => some 4
  | .bigInt | .real | .timestamp | .timestampTz => some 8
  | _ => none

/-- The offset behind columns that are all of fixed size, none of them NULL. -/
def fixedOffset : Nat → List DataType → Option Nat
  | offset, [] => some offset
  | offset, dt :: dts => match fixedSize dt with
    | some sz => fixedOffset (offset + sz) dts
    | none => none

/-- `try_compile` in `batch.rs`. -/
def tryCompile (x : Externals) (expr : Expr) (schema : List DataType) : Option BatchPredicate := do
  let checks ← collectChecks x schema expr
  if checks.isEmpty then none
  else
    some ⟨checks.map fun c =>
      { c with fixedOffset := fixedOffset (bitmapLen schema.length) (schema.take c.colIdx) },
      schema, bitmapLen schema.length⟩

namespace BatchPredicate

/-- The walk over the columns before the target, the next one being column `i` at `offset`. -/
def walk (bitmap row : Bytes) : Nat → Nat → List DataType → Option Nat
  | _, offset, [] => some offset
  | i, offset, dt :: dts =>
    if isNullBit bitmap i then walk bitmap row (i + 1) offset dts
    else match fixedSize dt with
      | some sz => walk bitmap row (i + 1) (offset + sz) dts
      | none =>
        if offset + 3 > row.length then none
        else walk bitmap row (i + 1) (offset + (3 + ofLeBytes ((row.drop offset).take 3))) dts

variable (x : Externals) (p : BatchPredicate)

/-- `BatchPredicate::locate_column_runtime` in `batch.rs`. -/
def locateColumnRuntime (row : Bytes) (targetCol : Nat) : Option Nat :=
  walk (row.take p.bitmapLen) row 0 p.bitmapLen (p.schema.take targetCol)

/-- `BatchPredicate::col_offset` in `batch.rs`. -/
def colOffset (row : Bytes) (check : SingleCheck) : Option Nat :=
  check.fixedOffset.or (p.locateColumnRuntime row check.colIdx)

/-- `cmp_bool` in `batch.rs`. -/
def cmpBool (a b : Bool) : CmpOp → Bool
  | .eq => a == b
  | .notEq => a != b
  | .lt => !a && b
  | .ltEq => !a || b
  | .gt => a && !b
  | .gtEq => a || !b

/-- `cmp_ord` in `batch.rs`. -/
def cmpOrd (a b : Int) : CmpOp → Bool
  | .eq => a == b
  | .notEq => a != b
  | .lt => a < b
  | .ltEq => a ≤ b
  | .gt => a > b
  | .gtEq => a ≥ b

/-- Of a NaN nothing holds but that it is different. -/
def cmpF64 (a b : Fin (2 ^ 64)) (op : CmpOp) : Bool :=
  match f64PartialCmp a b with
  | some ord => op.toBinaryOp.holds ord
  | none => op == .notEq

/-- The comparison of the bytes of a column with those of the literal. -/
def compareBytes (check : SingleCheck) (colBytes litBytes : Bytes) : Bool :=
  match check.dataType with
  | .bool => cmpBool (colBytes.headD 0 != 0) (litBytes.headD 0 != 0) check.op
  | .int | .date =>
    cmpOrd (SInt.wrap 32 (ofLeBytes colBytes)).val (SInt.wrap 32 (ofLeBytes litBytes)).val check.op
  | .bigInt | .timestamp =>
    cmpOrd (SInt.wrap 64 (ofLeBytes colBytes)).val (SInt.wrap 64 (ofLeBytes litBytes)).val check.op
  | .float => cmpF64 (x.toF64 (f32OfBits (ofLeBytes colBytes)))
      (x.toF64 (f32OfBits (ofLeBytes litBytes))) check.op
  | .real => cmpF64 (f64OfBits (ofLeBytes colBytes)) (f64OfBits (ofLeBytes litBytes)) check.op
  | _ => false

/-- `BatchPredicate::eval_single` in `batch.rs`. -/
def evalSingle (row : Bytes) (check : SingleCheck) : Bool :=
  if isNullBit (row.take p.bitmapLen) check.colIdx then false
  else match p.colOffset row check with
    | none => false
    | some offset =>
      let len := check.literalLen
      if offset + len > row.length then false
      else compareBytes x check ((row.drop offset).take len) (check.literalBytes.take len)

/-- `BatchPredicate::eval_on_raw` in `batch.rs`. -/
def evalOnRaw (row : Bytes) : Bool := p.checks.all (p.evalSingle x row)

/-- What `eval_check_batch` gathers of one row: the flag that is left, and the bytes of
the column. -/
def gather (check : SingleCheck) (size : Nat) (row : Bytes) (flag : Bool) : Bool × Bytes :=
  if !flag then (false, [])
  else if isNullBit (row.take p.bitmapLen) check.colIdx then (false, [])
  else match p.colOffset row check with
    | none => (false, [])
    | some off => if off + size ≤ row.length then (true, (row.drop off).take size) else (false, [])

/-- The bytes that `eval_check_batch` reads for a type. -/
def gatherSize : DataType → Option Nat
  | .bool => some 1
  | .int | .date | .float => some 4
  | .bigInt | .timestamp | .real => some 8
  | _ => none

/-- `eval_check_batch`: gather, compare, and clear the flags of the rows that fail. -/
def evalCheckBatch (rows : List Bytes) (check : SingleCheck) (output : List Bool) : List Bool :=
  match gatherSize check.dataType with
  | none => output.map fun _ => false
  | some size => List.zipWith (fun row flag =>
      let (left, vals) := p.gather check size row flag
      left && compareBytes x check vals (check.literalBytes.take size)) rows output

/-- `BatchPredicate::eval_batch` in `batch.rs`. -/
def evalBatch (rows : List Bytes) (output : List Bool) : List Bool :=
  p.checks.foldl (fun output check => p.evalCheckBatch x rows check output) output

end BatchPredicate

end AxiomDb.Row
