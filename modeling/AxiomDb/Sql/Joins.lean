import AxiomDb.Sql.Comparison
import AxiomDb.Lib.HashIndex

/-!
# Joins

`apply_join` joins two lists of rows by a loop over all pairs, or, if the lists are large
and the condition is an equality of two columns, by a hash table on one of the columns.
The loop evaluates the condition, with the coercions and the collation of the session; the
table compares the values of the columns as they are.
-/

namespace AxiomDb.Row

open Lib Sql

abbrev Tuple := List Value

inductive JoinType where
  | inner
  | left
  | right
  | full
  | cross
  deriving DecidableEq

variable (o : Ops)

/-! ## The nested loop -/

/-- `eval_join_cond`, for `ON`. -/
def evalJoinCond (cond : Expr) (combined : Tuple) : Except EvalError Bool := do
  .ok (isTruthy (← eval o combined cond))

/-- The pairs of a row on the left, by the flags of the rows on the right. -/
def pairsOf (l : Tuple) : List Tuple → List Bool → List Tuple
  | r :: rs, true :: flags => (l ++ r) :: pairsOf l rs flags
  | _ :: rs, false :: flags => pairsOf l rs flags
  | _, _ => []

/-- What a row on the left contributes: its pairs, or itself padded if there are none. -/
def ownRows (nullRight : Option Tuple) (l : Tuple) (hasMatch : Bool) (pairs : List Tuple) : List Tuple :=
  match nullRight, hasMatch with
  | some nulls, false => [l ++ nulls]
  | _, _ => pairs

/-- The loop over the rows on the left; `matchedRight` marks the rows on the right that have
had a match. With `nullRight`, a row without one is padded. -/
def nestedRows (cond : Expr) (rightRows : List Tuple) (nullRight : Option Tuple) :
    List Tuple → List Bool → Except EvalError (List Tuple × List Bool)
  | [], matchedRight => .ok ([], matchedRight)
  | l :: ls, matchedRight => do
    let flags ← rightRows.mapM fun r => evalJoinCond o cond (l ++ r)
    let own := ownRows nullRight l (flags.any id) (pairsOf l rightRows flags)
    let (rest, matchedRight) ← nestedRows cond rightRows nullRight ls
      (List.zipWith (· || ·) matchedRight flags)
    .ok (own ++ rest, matchedRight)

/-- The rows on the right without a match, padded. -/
def unmatchedRight (nullLeft : Tuple) : List Tuple → List Bool → List Tuple
  | r :: rs, false :: flags => (nullLeft ++ r) :: unmatchedRight nullLeft rs flags
  | _ :: rs, true :: flags => unmatchedRight nullLeft rs flags
  | _, _ => []

def nulls (n : Nat) : Tuple := List.replicate n .null

/-- The branch of `apply_join` that loops over all pairs. -/
def nestedLoop (leftRows rightRows : List Tuple) (leftColCount rightColCount : Nat)
    (joinType : JoinType) (cond : Expr) : Except EvalError (List Tuple) := do
  let noMatch := List.replicate rightRows.length false
  match joinType with
  | .inner | .cross => do
    let (rows, _) ← nestedRows o cond rightRows none leftRows noMatch
    .ok rows
  | .left => do
    let (rows, _) ← nestedRows o cond rightRows (some (nulls rightColCount)) leftRows noMatch
    .ok rows
  | .right => do
    let (rows, matchedRight) ← nestedRows o cond rightRows none leftRows noMatch
    .ok (rows ++ unmatchedRight (nulls leftColCount) rightRows matchedRight)
  | .full => do
    let (rows, matchedRight) ←
      nestedRows o cond rightRows (some (nulls rightColCount)) leftRows noMatch
    .ok (rows ++ unmatchedRight (nulls leftColCount) rightRows matchedRight)

/-! ## Hash joins -/

/-- The value of a join column, if there is one and it is not NULL. -/
def joinKey (idx : Nat) (row : Tuple) : Option Value :=
  match row[idx]? with
  | some v => if v.isNull then none else some v
  | none => none

/-- The rows that a table gives for a key. -/
def probe (buildRows : List Tuple) (ht : HashIndex Value) (key : Option Value) : Option (List Tuple) :=
  key.bind fun k => (ht.get k).map fun indices => indices.map fun bi => buildRows.getD bi []

/-- `hash_join_inner`: the table is built on the smaller side. -/
def hashJoinInner (leftRows rightRows : List Tuple) (leftKeyIdx rightKeyIdx : Nat) : List Tuple :=
  if leftRows.length < rightRows.length then
    let ht := HashIndex.build (joinKey leftKeyIdx) leftRows
    rightRows.flatMap fun r =>
      ((probe leftRows ht (joinKey rightKeyIdx r)).getD []).map fun l => l ++ r
  else
    let ht := HashIndex.build (joinKey rightKeyIdx) rightRows
    leftRows.flatMap fun l =>
      ((probe rightRows ht (joinKey leftKeyIdx l)).getD []).map fun r => l ++ r

def SPILL_MEMORY_LIMIT : Nat := 64 * 1024 * 1024

def APPROX_ROW_OVERHEAD : Nat := 128

/-- `compute_radix_bits` in `joins.rs`. -/
def computeRadixBits (estimatedMem memoryLimit : Nat) : Nat :=
  if estimatedMem ≤ memoryLimit then 0
  else
    let ratio := (estimatedMem + memoryLimit - 1) / memoryLimit
    max 1 (min (Nat.log2 ratio + 1) 12)

/-- `hash_to_partition` in `joins.rs`. -/
def hashToPartition (hash radixBits : Nat) : Nat :=
  if radixBits = 0 then 0 else hash / 2 ^ (48 - radixBits) % 2 ^ radixBits

/-- The key of a row of one partition. -/
def partitionKey (hashValue : Value → Nat) (radixBits part idx : Nat) (row : Tuple) : Option Value :=
  (joinKey idx row).filter fun k => hashToPartition (hashValue k) radixBits = part

variable (hashValue : Value → Nat) (leftRows rightRows : List Tuple)

/-- `hash_join_inner_with_spill`: if the smaller side is too large, one partition of the
keys after the other. -/
def hashJoinInnerWithSpill (leftKeyIdx rightKeyIdx : Nat) : List Tuple :=
  let estimatedMem := min leftRows.length rightRows.length * APPROX_ROW_OVERHEAD
  if estimatedMem ≤ SPILL_MEMORY_LIMIT then hashJoinInner leftRows rightRows leftKeyIdx rightKeyIdx
  else
    let radixBits := computeRadixBits estimatedMem SPILL_MEMORY_LIMIT
    (List.range (2 ^ radixBits)).flatMap fun part =>
      let key := partitionKey hashValue radixBits part
      if leftRows.length < rightRows.length then
        let ht := HashIndex.build (key leftKeyIdx) leftRows
        rightRows.flatMap fun r => ((probe leftRows ht (key rightKeyIdx r)).getD []).map fun l => l ++ r
      else
        let ht := HashIndex.build (key rightKeyIdx) rightRows
        leftRows.flatMap fun l => ((probe rightRows ht (key leftKeyIdx l)).getD []).map fun r => l ++ r

/-- `hash_join_left` in `joins.rs`. -/
def hashJoinLeft (leftRows rightRows : List Tuple) (leftKeyIdx rightKeyIdx rightColCount : Nat) :
    List Tuple :=
  let ht := HashIndex.build (joinKey rightKeyIdx) rightRows
  leftRows.flatMap fun l => match probe rightRows ht (joinKey leftKeyIdx l) with
    | some rs => rs.map fun r => l ++ r
    | none => [l ++ nulls rightColCount]

/-- The probes of `hash_join_full`, with the bitmap of the rows on the right. -/
def hashFullRows (rightRows : List Tuple) (ht : HashIndex Value) (leftKeyIdx rightColCount : Nat) :
    List Tuple → List Bool → List Tuple × List Bool
  | [], matchedRight => ([], matchedRight)
  | l :: ls, matchedRight => match (joinKey leftKeyIdx l).bind fun k => ht.get k with
    | some indices =>
      let (rest, matchedRight) := hashFullRows rightRows ht leftKeyIdx rightColCount ls
        (indices.foldl (fun m ri => m.set ri true) matchedRight)
      (indices.map (fun ri => l ++ rightRows.getD ri []) ++ rest, matchedRight)
    | none =>
      let (rest, matchedRight) := hashFullRows rightRows ht leftKeyIdx rightColCount ls matchedRight
      ((l ++ nulls rightColCount) :: rest, matchedRight)

/-- `hash_join_full` in `joins.rs`. -/
def hashJoinFull (leftRows rightRows : List Tuple) (leftKeyIdx rightKeyIdx leftColCount
    rightColCount : Nat) : List Tuple :=
  let ht := HashIndex.build (joinKey rightKeyIdx) rightRows
  let (rows, matchedRight) := hashFullRows rightRows ht leftKeyIdx rightColCount leftRows
    (List.replicate rightRows.length false)
  rows ++ unmatchedRight (nulls leftColCount) rightRows matchedRight

/-- `swap_columns` in `joins.rs`. -/
def swapColumns (rows : List Tuple) (rightCount leftCount : Nat) : List Tuple :=
  rows.map fun row => (row.drop rightCount).take leftCount ++ row.take rightCount

/-! ## The choice -/

def HASH_JOIN_MIN_ROWS : Nat := 32

/-- `detect_equijoin` in `joins.rs`. -/
def detectEquijoin (cond : Expr) (leftColCount : Nat) : Option (Nat × Nat) :=
  match cond with
  | .binaryOp .eq (.column l) (.column r) =>
    if l < leftColCount ∧ leftColCount ≤ r then some (l, r)
    else if r < leftColCount ∧ leftColCount ≤ l then some (r, l)
    else none
  | _ => none

/-- The join by the columns of an equality, if there is one. -/
def joinBy (leftColCount rightColCount : Nat) (joinType : JoinType) (cond : Expr)
    (equijoin : Option (Nat × Nat)) : Except EvalError (List Tuple) :=
  match joinType, equijoin with
  | .inner, some (l, r) =>
    .ok (hashJoinInnerWithSpill hashValue leftRows rightRows l (r - leftColCount))
  | .left, some (l, r) => .ok (hashJoinLeft leftRows rightRows l (r - leftColCount) rightColCount)
  | .right, some (l, r) =>
    let swapped := hashJoinLeft rightRows leftRows (r - leftColCount) l leftColCount
    .ok (swapColumns swapped rightColCount leftColCount)
  | .full, some (l, r) =>
    .ok (hashJoinFull leftRows rightRows l (r - leftColCount) leftColCount rightColCount)
  | joinType, _ => nestedLoop o leftRows rightRows leftColCount rightColCount joinType cond

/-- `apply_join`, for a condition `ON`. -/
def applyJoin
    (leftColCount rightColCount : Nat) (forceHashJoin : Bool) (joinType : JoinType) (cond : Expr) :
    Except EvalError (List Tuple) :=
  let isLarge := forceHashJoin || HASH_JOIN_MIN_ROWS ≤ leftRows.length ||
    HASH_JOIN_MIN_ROWS ≤ rightRows.length
  joinBy o hashValue leftRows rightRows leftColCount rightColCount joinType cond
    (if isLarge then detectEquijoin cond leftColCount else none)

end AxiomDb.Row
