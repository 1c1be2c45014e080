import AxiomDb.Index.TreeDelete

/-!
# The index B+ tree's calls

`tree_range.rs` and `iter.rs`: the calls on a tree whose root is kept by the
caller. An insertion or deletion first tries to change the leaf alone and only
then goes through the tree; `Handle` is the store together with the root that
such a call may replace. A range scan starts at the leaf for its lower bound
and from there follows `next_leaf`.
-/

namespace AxiomDb.Index

open Lib

/-- `OptimisticLeafResult` in `tree.rs`. -/
inductive OptimisticLeafResult (α : Type) where
  | done (a : α)
  | needPessimistic
  | retry

/-- A page store and the root page of a tree in it. -/
structure Handle (σ : Type) where
  store : σ
  rootPid : PageId

/-- A computation on the store alone. -/
def onStore {σ α : Type} (x : EStateM Stop σ α) : EStateM Stop (Handle σ) α := fun d =>
  match x d.store with
  | .ok a s => .ok a { d with store := s }
  | .error e s => .error e { d with store := s }

namespace BTree

variable {σ : Type} (E : StorageEngine Stop σ Page)

/-- `BTree::find_leaf_for_in` in `tree_range.rs`. -/
def findLeafForIn : Nat → PageId → Bytes → EStateM Stop σ PageId
  | 0, _, _ => throw .outOfFuel
  | fuel + 1, pid, key => do
    match ← E.readPage pid with
    | .leaf _ => pure pid
    | .internal node => findLeafForIn fuel (node.childAt (node.findChildIdx key)) key

/-- `BTree::leftmost_leaf_in` in `tree_range.rs`. -/
def leftmostLeafIn : Nat → PageId → EStateM Stop σ PageId
  | 0, _ => throw .outOfFuel
  | fuel + 1, pid => do
    match ← E.readPage pid with
    | .leaf _ => pure pid
    | .internal node => leftmostLeafIn fuel (node.childAt 0)

/-- The loop of `lookup_in`. -/
def lookupFrom : Nat → PageId → Bytes → EStateM Stop σ (Option RecordId)
  | 0, _, _ => throw .outOfFuel
  | fuel + 1, pid, key => do
    match ← E.readPage pid with
    | .leaf node =>
      match node.search key with
      | .ok i => pure (some (node.ridAt i))
      | .error _ => pure none
    | .internal node => lookupFrom fuel (node.childAt (node.findChildIdx key)) key

variable (fuel : Nat) (rootPid : PageId) (key : Bytes)

/-- `BTree::lookup_in` in `tree_range.rs`. -/
def lookupIn : EStateM Stop σ (Option RecordId) := do
  checkKey key
  lookupFrom E fuel rootPid key

/-- `BTree::try_insert_leaf_optimistically` in `tree_insert.rs`. -/
def tryInsertLeafOptimistically (rid : RecordId)
    (fillfactor : Nat) : EStateM Stop σ (OptimisticLeafResult Unit) := do
  let leafPid ← findLeafForIn E fuel rootPid key
  match ← E.readPage leafPid with
  | .internal _ => pure .retry
  | .leaf leaf =>
    match leaf.search key with
    | .ok _ => throw (.err .duplicateKey)
    | .error insertPos =>
      if leaf.numKeys < fillThreshold ORDER_LEAF fillfactor then
        let leaf' ← checked (leaf.insertAt insertPos key rid)
        E.writePage leafPid (.leaf leaf')
        pure (.done ())
      else pure .needPessimistic

/-- `BTree::try_delete_leaf_optimistically` in `tree_range.rs`. -/
def tryDeleteLeafOptimistically : EStateM Stop σ (OptimisticLeafResult Bool) := do
  let leafPid ← findLeafForIn E fuel rootPid key
  match ← E.readPage leafPid with
  | .internal _ => pure .retry
  | .leaf leaf =>
    match leaf.search key with
    | .error _ => pure (.done false)
    | .ok idx =>
      if leafPid ≠ rootPid ∧ leaf.numKeys - 1 < MIN_KEYS_LEAF then pure .needPessimistic
      else
        E.writePage leafPid (.leaf (leaf.removeAt idx))
        pure (.done true)

/-- The pessimistic part of `insert_in`: the tree's new root. -/
def insertRoot (fuel : Nat) (root : PageId) (key : Bytes) (rid : RecordId) (fillfactor : Nat) :
    EStateM Stop σ PageId := do
  match ← insertSubtreeBatched E fuel root key rid fillfactor with
  | .ok newRoot => pure newRoot
  | .split leftPid rightPid sep _ => allocRootBatched E sep leftPid rightPid

/-- The loop of `insert_in`. The tree's latch is held throughout, so the exchange of
the root succeeds. -/
def insertLoop (fuel : Nat) (key : Bytes) (rid : RecordId) (fillfactor : Nat) :
    Nat → EStateM Stop (Handle σ) Unit
  | 0 => throw .outOfFuel
  | tries + 1 => do
    let root := (← get).rootPid
    match ← onStore (tryInsertLeafOptimistically E fuel root key rid fillfactor) with
    | .done () => pure ()
    | .retry => insertLoop fuel key rid fillfactor tries
    | .needPessimistic =>
      let finalRoot ← onStore (insertRoot E fuel root key rid fillfactor)
      modify fun d => { d with rootPid := finalRoot }

/-- `BTree::insert_in` in `tree_range.rs`. -/
def insertIn (fuel : Nat) (key : Bytes) (rid : RecordId) (fillfactor : Nat) :
    EStateM Stop (Handle σ) Unit := do
  checkKey key
  insertLoop E fuel key rid fillfactor fuel

/-- The loop of `delete_in`. -/
def deleteLoop (fuel : Nat) (key : Bytes) : Nat → EStateM Stop (Handle σ) Bool
  | 0 => throw .outOfFuel
  | tries + 1 => do
    let root := (← get).rootPid
    match ← onStore (tryDeleteLeafOptimistically E fuel root key) with
    | .done deleted => pure deleted
    | .retry => deleteLoop fuel key tries
    | .needPessimistic =>
      match ← onStore (deleteSubtreeBatched E fuel root key true) with
      | .notFound => pure false
      | .deleted newPid _ =>
        let finalRoot ← onStore (collapseRoot E newPid)
        modify fun d => { d with rootPid := finalRoot }
        pure true

/-- `BTree::delete_in` in `tree_range.rs`. -/
def deleteIn (fuel : Nat) (key : Bytes) : EStateM Stop (Handle σ) Bool := do
  checkKey key
  deleteLoop E fuel key fuel

end BTree

/-! ## Range scans -/

inductive Bound where
  | unbounded
  | included (k : Bytes)
  | excluded (k : Bytes)
  deriving DecidableEq

/-- The bound `range_in` makes of an optional key. -/
def Bound.ofOption : Option Bytes → Bound
  | none => .unbounded
  | some k => .included k

/-- `RangeIter` in `iter.rs`. -/
structure RangeIter where
  currentPid : PageId
  /-- The current leaf's `next_leaf`, read with its first slot. -/
  nextLeafCache : PageId
  slotIdx : Nat
  lower : Bound
  upper : Bound
  done : Bool

namespace RangeIter

variable {σ : Type} (E : StorageEngine Stop σ Page)

/-- `RangeIter::new` in `iter.rs`. -/
def new (startPid : PageId) (lower upper : Bound) : RangeIter :=
  { currentPid := startPid, nextLeafCache := NULL_PAGE, slotIdx := 0, lower, upper, done := false }

/-- `RangeIter::above_lower` in `iter.rs`. -/
def aboveLower (it : RangeIter) (key : Bytes) : Bool :=
  match it.lower with
  | .unbounded => true
  | .included lo => lo ≤ key
  | .excluded lo => lo < key

/-- `RangeIter::below_upper` in `iter.rs`. -/
def belowUpper (it : RangeIter) (key : Bytes) : Bool :=
  match it.upper with
  | .unbounded => true
  | .included hi => key ≤ hi
  | .excluded hi => key < hi

/-- The loop of `next`: one slot or one leaf boundary a turn. -/
def next : Nat → RangeIter → EStateM Stop σ (Option (Bytes × RecordId) × RangeIter)
  | 0, _ => throw .outOfFuel
  | fuel + 1, it => do
    if it.done then return (none, it)
    if it.currentPid = NULL_PAGE then return (none, { it with done := true })
    let node ← BTree.readLeaf E it.currentPid
    let it := if it.nextLeafCache = NULL_PAGE ∧ it.slotIdx = 0 then
      { it with nextLeafCache := node.nextLeaf } else it
    if it.slotIdx ≥ node.numKeys then
      if it.nextLeafCache = NULL_PAGE then return (none, { it with done := true })
      next fuel
        { it with currentPid := it.nextLeafCache, nextLeafCache := NULL_PAGE, slotIdx := 0 }
    else
      let key := node.keyAt it.slotIdx
      let rid := node.ridAt it.slotIdx
      let it := { it with slotIdx := it.slotIdx + 1 }
      if !it.aboveLower key then next fuel it
      else if !it.belowUpper key then return (none, { it with done := true })
      else return (some (key, rid), it)

/-- `collect`: calls `next` until it returns nothing. -/
def collect : Nat → RangeIter → EStateM Stop σ (List (RecordId × Bytes))
  | 0, _ => throw .outOfFuel
  | fuel + 1, it => do
    match ← next E (fuel + 1) it with
    | (none, _) => pure []
    | (some (key, rid), it) => do
      let rest ← collect fuel it
      pure ((rid, key) :: rest)

end RangeIter

namespace BTree

variable {σ : Type} (E : StorageEngine Stop σ Page)

/-- `BTree::range_in` in `tree_range.rs`. -/
def rangeIn (fuel : Nat) (rootPid : PageId) (lo hi : Option Bytes) :
    EStateM Stop σ (List (RecordId × Bytes)) := do
  let startPid ← match lo with
    | none => leftmostLeafIn E fuel rootPid
    | some k => findLeafForIn E fuel rootPid k
  RangeIter.collect E fuel (RangeIter.new startPid (Bound.ofOption lo) (Bound.ofOption hi))

end BTree

end AxiomDb.Index
