import AxiomDb.Index.PageLayout

/-!
# Insertion into the index B+ tree

`tree_insert.rs`: the pessimistic insertion, which descends to the leaf, splits
full nodes on the way back and reports to each parent what became of its child.
A leaf with room is changed on its own page; a split writes two new pages and
frees the old one, and the caller relinks the leaf before it if that one is
under the same parent. Calls are one at a time, so latches are left out.

Recursion over pages takes a step of `fuel` a level; `Stop.outOfFuel` is the
answer of a descent that is given fewer steps than the tree has levels.
-/

namespace AxiomDb.Index

open Lib

/-- `InsertResult` in `tree.rs`. -/
inductive InsertResult where
  /-- The child was changed; it is on this page. -/
  | ok (pid : PageId)
  /-- The child was split at `sep`. -/
  | split (leftPid rightPid : PageId) (sep : Bytes) (leafSplit : Bool)
  deriving DecidableEq

namespace BTree

variable {σ : Type} (E : StorageEngine Stop σ Page)

/-- `check_key`: a key has 1 to 64 bytes. -/
def checkKey (key : Bytes) : EStateM Stop σ Unit :=
  if key.isEmpty ∨ key.length > MAX_KEY_LEN then throw (.err (.keyTooLong key.length MAX_KEY_LEN))
  else pure ()

/-- `BTree::descend_rightmost_leaf` in `tree_range.rs`. -/
def descendRightmostLeaf : Nat → PageId → EStateM Stop σ PageId
  | 0, _ => throw .outOfFuel
  | fuel + 1, pid => do
    match ← E.readPage pid with
    | .leaf _ => pure pid
    | .internal node => descendRightmostLeaf fuel (node.childAt node.numKeys)

/-- Points the leaf before child `childIdx` of `parent` at `newLeftPid`. -/
def updatePredecessorNextLeaf (fuel : Nat) (parent : InternalNodePage) (childIdx : Nat)
    (newLeftPid : PageId) : EStateM Stop σ Unit := do
  let leftSiblingPid := parent.childAt (childIdx - 1)
  let predPid ← descendRightmostLeaf E fuel leftSiblingPid
  match ← E.readPage predPid with
  | .leaf leaf => E.writePage predPid (.leaf (leaf.setNextLeaf newLeftPid))
  | .internal _ => throw .panic

/-- The child can take one more key without a split. -/
def childIsSafeForInsert (childPid : PageId) (fillfactor : Nat) : EStateM Stop σ Bool := do
  match ← E.readPage childPid with
  | .leaf leaf => pure (leaf.numKeys < fillThreshold ORDER_LEAF fillfactor)
  | .internal node => pure (node.numKeys < ORDER_INTERNAL)

/-- `BTree::write_leaf_same_pid` in `tree_insert.rs`. -/
def writeLeafSamePid (pid : PageId) (node : LeafNodePage) : EStateM Stop σ PageId := do
  E.writePage pid (.leaf node)
  pure pid

/-- `BTree::write_internal_same_pid` in `tree_insert.rs`. -/
def writeInternalSamePid (pid : PageId) (node : InternalNodePage) : EStateM Stop σ PageId := do
  E.writePage pid (.internal node)
  pure pid

/-- `BTree::in_place_update_child` in `tree_insert.rs`. -/
def inPlaceUpdateChild (oldPid : PageId) (node : InternalNodePage) (childIdx : Nat)
    (newChild : PageId) : EStateM Stop σ PageId :=
  writeInternalSamePid E oldPid (node.setChildAt childIdx newChild)

/-- Splits a full leaf: the lower half of its keys and the new one on one new page,
the upper half on another. -/
def insertLeafBatched (oldPid : PageId) (node : LeafNodePage) (key : Bytes) (rid : RecordId) :
    EStateM Stop σ InsertResult := do
  match node.search key with
  | .ok _ => throw (.err .duplicateKey)
  | .error insPos =>
    let slots := node.slots.take insPos ++ (key, rid) :: node.slots.drop insPos
    let total := node.numKeys + 1
    let mid := total / 2
    let sep := (slots.getD mid default).1
    let leftPid ← E.allocPage
    let rightPid ← E.allocPage
    let left ← checked (LeafNodePage.ofArrays (slots.take mid) rightPid)
    E.writePage leftPid (.leaf left)
    let right ← checked (LeafNodePage.ofArrays (slots.drop mid) node.nextLeaf)
    E.writePage rightPid (.leaf right)
    E.freePage oldPid
    pure (.split leftPid rightPid sep true)

/-- Splits a full internal node, whose child at `childIdx` was split at `sep`: the
middle key goes up. -/
def splitInternalBatched (oldPid : PageId) (node : InternalNodePage) (childIdx : Nat) (sep : Bytes)
    (rightChild : PageId) : EStateM Stop σ InsertResult := do
  let keys := node.keys.insertIdx childIdx sep
  let children := node.children.insertIdx (childIdx + 1) rightChild
  let total := node.numKeys + 1
  let mid := total / 2
  let newSep := keys.getD mid []
  let leftPid ← E.allocPage
  let rightPid ← E.allocPage
  let left ← checked (InternalNodePage.ofArrays (keys.take mid) (children.take (mid + 1)))
  E.writePage leftPid (.internal left)
  let right ← checked (InternalNodePage.ofArrays (keys.drop (mid + 1)) (children.drop (mid + 1)))
  E.writePage rightPid (.internal right)
  E.freePage oldPid
  pure (.split leftPid rightPid newSep false)

/-- `BTree::alloc_root_batched` in `tree_insert.rs`. -/
def allocRootBatched (sep : Bytes) (leftPid rightPid : PageId) : EStateM Stop σ PageId := do
  let pid ← E.allocPage
  let node ← checked (InternalNodePage.ofArrays [sep] [leftPid, rightPid])
  E.writePage pid (.internal node)
  pure pid

/-- The parent of a child that was split takes both halves, or is split itself. -/
def absorbSplit (pid : PageId) (node : InternalNodePage) (childIdx : Nat)
    (leftPid rightPid : PageId) (sep : Bytes) : EStateM Stop σ InsertResult := do
  let node2 := node.setChildAt childIdx leftPid
  if node.numKeys < ORDER_INTERNAL then
    let node3 ← checked (node2.insertAt childIdx sep rightPid)
    let newPid ← writeInternalSamePid E pid node3
    pure (.ok newPid)
  else splitInternalBatched E pid node2 childIdx sep rightPid

/-- What a parent does with the result of the insertion into its child. -/
def absorbChild (fuel : Nat) (pid : PageId) (node : InternalNodePage) (childIdx : Nat)
    (childPid : PageId) : InsertResult → EStateM Stop σ InsertResult
  | .ok newChildPid => do
    if newChildPid = childPid then pure (.ok pid)
    else
      let newPid ← inPlaceUpdateChild E pid node childIdx newChildPid
      pure (.ok newPid)
  | .split leftPid rightPid sep leafSplit => do
    if leafSplit ∧ childIdx > 0 then
      updatePredecessorNextLeaf E fuel node childIdx leftPid
    absorbSplit E pid node childIdx leftPid rightPid sep

/-- `BTree::insert_subtree_batched` in `tree_insert.rs`. -/
def insertSubtreeBatched : Nat → PageId → Bytes → RecordId → Nat → EStateM Stop σ InsertResult
  | 0, _, _, _, _ => throw .outOfFuel
  | fuel + 1, pid, key, rid, fillfactor => do
    match ← E.readPage pid with
    | .leaf leaf =>
      match leaf.search key with
      | .ok _ => throw (.err .duplicateKey)
      | .error insPos =>
        if leaf.numKeys < fillThreshold ORDER_LEAF fillfactor then
          let leaf' ← checked (leaf.insertAt insPos key rid)
          E.writePage pid (.leaf leaf')
          pure (.ok pid)
        else insertLeafBatched E pid leaf key rid
    | .internal node =>
      let childIdx := node.findChildIdx key
      let childPid := node.childAt childIdx
      if ← childIsSafeForInsert E childPid fillfactor then
        -- The parent's latch is dropped, and the child's result with it.
        let _ ← insertSubtreeBatched fuel childPid key rid fillfactor
        pure (.ok pid)
      else
        let result ← insertSubtreeBatched fuel childPid key rid fillfactor
        absorbChild E fuel pid node childIdx childPid result

end BTree

end AxiomDb.Index
