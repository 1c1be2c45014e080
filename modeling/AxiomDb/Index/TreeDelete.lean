import AxiomDb.Index.TreeInsert

/-!
# Deletion from the index B+ tree

`tree_delete.rs`: the pessimistic deletion. A leaf is changed on its own page;
a node left with fewer than half its keys takes one from a neighbour (a
rotation) or is merged with it. The parent of such a node moves to a new page,
and so do the internal nodes involved; leaves stay on theirs, so that the leaf
before them still points at them.
-/

namespace AxiomDb.Index

open Lib

/-- `DeleteResult` in `tree.rs`. -/
inductive DeleteResult where
  | notFound
  | deleted (newPid : PageId) (underfull : Bool)
  deriving DecidableEq

namespace BTree

variable {σ : Type} (E : StorageEngine Stop σ Page)

/-- The child is a leaf that can lose a key without underflow. -/
def childIsSafeForDelete (childPid : PageId) : EStateM Stop σ Bool := do
  match ← E.readPage childPid with
  | .leaf leaf => pure (leaf.numKeys > MIN_KEYS_LEAF)
  | .internal _ => pure false

/-- `BTree::node_key_count` in `tree_range.rs`. -/
def nodeKeyCount (pid : PageId) : EStateM Stop σ Nat := do
  match ← E.readPage pid with
  | .leaf n => pure n.numKeys
  | .internal n => pure n.numKeys

/-- `cast_internal` of a leaf would read its bytes as a node; no caller does that. -/
def internalUnderfull (pid : PageId) : EStateM Stop σ Bool := do
  match ← E.readPage pid with
  | .internal node => pure (node.numKeys < MIN_KEYS_INTERNAL)
  | .leaf _ => throw .panic

/-- The `NodeCopy::Internal(_) => unreachable!()` of the source is a panic. -/
def readLeaf (pid : PageId) : EStateM Stop σ LeafNodePage := do
  match ← E.readPage pid with
  | .leaf n => pure n
  | .internal _ => throw .panic

/-- `NodeCopy::read` in `tree.rs`. -/
def readInternal (pid : PageId) : EStateM Stop σ InternalNodePage := do
  match ← E.readPage pid with
  | .internal n => pure n
  | .leaf _ => throw .panic

/-- `BTree::delete_leaf` in `tree_delete.rs`. -/
def deleteLeaf (oldPid : PageId) (node : LeafNodePage) (key : Bytes) (isRoot : Bool) :
    EStateM Stop σ DeleteResult := do
  match node.search key with
  | .error _ => pure .notFound
  | .ok idx =>
    let node := node.removeAt idx
    let underfull := !isRoot && node.numKeys < MIN_KEYS_LEAF
    let newPid ← writeLeafSamePid E oldPid node
    pure (.deleted newPid underfull)

variable (parentPid : PageId) (parent : InternalNodePage)

/-- Moves the last key of the left neighbour into the child. -/
def rotateRightBatched (childIdx : Nat)
    (childPid leftPid : PageId) (isLeaf : Bool) : EStateM Stop σ PageId := do
  let np ← E.allocPage
  let parent ←
    if isLeaf then do
      let left ← readLeaf E leftPid
      let child ← readLeaf E childPid
      let lk := left.numKeys - 1
      let child ← checked (child.insertAt 0 (left.keyAt lk) (left.ridAt lk))
      let left := left.removeAt lk
      E.writePage leftPid (.leaf left)
      E.writePage childPid (.leaf child)
      pure (((parent.setKeyAt (childIdx - 1) (child.keyAt 0)).setChildAt (childIdx - 1)
        leftPid).setChildAt childIdx childPid)
    else do
      let nc ← E.allocPage
      let nl ← E.allocPage
      let left ← readInternal E leftPid
      let child ← readInternal E childPid
      let lk := left.numKeys - 1
      let sepKey := parent.keyAt (childIdx - 1)
      let lastCh := left.childAt (lk + 1)
      let child ← checked (InternalNodePage.ofArrays (sepKey :: child.keys)
        (lastCh :: child.children))
      let up := left.keyAt lk
      let left ← checked (InternalNodePage.ofArrays (left.keys.take lk) (left.children.take (lk + 1)))
      E.writePage nl (.internal left)
      E.writePage nc (.internal child)
      E.freePage childPid
      E.freePage leftPid
      pure (((parent.setKeyAt (childIdx - 1) up).setChildAt (childIdx - 1) nl).setChildAt childIdx nc)
  E.writePage np (.internal parent)
  E.freePage parentPid
  pure np

/-- Moves the first key of the right neighbour into the child. -/
def rotateLeftBatched (childIdx : Nat)
    (childPid rightPid : PageId) (isLeaf : Bool) : EStateM Stop σ PageId := do
  let np ← E.allocPage
  let parent ←
    if isLeaf then do
      let child ← readLeaf E childPid
      let right ← readLeaf E rightPid
      let child ← checked (child.insertAt child.numKeys (right.keyAt 0) (right.ridAt 0))
      let right := right.removeAt 0
      E.writePage childPid (.leaf child)
      E.writePage rightPid (.leaf right)
      pure (((parent.setKeyAt childIdx (right.keyAt 0)).setChildAt childIdx childPid).setChildAt
        (childIdx + 1) rightPid)
    else do
      let nc ← E.allocPage
      let nr ← E.allocPage
      let child ← readInternal E childPid
      let right ← readInternal E rightPid
      let child ← checked (InternalNodePage.ofArrays (child.keys ++ [parent.keyAt childIdx])
        (child.children ++ [right.childAt 0]))
      let up := right.keyAt 0
      let right ← checked (right.removeAt 0 0)
      E.writePage nc (.internal child)
      E.writePage nr (.internal right)
      E.freePage childPid
      E.freePage rightPid
      pure (((parent.setKeyAt childIdx up).setChildAt childIdx nc).setChildAt (childIdx + 1) nr)
  E.writePage np (.internal parent)
  E.freePage parentPid
  pure np

/-- Merges the children on the two sides of key `sepIdx`: leaves on the left one's
page, internal nodes on a new one. -/
def mergeChildrenBatched (sepIdx : Nat)
    (leftPid rightPid : PageId) (isLeaf : Bool) : EStateM Stop σ PageId := do
  let npp ← E.allocPage
  let mergedPid ←
    if isLeaf then do
      let left ← readLeaf E leftPid
      let right ← readLeaf E rightPid
      let merged ← checked (LeafNodePage.ofArrays (left.slots ++ right.slots) right.nextLeaf)
      E.writePage leftPid (.leaf merged)
      pure leftPid
    else do
      let mp ← E.allocPage
      let left ← readInternal E leftPid
      let right ← readInternal E rightPid
      let merged ← checked (InternalNodePage.ofArrays
        (left.keys ++ parent.keyAt sepIdx :: right.keys) (left.children ++ right.children))
      E.writePage mp (.internal merged)
      E.freePage leftPid
      pure mp
  let parent ← checked ((parent.setChildAt sepIdx mergedPid).removeAt sepIdx (sepIdx + 1))
  E.writePage npp (.internal parent)
  E.freePage parentPid
  E.freePage rightPid
  pure npp

/-- `BTree::rebalance_batched` in `tree_delete.rs`. -/
def rebalanceBatched (childIdx : Nat) (childPid : PageId) : EStateM Stop σ PageId := do
  let childIsLeaf ← (do match ← E.readPage childPid with
    | .leaf _ => pure true
    | .internal _ => pure false : EStateM Stop σ Bool)
  let minKeys := if childIsLeaf then MIN_KEYS_LEAF else MIN_KEYS_INTERNAL
  let leftHas ← if childIdx > 0 then
      (fun n => decide (n > minKeys)) <$> nodeKeyCount E (parent.childAt (childIdx - 1))
    else pure false
  if leftHas then
    return ← rotateRightBatched E parentPid parent childIdx childPid (parent.childAt (childIdx - 1))
      childIsLeaf
  let rightHas ← if childIdx < parent.numKeys then
      (fun n => decide (n > minKeys)) <$> nodeKeyCount E (parent.childAt (childIdx + 1))
    else pure false
  if rightHas then
    return ← rotateLeftBatched E parentPid parent childIdx childPid (parent.childAt (childIdx + 1))
      childIsLeaf
  if childIdx > 0 then
    mergeChildrenBatched E parentPid parent (childIdx - 1) (parent.childAt (childIdx - 1)) childPid
      childIsLeaf
  else
    mergeChildrenBatched E parentPid parent childIdx childPid (parent.childAt (childIdx + 1))
      childIsLeaf

/-- The part of `delete_subtree_batched` after the recursive call: the child's new
page is put in the node, and an underfull child is rebalanced. -/
def absorbDeleted (pid : PageId) (node : InternalNodePage) (childIdx : Nat) (childPid : PageId)
    (isRoot : Bool) : DeleteResult → EStateM Stop σ DeleteResult
  | .notFound => pure .notFound
  | .deleted newChildPid underfull =>
    if !underfull then
      if newChildPid = childPid then pure (.deleted pid false)
      else do
        let newPid ← inPlaceUpdateChild E pid node childIdx newChildPid
        pure (.deleted newPid false)
    else do
      let newPid ← rebalanceBatched E pid node childIdx newChildPid
      let underfull2 ← if isRoot then pure false else internalUnderfull E newPid
      pure (.deleted newPid underfull2)

/-- `BTree::delete_subtree_batched` in `tree_delete.rs`. -/
def deleteSubtreeBatched : Nat → PageId → Bytes → Bool → EStateM Stop σ DeleteResult
  | 0, _, _, _ => throw .outOfFuel
  | fuel + 1, pid, key, isRoot => do
    match ← E.readPage pid with
    | .leaf node => deleteLeaf E pid node key isRoot
    | .internal node =>
      let childIdx := node.findChildIdx key
      let childPid := node.childAt childIdx
      if ← childIsSafeForDelete E childPid then
        -- The parent's latch is dropped, and the child's page and underflow with it.
        match ← deleteSubtreeBatched fuel childPid key false with
        | .notFound => pure .notFound
        | .deleted _ _ => pure (.deleted pid false)
      else
        let res ← deleteSubtreeBatched fuel childPid key false
        absorbDeleted E pid node childIdx childPid isRoot res

/-- An internal root without keys is replaced by its only child. -/
def collapseRoot (rootPid : PageId) : EStateM Stop σ PageId := do
  match ← E.readPage rootPid with
  | .internal node =>
    if node.numKeys = 0 then do
      E.freePage rootPid
      pure (node.childAt 0)
    else pure rootPid
  | .leaf _ => pure rootPid

end BTree

end AxiomDb.Index
