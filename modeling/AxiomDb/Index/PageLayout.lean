import AxiomDb.Core
import AxiomDb.Lib.Search

/-!
# Pages of the index B+ tree

An index page is a leaf or an internal node. A node's arrays are modelled by
the part of them that is in use: a leaf by its first `num_keys` keys with their
record ids, an internal node by its `num_keys` keys and `num_keys + 1` children.
That they fit into the arrays of a page is a field of the node, so each
operation that would write past an array's end is `none`.
-/

namespace AxiomDb.Index

open Lib

def MAX_KEY_LEN : Nat := 64

/-- The number of keys an internal node has room for. -/
def ORDER_INTERNAL : Nat := 223

/-- The number of keys a leaf has room for. -/
def ORDER_LEAF : Nat := 217

/-- No next leaf. -/
def NULL_PAGE : PageId := 2 ^ 64 - 1

def MIN_KEYS_INTERNAL : Nat := ORDER_INTERNAL / 2

def MIN_KEYS_LEAF : Nat := ORDER_LEAF / 2

/-- The number of keys at which a page of `order` keys is split. -/
def fillThreshold (order fillfactor : Nat) : Nat :=
  let t := (order * fillfactor + 99) / 100
  if t < 1 then 1 else t

theorem fillThreshold_le {ff : Nat} (hff : ff ≤ 100) : fillThreshold ORDER_LEAF ff ≤ ORDER_LEAF := by
  unfold fillThreshold ORDER_LEAF
  grind

theorem fillThreshold_pos (order ff : Nat) : 0 < fillThreshold order ff := by
  unfold fillThreshold
  grind

/-! ## Internal nodes -/

/-- `InternalNodePage` in `page_layout.rs`. -/
@[ext] structure InternalNodePage where
  keys : List Bytes
  children : List PageId
  fits : keys.length ≤ ORDER_INTERNAL
  arity : children.length = keys.length + 1
  deriving DecidableEq

namespace InternalNodePage

variable (node : InternalNodePage)

/-- The node with these keys and children, if they fit. -/
def ofArrays (keys : List Bytes) (children : List PageId) : Option InternalNodePage :=
  if h : keys.length ≤ ORDER_INTERNAL ∧ children.length = keys.length + 1 then
    some ⟨keys, children, h.1, h.2⟩
  else none

/-- `InternalNodePage::num_keys` in `page_layout.rs`. -/
def numKeys : Nat := node.keys.length

/-- `InternalNodePage::key_at` in `page_layout.rs`. -/
def keyAt (i : Nat) : Bytes := node.keys.getD i []

/-- `InternalNodePage::child_at` in `page_layout.rs`. -/
def childAt (i : Nat) : PageId := node.children.getD i 0

/-- `InternalNodePage::set_key_at` in `page_layout.rs`. -/
def setKeyAt (i : Nat) (k : Bytes) : InternalNodePage :=
  { node with
    keys := node.keys.set i k
    fits := by simpa using node.fits
    arity := by simpa using node.arity }

/-- `InternalNodePage::set_child_at` in `page_layout.rs`. -/
def setChildAt (i : Nat) (pid : PageId) : InternalNodePage :=
  { node with
    children := node.children.set i pid
    arity := by simpa using node.arity }

/-- The child to follow for `key`: the number of keys that are not above it. -/
def findChildIdx (key : Bytes) : Nat :=
  partitionPoint (fun i => node.keyAt i ≤ key) node.numKeys 0 node.numKeys

/-- Puts the separator at `pos` and the child on its right at `pos + 1`. -/
def insertAt (pos : Nat) (sepKey : Bytes) (rightPid : PageId) : Option InternalNodePage :=
  ofArrays (node.keys.insertIdx pos sepKey) (node.children.insertIdx (pos + 1) rightPid)

/-- `InternalNodePage::remove_at` in `page_layout.rs`. -/
def removeAt (keyPos childPos : Nat) : Option InternalNodePage :=
  ofArrays (node.keys.eraseIdx keyPos) (node.children.eraseIdx childPos)

end InternalNodePage

/-! ## Leaves -/

/-- `LeafNodePage` in `page_layout.rs`. -/
@[ext] structure LeafNodePage where
  slots : List (Bytes × RecordId)
  nextLeaf : PageId
  fits : slots.length ≤ ORDER_LEAF
  deriving DecidableEq

namespace LeafNodePage

variable (node : LeafNodePage)

/-- The leaf with these keys and record ids, if they fit. -/
def ofArrays (slots : List (Bytes × RecordId)) (nextLeaf : PageId) : Option LeafNodePage :=
  if h : slots.length ≤ ORDER_LEAF then some ⟨slots, nextLeaf, h⟩ else none

/-- `LeafNodePage::num_keys` in `page_layout.rs`. -/
def numKeys : Nat := node.slots.length

/-- `LeafNodePage::key_at` in `page_layout.rs`. -/
def keyAt (i : Nat) : Bytes := (node.slots.getD i default).1

/-- `LeafNodePage::rid_at` in `page_layout.rs`. -/
def ridAt (i : Nat) : RecordId := (node.slots.getD i default).2

/-- `LeafNodePage::set_next_leaf` in `page_layout.rs`. -/
def setNextLeaf (pid : PageId) : LeafNodePage := { node with nextLeaf := pid }

/-- `ok` with the index of `key`, or `error` with the index where it belongs. -/
def search (key : Bytes) : Except Nat Nat :=
  binarySearch (fun i => cmp (node.keyAt i) key) node.numKeys 0 node.numKeys

/-- `LeafNodePage::insert_at` in `page_layout.rs`. -/
def insertAt (pos : Nat) (key : Bytes) (rid : RecordId) : Option LeafNodePage :=
  ofArrays (node.slots.insertIdx pos (key, rid)) node.nextLeaf

/-- `LeafNodePage::remove_at` in `page_layout.rs`. -/
def removeAt (pos : Nat) : LeafNodePage :=
  { node with
    slots := node.slots.eraseIdx pos
    fits := Nat.le_trans (List.length_eraseIdx_le ..) node.fits }

end LeafNodePage

/-- The body of an index page: its first byte says which of the two it is. -/
inductive Page where
  | internal (node : InternalNodePage)
  | leaf (node : LeafNodePage)
  deriving DecidableEq

end AxiomDb.Index
