import AxiomDb.Heap.ZoneMap
import AxiomDb.Lib.PageChain

/-!
# Heap chains

The operations of `HeapChain` over a page store: a table's rows lie on pages
linked from its root page, with 0 after the last. Rows are appended at the tail,
which is found by a walk from the root or taken from a hint; a full tail gets a
new page linked to it. The loops that follow links take fuel.

Each function reads and writes pages in the order of the source, which matters
where a call fails part way.
-/

namespace AxiomDb.Heap

open Lib

/-- An error of a page operation is the error of the call. -/
def ofExcept {σ α : Type} : Except DbError α → EStateM Stop σ α
  | .ok a => pure a
  | .error e => throw (.err e)

/-- A cached tail of the chain at `rootPageId`. -/
structure HeapAppendHint where
  rootPageId : PageId
  tailPageId : PageId
  deriving DecidableEq, Repr

namespace HeapChain

variable {σ : Type} (E : StorageEngine Stop σ HeapPage)

/-! ## Appending -/

/-- `HeapChain::last_page_id` in `heap_chain_batch.rs`. -/
def lastPageId : Nat → PageId → EStateM Stop σ PageId
  | 0, _ => throw .outOfFuel
  | fuel + 1, current => do
    let page ← E.readPage current
    let next := page.chainNextPage
    if next = 0 then pure current else lastPageId fuel next

/-- The tail is full: the row goes to a new page, which is then linked. -/
def growChain (lastPageId : PageId) (data : Bytes) (txnId : TxnId) :
    EStateM Stop σ (PageId × Nat) := do
  let newPageId ← E.allocPage
  let (slotId, newPage) ← ofExcept ((HeapPage.new newPageId).insertTuple data txnId)
  E.writePage newPageId newPage
  let prevPage ← E.readPage lastPageId
  E.writePage lastPageId (prevPage.chainSetNextPage newPageId)
  pure (newPageId, slotId)

/-- `insert` once the tail is known. -/
def insertAt (lastPageId : PageId) (data : Bytes) (txnId : TxnId) :
    EStateM Stop σ (PageId × Nat) := do
  let page ← E.readPage lastPageId
  match page.insertTuple data txnId with
  | .ok (slotId, page) =>
    E.writePage lastPageId page
    pure (lastPageId, slotId)
  | .error (.heapPageFull ..) => growChain E lastPageId data txnId
  | .error e => throw (.err e)

variable (fuel : Nat) (rootPageId : PageId)

/-- `HeapChain::insert` in `heap_chain_write.rs`. -/
def insert (data : Bytes) (txnId : TxnId) : EStateM Stop σ (PageId × Nat) := do
  let last ← lastPageId E fuel rootPageId
  insertAt E last data txnId

/-- Whether a page can be read and is the last of its chain. -/
def isTail (pageId : PageId) : EStateM Stop σ Bool := fun s =>
  match E.readPage pageId s with
  | .ok page s => .ok (page.chainNextPage == 0) s
  | .error _ s => .ok false s

/-- `HeapChain::resolve_tail_with_hint` in `heap_chain_write.rs`. -/
def resolveTailWithHint : Option HeapAppendHint → EStateM Stop σ (PageId × Option HeapAppendHint)
  | some h => do
    let valid ← if h.rootPageId = rootPageId then isTail E h.tailPageId else pure false
    if valid then pure (h.tailPageId, some h)
    else
      let tail ← lastPageId E fuel rootPageId
      pure (tail, some ⟨rootPageId, tail⟩)
  | none => do
    let tail ← lastPageId E fuel rootPageId
    pure (tail, none)

/-- Returns the row's address and the hint as the call leaves it. -/
def insertWithHint (data : Bytes) (txnId : TxnId)
    (hint : Option HeapAppendHint) : EStateM Stop σ ((PageId × Nat) × Option HeapAppendHint) := do
  let (last, hint) ← resolveTailWithHint E fuel rootPageId hint
  let rid ← insertAt E last data txnId
  pure (rid, if rid.1 = last then hint else hint.map fun _ => ⟨rootPageId, rid.1⟩)

/-- The zone map of a page follows a row's value, if it has one. -/
def trackValue (page : HeapPage) : Option (Fin 256 × I64) → HeapPage
  | some (colIdx, val) => updateZoneMap page colIdx val
  | none => page

/-- The loop of `insert_batch_with_zm`: `page` is the local copy of the last page. -/
def insertRows (txnId : TxnId) : List (Bytes × Option (Fin 256 × I64)) → PageId → HeapPage → Bool →
    EStateM Stop σ (List (PageId × Nat))
  | [], lastId, page, dirty => do
    if dirty then E.writePage lastId page
    pure []
  | (data, zm) :: rows, lastId, page, _ =>
    match page.insertTuple data txnId with
    | .ok (slotId, page) => do
      let rest ← insertRows txnId rows lastId (trackValue page zm) true
      pure ((lastId, slotId) :: rest)
    | .error (.heapPageFull ..) => do
      E.writePage lastId page
      let newId ← E.allocPage
      let prev ← E.readPage lastId
      E.writePage lastId (prev.chainSetNextPage newId)
      let (slotId, page) ← ofExcept ((HeapPage.new newId).insertTuple data txnId)
      let rest ← insertRows txnId rows newId (trackValue page zm) true
      pure ((newId, slotId) :: rest)
    | .error e => throw (.err e)

/-- `HeapChain::insert_batch_with_zm` in `heap_chain_batch.rs`. -/
def insertBatchWithZm (rows : List Bytes) (txnId : TxnId)
    (zmValues : List (Option (Fin 256 × I64))) : EStateM Stop σ (List (PageId × Nat)) := do
  if rows = [] then pure []
  else
    let lastId ← lastPageId E fuel rootPageId
    let page ← E.readPage lastId
    insertRows E txnId (rows.zipIdx.map fun (data, i) => (data, zmValues[i]?.join)) lastId page false

/-! ## Changing rows -/

/-- `HeapChain::delete` in `heap_chain_write.rs`. -/
def delete (pageId : PageId) (slotId : Nat) (txnId : TxnId) : EStateM Stop σ Unit := do
  let page ← E.readPage pageId
  let page ← ofExcept (page.deleteTuple slotId txnId)
  E.writePage pageId page

/-- Rows in the order of their pages and slots, one list for each page. -/
def byPage {α : Type} (rid : α → RecordId) (xs : List α) : List (List α) :=
  (xs.mergeSort fun a b => (rid a).pageId < (rid b).pageId ||
    ((rid a).pageId == (rid b).pageId && (rid a).slotId ≤ (rid b).slotId)).splitBy
    fun a b => (rid a).pageId == (rid b).pageId

/-- The slots of one page are stamped, and their rows returned. -/
def markAllDeleted (txnId : TxnId) (page : HeapPage) :
    List RecordId → Except DbError (List (RecordId × Bytes) × HeapPage)
  | [] => pure ([], page)
  | rid :: rids => do
    match ← page.readTuple rid.slotId with
    | none => throw (.alreadyDeleted rid.pageId rid.slotId)
    | some (_, data) =>
      let page ← page.markDeleted rid.slotId txnId
      let (rest, page) ← markAllDeleted txnId page rids
      pure ((rid, data) :: rest, page)

def deletePage (txnId : TxnId) : List RecordId → EStateM Stop σ (List (RecordId × Bytes))
  | [] => pure []
  | rid :: rids => do
    let page ← E.readPage rid.pageId
    let (rows, page) ← ofExcept (markAllDeleted txnId page (rid :: rids))
    E.writePage rid.pageId page
    pure rows

/-- `HeapChain::delete_batch` in `heap_chain_write.rs`. -/
def deleteBatch (rids : List RecordId) (txnId : TxnId) :
    EStateM Stop σ (List (RecordId × Bytes)) := do
  let rows ← (byPage id rids).mapM (deletePage E txnId)
  pure rows.flatten

/-- A row to be rewritten, with its place in the caller's list. -/
structure Rewrite where
  index : Nat
  rid : RecordId
  newRow : Bytes

/-- The rows of one page are rewritten where they fit. The flag says whether any was. -/
def rewriteAll (txnId : TxnId) (page : HeapPage) :
    List Rewrite → Except DbError (List (Nat × Option TupleImage) × Bool × HeapPage)
  | [] => pure ([], false, page)
  | u :: us => do
    let (old, page) ← page.tryRewriteTupleSameSlot u.rid.slotId u.newRow txnId
    let (rest, dirty, page) ← rewriteAll txnId page us
    pure ((u.index, old) :: rest, old.isSome || dirty, page)

def rewritePage (txnId : TxnId) : List Rewrite → EStateM Stop σ (List (Nat × Option TupleImage))
  | [] => pure []
  | u :: us => do
    let page ← E.readPage u.rid.pageId
    let (olds, dirty, page) ← ofExcept (rewriteAll txnId page (u :: us))
    if dirty then E.writePage u.rid.pageId page
    pure olds

/-- `HeapChain::rewrite_batch_same_slot` in `heap_chain_write.rs`. -/
def rewriteBatchSameSlot (updates : List (RecordId × Bytes)) (txnId : TxnId) :
    EStateM Stop σ (List (Option TupleImage)) := do
  let indexed := updates.zipIdx.map fun ((rid, newRow), i) => ⟨i, rid, newRow⟩
  let olds ← (byPage Rewrite.rid indexed).mapM (rewritePage E txnId)
  pure ((List.range updates.length).map fun i => (olds.flatten.lookup i).join)

/-! ## Reading rows -/

/-- Whether every live row is committed before the snapshot and not deleted. -/
def allCommitted (page : HeapPage) (snap : TransactionSnapshot) : Bool :=
  page.slots.all fun entry =>
    match entry with
    | none => true
    | some t => t.header.txnIdDeleted == 0 && decide (t.header.txnIdCreated < snap.snapshotId)

/-- The scan of a page sets the flag when all its live rows are committed and
not deleted, and it has one. -/
def setsAllVisible (page : HeapPage) (snap : TransactionSnapshot) : Bool :=
  !page.allVisible && allCommitted page snap && page.slots.any Option.isSome

end HeapChain

end AxiomDb.Heap
