import AxiomDb.Lib.Runs
import AxiomDb.Wal.Scan

/-!
# Sessions and the recovery between them

A session runs transactions on the heap and logs what recovery needs to undo
them. Each session opens with recovery, which undoes the operations of the
transactions that the log shows in progress. It neither ends them in the log nor
cuts the log, and ids are handed out again from the greatest committed one on; so
a later recovery undoes the same operations again, over whatever was committed in
between, unless a checkpoint has moved the part of the log that recovery reads.

The heap is its slots, each with the tuple stored there or none. The operations
are those on rows of heap tables.
-/

namespace AxiomDb.Wal.Sessions

open Lib Heap

/-- Page id and slot id. -/
abbrev RowId := Nat × Nat

/-- A tuple image: row header and row bytes. -/
structure Tuple where
  header : RowHeader
  data : Bytes
  deriving DecidableEq

/-- A dead slot, and one that is not there yet, has no tuple. -/
abbrev HeapSlots := RowId → Option Tuple

/-- The tuple with its deletion stamp replaced. -/
def Tuple.stamp (t : Tuple) (c : Nat) : Tuple :=
  { t with header := { t.header with txnIdDeleted := c } }

/-- The root page of the chain a page belongs to. -/
abbrev Chains := Nat → Nat

/-! ## Undo -/

/-- `RecoveryOp` in `recovery.rs`. -/
inductive RecoveryOp where
  | insert (x : RowId)
  | delete (x : RowId)
  | updateInPlace (x : RowId) (oldImage : Tuple)
  | truncate (rootPageId txnId : Nat)

namespace RecoveryOp

/-- The slots that the undo visits. -/
def touches (rootOf : Chains) : RecoveryOp → RowId → Bool
  | insert y, x | delete y, x | updateInPlace y _, x => x == y
  | truncate rootPageId _, x => rootOf x.1 == rootPageId

/-- What the undo leaves in the slot, or that it fails: `mark_slot_dead`, `clear_deletion`,
`restore_tuple_image` and `clear_deletions_by_txn`. `strict` is rollback, which fails on
`AlreadyDeleted` from `clear_deletion` where recovery goes on. -/
def undoTuple (strict : Bool) : RecoveryOp → Option Tuple → Option (Option Tuple)
  | insert _, _ => some none
  | delete _, t => if strict && t.isNone then none else some (t.map (·.stamp 0))
  | updateInPlace _ oldImage, t => t.map fun _ => some oldImage
  | truncate _ txnId, t =>
    some (t.map fun t => if t.header.txnIdDeleted = txnId then t.stamp 0 else t)

/-- The one slot of the operation, if it has one. -/
def slot? : RecoveryOp → Option RowId
  | insert x | delete x | updateInPlace x _ => some x
  | truncate _ _ => none

def undo (rootOf : Chains) (strict : Bool) (op : RecoveryOp) (heap : HeapSlots) :
    Option HeapSlots :=
  if op.slot?.any fun x => (op.undoTuple strict (heap x)).isNone then none
  else some fun x => if op.touches rootOf x then (op.undoTuple strict (heap x)).getD none else heap x

end RecoveryOp

/-- Undoes operations one after the other. -/
def undoAll (rootOf : Chains) (strict : Bool) : List RecoveryOp → HeapSlots → Option HeapSlots
  | [], heap => some heap
  | op :: ops, heap => (op.undo rootOf strict heap).bind (undoAll rootOf strict ops)

variable (rootOf : Chains)

/-- `CrashRecovery::recover`: the heap after it, and the greatest committed id. An entry holds
the operations that it is read as. -/
def recover (entries : List (LogEntry (List RecoveryOp))) (heap : HeapSlots) :
    Option (HeapSlots × Nat) :=
  (undoAll rootOf false (scan id entries).inProgress heap).map fun heap =>
    (heap, (scan id entries).maxCommitted)

/-! ## Transactions -/

/-- The changes that operations are made of. -/
inductive Change where
  | insert (x : RowId) (data : Bytes)
  | delete (x : RowId)
  | updateInPlace (x : RowId) (data : Bytes)
  | truncate (rootPageId : Nat)

def Change.touches : Change → RowId → Bool
  | insert y _, x | delete y, x | updateInPlace y _, x => x == y
  | truncate rootPageId, x => rootOf x.1 == rootPageId

/-- The operations, each with one log entry. -/
inductive Dml where
  | insert (x : RowId) (data : Bytes)
  | delete (x : RowId)
  | update (old new : RowId) (data : Bytes)
  | updateInPlace (x : RowId) (data : Bytes)
  | pageWrite (rows : List (RowId × Bytes))
  | pageDelete (rows : List RowId)
  | truncate (rootPageId : Nat)

/-- The changes, in the order of which the undo is the reverse. -/
def Dml.changes : Dml → List Change
  | insert x data => [.insert x data]
  | delete x => [.delete x]
  | update old new data => [.insert new data, .delete old]
  | updateInPlace x data => [.updateInPlace x data]
  | pageWrite rows => rows.map fun r => .insert r.1 r.2
  | pageDelete rows => rows.map .delete
  | truncate rootPageId => [.truncate rootPageId]

/-- The database: the heap, the log and the transactions in flight, which record beside what
they have to undo the slots as the committed transactions left them. -/
structure Db extends InFlight RecoveryOp RowId (Option Tuple) where
  heap : HeapSlots
  /-- The slots that were inserted; the slot of a dead tuple is not used again. -/
  used : RowId → Bool
  log : Log (List RecoveryOp)
  nextTxnId : Nat

namespace Db

def create : Db := ⟨.idle fun _ => none, fun _ => none, fun _ => false, .empty, 1⟩

/-- Transaction `c` has changed the heap and remembers the undo. -/
def record (s : Db) (c : Nat) (op : RecoveryOp) (heap : HeapSlots) (used : RowId → Bool) : Db :=
  { s with toInFlight := s.toInFlight.record c op s.heap heap, heap := heap, used := used }

/-- One change by transaction `c`, and what undoes it. A slot is inserted once, and only a
tuple that is not deleted is deleted or rewritten. -/
def change (rootOf : Chains) (s : Db) (c : Nat) : Change → Option (Db × RecoveryOp)
  | .insert x data =>
    if s.used x then none
    else some (s.record c (.insert x)
      (Function.update s.heap x (some ⟨⟨c, 0, 0, 0⟩, data⟩)) (Function.update s.used x true),
      .insert x)
  | .delete x =>
    match s.heap x with
    | some t =>
      if t.header.txnIdDeleted = 0 then
        some (s.record c (.delete x) (Function.update s.heap x (some (t.stamp c))) s.used, .delete x)
      else none
    | none => none
  | .updateInPlace x data =>
    match s.heap x with
    | some t =>
      if t.header.txnIdDeleted = 0 then
        some (s.record c (.updateInPlace x t) (Function.update s.heap x
          (some ⟨⟨c, 0, t.header.rowVersion + 1, t.header.flags⟩, data⟩)) s.used,
          .updateInPlace x t)
      else none
    | none => none
  | .truncate rootPageId =>
    some (s.record c (.truncate rootPageId c)
      (fun x => if rootOf x.1 = rootPageId then
          (s.heap x).map fun t => if t.header.txnIdDeleted = 0 then t.stamp c else t
        else s.heap x) s.used,
      .truncate rootPageId c)

/-- The changes of one operation, and what its entry holds. -/
def changes (rootOf : Chains) (s : Db) (c : Nat) : List Change → Option (Db × List RecoveryOp)
  | [] => some (s, [])
  | ch :: chs => (s.change rootOf c ch).bind fun r =>
      (r.1.changes rootOf c chs).map fun q => (q.1, r.2 :: q.2)

end Db

inductive Event where
  | begin
  | dml (c : Nat) (d : Dml)
  | commit (c : Nat)
  | rollback (c : Nat)
  | checkpoint
  /-- The session ends, by a crash or a clean close, and the next one opens with recovery. -/
  | reopen

/-- The steps that succeed; a checkpoint needs that no transaction is active. -/
def step (s : Db) : Event → Option Db
  | .begin => some { s with
      toInFlight := s.toInFlight.begin s.nextTxnId
      log := s.log.append s.nextTxnId .begin
      nextTxnId := s.nextTxnId + 1 }
  | .dml c d =>
    if c ∈ s.active then
      (s.changes rootOf c d.changes).map fun r => { r.1 with log := r.1.log.append c (.op r.2) }
    else none
  | .commit c =>
    if c ∈ s.active then
      some { s with toInFlight := s.toInFlight.commit c, log := s.log.append c .commit }
    else none
  | .rollback c =>
    if c ∈ s.active then
      (undoAll rootOf true (s.ops c).reverse s.heap).map fun heap =>
        { s with
          toInFlight := s.toInFlight.drop c
          heap := heap
          log := s.log.append c .rollback }
    else none
  | .checkpoint => if s.active = [] then some { s with log := s.log.checkpoint } else none
  | .reopen => (recover rootOf s.log.window s.heap).map fun r =>
      { s with toInFlight := s.toInFlight.crash, heap := r.1, nextTxnId := r.2 + 1 }

/-! ## What keeps the log to its session -/

/-- How the operations are undone, slot by slot. -/
def heapUndo : UndoOps RecoveryOp RowId (Option Tuple) :=
  ⟨RecoveryOp.touches rootOf, RecoveryOp.undoTuple⟩

/-- Every transaction that recovery would find in progress is active: the log has none left
from an earlier session. -/
def Db.NoneLeft (s : Db) : Prop := ∀ c ∈ (scan id s.log.window).activeTxns, c ∈ s.active

/-- A session begins transactions, or ends, only while the log has no transaction in progress
from an earlier session (a recovery that undid one is followed by a checkpoint), and an id
begins only if recovery reads no entry of it. No two active transactions change one slot, and a
truncation finds no tuple that has its id as deletion stamp. -/
def OneSession (s : Db) : Event → Prop
  | .begin => s.NoneLeft ∧ ∀ e ∈ s.log.window, e.txnId ≠ s.nextTxnId
  | .dml c d =>
    (∀ ch ∈ d.changes, ∀ x, ch.touches rootOf x = true →
      ∀ b ∈ s.active, b ≠ c → ¬s.Touched (heapUndo rootOf) b x) ∧
    ∀ rootPageId, .truncate rootPageId ∈ d.changes →
      ∀ x t, rootOf x.1 = rootPageId → s.heap x = some t → t.header.txnIdDeleted ≠ c
  | .reopen => s.NoneLeft
  | .commit _ | .rollback _ | .checkpoint => True

end AxiomDb.Wal.Sessions
