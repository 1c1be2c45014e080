import AxiomDb.Lib.Runs
import AxiomDb.Wal.Scan

/-!
# Clustered tables and their recovery

The rows of a clustered table are in a tree, and every operation on it may move
the root. What the tree code does to its pages is a parameter: a tree is the rows
that a lookup finds from each page as root, and an operation through a root gives a
root that finds the changed rows, and anything from other pages.

An insert, a delete mark and an update log the root after them, a field patch does
not. Recovery takes as root of a table the last one that a committed transaction
logged, and in its place the last one that a transaction in progress logged, be it
older or not; from there it undoes what is in progress.
-/

namespace AxiomDb.Wal.Clustered

open Lib Heap Function

abbrev TableId := Nat

abbrev Key := Bytes

/-- A row image: header and row bytes. -/
structure Row where
  header : RowHeader
  data : Bytes
  deriving DecidableEq

/-- The rows that `lookup_physical` finds from each page as root. -/
abbrev Tree := PageId → Key → Option Row

/-- What the tree code does: the tree and the root after the row of a key has been inserted,
replaced or removed, and the tree after a row has been patched in its leaf. -/
structure TreeCode where
  write : Tree → PageId → Key → Option Row → Tree × PageId
  patch : Tree → PageId → Key → Row → Tree
  write_sees : ∀ tree root key row,
    (write tree root key row).1 (write tree root key row).2 = update (tree root) key row
  patch_sees : ∀ tree root key row,
    patch tree root key row root = update (tree root) key (some row)

/-! ## Field patches -/

/-- Bytes for a part of the row. -/
structure FieldDelta where
  offset : Nat
  bytes : Bytes

/-- The end of the part. -/
def FieldDelta.stop (d : FieldDelta) : Nat := d.offset + d.bytes.length

/-- The bytes copied into the row. -/
def splice (data : Bytes) (d : FieldDelta) : Bytes :=
  data.take d.offset ++ d.bytes ++ data.drop d.stop

/-- The deltas one after the other; one that exceeds the row is an error. -/
def patchFields : List FieldDelta → Bytes → Option Bytes
  | [], data => some data
  | d :: ds, data => if data.length < d.stop then none else patchFields ds (splice data d)

/-- The bytes that the row has where the delta goes. -/
def FieldDelta.before (data : Bytes) (d : FieldDelta) : FieldDelta :=
  ⟨d.offset, (data.drop d.offset).take d.bytes.length⟩

/-! ## Undo -/

/-- `RecoveryOp` in `recovery.rs`. -/
inductive RecoveryOp where
  | insert (table : TableId) (key : Key)
  | restore (table : TableId) (key : Key) (oldRow : Row)
  | fieldPatchRestore (table : TableId) (key : Key) (oldHeader : RowHeader) (deltas : List FieldDelta)

namespace RecoveryOp

def place : RecoveryOp → TableId × Key
  | insert table key | restore table key _ | fieldPatchRestore table key _ _ => (table, key)

/-- What the undo leaves under the key, or that it fails. `strict` is rollback, which fails where
an inserted key is not found. -/
def undoRow (strict : Bool) : RecoveryOp → Option Row → Option (Option Row)
  | insert _ _, row => if strict && row.isNone then none else some none
  | restore _ _ oldRow, _ => some (some oldRow)
  | fieldPatchRestore _ _ oldHeader deltas, row =>
    match row with
    | none => some none
    | some row => (patchFields deltas row.data).map fun data => some ⟨oldHeader, data⟩

/-- The undo in the tree, through a root. Rollback patches the leaf, recovery replaces the row. -/
def undoTree (code : TreeCode) (strict : Bool) (op : RecoveryOp) (tree : Tree) (root : PageId) :
    Option (Tree × PageId) :=
  match op with
  | insert _ key =>
    if (tree root key).isNone then (if strict then none else some (tree, root))
    else some (code.write tree root key none)
  | restore _ key oldRow => some (code.write tree root key (some oldRow))
  | fieldPatchRestore _ key oldHeader deltas =>
    match tree root key with
    | none => some (tree, root)
    | some row => (patchFields deltas row.data).map fun data =>
        if strict then (code.patch tree root key ⟨oldHeader, data⟩, root)
        else code.write tree root key (some ⟨oldHeader, data⟩)

end RecoveryOp

/-- How the operations are undone, key by key. -/
def rowUndo : UndoOps RecoveryOp (TableId × Key) (Option Row) :=
  ⟨fun op x => op.place == x, RecoveryOp.undoRow⟩

/-- Undoes operations one after the other, each through the root of its table; a table without
one is an error. -/
def undoAll (code : TreeCode) (strict : Bool) :
    List RecoveryOp → (TableId → Tree) → (TableId → Option PageId) →
      Option ((TableId → Tree) × (TableId → Option PageId))
  | [], trees, roots => some (trees, roots)
  | op :: ops, trees, roots =>
    (roots op.place.1).bind fun root =>
      (op.undoTree code strict (trees op.place.1) root).bind fun r =>
        undoAll code strict ops (update trees op.place.1 r.1)
          (update roots op.place.1 (some r.2))

/-! ## Recovery -/

/-- An entry: the root it names, and what undoes it. -/
structure Entry where
  root : Option PageId
  undo : RecoveryOp

/-- What the scan collects. -/
structure RootScan extends Scan RecoveryOp where
  activeRoots : Nat → TableId → Option PageId
  committedRoots : TableId → Option PageId
  rootTimeline : List (Nat × TableId × PageId)

def RootScan.entry (sc : RootScan) (e : LogEntry Entry) : RootScan :=
  let base := { sc with toScan := sc.toScan.entry (fun b => [b.undo]) e }
  match e.kind with
  | .begin | .checkpoint => base
  | .commit => { base with
      committedRoots := fun table => (sc.activeRoots e.txnId table).or (sc.committedRoots table)
      activeRoots := update sc.activeRoots e.txnId fun _ => none }
  | .rollback => { base with
      activeRoots := update sc.activeRoots e.txnId fun _ => none }
  | .op b =>
    match b.root with
    | none => base
    | some root =>
      if e.txnId ∈ sc.activeTxns then { base with
        activeRoots := update sc.activeRoots e.txnId
          (update (sc.activeRoots e.txnId) b.undo.place.1 (some root))
        rootTimeline := sc.rootTimeline ++ [(e.txnId, b.undo.place.1, root)] }
      else base

def rootScan (entries : List (LogEntry Entry)) : RootScan :=
  entries.foldl RootScan.entry ⟨⟨0, [], []⟩, fun _ _ => none, fun _ => none, []⟩

/-- The committed roots, replaced by those that transactions in progress logged. -/
def RootScan.currentRoots (sc : RootScan) : TableId → Option PageId :=
  (sc.rootTimeline.filter fun p => p.1 ∈ sc.activeTxns).foldl
    (fun roots p => update roots p.2.1 (some p.2.2)) sc.committedRoots

/-- `CrashRecovery::recover`: the trees after it, and `clustered_roots`. -/
def recover (code : TreeCode) (entries : List (LogEntry Entry)) (trees : TableId → Tree) :
    Option ((TableId → Tree) × (TableId → Option PageId)) :=
  undoAll code false (rootScan entries).inProgress trees (rootScan entries).currentRoots

/-! ## Transactions -/

/-- The tables, each with its current root and the one that the catalog has for it, and the
transactions in flight, each with the roots that it has last recorded and those that it has written
to the catalog, where it moved them. -/
structure Db extends InFlight RecoveryOp (TableId × Key) (Option Row) where
  trees : TableId → Tree
  roots : TableId → PageId
  catalog : TableId → PageId
  connRoots : Nat → TableId → PageId
  written : Nat → TableId → Option PageId
  log : Log Entry
  nextTxnId : Nat

namespace Db

/-- The rows found from given roots. -/
def rowsOf (trees : TableId → Tree) (roots : TableId → PageId) (x : TableId × Key) : Option Row :=
  trees x.1 (roots x.1) x.2

def rows (s : Db) : TableId × Key → Option Row := rowsOf s.trees s.roots

def opened (trees : TableId → Tree) (roots : TableId → PageId) : Db :=
  ⟨.idle (rowsOf trees roots), trees, roots, roots, fun _ => roots, fun _ _ => none, .empty, 1⟩

/-- Transaction `c` has changed a table and logs it. -/
def put (s : Db) (c : Nat) (e : Entry) (tree : Tree) (root : PageId) : Db :=
  let trees := update s.trees e.undo.place.1 tree
  let roots := update s.roots e.undo.place.1 root
  { s with
    toInFlight := s.toInFlight.record c e.undo s.rows (rowsOf trees roots)
    trees := trees
    roots := roots
    connRoots := update s.connRoots c
      (update (s.connRoots c) e.undo.place.1 (e.root.getD (s.connRoots c e.undo.place.1)))
    -- `update_table_root`, if the operation has moved the root
    written := if root = s.roots e.undo.place.1 then s.written
      else update s.written c (update (s.written c) e.undo.place.1 (some root))
    log := s.log.append c (.op e) }

/-- `put` after an operation that may move the root. -/
def write (code : TreeCode) (s : Db) (c : Nat) (undo : RecoveryOp) (row : Row) : Db :=
  let r := code.write (s.trees undo.place.1) (s.roots undo.place.1) undo.place.2 (some row)
  s.put c ⟨some r.2, undo⟩ r.1 r.2

/-- Transaction `c` has changed the table. -/
def changed (s : Db) (c : Nat) (table : TableId) : Bool := (s.ops c).any (·.place.1 == table)

/-- The undo of a rollback, through the roots that the transaction has recorded. -/
def rollbackTrees (code : TreeCode) (s : Db) (c : Nat) :
    Option ((TableId → Tree) × (TableId → Option PageId)) :=
  undoAll code true (s.ops c).reverse s.trees fun table => some (s.connRoots c table)

end Db

inductive Event where
  | begin
  | insert (c : Nat) (table : TableId) (key : Key) (row : Row)
  /-- A delete mark or an update. -/
  | update (c : Nat) (table : TableId) (key : Key) (row : Row)
  | fieldPatch (c : Nat) (table : TableId) (key : Key) (header : RowHeader) (deltas : List FieldDelta)
  | commit (c : Nat)
  | rollback (c : Nat)
  | checkpoint

/-- The steps that succeed. Every operation goes through the current root of its table. -/
def step (code : TreeCode) (s : Db) : Event → Option Db
  | .begin => some { s with
      toInFlight := s.toInFlight.begin s.nextTxnId
      connRoots := update s.connRoots s.nextTxnId s.roots
      written := update s.written s.nextTxnId fun _ => none
      log := s.log.append s.nextTxnId .begin
      nextTxnId := s.nextTxnId + 1 }
  | .insert c table key row =>
    if c ∈ s.active ∧ s.rows (table, key) = none then some (s.write code c (.insert table key) row)
    else none
  | .update c table key row =>
    match s.rows (table, key) with
    | some oldRow =>
      if c ∈ s.active then some (s.write code c (.restore table key oldRow) row) else none
    | none => none
  | .fieldPatch c table key header deltas =>
    match s.rows (table, key) with
    | some oldRow =>
      if c ∈ s.active then
        (patchFields deltas oldRow.data).map fun data =>
          s.put c ⟨none, .fieldPatchRestore table key oldRow.header
              (deltas.map (·.before oldRow.data))⟩
            (code.patch (s.trees table) (s.roots table) key ⟨header, data⟩) (s.roots table)
      else none
    | none => none
  | .commit c =>
    if c ∈ s.active then
      some { s with
        toInFlight := s.toInFlight.commit c
        catalog := fun table => (s.written c table).getD (s.catalog table)
        log := s.log.append c .commit }
    else none
  | .rollback c =>
    if c ∈ s.active then
      (s.rollbackTrees code c).map fun r => { s with
        toInFlight := s.toInFlight.drop c
        trees := r.1
        roots := fun table => if s.changed c table then (r.2 table).getD 0 else s.roots table
        log := s.log.append c .rollback }
    else none
  | .checkpoint => if s.active = [] then some { s with log := s.log.checkpoint } else none

/-! ## What keeps the logged roots current -/

/-- The transaction has logged a root of the table. -/
def Db.Names (s : Db) (c : Nat) (table : TableId) : Prop :=
  (rootScan s.log.window).activeRoots c table ≠ none

/-- No other active transaction has changed the row. -/
def Db.Owns (s : Db) (c : Nat) (x : TableId × Key) : Prop :=
  ∀ b ∈ s.active, b ≠ c → ¬s.Touched rowUndo b x

/-- A root is moved only where no other active transaction has logged one of the table; a field is
patched only where the log names a root of the table; and a rollback goes through the current
roots, does not move them, and what it logged of a table is also logged by a committed transaction
(with the current root) or another active one, unless none of these has to do with the table and
the catalog has the current root. A checkpoint finds the current roots in the catalog. No two active
transactions change one row. -/
def RootsNamed (code : TreeCode) (s : Db) : Event → Prop
  | .insert c table key row | .update c table key row =>
    s.Owns c (table, key) ∧
      ((code.write (s.trees table) (s.roots table) key (some row)).2 = s.roots table ∨
        ∀ b ∈ s.active, b ≠ c → ¬s.Names b table)
  | .fieldPatch c table key _ _ =>
    s.Owns c (table, key) ∧
      ((rootScan s.log.window).committedRoots table ≠ none ∨ ∃ b ∈ s.active, s.Names b table)
  | .rollback c =>
    (∀ table, s.changed c table = true → s.connRoots c table = s.roots table) ∧
    (∀ r, s.rollbackTrees code c = some r →
      ∀ table, s.changed c table = true → r.2 table = some (s.roots table)) ∧
    ∀ table, s.Names c table →
      (rootScan s.log.window).committedRoots table = some (s.roots table) ∨
      (∃ b ∈ s.active, b ≠ c ∧ s.Names b table) ∨
      (rootScan s.log.window).committedRoots table = none ∧
        (∀ b ∈ s.active, b ≠ c → s.changed b table = false) ∧ s.roots table = s.catalog table
  | .checkpoint => ∀ table, s.roots table = s.catalog table
  | .begin | .commit _ => True

end AxiomDb.Wal.Clustered
