import AxiomDb.Wal.SessionRecovery
import AxiomDb.Wal.ClusteredRecovery

/-!
# Recovery against rollback

One transaction changes the heap and clustered tables, and records each change:
in memory what a rollback undoes, and in the log an entry from which recovery
reads what it undoes. The two agree where an entry holds the image that rollback
would restore, and recovery knows the root that the transaction has recorded. A
lightweight delete mark logs an empty image in place of the row's, and a field
patch logs no root.
-/

namespace AxiomDb.Wal.Crash

open Lib Heap Sessions Clustered List Function Option RecoveryOp

/-! ## Undo -/

/-- What undoes a change. Only rollback clears the stamp of a delete mark. -/
inductive UndoOp where
  | heap (op : Sessions.RecoveryOp)
  | clustered (op : Clustered.RecoveryOp)
  | undelete (table : TableId) (key : Key)

/-- The table whose root the undo goes through. -/
def UndoOp.table : UndoOp → Option TableId
  | heap _ => none
  | clustered op => some op.place.1
  | undelete table _ => some table

/-- The row with another deletion stamp. -/
def stampRow (row : Row) (c : Nat) : Row := { row with header := { row.header with txnIdDeleted := c } }

/-- The heap and the tables, with the roots that are known. -/
structure Undoing where
  heap : HeapSlots
  trees : TableId → Tree
  roots : TableId → Option PageId

variable (code : TreeCode) (rootOf : Chains)

/-- One undo; `strict` is rollback. -/
def undoOne (strict : Bool) (u : Undoing) : UndoOp → Option Undoing
  | .heap op => (op.undo rootOf strict u.heap).map fun heap => { u with heap }
  | .clustered op =>
    (u.roots op.place.1).bind fun root =>
      (op.undoTree code strict (u.trees op.place.1) root).map fun r => { u with
        trees := update u.trees op.place.1 r.1
        roots := update u.roots op.place.1 (some r.2) }
  | .undelete table key =>
    (u.roots table).map fun root =>
      match u.trees table root key with
      | none => u
      | some row => { u with
          trees := update u.trees table
            (code.patch (u.trees table) root key (stampRow row 0)) }

def undoAll (strict : Bool) : List UndoOp → Undoing → Option Undoing
  | [], u => some u
  | op :: ops, u => (undoOne code rootOf strict u op).bind (undoAll strict ops)

/-! ## The transaction -/

/-- An entry: the root it names, and what recovery reads it as. -/
structure Entry where
  root : Option (TableId × PageId)
  op : UndoOp

/-- The heap, the tables with their current roots, and what the transaction has recorded. -/
structure Db where
  heap : HeapSlots
  trees : TableId → Tree
  roots : TableId → PageId
  undoOps : List UndoOp
  clusteredRoots : TableId → Option PageId
  entries : List Entry

namespace Db

def rows (s : Db) (table : TableId) : Key → Option Row := s.trees table (s.roots table)

/-- The transaction begins. -/
def begun (heap : HeapSlots) (trees : TableId → Tree) (roots : TableId → PageId) : Db :=
  ⟨heap, trees, roots, [], fun _ => none, []⟩

/-- A change of the heap is recorded. -/
def putHeap (s : Db) (op : Sessions.RecoveryOp) (heap : HeapSlots) : Db :=
  { s with
    heap := heap
    undoOps := s.undoOps ++ [.heap op]
    entries := s.entries ++ [⟨none, .heap op⟩] }

/-- A change of a table is recorded: its undo, and the entry. -/
def put (s : Db) (table : TableId) (tree : Tree) (root : PageId) (undo : UndoOp) (entry : Entry) : Db :=
  { s with
    trees := update s.trees table tree
    roots := update s.roots table root
    undoOps := s.undoOps ++ [undo]
    clusteredRoots := update s.clusteredRoots table (some root)
    entries := s.entries ++ [entry] }

end Db

/-- The changes, each with the functions that record it. An entry of `record_page_writes` or
`record_delete_batch` is read as one insert or delete for each of its slots. -/
inductive Change where
  /-- `record_insert`, `record_page_writes`. -/
  | insert (x : RowId) (data : Bytes)
  /-- `record_delete`, `record_delete_batch`. -/
  | delete (x : RowId)
  /-- `record_update_in_place`, `record_update_in_place_batch`. -/
  | updateInPlace (x : RowId) (image : Tuple)
  /-- `record_truncate`. -/
  | truncate (rootPageId : Nat)
  /-- `record_clustered_insert`, `record_clustered_insert_batch`. -/
  | clusteredInsert (table : TableId) (key : Key) (row : Row)
  /-- `record_clustered_update`, `record_clustered_update_batch`. -/
  | clusteredUpdate (table : TableId) (key : Key) (row : Row)
  /-- `record_clustered_delete_mark`, `record_clustered_delete_mark_batch`. -/
  | clusteredDeleteMark (table : TableId) (key : Key)
  /-- `record_clustered_delete_mark_lightweight`. -/
  | clusteredDeleteMarkLightweight (table : TableId) (key : Key)
  /-- `record_clustered_field_patch_batch`. -/
  | clusteredFieldPatch (table : TableId) (key : Key) (header : RowHeader) (deltas : List FieldDelta)

/-- The image that a lightweight delete mark logs for the old row. -/
def emptyRow : Row := ⟨⟨0, 0, 0, 0⟩, []⟩

/-- Transaction `c` makes a change and records it. -/
def step (c : Nat) (s : Db) : Change → Option Db
  | .insert x data =>
    if s.heap x = none then
      some (s.putHeap (.insert x) (update s.heap x (some ⟨⟨c, 0, 0, 0⟩, data⟩)))
    else none
  | .delete x => (s.heap x).map fun t => s.putHeap (.delete x) (update s.heap x (some (t.stamp c)))
  | .updateInPlace x image =>
    (s.heap x).map fun t => s.putHeap (.updateInPlace x t) (update s.heap x (some image))
  | .truncate rootPageId =>
    some (s.putHeap (.truncate rootPageId c) fun x =>
      if rootOf x.1 = rootPageId then
        (s.heap x).map fun t => if t.header.txnIdDeleted = 0 then t.stamp c else t
      else s.heap x)
  | .clusteredInsert table key row =>
    if s.rows table key = none then
      let r := code.write (s.trees table) (s.roots table) key (some row)
      let undo := .clustered (.insert table key)
      some (s.put table r.1 r.2 undo ⟨some (table, r.2), undo⟩)
    else none
  | .clusteredUpdate table key row =>
    (s.rows table key).map fun oldRow =>
      let r := code.write (s.trees table) (s.roots table) key (some row)
      let undo := .clustered (.restore table key oldRow)
      s.put table r.1 r.2 undo ⟨some (table, r.2), undo⟩
  | .clusteredDeleteMark table key =>
    (s.rows table key).map fun oldRow =>
      let undo := .clustered (.restore table key oldRow)
      s.put table (code.patch (s.trees table) (s.roots table) key (stampRow oldRow c)) (s.roots table)
        undo ⟨some (table, s.roots table), undo⟩
  | .clusteredDeleteMarkLightweight table key =>
    (s.rows table key).map fun oldRow =>
      s.put table (code.patch (s.trees table) (s.roots table) key (stampRow oldRow c)) (s.roots table)
        (.undelete table key) ⟨some (table, s.roots table), .clustered (.restore table key emptyRow)⟩
  | .clusteredFieldPatch table key header deltas =>
    (s.rows table key).bind fun oldRow =>
      (patchFields deltas oldRow.data).map fun data =>
        let undo := .clustered
          (.fieldPatchRestore table key oldRow.header (deltas.map (·.before oldRow.data)))
        s.put table (code.patch (s.trees table) (s.roots table) key ⟨header, data⟩) (s.roots table)
          undo ⟨none, undo⟩

/-- `TxnManager::rollback`. -/
def rollback (s : Db) : Option Undoing :=
  undoAll code rootOf true s.undoOps.reverse ⟨s.heap, s.trees, s.clusteredRoots⟩

section

variable (committed : TableId → Option PageId)

/-- The roots that committed transactions logged, replaced by those of the entries. -/
def currentRoots (entries : List Entry) : TableId → Option PageId :=
  entries.foldl (fun roots e =>
    match e.root with
    | none => roots
    | some r => update roots r.1 (some r.2)) committed

/-- `CrashRecovery::recover`, with the transaction the only one in progress. -/
def recover (s : Db) : Option Undoing :=
  undoAll code rootOf false (s.entries.map Entry.op).reverse
    ⟨s.heap, s.trees, currentRoots committed s.entries⟩

/-- Delete marks log the row, and fields are patched only where the log names the root of the
table. -/
def Recoverable (s : Db) : Change → Prop
  | .clusteredDeleteMarkLightweight _ _ => False
  | .clusteredFieldPatch table _ _ _ =>
    currentRoots committed s.entries table = some (s.roots table)
  | _ => True

end

/-! ## Both undo the same -/

variable {code rootOf} {s s' : Db} {a b : Undoing}

/-- Rollback at `a` and recovery at `b` have come back to `s`: the heaps are the same, with the live
slots of `s`, and so are the tables, with the rows of `s` where a root is known. -/
structure Agree (s : Db) (a b : Undoing) : Prop where
  heap : b.heap = a.heap
  live : ∀ x, (a.heap x).isSome = (s.heap x).isSome
  roots : ∀ table, a.roots table ≠ none → b.roots table ≠ none
  rows : ∀ table, a.roots table ≠ none → ∀ key,
    seen a.trees a.roots (table, key) = s.rows table key ∧
      seen b.trees b.roots (table, key) = s.rows table key
  trees : ∀ table, a.roots table = none → b.trees table = a.trees table

/-- Both undo the change from `s` to `s'`. -/
def Undone (code : TreeCode) (rootOf : Chains) (s s' : Db) (op : UndoOp) : Prop :=
  ∀ a b, Agree s' a b → (∀ table, op.table = some table → a.roots table ≠ none) →
    ∃ a' b', undoOne code rootOf true a op = some a' ∧ undoOne code rootOf false b op = some b' ∧
      Agree s a' b' ∧ ∀ table, a'.roots table = none ↔ a.roots table = none

/-- A change of the heap is undone. What a strict undo needs is that the tuple is live. -/
theorem undone_heap {op : Sessions.RecoveryOp} {heap : HeapSlots}
    (hundo : ∀ x t, t.isSome = (heap x).isSome → op.touches rootOf x →
      ∃ t', op.undoTuple true t = some t' ∧ op.undoTuple false t = some t' ∧
        t'.isSome = (s.heap x).isSome)
    (hframe : ∀ x, op.touches rootOf x = false → heap x = s.heap x) :
    Undone code rootOf s (s.putHeap op heap) (.heap op) := by
  intro a b hagree _
  have hlive (x : RowId) : (a.heap x).isSome = (heap x).isSome := hagree.live x
  have hnew (x : RowId) : ∃ t',
      (if op.touches rootOf x then op.undoTuple true (a.heap x) else some (a.heap x)) = some t' ∧
      (if op.touches rootOf x then op.undoTuple false (a.heap x) else some (a.heap x)) = some t' ∧
      t'.isSome = (s.heap x).isSome := by
    cases htouch : op.touches rootOf x with
    | true => simpa using hundo x (a.heap x) (hlive x) htouch
    | false => exact ⟨a.heap x, rfl, rfl, by rw [hlive, hframe x htouch]⟩
  choose heap' htrue hfalse hlive' using hnew
  have hbfalse := undo_eq_some.mpr hfalse
  rw [← hagree.heap] at hbfalse
  refine ⟨{ a with heap := heap' }, { b with heap := heap' }, ?_, ?_,
    ⟨rfl, hlive', hagree.roots, hagree.rows, hagree.trees⟩, fun _ => Iff.rfl⟩
  · rw [undoOne, undo_eq_some.mpr htrue]
    rfl
  · rw [undoOne, hbfalse]
    rfl

/-- The undo of a change of a table, row by row. -/
theorem undoOne_clustered {strict : Bool} {u : Undoing} {op : Clustered.RecoveryOp} {row : Option Row}
    (hroot : u.roots op.place.1 ≠ none)
    (h : op.undoRow strict (seen u.trees u.roots op.place) = some row) :
    ∃ u', undoOne code rootOf strict u (.clustered op) = some u' ∧ u'.heap = u.heap ∧
      seen u'.trees u'.roots = update (seen u.trees u.roots) op.place row ∧
      (∀ table, u'.roots table = none ↔ u.roots table = none) ∧
      ∀ table, table ≠ op.place.1 → u'.trees table = u.trees table := by
  obtain ⟨root, hroot⟩ := ne_none_iff_exists'.mp hroot
  have hrow : op.undoRow strict (u.trees op.place.1 root op.place.2) = some row := by
    simpa only [seen, hroot, bind_some] using h
  obtain ⟨tree', root', hundo, hsees⟩ := undoTree_sees code hrow
  refine ⟨{ u with
      trees := update u.trees op.place.1 tree'
      roots := update u.roots op.place.1 (some root') }, ?_, rfl,
    seen_update hroot hsees, fun table => ?_, fun table hne => update_of_ne hne ..⟩
  · rw [undoOne, hroot, bind_some, hundo]
    rfl
  show update u.roots op.place.1 (some root') table = none ↔ _
  rw [update_apply]
  split
  next heq => simp [heq, hroot]
  next => rfl

theorem undone_clustered {op : Clustered.RecoveryOp} {tree : Tree} {root : PageId} {row : Option Row}
    {entry : Entry} (hsees : tree root = update (s.rows op.place.1) op.place.2 row)
    (hundo : ∀ strict, op.undoRow strict row = some (s.rows op.place.1 op.place.2)) :
    Undone code rootOf s (s.put op.place.1 tree root (.clustered op) entry) (.clustered op) := by
  intro a b hagree htable
  have hroot := htable op.place.1 rfl
  have hnew (table : TableId) (key : Key) :
      (s.put op.place.1 tree root (.clustered op) entry).rows table key =
        if (table, key) = op.place then row else s.rows table key := by
    by_cases ht : table = op.place.1
    · subst ht
      by_cases hk : key = op.place.2
      · subst hk
        simp [Db.rows, Db.put, hsees]
      · have hne : (op.place.1, key) ≠ op.place := fun h => hk (congrArg Prod.snd h)
        simp [Db.rows, Db.put, hsees, hk, hne]
    · have hne : (table, key) ≠ op.place := fun h => ht (congrArg Prod.fst h)
      simp [Db.rows, Db.put, ht, hne]
  obtain ⟨ha, hb⟩ := hagree.rows op.place.1 hroot op.place.2
  rw [hnew, if_pos rfl] at ha hb
  obtain ⟨a', ha', haheap, harows, haroots, hatrees⟩ := @undoOne_clustered code rootOf true a op _
    hroot ((congrArg (op.undoRow true) ha).trans (hundo true))
  obtain ⟨b', hb', hbheap, hbrows, hbroots, hbtrees⟩ := @undoOne_clustered code rootOf false b op _
    (hagree.roots _ hroot) ((congrArg (op.undoRow false) hb).trans (hundo false))
  refine ⟨a', b', ha', hb', ⟨by rw [hbheap, haheap, hagree.heap], fun x => ?_, fun table h => ?_,
    fun table h key => ?_, fun table h => ?_⟩, haroots⟩
  · rw [haheap]
    exact hagree.live x
  · rw [Ne, haroots] at h
    rw [Ne, hbroots]
    exact hagree.roots table h
  · rw [Ne, haroots] at h
    obtain ⟨hra, hrb⟩ := hagree.rows table h key
    rw [hnew] at hra hrb
    rw [harows, hbrows, update_apply, update_apply]
    split at hra
    next heq =>
      rw [if_pos heq, if_pos heq, ← heq]
      exact ⟨rfl, rfl⟩
    next hne =>
      rw [if_neg hne] at hrb
      rw [if_neg hne, if_neg hne]
      exact ⟨hra, hrb⟩
  · rw [haroots] at h
    have hne : table ≠ op.place.1 := fun heq => hroot (heq ▸ h)
    rw [hbtrees table hne, hatrees table hne, hagree.trees table h]

/-- What the changes record. -/
structure Recorded (committed : TableId → Option PageId) (s : Db) : Prop where
  ops : s.entries.map Entry.op = s.undoOps
  roots : ∀ table, s.clusteredRoots table ≠ none → s.clusteredRoots table = some (s.roots table) ∧
    currentRoots committed s.entries table = some (s.roots table)
  tables : ∀ op ∈ s.undoOps, ∀ table, op.table = some table → s.clusteredRoots table ≠ none

variable {committed : TableId → Option PageId}

theorem Recorded.putHeap (hs : Recorded committed s) (op : Sessions.RecoveryOp) (heap : HeapSlots) :
    Recorded committed (s.putHeap op heap) := by
  refine ⟨by simp [Db.putHeap, hs.ops], fun table h => ?_, fun op' hop table htable => ?_⟩
  · simpa [Db.putHeap, currentRoots] using hs.roots table h
  rcases mem_append.mp hop with hop | hop
  · exact hs.tables op' hop table htable
  · rw [mem_singleton.mp hop] at htable
    cases htable

/-- The entry names the root, or the log has named it before. -/
theorem Recorded.put (hs : Recorded committed s) {table : TableId} {tree : Tree} {root : PageId}
    {undo : UndoOp} {entry : Entry} (htable : undo.table = some table) (hop : entry.op = undo)
    (hroot : entry.root = some (table, root) ∨
      entry.root = none ∧ currentRoots committed s.entries table = some root) :
    Recorded committed (s.put table tree root undo entry) := by
  have hnew (t : TableId) : currentRoots committed (s.entries ++ [entry]) t =
      if t = table then some root else currentRoots committed s.entries t := by
    rw [currentRoots, foldl_append]
    rcases hroot with hroot | ⟨hroot, hnamed⟩
    · simp only [foldl_cons, foldl_nil, hroot]
      exact update_apply ..
    simp only [foldl_cons, foldl_nil, hroot]
    split
    next heq => rw [heq]; exact hnamed
    next => rfl
  refine ⟨by simp [Db.put, hs.ops, hop], fun t ht => ?_, fun op' hop' t ht => ?_⟩
  · simp only [Db.put, update_apply, hnew] at ht ⊢
    split
    · exact ⟨rfl, rfl⟩
    next hne =>
      rw [if_neg hne] at ht
      exact hs.roots t ht
  simp only [Db.put, update_apply]
  split
  · simp
  next hne =>
    rcases mem_append.mp hop' with hop' | hop'
    · exact hs.tables op' hop' t ht
    · rw [mem_singleton.mp hop', htable] at ht
      exact absurd (some.inj ht).symm hne

/-- A change that is recoverable is recorded, and both undo it. -/
theorem step_undone {c : Nat} {ch : Change} (hs : Recorded committed s)
    (hok : Recoverable committed s ch) (h : step code rootOf c s ch = some s') :
    Recorded committed s' ∧ ∃ op, s'.undoOps = s.undoOps ++ [op] ∧ Undone code rootOf s s' op := by
  cases ch with
  | insert x data =>
    rw [step] at h
    split at h <;> cases h
    next hnone =>
      refine ⟨hs.putHeap .., _, rfl, undone_heap (fun y t _ hy => ⟨none, rfl, rfl, ?_⟩) fun y hy => ?_⟩
      · obtain rfl : y = x := by simpa [Sessions.RecoveryOp.touches] using hy
        rw [hnone]
      · have hne : y ≠ x := by simpa [RecoveryOp.touches] using hy
        exact update_of_ne hne ..
  | delete x | updateInPlace x _ =>
    obtain ⟨old, hold, rfl⟩ := map_eq_some_iff.mp h
    refine ⟨hs.putHeap .., _, rfl, undone_heap (fun y t ht hy => ?_) fun y hy => ?_⟩
    · obtain rfl : y = x := by simpa [Sessions.RecoveryOp.touches] using hy
      obtain ⟨t, rfl⟩ : ∃ u, t = some u := isSome_iff_exists.mp (by simpa using ht)
      exact ⟨_, rfl, rfl, by simp [hold]⟩
    · have hne : y ≠ x := by simpa [RecoveryOp.touches] using hy
      exact update_of_ne hne ..
  | truncate rootPageId =>
    cases h
    refine ⟨hs.putHeap .., _, rfl, undone_heap (fun y t ht hy => ⟨_, rfl, rfl, ?_⟩) fun y hy => ?_⟩
    · have hy : rootOf y.1 = rootPageId := by simpa [Sessions.RecoveryOp.touches] using hy
      rw [isSome_map, ht, if_pos hy, isSome_map]
    · have hy : rootOf y.1 ≠ rootPageId := by simpa [RecoveryOp.touches] using hy
      exact if_neg hy
  | clusteredInsert table key row =>
    simp only [step] at h
    split at h <;> cases h
    next hnone =>
      refine ⟨hs.put rfl rfl (.inl rfl), _, rfl, ?_⟩
      exact @undone_clustered code rootOf s (.insert table key) _ _ (some row) _ (code.write_sees ..)
        fun strict => by cases strict <;> exact congrArg some hnone.symm
  | clusteredUpdate table key row =>
    obtain ⟨old, hold, rfl⟩ := map_eq_some_iff.mp h
    refine ⟨hs.put rfl rfl (.inl rfl), _, rfl, ?_⟩
    exact @undone_clustered code rootOf s (.restore table key old) _ _ (some row) _ (code.write_sees ..)
      fun _ => congrArg some hold.symm
  | clusteredDeleteMark table key =>
    obtain ⟨old, hold, rfl⟩ := map_eq_some_iff.mp h
    refine ⟨hs.put rfl rfl (.inl rfl), _, rfl, ?_⟩
    exact @undone_clustered code rootOf s (.restore table key old) _ _ (some (stampRow old c)) _
      (code.patch_sees ..) fun _ => congrArg some hold.symm
  | clusteredDeleteMarkLightweight table key => exact hok.elim
  | clusteredFieldPatch table key header deltas =>
    obtain ⟨old, hold, h⟩ := bind_eq_some_iff.mp h
    obtain ⟨data, hdata, rfl⟩ := map_eq_some_iff.mp h
    obtain ⟨hlen, hfits, hframe⟩ := patchFields_frame hdata
    refine ⟨hs.put rfl rfl (.inr ⟨rfl, hok⟩), _, rfl, ?_⟩
    refine @undone_clustered code rootOf s
      (.fieldPatchRestore table key old.header (deltas.map (·.before old.data))) _ _
      (some ⟨header, data⟩) _ (code.patch_sees (s.trees table) (s.roots table) key ⟨header, data⟩)
      fun _ => ?_
    simp only [undoRow, patchFields_before hfits hlen hframe, map_some]
    exact congrArg some hold.symm

/-! ## Whole transactions -/

/-- From a state where both agree, both undo all that the transaction has recorded. -/
def AllUndone (code : TreeCode) (rootOf : Chains) (init s : Db) : Prop :=
  ∀ a b, Agree s a b →
    (∀ op ∈ s.undoOps, ∀ table, op.table = some table → a.roots table ≠ none) →
    ∃ a' b', undoAll code rootOf true s.undoOps.reverse a = some a' ∧
      undoAll code rootOf false s.undoOps.reverse b = some b' ∧ Agree init a' b' ∧
      ∀ table, a'.roots table = none ↔ a.roots table = none

/-- The last change is undone first. -/
theorem AllUndone.step {init : Db} {op : UndoOp} (hs : AllUndone code rootOf init s)
    (hop : s'.undoOps = s.undoOps ++ [op]) (h : Undone code rootOf s s' op) :
    AllUndone code rootOf init s' := by
  intro a b hagree htables
  rw [hop] at htables ⊢
  obtain ⟨a1, b1, ha1, hb1, hagree1, hroots1⟩ := h a b hagree (htables op (by simp))
  obtain ⟨a2, b2, ha2, hb2, hagree2, hroots2⟩ := hs a1 b1 hagree1 fun op' hop' table htable => by
    rw [Ne, hroots1]
    exact htables op' (by simp [hop']) table htable
  refine ⟨a2, b2, ?_, ?_, hagree2, fun table => (hroots2 table).trans (hroots1 table)⟩
  · rw [reverse_append, reverse_singleton, singleton_append, undoAll, ha1]
    exact ha2
  · rw [reverse_append, reverse_singleton, singleton_append, undoAll, hb1]
    exact hb2

/-- Where delete marks log the row, and fields are patched only where the log names the root of the
table, both succeed; recovery leaves the heap slots that rollback leaves, the same rows under all keys
of the tables that the transaction has changed, and the other tables as they are. -/
theorem recovery_equals_rollback {committed : TableId → Option PageId} {c : Nat} {heap : HeapSlots}
    {trees : TableId → Tree} {roots : TableId → PageId}
    (h : Reached (step code rootOf c) (Recoverable committed) (.begun heap trees roots) s) :
    ∃ a b, rollback code rootOf s = some a ∧ recover code rootOf committed s = some b ∧
      (∀ x, b.heap x = a.heap x) ∧
      ∀ table, if s.clusteredRoots table = none then b.trees table = a.trees table
        else ∃ r r', a.roots table = some r ∧ b.roots table = some r' ∧
          ∀ key, b.trees table r' key = a.trees table r key := by
  obtain ⟨hs, hundone⟩ := h.invariant
    (I := fun s => Recorded committed s ∧ AllUndone code rootOf (.begun heap trees roots) s)
    ⟨⟨rfl, fun _ h => absurd rfl h, by simp [Db.begun]⟩,
      fun a b hagree _ => ⟨a, b, rfl, rfl, hagree, fun _ => Iff.rfl⟩⟩
    fun hs hok hstep => by
      obtain ⟨hrecorded, op, hop, hundone⟩ := step_undone hs.1 hok hstep
      exact ⟨hrecorded, hs.2.step hop hundone⟩
  have hagree : Agree s ⟨s.heap, s.trees, s.clusteredRoots⟩
      ⟨s.heap, s.trees, currentRoots committed s.entries⟩ := by
    refine ⟨rfl, fun _ => rfl, fun table ht => ?_, fun table ht key => ?_, fun _ _ => rfl⟩
    · simp [(hs.roots table ht).2]
    · simp only [seen, (hs.roots table ht).1, (hs.roots table ht).2, bind_some]
      exact ⟨rfl, rfl⟩
  obtain ⟨a, b, ha, hb, hab, hroots⟩ := hundone _ _ hagree hs.tables
  refine ⟨a, b, ha, by rw [recover, hs.ops]; exact hb, fun x => by rw [hab.heap], fun table => ?_⟩
  have hknown : a.roots table = none ↔ s.clusteredRoots table = none := hroots table
  split
  next hnone => exact hab.trees table (hknown.mpr hnone)
  next hsome =>
    have hsome : a.roots table ≠ none := fun h => hsome (hknown.mp h)
    obtain ⟨r, hr⟩ := ne_none_iff_exists'.mp hsome
    obtain ⟨r', hr'⟩ := ne_none_iff_exists'.mp (hab.roots table hsome)
    refine ⟨r, r', hr, hr', fun key => ?_⟩
    obtain ⟨h₁, h₂⟩ := hab.rows table hsome key
    simp only [seen, hr, hr', bind_some] at h₁ h₂
    rw [h₁, h₂]

/-- Table 0 with one row, under root 10. -/
def oneRow : TableId → Tree :=
  update (fun _ _ _ => none) 0 (update (fun _ _ => none) 10
    (update (fun _ => none) [1] (some ⟨⟨1, 0, 3, 0⟩, [7, 8]⟩)))

/-- A delete mark with its image. -/
theorem recovery_equals_rollback_delete_mark :
    ∃ s a b, run (step splitCode id 2) free (.begun (fun _ => none) oneRow fun _ => 10)
        [.clusteredDeleteMark 0 [1]] = some s ∧ rollback splitCode id s = some a ∧
      recover splitCode id (fun _ => none) s = some b ∧ ∀ x, b.heap x = a.heap x := by
  have hreach : Reached (step splitCode id 2) (Recoverable fun _ => none)
      (.begun (fun _ => none) oneRow fun _ => 10) _ :=
    .step (e := Change.clusteredDeleteMark 0 [1]) .init trivial rfl
  obtain ⟨a, b, ha, hb, hheap, -⟩ := recovery_equals_rollback hreach
  exact ⟨_, a, b, rfl, ha, hb, hheap⟩

/-- After a lightweight delete mark, rollback leaves the row as it was, and recovery an empty one.
After a field patch alone, rollback restores the row, and recovery fails for want of a root. -/
theorem recovery_loses_row :
    (∃ s, Reached (step splitCode id 2) free (.begun (fun _ => none) oneRow fun _ => 10) s ∧
      (((rollback splitCode id s).any fun a => a.trees 0 10 [1] = some ⟨⟨1, 0, 3, 0⟩, [7, 8]⟩) &&
        (recover splitCode id (fun _ => none) s).any fun b =>
          b.trees 0 10 [1] = some ⟨⟨0, 0, 0, 0⟩, []⟩) = true) ∧
    ∃ s, Reached (step splitCode id 2) free (.begun (fun _ => none) oneRow fun _ => 10) s ∧
      (((rollback splitCode id s).any fun a => a.trees 0 10 [1] = some ⟨⟨1, 0, 3, 0⟩, [7, 8]⟩) &&
        (recover splitCode id (fun _ => none) s).isNone) = true :=
  ⟨Reached.exists_of_run (l := [.clusteredDeleteMarkLightweight 0 [1]]) (by decide +kernel),
    Reached.exists_of_run (l := [.clusteredFieldPatch 0 [1] ⟨1, 0, 4, 0⟩ [⟨0, [9]⟩]])
      (by decide +kernel)⟩

end AxiomDb.Wal.Crash
