import AxiomDb.Heap.Page

/-!
# Lock queues

The granted and waiting requests of one lockable object: the record locks of a
page, or the locks of a table. One granted entry of a transaction covers a set of
slots of its page.
-/

namespace AxiomDb.Lock

open Heap List

/-- `LockMode` in `mode.rs`. -/
inductive LockMode where
  | intentionShared
  | intentionExclusive
  | shared
  | exclusive
  | autoIncrement
  deriving DecidableEq, Repr

/-- `CONFLICT_MATRIX[held][requested]`. -/
def conflicts : LockMode → LockMode → Bool
  | .intentionShared, requested => requested == .exclusive
  | .intentionExclusive, requested => requested == .shared || requested == .exclusive
  | .shared, requested =>
    requested == .intentionExclusive || requested == .exclusive || requested == .autoIncrement
  | .exclusive, _ => true
  | .autoIncrement, requested =>
    requested == .shared || requested == .exclusive || requested == .autoIncrement

theorem conflicts_comm (a b : LockMode) : conflicts a b = conflicts b a := by
  cases a <;> cases b <;> rfl

/-- The slots whose bit is set. -/
abbrev SlotBitmap := List Nat

/-- A request, granted or waiting. A table lock has no bitmap. -/
structure LockEntry where
  txnId : TxnId
  mode : LockMode
  bitmap : Option SlotBitmap
  deriving DecidableEq, Repr

namespace LockEntry

/-- The entry is of the transaction and the mode. -/
def isOf (txnId : TxnId) (mode : LockMode) (e : LockEntry) : Bool :=
  e.txnId == txnId && e.mode == mode

/-- The entry covers the slot; one without a bitmap, or for a request without a slot, covers all. -/
def covers (e : LockEntry) (slotId : Option Nat) : Bool :=
  match slotId, e.bitmap with
  | some slot, some bm => bm.contains slot
  | _, _ => true

/-- The entry keeps another transaction from the mode on the slot. -/
def blocks (txnId : TxnId) (mode : LockMode) (slotId : Option Nat) (e : LockEntry) : Bool :=
  e.txnId != txnId && conflicts e.mode mode && e.covers slotId

/-- `bm.set(slot_id)`. -/
def set (slotId : Nat) (e : LockEntry) : LockEntry :=
  { e with bitmap := e.bitmap.map (slotId :: ·) }

end LockEntry

/-- A request that waits; `aborted` is an `abort_reason` of `Deadlock`. -/
structure LockWaiter where
  entry : LockEntry
  aborted : Bool
  deriving DecidableEq, Repr

/-- The slot that a waiting request is checked for. -/
def LockWaiter.slotId (w : LockWaiter) : Option Nat := w.entry.bitmap.bind List.min?

/-- `LockQueue` in `entry.rs`. -/
structure LockQueue where
  granted : List LockEntry
  waiting : List LockWaiter
  deriving DecidableEq, Repr

/-- The first element with the property is changed. -/
def updateFirst {α : Type} (p : α → Bool) (f : α → α) : List α → List α
  | [] => []
  | a :: as => if p a then f a :: as else a :: updateFirst p f as

namespace LockQueue

/-- `LockQueue::new` in `entry.rs`. -/
def empty : LockQueue := ⟨[], []⟩

section

variable (q : LockQueue) (txnId : TxnId)

section

variable (mode : LockMode)

/-- `LockQueue::find_conflict` in `entry.rs`. -/
def findConflict (slotId : Option Nat) : Option TxnId :=
  (q.granted.find? (LockEntry.blocks txnId mode slotId)).map LockEntry.txnId

/-- `find_granted_idx` finds an entry. -/
def holds : Bool :=
  q.granted.any (LockEntry.isOf txnId mode)

/-- The entry that `find_granted_idx` finds gets the slot. -/
def extend (slotId : Nat) : LockQueue :=
  { q with granted := updateFirst (LockEntry.isOf txnId mode) (LockEntry.set slotId) q.granted }

/-- The shared entry of the transaction becomes exclusive and gets the slot. -/
def upgrade (slotId : Nat) : LockQueue :=
  { q with
    granted := updateFirst (LockEntry.isOf txnId .shared)
      (fun e => { e.set slotId with mode := .exclusive }) q.granted }

def grant (q : LockQueue) (e : LockEntry) : LockQueue := { q with granted := q.granted ++ [e] }

def enqueue (q : LockQueue) (e : LockEntry) : LockQueue :=
  { q with waiting := q.waiting ++ [⟨e, false⟩] }

/-- No granted entry blocks the request, and nobody waits. -/
def free (slotId : Option Nat) : Bool :=
  (q.findConflict txnId mode slotId).isNone && q.waiting.isEmpty

/-- The request is for an upgrade that succeeds. -/
def upgrades (slotId : Nat) : Bool :=
  mode == .exclusive && q.holds txnId .shared && q.free txnId mode (some slotId)

/-- `acquire_record_lock` and its synchronous variant under the mutex of the shard: granted, or
waiting for the transaction returned. -/
def acquireRecord (slotId : Nat) (mode : LockMode) : LockQueue × Option TxnId :=
  if q.holds txnId mode then (q.extend txnId mode slotId, none)
  else if q.upgrades txnId mode slotId then (q.upgrade txnId slotId, none)
  else
    let entry : LockEntry := ⟨txnId, mode, some [slotId]⟩
    if q.free txnId mode (some slotId) then (q.grant entry, none)
    else
      let q' := q.enqueue entry
      -- a holder, or else the first of those that wait
      (q', some ((q.findConflict txnId mode (some slotId)).getD
        ((q'.waiting.head?.map (·.entry.txnId)).getD 0)))

/-- `LockManager::try_acquire_record_lock_sync` in `manager.rs`. -/
def tryAcquireRecord (slotId : Nat) (mode : LockMode) : LockQueue × Bool :=
  if q.free txnId mode (some slotId) then
    (if q.holds txnId mode then q.extend txnId mode slotId else q.grant ⟨txnId, mode, some [slotId]⟩,
      true)
  else (q, false)

/-- `acquire_table_lock` and its synchronous variant: whether the lock is granted. -/
def acquireTable : LockQueue × Bool :=
  if q.holds txnId mode then (q, true)
  else if q.free txnId mode none then (q.grant ⟨txnId, mode, none⟩, true)
  else (q.enqueue ⟨txnId, mode, none⟩, false)

end

/-- The loop of `try_grant_waiters`: the granted entries, who still waits, and who has been
granted. -/
def grantFrom (granted : List LockEntry) :
    List LockWaiter → List LockEntry × List LockWaiter × List TxnId
  | [] => (granted, [], [])
  | w :: ws =>
    if ((LockQueue.mk granted []).findConflict w.entry.txnId w.entry.mode w.slotId).isSome then
      let r := grantFrom granted ws
      (r.1, w :: r.2.1, r.2.2)
    else
      let r := grantFrom (granted ++ [w.entry]) ws
      (r.1, r.2.1, w.entry.txnId :: r.2.2)

/-- The queue, and whose signals are returned. -/
def tryGrantWaiters (q : LockQueue) : LockQueue × List TxnId :=
  let r := grantFrom q.granted q.waiting
  (⟨r.1, r.2.1⟩, r.2.2)

/-- `LockQueue::remove_granted_by_txn` in `entry.rs`. -/
def removeGrantedByTxn : LockQueue :=
  { q with granted := q.granted.filter (·.txnId != txnId) }

/-- `LockQueue::remove_waiter_by_txn` in `entry.rs`. -/
def removeWaiterByTxn : LockQueue :=
  { q with waiting := q.waiting.eraseP (·.entry.txnId == txnId) }

/-- `abort_waiter`: whether there was a waiter to abort. -/
def abortWaiter : LockQueue × Bool :=
  ({ q with waiting := updateFirst (·.entry.txnId == txnId) (fun w => { w with aborted := true }) q.waiting },
    q.waiting.any (·.entry.txnId == txnId))

/-- A reference of `release_all_locks`. -/
def releaseRef : LockQueue × List TxnId :=
  (q.removeGrantedByTxn txnId).tryGrantWaiters

/-- The queue in `release_all_for_txn`: waiters are looked at only if an entry was removed. -/
def releaseTxn : LockQueue × List TxnId :=
  if q.granted.any (·.txnId == txnId) then q.releaseRef txnId else (q, [])

end

/-! ## What the operations do -/

variable {q : LockQueue} {txnId : TxnId} {mode : LockMode} {slotId : Option Nat} {α : Type}
  {p : α → Bool} {f : α → α} {l : List α}

theorem findConflict_eq_none : q.findConflict txnId mode slotId = none ↔
    ∀ e ∈ q.granted, e.txnId ≠ txnId → e.covers slotId → conflicts e.mode mode = false := by
  simp only [findConflict, Option.map_eq_none_iff, find?_eq_none, LockEntry.blocks]
  refine forall₂_congr fun e _ => ?_
  cases conflicts e.mode mode <;> cases e.covers slotId <;> simp

theorem mem_updateFirst {b : α}
    (h : b ∈ updateFirst p f l) : b ∈ l ∨ ∃ a, l.find? p = some a ∧ b = f a := by
  induction l with
  | nil => cases h
  | cons a as ih =>
    rw [updateFirst] at h
    cases hp : p a with
    | true =>
      rw [if_pos hp] at h
      rcases mem_cons.mp h with rfl | h
      · exact .inr ⟨a, by rw [find?_cons_of_pos hp], rfl⟩
      · exact .inl (mem_cons_of_mem _ h)
    | false =>
      rw [if_neg (by simp [hp])] at h
      rcases mem_cons.mp h with rfl | h
      · exact .inl mem_cons_self
      · rcases ih h with h | ⟨c, hc, rfl⟩
        · exact .inl (mem_cons_of_mem _ h)
        · exact .inr ⟨c, by rw [find?_cons_of_neg (by simp [hp]), hc], rfl⟩

theorem forall_updateFirst {P : α → Prop}
    (h : ∀ a ∈ l, P a) (hf : ∀ a, P a → P (f a)) : ∀ a ∈ updateFirst p f l, P a := by
  intro a ha
  rcases mem_updateFirst ha with ha | ⟨b, hb, rfl⟩
  · exact h a ha
  · exact hf b (h b (mem_of_find?_eq_some hb))

/-- What the loop leaves: each granted entry was granted or waited, and who waits did before. -/
theorem mem_grantFrom {granted : List LockEntry} {ws : List LockWaiter} :
    (∀ e ∈ (grantFrom granted ws).1, e ∈ granted ∨ ∃ w ∈ ws, w.entry = e) ∧
      (grantFrom granted ws).2.1.Sublist ws := by
  induction ws generalizing granted with
  | nil => exact ⟨fun e he => .inl he, .slnil⟩
  | cons w ws ih =>
    rw [grantFrom]
    split
    · obtain ⟨hg, hw⟩ := @ih granted
      refine ⟨fun e he => ?_, hw.cons_cons w⟩
      rcases hg e he with he | ⟨v, hv, h⟩
      · exact .inl he
      · exact .inr ⟨v, mem_cons_of_mem _ hv, h⟩
    obtain ⟨hg, hw⟩ := @ih (granted ++ [w.entry])
    refine ⟨fun e he => ?_, hw.cons w⟩
    rcases hg e he with he | ⟨v, hv, h⟩
    · rcases mem_append.mp he with he | he
      · exact .inl he
      · exact .inr ⟨w, mem_cons_self, (mem_singleton.mp he).symm⟩
    · exact .inr ⟨v, mem_cons_of_mem _ hv, h⟩

end LockQueue

end AxiomDb.Lock
