import AxiomDb.Lib.Runs
import AxiomDb.Lock.Queue

/-!
# The lock manager

Transactions that acquire and release locks, interleaved at the sections that run
under one mutex: that of a shard of queues, or that of the wait-for map. A call
that must wait is queued, enters the wait-for map and looks for a cycle there,
aborts the victim that it chooses in one, and then waits to be signalled, until a
timeout.

Each transaction makes one call at a time.
-/

namespace AxiomDb.Lock

open Lib Heap Function

def RECORD_SHARDS : Nat := 64
def TABLE_SHARDS : Nat := 16

/-- What a queue is for. -/
inductive LockObject where
  | page (pageId : PageId)
  | table (tableId : Nat)
  deriving DecidableEq, Repr

/-- The shard of the queue; those of the tables come after those of the pages. -/
def LockObject.shard : LockObject → Nat
  | page pageId => pageId % RECORD_SHARDS
  | table tableId => RECORD_SHARDS + tableId % TABLE_SHARDS

/-- `LockRef` in `txn_locks.rs`. -/
inductive LockRef where
  | record (pageId : PageId) (slotId : Nat)
  | table (tableId : Nat)
  deriving DecidableEq, Repr

def LockRef.object : LockRef → LockObject
  | record pageId _ => .page pageId
  | table tableId => .table tableId

/-! ## Cycles of the wait-for map -/

/-- `WaitEdge` in `deadlock.rs`. -/
structure WaitEdge where
  blockingTxn : TxnId
  lockRef : LockRef
  deriving DecidableEq, Repr

abbrev WaitForMap := TxnId → Option WaitEdge

/-- The first loop of `detect_cycle`, for so many turns at most: where hare and tortoise meet, or
`some none` where the code returns `None`. -/
def findMeeting (waitFor : WaitForMap) (start : TxnId) :
    Nat → (tortoise hare : TxnId) → (power lambda : Nat) → Option (Option TxnId)
  | 0, _, _, _, _ => none
  | fuel + 1, tortoise, hare, power, lambda =>
    match waitFor hare with
    | none => some none
    | some edge =>
      if edge.blockingTxn = tortoise then some (some edge.blockingTxn)
      else if (waitFor edge.blockingTxn).isNone ∧ edge.blockingTxn ≠ start then some none
      else if lambda + 1 = power then
        if 2 * power > 2 ^ 20 then some none
        else findMeeting waitFor start fuel edge.blockingTxn edge.blockingTxn (2 * power) 0
      else findMeeting waitFor start fuel tortoise edge.blockingTxn power (lambda + 1)

/-- The second loop: the members, from the meeting point on. -/
def collectCycle (waitFor : WaitForMap) (hare : TxnId) :
    Nat → (current : TxnId) → (cycle : List TxnId) → Option (Option (List TxnId))
  | 0, _, _ => none
  | fuel + 1, current, cycle =>
    match waitFor current with
    | none => some none
    | some edge =>
      if edge.blockingTxn = hare then some (some (cycle ++ [current]))
      else if (cycle ++ [current]).length > 10000 then some none
      else collectCycle waitFor hare fuel edge.blockingTxn (cycle ++ [current])

/-- `detect_cycle`, with its loops for `2 ^ 21` and 10001 turns at most: `none` if one of them does
not end by itself, which `detectCycleLoops_isSome` excludes. -/
def detectCycleLoops (start : TxnId) (waitFor : WaitForMap) : Option (Option (List TxnId)) :=
  match findMeeting waitFor start (2 ^ 21) start start 1 0 with
  | none => none
  | some none => some none
  | some (some hare) => collectCycle waitFor hare 10001 hare []

/-- `detect_cycle` in `deadlock.rs`. -/
def detectCycle (start : TxnId) (waitFor : WaitForMap) : Option (List TxnId) :=
  (detectCycleLoops start waitFor).join

/-- The waiter with the least wait, and of these the newest. No call sets an undo count, so that the
score is the time that the waiter has waited. -/
def selectVictim (cycle : List TxnId) (waitMs : TxnId → Nat) : TxnId :=
  (cycle.foldl (fun best txnId =>
    let score := min (waitMs txnId) (2 ^ 64 - 1)
    if score < best.2 ∨ score = best.2 ∧ txnId > best.1 then (txnId, score) else best)
    (cycle.headD 0, 2 ^ 64 - 1)).1

/-! ## Calls -/

/-- `LockResult` in `manager.rs`. -/
inductive Outcome where
  | granted
  | waitGranted
  | deadlockDetected
  | lockTimeout
  deriving DecidableEq, Repr

/-- Where the call of a transaction is. -/
inductive Phase where
  | idle
  /-- In the queue; `blocker` is for the wait-for map. -/
  | queued (ref : LockRef) (mode : LockMode) (nowait : Bool) (blocker : TxnId)
  /-- A victim was chosen. -/
  | aborting (ref : LockRef) (mode : LockMode) (victim : TxnId) (victimRef : Option LockRef)
  /-- The victim itself leaves the queue. -/
  | removing (ref : LockRef)
  | waiting (ref : LockRef) (mode : LockMode)
  /-- Only the entry of the wait-for map is left. -/
  | leaving (outcome : Outcome)
  /-- `release_all_for_txn` has gone through the first shards. -/
  | releasing (shards : Nat)
  /-- `release_all_for_txn` was the last call. -/
  | released
  deriving DecidableEq, Repr

/-- The queue that the call may be waiting in. -/
def Phase.object : Phase → Option LockObject
  | queued ref _ _ _ | aborting ref _ _ _ | removing ref | waiting ref _ => some ref.object
  | idle | leaving _ | releasing _ | released => none

/-- No call is running. -/
def Phase.atRest : Phase → Bool
  | idle | released => true
  | _ => false

/-- `LockManager` in `manager.rs`. -/
structure State where
  queues : LockObject → LockQueue
  waitFor : WaitForMap
  phase : TxnId → Phase
  /-- The signal of the waiter has been given. -/
  signalled : TxnId → Bool
  /-- What the last call returned. -/
  outcome : TxnId → Option Outcome
  /-- Whose call, the one that runs or the last, a detection has chosen to fail. -/
  victims : List TxnId

inductive Event where
  | acquireRecord (t : TxnId) (pageId : PageId) (slotId : Nat) (mode : LockMode) (nowait : Bool)
  | tryAcquireRecord (t : TxnId) (pageId : PageId) (slotId : Nat) (mode : LockMode)
  | acquireTable (t : TxnId) (tableId : Nat) (mode : LockMode)
  /-- A `NOWAIT` request leaves the queue. -/
  | giveUp (t : TxnId)
  /-- The clock tells how long each transaction has waited. -/
  | detect (t : TxnId) (waitMs : TxnId → Nat)
  | abort (t : TxnId)
  | remove (t : TxnId)
  | wake (t : TxnId)
  | timeout (t : TxnId)
  | cleanUp (t : TxnId)
  /-- One reference of `release_all_locks`. -/
  | releaseLock (t : TxnId) (ref : LockRef)
  | releaseAll (t : TxnId)
  /-- The next shard of `release_all_for_txn`. -/
  | releaseShard (t : TxnId)
  /-- A call of `abort_waiter` from outside. -/
  | abortWaiter (t : TxnId) (ref : LockRef)

namespace State

/-- `LockManager::new` in `manager.rs`. -/
def init : State := ⟨fun _ => .empty, fun _ => none, fun _ => .idle, fun _ => false, fun _ => none, []⟩

variable (s : State) (t : TxnId)

def setPhase (p : Phase) : State :=
  { s with phase := update s.phase t p }

/-- A call that may be chosen begins. -/
def begins : State :=
  { s with outcome := update s.outcome t none, victims := s.victims.filter (· != t) }

/-- The call returns. -/
def returns (o : Outcome) : State :=
  { s with phase := update s.phase t .idle, outcome := update s.outcome t (some o) }

def setQueue (s : State) (o : LockObject) (q : LockQueue) : State :=
  { s with queues := update s.queues o q }

/-- The waiter of the transaction leaves the queue. -/
def dropWaiter (o : LockObject) : State :=
  s.setQueue o ((s.queues o).removeWaiterByTxn t)

/-- The call waits in the queue, with a signal of its own. -/
def wait (p : Phase) : State :=
  { s.setPhase t p with signalled := update s.signalled t false }

/-- Queues are changed under one mutex, and the waiters that are granted there are signalled. -/
def release (s : State) (p : LockObject → Bool) (f : LockQueue → LockQueue × List TxnId) : State :=
  { s with
    queues := fun o => if p o then (f (s.queues o)).1 else s.queues o
    signalled := fun u => s.signalled u ||
      (s.phase u).object.any fun o => p o && (f (s.queues o)).2.contains u }

def abortWaiterAt (o : LockObject) : State :=
  { s.setQueue o ((s.queues o).abortWaiter t).1 with
    signalled := update s.signalled t
      (s.signalled t || (((s.queues o).abortWaiter t).2 && (s.phase t).object == some o)) }

/-- What a call that has been woken finds in the queue. -/
def wakeOutcome (o : LockObject) (mode : LockMode) : Outcome :=
  if (s.queues o).holds t mode then .waitGranted
  else if (s.queues o).waiting.any fun w => w.entry.txnId == t && w.aborted then .deadlockDetected
  else .waitGranted

end State

/-- One section. -/
def step (s : State) : Event → Option State
  | .acquireRecord t pageId slotId mode nowait =>
    if (s.phase t).atRest then
      let r := (s.queues (.page pageId)).acquireRecord t slotId mode
      let s := (s.setQueue (.page pageId) r.1).begins t
      match r.2 with
      | none => some (s.returns t .granted)
      | some blocker => some (s.wait t (.queued (.record pageId slotId) mode nowait blocker))
    else none
  | .tryAcquireRecord t pageId slotId mode =>
    if (s.phase t).atRest then
      let r := (s.queues (.page pageId)).tryAcquireRecord t slotId mode
      if r.2 then some ((s.setQueue (.page pageId) r.1).returns t .granted) else some s
    else none
  | .acquireTable t tableId mode =>
    if (s.phase t).atRest then
      let r := (s.queues (.table tableId)).acquireTable t mode
      let s := s.setQueue (.table tableId) r.1
      if r.2 then some (s.returns t .granted) else some (s.wait t (.waiting (.table tableId) mode))
    else none
  | .giveUp t =>
    match s.phase t with
    | .queued ref _ true _ => some ((s.dropWaiter t ref.object).returns t .lockTimeout)
    | _ => none
  | .detect t waitMs =>
    match s.phase t with
    | .queued ref mode false blocker =>
      let waitFor := update s.waitFor t (some ⟨blocker, ref⟩)
      match detectCycle t waitFor with
      | none => some { s.setPhase t (.waiting ref mode) with waitFor }
      | some cycle =>
        let victim := selectVictim cycle waitMs
        some { s.setPhase t (.aborting ref mode victim ((waitFor victim).map WaitEdge.lockRef)) with
          waitFor := update waitFor victim none
          victims := victim :: s.victims }
    | _ => none
  | .abort t =>
    match s.phase t with
    | .aborting ref mode victim victimRef =>
      let s := match victimRef with
        | some r => s.abortWaiterAt victim r.object
        | none => s
      some (s.setPhase t (if victim = t then .removing ref else .waiting ref mode))
    | _ => none
  | .remove t =>
    match s.phase t with
    | .removing ref => some ((s.dropWaiter t ref.object).returns t .deadlockDetected)
    | _ => none
  | .wake t =>
    match s.phase t with
    | .waiting ref mode =>
      if s.signalled t then
        match ref with
        | .record _ _ => some (s.setPhase t (.leaving (s.wakeOutcome t ref.object mode)))
        | .table _ => some (s.returns t .waitGranted)
      else none
    | _ => none
  | .timeout t =>
    match s.phase t with
    | .waiting ref _ =>
      match ref with
      | .record _ _ => some ((s.dropWaiter t ref.object).setPhase t (.leaving .lockTimeout))
      | .table _ => some ((s.dropWaiter t ref.object).returns t .lockTimeout)
    | _ => none
  | .cleanUp t =>
    match s.phase t with
    | .leaving o => some { s.returns t o with waitFor := update s.waitFor t none }
    | _ => none
  | .releaseLock t ref =>
    if (s.phase t).atRest then some (s.release (· == ref.object) (·.releaseRef t)) else none
  | .releaseAll t => if (s.phase t).atRest then some (s.setPhase t (.releasing 0)) else none
  | .releaseShard t =>
    match s.phase t with
    | .releasing n =>
      if n < RECORD_SHARDS + TABLE_SHARDS then
        some ((s.release (·.shard == n) (·.releaseTxn t)).setPhase t (.releasing (n + 1)))
      else some { s.setPhase t .released with waitFor := update s.waitFor t none }
    | _ => none
  | .abortWaiter t ref => some (s.abortWaiterAt t ref.object)

end AxiomDb.Lock
