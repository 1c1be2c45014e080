import AxiomDb.Lib.Runs
import AxiomDb.Heap.Page

/-!
# The transaction manager

`TxnManager` hands out transaction ids with an atomic counter, keeps the set of
active ids and the greatest committed id under one lock, and takes snapshots of
both. The steps are those of the locks: an id is drawn before the locked section
of `begin_with_isolation` puts it into the active set; `commit` logs its entry
before its locked section; in deferred mode the commit of a writing transaction
leaves the greatest committed id to the fsync pipeline (`take_commit_rx`,
`FsyncPipeline`), whose leader syncs for those that queued behind it.

The WAL is its last LSN and the LSN up to which a completed sync covers it; a
flush with a sync is one step. The durability policy is `Strict`.
-/

namespace AxiomDb.Txn

open Lib Heap Option

/-- Where a transaction is. -/
inductive Phase where
  | unused
  /-- `begin_with_isolation` has drawn the id, and not yet entered it. -/
  | drawn
  /-- In the active set; whether it has undo operations. -/
  | active (writes : Bool)
  /-- The Commit entry is appended. -/
  | logged (writes : Bool)
  | rolledBack
  /-- Committed, and its client told so. -/
  | committed
  /-- `commit` returned `Some`: the caller drives the pipeline. -/
  | deferred
  /-- `take_commit_rx` has read `wal_current_lsn`. -/
  | asked (commitLsn : Nat)
  /-- `acquire` found the LSN flushed. -/
  | expired
  /-- The leader, before its flush. -/
  | leading
  /-- The leader, after its sync. -/
  | flushed
  /-- The leader has read the LSN it takes for flushed. -/
  | measured (flushedLsn : Nat)
  /-- The leader has advanced `max_committed` to its own id. -/
  | releasing (flushedLsn : Nat)
  /-- The leader has woken its followers, and is to advance `max_committed` to their ids. -/
  | waking (ids : List Nat)
  | queued
  /-- The client was told that the commit failed. -/
  | failed
  deriving DecidableEq

namespace Phase

/-- In the active set. -/
def inSet : Phase → Bool
  | active _ | logged _ => true
  | _ => false

/-- Its locked section of `commit` is over. -/
def gone : Phase → Bool
  | unused | drawn | active _ | logged _ | rolledBack => false
  | _ => true

end Phase

/-- The snapshot frozen at BEGIN, and the ids committed before it. -/
structure Conn where
  snapshot : TransactionSnapshot
  before : List Nat

/-- The manager, its WAL and pipeline, and the transactions. `rows` are the creators of the
row versions in the heap; `commits` the transactions whose locked section of `commit` is
over; `snaps` the snapshots taken by `snapshot`, each with the commits that had failed. -/
structure TxnManager where
  deferredCommitMode : Bool
  nextTxnId : Nat
  maxCommitted : Nat
  activeSet : List Nat
  currentLsn : Nat
  syncedLsn : Nat
  /-- `FsyncPipeline::flushed_lsn`. -/
  flushedLsn : Nat
  leaderActive : Bool
  /-- LSN and id of each waiter. -/
  waiters : List (Nat × Nat)
  phase : Nat → Phase
  commitLsn : Nat → Nat
  conns : Nat → Option Conn
  rows : List Nat
  commits : List Nat
  failed : List Nat
  snaps : List (TransactionSnapshot × List Nat)

namespace TxnManager

/-- An opened manager, whose greatest committed id is known. -/
def opened (deferredCommitMode : Bool) (maxCommitted : Nat) (lsn : Nat) : TxnManager where
  deferredCommitMode := deferredCommitMode
  nextTxnId := maxCommitted + 1
  maxCommitted := maxCommitted
  activeSet := []
  currentLsn := lsn
  syncedLsn := lsn
  flushedLsn := lsn
  leaderActive := false
  waiters := []
  phase := fun _ => .unused
  commitLsn := fun _ => 0
  conns := fun _ => none
  rows := []
  commits := []
  failed := []
  snaps := []

section

variable (s : TxnManager)

def setPhase (c : Nat) (p : Phase) : TxnManager :=
  { s with phase := Function.update s.phase c p }

/-- `snapshot`. -/
def snapshot : TransactionSnapshot := ⟨s.maxCommitted + 1, 0, s.activeSet⟩

/-- The snapshot that `begin_with_isolation` freezes: the active set without the id itself. -/
def frozen (c : Nat) : TransactionSnapshot := ⟨s.maxCommitted + 1, c, s.activeSet⟩

/-- The waiters that a flush up to an LSN satisfies. -/
def satisfied (flushedLsn : Nat) : List Nat :=
  (s.waiters.filter fun w => w.1 ≤ flushedLsn).map Prod.snd

/-- The phases when several transactions move at once. -/
def setPhases (ids : List Nat) (p : Phase) : Nat → Phase :=
  fun d => if d ∈ ids then p else s.phase d

end

end TxnManager

inductive Event where
  | draw
  | register (c : Nat)
  | write (c : Nat)
  | logCommit (c : Nat)
  | commit (c : Nat)
  | rollback (c : Nat)
  | snapshot
  | ask (c : Nat)
  | acquire (c : Nat)
  | sync (c : Nat)
  | syncFails (c : Nat)
  | measure (c : Nat)
  | advance (c : Nat)
  | release (c : Nat)
  | advanceWoken (c : Nat)

open TxnManager in

/-- `FsyncPipeline::acquire` and `FsyncPipeline::release_ok` in `fsync_pipeline.rs`. -/
def step (s : TxnManager) : Event → Option TxnManager
  | .draw => some { s.setPhase s.nextTxnId .drawn with
      nextTxnId := s.nextTxnId + 1, currentLsn := s.currentLsn + 1 }
  | .register c =>
    match s.phase c with
    | .drawn => some { s.setPhase c (.active false) with
        activeSet := c :: s.activeSet
        conns := Function.update s.conns c (some ⟨s.frozen c, s.commits⟩) }
    | _ => none
  | .write c =>
    match s.phase c with
    | .active _ => some { s.setPhase c (.active true) with
        currentLsn := s.currentLsn + 1, rows := c :: s.rows }
    | _ => none
  | .logCommit c =>
    match s.phase c with
    | .active writes => some { s.setPhase c (.logged writes) with
        currentLsn := s.currentLsn + 1
        commitLsn := Function.update s.commitLsn c (s.currentLsn + 1) }
    | _ => none
  | .commit c =>
    match s.phase c with
    | .logged writes =>
      if writes && s.deferredCommitMode then
        some { s.setPhase c .deferred with
          activeSet := s.activeSet.filter (· ≠ c), commits := c :: s.commits }
      else
        some { s.setPhase c .committed with
          syncedLsn := if writes then s.currentLsn else s.syncedLsn
          maxCommitted := max s.maxCommitted c
          activeSet := s.activeSet.filter (· ≠ c), commits := c :: s.commits }
    | _ => none
  | .rollback c =>
    match s.phase c with
    | .active _ => some { s.setPhase c .rolledBack with
        currentLsn := s.currentLsn + 1
        rows := s.rows.filter (· ≠ c), activeSet := s.activeSet.filter (· ≠ c) }
    | _ => none
  | .snapshot => some { s with snaps := (s.snapshot, s.failed) :: s.snaps }
  | .ask c =>
    match s.phase c with
    | .deferred => some (s.setPhase c (.asked s.currentLsn))
    | _ => none
  | .acquire c =>
    match s.phase c with
    | .asked commitLsn =>
      if s.flushedLsn ≥ commitLsn then some (s.setPhase c .expired)
      else if s.leaderActive then
        some { s.setPhase c .queued with waiters := s.waiters ++ [(commitLsn, c)] }
      else some { s.setPhase c .leading with leaderActive := true }
    | _ => none
  | .sync c =>
    match s.phase c with
    | .leading => some { s.setPhase c .flushed with syncedLsn := s.currentLsn }
    | _ => none
  | .syncFails c =>
    match s.phase c with
    | .leading => some { s with
        phase := s.setPhases (c :: s.waiters.map Prod.snd) .failed
        failed := c :: s.waiters.map Prod.snd ++ s.failed
        leaderActive := false, waiters := [] }
    | _ => none
  | .measure c =>
    match s.phase c with
    | .flushed => some (s.setPhase c (.measured s.currentLsn))
    | _ => none
  | .advance c =>
    match s.phase c with
    | .measured flushedLsn => some { s.setPhase c (.releasing flushedLsn) with
        maxCommitted := max s.maxCommitted c }
    | .expired => some { s.setPhase c .committed with maxCommitted := max s.maxCommitted c }
    | _ => none
  | .release c =>
    match s.phase c with
    | .releasing flushedLsn => some { s with
        phase := Function.update (s.setPhases (s.satisfied flushedLsn) .committed) c
          (.waking (s.satisfied flushedLsn))
        flushedLsn := max s.flushedLsn flushedLsn
        leaderActive := false
        waiters := s.waiters.filter fun w => ¬w.1 ≤ flushedLsn }
    | _ => none
  | .advanceWoken c =>
    match s.phase c with
    | .waking ids => some { s.setPhase c .committed with
        maxCommitted := ids.foldl max s.maxCommitted }
    | _ => none

/-! ## What each step does -/

open TxnManager in
/-- The steps that are taken, each from the phase it is taken in. -/
inductive Move (s : TxnManager) : Event → TxnManager → Prop where
  | draw : Move s .draw { s.setPhase s.nextTxnId .drawn with
      nextTxnId := s.nextTxnId + 1, currentLsn := s.currentLsn + 1 }
  | register {c : Nat} (h : s.phase c = .drawn) :
    Move s (.register c) { s.setPhase c (.active false) with
      activeSet := c :: s.activeSet
      conns := Function.update s.conns c (some ⟨s.frozen c, s.commits⟩) }
  | write {c : Nat} {writes : Bool} (h : s.phase c = .active writes) :
    Move s (.write c) { s.setPhase c (.active true) with
      currentLsn := s.currentLsn + 1, rows := c :: s.rows }
  | logCommit {c : Nat} {writes : Bool} (h : s.phase c = .active writes) :
    Move s (.logCommit c) { s.setPhase c (.logged writes) with
      currentLsn := s.currentLsn + 1
      commitLsn := Function.update s.commitLsn c (s.currentLsn + 1) }
  | commitDeferred {c : Nat} (h : s.phase c = .logged true)
    (hmode : s.deferredCommitMode = true) :
    Move s (.commit c) { s.setPhase c .deferred with
      activeSet := s.activeSet.filter (· ≠ c), commits := c :: s.commits }
  | commit {c : Nat} {writes : Bool} (h : s.phase c = .logged writes)
    (hmode : (writes && s.deferredCommitMode) = false) :
    Move s (.commit c) { s.setPhase c .committed with
      syncedLsn := if writes then s.currentLsn else s.syncedLsn
      maxCommitted := max s.maxCommitted c
      activeSet := s.activeSet.filter (· ≠ c), commits := c :: s.commits }
  | rollback {c : Nat} {writes : Bool} (h : s.phase c = .active writes) :
    Move s (.rollback c) { s.setPhase c .rolledBack with
      currentLsn := s.currentLsn + 1
      rows := s.rows.filter (· ≠ c), activeSet := s.activeSet.filter (· ≠ c) }
  | snapshot : Move s .snapshot { s with snaps := (s.snapshot, s.failed) :: s.snaps }
  | ask {c : Nat} (h : s.phase c = .deferred) :
    Move s (.ask c) (s.setPhase c (.asked s.currentLsn))
  | expire {c : Nat} {commitLsn : Nat} (h : s.phase c = .asked commitLsn) :
    Move s (.acquire c) (s.setPhase c .expired)
  | queue {c : Nat} {commitLsn : Nat} (h : s.phase c = .asked commitLsn) :
    Move s (.acquire c) { s.setPhase c .queued with waiters := s.waiters ++ [(commitLsn, c)] }
  | lead {c : Nat} {commitLsn : Nat} (h : s.phase c = .asked commitLsn) :
    Move s (.acquire c) { s.setPhase c .leading with leaderActive := true }
  | sync {c : Nat} (h : s.phase c = .leading) :
    Move s (.sync c) { s.setPhase c .flushed with syncedLsn := s.currentLsn }
  | syncFails {c : Nat} (h : s.phase c = .leading) :
    Move s (.syncFails c) { s with
      phase := s.setPhases (c :: s.waiters.map Prod.snd) .failed
      failed := c :: s.waiters.map Prod.snd ++ s.failed
      leaderActive := false, waiters := [] }
  | measure {c : Nat} (h : s.phase c = .flushed) :
    Move s (.measure c) (s.setPhase c (.measured s.currentLsn))
  | advance {c : Nat} {flushedLsn : Nat} (h : s.phase c = .measured flushedLsn) :
    Move s (.advance c) { s.setPhase c (.releasing flushedLsn) with
      maxCommitted := max s.maxCommitted c }
  | advanceExpired {c : Nat} (h : s.phase c = .expired) :
    Move s (.advance c) { s.setPhase c .committed with maxCommitted := max s.maxCommitted c }
  | release {c : Nat} {flushedLsn : Nat} (h : s.phase c = .releasing flushedLsn) :
    Move s (.release c) { s with
      phase := Function.update (s.setPhases (s.satisfied flushedLsn) .committed) c
        (.waking (s.satisfied flushedLsn))
      flushedLsn := max s.flushedLsn flushedLsn
      leaderActive := false
      waiters := s.waiters.filter fun w => ¬w.1 ≤ flushedLsn }
  | advanceWoken {c : Nat} {ids : List Nat} (h : s.phase c = .waking ids) :
    Move s (.advanceWoken c) { s.setPhase c .committed with
      maxCommitted := ids.foldl max s.maxCommitted }

theorem Move.of_step {s s' : TxnManager} {e : Event} (h : step s e = some s') : Move s e s' := by
  cases e <;> simp only [step] at h
  case draw => exact some.inj h ▸ .draw
  case snapshot => exact some.inj h ▸ .snapshot
  case commit c =>
    split at h
    next writes hp =>
      split at h
      next hmode =>
        obtain ⟨rfl, hd⟩ := Bool.and_eq_true_iff.mp hmode
        exact some.inj h ▸ .commitDeferred hp hd
      next hmode => exact some.inj h ▸ .commit hp (by simpa using hmode)
    next => cases h
  case acquire c =>
    split at h
    next commitLsn hp =>
      split at h
      · exact some.inj h ▸ .expire hp
      split at h
      · exact some.inj h ▸ .queue hp
      · exact some.inj h ▸ .lead hp
    next => cases h
  case advance c =>
    split at h
    next hp => exact some.inj h ▸ .advance hp
    next hp => exact some.inj h ▸ .advanceExpired hp
    next => cases h
  all_goals
    split at h <;> cases h
    constructor
    assumption

end AxiomDb.Txn
