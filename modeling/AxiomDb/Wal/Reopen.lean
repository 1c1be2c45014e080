import AxiomDb.Lib.Runs
import AxiomDb.Wal.Log

/-!
# The committed horizon over checkpoints and restarts

The greatest committed id is kept in memory only. It is derived again, when the
log is opened, from the Commit entries after the last checkpoint
(`open_with_recovery`) or in the file (`open`, which a rotation has emptied), and
ids are handed out from there on. It comes back exactly if the newest id was
committed, after the last checkpoint.
-/

namespace AxiomDb.Wal.Reopen

open Lib Heap List Option

/-- A session, from the creation of the log on. `committed` records the ids committed. -/
structure Session where
  nextTxnId : Nat
  maxCommitted : Nat
  activeSet : List Nat
  nextLsn : Nat
  file : List (LogEntry Unit)
  /-- The checkpoint LSN in the meta page. -/
  checkpointLsn : Nat
  committed : List Nat

/-- `TxnManager::create`. -/
def create : Session := ⟨1, 0, [], 1, [], 0, []⟩

inductive Call where
  | begin
  | record (c : Nat)
  | commit (c : Nat)
  | rollback (c : Nat)
  | checkpoint
  | rotateWal
  deriving DecidableEq

namespace Session

def append (s : Session) (txnId : Nat) (kind : EntryKind Unit) : Session :=
  { s with file := s.file ++ [⟨s.nextLsn, txnId, kind⟩], nextLsn := s.nextLsn + 1 }

/-- `Checkpointer::checkpoint`: the entry, and its LSN in the meta page. -/
def checkpoint (s : Session) : Session :=
  { s.append 0 .checkpoint with checkpointLsn := s.nextLsn }

end Session

/-- The calls that succeed; a checkpoint needs that no transaction is active. -/
def step (s : Session) : Call → Option Session
  | .begin => some { s.append s.nextTxnId .begin with
      nextTxnId := s.nextTxnId + 1, activeSet := s.nextTxnId :: s.activeSet }
  | .record c => if c ∈ s.activeSet then some (s.append c (.op ())) else none
  | .commit c =>
    if c ∈ s.activeSet then some { s.append c .commit with
      maxCommitted := max s.maxCommitted c
      activeSet := s.activeSet.filter (· ≠ c)
      committed := c :: s.committed }
    else none
  | .rollback c =>
    if c ∈ s.activeSet then some { s.append c .rollback with
      activeSet := s.activeSet.filter (· ≠ c) }
    else none
  | .checkpoint => if s.activeSet = [] then some s.checkpoint else none
  | .rotateWal =>
    -- the file is emptied, and the writer continues after the checkpoint LSN
    if s.activeSet = [] then some { s.checkpoint with file := [], nextLsn := s.nextLsn + 1 } else none

/-- `max_committed` after `open_with_recovery`. -/
def recoveredMax (s : Session) : Nat := maxCommittedOf (scanForward s.file s.checkpointLsn)

/-- `max_committed` after `open`. -/
def openedMax (s : Session) : Nat := maxCommittedOf (scanForward s.file 0)

/-- `snapshot` of a manager. -/
def snapshotOf (maxCommitted : Nat) (active : List Nat) : TransactionSnapshot :=
  ⟨maxCommitted + 1, 0, active⟩

/-- A manager reopened with greatest committed id `m` is at or above every id committed,
hands out only ids above all that were used, and sees every row version that was seen. -/
structure KeepsHorizon (s : Session) (m : Nat) : Prop where
  committed : ∀ c ∈ s.committed, c ≤ m
  used : ∀ c < s.nextTxnId, c < m + 1
  visible : ∀ h : RowHeader, h.isVisible (snapshotOf s.maxCommitted s.activeSet) = true →
    h.isVisible (snapshotOf m []) = true

/-- How many ids were used, and whether the newest was committed and there was no
checkpoint since, after one more call. -/
def newestStep (a : Nat × Bool) : Call → Nat × Bool
  | .begin => (a.1 + 1, false)
  | .commit c => (a.1, a.2 || c == a.1)
  | .checkpoint | .rotateWal => (a.1, a.1 == 0)
  | .record _ | .rollback _ => a

/-- No id was used, or the newest was committed after the last checkpoint. -/
def newestCommitted (calls : List Call) : Bool := (calls.foldl newestStep (0, true)).2

/-- What the log says of the ids. -/
structure Logged (s : Session) (a : Nat × Bool) : Prop where
  next : s.nextTxnId = a.1 + 1
  active : ∀ c ∈ s.activeSet, c ≤ a.1
  max : s.maxCommitted ≤ a.1
  maxOf : ∀ c ∈ s.committed, c ≤ s.maxCommitted
  lsn : ∀ e ∈ s.file, e.lsn < s.nextLsn
  ids : ∀ e ∈ s.file, e.txnId ≤ a.1
  commits : ∀ e ∈ s.file, e.kind = .commit → e.txnId ∈ s.committed
  checkpoint : s.checkpointLsn < s.nextLsn
  newest : a.2 = true ↔ a.1 = 0 ∨
    ∃ e ∈ scanForward s.file s.checkpointLsn, e.kind = .commit ∧ e.txnId = a.1

variable {kind : EntryKind Unit} {txnId : Nat} {a : Nat × Bool} {s s' : Session}

/-- An entry that is appended is read by recovery. -/
theorem mem_scan_append (hs : Logged s a) {e : LogEntry Unit} :
    e ∈ scanForward (s.append txnId kind).file s.checkpointLsn ↔
      e ∈ scanForward s.file s.checkpointLsn ∨ e = ⟨s.nextLsn, txnId, kind⟩ := by
  have hlsn := hs.checkpoint
  simp only [scanForward, Session.append, filter_append, mem_append]
  rw [filter_cons_of_pos (by simp; omega)]
  simp

theorem Logged.append {b : Nat × Bool} (hs : Logged s a)
    (hfile : s'.file = (s.append txnId kind).file) (hlsn : s'.nextLsn = s.nextLsn + 1)
    (hcp : s'.checkpointLsn = s.checkpointLsn) (hnext : s'.nextTxnId = b.1 + 1) (hab : a.1 ≤ b.1)
    (htxn : txnId ≤ b.1) (hactive : ∀ c ∈ s'.activeSet, c ≤ b.1) (hmax : s'.maxCommitted ≤ b.1)
    (hmaxOf : ∀ c ∈ s'.committed, c ≤ s'.maxCommitted)
    (hcommits : ∀ c ∈ s.committed, c ∈ s'.committed)
    (hcommit : kind = .commit → txnId ∈ s'.committed)
    (hnewest : b.2 ↔ b.1 = 0 ∨ kind = .commit ∧ txnId = b.1 ∨ a.2 ∧ a.1 = b.1) : Logged s' b := by
  have hmem {e : LogEntry Unit} (he : e ∈ s'.file) : e ∈ s.file ∨ e = ⟨s.nextLsn, txnId, kind⟩ := by
    rw [hfile] at he
    exact (mem_append.mp he).imp id mem_singleton.mp
  refine ⟨hnext, hactive, hmax, hmaxOf, fun e he => ?_, fun e he => ?_, fun e he hk => ?_, ?_, ?_⟩
  · rw [hlsn]
    rcases hmem he with he | rfl
    · exact (hs.lsn e he).trans (Nat.lt_succ_self _)
    · exact Nat.lt_succ_self _
  · rcases hmem he with he | rfl
    · exact (hs.ids e he).trans hab
    · exact htxn
  · rcases hmem he with he | rfl
    · exact hcommits _ (hs.commits e he hk)
    · exact hcommit hk
  · rw [hcp, hlsn]
    exact hs.checkpoint.trans (Nat.lt_succ_self _)
  · rw [hnewest, hfile, hcp]
    simp only [mem_scan_append hs]
    constructor
    · rintro (h | ⟨hk, h⟩ | ⟨h, hb⟩)
      · exact .inl h
      · exact .inr ⟨_, .inr rfl, hk, h⟩
      · rcases hs.newest.mp h with h | ⟨e, he, hk, h⟩
        · exact .inl (hb ▸ h)
        · exact .inr ⟨e, .inl he, hk, h.trans hb⟩
    rintro (h | ⟨e, he | rfl, hk, h⟩)
    · exact .inl h
    · have hab : a.1 = b.1 := by
        have := hs.ids e (mem_of_mem_filter he)
        omega
      exact .inr (.inr ⟨hs.newest.mpr (.inr ⟨e, he, hk, h.trans hab.symm⟩), hab⟩)
    · exact .inr (.inl ⟨hk, h⟩)

/-- A checkpoint: what was logged is not read any more. -/
theorem Logged.checkpointed (hs : Logged s a) (hactive : s'.activeSet = s.activeSet)
    (hlsn : s'.nextLsn = s.nextLsn + 1) (hcp : s'.checkpointLsn = s.nextLsn)
    (hnext : s'.nextTxnId = s.nextTxnId) (hmax : s'.maxCommitted = s.maxCommitted)
    (hcommitted : s'.committed = s.committed)
    (hfile : ∀ e ∈ s'.file, e ∈ s.file ∨ e = ⟨s.nextLsn, 0, .checkpoint⟩) :
    Logged s' (a.1, a.1 == 0) := by
  refine ⟨hnext.trans hs.next, fun c hc => hs.active c (hactive ▸ hc), hmax ▸ hs.max,
    fun c hc => hmax ▸ hs.maxOf c (hcommitted ▸ hc), fun e he => ?_, fun e he => ?_,
    fun e he hk => ?_, ?_, ?_⟩
  · rw [hlsn]
    rcases hfile e he with he | rfl
    · exact (hs.lsn e he).trans (Nat.lt_succ_self _)
    · exact Nat.lt_succ_self _
  · rcases hfile e he with he | rfl
    · exact hs.ids e he
    · exact Nat.zero_le _
  · rcases hfile e he with he | rfl
    · exact hcommitted ▸ hs.commits e he hk
    · cases hk
  · rw [hcp, hlsn]
    exact Nat.lt_succ_self _
  · constructor
    · exact fun h => .inl (by simpa using h)
    rintro (h | ⟨e, he, hk, -⟩)
    · simpa using h
    obtain ⟨he, hge⟩ := mem_filter.mp he
    rcases hfile e he with he | rfl
    · have := hs.lsn e he
      rw [hcp] at hge
      simp at hge
      omega
    · cases hk

theorem logged_step {call : Call} (hs : Logged s a) (h : step s call = some s') :
    Logged s' (newestStep a call) := by
  have hnext := hs.next
  have hfilter (c : Nat) : ∀ d ∈ s.activeSet.filter (· ≠ c), d ≤ a.1 := fun d hd =>
    hs.active d (mem_filter.mp hd).1
  cases call <;> simp only [step] at h
  case begin =>
    obtain rfl := some.inj h
    refine hs.append rfl rfl rfl (by simp [newestStep, hnext]) (Nat.le_succ _) hnext.le ?_
      (hs.max.trans (Nat.le_succ _)) hs.maxOf (fun _ => id) (by simp) ?_
    · rintro c (_ | ⟨_, hc⟩)
      · exact hnext.le
      · exact (hs.active c hc).trans (Nat.le_succ _)
    · simp [newestStep]
  case record c =>
    split at h <;> cases h
    next hc =>
      exact hs.append rfl rfl rfl hnext le_rfl (hs.active c hc) hs.active hs.max hs.maxOf
        (fun _ => id) (by simp) (by simp [newestStep, hs.newest])
  case commit c =>
    split at h <;> cases h
    next hc =>
      refine hs.append rfl rfl rfl hnext le_rfl (hs.active c hc) (hfilter c)
        (max_le hs.max (hs.active c hc)) ?_ (fun _ => mem_cons_of_mem _)
        (fun _ => mem_cons_self) ?_
      · rintro d (_ | ⟨_, hd⟩)
        · exact le_max_right _ _
        · exact (hs.maxOf d hd).trans (le_max_left _ _)
      simp only [newestStep, Bool.or_eq_true, beq_iff_eq, true_and, and_true]
      constructor
      · rintro (h | h)
        · exact .inr (.inr h)
        · exact .inr (.inl h)
      rintro (h | h | h)
      · exact .inl (hs.newest.mpr (.inl h))
      · exact .inr h
      · exact .inl h
  case rollback c =>
    split at h <;> cases h
    next hc =>
      exact hs.append rfl rfl rfl hnext le_rfl (hs.active c hc) (hfilter c) hs.max hs.maxOf
        (fun _ => id) (by simp) (by simp [newestStep, hs.newest])
  case checkpoint =>
    split at h <;> cases h
    exact hs.checkpointed rfl rfl rfl rfl rfl rfl fun e he =>
      (mem_append.mp he).imp id mem_singleton.mp
  case rotateWal =>
    split at h <;> cases h
    exact hs.checkpointed rfl rfl rfl rfl rfl rfl (by simp)

theorem logged_run {calls : List Call} (hs : Logged s a) (h : run step free s calls = some s') :
    Logged s' (calls.foldl newestStep a) := by
  induction calls generalizing s a with
  | nil => exact some.inj h ▸ hs
  | cons call calls ih =>
    rw [run, if_pos (show free s call from trivial)] at h
    obtain ⟨t, ht, hrun⟩ := bind_eq_some_iff.mp h
    exact ih (logged_step hs ht) hrun

/-! ## Histories -/

/-- After any calls and a clean close, both ways of opening the log restore the horizon
exactly if no id was used, or the newest was committed after the last checkpoint. -/
theorem horizon_restored_iff (calls : List Call) (s : Session)
    (h : run step free create calls = some s) (hclosed : s.activeSet = []) :
    KeepsHorizon s (recoveredMax s) ∧ KeepsHorizon s (openedMax s) ↔
      newestCommitted calls = true := by
  have hinit : Logged create (0, true) := by constructor <;> simp [create]
  have hlogged := logged_run hinit h
  obtain ⟨hnext, -, hmax, hmaxOf, -, hids, hcommits, -, hnewest⟩ := hlogged
  rw [newestCommitted, hnewest]
  generalize (calls.foldl newestStep (0, true)).1 = n at *
  -- no id above the newest is in the log
  have hle {entries : List (LogEntry Unit)} (hsub : ∀ e ∈ entries, e ∈ s.file) :
      maxCommittedOf entries ≤ n := by
    rcases maxCommittedOf_mem entries with h | ⟨e, he, -, h⟩
    · omega
    · exact h ▸ hids e (hsub e he)
  have hscan (lsn : Nat) : ∀ e ∈ scanForward s.file lsn, e ∈ s.file := fun e he =>
    (mem_filter.mp he).1
  constructor
  · rintro ⟨hrec, -⟩
    have hn := hrec.used n (by omega)
    rcases maxCommittedOf_mem (scanForward s.file s.checkpointLsn) with h | ⟨e, he, hk, h⟩
    · left
      change n < recoveredMax s + 1 at hn
      rw [recoveredMax, h] at hn
      omega
    · have hn' := hle (hscan s.checkpointLsn)
      rw [recoveredMax] at hn
      exact .inr ⟨e, he, hk, by omega⟩
  intro hcond
  -- the newest id is the greatest committed one, and is found again
  have hkeeps {m : Nat} (hm : m ≤ n) (hn : n ≤ m) (hmc : n ≤ s.maxCommitted) : KeepsHorizon s m := by
    obtain rfl : m = n := by omega
    obtain hmc : s.maxCommitted = m := by omega
    refine ⟨fun c hc => (hmaxOf c hc).trans hmax, fun c hc => by omega, fun r hr => ?_⟩
    rwa [hmc, hclosed] at hr
  rcases hcond with rfl | ⟨e, he, hk, rfl⟩
  · exact ⟨hkeeps (hle (hscan _)) (Nat.zero_le _) (Nat.zero_le _),
      hkeeps (hle (hscan _)) (Nat.zero_le _) (Nat.zero_le _)⟩
  have hfile := hscan _ e he
  have hmc := hmaxOf _ (hcommits e hfile hk)
  have hall : e ∈ scanForward s.file 0 := mem_filter.mpr ⟨hfile, by simp⟩
  exact ⟨hkeeps (hle (hscan _)) (le_maxCommittedOf he hk) hmc,
    hkeeps (hle (hscan _)) (le_maxCommittedOf hall hk) hmc⟩

/-- A transaction, a checkpoint, and another transaction. -/
theorem horizon_restored_iff_two : ∃ s,
    run step free create [.begin, .commit 1, .checkpoint, .begin, .record 2, .commit 2] = some s ∧
    s.activeSet = [] ∧ KeepsHorizon s (recoveredMax s) ∧ KeepsHorizon s (openedMax s) :=
  ⟨_, rfl, rfl, (horizon_restored_iff
    [.begin, .commit 1, .checkpoint, .begin, .record 2, .commit 2] _ rfl rfl).mpr rfl⟩

/-- A transaction commits, then a checkpoint, with or without a rotation, and a clean close:
recovery finds no commit, and the row is not seen any more. After a rotation neither
way of opening the log finds it. A rollback alone makes its id be handed out again. -/
theorem horizon_lost :
    (∃ s, run step free create [.begin, .record 1, .commit 1, .checkpoint] = some s ∧
      s.committed = [1] ∧ recoveredMax s = 0 ∧
      RowHeader.isVisible ⟨1, 0, 0, 0⟩ (snapshotOf s.maxCommitted s.activeSet) = true ∧
      RowHeader.isVisible ⟨1, 0, 0, 0⟩ (snapshotOf (recoveredMax s) []) = false) ∧
    (∃ s, run step free create [.begin, .record 1, .commit 1, .rotateWal] = some s ∧
      s.committed = [1] ∧ recoveredMax s = 0 ∧ openedMax s = 0) ∧
    ∃ s, run step free create [.begin, .rollback 1] = some s ∧
      s.nextTxnId = 2 ∧ recoveredMax s + 1 = 1 ∧ openedMax s + 1 = 1 :=
  ⟨⟨_, rfl, rfl, rfl, rfl, rfl⟩, ⟨_, rfl, rfl, rfl, rfl⟩, _, rfl, rfl, rfl, rfl⟩

end AxiomDb.Wal.Reopen
