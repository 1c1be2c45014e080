import AxiomDb.Lib.Runs

/-!
# The concurrent WAL writer

`ConcurrentWalWriter` hands out log sequence numbers (LSNs) with an atomic
counter, collects entries in a queue under one mutex, and writes them under
another. Its steps are as atomic as the two mutexes make them: threads are
interrupted between reserving LSNs and enqueueing the entries, between draining
the queue and writing what was drained, and between writing and syncing.
`flush_and_sync` drains while it holds the writer mutex; `flush_no_sync` drains
before it takes it.

The file is the list of its entries. A write that fails writes nothing, and
what was drained for it is dropped.
-/

namespace AxiomDb.Wal

open Lib List

variable {τ β : Type}

/-- An entry with the LSN it is stamped with. -/
structure Entry (β : Type) where
  lsn : Nat
  body : β
  deriving DecidableEq, Repr

/-- `base_lsn`, and the entries serialized together. -/
abbrev Batch (β : Type) := Nat × List (Entry β)

/-- Entries with consecutive LSNs. -/
def stamp : Nat → List β → List (Entry β)
  | _, [] => []
  | lsn, body :: bodies => ⟨lsn, body⟩ :: stamp (lsn + 1) bodies

/-- `WriteQueue::drain_sorted`: what was queued, by base LSN. -/
def drainSorted (queue : List (Batch β)) : List (Batch β) :=
  queue.insertionSort fun p q => p.1 ≤ q.1

/-- The entries of batches, in file order. -/
def entriesOf (batches : List (Batch β)) : List (Entry β) := batches.flatMap Prod.snd

/-- Where a thread is in a call. -/
inductive Phase (β : Type) where
  | idle
  /-- `append` or `write_batch`: LSNs reserved, entries not enqueued. -/
  | reserved (base : Nat) (entries : List (Entry β))
  /-- `flush_and_sync`: the writer mutex taken. -/
  | leading
  | drained (batches : List (Batch β))
  | written (batches : List (Batch β))
  /-- Synced; what is left is to advance `flushed_lsn` and return `Ok`. -/
  | synced (batches : List (Batch β))
  /-- `flush_no_sync`: drained, the writer mutex not taken. -/
  | noSyncDrained (batches : List (Batch β))
  | noSyncWritten (batches : List (Batch β))
  deriving DecidableEq

namespace Phase

/-- The thread holds the writer mutex. -/
def locked : Phase β → Bool
  | leading | drained _ | written _ | synced _ | noSyncWritten _ => true
  | _ => false

/-- Entries stamped and not enqueued. -/
def held : Phase β → List (Entry β)
  | reserved _ entries => entries
  | _ => []

/-- Entries drained and not written. -/
def hands : Phase β → List (Entry β)
  | drained batches | noSyncDrained batches => entriesOf batches
  | _ => []

/-- What the flush of the thread has drained. -/
def batches : Phase β → List (Batch β)
  | drained batches | written batches | synced batches | noSyncDrained batches
  | noSyncWritten batches => batches
  | _ => []

end Phase

/-- The writer, its file and its threads. `assigned` and `enqueued` record what the
threads did: every entry stamped, and the entries each thread has enqueued. -/
structure WalWriter (τ β : Type) where
  startLsn : Nat
  nextLsn : Nat
  flushedLsn : Nat
  queue : List (Batch β)
  /-- Who holds the writer mutex. -/
  holder : Option τ
  file : List (Entry β)
  /-- How many entries of the file a completed sync covers. -/
  syncedLen : Nat
  phase : τ → Phase β
  assigned : List (Entry β)
  enqueued : τ → List (Entry β)

/-- `scan_valid_tail`: the LSN of the last entry of the file. -/
def scanValidTail (file : List (Entry β)) : Nat := (file.getLast?.map Entry.lsn).getD 0

namespace WalWriter

/-- `ConcurrentWalWriter::open` on a file that is on disk; `create` is `open` on an
empty file. -/
def openFile (startLsn : Nat) (file : List (Entry β)) : WalWriter τ β where
  startLsn := startLsn
  nextLsn := max (scanValidTail file) startLsn + 1
  flushedLsn := scanValidTail file
  queue := []
  holder := none
  file := file
  syncedLen := file.length
  phase := fun _ => .idle
  assigned := []
  enqueued := fun _ => []

/-- The entries a completed sync covers. -/
def covered (s : WalWriter τ β) : List (Entry β) := s.file.take s.syncedLen

/-- `flushed_lsn.fetch_max` with the last base LSN. -/
def advance (flushed : Nat) (batches : List (Batch β)) : Nat :=
  match batches.getLast? with
  | some b => max flushed b.1
  | none => flushed

variable [DecidableEq τ]

def setPhase (s : WalWriter τ β) (t : τ) (p : Phase β) : WalWriter τ β :=
  { s with phase := Function.update s.phase t p }

theorem setPhase_phase (s : WalWriter τ β) (t u : τ) (p : Phase β) :
    (s.setPhase t p).phase u = if u = t then p else s.phase u := Function.update_apply ..

variable (s : WalWriter τ β) (t : τ) (base : Nat) (entries : List (Entry β))

/-- `enqueue`; an empty batch is not queued. -/
def enqueue : WalWriter τ β :=
  if entries.isEmpty then s
  else { s with
    queue := s.queue ++ [(base, entries)]
    enqueued := Function.update s.enqueued t (s.enqueued t ++ entries) }

theorem enqueue_fields :
    (s.enqueue t base entries).phase = s.phase ∧ (s.enqueue t base entries).holder = s.holder ∧
    (s.enqueue t base entries).file = s.file ∧ (s.enqueue t base entries).syncedLen = s.syncedLen ∧
    (s.enqueue t base entries).nextLsn = s.nextLsn ∧
    (s.enqueue t base entries).flushedLsn = s.flushedLsn ∧
    (s.enqueue t base entries).assigned = s.assigned := by
  rw [enqueue]
  split <;> exact ⟨rfl, rfl, rfl, rfl, rfl, rfl, rfl⟩

theorem enqueue_phase :
    ((s.enqueue t base entries).setPhase t .idle).phase = Function.update s.phase t .idle := by
  rw [setPhase, (s.enqueue_fields t base entries).1]

theorem entriesOf_enqueue :
    entriesOf (s.enqueue t base entries).queue = entriesOf s.queue ++ entries := by
  rw [enqueue]
  split
  next h => simp [isEmpty_iff.mp h]
  next => simp [entriesOf]

theorem enqueued_enqueue : (s.enqueue t base entries).enqueued =
      Function.update s.enqueued t (s.enqueued t ++ entries) := by
  rw [enqueue]
  split
  next h => simp [isEmpty_iff.mp h]
  next => rfl

end WalWriter

theorem mem_drainSorted {queue : List (Batch β)} {e : Entry β} :
    e ∈ entriesOf (drainSorted queue) ↔ e ∈ entriesOf queue := by
  simp [entriesOf, drainSorted, (perm_insertionSort _ queue).mem_iff]

theorem mem_stamp {bodies : List β} {base : Nat} {e : Entry β} (h : e ∈ stamp base bodies) :
    base ≤ e.lsn ∧ e.lsn < base + bodies.length := by
  induction bodies generalizing base with
  | nil => cases h
  | cons body bodies ih =>
    rcases mem_cons.mp h with rfl | h
    · simp
    · have := ih h
      simp only [length_cons]
      omega

/-- The atomic steps of the threads. -/
inductive Event (τ β : Type) where
  | reserve (t : τ) (bodies : List β)
  | enqueue (t : τ)
  | lead (t : τ)
  | drain (t : τ)
  | write (t : τ)
  | writeFails (t : τ)
  | sync (t : τ)
  | syncFails (t : τ)
  | finish (t : τ)
  | noSyncDrain (t : τ)
  | noSyncWrite (t : τ)
  | noSyncWriteFails (t : τ)
  | noSyncFinish (t : τ)

open WalWriter in

/-- `ConcurrentWalWriter::reserve_lsn` and `ConcurrentWalWriter::reserve_lsns` in
`concurrent_writer.rs`. -/
def step [DecidableEq τ] (s : WalWriter τ β) : Event τ β → Option (WalWriter τ β)
  | .reserve t bodies =>
    match s.phase t with
    | .idle => some { s with
        nextLsn := s.nextLsn + bodies.length
        assigned := s.assigned ++ stamp s.nextLsn bodies
        phase := Function.update s.phase t (.reserved s.nextLsn (stamp s.nextLsn bodies)) }
    | _ => none
  | .enqueue t =>
    match s.phase t with
    | .reserved base entries => some ((s.enqueue t base entries).setPhase t .idle)
    | _ => none
  | .lead t =>
    match s.phase t, s.holder with
    | .idle, none => some { s.setPhase t .leading with holder := some t }
    | _, _ => none
  | .drain t =>
    match s.phase t with
    | .leading => some { s.setPhase t (.drained (drainSorted s.queue)) with queue := [] }
    | _ => none
  | .write t =>
    match s.phase t with
    | .drained batches =>
      some { s.setPhase t (.written batches) with file := s.file ++ entriesOf batches }
    | _ => none
  | .writeFails t =>
    match s.phase t with
    | .drained _ => some { s.setPhase t .idle with holder := none }
    | _ => none
  | .sync t =>
    match s.phase t with
    | .written batches => some { s.setPhase t (.synced batches) with syncedLen := s.file.length }
    | _ => none
  | .syncFails t =>
    match s.phase t with
    | .written _ => some { s.setPhase t .idle with holder := none }
    | _ => none
  | .finish t =>
    match s.phase t with
    | .synced batches =>
      some { s.setPhase t .idle with holder := none, flushedLsn := advance s.flushedLsn batches }
    | _ => none
  | .noSyncDrain t =>
    match s.phase t with
    | .idle => some { s.setPhase t (.noSyncDrained (drainSorted s.queue)) with queue := [] }
    | _ => none
  | .noSyncWrite t =>
    match s.phase t, s.holder with
    | .noSyncDrained batches, none =>
      some { s.setPhase t (.noSyncWritten batches) with
        holder := some t, file := s.file ++ entriesOf batches }
    | _, _ => none
  | .noSyncWriteFails t =>
    match s.phase t, s.holder with
    | .noSyncDrained _, none => some (s.setPhase t .idle)
    | _, _ => none
  | .noSyncFinish t =>
    match s.phase t with
    | .noSyncWritten batches =>
      some { s.setPhase t .idle with holder := none, flushedLsn := advance s.flushedLsn batches }
    | _ => none

/-! ## What each step does -/

open WalWriter in
/-- The steps that are taken, each from the phase it is taken in. -/
inductive Move [DecidableEq τ] (s : WalWriter τ β) : Event τ β → WalWriter τ β → Prop where
  | reserve {t : τ} {bodies : List β} (h : s.phase t = .idle) :
    Move s (.reserve t bodies) { s with
      nextLsn := s.nextLsn + bodies.length
      assigned := s.assigned ++ stamp s.nextLsn bodies
      phase := Function.update s.phase t (.reserved s.nextLsn (stamp s.nextLsn bodies)) }
  | enqueue {t : τ} {base : Nat} {entries : List (Entry β)} (h : s.phase t = .reserved base entries) :
    Move s (.enqueue t) ((s.enqueue t base entries).setPhase t .idle)
  | lead {t : τ} (h : s.phase t = .idle) (hfree : s.holder = none) :
    Move s (.lead t) { s.setPhase t .leading with holder := some t }
  | drain {t : τ} (h : s.phase t = .leading) :
    Move s (.drain t) { s.setPhase t (.drained (drainSorted s.queue)) with queue := [] }
  | write {t : τ} {batches : List (Batch β)} (h : s.phase t = .drained batches) :
    Move s (.write t)
      { s.setPhase t (.written batches) with file := s.file ++ entriesOf batches }
  | writeFails {t : τ} {batches : List (Batch β)} (h : s.phase t = .drained batches) :
    Move s (.writeFails t) { s.setPhase t .idle with holder := none }
  | sync {t : τ} {batches : List (Batch β)} (h : s.phase t = .written batches) :
    Move s (.sync t) { s.setPhase t (.synced batches) with syncedLen := s.file.length }
  | syncFails {t : τ} {batches : List (Batch β)} (h : s.phase t = .written batches) :
    Move s (.syncFails t) { s.setPhase t .idle with holder := none }
  | finish {t : τ} {batches : List (Batch β)} (h : s.phase t = .synced batches) :
    Move s (.finish t)
      { s.setPhase t .idle with holder := none, flushedLsn := advance s.flushedLsn batches }
  | noSyncDrain {t : τ} (h : s.phase t = .idle) :
    Move s (.noSyncDrain t)
      { s.setPhase t (.noSyncDrained (drainSorted s.queue)) with queue := [] }
  | noSyncWrite {t : τ} {batches : List (Batch β)} (h : s.phase t = .noSyncDrained batches)
    (hfree : s.holder = none) :
    Move s (.noSyncWrite t)
      { s.setPhase t (.noSyncWritten batches) with
        holder := some t, file := s.file ++ entriesOf batches }
  | noSyncWriteFails {t : τ} {batches : List (Batch β)} (h : s.phase t = .noSyncDrained batches)
    (hfree : s.holder = none) : Move s (.noSyncWriteFails t) (s.setPhase t .idle)
  | noSyncFinish {t : τ} {batches : List (Batch β)} (h : s.phase t = .noSyncWritten batches) :
    Move s (.noSyncFinish t)
      { s.setPhase t .idle with holder := none, flushedLsn := advance s.flushedLsn batches }

theorem Move.of_step [DecidableEq τ] {s s' : WalWriter τ β} {e : Event τ β}
    (h : step s e = some s') : Move s e s' := by
  cases e <;> simp only [step] at h <;> split at h <;> cases h <;> constructor <;> assumption

end AxiomDb.Wal
