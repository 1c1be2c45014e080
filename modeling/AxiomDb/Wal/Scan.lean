import AxiomDb.Lib.UndoLog
import AxiomDb.Wal.Log

/-!
# The scan of recovery

Recovery reads the log from the checkpoint on. It collects the transactions in
progress and the operations of transactions in progress, in order; what it undoes
are those of the transactions that are still in progress at the end.
-/

namespace AxiomDb.Wal

open Lib List

variable {ω O : Type}

/-! ## The log -/

/-- The log file and the checkpoint LSN of the meta page. -/
structure Log (ω : Type) where
  nextLsn : Nat
  file : List (LogEntry ω)
  checkpointLsn : Nat
  lsn_lt : ∀ e ∈ file, e.lsn < nextLsn
  checkpoint_le : checkpointLsn ≤ nextLsn

namespace Log

def empty : Log ω := ⟨1, [], 0, by simp, by simp⟩

/-- The part of the log that recovery reads. -/
def window (l : Log ω) : List (LogEntry ω) := scanForward l.file l.checkpointLsn

def append (l : Log ω) (txnId : Nat) (kind : EntryKind ω) : Log ω where
  nextLsn := l.nextLsn + 1
  file := l.file ++ [⟨l.nextLsn, txnId, kind⟩]
  checkpointLsn := l.checkpointLsn
  lsn_lt e he := by
    rcases mem_append.mp he with he | he
    · exact Nat.lt_succ_of_lt (l.lsn_lt e he)
    · rw [mem_singleton.mp he]
      exact Nat.lt_succ_self _
  checkpoint_le := l.checkpoint_le.trans (Nat.le_succ _)

/-- `Checkpointer::checkpoint`: the entry, and its LSN in the meta page. -/
def checkpoint (l : Log ω) : Log ω :=
  { l.append 0 .checkpoint with
    checkpointLsn := l.nextLsn
    checkpoint_le := Nat.le_succ _ }

@[simp] theorem window_empty : (empty : Log ω).window = [] := rfl

@[simp] theorem window_append (l : Log ω) (txnId : Nat) (kind : EntryKind ω) :
    (l.append txnId kind).window = l.window ++ [⟨l.nextLsn, txnId, kind⟩] := by
  have h := l.checkpoint_le
  simp only [window, append, scanForward, filter_append]
  rw [filter_cons_of_pos (by simpa using h), filter_nil]
  rfl

@[simp] theorem window_checkpoint (l : Log ω) :
    l.checkpoint.window = [⟨l.nextLsn, 0, .checkpoint⟩] := by
  simp only [window, checkpoint, append, scanForward, filter_append]
  rw [filter_cons_of_pos (by simp), filter_nil,
    filter_eq_nil_iff.mpr fun e he => by simpa using l.lsn_lt e he, nil_append]

end Log

/-! ## The scan -/

/-- What the scan collects. -/
structure Scan (O : Type) where
  maxCommitted : Nat
  activeTxns : List Nat
  timeline : List (Nat × O)

/-- One entry, where `undo` is what an operation's entry is read as. -/
def Scan.entry (undo : ω → List O) (sc : Scan O) (e : LogEntry ω) : Scan O :=
  match e.kind with
  | .begin => { sc with activeTxns := e.txnId :: sc.activeTxns }
  | .commit => { sc with
      maxCommitted := max sc.maxCommitted e.txnId
      activeTxns := sc.activeTxns.filter (· ≠ e.txnId) }
  | .rollback => { sc with activeTxns := sc.activeTxns.filter (· ≠ e.txnId) }
  | .checkpoint => sc
  | .op body =>
    if e.txnId ∈ sc.activeTxns then
      { sc with timeline := sc.timeline ++ (undo body).map fun o => (e.txnId, o) }
    else sc

/-- `CrashRecovery::recover` in `recovery.rs`. -/
def scan (undo : ω → List O) (entries : List (LogEntry ω)) : Scan O :=
  entries.foldl (Scan.entry undo) ⟨0, [], []⟩

/-- The operations that are undone, from the last to the first. -/
def Scan.inProgress (sc : Scan O) : List O :=
  (sc.timeline.filter fun p => p.1 ∈ sc.activeTxns).reverse.map Prod.snd

variable {undo : ω → List O} {entries : List (LogEntry ω)} {e : LogEntry ω}

theorem scan_append : scan undo (entries ++ [e]) = (scan undo entries).entry undo e := by
  simp [scan, foldl_append]

theorem exists_entry (undo : ω → List O) (entries : List (LogEntry ω)) :
    (∀ c ∈ (scan undo entries).activeTxns, ∃ e ∈ entries, e.txnId = c) ∧
      ∀ p ∈ (scan undo entries).timeline, ∃ e ∈ entries, e.txnId = p.1 := by
  induction entries using List.reverseRecOn with
  | nil => simp [scan]
  | append_singleton entries e ih =>
    obtain ⟨hactive, htimeline⟩ := ih
    have hold {c : Nat} (h : ∃ f ∈ entries, f.txnId = c) : ∃ f ∈ entries ++ [e], f.txnId = c := by
      obtain ⟨f, hf, rfl⟩ := h
      exact ⟨f, mem_append_left _ hf, rfl⟩
    have hnew : ∃ f ∈ entries ++ [e], f.txnId = e.txnId := ⟨e, by simp, rfl⟩
    have hfilter (c : Nat) (hc : c ∈ (scan undo entries).activeTxns.filter (· ≠ e.txnId)) :
        ∃ f ∈ entries ++ [e], f.txnId = c := hold (hactive c (mem_of_mem_filter hc))
    rw [scan_append, Scan.entry]
    split
    · exact ⟨forall_mem_cons.mpr ⟨hnew, fun c hc => hold (hactive c hc)⟩,
        fun p hp => hold (htimeline p hp)⟩
    · exact ⟨hfilter, fun p hp => hold (htimeline p hp)⟩
    · exact ⟨hfilter, fun p hp => hold (htimeline p hp)⟩
    · exact ⟨fun c hc => hold (hactive c hc), fun p hp => hold (htimeline p hp)⟩
    · split
      · refine ⟨fun c hc => hold (hactive c hc), fun p hp => ?_⟩
        rcases mem_append.mp hp with hp | hp
        · exact hold (htimeline p hp)
        · obtain ⟨op, -, rfl⟩ := mem_map.mp hp
          exact hnew
      · exact ⟨fun c hc => hold (hactive c hc), fun p hp => hold (htimeline p hp)⟩

/-! ## The log and the transactions in flight -/

variable {X V : Type} {f : InFlight O X V} {c lsn : Nat} {f' : InFlight O X V}

/-- The log shows in progress exactly the active transactions, with what they have to undo. -/
abbrev LogMatches (undo : ω → List O) (entries : List (LogEntry ω)) (f : InFlight O X V) : Prop :=
  Matches (scan undo entries).activeTxns (scan undo entries).timeline f

namespace LogMatches

theorem of_idle (hscan : (scan undo entries).activeTxns = []) (h : f.active = []) :
    LogMatches undo entries f := by
  constructor <;> simp [hscan, h]

theorem begin (hm : LogMatches undo entries f) (hnew : ∀ e ∈ entries, e.txnId ≠ c) :
    c ∉ f.active ∧ LogMatches undo (entries ++ [⟨lsn, c, .begin⟩]) (f.begin c) := by
  obtain ⟨hentry, hops⟩ := exists_entry undo entries
  have hidle : c ∉ f.active := fun hc => by
    obtain ⟨e, he, heq⟩ := hentry _ ((hm.active _).mpr hc)
    exact hnew e he heq
  refine ⟨hidle, fun b => ?_, fun b hb => ?_⟩
  · rw [scan_append]
    simp [Scan.entry, InFlight.begin, hm.active]
  rw [scan_append]
  simp only [Scan.entry]
  rcases mem_cons.mp hb with rfl | hb
  · rw [filter_eq_nil_iff.mpr fun p hp heq => ?_]
    · simp [InFlight.begin]
    · obtain ⟨e, he, hep⟩ := hops p hp
      exact hnew e he (hep.trans (by simpa using heq))
  · have hne : b ≠ c := fun h => hidle (h ▸ hb)
    rw [InFlight.begin_ops hne, hm.timeline b hb]

theorem op (hm : LogMatches undo entries f) (hc : c ∈ f.active) {body : ω}
    (hactive : f'.active = f.active) (hops : f'.ops c = f.ops c ++ undo body)
    (hother : ∀ b, b ≠ c → f'.ops b = f.ops b) :
    LogMatches undo (entries ++ [⟨lsn, c, .op body⟩]) f' := by
  have hentry : (scan undo entries).entry undo ⟨lsn, c, .op body⟩ =
      { scan undo entries with
        timeline := (scan undo entries).timeline ++ (undo body).map fun o => (c, o) } :=
    if_pos ((hm.active c).mpr hc)
  refine ⟨fun b => ?_, fun b hb => ?_⟩
  · rw [scan_append, hentry, hactive]
    exact hm.active b
  rw [scan_append, hentry, filter_append, map_append, hm.timeline b (hactive ▸ hb)]
  obtain rfl | hbc := eq_or_ne b c
  · simp [hops, filter_map, Function.comp_def]
  · simp [hother b hbc, hbc.symm]

theorem drop (hm : LogMatches undo entries f) {kind : EntryKind ω}
    (hkind : kind = .commit ∨ kind = .rollback) (hactive : f'.active = f.active.filter (· ≠ c))
    (hops : f'.ops = f.ops) : LogMatches undo (entries ++ [⟨lsn, c, kind⟩]) f' := by
  have hmem {b : Nat} : b ∈ f'.active ↔ b ∈ f.active ∧ b ≠ c := by simp [hactive]
  refine ⟨fun b => ?_, fun b hb => ?_⟩
  · rw [scan_append, hmem, ← hm.active]
    rcases hkind with rfl | rfl <;> simp [Scan.entry]
  · rw [scan_append, hops, ← hm.timeline b (hmem.mp hb).1]
    rcases hkind with rfl | rfl <;> rfl

end LogMatches

end AxiomDb.Wal
