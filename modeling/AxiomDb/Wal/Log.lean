import AxiomDb.Heap.Page

/-!
# The log that recovery reads

The log is the list of its entries in file order. Recovery reads the entries from
the last checkpoint on; the greatest committed id is what the Commit entries it
reads say.
-/

namespace AxiomDb.Wal

open List

/-- What an entry says; the contents of the operations are a parameter. -/
inductive EntryKind (ω : Type) where
  | begin
  | commit
  | rollback
  | checkpoint
  | op (ω : ω)
  deriving DecidableEq

structure LogEntry (ω : Type) where
  lsn : Nat
  txnId : Nat
  kind : EntryKind ω
  deriving DecidableEq

variable {ω : Type}

/-- `WalReader::scan_forward`: entries below the LSN are skipped. -/
def scanForward (file : List (LogEntry ω)) (fromLsn : Nat) : List (LogEntry ω) :=
  file.filter fun e => ¬e.lsn < fromLsn

/-- The greatest id with a Commit entry, `0` if there is none. -/
def maxCommittedOf [DecidableEq ω] (entries : List (LogEntry ω)) : Nat :=
  entries.foldl (fun m e => if e.kind = .commit then max m e.txnId else m) 0

theorem foldl_commit [DecidableEq ω] (entries : List (LogEntry ω)) (m : Nat) :
    let n := entries.foldl (fun m e => if e.kind = .commit then max m e.txnId else m) m
    m ≤ n ∧ (∀ e ∈ entries, e.kind = .commit → e.txnId ≤ n) ∧
      (n = m ∨ ∃ e ∈ entries, e.kind = .commit ∧ e.txnId = n) := by
  induction entries generalizing m with
  | nil => exact ⟨le_rfl, (by simp), .inl rfl⟩
  | cons e entries ih =>
    obtain ⟨hle, hall, hmax⟩ := ih (if e.kind = .commit then max m e.txnId else m)
    rw [foldl_cons]
    by_cases hk : e.kind = .commit
    · rw [if_pos hk] at hle hall hmax ⊢
      refine ⟨(le_max_left _ _).trans hle, fun f hf hfk => ?_, ?_⟩
      · rcases mem_cons.mp hf with rfl | hf
        · exact (le_max_right _ _).trans hle
        · exact hall f hf hfk
      rcases hmax with h | ⟨f, hf, h⟩
      · rcases max_choice m e.txnId with hm | hm
        · exact .inl (h.trans hm)
        · exact .inr ⟨e, mem_cons_self, hk, (h.trans hm).symm⟩
      · exact .inr ⟨f, mem_cons_of_mem _ hf, h⟩
    · rw [if_neg hk] at hle hall hmax ⊢
      refine ⟨hle, fun f hf hfk => ?_, ?_⟩
      · rcases mem_cons.mp hf with rfl | hf
        · exact absurd hfk hk
        · exact hall f hf hfk
      · rcases hmax with h | ⟨f, hf, h⟩
        · exact .inl h
        · exact .inr ⟨f, mem_cons_of_mem _ hf, h⟩

theorem le_maxCommittedOf [DecidableEq ω] {entries : List (LogEntry ω)} {e : LogEntry ω}
    (he : e ∈ entries) (hk : e.kind = .commit) : e.txnId ≤ maxCommittedOf entries :=
  (foldl_commit entries 0).2.1 e he hk

theorem maxCommittedOf_mem [DecidableEq ω] (entries : List (LogEntry ω)) :
    maxCommittedOf entries = 0 ∨
      ∃ e ∈ entries, e.kind = .commit ∧ e.txnId = maxCommittedOf entries :=
  (foldl_commit entries 0).2.2

end AxiomDb.Wal
