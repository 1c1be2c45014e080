import AxiomDb.Heap.Page

/-!
# Transactions, one statement at a time

What the transaction manager does for statements that run one after another: ids
in order, the set of active ids, and the snapshot of a transaction, frozen at its
BEGIN or taken anew for each statement.
-/

namespace AxiomDb.Txn

open Heap

structure Txns where
  nextTxnId : TxnId
  maxCommitted : TxnId
  activeSet : List TxnId
  /-- The snapshot of an active transaction whose isolation level freezes one. -/
  frozen : TxnId → Option TransactionSnapshot

namespace Txns

def opened (maxCommitted : TxnId) : Txns := ⟨maxCommitted + 1, maxCommitted, [], fun _ => none⟩

/-- `begin_with_isolation`: the next id; the active set is captured before the id is in it. -/
def begin (s : Txns) (freeze : Bool) : Txns where
  nextTxnId := s.nextTxnId + 1
  maxCommitted := s.maxCommitted
  activeSet := s.nextTxnId :: s.activeSet
  frozen := Function.update s.frozen s.nextTxnId
    (if freeze then some ⟨s.maxCommitted + 1, s.nextTxnId, s.activeSet⟩ else none)

/-- `TxnManager::active_snapshot` in `txn_inspect.rs`. -/
def activeSnapshot (s : Txns) (t : TxnId) : TransactionSnapshot :=
  (s.frozen t).getD ⟨s.maxCommitted + 1, t, s.activeSet⟩

/-- `TxnManager::commit` in `txn_begin_commit.rs`. -/
def commit (s : Txns) (t : TxnId) : Txns :=
  { s with maxCommitted := max s.maxCommitted t, activeSet := s.activeSet.filter (· != t) }

def rollback (s : Txns) (t : TxnId) : Txns :=
  { s with activeSet := s.activeSet.filter (· != t) }

end Txns

end AxiomDb.Txn
