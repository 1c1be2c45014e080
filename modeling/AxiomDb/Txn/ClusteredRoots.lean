import AxiomDb.Lib.Runs

/-!
# The shared map of clustered roots

A transaction copies the whole map of clustered roots when it begins, records in
its copy the root after each of its operations, and writes its whole copy back
when it commits, when it is rolled back and when it is rolled back to a
savepoint. So it writes back roots that others have moved in the meantime, also
of tables it never touched.

The current root of a table is kept beside the map: an operation is executed on
it, and an undo on the root in the transaction's copy. The map has the current
roots where roots are moved by a transaction that is active alone, and none begins
while operations are pending (`clustered_root_current`).
-/

namespace AxiomDb.Txn

open Lib List Function Option

/-- Root page ids by table id. -/
abbrev Roots := Nat → Option Nat

/-- `ConnectionTxn`, as far as clustered tables go: the table of each operation in the undo
log, latest first, and the tables of these and of the operations undone since the last
write-back. -/
structure RootConn where
  clusteredRoots : Roots
  undoOps : List Nat
  pending : List Nat

/-- `TxnManager` in `txn.rs`. -/
structure RootManager where
  lastClusteredRoots : Roots
  /-- The current root of each table. -/
  current : Roots
  conns : Nat → Option RootConn

namespace RootManager

/-- A manager that knows the current roots. -/
def opened (roots : Roots) : RootManager := ⟨roots, roots, fun _ => none⟩

/-- `clustered_root`. -/
def clusteredRoot (s : RootManager) (table : Nat) : Option Nat := s.lastClusteredRoots table

/-- The loop that inserts every root of a transaction's copy into the map. -/
def writeBack (last copy : Roots) : Roots := fun table => (copy table).or (last table)

/-- An operation of a transaction that is not over is pending on a table. -/
def Pending (s : RootManager) (table : Nat) : Prop :=
  ∃ c conn, s.conns c = some conn ∧ table ∈ conn.pending

end RootManager

inductive RootEvent where
  | begin (c : Nat)
  /-- An operation on the current root of a table, recorded with the resulting root. -/
  | record (c table newRoot : Nat)
  /-- The last operation of the undo log is undone, with the resulting root. -/
  | undo (c newRoot : Nat)
  /-- The end of `rollback_to_savepoint`. -/
  | endSavepoint (c : Nat)
  | commit (c : Nat)
  /-- The end of `rollback`. -/
  | endRollback (c : Nat)

open RootManager in

/-- `TxnManager::commit` in `txn_begin_commit.rs`, `TxnManager::record_clustered_insert` in
`txn_record_clustered.rs`. -/
def rootStep (s : RootManager) : RootEvent → Option RootManager
  | .begin c =>
    match s.conns c with
    | none => some { s with conns := update s.conns c (some ⟨s.lastClusteredRoots, [], []⟩) }
    | some _ => none
  | .record c table newRoot =>
    match s.conns c with
    | some conn => some { s with
        current := update s.current table (some newRoot)
        conns := update s.conns c (some
          { clusteredRoots := update conn.clusteredRoots table (some newRoot)
            undoOps := table :: conn.undoOps
            pending := table :: conn.pending }) }
    | none => none
  | .undo c newRoot =>
    match s.conns c with
    | some conn =>
      match conn.undoOps with
      | table :: undoOps =>
        -- an undo on a root that is no longer the current one leaves the current one
        some { s with
          current := if s.current table = conn.clusteredRoots table then
            update s.current table (some newRoot) else s.current
          conns := update s.conns c (some { conn with
            clusteredRoots := update conn.clusteredRoots table (some newRoot)
            undoOps := undoOps }) }
      | [] => none
    | none => none
  | .endSavepoint c =>
    match s.conns c with
    | some conn => some { s with
        lastClusteredRoots := writeBack s.lastClusteredRoots conn.clusteredRoots
        conns := update s.conns c (some { conn with pending := conn.undoOps }) }
    | none => none
  | .commit c =>
    match s.conns c with
    | some conn => some { s with
        lastClusteredRoots := writeBack s.lastClusteredRoots conn.clusteredRoots
        conns := update s.conns c none }
    | none => none
  | .endRollback c =>
    match s.conns c with
    | some conn =>
      if conn.undoOps = [] then some { s with
        lastClusteredRoots := writeBack s.lastClusteredRoots conn.clusteredRoots
        conns := update s.conns c none }
      else none
    | none => none

/-- The condition, on the state before a step: an operation or an undo that moves the root of its
table is executed while no other transaction is active, and a transaction begins while no operation
is pending. -/
def MovesAlone (s : RootManager) : RootEvent → Prop
  | .begin _ => ∀ d conn, s.conns d = some conn → conn.pending = []
  | .record c table newRoot => s.current table = some newRoot ∨ ∀ d, d ≠ c → s.conns d = none
  | .undo c newRoot => ∀ conn, s.conns c = some conn → ∀ table ∈ conn.undoOps.head?,
      s.current table = some newRoot ∨ ∀ d, d ≠ c → s.conns d = none
  | _ => True

/-- What holds in every run that meets the condition. -/
structure RootsKept (s : RootManager) : Prop where
  kept : ∀ table, ¬s.Pending table → s.lastClusteredRoots table = s.current table
  copies : ∀ c conn, s.conns c = some conn → conn.clusteredRoots = s.current
  recorded : ∀ c conn, s.conns c = some conn → ∀ table ∈ conn.pending,
    conn.clusteredRoots table ≠ none
  undo : ∀ c conn, s.conns c = some conn → ∀ table ∈ conn.undoOps, table ∈ conn.pending

namespace RootsKept

variable {s s' : RootManager} {conn : RootConn} {c : Nat}

/-- A transaction changes its own copy and the roots of tables it has pending; others do not notice. -/
theorem work (hs : RootsKept s)
    (hcopy : conn.clusteredRoots = s'.current)
    (halone : s'.current = s.current ∨ ∀ d, d ≠ c → s.conns d = none)
    (hconns : s'.conns = update s.conns c (some conn))
    (hlast : s'.lastClusteredRoots = s.lastClusteredRoots)
    (hcurrent : ∀ table, s'.current table = s.current table ∨ table ∈ conn.pending)
    (hold : ∀ old, s.conns c = some old → ∀ table ∈ old.pending, table ∈ conn.pending)
    (hrecorded : ∀ table ∈ conn.pending, conn.clusteredRoots table ≠ none)
    (hundo : ∀ table ∈ conn.undoOps, table ∈ conn.pending) : RootsKept s' := by
  have hget {d : Nat} {k : RootConn} (hd : s'.conns d = some k) :
      k = conn ∨ d ≠ c ∧ s.conns d = some k := by
    rw [hconns, update_apply] at hd
    split at hd
    · exact .inl (some.inj hd).symm
    next hdc => exact .inr ⟨hdc, hd⟩
  have hpending {table : Nat} (h : s.Pending table) : s'.Pending table := by
    obtain ⟨d, k, hd, ht⟩ := h
    by_cases hdc : d = c
    · subst hdc
      exact ⟨d, conn, by rw [hconns, update_self], hold k hd table ht⟩
    · exact ⟨d, k, by rw [hconns, update_of_ne hdc]; exact hd, ht⟩
  refine ⟨fun table hnot => ?_, fun d k hd => ?_, fun d k hd => ?_, fun d k hd => ?_⟩
  · rcases hcurrent table with h | h
    · rw [hlast, h]
      exact hs.kept table fun hp => hnot (hpending hp)
    · exact absurd ⟨c, conn, by rw [hconns, update_self], h⟩ hnot
  · rcases hget hd with rfl | ⟨hdc, hd⟩
    · exact hcopy
    · rcases halone with h | h
      · rw [h]
        exact hs.copies d k hd
      · rw [h d hdc] at hd
        cases hd
  · rcases hget hd with rfl | ⟨-, hd⟩
    · exact hrecorded
    · exact hs.recorded d k hd
  · rcases hget hd with rfl | ⟨-, hd⟩
    · exact hundo
    · exact hs.undo d k hd

/-- A transaction writes its copy back and keeps, or ends with, some tables pending. -/
theorem writeBack (hs : RootsKept s) {after : Option RootConn}
    (hc : s.conns c = some conn) (hconns : s'.conns = update s.conns c after)
    (hlast : s'.lastClusteredRoots = RootManager.writeBack s.lastClusteredRoots conn.clusteredRoots)
    (hcurrent : s'.current = s.current)
    (hafter : ∀ k, after = some k → k.clusteredRoots = conn.clusteredRoots ∧
      k.undoOps = conn.undoOps ∧ k.pending = conn.undoOps) : RootsKept s' := by
  have hget {d : Nat} {k : RootConn} (hd : s'.conns d = some k) :
      d = c ∧ after = some k ∨ d ≠ c ∧ s.conns d = some k := by
    rw [hconns, update_apply] at hd
    split at hd
    next hdc => exact .inl ⟨hdc, hd⟩
    next hdc => exact .inr ⟨hdc, hd⟩
  refine ⟨fun table hnot => ?_, fun d k hd => ?_, fun d k hd table ht => ?_, fun d k hd table ht => ?_⟩
  · -- no other transaction has the table pending
    have hother : ¬∃ d, d ≠ c ∧ ∃ k, s.conns d = some k ∧ table ∈ k.pending := by
      rintro ⟨d, hdc, k, hk, ht⟩
      exact hnot ⟨d, k, by rw [hconns, update_of_ne hdc]; exact hk, ht⟩
    rw [hlast, hcurrent, RootManager.writeBack]
    cases hroot : conn.clusteredRoots table with
    | some root => rw [← hs.copies c conn hc, hroot]; rfl
    | none =>
      refine hs.kept table ?_
      rintro ⟨d, k, hk, ht⟩
      by_cases hdc : d = c
      · rw [hdc, hc] at hk
        obtain rfl := some.inj hk
        exact hs.recorded c conn hc table ht hroot
      · exact hother ⟨d, hdc, k, hk, ht⟩
  · rw [hcurrent]
    rcases hget hd with ⟨-, ha⟩ | ⟨-, hd⟩
    · rw [(hafter k ha).1]
      exact hs.copies c conn hc
    · exact hs.copies d k hd
  · rcases hget hd with ⟨-, ha⟩ | ⟨-, hd⟩
    · obtain ⟨hroots, -, hpending⟩ := hafter k ha
      rw [hroots]
      exact hs.recorded c conn hc table (hs.undo c conn hc table (hpending ▸ ht))
    · exact hs.recorded d k hd table ht
  · rcases hget hd with ⟨-, ha⟩ | ⟨-, hd⟩
    · obtain ⟨-, hops, hpending⟩ := hafter k ha
      rw [hpending, ← hops]
      exact ht
    · exact hs.undo d k hd table ht

end RootsKept

theorem rootsKept_step {s s' : RootManager} {e : RootEvent} (hs : RootsKept s)
    (hok : MovesAlone s e) (h : rootStep s e = some s') : RootsKept s' := by
  cases e <;> simp only [rootStep] at h
  case begin c =>
    split at h <;> cases h
    next hc =>
      -- nothing is pending, so the map has all current roots
      have hcopy : s.lastClusteredRoots = s.current := funext fun table =>
        hs.kept table fun ⟨d, k, hd, ht⟩ => by simp [hok d k hd] at ht
      exact hs.work hcopy (.inl rfl) rfl rfl (fun _ => .inl rfl)
        (fun old ho => by rw [hc] at ho; cases ho) (by simp) (by simp)
  case record c table newRoot =>
    split at h <;> cases h
    next conn hc =>
      refine hs.work ?_ (hok.imp_left fun h => ?_) rfl rfl (fun t => ?_) (fun old ho t ht => ?_)
        (fun t ht => ?_) fun t ht => ?_
      · dsimp only
        rw [hs.copies c conn hc]
      · exact update_eq_self_iff.mpr h.symm
      · by_cases htt : t = table
        · exact .inr (htt ▸ mem_cons_self)
        · exact .inl (update_of_ne htt _ _)
      · rw [hc] at ho
        obtain rfl := some.inj ho
        exact mem_cons_of_mem _ ht
      · by_cases htt : t = table
        · simp [htt]
        · simp only [update_of_ne htt]
          exact hs.recorded c conn hc t ((mem_cons.mp ht).resolve_left htt)
      · rcases mem_cons.mp ht with rfl | ht
        · exact mem_cons_self
        · exact mem_cons_of_mem _ (hs.undo c conn hc t ht)
  case undo c newRoot =>
    split at h
    next conn hc =>
      split at h <;> cases h
      next table undoOps hops =>
        have hpending : table ∈ conn.pending := hs.undo c conn hc table (hops ▸ mem_cons_self)
        have hcopy := hs.copies c conn hc
        have hmoved := hok conn hc table (by simp [hops])
        refine hs.work ?_ (hmoved.imp_left fun h => ?_) rfl rfl (fun t => ?_) (fun old ho t ht => ?_)
          (fun t ht => ?_) fun t ht => ?_
        · simp only [hcopy, if_true]
        · simp only [hcopy, if_true]
          exact update_eq_self_iff.mpr h.symm
        · by_cases htt : t = table
          · exact .inr (htt ▸ hpending)
          refine .inl ?_
          simp only
          split
          · exact update_of_ne htt _ _
          · rfl
        · rw [hc] at ho
          obtain rfl := some.inj ho
          exact ht
        · by_cases htt : t = table
          · simp [htt]
          · simp only [update_of_ne htt]
            exact hs.recorded c conn hc t ht
        · exact hs.undo c conn hc t (hops ▸ mem_cons_of_mem _ ht)
    next => cases h
  case endSavepoint c =>
    split at h <;> cases h
    next conn hc =>
      refine hs.writeBack hc rfl rfl rfl (fun k hk => ?_)
      obtain rfl := some.inj hk
      exact ⟨rfl, rfl, rfl⟩
  case commit c =>
    split at h <;> cases h
    next conn hc =>
      exact hs.writeBack hc rfl rfl rfl (by simp)
  case endRollback c =>
    split at h
    next conn hc =>
      split at h <;> cases h
      exact hs.writeBack hc rfl rfl rfl (by simp)
    next => cases h

/-- **Clustered roots.** In every run that meets the condition the map has the current root of every
table without pending operations. -/
theorem clustered_root_current (roots : Roots) (s : RootManager)
    (h : Reached rootStep MovesAlone (RootManager.opened roots) s) :
    ∀ table, ¬s.Pending table → s.clusteredRoot table = s.current table := by
  have hinit : RootsKept (RootManager.opened roots) := by
    refine ⟨fun _ _ => rfl, fun _ _ h => ?_, fun _ _ h => ?_, fun _ _ h => ?_⟩ <;> cases h
  exact (h.invariant hinit fun hs hok h => rootsKept_step hs hok h).kept

/-- Two transactions are active, the second one ends and the first moves a root and commits. -/
theorem clustered_root_current_moved :
    ∃ s, Reached rootStep MovesAlone (RootManager.opened fun _ => some 10) s ∧
      s.current 1 = some 20 ∧ s.clusteredRoot 1 = s.current 1 := by
  have hbegun : Reached rootStep MovesAlone (RootManager.opened fun _ => some 10) _ :=
    .step (e := .begin 1) .init (fun _ _ h => by cases h) rfl
  have hboth := Reached.step (e := RootEvent.begin 2) hbegun (fun d conn hd => by
    by_cases h1 : d = 1
    · subst h1
      cases hd
      rfl
    · simp [h1, RootManager.opened] at hd) rfl
  -- an operation that leaves the root where it is
  have hstays := Reached.step (e := RootEvent.record 2 1 10) hboth (.inl rfl) rfl
  have hended := Reached.step (e := RootEvent.commit 2) hstays trivial rfl
  have hreach := Reached.step (e := RootEvent.commit 1)
    (Reached.step (e := RootEvent.record 1 1 20) hended (.inr fun d hd => by
      by_cases h2 : d = 2
      · simp [h2]
      · simp [h2, hd, RootManager.opened]) rfl) trivial rfl
  refine ⟨_, hreach, rfl, clustered_root_current _ _ hreach 1 ?_⟩
  rintro ⟨c, conn, hconn, -⟩
  by_cases h1 : c = 1
  · simp [h1] at hconn
  · by_cases h2 : c = 2
    · simp [h2] at hconn
    · simp [h1, h2, RootManager.opened] at hconn

/-- Transaction 2 moves the root of table 1 and commits; then transaction 1, which began
before and did nothing, commits and restores the old root. -/
theorem clustered_root_goes_back :
    ∃ s, Reached rootStep free (RootManager.opened fun _ => some 10) s ∧
      (∀ c, s.conns c = none) ∧ s.current 1 = some 20 ∧ s.clusteredRoot 1 = some 10 := by
  refine ⟨_, Reached.of_run (l := [.begin 1, .begin 2, .record 2 1 20, .commit 2, .commit 1]) .init rfl,
    fun c => ?_, rfl, rfl⟩
  by_cases h1 : c = 1
  · simp [h1]
  · by_cases h2 : c = 2
    · simp [h2]
    · simp [h1, h2, RootManager.opened]

end AxiomDb.Txn
