import AxiomDb.Lib.Runs
import AxiomDb.Txn.Statements

/-!
# Updates in place

An UPDATE that rewrites a row in its slot leaves one version of it. The field
patches keep the creator in the row's header, so that whoever saw the old row
sees the new one; the rewrite of the whole tuple makes the updating transaction
the creator, so that others see no row. A reader that excludes the updating
transaction therefore reads what was there before only if it sees none of the
rows that are rewritten (`reads_before_update`), as with rows that the
transaction has inserted itself. The id that a row is stamped with is
`active_txn_id()`, that of any active transaction.
-/

namespace AxiomDb.Txn.InPlaceUpdate

open Lib Heap List Function Option

abbrev Rows := RecordId → Option TupleImage

/-- What a snapshot sees of a row. -/
def readRow (rows : Rows) (snap : TransactionSnapshot) (rid : RecordId) : Option Bytes :=
  (rows rid).bind fun image => if image.1.isVisible snap then some image.2 else none

/-- Where the updating transaction is. -/
inductive Phase where
  | unused
  | active
  | committed
  | rolledBack
  deriving DecidableEq, Repr

/-- What a reader was given. `early`: its snapshot was taken before the update was committed. -/
structure Read where
  early : Bool
  snap : TransactionSnapshot
  rows : RecordId → Option Bytes

structure State where
  txns : Txns
  rows : Rows
  phase : Phase
  /-- The rows changed, with what was there before, the last first. -/
  changed : List (RecordId × Option TupleImage)
  /-- Whose frozen snapshot was taken before the commit. -/
  early : TxnId → Bool
  reads : List Read

inductive Event where
  | begin (freeze : Bool)
  /-- The row is stamped with the first id of the set of active ones. -/
  | insert (rid : RecordId) (stamp : TxnId) (data : Bytes)
  /-- The field patches of `fused_index_range_patch` and `execute_update_with_candidates`. -/
  | patch (rid : RecordId) (data : Bytes)
  /-- `try_rewrite_tuple_same_slot`, where the tuple fits, with such a stamp. -/
  | rewrite (rid : RecordId) (stamp : TxnId) (data : Bytes)
  | commit
  | rollback
  | read (r : TxnId)
  /-- A reader ends. -/
  | finish (r : TxnId) (commits : Bool)

/-- The images are put back, the last first. -/
def restore (rows : Rows) : List (RecordId × Option TupleImage) → Rows
  | [] => rows
  | (rid, image) :: changed => restore (Function.update rows rid image) changed

namespace State

def init (maxCommitted : TxnId) (rows : Rows) : State :=
  ⟨.opened maxCommitted, rows, .unused, [], fun _ => false, []⟩

/-- A slot gets another tuple; what was there is recorded. -/
def write (s : State) (rid : RecordId) (image : TupleImage) : State :=
  { s with rows := Function.update s.rows rid (some image), changed := (rid, s.rows rid) :: s.changed }

/-- A row that the updating transaction sees is written. -/
def update (s : State) (u : TxnId) (rid : RecordId) (f : RowHeader → RowHeader) (data : Bytes) :
    Option State :=
  if s.phase = .active then
    match s.rows rid with
    | none => none
    | some image =>
      if image.1.isVisible (s.txns.activeSnapshot u) then some (s.write rid (f image.1, data)) else none
  else none

/-- The snapshot of the reader was taken before the commit. -/
def takenEarly (s : State) (r : TxnId) : Bool :=
  if (s.txns.frozen r).isSome then s.early r else decide (s.phase ≠ .committed)

end State

/-- One statement; `u` is the updating transaction, and all others only read. -/
def step (u : TxnId) (s : State) : Event → Option State
  | .begin freeze => some { s with
      txns := s.txns.begin freeze
      phase := if s.txns.nextTxnId = u then .active else s.phase
      early := Function.update s.early s.txns.nextTxnId (decide (s.phase ≠ .committed)) }
  | .insert rid stamp data =>
    if s.phase = .active ∧ s.rows rid = none ∧ stamp ∈ s.txns.activeSet then
      some (s.write rid (⟨stamp, 0, 0, 0⟩, data))
    else none
  | .patch rid data => s.update u rid
      (fun h => { h with txnIdDeleted := 0, rowVersion := (h.rowVersion + 1) % 2 ^ 32 }) data
  | .rewrite rid stamp data =>
    if stamp ∈ s.txns.activeSet then
      s.update u rid (fun h => ⟨stamp, 0, min (h.rowVersion + 1) (2 ^ 32 - 1), h.flags⟩) data
    else none
  | .commit =>
    if s.phase = .active then some { s with phase := .committed, txns := s.txns.commit u } else none
  | .rollback =>
    if s.phase = .active then some { s with
      phase := .rolledBack, txns := s.txns.rollback u, rows := restore s.rows s.changed, changed := [] }
    else none
  | .read r =>
    if r ≠ u ∧ r ∈ s.txns.activeSet then
      let snap := s.txns.activeSnapshot r
      some { s with reads := ⟨s.takenEarly r, snap, readRow s.rows snap⟩ :: s.reads }
    else none
  | .finish r commits =>
    if r ≠ u ∧ r ∈ s.txns.activeSet then
      some { s with txns := if commits then s.txns.commit r else s.txns.rollback r }
    else none

/-! ## Snapshots that exclude the updating transaction -/

/-- The snapshot is another transaction's, and does not include `u`. -/
def Excludes (u : TxnId) (snap : TransactionSnapshot) : Prop :=
  snap.currentTxnId ≠ u ∧ (snap.snapshotId ≤ u ∨ u ∈ snap.activeIds)

theorem Excludes.isVisible_eq_false {u : TxnId} {snap : TransactionSnapshot} {h : RowHeader}
    (he : Excludes u snap) (hc : h.txnIdCreated = u) : h.isVisible snap = false := by
  have hself : (u == snap.currentTxnId) = false := by simpa using he.1.symm
  rcases he.2 with hid | hin
  · simp [RowHeader.isVisible, hc, hself, Nat.not_lt.mpr hid]
  · simp [RowHeader.isVisible, hc, hself, hin]

/-- The snapshot includes the transaction: it is the reader's own, or one that had committed. -/
def Includes (snap : TransactionSnapshot) (t : TxnId) : Prop :=
  t = snap.currentTxnId ∨ t < snap.snapshotId ∧ t ∉ snap.activeIds

theorem isVisible_of_not_includes {snap : TransactionSnapshot} {h : RowHeader}
    (hn : ¬ Includes snap h.txnIdCreated) : h.isVisible snap = false := by
  obtain ⟨hself, hcommitted⟩ := not_or.mp hn
  have hc : (decide (h.txnIdCreated < snap.snapshotId) &&
      !snap.activeIds.contains h.txnIdCreated) = false := by
    simpa using hcommitted
  have hs : (h.txnIdCreated == snap.currentTxnId) = false := by simpa using hself
  rw [RowHeader.isVisible, hc, hs, Bool.and_false]
  rfl

/-- The condition: what the updating transaction inserts or rewrites gets its own id, and at a read
with a snapshot from before the commit, a row that it has changed was its own, or was made by a
transaction that the snapshot does not include. -/
def readsUnchanged (u : TxnId) (s : State) : Event → Prop
  | .insert _ stamp _ | .rewrite _ stamp _ => stamp = u
  | .read r => s.takenEarly r = true → ∀ rid image, (rid, some image) ∈ s.changed →
      image.1.txnIdCreated = u ∨ ¬ Includes (s.txns.activeSnapshot r) image.1.txnIdCreated
  | _ => True

/-! ## What is put back -/

theorem restore_apply (rows : Rows) (changed : List (RecordId × Option TupleImage)) (rid : RecordId) :
    restore rows changed rid = rows rid ∨
      ∃ image, (rid, image) ∈ changed ∧ restore rows changed rid = image := by
  induction changed generalizing rows with
  | nil => exact .inl rfl
  | cons c changed ih =>
    obtain ⟨r, old⟩ := c
    rw [restore]
    rcases ih (Function.update rows r old) with h | ⟨image, hmem, h⟩
    · by_cases hr : rid = r
      · subst hr
        exact .inr ⟨old, mem_cons_self, h.trans (Function.update_self ..)⟩
      · exact .inl (h.trans (update_of_ne hr ..))
    · exact .inr ⟨image, mem_cons_of_mem _ hmem, h⟩

theorem restore_write (s : State) (rid : RecordId) (image : TupleImage) :
    restore (s.write rid image).rows (s.write rid image).changed = restore s.rows s.changed := by
  simp [State.write, restore]

/-! ## Invariants -/

/-- The transactions: `u` is in the active set while it is active, and a snapshot from before its
commit excludes it, unless it has been rolled back. -/
structure Sane (u : TxnId) (s : State) : Prop where
  maxCommitted_lt : s.txns.maxCommitted < s.txns.nextTxnId
  active_lt : ∀ r ∈ s.txns.activeSet, r < s.txns.nextTxnId
  unused_le : s.phase = .unused → s.txns.nextTxnId ≤ u
  used_lt : s.phase ≠ .unused → u < s.txns.nextTxnId
  active_mem : s.phase = .active → u ∈ s.txns.activeSet
  early : s.phase ≠ .committed → ∀ r, (s.txns.frozen r).isSome = true → s.early r = true
  excludes : ∀ r snap, r ≠ u → s.txns.frozen r = some snap → s.early r = true →
    Excludes u snap ∨ s.phase = .rolledBack

namespace Sane

variable {u r : TxnId} {s s' : State}

theorem init {maxCommitted : TxnId} (rows : Rows) (hu : maxCommitted < u) :
    Sane u (State.init maxCommitted rows) where
  maxCommitted_lt := Nat.lt_succ_self _
  active_lt _ h := (not_mem_nil h).elim
  unused_le _ := hu
  used_lt h := (h rfl).elim
  active_mem h := by cases h
  early _ _ h := by cases h
  excludes _ _ _ h := by cases h

/-- A snapshot that is taken now, or a frozen one from before the commit. -/
theorem activeSnapshot (hs : Sane u s) (hr : r ≠ u) (he : s.takenEarly r)
    (hp : s.phase ≠ .rolledBack) : Excludes u (s.txns.activeSnapshot r) := by
  cases hf : s.txns.frozen r with
  | some snap =>
    simp only [State.takenEarly, hf, isSome_some, if_true] at he
    simp only [Txns.activeSnapshot, hf, getD_some]
    exact (hs.excludes r snap hr hf he).resolve_right hp
  | none =>
    simp only [State.takenEarly, hf, isSome_none, Bool.false_eq_true, if_false,
      decide_eq_true_eq] at he
    simp only [Txns.activeSnapshot, hf, getD_none]
    refine ⟨hr, ?_⟩
    cases hph : s.phase with
    | unused =>
      have h1 := hs.maxCommitted_lt
      have h2 := hs.unused_le hph
      exact .inl (Nat.le_trans h1 h2)
    | active => exact .inr (hs.active_mem hph)
    | committed => exact (he hph).elim
    | rolledBack => exact (hp hph).elim

/-- Rows and reads do not matter. -/
theorem congr (hs : Sane u s) (ht : s'.txns = s.txns) (hp : s'.phase = s.phase)
    (he : s'.early = s.early) : Sane u s' where
  maxCommitted_lt := ht ▸ hs.maxCommitted_lt
  active_lt := ht ▸ hs.active_lt
  unused_le h := ht ▸ hs.unused_le (hp ▸ h)
  used_lt h := ht ▸ hs.used_lt (hp ▸ h)
  active_mem h := ht ▸ hs.active_mem (hp ▸ h)
  early h := ht ▸ he ▸ hs.early (hp ▸ h)
  excludes := ht ▸ he ▸ hp ▸ hs.excludes

theorem begin (hs : Sane u s) (freeze : Bool) (h : step u s (.begin freeze) = some s') :
    Sane u s' := by
  cases h
  have hmax := hs.maxCommitted_lt
  refine ⟨Nat.lt_succ_of_lt hmax, fun r hr => ?_, fun hp => ?_, fun hp => ?_, fun hp => ?_,
    fun hp r hr => ?_, fun r snap hr hf he => ?_⟩
  · rcases mem_cons.mp hr with rfl | hr
    · exact Nat.lt_succ_self _
    · exact Nat.lt_succ_of_lt (hs.active_lt r hr)
  · dsimp only at hp
    split at hp
    next => cases hp
    next hne => exact Nat.lt_of_le_of_ne (hs.unused_le hp) hne
  · dsimp only [Txns.begin] at hp ⊢
    split at hp
    next heq => exact heq ▸ Nat.lt_succ_self _
    next => exact Nat.lt_succ_of_lt (hs.used_lt hp)
  · dsimp only [Txns.begin] at hp ⊢
    split at hp
    next heq => exact heq ▸ mem_cons_self
    next => exact mem_cons_of_mem _ (hs.active_mem hp)
  · have hpc : s.phase ≠ .committed := by
      dsimp only at hp
      split at hp
      next heq =>
        intro hc
        exact absurd (hs.used_lt (by rw [hc]; decide)) (by rw [heq]; exact lt_irrefl _)
      next => exact hp
    dsimp only [Txns.begin] at hr ⊢
    by_cases hrn : r = s.txns.nextTxnId
    · rw [hrn, Function.update_self]
      exact decide_eq_true hpc
    · rw [update_of_ne hrn] at hr ⊢
      exact hs.early hpc r hr
  · dsimp only [Txns.begin] at hf he ⊢
    by_cases hrn : r = s.txns.nextTxnId
    · subst hrn
      rw [Function.update_self] at hf he
      have hpc := of_decide_eq_true he
      rw [if_neg hr]
      split at hf <;> cases hf
      next =>
        cases hph : s.phase with
        | unused => exact .inl ⟨hr, .inl (Nat.le_trans hmax (hs.unused_le hph))⟩
        | active => exact .inl ⟨hr, .inr (hs.active_mem hph)⟩
        | committed => exact (hpc hph).elim
        | rolledBack => exact .inr rfl
    · rw [update_of_ne hrn] at hf he
      rcases hs.excludes r snap hr hf he with h | h
      · exact .inl h
      · refine .inr ?_
        rw [if_neg fun heq => ?_, h]
        exact absurd (hs.used_lt (by rw [h]; decide)) (by rw [heq]; exact lt_irrefl _)

/-- A transaction leaves the active set, `u` into a phase of its own. -/
theorem leave (hs : Sane u s) (hr : r ∈ s.txns.activeSet)
    (ht : s'.txns = s.txns.commit r ∨ s'.txns = s.txns.rollback r) (he : s'.early = s.early)
    (hp : s'.phase = s.phase ∧ r ≠ u ∨
      s.phase = .active ∧ (s'.phase = .committed ∨ s'.phase = .rolledBack)) : Sane u s' := by
  obtain ⟨hnext, hfrozen, hset⟩ : s'.txns.nextTxnId = s.txns.nextTxnId ∧
      s'.txns.frozen = s.txns.frozen ∧ s'.txns.activeSet = s.txns.activeSet.filter (· != r) := by
    rcases ht with ht | ht <;> rw [ht] <;> exact ⟨rfl, rfl, rfl⟩
  have hmax : s'.txns.maxCommitted < s.txns.nextTxnId := by
    rcases ht with ht | ht <;> rw [ht]
    · exact max_lt hs.maxCommitted_lt (hs.active_lt r hr)
    · exact hs.maxCommitted_lt
  have hrest : ∀ x, x ∈ s'.txns.activeSet ↔ x ∈ s.txns.activeSet ∧ x ≠ r := by
    intro x
    rw [hset]
    simp
  obtain ⟨hunused, hused, hactive, hcommitted, hrolled⟩ :
      (s'.phase = .unused → s.phase = .unused) ∧ (s'.phase ≠ .unused → s.phase ≠ .unused) ∧
      (s'.phase = .active → s.phase = .active ∧ u ≠ r) ∧
      (s'.phase ≠ .committed → s.phase ≠ .committed) ∧
      (s.phase = .rolledBack → s'.phase = .rolledBack) := by
    rcases hp with ⟨hp, hne⟩ | ⟨ha, hp | hp⟩
    · simp [hp, hne.symm]
    all_goals simp [hp, ha]
  refine ⟨hnext ▸ hmax, fun x hx => hnext ▸ hs.active_lt x ((hrest x).mp hx).1,
    fun h => hnext ▸ hs.unused_le (hunused h), fun h => hnext ▸ hs.used_lt (hused h), fun h => ?_,
    fun h x hx => ?_, fun x snap hx hf hearly => ?_⟩
  · exact (hrest u).mpr ⟨hs.active_mem (hactive h).1, (hactive h).2⟩
  · rw [hfrozen] at hx
    exact he ▸ hs.early (hcommitted h) x hx
  · rw [hfrozen] at hf
    rw [he] at hearly
    exact (hs.excludes x snap hx hf hearly).imp id hrolled

end Sane

/-- The rows: undoing the changes gives back the rows of the start, and a row that is changed has the
updating transaction or the creator it had before as its creator. -/
structure Kept (u : TxnId) (rows₀ : Rows) (s : State) : Prop extends Sane u s where
  restore : restore s.rows s.changed = rows₀
  rolledBack : s.phase = .rolledBack → s.changed = []
  creator : ∀ rid old, (rid, old) ∈ s.changed → ∃ image, s.rows rid = some image ∧
    (image.1.txnIdCreated = u ∨
      ∃ before, (rid, some before) ∈ s.changed ∧ before.1.txnIdCreated = image.1.txnIdCreated)
  reads_early : s.phase ≠ .committed → ∀ rd ∈ s.reads, rd.early = true
  reads : ∀ rd ∈ s.reads, rd.early = true → ∀ rid, rd.rows rid = readRow rows₀ rd.snap rid

namespace Kept

variable {u : TxnId} {rows₀ : Rows} {s s' : State} {rid : RecordId} {image : TupleImage}

theorem readRow_eq_none {snap : TransactionSnapshot} {rows : Rows} (he : Excludes u snap)
    (hr : rows rid = some image)
    (hc : image.1.txnIdCreated = u ∨ ¬ Includes snap image.1.txnIdCreated) :
    readRow rows snap rid = none := by
  have hv : image.1.isVisible snap = false := hc.elim he.isVisible_eq_false isVisible_of_not_includes
  simp [readRow, hr, hv]

/-- A reader that meets the condition is given the rows of the start. -/
theorem readRow_eq (hs : Kept u rows₀ s) {r : TxnId} (hok : readsUnchanged u s (.read r))
    (hr : r ≠ u) (he : s.takenEarly r) (rid : RecordId) :
    readRow s.rows (s.txns.activeSnapshot r) rid = readRow rows₀ (s.txns.activeSnapshot r) rid := by
  have hrest := congrFun hs.restore rid
  rcases restore_apply s.rows s.changed rid with h | ⟨old, hmem, h⟩
  · rw [readRow, readRow, ← hrest, h]
  -- the row is changed, and what was there at the start is `old`
  have hp : s.phase ≠ .rolledBack := fun hp => by
    rw [hs.rolledBack hp] at hmem
    cases hmem
  have hex := hs.activeSnapshot hr he hp
  have hold : rows₀ rid = old := hrest.symm.trans h
  have hnow : readRow s.rows (s.txns.activeSnapshot r) rid = none := by
    obtain ⟨image, him, hc⟩ := hs.creator rid old hmem
    refine readRow_eq_none hex him ?_
    rcases hc with hc | ⟨before, hbefore, hsame⟩
    · exact .inl hc
    · exact hsame ▸ hok he rid before hbefore
  rw [hnow]
  cases old with
  | none => rw [readRow, hold]; rfl
  | some image => exact (readRow_eq_none hex hold (hok he rid image hmem)).symm

theorem init {maxCommitted : TxnId} (hu : maxCommitted < u) :
    Kept u rows₀ (State.init maxCommitted rows₀) where
  toSane := .init rows₀ hu
  restore := rfl
  rolledBack _ := rfl
  creator _ _ h := (not_mem_nil h).elim
  reads_early _ _ h := (not_mem_nil h).elim
  reads _ h := (not_mem_nil h).elim

theorem of_rows (hs : Kept u rows₀ s) (hsane : Sane u s') (hrows : s'.rows = s.rows)
    (hch : s'.changed = s.changed) (hreads : s'.reads = s.reads)
    (hr : s'.phase = .rolledBack → s.phase = .rolledBack)
    (hc : s'.phase ≠ .committed → s.phase ≠ .committed) : Kept u rows₀ s' where
  toSane := hsane
  restore := by rw [hrows, hch, hs.restore]
  rolledBack h := by rw [hch, hs.rolledBack (hr h)]
  creator := by rw [hrows, hch]; exact hs.creator
  reads_early h := by rw [hreads]; exact hs.reads_early (hc h)
  reads := by rw [hreads]; exact hs.reads

theorem write (hs : Kept u rows₀ s) (ha : s.phase = .active)
    (hc : image.1.txnIdCreated = u ∨
      ∃ before, s.rows rid = some before ∧ before.1.txnIdCreated = image.1.txnIdCreated) :
    Kept u rows₀ (s.write rid image) where
  toSane := hs.toSane.congr rfl rfl rfl
  restore := (restore_write s rid image).trans hs.restore
  rolledBack h := by
    rw [show (s.write rid image).phase = s.phase from rfl, ha] at h
    cases h
  creator := by
    intro r old hmem
    dsimp only [State.write] at hmem ⊢
    by_cases hr : r = rid
    · subst hr
      refine ⟨image, update_self .., hc.imp_right ?_⟩
      rintro ⟨before, hbefore, hsame⟩
      exact ⟨before, hbefore ▸ mem_cons_self, hsame⟩
    · rw [update_of_ne hr]
      rcases mem_cons.mp hmem with h | h
      · cases h
        exact (hr rfl).elim
      · obtain ⟨now, hnow, hc⟩ := hs.creator r old h
        refine ⟨now, hnow, hc.imp_right ?_⟩
        rintro ⟨before, hbefore, hsame⟩
        exact ⟨before, mem_cons_of_mem _ hbefore, hsame⟩
  reads_early := hs.reads_early
  reads := hs.reads

theorem update (hs : Kept u rows₀ s) {f : RowHeader → RowHeader} {data : Bytes}
    (hf : ∀ h, (f h).txnIdCreated = u ∨ (f h).txnIdCreated = h.txnIdCreated)
    (h : s.update u rid f data = some s') : Kept u rows₀ s' := by
  rw [State.update] at h
  split at h
  next ha =>
    cases hr : s.rows rid with
    | none =>
      rw [hr] at h
      cases h
    | some image =>
      simp only [hr] at h
      split at h <;> cases h
      exact hs.write ha ((hf image.1).imp_right fun h => ⟨image, hr, h.symm⟩)
  next => cases h

theorem step {e : Event} (hs : Kept u rows₀ s) (hok : readsUnchanged u s e)
    (h : step u s e = some s') : Kept u rows₀ s' := by
  cases e <;> simp only [InPlaceUpdate.step] at h
  case begin freeze =>
    have hsane := hs.toSane.begin freeze h
    cases h
    -- `u` begins once
    have hold : s.txns.nextTxnId = u → s.phase = .unused := fun heq => by
      by_contra hne
      exact absurd (hs.used_lt hne) (by rw [heq]; exact lt_irrefl _)
    refine hs.of_rows hsane rfl rfl rfl (fun hp => ?_) fun hp => ?_
    · dsimp only at hp
      split at hp
      · cases hp
      · exact hp
    dsimp only at hp
    split at hp
    next heq =>
      rw [hold heq]
      decide
    next => exact hp
  case insert rid stamp data =>
    split at h <;> cases h
    next hc => exact hs.write hc.1 (.inl hok)
  case patch rid data =>
    refine hs.update ?_ h
    exact fun _ => .inr rfl
  case rewrite rid stamp data =>
    split at h
    next =>
      refine hs.update ?_ h
      exact fun _ => .inl hok
    next => cases h
  case commit =>
    split at h <;> cases h
    next ha =>
      have hsane : Sane u { s with phase := .committed, txns := s.txns.commit u } :=
        hs.toSane.leave (hs.active_mem ha) (.inl rfl) rfl (.inr ⟨ha, .inl rfl⟩)
      exact hs.of_rows hsane rfl rfl rfl (fun h => by cases h) fun h => (h rfl).elim
  case rollback =>
    split at h <;> cases h
    next ha =>
      exact {
        toSane := hs.toSane.leave (hs.active_mem ha) (.inr rfl) rfl (.inr ⟨ha, .inr rfl⟩)
        restore := hs.restore
        rolledBack := fun _ => rfl
        creator := fun _ _ h => (not_mem_nil h).elim
        reads_early := fun _ => hs.reads_early (by rw [ha]; decide)
        reads := hs.reads }
  case read r =>
    split at h <;> cases h
    next hr =>
      refine ⟨hs.toSane.congr rfl rfl rfl, hs.restore, hs.rolledBack, hs.creator, fun hp rd hrd => ?_,
        fun rd hrd he rid => ?_⟩
      · rcases mem_cons.mp hrd with rfl | hrd
        · dsimp only [State.takenEarly]
          split
          next hf => exact hs.early hp r hf
          next => exact decide_eq_true hp
        · exact hs.reads_early hp rd hrd
      · rcases mem_cons.mp hrd with rfl | hrd
        · exact hs.readRow_eq hok hr.1 he rid
        · exact hs.reads rd hrd he rid
  case finish r commits =>
    split at h <;> cases h
    next hr =>
      refine hs.of_rows (hs.toSane.leave hr.2 ?_ rfl (.inl ⟨rfl, hr.1⟩)) rfl rfl rfl (fun h => h) fun h => h
      cases commits
      · exact .inr rfl
      · exact .inl rfl

end Kept

/-! ## Runs -/

/-- **Updates in place.** In every interleaving of the updating transaction with readers in which the
reads meet the condition, a reader whose snapshot was taken before the commit is given, of every row,
what the snapshot sees of the rows before the update; and if the transaction has rolled back, every
reader was. -/
theorem reads_before_update {u maxCommitted : TxnId} {rows₀ : Rows} {s : State}
    (hu : maxCommitted < u)
    (h : Reached (step u) (readsUnchanged u) (State.init maxCommitted rows₀) s) :
    (∀ rd ∈ s.reads, rd.early = true → ∀ rid, rd.rows rid = readRow rows₀ rd.snap rid) ∧
      (s.phase = .rolledBack → ∀ rd ∈ s.reads, ∀ rid, rd.rows rid = readRow rows₀ rd.snap rid) := by
  have hs : Kept u rows₀ s := Reached.invariant (.init hu) Kept.step h
  refine ⟨hs.reads, fun hp rd hrd => hs.reads rd hrd (hs.reads_early ?_ rd hrd)⟩
  rw [hp]
  decide

/-- One committed row. -/
def oneRow : Rows := fun rid => if rid = ⟨1, 0⟩ then some (⟨1, 0, 0, 0⟩, [1]) else none

/-- The transaction patches a row that it has inserted itself while another reads. -/
theorem reads_before_update_own : ∃ s, Reached (step 2) (readsUnchanged 2) (State.init 1 oneRow) s ∧
      s.rows ⟨1, 1⟩ = some (⟨2, 0, 1, 0⟩, [9]) ∧ s.reads.length = 1 ∧
      ∀ rd ∈ s.reads, rd.early = true → ∀ rid, rd.rows rid = readRow oneRow rd.snap rid := by
  have h₁ : Reached (step 2) (readsUnchanged 2) (State.init 1 oneRow) _ :=
    .step (e := .begin false) (.step (e := .patch ⟨1, 1⟩ [9]) (.step (e := .insert ⟨1, 1⟩ 2 [5])
      (.step (e := .begin false) .init trivial rfl) rfl rfl) trivial rfl) trivial rfl
  have h₂ := Reached.step (e := Event.read 3) h₁ (fun _ rid image hmem => by
    rcases mem_cons.mp hmem with h | h
    · cases h
      exact .inl rfl
    · cases mem_singleton.mp h) rfl
  exact ⟨_, h₂, rfl, rfl, (reads_before_update (by decide) h₂).1⟩

/-- A row is patched and read before the commit: the reader is given the new value. -/
theorem read_of_uncommitted :
    ∃ s, Reached (step 2) Lib.free (State.init 1 oneRow) s ∧ s.phase = .active ∧
      ∃ rd ∈ s.reads, rd.early = true ∧ rd.rows ⟨1, 0⟩ = some [9] ∧
        readRow oneRow rd.snap ⟨1, 0⟩ = some [1] := by
  have h : Reached (step 2) Lib.free (State.init 1 oneRow) _ :=
    .step (e := .read 3) (.step (e := .begin false) (.step (e := .patch ⟨1, 0⟩ [9])
      (.step (e := .begin false) .init trivial rfl) trivial rfl) trivial rfl) trivial rfl
  exact ⟨_, h, rfl, _, mem_cons_self, rfl, rfl, rfl⟩

end AxiomDb.Txn.InPlaceUpdate
