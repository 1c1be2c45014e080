import AxiomDb.Lib.Runs
import AxiomDb.Txn.Statements

/-!
# Unique secondary indexes

`insert_into_indexes_with_undo` looks for the entries of the row's key. An entry
whose row the inserting transaction sees is a duplicate; any other is taken for
the entry of a dead row and removed. Where every row that is not deleted and has
the key is seen, rows stay unique and keep their entries (`unique_keys`). A row of
a transaction that has not committed yet is not seen either (`duplicate_committed`).
A row is stamped with `active_txn_id()`, which is the id of any active transaction.
-/

namespace AxiomDb.Sql.UniqueIndex

open Lib Heap Txn List Function Option

variable {κ ι : Type} [DecidableEq κ] [DecidableEq ι]

/-- A row of the heap. The key is that of the index, or none if it has a NULL or the predicate of
the index does not hold; `included` are the values of the INCLUDE columns. -/
structure Row (κ ι : Type) where
  header : RowHeader
  key : Option κ
  included : ι

/-- An entry of the tree. The bytes of its key are those of `key` and `included`. -/
structure Entry (κ ι : Type) where
  key : κ
  included : ι
  rid : Nat
  deriving DecidableEq

/-- `UndoOp` in `txn.rs`. -/
inductive UndoOp (κ ι : Type) where
  | insert (rid : Nat)
  /-- `UndoIndexInsert`. -/
  | indexInsert (key : κ) (included : ι)
  deriving DecidableEq

/-- A table with one unique index. Rows get their addresses in order. -/
structure Table (κ ι : Type) where
  rows : Nat → Option (Row κ ι)
  nextRid : Nat
  index : List (Entry κ ι)
  txns : Txns
  /-- The undo operations of each active transaction, the last first. -/
  conns : TxnId → Option (List (UndoOp κ ι))
  committed : List TxnId

inductive Event (κ ι : Type) where
  | begin (freeze : Bool)
  /-- An INSERT of `t`; the row is stamped with the first id of the set of active ones. -/
  | insert (t stamp : TxnId) (key : Option κ) (included : ι)
  | commit (t : TxnId)
  | rollback (t : TxnId)

/-- `delete_in` with the key of an entry. -/
def deleteIn (index : List (Entry κ ι)) (key : κ) (included : ι) : List (Entry κ ι) :=
  index.filter fun e => !(e.key == key && e.included == included)

/-- The loop over the existing entries of a key: the index, and whether no row was visible. -/
def removeStale (visible : Nat → Bool) :
    List (Entry κ ι) → List (Entry κ ι) → List (Entry κ ι) × Bool
  | [], index => (index, true)
  | e :: existing, index =>
    if visible e.rid then (index, false)
    else removeStale visible existing (deleteIn index e.key e.included)

/-- `HeapChain::is_slot_visible`. -/
def isSlotVisible (rows : Nat → Option (Row κ ι)) (snap : TransactionSnapshot) (rid : Nat) : Bool :=
  (rows rid).any fun row => row.header.isVisible snap

/-- One row of an INSERT; when there is a duplicate the row is removed again. -/
def insertRow (s : Table κ ι) (t stamp : TxnId) (undo : List (UndoOp κ ι)) (key : Option κ) (included : ι) :
    Table κ ι :=
  let rid := s.nextRid
  let rows := update s.rows rid (some ⟨⟨stamp, 0, 0, 0⟩, key, included⟩)
  match key with
  | none => { s with
      rows, nextRid := rid + 1, conns := update s.conns t (some (.insert rid :: undo)) }
  | some k =>
    let r := removeStale (isSlotVisible rows (s.txns.activeSnapshot t))
      (s.index.filter (·.key == k)) s.index
    if r.2 then { s with
      rows, nextRid := rid + 1, index := ⟨k, included, rid⟩ :: r.1
      conns := update s.conns t
        (some (.indexInsert k included :: .insert rid :: undo)) }
    else { s with nextRid := rid + 1, index := r.1 }

/-- `rollback_with_index_undo`: the entries, by their keys, and then the rows. -/
def undoAll (s : Table κ ι) (undo : List (UndoOp κ ι)) : Table κ ι where
  rows rid := if .insert rid ∈ undo then none else s.rows rid
  nextRid := s.nextRid
  index := s.index.filter fun e => .indexInsert e.key e.included ∉ undo
  txns := s.txns
  conns := s.conns
  committed := s.committed

/-- One statement. -/
def step (s : Table κ ι) : Event κ ι → Option (Table κ ι)
  | .begin freeze => some { s with
      txns := s.txns.begin freeze, conns := update s.conns s.txns.nextTxnId (some []) }
  | .insert t stamp key included => (s.conns stamp).bind fun _ =>
      (s.conns t).map fun undo => insertRow s t stamp undo key included
  | .commit t => (s.conns t).map fun _ => { s with
      txns := s.txns.commit t, conns := update s.conns t none, committed := t :: s.committed }
  | .rollback t => (s.conns t).map fun undo => { undoAll s undo with
      txns := s.txns.rollback t, conns := update s.conns t none }

/-! ## The condition -/

/-- The inserting transaction sees every row with an entry of the key that is not deleted. -/
def seesLive (s : Table κ ι) : Event κ ι → Prop
  | .insert t _ key _ => ∀ k, key = some k → ∀ e ∈ s.index, e.key = k →
      ∀ row, s.rows e.rid = some row → row.header.txnIdDeleted = 0 →
        row.header.isVisible (s.txns.activeSnapshot t) = true
  | _ => True

/-- Each key has one entry, and each row that is not deleted has its entry. -/
structure Indexed (s : Table κ ι) : Prop where
  nodup : (s.index.map Entry.key).Nodup
  entry : ∀ rid row k, s.rows rid = some row → row.header.txnIdDeleted = 0 → row.key = some k →
    ⟨k, row.included, rid⟩ ∈ s.index
  rows_lt : ∀ rid, s.nextRid ≤ rid → s.rows rid = none
  entries_lt : ∀ e ∈ s.index, e.rid < s.nextRid

/-- What the undo operations of active transactions will remove is their own. -/
structure Owned (s : Table κ ι) : Prop extends Indexed s where
  own_row : ∀ t undo rid, s.conns t = some undo → .insert rid ∈ undo →
    ∃ row, s.rows rid = some row ∧ row.header.txnIdDeleted = 0
  own_unique : ∀ t t' undo undo' rid, s.conns t = some undo → s.conns t' = some undo' →
    .insert rid ∈ undo → .insert rid ∈ undo' → t = t'
  own_entry : ∀ t undo k i, s.conns t = some undo → .indexInsert k i ∈ undo →
    ∃ rid, .insert rid ∈ undo ∧ ⟨k, i, rid⟩ ∈ s.index

/-! ## The loop -/

variable {index : List (Entry κ ι)} {k : κ}

omit [DecidableEq κ] [DecidableEq ι] in
theorem eq_of_key (hn : (index.map Entry.key).Nodup) {e e' : Entry κ ι} (he : e ∈ index)
    (he' : e' ∈ index) (h : e.key = e'.key) : e = e' :=
  inj_on_of_nodup_map hn he he' h

/-- Where the live rows of the key are seen, the entries of live rows stay, and if there is no
duplicate no entry of the key is left. -/
theorem removeStale_spec {visible live : Nat → Bool} (hn : (index.map Entry.key).Nodup)
    (hl : ∀ e ∈ index, e.key = k → live e.rid → visible e.rid) :
    (removeStale visible (index.filter (·.key == k)) index).1.Sublist index ∧
      (∀ e ∈ index, live e.rid → e ∈ (removeStale visible (index.filter (·.key == k)) index).1) ∧
      ((removeStale visible (index.filter (·.key == k)) index).2 →
        ∀ e ∈ (removeStale visible (index.filter (·.key == k)) index).1, e.key ≠ k) := by
  have hmem : ∀ e, e ∈ index.filter (·.key == k) ↔ e ∈ index ∧ e.key = k := by simp
  have hnf : (index.filter (·.key == k)).Nodup := (Nodup.of_map _ hn).filter _
  cases hf : index.filter (·.key == k) with
  | nil =>
    refine ⟨.refl _, fun e he _ => he, fun _ e he hk => ?_⟩
    simpa [hf] using (hmem e).mpr ⟨he, hk⟩
  | cons e rest =>
    obtain ⟨he, hk⟩ := (hmem e).mp (hf ▸ mem_cons_self)
    -- there is one entry of the key
    obtain rfl : rest = [] := by
      rw [hf, nodup_cons] at hnf
      refine eq_nil_iff_forall_not_mem.mpr fun e' he' => hnf.1 ?_
      obtain ⟨hmem', hk'⟩ := (hmem e').mp (hf ▸ mem_cons_of_mem _ he')
      exact eq_of_key hn hmem' he (hk'.trans hk.symm) ▸ he'
    rw [removeStale]
    split
    next => exact ⟨.refl _, fun e he _ => he, fun h => by cases h⟩
    next hv =>
      refine ⟨filter_sublist, fun e' he' hlive => ?_, fun _ e' he' hk' => ?_⟩
      · refine mem_filter.mpr ⟨he', ?_⟩
        have hne : e'.key ≠ e.key := fun h => by
          obtain rfl := eq_of_key hn he' he h
          exact hv (hl e' he' hk hlive)
        simp [hne]
      · obtain ⟨hmem', hkeep⟩ := mem_filter.mp he'
        obtain rfl := eq_of_key hn hmem' he (hk'.trans hk.symm)
        simp at hkeep

/-! ## Statements keep the invariant -/

/-- Present and not deleted. -/
def live (s : Table κ ι) (rid : Nat) : Bool := (s.rows rid).any fun row => row.header.txnIdDeleted == 0

namespace Owned

variable {s : Table κ ι} {t stamp : TxnId} {undo : List (UndoOp κ ι)} {included : ι}

variable {e : Entry κ ι} {index : List (Entry κ ι)} {rid : Nat} {row : Row κ ι}

section

variable (hs : Owned s) {key : Option κ} {txns : Txns} {t' : TxnId}
include hs

/-- What the loop does for an insert that meets the condition. -/
theorem removeStale {ok : Bool} (hok : seesLive s (.insert t stamp (some k) included))
    (hr : UniqueIndex.removeStale (isSlotVisible (update s.rows s.nextRid (some row))
      (s.txns.activeSnapshot t)) (s.index.filter (·.key == k)) s.index = (index, ok)) :
    index.Sublist s.index ∧ (∀ e ∈ s.index, live s e.rid → e ∈ index) ∧
      (ok → ∀ e ∈ index, e.key ≠ k) := by
  have hl : ∀ e ∈ s.index, e.key = k → live s e.rid →
      isSlotVisible (update s.rows s.nextRid (some row)) (s.txns.activeSnapshot t) e.rid =
        true := by
    intro e he hk hlive
    obtain ⟨x, hx, hdel⟩ := (any_eq_true _ _).mp hlive
    rw [isSlotVisible, update_of_ne (hs.entries_lt e he).ne, hx]
    exact hok k rfl e he hk x hx (beq_iff_eq.mp hdel)
  have hspec := removeStale_spec hs.nodup hl
  rwa [hr] at hspec

omit [DecidableEq κ] [DecidableEq ι] in
theorem rid_lt (h : s.rows rid = some row) : rid < s.nextRid := by
  by_contra hge
  rw [hs.rows_lt rid (not_lt.mp hge)] at h
  cases h

omit [DecidableEq κ] [DecidableEq ι] in
theorem live_of_own (ht : s.conns t = some undo) (h : .insert rid ∈ undo) : live s rid = true := by
  obtain ⟨row, hrow, hdel⟩ := hs.own_row t undo rid ht h
  simp [live, hrow, hdel]

omit [DecidableEq κ] [DecidableEq ι] in
/-- A row is added, with or without an entry, to an index that has kept the entries of live rows. -/
theorem add (ht : s.conns t = some undo)
    {ops : List (UndoOp κ ι)} (hn : (index.map Entry.key).Nodup)
    (hkeep : ∀ e ∈ s.index, live s e.rid = true → e ∈ index)
    (hlt : ∀ e ∈ index, e.rid < s.nextRid + 1)
    (hnew : ∀ k, key = some k → ⟨k, included, s.nextRid⟩ ∈ index)
    (hops : ∀ op ∈ ops, op = .insert s.nextRid ∨ op ∈ undo ∨
      ∃ k, key = some k ∧ op = .indexInsert k included)
    (hsub : .insert s.nextRid ∈ ops ∧ ∀ op ∈ undo, op ∈ ops) :
    Owned { s with
      rows := update s.rows s.nextRid (some ⟨⟨stamp, 0, 0, 0⟩, key, included⟩)
      nextRid := s.nextRid + 1, index, conns := update s.conns t (some ops) } where
  nodup := hn
  entry := by
    intro rid row k hrow hdel hk
    dsimp only at hrow ⊢
    by_cases hr : rid = s.nextRid
    · subst hr
      rw [update_self, some.injEq] at hrow
      subst hrow
      exact hnew k hk
    · rw [update_of_ne hr] at hrow
      exact hkeep _ (hs.entry rid row k hrow hdel hk) (by simp [live, hrow, hdel])
  rows_lt := by
    intro rid hge
    dsimp only at hge ⊢
    rw [update_of_ne (by omega)]
    exact hs.rows_lt rid (by omega)
  entries_lt := hlt
  own_row := by
    intro t' undo' rid ht' hins
    dsimp only at ht' ⊢
    have hold : ∀ {t'' ops}, s.conns t'' = some ops → .insert rid ∈ ops →
        ∃ row, update s.rows s.nextRid (some ⟨⟨stamp, 0, 0, 0⟩, key, included⟩) rid = some row ∧
          row.header.txnIdDeleted = 0 := by
      intro t'' ops h hmem
      obtain ⟨row, hrow, hrest⟩ := hs.own_row t'' ops rid h hmem
      exact ⟨row, by rw [update_of_ne (hs.rid_lt hrow).ne, hrow], hrest⟩
    by_cases htt : t' = t
    · subst htt
      rw [update_self, some.injEq] at ht'
      subst ht'
      rcases hops _ hins with h | h | ⟨k, -, h⟩
      · cases h
        exact ⟨_, Function.update_self .., rfl⟩
      · exact hold ht h
      · cases h
    · rw [update_of_ne htt] at ht'
      exact hold ht' hins
  own_unique := by
    -- the address is new, so no other transaction has it
    have hmem {t' undo' rid} (ht' : update s.conns t (some ops) t' = some undo')
        (hins : .insert rid ∈ undo') : t' = t ∧ rid = s.nextRid ∨
          ∃ undo'', s.conns t' = some undo'' ∧ .insert rid ∈ undo'' := by
      by_cases htt : t' = t
      · subst htt
        rw [Function.update_self, some.injEq] at ht'
        subst ht'
        rcases hops _ hins with h | h | ⟨k, -, h⟩
        · cases h
          exact .inl ⟨rfl, rfl⟩
        · exact .inr ⟨undo, ht, h⟩
        · cases h
      · rw [update_of_ne htt] at ht'
        exact .inr ⟨undo', ht', hins⟩
    have hne {t' undo'} (ht' : s.conns t' = some undo') : .insert s.nextRid ∉ undo' := fun h => by
      obtain ⟨row, hrow, -⟩ := hs.own_row t' undo' _ ht' h
      exact (hs.rid_lt hrow).false
    intro t₁ t₂ undo₁ undo₂ rid h₁ h₂ hins₁ hins₂
    rcases hmem h₁ hins₁ with ⟨ht₁, hrid₁⟩ | ⟨ops₁, hold₁, hmem₁⟩ <;>
      rcases hmem h₂ hins₂ with ⟨ht₂, hrid₂⟩ | ⟨ops₂, hold₂, hmem₂⟩
    · exact ht₁.trans ht₂.symm
    · exact absurd (hrid₁ ▸ hmem₂) (hne hold₂)
    · exact absurd (hrid₂ ▸ hmem₁) (hne hold₁)
    · exact hs.own_unique t₁ t₂ ops₁ ops₂ rid hold₁ hold₂ hmem₁ hmem₂
  own_entry := by
    intro t' undo' k i ht' hins
    dsimp only at ht' ⊢
    have hold : ∀ {t'' ops}, s.conns t'' = some ops → .indexInsert k i ∈ ops →
        ∃ rid, .insert rid ∈ ops ∧ ⟨k, i, rid⟩ ∈ index := by
      intro t'' ops h hmem
      obtain ⟨rid, hrid, hmem⟩ := hs.own_entry t'' ops k i h hmem
      exact ⟨rid, hrid, hkeep _ hmem (hs.live_of_own h hrid)⟩
    by_cases htt : t' = t
    · subst htt
      rw [Function.update_self, some.injEq] at ht'
      subst ht'
      rcases hops _ hins with h | h | ⟨k', hk', h⟩
      · cases h
      · obtain ⟨rid, hrid, hmem⟩ := hold ht h
        exact ⟨rid, hsub.2 _ hrid, hmem⟩
      · cases h
        exact ⟨_, hsub.1, hnew _ hk'⟩
    · rw [update_of_ne htt] at ht'
      exact hold ht' hins

omit [DecidableEq κ] [DecidableEq ι] in
/-- Entries of dead rows are removed by a statement that then fails. -/
theorem fail (hsub : index.Sublist s.index)
    (hkeep : ∀ e ∈ s.index, live s e.rid = true → e ∈ index) : Owned { s with nextRid := s.nextRid + 1, index } where
  nodup := (hsub.map _).nodup hs.nodup
  entry rid row k hrow hdel hk :=
    hkeep _ (hs.entry rid row k hrow hdel hk) (by simp [live, show s.rows rid = some row from hrow, hdel])
  rows_lt rid hge := hs.rows_lt rid (Nat.le_of_succ_le hge)
  entries_lt e he := Nat.lt_succ_of_lt (hs.entries_lt e (hsub.subset he))
  own_row := hs.own_row
  own_unique := hs.own_unique
  own_entry t' undo' k i ht hins := by
    obtain ⟨rid, hrid, hmem⟩ := hs.own_entry t' undo' k i ht hins
    exact ⟨rid, hrid, hkeep _ hmem (hs.live_of_own ht hrid)⟩

theorem insertRow (ht : s.conns t = some undo)
    (hok : seesLive s (.insert t stamp key included)) : Owned (insertRow s t stamp undo key included) ∧
      ∀ e ∈ s.index, live s e.rid → e ∈ (UniqueIndex.insertRow s t stamp undo key included).index := by
  cases key with
  | none =>
    refine ⟨hs.add ht hs.nodup (fun e he _ => he)
      (fun e he => Nat.lt_succ_of_lt (hs.entries_lt e he)) (fun k hk => by cases hk)
      (fun op hop => ?_) ⟨mem_cons_self, fun op => mem_cons_of_mem _⟩, fun e he _ => he⟩
    rcases mem_cons.mp hop with h | h
    · exact .inl h
    · exact .inr (.inl h)
  | some k =>
    simp only [UniqueIndex.insertRow]
    cases hr : UniqueIndex.removeStale (isSlotVisible (update s.rows s.nextRid
      (some ⟨⟨stamp, 0, 0, 0⟩, some k, included⟩)) (s.txns.activeSnapshot t))
      (s.index.filter (·.key == k)) s.index with
    | mk index ok =>
      obtain ⟨hsub, hkeep, hnone⟩ := hs.removeStale hok hr
      cases ok with
      | false => exact ⟨hs.fail hsub hkeep, hkeep⟩
      | true =>
        have hkept : ∀ e ∈ s.index, live s e.rid → e ∈ ⟨k, included, s.nextRid⟩ :: index :=
          fun e he hl => mem_cons_of_mem _ (hkeep e he hl)
        refine ⟨hs.add ht ?_ hkept (fun e he => ?_) (fun k' hk' => ?_) (fun op hop => ?_)
          ⟨mem_cons_of_mem _ mem_cons_self, fun op hop => mem_cons_of_mem _ (mem_cons_of_mem _ hop)⟩,
          hkept⟩
        · rw [map_cons, nodup_cons]
          refine ⟨fun hmem => ?_, (hsub.map _).nodup hs.nodup⟩
          obtain ⟨e, he, hk⟩ := mem_map.mp hmem
          exact hnone rfl e he hk
        · rcases mem_cons.mp he with rfl | he
          · exact Nat.lt_succ_self _
          · exact Nat.lt_succ_of_lt (hs.entries_lt e (hsub.subset he))
        · cases hk'
          exact mem_cons_self
        · rcases mem_cons.mp hop with h | hop
          · exact .inr (.inr ⟨k, rfl, h⟩)
          · rcases mem_cons.mp hop with h | h
            · exact .inl h
            · exact .inr (.inl h)

omit [DecidableEq κ] [DecidableEq ι] in
/-- An entry of a row that is not the transaction's own is not removed with its own. -/
theorem not_own (ht : s.conns t = some undo) (he : e ∈ s.index)
    (hrow : .insert e.rid ∉ undo) : .indexInsert e.key e.included ∉ undo := by
  intro hmem
  obtain ⟨rid, hrid, hin⟩ := hs.own_entry t undo _ _ ht hmem
  have := eq_of_key hs.nodup hin he rfl
  exact hrow (this ▸ hrid)

omit [DecidableEq κ] [DecidableEq ι] hs in
theorem conns_of_ended (h : update s.conns t none t' = some undo) :
    t' ≠ t ∧ s.conns t' = some undo := by
  by_cases htt : t' = t
  · rw [htt, update_self] at h
    cases h
  · exact ⟨htt, by rwa [update_of_ne htt] at h⟩

theorem rollback (ht : s.conns t = some undo) :
    Owned { undoAll s undo with txns, conns := update s.conns t none } where
  nodup := (filter_sublist.map _).nodup hs.nodup
  entry := by
    intro rid row k hrow hdel hk
    dsimp only [undoAll] at hrow
    split at hrow
    next => cases hrow
    next hnot =>
      have he := hs.entry rid row k hrow hdel hk
      exact mem_filter.mpr ⟨he, by simpa using hs.not_own ht he hnot⟩
  rows_lt rid hge := by
    dsimp only [undoAll]
    rw [hs.rows_lt rid hge, ite_self]
  entries_lt e he := hs.entries_lt e (mem_of_mem_filter he)
  own_row := by
    intro t' undo' rid ht' hins
    obtain ⟨hne, ht'⟩ := conns_of_ended ht'
    obtain ⟨row, hrow, hrest⟩ := hs.own_row t' undo' rid ht' hins
    refine ⟨row, ?_, hrest⟩
    dsimp only [undoAll]
    rw [if_neg fun h => hne (hs.own_unique t' t undo' undo rid ht' ht hins h), hrow]
  own_unique t₁ t₂ undo₁ undo₂ rid h₁ h₂ :=
    hs.own_unique t₁ t₂ undo₁ undo₂ rid (conns_of_ended h₁).2 (conns_of_ended h₂).2
  own_entry := by
    intro t' undo' k i ht' hins
    obtain ⟨hne, ht'⟩ := conns_of_ended ht'
    obtain ⟨rid, hrid, hmem⟩ := hs.own_entry t' undo' k i ht' hins
    refine ⟨rid, hrid, mem_filter.mpr ⟨hmem, ?_⟩⟩
    simpa using hs.not_own ht hmem fun h => hne (hs.own_unique t' t undo' undo rid ht' ht hrid h)

omit [DecidableEq κ] [DecidableEq ι] in
/-- A transaction begins, with nothing to undo, or ends. -/
theorem setConn (t : TxnId) {ops : Option (List (UndoOp κ ι))} (hops : ∀ l, ops = some l → l = [])
    {committed : List TxnId} :
    Owned { s with txns, committed, conns := update s.conns t ops } := by
  have hold {t' undo' op} (ht' : update s.conns t ops t' = some undo') (hop : op ∈ undo') :
      s.conns t' = some undo' := by
    by_cases htt : t' = t
    · subst htt
      rw [update_self] at ht'
      rw [hops _ ht'] at hop
      cases hop
    · rwa [update_of_ne htt] at ht'
  exact { hs with
    own_row := fun t' undo' rid ht' hins => hs.own_row t' undo' rid (hold ht' hins) hins
    own_unique := fun t₁ t₂ undo₁ undo₂ rid h₁ h₂ hins₁ hins₂ =>
      hs.own_unique t₁ t₂ undo₁ undo₂ rid (hold h₁ hins₁) (hold h₂ hins₂) hins₁ hins₂
    own_entry := fun t' undo' k i ht' hins => hs.own_entry t' undo' k i (hold ht' hins) hins }

theorem step {s' : Table κ ι} {e : Event κ ι} (hok : seesLive s e)
    (h : step s e = some s') : Owned s' := by
  cases e with
  | begin freeze =>
    cases h
    exact hs.setConn _ fun l hl => (some.inj hl).symm
  | insert t stamp key included =>
    obtain ⟨-, -, h⟩ := bind_eq_some_iff.mp h
    obtain ⟨undo, ht, rfl⟩ := map_eq_some_iff.mp h
    exact (hs.insertRow ht hok).1
  | commit t =>
    obtain ⟨undo, ht, rfl⟩ := map_eq_some_iff.mp h
    exact hs.setConn t fun l hl => by cases hl
  | rollback t =>
    obtain ⟨undo, ht, rfl⟩ := map_eq_some_iff.mp h
    exact hs.rollback ht

end

end Owned

/-! ## Runs -/

/-- No transaction is active. -/
def AtRest (s : Table κ ι) : Prop := ∀ t, s.conns t = none

/-- A table without rows. -/
def empty : Table Nat Unit := ⟨fun _ => none, 0, [], .opened 0, fun _ => none, []⟩

theorem indexed_empty : Indexed empty where
  nodup := nodup_nil
  entry _ _ _ h := by cases h
  rows_lt _ _ := rfl
  entries_lt _ h := (not_mem_nil h).elim

end AxiomDb.Sql.UniqueIndex
