import AxiomDb.Txn.Invariant

/-!
# Snapshot isolation

A snapshot is the greatest committed id and the active set. It knows nothing of
an id that is drawn and has not entered the active set: once a younger
transaction has committed, such an id is below the snapshot's and passes for
committed. Where no id is in that window when a snapshot is frozen, the snapshot
sees the rows of exactly the transactions that committed before it.
-/

namespace AxiomDb.Txn

open Lib Heap TxnManager Function Phase

/-- A snapshot is frozen only when every id that is drawn and has not entered the
active set is above the greatest committed id. -/
def AllEntered (s : TxnManager) : Event → Prop
  | .register c => ∀ d, d ≠ c → s.phase d = .drawn → s.maxCommitted < d
  | _ => True

/-- What a frozen snapshot separates. -/
structure Separates (base : Nat) (s : TxnManager) (t : Nat) (conn : Conn) : Prop where
  current : conn.snapshot.currentTxnId = t
  seen : ∀ c ∈ conn.before, c < conn.snapshot.snapshotId ∧ c ∉ conn.snapshot.activeIds
  unseen : ∀ c, c ≠ t → c < conn.snapshot.snapshotId → c ∉ conn.snapshot.activeIds →
    c ∈ conn.before ∨ s.phase c = .rolledBack ∨ c ≤ base

/-- The transactions in immediate-commit mode: those that left are committed, and none is
in the pipeline. -/
structure Immediate (s : TxnManager) : Prop where
  mode : s.deferredCommitMode = false
  gone : ∀ c, (s.phase c).gone = true → c ∈ s.commits
  commits : ∀ c ∈ s.commits, s.phase c = .committed ∧ c ≤ s.maxCommitted

/-- What holds in every run in immediate-commit mode. -/
structure Isolated (base : Nat) (s : TxnManager) : Prop extends Sane base s, Immediate s where
  separates : ∀ t conn, s.conns t = some conn → Separates base s t conn

variable {e : Event} {base t : Nat} {s s' : TxnManager}

/-- The snapshot that an entering transaction freezes. -/
theorem Isolated.frozen (hs : Isolated base s) (hok : AllEntered s (.register t)) :
    Separates base s t ⟨s.frozen t, s.commits⟩ := by
  refine ⟨rfl, fun c hc => ⟨Nat.lt_succ_of_le (hs.commits c hc).2, fun hin => ?_⟩, fun c hct hlt hout => ?_⟩
  · have := (hs.set c).mp hin
    rw [(hs.commits c hc).1] at this
    cases this
  have hle : c ≤ s.maxCommitted := Nat.lt_succ_iff.mp hlt
  have hmax := hs.max
  cases hp : s.phase c with
  | unused => exact .inr (.inr ((hs.used c hp).resolve_right (by omega)))
  | drawn => exact absurd (hok c hct hp) (by omega)
  | active _ | logged _ => exact absurd ((hs.set c).mpr (by rw [hp]; rfl)) hout
  | rolledBack => exact .inr (.inl rfl)
  | _ => exact .inl (hs.gone c (by rw [hp]; rfl))

theorem conns_step (hs : Sane base s) (h : step s e = some s') {conn : Conn}
    (ht : s.conns t = some conn) : s'.conns t = some conn := by
  cases Move.of_step h with
  | @register c hp =>
    have hne : t ≠ c := by
      rintro rfl
      exact (hs.conns t (by simp [ht])).2 hp
    exact (update_of_ne hne _ _).trans ht
  | _ => exact ht

/-- A step of one transaction before its commit. -/
theorem Immediate.move (hs : Immediate s) {c : Nat} {p q : Phase}
    (hphase : s'.phase = update s.phase c q) (hp : s.phase c = p) (hgone : p.gone = false)
    (hq : q.gone = false) (hmode : s'.deferredCommitMode = s.deferredCommitMode)
    (hcommits : s'.commits = s.commits) (hmax : s'.maxCommitted = s.maxCommitted) :
    Immediate s' := by
  have hph (d : Nat) : s'.phase d = if d = c then q else s.phase d := by
    rw [hphase, update_apply]
  refine ⟨hmode.trans hs.mode, fun d hd => ?_, fun d hd => ?_⟩
  · rw [hph] at hd
    rw [hcommits]
    split at hd
    · rw [hq] at hd
      cases hd
    · exact hs.gone d hd
  rw [hcommits] at hd
  have hold := hs.commits d hd
  rw [hph, hmax, if_neg]
  · exact hold
  · rintro rfl
    rw [← hp, hold.1] at hgone
    cases hgone

theorem immediate_step (hs : Sane base s) (hi : Immediate s) (h : step s e = some s') :
    Immediate s' := by
  -- nothing enters the pipeline
  have hpipe {c : Nat} {p : Phase} (hp : s.phase c = p) (hgone : p.gone)
      (hne : p ≠ .committed) : Immediate s' :=
    absurd (hp.symm.trans (hi.commits c (hi.gone c (hp ▸ hgone))).1) hne
  cases Move.of_step h with
  | draw => exact hi.move rfl (hs.fresh _ le_rfl) rfl rfl rfl rfl rfl
  | register hp | write hp | logCommit hp | rollback hp => exact hi.move rfl hp rfl rfl rfl rfl rfl
  | snapshot => exact { hi with }
  | commitDeferred hp hmode =>
    rw [hi.mode] at hmode
    cases hmode
  | @commit c writes hp hmode =>
    have hph (d : Nat) : update s.phase c .committed d =
        if d = c then .committed else s.phase d := update_apply ..
    refine ⟨hi.mode, fun d hd => ?_, fun d hd => ?_⟩
    · by_cases hdc : d = c
      · exact hdc ▸ List.mem_cons_self
      have hgone : (s.phase d).gone := by
        rw [← update_of_ne hdc committed s.phase]
        exact hd
      exact List.mem_cons_of_mem _ (hi.gone d hgone)
    change update s.phase c .committed d = _ ∧ d ≤ max s.maxCommitted c
    rw [hph]
    split
    next hdc => exact ⟨rfl, hdc ▸ le_max_right _ _⟩
    next hdc =>
      have hold := hi.commits d ((List.mem_cons.mp hd).resolve_left hdc)
      exact ⟨hold.1, hold.2.trans (le_max_left _ _)⟩
  | ask hp | expire hp | queue hp | lead hp | sync hp | syncFails hp | measure hp | advance hp
  | advanceExpired hp | release hp | advanceWoken hp => exact hpipe hp rfl (by simp)

theorem isolated_step (hs : Isolated base s) (hok : AllEntered s e) (h : step s e = some s') :
    Isolated base s' := by
  have hsane := hs.toSane
  have hsep {t : Nat} {conn : Conn} (hconn : Separates base s t conn) : Separates base s' t conn := by
    refine ⟨hconn.current, hconn.seen, fun c hct hlt hout => ?_⟩
    refine (hconn.unseen c hct hlt hout).imp id (Or.imp (fun hrolled => ?_) id)
    have hprog := progress_step hsane h c
    rw [hrolled] at hprog
    exact hprog.rolledBack
  refine ⟨sane_step hsane h, immediate_step hsane hs.toImmediate h, fun t conn ht => ?_⟩
  cases hold : s.conns t with
  | some conn' =>
    obtain rfl : conn' = conn := Option.some.inj ((conns_step hsane h hold).symm.trans ht)
    exact hsep (hs.separates t conn' hold)
  | none =>
    cases Move.of_step h with
    | @register c hp =>
      by_cases htc : t = c
      · subst htc
        obtain rfl := Option.some.inj ((update_self t _ s.conns).symm.trans ht)
        exact hsep (hs.frozen hok)
      · exact absurd (hold.symm.trans ((update_of_ne htc _ s.conns).symm.trans ht)) (by simp)
    | _ => exact absurd (hold.symm.trans ht) (by simp)

/-! ## Runs -/

/-- In every run in immediate-commit mode in which every drawn id has entered, or is above
the greatest committed one, when a snapshot is frozen: the frozen snapshot of `t` sees
a live row of another transaction exactly if that transaction's commit was before it;
and the snapshot never changes. -/
theorem frozen_snapshot_isolated (base lsn : Nat) (s : TxnManager)
    (h : Reached step AllEntered (opened false base lsn) s) :
    (∀ t conn, s.conns t = some conn → ∀ r : RowHeader, r.txnIdDeleted = 0 →
      r.txnIdCreated ∈ s.rows → r.txnIdCreated ≠ t →
      (r.isVisible conn.snapshot = true ↔ r.txnIdCreated ∈ conn.before)) ∧
    ∀ s', Reached step free s s' → ∀ t conn, s.conns t = some conn → s'.conns t = some conn := by
  have hinit : Isolated base (opened false base lsn) :=
    ⟨sane_opened false base lsn, ⟨rfl, by simp [opened, gone], by simp [opened]⟩, by simp [opened]⟩
  have hiso := h.invariant hinit fun hs hok h => isolated_step hs hok h
  constructor
  · intro t conn ht r hd hrow hrt
    obtain ⟨hcurrent, hseen, hunseen⟩ := hiso.separates t conn ht
    rw [isVisible_iff hd, hcurrent]
    constructor
    · rintro (⟨-, hself⟩ | ⟨hlt, hout⟩)
      · exact absurd hself hrt
      have hphase := hiso.rows _ hrow
      rcases hunseen _ hrt hlt hout with hbefore | hrolled | hle
      · exact hbefore
      · rw [hrolled] at hphase
        simp [inSet, gone] at hphase
      · rw [hiso.old _ hle] at hphase
        simp [inSet, gone] at hphase
    · exact fun hbefore => .inr (hseen _ hbefore)
  · intro s' hreach t conn ht
    have hkeep : Sane base s' ∧ s'.conns t = some conn :=
      hreach.invariant (I := fun s' => Sane base s' ∧ s'.conns t = some conn) ⟨hiso.toSane, ht⟩
        fun hs _ hstep => ⟨sane_step hs.1 hstep, conns_step hs.1 hstep hs.2⟩
    exact hkeep.2

/-- Transaction 1 writes a row and commits, then transaction 2 begins. -/
theorem frozen_snapshot_isolated_two : ∃ s conn, Reached step AllEntered (opened false 0 0) s ∧
    s.conns 2 = some conn ∧ 1 ∈ s.rows ∧
    (RowHeader.isVisible ⟨1, 0, 0, 0⟩ conn.snapshot = true ↔ 1 ∈ conn.before) := by
  have hreach : Reached step AllEntered (opened false 0 0) _ :=
    .step (e := .register 2) (.step (e := .draw) (.step (e := .commit 1) (.step (e := .logCommit 1)
      (.step (e := .write 1) (.step (e := .register 1) (.step (e := .draw) .init trivial rfl)
      (by intro d hd hp; simp [setPhase, opened, hd] at hp) rfl) trivial rfl) trivial rfl)
      trivial rfl) trivial rfl)
      (by
        intro d hd hp
        by_cases h1 : d = 1
        · simp [h1, setPhase, opened] at hp
        · simp [setPhase, opened, hd, h1] at hp) rfl
  exact ⟨_, _, hreach, rfl, by decide,
    (frozen_snapshot_isolated 0 0 _ hreach).1 2 _ rfl ⟨1, 0, 0, 0⟩ rfl (by decide) (by decide)⟩

/-- Transaction 1 has drawn its id when transaction 2 begins and commits and transaction 3
begins; then 1 enters and writes a row. Transaction 3 sees it, and 1 has not committed. -/
theorem frozen_snapshot_sees_uncommitted : ∃ s conn, Reached step free (opened false 0 0) s ∧
    s.conns 3 = some conn ∧ 1 ∈ s.rows ∧ s.phase 1 = .active true ∧
    RowHeader.isVisible ⟨1, 0, 0, 0⟩ conn.snapshot = true ∧ 1 ∉ conn.before := by
  exact ⟨_, _, Reached.of_run (l := [.draw, .draw, .register 2, .logCommit 2, .commit 2, .draw, .register 3,
    .register 1, .write 1]) .init rfl, rfl, by decide, rfl, by decide, by decide⟩

end AxiomDb.Txn
