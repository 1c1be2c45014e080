import AxiomDb.Txn.Invariant

/-!
# Deferred commits

In deferred mode `commit` takes a writing transaction out of the active set at
once and leaves `max_committed` to the fsync pipeline. Its rows stay hidden only
as long as `max_committed` is below its id, and any other commit with a higher id
raises it. Nothing is seen before it is durable, or after its commit failed, where
`max_committed` is never raised past a writing transaction that has left the
active set and is not synced, or has failed, and no such transaction leaves the
set below `max_committed`.
-/

namespace AxiomDb.Txn

open Lib Heap TxnManager List Function Move Phase

/-- Every writing transaction up to `m` that has left the active set is synced, and none
up to `m` has failed. -/
def SettledUpTo (s : TxnManager) (m : Nat) : Prop :=
  (∀ c ≤ m, c ∈ s.rows → (s.phase c).gone = true → s.commitLsn c ≤ s.syncedLsn) ∧
    ∀ c ∈ s.failed, m < c

/-- `max_committed` is raised only past what is settled; a writing transaction leaves the
active set, and a sync fails, only above it; and a snapshot is taken only when every id
that is drawn and has not entered the active set is above it. -/
def RaisedPastSettled (s : TxnManager) : Event → Prop
  | .snapshot => ∀ d, s.phase d = .drawn → s.maxCommitted < d
  | .commit c => if s.phase c = .logged true then s.maxCommitted < c else SettledUpTo s c
  | .advance c => SettledUpTo s c
  | .advanceWoken c => ∀ ids, s.phase c = .waking ids → ∀ i ∈ ids, SettledUpTo s i
  | .syncFails c => s.maxCommitted < c ∧ ∀ w ∈ s.waiters, s.maxCommitted < w.2
  | _ => True

/-- A transaction that will not show unsynced rows any more. -/
def Past (s : TxnManager) (c : Nat) : Prop :=
  s.phase c = .rolledBack ∨
    (s.phase c).gone = true ∧ (c ∈ s.rows → s.commitLsn c ≤ s.syncedLsn)

/-- What a snapshot hides. -/
structure Hides (base : Nat) (s : TxnManager) (snap : TransactionSnapshot) (failed : List Nat) : Prop where
  current : snap.currentTxnId = 0
  past : ∀ c : Nat, c < snap.snapshotId → c ∉ snap.activeIds → c ≤ base ∨ Past s c
  failed : ∀ c ∈ failed, snap.snapshotId ≤ c

/-- What holds in every run in deferred mode. -/
structure Durable (base : Nat) (s : TxnManager) : Prop extends Sane base s where
  mode : s.deferredCommitMode = true
  lsn : s.syncedLsn ≤ s.currentLsn
  writers : ∀ c ∈ s.rows, s.phase c ≠ .active false ∧ s.phase c ≠ .logged false
  settled : SettledUpTo s s.maxCommitted
  hides : ∀ x ∈ s.snaps, Hides base s x.1 x.2

variable {e : Event} {base c : Nat} {s s' : TxnManager}

/-- After its commit a transaction writes and logs nothing, and what is synced stays so. -/
theorem gone_step (h : step s e = some s') (hlsn : s.syncedLsn ≤ s.currentLsn) :
    s.syncedLsn ≤ s'.syncedLsn ∧ s'.syncedLsn ≤ s'.currentLsn ∧
      ∀ c, (s.phase c).gone → (c ∈ s'.rows → c ∈ s.rows) ∧ s'.commitLsn c = s.commitLsn c := by
  have hne {c d : Nat} {p : Phase} (hp : s.phase d = p) (hpg : p.gone = false)
      (hc : (s.phase c).gone) : c ≠ d := by
    rintro rfl
    rw [hp, hpg] at hc
    cases hc
  cases of_step h with
  | draw => exact ⟨le_rfl, hlsn.trans (Nat.le_succ _), fun _ _ => ⟨id, rfl⟩⟩
  | write hp =>
    refine ⟨le_rfl, hlsn.trans (Nat.le_succ _), fun c hc => ⟨fun hrow => ?_, rfl⟩⟩
    exact (mem_cons.mp hrow).resolve_left (hne hp rfl hc)
  | logCommit hp =>
    exact ⟨le_rfl, hlsn.trans (Nat.le_succ _), fun c hc =>
      ⟨id, update_of_ne (hne hp rfl hc) _ _⟩⟩
  | rollback hp =>
    exact ⟨le_rfl, hlsn.trans (Nat.le_succ _), fun c _ => ⟨fun h => (mem_filter.mp h).1, rfl⟩⟩
  | @commit c writes hp hmode =>
    cases writes with
    | true => exact ⟨hlsn, le_rfl, fun _ _ => ⟨id, rfl⟩⟩
    | false => exact ⟨le_rfl, hlsn, fun _ _ => ⟨id, rfl⟩⟩
  | sync hp => exact ⟨hlsn, le_rfl, fun _ _ => ⟨id, rfl⟩⟩
  | _ => exact ⟨le_rfl, hlsn, fun _ _ => ⟨id, rfl⟩⟩

theorem Past.step (hs : Sane base s)
    (hlsn : s.syncedLsn ≤ s.currentLsn) (h : step s e = some s') (hc : Past s c) : Past s' c := by
  have hprog := progress_step hs h c
  obtain ⟨hsynced, -, hkeep⟩ := gone_step h hlsn
  rcases hc with hrolled | ⟨hgone, hrow⟩
  · rw [hrolled] at hprog
    exact .inl hprog.rolledBack
  · obtain ⟨hrows, hlog⟩ := hkeep c hgone
    exact .inr ⟨hprog.gone hgone, fun h => hlog ▸ (hrow (hrows h)).trans hsynced⟩

theorem raised_step (hok : RaisedPastSettled s e) (hmode : s.deferredCommitMode)
    (h : step s e = some s') (hc : c ≤ s'.maxCommitted) :
    c ≤ s.maxCommitted ∨ ∃ m, c ≤ m ∧ SettledUpTo s m := by
  cases of_step h with
  | @commit d writes hp hm =>
    refine (le_max_iff.mp hc).imp id fun h => ⟨d, h, ?_⟩
    rw [hmode, Bool.and_true] at hm
    subst hm
    simpa only [RaisedPastSettled, hp, logged.injEq, reduceIte, Bool.false_eq_true] using hok
  | @advance d _ hp | @advanceExpired d hp => exact (le_max_iff.mp hc).imp id fun h => ⟨d, h, hok⟩
  | @advanceWoken d ids hp =>
    rcases le_foldl_max hc with h | ⟨i, hi, h⟩
    · exact .inl h
    · exact .inr ⟨i, h, hok ids hp i hi⟩
  | _ => exact .inl hc

/-- A commit that fails was above `max_committed`, and no other step makes one fail. -/
theorem failed_step (hok : RaisedPastSettled s e) (h : step s e = some s') (hc : c ∈ s'.failed) :
    c ∈ s.failed ∨ s.maxCommitted < c ∧ s'.maxCommitted = s.maxCommitted := by
  cases of_step h with
  | @syncFails d hp =>
    rcases mem_append.mp hc with hc | hc
    · refine .inr ⟨?_, rfl⟩
      rcases mem_cons.mp hc with rfl | hc
      · exact hok.1
      · obtain ⟨w, hw, rfl⟩ := mem_map.mp hc
        exact hok.2 w hw
    · exact .inl hc
  | _ => exact .inl hc

/-- A transaction leaves the active set above `max_committed`, or has written nothing. -/
theorem leave_step (hs : Durable base s) (hok : RaisedPastSettled s e) (h : step s e = some s')
    (hc : (s.phase c).gone = false) (hc' : (s'.phase c).gone) :
    c ∉ s'.rows ∨ s'.maxCommitted < c := by
  have hone {d : Nat} {p q : Phase} (hphase : s'.phase = update s.phase d q)
      (hp : s.phase d = p) (hpq : p.gone ∨ q.gone = false) :
      c ∉ s'.rows ∨ s'.maxCommitted < c := by
    rw [hphase, update_apply] at hc'
    split at hc'
    next hcd =>
      rw [hcd, hp] at hc
      rcases hpq with h | h
      · rw [h] at hc
        cases hc
      · rw [h] at hc'
        cases hc'
    next =>
      rw [hc] at hc'
      cases hc'
  have hwaiting {i : Nat} (hi : i ∈ s.waiters.map Prod.snd) : i ≠ c := by
    obtain ⟨w, hw, rfl⟩ := mem_map.mp hi
    exact hs.toSane.not_waiting hc hw
  cases of_step h with
  | draw => exact hone rfl rfl (.inr rfl)
  | register hp | write hp | logCommit hp | rollback hp => exact hone rfl hp (.inr rfl)
  | snapshot =>
    rw [hc] at hc'
    cases hc'
  | @commitDeferred d hp hmode =>
    by_cases hcd : c = d
    · rw [RaisedPastSettled, if_pos hp] at hok
      exact .inr (hcd ▸ hok)
    · simp [setPhase, hcd, hc] at hc'
  | @commit d writes hp hm =>
    by_cases hcd : c = d
    · rw [hs.mode, Bool.and_true] at hm
      subst hm
      exact .inl fun hrow => (hs.writers d (hcd ▸ hrow)).2 hp
    · simp [setPhase, hcd, hc] at hc'
  | @syncFails d hp =>
    have hcd : c ≠ d := by
      rintro rfl
      rw [hp] at hc
      cases hc
    have hnot : c ∉ d :: s.waiters.map Prod.snd := by
      rintro (_ | ⟨_, hw⟩)
      · exact hcd rfl
      · exact hwaiting hw rfl
    simp [setPhases, hnot, hc] at hc'
  | @release d flushedLsn hp =>
    have hcd : c ≠ d := by
      rintro rfl
      rw [hp] at hc
      cases hc
    have hnot : c ∉ s.satisfied flushedLsn := by
      intro hsat
      obtain ⟨w, hw, rfl⟩ := mem_map.mp hsat
      exact hwaiting (mem_map_of_mem (mem_filter.mp hw).1) rfl
    simp [hcd, setPhases, hnot, hc] at hc'
  | ask hp | expire hp | queue hp | lead hp | sync hp | measure hp | advance hp
  | advanceExpired hp | advanceWoken hp => exact hone rfl hp (.inl rfl)

/-- A snapshot that is taken hides what is not settled. -/
theorem Durable.snapshot (hs : Durable base s) (hok : RaisedPastSettled s .snapshot) :
    Hides base s s.snapshot s.failed := by
  refine ⟨rfl, fun c hlt hout => ?_, fun c hc => hs.settled.2 c hc⟩
  have hle : c ≤ s.maxCommitted := Nat.lt_succ_iff.mp hlt
  have hmax := hs.max
  cases hp : s.phase c with
  | unused => exact .inl ((hs.used c hp).resolve_right (by omega))
  | drawn => exact absurd (hok c hp) (by omega)
  | active _ | logged _ => exact absurd ((hs.set c).mpr (by rw [hp]; rfl)) hout
  | rolledBack => exact .inr (.inl hp)
  | _ =>
    have hgone : (s.phase c).gone := by rw [hp]; rfl
    exact .inr (.inr ⟨hgone, fun hrow => hs.settled.1 c hle hrow hgone⟩)

theorem writers_step (hs : Durable base s) (h : step s e = some s') :
    ∀ c ∈ s'.rows, s'.phase c ≠ .active false ∧ s'.phase c ≠ .logged false := by
  intro c hc
  have hone {d : Nat} {q : Phase} (hphase : s'.phase = update s.phase d q)
      (hrow : c ≠ d → c ∈ s.rows) (hq : c = d → q ≠ .active false ∧ q ≠ .logged false) :
      s'.phase c ≠ .active false ∧ s'.phase c ≠ .logged false := by
    rw [hphase, update_apply]
    split
    next hcd => exact hq hcd
    next hcd => exact hs.writers c (hrow hcd)
  have hsame (hrow : c ∈ s.rows) (h : s'.phase c = s.phase c ∨ (s'.phase c).gone) :
      s'.phase c ≠ .active false ∧ s'.phase c ≠ .logged false := by
    rcases h with h | h
    · rw [h]
      exact hs.writers c hrow
    · constructor <;> intro hp <;> rw [hp] at h <;> cases h
  cases of_step h with
  | draw => exact hone rfl (fun _ => hc) fun _ => ⟨by simp, by simp⟩
  | register hp =>
    refine hone rfl (fun _ => hc) fun hcd => ?_
    have hrow := hs.rows c hc
    rw [hcd, hp] at hrow
    simp [inSet, gone] at hrow
  | write hp =>
    exact hone rfl (fun hcd => (mem_cons.mp hc).resolve_left hcd) fun _ => ⟨by simp, by simp⟩
  | logCommit hp =>
    refine hone rfl (fun _ => hc) fun hcd => ⟨(by simp), fun hfalse => ?_⟩
    obtain rfl := logged.inj hfalse
    exact (hs.writers c hc).1 (hcd ▸ hp)
  | rollback hp => exact hone rfl (fun _ => (mem_filter.mp hc).1) fun _ => ⟨by simp, by simp⟩
  | snapshot => exact hs.writers c hc
  | @syncFails d hp =>
    refine hsame hc ?_
    by_cases hmem : c ∈ d :: s.waiters.map Prod.snd
    · exact .inr (by simp only [setPhases, if_pos hmem]; rfl)
    · exact .inl (by simp only [setPhases, if_neg hmem])
  | @release d flushedLsn hp =>
    refine hsame hc ?_
    by_cases hcd : c = d
    · exact .inr (by simp [hcd, gone])
    by_cases hmem : c ∈ s.satisfied flushedLsn
    · exact .inr (by simp [hcd, setPhases, hmem, gone])
    · exact .inl (by simp [hcd, setPhases, hmem])
  | _ => exact hone rfl (fun _ => hc) fun _ => ⟨by simp, by simp⟩

theorem durable_step (hs : Durable base s) (hok : RaisedPastSettled s e) (h : step s e = some s') :
    Durable base s' := by
  have hsane := hs.toSane
  obtain ⟨hsynced, hlsn, hkeep⟩ := gone_step h hs.lsn
  have hhides {snap : TransactionSnapshot} {failed : List Nat} (hx : Hides base s snap failed) :
      Hides base s' snap failed :=
    ⟨hx.current, fun c hlt hout => (hx.past c hlt hout).imp id (Past.step hsane hs.lsn h), hx.failed⟩
  refine ⟨sane_step hsane h, ?_, hlsn, writers_step hs h,
    ⟨fun c hle hrow hgone => ?_, fun c hc => ?_⟩, fun x hx => ?_⟩
  · cases of_step h <;> exact hs.mode
  · by_cases hold : (s.phase c).gone
    · obtain ⟨hrows, hlog⟩ := hkeep c hold
      refine hlog ▸ le_trans ?_ hsynced
      rcases raised_step hok hs.mode h hle with hle | ⟨m, hle, hm⟩
      · exact hs.settled.1 c hle (hrows hrow) hold
      · exact hm.1 c hle (hrows hrow) hold
    · rcases leave_step hs hok h (by simpa using hold) hgone with hnot | hlt
      · exact absurd hrow hnot
      · omega
  · by_contra hle
    have hle : c ≤ s'.maxCommitted := not_lt.mp hle
    rcases failed_step hok h hc with hold | ⟨hlt, hsame⟩
    · rcases raised_step hok hs.mode h hle with h | ⟨m, hm, hsettled⟩
      · exact absurd (hs.settled.2 c hold) (not_lt.mpr h)
      · exact absurd (hsettled.2 c hold) (not_lt.mpr hm)
    · omega
  · cases of_step h with
    | snapshot =>
      rcases mem_cons.mp hx with rfl | hx
      · exact hhides (hs.snapshot hok)
      · exact hhides (hs.hides x hx)
    | _ => exact hhides (hs.hides x hx)

/-! ## Runs -/

/-- In every run in deferred mode whose steps raise `max_committed` only past what is
settled: a snapshot sees a live row only if a completed sync covers the Commit entry of its
creator, and sees no row of a transaction whose commit had failed. -/
theorem seen_only_when_durable (base lsn : Nat) (s : TxnManager)
    (h : Reached step RaisedPastSettled (opened true base lsn) s) :
    ∀ x ∈ s.snaps, ∀ r : RowHeader, r.txnIdDeleted = 0 → r.isVisible x.1 = true →
      (r.txnIdCreated ∈ s.rows → (s.phase r.txnIdCreated).gone = true ∧
        s.commitLsn r.txnIdCreated ≤ s.syncedLsn) ∧ r.txnIdCreated ∉ x.2 := by
  have hinit : Durable base (opened true base lsn) :=
    ⟨sane_opened true base lsn, rfl, le_rfl, by simp [opened], ⟨by simp [opened], by simp [opened]⟩,
      by simp [opened]⟩
  have hs := h.invariant hinit fun hs hok h => durable_step hs hok h
  intro x hx r hd hvisible
  obtain ⟨hcurrent, hpast, hfailed⟩ := hs.hides x hx
  rw [isVisible_iff hd, hcurrent] at hvisible
  rcases hvisible with ⟨hne, -⟩ | ⟨hlt, hout⟩
  · exact absurd rfl hne
  refine ⟨fun hrow => ?_, fun hf => absurd (hfailed _ hf) (not_le.mpr hlt)⟩
  have hphase := hs.rows _ hrow
  rcases hpast _ hlt hout with hle | hrolled | ⟨hgone, hsynced⟩
  · rw [hs.old _ hle] at hphase
    simp [inSet, gone] at hphase
  · rw [hrolled] at hphase
    simp [inSet, gone] at hphase
  · exact ⟨hgone, hsynced hrow⟩

/-- A writing transaction is led through the pipeline, and then seen. -/
theorem seen_only_when_durable_one : ∃ s x, Reached step RaisedPastSettled (opened true 0 0) s ∧
    x ∈ s.snaps ∧ 1 ∈ s.rows ∧ RowHeader.isVisible ⟨1, 0, 0, 0⟩ x.1 = true ∧
    ((1 ∈ s.rows → (s.phase 1).gone = true ∧ s.commitLsn 1 ≤ s.syncedLsn) ∧ 1 ∉ x.2) := by
  have hreach : Reached step RaisedPastSettled (opened true 0 0) _ :=
    .step (e := .snapshot) (.step (e := .advance 1) (.step (e := .measure 1) (.step (e := .sync 1)
      (.step (e := .acquire 1) (.step (e := .ask 1) (.step (e := .commit 1) (.step (e := .logCommit 1)
      (.step (e := .write 1) (.step (e := .register 1) (.step (e := .draw) .init trivial rfl)
      trivial rfl) trivial rfl) trivial rfl) (by decide : 0 < 1) rfl) trivial rfl) trivial rfl)
      trivial rfl) trivial rfl)
      ⟨by
        intro c hc hrow _
        obtain rfl : c = 1 := mem_singleton.mp hrow
        decide, fun c hc => by cases hc⟩ rfl)
      (by
        intro d hd
        by_cases h1 : d = 1
        · simp [h1, setPhase, opened] at hd
        · simp [setPhase, opened, h1] at hd) rfl
  exact ⟨_, _, hreach, mem_cons_self, by decide, by decide,
    seen_only_when_durable 0 0 _ hreach _ mem_cons_self ⟨1, 0, 0, 0⟩ rfl (by decide)⟩

/-- Transaction 1 writes and its commit is deferred; transaction 2 has read only, commits,
and raises `max_committed` to 2. A snapshot sees the row of 1, which is not synced; and
still does when the sync for 1 has failed. -/
theorem seen_before_durable : ∃ s x y, Reached step free (opened true 0 0) s ∧
    s.snaps = [y, x] ∧ 1 ∈ s.rows ∧ s.syncedLsn < s.commitLsn 1 ∧
    RowHeader.isVisible ⟨1, 0, 0, 0⟩ x.1 = true ∧
    1 ∈ y.2 ∧ RowHeader.isVisible ⟨1, 0, 0, 0⟩ y.1 = true := by
  exact ⟨_, _, _, Reached.of_run (l := [.draw, .register 1, .write 1, .draw, .register 2, .logCommit 1,
    .commit 1, .logCommit 2, .commit 2, .snapshot, .ask 1, .acquire 1, .syncFails 1, .snapshot]) .init rfl,
    rfl, by decide, by decide, by decide, by decide, by decide⟩

end AxiomDb.Txn
