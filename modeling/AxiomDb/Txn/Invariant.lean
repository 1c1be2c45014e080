import AxiomDb.Txn.Manager

/-!
# What holds in every run of the transaction manager

A transaction goes from drawn to active to rolled back or committed and never
back; the active set holds the active ones; the greatest committed id and the
creators of rows are ids that were drawn.
-/

namespace AxiomDb.Txn

open Lib Heap TxnManager List Function Phase

/-- How a transaction moves on. -/
inductive Progress : Phase → Phase → Prop where
  | same (p : Phase) : Progress p p
  | draw : Progress .unused .drawn
  | enter : Progress .drawn (.active false)
  | work {p q : Phase} : p.inSet = true → q.inSet = true → Progress p q
  | undo {p : Phase} : p.inSet = true → Progress p .rolledBack
  | leave {p q : Phase} : p.inSet = true → q.gone = true → Progress p q
  | follow {p q : Phase} : p.gone = true → q.gone = true → Progress p q

variable {e : Event} {ids : List Nat} {m n : Nat} {q : Phase} {s s' : TxnManager}

theorem Progress.gone {p : Phase} (h : Progress p q) (hp : p.gone) : q.gone := by
  cases h with
  | same => exact hp
  | draw | enter => cases hp
  | work hin | undo hin | leave hin =>
    cases p <;> first | exact Bool.noConfusion hin | exact Bool.noConfusion hp
  | follow _ hq => exact hq

theorem Progress.rolledBack (h : Progress .rolledBack q) : q = .rolledBack := by
  cases h with
  | same => rfl
  | work hin | undo hin | leave hin => exact Bool.noConfusion hin
  | follow hp => exact Bool.noConfusion hp

/-- A manager opened with greatest committed id `base`, after any steps. -/
structure Sane (base : Nat) (s : TxnManager) : Prop where
  set : ∀ d, d ∈ s.activeSet ↔ (s.phase d).inSet = true
  fresh : ∀ d, s.nextTxnId ≤ d → s.phase d = .unused
  used : ∀ d, s.phase d = .unused → d ≤ base ∨ s.nextTxnId ≤ d
  max : s.maxCommitted < s.nextTxnId
  rows : ∀ d ∈ s.rows, (s.phase d).inSet = true ∨ (s.phase d).gone = true
  waiters : ∀ w ∈ s.waiters, (s.phase w.2).gone = true
  waking : ∀ d ids, s.phase d = .waking ids → ∀ i ∈ ids, i < s.nextTxnId
  conns : ∀ d, s.conns d ≠ none → s.phase d ≠ .unused ∧ s.phase d ≠ .drawn
  base_lt : base < s.nextTxnId
  old : ∀ d ≤ base, s.phase d = .unused

namespace Sane

variable {base : Nat} {s s' : TxnManager}

theorem lt_next (hs : Sane base s) {d : Nat} (h : s.phase d ≠ .unused) : d < s.nextTxnId := by
  by_contra hle
  exact h (hs.fresh d (by omega))

variable {c : Nat} {p : Phase}

section

variable (hs : Sane base s)
include hs

theorem not_waiting (h : (s.phase c).gone = false) {w : Nat × Nat}
    (hw : w ∈ s.waiters) : w.2 ≠ c := by
  rintro rfl
  rw [hs.waiters w hw] at h
  cases h

theorem move (hphase : s'.phase = update s.phase c p) (hq : s.phase c = q)
    (hnext : s'.nextTxnId = s.nextTxnId)
    (hset : ∀ d, d ∈ s'.activeSet ↔ if d = c then p.inSet = true else d ∈ s.activeSet)
    (hmax : s'.maxCommitted < s.nextTxnId)
    (hrows : ∀ d ∈ s'.rows, if d = c then p.inSet ∨ p.gone = true else d ∈ s.rows)
    (hwaiters : ∀ w ∈ s'.waiters, if w.2 = c then p.gone = true else w ∈ s.waiters)
    (hconns : ∀ d, s'.conns d ≠ none → d ≠ c → s.conns d ≠ none)
    (hc : q ≠ .unused := by simp) (hp : p ≠ .unused ∧ p ≠ .drawn := by simp)
    (hwaking : ∀ ids, p = .waking ids → ∀ i ∈ ids, i < s.nextTxnId := by simp) : Sane base s' := by
  subst hq
  have hph (d : Nat) : s'.phase d = if d = c then p else s.phase d := by
    rw [hphase, update_apply]
  constructor
  · intro d
    rw [hset, hph]
    split
    · exact Iff.rfl
    · exact hs.set d
  · intro d hd
    rw [hnext] at hd
    rw [hph, if_neg]
    · exact hs.fresh d hd
    · rintro rfl
      exact hc (hs.fresh d hd)
  · intro d hd
    rw [hph] at hd
    rw [hnext]
    split at hd
    · exact absurd hd hp.1
    · exact hs.used d hd
  · exact hnext ▸ hmax
  · intro d hd
    have := hrows d hd
    rw [hph]
    split <;> rename_i hdc
    · rwa [if_pos hdc] at this
    · rw [if_neg hdc] at this
      exact hs.rows d this
  · intro w hw
    have := hwaiters w hw
    rw [hph]
    split <;> rename_i hwc
    · rwa [if_pos hwc] at this
    · rw [if_neg hwc] at this
      exact hs.waiters w this
  · intro d ids hd
    rw [hph] at hd
    rw [hnext]
    split at hd
    · exact hwaking ids hd
    · exact hs.waking d ids hd
  · intro d hd
    rw [hph]
    split
    · exact hp
    next hdc => exact hs.conns d (hconns d hd hdc)
  · exact hnext ▸ hs.base_lt
  · intro d hd
    rw [hph, if_neg]
    · exact hs.old d hd
    · rintro rfl
      exact hc (hs.old d hd)

/-- Steps of committed transactions through the pipeline. -/
theorem follow (hprog : ∀ d, s'.phase d = s.phase d ∨ (s.phase d).gone ∧ (s'.phase d).gone)
    (hnext : s'.nextTxnId = s.nextTxnId) (hset : s'.activeSet = s.activeSet)
    (hrows : s'.rows = s.rows) (hmax : s'.maxCommitted < s.nextTxnId)
    (hwaiters : ∀ w ∈ s'.waiters, w ∈ s.waiters)
    (hwaking : ∀ d ids, s'.phase d = .waking ids → ∀ i ∈ ids, i < s.nextTxnId)
    (hconns : s'.conns = s.conns) : Sane base s' := by
  have hgone {p : Phase} (hp : p.gone) :
      p.inSet = false ∧ p ≠ .unused ∧ p ≠ .drawn := by
    cases p <;> first | exact Bool.noConfusion hp | exact ⟨rfl, (by simp), (by simp)⟩
  constructor
  · intro d
    rw [hset, hs.set]
    rcases hprog d with h | ⟨h, h'⟩
    · rw [h]
    · rw [(hgone h).1, (hgone h').1]
  · intro d hd
    have hunused := hs.fresh d (hnext ▸ hd)
    rcases hprog d with h | ⟨h, -⟩
    · exact h.trans hunused
    · exact absurd hunused (hgone h).2.1
  · intro d hd
    rw [hnext]
    rcases hprog d with h | ⟨-, h'⟩
    · exact hs.used d (h ▸ hd)
    · exact absurd hd (hgone h').2.1
  · exact hnext ▸ hmax
  · intro d hd
    rcases hprog d with h | ⟨-, h'⟩
    · exact h ▸ hs.rows d (hrows ▸ hd)
    · exact .inr h'
  · intro w hw
    have hgone := hs.waiters w (hwaiters w hw)
    exact (hprog w.2).elim (· ▸ hgone) And.right
  · exact hnext ▸ hwaking
  · intro d hd
    rcases hprog d with h | ⟨-, h'⟩
    · exact h ▸ hs.conns d (hconns ▸ hd)
    · exact (hgone h').2
  · exact hnext ▸ hs.base_lt
  · intro d hd
    rcases hprog d with h | ⟨h, -⟩
    · exact h.trans (hs.old d hd)
    · exact absurd (hs.old d hd) (hgone h).2.1

/-- A step of one committed transaction through the pipeline. -/
theorem follow_one (hphase : s'.phase = update s.phase c p)
    (hc : (s.phase c).gone) (hp : p.gone) (hnext : s'.nextTxnId = s.nextTxnId)
    (hset : s'.activeSet = s.activeSet) (hrows : s'.rows = s.rows)
    (hmax : s'.maxCommitted < s.nextTxnId) (hwaiters : s'.waiters = s.waiters)
    (hwaking : ∀ ids, p ≠ .waking ids) (hconns : s'.conns = s.conns) : Sane base s' := by
  have hph (d : Nat) : s'.phase d = if d = c then p else s.phase d := by
    rw [hphase, update_apply]
  refine hs.follow (fun d => ?_) hnext hset hrows hmax (fun w hw => hwaiters ▸ hw)
    (fun d ids hd => ?_) hconns
  · rw [hph]
    split
    next hdc => exact .inr ⟨hdc ▸ hc, hp⟩
    next => exact .inl rfl
  · rw [hph] at hd
    split at hd
    · exact absurd hd (hwaking ids)
    · exact hs.waking d ids hd

theorem draw (hphase : s'.phase = update s.phase s.nextTxnId .drawn)
    (hnext : s'.nextTxnId = s.nextTxnId + 1) (hset : s'.activeSet = s.activeSet)
    (hrows : s'.rows = s.rows) (hmax : s'.maxCommitted = s.maxCommitted)
    (hwaiters : s'.waiters = s.waiters) (hconns : s'.conns = s.conns) : Sane base s' := by
  have hunused := hs.fresh _ le_rfl
  have hph (d : Nat) : s'.phase d = if d = s.nextTxnId then .drawn else s.phase d := by
    rw [hphase, update_apply]
  have hkeep {d : Nat} (hd : s.phase d ≠ .unused) : s'.phase d = s.phase d := by
    rw [hph, if_neg]
    rintro rfl
    exact hd hunused
  constructor
  · intro d
    rw [hset, hs.set, hph]
    split
    next hd => rw [hd, hunused]; exact Iff.rfl
    next => exact Iff.rfl
  · intro d hd
    rw [hph, if_neg (by omega)]
    exact hs.fresh d (by omega)
  · intro d hd
    rw [hph] at hd
    split at hd
    · cases hd
    · exact (hs.used d hd).imp id fun h => by omega
  · have := hs.max
    omega
  · intro d hd
    have hrow := hs.rows d (hrows ▸ hd)
    rw [hkeep]
    · exact hrow
    · intro h
      rw [h] at hrow
      simp [inSet, gone] at hrow
  · intro w hw
    have hq := hs.waiters w (hwaiters ▸ hw)
    rw [hkeep]
    · exact hq
    · intro h
      rw [h] at hq
      cases hq
  · intro d ids hd i hi
    rw [hph] at hd
    split at hd
    · cases hd
    · have := hs.waking d ids hd i hi
      omega
  · intro d hd
    have hconn := hs.conns d (hconns ▸ hd)
    rw [hkeep hconn.1]
    exact hconn
  · have := hs.base_lt
    omega
  · intro d hd
    have := hs.base_lt
    rw [hph, if_neg (by omega)]
    exact hs.old d hd

end

end Sane

/-- The greatest of a bound and some ids is one of them. -/
theorem le_foldl_max (h : n ≤ ids.foldl max m) : n ≤ m ∨ ∃ i ∈ ids, n ≤ i := by
  induction ids generalizing m with
  | nil => exact .inl h
  | cons i ids ih =>
    rcases ih h with h | ⟨j, hj, h⟩
    · exact (le_max_iff.mp h).imp id fun h => ⟨i, mem_cons_self, h⟩
    · exact .inr ⟨j, mem_cons_of_mem _ hj, h⟩

theorem foldl_max_lt (hm : m < n) (h : ∀ i ∈ ids, i < n) : ids.foldl max m < n := by
  by_contra hle
  rcases le_foldl_max (not_lt.mp hle) with hle | ⟨i, hi, hle⟩
  · omega
  · exact absurd (h i hi) (not_lt.mpr hle)

theorem sane_opened (mode : Bool) (base lsn : Nat) : Sane base (opened mode base lsn) :=
  ⟨fun _ => ⟨by simp [opened], by simp [opened, inSet]⟩, fun _ _ => rfl, fun d _ => (Nat.lt_or_ge base d).symm.imp id fun h => h,
    Nat.lt_succ_self _, by simp [opened], by simp [opened], by simp [opened], by simp [opened], Nat.lt_succ_self _,
    fun _ _ => rfl⟩

theorem sane_step {base : Nat} (hs : Sane base s) (h : step s e = some s') :
    Sane base s' := by
  have hmax := hs.max
  -- a step that leaves the waiters, by a transaction that is not one of them
  have hwait {c : Nat} {p q : Phase} (hp : s.phase c = p) (hne : p.gone = false) :
      ∀ w ∈ s.waiters, if w.2 = c then q.gone = true else w ∈ s.waiters := fun w hw => by
    rw [if_neg (hs.not_waiting (hp ▸ hne) hw)]
    exact hw
  have hremove (c : Nat) {p : Phase} (hp : p.inSet = false) : ∀ d,
      d ∈ s.activeSet.filter (· ≠ c) ↔ if d = c then p.inSet = true else d ∈ s.activeSet := fun d => by
    by_cases hdc : d = c <;> simp [hdc, hp]
  have hstay (c : Nat) {p : Phase} (hcp : (s.phase c).inSet = p.inSet) : ∀ d,
      d ∈ s.activeSet ↔ if d = c then p.inSet = true else d ∈ s.activeSet := fun d => by
    by_cases hdc : d = c
    · simp [hdc, hs.set, hcp]
    · simp [hdc]
  have hrows (c : Nat) {p : Phase} (hp : p.inSet ∨ p.gone) :
      ∀ d ∈ s.rows, if d = c then p.inSet ∨ p.gone = true else d ∈ s.rows := fun d hd => by
    split
    · exact hp
    · exact hd
  have hmaxc {c : Nat} {p : Phase} (hp : s.phase c = p) (hne : p ≠ .unused) :
      Max.max s.maxCommitted c < s.nextTxnId := max_lt hmax (hs.lt_next (hp ▸ hne))
  cases Move.of_step h with
  | draw => exact hs.draw rfl rfl rfl rfl rfl rfl rfl
  | @register c hp =>
    refine hs.move rfl hp rfl (fun d => ?_) hmax (fun d hd => ?_)
      (hwait hp rfl) fun d hd hdc => ?_
    · by_cases hdc : d = c <;> simp [hdc, inSet]
    · split
      · exact .inl rfl
      · exact hd
    · change update s.conns c _ d ≠ none at hd
      rwa [update_of_ne hdc] at hd
  | @write c writes hp =>
    refine hs.move rfl hp rfl (hstay c (hp ▸ rfl)) hmax (fun d hd => ?_)
      (hwait hp rfl) fun d hd _ => hd
    split
    · exact .inl rfl
    next hdc => exact (mem_cons.mp hd).resolve_left hdc
  | @logCommit c writes hp =>
    exact hs.move rfl hp rfl (hstay c (hp ▸ rfl)) hmax
      (hrows c (.inl rfl)) (hwait hp rfl) fun d hd _ => hd
  | @commitDeferred c hp hmode =>
    exact hs.move rfl hp rfl (hremove c rfl) hmax
      (hrows c (.inr rfl)) (hwait hp rfl) fun d hd _ => hd
  | @commit c writes hp hmode =>
    exact hs.move rfl hp rfl (hremove c rfl) (hmaxc hp (by simp))
      (hrows c (.inr rfl)) (hwait hp rfl) fun d hd _ => hd
  | @rollback c writes hp =>
    refine hs.move rfl hp rfl (hremove c rfl) hmax (fun d hd => ?_)
      (hwait hp rfl) fun d hd _ => hd
    obtain ⟨hd, hdc⟩ := mem_filter.mp hd
    rw [if_neg (by simpa using hdc)]
    exact hd
  | snapshot => exact { hs with }
  | @queue c commitLsn hp =>
    refine hs.move rfl hp rfl (hstay c (hp ▸ rfl)) hmax
      (hrows c (.inr rfl)) (fun w hw => ?_) fun d hd _ => hd
    split
    · rfl
    next hwc =>
      refine (mem_append.mp hw).resolve_right fun hw => hwc ?_
      rw [mem_singleton.mp hw]
  | @syncFails c hp =>
    refine hs.follow (fun d => ?_) rfl rfl rfl hmax (by simp) (fun d ids hd => ?_) rfl
    · change setPhases s _ _ d = _ ∨ _ ∧ (setPhases s _ _ d).gone
      rw [setPhases]
      split
      next hd =>
        refine .inr ⟨?_, rfl⟩
        rcases mem_cons.mp hd with rfl | hd
        · rw [hp]; rfl
        · obtain ⟨w, hw, rfl⟩ := mem_map.mp hd
          exact hs.waiters w hw
      next => exact .inl rfl
    · change setPhases s _ _ d = _ at hd
      rw [setPhases] at hd
      split at hd
      · cases hd
      · exact hs.waking d ids hd
  | @release c flushedLsn hp =>
    have hsat {d : Nat} (hd : d ∈ s.satisfied flushedLsn) : (s.phase d).gone := by
      obtain ⟨w, hw, rfl⟩ := mem_map.mp hd
      exact hs.waiters w (mem_filter.mp hw).1
    have hph (d : Nat) : update (s.setPhases (s.satisfied flushedLsn) .committed) c
        (.waking (s.satisfied flushedLsn)) d = if d = c then .waking (s.satisfied flushedLsn)
          else if d ∈ s.satisfied flushedLsn then .committed else s.phase d :=
      update_apply ..
    refine hs.follow (fun d => ?_) rfl rfl rfl hmax (fun w hw => (mem_filter.mp hw).1)
      (fun d ids hd => ?_) rfl
    · by_cases hdc : d = c
      · exact .inr ⟨by rw [hdc, hp]; rfl, by simp [hdc, gone]⟩
      · by_cases hd : d ∈ s.satisfied flushedLsn
        · exact .inr ⟨hsat hd, by simp [hdc, hd, setPhases, gone]⟩
        · exact .inl (by simp [hdc, hd, setPhases])
    change update _ _ _ d = _ at hd
    rw [hph] at hd
    split at hd
    · cases hd
      intro i hi
      exact hs.lt_next fun h => by simpa [h, gone] using hsat hi
    · split at hd
      · cases hd
      · exact hs.waking d ids hd
  | ask hp | expire hp | lead hp | sync hp | measure hp =>
    exact hs.follow_one rfl (hp ▸ rfl) rfl rfl rfl rfl hmax rfl (by simp) rfl
  | advance hp | advanceExpired hp =>
    exact hs.follow_one rfl (hp ▸ rfl) rfl rfl rfl rfl (hmaxc hp (by simp)) rfl (by simp) rfl
  | advanceWoken hp =>
    exact hs.follow_one rfl (hp ▸ rfl) rfl rfl rfl rfl
      (foldl_max_lt hmax (hs.waking _ _ hp)) rfl (by simp) rfl

/-- Every step takes every transaction on, or leaves it. -/
theorem progress_step {base : Nat} (hs : Sane base s) (h : step s e = some s')
    (d : Nat) : Progress (s.phase d) (s'.phase d) := by
  have hone {c : Nat} {p q : Phase} (hphase : s'.phase = update s.phase c q)
      (hp : s.phase c = p) (hpq : Progress p q) : Progress (s.phase d) (s'.phase d) := by
    rw [hphase, update_apply]
    split
    next hdc => rw [hdc, hp]; exact hpq
    next => exact .same _
  have hwaiting {ids : List Nat} (hids : ∀ i ∈ ids, i ∈ s.waiters.map Prod.snd) {i : Nat}
      (hi : i ∈ ids) : (s.phase i).gone := by
    obtain ⟨w, hw, rfl⟩ := mem_map.mp (hids i hi)
    exact hs.waiters w hw
  cases Move.of_step h with
  | draw => exact hone rfl (hs.fresh _ le_rfl) .draw
  | register hp => exact hone rfl hp .enter
  | write hp | logCommit hp => exact hone rfl hp (.work rfl rfl)
  | commitDeferred hp hmode | commit hp hmode => exact hone rfl hp (.leave rfl rfl)
  | rollback hp => exact hone rfl hp (.undo rfl)
  | snapshot => exact .same _
  | @syncFails c hp =>
    by_cases hd : d ∈ c :: s.waiters.map Prod.snd
    · have hgone : (s.phase d).gone := by
        rcases mem_cons.mp hd with rfl | hd
        · rw [hp]; rfl
        · exact hwaiting (fun _ => id) hd
      exact .follow hgone (by simp only [setPhases, if_pos hd]; rfl)
    · simp only [setPhases, if_neg hd]
      exact .same _
  | @release c flushedLsn hp =>
    by_cases hdc : d = c
    · exact .follow (by rw [hdc, hp]; rfl) (by simp [hdc, gone])
    by_cases hd : d ∈ s.satisfied flushedLsn
    · refine .follow (hwaiting (fun i hi => ?_) hd) (by simp [hdc, hd, setPhases, gone])
      obtain ⟨w, hw, rfl⟩ := mem_map.mp hi
      exact mem_map_of_mem (mem_filter.mp hw).1
    · simp only [update_of_ne hdc, setPhases, if_neg hd]
      exact .same _
  | ask hp | expire hp | queue hp | lead hp | sync hp | measure hp | advance hp
  | advanceExpired hp | advanceWoken hp => exact hone rfl hp (.follow rfl rfl)

/-- What a snapshot sees of live rows. -/
theorem isVisible_iff {h : RowHeader} (hd : h.txnIdDeleted = 0) (snap : TransactionSnapshot) :
    h.isVisible snap ↔ snap.currentTxnId ≠ 0 ∧ h.txnIdCreated = snap.currentTxnId ∨
        h.txnIdCreated < snap.snapshotId ∧ h.txnIdCreated ∉ snap.activeIds := by
  simp only [RowHeader.isVisible, hd, beq_self_eq_true, if_true]
  by_cases h1 : snap.currentTxnId = 0 <;> by_cases h2 : h.txnIdCreated = snap.currentTxnId <;>
    simp [h1, h2]

/-- **A decision is final.** In both commit modes, whatever steps follow and whichever syncs
fail, a transaction that is rolled back stays so and has no row, and one that has left the
active set by its commit is never active or rolled back again. -/
theorem decisions_final (mode : Bool) (base lsn : Nat) {s s' : TxnManager}
    (h : Reached step free (opened mode base lsn) s) (h' : Reached step free s s') :
    (∀ c, s.phase c = .rolledBack → s'.phase c = .rolledBack ∧ c ∉ s'.rows) ∧
      ∀ c, (s.phase c).gone → (s'.phase c).gone := by
  have hs : Sane base s := h.invariant (sane_opened ..) fun hs _ h => sane_step hs h
  obtain ⟨hsane, hrolled, hgone⟩ := h'.invariant (I := fun s' => Sane base s' ∧
      (∀ c, s.phase c = .rolledBack → s'.phase c = .rolledBack) ∧
      ∀ c, (s.phase c).gone → (s'.phase c).gone) ⟨hs, fun _ => id, fun _ => id⟩ fun hs _ h => by
    refine ⟨sane_step hs.1 h, fun c hc => ?_, fun c hc => (progress_step hs.1 h c).gone (hs.2.2 c hc)⟩
    exact Progress.rolledBack (hs.2.1 c hc ▸ progress_step hs.1 h c)
  refine ⟨fun c hc => ⟨hrolled c hc, fun hrow => ?_⟩, hgone⟩
  simpa [hrolled c hc, inSet, gone] using hsane.rows c hrow

/-- Transaction 1 writes and rolls back; then transaction 2 is drawn. -/
theorem decisions_final_two : ∃ s s', Reached step free (opened true 0 0) s ∧
    Reached step free s s' ∧ s'.phase 1 = .rolledBack ∧ 1 ∉ s'.rows := by
  have hs : Reached step free (opened true 0 0) _ :=
    .of_run (l := [.draw, .register 1, .write 1, .rollback 1]) .init rfl
  have hs' (s : TxnManager) : Reached step free s _ := .step (e := .draw) .init trivial rfl
  exact ⟨_, _, hs, hs' _, (decisions_final true 0 0 hs (hs' _)).1 1 rfl⟩

end AxiomDb.Txn
