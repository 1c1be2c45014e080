import AxiomDb.Wal.Writer

/-!
# What a completed sync covers

When `flush_and_sync` returns `Ok`, the entries of the calling thread are
written and synced, as long as no `flush_no_sync` holds drained entries when a
leader drains, and no write fails: what another thread has drained is neither in
the queue nor in the file. `flushed_lsn` is the last base LSN drained, so it is
below every LSN that is not on disk only if also no lower LSN is still to be
enqueued, and if nothing is flushed without a sync.
-/

namespace AxiomDb.Wal

open Lib WalWriter List Function Move Phase

variable {τ β : Type} [DecidableEq τ]

section

variable (s : WalWriter τ β)

/-- No other flush has taken entries out of sight: a leader drains while no
`flush_no_sync` is between its drain and its write, and no write that fails had
entries to write. -/
def Undisturbed : Event τ β → Prop
  | .drain _ => ∀ u, (s.phase u).hands = []
  | .writeFails t | .noSyncWriteFails t => (s.phase t).hands = []
  | _ => True

/-- Every flush syncs, and takes no LSN while a lower one is still to be enqueued. -/
def SyncedInOrder : Event τ β → Prop
  | .drain _ => ∀ u, ∀ e ∈ (s.phase u).held, ∀ b ∈ s.queue, b.1 < e.lsn
  | .noSyncDrain _ => s.queue = []
  | .writeFails t | .noSyncWriteFails t => (s.phase t).hands = []
  | _ => True

instance {n : Nat} (s : WalWriter (Fin n) β) (e : Event (Fin n) β) : Decidable (Undisturbed s e) :=
  match e with
  | .drain _ => inferInstanceAs (Decidable (∀ _, _))
  | .writeFails _ | .noSyncWriteFails _ => inferInstanceAs (Decidable (_ = []))
  | .reserve .. | .enqueue _ | .lead _ | .write _ | .sync _ | .syncFails _ | .finish _
  | .noSyncDrain _ | .noSyncWrite _ | .noSyncFinish _ => inferInstanceAs (Decidable True)

instance {n : Nat} (s : WalWriter (Fin n) β) (e : Event (Fin n) β) : Decidable (SyncedInOrder s e) :=
  match e with
  | .drain _ => inferInstanceAs (Decidable (∀ _, ∀ e ∈ _, ∀ b ∈ _, _ < _))
  | .noSyncDrain _ | .writeFails _ | .noSyncWriteFails _ => inferInstanceAs (Decidable (_ = []))
  | .reserve .. | .enqueue _ | .lead _ | .write _ | .sync _ | .syncFails _ | .finish _
  | .noSyncWrite _ | .noSyncFinish _ => inferInstanceAs (Decidable True)

/-- How far an entry has come that a flush in some phase is to sync. -/
def OnItsWay (e : Entry β) : Phase β → Prop
  | .drained batches => e ∈ s.file ∨ e ∈ entriesOf batches
  | .written _ => e ∈ s.file
  | .synced _ => e ∈ s.covered
  | _ => True

/-- An entry that is enqueued and not lost. -/
def Kept (e : Entry β) : Prop :=
  e ∈ entriesOf s.queue ∨ (∃ u, e ∈ (s.phase u).hands) ∨ e ∈ s.file

end

/-- The mutex, and the synced part of the file. -/
structure Locked (s : WalWriter τ β) : Prop where
  holder : ∀ t, (s.phase t).locked = true → s.holder = some t
  syncedLen : s.syncedLen ≤ s.file.length

variable {b : Batch β} {e : Entry β} {ev : Event τ β} {p : Phase β} {s s' : WalWriter τ β} {t : τ}

/-- A step of one thread keeps the mutex: the thread holds it where it should, and it
was not taken from another. -/
theorem Locked.update (hs : Locked s) (hphase : s'.phase = update s.phase t p)
    (hown : p.locked → s'.holder = some t)
    (hother : s'.holder = s.holder ∨ s.holder = none ∨ s.holder = some t)
    (hlen : s'.syncedLen ≤ s'.file.length) : Locked s' := by
  refine ⟨fun u hu => ?_, hlen⟩
  rw [hphase, update_apply] at hu
  split at hu
  next hut => exact hut ▸ hown hu
  next hut =>
    have hholder := hs.holder u hu
    rcases hother with hsame | hnone | hmine
    · exact hsame.trans hholder
    · simp [hnone] at hholder
    · exact absurd (Option.some.inj (hholder.symm.trans hmine)) hut

theorem locked_step {e : Event τ β} (hs : Locked s) (h : step s e = some s') : Locked s' := by
  have hlen := hs.syncedLen
  have hmine {t : τ} {p : Phase β} (h : s.phase t = p) (hl : p.locked) : s.holder = some t :=
    hs.holder t (h ▸ hl)
  have happend (es : List (Entry β)) : s.syncedLen ≤ (s.file ++ es).length := by
    rw [length_append]
    omega
  cases of_step h with
  | reserve hp | noSyncDrain hp | noSyncWriteFails hp hn =>
    exact hs.update rfl (fun h => by cases h) (.inl rfl) hlen
  | @enqueue t base entries hp =>
    obtain ⟨-, hho, hfi, hsy, -⟩ := s.enqueue_fields t base entries
    refine hs.update (enqueue_phase ..) (fun h => by cases h) (.inl hho) ?_
    exact (congrArg₂ (· ≤ ·) hsy (congrArg _ hfi)).mpr hlen
  | lead hp hn => exact hs.update rfl (fun _ => rfl) (.inr (.inl hn)) hlen
  | drain hp => exact hs.update rfl (fun _ => hmine hp rfl) (.inl rfl) hlen
  | write hp => exact hs.update rfl (fun _ => hmine hp rfl) (.inl rfl) (happend _)
  | writeFails hp | syncFails hp | finish hp | noSyncFinish hp =>
    exact hs.update rfl (fun h => by cases h) (.inr (.inr (hmine hp rfl))) hlen
  | sync hp => exact hs.update rfl (fun _ => hmine hp rfl) (.inl rfl) le_rfl
  | noSyncWrite hp hn => exact hs.update rfl (fun _ => rfl) (.inr (.inl hn)) (happend _)

/-! ## The way of one entry -/

/-- The file grows at its end, and so does its synced part. -/
structure Grows (s s' : WalWriter τ β) : Prop where
  file : ∀ e ∈ s.file, e ∈ s'.file
  covered : ∀ e ∈ s.covered, e ∈ s'.covered

theorem grows_step {e : Event τ β} (hs : Locked s) (h : step s e = some s') : Grows s s' := by
  have happend (es : List (Entry β)) (e : Entry β) (he : e ∈ s.covered) :
      e ∈ (s.file ++ es).take s.syncedLen := by
    rwa [take_append_of_le_length hs.syncedLen]
  cases of_step h with
  | @enqueue t base entries h =>
    obtain ⟨-, -, hfi, hsy, -⟩ := s.enqueue_fields t base entries
    refine ⟨fun e he => hfi.symm ▸ he, fun e he => ?_⟩
    change e ∈ take (s.enqueue t base entries).syncedLen (s.enqueue t base entries).file
    rwa [hsy, hfi]
  | write h | noSyncWrite h hn => exact ⟨fun e he => mem_append_left _ he, happend _⟩
  | sync h =>
    refine ⟨fun e he => he, fun e he => ?_⟩
    change e ∈ take s.file.length s.file
    rw [take_length]
    exact mem_of_mem_take he
  | _ => exact ⟨fun e he => he, fun e he => he⟩

omit [DecidableEq τ] in
theorem OnItsWay.mono (h : Grows s s') (he : OnItsWay s e p) : OnItsWay s' e p := by
  cases p with
  | drained batches => exact he.imp (h.file e) id
  | written batches => exact h.file e he
  | synced batches => exact h.covered e he
  | _ => trivial

/-- Every step takes an entry further or leaves it, once its flush has drained it. -/
theorem onItsWay_step (hs : Locked s) (h : step s ev = some s')
    (hdrain : ev = .drain t → e ∈ s.file ∨ e ∈ entriesOf s.queue) (he : OnItsWay s e (s.phase t)) :
    OnItsWay s' e (s'.phase t) := by
  have hgrows := grows_step hs h
  -- the phase of a thread that does not move is the same
  have hphase {u : τ} {p : Phase β} (hp : s'.phase = update s.phase u p)
      (hmove : u = t → OnItsWay s' e p) : OnItsWay s' e (s'.phase t) := by
    rw [hp, update_apply]
    split
    next htu => exact hmove htu.symm
    next => exact he.mono hgrows
  cases of_step h with
  | reserve hp | lead hp hn | writeFails hp | syncFails hp | finish hp | noSyncDrain hp
  | noSyncWrite hp hn | noSyncWriteFails hp hn | noSyncFinish hp =>
    exact hphase rfl fun _ => trivial
  | enqueue hp => exact hphase (enqueue_phase ..) fun _ => trivial
  | drain hp =>
    refine hphase rfl fun htu => ?_
    exact (hdrain (by rw [htu])).imp id mem_drainSorted.mpr
  | write hp =>
    refine hphase rfl fun htu => ?_
    rw [← htu, hp] at he
    exact mem_append.mpr he
  | sync hp =>
    refine hphase rfl fun htu => ?_
    rw [← htu, hp] at he
    change e ∈ take s.file.length s.file
    rwa [take_length]

/-! ## No entry is lost -/

/-- The steps that do not lose what a thread has drained. -/
def NoLoss (s : WalWriter τ β) : Event τ β → Prop
  | .writeFails t | .noSyncWriteFails t => (s.phase t).hands = []
  | _ => True

theorem kept_step (hs : Locked s) (hok : NoLoss s ev) (h : step s ev = some s') (he : Kept s e) :
    Kept s' e := by
  have hfile := (grows_step hs h).file e
  -- what is in the hands of a thread that does not move stays there
  have hkeep {u : τ} {p : Phase β} (hp : s'.phase = update s.phase u p)
      (hqueue : e ∈ entriesOf s.queue → Kept s' e) (hmove : e ∈ (s.phase u).hands → Kept s' e) :
      Kept s' e := by
    rcases he with hq | ⟨v, hv⟩ | hf
    · exact hqueue hq
    · rcases eq_or_ne v u with rfl | hvu
      · exact hmove hv
      · exact .inr (.inl ⟨v, by rwa [hp, update_of_ne hvu]⟩)
    · exact .inr (.inr (hfile hf))
  have hempty {u : τ} {p : Phase β} (hp : s.phase u = p) (hnil : p.hands = []) :
      e ∈ (s.phase u).hands → Kept s' e := by
    rw [hp, hnil]
    simp
  cases of_step h with
  | reserve hp | lead hp hn | sync hp | syncFails hp | finish hp | noSyncFinish hp =>
    exact hkeep rfl .inl (hempty hp rfl)
  | @enqueue u base entries hp =>
    refine hkeep (enqueue_phase ..) (fun hq => .inl ?_) (hempty hp rfl)
    exact (entriesOf_enqueue s u base entries).symm ▸ mem_append_left _ hq
  | @drain u hp | @noSyncDrain u hp =>
    refine hkeep rfl (fun hq => .inr (.inl ⟨u, ?_⟩)) (hempty hp rfl)
    change e ∈ hands (update s.phase u _ u)
    rw [update_self]
    exact mem_drainSorted.mpr hq
  | write hp | noSyncWrite hp hn =>
    refine hkeep rfl .inl fun hh => ?_
    rw [hp] at hh
    exact .inr (.inr (mem_append_right _ hh))
  | writeFails hp | noSyncWriteFails hp hn => exact hkeep rfl .inl (hempty rfl hok)

/-! ## The entries of the calling thread -/

/-- What holds in every run where no flush takes entries out of sight. -/
structure Accounted (s : WalWriter τ β) : Prop extends Locked s where
  kept : ∀ t, ∀ e ∈ s.enqueued t, Kept s e
  onItsWay : ∀ t, ∀ e ∈ s.enqueued t, OnItsWay s e (s.phase t)

theorem enqueued_step (h : step s ev = some s') (t : τ) : s'.enqueued t = s.enqueued t ∨
      ∃ base entries, ev = .enqueue t ∧ s.phase t = .reserved base entries ∧
        s' = (s.enqueue t base entries).setPhase t .idle := by
  cases of_step h with
  | @enqueue u base entries hp =>
    by_cases htu : u = t
    · subst htu
      exact .inr ⟨base, entries, rfl, hp, rfl⟩
    · refine .inl ?_
      change (s.enqueue u base entries).enqueued t = _
      rw [enqueued_enqueue, update_of_ne (Ne.symm htu)]
  | _ => exact .inl rfl

theorem accounted_step (hs : Accounted s) (hok : Undisturbed s ev) (h : step s ev = some s') :
    Accounted s' := by
  have hloss : NoLoss s ev := by
    cases ev <;> first | exact hok | trivial
  have hlocked := hs.toLocked
  refine ⟨locked_step hlocked h, fun t e he => ?_, fun t e he => ?_⟩
  · rcases enqueued_step h t with heq | ⟨base, entries, rfl, hp, rfl⟩
    · exact kept_step hlocked hloss h (hs.kept t e (heq ▸ he))
    change e ∈ (s.enqueue t base entries).enqueued t at he
    rw [enqueued_enqueue, update_self] at he
    rcases mem_append.mp he with hold | hnew
    · exact kept_step hlocked hloss h (hs.kept t e hold)
    · exact .inl ((entriesOf_enqueue s t base entries).symm ▸ mem_append_right _ hnew)
  rcases enqueued_step h t with heq | ⟨base, entries, rfl, hp, rfl⟩
  · rw [heq] at he
    refine onItsWay_step hlocked h ?_ (hs.onItsWay t e he)
    rintro rfl
    rcases hs.kept t e he with hq | ⟨u, hu⟩ | hf
    · exact .inr hq
    · rw [hok u] at hu
      cases hu
    · exact .inl hf
  · rw [setPhase_phase, if_pos rfl]
    trivial

/-! ## The entries below `flushed_lsn` -/

/-- Base LSNs are LSNs that were handed out. -/
structure Numbered (s : WalWriter τ β) : Prop where
  queue : ∀ b ∈ s.queue, b.1 < s.nextLsn
  batches : ∀ t, ∀ b ∈ (s.phase t).batches, b.1 < s.nextLsn
  reserved : ∀ t base entries, s.phase t = .reserved base entries → entries ≠ [] → base < s.nextLsn
  flushed : s.flushedLsn < s.nextLsn

theorem lt_advance {flushed n : Nat} {batches : List (Batch β)} (h : n < advance flushed batches) :
    n < flushed ∨ ∃ b ∈ batches.getLast?, n < b.1 := by
  rw [advance] at h
  split at h
  next b hb => exact (lt_max_iff.mp h).imp id fun h => ⟨b, hb, h⟩
  next => exact .inl h

/-- A step of one thread that hands out no LSN. -/
theorem Numbered.update (hs : Numbered s) (hphase : s'.phase = update s.phase t p)
    (hnext : s'.nextLsn = s.nextLsn) (hqueue : ∀ b ∈ s'.queue,
      b ∈ s.queue ∨ ∃ entries, entries ≠ [] ∧ s.phase t = .reserved b.1 entries)
    (hbatches : ∀ b ∈ p.batches, b ∈ (s.phase t).batches ∨ b ∈ s.queue) (hheld : p.held = [])
    (hflushed : ∀ n < s'.flushedLsn, n < s.flushedLsn ∨ ∃ b ∈ (s.phase t).batches, n < b.1) :
    Numbered s' := by
  have hphase' (u : τ) : s'.phase u = if u = t then p else s.phase u := by
    rw [hphase, update_apply]
  constructor
  · intro b hb
    rw [hnext]
    rcases hqueue b hb with h | ⟨entries, hne, h⟩
    · exact hs.queue b h
    · exact hs.reserved t _ _ h hne
  · intro u b hb
    rw [hphase'] at hb
    rw [hnext]
    split at hb
    · exact (hbatches b hb).elim (hs.batches t b) (hs.queue b)
    · exact hs.batches u b hb
  · intro u base entries hu hne
    rw [hphase'] at hu
    rw [hnext]
    split at hu
    · subst hu
      exact absurd hheld hne
    · exact hs.reserved u base entries hu hne
  · rw [hnext]
    by_contra hle
    have hflushed' := hs.flushed
    rcases hflushed (s.nextLsn - 1) (by omega) with h | ⟨b, hb, h⟩
    · omega
    · have := hs.batches t b hb
      omega

theorem mem_drainSorted_batch {queue : List (Batch β)} : b ∈ drainSorted queue ↔ b ∈ queue := (perm_insertionSort _ queue).mem_iff

theorem numbered_step (hs : Numbered s) (h : step s ev = some s') : Numbered s' := by
  have hsame {t : τ} {p q : Phase β} (hp : s.phase t = p) (hpq : p.batches = q.batches) :
      ∀ b ∈ q.batches, b ∈ (s.phase t).batches ∨ b ∈ s.queue := fun b hb => by
    rw [hp, hpq]
    exact .inl hb
  have hadvance {t : τ} {p : Phase β} (hp : s.phase t = p) :
      ∀ n < advance s.flushedLsn p.batches, n < s.flushedLsn ∨ ∃ b ∈ (s.phase t).batches, n < b.1 :=
    fun n hn => by
      rcases lt_advance hn with h | ⟨b, hb, hlt⟩
      · exact .inl h
      · exact .inr ⟨b, hp ▸ mem_of_getLast? hb, hlt⟩
  have hq : ∀ t, ∀ b ∈ s.queue,
      b ∈ s.queue ∨ ∃ entries, entries ≠ [] ∧ s.phase t = .reserved b.1 entries := fun _ _ hb => .inl hb
  cases of_step h with
  | @reserve t bodies hp =>
    refine ⟨fun b hb => (hs.queue b hb).trans_le ?_, fun u b hb => ?_, fun u base entries hu hne => ?_,
      hs.flushed.trans_le ?_⟩
    · exact Nat.le_add_right _ _
    · change b ∈ (update s.phase t _ u).batches at hb
      rw [update_apply] at hb
      split at hb
      · cases hb
      · exact (hs.batches u b hb).trans_le (Nat.le_add_right _ _)
    · change update s.phase t _ u = _ at hu
      rw [update_apply] at hu
      split at hu
      · cases hu
        cases bodies with
        | nil => exact absurd rfl hne
        | cons body bodies => exact Nat.lt_add_of_pos_right (Nat.succ_pos _)
      · exact (hs.reserved u base entries hu hne).trans_le (Nat.le_add_right _ _)
    · exact Nat.le_add_right _ _
  | @enqueue t base entries hp =>
    obtain ⟨-, -, -, -, hne, hfl, -⟩ := s.enqueue_fields t base entries
    refine hs.update (enqueue_phase ..) hne (fun b hb => ?_) (fun b h => by cases h) rfl
      fun n hn => .inl (hfl ▸ hn)
    change b ∈ (s.enqueue t base entries).queue at hb
    rw [WalWriter.enqueue] at hb
    split at hb
    · exact .inl hb
    next hempty =>
      rcases mem_append.mp hb with hb | hb
      · exact .inl hb
      · obtain rfl := mem_singleton.mp hb
        exact .inr ⟨entries, fun e => hempty (by simp [e]), hp⟩
  | lead hp hn | writeFails hp | syncFails hp | noSyncWriteFails hp hn =>
    exact hs.update rfl rfl (hq _) (fun b h => by cases h) rfl fun n hn => .inl hn
  | drain hp | noSyncDrain hp =>
    exact hs.update rfl rfl (by simp) (fun b hb => .inr (mem_drainSorted_batch.mp hb)) rfl fun n hn => .inl hn
  | write hp | sync hp | noSyncWrite hp hn =>
    exact hs.update rfl rfl (hq _) (hsame hp rfl) rfl fun n hn => .inl hn
  | finish hp | noSyncFinish hp =>
    exact hs.update rfl rfl (hq _) (fun b h => by cases h) rfl (hadvance hp)

/-- What holds in every run where every flush syncs, in order. -/
structure SyncedBelow (s : WalWriter τ β) : Prop extends Locked s, Numbered s where
  assigned : ∀ e ∈ s.assigned, e.lsn < s.nextLsn
  placed : ∀ e ∈ s.assigned, (∃ t, e ∈ (s.phase t).held) ∨ Kept s e
  quiet : ∀ t batches, s.phase t = .noSyncDrained batches ∨ s.phase t = .noSyncWritten batches →
    batches = []
  onItsWay : ∀ t, ∀ b ∈ (s.phase t).batches.getLast?, ∀ e ∈ s.assigned, e.lsn < b.1 →
    OnItsWay s e (s.phase t)
  covered : ∀ e ∈ s.assigned, e.lsn < s.flushedLsn → e ∈ s.covered

section

variable (h : step s ev = some s')
include h

theorem assigned_step : s'.assigned = s.assigned ∧ s'.nextLsn = s.nextLsn ∨
      ∃ t bodies, ev = .reserve t bodies ∧ s.phase t = .idle ∧ s' = { s with
        nextLsn := s.nextLsn + bodies.length
        assigned := s.assigned ++ stamp s.nextLsn bodies
        phase := update s.phase t (.reserved s.nextLsn (stamp s.nextLsn bodies)) } := by
  cases of_step h with
  | reserve hp => exact .inr ⟨_, _, rfl, hp, rfl⟩
  | @enqueue t base entries hp =>
    obtain ⟨-, -, -, -, hne, -, has⟩ := s.enqueue_fields t base entries
    exact .inl ⟨has, hne⟩
  | _ => exact .inl ⟨rfl, rfl⟩

/-- Stamped entries are held until they are enqueued. -/
theorem held_step (he : ∃ t, e ∈ (s.phase t).held) : (∃ t, e ∈ (s'.phase t).held) ∨ Kept s' e := by
  obtain ⟨t, ht⟩ := he
  have hstay {u : τ} {p q : Phase β} (hphase : s'.phase = update s.phase u p)
      (hq : s.phase u = q) (hnil : q.held = []) : (∃ t, e ∈ (s'.phase t).held) ∨ Kept s' e := by
    refine .inl ⟨t, ?_⟩
    rw [hphase, update_of_ne]
    · exact ht
    · rintro rfl
      rw [hq, hnil] at ht
      cases ht
  cases of_step h with
  | @enqueue u base entries hp =>
    by_cases htu : t = u
    · subst htu
      rw [hp] at ht
      exact .inr (.inl ((entriesOf_enqueue s t base entries).symm ▸ mem_append_right _ ht))
    · refine .inl ⟨t, ?_⟩
      rw [enqueue_phase, update_of_ne htu]
      exact ht
  | reserve hp | lead hp hn | drain hp | write hp | writeFails hp | sync hp | syncFails hp
  | finish hp | noSyncDrain hp | noSyncWrite hp hn | noSyncWriteFails hp hn | noSyncFinish hp =>
    exact hstay rfl hp rfl

/-- What a flush has drained it keeps until it returns. -/
theorem batches_step (t : τ) :
    (s'.phase t).batches = (s.phase t).batches ∨ (s'.phase t).batches = [] ∨
      (ev = .drain t ∨ ev = .noSyncDrain t) ∧ (s'.phase t).batches = drainSorted s.queue := by
  have hstay {u : τ} {p : Phase β} (hphase : s'.phase = update s.phase u p)
      (hmove : t = u → p.batches = (s.phase u).batches ∨ p.batches = [] ∨
        (ev = .drain t ∨ ev = .noSyncDrain t) ∧ p.batches = drainSorted s.queue) :
      (s'.phase t).batches = (s.phase t).batches ∨ (s'.phase t).batches = [] ∨
        (ev = .drain t ∨ ev = .noSyncDrain t) ∧ (s'.phase t).batches = drainSorted s.queue := by
    rw [hphase, update_apply]
    split
    next htu => exact htu ▸ hmove htu
    next => exact .inl rfl
  have hend {u : τ} {p : Phase β} (hphase : s'.phase = update s.phase u p)
      (hnil : p.batches = []) := hstay hphase fun _ => .inr (.inl hnil)
  have hsame {u : τ} {p q : Phase β} (hphase : s'.phase = update s.phase u p)
      (hq : s.phase u = q) (hpq : p.batches = q.batches) :=
    hstay hphase fun _ => .inl (by rw [hq, hpq])
  cases of_step h with
  | enqueue hp => exact hend (enqueue_phase ..) rfl
  | reserve hp | lead hp hn | writeFails hp | syncFails hp | finish hp | noSyncWriteFails hp hn
  | noSyncFinish hp => exact hend rfl rfl
  | drain hp => exact hstay rfl fun htu => .inr (.inr ⟨.inl (by rw [htu]), rfl⟩)
  | write hp | sync hp | noSyncWrite hp hn => exact hsame rfl hp rfl
  | noSyncDrain hp => exact hstay rfl fun htu => .inr (.inr ⟨.inr (by rw [htu]), rfl⟩)

/-- `flushed_lsn` is advanced when a flush returns. -/
theorem flushed_step : s'.flushedLsn = s.flushedLsn ∨
      ∃ t batches, (s.phase t = .synced batches ∨ s.phase t = .noSyncWritten batches) ∧
        s'.flushedLsn = advance s.flushedLsn batches := by
  cases of_step h with
  | @enqueue u base entries hp => exact .inl (s.enqueue_fields u base entries).2.2.2.2.2.1
  | finish hp => exact .inr ⟨_, _, .inl hp, rfl⟩
  | noSyncFinish hp => exact .inr ⟨_, _, .inr hp, rfl⟩
  | _ => exact .inl rfl

end

/-- Without `flush_no_sync` on a queue with entries, it never has anything drained. -/
theorem quiet_step
    (hs : ∀ t batches, s.phase t = .noSyncDrained batches ∨ s.phase t = .noSyncWritten batches →
      batches = []) (hok : ∀ t, ev = .noSyncDrain t → s.queue = []) (h : step s ev = some s')
    (t : τ) (batches : List (Batch β))
    (ht : s'.phase t = .noSyncDrained batches ∨ s'.phase t = .noSyncWritten batches) :
    batches = [] := by
  have hstay {u : τ} {p : Phase β} (hphase : s'.phase = update s.phase u p)
      (hmove : p = .noSyncDrained batches ∨ p = .noSyncWritten batches → batches = []) :
      batches = [] := by
    rw [hphase, update_apply] at ht
    split at ht
    · exact hmove ht
    · exact hs t batches ht
  have hend {u : τ} {p : Phase β} (hphase : s'.phase = update s.phase u p)
      (hp : p ≠ .noSyncDrained batches ∧ p ≠ .noSyncWritten batches) : batches = [] :=
    hstay hphase fun h => (h.elim hp.1 hp.2).elim
  cases of_step h with
  | enqueue hp => exact hend (enqueue_phase ..) ⟨by simp, by simp⟩
  | noSyncDrain hp =>
    refine hstay rfl fun h => ?_
    rw [hok _ rfl] at h
    simpa [drainSorted, eq_comm] using h
  | @noSyncWrite u bs hp hn =>
    refine hstay rfl fun h => ?_
    have hnil := hs u bs (.inl hp)
    simpa [hnil, eq_comm] using h
  | _ => exact hend rfl ⟨by simp, by simp⟩

omit [DecidableEq τ] in
/-- While a leader holds the mutex, only `flush_no_sync` has other entries in its hands. -/
theorem Locked.hands (hs : Locked s) {u : τ} (ht : s.phase t = .leading)
    (he : e ∈ (s.phase u).hands) :
    ∃ batches, s.phase u = .noSyncDrained batches ∧ e ∈ entriesOf batches := by
  cases hu : s.phase u <;> rw [hu] at he <;> first | exact ⟨_, rfl, he⟩ | skip
  case drained batches =>
    have hut := (hs.holder u (by rw [hu]; rfl)).symm.trans (hs.holder t (by rw [ht]; rfl))
    rw [Option.some.inj hut, ht] at hu
    cases hu
  all_goals cases he

omit [DecidableEq τ] in
/-- An entry below a base LSN that a leader drains is in the queue or written. -/
theorem SyncedBelow.reaches (hs : SyncedBelow s) (hok : SyncedInOrder s (.drain t))
    (ht : s.phase t = .leading) (hb : b ∈ s.queue) (he : e ∈ s.assigned) (hlt : e.lsn < b.1) :
    e ∈ s.file ∨ e ∈ entriesOf s.queue := by
  rcases hs.placed e he with ⟨u, hu⟩ | hq | ⟨u, hu⟩ | hf
  · exact absurd (hok u e hu b hb) hlt.asymm
  · exact .inr hq
  · obtain ⟨batches, hp, hmem⟩ := hs.toLocked.hands ht hu
    rw [hs.quiet u batches (.inl hp)] at hmem
    cases hmem
  · exact .inl hf

theorem syncedBelow_step (hs : SyncedBelow s) (hok : SyncedInOrder s ev) (h : step s ev = some s') :
    SyncedBelow s' := by
  have hlocked := hs.toLocked
  have hgrows := grows_step hlocked h
  have hloss : NoLoss s ev := by
    cases ev <;> first | exact hok | trivial
  -- an entry is old, or it was stamped in this step and is above every base LSN
  have hcases (e : Entry β) (he : e ∈ s'.assigned) : e ∈ s.assigned ∨ s.nextLsn ≤ e.lsn := by
    rcases assigned_step h with ⟨has, -⟩ | ⟨t, bodies, -, -, rfl⟩
    · exact .inl (has ▸ he)
    · exact (mem_append.mp he).imp id fun hnew => (mem_stamp hnew).1
  refine ⟨locked_step hlocked h, numbered_step hs.toNumbered h, fun e he => ?_, fun e he => ?_,
    quiet_step hs.quiet ?_ h, fun t b hb e he hlt => ?_, fun e he hlt => ?_⟩
  · rcases assigned_step h with ⟨has, hnext⟩ | ⟨t, bodies, -, -, rfl⟩
    · exact hnext ▸ hs.assigned e (has ▸ he)
    · rcases mem_append.mp he with hold | hnew
      · exact (hs.assigned e hold).trans_le (Nat.le_add_right _ _)
      · exact (mem_stamp hnew).2
  · rcases assigned_step h with ⟨has, -⟩ | ⟨t, bodies, hev, hp, hs'⟩
    · exact (hs.placed e (has ▸ he)).elim (held_step h) fun hk => .inr (kept_step hlocked hloss h hk)
    rw [hs'] at he
    rcases mem_append.mp he with hold | hnew
    · exact (hs.placed e hold).elim (held_step h) fun hk => .inr (kept_step hlocked hloss h hk)
    refine .inl ⟨t, ?_⟩
    rw [hs']
    change e ∈ (update s.phase t _ t).held
    rwa [update_self]
  · rintro t rfl
    exact hok
  · rcases batches_step h t with hsame | hnil | ⟨hev, hnew⟩
    · rw [hsame] at hb
      have hnext := hs.toNumbered.batches t b (mem_of_getLast? hb)
      have hold := (hcases e he).resolve_right (by omega)
      refine onItsWay_step hlocked h ?_ (hs.onItsWay t b hb e hold hlt)
      rintro rfl
      cases of_step h with
      | drain hp =>
        rw [hp] at hb
        cases hb
    · rw [hnil] at hb
      cases hb
    rw [hnew] at hb
    have hqueue := mem_drainSorted_batch.mp (mem_of_getLast? hb)
    have hnext := hs.toNumbered.queue b hqueue
    have hold := (hcases e he).resolve_right (by omega)
    rcases hev with rfl | rfl
    · cases of_step h with
      | drain hp =>
        refine onItsWay_step hlocked h (fun _ => hs.reaches hok hp hqueue hold hlt) ?_
        rw [hp]
        trivial
    · rw [show s.queue = [] from hok] at hqueue
      cases hqueue
  · have hflushed := hs.toNumbered.flushed
    rcases flushed_step h with hsame | ⟨t, batches, hp, hadv⟩
    · rw [hsame] at hlt
      exact hgrows.covered e (hs.covered e ((hcases e he).resolve_right (by omega)) hlt)
    rw [hadv] at hlt
    rcases lt_advance hlt with hlt | ⟨b, hb, hlt⟩
    · exact hgrows.covered e (hs.covered e ((hcases e he).resolve_right (by omega)) hlt)
    rcases hp with hp | hp
    · have hnext := hs.toNumbered.batches t b (hp ▸ mem_of_getLast? hb)
      have hold := (hcases e he).resolve_right (by omega)
      have hway := hs.onItsWay t b (hp ▸ hb) e hold hlt
      rw [hp] at hway
      exact hgrows.covered e hway
    · rw [hs.quiet t batches (.inr hp)] at hb
      cases hb

/-! ## Runs -/

/-- In every run where no flush takes entries out of sight, a flush that returns `Ok`
has written and synced all that its thread had enqueued; and in every run where every
flush syncs, and takes no LSN before a lower one, no entry below `flushed_lsn` is not
synced. -/
theorem ok_flush_synced (start : Nat) (file : List (Entry β)) (s : WalWriter τ β) :
    (Reached step Undisturbed (openFile start file) s → ∀ t s', step s (.finish t) = some s' →
      ∀ e ∈ s'.enqueued t, e ∈ s'.covered) ∧ (Reached step SyncedInOrder (openFile start file) s →
      ∀ e ∈ s.assigned, e.lsn < s.flushedLsn → e ∈ s.covered) := by
  constructor
  · intro hreach t s' hfinish e he
    have hacc : Accounted s := hreach.invariant
      ⟨⟨by simp [openFile, locked], le_rfl⟩, by simp [openFile], by simp [openFile]⟩
      fun hs hok h => accounted_step hs hok h
    cases of_step hfinish with
    | finish hp =>
      have hway := hacc.onItsWay t e he
      rw [hp] at hway
      exact hway
  · intro hreach
    have hinit : SyncedBelow (openFile start file : WalWriter τ β) :=
      ⟨⟨by simp [openFile, locked], le_rfl⟩, ⟨by simp [openFile], by simp [openFile, batches],
        by simp [openFile], Nat.lt_succ_of_le (le_max_left _ _)⟩, by simp [openFile], by simp [openFile],
        by simp [openFile], by simp [openFile], by simp [openFile]⟩
    exact (hreach.invariant hinit fun hs hok h => syncedBelow_step hs hok h).covered

/-- Two threads enqueue: the flush of thread 0 writes and syncs for both, and thread 1 then enqueues
once more and flushes. -/
theorem ok_flush_synced_two : ∃ s s' : WalWriter (Fin 2) Nat,
    Reached step Undisturbed (openFile 0 []) s ∧ step s (.finish 1) = some s' ∧
    s'.enqueued 1 = [⟨2, 8⟩, ⟨3, 9⟩] ∧ (∀ e ∈ s'.enqueued 1, e ∈ s'.covered) ∧
    Reached step SyncedInOrder (openFile 0 []) s' ∧ s'.flushedLsn = 3 ∧
    ∀ e ∈ s'.assigned, e.lsn < s'.flushedLsn → e ∈ s'.covered := by
  let l : List (Event (Fin 2) Nat) := [.reserve 0 [7], .reserve 1 [8], .enqueue 1, .enqueue 0, .lead 0,
    .drain 0, .write 0, .sync 0, .finish 0, .reserve 1 [9], .enqueue 1, .lead 1, .drain 1, .write 1,
    .sync 1]
  have hreach : Reached step Undisturbed (openFile 0 [] : WalWriter (Fin 2) Nat) _ :=
    .of_run (l := l) .init rfl
  have hsynced : Reached step SyncedInOrder (openFile 0 [] : WalWriter (Fin 2) Nat) _ :=
    .of_run (l := l ++ [.finish 1]) .init rfl
  exact ⟨_, _, hreach, rfl, rfl, (ok_flush_synced 0 [] _).1 hreach 1 _ rfl, hsynced, rfl,
    (ok_flush_synced 0 [] _).2 hsynced⟩

/-- Thread 1 drains the entry of thread 0, whose flush then finds the queue empty and
returns `Ok` with nothing written; and a flush of two entries without a sync advances
`flushed_lsn` to the second. -/
theorem ok_flush_not_synced : (∃ s : WalWriter (Fin 2) Nat, Reached step free (openFile 0 []) s ∧
      ∃ s', step s (.finish 0) = some s' ∧ ∃ e ∈ s'.enqueued 0, e ∉ s'.file) ∧
    ∃ s : WalWriter (Fin 2) Nat, Reached step free (openFile 0 []) s ∧
      ∃ e ∈ s.assigned, e.lsn < s.flushedLsn ∧ e ∉ s.covered := by
  refine ⟨⟨_, Reached.of_run (l := [.reserve 0 [7], .enqueue 0, .noSyncDrain 1, .lead 0, .drain 0, .write 0,
    .sync 0]) .init rfl, _, rfl, ⟨1, 7⟩, by decide, by decide⟩, _,
    Reached.of_run (l := [.reserve 0 [7, 8], .enqueue 0, .reserve 0 [9], .enqueue 0, .noSyncDrain 1,
      .noSyncWrite 1, .noSyncFinish 1]) .init rfl, ⟨1, 7⟩, by decide, by decide, by decide⟩

end AxiomDb.Wal
