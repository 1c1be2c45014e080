import AxiomDb.Wal.Writer

/-!
# The order of the log

Entries are sorted when the queue is drained, so the file is in LSN order as long
as the drains are: no LSN that is reserved and not enqueued may be below one that
is drained, and nobody else may hold drained entries that are not written. Then
the last entry has the greatest LSN, and reopening the file continues above it.
-/

namespace AxiomDb.Wal

open Lib WalWriter List Function

variable {τ β : Type} [DecidableEq τ]

section

variable (s : WalWriter τ β)

/-- A flush that finds entries in the queue drains them in their turn: nobody holds
drained entries that are not written, and no lower LSN is still to be enqueued. A write
that fails had nothing to write, so it leaves no part of an entry in the file. -/
def InTurn : Event τ β → Prop
  | .drain _ | .noSyncDrain _ =>
    s.queue = [] ∨ (∀ u, (s.phase u).hands = []) ∧
      ∀ u, ∀ e ∈ (s.phase u).held, ∀ b ∈ s.queue, b.1 < e.lsn
  | .writeFails t | .noSyncWriteFails t => (s.phase t).hands = []
  | _ => True

instance {n : Nat} (s : WalWriter (Fin n) β) (e : Event (Fin n) β) : Decidable (InTurn s e) :=
  match e with
  | .drain _ | .noSyncDrain _ => inferInstanceAs (Decidable (_ ∨ _ ∧ _))
  | .writeFails _ | .noSyncWriteFails _ => inferInstanceAs (Decidable (_ = []))
  | .reserve .. | .enqueue _ | .lead _ | .write _ | .sync _ | .syncFails _ | .finish _
  | .noSyncWrite _ | .noSyncFinish _ => inferInstanceAs (Decidable True)

/-- In increasing LSN order. -/
abbrev Increasing (es : List (Entry β)) : Prop := es.Pairwise fun e f => e.lsn < f.lsn

/-- The LSNs of a batch are its own. -/
structure Whole (b : Batch β) : Prop where
  increasing : Increasing b.2
  within : ∀ e ∈ b.2, b.1 ≤ e.lsn ∧ e.lsn < b.1 + b.2.length

/-- One batch is below the other. -/
def Sep (b c : Batch β) : Prop := b.1 + b.2.length ≤ c.1 ∨ c.1 + c.2.length ≤ b.1

theorem Sep.symm {b c : Batch β} (h : Sep b c) : Sep c b := Or.symm h

/-- A batch to be enqueued by a thread. -/
def Holds (t : τ) (b : Batch β) : Prop :=
  s.phase t = .reserved b.1 b.2 ∧ b.2 ≠ []

/-- A batch that is not drained: queued, or to be enqueued. -/
def Live (b : Batch β) : Prop := b ∈ s.queue ∨ ∃ t, Holds s t b

/-- An entry that is written, or drained to be written. -/
def Passed (e : Entry β) : Prop := e ∈ s.file ∨ ∃ t, e ∈ (s.phase t).hands

end

structure LsnOrder (s : WalWriter τ β) : Prop where
  file : Increasing s.file
  hands : ∀ t, Increasing (s.phase t).hands
  alone : ∀ t u, t ≠ u → (s.phase t).hands = [] ∨ (s.phase u).hands = []
  written : ∀ e ∈ s.file, ∀ t, ∀ f ∈ (s.phase t).hands, e.lsn < f.lsn
  live : ∀ b, Live s b → Whole b ∧ b.2 ≠ [] ∧ b.1 + b.2.length ≤ s.nextLsn
  passed : ∀ e, Passed s e → e.lsn < s.nextLsn ∧ ∀ b, Live s b → e.lsn < b.1
  queue : s.queue.Pairwise Sep
  queued : ∀ t b, Holds s t b → ∀ c ∈ s.queue, Sep b c
  held : ∀ t u b c, t ≠ u → Holds s t b → Holds s u c → Sep b c

theorem stamp_length (base : Nat) (bodies : List β) : (stamp base bodies).length = bodies.length := by
  induction bodies generalizing base with
  | nil => rfl
  | cons body bodies ih => simp [stamp, ih]

theorem whole_stamp (base : Nat) (bodies : List β) : Whole (base, stamp base bodies) := by
  refine ⟨?_, fun e he => by simpa [stamp_length] using mem_stamp he⟩
  change Increasing (stamp base bodies)
  induction bodies generalizing base with
  | nil => exact .nil
  | cons body bodies ih => exact .cons (fun e he => Nat.lt_of_succ_le (mem_stamp he).1) (ih _)

/-- Batches that are apart are drained in LSN order. -/
theorem increasing_drainSorted {queue : List (Batch β)} (hsep : queue.Pairwise Sep)
    (hwhole : ∀ b ∈ queue, Whole b ∧ b.2 ≠ []) : Increasing (entriesOf (drainSorted queue)) := by
  have hperm := perm_insertionSort (fun p q : Batch β => p.1 ≤ q.1) queue
  have hsep' : (drainSorted queue).Pairwise Sep := (hperm.pairwise_iff fun h => h.symm).mpr hsep
  have hsorted : (drainSorted queue).Pairwise fun p q => p.1 ≤ q.1 := by
    have : Std.Total fun p q : Batch β => p.1 ≤ q.1 := ⟨fun p q => Nat.le_total _ _⟩
    have : IsTrans (Batch β) fun p q => p.1 ≤ q.1 := ⟨fun p q r => Nat.le_trans⟩
    exact pairwise_insertionSort _ queue
  refine pairwise_flatMap.mpr ⟨fun b hb => (hwhole b (hperm.mem_iff.mp hb)).1.increasing, ?_⟩
  refine (hsep'.and hsorted).imp_of_mem ?_
  intro b c hb hc hbc e he f hf
  have hbw := (hwhole b (hperm.mem_iff.mp hb)).1.within e he
  have hcw := (hwhole c (hperm.mem_iff.mp hc)).1.within f hf
  have hpos := length_pos_of_mem hf
  rcases hbc with ⟨h | h, hle⟩ <;> omega

/-! ## What the steps do to the order -/

namespace LsnOrder

variable {s s' : WalWriter τ β}

section

variable (hs : LsnOrder s)
include hs

omit [DecidableEq τ] in
/-- A step after which nothing new is written or drained. -/
theorem batches (hfile : s'.file = s.file) (hnext : s.nextLsn ≤ s'.nextLsn)
    (hhands : ∀ t, (s'.phase t).hands = [] ∨ (s'.phase t).hands = (s.phase t).hands)
    (hlive : ∀ b, Live s' b → (Whole b ∧ b.2 ≠ [] ∧ b.1 + b.2.length ≤ s'.nextLsn) ∧
      ∀ e, Passed s e → e.lsn < b.1)
    (hqueue : s'.queue.Pairwise Sep) (hqueued : ∀ t b, Holds s' t b → ∀ c ∈ s'.queue, Sep b c)
    (hheld : ∀ t u b c, t ≠ u → Holds s' t b → Holds s' u c → Sep b c) : LsnOrder s' := by
  have hmem {t : τ} {e : Entry β} (he : e ∈ (s'.phase t).hands) : e ∈ (s.phase t).hands := by
    rcases hhands t with h | h <;> rw [h] at he
    · cases he
    · exact he
  have hpassed {e : Entry β} (he : Passed s' e) : Passed s e := by
    rcases he with he | ⟨t, ht⟩
    · exact .inl (hfile ▸ he)
    · exact .inr ⟨t, hmem ht⟩
  refine ⟨hfile ▸ hs.file, fun t => ?_, fun t u htu => ?_,
    fun e he t f hf => hs.written e (hfile ▸ he) t f (hmem hf), fun b hb => (hlive b hb).1,
    fun e he => ⟨(hs.passed e (hpassed he)).1.trans_le hnext,
      fun b hb => (hlive b hb).2 e (hpassed he)⟩, hqueue, hqueued, hheld⟩
  · rcases hhands t with h | h <;> rw [h]
    · exact .nil
    · exact hs.hands t
  · rcases hhands t with h | h
    · exact .inl h
    rcases hhands u with h' | h'
    · exact .inr h'
    · rw [h, h']
      exact hs.alone t u htu

section

variable {t : τ} {p : Phase β} (hphase : s'.phase = update s.phase t p)
include hphase

omit hs in
/-- A thread that moves on holds no batch. -/
theorem holds_of_update (hheld : p.held = []) {u : τ} {b : Batch β} (hb : Holds s' u b) :
    Holds s u b := by
  obtain ⟨hu, hne⟩ := hb
  rw [hphase, update_apply] at hu
  split at hu
  · subst hu
    exact absurd hheld hne
  · exact ⟨hu, hne⟩

omit hs in
theorem hands_of_update (hhands : p.hands = [] ∨ p.hands = (s.phase t).hands) (u : τ) :
    (s'.phase u).hands = [] ∨ (s'.phase u).hands = (s.phase u).hands := by
  rw [hphase, update_apply]
  split
  next hut => exact hut ▸ hhands
  next => exact .inr rfl

/-- A thread that moves on, with what it has drained or without. -/
theorem move (hfile : s'.file = s.file)
    (hqueue : s'.queue = s.queue) (hnext : s'.nextLsn = s.nextLsn) (hheld : p.held = [])
    (hhands : p.hands = [] ∨ p.hands = (s.phase t).hands) : LsnOrder s' := by
  have hholds {u : τ} {b : Batch β} : Holds s' u b → Holds s u b := holds_of_update hphase hheld
  refine hs.batches hfile hnext.ge (hands_of_update hphase hhands) (fun b hb => ?_)
    (hqueue ▸ hs.queue) (fun u b hb c hc => hs.queued u b (hholds hb) c (hqueue ▸ hc))
    fun u v b c huv hb hc => hs.held u v b c huv (hholds hb) (hholds hc)
  have hb : Live s b := hb.imp (hqueue ▸ ·) fun ⟨u, hu⟩ => ⟨u, hholds hu⟩
  exact ⟨hnext ▸ hs.live b hb, fun e he => (hs.passed e he).2 b hb⟩

theorem drain (hfile : s'.file = s.file)
    (hqueue : s'.queue = []) (hnext : s'.nextLsn = s.nextLsn) (hheld : p.held = [])
    (hhands : p.hands = entriesOf (drainSorted s.queue))
    (hok : s.queue = [] ∨ (∀ u, (s.phase u).hands = []) ∧
      ∀ u, ∀ e ∈ (s.phase u).held, ∀ b ∈ s.queue, b.1 < e.lsn) : LsnOrder s' := by
  rcases hok with hempty | ⟨halone, hturn⟩
  · refine hs.move hphase hfile (hqueue.trans hempty.symm) hnext hheld (.inl ?_)
    rw [hhands, hempty]
    rfl
  have hph (u : τ) : s'.phase u = if u = t then p else s.phase u := by
    rw [hphase, update_apply]
  have hother {u : τ} (hut : u ≠ t) : (s'.phase u).hands = [] := by
    rw [hph, if_neg hut, halone]
  have hmine : (s'.phase t).hands = entriesOf (drainSorted s.queue) := by
    rw [hph, if_pos rfl, hhands]
  -- every entry in someone's hands was queued
  have hdrained {u : τ} {e : Entry β} (he : e ∈ (s'.phase u).hands) : ∃ b ∈ s.queue, e ∈ b.2 := by
    by_cases hut : u = t
    · subst hut
      rw [hmine] at he
      exact mem_flatMap.mp (mem_drainSorted.mp he)
    · rw [hother hut] at he
      cases he
  have hholds {u : τ} {b : Batch β} : Holds s' u b → Holds s u b := holds_of_update hphase hheld
  have hlive {b : Batch β} (hb : Live s' b) : ∃ u, Holds s u b := by
    rcases hb with hb | ⟨u, hu⟩
    · rw [hqueue] at hb
      cases hb
    · exact ⟨u, hholds hu⟩
  constructor
  · exact hfile ▸ hs.file
  · intro u
    by_cases hut : u = t
    · subst hut
      rw [hmine]
      exact increasing_drainSorted hs.queue fun b hb =>
        ⟨(hs.live b (.inl hb)).1, (hs.live b (.inl hb)).2.1⟩
    · rw [hother hut]
      exact .nil
  · intro u v huv
    by_cases hut : u = t
    · exact .inr (hother fun hvt => huv (hut.trans hvt.symm))
    · exact .inl (hother hut)
  · intro e he u f hf
    obtain ⟨b, hb, hfb⟩ := hdrained hf
    have hlt := (hs.passed e (.inl (hfile ▸ he))).2 b (.inl hb)
    exact hlt.trans_le ((hs.live b (.inl hb)).1.within f hfb).1
  · intro b hb
    obtain ⟨u, hu⟩ := hlive hb
    exact hnext ▸ hs.live b (.inr ⟨u, hu⟩)
  · intro e he
    rcases he with he | ⟨u, he⟩
    · have h := hs.passed e (.inl (hfile ▸ he))
      refine ⟨hnext ▸ h.1, fun b hb => ?_⟩
      obtain ⟨u, hu⟩ := hlive hb
      exact h.2 b (.inr ⟨u, hu⟩)
    obtain ⟨c, hc, hec⟩ := hdrained he
    obtain ⟨hwhole, -, hle⟩ := hs.live c (.inl hc)
    have hwithin := hwhole.within e hec
    refine ⟨by omega, fun b hb => ?_⟩
    obtain ⟨v, hv⟩ := hlive hb
    -- the batch is above what was drained: its first entry is
    obtain ⟨f, hf⟩ := exists_mem_of_ne_nil _ hv.2
    have hfb := (hs.live b (.inr ⟨v, hv⟩)).1.within f hf
    have hturn' := hturn v f (by rw [hv.1]; exact hf) c hc
    rcases hs.queued v b hv c hc with h | h <;> omega
  · rw [hqueue]
    exact .nil
  · intro u b hb c hc
    rw [hqueue] at hc
    cases hc
  · exact fun u v b c huv hb hc => hs.held u v b c huv (hholds hb) (hholds hc)

/-- What is in the hands of a thread is written at the end of the file. -/
theorem write (hfile : s'.file = s.file ++ (s.phase t).hands) (hqueue : s'.queue = s.queue)
    (hnext : s'.nextLsn = s.nextLsn) (hheld : p.held = []) (hhands : p.hands = []) :
    LsnOrder s' := by
  have hph (u : τ) : s'.phase u = if u = t then p else s.phase u := by
    rw [hphase, update_apply]
  -- first the thread's hands are emptied, then the file is extended
  have hmoved : LsnOrder { s with phase := update s.phase t p } :=
    hs.move rfl rfl rfl rfl hheld (.inl hhands)
  have hsub : ∀ u, ∀ f ∈ (s'.phase u).hands, u ≠ t ∧ f ∈ (s.phase u).hands := by
    intro u f hf
    rw [hph] at hf
    split at hf
    · rw [hhands] at hf
      cases hf
    next hut => exact ⟨hut, hf⟩
  have hlive {b : Batch β} (hb : Live s' b) : Live s b := by
    rcases hb with hb | ⟨u, hu⟩
    · exact .inl (hqueue ▸ hb)
    · exact .inr ⟨u, holds_of_update hphase hheld hu⟩
  have hpassed {e : Entry β} (he : Passed s' e) : Passed s e := by
    rcases he with he | ⟨u, hu⟩
    · rw [hfile] at he
      exact (mem_append.mp he).imp id fun h => ⟨t, h⟩
    · exact .inr ⟨u, (hsub u e hu).2⟩
  constructor
  · rw [hfile]
    exact pairwise_append.mpr ⟨hs.file, hs.hands t, fun e he f hf => hs.written e he t f hf⟩
  · exact hphase ▸ hmoved.hands
  · exact hphase ▸ hmoved.alone
  · intro e he u f hf
    obtain ⟨hut, hf'⟩ := hsub u f hf
    rw [hfile] at he
    rcases mem_append.mp he with he | he
    · exact hs.written e he u f hf'
    rcases hs.alone u t hut with h | h
    · rw [h] at hf'
      cases hf'
    · rw [h] at he
      cases he
  · exact fun b hb => hnext ▸ hs.live b (hlive hb)
  · exact fun e he => ⟨hnext ▸ (hs.passed e (hpassed he)).1,
      fun b hb => (hs.passed e (hpassed he)).2 b (hlive hb)⟩
  · exact hqueue ▸ hmoved.queue
  · exact fun u b hb c hc => hmoved.queued u b ⟨hphase ▸ hb.1, hb.2⟩ c (hqueue ▸ hc)
  · exact fun u v b c huv hb hc =>
      hmoved.held u v b c huv ⟨hphase ▸ hb.1, hb.2⟩ ⟨hphase ▸ hc.1, hc.2⟩

end

/-- LSNs that are handed out are above all others. -/
theorem reserve {t : τ} (bodies : List β)
    (hphase : s'.phase = update s.phase t (.reserved s.nextLsn (stamp s.nextLsn bodies)))
    (hfile : s'.file = s.file) (hqueue : s'.queue = s.queue)
    (hnext : s'.nextLsn = s.nextLsn + bodies.length) : LsnOrder s' := by
  have hholds {u : τ} {b : Batch β} (hb : Holds s' u b) :
      u = t ∧ b = (s.nextLsn, stamp s.nextLsn bodies) ∨ Holds s u b := by
    obtain ⟨hu, hne⟩ := hb
    rw [hphase, update_apply] at hu
    split at hu
    next hut =>
      injection hu with h1 h2
      exact .inl ⟨hut, Prod.ext h1.symm h2.symm⟩
    next => exact .inr ⟨hu, hne⟩
  have hlive {b : Batch β} (hb : Live s' b) :
      Live s b ∨ b = (s.nextLsn, stamp s.nextLsn bodies) ∧ b.2 ≠ [] := by
    rcases hb with hb | ⟨u, hu⟩
    · exact .inl (.inl (hqueue ▸ hb))
    · exact (hholds hu).symm.imp (fun h => .inr ⟨u, h⟩) fun h => ⟨h.2, hu.2⟩
  have hbelow {b : Batch β} (hb : Live s b) : Sep b (s.nextLsn, stamp s.nextLsn bodies) :=
    .inl (hs.live b hb).2.2
  refine hs.batches hfile (by omega) (hands_of_update hphase (.inl rfl)) (fun b hb => ?_)
    (hqueue ▸ hs.queue) (fun u b hb c hc => ?_) fun u v b c huv hb hc => ?_
  · rcases hlive hb with hb | ⟨rfl, hne⟩
    · obtain ⟨hwhole, hne, hle⟩ := hs.live b hb
      exact ⟨⟨hwhole, hne, by omega⟩, fun e he => (hs.passed e he).2 b hb⟩
    · exact ⟨⟨whole_stamp _ _, hne, by rw [hnext, stamp_length]⟩, fun e he => (hs.passed e he).1⟩
  · rw [hqueue] at hc
    rcases hholds hb with ⟨-, rfl⟩ | hb
    · exact (hbelow (.inl hc)).symm
    · exact hs.queued u b hb c hc
  · rcases hholds hb with ⟨hut, rfl⟩ | hb
    · rcases hholds hc with ⟨hvt, -⟩ | hc
      · exact absurd (hut.trans hvt.symm) huv
      · exact (hbelow (.inr ⟨v, hc⟩)).symm
    · rcases hholds hc with ⟨-, rfl⟩ | hc
      · exact hbelow (.inr ⟨u, hb⟩)
      · exact hs.held u v b c huv hb hc

/-- A batch that is enqueued stays apart from the others. -/
theorem enqueue {t : τ} {base : Nat} {entries : List (Entry β)}
    (ht : s.phase t = .reserved base entries) (hne : entries ≠ [])
    (hphase : s'.phase = update s.phase t .idle) (hfile : s'.file = s.file)
    (hqueue : s'.queue = s.queue ++ [(base, entries)]) (hnext : s'.nextLsn = s.nextLsn) :
    LsnOrder s' := by
  have hmine : Holds s t (base, entries) := ⟨ht, hne⟩
  have hholds {u : τ} {b : Batch β} (hb : Holds s' u b) : u ≠ t ∧ Holds s u b := by
    obtain ⟨hu, hne⟩ := hb
    rw [hphase, update_apply] at hu
    split at hu
    · cases hu
    next hut => exact ⟨hut, hu, hne⟩
  have hmem {b : Batch β} (hb : b ∈ s'.queue) : b ∈ s.queue ∨ b = (base, entries) := by
    rw [hqueue] at hb
    exact (mem_append.mp hb).imp id mem_singleton.mp
  have hlive {b : Batch β} (hb : Live s' b) : Live s b := by
    rcases hb with hb | ⟨u, hu⟩
    · rcases hmem hb with hb | rfl
      · exact .inl hb
      · exact .inr ⟨t, hmine⟩
    · exact .inr ⟨u, (hholds hu).2⟩
  refine hs.batches hfile hnext.ge (hands_of_update hphase (.inl rfl)) (fun b hb => ?_) ?_
    (fun u b hb c hc => ?_) fun u v b c huv hb hc => hs.held u v b c huv (hholds hb).2 (hholds hc).2
  · exact ⟨hnext ▸ hs.live b (hlive hb), fun e he => (hs.passed e he).2 b (hlive hb)⟩
  · rw [hqueue]
    refine pairwise_append.mpr ⟨hs.queue, pairwise_singleton _ _, fun b hb c hc => ?_⟩
    rw [mem_singleton.mp hc]
    exact (hs.queued t _ hmine b hb).symm
  · obtain ⟨hut, hb⟩ := hholds hb
    rcases hmem hc with hc | rfl
    · exact hs.queued u b hb c hc
    · exact hs.held u t b _ hut hb hmine

end

end LsnOrder

theorem lsnOrder_step {s s' : WalWriter τ β} {ev : Event τ β} (hs : LsnOrder s)
    (hok : InTurn s ev) (h : step s ev = some s') : LsnOrder s' := by
  cases Move.of_step h with
  | reserve => exact hs.reserve _ rfl rfl rfl rfl
  | @enqueue t base entries hp =>
    obtain ⟨-, -, hfi, -, hne, -⟩ := s.enqueue_fields t base entries
    have hphase := s.enqueue_phase t base entries
    by_cases hempty : entries = []
    · refine hs.move hphase hfi ?_ hne rfl (.inl rfl)
      simp [setPhase, WalWriter.enqueue, hempty]
    · refine hs.enqueue hp hempty hphase hfi ?_ hne
      simp [setPhase, WalWriter.enqueue, hempty]
  | lead hp hn | writeFails hp | sync hp | syncFails hp | finish hp | noSyncWriteFails hp hn
  | noSyncFinish hp => exact hs.move rfl rfl rfl rfl rfl (.inl rfl)
  | drain hp | noSyncDrain hp => exact hs.drain rfl rfl rfl rfl rfl rfl hok
  | write hp | noSyncWrite hp hn => exact hs.write rfl (by rw [hp]; rfl) rfl rfl rfl rfl

/-! ## Runs, and reopening the file -/

/-- In a file in LSN order the last entry has the greatest LSN. -/
theorem le_scanValidTail {file : List (Entry β)} (h : Increasing file) {e : Entry β}
    (he : e ∈ file) : e.lsn ≤ scanValidTail file := by
  obtain rfl | ⟨es, l, rfl⟩ := eq_nil_or_concat file
  · cases he
  have hlast : scanValidTail (es ++ [l]) = l.lsn := by simp [scanValidTail]
  rw [concat_eq_append] at he h ⊢
  rw [hlast]
  rcases mem_append.mp he with he | he
  · exact ((pairwise_append.mp h).2.2 e he l mem_cons_self).le
  · exact (congrArg Entry.lsn (mem_singleton.mp he)).le

/-- In every run whose flushes drain in their turn the file is in LSN order, and
reopening it continues above every LSN in it. -/
theorem log_in_lsn_order (start : Nat) (file : List (Entry β)) (hfile : Increasing file)
    (s : WalWriter τ β) (h : Reached step InTurn (openFile start file) s) :
    Increasing s.file ∧ ∀ e ∈ s.file, e.lsn < (openFile start s.file : WalWriter τ β).nextLsn := by
  have hnone : ∀ b, ¬Live (openFile start file : WalWriter τ β) b := by
    rintro b (hb | ⟨t, ht, -⟩)
    · cases hb
    · cases ht
  have hinit : LsnOrder (openFile start file : WalWriter τ β) := by
    refine ⟨hfile, fun _ => .nil, fun _ _ _ => .inl rfl, by simp [openFile, Phase.hands], fun b hb => (hnone b hb).elim,
      fun e he => ⟨?_, fun b hb => (hnone b hb).elim⟩, .nil, by simp [openFile], by simp [openFile, Holds]⟩
    rcases he with he | ⟨t, ht⟩
    · exact Nat.lt_succ_of_le ((le_scanValidTail hfile he).trans (le_max_left _ _))
    · cases ht
  have horder := h.invariant hinit fun hs hok h => lsnOrder_step hs hok h
  exact ⟨horder.file, fun e he =>
    Nat.lt_succ_of_le ((le_scanValidTail horder.file he).trans (le_max_left _ _))⟩

/-- Two threads that reserve and enqueue in turn, a flush of one for both and, while the other
reserves again, one without a sync. -/
theorem log_in_lsn_order_two : ∃ s : WalWriter (Fin 2) Nat,
    Reached step InTurn (openFile 0 [⟨1, 5⟩]) s ∧ s.file.map Entry.lsn = [1, 2, 3, 4, 5] ∧
    Increasing s.file ∧ ∀ e ∈ s.file, e.lsn < (openFile 0 s.file : WalWriter (Fin 2) Nat).nextLsn := by
  have hreach : Reached step InTurn (openFile 0 [⟨1, 5⟩] : WalWriter (Fin 2) Nat) _ :=
    .of_run (l := [.reserve 0 [7], .reserve 1 [8, 9], .enqueue 1, .enqueue 0, .lead 0, .drain 0,
      .write 0, .sync 0, .finish 0, .reserve 0 [6], .enqueue 0, .reserve 0 [4], .noSyncDrain 1,
      .noSyncWrite 1, .noSyncFinish 1]) .init rfl
  exact ⟨_, hreach, rfl, log_in_lsn_order 0 [⟨1, 5⟩] (pairwise_singleton _ _) _ hreach⟩

/-- Thread 0 reserves LSN 1 and thread 1 LSN 2; thread 1 enqueues and flushes first. The
file ends with LSN 1, and after it is reopened LSN 2 is handed out again. -/
theorem log_out_of_lsn_order : ∃ s : WalWriter (Fin 2) Nat,
    Reached step free (openFile 0 []) s ∧ s.queue = [] ∧ (s.file.map Entry.lsn) = [2, 1] ∧
    (openFile 0 s.file : WalWriter (Fin 2) Nat).nextLsn = 2 := by
  exact ⟨_, Reached.of_run (l := [.reserve 0 [7], .reserve 1 [8], .enqueue 1, .lead 1, .drain 1, .write 1,
    .sync 1, .finish 1, .enqueue 0, .lead 0, .drain 0, .write 0, .sync 0, .finish 0]) .init rfl,
    rfl, rfl, rfl⟩

end AxiomDb.Wal
