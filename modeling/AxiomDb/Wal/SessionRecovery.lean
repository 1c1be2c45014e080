import AxiomDb.Wal.Sessions

/-!
# Recovery gives the committed slots

While no transaction of an earlier session is left in the log, what recovery
undoes is what the active transactions did, and each slot has at most one of them
to undo.
-/

namespace AxiomDb.Wal.Sessions

open Lib Heap Function Option Db InFlight List RecoveryOp

variable {rootOf : Chains} {s s' : Db}

/-! ## Undo, slot by slot -/

variable {strict : Bool} {heap heap' : HeapSlots} {ops : List RecoveryOp} {c : Nat}
  {op : RecoveryOp}

theorem RecoveryOp.touches_of_slot {x y : RowId} (h : op.slot? = some y) :
    op.touches rootOf x ↔ x = y := by
  cases op <;> simp_all [slot?, touches]

theorem RecoveryOp.undoTuple_of_slot_none (h : op.slot? = none) (strict : Bool) (t : Option Tuple) :
    (op.undoTuple strict t).isNone = false := by
  cases op <;> simp_all [slot?, undoTuple]

theorem RecoveryOp.undo_eq_some : op.undo rootOf strict heap = some heap' ↔
      ∀ x, (if op.touches rootOf x then op.undoTuple strict (heap x) else some (heap x)) =
        some (heap' x) := by
  have hfail : (op.slot?.any fun x => (op.undoTuple strict (heap x)).isNone) = false ↔
      ∀ x, op.touches rootOf x → (op.undoTuple strict (heap x)).isNone = false := by
    cases hslot : op.slot? with
    | none => simp [undoTuple_of_slot_none hslot]
    | some y => simp [touches_of_slot hslot]
  rw [undo]
  constructor
  · intro h x
    split at h
    · cases h
    next hok =>
      cases h
      by_cases ht : op.touches rootOf x
      · have hsome := hfail.mp (by simpa using hok) x ht
        cases hu : op.undoTuple strict (heap x) with
        | none => simp [hu] at hsome
        | some t => simp [ht, hu]
      · simp [ht]
  · intro h
    rw [if_neg, some.injEq]
    · funext x
      have := h x
      split at this <;> simp_all
    rw [Bool.not_eq_true, hfail]
    intro x ht
    have := h x
    rw [if_pos ht] at this
    simp [this]

/-- Operations are undone on the heap as they are on each slot. -/
theorem undoAll_eq_some : undoAll rootOf strict ops heap = some heap' ↔
      ∀ x, (heapUndo rootOf).undoAt strict x ops (heap x) = some (heap' x) := by
  induction ops generalizing heap with
  | nil => simp [undoAll, UndoOps.undoAt, funext_iff]
  | cons op ops ih =>
    have hat (x : RowId) : (heapUndo rootOf).undoAt strict x (op :: ops) (heap x) =
        (if op.touches rootOf x then op.undoTuple strict (heap x) else some (heap x)).bind
          ((heapUndo rootOf).undoAt strict x ops) := by
      rw [UndoOps.undoAt]
      split <;> simp_all [heapUndo]
    simp only [undoAll, bind_eq_some_iff, undo_eq_some, hat]
    constructor
    · rintro ⟨mid, hmid, h⟩ x
      exact ⟨mid x, hmid x, ih.mp h x⟩
    · intro h
      choose mid hmid hrest using h
      exact ⟨mid, hmid, ih.mpr hrest⟩

/-! ## The changes of a transaction -/

theorem Tuple.stamp_stamp {t : Tuple} (h : t.header.txnIdDeleted = 0) (c : Nat) :
    (t.stamp c).stamp 0 = t := by
  obtain ⟨⟨_, _, _, _⟩, _⟩ := t
  cases h
  rfl

/-- Unused slots are empty. -/
def Fresh (s : Db) : Prop := ∀ x, s.used x = false → s.heap x = none ∧ s.committed x = none

/-- A change is one that its undo takes back, on the slots that the undo visits. -/
structure Undoes (rootOf : Chains) (s : Db) (op : RecoveryOp) (heap : HeapSlots)
    (used : RowId → Bool) : Prop where
  frame : ∀ x, op.touches rootOf x = false → heap x = s.heap x
  undo : ∀ x, op.touches rootOf x = true → ∀ strict, op.undoTuple strict (heap x) = some (s.heap x)
  unused : ∀ x, used x = false → s.used x = false ∧ heap x = s.heap x

theorem change_undoes (hs : Fresh s) {ch : Change}
    (hstamp : ∀ rootPageId, ch = .truncate rootPageId →
      ∀ x t, rootOf x.1 = rootPageId → s.heap x = some t → t.header.txnIdDeleted ≠ c)
    (h : s.change rootOf c ch = some (s', op)) : (∀ x, op.touches rootOf x = ch.touches rootOf x) ∧
      ∃ heap used, s' = s.record c op heap used ∧ Undoes rootOf s op heap used := by
  cases ch with
  | insert y data =>
    rw [change] at h
    split at h
    · cases h
    next hused =>
    cases h
    have hy := (hs y (by simpa using hused)).1
    refine ⟨fun x => rfl, _, _, rfl, fun x hx => ?_, fun x hx strict => ?_, fun x hx => ?_⟩
    · exact update_of_ne (by simpa [touches] using hx) ..
    · obtain rfl : x = y := by simpa [touches] using hx
      exact congrArg some hy.symm
    obtain hne | rfl := ne_or_eq x y
    · rw [update_of_ne hne] at hx ⊢
      exact ⟨hx, rfl⟩
    · simp at hx
  | delete y | updateInPlace y _ =>
    rw [change] at h
    split at h
    next t ht =>
      split at h <;> cases h
      next hlive =>
        refine ⟨fun x => rfl, _, _, rfl, fun x hx => ?_, fun x hx strict => ?_, fun x hx => ⟨hx, ?_⟩⟩
        · exact update_of_ne (by simpa [touches] using hx) ..
        · obtain rfl : x = y := by simpa [touches] using hx
          simp [undoTuple, Tuple.stamp_stamp hlive, ht]
        · refine update_of_ne (fun hxy => ?_) ..
          cases ht.symm.trans (hxy ▸ (hs x hx).1)
    next => cases h
  | truncate rootPageId =>
    cases h
    refine ⟨fun x => rfl, _, _, rfl, fun x hx => if_neg (by simpa [touches] using hx),
      fun x hx strict => ?_, fun x hx => ⟨hx, ?_⟩⟩
    · have hroot : rootOf x.1 = rootPageId := by simpa [touches] using hx
      simp only [hroot, if_true]
      cases ht : s.heap x with
      | none => rfl
      | some t =>
        by_cases hlive : t.header.txnIdDeleted = 0
        · simp only [undoTuple, map_some, hlive, if_true]
          rw [if_pos (show (t.stamp c).header.txnIdDeleted = c from rfl), Tuple.stamp_stamp hlive]
        · simp [undoTuple, hlive, hstamp _ rfl x t hroot ht]
    · simp [(hs x hx).1]

/-- The changes of an operation: they are isolated, and what they have to undo is remembered. -/
theorem changes_spec {chs : List Change} (hs : Fresh s)
    (hi : Isolated (heapUndo rootOf) s.toInFlight s.heap) (hc : c ∈ s.active)
    (hfree : ∀ ch ∈ chs, ∀ x, ch.touches rootOf x →
      ∀ b ∈ s.active, b ≠ c → ¬s.Touched (heapUndo rootOf) b x)
    (hstamp : ∀ rootPageId, .truncate rootPageId ∈ chs → chs = [.truncate rootPageId] ∧
      ∀ x t, rootOf x.1 = rootPageId → s.heap x = some t → t.header.txnIdDeleted ≠ c)
    (h : s.changes rootOf c chs = some (s', ops)) :
    Fresh s' ∧ Isolated (heapUndo rootOf) s'.toInFlight s'.heap ∧ s'.log = s.log ∧
      s'.active = s.active ∧ s'.ops c = s.ops c ++ ops ∧ ∀ b, b ≠ c → s'.ops b = s.ops b := by
  induction chs generalizing s ops with
  | nil =>
    cases h
    exact ⟨hs, hi, rfl, rfl, (append_nil _).symm, fun _ _ => rfl⟩
  | cons ch chs ih =>
    rw [changes] at h
    obtain ⟨⟨s1, op⟩, hch, h⟩ := bind_eq_some_iff.mp h
    obtain ⟨⟨s2, ops'⟩, hchs, h⟩ := map_eq_some_iff.mp h
    cases h
    obtain ⟨htouch, heap, used, rfl, hu⟩ := change_undoes hs
      (fun r hr => (hstamp r (hr ▸ mem_cons_self)).2) hch
    have hs1 : Fresh (s.record c op heap used) := fun x hx => by
      obtain ⟨hx, heq⟩ := hu.unused x hx
      exact ⟨heq.trans (hs x hx).1, (hs x hx).2⟩
    have hi1 := hi.record hc (o := op) hu.frame hu.undo fun x hx =>
      hfree ch mem_cons_self x ((htouch x).symm.trans hx)
    obtain ⟨hs2, hi2, hlog, hact, hops, hother⟩ := ih hs1 hi1 hc (fun ch' hch' x hx b hb hbc => by
        have := hfree ch' (mem_cons_of_mem _ hch') x hx b hb hbc
        rwa [InFlight.Touched, Db.record, InFlight.record_ops hbc])
      (fun r hr => by
        -- a truncation is alone
        have := (hstamp r (mem_cons_of_mem _ hr)).1
        simp only [cons.injEq] at this
        simp [this.2] at hr) hchs
    refine ⟨hs2, hi2, hlog, hact, ?_, fun b hbc => (hother b hbc).trans (record_ops hbc)⟩
    rw [hops]
    simp [Db.record, InFlight.record]

theorem Dml.changes_truncate {d : Dml} {r : Nat} (h : .truncate r ∈ d.changes) :
    d.changes = [.truncate r] := by
  cases d <;> simp_all [Dml.changes]

/-! ## Steps -/

/-- What holds in every state reached. -/
structure Inv (rootOf : Chains) (s : Db) : Prop where
  fresh : Fresh s
  isolated : Isolated (heapUndo rootOf) s.toInFlight s.heap
  log : LogMatches id s.log.window s.toInFlight ∨ s.active = []

namespace Inv

theorem matches_of_noneLeft (hs : Inv rootOf s) (hleft : s.NoneLeft) :
    LogMatches id s.log.window s.toInFlight := by
  rcases hs.log with hl | hidle
  · exact hl
  · refine .of_idle (eq_nil_iff_forall_not_mem.mpr fun c hc => ?_) hidle
    simpa [hidle] using hleft c hc

theorem matches_of_mem (hs : Inv rootOf s) (hc : c ∈ s.active) :
    LogMatches id s.log.window s.toInFlight :=
  hs.log.resolve_right fun hidle => by simp [hidle] at hc

theorem create : Inv rootOf .create :=
  ⟨fun _ _ => ⟨rfl, rfl⟩, .of_idle rfl rfl, .inr rfl⟩

/-- With every transaction of the log active, what recovery undoes gives the committed slots. -/
theorem recover_eq (hs : Inv rootOf s) (hleft : s.NoneLeft) : recover rootOf s.log.window s.heap =
      some (s.committed, (scan id s.log.window).maxCommitted) := by
  have hundo : undoAll rootOf false (scan id s.log.window).inProgress s.heap = some s.committed :=
    undoAll_eq_some.mpr fun x =>
      hs.isolated.undo_inProgress (hs.matches_of_noneLeft hleft) false x
  rw [recover, hundo]
  rfl

theorem step {e : Event} (hs : Inv rootOf s) (hok : OneSession rootOf s e)
    (h : step rootOf s e = some s') : Inv rootOf s' := by
  cases e <;> rw [Sessions.step] at h
  case begin =>
    cases h
    obtain ⟨hleft, hnew⟩ := hok
    obtain ⟨hidle, hl⟩ := (hs.matches_of_noneLeft hleft).begin hnew
    exact ⟨hs.fresh, hs.isolated.begin hidle, .inl (by simpa using hl)⟩
  case dml c d =>
    split at h
    next hc =>
      obtain ⟨⟨s1, ops⟩, hch, rfl⟩ := map_eq_some_iff.mp h
      obtain ⟨hs1, hi1, hlog, hact, hops, hother⟩ := changes_spec hs.fresh hs.isolated hc hok.1
        (fun r hr => ⟨Dml.changes_truncate hr, hok.2 r hr⟩) hch
      refine ⟨hs1, hi1, .inl ?_⟩
      simpa [hlog] using (hs.matches_of_mem hc).op hc hact hops hother
    next => cases h
  case commit c =>
    split at h <;> cases h
    next hc =>
      refine ⟨fun x hx => ⟨(hs.fresh x hx).1, ?_⟩, hs.isolated.commit hc, .inl ?_⟩
      · by_cases ht : s.Touched (heapUndo rootOf) c x
        · exact (hs.isolated.writes c hc x ht).trans (hs.fresh x hx).1
        · simp [InFlight.commit, InFlight.drop, hs.isolated.unwritten c hc x ht, (hs.fresh x hx).2]
      · rw [Log.window_append]
        exact (hs.matches_of_mem hc).drop (.inl rfl) rfl rfl
  case rollback c =>
    split at h
    next hc =>
      obtain ⟨heap, hundo, rfl⟩ := map_eq_some_iff.mp h
      have hundo := undoAll_eq_some.mp hundo
      refine ⟨fun x hx => ⟨?_, (hs.fresh x hx).2⟩, hs.isolated.rollback hc hundo, .inl ?_⟩
      · obtain ⟨hheap, hcm⟩ := hs.fresh x hx
        by_cases ht : s.Touched (heapUndo rootOf) c x
        · exact some.inj ((hundo x).symm.trans
            ((hs.isolated.undone c hc x ht true).trans (congrArg some hcm)))
        · exact some.inj ((hundo x).symm.trans ((undoAt_untouched fun o ho =>
            Isolated.touches_eq_false ht ho).trans (congrArg some hheap)))
      · rw [Log.window_append]
        exact (hs.matches_of_mem hc).drop (.inr rfl) rfl rfl
    next => cases h
  case checkpoint =>
    split at h <;> cases h
    next hidle => exact ⟨hs.fresh, hs.isolated, .inr hidle⟩
  case reopen =>
    simp only [hs.recover_eq hok, map_some, Option.some.injEq] at h
    subst h
    exact ⟨fun x hx => ⟨(hs.fresh x hx).2, (hs.fresh x hx).2⟩, .of_idle rfl rfl, .inr rfl⟩

end Inv

/-! ## Recovery after any sessions -/

/-- After sessions that were each recovered from with no transaction of an earlier one in the
log, recovery leaves in every slot what the committed transactions left there. -/
theorem recovery_leaves_committed (h : Reached (step rootOf) (OneSession rootOf) .create s)
    (hleft : s.NoneLeft) : ∃ s', step rootOf s .reopen = some s' ∧ s'.heap = s.committed := by
  have hs := h.invariant Inv.create Inv.step
  exact ⟨_, by rw [step, hs.recover_eq hleft]; rfl, rfl⟩

/-- Steps of sessions that run one transaction at a time. -/
def alone (s : Db) : Event → Bool
  | .begin => (scan id s.log.window).activeTxns.all (s.active.contains ·) &&
      s.log.window.all (·.txnId != s.nextTxnId)
  | .dml c (.insert ..) | .dml c (.updateInPlace ..) => s.active == [c]
  | .dml .. => false
  | .reopen => (scan id s.log.window).activeTxns.all (s.active.contains ·)
  | .commit _ | .rollback _ | .checkpoint => true

theorem oneSession_of_alone {e : Event} (h : alone s e) : OneSession rootOf s e := by
  cases e with
  | begin => simpa [alone, OneSession, Db.NoneLeft] using h
  | reopen => simpa [alone, OneSession, Db.NoneLeft] using h
  | commit | rollback | checkpoint => trivial
  | dml c d =>
    cases d
    case insert | updateInPlace =>
      have hactive : s.active = [c] := by simpa [alone] using h
      refine ⟨fun _ _ _ _ b hb hne => ?_, fun _ hr => ?_⟩
      · rw [hactive, mem_singleton] at hb
        exact absurd hb hne
      · simp [Dml.changes] at hr
    all_goals cases h

/-- Transaction 2 is undone by the recovery of the second session, which makes a checkpoint; the
id begins again and commits, and transaction 3 has changed the row once more. -/
theorem recovery_leaves_committed_sessions :
    ∃ s s', Reached (step id) (OneSession id) .create s ∧ s.heap (2, 0) = some ⟨⟨3, 0, 2, 0⟩, [4]⟩ ∧
      step id s .reopen = some s' ∧ s'.heap = s.committed ∧
      s'.heap (2, 0) = some ⟨⟨2, 0, 1, 0⟩, [3]⟩ := by
  have hex : ∃ s, Reached (step id) (fun s e => alone s e = true) create s ∧
      (decide (s.heap (2, 0) = some ⟨⟨3, 0, 2, 0⟩, [4]⟩) &&
        decide (s.committed (2, 0) = some ⟨⟨2, 0, 1, 0⟩, [3]⟩) && alone s .reopen) = true :=
    Reached.exists_of_run (l := [.begin, .dml 1 (.insert (2, 0) [1]), .commit 1,
      .begin, .dml 2 (.updateInPlace (2, 0) [2]), .reopen, .checkpoint,
      .begin, .dml 2 (.updateInPlace (2, 0) [3]), .commit 2,
      .begin, .dml 3 (.updateInPlace (2, 0) [4])]) (by decide +kernel)
  obtain ⟨s, h, hp⟩ := hex
  simp only [Bool.and_eq_true, decide_eq_true_eq] at hp
  have hs : Reached (step id) (OneSession id) create s :=
    h.invariant .init fun hs hok hstep => hs.step (oneSession_of_alone hok) hstep
  have hleft : OneSession id s .reopen := oneSession_of_alone hp.2
  obtain ⟨s', hs', hheap⟩ := recovery_leaves_committed hs hleft
  exact ⟨s, s', hs, hp.1.1, hs', hheap, by rw [hheap, hp.1.2]⟩

/-- Transaction 2 updates a row and is undone when the next session opens, in which 2 begins
again. Transaction 3 updates the row and commits; the recovery after that undoes the update of 2
once more, over it. -/
theorem undone_over_committed : ∃ s, Reached (step id) free .create s ∧
      ((step id s .reopen).any fun s' => s'.heap (2, 0) = some ⟨⟨1, 0, 0, 0⟩, [1]⟩ ∧
          s'.committed (2, 0) = some ⟨⟨3, 0, 1, 0⟩, [3]⟩) = true :=
  Reached.exists_of_run (l := [.begin, .dml 1 (.insert (2, 0) [1]), .commit 1,
    .begin, .dml 2 (.updateInPlace (2, 0) [2]), .reopen,
    .begin, .begin, .dml 3 (.updateInPlace (2, 0) [3]), .commit 3]) (by decide +kernel)

end AxiomDb.Wal.Sessions
