import AxiomDb.Lock.Release

/-!
# Waiters that nothing blocks

Waiters are promoted when a granted entry is released, and only then. A waiter that leaves its
queue by a timeout, as a victim or because of `NOWAIT` does not let those behind it go on, and a
request is queued behind waiters of other slots of the page. Where neither happens, each waiter is
blocked by a granted entry or by a waiter before it, in every state, and a call whose waiter has
left its queue has been signalled (`none_stranded`).
-/

namespace AxiomDb.Lock

open Lib Heap List LockEntry LockWaiter

namespace LockWaiter

/-- One of the entries keeps the waiter from its lock. -/
def blockedBy (w : LockWaiter) (ahead : List LockEntry) : Bool :=
  ahead.any (LockEntry.blocks w.entry.txnId w.entry.mode w.slotId)

theorem blockedBy_append (w : LockWaiter) (as bs : List LockEntry) :
    w.blockedBy (as ++ bs) = (w.blockedBy as || w.blockedBy bs) := any_append

end LockWaiter

namespace LockQueue

/-- Each waiter is blocked by one of the entries ahead, or by a waiter before it. -/
def obstructed (ahead : List LockEntry) : List LockWaiter → Bool
  | [] => true
  | w :: ws => w.blockedBy ahead && obstructed (ahead ++ [w.entry]) ws

def noneStranded (q : LockQueue) : Bool := obstructed q.granted q.waiting

/-- The granted entries and the waiting requests. -/
def ahead (q : LockQueue) : List LockEntry := q.granted ++ q.waiting.map LockWaiter.entry

/-- A new request that is queued has a granted entry or a waiter that blocks it. -/
def blocksNew (q : LockQueue) (txnId : TxnId) (mode : LockMode) (slotId : Option Nat) : Bool :=
  q.waiting.isEmpty || q.holds txnId mode || q.ahead.any (LockEntry.blocks txnId mode slotId)

/-- Those that the transaction's waiter blocks are blocked by a granted entry as well. -/
def dispensable (granted : List LockEntry) (txnId : TxnId) : List LockWaiter → Bool
  | [] => true
  | w :: ws =>
    if w.entry.txnId == txnId then ws.all fun v => !v.blockedBy [w.entry] || v.blockedBy granted
    else dispensable granted txnId ws

variable {ahead ahead' : List LockEntry} {ws : List LockWaiter} {w : LockWaiter}
  {granted : List LockEntry}

/-- What is blocked by entries is blocked by those that cover at least as much. -/
theorem obstructed_mono (h : ∀ w ∈ ws, w.blockedBy ahead → w.blockedBy ahead')
    (hws : obstructed ahead ws) : obstructed ahead' ws := by
  induction ws generalizing ahead ahead' with
  | nil => rfl
  | cons w ws ih =>
    simp only [obstructed, Bool.and_eq_true] at hws ⊢
    refine ⟨h w mem_cons_self hws.1, ih (fun v hv hb => ?_) hws.2⟩
    rw [blockedBy_append, Bool.or_eq_true] at hb ⊢
    exact hb.imp_left (h v (mem_cons_of_mem _ hv))

theorem obstructed_of_granted (h : ∀ w ∈ ws, w.blockedBy ahead) : obstructed ahead ws := by
  induction ws generalizing ahead with
  | nil => rfl
  | cons w ws ih =>
    simp only [obstructed, Bool.and_eq_true]
    refine ⟨h w mem_cons_self, ih fun v hv => ?_⟩
    rw [blockedBy_append, h v (mem_cons_of_mem _ hv), Bool.true_or]

theorem obstructed_concat (hws : obstructed ahead ws) (hw : w.blockedBy (ahead ++ ws.map entry)) :
    obstructed ahead (ws ++ [w]) := by
  induction ws generalizing ahead with
  | nil => simpa [obstructed] using hw
  | cons v ws ih =>
    simp only [cons_append, obstructed, Bool.and_eq_true] at hws ⊢
    exact ⟨hws.1, ih hws.2 (by simpa using hw)⟩

/-- The waiter leaves, and nobody behind it is blocked by it alone. -/
theorem obstructed_eraseP {t : TxnId}
    (hg : ∀ w : LockWaiter, w.blockedBy granted → w.blockedBy ahead)
    (hd : dispensable granted t ws) (hws : obstructed ahead ws) :
    obstructed ahead (ws.eraseP (·.entry.txnId == t)) := by
  induction ws generalizing ahead with
  | nil => rfl
  | cons w ws ih =>
    simp only [obstructed, Bool.and_eq_true] at hws
    rw [dispensable] at hd
    split at hd
    next ht =>
      simp only [eraseP_cons, ht, cond_true]
      refine obstructed_mono (fun v hv hb => ?_) hws.2
      rw [blockedBy_append, Bool.or_eq_true] at hb
      rcases hb with hb | hb
      · exact hb
      · have := all_eq_true.mp hd v hv
        exact hg v (by simpa [hb] using this)
    next ht =>
      simp only [eraseP_cons, Bool.eq_false_of_not_eq_true ht, cond_false, obstructed,
        Bool.and_eq_true]
      refine ⟨hws.1, ih (fun v hv => ?_) hd hws.2⟩
      rw [blockedBy_append, hg v hv, Bool.true_or]

/-- An abort changes no request. -/
theorem obstructed_abort (p : LockWaiter → Bool) :
    obstructed ahead (updateFirst p (fun w => { w with aborted := true }) ws) =
      obstructed ahead ws := by
  induction ws generalizing ahead with
  | nil => rfl
  | cons w ws ih =>
    rw [updateFirst]
    split
    · rfl
    · rw [obstructed, obstructed, ih]

/-- The loop leaves only waiters that a granted entry blocks. -/
theorem blockedBy_grantFrom :
    (∀ v : LockWaiter, v.blockedBy granted → v.blockedBy (grantFrom granted ws).1) ∧
      ∀ v ∈ (grantFrom granted ws).2.1, v.blockedBy (grantFrom granted ws).1 := by
  induction ws generalizing granted with
  | nil => exact ⟨fun v hv => hv, fun v hv => absurd hv not_mem_nil⟩
  | cons w ws ih =>
    rw [grantFrom]
    split
    next hc =>
      obtain ⟨hkeep, hleft⟩ := @ih granted
      refine ⟨hkeep, fun v hv => ?_⟩
      rcases mem_cons.mp hv with rfl | hv
      · refine hkeep v ?_
        simpa [blockedBy, findConflict] using hc
      · exact hleft v hv
    next =>
      obtain ⟨hkeep, hleft⟩ := @ih (granted ++ [w.entry])
      refine ⟨fun v hv => hkeep v ?_, hleft⟩
      rw [blockedBy_append, hv, Bool.true_or]

/-- Granted entries that change block no less than before. -/
theorem blockedBy_updateFirst {p : LockEntry → Bool} {f : LockEntry → LockEntry}
    (hf : ∀ e t mode slotId, p e → e.blocks t mode slotId →
      (f e).blocks t mode slotId) (hw : w.blockedBy ahead) :
    w.blockedBy (updateFirst p f ahead) := by
  induction ahead with
  | nil => exact hw
  | cons e es ih =>
    simp only [blockedBy, any_cons, Bool.or_eq_true] at hw ih
    rw [updateFirst]
    split
    next hp =>
      simp only [blockedBy, any_cons, Bool.or_eq_true]
      exact hw.imp_left (hf e _ _ _ hp)
    next =>
      simp only [blockedBy, any_cons, Bool.or_eq_true]
      exact hw.imp_right ih

end LockQueue

theorem LockEntry.covers_set_of_covers {e : LockEntry} {slotId : Nat} {x : Option Nat}
    (h : e.covers x) : (e.set slotId).covers x := by
  cases x with
  | none => rfl
  | some x =>
    cases hb : e.bitmap with
    | none => simp [covers, set, hb]
    | some bm => simp_all [covers, set]

namespace LockQueue

variable {q : LockQueue} {t : TxnId} {mode : LockMode} {slotId : Option Nat}

section

variable (h : q.noneStranded = true)
include h

theorem noneStranded_extend (slot : Nat) : (q.extend t mode slot).noneStranded := by
  refine obstructed_mono (fun w _ => blockedBy_updateFirst fun e u m x _ hb => ?_) h
  simp only [blocks, Bool.and_eq_true] at hb ⊢
  exact ⟨hb.1, covers_set_of_covers hb.2⟩

theorem noneStranded_upgrade (slot : Nat) : (q.upgrade t slot).noneStranded := by
  refine obstructed_mono (fun w _ => blockedBy_updateFirst fun e u m x _ hb => ?_) h
  simp only [blocks, Bool.and_eq_true] at hb ⊢
  exact ⟨⟨hb.1.1, rfl⟩, covers_set_of_covers hb.2⟩

theorem noneStranded_grant (e : LockEntry) : (q.grant e).noneStranded := by
  refine obstructed_mono (fun w _ hb => ?_) h
  rw [grant, blockedBy_append, hb, Bool.true_or]

theorem noneStranded_enqueue (hb : q.blocksNew t mode slotId)
    (hh : ¬q.holds t mode) (hf : ¬q.free t mode slotId) :
    (q.enqueue ⟨t, mode, slotId.map ([·])⟩).noneStranded := by
  refine obstructed_concat h ?_
  have hslot : LockWaiter.slotId ⟨⟨t, mode, slotId.map ([·])⟩, false⟩ = slotId := by
    cases slotId <;> rfl
  simp only [blockedBy, hslot]
  simp only [blocksNew, Bool.or_eq_true, hh, Bool.false_eq_true, or_false] at hb
  rcases hb with hb | hb
  · -- nobody waits, so that the request is not free because of a granted entry
    simp only [free, hb, Bool.and_true, Option.isNone_iff_eq_none] at hf
    rw [any_append, Bool.or_eq_true]
    refine .inl ?_
    simpa [findConflict, enqueue] using hf
  · exact hb

end

theorem noneStranded_releaseRef (t : TxnId) : (q.releaseRef t).1.noneStranded :=
  obstructed_of_granted blockedBy_grantFrom.2

end LockQueue

/-- A request that is queued is blocked, and a waiter that leaves blocks nobody alone. -/
def strandsNone (s : State) : Event → Bool
  | .acquireRecord t pageId slotId mode _ =>
    (s.queues (.page pageId)).blocksNew t mode (some slotId)
  | .acquireTable t tableId mode => (s.queues (.table tableId)).blocksNew t mode none
  | .giveUp t | .remove t | .timeout t =>
    (s.phase t).object.all fun o =>
      LockQueue.dispensable (s.queues o).granted t (s.queues o).waiting
  | _ => true

open LockQueue in
theorem noneStranded_step {s s' : State} {e : Event} (hs : ∀ o, (s.queues o).noneStranded = true)
    (hok : strandsNone s e = true) (h : step s e = some s') (o : LockObject) :
    (s'.queues o).noneStranded = true := by
  have hq := queueChange_of_step h o
  generalize s'.queues o = q at hq
  cases hq with
  | same => exact hs o
  | acquireRecord ho =>
    subst ho
    rw [acquireRecord]
    split
    next => exact noneStranded_extend (hs _) _
    next hh =>
      split
      next => exact noneStranded_upgrade (hs _) _
      next =>
        split
        next => exact noneStranded_grant (hs _) _
        next hf => exact noneStranded_enqueue (hs _) hok hh hf
  | tryAcquireRecord ho =>
    subst ho
    rw [tryAcquireRecord]
    split
    · dsimp only
      split
      · exact noneStranded_extend (hs _) _
      · exact noneStranded_grant (hs _) _
    · exact hs _
  | acquireTable ho =>
    subst ho
    rw [acquireTable]
    split
    next => exact hs _
    next hh =>
      split
      next => exact noneStranded_grant (hs _) _
      next hf => exact noneStranded_enqueue (hs _) hok hh hf
  | removeWaiter _ t hd =>
    obtain ⟨he, ho⟩ := hd
    have hdisp : dispensable (s.queues o).granted t (s.queues o).waiting = true := by
      rcases he with rfl | rfl | rfl <;> simpa [strandsNone, ho] using hok
    exact obstructed_eraseP (fun w hw => hw) hdisp (hs o)
  | abortWaiter => exact (obstructed_abort _).trans (hs o)
  | release => exact noneStranded_releaseRef _

/-! ## Signals -/

namespace LockQueue

variable {q : LockQueue} {t u : TxnId}

/-- Who does not wait any more after the loop is among those that are signalled. -/
theorem mem_grantFrom_signals {granted : List LockEntry} {ws : List LockWaiter}
    (h : u ∈ ws.map (·.entry.txnId)) :
    u ∈ (grantFrom granted ws).2.1.map (·.entry.txnId) ∨ u ∈ (grantFrom granted ws).2.2 := by
  induction ws generalizing granted with
  | nil => cases h
  | cons w ws ih =>
    rw [grantFrom]
    split
    · rcases mem_cons.mp h with rfl | h
      · exact .inl mem_cons_self
      · exact (ih h).imp_left (mem_cons_of_mem _)
    · rcases mem_cons.mp h with rfl | h
      · exact .inr mem_cons_self
      · exact (ih h).imp_right (mem_cons_of_mem _)

theorem waiters_releaseRef_signals (h : u ∈ q.waiters) :
    u ∈ (q.releaseRef t).1.waiters ∨ u ∈ (q.releaseRef t).2 := mem_grantFrom_signals h

theorem waiters_releaseTxn_signals (h : u ∈ q.waiters) :
    u ∈ (q.releaseTxn t).1.waiters ∨ u ∈ (q.releaseTxn t).2 := by
  rw [releaseTxn]
  split
  · exact waiters_releaseRef_signals h
  · exact .inl h

theorem Joins.mem {granted : Bool} {q' : LockQueue} (h : Joins q t granted q') (hu : u ∈ q.waiters) :
    u ∈ q'.waiters := by
  rw [h.waiters]
  split
  · exact hu
  · exact mem_append_left _ hu

end LockQueue

/-- A call that waits is in its queue, or has been signalled. -/
def Heard (s : State) : Prop :=
  ∀ u o, (s.phase u).object = some o → u ∈ (s.queues o).waiters ∨ s.signalled u = true

namespace Heard

variable {s s' : State} {t : TxnId}

/-- A section of the call of `t`, which leaves the other waiters where they are. -/
theorem of_actor (hs : Heard s) (hphase : ∀ u, u ≠ t → s'.phase u = s.phase u)
    (hsignal : ∀ u, u ≠ t → s.signalled u = true → s'.signalled u = true)
    (hqueue : ∀ o, ∀ u ≠ t, u ∈ (s.queues o).waiters → u ∈ (s'.queues o).waiters)
    (hself : ∀ o, (s'.phase t).object = some o →
      t ∈ (s'.queues o).waiters ∨ s'.signalled t = true) : Heard s' := by
  intro u o hu
  by_cases ht : u = t
  · subst ht
    exact hself o hu
  · rw [hphase u ht] at hu
    exact (hs u o hu).imp (hqueue o u ht) (hsignal u ht)

theorem mem_setQueue {o0 : LockObject} {q : LockQueue} {u : TxnId}
    (h : u ∈ (s.queues o0).waiters → u ∈ q.waiters) (o : LockObject)
    (hu : u ∈ (s.queues o).waiters) : u ∈ ((s.setQueue o0 q).queues o).waiters := by
  by_cases ho : o = o0
  · subst ho
    simpa [State.setQueue] using h hu
  · simpa [State.setQueue, ho] using hu

theorem mem_dropWaiter {o0 : LockObject} (o : LockObject) (u : TxnId) (hu : u ≠ t)
    (h : u ∈ (s.queues o).waiters) : u ∈ ((s.dropWaiter t o0).queues o).waiters := by
  refine mem_setQueue (fun h => ?_) o h
  rw [LockQueue.waiters_removeWaiterByTxn]
  exact (mem_erase_of_ne hu).mpr h

theorem release (hs : Heard s) (p : LockObject → Bool) (f : LockQueue → LockQueue × List TxnId)
    (hf : ∀ q u, u ∈ q.waiters → u ∈ (f q).1.waiters ∨ u ∈ (f q).2) : Heard (s.release p f) := by
  intro u o hu
  have hu : (s.phase u).object = some o := hu
  simp only [State.release, hu]
  rcases hs u o hu with h | h
  · cases hp : p o with
    | false => simp [h]
    | true =>
      rcases hf _ u h with h | h
      · exact .inl (by simpa using h)
      · exact .inr (by simp [hp, h])
  · exact .inr (by simp [h])

theorem abortWaiterAt (hs : Heard s) (o0 : LockObject) : Heard (s.abortWaiterAt t o0) := by
  intro u o hu
  refine (hs u o hu).imp (fun h => ?_) fun h => ?_
  · refine mem_setQueue (fun h => ?_) o h
    rwa [LockQueue.waiters_abortWaiter]
  · by_cases ht : u = t
    · subst ht
      simp [State.abortWaiterAt, h]
    · simp [State.abortWaiterAt, ht, h]

/-- The call goes on waiting, or does not wait any more. -/
theorem setPhase (hs : Heard s) {p : Phase} (hp : p.object = none ∨ p.object = (s.phase t).object) :
    Heard (s.setPhase t p) := by
  refine of_actor hs (fun u hu => Function.update_of_ne hu _ _) (fun u _ h => h) (fun o u _ h => h)
    fun o ho => ?_
  simp only [State.setPhase, Function.update_self] at ho
  rcases hp with hp | hp <;> rw [hp] at ho
  · cases ho
  · exact hs t o ho

theorem step {e : Event} (hs : Heard s) (h : Lock.step s e = some s') : Heard s' := by
  cases e <;> simp only [Lock.step] at h
  case acquireRecord t pageId slotId mode nowait =>
    have hj := (s.queues (.page pageId)).acquireRecord_joins t slotId mode
    split at h
    next =>
      split at h <;> cases h
      · refine of_actor (t := t) hs (fun u hu => by simp [State.returns, State.begins, State.setQueue, hu])
          (fun u _ h => h) (fun o u _ hu => mem_setQueue hj.mem o hu) fun o ho => ?_
        simp [State.returns, Phase.object] at ho
      next blocker hr =>
        refine of_actor (t := t) hs
          (fun u hu => by simp [State.wait, State.setPhase, State.begins, State.setQueue, hu])
          (fun u hu h => by simpa [State.wait, State.setPhase, State.begins, State.setQueue, hu] using h)
          (fun o u _ hu => mem_setQueue hj.mem o hu) fun o ho => ?_
        simp only [State.wait, State.setPhase, Function.update_self, Phase.object, LockRef.object,
          Option.some.injEq] at ho
        subst ho
        rw [hr] at hj
        refine .inl ?_
        simp [State.wait, State.setPhase, State.begins, State.setQueue, hj.waiters]
    next => cases h
  case tryAcquireRecord t pageId slotId mode =>
    have hj := (s.queues (.page pageId)).tryAcquireRecord_joins t slotId mode
    split at h
    next =>
      split at h <;> cases h
      · refine of_actor (t := t) hs (fun u hu => by simp [State.returns, State.setQueue, hu])
          (fun u _ h => h) (fun o u _ hu => mem_setQueue hj.mem o hu) fun o ho => ?_
        simp [State.returns, Phase.object] at ho
      · exact hs
    next => cases h
  case acquireTable t tableId mode =>
    have hj := (s.queues (.table tableId)).acquireTable_joins t mode
    split at h
    next =>
      split at h <;> cases h
      · refine of_actor (t := t) hs (fun u hu => by simp [State.returns, State.setQueue, hu])
          (fun u _ h => h) (fun o u _ hu => mem_setQueue hj.mem o hu) fun o ho => ?_
        simp [State.returns, Phase.object] at ho
      next hr =>
        refine of_actor (t := t) hs
          (fun u hu => by simp [State.wait, State.setPhase, State.setQueue, hu])
          (fun u hu h => by simpa [State.wait, State.setPhase, State.setQueue, hu] using h)
          (fun o u _ hu => mem_setQueue hj.mem o hu) fun o ho => ?_
        simp only [State.wait, State.setPhase, Function.update_self, Phase.object, LockRef.object,
          Option.some.injEq] at ho
        subst ho
        rw [Bool.eq_false_of_not_eq_true hr] at hj
        refine .inl ?_
        simp [State.wait, State.setPhase, State.setQueue, hj.waiters]
    next => cases h
  case giveUp t | remove t | timeout t =>
    -- the call leaves its queue, and its phase has no queue any more
    repeat' split at h
    all_goals cases h
    all_goals
      refine of_actor (t := t) hs (fun u hu => by
          simp [State.returns, State.setPhase, State.dropWaiter, State.setQueue, hu])
        (fun u _ h => h) mem_dropWaiter fun o ho => ?_
      simp [State.returns, State.setPhase, Phase.object] at ho
  case detect t waitMs =>
    split at h
    next hp =>
      split at h <;> cases h <;> exact hs.setPhase (.inr (by rw [hp]; rfl))
    next => cases h
  case abort t =>
    split at h <;> cases h
    next ref mode victim victimRef hp =>
      have hobject (s1 : State) (h1 : s1.phase t = s.phase t) :
          (if victim = t then Phase.removing ref else .waiting ref mode).object =
            (s1.phase t).object := by
        rw [h1, hp]
        split <;> rfl
      split
      · exact (hs.abortWaiterAt _).setPhase (.inr (hobject _ rfl))
      · exact hs.setPhase (.inr (hobject _ rfl))
  case wake t =>
    split at h
    · split at h
      · split at h <;> cases h
        · exact hs.setPhase (.inl rfl)
        · exact hs.setPhase (.inl rfl)
      · cases h
    · cases h
  case cleanUp t | releaseAll t =>
    split at h <;> cases h
    exact hs.setPhase (.inl rfl)
  case releaseLock t ref =>
    split at h <;> cases h
    exact hs.release _ _ fun q u => LockQueue.waiters_releaseRef_signals
  case releaseShard t =>
    split at h
    · split at h <;> cases h
      · exact (hs.release _ _ fun q u => LockQueue.waiters_releaseTxn_signals).setPhase (.inl rfl)
      · exact hs.setPhase (.inl rfl)
    · cases h
  case abortWaiter t ref =>
    cases h
    exact hs.abortWaiterAt _

end Heard

/-- The states of the runs in which every step meets the condition. -/
abbrev Attended : State → Prop := Reached step (fun s e => strandsNone s e = true) State.init

/-- **No waiter is stranded.** In every run whose steps meet the condition, each waiter of a queue is
blocked by a granted entry or by a waiter before it, and a call that still waits but has left its
queue has been signalled. -/
theorem none_stranded {s : State} (h : Attended s) (o : LockObject) :
    (s.queues o).noneStranded = true ∧ ∀ t, (s.phase t).object = some o →
      t ∉ (s.queues o).waiters → s.signalled t = true := by
  refine ⟨h.invariant (I := fun s => ∀ o, (s.queues o).noneStranded = true) (fun _ => rfl)
    (fun hs hok hstep => noneStranded_step hs hok hstep) o, fun t ht hleft => ?_⟩
  have hheard : Heard s := h.invariant (fun u o hu => by cases hu) fun hs _ hstep => hs.step hstep
  exact (hheard t o ht).resolve_left hleft

/-- Transaction 1 holds a slot, 2 and then 3 wait for it, and the wait of 2 times out. -/
def timedOut (held asked : LockMode) : List Event :=
  [.acquireRecord 1 1 0 held false, .acquireRecord 2 1 0 asked false, .detect 2 fun _ => 0,
    .acquireRecord 3 1 0 .shared false, .detect 3 fun _ => 0, .timeout 2, .cleanUp 2]

/-- Transaction 3 waits and is not signalled, and transaction 2 has left. -/
def State.waitsAlone (s : State) : Bool :=
  s.phase 2 == .idle && s.phase 3 == .waiting (.record 1 0) .shared && !s.signalled 3

/-- Transaction 1 holds the slot exclusively, and still blocks transaction 3. Once it has released
the slot, 3 has been granted it and is signalled. -/
theorem none_stranded_timeout :
    (∃ s, Attended s ∧ s.waitsAlone = true ∧ (s.queues (.page 1)).noneStranded = true) ∧
      ∃ s, Attended s ∧ (s.phase 3).object = some (.page 1) ∧ 3 ∉ (s.queues (.page 1)).waiters ∧
        s.signalled 3 = true := by
  have ⟨s, hs, hp⟩ : ∃ s, Attended s ∧ s.waitsAlone = true :=
    Reached.exists_of_run (l := timedOut .exclusive .shared) (by decide +kernel)
  have ⟨s', hs', hp'⟩ : ∃ s, Attended s ∧ decide ((s.phase 3).object = some (.page 1) ∧
      3 ∉ (s.queues (.page 1)).waiters) = true :=
    Reached.exists_of_run (l := timedOut .exclusive .shared ++ [.releaseLock 1 (.record 1 0)])
      (by decide +kernel)
  obtain ⟨hphase, hleft⟩ := of_decide_eq_true hp'
  exact ⟨⟨s, hs, hp, (none_stranded hs _).1⟩, s', hs', hphase, hleft, (none_stranded hs' _).2 3 hphase hleft⟩

/-- Transaction 1 holds the slot shared: nothing blocks transaction 3, which waits on. -/
theorem waiter_stranded : ∃ s, Reached step free State.init s ∧
    (s.waitsAlone && !(s.queues (.page 1)).noneStranded) = true :=
  Reached.exists_of_run (l := timedOut .shared .exclusive) (by decide +kernel)

end AxiomDb.Lock
