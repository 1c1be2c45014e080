import AxiomDb.Lock.Exclusion

/-!
# Nothing is left of a finished transaction

`release_all_for_txn` removes granted entries only. After it, a transaction is in
no queue if its last call has left the waiting list before it returned. A call
that is woken because it was granted has; one that another call has aborted as
the victim of a deadlock has not, and is still in the list when it returns.
-/

namespace AxiomDb.Lock

open Lib Heap List Function State Phase LockQueue Event

/-! ## Who is in a queue -/

namespace LockQueue

def holders (q : LockQueue) : List TxnId := q.granted.map LockEntry.txnId

def waiters (q : LockQueue) : List TxnId := q.waiting.map (·.entry.txnId)

variable {q : LockQueue} {t u : TxnId} {mode : LockMode}

theorem map_updateFirst {α β : Type} {p : α → Bool} {f : α → α} {g : α → β}
    (h : ∀ a, g (f a) = g a) (l : List α) : (updateFirst p f l).map g = l.map g := by
  induction l with
  | nil => rfl
  | cons a as ih =>
    rw [updateFirst]
    split
    · rw [map_cons, map_cons, h]
    · rw [map_cons, map_cons, ih]

theorem holders_extend (slotId : Nat) : (q.extend t mode slotId).holders = q.holders := by
  rw [holders, extend]
  refine map_updateFirst (fun e => ?_) _
  rfl

theorem holders_upgrade (slotId : Nat) : (q.upgrade t slotId).holders = q.holders := by
  rw [holders, upgrade]
  refine map_updateFirst (fun e => ?_) _
  rfl

theorem holders_grant (e : LockEntry) : (q.grant e).holders = q.holders ++ [e.txnId] := by
  simp [grant, holders]

theorem waiters_enqueue (e : LockEntry) : (q.enqueue e).waiters = q.waiters ++ [e.txnId] := by
  simp [enqueue, waiters]

theorem waiters_abortWaiter : (q.abortWaiter t).1.waiters = q.waiters := by
  rw [waiters, abortWaiter]
  refine map_updateFirst (fun e => ?_) _
  rfl

theorem waiters_removeWaiterByTxn : (q.removeWaiterByTxn t).waiters = q.waiters.erase t := by
  rw [erase_eq_eraseP', waiters, waiters, eraseP_map]
  rfl

/-- What a call does to the two lists: nobody, or the transaction alone, is added to one of them. -/
structure Joins (q : LockQueue) (t : TxnId) (granted : Bool) (q' : LockQueue) : Prop where
  holders : ∀ u ∈ q'.holders, u ∈ q.holders ∨ u = t
  waiters : q'.waiters = if granted then q.waiters else q.waiters ++ [t]

theorem acquireRecord_joins (q : LockQueue) (t : TxnId) (slotId : Nat) (mode : LockMode) :
    Joins q t (q.acquireRecord t slotId mode).2.isNone (q.acquireRecord t slotId mode).1 := by
  rw [acquireRecord]
  split
  · exact ⟨fun u hu => .inl (holders_extend slotId ▸ hu), rfl⟩
  split
  · exact ⟨fun u hu => .inl (holders_upgrade slotId ▸ hu), rfl⟩
  dsimp only
  split
  · exact ⟨fun u hu => by simpa [holders_grant] using hu, rfl⟩
  · exact ⟨fun u hu => .inl hu, waiters_enqueue _⟩

theorem tryAcquireRecord_joins (q : LockQueue) (t : TxnId) (slotId : Nat) (mode : LockMode) :
    Joins q t true (q.tryAcquireRecord t slotId mode).1 := by
  rw [tryAcquireRecord]
  split
  · dsimp only
    split
    · exact ⟨fun u hu => .inl (holders_extend slotId ▸ hu), rfl⟩
    · exact ⟨fun u hu => by simpa [holders_grant] using hu, rfl⟩
  · exact ⟨fun u hu => .inl hu, rfl⟩

theorem acquireTable_joins (q : LockQueue) (t : TxnId) (mode : LockMode) :
    Joins q t (q.acquireTable t mode).2 (q.acquireTable t mode).1 := by
  rw [acquireTable]
  split
  · exact ⟨fun u hu => .inl hu, rfl⟩
  · split
    · exact ⟨fun u hu => by simpa [holders_grant] using hu, rfl⟩
    · exact ⟨fun u hu => .inl hu, waiters_enqueue _⟩

/-- Whoever holds a lock after a release held one and is not the one that releases, or waited. -/
theorem holders_releaseRef (h : u ∈ (q.releaseRef t).1.holders) :
    u ∈ q.holders ∧ u ≠ t ∨ u ∈ q.waiters := by
  obtain ⟨e, he, rfl⟩ := mem_map.mp h
  rcases mem_grantFrom.1 e he with he | ⟨w, hw, rfl⟩
  · have := mem_filter.mp he
    exact .inl ⟨mem_map_of_mem this.1, by simpa using this.2⟩
  · exact .inr (mem_map.mpr ⟨w, hw, rfl⟩)

theorem waiters_releaseRef : (q.releaseRef t).1.waiters.Sublist q.waiters :=
  mem_grantFrom.2.map _

theorem waiters_releaseTxn : (q.releaseTxn t).1.waiters.Sublist q.waiters := by
  rw [releaseTxn]
  split
  · exact waiters_releaseRef
  · exact .refl _

theorem holders_releaseTxn (h : u ∈ (q.releaseTxn t).1.holders) :
    u ∈ q.holders ∧ u ≠ t ∨ u ∈ q.waiters := by
  rw [releaseTxn] at h
  split at h
  next => exact holders_releaseRef h
  next hany =>
    refine .inl ⟨h, ?_⟩
    rintro rfl
    obtain ⟨e, he, rfl⟩ := mem_map.mp h
    exact hany (any_eq_true.mpr ⟨e, he, by simp⟩)

end LockQueue

/-! ## The invariant -/

/-- Whose call a section is of. -/
def Event.actor : Event → TxnId
  | .acquireRecord t _ _ _ _ | .tryAcquireRecord t _ _ _ | .acquireTable t _ _ | .giveUp t
  | .detect t _ | .abort t | .remove t | .wake t | .timeout t | .cleanUp t | .releaseLock t _
  | .releaseAll t | .releaseShard t | .abortWaiter t _ => t

/-- `release_all_for_txn` has gone through the queue. -/
def Phase.passed : Phase → LockObject → Prop
  | .releasing shards, o => o.shard < shards
  | .released, _ => True
  | _, _ => False

theorem Phase.passed_object {p : Phase} {o : LockObject} (h : p.passed o) : p.object = none := by
  cases p <;> first | rfl | exact h.elim

theorem Phase.atRest_object {p : Phase} (h : p.atRest) : p.object = none := by
  cases p <;> first | rfl | cases h

/-- A transaction waits at most once, where its call says, and it has no lock left in the queues
that its release has gone through. -/
structure Accounted (s : State) : Prop where
  object : ∀ o, ∀ t ∈ (s.queues o).waiters, (s.phase t).object = some o
  nodup : ∀ o, (s.queues o).waiters.Nodup
  passed : ∀ t o, (s.phase t).passed o → t ∉ (s.queues o).holders
  waitFor : ∀ t, s.phase t = .released → s.waitFor t = none

namespace QueueChange

variable {s : State} {o : LockObject} {e : Event} {q : LockQueue} {u : TxnId}

theorem holders (h : QueueChange s o e q) (hu : u ∈ q.holders) :
    u ∈ (s.queues o).holders ∨ u ∈ (s.queues o).waiters ∨ u = e.actor := by
  have of_joins : ∀ {granted t}, (s.queues o).Joins t granted q → t = e.actor →
      u ∈ (s.queues o).holders ∨ u ∈ (s.queues o).waiters ∨ u = e.actor := by
    rintro granted t hj rfl
    rcases hj.holders u hu with h | h
    · exact .inl h
    · exact .inr (.inr h)
  cases h with
  | same | removeWaiter | abortWaiter => exact .inl hu
  | acquireRecord => exact of_joins (acquireRecord_joins _ _ _ _) rfl
  | tryAcquireRecord => exact of_joins (tryAcquireRecord_joins _ _ _ _) rfl
  | acquireTable => exact of_joins (acquireTable_joins _ _ _) rfl
  | release =>
    rcases holders_releaseRef hu with h | h
    · exact .inl h.1
    · exact .inr (.inl h)

/-- The waiters are some of those before, or all of them and the transaction whose call begins. -/
theorem waiters (h : QueueChange s o e q) : q.waiters.Sublist (s.queues o).waiters ∨
    (s.phase e.actor).atRest ∧ q.waiters = (s.queues o).waiters ++ [e.actor] := by
  have of_joins : ∀ {granted t}, (s.queues o).Joins t granted q → t = e.actor →
      (s.phase e.actor).atRest → q.waiters.Sublist (s.queues o).waiters ∨
        (s.phase e.actor).atRest ∧ q.waiters = (s.queues o).waiters ++ [e.actor] := by
    rintro granted t hj rfl hrest
    cases granted with
    | true => exact .inl (hj.waiters ▸ .refl _)
    | false => exact .inr ⟨hrest, hj.waiters⟩
  cases h with
  | same => exact .inl (.refl _)
  | acquireRecord _ ht => exact of_joins (acquireRecord_joins _ _ _ _) rfl ht
  | tryAcquireRecord _ ht => exact of_joins (tryAcquireRecord_joins _ _ _ _) rfl ht
  | acquireTable _ ht => exact of_joins (acquireTable_joins _ _ _) rfl ht
  | removeWaiter _ t => exact .inl (waiters_removeWaiterByTxn ▸ erase_sublist)
  | abortWaiter => exact .inl (by rw [waiters_abortWaiter])
  | release => exact .inl waiters_releaseRef

end QueueChange

theorem others_of_step {s s' : State} {e : Event} (h : step s e = some s') {u : TxnId}
    (hu : u ≠ e.actor) : s'.phase u = s.phase u ∧ s'.outcome u = s.outcome u ∧
      (s.waitFor u = none → s'.waitFor u = none) := by
  cases e with
  | detect t waitMs =>
    have hu : u ≠ t := hu
    simp only [step] at h
    split at h
    · split at h <;> cases h
      · simp [setPhase, hu]
      next cycle _ =>
        simp only [setPhase, update_of_ne hu, true_and]
        intro hnone
        by_cases hv : u = selectVictim cycle waitMs
        · rw [hv, update_self]
        · rw [update_of_ne hv, update_of_ne hu, hnone]
    · cases h
  | abort t =>
    have hu : u ≠ t := hu
    simp only [step] at h
    split at h <;> cases h
    split <;> simp [setPhase, abortWaiterAt, setQueue, hu]
  | acquireRecord t | tryAcquireRecord t | acquireTable t | giveUp t | remove t | wake t | timeout t
  | cleanUp t | releaseLock t | releaseAll t | releaseShard t | abortWaiter t =>
    have hu : u ≠ t := hu
    simp only [step] at h
    repeat' split at h
    all_goals cases h
    all_goals simp [setPhase, returns, begins, wait, setQueue, dropWaiter,
      release, abortWaiterAt, hu]

/-- The call that is woken is not in the queue any more. -/
def wokenByGrant (s : State) : Event → Prop
  | .wake t => ∀ ref mode, s.phase t = .waiting ref mode → t ∉ (s.queues ref.object).waiters
  | _ => True

namespace Accounted

variable {s : State} {t : TxnId} {o o0 : LockObject} {q : LockQueue}

theorem not_waiting (hs : Accounted s) (h : (s.phase t).object = none) (o : LockObject) :
    t ∉ (s.queues o).waiters := fun ht => by
  simpa [h] using hs.object o t ht

/-- A transaction outside of a call can wait only in a queue that is changed. -/
theorem waiting_setQueue (hs : Accounted s) (h : (s.phase t).object = none)
    (ht : t ∈ ((s.setQueue o0 q).queues o).waiters) : o0 = o ∧ t ∈ q.waiters := by
  by_cases ho : o = o0
  · subst ho
    exact ⟨rfl, by simpa [setQueue] using ht⟩
  · exact (hs.not_waiting h o (by simpa [setQueue, ho] using ht)).elim

theorem not_waiting_granted (hs : Accounted s) (h : (s.phase t).atRest)
    (hj : (s.queues o0).Joins t true q) : t ∉ ((s.setQueue o0 q).queues o).waiters := by
  intro ht
  have := (hs.waiting_setQueue (atRest_object h) ht).2
  rw [hj.waiters] at this
  exact hs.not_waiting (atRest_object h) _ this

theorem not_waiting_dropWaiter (hs : Accounted s)
    (h : (s.phase t).object = some o0) (o : LockObject) :
    t ∉ ((s.dropWaiter t o0).queues o).waiters := by
  intro ht
  by_cases ho : o = o0
  · subst ho
    have : t ∈ (s.queues o).waiters.erase t := by
      simpa [dropWaiter, setQueue, waiters_removeWaiterByTxn] using ht
    exact ((hs.nodup o).mem_erase_iff.mp this).1 rfl
  · have ht : t ∈ (s.queues o).waiters := by simpa [dropWaiter, setQueue, ho] using ht
    have := hs.object o t ht
    rw [h] at this
    exact ho (Option.some.inj this).symm

theorem waiters_abortWaiterAt (v : TxnId) (o0 : LockObject) :
    ((s.abortWaiterAt v o0).queues o).waiters = (s.queues o).waiters := by
  by_cases ho : o = o0
  · subst ho
    simp [abortWaiterAt, setQueue, waiters_abortWaiter]
  · simp [abortWaiterAt, setQueue, ho]

theorem holders_abortWaiterAt (v : TxnId) (o0 : LockObject) :
    ((s.abortWaiterAt v o0).queues o).holders = (s.queues o).holders := by
  by_cases ho : o = o0
  · subst ho
    simp [abortWaiterAt, setQueue, LockQueue.abortWaiter, holders]
  · simp [abortWaiterAt, setQueue, ho]

end Accounted

theorem LockObject.shard_lt (o : LockObject) : o.shard < RECORD_SHARDS + TABLE_SHARDS := by
  cases o with
  | page pageId =>
    have := Nat.mod_lt pageId (show 0 < RECORD_SHARDS by decide)
    simp only [shard]
    omega
  | table tableId =>
    have := Nat.mod_lt tableId (show 0 < TABLE_SHARDS by decide)
    simp only [shard]
    omega

/-- The transaction of a section is where its call says, and its release has left none of its
locks. -/
structure ActorAccounted (s : State) (t : TxnId) : Prop where
  object : ∀ o, t ∈ (s.queues o).waiters → (s.phase t).object = some o
  passed : ∀ o, (s.phase t).passed o → t ∉ (s.queues o).holders
  waitFor : s.phase t = .released → s.waitFor t = none

theorem Accounted.actor {s : State} (hs : Accounted s) (t : TxnId) : ActorAccounted s t :=
  ⟨fun o => hs.object o t, hs.passed t, hs.waitFor t⟩

namespace ActorAccounted

variable {s s' : State} {t : TxnId}

/-- Inside of a call, only the queue matters. -/
theorem of_object {o0 : LockObject} (h : (s.phase t).object = some o0)
    (hw : ∀ o, t ∈ (s.queues o).waiters → o0 = o) : ActorAccounted s t where
  object o ht := by rw [h, hw o ht]
  passed o hp := by simp [passed_object hp] at h
  waitFor hr := by simp [hr, Phase.object] at h

theorem of_idle (h : s.phase t = .idle ∨ ∃ o, s.phase t = .leaving o)
    (hw : ∀ o, t ∉ (s.queues o).waiters) : ActorAccounted s t where
  object o ht := (hw o ht).elim
  passed o hp := by rcases h with h | ⟨x, h⟩ <;> simp [h, Phase.passed] at hp
  waitFor hr := by rcases h with h | ⟨x, h⟩ <;> simp [h] at hr

end ActorAccounted

theorem actor_of_step {s s' : State} {e : Event} (hs : Accounted s) (hok : wokenByGrant s e)
    (h : step s e = some s') : ActorAccounted s' e.actor := by
  cases e <;> simp only [step] at h
  case acquireRecord t pageId slotId mode nowait =>
    split at h
    next hrest =>
      have hj := acquireRecord_joins (s.queues (.page pageId)) t slotId mode
      split at h <;> cases h
      next hr =>
        rw [hr] at hj
        exact .of_idle (.inl (by simp [returns, actor])) fun _ => hs.not_waiting_granted hrest hj
      next =>
        exact .of_object (by simp [wait, setPhase, actor, object, LockRef.object])
          fun o ht => (hs.waiting_setQueue (atRest_object hrest) ht).1
    next => cases h
  case tryAcquireRecord t pageId slotId mode =>
    split at h
    next hrest =>
      split at h <;> cases h
      · exact .of_idle (.inl (by simp [returns, actor])) fun _ =>
          hs.not_waiting_granted hrest (tryAcquireRecord_joins _ _ _ _)
      · exact hs.actor t
    next => cases h
  case acquireTable t tableId mode =>
    split at h
    next hrest =>
      have hj := acquireTable_joins (s.queues (.table tableId)) t mode
      split at h <;> cases h
      next hr =>
        rw [hr] at hj
        exact .of_idle (.inl (by simp [returns, actor])) fun _ => hs.not_waiting_granted hrest hj
      next =>
        exact .of_object (by simp [wait, setPhase, actor, object, LockRef.object])
          fun o ht => (hs.waiting_setQueue (atRest_object hrest) ht).1
    next => cases h
  case giveUp t | remove t =>
    split at h <;> cases h
    next hp =>
      exact .of_idle (.inl (by simp [returns, actor]))
        (hs.not_waiting_dropWaiter (by rw [hp, object]))
  case detect t waitMs =>
    split at h
    next ref mode blocker hp =>
      have hw : ∀ o, t ∈ (s.queues o).waiters → ref.object = o := fun o ht => by
        simpa [hp, object] using hs.object o t ht
      split at h <;> cases h <;> exact .of_object (by simp [setPhase, actor, object]) hw
    next => cases h
  case abort t =>
    split at h <;> cases h
    next ref mode victim victimRef hp =>
      refine @ActorAccounted.of_object _ _ ref.object ?_ fun o ht => ?_
      · simp only [State.setPhase, actor, Function.update_self]
        split <;> rfl
      suffices t ∈ (s.queues o).waiters by simpa [hp, Phase.object] using hs.object o t this
      cases victimRef with
      | none => exact ht
      | some r => exact Accounted.waiters_abortWaiterAt victim r.object ▸ ht
  case wake t =>
    split at h
    next ref mode hp =>
      have hw : ∀ o, t ∉ (s.queues o).waiters := fun o ht => by
        have ho : ref.object = o := by simpa [hp, object] using hs.object o t ht
        exact hok ref mode hp (ho ▸ ht)
      split at h
      · split at h <;> cases h
        · exact .of_idle (.inr ⟨_, by simp [setPhase, actor]; rfl⟩) hw
        · exact .of_idle (.inl (by simp [returns, actor])) hw
      · cases h
    next => cases h
  case timeout t =>
    split at h
    next ref mode hp =>
      have ho : (s.phase t).object = some ref.object := by rw [hp, object]
      have hw := hs.not_waiting_dropWaiter ho
      split at h <;> cases h
      · exact .of_idle (.inr ⟨_, by simp [setPhase, actor]; rfl⟩) hw
      · exact .of_idle (.inl (by simp [returns, actor])) hw
    next => cases h
  case cleanUp t =>
    split at h <;> cases h
    next o hp =>
      exact .of_idle (.inl (by simp [returns, actor]))
        (hs.not_waiting (t := t) (by rw [hp, object]))
  case releaseLock t ref =>
    split at h <;> cases h
    next hrest =>
      have hw := hs.not_waiting (atRest_object hrest)
      refine ⟨fun o ht => ?_, fun o hp ht => ?_, hs.waitFor t⟩
      · simp only [release] at ht
        split at ht
        · exact (hw o (waiters_releaseRef.subset ht)).elim
        · exact (hw o ht).elim
      simp only [release] at ht
      split at ht
      · rcases holders_releaseRef ht with ht | ht
        · exact ht.2 rfl
        · exact hw o ht
      · exact hs.passed t o hp ht
  case releaseAll t =>
    split at h <;> cases h
    next hrest =>
      refine ⟨fun o ht => (hs.not_waiting (atRest_object hrest) o ht).elim, fun o hp => ?_,
        fun hr => ?_⟩
      · simp [setPhase, actor, passed] at hp
      · simp [setPhase, actor] at hr
  case releaseShard t =>
    split at h
    next n hp =>
      have hw := hs.not_waiting (t := t) (by rw [hp, object])
      split at h <;> cases h
      · refine ⟨fun o ht => ?_, fun o hpass ht => ?_, fun hr => ?_⟩
        · simp only [setPhase, release] at ht
          split at ht
          · exact (hw o (waiters_releaseTxn.subset ht)).elim
          · exact (hw o ht).elim
        · -- the queues of the shard are released now, and those of the shards before were
          simp only [setPhase, release] at ht
          split at ht
          next =>
            rcases holders_releaseTxn ht with ht | ht
            · exact ht.2 rfl
            · exact hw o ht
          next hne =>
            have hlt : o.shard < n + 1 := by
              simpa [setPhase, actor, passed] using hpass
            have hne : o.shard ≠ n := by simpa using hne
            refine hs.passed t o ?_ ht
            rw [hp]
            exact Nat.lt_of_le_of_ne (Nat.lt_succ_iff.mp hlt) hne
        · simp [setPhase, actor] at hr
      next hn =>
        refine ⟨fun o ht => (hw o ht).elim, fun o _ => hs.passed t o ?_, fun _ => ?_⟩
        · rw [hp]
          exact o.shard_lt.trans_le (not_lt.mp hn)
        · simp [actor]
    next => cases h
  case abortWaiter t ref =>
    cases h
    refine ⟨fun o ht => ?_, fun o hp ht => ?_, hs.waitFor t⟩
    · exact hs.object o t (Accounted.waiters_abortWaiterAt t ref.object ▸ ht)
    · exact hs.passed t o hp (Accounted.holders_abortWaiterAt t ref.object ▸ ht)

theorem Accounted.step {s s' : State} {e : Event} (hs : Accounted s) (hok : wokenByGrant s e)
    (h : Lock.step s e = some s') : Accounted s' := by
  obtain ⟨hobject, hpassed, hwaitFor⟩ := actor_of_step hs hok h
  refine ⟨fun o t ht => ?_, fun o => ?_, fun t o hp ht => ?_, fun t ht => ?_⟩
  · by_cases hte : t = e.actor
    · exact hte ▸ hobject o (hte ▸ ht)
    rw [(others_of_step h hte).1]
    apply hs.object o t
    rcases (queueChange_of_step h o).waiters with hw | ⟨-, hw⟩
    · exact hw.subset ht
    · simpa [hw, hte] using ht
  · rcases (queueChange_of_step h o).waiters with hw | ⟨hrest, hw⟩
    · exact hw.nodup (hs.nodup o)
    -- the transaction was not in a call, and so in no queue
    have hnot : e.actor ∉ (s.queues o).waiters := fun hm => by
      simpa [atRest_object hrest] using hs.object o _ hm
    rw [hw]
    exact (hs.nodup o).append (nodup_singleton _) (by simpa using hnot)
  · by_cases hte : t = e.actor
    · exact hpassed o (hte ▸ hp) (hte ▸ ht)
    rw [(others_of_step h hte).1] at hp
    rcases (queueChange_of_step h o).holders ht with ht | ht | ht
    · exact hs.passed t o hp ht
    · simpa [passed_object hp] using hs.object o t ht
    · exact hte ht
  · by_cases hte : t = e.actor
    · exact hte ▸ hwaitFor (hte ▸ ht)
    · obtain ⟨hphase, -, hnone⟩ := others_of_step h hte
      exact hnone (hs.waitFor t (hphase ▸ ht))

theorem accounted_init : Accounted init where
  object _ _ ht := (not_mem_nil ht).elim
  nodup _ := nodup_nil
  passed _ _ _ ht := not_mem_nil ht
  waitFor _ _ := rfl

/-- **Nothing is left.** In every interleaving in which only calls that have left the queue are
woken, a transaction whose last call was `release_all_for_txn` is, from then on, in no queue and has
no entry in the wait-for map. -/
theorem nothing_left_of_released {s : State} {t : TxnId}
    (h : Reached step wokenByGrant State.init s) (ht : s.phase t = .released) :
    (∀ o, t ∉ (s.queues o).holders ∧ t ∉ (s.queues o).waiters) ∧ s.waitFor t = none := by
  have hs : Accounted s := Reached.invariant accounted_init Accounted.step h
  refine ⟨fun o => ⟨hs.passed t o ?_, hs.not_waiting ?_ o⟩, hs.waitFor t ht⟩
  · rw [ht]
    trivial
  · rw [ht, object]

/-- **One wait at a time.** In those interleavings a transaction waits in one queue at most, at
one place in it, and only during the call that names the queue's object. -/
theorem waits_once {s : State} (h : Reached step wokenByGrant State.init s) {t : TxnId}
    {o : LockObject} (ht : t ∈ (s.queues o).waiters) : (s.phase t).object = some o ∧
      (s.queues o).waiters.count t = 1 ∧ ∀ o', t ∈ (s.queues o').waiters → o' = o := by
  have hs : Accounted s := Reached.invariant accounted_init Accounted.step h
  refine ⟨hs.object o t ht, count_eq_one_of_mem (hs.nodup o) ht, fun o' ht' => ?_⟩
  simpa [hs.object o t ht, eq_comm] using hs.object o' t ht'

/-- The sections of `release_all_for_txn`. -/
def releaseAllForTxn (t : TxnId) : List Event :=
  .releaseAll t :: List.replicate (RECORD_SHARDS + TABLE_SHARDS + 1) (.releaseShard t)

instance (s : State) (e : Event) : Decidable (wokenByGrant s e) :=
  match e with
  | .wake t =>
    match hp : s.phase t with
    | .waiting ref mode =>
      decidable_of_iff (t ∉ (s.queues ref.object).waiters)
        ⟨fun h ref' mode' h' => by rw [hp] at h'; cases h'; exact h, fun h => h ref mode hp⟩
    | .idle | .queued .. | .aborting .. | .removing _ | .leaving _ | .releasing _ | .released =>
      isTrue fun ref mode h => by rw [hp] at h; cases h
  | .acquireRecord .. | .tryAcquireRecord .. | .acquireTable .. | .giveUp _ | .detect .. | .abort _
  | .remove _ | .timeout _ | .cleanUp _ | .releaseLock .. | .releaseAll _ | .releaseShard _
  | .abortWaiter .. => isTrue trivial

theorem waits_once_two : ∃ s, Reached step wokenByGrant State.init s ∧
    (s.queues (.page 7)).waiters.count 2 = 1 := by
  have hs : Reached step wokenByGrant init _ := .of_run (l := [.acquireRecord 1 7 0 .exclusive false,
    .acquireRecord 2 7 0 .exclusive false]) .init rfl
  exact ⟨_, hs, (waits_once (t := 2) (o := .page 7) hs (by decide)).2.1⟩

/-- One transaction waits for another, is granted by its release, and releases in its turn. -/
theorem nothing_left_of_released_in_turn :
    ∃ s, Reached step wokenByGrant State.init s ∧ s.phase 2 = .released ∧
      (∀ o, 2 ∉ (s.queues o).holders ∧ 2 ∉ (s.queues o).waiters) ∧ s.waitFor 2 = none := by
  have hex : ∃ s, Reached step wokenByGrant init s ∧ (s.phase 2 == .released) = true :=
    Reached.exists_of_run (l := [.acquireRecord 1 7 0 .exclusive false,
      .acquireRecord 2 7 0 .exclusive false, .detect 2 fun _ => 0] ++ releaseAllForTxn 1 ++
      [.wake 2, .cleanUp 2] ++ releaseAllForTxn 2) (by decide +kernel)
  obtain ⟨s, h, hp⟩ := hex
  have hp : s.phase 2 = .released := by simpa using hp
  exact ⟨s, h, hp, nothing_left_of_released h hp⟩

/-- The victim of a deadlock releases its locks and is granted the lock that it waited for when the
other transaction releases. Both have waited equally long when the cycle is found. -/
theorem released_victim_granted :
    ∃ s, Reached step Lib.free State.init s ∧ s.phase 2 = .released ∧ s.outcome 2 = some .deadlockDetected ∧
      2 ∈ (s.queues (.page 1)).holders := by
  have hex : ∃ s, Reached step Lib.free init s ∧ (s.phase 2 == .released &&
      s.outcome 2 == some .deadlockDetected && (s.queues (.page 1)).holders.contains 2) = true :=
    Reached.exists_of_run (l := [.acquireRecord 2 2 0 .exclusive false,
      .acquireRecord 1 1 0 .exclusive false, .acquireRecord 2 1 0 .exclusive false,
      .detect 2 fun _ => 0, .acquireRecord 1 2 0 .exclusive false, .detect 1 fun _ => 0,
      .abort 1, .wake 2, .cleanUp 2] ++ releaseAllForTxn 2 ++ [.wake 1, .cleanUp 1] ++
      releaseAllForTxn 1) (by decide +kernel)
  obtain ⟨s, h, hp⟩ := hex
  simp only [Bool.and_eq_true, beq_iff_eq, contains_iff_mem] at hp
  exact ⟨s, h, hp.1.1, hp.1.2, hp.2⟩

end AxiomDb.Lock
