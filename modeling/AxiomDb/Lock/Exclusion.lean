import AxiomDb.Lock.Manager

/-!
# Mutual exclusion

No two transactions are granted conflicting modes on one slot of a page or on one
table, as long as an entry gets a slot, or the exclusive mode, only where no other
transaction has a conflicting entry. The code checks this for a request that gets
an entry of its own, but not for a slot that is added to an entry of the same
mode, nor for the other slots of an entry that is upgraded.
-/

namespace AxiomDb.Lock

open Lib Heap List LockQueue LockEntry State

/-! ## What a step does to a queue -/

/-- The section aborts the waiter of the transaction. -/
def Event.Aborts (s : State) (t : TxnId) : Event → Prop
  | .abort u => ∃ ref mode victimRef, s.phase u = .aborting ref mode t victimRef
  | .abortWaiter u _ => u = t
  | _ => False

/-- The section takes the waiter of the transaction out of the queue. -/
def Event.Drops (s : State) (o : LockObject) (t : TxnId) (e : Event) : Prop :=
  (e = .giveUp t ∨ e = .remove t ∨ e = .timeout t) ∧ (s.phase t).object = some o

/-- A queue after one section. -/
inductive QueueChange (s : State) (o : LockObject) : Event → LockQueue → Prop where
  | same (e : Event) : QueueChange s o e (s.queues o)
  | acquireRecord {t : TxnId} {pageId : PageId} {slotId : Nat} {mode : LockMode} {nowait : Bool}
      (ho : o = .page pageId) (ht : (s.phase t).atRest = true) : QueueChange s o (.acquireRecord t pageId slotId mode nowait)
        ((s.queues o).acquireRecord t slotId mode).1
  | tryAcquireRecord {t : TxnId} {pageId : PageId} {slotId : Nat} {mode : LockMode}
      (ho : o = .page pageId) (ht : (s.phase t).atRest = true) : QueueChange s o (.tryAcquireRecord t pageId slotId mode)
        ((s.queues o).tryAcquireRecord t slotId mode).1
  | acquireTable {t : TxnId} {tableId : Nat} {mode : LockMode}
      (ho : o = .table tableId) (ht : (s.phase t).atRest = true) : QueueChange s o (.acquireTable t tableId mode)
        ((s.queues o).acquireTable t mode).1
  | removeWaiter (e : Event) (t : TxnId) (h : e.Drops s o t) :
      QueueChange s o e ((s.queues o).removeWaiterByTxn t)
  | abortWaiter {e : Event} {t : TxnId} (h : e.Aborts s t) :
      QueueChange s o e ((s.queues o).abortWaiter t).1
  | release (e : Event) (t : TxnId) : QueueChange s o e ((s.queues o).releaseRef t).1

namespace QueueChange

variable {s : State} {o o' : LockObject} {e : Event} {q : LockQueue} {t : TxnId}

theorem of_setQueue (h : o = o' → QueueChange s o e q) :
    QueueChange s o e ((s.setQueue o' q).queues o) := by
  by_cases ho : o = o'
  · subst ho
    simpa [setQueue] using h rfl
  · simpa [setQueue, ho] using same e

theorem of_dropWaiter (hd : e.Drops s o' t) :
    QueueChange s o e ((s.dropWaiter t o').queues o) :=
  of_setQueue fun h => h ▸ removeWaiter e t (h ▸ hd)

theorem of_abortWaiterAt (ha : e.Aborts s t) :
    QueueChange s o e ((s.abortWaiterAt t o').queues o) :=
  of_setQueue fun h => h ▸ abortWaiter ha

end QueueChange

theorem queueChange_of_step {s s' : State} {e : Event} (h : step s e = some s') (o : LockObject) :
    QueueChange s o e (s'.queues o) := by
  cases e <;> simp only [step] at h
  case acquireRecord t pageId slotId mode nowait =>
    split at h
    next ht =>
      have hq : QueueChange s o (.acquireRecord t pageId slotId mode nowait)
          ((s.setQueue (.page pageId)
            ((s.queues (.page pageId)).acquireRecord t slotId mode).1).queues o) :=
        .of_setQueue fun ho => ho ▸ .acquireRecord ho ht
      split at h <;> cases h <;> exact hq
    next => cases h
  case tryAcquireRecord t pageId slotId mode =>
    split at h
    next ht =>
      split at h <;> cases h
      · exact .of_setQueue fun ho => ho ▸ .tryAcquireRecord ho ht
      · exact .same _
    next => cases h
  case acquireTable t tableId mode =>
    split at h
    next ht =>
      have hq : QueueChange s o (.acquireTable t tableId mode) ((s.setQueue (.table tableId)
          ((s.queues (.table tableId)).acquireTable t mode).1).queues o) :=
        .of_setQueue fun ho => ho ▸ .acquireTable ho ht
      split at h <;> cases h <;> exact hq
    next => cases h
  case giveUp t =>
    split at h
    next hp => cases h; exact .of_dropWaiter ⟨.inl rfl, by rw [hp]; rfl⟩
    next => cases h
  case detect t waitMs =>
    split at h
    · split at h <;> cases h <;> exact .same _
    · cases h
  case abort t =>
    split at h <;> cases h
    next ref mode victim victimRef hp =>
      split
      · exact .of_abortWaiterAt ⟨ref, mode, _, hp⟩
      · exact .same _
  case remove t =>
    split at h
    next hp => cases h; exact .of_dropWaiter ⟨.inr (.inl rfl), by rw [hp]; rfl⟩
    next => cases h
  case wake t =>
    split at h
    · split at h
      · split at h <;> cases h <;> exact .same _
      · cases h
    · cases h
  case timeout t =>
    split at h
    next hp => split at h <;> cases h <;> exact .of_dropWaiter ⟨.inr (.inr rfl), by rw [hp]; rfl⟩
    next => cases h
  case cleanUp t | releaseAll t =>
    split at h <;> cases h
    exact .same _
  case releaseLock t ref =>
    split at h <;> cases h
    simp only [release]
    split
    · exact .release _ t
    · exact .same _
  case releaseShard t =>
    split at h
    · split at h <;> cases h
      · simp only [release, setPhase, releaseTxn]
        split
        · split
          · exact .release _ t
          · exact .same _
        · exact .same _
      · exact .same _
    · cases h
  case abortWaiter t ref =>
    cases h
    exact .of_abortWaiterAt rfl

/-! ## Exclusion in one queue -/

/-- No two transactions have conflicting modes on a slot that both entries cover. -/
def Exclusive (granted : List LockEntry) : Prop :=
  ∀ e₁ ∈ granted, ∀ e₂ ∈ granted, e₁.txnId ≠ e₂.txnId → ∀ slotId : Nat,
    e₁.covers (some slotId) = true → e₂.covers (some slotId) = true →
      conflicts e₁.mode e₂.mode = false

/-- No granted entry of another transaction conflicts with the entry on a slot of its own. -/
def Compatible (granted : List LockEntry) (e : LockEntry) : Prop :=
  ∀ slotId : Nat, e.covers (some slotId) = true →
    (LockQueue.mk granted []).findConflict e.txnId e.mode (some slotId) = none

/-- The entry is for the slot that is asked for, or for the whole table. -/
def LockEntry.Asks (e : LockEntry) (slotId : Option Nat) : Prop := e.bitmap = slotId.map ([·])

theorem LockEntry.asks_slot (t : TxnId) (mode : LockMode) (slotId : Nat) :
    Asks ⟨t, mode, some [slotId]⟩ (some slotId) := rfl

theorem LockEntry.asks_table (t : TxnId) (mode : LockMode) : Asks ⟨t, mode, none⟩ none := rfl

variable {l : List LockEntry} {e : LockEntry} {t : TxnId} {mode : LockMode}

theorem LockEntry.covers_set {slotId x : Nat} (h : (e.set slotId).covers (some x)) :
    x = slotId ∨ e.covers (some x) := by
  cases hb : e.bitmap with
  | none => simp [covers, hb]
  | some bm => simpa [covers, set, hb] using h

/-- The check of a request is for all that the request covers. -/
theorem Compatible.of_asks {granted : List LockEntry} {slotId : Option Nat}
    (ha : e.Asks slotId) (h : (LockQueue.mk granted []).findConflict e.txnId e.mode slotId = none) :
    Compatible granted e := by
  intro x hx
  cases slotId with
  | none =>
    rw [findConflict_eq_none] at h ⊢
    intro b hb hne _
    exact h b hb hne (by simp [covers])
  | some slot =>
    obtain rfl : x = slot := by simpa [covers, show e.bitmap = some [slot] from ha] using hx
    exact h

/-- The new entries are of one transaction and each is compatible with the old ones. -/
theorem Exclusive.of_new {l' : List LockEntry} (hl : Exclusive l)
    (h : ∀ e ∈ l', e ∈ l ∨ e.txnId = t ∧ Compatible l e) : Exclusive l' := by
  intro e1 h1 e2 h2 hne x hx1 hx2
  rcases h e1 h1 with h1 | ⟨ht1, hc1⟩ <;> rcases h e2 h2 with h2 | ⟨ht2, hc2⟩
  · exact hl e1 h1 e2 h2 hne x hx1 hx2
  · exact findConflict_eq_none.mp (hc2 x hx2) e1 h1 hne hx1
  · rw [conflicts_comm]
    exact findConflict_eq_none.mp (hc1 x hx1) e2 h2 hne.symm hx2
  · exact absurd (ht1.trans ht2.symm) hne

theorem Exclusive.append (hl : Exclusive l) (h : Compatible l e) : Exclusive (l ++ [e]) := by
  refine hl.of_new (t := e.txnId) fun b hb => ?_
  rcases mem_append.mp hb with hb | hb
  · exact .inl hb
  · obtain rfl := mem_singleton.mp hb
    exact .inr ⟨rfl, h⟩

theorem Exclusive.grantFrom {ws : List LockWaiter} (hl : Exclusive l)
    (hws : ∀ w ∈ ws, w.entry.Asks w.slotId) : Exclusive (grantFrom l ws).1 := by
  induction ws generalizing l with
  | nil => exact hl
  | cons w ws ih =>
    have ha := hws w mem_cons_self
    have hws' : ∀ v ∈ ws, v.entry.Asks v.slotId := fun v hv => hws v (mem_cons_of_mem _ hv)
    rw [LockQueue.grantFrom]
    cases hc : (LockQueue.mk l []).findConflict w.entry.txnId w.entry.mode w.slotId with
    | some b => simpa [hc] using ih hl hws'
    | none => simpa [hc] using ih (hl.append (.of_asks ha hc)) hws'

theorem LockEntry.of_find?
    (h : l.find? (isOf t mode) = some e) : e ∈ l ∧ e.txnId = t ∧ e.mode = mode := by
  have hp := find?_some h
  simp only [isOf, Bool.and_eq_true, beq_iff_eq] at hp
  exact ⟨mem_of_find?_eq_some h, hp⟩

/-- An entry that is changed is one of those before, or the first of its transaction and mode after
the change. -/
theorem Exclusive.updateFirst
    {f : LockEntry → LockEntry} (hl : Exclusive l) (hf : ∀ e, (f e).txnId = e.txnId)
    (h : ∀ e, l.find? (isOf t mode) = some e → Compatible l (f e)) :
    Exclusive (updateFirst (isOf t mode) f l) := by
  refine hl.of_new (t := t) fun b hb => ?_
  rcases mem_updateFirst hb with hb | ⟨e, he, rfl⟩
  · exact .inl hb
  · exact .inr ⟨(hf e).trans (of_find? he).2.1, h e he⟩

/-! ## The invariant -/

/-- A request for a table has no slots. -/
def LockObject.Fits : LockObject → LockEntry → Prop
  | .page _, _ => True
  | .table _, e => e.bitmap = none

/-- The queue of an object: its granted entries exclude each other, and each request that waits will
be checked for all that it covers. -/
structure Sound (o : LockObject) (q : LockQueue) : Prop where
  exclusive : Exclusive q.granted
  granted_fits : ∀ e ∈ q.granted, o.Fits e
  waiting_fits : ∀ w ∈ q.waiting, o.Fits w.entry
  asks : ∀ w ∈ q.waiting, w.entry.Asks w.slotId

namespace Sound

variable {o : LockObject} {q : LockQueue} {slotId : Nat}

theorem fits_set (h : o.Fits e) : o.Fits (e.set slotId) := by
  cases o with
  | page _ => trivial
  | table _ => exact congrArg (Option.map (slotId :: ·)) h

theorem empty : Sound o .empty :=
  ⟨fun _ h => (not_mem_nil h).elim, fun _ h => (not_mem_nil h).elim,
    fun _ h => (not_mem_nil h).elim, fun _ h => (not_mem_nil h).elim⟩

theorem extend (h : Sound o q) (hc : q.findConflict t mode (some slotId) = none) :
    Sound o (q.extend t mode slotId) where
  __ := h
  exclusive := by
    refine h.exclusive.updateFirst (fun _ => rfl) fun e he x hx => ?_
    obtain ⟨hmem, ht, hm⟩ := of_find? he
    rw [show (e.set slotId).txnId = t from ht, show (e.set slotId).mode = mode from hm]
    rcases covers_set hx with rfl | hx
    · exact hc
    -- the other slots were covered before
    rw [findConflict_eq_none]
    intro b hb hne hbx
    rw [← hm]
    exact h.exclusive b hb e hmem (ht ▸ hne) x hbx hx
  granted_fits := forall_updateFirst h.granted_fits fun _ => fits_set

theorem upgrade (h : Sound o q) (hf : q.findConflict t .exclusive (some slotId) = none)
    (hc : ∀ e, q.granted.find? (isOf t .shared) = some e →
      ∀ x, e.covers (some x) → q.findConflict t .exclusive (some x) = none) :
    Sound o (q.upgrade t slotId) where
  __ := h
  exclusive := by
    refine h.exclusive.updateFirst (fun _ => rfl) fun e he x hx => ?_
    rw [show ({ e.set slotId with mode := .exclusive } : LockEntry).txnId = t from
      (of_find? he).2.1]
    have hx' : (e.set slotId).covers (some x) := hx
    rcases covers_set hx' with rfl | hx
    · exact hf
    · exact hc e he x hx
  granted_fits := forall_updateFirst h.granted_fits fun e he => by
    have := @fits_set e o slotId he
    cases o <;> exact this

theorem grant {slotId : Option Nat} (h : Sound o q) (hfit : o.Fits e)
    (ha : e.Asks slotId) (hc : q.findConflict e.txnId e.mode slotId = none) :
    Sound o (q.grant e) where
  __ := h
  exclusive := h.exclusive.append (.of_asks ha hc)
  granted_fits := forall_mem_append.mpr ⟨h.granted_fits, forall_mem_singleton.mpr hfit⟩

theorem enqueue (h : Sound o q) (hfit : o.Fits e)
    (ha : e.Asks (e.bitmap.bind min?)) : Sound o (q.enqueue e) where
  __ := h
  waiting_fits := forall_mem_append.mpr ⟨h.waiting_fits, forall_mem_singleton.mpr hfit⟩
  asks := forall_mem_append.mpr ⟨h.asks, forall_mem_singleton.mpr ha⟩

theorem findConflict_of_free {slotId : Option Nat} (h : q.free t mode slotId) :
    q.findConflict t mode slotId = none := by
  simp only [LockQueue.free, Bool.and_eq_true, Option.isNone_iff_eq_none] at h
  exact h.1

theorem tryAcquireRecord {pageId : PageId} (h : Sound (.page pageId) q) :
    Sound (.page pageId) (q.tryAcquireRecord t slotId mode).1 := by
  rw [LockQueue.tryAcquireRecord]
  split
  next hf =>
    dsimp only
    split
    · exact h.extend (findConflict_of_free hf)
    · exact h.grant trivial (asks_slot t mode slotId) (findConflict_of_free hf)
  next => exact h

theorem acquireTable {tableId : Nat} (h : Sound (.table tableId) q) :
    Sound (.table tableId) (q.acquireTable t mode).1 := by
  rw [LockQueue.acquireTable]
  split
  · exact h
  · split
    next hf => exact h.grant rfl (asks_table t mode) (findConflict_of_free hf)
    next => exact h.enqueue rfl rfl

theorem removeWaiterByTxn (h : Sound o q) : Sound o (q.removeWaiterByTxn t) where
  __ := h
  waiting_fits w hw := h.waiting_fits w (mem_of_mem_eraseP hw)
  asks w hw := h.asks w (mem_of_mem_eraseP hw)

theorem abortWaiter (h : Sound o q) : Sound o (q.abortWaiter t).1 where
  __ := h
  waiting_fits := forall_updateFirst h.waiting_fits fun _ hv => hv
  asks := forall_updateFirst h.asks fun _ hv => hv

theorem removeGrantedByTxn (h : Sound o q) : Sound o (q.removeGrantedByTxn t) where
  __ := h
  exclusive := h.exclusive.of_new (t := t) fun _ he => .inl (mem_of_mem_filter he)
  granted_fits e he := h.granted_fits e (mem_of_mem_filter he)

theorem tryGrantWaiters (h : Sound o q) : Sound o q.tryGrantWaiters.1 where
  exclusive := h.exclusive.grantFrom h.asks
  granted_fits := by
    intro e he
    rcases mem_grantFrom.1 e he with he | ⟨w, hw, rfl⟩
    · exact h.granted_fits e he
    · exact h.waiting_fits w hw
  waiting_fits w hw := h.waiting_fits w (mem_grantFrom.2.subset hw)
  asks w hw := h.asks w (mem_grantFrom.2.subset hw)

end Sound

/-! ## Runs -/

/-- A slot is added to an entry only where no other transaction has a conflicting entry on it, and
an entry is upgraded only where none has one on any of its slots. -/
def LockQueue.Checks (q : LockQueue) (t : TxnId) (slotId : Nat) (mode : LockMode) : Prop :=
  (q.holds t mode = true → q.findConflict t mode (some slotId) = none) ∧
    (q.upgrades t mode slotId = true → ∀ e, q.granted.find? (LockEntry.isOf t .shared) = some e →
      ∀ x : Nat, e.covers (some x) = true → q.findConflict t .exclusive (some x) = none)

def checked (s : State) : Event → Prop
  | .acquireRecord t pageId slotId mode _ => (s.queues (.page pageId)).Checks t slotId mode
  | _ => True

theorem Sound.acquireRecord {pageId : PageId} {q : LockQueue} {slotId : Nat}
    (h : Sound (.page pageId) q) (hc : q.Checks t slotId mode) :
    Sound (.page pageId) (q.acquireRecord t slotId mode).1 := by
  rw [LockQueue.acquireRecord]
  split
  next hh => exact h.extend (hc.1 hh)
  next =>
    split
    next hu =>
      have hf := hu
      simp only [upgrades, Bool.and_eq_true, beq_iff_eq] at hf
      obtain ⟨⟨rfl, -⟩, hf⟩ := hf
      exact h.upgrade (findConflict_of_free hf) (hc.2 hu)
    next =>
      dsimp only
      split
      next hf => exact h.grant trivial (asks_slot t mode slotId) (findConflict_of_free hf)
      next => exact h.enqueue trivial rfl

theorem sound_of_reached {s : State} (h : Reached step checked init s) (o : LockObject) :
    Sound o (s.queues o) := by
  refine Reached.invariant (I := fun s => ∀ o, Sound o (s.queues o)) (fun _ => .empty) ?_ h o
  intro s s' e hs hok hstep o
  have hq := queueChange_of_step hstep o
  generalize s'.queues o = q' at hq
  cases hq with
  | same => exact hs o
  | acquireRecord ho =>
    subst ho
    exact (hs _).acquireRecord hok
  | tryAcquireRecord ho =>
    subst ho
    exact (hs _).tryAcquireRecord
  | acquireTable ho =>
    subst ho
    exact (hs _).acquireTable
  | removeWaiter => exact (hs o).removeWaiterByTxn
  | abortWaiter => exact (hs o).abortWaiter
  | release => exact (hs o).removeGrantedByTxn.tryGrantWaiters

/-- **Mutual exclusion.** In every interleaving in which slots and modes are added to entries as
`checked` says, no two transactions have granted entries with conflicting modes on one slot of a page
or on one table. -/
theorem granted_exclusive {s : State} (h : Reached step checked State.init s) :
    (∀ pageId, ∀ e₁ ∈ (s.queues (.page pageId)).granted, ∀ e₂ ∈ (s.queues (.page pageId)).granted,
        ∀ slotId, e₁.txnId ≠ e₂.txnId → e₁.covers (some slotId) = true →
          e₂.covers (some slotId) = true → conflicts e₁.mode e₂.mode = false) ∧
      ∀ tableId, ∀ e₁ ∈ (s.queues (.table tableId)).granted,
        ∀ e₂ ∈ (s.queues (.table tableId)).granted, e₁.txnId ≠ e₂.txnId →
          conflicts e₁.mode e₂.mode = false := by
  constructor
  · intro pageId e₁ h₁ e₂ h₂ slotId hne hx₁ hx₂
    exact (sound_of_reached h _).exclusive e₁ h₁ e₂ h₂ hne slotId hx₁ hx₂
  intro tableId e₁ h₁ e₂ h₂ hne
  have hs := sound_of_reached h (.table tableId)
  have hb : ∀ e ∈ (s.queues (.table tableId)).granted, e.covers (some 0) = true := by
    intro e he
    simp [covers, show e.bitmap = none from hs.granted_fits e he]
  exact hs.exclusive e₁ h₁ e₂ h₂ hne 0 (hb e₁ h₁) (hb e₂ h₂)

/-- Two transactions with slots of one page. -/
theorem granted_exclusive_two_slots : ∃ s, Reached step checked State.init s ∧
      (s.queues (.page 7)).granted = [⟨1, .exclusive, some [0]⟩, ⟨2, .exclusive, some [1]⟩] ∧
      ∀ e₁ ∈ (s.queues (.page 7)).granted, ∀ e₂ ∈ (s.queues (.page 7)).granted,
        ∀ slotId, e₁.txnId ≠ e₂.txnId → e₁.covers (some slotId) = true →
          e₂.covers (some slotId) = true → conflicts e₁.mode e₂.mode = false := by
  have h : Reached step checked init _ :=
    .step (e := .acquireRecord 2 7 1 .exclusive false)
      (.step (e := .acquireRecord 1 7 0 .exclusive false) .init
        ⟨fun h => absurd h (by decide), fun h => absurd h (by decide)⟩ rfl)
      ⟨fun h => absurd h (by decide), fun h => absurd h (by decide)⟩ rfl
  exact ⟨_, h, rfl, (granted_exclusive h).1 7⟩

/-- A slot is added to the entry of the first transaction though the second has it exclusively. -/
theorem exclusive_twice : ∃ s, Reached step Lib.free State.init s ∧
      ∃ e₁ ∈ (s.queues (.page 7)).granted, ∃ e₂ ∈ (s.queues (.page 7)).granted,
        e₁.txnId ≠ e₂.txnId ∧ e₁.covers (some 1) = true ∧ e₂.covers (some 1) = true ∧
          conflicts e₁.mode e₂.mode = true := by
  refine ⟨_, .step (e := .acquireRecord 1 7 1 .exclusive false)
    (.step (e := .acquireRecord 2 7 1 .exclusive false)
      (.step (e := .acquireRecord 1 7 0 .exclusive false) .init trivial rfl) trivial rfl)
    trivial rfl, ⟨1, .exclusive, some [1, 0]⟩, ?_, ⟨2, .exclusive, some [1]⟩, ?_, ?_⟩
  · exact mem_cons_self
  · exact mem_cons_of_mem _ mem_cons_self
  · decide

end AxiomDb.Lock
