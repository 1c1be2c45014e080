import AxiomDb.Heap.Chain
import AxiomDb.Lib.Runs

/-!
# Concurrent writes of one page

Calls on one heap page, each on slots of its own. `insert`, `delete` and
`delete_batch` hold the latch of the page from their read to their write. A scan
that sets the all-visible flag, and the two updates that patch fields in place,
read the page, change a private copy and write all of it back: what others have
written to the page in between is undone.
-/

namespace AxiomDb.Heap.PageWrites

open Lib HeapChain List HeapPage

/-! ## What a call does to the page -/

/-- What a call that has returned `Ok` did to a slot. -/
inductive Effect where
  | inserted (slotId : Nat) (data : Bytes) (txnId : TxnId)
  | deleted (slotId : Nat) (txnId : TxnId)
  | patched (slotId : Nat) (image : TupleImage)
  deriving DecidableEq

namespace Effect

def slotId : Effect → Nat
  | inserted i _ _ | deleted i _ | patched i _ => i

/-- The tuple has what the call wrote. -/
def On (t : Slot) : Effect → Prop
  | inserted _ data txnId => t.header = ⟨txnId, 0, 0, 0⟩ ∧ t.data = data
  | deleted _ txnId => t.header.txnIdDeleted = txnId
  | patched _ image => t.image = image

end Effect

/-- The effect is on the page. -/
def Shows (page : HeapPage) (e : Effect) : Prop :=
  ∃ t, page.slots[e.slotId]? = some (some t) ∧ e.On t

/-- The assignments of an update to one row: `write_field` keeps the length of the row. -/
structure FieldPatch where
  write : Bytes → Bytes
  length_write : ∀ data, (write data).length = data.length
  /-- Whether an assignment gives a field another value. -/
  changed : Bytes → Bool

inductive PatchCall where
  /-- The in-place branch of `execute_update_with_candidates`. -/
  | candidates
  /-- `fused_index_range_patch`. -/
  | fusedRange (snap : TransactionSnapshot)

/-- The live rows that the call leaves as they are. -/
def PatchCall.skips (call : PatchCall) (fields : FieldPatch) (t : Slot) : Bool :=
  match call with
  | candidates => false
  | fusedRange snap => !t.header.isVisible snap || !fields.changed t.data

def patchedImage (fields : FieldPatch) (t : Slot) : TupleImage :=
  (⟨t.header.txnIdCreated, 0, (t.header.rowVersion + 1) % 2 ^ 32, t.header.flags⟩,
    fields.write t.data)

theorem fits_of_length_eq {page : HeapPage} {i : Nat} {t : Slot} {data : Bytes}
    (h : page.slots[i]? = some (some t)) (hlen : data.length = t.data.length) :
    align8 (ROW_HEADER_SIZE + data.length) ≤ slotEnd page.slots i t.offset - t.offset := by
  have hstop := page.layout.stop_le h
  rw [Slot.stop, Slot.length, ← hlen] at hstop
  omega

def patchSlot (call : PatchCall) (fields : FieldPatch) (slotId : Nat) (page : HeapPage) :
    HeapPage × List Effect :=
  match h : page.slots[slotId]? with
  | some (some t) =>
    if call.skips fields t then (page, [])
    else
      ((page.overwrite slotId t h (patchedImage fields t)
          (fits_of_length_eq h (fields.length_write t.data))).clearAllVisible,
        [.patched slotId (patchedImage fields t)])
  | _ => (page, [])

/-- The rows that an update has on this page. -/
def patchSlots (call : PatchCall) : List (Nat × FieldPatch) → HeapPage → HeapPage × List Effect
  | [], page => (page, [])
  | p :: rest, page =>
    let first := patchSlot call p.2 p.1 page
    let others := patchSlots call rest first.1
    (others.1, first.2 ++ others.2)

/-! ## The calls -/

/-- The page that a call has read, and its private copy with the call's effects. -/
structure Held where
  read : HeapPage
  copy : HeapPage
  effects : List Effect

/-- The page; the copies that calls hold; the slots that calls have been for; what the calls that
have returned did. -/
structure State (τ : Type) where
  page : HeapPage
  held : τ → Option Held
  claimed : List Nat
  returned : List Effect

inductive Event (τ : Type) where
  | insert (data : Bytes) (txnId : TxnId)
  | delete (slotId : Nat) (txnId : TxnId)
  | deleteBatch (slotIds : List Nat) (txnId : TxnId)
  | scanRead (t : τ) (snap : TransactionSnapshot)
  | patchRead (t : τ) (call : PatchCall) (patches : List (Nat × FieldPatch))
  | write (t : τ)

variable {τ : Type}

namespace State

/-- The slots are different ones of the page, and no call has been for one of them. -/
def Fresh (s : State τ) (slotIds : List Nat) : Prop :=
  slotIds.Nodup ∧ ∀ i ∈ slotIds, i < s.page.numSlots ∧ i ∉ s.claimed

instance (s : State τ) (slotIds : List Nat) : Decidable (s.Fresh slotIds) :=
  inferInstanceAs (Decidable (_ ∧ _))

/-- A call on `slotIds` has written `page` and returns. -/
def finish (s : State τ) (page : HeapPage) (slotIds : List Nat) (effects : List Effect) : State τ :=
  { s with page, claimed := slotIds ++ s.claimed, returned := s.returned ++ effects }

variable [DecidableEq τ]

/-- A call on `slotIds` has read the page and holds a copy. -/
def hold (s : State τ) (t : τ) (copy : HeapPage) (slotIds : List Nat) (effects : List Effect) :
    State τ :=
  { s with
    held := Function.update s.held t (some ⟨s.page, copy, effects⟩)
    claimed := slotIds ++ s.claimed }

/-- A call writes its copy and returns. -/
def writeBack (s : State τ) (t : τ) (h : Held) : State τ :=
  { s with
    page := h.copy
    held := Function.update s.held t none
    returned := s.returned ++ h.effects }

end State

variable [DecidableEq τ]

/-- A call that fails writes nothing. -/
def step (s : State τ) : Event τ → Option (State τ)
  | .insert data txnId =>
    match s.page.insertTuple data txnId with
    | .ok (slotId, page) => some (s.finish page [slotId] [.inserted slotId data txnId])
    | .error _ => none
  | .delete slotId txnId =>
    if s.Fresh [slotId] then
      match s.page.deleteTuple slotId txnId with
      | .ok page => some (s.finish page [slotId] [.deleted slotId txnId])
      | .error _ => none
    else none
  | .deleteBatch slotIds txnId =>
    if s.Fresh slotIds then
      match markAllDeleted txnId s.page (slotIds.map (⟨s.page.pageId, ·⟩)) with
      | .ok (_, page) => some (s.finish page slotIds (slotIds.map (.deleted · txnId)))
      | .error _ => none
    else none
  | .scanRead t snap =>
    match s.held t with
    | none =>
      -- a scan that does not set the flag writes nothing
      if setsAllVisible s.page snap then some (s.hold t s.page.setAllVisible [] []) else some s
    | some _ => none
  | .patchRead t call patches =>
    match s.held t with
    | none =>
      if s.Fresh (patches.map Prod.fst) then
        let result := patchSlots call patches s.page
        -- a page that is not dirty is not written
        if result.2 = [] then some (s.finish s.page (patches.map Prod.fst) [])
        else some (s.hold t result.1 (patches.map Prod.fst) result.2)
      else none
    | some _ => none
  | .write t =>
    match s.held t with
    | some h => some (s.writeBack t h)
    | none => none

/-- A copy is written back only while the slots of the page are as the call has read them. -/
def unchanged (s : State τ) : Event τ → Bool
  | .write t => (s.held t).all fun h => s.page.slots == h.read.slots
  | _ => true

def Unchanged (s : State τ) (e : Event τ) : Prop := unchanged s e = true

instance (s : State τ) (e : Event τ) : Decidable (Unchanged s e) :=
  inferInstanceAs (Decidable (_ = true))

/-! ## One call -/

/-- The second page is the first with the effects, and no other slot differs. -/
structure Changes (page page' : HeapPage) (es : List Effect) : Prop where
  shows : ∀ e ∈ es, Shows page' e
  rest : ∀ i, i ∉ es.map Effect.slotId → page'.slots[i]? = page.slots[i]?
  length : page.slots.length ≤ page'.slots.length

namespace Changes

variable {page page' page'' : HeapPage} {es fs : List Effect} {txnId : TxnId} {i : Nat}

theorem of_slots_eq (h : page'.slots = page.slots) : Changes page page' [] :=
  ⟨by simp, fun i _ => by rw [h], by rw [h]⟩

theorem congr (h : Changes page page' es) (hslots : page''.slots = page.slots) :
    Changes page'' page' es :=
  ⟨h.shows, fun i hi => by rw [hslots, h.rest i hi], by rw [hslots]; exact h.length⟩

/-- Effects on other slots come after. -/
theorem trans (h : Changes page page' es) (h' : Changes page' page'' fs)
    (hne : ∀ e ∈ es, e.slotId ∉ fs.map Effect.slotId) : Changes page page'' (es ++ fs) := by
  refine ⟨fun e he => ?_, fun i hi => ?_, h.length.trans h'.length⟩
  · rcases mem_append.mp he with he | he
    · obtain ⟨t, ht, hon⟩ := h.shows e he
      exact ⟨t, (h'.rest _ (hne e he)).trans ht, hon⟩
    · exact h'.shows e he
  · rw [map_append, mem_append, not_or] at hi
    rw [h'.rest i hi.2, h.rest i hi.1]

theorem insertTuple {data : Bytes} (h : page.insertTuple data txnId = .ok (i, page')) :
    Changes page page' [.inserted i data txnId] := by
  have hins := insertTuple_ok h
  obtain ⟨offset, hslots⟩ := hins.slots
  refine ⟨fun e he => ?_, fun j hj => ?_, by simp [hslots]⟩
  · obtain rfl := mem_singleton.mp he
    refine ⟨⟨offset, ⟨txnId, 0, 0, 0⟩, data⟩, ?_, rfl, rfl⟩
    rw [hslots, show Effect.slotId (.inserted i data txnId) = page.slots.length from hins.slotId]
    simp
  have hne : j ≠ page.slots.length := fun h => hj (by simp [Effect.slotId, h, hins.slotId])
  rw [hslots]
  rcases Nat.lt_or_gt_of_ne hne with hlt | hgt
  · exact getElem?_append_left hlt
  · rw [getElem?_eq_none (by simp; omega), getElem?_eq_none (by omega)]

theorem markDeleted (h : page.markDeleted i txnId = .ok page') :
    Changes page page' [.deleted i txnId] := by
  obtain ⟨⟨t, ht⟩, rfl⟩ := markDeleted_ok h
  refine ⟨fun e he => ?_, fun j hj => ?_, by simp [setHeader, clearAllVisible]⟩
  · obtain rfl := mem_singleton.mp he
    refine ⟨{ t with header := { t.header with txnIdDeleted := txnId } }, ?_, rfl⟩
    rw [getElem?_setHeader]
    simp [clearAllVisible, Effect.slotId, ht]
  · have hne : i ≠ j := fun h => hj (by simp [Effect.slotId, h])
    rw [getElem?_setHeader]
    simp [clearAllVisible, hne]

theorem markAllDeleted {p : PageId} {slotIds : List Nat} {rows : List (RecordId × Bytes)}
    (hnd : slotIds.Nodup)
    (h : markAllDeleted txnId page (slotIds.map (⟨p, ·⟩)) = .ok (rows, page')) :
    Changes page page' (slotIds.map (.deleted · txnId)) := by
  induction slotIds generalizing page rows with
  | nil =>
    cases h
    exact of_slots_eq rfl
  | cons i rest ih =>
    obtain ⟨hi, hnd⟩ := nodup_cons.mp hnd
    simp only [map_cons, markAllDeleted, bind, Except.bind] at h
    split at h
    · cases h
    split at h
    · cases h
    split at h
    · cases h
    next page1 hmark =>
      split at h
      · cases h
      next result hrest =>
        cases h
        refine (markDeleted hmark).trans (ih hnd hrest) fun e he => ?_
        obtain rfl := mem_singleton.mp he
        simpa [Function.comp_def, Effect.slotId] using hi

theorem patchSlot (call : PatchCall) (fields : FieldPatch) (i : Nat) (page : HeapPage) :
    Changes page (patchSlot call fields i page).1 (patchSlot call fields i page).2 ∧
      ∀ e ∈ (PageWrites.patchSlot call fields i page).2, e.slotId = i := by
  rw [PageWrites.patchSlot]
  split
  next t ht =>
    split
    · exact ⟨of_slots_eq rfl, by simp⟩
    refine ⟨⟨fun e he => ?_, fun j hj => ?_, ?_⟩, by simp [Effect.slotId]⟩
    · obtain rfl := mem_singleton.mp he
      refine ⟨⟨t.offset, (patchedImage fields t).1, (patchedImage fields t).2⟩, ?_, rfl⟩
      exact List.getElem?_set_self (List.getElem?_eq_some_iff.mp ht).1
    · exact List.getElem?_set_ne fun h => hj (by simp [Effect.slotId, h])
    · simp [HeapPage.clearAllVisible, HeapPage.overwrite]
  next => exact ⟨of_slots_eq rfl, by simp⟩

theorem patchSlots (call : PatchCall) {patches : List (Nat × FieldPatch)}
    (hnd : (patches.map Prod.fst).Nodup) (page : HeapPage) :
    Changes page (patchSlots call patches page).1 (patchSlots call patches page).2 ∧
      ∀ e ∈ (PageWrites.patchSlots call patches page).2, e.slotId ∈ patches.map Prod.fst := by
  induction patches generalizing page with
  | nil => exact ⟨of_slots_eq rfl, by simp [PageWrites.patchSlots]⟩
  | cons p rest ih =>
    rw [map_cons, nodup_cons] at hnd
    obtain ⟨hfirst, hslot⟩ := patchSlot call p.2 p.1 page
    obtain ⟨hrest, hslots⟩ := ih hnd.2 (PageWrites.patchSlot call p.2 p.1 page).1
    refine ⟨hfirst.trans hrest fun e he hmem => ?_, fun e he => ?_⟩
    · obtain ⟨f, hf, heq⟩ := mem_map.mp hmem
      exact hnd.1 (hslot e he ▸ heq ▸ hslots f hf)
    · rcases mem_append.mp he with he | he
      · simp [hslot e he]
      · exact mem_cons_of_mem _ (hslots e he)

end Changes

/-! ## Interleaved calls -/

/-- The page has exactly the effects of the calls that have returned, and the copies those of the
calls that hold them, on slots of their own. -/
structure Kept (init : HeapPage) (s : State τ) : Prop where
  page : Changes init s.page s.returned
  claimed : ∀ e ∈ s.returned, e.slotId ∈ s.claimed
  bound : ∀ i ∈ s.claimed, i < s.page.slots.length
  held : ∀ t h, s.held t = some h → Changes h.read h.copy h.effects ∧
    ∀ e ∈ h.effects, e.slotId ∈ s.claimed ∧ e.slotId ∉ s.returned.map Effect.slotId
  apart : ∀ t u h k, t ≠ u → s.held t = some h → s.held u = some k →
    ∀ e ∈ h.effects, e.slotId ∉ k.effects.map Effect.slotId

namespace Kept

variable {init : HeapPage} {s : State τ} {t : τ} {page' : HeapPage} {slotIds : List Nat}
  {es : List Effect}

omit [DecidableEq τ] in
/-- Slots that no call has been for are not those of an effect. -/
theorem notMem_of_fresh {e : Effect} (he : e.slotId ∈ s.claimed)
    (hslots : ∀ e ∈ es, e.slotId ∈ slotIds) (hfresh : ∀ i ∈ slotIds, i ∉ s.claimed) :
    e.slotId ∉ es.map Effect.slotId := fun hmem => by
  obtain ⟨f, hf, heq⟩ := mem_map.mp hmem
  exact hfresh _ (hslots f hf) (heq ▸ he)

omit [DecidableEq τ] in
theorem finish (hs : Kept init s) (hpage : Changes s.page page' es)
    (hslots : ∀ e ∈ es, e.slotId ∈ slotIds) (hfresh : ∀ i ∈ slotIds, i ∉ s.claimed)
    (hbound : ∀ i ∈ slotIds, i < page'.slots.length) : Kept init (s.finish page' slotIds es) := by
  refine ⟨hs.page.trans hpage fun e he => notMem_of_fresh (hs.claimed e he) hslots hfresh,
    fun e he => ?_, fun i hi => ?_, fun u h hu => ⟨(hs.held u h hu).1, fun e he => ?_⟩, hs.apart⟩
  · rcases mem_append.mp he with he | he
    · exact mem_append_right _ (hs.claimed e he)
    · exact mem_append_left _ (hslots e he)
  · rcases mem_append.mp hi with hi | hi
    · exact hbound i hi
    · exact (hs.bound i hi).trans_le hpage.length
  · obtain ⟨hclaimed, hreturned⟩ := (hs.held u h hu).2 e he
    refine ⟨mem_append_right _ hclaimed, ?_⟩
    simp only [State.finish, map_append, mem_append, not_or]
    exact ⟨hreturned, notMem_of_fresh hclaimed hslots hfresh⟩

omit [DecidableEq τ] in
/-- `finish` for slots that are on the page already. -/
theorem finish_fresh (hs : Kept init s) (hfresh : s.Fresh slotIds) (hpage : Changes s.page page' es)
    (hslots : ∀ e ∈ es, e.slotId ∈ slotIds) : Kept init (s.finish page' slotIds es) :=
  hs.finish hpage hslots (fun i hi => (hfresh.2 i hi).2) fun i hi =>
    (hfresh.2 i hi).1.trans_le hpage.length

theorem hold (hs : Kept init s) (hcopy : Changes s.page page' es)
    (hslots : ∀ e ∈ es, e.slotId ∈ slotIds)
    (hfresh : ∀ i ∈ slotIds, i < s.page.slots.length ∧ i ∉ s.claimed) :
    Kept init (s.hold t page' slotIds es) := by
  have hheld (u : τ) : (s.hold t page' slotIds es).held u =
      if u = t then some ⟨s.page, page', es⟩ else s.held u := Function.update_apply ..
  have hother {u : τ} {h : Held} (hu : s.held u = some h) : ∀ e ∈ h.effects,
      e.slotId ∉ es.map Effect.slotId := fun e he =>
    notMem_of_fresh ((hs.held u h hu).2 e he).1 hslots fun i hi => (hfresh i hi).2
  refine ⟨hs.page, fun e he => mem_append_right _ (hs.claimed e he), fun i hi => ?_,
    fun u h hu => ?_, fun u v h k huv hu hv e he => ?_⟩
  · rcases mem_append.mp hi with hi | hi
    · exact (hfresh i hi).1
    · exact hs.bound i hi
  · rw [hheld] at hu
    split at hu
    · cases hu
      refine ⟨hcopy, fun e he => ⟨mem_append_left _ (hslots e he), fun hmem => ?_⟩⟩
      obtain ⟨f, hf, heq⟩ := mem_map.mp hmem
      exact (hfresh _ (hslots e he)).2 (heq ▸ hs.claimed f hf)
    · obtain ⟨hcopy', hkept⟩ := hs.held u h hu
      exact ⟨hcopy', fun e he => ⟨mem_append_right _ (hkept e he).1, (hkept e he).2⟩⟩
  rw [hheld] at hu hv
  split at hu <;> split at hv
  next hut hvt => exact absurd (hut.trans hvt.symm) huv
  next =>
    cases hu
    intro hmem
    obtain ⟨f, hf, heq⟩ := mem_map.mp hmem
    exact hother hv f hf (heq ▸ mem_map_of_mem he)
  next =>
    cases hv
    exact hother hu e he
  next => exact hs.apart u v h k huv hu hv e he

/-- The page is as the call has read it. -/
theorem writeBack (hs : Kept init s) {h : Held} (ht : s.held t = some h)
    (hslots : s.page.slots = h.read.slots) : Kept init (s.writeBack t h) := by
  obtain ⟨hcopy, heffects⟩ := hs.held t h ht
  have hcopy := hcopy.congr hslots
  have hheld (u : τ) : (s.writeBack t h).held u = if u = t then none else s.held u :=
    Function.update_apply ..
  refine ⟨hs.page.trans hcopy fun e he hmem => ?_, fun e he => ?_,
    fun i hi => (hs.bound i hi).trans_le hcopy.length, fun u k hu => ?_,
    fun u v k l huv hu hv => ?_⟩
  · obtain ⟨f, hf, heq⟩ := mem_map.mp hmem
    exact (heffects f hf).2 (heq ▸ mem_map_of_mem he)
  · rcases mem_append.mp he with he | he
    · exact hs.claimed e he
    · exact (heffects e he).1
  · rw [hheld] at hu
    split at hu
    · cases hu
    next hut =>
      refine ⟨(hs.held u k hu).1, fun e he => ?_⟩
      obtain ⟨hclaimed, hreturned⟩ := (hs.held u k hu).2 e he
      refine ⟨hclaimed, ?_⟩
      simp only [State.writeBack, map_append, mem_append, not_or]
      exact ⟨hreturned, hs.apart u t k h hut hu ht e he⟩
  · rw [hheld] at hu hv
    split at hu
    · cases hu
    split at hv
    · cases hv
    exact hs.apart u v k l huv hu hv

end Kept

theorem kept_step {init : HeapPage} {s s' : State τ} {e : Event τ} (hs : Kept init s)
    (hok : Unchanged s e) (h : step s e = some s') : Kept init s' := by
  cases e <;> rw [step] at h
  case insert data txnId =>
    split at h <;> cases h
    next slotId page hins =>
      have hnew := (insertTuple_ok hins).slotId
      obtain ⟨offset, hslots⟩ := (insertTuple_ok hins).slots
      refine hs.finish (.insertTuple hins) (by simp [Effect.slotId]) ?_ ?_
      · -- the slots of the other calls are below the new one
        intro i hi hmem
        have := hs.bound i hmem
        rw [mem_singleton.mp hi, hnew] at this
        exact lt_irrefl _ this
      · simp [hslots, hnew]
  case delete slotId txnId =>
    split at h
    next hfresh =>
      split at h <;> cases h
      next page hdel => exact hs.finish_fresh hfresh (.markDeleted hdel) (by simp [Effect.slotId])
    next => cases h
  case deleteBatch slotIds txnId =>
    split at h
    next hfresh =>
      split at h <;> cases h
      next rows page hdel =>
        exact hs.finish_fresh hfresh (.markAllDeleted hfresh.1 hdel) (by simp [Effect.slotId])
    next => cases h
  case scanRead t snap =>
    split at h
    next =>
      split at h
      · cases h
        exact hs.hold (.of_slots_eq rfl) (by simp) (by simp)
      · cases h
        exact hs
    next => cases h
  case patchRead t call patches =>
    split at h
    next =>
      split at h
      next hfresh =>
        obtain ⟨hcopy, hslots⟩ := Changes.patchSlots call hfresh.1 s.page
        dsimp only at h
        split at h
        · cases h
          exact hs.finish_fresh hfresh (.of_slots_eq rfl) (by simp)
        · cases h
          exact hs.hold hcopy hslots hfresh.2
      next => cases h
    next => cases h
  case write t =>
    split at h <;> cases h
    next held ht =>
      have hslots : s.page.slots = held.read.slots := by
        simpa [Unchanged, unchanged, ht] using hok
      exact hs.writeBack ht hslots

/-- The calls at the start. -/
def opened (page : HeapPage) : State τ := ⟨page, fun _ => none, [], []⟩

/-- Where no copy is written back over slots that others have changed, the page has the tuple, the
stamp or the patched row of every call that has returned, and its other slots are as they were. -/
theorem page_keeps_writes {page : HeapPage} {s : State τ}
    (h : Reached step Unchanged (opened page) s) : (∀ e ∈ s.returned, Shows s.page e) ∧
      ∀ i, i ∉ s.returned.map Effect.slotId → s.page.slots[i]? = page.slots[i]? := by
  have hinit : Kept page (opened page : State τ) :=
    ⟨.of_slots_eq rfl, by simp [opened], by simp [opened], by simp [opened], by simp [opened]⟩
  have hs := h.invariant hinit kept_step
  exact ⟨hs.page.shows, hs.page.rest⟩

/-- A page with a row of a committed transaction. -/
def oneRow : HeapPage where
  pageId := 2
  allVisible := false
  nextPage := 0
  zoneMap := none
  slots := [some ⟨16352, ⟨1, 0, 0, 0⟩, [7]⟩]
  freeEnd := 16352
  layout := ⟨by decide, by decide, by simp; decide, pairwise_singleton ..⟩

/-- A row is deleted after a scan has set the flag. -/
theorem page_keeps_writes_delete : ∃ s, run step Unchanged (opened oneRow : State (Fin 2))
        [.scanRead 0 ⟨3, 0, []⟩, .write 0, .delete 0 5] = some s ∧ Shows s.page (.deleted 0 5) := by
  have hreach : Reached step Unchanged (opened oneRow : State (Fin 2)) _ :=
    .of_run (l := [.scanRead 0 ⟨3, 0, []⟩, .write 0, .delete 0 5]) .init rfl
  exact ⟨_, rfl, (page_keeps_writes hreach).1 _ mem_cons_self⟩

/-- A scan has read the page, and a row is deleted before it writes the page back with the flag:
the delete has returned, and the row has no stamp. -/
theorem scan_undoes_delete :
    ∃ s, Reached step free (opened oneRow : State (Fin 2)) s ∧ (∀ t, (s.held t).isNone) ∧
      .deleted 0 5 ∈ s.returned ∧ ¬Shows s.page (.deleted 0 5) := by
  have hreach : Reached step free (opened oneRow : State (Fin 2)) _ :=
    .of_run (l := [.scanRead 0 ⟨3, 0, []⟩, .delete 0 5, .write 0]) .init rfl
  refine ⟨_, hreach, fun t => ?_, mem_cons_self, fun h => ?_⟩
  · fin_cases t <;> rfl
  · obtain ⟨t, ht, hon⟩ := h
    cases ht
    cases hon

end AxiomDb.Heap.PageWrites
