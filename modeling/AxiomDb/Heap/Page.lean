import AxiomDb.Core

/-!
# Slotted heap pages

A data page holds a slot array that grows up from the header and tuples that
grow down from the end of the page. A slot of the model is its entry together
with the tuple stored at its offset; a dead entry is `none`. The layout of the
page is part of the type: the slot array ends below the tuples, every live tuple
lies between `freeEnd` and the end of the page, and no two of them share a byte.
So the bytes at a live slot's offset are that slot's own.
-/

namespace AxiomDb.Heap

open Lib List Except Option

def PAGE_SIZE : Nat := 16384
def HEADER_SIZE : Nat := 64
def ROW_HEADER_SIZE : Nat := 24
def SLOT_ENTRY_SIZE : Nat := 4

abbrev TxnId := Nat

/-! ## Row headers -/

/-- `RowHeader` in `heap.rs`. -/
structure RowHeader where
  txnIdCreated : TxnId
  txnIdDeleted : TxnId
  rowVersion : Nat
  flags : Nat
  deriving DecidableEq, Repr

structure TransactionSnapshot where
  snapshotId : TxnId
  currentTxnId : TxnId
  activeIds : List TxnId
  deriving Repr

/-- `RowHeader::is_visible` in `heap.rs`. -/
def RowHeader.isVisible (h : RowHeader) (snap : TransactionSnapshot) : Bool :=
  let createdBySelf := snap.currentTxnId != 0 && h.txnIdCreated == snap.currentTxnId
  let createdCommitted :=
    decide (h.txnIdCreated < snap.snapshotId) && !snap.activeIds.contains h.txnIdCreated
  if !createdBySelf && !createdCommitted then false
  else if h.txnIdDeleted == 0 then true
  else if snap.currentTxnId != 0 && h.txnIdDeleted == snap.currentTxnId then false
  else decide (h.txnIdDeleted ≥ snap.snapshotId) || snap.activeIds.contains h.txnIdDeleted

/-! ## Slots -/

/-- Rounds up to a multiple of 8, the alignment of a `RowHeader`. -/
def align8 (n : Nat) : Nat := (n + 7) / 8 * 8

theorem le_align8 (n : Nat) : n ≤ align8 n := by rw [align8]; omega

/-- A live slot: its offset and the tuple stored there. -/
structure Slot where
  offset : Nat
  header : RowHeader
  data : Bytes
  deriving DecidableEq, Repr

namespace Slot

/-- The length in the slot entry: the row header and the row, without padding. -/
def length (t : Slot) : Nat := ROW_HEADER_SIZE + t.data.length

/-- Where the tuple's padded bytes end. -/
def stop (t : Slot) : Nat := t.offset + align8 t.length

theorem offset_lt_stop (t : Slot) : t.offset < t.stop := by
  have := le_align8 t.length
  simp only [stop, length, ROW_HEADER_SIZE] at *
  omega

end Slot

/-- Two slots that share no byte. -/
def Apart (a b : Option Slot) : Prop :=
  ∀ s ∈ a, ∀ t ∈ b, s.stop ≤ t.offset ∨ t.stop ≤ s.offset

theorem Apart.symm {a b : Option Slot} (h : Apart a b) : Apart b a :=
  fun t ht s hs => (h s hs t ht).symm

@[simp] theorem none_apart (a : Option Slot) : Apart none a := fun _ h => nomatch h

/-! ## Layout -/

/-- The loop of `slot_capacity`: `stop` is lowered to the start of another live
tuple that lies above `start`. -/
def lowerEnd (slotId start stop : Nat) (e : Option Slot × Nat) : Nat :=
  if e.2 = slotId then stop
  else match e.1 with
    | none => stop
    | some other => if other.offset > start ∧ other.offset < stop then other.offset else stop

/-- Where the room of the tuple at `start` ends: at the next live tuple above
it, or at the end of the page. -/
def slotEnd (slots : List (Option Slot)) (slotId start : Nat) : Nat :=
  slots.zipIdx.foldl (lowerEnd slotId start) PAGE_SIZE

/-- The slot array ends below the tuples, every live tuple lies between
`freeEnd` and the end of the page, and no two share a byte. -/
structure Layout (slots : List (Option Slot)) (freeEnd : Nat) : Prop where
  room : HEADER_SIZE + SLOT_ENTRY_SIZE * slots.length ≤ freeEnd
  within : freeEnd ≤ PAGE_SIZE
  bounds : ∀ t, some t ∈ slots → freeEnd ≤ t.offset ∧ t.stop ≤ PAGE_SIZE
  apart : slots.Pairwise Apart

theorem lowerEnd_spec (i start stop : Nat) (e : Option Slot × Nat) :
    lowerEnd i start stop e ≤ stop ∧
      (∀ t, e.1 = some t → e.2 ≠ i → start < t.offset → lowerEnd i start stop e ≤ t.offset) ∧
      (lowerEnd i start stop e = stop ∨
        ∃ t, e.1 = some t ∧ e.2 ≠ i ∧ start < t.offset ∧ lowerEnd i start stop e = t.offset) := by
  obtain ⟨entry, j⟩ := e
  simp only [lowerEnd]
  by_cases hj : j = i
  · simp [hj]
  cases entry with
  | none => simp [hj]
  | some t =>
    simp only [if_neg hj, some.injEq, forall_eq', exists_eq_left']
    split <;> omega

/-- The loop over a part of the slot array. -/
theorem lowerEnd_foldl (i start : Nat) (es : List (Option Slot × Nat)) (stop : Nat) :
    es.foldl (lowerEnd i start) stop ≤ stop ∧ (∀ t j, (some t, j) ∈ es → j ≠ i → start < t.offset →
        es.foldl (lowerEnd i start) stop ≤ t.offset) ∧
      (es.foldl (lowerEnd i start) stop = stop ∨ ∃ t j, (some t, j) ∈ es ∧ j ≠ i ∧
        start < t.offset ∧ es.foldl (lowerEnd i start) stop = t.offset) := by
  induction es generalizing stop with
  | nil => simp
  | cons e es ih =>
    obtain ⟨h1, h2, h3⟩ := ih (lowerEnd i start stop e)
    obtain ⟨s1, s2, s3⟩ := lowerEnd_spec i start stop e
    simp only [foldl_cons]
    refine ⟨h1.trans s1, fun t j hj hne ht => ?_, ?_⟩
    · rcases mem_cons.mp hj with rfl | hj
      · exact h1.trans (s2 t rfl hne ht)
      · exact h2 t j hj hne ht
    rcases h3 with h3 | ⟨t, j, hj, h⟩
    · rw [h3]
      rcases s3 with h | ⟨t, he, h⟩
      · exact .inl h
      · exact .inr ⟨t, e.2, by rw [← he]; exact .head _, h⟩
    · exact .inr ⟨t, j, .tail _ hj, h⟩

section slotEnd

variable {slots : List (Option Slot)} {i j start : Nat} {t : Slot}

theorem slotEnd_le_pageSize : slotEnd slots i start ≤ PAGE_SIZE :=
  (lowerEnd_foldl i start slots.zipIdx PAGE_SIZE).1

theorem slotEnd_le (hj : slots[j]? = some (some t)) (hne : j ≠ i) (ht : start < t.offset) :
    slotEnd slots i start ≤ t.offset :=
  (lowerEnd_foldl i _ slots.zipIdx PAGE_SIZE).2.1 t j (mem_zipIdx_iff_getElem?.mpr hj) hne ht

/-- The room of a tuple ends at the end of the page or where another starts. -/
theorem slotEnd_eq (slots : List (Option Slot)) (i start : Nat) :
    slotEnd slots i start = PAGE_SIZE ∨ ∃ t j, slots[j]? = some (some t) ∧ j ≠ i ∧
      start < t.offset ∧ slotEnd slots i start = t.offset := by
  refine (lowerEnd_foldl i start slots.zipIdx PAGE_SIZE).2.2.imp id ?_
  rintro ⟨t, j, hj, h⟩
  exact ⟨t, j, mem_zipIdx_iff_getElem?.mp hj, h⟩

end slotEnd

namespace Layout

variable {slots : List (Option Slot)} {freeEnd i : Nat} {t t' : Slot} {e : Option Slot}

theorem get_apart (h : Layout slots freeEnd) {j : Nat} {u : Slot} (hi : slots[i]? = some (some t))
    (hj : slots[j]? = some (some u)) (hne : j ≠ i) : t.stop ≤ u.offset ∨ u.stop ≤ t.offset := by
  have hp := pairwise_iff_getElem.mp h.apart
  obtain ⟨hi', hi⟩ := List.getElem?_eq_some_iff.mp hi
  obtain ⟨hj', hj⟩ := List.getElem?_eq_some_iff.mp hj
  rcases Nat.lt_or_gt_of_ne hne with hlt | hlt
  · exact (hp j i hj' hi' hlt u (by simp [hj]) t (by simp [hi])).symm
  · exact hp i j hi' hj' hlt t (by simp [hi]) u (by simp [hj])

/-- A tuple fits into its own room. -/
theorem stop_le (h : Layout slots freeEnd) (hi : slots[i]? = some (some t)) :
    t.stop ≤ slotEnd slots i t.offset := by
  rcases slotEnd_eq slots i t.offset with he | ⟨u, j, hj, hne, hlt, he⟩
  · rw [he]
    exact (h.bounds t (mem_of_getElem? hi)).2
  rw [he]
  have := u.offset_lt_stop
  have := h.get_apart hi hj hne
  omega

theorem pairwise_set (h : slots.Pairwise Apart)
    (he : ∀ j b, j ≠ i → slots[j]? = some b → Apart e b) : (slots.set i e).Pairwise Apart := by
  refine pairwise_iff_getElem.mpr fun j k hj hk hlt => ?_
  rw [length_set] at hj hk
  rw [getElem_set, getElem_set]
  split
  next hij =>
    rw [if_neg (by omega)]
    exact he k _ (by omega) (getElem?_eq_getElem hk)
  next hij =>
    split
    next hik => exact (he j _ (by omega) (getElem?_eq_getElem hj)).symm
    next hik => exact pairwise_iff_getElem.mp h j k hj hk hlt

theorem mem_set (h : some t ∈ slots.set i e) : some t = e ∨ some t ∈ slots := by
  rcases mem_or_eq_of_mem_set h with h | h
  · exact .inr h
  · exact .inl h

/-- A tuple is rewritten within its room. -/
theorem replace (h : Layout slots freeEnd) (hi : slots[i]? = some (some t))
    (ho : t'.offset = t.offset) (hs : t'.stop ≤ slotEnd slots i t.offset) :
    Layout (slots.set i (some t')) freeEnd := by
  refine ⟨by simpa using h.room, h.within, fun u hu => ?_, pairwise_set h.apart ?_⟩
  · rcases mem_set hu with hu | hu
    · obtain rfl := some.inj hu
      exact ⟨ho ▸ (h.bounds t (mem_of_getElem? hi)).1, hs.trans slotEnd_le_pageSize⟩
    · exact h.bounds u hu
  rintro j b hne hj _ ⟨⟩ u ⟨⟩
  rcases h.get_apart hi hj hne with hlt | hlt
  · have := t.offset_lt_stop
    exact .inl (hs.trans (slotEnd_le hj hne (by omega)))
  · exact .inr (ho ▸ hlt)

theorem kill (h : Layout slots freeEnd) (i : Nat) : Layout (slots.set i none) freeEnd := by
  refine ⟨by simpa using h.room, h.within, fun u hu => ?_, pairwise_set h.apart fun _ b _ _ => none_apart b⟩
  exact h.bounds u ((mem_set hu).resolve_left (by simp))

/-- A tuple is added below the others. -/
theorem append (h : Layout slots freeEnd) (ht : t.stop = freeEnd)
    (hroom : HEADER_SIZE + SLOT_ENTRY_SIZE * (slots.length + 1) ≤ t.offset) :
    Layout (slots ++ [some t]) t.offset := by
  have hlt := t.offset_lt_stop
  refine ⟨by simpa using hroom, by have := h.within; omega, fun u hu => ?_,
    pairwise_append.mpr ⟨h.apart, pairwise_singleton .., ?_⟩⟩
  · rcases mem_append.mp hu with hu | hu
    · have := h.bounds u hu
      omega
    · obtain rfl : u = t := by simpa using hu
      exact ⟨le_rfl, ht ▸ h.within⟩
  · rintro a ha _ (_ | ⟨_, ⟨⟩⟩) u hu _ ⟨⟩
    right
    rw [ht]
    exact (h.bounds u (hu ▸ ha)).1

end Layout

/-! ## Pages -/

/-- Values of the tracked column. -/
structure I64 where
  val : Int
  isI64 : -2 ^ 63 ≤ val ∧ val ≤ 2 ^ 63 - 1
  deriving DecidableEq

instance : LinearOrder I64 :=
  @LinearOrder.lift' I64 Int Int.instLinearOrder I64.val fun _ _ => (I64.mk.injEq ..).mpr

/-- The least and greatest value of one column, kept in the page header. -/
structure ZoneMap where
  colIdx : Fin 256
  minVal : I64
  maxVal : I64
  deriving DecidableEq

/-- `Page` and `Page::is_all_visible` in `page.rs`. -/
structure HeapPage where
  pageId : PageId
  allVisible : Bool
  nextPage : PageId
  zoneMap : Option ZoneMap
  slots : List (Option Slot)
  freeEnd : Nat
  layout : Layout slots freeEnd
  deriving DecidableEq

/-- `RowHeader || row bytes`. -/
abbrev TupleImage := RowHeader × Bytes

def Slot.image (t : Slot) : TupleImage := (t.header, t.data)

namespace HeapPage

/-- `Page::new(PageType::Data, page_id)`. -/
def new (pageId : PageId) : HeapPage where
  pageId := pageId
  allVisible := false
  nextPage := 0
  zoneMap := none
  slots := []
  freeEnd := PAGE_SIZE
  layout := ⟨by decide, le_rfl, by simp, .nil⟩

variable (page : HeapPage)

/-- `num_slots` in `heap.rs`. -/
def numSlots : Nat := page.slots.length

def chainNextPage : PageId := page.nextPage

def chainSetNextPage (next : PageId) : HeapPage := { page with nextPage := next }

/-- `Page::set_all_visible` in `page.rs`. -/
def setAllVisible : HeapPage := { page with allVisible := true }

/-- `Page::clear_all_visible` in `page.rs`. -/
def clearAllVisible : HeapPage := { page with allVisible := false }

def freeStart : Nat := HEADER_SIZE + SLOT_ENTRY_SIZE * page.slots.length

/-- `free_space` in `heap.rs`. -/
def freeSpace : Nat := page.freeEnd - page.freeStart

/-- The bytes a row of `len` bytes takes: its slot entry and its padded tuple. -/
def needed (len : Nat) : Nat := SLOT_ENTRY_SIZE + align8 (ROW_HEADER_SIZE + len)

/-- The slot of a new row: the padded tuple just below the others. -/
def newSlot (data : Bytes) (txnId : TxnId) : Slot :=
  ⟨page.freeEnd - align8 (ROW_HEADER_SIZE + data.length), ⟨txnId, 0, 0, 0⟩, data⟩

theorem layout_newSlot {data : Bytes} (txnId : TxnId) (h : ¬ page.freeSpace < needed data.length) :
    Layout (page.slots ++ [some (page.newSlot data txnId)]) (page.newSlot data txnId).offset := by
  simp only [freeSpace, freeStart, needed] at h
  have hroom := page.layout.room
  refine page.layout.append ?_ ?_ <;>
    simp only [newSlot, Slot.stop, Slot.length, SLOT_ENTRY_SIZE] at * <;> omega

/-- `insert_tuple` in `heap.rs`. -/
def insertTuple (data : Bytes) (txnId : TxnId) : Except DbError (Nat × HeapPage) :=
  if h : page.freeSpace < needed data.length then
    .error (.heapPageFull page.pageId (needed data.length) page.freeSpace)
  else
    .ok (page.numSlots,
      { page with
        slots := page.slots ++ [some (page.newSlot data txnId)]
        freeEnd := (page.newSlot data txnId).offset
        layout := page.layout_newSlot txnId h })

section

variable (slotId : Nat)

/-- The live slot that an operation works on. -/
def liveSlot : Except DbError Slot :=
  match page.slots[slotId]? with
  | none => .error (.invalidSlot page.pageId slotId page.numSlots)
  | some none => .error (.alreadyDeleted page.pageId slotId)
  | some (some t) => .ok t

/-- `read_tuple` in `heap.rs`. -/
def readTuple : Except DbError (Option TupleImage) :=
  match page.slots[slotId]? with
  | none => .error (.invalidSlot page.pageId slotId page.numSlots)
  | some entry => .ok (entry.map Slot.image)

theorem layout_modify {slots : List (Option Slot)} {freeEnd : Nat} (h : Layout slots freeEnd)
    (i : Nat) (f : RowHeader → RowHeader) :
    Layout (slots.modify i (Option.map fun t => { t with header := f t.header })) freeEnd := by
  cases hi : slots[i]? with
  | none => rwa [modify_eq_self (getElem?_eq_none_iff.mp hi)]
  | some e =>
    rw [modify_eq_set, hi]
    cases e with
    | none => exact h.kill i
    | some t => exact h.replace hi rfl (show t.stop ≤ _ from h.stop_le hi)

/-- Writes into the row header of a slot. -/
def setHeader (f : RowHeader → RowHeader) : HeapPage :=
  { page with
    slots := page.slots.modify slotId (Option.map fun t => { t with header := f t.header })
    layout := layout_modify page.layout slotId f }

/-- `mark_deleted` in `heap.rs`. -/
def markDeleted (txnId : TxnId) : Except DbError HeapPage := do
  let page := page.clearAllVisible
  let _ ← page.liveSlot slotId
  pure (page.setHeader slotId fun h => { h with txnIdDeleted := txnId })

/-- `delete_tuple` in `heap.rs`. -/
def deleteTuple (txnId : TxnId) : Except DbError HeapPage :=
  page.markDeleted slotId txnId

/-- Puts `image` where the tuple of a live slot is, if there is room for it. -/
def overwrite (t : Slot) (h : page.slots[slotId]? = some (some t)) (image : TupleImage)
    (hfit : align8 (ROW_HEADER_SIZE + image.2.length) ≤ slotEnd page.slots slotId t.offset - t.offset) :
    HeapPage :=
  { page with
    slots := page.slots.set slotId (some ⟨t.offset, image.1, image.2⟩)
    layout := page.layout.replace h rfl (by
      have := page.layout.stop_le h
      have := t.offset_lt_stop
      simp only [Slot.stop, Slot.length] at *
      omega) }

/-- The row is rewritten in its slot where it fits; the old tuple is returned. -/
def tryRewriteTupleSameSlot (newData : Bytes) (txnId : TxnId) :
    Except DbError (Option TupleImage × HeapPage) :=
  let page := page.clearAllVisible
  match h : page.slots[slotId]? with
  | none => .error (.invalidSlot page.pageId slotId page.numSlots)
  | some none => .error (.alreadyDeleted page.pageId slotId)
  | some (some t) =>
    if hfit : align8 (ROW_HEADER_SIZE + newData.length) >
        slotEnd page.slots slotId t.offset - t.offset then .ok (none, page)
    else
      let newHeader : RowHeader := ⟨txnId, 0, min (t.header.rowVersion + 1) (2 ^ 32 - 1), t.header.flags⟩
      .ok (some t.image, page.overwrite slotId t h (newHeader, newData) (not_lt.mp hfit))

end

/-- The slots and rows that a snapshot sees, in slot order. -/
def scanVisible (snap : TransactionSnapshot) : List (Nat × Bytes) :=
  page.slots.zipIdx.filterMap fun (entry, slotId) => do
    let t ← entry
    if t.header.isVisible snap then some (slotId, t.data) else none

/-! ## What the operations do -/

variable {page} {page' : HeapPage} {data : Bytes} {txnId : TxnId} {slotId : Nat}

/-- A row was added in the next slot. -/
structure Inserted (page : HeapPage) (data : Bytes) (txnId : TxnId) (slotId : Nat)
    (page' : HeapPage) : Prop where
  slotId : slotId = page.slots.length
  slots : ∃ offset, page'.slots = page.slots ++ [some ⟨offset, ⟨txnId, 0, 0, 0⟩, data⟩]
  pageId : page'.pageId = page.pageId
  nextPage : page'.nextPage = page.nextPage
  zoneMap : page'.zoneMap = page.zoneMap
  allVisible : page'.allVisible = page.allVisible

theorem insertTuple_ok (h : page.insertTuple data txnId = .ok (slotId, page')) :
    Inserted page data txnId slotId page' := by
  rw [insertTuple] at h
  split at h
  · simp at h
  · obtain ⟨rfl, rfl⟩ := Prod.mk.inj (ok.inj h)
    exact ⟨rfl, ⟨_, rfl⟩, rfl, rfl, rfl, rfl⟩

theorem insertTuple_error {e : DbError} (h : page.insertTuple data txnId = .error e) :
    e = .heapPageFull page.pageId (needed data.length) page.freeSpace := by
  rw [insertTuple] at h
  split at h
  · exact (error.inj h).symm
  · simp at h

/-- The tuple of a live slot was replaced. -/
structure Rewritten (page : HeapPage) (slotId : Nat) (t : Slot) (image : TupleImage)
    (page' : HeapPage) : Prop where
  live : page.slots[slotId]? = some (some t)
  slots : page'.slots = page.slots.set slotId (some ⟨t.offset, image.1, image.2⟩)
  pageId : page'.pageId = page.pageId
  nextPage : page'.nextPage = page.nextPage
  zoneMap : page'.zoneMap = page.zoneMap

theorem tryRewrite_some {old : TupleImage}
    (h : page.tryRewriteTupleSameSlot slotId data txnId = .ok (some old, page')) :
    ∃ t, old = t.image ∧ Rewritten page slotId t
      (⟨txnId, 0, min (t.header.rowVersion + 1) (2 ^ 32 - 1), t.header.flags⟩, data) page' := by
  simp only [tryRewriteTupleSameSlot] at h
  split at h
  · simp at h
  · simp at h
  next t ht =>
    split at h
    · simp at h
    · obtain ⟨hold, rfl⟩ := Prod.mk.inj (ok.inj h)
      exact ⟨t, (some.inj hold).symm, ht, rfl, rfl, rfl, rfl⟩

theorem tryRewrite_none (h : page.tryRewriteTupleSameSlot slotId data txnId = .ok (none, page')) :
    page' = page.clearAllVisible := by
  simp only [tryRewriteTupleSameSlot] at h
  split at h
  · simp at h
  · simp at h
  next t ht =>
    split at h
    · exact (Prod.mk.inj (ok.inj h)).2.symm
    · simp at h

theorem getElem?_setHeader (page : HeapPage) (i : Nat) (f : RowHeader → RowHeader) (j : Nat) :
    (page.setHeader i f).slots[j]? = page.slots[j]?.map fun entry =>
      if i = j then entry.map fun t => { t with header := f t.header } else entry :=
  getElem?_modify ..

theorem mem_setHeader {i : Nat} {f : RowHeader → RowHeader} {t : Slot}
    (h : some t ∈ (page.setHeader i f).slots) : ∃ u, some u ∈ page.slots ∧ u.data = t.data := by
  obtain ⟨j, hj⟩ := mem_iff_getElem?.mp h
  rw [getElem?_setHeader, map_eq_some_iff] at hj
  obtain ⟨entry, hentry, ht⟩ := hj
  split at ht
  · obtain ⟨u, rfl, rfl⟩ := map_eq_some_iff.mp ht
    exact ⟨u, mem_of_getElem? hentry, rfl⟩
  · subst ht
    exact ⟨t, mem_of_getElem? hentry, rfl⟩

theorem markDeleted_ok (h : page.markDeleted slotId txnId = .ok page') :
    (∃ t, page.slots[slotId]? = some (some t)) ∧
      page' = page.clearAllVisible.setHeader slotId fun h => { h with txnIdDeleted := txnId } := by
  simp only [markDeleted, liveSlot, clearAllVisible, bind, Except.bind] at h
  split at h
  · cases h
  next t ht =>
    split at ht
    · cases ht
    · cases ht
    next u hu => exact ⟨⟨u, hu⟩, (ok.inj h).symm⟩

end HeapPage

end AxiomDb.Heap
