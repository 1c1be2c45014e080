import AxiomDb.Lib.ByteMemory
import AxiomDb.Lib.Runs
import AxiomDb.Heap.Page

/-!
# The bytes of a heap page

The slotted page as bytes: the fields of the page header, the slot entries behind
it and the tuples at the end of the page, each read from and written to its
address. `slots` reads the slots of the page off its bytes. An operation on one
slot writes the entry of the slot and the bytes from its tuple up to the next live
tuple, nothing else below the page header (`OnlySlot`), so the other slots are read
as before (`Valid.slots_eq`).

The memory has no end; that all tuples lie inside of the page is part of `Valid`.
-/

namespace AxiomDb.Heap.PageBytes

open Lib List ByteMem Option PageBytes

/-! ## Fields -/

/-- `SlotEntry` in `heap.rs`. -/
structure SlotEntry where
  offset : Nat
  length : Nat
  deriving DecidableEq

/-- `SlotEntry::is_dead` in `heap.rs`. -/
def SlotEntry.isDead (e : SlotEntry) : Bool := e.offset == 0 && e.length == 0

section

variable (page : ByteMem)

/-- `header().item_count`. -/
def numSlots : Nat := page.readLe 10 2

/-- `header().page_id`. -/
def pageId : PageId := page.readLe 16 8

/-- `header().free_start`. -/
def freeStart : Nat := page.readLe 32 2

/-- `header().free_end`. -/
def freeEnd : Nat := page.readLe 34 2

/-- `slot_abs_offset` in `heap.rs`. -/
def slotAbsOffset (i : Nat) : Nat := HEADER_SIZE + i * SLOT_ENTRY_SIZE

/-- `read_slot` in `heap.rs`. -/
def readSlot (i : Nat) : SlotEntry :=
  ⟨page.readLe (slotAbsOffset i) 2, page.readLe (slotAbsOffset i + 2) 2⟩

/-- `write_slot` in `heap.rs`. -/
def writeSlot (i : Nat) (entry : SlotEntry) : ByteMem :=
  page.writeBytes (slotAbsOffset i) (leBytes 2 entry.offset ++ leBytes 2 entry.length)

/-- `free_space` in `heap.rs`. -/
def freeSpace : Nat := freeEnd page - freeStart page

/-- `bytemuck::bytes_of` a `RowHeader`. -/
def headerBytes (h : RowHeader) : Bytes :=
  leBytes 8 h.txnIdCreated ++ (leBytes 8 h.txnIdDeleted ++ (leBytes 4 h.rowVersion ++ leBytes 4 h.flags))

/-- `bytemuck::from_bytes`. -/
def headerOf (bs : Bytes) : RowHeader :=
  ⟨ofLeBytes (bs.take 8), ofLeBytes ((bs.drop 8).take 8), ofLeBytes ((bs.drop 16).take 4),
    ofLeBytes ((bs.drop 20).take 4)⟩

/-- The all-visible flag is bit 0 of the flags. -/
def clearAllVisible : ByteMem := page.writeLe 9 1 (page.readLe 9 1 / 2 * 2)

end

section Operations

/-! ## Operations

What fails may have written the page header before, so the page is returned with
the error. -/

-- the CRC of the body; only the header field that stores it is written
variable (crc32c : ByteMem → Nat)

/-- `Page::update_checksum` in `page.rs`. -/
def updateChecksum (page : ByteMem) : ByteMem := page.writeLe 12 4 (crc32c page)

/-- `Page::new(PageType::Data, page_id)`, with the magic number and the page type as numbers. -/
def new (magic pageType pageId : Nat) : ByteMem :=
  let page : ByteMem := fun _ => 0
  let page := page.writeLe 0 8 magic
  let page := page.writeLe 8 1 pageType
  let page := page.writeLe 9 1 0
  let page := page.writeLe 10 2 0
  let page := page.writeLe 16 8 pageId
  let page := page.writeLe 24 8 0
  let page := page.writeLe 32 2 HEADER_SIZE
  let page := page.writeLe 34 2 PAGE_SIZE
  let page := page.fill 36 28 0
  updateChecksum crc32c page

/-- `insert_tuple` in `heap.rs`. -/
def insertTuple (page : ByteMem) (data : Bytes) (txnId : TxnId) : Except DbError Nat × ByteMem :=
  let tupleLenActual := ROW_HEADER_SIZE + data.length
  let tupleLenAlloc := align8 tupleLenActual
  let need := SLOT_ENTRY_SIZE + tupleLenAlloc
  let avail := freeSpace page
  if avail < need then (.error (.heapPageFull (pageId page) need avail), page)
  else
    let newFreeEnd := freeEnd page - tupleLenAlloc
    let slotId := numSlots page
    let page := page.writeBytes newFreeEnd (headerBytes ⟨txnId, 0, 0, 0⟩)
    let page := page.writeBytes (newFreeEnd + ROW_HEADER_SIZE) data
    let page := writeSlot page slotId ⟨newFreeEnd, tupleLenActual⟩
    let page := page.writeLe 10 2 (numSlots page + 1)
    let page := page.writeLe 32 2 (freeStart page + SLOT_ENTRY_SIZE)
    let page := page.writeLe 34 2 newFreeEnd
    (.ok slotId, updateChecksum crc32c page)

section

variable (page : ByteMem) (slotId : Nat)

/-- The entry of the live slot that an operation works on. -/
def liveEntry : Except DbError SlotEntry :=
  if slotId ≥ numSlots page then .error (.invalidSlot (pageId page) slotId (numSlots page))
  else if (readSlot page slotId).isDead then .error (.alreadyDeleted (pageId page) slotId)
  else .ok (readSlot page slotId)

/-- `None` for a dead slot. -/
def readTuple : Except DbError (Option TupleImage) :=
  if slotId ≥ numSlots page then .error (.invalidSlot (pageId page) slotId (numSlots page))
  else
    let entry := readSlot page slotId
    if entry.isDead then .ok none
    else
      let bytes := page.readBytes entry.offset entry.length
      .ok (some (headerOf (bytes.take ROW_HEADER_SIZE), bytes.drop ROW_HEADER_SIZE))

/-- `RowHeader || row bytes`, `None` for a dead slot. -/
def readTupleImage : Except DbError (Option Bytes) :=
  if slotId ≥ numSlots page then .error (.invalidSlot (pageId page) slotId (numSlots page))
  else
    let entry := readSlot page slotId
    if entry.isDead then .ok none else .ok (some (page.readBytes entry.offset entry.length))

/-- The loop body of `slot_capacity`. -/
def lowerEndAt (page : ByteMem) (slotId start stop otherSlot : Nat) : Nat :=
  if otherSlot = slotId then stop
  else
    let other := readSlot page otherSlot
    if other.isDead then stop
    else if other.offset > start ∧ other.offset < stop then other.offset else stop

/-- The capacity of a live slot whose tuple begins at `start`. -/
def capacityFrom (page : ByteMem) (slotId start : Nat) : Nat :=
  (List.range (numSlots page)).foldl (lowerEndAt page slotId start) PAGE_SIZE - start

/-- `delete_tuple` in `heap.rs`. -/
def deleteTuple (txnId : TxnId) : Except DbError Unit × ByteMem :=
  let page := clearAllVisible page
  match liveEntry page slotId with
  | .error e => (.error e, page)
  | .ok entry => (.ok (), updateChecksum crc32c (page.writeLe (entry.offset + 8) 8 txnId))

/-- The tuple is rewritten in its slot; the image it had is returned, and `None` where the new tuple
does not fit. -/
def rewriteTupleSameSlot (newData : Bytes) (txnId : TxnId) :
    Except DbError (Option Bytes) × ByteMem :=
  let page := clearAllVisible page
  match liveEntry page slotId with
  | .error e => (.error e, page)
  | .ok entry =>
    let tupleLenActual := ROW_HEADER_SIZE + newData.length
    let tupleLenAlloc := align8 tupleLenActual
    let capacity := capacityFrom page slotId entry.offset
    if tupleLenAlloc > capacity then (.ok none, page)
    else
      let off := entry.offset
      let oldImage := page.readBytes off entry.length
      let oldHeader := headerOf (oldImage.take ROW_HEADER_SIZE)
      let newHeader : RowHeader :=
        ⟨txnId, 0, min (oldHeader.rowVersion + 1) (2 ^ 32 - 1), oldHeader.flags⟩
      let page := page.writeBytes off (headerBytes newHeader)
      let page := page.writeBytes (off + ROW_HEADER_SIZE) newData
      let page := page.fill (off + tupleLenActual) (capacity - tupleLenActual) 0
      let page := writeSlot page slotId ⟨entry.offset, tupleLenActual⟩
      (.ok (some oldImage), updateChecksum crc32c page)

/-- `restore_tuple_image` in `heap.rs`. -/
def restoreTupleImage (tupleImage : Bytes) : Except DbError Unit × ByteMem :=
  match liveEntry page slotId with
  | .error e => (.error e, page)
  | .ok entry =>
    let capacity := capacityFrom page slotId entry.offset
    if align8 tupleImage.length > capacity then
      (.error (.imageDoesNotFit (pageId page) slotId tupleImage.length capacity), page)
    else
      let off := entry.offset
      let page := page.writeBytes off tupleImage
      let page := page.fill (off + tupleImage.length) (capacity - tupleImage.length) 0
      let page := writeSlot page slotId ⟨entry.offset, tupleImage.length⟩
      (.ok (), updateChecksum crc32c page)

/-- `clear_deletion` in `heap.rs`. -/
def clearDeletion : Except DbError Unit × ByteMem :=
  match liveEntry page slotId with
  | .error e => (.error e, page)
  | .ok entry =>
    if page.readLe (entry.offset + 8) 8 = 0 then (.ok (), page)
    else (.ok (), updateChecksum crc32c (page.writeLe (entry.offset + 8) 8 0))

/-- `mark_slot_dead` in `heap.rs`. -/
def markSlotDead : Except DbError Unit × ByteMem :=
  if slotId ≥ numSlots page then
    (.error (.invalidSlot (pageId page) slotId (numSlots page)), page)
  else (.ok (), updateChecksum crc32c (writeSlot page slotId ⟨0, 0⟩))

end

end Operations

/-! ## The slots of a page -/

/-- What slot `i` holds. -/
def slotAt (page : ByteMem) (i : Nat) : Option Slot :=
  let entry := readSlot page i
  if entry.isDead then none
  else
    let bytes := page.readBytes entry.offset entry.length
    some ⟨entry.offset, headerOf (bytes.take ROW_HEADER_SIZE), bytes.drop ROW_HEADER_SIZE⟩

def slots (page : ByteMem) : List (Option Slot) := (List.range (numSlots page)).map (slotAt page)

/-- The slots are laid out apart from each other, at multiples of 8. -/
structure Valid (page : ByteMem) : Prop where
  freeStart_eq : freeStart page = HEADER_SIZE + SLOT_ENTRY_SIZE * numSlots page
  layout : Layout (slots page) (freeEnd page)
  aligned_freeEnd : 8 ∣ freeEnd page
  aligned : ∀ t, some t ∈ slots page → 8 ∣ t.offset
  header : ∀ i < numSlots page, (readSlot page i).isDead = false →
    ROW_HEADER_SIZE ≤ (readSlot page i).length

section Slots

variable {page page' : ByteMem} {i j s lo hi : Nat} {t : Slot} {image : Bytes}

@[simp] theorem length_slots (page : ByteMem) : (slots page).length = numSlots page := by simp [slots]

theorem slots_getElem? (hi : i < numSlots page) : (slots page)[i]? = some (slotAt page i) := by
  simp [slots, hi]

theorem lt_of_slots (h : (slots page)[i]? = some (some t)) : i < numSlots page := by
  simpa using (List.getElem?_eq_some_iff.mp h).1

/-- A live slot, with its entry and its bytes. -/
theorem slotAt_eq_some (h : slotAt page i = some t) :
    (readSlot page i).isDead = false ∧ t.offset = (readSlot page i).offset ∧
      t.data.length = (readSlot page i).length - ROW_HEADER_SIZE := by
  rw [slotAt] at h
  cases hdead : (readSlot page i).isDead with
  | true =>
    rw [if_pos hdead] at h
    cases h
  | false =>
    rw [if_neg (by rw [hdead]; exact Bool.false_ne_true)] at h
    obtain rfl := some.inj h
    exact ⟨rfl, rfl, by simp⟩

theorem slotAt_of_live (h : (readSlot page i).isDead = false) : slotAt page i =
    some ⟨(readSlot page i).offset,
      headerOf ((page.readBytes (readSlot page i).offset (readSlot page i).length).take ROW_HEADER_SIZE),
      (page.readBytes (readSlot page i).offset (readSlot page i).length).drop ROW_HEADER_SIZE⟩ :=
  if_neg (by rw [h]; exact Bool.false_ne_true)

theorem slotAt_of_dead (h : (readSlot page i).isDead) : slotAt page i = none := if_pos h

theorem readTuple_eq (hi : i < numSlots page) :
    readTuple page i = .ok ((slotAt page i).map Slot.image) := by
  rw [readTuple, if_neg (by omega), slotAt]
  simp only
  split <;> rfl

namespace Valid

/-- The tuple of a live slot begins at the offset and has the length of the entry. -/
theorem length_eq (h : Valid page) (ht : (slots page)[i]? = some (some t)) :
    t.offset = (readSlot page i).offset ∧ t.length = (readSlot page i).length := by
  have hlt := lt_of_slots ht
  rw [slots_getElem? hlt, some.injEq] at ht
  obtain ⟨hlive, hoff, hlen⟩ := slotAt_eq_some ht
  have := h.header i hlt hlive
  exact ⟨hoff, by rw [Slot.length, hlen]; omega⟩

theorem room (h : Valid page) : HEADER_SIZE + SLOT_ENTRY_SIZE * numSlots page ≤ freeEnd page := by
  have := h.layout.room
  rwa [length_slots] at this

end Valid

/-- The loop of `slot_capacity` finds the end of the slot's room. -/
theorem capacityFrom_eq (page : ByteMem) (s start : Nat) :
    capacityFrom page s start = slotEnd (slots page) s start - start := by
  have hzip : (slots page).zipIdx =
      (range (numSlots page)).map fun i => (slotAt page i, i) := by
    refine ext_getElem (by simp) fun i hi hi' => ?_
    simp [slots]
  rw [capacityFrom, slotEnd, hzip, foldl_map]
  have hstep (stop i : Nat) : lowerEnd s start stop (slotAt page i, i) =
      lowerEndAt page s start stop i := by
    rw [lowerEnd, lowerEndAt]
    by_cases his : i = s
    · rw [if_pos his, if_pos his]
    rw [if_neg his, if_neg his]
    cases hdead : (readSlot page i).isDead with
    | true => simp [slotAt_of_dead hdead, hdead]
    | false => simp [slotAt_of_live hdead, hdead]
  simp only [hstep]

/-! ## Writes to one slot -/

/-- Of the header fields that the slots depend on, none has changed, and behind the header only the
entry of slot `s` and the bytes from `lo` to `hi`. -/
structure OnlySlot (page page' : ByteMem) (s lo hi : Nat) : Prop where
  count : ByteMem.Same page page' 10 2
  id : ByteMem.Same page page' 16 8
  bounds : ByteMem.Same page page' 32 4
  body : ∀ i, HEADER_SIZE ≤ i → (i < slotAbsOffset s ∨ slotAbsOffset s + SLOT_ENTRY_SIZE ≤ i) →
    (i < lo ∨ hi ≤ i) → page' i = page i

namespace OnlySlot

section

variable (h : OnlySlot page page' s lo hi)
include h

theorem numSlots : numSlots page' = numSlots page := h.count.readLe

theorem freeStart : freeStart page' = freeStart page :=
  (h.bounds.mono (b := 32) (k := 2) (by decide) (by decide)).readLe

theorem freeEnd : freeEnd page' = freeEnd page :=
  (h.bounds.mono (b := 34) (k := 2) (by decide) (by decide)).readLe

theorem readSlot (hjs : j ≠ s) (hlo : slotAbsOffset (j + 1) ≤ lo) :
    readSlot page' j = readSlot page j := by
  have hsame : Same page page' (slotAbsOffset j) 4 := fun i hi hlt => by
    simp only [slotAbsOffset, SLOT_ENTRY_SIZE, HEADER_SIZE] at *
    refine h.body i (by simp only [HEADER_SIZE]; omega) ?_ (.inl (by omega))
    simp only [slotAbsOffset, SLOT_ENTRY_SIZE, HEADER_SIZE]
    omega
  rw [PageBytes.readSlot, PageBytes.readSlot, (hsame.mono le_rfl (by omega)).readLe,
    (hsame.mono (by omega) (by omega)).readLe]

end

end OnlySlot

theorem slotAt_congr (hentry : readSlot page' i = readSlot page i)
    (hbytes : (readSlot page i).isDead = false →
      Same page page' (readSlot page i).offset (readSlot page i).length) :
    slotAt page' i = slotAt page i := by
  cases hdead : (readSlot page i).isDead with
  | true => rw [slotAt_of_dead hdead, slotAt_of_dead (by rw [hentry, hdead])]
  | false =>
    rw [slotAt_of_live hdead, slotAt_of_live (by rw [hentry, hdead]), hentry,
      (hbytes hdead).readBytes]

theorem Valid.entries_below (h : Valid page) (hj : j < numSlots page) :
    slotAbsOffset (j + 1) ≤ freeEnd page := by
  have := h.room
  simp only [slotAbsOffset, SLOT_ENTRY_SIZE, HEADER_SIZE] at *
  omega

/-- Where only the room of slot `s` is written, the other slots are as they were. -/
theorem Valid.slotAt_eq (h : Valid page) (ht : (slots page)[s]? = some (some t))
    (hw : OnlySlot page page' s t.offset hi) (hhi : hi ≤ slotEnd (slots page) s t.offset)
    (hj : j < numSlots page) (hjs : j ≠ s) : slotAt page' j = slotAt page j := by
  have hbelow := h.entries_below hj
  have hoff := (h.layout.bounds t (mem_of_getElem? ht)).1
  refine slotAt_congr (hw.readSlot hjs (by omega)) fun hlive => ?_
  obtain ⟨u, hu⟩ : ∃ u, (slots page)[j]? = some (some u) :=
    ⟨_, by rw [slots_getElem? hj, slotAt_of_live hlive]⟩
  obtain ⟨huoff, hulen⟩ := h.length_eq hu
  have hubound := h.layout.bounds u (mem_of_getElem? hu)
  have hupad := le_align8 u.length
  intro i hi hlt
  have hroom := h.room
  rw [← huoff] at hi
  rw [← huoff, ← hulen] at hlt
  refine hw.body i (by omega) (.inr ?_) ?_
  · have hs := h.entries_below (lt_of_slots ht)
    simp only [slotAbsOffset, SLOT_ENTRY_SIZE, HEADER_SIZE] at *
    omega
  -- a tuple above is above the room of the slot, one below ends before it
  rcases h.layout.get_apart ht hu hjs with habove | hunder
  · have hpos := t.offset_lt_stop
    have : slotEnd (slots page) s t.offset ≤ u.offset := slotEnd_le hu hjs (by omega)
    exact .inr (by omega)
  · rw [Slot.stop] at hunder
    exact .inl (by omega)

theorem Valid.slots_eq (h : Valid page) (ht : (slots page)[s]? = some (some t))
    (hw : OnlySlot page page' s t.offset hi) (hhi : hi ≤ slotEnd (slots page) s t.offset) :
    slots page' = (slots page).set s (slotAt page' s) := by
  refine ext_getElem? fun j => ?_
  by_cases hj : j < numSlots page
  · rw [slots_getElem? (by rw [hw.numSlots]; exact hj), getElem?_set]
    by_cases hjs : s = j
    · subst hjs
      rw [if_pos rfl, if_pos (by simpa using hj)]
    · rw [if_neg hjs, slots_getElem? hj, h.slotAt_eq ht hw hhi hj (Ne.symm hjs)]
  · rw [getElem?_eq_none (by simp [hw.numSlots]; omega), getElem?_eq_none (by simp; omega)]

/-! ## Writes to the page header -/

/-- Nothing has changed but header fields that the slots do not depend on. -/
structure HeaderOnly (page page' : ByteMem) : Prop where
  count : ByteMem.Same page page' 10 2
  rest : ∀ i, 16 ≤ i → page' i = page i

namespace HeaderOnly

theorem same (h : HeaderOnly page page') {a n : Nat} (ha : 16 ≤ a) : Same page page' a n :=
  fun i hi _ => h.rest i (by omega)

variable (h : HeaderOnly page page')

include h

theorem numSlots_eq : numSlots page' = numSlots page := h.count.readLe

theorem freeStart_eq : freeStart page' = freeStart page := (h.same (by decide)).readLe

theorem freeEnd_eq : freeEnd page' = freeEnd page := (h.same (by decide)).readLe

theorem readBytes_eq {a n : Nat} (ha : HEADER_SIZE ≤ a) : page'.readBytes a n = page.readBytes a n :=
  (h.same (le_trans (by decide) ha)).readBytes

theorem readSlot_eq (i : Nat) : readSlot page' i = readSlot page i := by
  have habove : 16 ≤ slotAbsOffset i := by
    rw [slotAbsOffset, HEADER_SIZE]
    omega
  rw [readSlot, readSlot, (h.same habove).readLe, (h.same (by omega)).readLe]

theorem slotAt_eq (hpage : Valid page) (hi : i < numSlots page) : slotAt page' i = slotAt page i := by
  refine slotAt_congr (h.readSlot_eq i) fun hlive => h.same ?_
  have hu := slots_getElem? hi
  rw [slotAt_of_live hlive] at hu
  have hoff := (hpage.layout.bounds _ (mem_of_getElem? hu)).1
  have hroom := hpage.room
  simp only [HEADER_SIZE] at *
  omega

theorem slots_eq (hpage : Valid page) : slots page' = slots page := by
  rw [slots, slots, h.numSlots_eq]
  exact map_congr_left fun i hi => h.slotAt_eq hpage (mem_range.mp hi)

theorem valid (hpage : Valid page) : Valid page' where
  freeStart_eq := by rw [h.freeStart_eq, h.numSlots_eq, hpage.freeStart_eq]
  layout := by
    rw [h.slots_eq hpage, h.freeEnd_eq]
    exact hpage.layout
  aligned_freeEnd := h.freeEnd_eq ▸ hpage.aligned_freeEnd
  aligned := by
    rw [h.slots_eq hpage]
    exact hpage.aligned
  header i hi hlive := by
    rw [h.readSlot_eq] at hlive ⊢
    exact hpage.header i (h.numSlots_eq ▸ hi) hlive

end HeaderOnly

theorem headerOnly_clearAllVisible (page : ByteMem) : HeaderOnly page (clearAllVisible page) where
  count := same_writeLe (by decide)
  rest i hi := writeBytes_apply_of_apart (.inr (by rw [length_leBytes]; omega))

theorem headerOnly_updateChecksum (crc32c : ByteMem → Nat) (page : ByteMem) :
    HeaderOnly page (updateChecksum crc32c page) where
  count := same_writeLe (by decide)
  rest i hi := writeBytes_apply_of_apart (.inr (by rw [length_leBytes]; omega))

/-! ## What each operation does -/

theorem liveEntry_ok {entry : SlotEntry} (h : liveEntry page s = .ok entry) :
    s < numSlots page ∧ entry = readSlot page s ∧ (readSlot page s).isDead = false := by
  rw [liveEntry] at h
  split at h
  · cases h
  next hlt =>
    split at h
    · cases h
    next hlive => exact ⟨by omega, (Except.ok.inj h).symm, by simpa using hlive⟩

theorem liveEntry_of_live (hs : s < numSlots page) (hlive : (readSlot page s).isDead = false) :
    liveEntry page s = .ok (readSlot page s) := by
  rw [liveEntry, if_neg (by omega), if_neg (by rw [hlive]; exact Bool.false_ne_true)]

theorem exists_slot (hs : s < numSlots page) (hlive : (readSlot page s).isDead = false) :
    ∃ t, (slots page)[s]? = some (some t) ∧ t.offset = (readSlot page s).offset :=
  ⟨_, by rw [slots_getElem? hs, slotAt_of_live hlive], rfl⟩

/-- The slot that a tuple image at `offset` makes. -/
def slotOf (offset : Nat) (image : Bytes) : Slot :=
  ⟨offset, headerOf (image.take ROW_HEADER_SIZE), image.drop ROW_HEADER_SIZE⟩

theorem length_slotOf {offset : Nat} (h : ROW_HEADER_SIZE ≤ image.length) :
    (slotOf offset image).length = image.length := by
  rw [Slot.length, slotOf, length_drop]
  omega

/-- A tuple image was put in the place of slot `s`, within its room. -/
structure Stored (page : ByteMem) (s : Nat) (image : Bytes) (page' : ByteMem) : Prop where
  valid : Valid page'
  numSlots_eq : numSlots page' = numSlots page
  slots_eq : slots page' = (slots page).set s (some (slotOf (readSlot page s).offset image))
  entry_eq : readSlot page' s = ⟨(readSlot page s).offset, image.length⟩
  image_eq : page'.readBytes (readSlot page s).offset image.length = image

theorem Valid.stored (h : Valid page) (hs : s < numSlots page)
    (hlive : (readSlot page s).isDead = false) (hlen : ROW_HEADER_SIZE ≤ image.length)
    (hfit : align8 image.length ≤ capacityFrom page s (readSlot page s).offset)
    (hw : OnlySlot page page' s (readSlot page s).offset hi)
    (hhi : hi ≤ (readSlot page s).offset + capacityFrom page s (readSlot page s).offset)
    (hentry : readSlot page' s = ⟨(readSlot page s).offset, image.length⟩)
    (himage : page'.readBytes (readSlot page s).offset image.length = image) :
    Stored page s image page' := by
  obtain ⟨t, ht, hoff⟩ := exists_slot hs hlive
  rw [← hoff] at hfit hw hhi hentry himage
  have hstop := h.layout.stop_le ht
  have hpos := t.offset_lt_stop
  rw [capacityFrom_eq] at hfit hhi
  have hlive' : (readSlot page' s).isDead = false := by
    simp only [ROW_HEADER_SIZE] at hlen
    rw [hentry, SlotEntry.isDead, Bool.and_eq_false_iff]
    exact .inr (beq_eq_false_iff_ne.mpr (Nat.ne_of_gt (lt_of_lt_of_le (by decide) hlen)))
  have hnew : slotAt page' s = some (slotOf t.offset image) := by
    rw [slotAt_of_live hlive', hentry, himage]
    rfl
  have hslots := h.slots_eq ht hw (by omega)
  rw [hnew] at hslots
  have hlayout : Layout (slots page') (freeEnd page') := by
    rw [hslots, hw.freeEnd]
    refine h.layout.replace ht rfl ?_
    rw [Slot.stop, length_slotOf hlen]
    show t.offset + _ ≤ _
    omega
  refine ⟨⟨?_, hlayout, ?_, fun u hu => ?_, fun i hi hlive => ?_⟩, hw.numSlots, hoff ▸ hslots,
    hoff ▸ hentry, hoff ▸ himage⟩
  · rw [hw.freeStart, hw.numSlots, h.freeStart_eq]
  · rw [hw.freeEnd]
    exact h.aligned_freeEnd
  · rw [hslots] at hu
    rcases Layout.mem_set hu with hu | hu
    · obtain rfl := some.inj hu
      exact h.aligned t (mem_of_getElem? ht)
    · exact h.aligned u hu
  · rw [hw.numSlots] at hi
    by_cases his : i = s
    · subst his
      rw [hentry]
      exact hlen
    have hbelow := h.entries_below hi
    have hbound := (h.layout.bounds t (mem_of_getElem? ht)).1
    rw [hw.readSlot his (by omega)] at hlive ⊢
    exact h.header i hi hlive

end Slots

end AxiomDb.Heap.PageBytes
