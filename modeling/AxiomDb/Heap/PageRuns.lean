import AxiomDb.Heap.PageBytes

/-!
# Runs of heap page operations

What each operation makes of the slots of a page: `Stored` for those that put a
tuple image in the place of a live slot, `insertTuple_slots` and
`markSlotDead_slots` for the others. Over every run from a new page the tuples stay
apart, and the room of a live slot never shrinks: inserts go below all tuples and
neighbours only die. So an image that was once stored in a slot can be put back as
long as the slot is live.
-/

namespace AxiomDb.Heap.PageBytes

open Lib List ByteMem Option Slot PageBytes

variable {crc32c : ByteMem → Nat} {page page' : ByteMem} {s : Nat} {image data : Bytes} {txnId : TxnId}

/-! ## Parts of a page written one after the other -/

variable {bs : Bytes} {before : List (Option Slot)} {a hi lo : Nat} {t : Slot} {entry : SlotEntry}
  {st : State}

theorem onlySlot_writeBytes (ha : HEADER_SIZE ≤ a) (hlo : lo ≤ a) (hhi : a + bs.length ≤ hi) :
    OnlySlot page (page.writeBytes a bs) s lo hi := by
  rw [HEADER_SIZE] at ha
  exact ⟨same_writeBytes (by omega), same_writeBytes (by omega), same_writeBytes (by omega),
    fun i _ _ hi => writeBytes_apply_of_apart (by omega)⟩

theorem onlySlot_writeSlot (entry : SlotEntry) :
    OnlySlot page (writeSlot page s entry) s lo hi := by
  have hlen : (leBytes 2 entry.offset ++ leBytes 2 entry.length).length = SLOT_ENTRY_SIZE := by
    simp [SLOT_ENTRY_SIZE]
  have habove : HEADER_SIZE ≤ slotAbsOffset s := Nat.le_add_right _ _
  rw [HEADER_SIZE] at habove
  exact ⟨same_writeBytes (by omega), same_writeBytes (by omega), same_writeBytes (by omega),
    fun i _ hi _ => writeBytes_apply_of_apart (by omega)⟩

theorem OnlySlot.trans {page'' : ByteMem} (h : OnlySlot page page' s lo hi)
    (h' : OnlySlot page' page'' s lo hi) : OnlySlot page page'' s lo hi :=
  ⟨h.count.trans h'.count, h.id.trans h'.id, h.bounds.trans h'.bounds,
    fun i hi hs ht => (h'.body i hi hs ht).trans (h.body i hi hs ht)⟩

theorem readSlot_writeSlot (hoff : entry.offset < 2 ^ 16) (hlen : entry.length < 2 ^ 16) :
    readSlot (writeSlot page s entry) s = entry := by
  have hbytes : (leBytes 2 entry.offset ++ leBytes 2 entry.length).length = 4 := by simp
  have hfirst : (writeSlot page s entry).readBytes (slotAbsOffset s + 0) 2 = leBytes 2 entry.offset := by
    rw [writeSlot, readBytes_writeBytes_part _ _ (by omega), drop_zero,
      take_left' (length_leBytes 2 _)]
  have hsecond : (writeSlot page s entry).readBytes (slotAbsOffset s + 2) 2 =
      leBytes 2 entry.length := by
    rw [writeSlot, readBytes_writeBytes_part _ _ (by omega),
      drop_left' (length_leBytes 2 _), take_of_length_le (by simp)]
  rw [Nat.add_zero] at hfirst
  rw [readSlot, readLe, readLe, hfirst, hsecond, ofLeBytes_leBytes, ofLeBytes_leBytes,
    Nat.mod_eq_of_lt (show entry.offset < 256 ^ 2 from hoff),
    Nat.mod_eq_of_lt (show entry.length < 256 ^ 2 from hlen)]

theorem readSlot_writeBytes (ha : slotAbsOffset s + SLOT_ENTRY_SIZE ≤ a) :
    readSlot (page.writeBytes a bs) s = readSlot page s := by
  rw [SLOT_ENTRY_SIZE] at ha
  rw [readSlot, readSlot, (same_writeBytes (.inl (by omega))).readLe,
    (same_writeBytes (.inl (by omega))).readLe]

/-- The bytes of a tuple are not those of an entry. -/
theorem readBytes_writeSlot {n : Nat} (ha : slotAbsOffset s + SLOT_ENTRY_SIZE ≤ a) :
    (writeSlot page s entry).readBytes a n = page.readBytes a n := by
  refine (same_writeBytes (.inr ?_)).readBytes
  simpa [SLOT_ENTRY_SIZE] using ha

theorem Stored.updateChecksum (h : Stored page s image page') (hs : s < numSlots page)
    (hlive : (readSlot page s).isDead = false) (hpage : Valid page) :
    Stored page s image (updateChecksum crc32c page') := by
  have hsum := headerOnly_updateChecksum crc32c page'
  obtain ⟨t, ht, hoff⟩ := exists_slot hs hlive
  have hbound := (hpage.layout.bounds t (mem_of_getElem? ht)).1
  have hroom := hpage.room
  exact ⟨hsum.valid h.valid, hsum.numSlots_eq.trans h.numSlots_eq, (hsum.slots_eq h.valid).trans h.slots_eq,
    (hsum.readSlot_eq s).trans h.entry_eq, (hsum.readBytes_eq (by omega)).trans h.image_eq⟩

/-- What is stored in a page whose header was written first. -/
theorem Stored.of_headerOnly {page0 : ByteMem} (hhead : HeaderOnly page0 page) (hpage : Valid page0)
    (h : Stored page s image page') : Stored page0 s image page' :=
  ⟨h.valid, h.numSlots_eq.trans hhead.numSlots_eq,
    by rw [h.slots_eq, hhead.slots_eq hpage, hhead.readSlot_eq],
    by rw [h.entry_eq, hhead.readSlot_eq], by rw [← hhead.readSlot_eq]; exact h.image_eq⟩

/-! ## Operations on a live slot -/

section Live

variable (h : Valid page) (hs : s < numSlots page) (hlive : (readSlot page s).isDead = false)

include h hs hlive

theorem Valid.tuple_bounds : slotAbsOffset s + SLOT_ENTRY_SIZE ≤ (readSlot page s).offset ∧
    ROW_HEADER_SIZE ≤ (readSlot page s).length ∧
    align8 (readSlot page s).length ≤ capacityFrom page s (readSlot page s).offset ∧
    (readSlot page s).offset + capacityFrom page s (readSlot page s).offset ≤ PAGE_SIZE := by
  obtain ⟨t, ht, hoff⟩ := exists_slot hs hlive
  have hbelow := h.entries_below hs
  have hbound := h.layout.bounds t (mem_of_getElem? ht)
  have hstop := h.layout.stop_le ht
  have hend : slotEnd (slots page) s t.offset ≤ PAGE_SIZE := slotEnd_le_pageSize
  have hpos := t.offset_lt_stop
  have hlen := (h.length_eq ht).2
  rw [capacityFrom_eq, ← hoff, ← hlen]
  rw [stop] at hstop hpos
  refine ⟨?_, by rw [Slot.length]; omega, by omega, by omega⟩
  simp only [slotAbsOffset, SLOT_ENTRY_SIZE] at *
  omega

/-- Eight bytes of the row header are written. -/
theorem stored_writeLe (v : Nat) : Stored page s
      ((page.writeLe ((readSlot page s).offset + 8) 8 v).readBytes (readSlot page s).offset
        (readSlot page s).length) (page.writeLe ((readSlot page s).offset + 8) 8 v) := by
  obtain ⟨hbelow, hlen, hfit, hend⟩ := h.tuple_bounds hs hlive
  have hpad := le_align8 (readSlot page s).length
  have habove : HEADER_SIZE ≤ slotAbsOffset s := Nat.le_add_right _ _
  have hw : OnlySlot page (page.writeLe ((readSlot page s).offset + 8) 8 v) s
      (readSlot page s).offset ((readSlot page s).offset + (readSlot page s).length) := by
    refine onlySlot_writeBytes (by omega) (by omega) ?_
    rw [length_leBytes]
    simp only [ROW_HEADER_SIZE] at hlen
    omega
  refine h.stored hs hlive (by simpa using hlen) (by simpa using hfit) hw (by omega) ?_ (by simp)
  rw [length_readBytes]
  exact readSlot_writeBytes (by omega)

/-- An image is written with zeros up to the end of the room, and its length to the entry. -/
theorem stored_image {mid : ByteMem} (hlen : ROW_HEADER_SIZE ≤ image.length)
    (hfit : align8 image.length ≤ capacityFrom page s (readSlot page s).offset)
    (hw : OnlySlot page mid s (readSlot page s).offset
      ((readSlot page s).offset + capacityFrom page s (readSlot page s).offset))
    (himage : mid.readBytes (readSlot page s).offset image.length = image) :
    Stored page s image (writeSlot (mid.fill ((readSlot page s).offset + image.length)
        (capacityFrom page s (readSlot page s).offset - image.length) 0) s
      ⟨(readSlot page s).offset, image.length⟩) := by
  obtain ⟨hbelow, -, -, hend⟩ := h.tuple_bounds hs hlive
  have hpad := le_align8 image.length
  have habove : HEADER_SIZE ≤ slotAbsOffset s := Nat.le_add_right _ _
  have hfill : OnlySlot mid (mid.fill ((readSlot page s).offset + image.length)
      (capacityFrom page s (readSlot page s).offset - image.length) 0) s (readSlot page s).offset
      ((readSlot page s).offset + capacityFrom page s (readSlot page s).offset) :=
    onlySlot_writeBytes (by omega) (by omega) (by rw [length_replicate]; omega)
  refine h.stored hs hlive hlen hfit ((hw.trans hfill).trans (onlySlot_writeSlot _)) le_rfl ?_ ?_
  · simp only [PAGE_SIZE] at hend
    exact readSlot_writeSlot (by show (readSlot page s).offset < _; omega)
      (by show image.length < _; omega)
  · rw [readBytes_writeSlot (by omega), (same_fill (.inl (by omega))).readBytes, himage]

end Live

/-! ## The header fields of an insertion -/

variable (crc32c page) in
/-- The last writes of `insert_tuple`: the counter of slots, both ends of the free space and the
checksum. -/
def setFields (newFreeEnd : Nat) : ByteMem :=
  let page := page.writeLe 10 2 (numSlots page + 1)
  let page := page.writeLe 32 2 (freeStart page + SLOT_ENTRY_SIZE)
  updateChecksum crc32c (page.writeLe 34 2 newFreeEnd)

theorem numSlots_setFields (hcount : numSlots page + 1 < 2 ^ (8 * 2)) :
    numSlots (setFields crc32c page a) = numSlots page + 1 := by
  rw [setFields, (headerOnly_updateChecksum crc32c _).numSlots_eq, numSlots,
    (same_writeLe (by decide)).readLe, (same_writeLe (by decide)).readLe,
    readLe_writeLe_of_lt _ _ _ hcount]

theorem freeStart_setFields (hstart : freeStart page + SLOT_ENTRY_SIZE < 2 ^ (8 * 2)) :
    freeStart (setFields crc32c page a) = freeStart page + SLOT_ENTRY_SIZE := by
  have hold : freeStart (page.writeLe 10 2 (numSlots page + 1)) = freeStart page := by
    rw [freeStart, (same_writeLe (by decide)).readLe]
    rfl
  rw [setFields, (headerOnly_updateChecksum crc32c _).freeStart_eq, hold, freeStart,
    (same_writeLe (by decide)).readLe, readLe_writeLe_of_lt _ _ _ hstart]

theorem freeEnd_setFields (ha : a < 2 ^ (8 * 2)) : freeEnd (setFields crc32c page a) = a := by
  rw [setFields, (headerOnly_updateChecksum crc32c _).freeEnd_eq, freeEnd,
    readLe_writeLe_of_lt _ _ _ ha]

/-- The bytes behind the header are not written. -/
theorem same_setFields {b n : Nat} (hb : HEADER_SIZE ≤ b) : Same page (setFields crc32c page a) b n := by
  have hsize : HEADER_SIZE = 64 := rfl
  exact (((same_writeLe (by omega)).trans (same_writeLe (by omega))).trans
    (same_writeLe (by omega))).trans ((headerOnly_updateChecksum crc32c _).same (by omega))

theorem readSlot_setFields (j : Nat) : readSlot (setFields crc32c page a) j = readSlot page j := by
  have habove : HEADER_SIZE ≤ slotAbsOffset j := Nat.le_add_right _ _
  rw [readSlot, readSlot, (same_setFields habove).readLe, (same_setFields (by omega)).readLe]

/-! ## A new tuple -/

@[simp] theorem length_headerBytes (hd : RowHeader) : (headerBytes hd).length = ROW_HEADER_SIZE := by
  simp [headerBytes, ROW_HEADER_SIZE]

variable (page data txnId) in
/-- The first writes of `insert_tuple`: the row header, the row and the entry of the new slot. -/
def putTuple (newFreeEnd : Nat) : ByteMem :=
  writeSlot ((page.writeBytes newFreeEnd (headerBytes ⟨txnId, 0, 0, 0⟩)).writeBytes
    (newFreeEnd + ROW_HEADER_SIZE) data) (numSlots page) ⟨newFreeEnd, ROW_HEADER_SIZE + data.length⟩

theorem readSlot_putTuple (hstop : a + (ROW_HEADER_SIZE + data.length) ≤ PAGE_SIZE) :
    readSlot (putTuple page data txnId a) (numSlots page) = ⟨a, ROW_HEADER_SIZE + data.length⟩ := by
  have hsize : PAGE_SIZE < 2 ^ 16 := by decide
  refine readSlot_writeSlot ?_ ?_
  · show a < _
    omega
  · show ROW_HEADER_SIZE + data.length < _
    omega

theorem onlySlot_putTuple (ha : HEADER_SIZE ≤ a) (hstop : a + (ROW_HEADER_SIZE + data.length) ≤ hi) :
    OnlySlot page (putTuple page data txnId a) (numSlots page) a hi := by
  refine ((onlySlot_writeBytes ha le_rfl ?_).trans (onlySlot_writeBytes ?_ ?_ ?_)).trans
    (onlySlot_writeSlot _)
  · rw [length_headerBytes]
    omega
  all_goals omega

theorem readBytes_putTuple (ha : slotAbsOffset (numSlots page) + SLOT_ENTRY_SIZE ≤ a) :
    (putTuple page data txnId a).readBytes a (ROW_HEADER_SIZE + data.length) =
      headerBytes ⟨txnId, 0, 0, 0⟩ ++ data := by
  rw [putTuple, readBytes_writeSlot ha, readBytes_add, readBytes_writeBytes _ _ rfl,
    (same_writeBytes (.inl le_rfl)).readBytes, readBytes_writeBytes _ _ (length_headerBytes _)]

section NewTuple

variable (ha : slotAbsOffset (numSlots page) + SLOT_ENTRY_SIZE ≤ a)

include ha

theorem slotAt_newTuple (hstop : a + (ROW_HEADER_SIZE + data.length) ≤ PAGE_SIZE) :
    slotAt (setFields crc32c (putTuple page data txnId a) a) (numSlots page) =
      some (slotOf a (headerBytes ⟨txnId, 0, 0, 0⟩ ++ data)) := by
  have hentry : readSlot (setFields crc32c (putTuple page data txnId a) a) (numSlots page) = _ :=
    (readSlot_setFields _).trans (readSlot_putTuple hstop)
  have habove : HEADER_SIZE ≤ slotAbsOffset (numSlots page) := Nat.le_add_right _ _
  have hlive : (readSlot (setFields crc32c (putTuple page data txnId a) a) (numSlots page)).isDead =
      false := by
    rw [hentry, SlotEntry.isDead, Bool.and_eq_false_iff]
    exact .inr (beq_eq_false_iff_ne.mpr (Nat.ne_of_gt (Nat.add_pos_left (by decide) _)))
  rw [slotAt_of_live hlive, hentry, (same_setFields (by dsimp only; omega)).readBytes,
    readBytes_putTuple ha]
  rfl

/-- The slots before the new one keep their entries. -/
theorem readSlot_newTuple {j : Nat} (hj : j < numSlots page) :
    readSlot (setFields crc32c (putTuple page data txnId a) a) j = readSlot page j := by
  have hslot (i : Nat) : slotAbsOffset i = 64 + i * 4 := rfl
  have hsizes : HEADER_SIZE = 64 ∧ SLOT_ENTRY_SIZE = 4 := ⟨rfl, rfl⟩
  rw [readSlot_setFields, (onlySlot_putTuple (by rw [hslot] at ha; omega) le_rfl).readSlot (by omega)]
  rw [hslot] at ha ⊢
  omega

end NewTuple

section

variable (h : Valid page)
include h

theorem deleteTuple_spec :
    (∃ e, deleteTuple crc32c page s txnId = (.error e, clearAllVisible page)) ∨
      s < numSlots page ∧ (readSlot page s).isDead = false ∧
        ∃ image, image.length = (readSlot page s).length ∧
          Stored page s image (deleteTuple crc32c page s txnId).2 := by
  have hclear := headerOnly_clearAllVisible page
  rw [deleteTuple]
  rcases hentry : liveEntry (clearAllVisible page) s with e | entry
  · exact .inl ⟨e, rfl⟩
  obtain ⟨hs, rfl, hlive⟩ := liveEntry_ok hentry
  have hstored := stored_writeLe (hclear.valid h) hs hlive txnId
  refine .inr ⟨hclear.numSlots_eq ▸ hs, hclear.readSlot_eq s ▸ hlive, _, ?_,
    (hstored.updateChecksum hs hlive (hclear.valid h)).of_headerOnly hclear h⟩
  rw [length_readBytes, hclear.readSlot_eq]

theorem clearDeletion_spec : (clearDeletion crc32c page s).2 = page ∨
      s < numSlots page ∧ (readSlot page s).isDead = false ∧
        ∃ image, image.length = (readSlot page s).length ∧
          Stored page s image (clearDeletion crc32c page s).2 := by
  rw [clearDeletion]
  rcases hentry : liveEntry page s with _ | entry
  · exact .inl rfl
  obtain ⟨hs, rfl, hlive⟩ := liveEntry_ok hentry
  simp only
  split
  · exact .inl rfl
  · exact .inr ⟨hs, hlive, _, by simp, (stored_writeLe h hs hlive 0).updateChecksum hs hlive h⟩

/-- A rewrite returns the image that the slot had. -/
theorem rewriteTupleSameSlot_spec :
    (∃ r, rewriteTupleSameSlot crc32c page s data txnId = (r, clearAllVisible page) ∧
        ∀ old, r ≠ .ok (some old)) ∨ s < numSlots page ∧ (readSlot page s).isDead = false ∧
        (rewriteTupleSameSlot crc32c page s data txnId).1 =
          .ok (some (page.readBytes (readSlot page s).offset (readSlot page s).length)) ∧
        ∃ image, align8 image.length ≤ capacityFrom page s (readSlot page s).offset ∧
          Stored page s image (rewriteTupleSameSlot crc32c page s data txnId).2 := by
  have hclear := headerOnly_clearAllVisible page
  rw [rewriteTupleSameSlot]
  rcases hentry : liveEntry (clearAllVisible page) s with _ | entry
  · exact .inl ⟨_, rfl, fun _ heq => by cases heq⟩
  obtain ⟨hs, rfl, hlive⟩ := liveEntry_ok hentry
  simp only
  split
  · exact .inl ⟨_, rfl, fun _ heq => by cases heq⟩
  next hfit =>
    have hvalid := hclear.valid h
    obtain ⟨hbelow, -, -, -⟩ := hvalid.tuple_bounds hs hlive
    have habove : HEADER_SIZE ≤ slotAbsOffset s := Nat.le_add_right _ _
    have hpad := le_align8 (ROW_HEADER_SIZE + data.length)
    generalize hnew : RowHeader.mk txnId 0 _ _ = newHeader
    have hlen : (headerBytes newHeader ++ data).length = ROW_HEADER_SIZE + data.length := by simp
    have hcap : capacityFrom (clearAllVisible page) s (readSlot (clearAllVisible page) s).offset =
        capacityFrom page s (readSlot page s).offset := by
      rw [capacityFrom_eq, capacityFrom_eq, hclear.slots_eq h, hclear.readSlot_eq]
    generalize hmid : ((clearAllVisible page).writeBytes (readSlot (clearAllVisible page) s).offset
      (headerBytes newHeader)).writeBytes
      ((readSlot (clearAllVisible page) s).offset + ROW_HEADER_SIZE) data = mid
    have hw : OnlySlot (clearAllVisible page) mid s (readSlot (clearAllVisible page) s).offset
        ((readSlot (clearAllVisible page) s).offset +
          capacityFrom (clearAllVisible page) s (readSlot (clearAllVisible page) s).offset) := by
      rw [← hmid]
      exact (onlySlot_writeBytes (by omega) le_rfl (by rw [length_headerBytes]; omega)).trans
        (onlySlot_writeBytes (by omega) (by omega) (by omega))
    have himage : mid.readBytes (readSlot (clearAllVisible page) s).offset
        (headerBytes newHeader ++ data).length = headerBytes newHeader ++ data := by
      rw [← hmid, hlen, readBytes_add, readBytes_writeBytes _ _ rfl,
        (same_writeBytes (.inl (by omega))).readBytes,
        readBytes_writeBytes _ _ (length_headerBytes _)]
    have hstored := stored_image hvalid hs hlive (by omega) (by rw [hlen]; omega) hw himage
    rw [hlen] at hstored
    refine .inr ⟨hclear.numSlots_eq ▸ hs, hclear.readSlot_eq s ▸ hlive, ?_,
      headerBytes newHeader ++ data, by rw [hlen, ← hcap]; omega,
      (hstored.updateChecksum hs hlive hvalid).of_headerOnly hclear h⟩
    rw [hclear.readSlot_eq, hclear.readBytes_eq (by rw [← hclear.readSlot_eq]; omega)]

theorem restoreTupleImage_spec (hlen : ROW_HEADER_SIZE ≤ image.length) :
    (∃ e, restoreTupleImage crc32c page s image = (.error e, page)) ∨
      s < numSlots page ∧ (readSlot page s).isDead = false ∧
        align8 image.length ≤ capacityFrom page s (readSlot page s).offset ∧
        Stored page s image (restoreTupleImage crc32c page s image).2 := by
  rw [restoreTupleImage]
  rcases hentry : liveEntry page s with _ | entry
  · exact .inl ⟨_, rfl⟩
  obtain ⟨hs, rfl, hlive⟩ := liveEntry_ok hentry
  simp only
  split
  · exact .inl ⟨_, rfl⟩
  next hfit =>
    obtain ⟨hbelow, -, -, -⟩ := h.tuple_bounds hs hlive
    have habove : HEADER_SIZE ≤ slotAbsOffset s := Nat.le_add_right _ _
    have hpad := le_align8 image.length
    have hstored := stored_image h hs hlive hlen (by omega)
      (onlySlot_writeBytes (by omega) le_rfl (by omega))
      (readBytes_writeBytes _ _ rfl)
    exact .inr ⟨hs, hlive, by omega, hstored.updateChecksum hs hlive h⟩

/-! ## Inserts and dead slots -/

theorem markSlotDead_slots (hs : s < numSlots page) :
    Valid (markSlotDead crc32c page s).2 ∧ numSlots (markSlotDead crc32c page s).2 = numSlots page ∧
      slots (markSlotDead crc32c page s).2 = (slots page).set s none ∧
      readSlot (markSlotDead crc32c page s).2 s = ⟨0, 0⟩ := by
  rw [markSlotDead, if_neg (by omega)]
  have hsum := headerOnly_updateChecksum crc32c (writeSlot page s ⟨0, 0⟩)
  have hw (lo hi : Nat) : OnlySlot page (writeSlot page s ⟨0, 0⟩) s lo hi :=
    onlySlot_writeSlot ⟨0, 0⟩
  have hentry : readSlot (writeSlot page s ⟨0, 0⟩) s = ⟨0, 0⟩ :=
    readSlot_writeSlot (by decide) (by decide)
  have hdead : slotAt (writeSlot page s ⟨0, 0⟩) s = none := slotAt_of_dead (by rw [hentry]; rfl)
  have hother {j : Nat} (hj : j < numSlots page) (hjs : j ≠ s) :
      readSlot (writeSlot page s ⟨0, 0⟩) j = readSlot page j :=
    (hw (slotAbsOffset (j + 1)) 0).readSlot hjs le_rfl
  have hslots : slots (writeSlot page s ⟨0, 0⟩) = (slots page).set s none := by
    refine ext_getElem? fun j => ?_
    by_cases hj : j < numSlots page
    · rw [slots_getElem? (by rw [(hw 0 0).numSlots]; exact hj), getElem?_set]
      by_cases hjs : s = j
      · subst hjs
        rw [if_pos rfl, if_pos (by simpa using hj), hdead]
      rw [if_neg hjs, slots_getElem? hj, slotAt_congr (hother hj (Ne.symm hjs)) fun hlive => ?_]
      obtain ⟨hbelow, -, -, -⟩ := h.tuple_bounds hj hlive
      have hend := h.entries_below hs
      obtain ⟨u, hu, huoff⟩ := exists_slot hj hlive
      have hbound := (h.layout.bounds u (mem_of_getElem? hu)).1
      refine same_writeBytes (.inr ?_)
      simp [slotAbsOffset, SLOT_ENTRY_SIZE] at *
      omega
    · rw [getElem?_eq_none (by simp [(hw 0 0).numSlots]; omega), getElem?_eq_none (by simp; omega)]
  have hvalid : Valid (writeSlot page s ⟨0, 0⟩) := by
    have hw0 := hw 0 0
    refine ⟨?_, ?_, ?_, fun t ht => ?_, fun i hi hlive => ?_⟩
    · rw [hw0.freeStart, hw0.numSlots, h.freeStart_eq]
    · rw [hslots, hw0.freeEnd]
      exact h.layout.kill s
    · rw [hw0.freeEnd]
      exact h.aligned_freeEnd
    · rw [hslots] at ht
      exact h.aligned t ((Layout.mem_set ht).resolve_left (by simp))
    · rw [hw0.numSlots] at hi
      by_cases his : i = s
      · subst his
        rw [hentry] at hlive
        cases hlive
      · rw [hother hi his] at hlive ⊢
        exact h.header i hi hlive
  exact ⟨hsum.valid hvalid, hsum.numSlots_eq.trans (hw 0 0).numSlots,
    (hsum.slots_eq hvalid).trans hslots, (hsum.readSlot_eq s).trans hentry⟩

/-- The slots before the new one are read as before: their tuples end below the free space. -/
theorem slots_newTuple {a : Nat} (ha : slotAbsOffset (numSlots page) + SLOT_ENTRY_SIZE ≤ a)
    (hstop : a + (ROW_HEADER_SIZE + data.length) ≤ freeEnd page) :
    slots (setFields crc32c (putTuple page data txnId a) a) =
      slots page ++ [some (slotOf a (headerBytes ⟨txnId, 0, 0, 0⟩ ++ data))] := by
  have hwithin := h.layout.within
  have hsize : PAGE_SIZE < 2 ^ (8 * 2) := by decide
  have hslot (i : Nat) : slotAbsOffset i = 64 + i * 4 := rfl
  have hsizes : HEADER_SIZE = 64 ∧ SLOT_ENTRY_SIZE = 4 := ⟨rfl, rfl⟩
  have hw : OnlySlot page (putTuple page data txnId a) (numSlots page) a (freeEnd page) :=
    onlySlot_putTuple (by rw [hslot] at ha; omega) hstop
  have hsame {j : Nat} (hj : j < numSlots page) :
      slotAt (setFields crc32c (putTuple page data txnId a) a) j = slotAt page j := by
    refine slotAt_congr (readSlot_newTuple ha hj) fun hlive => ?_
    obtain ⟨u, hu, huoff⟩ := exists_slot hj hlive
    have hbound := (h.layout.bounds u (mem_of_getElem? hu)).1
    rw [hslot] at ha
    refine Same.trans (fun i hi hlt => ?_) (same_setFields (by omega))
    refine hw.body i (by omega) (.inr ?_) (.inr (by omega))
    rw [hslot]
    omega
  have hcount : numSlots (setFields crc32c (putTuple page data txnId a) a) = numSlots page + 1 := by
    rw [hslot] at ha
    rw [numSlots_setFields (by rw [hw.numSlots]; omega), hw.numSlots]
  rw [slots, hcount, range_succ, map_append, map_singleton, slotAt_newTuple ha (by omega)]
  exact congrArg (· ++ _) (map_congr_left fun j hj => hsame (mem_range.mp hj))

/-- A tuple is put below all others, in a new slot. -/
theorem insertTuple_slots : (∃ e, insertTuple crc32c page data txnId = (.error e, page)) ∨
      ∃ t, t.stop = freeEnd page ∧ Valid (insertTuple crc32c page data txnId).2 ∧
        slots (insertTuple crc32c page data txnId).2 = slots page ++ [some t] := by
  rw [insertTuple]
  simp only
  split
  · exact .inl ⟨_, rfl⟩
  next havail =>
    refine .inr ?_
    have hroom := h.room
    have hwithin := h.layout.within
    have hfull := h.freeStart_eq
    have hpad := le_align8 (ROW_HEADER_SIZE + data.length)
    rw [freeSpace] at havail
    generalize halloc : align8 (ROW_HEADER_SIZE + data.length) = alloc at *
    generalize hfree : freeEnd page - alloc = newFreeEnd at *
    have hslot (i : Nat) : slotAbsOffset i = 64 + i * 4 := rfl
    simp only [SLOT_ENTRY_SIZE] at hroom hwithin hfull havail
    have hsizes : HEADER_SIZE = 64 ∧ SLOT_ENTRY_SIZE = 4 ∧ ROW_HEADER_SIZE = 24 ∧ PAGE_SIZE = 16384 :=
      ⟨rfl, rfl, rfl, rfl⟩
    have ha : slotAbsOffset (numSlots page) + SLOT_ENTRY_SIZE ≤ newFreeEnd := by
      rw [hslot]
      omega
    have hw : OnlySlot page (putTuple page data txnId newFreeEnd) (numSlots page) newFreeEnd
        (freeEnd page) := onlySlot_putTuple (by omega) (by omega)
    generalize hp7 : updateChecksum crc32c _ = page7
    have hset : page7 = setFields crc32c (putTuple page data txnId newFreeEnd) newFreeEnd := hp7.symm
    have hcount : numSlots page7 = numSlots page + 1 := by
      rw [hset, numSlots_setFields (by rw [hw.numSlots]; omega), hw.numSlots]
    have hstart : freeStart page7 = freeStart page + SLOT_ENTRY_SIZE := by
      rw [hset, freeStart_setFields (by rw [hw.freeStart, SLOT_ENTRY_SIZE]; omega), hw.freeStart]
    have hend : freeEnd page7 = newFreeEnd := by
      rw [hset, freeEnd_setFields (by omega)]
    have hslots : slots page7 =
        slots page ++ [some (slotOf newFreeEnd (headerBytes ⟨txnId, 0, 0, 0⟩ ++ data))] := by
      rw [hset, slots_newTuple h ha (by omega)]
    have hstop : (slotOf newFreeEnd (headerBytes ⟨txnId, 0, 0, 0⟩ ++ data)).stop = freeEnd page := by
      rw [stop, length_slotOf (by simp), length_append, length_headerBytes, halloc]
      show newFreeEnd + alloc = _
      omega
    have haligned : 8 ∣ newFreeEnd := by
      have := h.aligned_freeEnd
      have : alloc % 8 = 0 := by
        rw [← halloc, align8]
        omega
      omega
    refine ⟨_, hstop, ⟨?_, ?_, ?_, fun u hu => ?_, fun i hi hlive => ?_⟩, hslots⟩
    · rw [hstart, hcount, SLOT_ENTRY_SIZE]
      omega
    · rw [hslots, hend]
      refine h.layout.append hstop ?_
      show _ ≤ newFreeEnd
      rw [length_slots, SLOT_ENTRY_SIZE]
      omega
    · rw [hend]
      exact haligned
    · rw [hslots] at hu
      rcases mem_append.mp hu with hu | hu
      · exact h.aligned u hu
      · obtain rfl := some.inj (mem_singleton.mp hu)
        exact haligned
    · rw [hcount] at hi
      by_cases hlast : i < numSlots page
      · rw [hset, readSlot_newTuple ha hlast] at hlive ⊢
        exact h.header i hlast hlive
      · rw [show i = numSlots page by omega, hset, readSlot_setFields, readSlot_putTuple (by omega)]
        exact Nat.le_add_right _ _

end

/-! ## Runs -/

/-- A page, and the images that rewrites have returned, with their slots. -/
structure State where
  page : ByteMem
  images : List (Nat × Bytes)

inductive Op where
  | insertTuple (data : Bytes) (txnId : TxnId)
  | deleteTuple (slotId : Nat) (txnId : TxnId)
  | rewriteTupleSameSlot (slotId : Nat) (newData : Bytes) (txnId : TxnId)
  | restoreTupleImage (slotId : Nat) (tupleImage : Bytes)
  | clearDeletion (slotId : Nat)
  | markSlotDead (slotId : Nat)

/-- The slot that an operation is about. -/
def Op.slot (page : ByteMem) : Op → Nat
  | .insertTuple _ _ => numSlots page
  | .deleteTuple slotId _ => slotId
  | .rewriteTupleSameSlot slotId _ _ => slotId
  | .restoreTupleImage slotId _ => slotId
  | .clearDeletion slotId => slotId
  | .markSlotDead slotId => slotId

/-- The image that a rewrite returned. -/
def returned (slotId : Nat) : Except DbError (Option Bytes) → List (Nat × Bytes)
  | .ok (some image) => [(slotId, image)]
  | _ => []

variable (crc32c) in
/-- One operation. Only images that a rewrite of the slot has returned are restored. -/
def step (st : State) : Op → Option State
  | .insertTuple data txnId => some { st with page := (insertTuple crc32c st.page data txnId).2 }
  | .deleteTuple slotId txnId => some { st with page := (deleteTuple crc32c st.page slotId txnId).2 }
  | .rewriteTupleSameSlot slotId newData txnId =>
    let r := rewriteTupleSameSlot crc32c st.page slotId newData txnId
    some ⟨r.2, returned slotId r.1 ++ st.images⟩
  | .restoreTupleImage slotId tupleImage =>
    if (slotId, tupleImage) ∈ st.images then
      some { st with page := (restoreTupleImage crc32c st.page slotId tupleImage).2 }
    else none
  | .clearDeletion slotId => some { st with page := (clearDeletion crc32c st.page slotId).2 }
  | .markSlotDead slotId => some { st with page := (markSlotDead crc32c st.page slotId).2 }

/-- What one operation does to the slots: a live slot was live at the same offset, or it is new and
below all others. -/
def Ages (before after : List (Option Slot)) : Prop :=
  before.length ≤ after.length ∧ ∀ j u, after[j]? = some (some u) →
    (∃ v, before[j]? = some (some v) ∧ v.offset = u.offset) ∨
      before.length ≤ j ∧ ∀ v, some v ∈ before → u.offset ≤ v.offset

theorem Ages.refl (slots : List (Option Slot)) : Ages slots slots :=
  ⟨le_rfl, fun _ u hu => .inl ⟨u, hu, rfl⟩⟩

theorem Ages.slotEnd_le {after : List (Option Slot)} (h : Ages before after)
    (ht : before[s]? = some (some t)) : slotEnd before s t.offset ≤ slotEnd after s t.offset := by
  rcases slotEnd_eq after s t.offset with hend | ⟨u, j, hu, hjs, hlt, hend⟩
  · rw [hend]
    exact slotEnd_le_pageSize
  rw [hend]
  rcases h.2 j u hu with ⟨v, hv, hoff⟩ | ⟨-, hbelow⟩
  · rw [← hoff] at hlt ⊢
    exact Heap.slotEnd_le hv hjs hlt
  · have := hbelow t (mem_of_getElem? ht)
    omega

theorem ages_set {e : Option Slot}
    (he : ∀ u, e = some u → ∃ v, before[s]? = some (some v) ∧ v.offset = u.offset) :
    Ages before (before.set s e) := by
  refine ⟨by simp, fun j u hu => .inl ?_⟩
  rw [getElem?_set] at hu
  by_cases hjs : s = j
  · subst hjs
    rw [if_pos rfl] at hu
    split at hu
    · exact he u (some.inj hu)
    · cases hu
  · rw [if_neg hjs] at hu
    exact ⟨u, hu, rfl⟩

theorem Stored.ages (h : Stored page s image page') (hs : s < numSlots page)
    (hlive : (readSlot page s).isDead = false) : Ages (slots page) (slots page') := by
  rw [h.slots_eq]
  refine ages_set fun u hu => ?_
  obtain rfl := some.inj hu
  exact exists_slot hs hlive

theorem ages_append (hpage : Valid page) (ht : t.stop = freeEnd page) :
    Ages (slots page) (slots page ++ [some t]) := by
  refine ⟨by simp, fun j u hu => ?_⟩
  rw [getElem?_append] at hu
  split at hu
  · exact .inl ⟨u, hu, rfl⟩
  next hj =>
    have hmem := mem_of_getElem? hu
    obtain rfl := some.inj (mem_singleton.mp hmem)
    refine .inr ⟨by omega, fun v hv => ?_⟩
    have := (hpage.layout.bounds v hv).1
    have := u.offset_lt_stop
    omega

/-- What one operation does: the page stays valid, the slots age, and those of other numbers are as
they were. -/
structure Goes (page : ByteMem) (slot : Nat) (page' : ByteMem) : Prop where
  valid : Valid page'
  ages : Ages (slots page) (slots page')
  others : ∀ j, j < numSlots page → j ≠ slot → (slots page')[j]? = (slots page)[j]?

theorem HeaderOnly.goes (h : HeaderOnly page page') (hpage : Valid page) : Goes page s page' := by
  have hslots := h.slots_eq hpage
  exact ⟨h.valid hpage, hslots ▸ .refl _, fun j _ _ => by rw [hslots]⟩

theorem Goes.refl (hpage : Valid page) : Goes page s page := ⟨hpage, .refl _, fun _ _ _ => rfl⟩

theorem Stored.goes (h : Stored page s image page') (hs : s < numSlots page)
    (hlive : (readSlot page s).isDead = false) : Goes page s page' :=
  ⟨h.valid, h.ages hs hlive, fun j _ hjs => by rw [h.slots_eq, getElem?_set_ne (Ne.symm hjs)]⟩

/-- An image that was stored in a slot fits into it as long as the slot is live. -/
def Fits (page : ByteMem) (entry : Nat × Bytes) : Prop :=
  entry.1 < numSlots page ∧ ROW_HEADER_SIZE ≤ entry.2.length ∧
    ((readSlot page entry.1).isDead = false →
      align8 entry.2.length ≤ capacityFrom page entry.1 (readSlot page entry.1).offset)

theorem Goes.fits (h : Goes page s page') {entry : Nat × Bytes} (hfits : Fits page entry) :
    Fits page' entry := by
  obtain ⟨hlt, hlen, hcap⟩ := hfits
  have hlt' : entry.1 < numSlots page' := by
    have := h.ages.1
    simp only [length_slots] at this
    omega
  refine ⟨hlt', hlen, fun hlive => ?_⟩
  obtain ⟨u, hu, huoff⟩ := exists_slot hlt' hlive
  rcases h.ages.2 _ u hu with ⟨v, hv, hoff⟩ | ⟨hnew, -⟩
  · have hv' := hv
    rw [slots_getElem? hlt, some.injEq] at hv'
    obtain ⟨hvlive, hvoff, -⟩ := slotAt_eq_some hv'
    have hend := h.ages.slotEnd_le hv
    have hfit := hcap hvlive
    rw [capacityFrom_eq, ← hvoff] at hfit
    rw [capacityFrom_eq, ← huoff, ← hoff]
    omega
  · rw [length_slots] at hnew
    omega

/-- One operation, on a valid page with images that fit. -/
theorem step_goes {st' : State} {op : Op} (hpage : Valid st.page)
    (himages : ∀ entry ∈ st.images, Fits st.page entry) (h : step crc32c st op = some st') :
    Goes st.page (op.slot st.page) st'.page ∧
      ∀ entry ∈ st'.images, entry ∈ st.images ∨ Fits st.page entry := by
  cases op with
  | insertTuple data txnId =>
    obtain rfl := some.inj h
    refine ⟨?_, fun _ => .inl⟩
    rcases @insertTuple_slots crc32c st.page data txnId hpage with ⟨e, heq⟩ | ⟨t, ht, hvalid, hslots⟩
    · rw [heq]
      exact .refl hpage
    · refine ⟨hvalid, hslots ▸ ages_append hpage ht, fun j hj _ => ?_⟩
      show (slots (insertTuple crc32c st.page data txnId).2)[j]? = _
      rw [hslots, getElem?_append_left (by simpa using hj)]
  | deleteTuple slotId txnId =>
    obtain rfl := some.inj h
    refine ⟨?_, fun _ => .inl⟩
    rcases @deleteTuple_spec crc32c st.page slotId txnId hpage with ⟨e, heq⟩ | ⟨hs, hlive, _, -, hst⟩
    · rw [heq]
      exact (headerOnly_clearAllVisible _).goes hpage
    · exact hst.goes hs hlive
  | rewriteTupleSameSlot slotId newData txnId =>
    obtain rfl := some.inj h
    rcases @rewriteTupleSameSlot_spec crc32c st.page slotId newData txnId hpage with
      ⟨r, heq, hr⟩ | ⟨hs, hlive, hold, _, -, hst⟩
    · have hnone : returned slotId r = [] := by
        cases r with
        | error e => rfl
        | ok o =>
          cases o with
          | none => rfl
          | some old => exact absurd rfl (hr old)
      simp only [heq, hnone, nil_append]
      exact ⟨(headerOnly_clearAllVisible _).goes hpage, fun _ => .inl⟩
    · refine ⟨hst.goes hs hlive, fun entry hentry => ?_⟩
      simp only [hold, returned, singleton_append, mem_cons] at hentry
      rcases hentry with rfl | hentry
      · obtain ⟨-, hlen, hcap, -⟩ := hpage.tuple_bounds hs hlive
        exact .inr ⟨hs, by simpa using hlen, fun _ => by simpa using hcap⟩
      · exact .inl hentry
  | restoreTupleImage slotId tupleImage =>
    rw [step] at h
    split at h <;> cases h
    next hmem =>
      refine ⟨?_, fun _ => .inl⟩
      rcases @restoreTupleImage_spec crc32c st.page slotId tupleImage hpage (himages _ hmem).2.1 with
        ⟨e, heq⟩ | ⟨hs, hlive, -, hst⟩
      · rw [heq]
        exact .refl hpage
      · exact hst.goes hs hlive
  | clearDeletion slotId =>
    obtain rfl := some.inj h
    refine ⟨?_, fun _ => .inl⟩
    rcases @clearDeletion_spec crc32c st.page slotId hpage with heq | ⟨hs, hlive, _, -, hst⟩
    · rw [heq]
      exact .refl hpage
    · exact hst.goes hs hlive
  | markSlotDead slotId =>
    obtain rfl := some.inj h
    refine ⟨?_, fun _ => .inl⟩
    by_cases hs : slotId < numSlots st.page
    · obtain ⟨hvalid, -, hslots, -⟩ := @markSlotDead_slots crc32c st.page slotId hpage hs
      refine ⟨hvalid, hslots ▸ ages_set (fun u hu => by cases hu), fun j _ hjs => ?_⟩
      have hne : slotId ≠ j := Ne.symm hjs
      show (slots (markSlotDead crc32c st.page slotId).2)[j]? = _
      rw [hslots, getElem?_set_ne hne]
    · rw [markSlotDead, if_pos (by omega)]
      exact .refl hpage

theorem valid_new (magic pageType pageId : Nat) : Valid (new crc32c magic pageType pageId) := by
  rw [new]
  refine (headerOnly_updateChecksum crc32c _).valid ?_
  generalize hpage : fill _ 36 28 0 = page
  have hcount : numSlots page = 0 := by
    rw [← hpage, numSlots, (same_fill (by decide)).readLe,
      (same_writeLe (by decide)).readLe, (same_writeLe (by decide)).readLe,
      (same_writeLe (by decide)).readLe, (same_writeLe (by decide)).readLe,
      readLe_writeLe]
    rfl
  have hstart : freeStart page = HEADER_SIZE := by
    rw [← hpage, freeStart, (same_fill (by decide)).readLe,
      (same_writeLe (by decide)).readLe, readLe_writeLe]
    rfl
  have hend : freeEnd page = PAGE_SIZE := by
    rw [← hpage, freeEnd, (same_fill (by decide)).readLe, readLe_writeLe]
    rfl
  have hslots : slots page = [] := by rw [slots, hcount, range_zero, map_nil]
  refine ⟨by rw [hstart, hcount]; rfl, ?_, by rw [hend]; decide, by simp [hslots], fun i hi => ?_⟩
  · rw [hslots, hend]
    exact ⟨by decide, le_rfl, by simp, .nil⟩
  · omega

theorem reached_valid {magic pageType pageId : Nat}
    (h : Reached (step crc32c) Lib.free ⟨new crc32c magic pageType pageId, []⟩ st) :
    Valid st.page ∧ ∀ entry ∈ st.images, Fits st.page entry := by
  refine h.invariant (I := fun st => Valid st.page ∧ ∀ entry ∈ st.images, Fits st.page entry)
    ⟨valid_new .., by simp⟩ fun {st st' op} hst _ hstep => ?_
  obtain ⟨hgoes, himages⟩ := step_goes hst.1 hst.2 hstep
  refine ⟨hgoes.valid, fun entry hentry => hgoes.fits ?_⟩
  exact (himages entry hentry).elim (hst.2 entry) id

/-- The byte ranges of the slots: inside of the page behind `free_end`, aligned and apart. -/
structure RangesApart (page : ByteMem) : Prop where
  freeStart_eq : freeStart page = HEADER_SIZE + SLOT_ENTRY_SIZE * numSlots page
  freeStart_le : freeStart page ≤ freeEnd page
  inside : ∀ i < numSlots page, (readSlot page i).isDead = false →
    8 ∣ (readSlot page i).offset ∧ freeEnd page ≤ (readSlot page i).offset ∧
      (readSlot page i).offset + (readSlot page i).length ≤ PAGE_SIZE
  apart : ∀ i < numSlots page, ∀ j < numSlots page, i ≠ j → (readSlot page i).isDead = false →
    (readSlot page j).isDead = false →
    (readSlot page i).offset + (readSlot page i).length ≤ (readSlot page j).offset ∨
      (readSlot page j).offset + (readSlot page j).length ≤ (readSlot page i).offset

theorem Valid.rangesApart (h : Valid page) : RangesApart page := by
  have hroom := h.room
  refine ⟨h.freeStart_eq, by rw [h.freeStart_eq]; exact hroom, fun i hi hlive => ?_,
    fun i hi j hj hij hlive hlive' => ?_⟩
  · obtain ⟨t, ht, hoff⟩ := exists_slot hi hlive
    have hmem := mem_of_getElem? ht
    have hbound := h.layout.bounds t hmem
    have hlen := (h.length_eq ht).2
    have hpad := le_align8 t.length
    rw [stop] at hbound
    rw [← hoff, ← hlen]
    exact ⟨h.aligned t hmem, hbound.1, by omega⟩
  obtain ⟨t, ht, hoff⟩ := exists_slot hi hlive
  obtain ⟨u, hu, huoff⟩ := exists_slot hj hlive'
  have hapart := h.layout.get_apart ht hu (Ne.symm hij)
  have hlen := (h.length_eq ht).2
  have hulen := (h.length_eq hu).2
  have hpad := le_align8 t.length
  have hupad := le_align8 u.length
  rw [stop, stop] at hapart
  rw [← hoff, ← huoff, ← hlen, ← hulen]
  omega

theorem Stored.readTupleImage (h : Stored page s image page') (hs : s < numSlots page)
    (hlen : ROW_HEADER_SIZE ≤ image.length) : readTupleImage page' s = .ok (some image) := by
  have hlive : (readSlot page' s).isDead = false := by
    rw [h.entry_eq, SlotEntry.isDead, Bool.and_eq_false_iff]
    exact .inr (beq_eq_false_iff_ne.mpr (Nat.ne_of_gt (lt_of_lt_of_le (by decide) hlen)))
  rw [PageBytes.readTupleImage, h.numSlots_eq, if_neg (by omega)]
  simp only
  rw [hlive, if_neg Bool.false_ne_true, h.entry_eq]
  exact congrArg (Except.ok ∘ some) h.image_eq

/-- Over every run from a new page, the tuples are apart, an operation leaves the other slots as they
are, and an image is restored exactly where its slot is not dead. -/
theorem page_run_restores (crc32c : ByteMem → Nat) (magic pageType pageId : Nat) (st : State)
    (h : Reached (step crc32c) Lib.free ⟨new crc32c magic pageType pageId, []⟩ st) :
    RangesApart st.page ∧
      (∀ op st', step crc32c st op = some st' → ∀ j < numSlots st.page, j ≠ op.slot st.page →
        readTuple st'.page j = readTuple st.page j) ∧ ∀ slotId image, (slotId, image) ∈ st.images →
        ((restoreTupleImage crc32c st.page slotId image).1 = .ok () ↔
          (readSlot st.page slotId).isDead = false) ∧ ((readSlot st.page slotId).isDead = false →
          readTupleImage (restoreTupleImage crc32c st.page slotId image).2 slotId =
            .ok (some image)) := by
  obtain ⟨hpage, himages⟩ := reached_valid h
  refine ⟨hpage.rangesApart, fun op st' hstep j hj hne => ?_, fun slotId image hmem => ?_⟩
  · obtain ⟨hgoes, -⟩ := step_goes hpage himages hstep
    have hsame := hgoes.others j hj hne
    have hj' : j < numSlots st'.page := by
      have := hgoes.ages.1
      simp only [length_slots] at this
      omega
    rw [slots_getElem? hj, slots_getElem? hj', some.injEq] at hsame
    rw [readTuple_eq hj, readTuple_eq hj', hsame]
  obtain ⟨hs, hlen, hfit⟩ := himages _ hmem
  have hdead : (readSlot st.page slotId).isDead = true →
      (restoreTupleImage crc32c st.page slotId image).1 ≠ .ok () := fun hd heq => by
    rw [restoreTupleImage, liveEntry, if_neg (by omega), if_pos hd] at heq
    cases heq
  have hlive : (readSlot st.page slotId).isDead = false →
      (restoreTupleImage crc32c st.page slotId image).1 = .ok () := fun hl => by
    have hfit' := hfit hl
    rw [restoreTupleImage, liveEntry_of_live hs hl]
    simp only
    rw [if_neg (by simpa using hfit')]
  refine ⟨⟨fun hok => ?_, hlive⟩, fun hl => ?_⟩
  · by_contra hd
    exact hdead (by simpa using hd) hok
  rcases @restoreTupleImage_spec crc32c st.page slotId image hpage hlen with
    ⟨e, heq⟩ | ⟨-, -, -, hst⟩
  · have := hlive hl
    rw [heq] at this
    cases this
  · exact hst.readTupleImage hs hlen

/-- A row is inserted and rewritten. -/
def rewritten : List Op := [.insertTuple [1, 2, 3] 7, .rewriteTupleSameSlot 0 [4] 8]

/-- The image of the row as it was inserted. -/
def insertedImage : Bytes := headerBytes ⟨7, 0, 0, 0⟩ ++ [1, 2, 3]

theorem page_run_restores_rewritten : ∃ st : State,
    Reached (step fun _ => 0) Lib.free ⟨new (fun _ => 0) 0 0 5, []⟩ st ∧
      (0, insertedImage) ∈ st.images ∧ (readSlot st.page 0).isDead = false ∧
      readTupleImage (restoreTupleImage (fun _ => 0) st.page 0 insertedImage).2 0 =
        .ok (some insertedImage) := by
  have hreached : Reached (step fun _ => 0) Lib.free ⟨new (fun _ => 0) 0 0 5, []⟩ _ :=
    .of_run (l := rewritten) .init rfl
  have hmem : (0, insertedImage) ∈ _ := mem_singleton.mpr rfl
  exact ⟨_, hreached, hmem, rfl, ((page_run_restores _ _ _ _ _ hreached).2.2 0 _ hmem).2 rfl⟩

/-- The image of a slot that was marked dead after its rewrite is not restored. -/
theorem restore_fails_on_dead_slot : ∃ st : State,
    Reached (step fun _ => 0) Lib.free ⟨new (fun _ => 0) 0 0 5, []⟩ st ∧
      (0, insertedImage) ∈ st.images ∧
      (restoreTupleImage (fun _ => 0) st.page 0 insertedImage).1 = .error (.alreadyDeleted 5 0) :=
  ⟨_, .of_run (l := rewritten ++ [.markSlotDead 0]) .init rfl, mem_singleton.mpr rfl, rfl⟩

end AxiomDb.Heap.PageBytes
