import AxiomDb.Lib.Runs
import AxiomDb.Storage.FreeList

/-!
# The page allocator

The allocator of `MmapStorage`: the bitmap, the queue of pages that are freed
once no snapshot needs them, and the queue of recycled pages. To grow, the
allocator writes the new page count to page 0 before the bitmap takes it: past
the capacity of the bitmap it panics, with a page count on disk that no bitmap
can cover.
-/

namespace AxiomDb.Storage

open Lib List FreeList

def GROW_PAGES : Nat := 64

/-- How a call ends that does not return `Ok`. -/
inductive Failure where
  | err (e : AllocError)
  | panic
  deriving DecidableEq

/-- `MmapStorage` in `mmap.rs`. -/
structure MmapStorage where
  freelist : FreeList
  /-- The count in memory. -/
  pageCount : Nat
  /-- The count on page 0. -/
  metaPageCount : Nat
  /-- Pages with the snapshot at which each was freed. -/
  deferredFrees : List (Nat × Nat)
  recycleQueue : List Nat
  currentSnapshotId : Nat
  deriving DecidableEq

namespace MmapStorage

/-- `MmapStorage::do_grow` in `mmap.rs`. -/
def doGrow (extraPages : Nat) (s : MmapStorage) : Except Failure Nat × MmapStorage :=
  let newCount := s.pageCount + extraPages
  let grown := { s with metaPageCount := newCount, pageCount := newCount }
  match s.freelist.grow newCount with
  | none => (.error .panic, grown)
  | some fl => (.ok s.pageCount, { grown with freelist := fl })

/-- `MmapStorage::alloc_page` in `mmap.rs`. -/
def allocPage (s : MmapStorage) : Except Failure Nat × MmapStorage :=
  match s.freelist.alloc with
  | some (pageId, fl) => (.ok pageId, { s with freelist := fl })
  | none =>
    match s.doGrow GROW_PAGES with
    | (.error e, s) => (.error e, s)
    | (.ok _, s) =>
      match s.freelist.alloc with
      | some (pageId, fl) => (.ok pageId, { s with freelist := fl })
      | none => (.error (.err .storageFull), s)

/-- Up to `n` pages of the bitmap. -/
def allocSequential (n : Nat) (s : MmapStorage) : List Nat × MmapStorage :=
  ((s.freelist.allocBatchSequential n).1, { s with freelist := (s.freelist.allocBatchSequential n).2 })

/-- With `out` taken already: the file grows for the rest. -/
def growFor (n : Nat) (out : List Nat) (s : MmapStorage) : Except Failure (List Nat) × MmapStorage :=
  match s.doGrow (max (n - out.length) GROW_PAGES) with
  | (.error e, s) => (.error e, s)
  | (.ok _, s) =>
    let last := s.allocSequential (n - out.length)
    (if (out ++ last.1).length < n then .error (.err .storageFull) else .ok (out ++ last.1), last.2)

/-- `MmapStorage::alloc_page_batch` in `mmap.rs`. -/
def allocPageBatch (n : Nat) (s : MmapStorage) : Except Failure (List Nat) × MmapStorage :=
  let recycled := s.recycleQueue.take n
  let s := { s with recycleQueue := s.recycleQueue.drop n }
  if recycled.length = n then (.ok recycled, s)
  else
    let first := s.allocSequential (n - recycled.length)
    let out := recycled ++ first.1
    if out.length = n then (.ok out, first.2)
    else
      -- under the grow lock the bitmap is tried again
      let second := first.2.allocSequential (n - out.length)
      let out := out ++ second.1
      if out.length < n then growFor n out second.2 else (.ok out, second.2)

/-- With no recycled pages, all come from the bitmap. -/
theorem allocPageBatch_of_queue_nil {s : MmapStorage} {n : Nat} (h : s.recycleQueue = []) :
    s.allocPageBatch n = if n = 0 then (.ok [], s) else
        let first := s.allocSequential n
        if first.1.length = n then (.ok first.1, first.2)
        else
          let second := first.2.allocSequential (n - first.1.length)
          if (first.1 ++ second.1).length < n then growFor n (first.1 ++ second.1) second.2
          else (.ok (first.1 ++ second.1), second.2) := by
  obtain ⟨fl, pageCount, metaPageCount, deferred, queue, snapshot⟩ := s
  subst h
  simp only [allocPageBatch, take_nil, drop_nil, length_nil, nil_append, Nat.sub_zero,
    eq_comm (a := 0) (b := n)]

/-- `MmapStorage::free_page` in `mmap.rs`. -/
def freePage (pageId : Nat) (s : MmapStorage) : Except Failure Unit × MmapStorage :=
  if pageId = 0 ∨ pageId = 1 then (.error (.err (.reservedPage pageId)), s)
  else if pageId ∈ s.deferredFrees.map Prod.fst ∨ s.freelist.isFree pageId then
    (.error (.err (.doubleFree pageId)), s)
  else (.ok (), { s with deferredFrees := s.deferredFrees ++ [(pageId, s.currentSnapshotId)] })

/-- `MmapStorage::free_page_batch` in `mmap.rs`. -/
def freePageBatch (ids : List Nat) (s : MmapStorage) : Except Failure Unit × MmapStorage :=
  let result := FreeList.freeBatch ids s.freelist
  (match result.1 with
    | none => .ok ()
    | some e => .error (.err e), { s with freelist := result.2 })

/-- The deferred pages that `oldest` allows are freed, up to one that cannot be. -/
def freeDeferred (oldest : Nat) : List (Nat × Nat) → FreeList → Option AllocError × FreeList
  | [], fl => (none, fl)
  | d :: ds, fl =>
    if d.2 ≤ oldest then
      match fl.free d.1 with
      | .ok fl => freeDeferred oldest ds fl
      | .error e => (some e, fl)
    else freeDeferred oldest ds fl

/-- Recycled pages go back to the bitmap; those that are free already are skipped. -/
def foldRecycled : List Nat → FreeList → FreeList
  | [], fl => fl
  | pageId :: ids, fl =>
    match fl.free pageId with
    | .ok fl => foldRecycled ids fl
    | .error _ => foldRecycled ids fl

/-- After an error the deferred pages are gone: the queue had been drained. -/
def releaseDeferredFrees (oldest : Nat) (s : MmapStorage) : Except Failure Unit × MmapStorage :=
  match freeDeferred oldest s.deferredFrees s.freelist with
  | (some e, fl) => (.error (.err e), { s with freelist := fl, deferredFrees := [] })
  | (none, fl) =>
    (.ok (), { s with
      freelist := foldRecycled s.recycleQueue fl
      deferredFrees := s.deferredFrees.filter fun d => ¬d.2 ≤ oldest
      recycleQueue := [] })

/-- What a flush does to the allocator; the rest of it writes pages out. -/
def flush (s : MmapStorage) : Except Failure Unit × MmapStorage :=
  s.releaseDeferredFrees (2 ^ 64 - 1)

end MmapStorage

/-! ## Sequences of calls -/

/-- The allocator, the pages that are allocated, and those of them that came from
`alloc_page_batch`. -/
structure State where
  storage : MmapStorage
  allocated : List Nat
  batch : List Nat

inductive Event where
  | allocPage
  | allocPageBatch (n : Nat)
  | freePage (pageId : Nat)
  | freePageBatch (ids : List Nat)
  | releaseDeferredFrees (oldest : Nat)
  | flush
  | setCurrentSnapshot (snapshotId : Nat)

namespace State

/-- Pages are no longer allocated. -/
def drop (s : State) (ids : List Nat) (storage : MmapStorage) : State :=
  ⟨storage, s.allocated.filter (· ∉ ids), s.batch.filter (· ∉ ids)⟩

end State

/-- `free_page_batch` is for pages from `alloc_page_batch` that have not been freed. -/
def step (s : State) : Event → Option State
  | .allocPage =>
    match s.storage.allocPage with
    | (.ok p, storage) => some ⟨storage, p :: s.allocated, s.batch⟩
    | (.error _, storage) => some { s with storage }
  | .allocPageBatch n =>
    match s.storage.allocPageBatch n with
    | (.ok ids, storage) => some ⟨storage, ids ++ s.allocated, ids ++ s.batch⟩
    | (.error _, storage) => some { s with storage }
  | .freePage p =>
    match s.storage.freePage p with
    | (.ok _, storage) => some (s.drop [p] storage)
    | (.error _, storage) => some { s with storage }
  | .freePageBatch ids =>
    if ids.Nodup ∧ ∀ p ∈ ids, p ∈ s.batch then
      some (s.drop ids (s.storage.freePageBatch ids).2)
    else none
  | .releaseDeferredFrees oldest => some { s with storage := (s.storage.releaseDeferredFrees oldest).2 }
  | .flush => some { s with storage := s.storage.flush.2 }
  | .setCurrentSnapshot snapshotId =>
    some { s with storage := { s.storage with currentSnapshotId := snapshotId } }

/-- The file does not grow past the capacity of the bitmap, and pages that are freed exist. -/
def Fits (s : State) : Event → Prop
  | .allocPage =>
    0 < s.storage.freelist.freeCount ∨ s.storage.pageCount + GROW_PAGES ≤ BITMAP_CAPACITY
  | .allocPageBatch n =>
    n ≤ s.storage.freelist.freeCount ∨
      s.storage.pageCount + max (n - s.storage.freelist.freeCount) GROW_PAGES ≤ BITMAP_CAPACITY
  | .freePage p => p < s.storage.pageCount
  | _ => True

instance (s : State) (e : Event) : Decidable (Fits s e) :=
  match e with
  | .allocPage => inferInstanceAs (Decidable (_ ∨ _))
  | .allocPageBatch _ => inferInstanceAs (Decidable (_ ∨ _))
  | .freePage _ => inferInstanceAs (Decidable (_ < _))
  | .freePageBatch _ | .releaseDeferredFrees _ | .flush | .setCurrentSnapshot _ =>
    inferInstanceAs (Decidable True)

/-! ## What the calls keep -/

/-- A page that an allocation may return. -/
def Fresh (s : State) (p : Nat) : Prop :=
  2 ≤ p ∧ p ∉ s.allocated ∧ p ∉ s.storage.deferredFrees.map Prod.fst

/-- Free pages are fresh; pages that are allocated or wait to be freed are used, and no page is
both. -/
structure Kept (s : State) : Prop where
  metaCount : s.storage.metaPageCount = s.storage.freelist.bits.length
  pageCount : s.storage.pageCount = s.storage.freelist.bits.length
  capacity : s.storage.freelist.bits.length ≤ BITMAP_CAPACITY
  queue : s.storage.recycleQueue = []
  room : 2 ≤ s.storage.freelist.bits.length
  free : ∀ p : Nat, s.storage.freelist.bits[p]? = some true → Fresh s p
  allocated : ∀ p ∈ s.allocated, 2 ≤ p ∧ p < s.storage.freelist.bits.length ∧
    p ∉ s.storage.deferredFrees.map Prod.fst
  deferred : ∀ p ∈ s.storage.deferredFrees.map Prod.fst, 2 ≤ p ∧ p < s.storage.freelist.bits.length
  nodup : (s.storage.deferredFrees.map Prod.fst).Nodup
  batch : ∀ p ∈ s.batch, p ∈ s.allocated

namespace Kept

variable {s : State} {fl : FreeList} {ids : List Nat}

variable {allocated batch : List Nat} {n p : Nat}

section

variable (hs : Kept s)
include hs

theorem take (h : s.storage.freelist.Takes ids fl)
    (hmem : ∀ p, p ∈ allocated ↔ p ∈ ids ∨ p ∈ s.allocated) (hbatch : ∀ p ∈ batch, p ∈ allocated) :
    (∀ p ∈ ids, Fresh s p) ∧ Kept ⟨{ s.storage with freelist := fl }, allocated, batch⟩ := by
  have hfresh : ∀ p ∈ ids, Fresh s p := fun p hp => hs.free p (h.free p hp)
  refine ⟨hfresh, ⟨hs.metaCount.trans h.length.symm, hs.pageCount.trans h.length.symm,
    h.length ▸ hs.capacity, hs.queue, h.length ▸ hs.room, fun p hp => ?_, fun p hp => ?_,
    fun p hp => ?_, hs.nodup, hbatch⟩⟩
  · have hp : fl.bits[p]? = some true := hp
    rw [h.bits] at hp
    split at hp
    · cases hp
    next hnot =>
      obtain ⟨h1, h2, h3⟩ := hs.free p hp
      exact ⟨h1, by simp [hmem, hnot, h2], h3⟩
  · show 2 ≤ p ∧ p < fl.bits.length ∧ p ∉ s.storage.deferredFrees.map Prod.fst
    rw [h.length]
    rcases (hmem p).mp hp with hp | hp
    · obtain ⟨h1, -, h3⟩ := hfresh p hp
      exact ⟨h1, (List.getElem?_eq_some_iff.mp (h.free p hp)).1, h3⟩
    · exact hs.allocated p hp
  · show 2 ≤ p ∧ p < fl.bits.length
    rw [h.length]
    exact hs.deferred p hp

/-- The file grows within the capacity. -/
theorem grow {extra : Nat} (hpos : 0 < extra)
    (hfit : s.storage.pageCount + extra ≤ BITMAP_CAPACITY) :
    ∃ storage, s.storage.doGrow extra = (.ok s.storage.pageCount, storage) ∧
      storage.freelist.freeCount = s.storage.freelist.freeCount + extra ∧
      storage.deferredFrees = s.storage.deferredFrees ∧ Kept ⟨storage, s.allocated, s.batch⟩ := by
  have hcount := hs.pageCount
  have hroom := hs.room
  have hgrow : s.storage.freelist.grow (s.storage.pageCount + extra) =
      some ⟨s.storage.freelist.bits ++ replicate extra true⟩ := by
    rw [FreeList.grow, FreeList.totalPages, if_pos ⟨by omega, hfit⟩, hcount]
    simp
  have hlen : (s.storage.freelist.bits ++ replicate extra true).length =
      s.storage.pageCount + extra := by simp [hcount]
  refine ⟨{ s.storage with
      metaPageCount := s.storage.pageCount + extra
      pageCount := s.storage.pageCount + extra
      freelist := ⟨s.storage.freelist.bits ++ replicate extra true⟩ },
    by rw [MmapStorage.doGrow, hgrow], by simp [freeCount], rfl, hlen.symm, hlen.symm,
    hlen.trans_le hfit, hs.queue, ?_, fun p hp => ?_, fun p hp => ?_, fun p hp => ?_, hs.nodup,
    hs.batch⟩
  · show 2 ≤ (s.storage.freelist.bits ++ replicate extra true).length
    omega
  · by_cases hlt : p < s.storage.freelist.bits.length
    · exact hs.free p ((getElem?_append_left hlt).symm.trans hp)
    · -- a page past the old end of the file
      exact ⟨by omega, fun h => hlt (hs.allocated p h).2.1, fun h => hlt (hs.deferred p h).2⟩
  · show 2 ≤ p ∧ p < (s.storage.freelist.bits ++ replicate extra true).length ∧ _
    have := hs.allocated p hp
    exact ⟨this.1, by omega, this.2.2⟩
  · show 2 ≤ p ∧ p < (s.storage.freelist.bits ++ replicate extra true).length
    have := hs.deferred p hp
    omega

/-- Pages that are neither allocated nor deferred any more are given back to the bitmap. -/
theorem give (h : s.storage.freelist.Gives ids fl) {deferred : List (Nat × Nat)}
    (hdeferred : deferred.Sublist s.storage.deferredFrees)
    (hallocated : ∀ p ∈ allocated, p ∈ s.allocated) (hbatch : ∀ p ∈ batch, p ∈ allocated)
    (hids : ∀ p ∈ ids, 2 ≤ p ∧ p ∉ allocated ∧ p ∉ deferred.map Prod.fst) :
    Kept ⟨{ s.storage with freelist := fl, deferredFrees := deferred }, allocated, batch⟩ := by
  have hsub := hdeferred.map Prod.fst
  refine ⟨hs.metaCount.trans h.length.symm, hs.pageCount.trans h.length.symm,
    h.length ▸ hs.capacity, hs.queue, h.length ▸ hs.room, fun p hp => ?_, fun p hp => ?_,
    fun p hp => ?_, hs.nodup.sublist hsub, hbatch⟩
  · have hp : fl.bits[p]? = some true := hp
    rw [h.bits] at hp
    split at hp
    next hmem => exact hids p hmem
    next =>
      obtain ⟨h1, h2, h3⟩ := hs.free p hp
      exact ⟨h1, fun h => h2 (hallocated p h), fun h => h3 (hsub.subset h)⟩
  · show 2 ≤ p ∧ p < fl.bits.length ∧ p ∉ deferred.map Prod.fst
    rw [h.length]
    obtain ⟨h1, h2, h3⟩ := hs.allocated p (hallocated p hp)
    exact ⟨h1, h2, fun h => h3 (hsub.subset h)⟩
  · show 2 ≤ p ∧ p < fl.bits.length
    rw [h.length]
    exact hs.deferred p (hsub.subset hp)

theorem used (hlt : p < s.storage.freelist.bits.length) (h : ¬Fresh s p) :
    s.storage.freelist.bits[p]? = some false := by
  cases hbit : s.storage.freelist.bits[p]? with
  | none => exact absurd (getElem?_eq_none_iff.mp hbit) (by omega)
  | some b =>
    cases b with
    | false => rfl
    | true => exact absurd (hs.free p hbit) h

theorem allocPage (hfit : Fits s .allocPage) :
    ∃ p storage, s.storage.allocPage = (.ok p, storage) ∧ Fresh s p ∧
      Kept ⟨storage, p :: s.allocated, s.batch⟩ := by
  have hbatch : ∀ p, ∀ q ∈ s.batch, q ∈ p :: s.allocated := fun p q hq =>
    mem_cons_of_mem _ (hs.batch q hq)
  rw [MmapStorage.allocPage]
  split
  next p fl h =>
    obtain ⟨hfree, rfl⟩ := alloc_some h
    obtain ⟨hfresh, hkept⟩ := hs.take (takes_markUsed hfree) (by simp) (hbatch p)
    exact ⟨p, _, rfl, hfresh p mem_cons_self, hkept⟩
  next h =>
    have hcount := alloc_none h
    obtain ⟨storage, hgrow, hnew, hdeferred, hs'⟩ := hs.grow (by decide : 0 < GROW_PAGES)
      (hfit.resolve_left (by omega))
    rw [hgrow]
    dsimp only
    split
    next p fl h =>
      obtain ⟨hfree, rfl⟩ := alloc_some h
      obtain ⟨hfresh, hkept⟩ := hs'.take (takes_markUsed hfree) (by simp) (hbatch p)
      refine ⟨p, _, rfl, ?_, hkept⟩
      have := hfresh p mem_cons_self
      simpa only [Fresh, hdeferred] using this
    next h =>
      have := alloc_none h
      rw [hnew, GROW_PAGES] at this
      omega

/-- What is taken after the file has grown. -/
theorem growFor {out : List Nat} (hlt : out.length < n) (hcount : s.storage.freelist.freeCount = 0)
    (hfit : s.storage.pageCount + max (n - out.length) GROW_PAGES ≤ BITMAP_CAPACITY)
    (hmem : ∀ ids p, p ∈ out ++ ids ++ allocated ↔ p ∈ ids ∨ p ∈ s.allocated)
    (hbatch : ∀ p ∈ batch, p ∈ allocated) :
    ∃ ids storage, s.storage.growFor n out = (.ok (out ++ ids), storage) ∧
      (out ++ ids).length = n ∧ ids.Nodup ∧ (∀ p ∈ ids, Fresh s p) ∧
      Kept ⟨storage, out ++ ids ++ allocated, out ++ ids ++ batch⟩ := by
  obtain ⟨storage, hgrow, hnew, hdeferred, hs'⟩ := hs.grow (by omega) hfit
  have htakes := storage.freelist.takes_allocBatchSequential (n - out.length)
  have hlen : (out ++ (storage.freelist.allocBatchSequential (n - out.length)).1).length = n := by
    have := storage.freelist.length_allocBatchSequential (n - out.length)
    rw [length_append]
    omega
  obtain ⟨hfresh, hkept⟩ := hs'.take htakes (hmem _) (fun p hp => by
    rcases mem_append.mp hp with hp | hp
    · exact mem_append_left _ hp
    · exact mem_append_right _ (hbatch p hp))
  refine ⟨_, _, ?_, hlen, htakes.nodup, fun p hp => ?_, hkept⟩
  · rw [MmapStorage.growFor, hgrow]
    simp only [MmapStorage.allocSequential, hlen, lt_irrefl, if_false]
  · simpa only [Fresh, hdeferred] using hfresh p hp

theorem allocPageBatch (hfit : Fits s (.allocPageBatch n)) :
    ∃ ids storage, s.storage.allocPageBatch n = (.ok ids, storage) ∧ ids.length = n ∧ ids.Nodup ∧
      (∀ p ∈ ids, Fresh s p) ∧ Kept ⟨storage, ids ++ s.allocated, ids ++ s.batch⟩ := by
  have hbatch (ids : List Nat) : ∀ p ∈ ids ++ s.batch, p ∈ ids ++ s.allocated := fun p hp => by
    rcases mem_append.mp hp with hp | hp
    · exact mem_append_left _ hp
    · exact mem_append_right _ (hs.batch p hp)
  have htakes := s.storage.freelist.takes_allocBatchSequential n
  have hlength := s.storage.freelist.length_allocBatchSequential n
  rcases hfirst : s.storage.freelist.allocBatchSequential n with ⟨out, fl⟩
  rw [hfirst] at htakes hlength
  obtain ⟨hfresh, hkept⟩ := hs.take htakes (fun p => mem_append) (hbatch _)
  rw [MmapStorage.allocPageBatch_of_queue_nil hs.queue]
  split
  next hn => exact ⟨[], s.storage, rfl, hn.symm, .nil, by simp, hs⟩
  simp only [MmapStorage.allocSequential, hfirst]
  split
  next hlen => exact ⟨_, _, rfl, hlen, htakes.nodup, hfresh, hkept⟩
  next hlen =>
    -- the bitmap is used up, so the second try takes nothing
    obtain ⟨hcount, hlt, hempty⟩ := hlength.resolve_left hlen
    dsimp only at hcount hempty
    have hshort : out.length < n := hcount.trans_lt hlt
    have hgrows : s.storage.pageCount + max (n - out.length) GROW_PAGES ≤ BITMAP_CAPACITY := by
      rw [hcount]
      exact hfit.resolve_left (by omega)
    have hmem (ids : List Nat) (p : Nat) :
        p ∈ out ++ ids ++ s.allocated ↔ p ∈ ids ∨ p ∈ out ++ s.allocated := by
      simp only [mem_append]
      tauto
    obtain ⟨hnil, hsame⟩ := (fl.takes_allocBatchSequential (n - out.length)).eq_nil hempty
    obtain ⟨ids, storage, hgrow, hlen', hnd, hfresh', hkept'⟩ :=
      hkept.growFor hshort hempty hgrows hmem hs.batch
    rw [hnil, hsame, append_nil, if_pos hshort]
    refine ⟨out ++ ids, storage, hgrow, hlen', ?_, fun p hp => ?_, hkept'⟩
    · refine nodup_append.mpr ⟨htakes.nodup, hnd, fun a ha b hb hab => ?_⟩
      exact (hfresh' b hb).2.1 (mem_append_left _ (hab ▸ ha))
    rcases mem_append.mp hp with hp | hp
    · exact hfresh p hp
    · obtain ⟨h1, h2, h3⟩ := hfresh' p hp
      exact ⟨h1, fun h => h2 (mem_append_right _ h), h3⟩

theorem freePage (hlt : p < s.storage.pageCount) {storage : MmapStorage}
    (h : s.storage.freePage p = (.ok (), storage)) : Kept (s.drop [p] storage) := by
  rw [MmapStorage.freePage] at h
  split at h
  · cases h
  next hreserved =>
    split at h
    · cases h
    next hused =>
      cases h
      rw [not_or] at hused
      have hmap : (s.storage.deferredFrees ++ [(p, s.storage.currentSnapshotId)]).map Prod.fst =
          s.storage.deferredFrees.map Prod.fst ++ [p] := by simp
      refine ⟨hs.metaCount, hs.pageCount, hs.capacity, hs.queue, hs.room, fun q hq => ?_,
        fun q hq => ?_, fun q hq => ?_, ?_, fun q hq => ?_⟩
      · have hne : q ≠ p := fun hqp => hused.2 (by
          rw [isFree, ← hqp]
          exact beq_iff_eq.mpr hq)
        obtain ⟨h1, h2, h3⟩ := hs.free q hq
        refine ⟨h1, fun h => h2 (mem_of_mem_filter h), ?_⟩
        simp only [State.drop, hmap, mem_append, mem_singleton, not_or]
        exact ⟨h3, hne⟩
      · simp only [State.drop, mem_filter, mem_singleton, decide_not, Bool.not_eq_true',
          decide_eq_false_iff_not] at hq
        obtain ⟨h1, h2, h3⟩ := hs.allocated q hq.1
        refine ⟨h1, h2, ?_⟩
        simp only [State.drop, hmap, mem_append, mem_singleton, not_or]
        exact ⟨h3, hq.2⟩
      · simp only [State.drop, hmap, mem_append, mem_singleton] at hq
        rcases hq with hq | rfl
        · exact hs.deferred q hq
        · exact ⟨by omega, hs.pageCount ▸ hlt⟩
      · simp only [State.drop, hmap]
        exact nodup_append.mpr ⟨hs.nodup, nodup_singleton p, fun a ha b hb hab =>
          hused.1 (mem_singleton.mp hb ▸ hab ▸ ha)⟩
      · simp only [State.drop, mem_filter] at hq ⊢
        exact ⟨hs.batch q hq.1, hq.2⟩

theorem freePageBatch (hnd : ids.Nodup) (hids : ∀ p ∈ ids, p ∈ s.batch) :
    Kept (s.drop ids (s.storage.freePageBatch ids).2) := by
  have hused : ∀ p ∈ ids, s.storage.freelist.bits[p]? = some false := fun p hp =>
    hs.used (hs.allocated p (hs.batch p (hids p hp))).2.1 fun h => h.2.1 (hs.batch p (hids p hp))
  obtain ⟨fl, hfree, hgives⟩ := freeBatch_ok hnd hused
  rw [MmapStorage.freePageBatch, hfree]
  refine hs.give hgives (Sublist.refl _) (fun p hp => mem_of_mem_filter hp)
    (fun p hp => ?_) fun p hp => ?_
  · simp only [mem_filter] at hp ⊢
    exact ⟨hs.batch p hp.1, hp.2⟩
  · obtain ⟨h1, -, h3⟩ := hs.allocated p (hs.batch p (hids p hp))
    exact ⟨h1, by simp [hp], h3⟩

end

end Kept

/-- The deferred pages that `oldest` allows to free. -/
def due (oldest : Nat) (ds : List (Nat × Nat)) : List Nat :=
  (ds.filter fun d => d.2 ≤ oldest).map Prod.fst

/-- Where all can be freed, the loop is the batch. -/
theorem freeDeferred_eq {oldest : Nat} {ds : List (Nat × Nat)} {fl fl' : FreeList}
    (h : freeBatch (due oldest ds) fl = (none, fl')) :
    MmapStorage.freeDeferred oldest ds fl = (none, fl') := by
  induction ds generalizing fl with
  | nil => exact h
  | cons d ds ih =>
    rw [MmapStorage.freeDeferred]
    by_cases hd : d.2 ≤ oldest
    · rw [due, filter_cons_of_pos (by simpa using hd), map_cons, freeBatch] at h
      rw [if_pos hd]
      cases hfree : fl.free d.1 with
      | ok fl1 =>
        rw [hfree] at h
        exact ih h
      | error e =>
        rw [hfree] at h
        cases h
    · rw [due, filter_cons_of_neg (by simpa using hd)] at h
      rw [if_neg hd]
      exact ih h

theorem Kept.releaseDeferredFrees {s : State} (hs : Kept s) (oldest : Nat) :
    Kept { s with storage := (s.storage.releaseDeferredFrees oldest).2 } := by
  have hmem : ∀ p ∈ due oldest s.storage.deferredFrees, p ∈ s.storage.deferredFrees.map Prod.fst :=
    fun p hp => (filter_sublist.map Prod.fst).subset hp
  have hused : ∀ p ∈ due oldest s.storage.deferredFrees, s.storage.freelist.bits[p]? = some false :=
    fun p hp => hs.used (hs.deferred p (hmem p hp)).2 fun h => h.2.2 (hmem p hp)
  obtain ⟨fl, hfree, hgives⟩ := freeBatch_ok (hs.nodup.sublist (filter_sublist.map Prod.fst)) hused
  have hkept : Kept ⟨{ s.storage with
      freelist := fl
      deferredFrees := s.storage.deferredFrees.filter fun d => ¬d.2 ≤ oldest },
      s.allocated, s.batch⟩ := by
    refine hs.give hgives filter_sublist (fun p hp => hp) hs.batch fun p hp => ?_
    refine ⟨(hs.deferred p (hmem p hp)).1, fun h => (hs.allocated p h).2.2 (hmem p hp), fun h => ?_⟩
    -- one page is not in the queue twice
    obtain ⟨d, hd, rfl⟩ := mem_map.mp hp
    obtain ⟨d', hd', heq⟩ := mem_map.mp h
    rw [mem_filter, decide_eq_true_eq] at hd hd'
    obtain rfl := inj_on_of_nodup_map hs.nodup hd'.1 hd.1 heq
    exact hd'.2 hd.2
  rw [MmapStorage.releaseDeferredFrees, freeDeferred_eq hfree]
  simpa only [hs.queue, MmapStorage.foldRecycled] using hkept

theorem kept_step {s s' : State} {e : Event} (hs : Kept s) (hok : Fits s e)
    (h : step s e = some s') : Kept s' := by
  cases e with
  | allocPage =>
    obtain ⟨p, storage, halloc, -, hkept⟩ := hs.allocPage hok
    rw [step, halloc] at h
    cases h
    exact hkept
  | allocPageBatch n =>
    obtain ⟨ids, storage, halloc, -, -, -, hkept⟩ := hs.allocPageBatch hok
    rw [step, halloc] at h
    cases h
    exact hkept
  | freePage p =>
    rw [step] at h
    split at h
    next storage hfree =>
      cases h
      exact hs.freePage hok hfree
    next e storage hfree =>
      cases h
      -- a call that fails changes nothing
      obtain rfl : s.storage = storage := by
        rw [MmapStorage.freePage] at hfree
        split at hfree
        · exact (Prod.mk.inj hfree).2
        split at hfree
        · exact (Prod.mk.inj hfree).2
        · cases hfree
      exact hs
  | freePageBatch ids =>
    rw [step] at h
    split at h <;> cases h
    next hids => exact hs.freePageBatch hids.1 hids.2
  | releaseDeferredFrees oldest =>
    cases h
    exact hs.releaseDeferredFrees oldest
  | flush =>
    cases h
    exact hs.releaseDeferredFrees _
  | setCurrentSnapshot snapshotId =>
    cases h
    exact { hs with }

/-! ## Runs -/

/-- A file that is opened, with the pages that its bitmap has as used. -/
def opened (fl : FreeList) : State :=
  ⟨⟨fl, fl.totalPages, fl.totalPages, [], [], 0⟩,
    (range fl.totalPages).filter fun p => 2 ≤ p ∧ !fl.isFree p, []⟩

/-- `MmapStorage::create`: the meta page and the bitmap page are used. -/
def created : State := opened ⟨false :: false :: replicate (GROW_PAGES - 2) true⟩

/-- The bitmap of a file: it has the meta page and the bitmap page, both used, and is not larger
than its page. -/
structure FreeList.Valid (fl : FreeList) : Prop where
  reserved : ∀ p < 2, fl.bits[p]? = some false
  capacity : fl.totalPages ≤ BITMAP_CAPACITY

theorem kept_opened {fl : FreeList} (h : fl.Valid) : Kept (opened fl) := by
  have hroom : 1 < fl.bits.length := (List.getElem?_eq_some_iff.mp (h.reserved 1 (by omega))).1
  refine ⟨rfl, rfl, h.capacity, rfl, hroom, fun p hp => ⟨?_, fun hmem => ?_, by simp [opened]⟩,
    fun p hp => ?_, by simp [opened], by simp [opened], by simp [opened]⟩
  · by_contra hlt
    have := (h.reserved p (by omega)).symm.trans hp
    simp at this
  · simp only [opened, mem_filter, isFree] at hmem
    have hp : fl.bits[p]? = some true := hp
    simp [hp] at hmem
  · simp only [opened, mem_filter, mem_range, FreeList.totalPages] at hp ⊢
    exact ⟨by simp at hp; omega, hp.1, by simp⟩

/-- While the file does not grow past the capacity of the bitmap and only pages of the file are
freed, allocations return as many pages as are asked for, all different, none of them reserved,
allocated or waiting to be freed, and the page count on page 0 is one that a bitmap can cover. -/
theorem allocator_hands_out_fresh_pages {fl : FreeList} (hfl : fl.Valid) {s : State}
    (h : Reached step Fits (opened fl) s) : s.storage.metaPageCount ≤ BITMAP_CAPACITY ∧
      (Fits s .allocPage → ∃ p storage, s.storage.allocPage = (.ok p, storage) ∧ Fresh s p) ∧
      ∀ n, Fits s (.allocPageBatch n) → ∃ ids storage,
        s.storage.allocPageBatch n = (.ok ids, storage) ∧ ids.length = n ∧ ids.Nodup ∧
          ∀ p ∈ ids, Fresh s p := by
  have hs := h.invariant (kept_opened hfl) kept_step
  refine ⟨hs.metaCount.trans_le hs.capacity, fun hfit => ?_, fun n hfit => ?_⟩
  · obtain ⟨p, storage, halloc, hfresh, -⟩ := hs.allocPage hfit
    exact ⟨p, storage, halloc, hfresh⟩
  · obtain ⟨ids, storage, halloc, hlen, hnd, hfresh, -⟩ := hs.allocPageBatch hfit
    exact ⟨ids, storage, halloc, hlen, hnd, hfresh⟩

/-- On a new file: a page is allocated and freed, a batch makes the file grow, the page is released
and used again, and another one waits to be freed. Then one page is asked for, and a batch that
makes the file grow again. -/
theorem allocator_hands_out_fresh_pages_grown : ∃ s, Reached step Fits created s ∧
    s.storage.pageCount = 128 ∧ s.storage.deferredFrees.map Prod.fst = [7] ∧
      (∃ p storage, s.storage.allocPage = (.ok p, storage) ∧ Fresh s p) ∧
      ∃ ids storage, s.storage.allocPageBatch 70 = (.ok ids, storage) ∧ ids.length = 70 ∧
        ids.Nodup ∧ ∀ p ∈ ids, Fresh s p := by
  have hvalid : (⟨false :: false :: replicate (GROW_PAGES - 2) true⟩ : FreeList).Valid :=
    ⟨fun p hp => by interval_cases p <;> rfl, by decide⟩
  obtain ⟨s, hs, hend⟩ : ∃ s, Reached step Fits created s ∧
      decide (s.storage.pageCount = 128 ∧ s.storage.deferredFrees.map Prod.fst = [7]) = true :=
    Reached.exists_of_run (l := [.allocPage, .freePage 2, .allocPageBatch 62, .freePageBatch [3, 4],
      .releaseDeferredFrees 0, .allocPage, .setCurrentSnapshot 9, .freePage 7,
      .releaseDeferredFrees 8]) (by decide +kernel)
  obtain ⟨hcount, hdeferred⟩ := of_decide_eq_true hend
  have hgrow : ∀ n ≤ 70, s.storage.pageCount + max (n - s.storage.freelist.freeCount) GROW_PAGES ≤
      BITMAP_CAPACITY := by
    intro n hn
    rw [hcount, GROW_PAGES, BITMAP_CAPACITY]
    omega
  obtain ⟨-, hone, hbatch⟩ := allocator_hands_out_fresh_pages hvalid hs
  refine ⟨s, hs, hcount, hdeferred, hone (.inr ?_), hbatch 70 (.inr (hgrow 70 le_rfl))⟩
  have := hgrow 0 (by omega)
  omega

theorem alloc_replicate_used (n : Nat) : (⟨replicate n false⟩ : FreeList).alloc = none := by
  rw [alloc, Option.map_eq_none_iff, idxOf?_eq_none_iff]
  simp

/-- No page is free, and the bitmap cannot cover more: the count is written, and the call panics. -/
theorem allocPage_panics {s : State} (halloc : s.storage.freelist.alloc = none)
    (hfull : BITMAP_CAPACITY < s.storage.pageCount + GROW_PAGES) :
    s.storage.allocPage.1 = .error .panic ∧
      ∃ s', step s .allocPage = some s' ∧ BITMAP_CAPACITY < s'.storage.metaPageCount := by
  have hgrow : s.storage.freelist.grow (s.storage.pageCount + GROW_PAGES) = none := by
    rw [FreeList.grow, if_neg (by omega)]
  simp only [step, MmapStorage.allocPage, halloc, MmapStorage.doGrow, hgrow]
  exact ⟨trivial, _, rfl, hfull⟩

/-- When all pages that the bitmap can cover are used, the next allocation panics, and has written a
larger page count to page 0. A page past the end of the file can be freed, and is then allocated
while it waits to be freed. -/
theorem exhausted_allocator_panics :
    (opened ⟨replicate BITMAP_CAPACITY false⟩).storage.allocPage.1 = .error .panic ∧
      (∃ s, Reached step free (opened ⟨replicate BITMAP_CAPACITY false⟩) s ∧
        BITMAP_CAPACITY < s.storage.metaPageCount) ∧ ∃ s, Reached step free created s ∧
        decide (64 ∈ s.allocated ∧ 64 ∈ s.storage.deferredFrees.map Prod.fst) = true := by
  have hcount : (opened ⟨replicate BITMAP_CAPACITY false⟩).storage.pageCount = BITMAP_CAPACITY := by
    simp only [opened, FreeList.totalPages, length_replicate]
  have hfull : BITMAP_CAPACITY < (opened ⟨replicate BITMAP_CAPACITY false⟩).storage.pageCount +
      GROW_PAGES := by
    rw [hcount]
    decide
  obtain ⟨hpanic, s, hstep, hmeta⟩ := allocPage_panics
    (show (opened ⟨replicate BITMAP_CAPACITY false⟩).storage.freelist.alloc = none from
      alloc_replicate_used _) hfull
  exact ⟨hpanic, ⟨s, .step .init trivial hstep, hmeta⟩,
    Reached.exists_of_run (l := [.freePage 64, .allocPageBatch 63]) (by decide +kernel)⟩

end AxiomDb.Storage
