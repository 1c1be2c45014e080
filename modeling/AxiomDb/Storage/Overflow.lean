import AxiomDb.Heap.PageBytes
import AxiomDb.Storage.FreeList

/-!
# Overflow chains

Long payloads are cut into chunks, each on a page of its own that holds the number
of the next one. There are two page formats: the older one starts with the number
of the next page, the other with a magic number, and its first page counts the
references to the chain. Pages are byte memories; their bodies begin at 64.

`HoldsChain page first H p l` says that from page `p` on the heap `H` holds the
chunks of `l` under its page numbers, each in the format `page`.
-/

namespace AxiomDb.Storage.Overflow

open Lib Heap Heap.PageBytes List ByteMem

/-- The end of a chain. -/
def NULL_PAGE : PageId := 2 ^ 64 - 1

def PAGE_MAGIC : Nat := 0x4158494F4D444200

/-- `PageType::Overflow`. -/
def OVERFLOW : Nat := 3

/-- Where the body of a page begins. -/
def BODY : Nat := HEADER_SIZE

def NEXT_PAGE_SIZE : Nat := 8
def BLOB_MAGIC : Bytes := [65, 66, 79, 66]
def BLOB_VERSION : Byte := 1
def BLOB_FLAGS_FIRST : Byte := 1
def BLOB_MAGIC_OFF : Nat := 0
def BLOB_VERSION_OFF : Nat := 4
def BLOB_FLAGS_OFF : Nat := 5
def BLOB_RESERVED_OFF : Nat := 6
def BLOB_NEXT_OFF : Nat := 8
def BLOB_PART_LEN_OFF : Nat := 16
def BLOB_REFCOUNT_OFF : Nat := 20
def BLOB_HEADER_SIZE : Nat := 28

/-- `payload_capacity` in `clustered_overflow.rs`. -/
def payloadCapacity : Nat := PAGE_SIZE - HEADER_SIZE - NEXT_PAGE_SIZE

/-- `blob_payload_capacity` in `clustered_overflow.rs`. -/
def blobPayloadCapacity : Nat := PAGE_SIZE - HEADER_SIZE - BLOB_HEADER_SIZE

/-- What is wrong with a chain; the page store has errors of its own. -/
inductive ChainError where
  | pageNotFound (pageId : PageId)
  | zeroTail (pageId : PageId)
  | loop (pageId : PageId)
  | invalidPageType (pageId : PageId) (byte : Nat)
  | notOverflow (pageId : PageId) (pageType : Nat)
  | trailingPage (pageId next : PageId) (expectedLen : Nat)
  | endedEarly (pageId : PageId) (remaining : Nat)
  | notBlob (pageId : PageId)
  | unsupportedVersion (pageId : PageId) (version : Byte)
  | invalidFlags (pageId : PageId) (flags : Byte)
  | lacksFirstFlag (pageId : PageId)
  | hasFirstFlag (pageId : PageId)
  | nonzeroRefcount (pageId : PageId)
  | invalidPartLength (pageId : PageId) (partLen : Nat)
  | partTooLong (partLen : Nat)
  | zeroRefcount (pageId : PageId)
  | refcountOverflow (pageId : PageId)
  /-- More pages than there are page numbers; the set of visited pages rules it out. -/
  | outOfFuel
  deriving DecidableEq

/-! ## Pages -/

/-- `payload.chunks(cap)`. -/
def chunks (cap : Nat) (payload : Bytes) : List Bytes :=
  if _h : cap = 0 ∨ payload = [] then [] else payload.take cap :: chunks cap (payload.drop cap)
termination_by payload.length
decreasing_by
  rw [not_or] at _h
  have := length_pos_of_ne_nil _h.2
  rw [length_drop]
  omega

section

variable (page : ByteMem)

/-- `PageType` in `page.rs`. -/
def pageType : Nat := page.readLe 8 1

/-- `ensure_overflow_page` in `clustered_overflow.rs`. -/
def ensureOverflowPage (pageId : PageId) : Except ChainError Unit :=
  if pageType page > 6 then .error (.invalidPageType pageId (pageType page))
  else if pageType page ≠ OVERFLOW then .error (.notOverflow pageId (pageType page))
  else .ok ()

/-- `next_page` in `clustered_overflow.rs`. -/
def nextPage : PageId := page.readLe BODY 8

/-- `set_next_page` in `clustered_overflow.rs`. -/
def setNextPage (next : PageId) : ByteMem := page.writeLe BODY 8 next

/-- `is_refcounted_blob_page` in `clustered_overflow.rs`. -/
def isRefcountedBlobPage : Bool :=
  page.readBytes (BODY + BLOB_MAGIC_OFF) 4 == BLOB_MAGIC

/-- `blob_next_page` in `clustered_overflow.rs`. -/
def blobNextPage : PageId := page.readLe (BODY + BLOB_NEXT_OFF) 8

/-- `blob_part_len` in `clustered_overflow.rs`. -/
def blobPartLen : Nat := page.readLe (BODY + BLOB_PART_LEN_OFF) 4

/-- `blob_refcount` in `clustered_overflow.rs`. -/
def blobRefcount : Nat := page.readLe (BODY + BLOB_REFCOUNT_OFF) 8

/-- `set_blob_refcount` in `clustered_overflow.rs`. -/
def setBlobRefcount (refcount : Nat) : ByteMem :=
  page.writeLe (BODY + BLOB_REFCOUNT_OFF) 8 refcount

/-- `set_blob_header` in `clustered_overflow.rs`. -/
def setBlobHeader (next : PageId) (partLen refcount : Nat) (isFirst : Bool) :
    Except ChainError ByteMem :=
  if partLen > blobPayloadCapacity then .error (.partTooLong partLen)
  else
    let page := page.writeBytes (BODY + BLOB_MAGIC_OFF) BLOB_MAGIC
    let page := page.writeBytes (BODY + BLOB_VERSION_OFF) [BLOB_VERSION]
    let page := page.writeBytes (BODY + BLOB_FLAGS_OFF) [if isFirst then BLOB_FLAGS_FIRST else 0]
    let page := page.writeLe (BODY + BLOB_RESERVED_OFF) 2 0
    let page := page.writeLe (BODY + BLOB_NEXT_OFF) 8 next
    let page := page.writeLe (BODY + BLOB_PART_LEN_OFF) 4 partLen
    .ok (page.writeLe (BODY + BLOB_REFCOUNT_OFF) 8 refcount)

/-- `ensure_blob_page` in `clustered_overflow.rs`. -/
def ensureBlobPage (pageId : PageId) (mustBeFirst : Bool) : Except ChainError Unit := do
  ensureOverflowPage page pageId
  if page.readBytes (BODY + BLOB_MAGIC_OFF) 4 ≠ BLOB_MAGIC then throw (.notBlob pageId)
  let version := page (BODY + BLOB_VERSION_OFF)
  if version ≠ BLOB_VERSION then throw (.unsupportedVersion pageId version)
  let flags := page (BODY + BLOB_FLAGS_OFF)
  -- `flags & !BLOB_FLAGS_FIRST`
  if flags.val / 2 ≠ 0 then throw (.invalidFlags pageId flags)
  let isFirst := flags.val % 2 ≠ 0
  if mustBeFirst ∧ ¬ isFirst then throw (.lacksFirstFlag pageId)
  if ¬ mustBeFirst ∧ isFirst then throw (.hasFirstFlag pageId)
  if ¬ mustBeFirst ∧ blobRefcount page ≠ 0 then throw (.nonzeroRefcount pageId)

end

section Chains

/-! ## Chains of pages -/

variable {σ : Type} (E : StorageEngine ChainError σ ByteMem) (crc32c : ByteMem → Nat)

def lift {α : Type} : Except ChainError α → EStateM ChainError σ α
  | .ok a => pure a
  | .error e => throw e

/-- `cleanup_allocated_pages` in `clustered_overflow.rs`. -/
def cleanupAllocatedPages : List PageId → EStateM ChainError σ Unit
  | [] => pure ()
  | pageId :: pageIds => do
    E.freePage pageId
    cleanupAllocatedPages pageIds

/-- If `x` fails, the pages of the chain are given back. -/
def orCleanup {α : Type} (pageIds : List PageId) (x : EStateM ChainError σ α) :
    EStateM ChainError σ α :=
  tryCatch x fun err => do
    cleanupAllocatedPages E pageIds
    throw err

/-- A page for each chunk. -/
def allocPages : Nat → List PageId → EStateM ChainError σ (List PageId)
  | 0, pageIds => pure pageIds
  | n + 1, pageIds => do
    let pageId ← orCleanup E pageIds E.allocPage
    allocPages n (pageIds ++ [pageId])

/-- The page after the first of `rest`. -/
def nextOf (rest : List (PageId × Bytes)) : PageId := (rest.head?.map Prod.fst).getD NULL_PAGE

/-- Each chunk is written to its page; `format` makes the page. -/
def writePages (format : (isFirst : Bool) → (pageId next : PageId) → Bytes → Except ChainError ByteMem)
    (pageIds : List PageId) : Bool → List (PageId × Bytes) → EStateM ChainError σ Unit
  | _, [] => pure ()
  | isFirst, (pageId, chunk) :: rest => do
    let page ← lift (format isFirst pageId (nextOf rest) chunk)
    orCleanup E pageIds (E.writePage pageId page)
    writePages format pageIds false rest

def legacyPage (_ : Bool) (pageId next : PageId) (chunk : Bytes) : Except ChainError ByteMem :=
  let page := new crc32c PAGE_MAGIC OVERFLOW pageId
  let page := setNextPage page next
  let page := page.writeBytes (BODY + NEXT_PAGE_SIZE) chunk
  .ok (updateChecksum crc32c page)

def blobPage (isFirst : Bool) (pageId next : PageId) (chunk : Bytes) : Except ChainError ByteMem := do
  let page := new crc32c PAGE_MAGIC OVERFLOW pageId
  let page ← setBlobHeader page next chunk.length (if isFirst then 1 else 0) isFirst
  let page := page.writeBytes (BODY + BLOB_HEADER_SIZE) chunk
  .ok (updateChecksum crc32c page)

/-- The payload is written to new pages. -/
def writeWith (cap : Nat)
    (format : (isFirst : Bool) → (pageId next : PageId) → Bytes → Except ChainError ByteMem)
    (payload : Bytes) : EStateM ChainError σ (Option PageId) :=
  if payload = [] then pure none
  else do
    let pageIds ← allocPages E (chunks cap payload).length []
    writePages E format pageIds true (pageIds.zip (chunks cap payload))
    pure pageIds.head?

/-- `write_chain` in `clustered_overflow.rs`. -/
def writeChain (payload : Bytes) : EStateM ChainError σ (Option PageId) :=
  writeWith E payloadCapacity (legacyPage crc32c) payload

/-- `write_refcounted_chain` in `clustered_overflow.rs`. -/
def writeRefcountedChain (payload : Bytes) : EStateM ChainError σ (Option PageId) :=
  writeWith E blobPayloadCapacity (blobPage crc32c) payload

/-- The loop of `read_chain`. Each round takes at least one byte of `remaining`. -/
def readLoop (expectedLen : Nat) :
    (fuel : Nat) → (visited : List PageId) → PageId → (remaining : Nat) → Bytes →
      EStateM ChainError σ Bytes
  | 0, _, _, _, _ => throw .outOfFuel
  | fuel + 1, visited, pageId, remaining, out => do
    if pageId ∈ visited then throw (.loop pageId)
    let page ← E.readPage pageId
    lift (ensureOverflowPage page pageId)
    let next := nextPage page
    let chunkLen := min remaining payloadCapacity
    let out := out ++ page.readBytes (BODY + NEXT_PAGE_SIZE) chunkLen
    let remaining := remaining - chunkLen
    if remaining = 0 then
      if next ≠ NULL_PAGE then throw (.trailingPage pageId next expectedLen)
      return out
    if next = NULL_PAGE then throw (.endedEarly pageId remaining)
    readLoop expectedLen fuel (pageId :: visited) next remaining out

variable (firstPageId : PageId)

/-- `read_chain` in `clustered_overflow.rs`. -/
def readChain (expectedLen : Nat) : EStateM ChainError σ Bytes :=
  if expectedLen = 0 then throw (.zeroTail firstPageId)
  else readLoop E expectedLen expectedLen [] firstPageId expectedLen []

/-- The loop of `free_chain`: no more rounds than page numbers. -/
def freeLoop : (fuel : Nat) → (visited : List PageId) → PageId → EStateM ChainError σ Unit
  | 0, _, _ => throw .outOfFuel
  | fuel + 1, visited, pageId => do
    if pageId ∈ visited then throw (.loop pageId)
    let page ← E.readPage pageId
    lift (ensureOverflowPage page pageId)
    let next := nextPage page
    E.freePage pageId
    if next = NULL_PAGE then return ()
    freeLoop fuel (pageId :: visited) next

/-- `free_chain` in `clustered_overflow.rs`. -/
def freeChain : EStateM ChainError σ Unit :=
  freeLoop E (2 ^ 64 + 1) [] firstPageId

/-- The first page is at hand, the others are read. -/
def pageOrRead (pageRef : Option ByteMem) (pageId : PageId) : EStateM ChainError σ ByteMem :=
  match pageRef with
  | some page => pure page
  | none => E.readPage pageId

/-- The loop of `read_blob_chain`: no more rounds than page numbers. -/
def readBlobLoop : (fuel : Nat) → (visited : List PageId) → PageId → (nextPageRef : Option ByteMem) →
    (isFirst : Bool) → Bytes → EStateM ChainError σ Bytes
  | 0, _, _, _, _, _ => throw .outOfFuel
  | fuel + 1, visited, pageId, nextPageRef, isFirst, out => do
    if pageId ∈ visited then throw (.loop pageId)
    let page ← pageOrRead E nextPageRef pageId
    lift (ensureBlobPage page pageId isFirst)
    let next := blobNextPage page
    let partLen := blobPartLen page
    if partLen > blobPayloadCapacity then throw (.invalidPartLength pageId partLen)
    let out := out ++ page.readBytes (BODY + BLOB_HEADER_SIZE) partLen
    if next = NULL_PAGE then return out
    readBlobLoop fuel (pageId :: visited) next none false out

/-- `read_blob_chain` in `clustered_overflow.rs`. -/
def readBlobChain (legacyExpectedLen : Nat) : EStateM ChainError σ Bytes := do
  let first ← E.readPage firstPageId
  lift (ensureOverflowPage first firstPageId)
  if !isRefcountedBlobPage first then readChain E firstPageId legacyExpectedLen
  else readBlobLoop E (2 ^ 64 + 1) [] firstPageId (some first) true []

/-- `incref_blob` in `clustered_overflow.rs`. -/
def increfBlob : EStateM ChainError σ Nat := do
  let page ← E.readPage firstPageId
  lift (ensureBlobPage page firstPageId true)
  let refcount := blobRefcount page
  if refcount = 0 then throw (.zeroRefcount firstPageId)
  if refcount + 1 ≥ 2 ^ 64 then throw (.refcountOverflow firstPageId)
  let page := updateChecksum crc32c (setBlobRefcount page (refcount + 1))
  E.writePage firstPageId page
  return refcount + 1

/-- The loop of `free_blob`: no more rounds than page numbers. -/
def freeBlobLoop : (fuel : Nat) → (visited : List PageId) → PageId → (nextPageRef : Option ByteMem) →
    (isFirst : Bool) → EStateM ChainError σ Unit
  | 0, _, _, _, _ => throw .outOfFuel
  | fuel + 1, visited, pageId, nextPageRef, isFirst => do
    if pageId ∈ visited then throw (.loop pageId)
    let page ← pageOrRead E nextPageRef pageId
    lift (ensureBlobPage page pageId isFirst)
    let next := blobNextPage page
    E.freePage pageId
    if next = NULL_PAGE then return ()
    freeBlobLoop fuel (pageId :: visited) next none false

/-- `free_blob` in `clustered_overflow.rs`. -/
def freeBlob : EStateM ChainError σ Unit := do
  let first ← E.readPage firstPageId
  lift (ensureOverflowPage first firstPageId)
  if !isRefcountedBlobPage first then freeChain E firstPageId
  else
    lift (ensureBlobPage first firstPageId true)
    let refcount := blobRefcount first
    if refcount = 0 then throw (.zeroRefcount firstPageId)
    if refcount > 1 then
      E.writePage firstPageId (updateChecksum crc32c (setBlobRefcount first (refcount - 1)))
    else freeBlobLoop E (2 ^ 64 + 1) [] firstPageId (some first) true

end Chains

/-! ## Chunks -/

theorem chunks_nil (cap : Nat) : chunks cap [] = [] := by rw [chunks, dif_pos (.inr rfl)]

variable {isFirst : Bool} {page : ByteMem} {chunk payload bs : Bytes} {cap refcount a : Nat}
  {next pageId : PageId} {crc32c : ByteMem → Nat}

theorem chunks_cons (hcap : 0 < cap) (h : payload ≠ []) :
    chunks cap payload = payload.take cap :: chunks cap (payload.drop cap) := by
  rw [chunks, dif_neg (not_or.mpr ⟨by omega, h⟩)]

theorem chunks_ne_nil (hcap : 0 < cap) (h : payload ≠ []) : chunks cap payload ≠ [] := by
  rw [chunks_cons hcap h]
  exact cons_ne_nil _ _

theorem flatten_chunks (hcap : 0 < cap) (payload : Bytes) :
    (chunks cap payload).flatten = payload := by
  induction hn : payload.length using Nat.strong_induction_on generalizing payload with
  | _ n ih =>
    by_cases h : payload = []
    · rw [h, chunks_nil, flatten_nil]
    · have hpos := length_pos_of_ne_nil h
      have hlen := length_drop (l := payload) (i := cap)
      rw [chunks_cons hcap h, flatten_cons, ih _ (by omega) _ rfl, take_append_drop]

theorem length_le_of_mem_chunks {c : Bytes} (hc : c ∈ chunks cap payload) : c.length ≤ cap := by
  induction hn : payload.length using Nat.strong_induction_on generalizing payload with
  | _ n ih =>
    rw [chunks] at hc
    split at hc
    · cases hc
    next h =>
      rw [not_or] at h
      have hpos := length_pos_of_ne_nil h.2
      have hlen := length_drop (l := payload) (i := cap)
      rcases mem_cons.mp hc with rfl | hc
      · rw [length_take]
        omega
      · exact ih _ (by omega) hc rfl

/-! ## Formats -/

/-- A page in the older format. -/
structure LegacyPage (next : PageId) (chunk : Bytes) (page : ByteMem) : Prop where
  type : pageType page = OVERFLOW
  next_eq : nextPage page = next
  payload : page.readBytes (BODY + NEXT_PAGE_SIZE) chunk.length = chunk

/-- A page in the format with a magic number. -/
structure BlobPage (isFirst : Bool) (refcount : Nat) (next : PageId) (chunk : Bytes)
    (page : ByteMem) : Prop where
  type : pageType page = OVERFLOW
  magic : page.readBytes (BODY + BLOB_MAGIC_OFF) 4 = BLOB_MAGIC
  version : page.readBytes (BODY + BLOB_VERSION_OFF) 1 = [BLOB_VERSION]
  flags : page.readBytes (BODY + BLOB_FLAGS_OFF) 1 = [if isFirst then BLOB_FLAGS_FIRST else 0]
  next_eq : blobNextPage page = next
  partLen : blobPartLen page = chunk.length
  fits : chunk.length ≤ blobPayloadCapacity
  refcount_eq : blobRefcount page = refcount
  payload : page.readBytes (BODY + BLOB_HEADER_SIZE) chunk.length = chunk

theorem pageType_new (crc32c : ByteMem → Nat) (pageId : PageId) :
    pageType (new crc32c PAGE_MAGIC OVERFLOW pageId) = OVERFLOW := by
  rw [new, pageType, updateChecksum]
  simp (disch := decide) only [readLe_apart_writeLe, readLe_apart_fill, readLe_writeLe]
  rfl

theorem ensureOverflowPage_ok (pageId : PageId) (h : pageType page = OVERFLOW) :
    ensureOverflowPage page pageId = .ok () := by
  rw [ensureOverflowPage, h]
  rfl

/-- A write behind the header of the page leaves its type. -/
theorem pageType_writeBytes (ha : BODY ≤ a) :
    pageType (page.writeBytes a bs) = pageType page := by
  rw [BODY, HEADER_SIZE] at ha
  exact (same_writeBytes (.inl (by omega))).readLe

theorem pageType_updateChecksum (page : ByteMem) :
    pageType (updateChecksum crc32c page) = pageType page :=
  (same_writeLe (by decide)).readLe

theorem legacyPage_spec :
    ∃ page, legacyPage crc32c isFirst pageId next chunk = .ok page ∧
      (next < 2 ^ 64 → LegacyPage next chunk page) := by
  refine ⟨_, rfl, fun hnext => ⟨?_, ?_, ?_⟩⟩
  · rw [pageType_updateChecksum, pageType_writeBytes (by decide), setNextPage, ByteMem.writeLe,
      pageType_writeBytes le_rfl, pageType_new]
  · rw [nextPage, updateChecksum, (same_writeLe (by decide)).readLe,
      (same_writeBytes (.inl (by decide))).readLe, setNextPage,
      readLe_writeLe_of_lt _ _ _ (lt_of_lt_of_eq hnext (by decide))]
  · rw [updateChecksum, (same_writeLe (.inr (by decide))).readBytes, readBytes_writeBytes _ _ rfl]

theorem readBytes_below {b n : Nat} (h : b + n ≤ a) :
    (page.writeBytes a bs).readBytes b n = page.readBytes b n := (same_writeBytes (.inl h)).readBytes

theorem readBytes_below_writeLe {b n k v : Nat} (h : b + n ≤ a) :
    (page.writeLe a k v).readBytes b n = page.readBytes b n := readBytes_below h

theorem blobPage_spec (hlen : chunk.length ≤ blobPayloadCapacity) :
    ∃ page, blobPage crc32c isFirst pageId next chunk = .ok page ∧
      (next < 2 ^ 64 → BlobPage isFirst (if isFirst then 1 else 0) next chunk page) := by
  have hhead : setBlobHeader (new crc32c PAGE_MAGIC OVERFLOW pageId) next chunk.length
      (if isFirst then 1 else 0) isFirst = .ok _ := if_neg (by omega)
  refine ⟨_, by rw [blobPage, hhead]; rfl, fun hnext => ⟨?_, ?_, ?_, ?_, ?_, ?_, hlen, ?_, ?_⟩⟩
  · rw [pageType_updateChecksum]
    simp (disch := decide) only [ByteMem.writeLe, pageType_writeBytes, pageType_new]
  -- the constant fields of the header
  iterate 3
    · rw [updateChecksum, (same_writeLe (.inr (by decide))).readBytes]
      simp (disch := decide) only [readBytes_below, readBytes_below_writeLe]
      exact readBytes_writeBytes _ _ rfl
  · rw [updateChecksum, blobNextPage, readLe_apart_writeLe (.inr (by decide)),
      (same_writeBytes (.inl (by decide))).readLe]
    simp (disch := decide) only [readLe_apart_writeLe]
    exact readLe_writeLe_of_lt _ _ _ (lt_of_lt_of_eq hnext (by decide))
  · have hlt : chunk.length < 256 ^ 4 := lt_of_le_of_lt hlen (by decide)
    rw [updateChecksum, blobPartLen, (same_writeLe (.inr (by decide))).readLe,
      (same_writeBytes (.inl (by decide))).readLe,
      (same_writeLe (.inl (by decide))).readLe, readLe_writeLe_of_lt _ _ _ hlt]
  · have hlt : (if isFirst then 1 else 0) < 256 ^ 8 := by cases isFirst <;> decide
    rw [updateChecksum, blobRefcount, (same_writeLe (.inr (by decide))).readLe,
      (same_writeBytes (.inl (by decide))).readLe, readLe_writeLe_of_lt _ _ _ hlt]
  · rw [updateChecksum, (same_writeLe (.inr (by decide))).readBytes, readBytes_writeBytes _ _ rfl]

section

variable (h : BlobPage isFirst refcount next chunk page)
include h

/-- A page that passes as the first one or as another. -/
theorem BlobPage.ensure (hzero : isFirst = false → refcount = 0) (pageId : PageId) :
    ensureBlobPage page pageId isFirst = .ok () := by
  have hversion : page (BODY + BLOB_VERSION_OFF) = BLOB_VERSION := by
    have := h.version
    rw [readBytes_one] at this
    exact singleton_inj.mp this
  have hflags : page (BODY + BLOB_FLAGS_OFF) = if isFirst then BLOB_FLAGS_FIRST else 0 := by
    have := h.flags
    rw [readBytes_one] at this
    exact singleton_inj.mp this
  have href := h.refcount_eq
  rw [ensureBlobPage, ensureOverflowPage_ok _ h.type, h.magic, hversion, hflags]
  cases isFirst with
  | true => rfl
  | false =>
    rw [hzero rfl] at href
    rw [href]
    rfl

theorem BlobPage.setRefcount {refcount' : Nat} (hlt : refcount' < 2 ^ 64) :
    BlobPage isFirst refcount' next chunk (updateChecksum crc32c (setBlobRefcount page refcount')) := by
  have hsame {a n : Nat} (ha : 16 ≤ a) (hn : a + n ≤ BODY + BLOB_REFCOUNT_OFF ∨
      BODY + BLOB_REFCOUNT_OFF + 8 ≤ a) :
      ByteMem.Same page (updateChecksum crc32c (setBlobRefcount page refcount')) a n :=
    (same_writeLe hn).trans (same_writeLe (.inr ha))
  refine ⟨?_, (hsame (by decide) (.inl (by decide))).readBytes.trans h.magic,
    (hsame (by decide) (.inl (by decide))).readBytes.trans h.version,
    (hsame (by decide) (.inl (by decide))).readBytes.trans h.flags,
    (hsame (by decide) (.inl (by decide))).readLe.trans h.next_eq,
    (hsame (by decide) (.inl (by decide))).readLe.trans h.partLen, h.fits, ?_,
    (hsame (by decide) (.inr (by decide))).readBytes.trans h.payload⟩
  · rw [pageType_updateChecksum, setBlobRefcount, ByteMem.writeLe, pageType_writeBytes (by decide),
      h.type]
  · rw [blobRefcount, updateChecksum, (same_writeLe (.inr (by decide))).readLe,
      setBlobRefcount, readLe_writeLe_of_lt _ _ _ (lt_of_lt_of_eq hlt (by decide))]

theorem BlobPage.isRefcounted : isRefcountedBlobPage page := by
  rw [isRefcountedBlobPage, h.magic]
  rfl

end

/-- The numbers of pages that one bitmap covers, and the end of a chain, are not mistaken for the
magic number. -/
theorem LegacyPage.not_refcounted (h : LegacyPage next chunk page)
    (hnext : next < BITMAP_CAPACITY ∨ next = NULL_PAGE) : isRefcountedBlobPage page = false := by
  rw [isRefcountedBlobPage, beq_eq_false_iff_ne]
  intro hmagic
  have hlow : page.readLe BODY 8 =
      ofLeBytes BLOB_MAGIC + 4294967296 * ofLeBytes (page.readBytes (BODY + 4) 4) := by
    have hadd := readBytes_add page BODY 4 4
    rw [show page.readBytes BODY 4 = BLOB_MAGIC from hmagic] at hadd
    rw [ByteMem.readLe, hadd]
    show _ = 65 + 256 * (66 + 256 * (79 + 256 * (66 + 256 * 0))) + _
    rw [BLOB_MAGIC]
    simp only [cons_append, nil_append, ofLeBytes]
    omega
  have hnum : ofLeBytes BLOB_MAGIC = 1112490561 := by decide
  have hread : page.readLe BODY 8 < BITMAP_CAPACITY ∨ page.readLe BODY 8 = 2 ^ 64 - 1 := by
    rw [show page.readLe BODY 8 = next from h.next_eq]
    exact hnext
  rw [hnum] at hlow
  rw [hlow, BITMAP_CAPACITY] at hread
  omega

end AxiomDb.Storage.Overflow
