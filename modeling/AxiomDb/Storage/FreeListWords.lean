import AxiomDb.Core
import AxiomDb.Lib.Reader
import AxiomDb.Storage.FreeList

/-!
# The words of the bitmap of free pages

The bitmap as it is kept in memory and on its page: 64-bit words, the lowest bit
first, with the bits past the last page masked out of the last word. `unpack` is
the list of the bits. `alloc_unpack`, `free_unpack`, `markUsed_unpack`,
`grow_unpack`, `findContiguousRun_unpack` and `fromBytes_toBytes` say that each
operation on the words is the operation on the bits.
-/

namespace AxiomDb.Storage

open Lib List Option BitVec FreeList

abbrev Word := BitVec 64

/-- The bytes in the body of the bitmap page. -/
def BITMAP_BODY_BYTES : Nat := 16384 - 64

/-- `u64::trailing_zeros`. -/
def trailingZeros (w : Word) : Nat := ((range 64).find? w.getLsbD).getD 64

/-- `FreeList` of the source, with its words. -/
structure FreeListWords where
  words : List Word
  totalPages : Nat
  deriving DecidableEq

namespace FreeListWords

/-- `FreeList::words_needed` in `freelist.rs`. -/
def wordsNeeded (nPages : Nat) : Nat := (nPages + 63) / 64

section

variable (words : List Word) (pageId : Nat)

/-- `words[pageId / 64]`, and its bit `pageId % 64`. -/
def bitAt : Bool :=
  (words.getD (pageId / 64) 0).getLsbD (pageId % 64)

/-- `words[pageId / 64] &= !(1 << pageId % 64)`. -/
def clearBit : List Word :=
  words.modify (pageId / 64) (· &&& ~~~(1#64 <<< (pageId % 64)))

/-- `words[pageId / 64] |= 1 << pageId % 64`. -/
def setBit : List Word :=
  words.modify (pageId / 64) (· ||| 1#64 <<< (pageId % 64))

end

/-- All bits from `total` on of the last word are USED. -/
def maskTail (words : List Word) (total : Nat) : List Word :=
  if total % 64 ≠ 0 ∧ words ≠ [] then
    words.modify (words.length - 1) (· &&& (1#64 <<< (total % 64) - 1#64))
  else words

section

variable (fl : FreeListWords)

/-- `FreeList::mark_used` in `freelist.rs`. -/
def markUsed (pageId : Nat) : FreeListWords :=
  if pageId ≥ fl.totalPages then fl else { fl with words := clearBit fl.words pageId }

/-- `none` where the assertion fails. -/
def new (totalPages : Nat) (reserved : List Nat) : Option FreeListWords :=
  if totalPages ≤ BITMAP_CAPACITY then
    let words := List.replicate (wordsNeeded totalPages) (allOnes 64)
    some (reserved.foldl markUsed ⟨maskTail words totalPages, totalPages⟩)
  else none

/-- `none` where an assertion fails. -/
def fromBytes (bytes : List (Fin 256)) (totalPages : Nat) : Option FreeListWords :=
  if bytes.length ≥ BITMAP_BODY_BYTES ∧ totalPages ≤ BITMAP_CAPACITY then
    let words := (range (wordsNeeded totalPages)).map fun i =>
      BitVec.ofNat 64 (ofLeBytes ((bytes.drop (i * 8)).take 8))
    some ⟨maskTail words totalPages, totalPages⟩
  else none

/-- The words, one after the other. -/
def image (words : List Word) : List (Fin 256) := words.flatMap fun w => leBytes 8 w.toNat

/-- The buffer after the words are written to it; `none` where the assertion fails. -/
def toBytes (buf : List (Fin 256)) : Option (List (Fin 256)) :=
  if buf.length ≥ BITMAP_BODY_BYTES then
    some (image fl.words ++ (List.replicate (BITMAP_BODY_BYTES - (image fl.words).length) 0 ++
      buf.drop BITMAP_BODY_BYTES))
  else none

/-- The loop of `alloc`, from word `i` on. -/
def allocFrom (total : Nat) : Nat → List Word → Option (Nat × List Word)
  | _, [] => none
  | i, word :: words =>
    let next := (allocFrom total (i + 1) words).map fun (pageId, words) => (pageId, word :: words)
    if word = 0 then next
    else
      let bit := trailingZeros word
      let pageId := i * 64 + bit
      if pageId < total then some (pageId, (word &&& ~~~(1#64 <<< bit)) :: words) else next

/-- `FreeList::alloc` in `freelist.rs`. -/
def alloc : Option (Nat × FreeListWords) :=
  (allocFrom fl.totalPages 0 fl.words).map fun (pageId, words) => (pageId, { fl with words })

/-- `FreeList::free` in `freelist.rs`. -/
def free (pageId : Nat) : Except AllocError FreeListWords :=
  if pageId ≥ fl.totalPages then .error (.pageNotFound pageId)
  else if fl.words.getD (pageId / 64) 0 &&& 1#64 <<< (pageId % 64) ≠ 0 then
    .error (.doubleFree pageId)
  else .ok { fl with words := setBit fl.words pageId }

/-- The bits from `oldTotal` on of the last word that held pages before are FREE; they were forced
to USED. -/
def unmaskTail (words : List Word) (oldTotal : Nat) : List Word :=
  let oldNWords := wordsNeeded oldTotal
  let bitsInLast := oldTotal % 64
  if oldNWords > 0 ∧ bitsInLast ≠ 0 then
    words.modify (oldNWords - 1) (· ||| allOnes 64 <<< bitsInLast)
  else words

/-- `none` where an assertion fails. -/
def grow (newTotal : Nat) : Option FreeListWords :=
  if newTotal > fl.totalPages ∧ newTotal ≤ BITMAP_CAPACITY then
    let words := fl.words ++
      List.replicate (wordsNeeded newTotal - fl.words.length) (allOnes 64)
    some ⟨maskTail (unmaskTail words fl.totalPages) newTotal, newTotal⟩
  else none

/-- `FreeList::is_free` in `freelist.rs`. -/
def isFree (pageId : Nat) : Bool :=
  if pageId ≥ fl.totalPages then false
  else (fl.words.getD (pageId / 64) 0 >>> (pageId % 64)) &&& 1 == 1

/-- The loop over the bits of a word that is free in part: `error` is the start of a run of `n`
bits, `ok` the run at the end. -/
def scanBits (n total : Nat) (word : Word) (base : Nat) :
    List Nat → (runStart runLen : Nat) → Except Nat (Nat × Nat)
  | [], runStart, runLen => .ok (runStart, runLen)
  | bit :: bits, runStart, runLen =>
    let pageId := base + bit
    if pageId ≥ total then .ok (runStart, runLen)
    else if (word >>> bit) &&& 1 == 1 then
      let runStart := if runLen = 0 then pageId else runStart
      if runLen + 1 ≥ n then .error runStart
      else scanBits n total word base bits runStart (runLen + 1)
    else scanBits n total word base bits runStart 0

/-- The loop over the words, from word `i` on. -/
def scanWords (n total : Nat) : Nat → List Word → (runStart runLen : Nat) → Option Nat
  | _, [], _, _ => none
  | i, word :: words, runStart, runLen =>
    let base := i * 64
    if word = allOnes 64 then
      let runStart := if runLen = 0 then base else runStart
      let runLen := runLen + 64
      let runEnd := min (runStart + runLen) total
      if runEnd - runStart ≥ n then some runStart
      else scanWords n total (i + 1) words runStart runLen
    else if word = 0 then scanWords n total (i + 1) words runStart 0
    else
      match scanBits n total word base (range 64) runStart runLen with
      | .error start => some start
      | .ok (runStart, runLen) => scanWords n total (i + 1) words runStart runLen

/-- `FreeList::find_contiguous_run` in `freelist.rs`. -/
def findContiguousRun (n : Nat) : Option Nat :=
  if n = 0 then some 0 else scanWords n fl.totalPages 0 fl.words 0 0

/-- Up to `n` pages, one after the other. -/
def allocEach : Nat → FreeListWords → List Nat × FreeListWords
  | 0, fl => ([], fl)
  | n + 1, fl =>
    match fl.alloc with
    | none => ([], fl)
    | some (pageId, fl) => (pageId :: (allocEach n fl).1, (allocEach n fl).2)

/-- `FreeList::alloc_batch_sequential` in `freelist.rs`. -/
def allocBatchSequential (n : Nat) : List Nat × FreeListWords :=
  if n = 0 then ([], fl)
  else
    match fl.findContiguousRun n with
    | some start => (range' start n, (range' start n).foldl markUsed fl)
    | none => allocEach n fl

end

/-- All pages are freed that can be; the first error is returned. -/
def freeBatch : List Nat → FreeListWords → Option AllocError × FreeListWords
  | [], fl => (none, fl)
  | pageId :: ids, fl =>
    match fl.free pageId with
    | .ok fl => freeBatch ids fl
    | .error e => (some e, (freeBatch ids fl).2)

/-! ## Bits of words -/

theorem getLsbD_bitMask (k : Nat) (hk : k < 64) (j : Nat) :
    (1#64 <<< k).getLsbD j = decide (j = k) := by
  rw [← twoPow_eq, getLsbD_twoPow]
  simp [hk, eq_comm]

theorem shift_and_one (w : Word) (k : Nat) : ((w >>> k) &&& 1 == 1) = w.getLsbD k := by
  rw [show (1 : Word) = twoPow 64 0 from rfl, and_twoPow, getLsbD_ushiftRight]
  cases w.getLsbD k <;> rfl

theorem and_bitMask_ne_zero (w : Word) (k : Nat) (hk : k < 64) :
    w &&& 1#64 <<< k ≠ 0 ↔ w.getLsbD k := by
  have hpow : twoPow 64 k ≠ 0 := fun h => by
    have := congrArg (·.getLsbD k) h
    simp [hk] at this
  rw [← twoPow_eq, and_twoPow]
  split <;> simp_all

theorem getLsbD_lowMask (k : Nat) (hk : k < 64) (j : Nat) :
    (1#64 <<< k - 1#64).getLsbD j = decide (j < k) := by
  have hnat : (1#64 <<< k - 1#64).toNat = 2 ^ k - 1 := by
    have hpow : 2 ^ k < 2 ^ 64 := Nat.pow_lt_pow_right (by decide) hk
    have hpos : 0 < 2 ^ k := Nat.two_pow_pos k
    rw [toNat_sub, toNat_shiftLeft, Nat.shiftLeft_eq]
    simp only [toNat_ofNat]
    omega
  rw [getLsbD, hnat, Nat.testBit_two_pow_sub_one]

theorem getLsbD_highMask (k j : Nat) (hj : j < 64) :
    (allOnes 64 <<< k).getLsbD j = decide (k ≤ j) := by
  rw [getLsbD_shiftLeft]
  by_cases h : j < k
  · simp [h]
  · have hlt : j - k < 64 := by omega
    rw [getLsbD_allOnes]
    simp [h, hj, hlt, Nat.le_of_not_lt h]

theorem trailingZeros_spec {w : Word} (h : w ≠ 0) :
    trailingZeros w < 64 ∧ w.getLsbD (trailingZeros w) ∧
      ∀ j < trailingZeros w, w.getLsbD j = false := by
  obtain ⟨k, hk⟩ : ∃ k, (range 64).find? w.getLsbD = some k := by
    refine isSome_iff_exists.mp (find?_isSome.mpr ?_)
    by_contra hnone
    refine h (eq_of_getLsbD_eq fun j hj => ?_)
    have hbit : w.getLsbD j ≠ true := fun hb => hnone ⟨j, mem_range.mpr hj, hb⟩
    simpa using hbit
  rw [trailingZeros, hk, getD_some]
  obtain ⟨hbit, hmem, hleast⟩ := find?_range_eq_some.mp hk
  exact ⟨mem_range.mp hmem, hbit, fun j hj => by simpa using hleast j hj⟩

/-! ## Bits of the list of words -/

variable {words : List Word} {p q total n : Nat}

theorem bitAt_of_length (h : 64 * words.length ≤ p) : bitAt words p = false := by
  rw [bitAt, getD_eq_default _ _ (by omega)]
  simp

theorem bitAt_modify (f : Word → Word) (i : Nat) (hi : i < words.length) :
    bitAt (words.modify i f) q =
      if q / 64 = i then (f (words.getD i 0)).getLsbD (q % 64) else bitAt words q := by
  rw [bitAt, getD_eq_getElem?_getD, getElem?_modify]
  by_cases h : q / 64 = i
  · subst h
    simp [hi]
  · simp [h, Ne.symm h, bitAt, getD_eq_getElem?_getD]

theorem bitAt_clearBit (hp : p < 64 * words.length) :
    bitAt (clearBit words p) q = (bitAt words q && decide (q ≠ p)) := by
  rw [clearBit, bitAt_modify _ _ (by omega)]
  split
  next h =>
    rw [getLsbD_and, getLsbD_not, getLsbD_bitMask _ (Nat.mod_lt _ (by decide)), bitAt, h]
    have hsame : q % 64 = p % 64 ↔ q = p := by omega
    simp [hsame, Nat.mod_lt q (by decide : 0 < 64)]
  next h =>
    have hne : q ≠ p := fun hqp => h (by rw [hqp])
    simp [hne]

theorem bitAt_setBit (hp : p < 64 * words.length) :
    bitAt (setBit words p) q = (bitAt words q || decide (q = p)) := by
  rw [setBit, bitAt_modify _ _ (by omega)]
  split
  next h =>
    rw [getLsbD_or, getLsbD_bitMask _ (Nat.mod_lt _ (by decide)), bitAt, h]
    have hsame : q % 64 = p % 64 ↔ q = p := by omega
    simp [hsame]
  next h =>
    have hne : q ≠ p := fun hqp => h (by rw [hqp])
    simp [hne]

@[simp] theorem length_clearBit : (clearBit words p).length = words.length := by simp [clearBit]

@[simp] theorem length_setBit : (setBit words p).length = words.length := by simp [setBit]

@[simp] theorem length_maskTail : (maskTail words total).length = words.length := by
  rw [maskTail]
  split <;> simp

/-- Only the bits before `total` are left, of words that just cover them. -/
theorem bitAt_maskTail (hlen : words.length = wordsNeeded total) :
    bitAt (maskTail words total) q = (bitAt words q && decide (q < total)) := by
  rw [wordsNeeded] at hlen
  rw [maskTail]
  split
  next h =>
    obtain ⟨hrem, hne⟩ := h
    have hpos := length_pos_of_ne_nil hne
    rw [bitAt_modify _ _ (by omega)]
    split
    next hq =>
      rw [getLsbD_and, getLsbD_lowMask _ (Nat.mod_lt _ (by decide)), bitAt, hq]
      have hlow : q % 64 < total % 64 ↔ q < total := by omega
      simp [hlow]
    next hq =>
      by_cases hlt : q < total
      · simp [hlt]
      · rw [bitAt_of_length (by omega), Bool.false_and]
  next h =>
    by_cases hlt : q < total
    · simp [hlt]
    have hnil : total % 64 = 0 ∨ words = [] := by tauto
    rw [bitAt_of_length, Bool.false_and]
    rcases hnil with h0 | rfl
    · omega
    · simp

theorem bitAt_replicate (h : p < 64 * n) : bitAt (replicate n (allOnes 64)) p := by
  have hlt : p / 64 < n := by omega
  rw [bitAt, getD_eq_getElem?_getD, getElem?_replicate, if_pos hlt, getD_some,
    getLsbD_allOnes, decide_eq_true_eq]
  exact Nat.mod_lt _ (by decide)

theorem bitAt_cons (w : Word) : bitAt (w :: words) p =
    if p < 64 then w.getLsbD p else bitAt words (p - 64) := by
  split
  next h =>
    rw [bitAt, Nat.div_eq_of_lt h, Nat.mod_eq_of_lt h]
    rfl
  next h =>
    have hdiv : p / 64 = (p - 64) / 64 + 1 := by omega
    rw [bitAt, bitAt, hdiv, getD_cons_succ, ← Nat.mod_eq_sub_mod (by omega)]

theorem bitAt_cons_add (w : Word) (p : Nat) : bitAt (w :: words) (64 + p) = bitAt words p := by
  rw [bitAt_cons, if_neg (by omega), Nat.add_sub_cancel_left]

/-! ## The bits that the words stand for -/

/-- The words just cover the pages, and no bit is set past the last page. -/
structure WellFormed (fl : FreeListWords) : Prop where
  capacity : fl.totalPages ≤ BITMAP_CAPACITY
  length : fl.words.length = wordsNeeded fl.totalPages
  masked : ∀ p, bitAt fl.words p = true → p < fl.totalPages

/-- The bits of the pages, in page order. -/
def unpack (fl : FreeListWords) : FreeList := ⟨(range fl.totalPages).map (bitAt fl.words)⟩

variable {fl fl' : FreeListWords}

theorem WellFormed.covered (h : fl.WellFormed) (hp : p < fl.totalPages) :
    p < 64 * fl.words.length := by
  rw [h.length, wordsNeeded]
  omega

theorem unpack_getElem? (fl : FreeListWords) (p : Nat) :
    fl.unpack.bits[p]? = if p < fl.totalPages then some (bitAt fl.words p) else none := by
  rw [unpack, getElem?_map]
  by_cases h : p < fl.totalPages <;> simp [h]

@[simp] theorem totalPages_unpack (fl : FreeListWords) : fl.unpack.totalPages = fl.totalPages := by
  simp [unpack, FreeList.totalPages]

@[simp] theorem length_unpack (fl : FreeListWords) : fl.unpack.bits.length = fl.totalPages :=
  fl.totalPages_unpack

/-- Words with the same bits before the end stand for the same list of bits. -/
theorem unpack_eq_iff {bits : FreeList} : fl.unpack = bits ↔ bits.bits.length = fl.totalPages ∧
      ∀ p < fl.totalPages, bits.bits[p]? = some (bitAt fl.words p) := by
  constructor
  · rintro rfl
    exact ⟨fl.length_unpack, fun p hp => by rw [unpack_getElem?, if_pos hp]⟩
  rintro ⟨hlen, hbits⟩
  cases bits with
  | mk bits =>
    refine congrArg FreeList.mk (ext_getElem? fun p => ?_)
    rw [show ((range fl.totalPages).map (bitAt fl.words))[p]? = _ from unpack_getElem? fl p]
    split
    next hp => exact (hbits p hp).symm
    next hp => exact (List.getElem?_eq_none (by show bits.length ≤ p; simp only at hlen; omega)).symm

theorem isFree_unpack (fl : FreeListWords) (p : Nat) : fl.isFree p = fl.unpack.isFree p := by
  rw [isFree, FreeList.isFree, unpack_getElem?, shift_and_one]
  by_cases hp : p < fl.totalPages
  · rw [if_neg (by omega), if_pos hp]
    show bitAt fl.words p = _
    cases bitAt fl.words p <;> rfl
  · rw [if_pos (by omega), if_neg hp]
    rfl

theorem WellFormed.markUsed (h : fl.WellFormed) (p : Nat) : (fl.markUsed p).WellFormed := by
  rw [FreeListWords.markUsed]
  split
  · exact h
  next hp =>
    refine ⟨h.capacity, length_clearBit.trans h.length, fun q hq => h.masked q ?_⟩
    rw [bitAt_clearBit (h.covered (by omega)), Bool.and_eq_true] at hq
    exact hq.1

theorem markUsed_unpack (h : fl.WellFormed) (p : Nat) :
    (fl.markUsed p).unpack = fl.unpack.markUsed p := by
  rw [markUsed, FreeList.markUsed]
  split
  next hp => rw [set_eq_of_length_le (by rw [length_unpack]; exact hp)]
  next hp =>
    refine unpack_eq_iff.mpr ⟨by simp, fun q hq => ?_⟩
    have hq' : q < fl.totalPages := hq
    rw [getElem?_set, unpack_getElem?, if_pos hq', length_unpack,
      bitAt_clearBit (h.covered (by omega))]
    by_cases hpq : p = q
    · subst hpq
      simp [hq']
    · simp [hpq, Ne.symm hpq]

theorem foldl_markUsed (h : fl.WellFormed) (ids : List Nat) : (ids.foldl markUsed fl).WellFormed ∧
      (ids.foldl markUsed fl).unpack = ids.foldl FreeList.markUsed fl.unpack := by
  induction ids generalizing fl with
  | nil => exact ⟨h, rfl⟩
  | cons p ids ih =>
    have hrest := ih (h.markUsed p)
    rw [markUsed_unpack h] at hrest
    exact hrest

/-- A new bitmap: all pages are free but the reserved ones. -/
theorem new_unpack {reserved : List Nat} (h : total ≤ BITMAP_CAPACITY) :
    ∃ fl, new total reserved = some fl ∧ fl.WellFormed ∧ fl.totalPages = total ∧
      fl.unpack = reserved.foldl FreeList.markUsed ⟨List.replicate total true⟩ := by
  have hlen : (List.replicate (wordsNeeded total) (allOnes 64)).length = wordsNeeded total :=
    length_replicate
  have hbits (p : Nat) := @bitAt_maskTail _ p total hlen
  have hwf : WellFormed ⟨maskTail (replicate (wordsNeeded total) (allOnes 64)) total,
      total⟩ := by
    refine ⟨h, length_maskTail.trans hlen, fun p hp => ?_⟩
    rw [hbits, Bool.and_eq_true, decide_eq_true_eq] at hp
    exact hp.2
  obtain ⟨hwf', hunpack⟩ := foldl_markUsed hwf reserved
  have htotal : ∀ (ids : List Nat) (fl : FreeListWords),
      (ids.foldl markUsed fl).totalPages = fl.totalPages := by
    intro ids
    induction ids with
    | nil => exact fun _ => rfl
    | cons p ids ih =>
      intro fl
      rw [foldl_cons, ih, markUsed]
      split <;> rfl
  refine ⟨_, if_pos h, hwf', htotal _ _, hunpack.trans ?_⟩
  congr 1
  refine unpack_eq_iff.mpr ⟨by simp, fun p hp => ?_⟩
  have hp' : p < total := hp
  have hall : bitAt (replicate (wordsNeeded total) (allOnes 64)) p :=
    bitAt_replicate (by rw [wordsNeeded]; omega)
  rw [hbits, hall]
  simp [hp']

theorem free_unpack (h : fl.WellFormed) (p : Nat) :
    (fl.free p).map unpack = fl.unpack.free p ∧ ∀ fl', fl.free p = .ok fl' → fl'.WellFormed := by
  have hmask := and_bitMask_ne_zero (fl.words.getD (p / 64) 0) (p % 64) (Nat.mod_lt _ (by decide))
  rw [FreeList.free, unpack_getElem?, free]
  by_cases hp : p < fl.totalPages
  · rw [if_neg (by omega), if_pos hp]
    cases hbit : bitAt fl.words p with
    | true =>
      rw [if_pos (hmask.mpr hbit)]
      exact ⟨rfl, fun _ h => by cases h⟩
    | false =>
      have hclear : ¬ fl.words.getD (p / 64) 0 &&& 1#64 <<< (p % 64) ≠ 0 := fun hne => by
        have hset : bitAt fl.words p := hmask.mp hne
        rw [hbit] at hset
        cases hset
      rw [if_neg hclear]
      have hset (q : Nat) := @bitAt_setBit fl.words p q (h.covered hp)
      refine ⟨congrArg Except.ok (unpack_eq_iff.mpr ⟨by simp, fun q hq => ?_⟩), fun fl' h' => ?_⟩
      · have hq' : q < fl.totalPages := hq
        rw [hset, getElem?_set, unpack_getElem?, if_pos hq', length_unpack]
        by_cases hpq : p = q
        · subst hpq
          simp [hq']
        · simp [hpq, Ne.symm hpq]
      · cases h'
        refine ⟨h.capacity, length_setBit.trans h.length, fun q hq => ?_⟩
        rw [hset, Bool.or_eq_true, decide_eq_true_eq] at hq
        rcases hq with hq | rfl
        · exact h.masked q hq
        · exact hp
  · rw [if_pos (by omega), if_neg hp]
    exact ⟨rfl, fun _ h => by cases h⟩

theorem freeBatch_unpack (h : fl.WellFormed) (ids : List Nat) : (freeBatch ids fl).2.WellFormed ∧
      ((freeBatch ids fl).1, (freeBatch ids fl).2.unpack) = FreeList.freeBatch ids fl.unpack := by
  induction ids generalizing fl with
  | nil => exact ⟨h, rfl⟩
  | cons p ids ih =>
    obtain ⟨hfree, hwf⟩ := free_unpack h p
    rw [freeBatch, FreeList.freeBatch, ← hfree]
    cases hp : fl.free p with
    | ok fl' => exact ih (hwf fl' hp)
    | error e =>
      obtain ⟨hwf', heq⟩ := ih h
      have hsnd : (freeBatch ids fl).2.unpack = _ := congrArg Prod.snd heq
      exact ⟨hwf', Prod.ext rfl hsnd⟩

/-- The loop finds the lowest bit that is set, and clears it. -/
theorem allocFrom_spec (i : Nat) (words : List Word)
    (hmask : ∀ p, bitAt words p → i * 64 + p < total) :
    (allocFrom total i words = none ∧ ∀ p, bitAt words p = false) ∨
      ∃ p, allocFrom total i words = some (i * 64 + p, clearBit words p) ∧
        bitAt words p ∧ ∀ q < p, bitAt words q = false := by
  induction words generalizing i with
  | nil => exact .inl ⟨rfl, fun p => bitAt_of_length (by simp)⟩
  | cons w words ih =>
    by_cases hw : w = 0
    · have hzero : ∀ p < 64, bitAt (w :: words) p = false := fun p hp => by
        rw [bitAt_cons, if_pos hp, hw]
        simp
      have hshift := @bitAt_cons_add words w
      rw [allocFrom, if_pos hw]
      rcases ih (i + 1) (fun p hp => by have := hmask (64 + p) (by rw [hshift, hp]); omega) with
        ⟨hnone, hall⟩ | ⟨p, hsome, hp, hleast⟩
      · refine .inl ⟨by rw [hnone]; rfl, fun p => ?_⟩
        by_cases hlt : p < 64
        · exact hzero p hlt
        · rw [show p = 64 + (p - 64) by omega, hshift, hall]
      refine .inr ⟨64 + p, ?_, by rw [hshift, hp], fun q hq => ?_⟩
      · rw [hsome, map_some, clearBit, clearBit, show (64 + p) / 64 = p / 64 + 1 by omega,
          show (64 + p) % 64 = p % 64 by omega, modify_succ_cons]
        simp only [some.injEq, Prod.mk.injEq, and_true]
        omega
      · by_cases hlt : q < 64
        · exact hzero q hlt
        · rw [show q = 64 + (q - 64) by omega, hshift, hleast _ (by omega)]
    · obtain ⟨hlt, hbit, hleast⟩ := trailingZeros_spec hw
      have hset : bitAt (w :: words) (trailingZeros w) := by rw [bitAt_cons, if_pos hlt, hbit]
      refine .inr ⟨trailingZeros w, ?_, hset, fun q hq => ?_⟩
      · rw [allocFrom, if_neg hw, if_pos (hmask _ hset), clearBit, Nat.div_eq_of_lt hlt,
          Nat.mod_eq_of_lt hlt]
        rfl
      · rw [bitAt_cons, if_pos (by omega), hleast q hq]

theorem alloc_unpack (h : fl.WellFormed) :
    fl.alloc.map (fun (p, fl) => (p, fl.unpack)) = fl.unpack.alloc ∧
      ∀ p fl', fl.alloc = some (p, fl') → fl'.WellFormed := by
  have hmasked : ∀ p, bitAt fl.words p → 0 * 64 + p < fl.totalPages := fun p hp => by
    have := h.masked p hp
    omega
  have hfound (p : Nat) (hp : p < fl.totalPages) : fl.unpack.bits.get ⟨p, by simpa using hp⟩ =
      bitAt fl.words p := by simp [unpack]
  rw [alloc, FreeList.alloc]
  rcases allocFrom_spec 0 fl.words hmasked with ⟨hnone, hall⟩ | ⟨p, hsome, hp, hleast⟩
  · rw [hnone]
    refine ⟨?_, fun _ _ h => by cases h⟩
    have hno : fl.unpack.bits.idxOf? true = none := by
      refine idxOf?_eq_none_iff.mpr fun hmem => ?_
      obtain ⟨p, -, hp⟩ := mem_map.mp hmem
      rw [hall p] at hp
      cases hp
    rw [hno]
    rfl
  have hlt := h.masked p hp
  have hidx : fl.unpack.bits.idxOf? true = some p := by
    rw [idxOf?, findIdx?_eq_some_iff_getElem]
    refine ⟨by simpa using hlt, by simp [unpack, hp], fun q hq => ?_⟩
    simp [unpack, hleast q hq]
  have hused : fl.markUsed p = { fl with words := clearBit fl.words p } := if_neg (by omega)
  rw [hsome, hidx]
  refine ⟨?_, fun q fl' heq => ?_⟩
  · rw [map_some, map_some, map_some, ← markUsed_unpack h, hused, Nat.zero_mul, Nat.zero_add]
  · obtain ⟨-, rfl⟩ := Prod.mk.inj (some.inj heq)
    exact hused ▸ h.markUsed p

theorem allocEach_unpack (h : fl.WellFormed) (n : Nat) : (allocEach n fl).2.WellFormed ∧
      ((allocEach n fl).1, (allocEach n fl).2.unpack) = FreeList.allocEach n fl.unpack := by
  induction n generalizing fl with
  | zero => exact ⟨h, rfl⟩
  | succ n ih =>
    obtain ⟨heq, hwf⟩ := alloc_unpack h
    rw [allocEach, FreeList.allocEach, ← heq]
    cases hp : fl.alloc with
    | none => exact ⟨h, rfl⟩
    | some r =>
      obtain ⟨hwf', heq'⟩ := ih (hwf r.1 r.2 hp)
      obtain ⟨hfst, hsnd⟩ := Prod.ext_iff.mp heq'
      exact ⟨hwf', Prod.ext (congrArg (r.1 :: ·) hfst) hsnd⟩

/-! ## Growing -/

theorem bitAt_append_ones (k : Nat) : bitAt (words ++ List.replicate k (allOnes 64)) q =
    if q < 64 * words.length then bitAt words q else decide (q < 64 * (words.length + k)) := by
  split
  next h => rw [bitAt, bitAt, getD_append _ _ _ _ (by omega)]
  next h =>
    by_cases hq : q < 64 * (words.length + k)
    · rw [bitAt, getD_append_right _ _ _ _ (by omega),
        show q / 64 - words.length = (q - 64 * words.length) / 64 by omega,
        show q % 64 = (q - 64 * words.length) % 64 by omega]
      rw [show getLsbD _ _ = bitAt (replicate k (allOnes 64))
        (q - 64 * words.length) from rfl, bitAt_replicate (by omega)]
      simp [hq]
    · rw [bitAt_of_length (by simp; omega)]
      simp [hq]

@[simp] theorem length_unmaskTail : (unmaskTail words total).length = words.length := by
  rw [unmaskTail]
  split <;> simp

theorem bitAt_unmaskTail (hlen : wordsNeeded total ≤ words.length) : bitAt (unmaskTail words total) q =
    (bitAt words q || decide (total ≤ q ∧ q < 64 * wordsNeeded total)) := by
  rw [wordsNeeded] at hlen
  rw [unmaskTail]
  split
  next hlast =>
    rw [wordsNeeded] at hlast ⊢
    rw [bitAt_modify _ _ (by omega)]
    split
    next hdiv =>
      have hhigh : total % 64 ≤ q % 64 ↔ total ≤ q ∧ q < 64 * ((total + 63) / 64) := by omega
      rw [getLsbD_or, getLsbD_highMask _ _ (Nat.mod_lt _ (by decide)), ← hdiv]
      simp only [hhigh]
      rfl
    next hdiv =>
      have hout : ¬ (total ≤ q ∧ q < 64 * ((total + 63) / 64)) := by omega
      simp [hout]
  next hlast =>
    rw [wordsNeeded] at hlast ⊢
    have hout : ¬ (total ≤ q ∧ q < 64 * ((total + 63) / 64)) := by omega
    simp [hout]

/-- The words before the tail is masked again: what was there, and FREE from there on. -/
theorem bitAt_widened (h : fl.WellFormed) {k : Nat} (hq : q < 64 * (fl.words.length + k)) :
    bitAt (unmaskTail (fl.words ++ List.replicate k (allOnes 64)) fl.totalPages) q =
      if q < fl.totalPages then bitAt fl.words q else true := by
  have hcover : fl.totalPages ≤ 64 * wordsNeeded fl.totalPages := by
    rw [wordsNeeded]
    omega
  rw [bitAt_unmaskTail (by rw [length_append, h.length]; omega), bitAt_append_ones, h.length]
  rw [h.length] at hq
  by_cases hlt : q < fl.totalPages
  · rw [if_pos (by omega), if_pos hlt]
    simp [show ¬ fl.totalPages ≤ q by omega]
  rw [if_neg hlt]
  by_cases hold : q < 64 * wordsNeeded fl.totalPages
  · simp [hold, Nat.le_of_not_lt hlt]
  · simp [hold, hq]

theorem grow_unpack (h : fl.WellFormed) (newTotal : Nat) :
    (fl.grow newTotal).map unpack = fl.unpack.grow newTotal ∧
      ∀ fl', fl.grow newTotal = some fl' → fl'.WellFormed := by
  rw [grow, FreeList.grow, totalPages_unpack]
  by_cases hnew : newTotal > fl.totalPages ∧ newTotal ≤ BITMAP_CAPACITY
  · rw [if_pos hnew, if_pos hnew]
    obtain ⟨hgt, hcap⟩ := hnew
    have hsum : fl.words.length + (wordsNeeded newTotal - fl.words.length) = wordsNeeded newTotal := by
      rw [h.length]
      simp only [wordsNeeded]
      omega
    have hlen : (unmaskTail (fl.words ++ List.replicate (wordsNeeded newTotal - fl.words.length)
        (allOnes 64)) fl.totalPages).length = wordsNeeded newTotal := by
      rw [length_unmaskTail, length_append, length_replicate, hsum]
    refine ⟨congrArg some (unpack_eq_iff.mpr ⟨by simp; omega, fun q hq => ?_⟩), fun fl' heq => ?_⟩
    · have hq' : q < newTotal := hq
      have hcover : newTotal ≤ 64 * wordsNeeded newTotal := by
        rw [wordsNeeded]
        omega
      rw [bitAt_maskTail hlen, bitAt_widened h (by omega), getElem?_append, length_unpack,
        unpack_getElem?, getElem?_replicate]
      by_cases hlt : q < fl.totalPages
      · simp [hlt, hq']
      · simp [hlt, hq', show q - fl.totalPages < newTotal - fl.totalPages by omega]
    · obtain rfl := some.inj heq
      refine ⟨hcap, length_maskTail.trans hlen, fun q hq => ?_⟩
      rw [bitAt_maskTail hlen, Bool.and_eq_true, decide_eq_true_eq] at hq
      exact hq.2
  · rw [if_neg hnew, if_neg hnew]
    exact ⟨rfl, fun _ h => by cases h⟩

/-! ## Runs of free pages -/

section Scan

variable {pid rs rl : Nat} {rest : List Bool}

theorem scanRun_replicate_true (hrl : rl < n) (m : Nat) :
    scanRun n (replicate (m + 1) true ++ rest) pid rs rl =
      if rl + (m + 1) ≥ n then some (if rl = 0 then pid else rs)
      else scanRun n rest (pid + (m + 1)) (if rl = 0 then pid else rs) (rl + (m + 1)) := by
  induction m generalizing pid rs rl with
  | zero => rfl
  | succ m ih =>
    rw [List.replicate_succ, List.cons_append, scanRun]
    by_cases hlast : rl + 1 ≥ n
    · have hfound : rl + (m + 1 + 1) ≥ n := by omega
      simp only [if_pos hlast, if_pos hfound]
    have hsucc : rl + 1 ≠ 0 := by omega
    simp only [if_neg hlast]
    rw [ih (by omega), if_neg hsucc, show rl + 1 + (m + 1) = rl + (m + 1 + 1) by omega,
      show pid + 1 + (m + 1) = pid + (m + 1 + 1) by omega]

theorem scanRun_replicate_false (m : Nat) : scanRun n (replicate (m + 1) false ++ rest) pid rs rl =
      scanRun n rest (pid + (m + 1)) rs 0 := by
  induction m generalizing pid rl with
  | zero => rfl
  | succ m ih =>
    rw [List.replicate_succ, List.cons_append, scanRun, ih,
      show pid + 1 + (m + 1) = pid + (m + 1 + 1) by omega]

/-- The bits of a word are scanned as they stand in the list, up to the last page. -/
theorem scanBits_eq {word : Word} {base : Nat} (k m : Nat) (hrl : rl < n)
    (hrun : 0 < rl → rs + rl = base + k) :
    (∃ start, scanBits n total word base (range' k m) rs rl = .error start ∧
      scanRun n ((range' k (min m (total - (base + k)))).map word.getLsbD ++ rest)
        (base + k) rs rl = some start) ∨
    ∃ rs' rl', scanBits n total word base (range' k m) rs rl = .ok (rs', rl') ∧ rl' < n ∧
      (0 < rl' → rs' + rl' = base + k + min m (total - (base + k))) ∧
      scanRun n ((range' k (min m (total - (base + k)))).map word.getLsbD ++ rest)
        (base + k) rs rl = scanRun n rest (base + k + min m (total - (base + k))) rs' rl' := by
  induction m generalizing k rs rl with
  | zero => exact .inr ⟨rs, rl, rfl, hrl, by simpa using hrun, by simp⟩
  | succ m ih =>
    rw [range'_succ, scanBits]
    by_cases hend : base + k ≥ total
    · rw [if_pos hend, show total - (base + k) = 0 by omega]
      exact .inr ⟨rs, rl, rfl, hrl, by simpa using hrun, by simp⟩
    have hmin : min (m + 1) (total - (base + k)) = min m (total - (base + (k + 1))) + 1 := by omega
    rw [if_neg hend, hmin, range'_succ, map_cons, List.cons_append, shift_and_one,
      show base + k + (min m (total - (base + (k + 1))) + 1) =
        base + (k + 1) + min m (total - (base + (k + 1))) by omega]
    cases word.getLsbD k with
    | true =>
      rw [if_pos rfl, scanRun]
      by_cases hlast : rl + 1 ≥ n
      · exact .inl ⟨_, if_pos hlast, if_pos hlast⟩
      simp only [if_neg hlast]
      refine ih (k + 1) (by omega) fun _ => ?_
      split
      · omega
      · have := hrun (by omega)
        omega
    | false =>
      rw [if_neg (by decide), scanRun]
      exact ih (k + 1) (by omega) (by omega)

/-- The bits of a word and of those after it, up to the last page. -/
theorem map_bitAt_cons (w : Word) (m : Nat) : (range m).map (bitAt (w :: words)) =
    (range (min 64 m)).map w.getLsbD ++ (range (m - 64)).map (bitAt words) := by
  refine ext_getElem? fun p => ?_
  rw [getElem?_append, length_map, length_range]
  by_cases hp : p < m
  · by_cases h64 : p < 64
    · simp [hp, h64, bitAt_cons]
    · simp [hp, h64, bitAt_cons, show min 64 m = 64 by omega, show p - 64 < m - 64 by omega]
  · have hmin : ¬ p < min 64 m := by omega
    rw [if_neg hmin, List.getElem?_eq_none (by simp; omega), List.getElem?_eq_none (by simp; omega)]

theorem scanWords_eq (i : Nat) (words : List Word) (hlen : words.length = wordsNeeded (total - i * 64))
    (hmask : ∀ p, bitAt words p → i * 64 + p < total) (hrl : rl < n)
    (hrun : 0 < rl → rs + rl = i * 64) : scanWords n total i words rs rl =
      scanRun n ((range (total - i * 64)).map (bitAt words)) (i * 64) rs rl := by
  rw [wordsNeeded] at hlen
  induction words generalizing i rs rl with
  | nil =>
    have hend : total - i * 64 = 0 := by
      simp only [length_nil] at hlen
      omega
    rw [hend]
    rfl
  | cons w words ih =>
    rw [length_cons] at hlen
    have hlow {p : Nat} (hp : p < 64) : bitAt (w :: words) p = w.getLsbD p := by
      rw [bitAt_cons, if_pos hp]
    have hnext := fun rs rl => @ih rs rl (i + 1) (by omega)
      (fun p hp => by have := hmask (64 + p) (by rw [bitAt_cons_add, hp]); omega)
    -- after the last word there is nothing to scan, wherever the scan stands
    have htail (pid rs rl : Nat) (hpid : total - i * 64 < 64 ∨ pid = i * 64 + 64) (hrl : rl < n)
        (hrun : 0 < rl → rs + rl = pid) :
        scanWords n total (i + 1) words rs rl =
          scanRun n ((range (total - i * 64 - 64)).map (bitAt words)) pid rs rl := by
      rcases hpid with hend | rfl
      · have hnil : words = [] := length_eq_zero_iff.mp (by omega)
        rw [hnil, show total - i * 64 - 64 = 0 by omega]
        rfl
      · rw [hnext rs rl hrl (fun h => by have := hrun h; omega),
          show total - (i + 1) * 64 = total - i * 64 - 64 by omega,
          show (i + 1) * 64 = i * 64 + 64 by omega]
    rw [map_bitAt_cons, scanWords]
    by_cases hall : w = allOnes 64
    · have hfull : i * 64 + 63 < total := hmask 63 (by rw [hlow (by decide), hall]; decide)
      have hseg : (range (min 64 (total - i * 64))).map w.getLsbD = replicate (63 + 1) true := by
        rw [show min 64 (total - i * 64) = 64 by omega, hall]
        decide
      simp only [if_pos hall]
      rw [hseg, scanRun_replicate_true hrl]
      generalize hstart : (if rl = 0 then i * 64 else rs) = start
      have hsum : start + rl = i * 64 := by
        rw [← hstart]
        split
        · omega
        · exact hrun (by omega)
      rw [show min (start + (rl + 64)) total - start = rl + (63 + 1) by omega]
      by_cases hfound : rl + (63 + 1) ≥ n
      · rw [if_pos hfound, if_pos hfound]
      · rw [if_neg hfound, if_neg hfound]
        exact htail _ _ _ (.inr rfl) (by omega) (by omega)
    by_cases hzero : w = 0
    · obtain ⟨m, hm⟩ : ∃ m, min 64 (total - i * 64) = m + 1 :=
        ⟨min 64 (total - i * 64) - 1, by omega⟩
      have hseg : (range (min 64 (total - i * 64))).map w.getLsbD =
          replicate (m + 1) false := by
        rw [hm, hzero]
        refine ext_getElem? fun p => ?_
        by_cases hp : p < m + 1 <;> simp [hp]
      simp only [if_neg hall, if_pos hzero]
      rw [hseg, scanRun_replicate_false]
      exact htail _ _ _ (by omega) (by omega) (by omega)
    · simp only [if_neg hall, if_neg hzero]
      rcases @scanBits_eq total n rs rl ((range (total - i * 64 - 64)).map (bitAt words)) w
        (i * 64) 0 64 hrl hrun with ⟨start, hscan, heq⟩ | ⟨rs', rl', hscan, hrl', hrun', heq⟩
      · rw [← range_eq_range'] at hscan heq
        rw [hscan]
        exact heq.symm
      · rw [← range_eq_range'] at hscan heq
        rw [hscan]
        exact (htail _ _ _ (by omega) hrl' hrun').trans heq.symm

end Scan

theorem findContiguousRun_unpack (h : fl.WellFormed) (n : Nat) :
    fl.findContiguousRun n = fl.unpack.findContiguousRun n := by
  rw [findContiguousRun, FreeList.findContiguousRun]
  split
  · rfl
  next hn =>
    have hscan := @scanWords_eq fl.totalPages n 0 0 0 fl.words (by rw [h.length]; rfl)
      (fun p hp => by have := h.masked p hp; omega) (by omega) (by omega)
    rw [hscan, Nat.zero_mul]
    rfl

theorem allocBatchSequential_unpack (h : fl.WellFormed) (n : Nat) :
    (fl.allocBatchSequential n).2.WellFormed ∧
      ((fl.allocBatchSequential n).1, (fl.allocBatchSequential n).2.unpack) =
        fl.unpack.allocBatchSequential n := by
  rw [allocBatchSequential, FreeList.allocBatchSequential, ← findContiguousRun_unpack h]
  split
  · exact ⟨h, rfl⟩
  cases fl.findContiguousRun n with
  | some start =>
    obtain ⟨hwf, heq⟩ := foldl_markUsed h (range' start n)
    exact ⟨hwf, Prod.ext rfl heq⟩
  | none => exact allocEach_unpack h n

/-! ## The bitmap page -/

theorem words_ext {words' : List Word} (hlen : words.length = words'.length)
    (hbits : ∀ p, bitAt words p = bitAt words' p) : words = words' := by
  refine ext_getElem hlen fun i hi hi' => eq_of_getLsbD_eq fun j hj => ?_
  have := hbits (64 * i + j)
  rw [bitAt, bitAt, show (64 * i + j) / 64 = i by omega, show (64 * i + j) % 64 = j by omega] at this
  simpa [getD_eq_getElem?_getD, hi, hi'] using this

theorem maskTail_eq (h : fl.WellFormed) : maskTail fl.words fl.totalPages = fl.words := by
  refine words_ext length_maskTail fun p => ?_
  rw [bitAt_maskTail h.length]
  cases hp : bitAt fl.words p with
  | true => simp [h.masked p hp]
  | false => rfl

theorem image_cons (w : Word) (words : List Word) :
    image (w :: words) = leBytes 8 w.toNat ++ image words := rfl

theorem length_image (words : List Word) : (image words).length = 8 * words.length := by
  induction words with
  | nil => rfl
  | cons w words ih =>
    rw [image_cons, length_append, ih, length_leBytes, length_cons]
    omega

/-- The bytes of word `i` in the image of the words. -/
theorem drop_image (words : List Word) (rest : List (Fin 256)) {i : Nat} (hi : i < words.length) :
    ((image words ++ rest).drop (i * 8)).take 8 = leBytes 8 (words.get ⟨i, hi⟩).toNat := by
  induction words generalizing i with
  | nil => cases hi
  | cons w words ih =>
    have hlen : (leBytes 8 w.toNat).length = 8 := length_leBytes 8 _
    rw [image_cons, List.append_assoc]
    cases i with
    | zero => exact take_left' hlen
    | succ i =>
      rw [Nat.succ_mul, Nat.add_comm (i * 8) 8, ← drop_drop, drop_left' hlen]
      exact ih (Nat.lt_of_succ_lt_succ hi)

theorem fromBytes_toBytes (h : fl.WellFormed) {buf bytes : List (Fin 256)}
    (hbytes : fl.toBytes buf = some bytes) : fromBytes bytes fl.totalPages = some fl := by
  rw [toBytes] at hbytes
  split at hbytes
  next hbuf =>
    have hfit : 8 * fl.words.length ≤ BITMAP_BODY_BYTES := by
      have hcap := h.capacity
      rw [h.length, wordsNeeded]
      simp only [BITMAP_CAPACITY, BITMAP_BODY_BYTES] at *
      omega
    generalize hrest : List.replicate (BITMAP_BODY_BYTES - (image fl.words).length) 0 ++
      buf.drop BITMAP_BODY_BYTES = rest at hbytes
    obtain rfl := some.inj hbytes
    have hlong : (image fl.words ++ rest).length ≥ BITMAP_BODY_BYTES := by
      rw [← hrest]
      simp only [length_append, length_replicate, length_image]
      omega
    have hwords : ((range (wordsNeeded fl.totalPages)).map fun i =>
        BitVec.ofNat 64 (ofLeBytes (((image fl.words ++ rest).drop (i * 8)).take 8))) = fl.words := by
      rw [← h.length]
      refine ext_getElem (by simp) fun i hi hi' => ?_
      rw [getElem_map, getElem_range, drop_image _ _ hi', ofLeBytes_leBytes]
      have hlt := (fl.words.get ⟨i, hi'⟩).isLt
      refine eq_of_toNat_eq ?_
      rw [toNat_ofNat, show (256 : Nat) ^ 8 = 2 ^ 64 by decide, Nat.mod_mod, Nat.mod_eq_of_lt hlt]
      rfl
    rw [fromBytes, if_pos ⟨hlong, h.capacity⟩]
    simp only [hwords, maskTail_eq h]
  next => cases hbytes

end FreeListWords

end AxiomDb.Storage
