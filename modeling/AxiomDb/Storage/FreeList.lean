import Mathlib

/-!
# The bitmap of free pages

One bit for each page of the file, in page order: `true` is FREE. Pages past the
end are neither free nor used. The 64-bit words of the bitmap only group the
bits.
-/

namespace AxiomDb.Storage

open List

/-- The pages that one bitmap page covers: a bit of its body for each. -/
def BITMAP_CAPACITY : Nat := (16384 - 64) * 8

/-- The errors of the allocator. -/
inductive AllocError where
  | storageFull
  | pageNotFound (pageId : Nat)
  | doubleFree (pageId : Nat)
  | reservedPage (pageId : Nat)
  deriving DecidableEq

/-- `FreeList` in `freelist.rs`. -/
structure FreeList where
  bits : List Bool
  deriving DecidableEq

namespace FreeList

section

variable (fl : FreeList)

/-- `FreeList::total_pages` in `freelist.rs`. -/
def totalPages : Nat := fl.bits.length

/-- `FreeList::is_free` in `freelist.rs`. -/
def isFree (pageId : Nat) : Bool := fl.bits[pageId]? == some true

/-- `FreeList::free_count` in `freelist.rs`. -/
def freeCount : Nat := fl.bits.count true

/-- `FreeList::mark_used` in `freelist.rs`. -/
def markUsed (pageId : Nat) : FreeList := ⟨fl.bits.set pageId false⟩

/-- The first free page. -/
def alloc : Option (Nat × FreeList) :=
  (fl.bits.idxOf? true).map fun pageId => (pageId, fl.markUsed pageId)

/-- `FreeList::free` in `freelist.rs`. -/
def free (pageId : Nat) : Except AllocError FreeList :=
  match fl.bits[pageId]? with
  | none => .error (.pageNotFound pageId)
  | some true => .error (.doubleFree pageId)
  | some false => .ok ⟨fl.bits.set pageId true⟩

/-- `none` where an assertion fails. -/
def grow (newTotal : Nat) : Option FreeList :=
  if newTotal > fl.totalPages ∧ newTotal ≤ BITMAP_CAPACITY then
    some ⟨fl.bits ++ List.replicate (newTotal - fl.totalPages) true⟩
  else none

/-- The scan for `n` free bits in a row: the bits from `pageId` on are left, and the `runLen` bits
from `runStart` on are free. -/
def scanRun (n : Nat) : List Bool → (pageId runStart runLen : Nat) → Option Nat
  | [], _, _, _ => none
  | true :: bits, pageId, runStart, runLen =>
    let runStart := if runLen = 0 then pageId else runStart
    if runLen + 1 ≥ n then some runStart else scanRun n bits (pageId + 1) runStart (runLen + 1)
  | false :: bits, pageId, runStart, _ => scanRun n bits (pageId + 1) runStart 0

/-- `FreeList::find_contiguous_run` in `freelist.rs`. -/
def findContiguousRun (n : Nat) : Option Nat :=
  if n = 0 then some 0 else scanRun n fl.bits 0 0 0

/-- Up to `n` pages, one after the other. -/
def allocEach : Nat → FreeList → List Nat × FreeList
  | 0, fl => ([], fl)
  | n + 1, fl =>
    match fl.alloc with
    | none => ([], fl)
    | some (pageId, fl) => (pageId :: (allocEach n fl).1, (allocEach n fl).2)

/-- `FreeList::alloc_batch_sequential` in `freelist.rs`. -/
def allocBatchSequential (n : Nat) : List Nat × FreeList :=
  if n = 0 then ([], fl)
  else
    match fl.findContiguousRun n with
    | some start => (List.range' start n, (List.range' start n).foldl markUsed fl)
    | none => allocEach n fl

end

/-- All pages are freed that can be; the first error is returned. -/
def freeBatch : List Nat → FreeList → Option AllocError × FreeList
  | [], fl => (none, fl)
  | pageId :: ids, fl =>
    match fl.free pageId with
    | .ok fl => freeBatch ids fl
    | .error e => (some e, (freeBatch ids fl).2)

/-! ## What allocations take -/

/-- The pages were free and are now used. -/
structure Takes (fl : FreeList) (ids : List Nat) (fl' : FreeList) : Prop where
  nodup : ids.Nodup
  free : ∀ p ∈ ids, fl.bits[p]? = some true
  length : fl'.bits.length = fl.bits.length
  bits : ∀ p, fl'.bits[p]? = if p ∈ ids then some false else fl.bits[p]?

variable {fl fl' fl'' : FreeList} {ids ids' : List Nat} {p n : Nat}

theorem Takes.nil (fl : FreeList) : Takes fl [] fl := ⟨.nil, by simp, rfl, by simp⟩

theorem Takes.append (h : Takes fl ids fl') (h' : Takes fl' ids' fl'') :
    Takes fl (ids ++ ids') fl'' := by
  have hold : ∀ p ∈ ids', p ∉ ids ∧ fl.bits[p]? = some true := fun p hp => by
    have hfree := h'.free p hp
    rw [h.bits] at hfree
    split at hfree
    · cases hfree
    · exact ⟨‹_›, hfree⟩
  refine ⟨nodup_append.mpr ⟨h.nodup, h'.nodup, fun a ha b hb hab => ?_⟩, fun p hp => ?_,
    h'.length.trans h.length, fun p => ?_⟩
  · exact (hold b hb).1 (hab ▸ ha)
  · rcases mem_append.mp hp with hp | hp
    · exact h.free p hp
    · exact (hold p hp).2
  · rw [h'.bits, h.bits]
    by_cases h1 : p ∈ ids <;> by_cases h2 : p ∈ ids' <;> simp [h1, h2]

theorem getElem?_set_of_lt {bits : List Bool} (b : Bool) (hp : p < bits.length) (q : Nat) :
    (bits.set p b)[q]? = if q = p then some b else bits[q]? := by
  rw [getElem?_set]
  by_cases hq : p = q
  · subst hq
    simp [hp]
  · simp [hq, Ne.symm hq]

theorem takes_markUsed (h : fl.bits[p]? = some true) : Takes fl [p] (fl.markUsed p) := by
  refine ⟨by simp, by simpa using h, by simp [markUsed], fun q => ?_⟩
  rw [markUsed, getElem?_set_of_lt _ (List.getElem?_eq_some_iff.mp h).1]
  simp

theorem takes_foldl_markUsed (hnd : ids.Nodup) (h : ∀ p ∈ ids, fl.bits[p]? = some true) :
    Takes fl ids (ids.foldl markUsed fl) := by
  induction ids generalizing fl with
  | nil => exact .nil fl
  | cons p ids ih =>
    obtain ⟨hp, hnd⟩ := nodup_cons.mp hnd
    have hfirst := takes_markUsed (h p mem_cons_self)
    refine hfirst.append (ih hnd fun q hq => ?_)
    have hne : q ∉ [p] := fun hmem => by
      obtain rfl := mem_singleton.mp hmem
      exact hp hq
    rw [hfirst.bits, if_neg hne]
    exact h q (mem_cons_of_mem _ hq)

theorem alloc_some (h : fl.alloc = some (p, fl')) :
    fl.bits[p]? = some true ∧ fl' = fl.markUsed p := by
  obtain ⟨q, hq, heq⟩ := Option.map_eq_some_iff.mp h
  obtain ⟨rfl, rfl⟩ := Prod.mk.inj heq
  rw [idxOf?, findIdx?_eq_some_iff_getElem] at hq
  obtain ⟨hlt, hbit, -⟩ := hq
  rw [getElem?_eq_getElem hlt]
  exact ⟨congrArg some (by simpa using hbit), rfl⟩

theorem alloc_none (h : fl.alloc = none) : fl.freeCount = 0 := by
  rw [alloc, Option.map_eq_none_iff, idxOf?_eq_none_iff] at h
  exact count_eq_zero.mpr h

theorem freeCount_markUsed (h : fl.bits[p]? = some true) :
    (fl.markUsed p).freeCount + 1 = fl.freeCount := by
  obtain ⟨hlt, hbit⟩ := List.getElem?_eq_some_iff.mp h
  have hpos : 0 < fl.bits.count true := count_pos_iff.mpr (mem_of_getElem? h)
  rw [freeCount, freeCount, markUsed, count_set hlt]
  simp only [hbit, BEq.rfl, if_true]
  simp
  omega

theorem takes_allocEach (n : Nat) (fl : FreeList) :
    Takes fl (allocEach n fl).1 (allocEach n fl).2 := by
  induction n generalizing fl with
  | zero => exact .nil fl
  | succ n ih =>
    rw [allocEach]
    split
    · exact .nil fl
    next p fl' h =>
      obtain ⟨hfree, rfl⟩ := alloc_some h
      exact (takes_markUsed hfree).append (ih _)

/-- As many pages as there are, and the free pages left. -/
theorem length_allocEach (n : Nat) (fl : FreeList) :
    (allocEach n fl).1.length = min n fl.freeCount ∧
      (allocEach n fl).2.freeCount = fl.freeCount - n := by
  induction n generalizing fl with
  | zero => simp [allocEach]
  | succ n ih =>
    rw [allocEach]
    split
    next h => simp [alloc_none h]
    next p fl' h =>
      obtain ⟨hfree, rfl⟩ := alloc_some h
      have hcount := freeCount_markUsed hfree
      obtain ⟨hlen, hleft⟩ := ih (fl.markUsed p)
      simp only [length_cons, hlen, hleft]
      omega

/-- The run found is free, and where none is found there is none: `runLen` counts all the free bits
before `pageId` in a row. -/
theorem scanRun_spec {bits rest : List Bool} {pageId runStart runLen : Nat}
    (hrest : ∀ k : Nat, rest[k]? = bits[pageId + k]?) (hlen : runLen < n)
    (hrun : 0 < runLen → runStart + runLen = pageId)
    (hfree : ∀ k < runLen, bits[runStart + k]? = some true)
    (hno : ∀ start, start + runLen < pageId → ∃ k < n, bits[start + k]? ≠ some true) :
    (scanRun n rest pageId runStart runLen).elim (∀ start, ∃ k < n, bits[start + k]? ≠ some true)
      fun start => ∀ k < n, bits[start + k]? = some true := by
  induction rest generalizing pageId runStart runLen with
  | nil =>
    intro start
    by_cases hin : start + runLen < pageId
    · exact hno start hin
    -- the run would reach past the last bit
    have hend : bits.length ≤ pageId := getElem?_eq_none_iff.mp (hrest 0).symm
    refine ⟨n - 1, by omega, fun hbit => ?_⟩
    have hlt := (List.getElem?_eq_some_iff.mp hbit).1
    omega
  | cons b rest ih =>
    have hbit : bits[pageId]? = some b := (hrest 0).symm
    have hnext : ∀ k : Nat, rest[k]? = bits[pageId + 1 + k]? := fun k => by
      rw [Nat.add_assoc, Nat.add_comm 1 k]
      exact hrest (k + 1)
    cases b with
    | false =>
      refine ih hnext (by omega) (by omega) (by omega) fun start hin => ?_
      by_cases hold : start + runLen < pageId
      · exact hno start hold
      · refine ⟨pageId - start, by omega, ?_⟩
        rw [show start + (pageId - start) = pageId by omega, hbit]
        simp
    | true =>
      -- the run goes on, or begins at this page
      have hlonger : ∀ k < runLen + 1,
          bits[(if runLen = 0 then pageId else runStart) + k]? = some true := fun k hk => by
        split
        next h0 =>
          obtain rfl : k = 0 := by omega
          exact hbit
        next h0 =>
          by_cases hk' : k < runLen
          · exact hfree k hk'
          · rw [show runStart + k = pageId by have := hrun (by omega); omega]
            exact hbit
      simp only [scanRun]
      split
      · exact fun k hk => hlonger k (by omega)
      refine ih hnext (by omega) (fun _ => ?_) hlonger fun start hin => hno start (by omega)
      split
      next h0 => omega
      next h0 => have := hrun (by omega); omega

theorem findContiguousRun_spec (fl : FreeList) (n : Nat) :
    (fl.findContiguousRun n).elim (∀ start, ∃ k < n, fl.bits[start + k]? ≠ some true)
      fun start => ∀ k < n, fl.bits[start + k]? = some true := by
  rw [findContiguousRun]
  split
  next hn => simp [hn]
  next hn =>
    exact scanRun_spec (fun k => by rw [Nat.zero_add]) (by omega) (by omega) (by omega) (by omega)

theorem takes_allocBatchSequential (fl : FreeList) (n : Nat) :
    Takes fl (fl.allocBatchSequential n).1 (fl.allocBatchSequential n).2 := by
  rw [allocBatchSequential]
  split
  · exact .nil fl
  next hn =>
    split
    next start h =>
      have hfree := findContiguousRun_spec fl n
      rw [h] at hfree
      refine takes_foldl_markUsed nodup_range' fun p hp => ?_
      obtain ⟨k, hk, rfl⟩ := mem_range'.mp hp
      rw [Nat.one_mul]
      exact hfree k hk
    next => exact takes_allocEach n fl

theorem Takes.eq_nil (h : Takes fl ids fl') (hcount : fl.freeCount = 0) : ids = [] ∧ fl' = fl := by
  have hids : ids = [] := by
    refine eq_nil_iff_forall_not_mem.mpr fun p hp => ?_
    exact count_eq_zero.mp hcount (mem_of_getElem? (h.free p hp))
  subst hids
  refine ⟨rfl, ?_⟩
  cases fl
  cases fl'
  exact congrArg FreeList.mk (ext_getElem? fun p => by simpa using h.bits p)

/-- All the pages asked for, or all there are. -/
theorem length_allocBatchSequential (fl : FreeList) (n : Nat) :
    (fl.allocBatchSequential n).1.length = n ∨
      (fl.allocBatchSequential n).1.length = fl.freeCount ∧ fl.freeCount < n ∧
        (fl.allocBatchSequential n).2.freeCount = 0 := by
  rw [allocBatchSequential]
  split
  next hn => exact .inl hn.symm
  next hn =>
    split
    next => exact .inl length_range'
    next =>
      obtain ⟨hlen, hleft⟩ := length_allocEach n fl
      rw [hlen, hleft]
      omega

/-! ## What frees give back -/

/-- The pages are free, and no other page has changed. -/
structure Gives (fl : FreeList) (ids : List Nat) (fl' : FreeList) : Prop where
  length : fl'.bits.length = fl.bits.length
  bits : ∀ p, fl'.bits[p]? = if p ∈ ids then some true else fl.bits[p]?

/-- The pages that become free, and whether all calls succeed. -/
theorem freeBatch_spec (ids : List Nat) (fl : FreeList) :
    (freeBatch ids fl).2.bits.length = fl.bits.length ∧
      (∀ p : Nat, (freeBatch ids fl).2.bits[p]? =
        if p < fl.bits.length ∧ p ∈ ids then some true else fl.bits[p]?) ∧
      ((freeBatch ids fl).1 = none ↔ ids.Nodup ∧ ∀ p ∈ ids, fl.bits[p]? = some false) := by
  induction ids generalizing fl with
  | nil => simp [freeBatch]
  | cons p ids ih =>
    rw [freeBatch, free]
    by_cases hp : fl.bits[p]? = some false
    · rw [hp]
      have hlt := (List.getElem?_eq_some_iff.mp hp).1
      have hset := getElem?_set_of_lt true hlt
      obtain ⟨hlen, hbits, hok⟩ := ih ⟨fl.bits.set p true⟩
      refine ⟨hlen.trans length_set, fun q => (hbits q).trans ?_, hok.trans ?_⟩
      · rw [hset, length_set]
        by_cases hq : q = p <;> simp [hq, hlt]
      rw [nodup_cons]
      constructor
      · rintro ⟨hnd, hall⟩
        have hnot : p ∉ ids := fun hmem => by
          have := hall p hmem
          simp [hset] at this
        refine ⟨⟨hnot, hnd⟩, fun q hq => ?_⟩
        rcases mem_cons.mp hq with rfl | hq
        · exact hp
        · rw [← hall q hq, hset, if_neg fun (heq : q = p) => hnot (heq ▸ hq)]
      · rintro ⟨⟨hnot, hnd⟩, hall⟩
        refine ⟨hnd, fun q hq => ?_⟩
        rw [hset, if_neg fun (heq : q = p) => hnot (heq ▸ hq)]
        exact hall q (mem_cons_of_mem _ hq)
    -- the page is past the last one or free, and stays so
    have hkept : p < fl.bits.length → fl.bits[p]? = some true := fun hlt => by
      simpa [getElem?_eq_getElem hlt] using hp
    obtain ⟨hlen, hbits, -⟩ := ih fl
    have hall (q : Nat) : (freeBatch ids fl).2.bits[q]? =
        if q < fl.bits.length ∧ q ∈ p :: ids then some true else fl.bits[q]? := by
      rw [hbits]
      by_cases hq : q = p
      · subst hq
        split <;> split <;> simp_all
      · simp [hq]
    split
    next hok => split at hok <;> simp_all
    next => exact ⟨hlen, hall, by simp [hp]⟩

theorem freeBatch_ok (hnd : ids.Nodup) (hused : ∀ p ∈ ids, fl.bits[p]? = some false) :
    ∃ fl', freeBatch ids fl = (none, fl') ∧ Gives fl ids fl' := by
  obtain ⟨hlen, hbits, hok⟩ := freeBatch_spec ids fl
  refine ⟨_, Prod.ext (hok.mpr ⟨hnd, hused⟩) rfl, hlen, fun p => ?_⟩
  have hlt (hp : p ∈ ids) := (List.getElem?_eq_some_iff.mp (hused p hp)).1
  simp only [hbits, and_iff_right_of_imp hlt]

end FreeList

end AxiomDb.Storage
