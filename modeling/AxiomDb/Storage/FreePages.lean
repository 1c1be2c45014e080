import AxiomDb.Lib.Runs
import AxiomDb.Storage.FreeListWords

/-!
# The free pages as a set

Over any run of calls, the bitmap is a set of pages: what each call returns and
what it does to the set is said by `Evolves`. The lemmas read it off the bits that
the words stand for.
-/

namespace AxiomDb.Storage

open List Option FreeList Finset

namespace FreeListWords

/-! ## Calls -/

inductive Call where
  | alloc
  | allocBatchSequential (n : Nat)
  | free (pageId : Nat)
  | freeBatch (ids : List Nat)
  | markUsed (pageId : Nat)
  | grow (newTotal : Nat)
  /-- `to_bytes` to a buffer, and `from_bytes` of it. -/
  | reload (buf : List (Fin 256))

inductive Answer where
  | page (pageId : Option Nat)
  | pages (ids : List Nat)
  | freed (error : Option AllocError)
  | done
  deriving DecidableEq

/-- A call; `none` where an assertion fails. -/
def step (fl : FreeListWords) : Call → Option (Answer × FreeListWords)
  | .alloc => some ((fl.alloc).elim (.page none, fl) fun (pageId, fl) => (.page pageId, fl))
  | .allocBatchSequential n =>
    some (.pages (fl.allocBatchSequential n).1, (fl.allocBatchSequential n).2)
  | .free pageId =>
    some (match fl.free pageId with
      | .ok fl => (.freed none, fl)
      | .error e => (.freed (some e), fl))
  | .freeBatch ids => some (.freed (fl.freeBatch ids).1, (fl.freeBatch ids).2)
  | .markUsed pageId => some (.done, fl.markUsed pageId)
  | .grow newTotal => (fl.grow newTotal).map fun fl => (.done, fl)
  | .reload buf =>
    (fl.toBytes buf).bind fun bytes => (fromBytes bytes fl.totalPages).map fun fl => (.done, fl)

/-- The assertions of a call, on a bitmap of `total` pages. -/
def Call.asserts (total : Nat) : Call → Prop
  | .grow newTotal => total < newTotal ∧ newTotal ≤ BITMAP_CAPACITY
  | .reload buf => BITMAP_BODY_BYTES ≤ buf.length
  | _ => True

/-- The free pages. -/
def freeSet (fl : FreeListWords) : Finset Nat := (Finset.range fl.totalPages).filter (fl.isFree ·)

/-- What a call answers where `free` is the set of the free pages among the first `total`, and the
set and the number of pages after it. -/
def Evolves (free : Finset Nat) (total : Nat) :
    Call → Answer → (free' : Finset Nat) → (total' : Nat) → Prop
  | .alloc, .page r, free', total' =>
    (r = none ↔ free = ∅) ∧ (∀ p, r = some p → IsLeast (free : Set Nat) p) ∧
      free' = free \ r.toFinset ∧ total' = total
  | .allocBatchSequential n, .pages ids, free', total' =>
    ids.length = min n free.card ∧ ids.Nodup ∧ (∀ p ∈ ids, p ∈ free ∧ p < total) ∧
      ((∃ start, ∀ k < n, start + k ∈ free) → ∃ start, ids = List.range' start n) ∧
      free' = free \ ids.toFinset ∧ total' = total
  | .free p, .freed e, free', total' =>
    (e ≠ none ↔ p ≥ total ∨ p ∈ free) ∧ free' = (if e = none then insert p free else free) ∧
      total' = total
  | .freeBatch ids, .freed e, free', total' =>
    (e = none ↔ ids.Nodup ∧ ∀ p ∈ ids, p < total ∧ p ∉ free) ∧
      free' = free ∪ {p ∈ ids.toFinset | p < total} ∧ total' = total
  | .markUsed p, .done, free', total' => free' = free.erase p ∧ total' = total
  | .grow newTotal, .done, free', total' =>
    free' = free ∪ Finset.Ico total newTotal ∧ total' = newTotal
  | .reload _, .done, free', total' => free' = free ∧ total' = total
  | _, _, _, _ => False

/-! ## Each call -/

variable {fl fl' : FreeListWords} {p : Nat}

theorem mem_freeSet : p ∈ fl.freeSet ↔ fl.unpack.bits[p]? = some true := by
  rw [freeSet, Finset.mem_filter, Finset.mem_range, isFree_unpack, FreeList.isFree, beq_iff_eq,
    and_iff_right_iff_imp]
  intro h
  simpa using (List.getElem?_eq_some_iff.mp h).1

theorem bit_false_iff : fl.unpack.bits[p]? = some false ↔ p < fl.totalPages ∧ p ∉ fl.freeSet := by
  rw [mem_freeSet, unpack_getElem?]
  by_cases hp : p < fl.totalPages <;> simp [hp]

theorem card_freeSet (fl : FreeListWords) : fl.freeSet.card = fl.unpack.freeCount := by
  have hcount : fl.unpack.freeCount = (List.range fl.totalPages).countP (fl.isFree ·) := by
    rw [freeCount, unpack, count, countP_map]
    refine countP_congr fun p hp => ?_
    have hlt := List.mem_range.mp hp
    rw [isFree_unpack, FreeList.isFree, unpack_getElem?, if_pos hlt]
    simp
  rw [hcount, countP_eq_length_filter, freeSet, card_def, filter_val]
  show Multiset.card (Multiset.filter _ (range fl.totalPages : Multiset Nat)) = _
  rw [Multiset.filter_coe, Multiset.coe_card]
  simp

variable {answer : Answer} {ids : List Nat}

/-- What is taken of the bits is taken off the set. -/
theorem freeSet_of_takes (h : Takes fl.unpack ids fl'.unpack) :
    fl'.freeSet = fl.freeSet \ ids.toFinset ∧ fl'.totalPages = fl.totalPages := by
  refine ⟨Finset.ext fun p => ?_, by simpa using h.length⟩
  rw [mem_sdiff, List.mem_toFinset, mem_freeSet, mem_freeSet, h.bits]
  by_cases hp : p ∈ ids <;> simp [hp]

theorem evolves_alloc (h : fl.WellFormed) (hs : fl.step .alloc = some (answer, fl')) :
    fl'.WellFormed ∧ Evolves fl.freeSet fl.totalPages .alloc answer fl'.freeSet fl'.totalPages := by
  obtain ⟨heq, hwf⟩ := alloc_unpack h
  rw [step] at hs
  cases hr : fl.alloc with
  | none =>
    rw [hr] at hs heq
    cases hs
    have hempty : fl.freeSet = ∅ := by
      rw [← card_eq_zero, card_freeSet, alloc_none heq.symm]
    exact ⟨h, by simp [hempty], by simp, by simp, rfl⟩
  | some r =>
    rw [hr] at hs heq
    cases hs
    obtain ⟨hfree, hused⟩ := alloc_some heq.symm
    have htakes := takes_markUsed hfree
    rw [← hused] at htakes
    obtain ⟨hset, htotal⟩ := freeSet_of_takes htakes
    have hmem : r.1 ∈ fl.freeSet := mem_freeSet.mpr hfree
    refine ⟨hwf _ _ hr, ?_, fun p hp => ?_, by simpa using hset, htotal⟩
    · simp [ne_empty_of_mem hmem]
    obtain rfl := some.inj hp
    refine ⟨hmem, fun q hq => ?_⟩
    -- no bit before the first free one is set
    rw [mem_coe, mem_freeSet] at hq
    obtain ⟨k, hk, hkeq⟩ := map_eq_some_iff.mp heq.symm
    obtain ⟨rfl, -⟩ := Prod.mk.inj hkeq
    rw [idxOf?, findIdx?_eq_some_iff_getElem] at hk
    obtain ⟨hlt, -, hleast⟩ := hk
    by_contra hqk
    have hbit := hleast q (by omega)
    rw [(List.getElem?_eq_some_iff.mp hq).2] at hbit
    exact hbit rfl

theorem evolves_allocBatchSequential (h : fl.WellFormed) {n : Nat}
    (hs : fl.step (.allocBatchSequential n) = some (answer, fl')) :
    fl'.WellFormed ∧ Evolves fl.freeSet fl.totalPages (.allocBatchSequential n) answer fl'.freeSet
      fl'.totalPages := by
  cases hs
  obtain ⟨hwf, heq⟩ := allocBatchSequential_unpack h n
  obtain ⟨hids, hbits⟩ := Prod.ext_iff.mp heq
  have htakes := takes_allocBatchSequential fl.unpack n
  rw [← hids, ← hbits] at htakes
  obtain ⟨hset, htotal⟩ := freeSet_of_takes htakes
  have hsub : ∀ p ∈ (fl.allocBatchSequential n).1, p ∈ fl.freeSet := fun p hp =>
    mem_freeSet.mpr (htakes.free p hp)
  refine ⟨hwf, ?_, htakes.nodup, fun p hp => ⟨hsub p hp, ?_⟩, fun hrun => ?_, hset, htotal⟩
  · -- there are no more than the free pages
    have hle : (fl.allocBatchSequential n).1.length ≤ fl.freeSet.card := by
      rw [← toFinset_card_of_nodup htakes.nodup]
      exact card_le_card fun p hp => hsub p (mem_toFinset.mp hp)
    have hlen := length_allocBatchSequential fl.unpack n
    rw [← hids, ← card_freeSet] at hlen
    simp only at hlen
    omega
  · have := hsub p hp
    rw [freeSet, Finset.mem_filter, Finset.mem_range] at this
    exact this.1
  · obtain ⟨start, hfree⟩ := hrun
    rw [allocBatchSequential]
    split
    next hn => exact ⟨0, by rw [hn]; rfl⟩
    next hn =>
      cases hfound : fl.findContiguousRun n with
      | some first => exact ⟨first, rfl⟩
      | none =>
        have hnone := findContiguousRun_spec fl.unpack n
        rw [← findContiguousRun_unpack h, hfound] at hnone
        obtain ⟨k, hk, hbit⟩ := hnone start
        exact absurd (mem_freeSet.mp (hfree k hk)) hbit

theorem evolves_freeBatch (h : fl.WellFormed) (hs : fl.step (.freeBatch ids) = some (answer, fl')) :
    fl'.WellFormed ∧
      Evolves fl.freeSet fl.totalPages (.freeBatch ids) answer fl'.freeSet fl'.totalPages := by
  cases hs
  obtain ⟨hwf, heq⟩ := freeBatch_unpack h ids
  obtain ⟨herr, hbits⟩ := Prod.ext_iff.mp heq
  simp only at herr hbits
  obtain ⟨hlen, hfree, hok⟩ := freeBatch_spec ids fl.unpack
  rw [← herr] at hok
  rw [← hbits] at hlen hfree
  refine ⟨hwf, ?_, Finset.ext fun p => ?_, by simpa using hlen⟩
  · rw [hok]
    simp only [bit_false_iff]
  · rw [mem_freeSet, hfree, mem_union, mem_freeSet, Finset.mem_filter, List.mem_toFinset,
      length_unpack]
    split <;> simp_all [and_comm]

/-- One page is freed as a batch of one is. -/
theorem step_free (fl : FreeListWords) (p : Nat) : fl.step (.free p) = fl.step (.freeBatch [p]) := by
  rw [step, step, freeBatch]
  cases fl.free p <;> rfl

section

variable (h : fl.WellFormed)
include h

theorem evolves_free (hs : fl.step (.free p) = some (answer, fl')) : fl'.WellFormed ∧
      Evolves fl.freeSet fl.totalPages (.free p) answer fl'.freeSet fl'.totalPages := by
  rw [step_free] at hs
  obtain ⟨hwf, hspec⟩ := evolves_freeBatch h hs
  cases hs
  obtain ⟨hok, hset, htotal⟩ := hspec
  have hok' : (fl.freeBatch [p]).1 = none ↔ p < fl.totalPages ∧ p ∉ fl.freeSet := by
    rw [hok]
    simp
  refine ⟨hwf, ?_, ?_, htotal⟩
  · rw [Ne, hok', not_and_or, not_lt, not_not]
  rw [hset]
  ext q
  by_cases herr : (fl.freeBatch [p]).1 = none
  · have hp := (hok'.mp herr).1
    rw [if_pos herr]
    simp only [mem_union, Finset.mem_filter, List.mem_toFinset, List.mem_singleton, mem_insert]
    constructor
    · tauto
    · rintro (rfl | hq)
      · exact .inr ⟨rfl, hp⟩
      · exact .inl hq
  · rw [if_neg herr]
    simp only [mem_union, Finset.mem_filter, List.mem_toFinset, List.mem_singleton]
    constructor
    · rintro (hq | ⟨rfl, hlt⟩)
      · exact hq
      · by_contra hq
        exact herr (hok'.mpr ⟨hlt, hq⟩)
    · exact .inl

theorem freeSet_markUsed (p : Nat) :
    (fl.markUsed p).freeSet = fl.freeSet.erase p ∧ (fl.markUsed p).totalPages = fl.totalPages := by
  refine ⟨Finset.ext fun q => ?_, ?_⟩
  · rw [mem_erase, mem_freeSet, mem_freeSet, markUsed_unpack h, FreeList.markUsed, getElem?_set]
    by_cases hpq : p = q
    · subst hpq
      simp
    · simp [hpq, Ne.symm hpq]
  · rw [markUsed]
    split <;> rfl

theorem evolves_grow {newTotal : Nat}
    (hs : fl.step (.grow newTotal) = some (answer, fl')) : fl'.WellFormed ∧
      Evolves fl.freeSet fl.totalPages (.grow newTotal) answer fl'.freeSet fl'.totalPages := by
  obtain ⟨grown, hgrow, heq⟩ := map_eq_some_iff.mp hs
  cases heq
  obtain ⟨hbits, hwf⟩ := grow_unpack h newTotal
  have htotal : fl'.totalPages = newTotal := by
    rw [grow] at hgrow
    split at hgrow <;> cases hgrow
    rfl
  rw [hgrow, map_some, FreeList.grow] at hbits
  split at hbits
  next hnew =>
    have hunpack := some.inj hbits
    refine ⟨hwf _ hgrow, Finset.ext fun p => ?_, htotal⟩
    rw [totalPages_unpack] at hnew hunpack
    rw [mem_freeSet, hunpack, mem_union, mem_freeSet, mem_Ico, getElem?_append,
      length_unpack, getElem?_replicate]
    by_cases hp : p < fl.totalPages
    · simp [hp]
    · rw [if_neg hp, unpack_getElem?, if_neg hp]
      simp
      omega
  next => cases hbits

/-- A call on a well-formed bitmap goes as the set says. -/
theorem step_evolves {call : Call} (hs : fl.step call = some (answer, fl')) :
    fl'.WellFormed ∧ Evolves fl.freeSet fl.totalPages call answer fl'.freeSet fl'.totalPages := by
  cases call with
  | alloc => exact evolves_alloc h hs
  | allocBatchSequential n => exact evolves_allocBatchSequential h hs
  | free p => exact evolves_free h hs
  | freeBatch ids => exact evolves_freeBatch h hs
  | markUsed p =>
    cases hs
    exact ⟨h.markUsed p, freeSet_markUsed h p⟩
  | grow newTotal => exact evolves_grow h hs
  | reload buf =>
    obtain ⟨bytes, hbytes, hread⟩ := bind_eq_some_iff.mp hs
    rw [fromBytes_toBytes h hbytes] at hread
    cases hread
    exact ⟨h, rfl, rfl⟩

/-- A call is refused only by its assertions. -/
theorem step_eq_none_iff (call : Call) : fl.step call = none ↔ ¬ call.asserts fl.totalPages := by
  cases call with
  | grow newTotal =>
    rw [step, map_eq_none_iff, grow, Call.asserts]
    split
    next hnew => simp [hnew]
    next hnew => simpa using hnew
  | reload buf =>
    rw [step, Call.asserts]
    cases hbytes : fl.toBytes buf with
    | none =>
      rw [toBytes] at hbytes
      split at hbytes
      · cases hbytes
      next hbuf => simpa using hbuf
    | some bytes =>
      rw [bind_some, fromBytes_toBytes h hbytes]
      rw [toBytes] at hbytes
      split at hbytes
      next hbuf => simpa using hbuf
      next => cases hbytes
  | alloc | allocBatchSequential n | free p | freeBatch ids | markUsed p =>
    simp [step, Call.asserts]

theorem freeSet_foldl_markUsed (ids : List Nat) :
    (ids.foldl markUsed fl).freeSet = fl.freeSet \ ids.toFinset := by
  induction ids generalizing fl with
  | nil => simp
  | cons p ids ih =>
    rw [foldl_cons, ih (h.markUsed p), (freeSet_markUsed h p).1]
    ext q
    simp
    tauto

end

theorem freeSet_new {total : Nat} {reserved : List Nat} (h : total ≤ BITMAP_CAPACITY) :
    ∃ fl, new total reserved = some fl ∧ fl.WellFormed ∧ fl.totalPages = total ∧
      fl.freeSet = Finset.range total \ reserved.toFinset := by
  obtain ⟨all, hall, hwf, htotal, hbits⟩ := @new_unpack total [] h
  obtain ⟨fl, hnew, hwf', htotal', -⟩ := @new_unpack total reserved h
  refine ⟨fl, hnew, hwf', htotal', ?_⟩
  have hfull : all.freeSet = Finset.range total := by
    ext p
    rw [mem_freeSet, hbits, foldl_nil, getElem?_replicate]
    simp
  rw [new, if_pos h] at hall hnew
  rw [← hfull, ← some.inj hnew, ← some.inj hall]
  rw [← some.inj hall] at hwf
  exact freeSet_foldl_markUsed hwf reserved

/-- One call of a run. -/
def next (fl : FreeListWords) (call : Call) : Option FreeListWords := (fl.step call).map Prod.snd

/-- Over every run from a new bitmap, the free pages evolve as a set. -/
theorem run_evolves (total : Nat) (reserved : List Nat) (h : total ≤ BITMAP_CAPACITY) :
    ∃ first, new total reserved = some first ∧ first.totalPages = total ∧
      first.freeSet = Finset.range total \ reserved.toFinset ∧
      ∀ fl, Lib.Reached next Lib.free first fl → ∀ call,
        (fl.step call = none ↔ ¬ call.asserts fl.totalPages) ∧
        ∀ answer fl', fl.step call = some (answer, fl') →
          Evolves fl.freeSet fl.totalPages call answer fl'.freeSet fl'.totalPages := by
  obtain ⟨first, hnew, hwf, htotal, hset⟩ := @freeSet_new total reserved h
  refine ⟨first, hnew, htotal, hset, fun fl hfl call => ?_⟩
  have hfl' : fl.WellFormed := hfl.invariant hwf fun {s s' e} hs _ hstep => by
    obtain ⟨r, hr, rfl⟩ := map_eq_some_iff.mp hstep
    exact (step_evolves hs hr).1
  exact ⟨step_eq_none_iff hfl' call, fun answer fl' hs => (step_evolves hfl' hs).2⟩

theorem run_evolves_hundred : 100 ≤ BITMAP_CAPACITY ∧
    ∃ first, new 100 [0, 1] = some first ∧ first.totalPages = 100 ∧
      first.freeSet = Finset.range 100 \ [0, 1].toFinset := by
  obtain ⟨first, hnew, htotal, hset, -⟩ := run_evolves 100 [0, 1] (by decide)
  exact ⟨by decide, first, hnew, htotal, hset⟩

end FreeListWords

end AxiomDb.Storage
