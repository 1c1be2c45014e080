import Mathlib

/-!
# Where clustered pages are split

A page with one cell too many is split where the bytes of the two sides differ least. The choice
does not look at the capacity. `split_choices_fit_iff` says when what is chosen fits: for a leaf, if
any boundary does; for an internal page, if a separator fits and none that does not is better
balanced. Where no key takes more than about half a page this is so.
-/

namespace AxiomDb.Index.Clustered

open List

/-- The body of a page behind the header of a leaf, and of an internal page. -/
def pageCapacityBytes : Nat := 16384 - 64 - 16

/-- The pointer, the lengths and the `RowHeader` of a leaf cell. -/
def CELL_FIXED : Nat := 2 + 6 + 24

def OVERFLOW_PTR_SIZE : Nat := 8

/-- `max_inline_key_bytes` in `clef_access.rs`. -/
def maxInlineKeyBytes : Nat := pageCapacityBytes - CELL_FIXED

/-- `max_overflow_key_bytes` in `clef_access.rs`. -/
def maxOverflowKeyBytes : Nat := maxInlineKeyBytes - OVERFLOW_PTR_SIZE

/-- `max_inline_row_bytes` in `clef_access.rs`. -/
def maxInlineRowBytes (keyLen : Nat) : Option Nat :=
  let overflowFixed := CELL_FIXED + keyLen + OVERFLOW_PTR_SIZE
  if overflowFixed > pageCapacityBytes then none else some (pageCapacityBytes / 4 - overflowFixed)

/-- `local_row_len` in `clef_access.rs`. -/
def localRowLen (keyLen totalRowLen : Nat) : Nat :=
  ((maxInlineRowBytes keyLen).map (min totalRowLen)).getD 0

/-- `cell_footprint` in `clef_access.rs`. -/
def cellFootprint (keyLen totalRowLen : Nat) : Nat :=
  let localLen := localRowLen keyLen totalRowLen
  CELL_FIXED + keyLen + localLen + if totalRowLen > localLen then OVERFLOW_PTR_SIZE else 0

inductive PayloadError where
  | valueTooLarge (len max : Nat)
  | keyTooLong (len max : Nat)

/-- `validate_row_payload` in `page_utils.rs`. -/
def validateRowPayload (keyLen rowLen : Nat) : Except PayloadError Unit :=
  let maxKeyLen :=
    if localRowLen keyLen rowLen < rowLen then maxOverflowKeyBytes else maxInlineKeyBytes
  if rowLen > 2 ^ 32 - 1 then .error (.valueTooLarge rowLen (2 ^ 32 - 1))
  else if keyLen > maxKeyLen then .error (.keyTooLong keyLen maxKeyLen)
  else if cellFootprint keyLen rowLen > pageCapacityBytes then
    .error (.keyTooLong keyLen maxInlineKeyBytes)
  else .ok ()

/-- `abs_diff` of the bytes before cell `i` and from cell `j` on. -/
def sideDiff (footprints : List Nat) (i j : Nat) : Nat :=
  let left := (footprints.take i).sum
  let right := (footprints.drop j).sum
  (left - right) + (right - left)

/-- The first of the boundaries with the least difference. -/
def chooseBalancedBoundary (footprints : List Nat) : Nat :=
  ((range' 1 (footprints.length - 1)).argmin fun splitAt =>
    sideDiff footprints splitAt splitAt).getD 1

/-- `OwnedCell` in `clef_access.rs`. -/
structure OwnedLeafCell where
  keyLen : Nat
  totalRowLen : Nat

def leafFootprints (cells : List OwnedLeafCell) : List Nat :=
  cells.map fun cell => cellFootprint cell.keyLen cell.totalRowLen

/-- `choose_leaf_split_idx` in `page_utils.rs`. -/
def chooseLeafSplitIdx (cells : List OwnedLeafCell) : Nat :=
  chooseBalancedBoundary (leafFootprints cells)

/-- Of separators that are given by the lengths of their keys. -/
def separatorFootprints (separators : List Nat) : List Nat := separators.map (2 + 10 + ·)

/-- The separators that may be promoted: of more than two, not the first and not the last. -/
def promotable (n : Nat) : List Nat :=
  let allowEdge : Bool := n ≤ 2
  (range n).filter fun mid => allowEdge || !(mid == 0 || mid + 1 == n)

/-- The difference of the bytes before and behind a separator. -/
def promotionDiff (separators : List Nat) (mid : Nat) : Nat :=
  sideDiff (separatorFootprints separators) mid (mid + 1)

/-- The first separator with the least difference. -/
def chooseInternalPromotionIdx (separators : List Nat) : Nat :=
  if separators.length = 1 then 0
  else ((promotable separators.length).argmin (promotionDiff separators)).getD 0

/-- Both sides fit: what is before cell `i`, and from cell `j` on. -/
abbrev Fits (footprints : List Nat) (i j : Nat) : Prop :=
  (footprints.take i).sum ≤ pageCapacityBytes ∧ (footprints.drop j).sum ≤ pageCapacityBytes

/-- The two pages around the separator that is promoted fit. -/
abbrev PromotionFits (separators : List Nat) (mid : Nat) : Prop :=
  Fits (separatorFootprints separators) mid (mid + 1)

/-! ## What is chosen -/

theorem argmin_getD (f : Nat → Nat) {l : List Nat} (d : Nat) {i : Nat} (hi : i ∈ l) :
    (l.argmin f).getD d ∈ l ∧ f ((l.argmin f).getD d) ≤ f i := by
  obtain ⟨m, hm⟩ := Option.ne_none_iff_exists'.mp
    (mt (argmin_eq_none (f := f)).mp (ne_nil_of_mem hi))
  rw [hm, Option.getD_some]
  exact ⟨argmin_mem hm, le_of_mem_argmin hi hm⟩

/-- Of an increasing list the first of the best is taken. -/
theorem argmin_getD_le {f : Nat → Nat} {l : List Nat} (hl : l.Pairwise (· < ·)) (d : Nat) {i : Nat}
    (hi : i ∈ l) (hfi : f i = f ((l.argmin f).getD d)) : (l.argmin f).getD d ≤ i := by
  obtain ⟨m, hm⟩ := Option.ne_none_iff_exists'.mp
    (mt (argmin_eq_none (f := f)).mp (ne_nil_of_mem hi))
  rw [hm, Option.getD_some] at hfi ⊢
  have hidx := index_of_argmin (f := f) hm hi hfi.le
  have hlt := idxOf_lt_length_of_mem hi
  rcases hidx.lt_or_eq with h | h
  · have := pairwise_iff_getElem.mp hl _ _ (h.trans hlt) hlt h
    rw [getElem_idxOf, getElem_idxOf] at this
    exact this.le
  · exact ((idxOf_inj (argmin_mem hm)).mp h).le

variable {fs : List Nat} {h i j : Nat}

theorem chooseBalancedBoundary_spec (h0 : 0 < i) (hi : i < fs.length) :
    (0 < chooseBalancedBoundary fs ∧ chooseBalancedBoundary fs < fs.length) ∧
      sideDiff fs (chooseBalancedBoundary fs) (chooseBalancedBoundary fs) ≤ sideDiff fs i i := by
  have hmem (i : Nat) : i ∈ range' 1 (fs.length - 1) ↔ 0 < i ∧ i < fs.length := by
    rw [mem_range'_1]
    omega
  rw [← hmem]
  exact argmin_getD (fun i => sideDiff fs i i) 1 ((hmem i).mpr ⟨h0, hi⟩)

theorem sides_le (hij : i ≤ j) : (fs.take i).sum + (fs.drop j).sum ≤ fs.sum := by
  rw [← sum_take_add_sum_drop fs i]
  exact Nat.add_le_add_left ((drop_sublist_drop_left fs hij).sum_le_sum (by simp)) _

/-- Around the cell in the middle the sides are balanced up to the largest cell. -/
theorem exists_middle (hf : ∀ f ∈ fs, f ≤ h) (hsum : 2 * h < fs.sum) :
    ∃ m, 0 < m ∧ m + 1 < fs.length ∧ sideDiff fs m (m + 1) ≤ h ∧
      (sideDiff fs m m ≤ h ∨ sideDiff fs (m + 1) (m + 1) ≤ h) := by
  have hex : ∃ k, fs.sum ≤ 2 * (fs.take k).sum := ⟨fs.length, by rw [take_length]; omega⟩
  obtain ⟨m, hm⟩ : ∃ m, Nat.find hex = m + 1 := Nat.exists_eq_succ_of_ne_zero fun h0 => by
    have := Nat.find_spec hex
    rw [h0, take_zero, sum_nil] at this
    omega
  have hreach := hm ▸ Nat.find_spec hex
  have hbefore := Nat.find_min hex (m := m) (by omega)
  have hle : m + 1 ≤ fs.length := hm ▸ Nat.find_le (by rw [take_length]; omega)
  have hstep := sum_take_succ fs m hle
  have hcell := hf _ (getElem_mem hle)
  have e1 := sum_take_add_sum_drop fs m
  have e2 := sum_take_add_sum_drop fs (m + 1)
  refine ⟨m, Nat.pos_of_ne_zero fun h0 => ?_, lt_of_le_of_ne hle fun hlast => ?_, ?_, ?_⟩
  · have : (fs.take m).sum = 0 := by simp [h0]
    omega
  · rw [hlast, take_length] at hstep
    omega
  all_goals
    simp only [sideDiff]
    omega

/-- What is balanced up to half a page fits. -/
theorem fits_of_sideDiff (hij : i ≤ j) (hpage : fs.sum ≤ 3 * 8152)
    (hdiff : 2 * 8152 < fs.sum → sideDiff fs i j ≤ 8152) : Fits fs i j := by
  have := @sides_le fs i j hij
  simp only [Fits, pageCapacityBytes, sideDiff] at hdiff ⊢
  omega

theorem cellFootprint_le {keyLen totalRowLen : Nat} (hkey : keyLen ≤ 8112) :
    cellFootprint keyLen totalRowLen ≤ 8152 := by
  have hlocal : localRowLen keyLen totalRowLen ≤ 4076 - (40 + keyLen) := by
    rw [localRowLen, maxInlineRowBytes, if_neg (by simp [CELL_FIXED, OVERFLOW_PTR_SIZE, pageCapacityBytes]; omega)]
    simp [CELL_FIXED, OVERFLOW_PTR_SIZE, pageCapacityBytes]
    omega
  simp only [cellFootprint, CELL_FIXED, OVERFLOW_PTR_SIZE]
  split <;> omega

variable {separators : List Nat} {mid : Nat}

theorem mem_promotable {n : Nat} :
    mid ∈ promotable n ↔ mid < n ∧ (n ≤ 2 ∨ 0 < mid ∧ mid + 1 < n) := by
  simp only [promotable, mem_filter, mem_range, Bool.or_eq_true, decide_eq_true_eq, Bool.not_eq_true',
    Bool.or_eq_false_iff, beq_eq_false_iff_ne]
  omega

/-- The separator that is promoted may be, and none that may be is better balanced, nor as well
balanced and before it. -/
theorem chooseInternalPromotionIdx_spec (hne : separators ≠ []) :
    chooseInternalPromotionIdx separators ∈ promotable separators.length ∧
      ∀ mid ∈ promotable separators.length,
        promotionDiff separators (chooseInternalPromotionIdx separators) < promotionDiff separators mid ∨
          promotionDiff separators (chooseInternalPromotionIdx separators) = promotionDiff separators mid ∧
            chooseInternalPromotionIdx separators ≤ mid := by
  have hpos := length_pos_of_ne_nil hne
  by_cases hone : separators.length = 1
  · rw [chooseInternalPromotionIdx, if_pos hone, hone]
    refine ⟨by decide, fun mid hmid => .inr ?_⟩
    obtain rfl : mid = 0 := by
      have := mem_promotable.mp hmid
      omega
    exact ⟨rfl, le_rfl⟩
  have hex : ∃ mid, mid ∈ promotable separators.length := by
    by_cases htwo : separators.length ≤ 2
    · exact ⟨0, mem_promotable.mpr ⟨hpos, .inl htwo⟩⟩
    · exact ⟨1, mem_promotable.mpr ⟨by omega, .inr ⟨by omega, by omega⟩⟩⟩
  have hsorted : (promotable separators.length).Pairwise (· < ·) := pairwise_lt_range.filter _
  rw [chooseInternalPromotionIdx, if_neg hone]
  obtain ⟨mid, hmid⟩ := hex
  refine ⟨(argmin_getD _ 0 hmid).1, fun mid hmid => ?_⟩
  rcases (argmin_getD (promotionDiff separators) 0 hmid).2.lt_or_eq with h | h
  · exact .inl h
  · exact .inr ⟨h, argmin_getD_le hsorted 0 hmid h.symm⟩

/-- The cells of a page and one more are balanced up to half a page. -/
theorem fits_leaf_of_short_keys {a b : List OwnedLeafCell} {new : OwnedLeafCell}
    (hpage : (leafFootprints (a ++ b)).sum ≤ pageCapacityBytes)
    (hkeys : ∀ cell ∈ a ++ new :: b, cell.keyLen ≤ 8112) :
    Fits (leafFootprints (a ++ new :: b)) (chooseLeafSplitIdx (a ++ new :: b))
      (chooseLeafSplitIdx (a ++ new :: b)) := by
  have hf : ∀ f ∈ leafFootprints (a ++ new :: b), f ≤ 8152 :=
    forall_mem_map.mpr fun c hc => cellFootprint_le (hkeys c hc)
  refine fits_of_sideDiff le_rfl ?_ fun hbig => ?_
  · have hnew := hf (cellFootprint new.keyLen new.totalRowLen) (by simp [leafFootprints])
    simp only [leafFootprints, map_append, map_cons, sum_append, sum_cons,
      pageCapacityBytes] at hpage ⊢
    omega
  obtain ⟨m, h0, hm, -, hd | hd⟩ := exists_middle hf hbig
  · exact (chooseBalancedBoundary_spec h0 (by omega)).2.trans hd
  · exact (chooseBalancedBoundary_spec (Nat.succ_pos m) hm).2.trans hd

theorem fits_internal_of_short_keys {a b : List Nat} {new : Nat}
    (hpage : (separatorFootprints (a ++ b)).sum ≤ pageCapacityBytes)
    (hkeys : ∀ keyLen ∈ a ++ new :: b, keyLen ≤ 8112) :
    PromotionFits (a ++ new :: b) (chooseInternalPromotionIdx (a ++ new :: b)) := by
  have hf : ∀ f ∈ separatorFootprints (a ++ new :: b), f ≤ 8152 :=
    forall_mem_map.mpr fun k hk => by have := hkeys k hk; omega
  refine fits_of_sideDiff (Nat.le_succ _) ?_ fun hbig => ?_
  · have hnew := hkeys new (by simp)
    simp only [separatorFootprints, map_append, map_cons, sum_append, sum_cons,
      pageCapacityBytes] at hpage ⊢
    omega
  obtain ⟨m, h0, hm, hd, -⟩ := exists_middle hf hbig
  rw [separatorFootprints, length_map] at hm
  have hmid : m ∈ promotable (a ++ new :: b).length := mem_promotable.mpr ⟨by omega, .inr ⟨h0, hm⟩⟩
  rcases (chooseInternalPromotionIdx_spec (by simp)).2 m hmid with h | h
  · exact h.le.trans hd
  · exact h.1.le.trans hd

/-- **Split choices.** Neither side of a leaf is empty, and its split fits if and only if any does.
The promotion in an internal page fits if and only if that of some separator does which is better
balanced, or as well and before, than each that does not fit. Both fit for the cells of a page and one
more if no key is longer than about half a page. -/
theorem split_choices_fit_iff (cells : List OwnedLeafCell) (separators : List Nat) :
    (1 < cells.length →
      (0 < chooseLeafSplitIdx cells ∧ chooseLeafSplitIdx cells < cells.length) ∧
      (Fits (leafFootprints cells) (chooseLeafSplitIdx cells) (chooseLeafSplitIdx cells) ↔
        ∃ i, 0 < i ∧ i < cells.length ∧ Fits (leafFootprints cells) i i)) ∧
    (separators ≠ [] →
      (PromotionFits separators (chooseInternalPromotionIdx separators) ↔
        ∃ mid ∈ promotable separators.length, PromotionFits separators mid ∧
          ∀ other ∈ promotable separators.length, ¬PromotionFits separators other →
            promotionDiff separators mid < promotionDiff separators other ∨
              promotionDiff separators mid = promotionDiff separators other ∧ mid < other)) ∧
    (∀ (a b : List OwnedLeafCell) (new : OwnedLeafCell), cells = a ++ new :: b →
      (leafFootprints (a ++ b)).sum ≤ pageCapacityBytes → (∀ cell ∈ cells, cell.keyLen ≤ 8112) →
      Fits (leafFootprints cells) (chooseLeafSplitIdx cells) (chooseLeafSplitIdx cells)) ∧
    ∀ (a b : List Nat) (new : Nat), separators = a ++ new :: b →
      (separatorFootprints (a ++ b)).sum ≤ pageCapacityBytes →
      (∀ keyLen ∈ separators, keyLen ≤ 8112) →
      PromotionFits separators (chooseInternalPromotionIdx separators) := by
  refine ⟨fun hlen => ?_, fun hne => ?_, ?_, ?_⟩
  · rw [← length_map (f := fun cell => cellFootprint cell.keyLen cell.totalRowLen)] at hlen ⊢
    obtain ⟨⟨hpos, hlt⟩, -⟩ := chooseBalancedBoundary_spec Nat.one_pos hlen
    refine ⟨⟨hpos, hlt⟩, fun h => ⟨_, hpos, hlt, h⟩, fun ⟨i, h0, hi, hfit⟩ => ?_⟩
    have hleast := (chooseBalancedBoundary_spec h0 hi).2
    -- the larger side is half of all and half of the difference
    have e1 := sum_take_add_sum_drop (leafFootprints cells) i
    have e2 := sum_take_add_sum_drop (leafFootprints cells) (chooseLeafSplitIdx cells)
    simp only [sideDiff] at hleast
    simp only [Fits, chooseLeafSplitIdx, leafFootprints] at *
    omega
  · obtain ⟨hmem, hbest⟩ := chooseInternalPromotionIdx_spec hne
    refine ⟨fun h => ⟨_, hmem, h, fun other hother hnot => ?_⟩, fun ⟨mid, hmid, hfit, hall⟩ => ?_⟩
    · refine (hbest other hother).imp_right fun ⟨heq, hle⟩ => ⟨heq, lt_of_le_of_ne hle ?_⟩
      rintro rfl
      exact hnot h
    · by_contra hnot
      have h1 := hall _ hmem hnot
      have h2 := hbest mid hmid
      omega
  · rintro a b new rfl
    exact fits_leaf_of_short_keys
  · rintro a b new rfl
    exact fits_internal_of_short_keys

/-- Three cells of 6000-byte keys, of which a leaf holds two, and five separators of 4000 bytes, of
which an internal page holds four. -/
theorem split_choices_fit_iff_equal_keys :
    Fits (leafFootprints (replicate 3 ⟨6000, 0⟩)) (chooseLeafSplitIdx (replicate 3 ⟨6000, 0⟩))
        (chooseLeafSplitIdx (replicate 3 ⟨6000, 0⟩)) ∧
      PromotionFits (replicate 5 4000) (chooseInternalPromotionIdx (replicate 5 4000)) := by
  obtain ⟨hleaf, hinternal, -, -⟩ := split_choices_fit_iff (replicate 3 ⟨6000, 0⟩) (replicate 5 4000)
  exact ⟨(hleaf (by decide)).2.mpr ⟨1, by decide⟩, (hinternal (by decide)).mpr ⟨2, by decide⟩⟩

/-- A key of 13010 bytes comes between two of 6490, and no boundary fits. A separator is promoted
around which the right side does not fit, though around the next one both sides do. -/
theorem split_choices_overflow :
    ((validateRowPayload 6490 0).isOk = true ∧ (validateRowPayload 13010 0).isOk = true ∧
      (leafFootprints [⟨6490, 0⟩, ⟨6490, 0⟩]).sum ≤ pageCapacityBytes ∧
      ∀ i ≤ 3, ¬Fits (leafFootprints [⟨6490, 0⟩, ⟨13010, 0⟩, ⟨6490, 0⟩]) i i) ∧
    (separatorFootprints [9780, 1620, 2440]).sum ≤ pageCapacityBytes ∧
      chooseInternalPromotionIdx [9780, 1620, 14660, 2440] = 1 ∧
      ¬PromotionFits [9780, 1620, 14660, 2440] 1 ∧ PromotionFits [9780, 1620, 14660, 2440] 2 := by
  decide

end AxiomDb.Index.Clustered
