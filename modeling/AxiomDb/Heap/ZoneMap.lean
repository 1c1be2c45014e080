import AxiomDb.Heap.Page

/-!
# Zone maps

A page may carry the least and the greatest value of one column of its rows, so
that a scan can pass over the page without decoding a row. `value` is the value
a row's bytes have in the tracked column, `none` for NULL. `Covers` says that a
value lies within the page's bounds, and `ZoneSound` that all of the page's rows
do; this is what `zone_map_might_match` needs (`zoneSound_iff`).
-/

namespace AxiomDb.Heap

open List Option HeapPage

namespace I64

/-- `i64::MIN` -/
def MIN : I64 := ⟨-2 ^ 63, by omega⟩

/-- `i64::MAX` -/
def MAX : I64 := ⟨2 ^ 63 - 1, by omega⟩

theorem MIN_le (x : I64) : MIN ≤ x := x.isI64.1

theorem le_MAX (x : I64) : x ≤ MAX := x.isI64.2

end I64

/-- `ZoneMapPredicate` in `zone_map.rs`. -/
inductive ZoneMapPredicate where
  | eq (val : I64)
  | gt (val : I64)
  | gtEq (val : I64)
  | lt (val : I64)
  | ltEq (val : I64)
  | between (lo hi : I64)

/-- The rows a predicate asks for. -/
def ZoneMapPredicate.holds : ZoneMapPredicate → I64 → Bool
  | .eq val, v => v = val
  | .gt val, v => v > val
  | .gtEq val, v => v ≥ val
  | .lt val, v => v < val
  | .ltEq val, v => v ≤ val
  | .between lo hi, v => lo ≤ v && v ≤ hi

/-- `zone_map_might_match` in `zone_map.rs`. -/
def zoneMapMightMatch (zm : ZoneMap) : ZoneMapPredicate → Bool
  | .eq val => zm.minVal ≤ val && val ≤ zm.maxVal
  | .gt val => zm.maxVal > val
  | .gtEq val => zm.maxVal ≥ val
  | .lt val => zm.minVal < val
  | .ltEq val => zm.minVal ≤ val
  | .between lo hi => zm.minVal ≤ hi && zm.maxVal ≥ lo

/-- `read_zone_map` in `zone_map.rs`. -/
def readZoneMap (page : HeapPage) : Option ZoneMap := page.zoneMap

/-- The zone map a page gets when it has none for the column. -/
def initZoneMap (page : HeapPage) (colIdx : Fin 256) (value : I64) : ZoneMap :=
  if page.numSlots > 1 then ⟨colIdx, I64.MIN, I64.MAX⟩ else ⟨colIdx, value, value⟩

/-- Widens the zone map to a value of the row just inserted. -/
def updateZoneMap (page : HeapPage) (colIdx : Fin 256) (value : I64) : HeapPage :=
  { page with
    zoneMap := some (match page.zoneMap with
      | none => initZoneMap page colIdx value
      | some zm =>
        if zm.colIdx ≠ colIdx then initZoneMap page colIdx value
        else
          { zm with
            minVal := if value < zm.minVal then value else zm.minVal
            maxVal := if value > zm.maxVal then value else zm.maxVal }) }

/-! ## Soundness -/

section Sound

variable (value : Bytes → Option I64) (col : Fin 256)

/-- A value lies within the page's bounds for `col`, if it has any. -/
def Covers (page : HeapPage) (v : Option I64) : Prop :=
  ∀ zm ∈ page.zoneMap, zm.colIdx = col → ∀ x ∈ v, zm.minVal ≤ x ∧ x ≤ zm.maxVal

instance (page : HeapPage) (v : Option I64) : Decidable (Covers col page v) :=
  inferInstanceAs (Decidable (∀ zm ∈ page.zoneMap, _))

/-- The page's bounds for `col` hold all of its rows. -/
def ZoneSound (page : HeapPage) : Prop :=
  ∀ t, some t ∈ page.slots → Covers col page (value t.data)

variable {value col} {page page' : HeapPage} {data : Bytes} {txnId : TxnId} {slotId : Nat} {x : I64}
  {t : Slot}

theorem mightMatch_of_mem {zm : ZoneMap} (h : zm.minVal ≤ x ∧ x ≤ zm.maxVal)
    {p : ZoneMapPredicate} (hp : p.holds x) : zoneMapMightMatch zm p := by
  obtain ⟨hmin, hmax⟩ := h
  cases p <;> simp only [ZoneMapPredicate.holds, zoneMapMightMatch, Bool.and_eq_true,
    decide_eq_true_eq] at hp ⊢
  case eq => exact ⟨hp ▸ hmin, hp ▸ hmax⟩
  case gt => exact lt_of_lt_of_le hp hmax
  case gtEq => exact le_trans hp hmax
  case lt => exact lt_of_le_of_lt hmin hp
  case ltEq => exact le_trans hmin hp
  case between => exact ⟨le_trans hmin hp.2, le_trans hp.1 hmax⟩

/-- The page's bounds hold all of its rows if and only if no predicate that one
of them satisfies is ruled out. -/
theorem zoneSound_iff : ZoneSound value col page ↔
    ∀ p : ZoneMapPredicate, ∀ t, some t ∈ page.slots → (∃ x ∈ value t.data, p.holds x) →
      ∀ zm ∈ readZoneMap page, zm.colIdx = col → zoneMapMightMatch zm p := by
  constructor
  · rintro h p t ht ⟨x, hx, hp⟩ zm hzm hcol
    exact mightMatch_of_mem (h t ht zm hzm hcol x hx) hp
  · intro h t ht zm hzm hcol x hx
    simpa [zoneMapMightMatch] using
      h (.eq x) t ht ⟨x, hx, by simp [ZoneMapPredicate.holds]⟩ zm hzm hcol

theorem zoneSound_new (p : Lib.PageId) : ZoneSound value col (.new p) := by
  simp [ZoneSound, new]

/-- Slots and zone map are all that matters. -/
theorem ZoneSound.congr (h : ZoneSound value col page) (hs : page'.slots = page.slots)
    (hz : page'.zoneMap = page.zoneMap) : ZoneSound value col page' := by
  intro t ht
  rw [Covers, hz]
  exact h t (hs ▸ ht)

theorem ZoneSound.insert (h : ZoneSound value col page)
    (hi : Inserted page data txnId slotId page') (hc : Covers col page (value data)) :
    ZoneSound value col page' := by
  obtain ⟨offset, hs⟩ := hi.slots
  intro t ht
  rw [Covers, hi.zoneMap]
  rw [hs, mem_append] at ht
  rcases ht with ht | ht
  · exact h t ht
  · obtain rfl : t = _ := by simpa using ht
    exact hc

theorem ZoneSound.rewrite (h : ZoneSound value col page) {image : TupleImage}
    (hr : Rewritten page slotId t image page') (hc : Covers col page (value image.2)) :
    ZoneSound value col page' := by
  intro u hu
  rw [Covers, hr.zoneMap]
  rw [hr.slots] at hu
  rcases Layout.mem_set hu with hu | hu
  · obtain rfl := some.inj hu
    exact hc
  · exact h u hu

theorem covers_initZoneMap (hn : 0 < page.numSlots)
    (hx : page.numSlots = 1 → value t.data = some x) {y : I64} (hy : y ∈ value t.data) :
    (initZoneMap page col x).minVal ≤ y ∧ y ≤ (initZoneMap page col x).maxVal := by
  rw [initZoneMap]
  split
  next => exact ⟨I64.MIN_le y, I64.le_MAX y⟩
  next hle =>
    obtain rfl := some.inj ((hx (by omega)).symm.trans hy)
    exact ⟨le_rfl, le_rfl⟩

/-- A batch insert adds the row and widens the zone map to it. -/
theorem ZoneSound.insert_update (h : ZoneSound value col page)
    (hi : Inserted page data txnId slotId page') (hx : value data = some x) :
    ZoneSound value col (updateZoneMap page' col x) := by
  obtain ⟨offset, hs⟩ := hi.slots
  have hmem (t : Slot) (ht : some t ∈ page'.slots) : some t ∈ page.slots ∨ t.data = data := by
    rw [hs, mem_append] at ht
    exact ht.imp id fun ht => by rw [mem_singleton] at ht; rw [some.inj ht]
  have hlen : page'.numSlots = page.slots.length + 1 := by simp [numSlots, hs]
  have hinit (t : Slot) (ht : some t ∈ page'.slots) (y : I64) (hy : y ∈ value t.data) :
      (initZoneMap page' col x).minVal ≤ y ∧ y ≤ (initZoneMap page' col x).maxVal := by
    refine covers_initZoneMap (by omega) (fun h1 => ?_) hy
    rcases hmem t ht with ht | ht
    · rw [length_eq_zero_iff.mp (by omega : page.slots.length = 0)] at ht
      simp at ht
    · rw [ht, hx]
  intro t ht zm hzm hcol y hy
  obtain rfl := some.inj hzm
  rcases hz : page'.zoneMap with _ | zm
  · exact hinit t ht y hy
  simp only
  split
  next => exact hinit t ht y hy
  next hc =>
    -- the bounds were sound for the old rows, and only get wider
    rcases hmem t ht with ht | ht
    · obtain ⟨hmin, hmax⟩ := h t ht zm (hi.zoneMap ▸ hz) (not_not.mp hc) y hy
      constructor
      · show (if x < zm.minVal then x else zm.minVal) ≤ y
        split
        next hlt => exact hlt.le.trans hmin
        next => exact hmin
      · show y ≤ if x > zm.maxVal then x else zm.maxVal
        split
        next hlt => exact hmax.trans hlt.le
        next => exact hmax
    · obtain rfl : x = y := some.inj (hx.symm.trans (ht ▸ hy))
      constructor
      · show (if x < zm.minVal then x else zm.minVal) ≤ x
        split
        next => exact le_rfl
        next hlt => exact not_lt.mp hlt
      · show x ≤ if x > zm.maxVal then x else zm.maxVal
        split
        next => exact le_rfl
        next hlt => exact not_lt.mp hlt

end Sound

end AxiomDb.Heap
