import AxiomDb.Heap.Chain

/-!
# Filtered scans

`scan_table_filtered_brin` walks a table's chain and returns the visible rows
that pass a filter. It passes over a page that lies outside of the wanted BRIN
ranges, or whose zone map rules the predicate out. `scan_zoneMap_eq`: where the
zone maps hold all rows of their pages, the second makes no difference.
-/

namespace AxiomDb.Heap

open Lib List Option HeapPage

/-- Decoding of a table's rows, all columns or those of a mask. -/
structure RowReader (Row : Type) where
  decodeRow : Bytes → Except DbError Row
  decodeRowMasked : List Bool → Bytes → Except DbError Row

structure FilterArgs (Row : Type) where
  reader : RowReader Row
  snap : TransactionSnapshot
  predicate : Row → Bool
  zoneMapPred : Option (Nat × ZoneMapPredicate)
  whereColMask : Option (List Bool)
  batchPred : Option (Bytes → Bool)
  brinRanges : Option (List Nat)
  brinPpr : Nat

namespace FilterArgs

variable {Row : Type} (args : FilterArgs Row)

def brinSkips (current : PageId) : Bool :=
  match args.brinRanges with
  | some ranges => decide (args.brinPpr > 0) && !ranges.contains (current / args.brinPpr % 2 ^ 32)
  | none => false

def zoneMapSkips (page : HeapPage) : Bool :=
  match args.zoneMapPred, readZoneMap page with
  | some (predColIdx, zmp), some zm => zm.colIdx.val == predColIdx && !zoneMapMightMatch zm zmp
  | _, _ => false

/-- One visible row: by the batch predicate, by the columns of the mask first
where it leaves some out, or by the whole row. -/
def filterRow (data : Bytes) : Except DbError (Option Row) :=
  match args.batchPred with
  | some bp => if bp data then some <$> args.reader.decodeRow data else pure none
  | none =>
    match args.whereColMask.filter fun mask => !mask.all id with
    | some mask => do
      let values ← args.reader.decodeRowMasked mask data
      if args.predicate values then some <$> args.reader.decodeRow data else pure none
    | none => do
      let values ← args.reader.decodeRow data
      if args.predicate values then pure (some values) else pure none

/-- `TableEngine::process_page_filtered` in `table_scan.rs`. -/
def filterPage (current : PageId) (page : HeapPage) : Except DbError (List (RecordId × Row)) := do
  let rows ← (page.scanVisible args.snap).mapM fun (slotId, data) => do
    let row ← args.filterRow data
    pure (row.map fun row => (⟨current, slotId⟩, row))
  pure rows.reduceOption

/-- The rows of one page, none where it is passed over. -/
def scanPage (current : PageId) (page : HeapPage) : Except DbError (List (RecordId × Row)) :=
  if args.brinSkips current then .ok []
  else if args.zoneMapSkips page then .ok []
  else args.filterPage current page

/-- `TableEngine::scan_table_filtered_brin` in `table_scan.rs`. -/
def scanTableFilteredBrin {σ : Type} (E : StorageEngine Stop σ HeapPage) :
    Nat → PageId → EStateM Stop σ (List (RecordId × Row))
  | 0, _ => throw .outOfFuel
  | fuel + 1, current => do
    if current = 0 then pure []
    else
      let page ← E.readPage current
      let rows ← ofExcept (args.scanPage current page)
      let rest ← scanTableFilteredBrin E fuel page.chainNextPage
      pure (rows ++ rest)

/-- The same scan without the zone map predicate. -/
def withoutZoneMap : FilterArgs Row := { args with zoneMapPred := none }

/-- Every row the filter lets through has a value that satisfies `p`. -/
def Implies (value : Bytes → Option I64) (p : ZoneMapPredicate) : Prop :=
  ∀ data row, args.filterRow data = .ok (some row) → ∃ x ∈ value data, p.holds x = true

/-- The filter reads the rows of a page without an error. -/
def Reads (page : HeapPage) : Prop :=
  ∀ t, some t ∈ page.slots → ∃ row, args.filterRow t.data = .ok row

variable {args} {page : HeapPage} {current : PageId}

theorem mem_slots_of_scanVisible {snap : TransactionSnapshot} {i : Nat} {data : Bytes}
    (h : (i, data) ∈ page.scanVisible snap) : ∃ t, some t ∈ page.slots ∧ t.data = data := by
  simp only [scanVisible, mem_filterMap, bind_eq_bind, bind_eq_some_iff] at h
  obtain ⟨⟨entry, j⟩, hmem, t, rfl, ht⟩ := h
  split at ht
  · obtain ⟨rfl, rfl⟩ := Prod.mk.inj (some.inj ht)
    exact ⟨t, fst_mem_of_mem_zipIdx hmem, rfl⟩
  · simp at ht

theorem mapM_ok {α β : Type} {f : α → Except DbError β} {l : List α} {g : α → β}
    (h : ∀ a ∈ l, f a = .ok (g a)) : l.mapM f = .ok (l.map g) := by
  induction l with
  | nil => rfl
  | cons a l ih =>
    rw [mapM_cons, h a mem_cons_self, ih fun b hb => h b (mem_cons_of_mem _ hb)]
    rfl

theorem filterPage_eq {g : Nat × Bytes → Option Row}
    (hg : ∀ e ∈ page.scanVisible args.snap, args.filterRow e.2 = .ok (g e)) :
    args.filterPage current page = .ok ((page.scanVisible args.snap).map fun e =>
      (g e).map fun row => ((⟨current, e.1⟩ : RecordId), row)).reduceOption := by
  rw [filterPage, mapM_ok (g := fun e => (g e).map fun row => ((⟨current, e.1⟩ : RecordId), row))]
  · rfl
  · rintro ⟨i, data⟩ he
    simp only [hg (i, data) he]
    rfl

variable {value : Bytes → Option I64} {col : Fin 256} {ps : List PageId} {p : ZoneMapPredicate}

/-- A page that is passed over has no row that the filter lets through. -/
theorem filterRow_of_skips (hz : args.zoneMapPred = some (col.val, p)) (hi : args.Implies value p)
    (hs : ZoneSound value col page) (hr : args.Reads page) (hskip : args.zoneMapSkips page)
    {t : Slot} (ht : some t ∈ page.slots) : args.filterRow t.data = .ok none := by
  rw [zoneMapSkips, hz] at hskip
  rcases hzm : readZoneMap page with _ | zm
  · simp [hzm] at hskip
  simp only [hzm, Bool.and_eq_true, beq_iff_eq, Bool.not_eq_true'] at hskip
  obtain ⟨row, hrow⟩ := hr t ht
  cases row with
  | none => exact hrow
  | some row =>
    have := zoneSound_iff.mp hs p t ht (hi t.data row hrow) zm hzm (Fin.ext hskip.1)
    rw [hskip.2] at this
    cases this

/-- The rows of a page are the same whether its zone map is looked at or not. -/
theorem scanPage_eq (current : PageId) (hz : args.zoneMapPred = some (col.val, p))
    (hi : args.Implies value p) (hs : ZoneSound value col page) (hr : args.Reads page) :
    ∃ rows, args.scanPage current page = .ok rows ∧
      args.withoutZoneMap.scanPage current page = .ok rows := by
  have hfilter : args.withoutZoneMap.scanPage current page =
      if args.brinSkips current then .ok [] else args.filterPage current page := rfl
  rw [hfilter, scanPage]
  cases args.brinSkips current with
  | true => exact ⟨[], rfl, rfl⟩
  | false =>
    simp only [Bool.false_eq_true, if_false]
    split
    next hskip =>
      refine ⟨[], rfl, ?_⟩
      rw [filterPage_eq (g := fun _ => none) fun e he => ?_]
      · simp [reduceOption]
      · obtain ⟨t, ht, hd⟩ := mem_slots_of_scanVisible (i := e.1) he
        exact hd ▸ filterRow_of_skips hz hi hs hr hskip ht
    next =>
      have hrow : ∀ e : Nat × Bytes, ∃ r, e ∈ page.scanVisible args.snap →
          args.filterRow e.2 = .ok r := by
        intro e
        by_cases he : e ∈ page.scanVisible args.snap
        · obtain ⟨t, ht, hd⟩ := mem_slots_of_scanVisible (i := e.1) he
          obtain ⟨r, h⟩ := hr t ht
          exact ⟨r, fun _ => hd ▸ h⟩
        · exact ⟨none, fun h => absurd h he⟩
      choose g hg using hrow
      exact ⟨_, filterPage_eq hg, filterPage_eq hg⟩

section

variable {σ : Type} {E : StorageEngine Stop σ HeapPage} {view : σ → Heap HeapPage} {s : σ}

/-- A scan returns what it returns page by page. -/
theorem scanTableFilteredBrin_eq {rows : PageId → HeapPage → List (RecordId × Row)}
    (hE : E.Lawful 0 view) (hc : IsChain chainNextPage 0 (view s) current ps)
    (h : ∀ p ∈ ps, ∀ page, view s p = some page → args.scanPage p page = .ok (rows p page)) :
    ∀ fuel > ps.length, args.scanTableFilteredBrin E fuel current s =
      .ok (ps.flatMap fun p => ((view s p).map (rows p)).getD []) s := by
  induction ps generalizing current with
  | nil =>
    intro fuel hf
    obtain ⟨fuel, rfl⟩ := Nat.exists_eq_succ_of_ne_zero (by omega : fuel ≠ 0)
    rw [scanTableFilteredBrin, if_pos (show current = 0 from hc)]
    rfl
  | cons q ps ih =>
    obtain ⟨rfl, hne, page, hp, hc⟩ := hc
    intro fuel hf
    obtain ⟨fuel, rfl⟩ := Nat.exists_eq_succ_of_ne_zero (by omega : fuel ≠ 0)
    rw [length_cons] at hf
    have hrest := ih hc (fun r hr => h r (mem_cons_of_mem _ hr)) fuel (by omega)
    rw [scanTableFilteredBrin, if_neg hne, flatMap_cons, hp]
    refine (bind_ok (hE.read hp)).trans ?_
    rw [h current mem_cons_self page hp]
    exact bind_ok hrest

/-- Where the zone maps hold all rows of their pages, the scan with the zone map
predicate returns, with the rows of the scan without. -/
theorem scan_zoneMap_eq (hE : E.Lawful 0 view) (hz : args.zoneMapPred = some (col.val, p))
    (hi : args.Implies value p) (hc : IsChain chainNextPage 0 (view s) current ps)
    (hs : ∀ q ∈ ps, ∀ page, view s q = some page → ZoneSound value col page ∧ args.Reads page) :
    ∃ rows, ∀ fuel > ps.length, args.scanTableFilteredBrin E fuel current s = .ok rows s ∧
      args.withoutZoneMap.scanTableFilteredBrin E fuel current s = .ok rows s := by
  have hpage : ∀ q page, ∃ rows, q ∈ ps → view s q = some page →
      args.scanPage q page = .ok rows ∧ args.withoutZoneMap.scanPage q page = .ok rows := by
    intro q page
    by_cases h : q ∈ ps ∧ view s q = some page
    · obtain ⟨hsound, hreads⟩ := hs q h.1 page h.2
      obtain ⟨rows, hrows⟩ := scanPage_eq q hz hi hsound hreads
      exact ⟨rows, fun _ _ => hrows⟩
    · exact ⟨[], fun hq hp => absurd ⟨hq, hp⟩ h⟩
  choose rows hrows using hpage
  have hwith := scanTableFilteredBrin_eq hE hc fun q hq page hp => (hrows q page hq hp).1
  have hwithout := scanTableFilteredBrin_eq hE hc fun q hq page hp => (hrows q page hq hp).2
  exact ⟨_, fun fuel hf => ⟨hwith fuel hf, hwithout fuel hf⟩⟩

end

end FilterArgs

end AxiomDb.Heap
