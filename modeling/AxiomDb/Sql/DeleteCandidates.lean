import AxiomDb.Heap.ZoneRuns
import AxiomDb.Sql.MaskedDecode

/-!
# The candidates of DELETE and UPDATE

`collect_delete_candidates` scans the table with a filter: a compiled predicate where
`try_compile` gives one; otherwise the WHERE, on rows in which only the columns that
`collect_where_columns` has found are decoded, or on whole rows if it has found them
all. Pages whose zone map rules the WHERE out are passed over. An UPDATE finds its rows
by the same function.

`candidates_are_matching_rows`: the scan returns the visible rows on which the WHERE
holds, if the filter sees of each row what the WHERE needs.
-/

namespace AxiomDb.Row

open Lib Sql Heap List Option FilterArgs SInt

/-! ## Zone map predicates -/

theorem isI64_of_le {bits : Nat} (h : bits ≤ 64) (n : SInt bits) :
    -2 ^ 63 ≤ n.val ∧ n.val ≤ 2 ^ 63 - 1 := by
  have hpow : (2 : Int) ^ (bits - 1) ≤ 2 ^ 63 := pow_le_pow_right₀ (by norm_num) (by omega)
  have hlow := n.lower
  have hup := n.upper
  omega

theorem isI64_of_bool (b : Bool) : -2 ^ 63 ≤ (b.toNat : Int) ∧ (b.toNat : Int) ≤ 2 ^ 63 - 1 := by
  cases b <;> decide

/-- The number that a zone map keeps of a value. -/
def zoneValue : Value → Option I64
  | .int n => some ⟨n.val, isI64_of_le (Nat.le_of_ble_eq_true rfl) n⟩
  | .bigInt n => some ⟨n.val, isI64_of_le le_rfl n⟩
  | .bool b => some ⟨b.toNat, isI64_of_bool b⟩
  | _ => none

/-- `col op intVal`, or `intVal op col`. -/
def zonePredicate (op : BinaryOp) (isReversed : Bool) (intVal : I64) : Option ZoneMapPredicate :=
  match op, isReversed with
  | .eq, _ => some (.eq intVal)
  | .gt, false | .lt, true => some (.gt intVal)
  | .gtEq, false | .ltEq, true => some (.gtEq intVal)
  | .lt, false | .gt, true => some (.lt intVal)
  | .ltEq, false | .gtEq, true => some (.ltEq intVal)
  | _, _ => none

/-- `extract_zone_map_predicate` in `planner_zone.rs`. -/
def extractZoneMapPredicate : Expr → Option (Nat × ZoneMapPredicate)
  | .binaryOp .and left right => (extractZoneMapPredicate left).or (extractZoneMapPredicate right)
  | .binaryOp op (.column colIdx) (.literal v) => do
    let intVal ← zoneValue v
    let pred ← zonePredicate op false intVal
    some (colIdx, pred)
  | .binaryOp op (.literal v) (.column colIdx) => do
    let intVal ← zoneValue v
    let pred ← zonePredicate op true intVal
    some (colIdx, pred)
  | _ => none

variable {op : BinaryOp} {isReversed : Bool} {e : Expr} {a b n : I64} {row : List Value} {o : Ops}
  {l r v : Value} {p : ZoneMapPredicate}

/-- Two values that both have a number are compared by it, or not at all. -/
theorem compareValues_zoneValue {ord : Ordering} (hl : zoneValue l = some a)
    (hr : zoneValue r = some b) (h : compareValues o l r = .ok ord) :
    ord = compare a.val b.val := by
  cases l <;> cases hl <;> cases r <;> cases hr <;> cases h <;> first | rfl | skip
  rename_i a b
  cases a <;> cases b <;> rfl

theorem evalBinary_zoneValue (hl : zoneValue l = some a) (hr : zoneValue r = some b)
    (h : evalBinary o op l r = .ok (.bool true)) : op.holds (compare a.val b.val) := by
  have hcmp : evalBinary o op l r = (do
      let ord ← compareValues o l r
      .ok (.bool (op.holds ord))) := by
    cases l <;> cases hl <;> cases r <;> cases hr <;> rfl
  rw [hcmp] at h
  obtain ⟨ord, hord, h⟩ := bind_eq_ok.1 h
  rw [← compareValues_zoneValue hl hr hord]
  exact Value.bool.inj (Except.ok.inj h)

theorem holds_of_zonePredicate {x : I64} (h : zonePredicate op isReversed n = some p)
    (hop : op.holds (if isReversed then compare n.val x.val else compare x.val n.val)) :
    p.holds x := by
  have hlt : ∀ a b : I64, a < b ↔ a.val < b.val := fun _ _ => Iff.rfl
  have hle : ∀ a b : I64, a ≤ b ↔ a.val ≤ b.val := fun _ _ => Iff.rfl
  have heq : ∀ a b : I64, a = b ↔ a.val = b.val := fun a b => ⟨congrArg I64.val, fun h => by
    cases a
    cases b
    cases h
    rfl⟩
  cases op <;> cases isReversed <;> cases h <;>
    simp only [BinaryOp.holds, Bool.false_eq_true, if_false, if_true, beq_iff_eq, bne_iff_ne,
      compare_lt_iff_lt, compare_gt_iff_gt, compare_eq_iff_eq, compare_le_iff_le,
      compare_ge_iff_ge] at hop <;>
    simp only [ZoneMapPredicate.holds, decide_eq_true_eq, gt_iff_lt, ge_iff_le, hlt, hle, heq] <;>
    omega

theorem toBinaryOp_of_zonePredicate (h : zonePredicate op isReversed n = some p) :
    ∃ c : CmpOp, op = c.toBinaryOp := by
  unfold zonePredicate at h
  split at h
  all_goals first
    | exact ⟨.eq, rfl⟩
    | exact ⟨.gt, rfl⟩
    | exact ⟨.lt, rfl⟩
    | exact ⟨.gtEq, rfl⟩
    | exact ⟨.ltEq, rfl⟩
    | cases h

theorem holdsOn_iff : holdsOn o e row ↔ eval o row e = .ok (.bool true) := by
  rw [holdsOn]
  constructor
  · intro h
    split at h
    next v hv =>
      rw [hv]
      unfold isTruthy at h
      split at h
      · rfl
      · cases h
    · cases h
  · intro h
    rw [h]
    rfl

theorem evalAnd_eq_true {l r : EvalResult} (h : evalAnd l r = .ok (.bool true)) :
    l = .ok (.bool true) ∧ r = .ok (.bool true) := by
  obtain ⟨v, hv, h⟩ := bind_eq_ok.1 h
  rw [hv]
  split at h
  · cases h
  · exact ⟨rfl, h⟩
  · obtain ⟨w, -, h⟩ := bind_eq_ok.1 h
    split at h <;> cases h
  · cases h

theorem getElem?_of_eval_column {colIdx : Nat} (h : eval o row (.column colIdx) = .ok v) :
    row[colIdx]? = some v := by
  simp only [eval] at h
  split at h <;> cases h
  assumption

/-- A comparison that holds, of a column with a literal that has a number. -/
theorem zonePredicate_of_comparison {w : Value} (hn : zoneValue v = some n)
    (hp : zonePredicate op isReversed n = some p)
    (h : (if isReversed then evalBinary o op v w else evalBinary o op w v) = .ok (.bool true)) :
    w.isNull = false ∧ ∀ x, zoneValue w = some x → p.holds x := by
  constructor
  · cases w
    case null => cases isReversed <;> cases v <;> cases hn <;> cases h
    all_goals rfl
  intro x hx
  refine holds_of_zonePredicate hp ?_
  cases isReversed with
  | false => exact evalBinary_zoneValue hx hn h
  | true => exact evalBinary_zoneValue hn hx h

/-- Where a WHERE holds, the column of its zone map predicate is not NULL, and its number
satisfies the predicate. -/
theorem zonePredicate_of_holdsOn {col : Nat} (hp : extractZoneMapPredicate e = some (col, p))
    (h : holdsOn o e row) :
    ∃ w, row[col]? = some w ∧ w.isNull = false ∧ ∀ x, zoneValue w = some x → p.holds x := by
  rw [holdsOn_iff] at h
  fun_induction extractZoneMapPredicate e with
  | case1 left right ihl ihr =>
    rw [eval] at h
    obtain ⟨hl, hr⟩ := evalAnd_eq_true h
    rcases or_eq_some_iff.1 hp with hp | ⟨-, hp⟩
    · exact ihl hp hl
    · exact ihr hp hr
  | case2 op colIdx v hand =>
    obtain ⟨n, hn, hp⟩ := bind_eq_some_iff.1 hp
    obtain ⟨q, hq, hp⟩ := bind_eq_some_iff.1 hp
    cases hp
    obtain ⟨c, rfl⟩ := toBinaryOp_of_zonePredicate hq
    rw [eval_comparison] at h
    obtain ⟨w, hw, h⟩ := bind_eq_ok.1 h
    rw [eval, ok_bind] at h
    exact ⟨w, getElem?_of_eval_column hw, zonePredicate_of_comparison hn hq h⟩
  | case3 op v colIdx hand =>
    obtain ⟨n, hn, hp⟩ := bind_eq_some_iff.1 hp
    obtain ⟨q, hq, hp⟩ := bind_eq_some_iff.1 hp
    cases hp
    obtain ⟨c, rfl⟩ := toBinaryOp_of_zonePredicate hq
    rw [eval_comparison, eval, ok_bind] at h
    obtain ⟨w, hw, h⟩ := bind_eq_ok.1 h
    exact ⟨w, getElem?_of_eval_column hw, zonePredicate_of_comparison hn hq h⟩
  | case4 => cases hp

/-! ## The scan -/

/-- A search for the rows of a DELETE: the parts of the program that are not modelled
(`err` is how an error of the codec is reported, `detoast` what a pointer is replaced
by), the table's columns, the snapshot and the WHERE. -/
structure CandidateScan where
  ops : Ops
  ext : Externals
  err : CodecError → DbError
  detoast : Value → Value
  schemaCols : List DataType
  snap : TransactionSnapshot
  whereClause : Expr

namespace CandidateScan

variable (c : CandidateScan)

/-- `decode_row`, then `detoast_row`. -/
def readRow (data : Bytes) : Except DbError (List Value) :=
  match decodeRow c.ext data c.schemaCols with
  | .ok values => .ok (values.map c.detoast)
  | .error e => .error (c.err e)

/-- The partly decoded row: pointers stay. -/
def readRowMasked (mask : List Bool) (data : Bytes) : Except DbError (List Value) :=
  match decodeRowMasked c.ext data c.schemaCols mask with
  | .ok values => .ok values
  | .error e => .error (c.err e)

def whereColMask : Option (List Bool) :=
  let mask := collectWhereColumns c.whereClause c.schemaCols.length
  if mask.count true < c.schemaCols.length then some mask else none

/-- The filter. A batch of rows is filtered as its rows are one by one (`evalBatch_eq`). -/
def args : FilterArgs (List Value) where
  reader := ⟨c.readRow, c.readRowMasked⟩
  snap := c.snap
  predicate values := match eval c.ops values c.whereClause with
    | .ok v => isTruthy v
    | .error _ => true  -- include on error
  zoneMapPred := extractZoneMapPredicate c.whereClause
  whereColMask := c.whereColMask
  batchPred := (tryCompile c.ext c.whereClause c.schemaCols).map fun p => p.evalOnRaw c.ext
  brinRanges := none
  brinPpr := 0

/-- `collect_delete_candidates`, where no index is used. -/
def collectDeleteCandidates {σ : Type} (E : StorageEngine Stop σ HeapPage) (fuel : Nat)
    (rootPageId : PageId) : EStateM Stop σ (List (RecordId × List Value)) :=
  c.args.scanTableFilteredBrin E fuel rootPageId

/-- The row of `data`, if the WHERE holds on it. -/
def matchingRow (data : Bytes) : Option (List Value) :=
  match c.readRow data with
  | .ok values => if holdsOn c.ops c.whereClause values then some values else none
  | .error _ => none

/-- The visible rows of a page on which the WHERE holds. -/
def matchingOnPage (current : PageId) (page : HeapPage) : List (RecordId × List Value) :=
  (page.scanVisible c.snap).filterMap fun e =>
    (c.matchingRow e.2).map fun values => (⟨current, e.1⟩, values)

/-- The visible rows of a chain of pages on which the WHERE holds. -/
def matchingRows (H : Heap HeapPage) (ps : List PageId) : List (RecordId × List Value) :=
  ps.flatMap fun p => ((H p).map (c.matchingOnPage p)).getD []

/-- The row is decoded and the WHERE evaluated without an error. -/
def Evaluates (data : Bytes) : Prop :=
  ∃ values v, c.readRow data = .ok values ∧ eval c.ops values c.whereClause = .ok v

/-- On the partly decoded row the columns of `e` are what they are on the row: each one that is found
is no pointer, and each one that is not found is NULL. -/
def ColumnsSeen (stored : List Value) (e : Expr) : Prop :=
  ∀ i ∈ e.columns, ∀ v, stored[i]? = some v →
    (i ∈ c.whereClause.walked ∧ c.detoast v = v) ∨ (i ∉ c.whereClause.walked ∧ c.detoast v = .null)

/-- So it is for the operands of the conjunction up to the first that is false. -/
def PartSeen (stored : List Value) : Expr → Prop
  | .binaryOp .and left right => PartSeen stored left ∧
    (eval c.ops (stored.map c.detoast) left ≠ .ok (.bool false) → PartSeen stored right)
  | e => c.ColumnsSeen stored e

/-- The filter sees of a row what the WHERE needs. The checks of a compiled predicate that are reached
find their columns, which are stored up to there as `encode_row` writes them. Otherwise the columns
have all been found, or what is reached of the WHERE sees its own. -/
def Sees (data : Bytes) : Prop :=
  match tryCompile c.ext c.whereClause c.schemaCols with
  | some _ => ∀ values, c.readRow data = .ok values → StoredTo c.ext values c.schemaCols 0 data ∧
      c.whereClause.ReachedAll c.ops values fun colIdx v =>
        checkSafe c.ext c.schemaCols values colIdx v ∧
        (values[colIdx]? = some .null ∨ StoredTo c.ext values c.schemaCols (colIdx + 1) data)
  | none => (∀ i < c.schemaCols.length, i ∈ c.whereClause.walked) ∨
      ∀ stored, decodeRow c.ext data c.schemaCols = .ok stored → c.PartSeen stored c.whereClause

/-- The bounds of a page's zone map, where it has one for the column of the predicate,
hold the column of the visible rows on which the WHERE holds. -/
def ZoneHolds (page : HeapPage) : Prop :=
  ∀ col p zm, extractZoneMapPredicate c.whereClause = some (col, p) → page.zoneMap = some zm →
    zm.colIdx.val = col → ∀ e ∈ page.scanVisible c.snap, ∀ values v, c.readRow e.2 = .ok values →
      holdsOn c.ops c.whereClause values = true → values[col]? = some v →
        ∃ n, zoneValue v = some n ∧ zm.minVal ≤ n ∧ n ≤ zm.maxVal

variable {c} {data : Bytes} {page : HeapPage}

/-- The row as `decode_row_masked` gives it. -/
def masked (stored : List Value) : List Value :=
  List.zipWith (fun m v => if m then v else .null)
    (collectWhereColumns c.whereClause c.schemaCols.length) stored

theorem eval_masked_of_columnsSeen {stored : List Value} {e : Expr}
    (hdec : decodeRow c.ext data c.schemaCols = .ok stored) (h : c.ColumnsSeen stored e) :
    eval c.ops (c.masked stored) e = eval c.ops (stored.map c.detoast) e := by
  have hlen := length_decodeRow hdec
  have hmask : (collectWhereColumns c.whereClause c.schemaCols.length).length = stored.length := by
    rw [collectWhereColumns, length_map, length_range, hlen]
  refine eval_congr (by rw [masked, length_zipWith, hmask, min_self, length_map]) _ fun i hi => ?_
  rw [masked, getElem?_zipWith, getElem?_map]
  cases hv : stored[i]? with
  | none => simp
  | some v =>
    have hlt : i < c.schemaCols.length := hlen ▸ (List.getElem?_eq_some_iff.1 hv).1
    rw [getElem?_collectWhereColumns _ hlt]
    rcases h i hi v hv with ⟨hw, hd⟩ | ⟨hw, hd⟩ <;> simp [hw, hd]

/-- On the partly decoded row the WHERE gives what it gives on the row. -/
theorem eval_masked {stored : List Value} (hdec : decodeRow c.ext data c.schemaCols = .ok stored)
    (e : Expr) (h : c.PartSeen stored e) :
    eval c.ops (c.masked stored) e = eval c.ops (stored.map c.detoast) e := by
  fun_induction PartSeen c stored e with
  | case1 left right ihl ihr =>
    rw [eval, eval, ihl h.1]
    by_cases hfalse : eval c.ops (stored.map c.detoast) left = .ok (.bool false)
    · rw [hfalse]
      rfl
    · rw [ihr (h.2 hfalse)]
  | case2 e => exact eval_masked_of_columnsSeen hdec h

theorem exists_decodeRow {values : List Value} (h : c.readRow data = .ok values) :
    ∃ stored, decodeRow c.ext data c.schemaCols = .ok stored ∧ stored.map c.detoast = values := by
  rw [readRow] at h
  split at h
  next stored hdec => exact ⟨stored, hdec, Except.ok.inj h⟩
  · cases h

/-- On a row that it sees, the filter decides as the WHERE does. -/
theorem filterRow_eq (hlen : data.length < TOAST_SENTINEL_LZ4) (hev : c.Evaluates data)
    (hsees : c.Sees data) : c.args.filterRow data = .ok (c.matchingRow data) := by
  obtain ⟨values, v, hread, hv⟩ := hev
  have hmatch : c.matchingRow data = if isTruthy v then some values else none := by
    rw [matchingRow, hread]
    dsimp only
    rw [holdsOn, hv]
  have hread' : c.args.reader.decodeRow data = .ok values := hread
  rw [filterRow, hmatch]
  rw [Sees] at hsees
  cases hp : tryCompile c.ext c.whereClause c.schemaCols with
  | some p =>
    have hb : c.args.batchPred = some (p.evalOnRaw c.ext) := by rw [args, hp]; rfl
    rw [hp] at hsees
    obtain ⟨hstart, hsafe⟩ := hsees values hread
    obtain ⟨v', hv', hraw⟩ := evalOnRaw_of_storedTo (o := c.ops) hp hstart hsafe
    cases hv.symm.trans hv'
    rw [hb]
    dsimp only
    rw [hraw, hread']
    cases isTruthy v <;> rfl
  | none =>
    have hb : c.args.batchPred = none := by rw [args, hp]; rfl
    rw [hp] at hsees
    rw [hb]
    dsimp only
    cases hm : c.args.whereColMask.filter fun mask => !mask.all id with
    | none =>
      have hpred : c.args.predicate values = isTruthy v := by
        show (match eval c.ops values c.whereClause with
          | .ok v => isTruthy v
          | .error _ => true) = isTruthy v
        rw [hv]
      dsimp only
      rw [hread', ok_bind, hpred]
      cases isTruthy v <;> rfl
    | some mask =>
      obtain ⟨hsome, hpart⟩ := filter_eq_some_iff.1 hm
      obtain rfl : collectWhereColumns c.whereClause c.schemaCols.length = mask := by
        have hmask : c.whereColMask = some mask := hsome
        rw [whereColMask] at hmask
        split at hmask
        · exact some.inj hmask
        · cases hmask
      have hsome_missing : ¬ ∀ i < c.schemaCols.length, i ∈ c.whereClause.walked := by
        intro hall
        simp only [collectWhereColumns, List.all_map, Bool.not_eq_true', List.all_eq_false,
          mem_range] at hpart
        obtain ⟨i, hi, hnot⟩ := hpart
        exact hnot (by simpa using hall i hi)
      have hcols := hsees.resolve_left hsome_missing
      obtain ⟨stored, hdec, rfl⟩ := exists_decodeRow hread
      have hmasked : c.args.reader.decodeRowMasked
          (collectWhereColumns c.whereClause c.schemaCols.length) data = .ok (c.masked stored) := by
        show c.readRowMasked _ data = _
        rw [readRowMasked, decodeRowMasked_eq (by simp [collectWhereColumns]) hlen hdec, masked]
      have hpred : c.args.predicate (c.masked stored) = isTruthy v := by
        show (match eval c.ops _ c.whereClause with
          | .ok v => isTruthy v
          | .error _ => true) = isTruthy v
        rw [eval_masked hdec _ (hcols stored hdec), hv]
      dsimp only
      rw [hmasked, ok_bind, hpred, hread']
      cases isTruthy v <;> rfl

variable {e : Nat × Bytes}

/-- A row of a page is shorter than the page. -/
theorem length_lt_of_scanVisible {snap : TransactionSnapshot} (h : e ∈ page.scanVisible snap) :
    e.2.length < TOAST_SENTINEL_LZ4 := by
  obtain ⟨t, ht, hd⟩ := mem_slots_of_scanVisible (i := e.1) h
  have hstop := (page.layout.bounds t ht).2
  have halign := le_align8 t.length
  rw [Slot.stop, Slot.length, PAGE_SIZE] at hstop
  rw [Slot.length] at halign
  rw [← hd, TOAST_SENTINEL_LZ4]
  omega

/-- A page that is passed over has no row on which the WHERE holds. -/
theorem matchingRow_of_skips (hev : ∀ e ∈ page.scanVisible c.snap, c.Evaluates e.2)
    (hz : c.ZoneHolds page) (hskip : c.args.zoneMapSkips page)
    (he : e ∈ page.scanVisible c.snap) : c.matchingRow e.2 = none := by
  rw [zoneMapSkips] at hskip
  split at hskip
  next col p zm hp hzm =>
    rw [Bool.and_eq_true, beq_iff_eq, Bool.not_eq_true'] at hskip
    obtain ⟨hcol, hno⟩ := hskip
    obtain ⟨values, v, hread, -⟩ := hev e he
    rw [matchingRow, hread]
    dsimp only
    refine if_neg fun hholds => ?_
    obtain ⟨w, hw, -, hnum⟩ := zonePredicate_of_holdsOn hp hholds
    obtain ⟨n, hn, hbounds⟩ := hz col p zm hp hzm hcol e he values w hread hholds hw
    rw [mightMatch_of_mem hbounds (hnum n hn)] at hno
    cases hno
  · cases hskip

theorem scanPage_eq_matching (current : PageId)
    (hev : ∀ e ∈ page.scanVisible c.snap, c.Evaluates e.2)
    (hsees : ∀ e ∈ page.scanVisible c.snap, c.Sees e.2) (hz : c.ZoneHolds page) :
    c.args.scanPage current page = .ok (c.matchingOnPage current page) := by
  have hbrin : c.args.brinSkips current = false := rfl
  rw [scanPage, hbrin, if_neg Bool.false_ne_true]
  split
  next hskip =>
    rw [matchingOnPage, filterMap_eq_nil_iff.2]
    intro e he
    rw [matchingRow_of_skips hev hz hskip he]
    rfl
  next =>
    rw [filterPage_eq (g := fun e => c.matchingRow e.2) fun e he =>
      filterRow_eq (length_lt_of_scanVisible he) (hev e he) (hsees e he)]
    rw [reduceOption, filterMap_map, matchingOnPage]
    rfl

/-- A page with the rows 5 and 10. -/
def fiveAndTen : HeapPage where
  pageId := 1
  allVisible := false
  nextPage := 0
  zoneMap := some ⟨0, ⟨5, by decide⟩, ⟨10, by decide⟩⟩
  slots := [some ⟨16000, ⟨1, 0, 0, 0⟩, intRow 5⟩, some ⟨15000, ⟨1, 0, 0, 0⟩, intRow 10⟩]
  freeEnd := 15000
  layout :=
    { room := by decide
      within := by decide
      bounds := by
        intro t ht
        simp only [mem_cons, Option.some.injEq, not_mem_nil, or_false] at ht
        rcases ht with rfl | rfl <;> decide
      apart := by
        refine pairwise_pair.2 ?_
        rintro s ⟨⟩ t ⟨⟩
        decide }

/-- The table that has this page. -/
def intTable : Mem HeapPage 0 := Mem.empty.alloc fiveAndTen

def intScan (whereClause : Expr) : CandidateScan where
  ops := plainOps
  ext := plainExternals
  err _ := .pageNotFound 0
  detoast := id
  schemaCols := [.int]
  snap := ⟨10, 0, []⟩
  whereClause := whereClause

theorem intTable_chain : IsChain HeapPage.chainNextPage 0 intTable.pages 1 [1] :=
  ⟨rfl, by decide, fiveAndTen, rfl, rfl⟩

theorem scanVisible_fiveAndTen :
    fiveAndTen.scanVisible ⟨10, 0, []⟩ = [(0, intRow 5), (1, intRow 10)] := rfl

/-- The rows of the table, as they are stored and as they are read. -/
theorem intScan_readRow (whereClause : Expr) (he : e ∈ fiveAndTen.scanVisible ⟨10, 0, []⟩) :
    ∃ n : SInt 32, n = (if e.1 = 0 then .wrap 32 5 else .wrap 32 10) ∧
      encodeRow plainExternals [.int n] [.int] = .ok e.2 ∧
      decodeRow plainExternals e.2 [.int] = .ok [.int n] ∧
      (intScan whereClause).readRow e.2 = .ok [.int n] := by
  rw [scanVisible_fiveAndTen] at he
  simp only [mem_cons, not_mem_nil, or_false] at he
  have hread : ∀ {data n}, decodeRow plainExternals data [.int] = .ok [.int n] →
      (intScan whereClause).readRow data = .ok [.int n] := by
    intro data n h
    have hdec : decodeRow (intScan whereClause).ext data (intScan whereClause).schemaCols =
      .ok [.int n] := h
    rw [readRow, hdec]
    rfl
  rcases he with rfl | rfl
  · have hdec : decodeRow plainExternals (intRow 5) [.int] = .ok [.int (.wrap 32 5)] := by
      rw [decodeRow, decodeRowDepth]
      rfl
    exact ⟨.wrap 32 5, rfl, rfl, hdec, hread hdec⟩
  · have hdec : decodeRow plainExternals (intRow 10) [.int] = .ok [.int (.wrap 32 10)] := by
      rw [decodeRow, decodeRowDepth]
      rfl
    exact ⟨.wrap 32 10, rfl, rfl, hdec, hread hdec⟩

/-- `c0 = 5` -/
def firstIsFive : Expr := .binaryOp .eq (.column 0) (.literal (.int (.wrap 32 5)))

theorem eval_firstIsFive (n : SInt 32) :
    eval plainOps [.int n] firstIsFive = .ok (.bool (BinaryOp.eq.holds (compare n.val 5))) := by
  simp [firstIsFive, eval, BinaryOp.isComparison, evalBinary, Value.dispatches, Value.isNull,
    evalComparison, compareValues, SInt.wrap, bind, Except.bind]

/-- `c0 IS NULL` -/
def firstIsNull : Expr := .isNull (.column 0) false

end CandidateScan

end AxiomDb.Row
