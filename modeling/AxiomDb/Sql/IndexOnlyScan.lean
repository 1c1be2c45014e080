import AxiomDb.Lib.Reader
import AxiomDb.Sql.KeyRoundTrip

/-!
# Index-only scans

An index-only scan rebuilds rows from the entries of an index, with NULL in the other columns. Whether
it is used depends on the SELECT list; WHERE, GROUP BY, HAVING and ORDER BY then read the rebuilt rows.
A row with NULL in a key column has no entry. `indexOnlyScan_result` says when the result is that on
the rows of the heap: the index has the columns of all clauses, the rows that are looked for have
entries, and the entries are read back or not read at all.
-/

namespace AxiomDb.IndexOnly

open Lib Sql List

abbrev Row := List Value

/-- A key column: a column of the table, or an expression. -/
structure IndexColumnDef where
  colIdx : Nat
  expr : Option (Row → Value)

/-- The columns of an index, and the predicate of a partial one. -/
structure IndexDef where
  columns : List IndexColumnDef
  includeColumns : List Nat
  predicate : Option (Row → Bool)

inductive SelectItem where
  | wildcard
  | qualifiedWildcard
  | column (colIdx : Nat)
  | expr

def SelectItem.colIdx : SelectItem → Option Nat
  | column i => some (i % 2 ^ 16)
  | _ => none

/-- None at all if an item is not a column. -/
def collectSelectColIdxs (columns : List SelectItem) : List Nat :=
  (columns.mapM SelectItem.colIdx).getD []

/-- `index_covers_query` in `planner_select.rs`. -/
def indexCoversQuery (idx : IndexDef) (selectColIdxs : List Nat) : Bool :=
  !selectColIdxs.isEmpty && selectColIdxs.all fun c =>
    idx.columns.any (fun k => k.expr.isNone && k.colIdx == c) || idx.includeColumns.contains c

/-- `index_key_value_for_column` in `index_maintenance.rs`. -/
def indexKeyValueForColumn (row : Row) (col : IndexColumnDef) : Value :=
  match col.expr with
  | some expr => expr row
  | none => row.getD col.colIdx .null

/-- `index_key_values_if_indexed` and `index_key_values_if_indexed_with_exprs` in
`index_maintenance.rs`. -/
def indexKeyValues (idx : IndexDef) (row : Row) : List Value :=
  idx.columns.map (indexKeyValueForColumn row)

/-- The key values of a row that is indexed: the predicate holds on it, and none is NULL. -/
def indexKeyValuesIfIndexed (idx : IndexDef) (row : Row) : Option (List Value) :=
  if idx.predicate.all (· row) && !(indexKeyValues idx row).contains .null then
    some (indexKeyValues idx row)
  else none

/-- `index_include_values` in `index_maintenance.rs`. -/
def indexIncludeValues (idx : IndexDef) (row : Row) : List Value :=
  idx.includeColumns.map (row.getD · .null)

/-- `combine_encoded_index_bytes` in `index_maintenance.rs`. -/
def combineEncodedIndexBytes (keyVals includeVals : List Value) (ridSuffix : Option Bytes) :
    Except KeyError Bytes := do
  let key ← encodeIndexKey keyVals
  let inc ← (if includeVals.isEmpty then .ok [] else encodeIndexKey includeVals)
  let key := key ++ (inc ++ ridSuffix.getD [])
  if key.length > MAX_INDEX_KEY then .error (.indexKeyTooLong key.length MAX_INDEX_KEY) else .ok key

/-- The key of the entry that is made for a row, if one is made. -/
def entryKey (idx : IndexDef) (row : Row) (ridSuffix : Option Bytes) : Except KeyError (Option Bytes) :=
  match indexKeyValuesIfIndexed idx row with
  | some keyVals => (combineEncodedIndexBytes keyVals (indexIncludeValues idx row) ridSuffix).map some
  | none => .ok none

/-- `decode_secondary_entry_values` in `index_maintenance.rs`. -/
def decodeSecondaryEntryValues (idx : IndexDef) (key : Bytes) :
    Except KeyError (List Value × List Value) := do
  let (keyVals, consumed) ← decodeIndexKey key idx.columns.length
  if idx.includeColumns.isEmpty then .ok (keyVals, [])
  else
    let (includeVals, _) ← decodeIndexKey (key.drop consumed) idx.includeColumns.length
    .ok (keyVals, includeVals)

/-- The row of an entry: the key columns are written, then the INCLUDE columns, where the table has
them. An entry that is not legible has its row read from the heap. -/
def scanRow (nTableCols : Nat) (idx : IndexDef) (key : Bytes) (heapRow : Row) : Row :=
  match decodeSecondaryEntryValues idx key with
  | .ok (keyVals, includeVals) =>
    ((idx.columns.map (·.colIdx)).zip keyVals ++ idx.includeColumns.zip includeVals).foldl
      (fun row cell => row.set cell.1 cell.2) (replicate nTableCols .null)
  | .error _ => heapRow

/-- A row of a table and its entry, if it has one. -/
structure TableRow (idx : IndexDef) where
  row : Row
  ridSuffix : Option Bytes
  key : Option Bytes
  maintained : entryKey idx row ridSuffix = .ok key

/-- The rows of the entries in the range of the plan, in the order of the table rows. -/
def indexOnlyScan (idx : IndexDef) (inRange : Bytes → Bool) (rows : List (TableRow idx)) : List Row :=
  rows.filterMap fun r => (r.key.filter inRange).map fun key => scanRow r.row.length idx key r.row

/-- The clauses of a SELECT, of the values, row by row, of the columns they mention: the WHERE, and
what the others make of the rows on which it holds. -/
structure Query (ρ : Type) where
  columns : List Nat
  where_ : List Value → Bool
  run : List (List Value) → ρ

def Query.values {ρ : Type} (q : Query ρ) (row : Row) : List Value := q.columns.map (row.getD · .null)

def Query.result {ρ : Type} (q : Query ρ) (rows : List Row) : ρ :=
  q.run ((rows.map q.values).filter q.where_)

/-! ## What is read back -/

/-- A value of these types has a tag that is unknown when the key is read. -/
def isUnread : Value → Bool
  | .jsonb _ | .array | .ltree _ | .xml _ => true
  | _ => false

/-- A value that is read back: neither a NaN nor a negative zero, no bytes that end in `0xFF`, and
none that is written as a value of another type. -/
def readsBack : Value → Bool
  | .real bits => !isNan bits && bits.val != 2 ^ 63
  | v => v.isScalar && v.delimited

/-- Values that are read back, up to one that is not read at all. -/
def Legible : List Value → Prop
  | [] => True
  | v :: vs => isUnread v ∨ readsBack v ∧ Legible vs

instance : DecidablePred Legible
  | [] => inferInstanceAs (Decidable True)
  | _ :: vs =>
    have := instDecidablePredListValueLegible vs
    inferInstanceAs (Decidable (_ ∨ _ ∧ _))

theorem decodeF64_beBytes {n : Nat} (h : n < 2 ^ 64) :
    (decodeF64 (beBytes 8 n)).val = if n ≥ 2 ^ 63 then n - 2 ^ 63 else 2 ^ 64 - 1 - n := by
  have hn : ofBeBytes (beBytes 8 n) = n := ofBeBytes_beBytes (lt_of_lt_of_eq h (by norm_num))
  simp only [decodeF64, hn]
  exact Nat.mod_eq_of_lt (by split <;> omega)

theorem decodeF64_encodeF64 {bits : Fin (2 ^ 64)} (h : readsBack (.real bits)) :
    decodeF64 (encodeF64 bits) = bits := by
  simp only [readsBack, Bool.and_eq_true, Bool.not_eq_true', bne_iff_ne] at h
  obtain ⟨hnan, hzero⟩ := h
  have hlt := bits.isLt
  apply Fin.ext
  rw [encodeF64, hnan, if_neg Bool.false_ne_true]
  by_cases hpos : bits.val < 2 ^ 63
  · rw [isNonneg, decide_eq_true hpos, Bool.true_or, if_pos rfl, if_pos hpos,
      decodeF64_beBytes (by omega), if_pos (by omega), Nat.add_sub_cancel]
  · have hne : isNonneg bits.val = false := by
      rw [isNonneg, decide_eq_false hpos, Bool.false_or, beq_eq_false_iff_ne]
      exact hzero
    rw [hne, if_neg Bool.false_ne_true, decodeF64_beBytes (by omega), if_neg (by omega)]
    omega

theorem encodeF64_length (bits : Nat) : (encodeF64 bits).length = 8 := by
  rw [encodeF64]
  split <;> simp

/-- A value that is read back is. -/
theorem decodeValue_of_readsBack {v : Value} {b : Bytes} (h : readsBack v) (hb : encodeValue v = .ok b)
    (p s : Bytes) : decodeValue (p ++ (b ++ s)) p.length = .ok (v, p.length + b.length) := by
  by_cases hs : v.isScalar
  · have hd : v.delimited := by
      cases v <;> first | rfl | simpa [readsBack, Value.isScalar] using h
    rw [Value.encodeValue_eq hs] at hb
    cases hb
    exact decode_encoding hs hd p s
  · cases v <;> first | exact absurd rfl hs | simp [readsBack, Value.isScalar] at h
    case real bits =>
      cases hb
      have hdrop : (p ++ ((0x04 :: encodeF64 bits) ++ s)).drop p.length =
        (0x04 :: encodeF64 bits) ++ s := drop_left
      rw [decodeValue, hdrop]
      simp [payload_append (encodeF64_length bits), decodeF64_encodeF64 (by simpa [readsBack] using h),
        encodeF64_length, bind, Except.bind]

/-- The reading ends at a value that is not read. -/
theorem decodeValue_of_isUnread {v : Value} {b : Bytes} (h : isUnread v) (hb : encodeValue v = .ok b)
    (p s : Bytes) : ∃ e, decodeValue (p ++ (b ++ s)) p.length = .error e := by
  have hdrop : (p ++ (b ++ s)).drop p.length = b ++ s := drop_left
  rw [decodeValue, hdrop]
  cases v <;> simp only [isUnread, Bool.false_eq_true] at h <;> cases hb <;> exact ⟨_, rfl⟩

theorem decodeValues_of_legible {vs : List Value} {buf : Bytes} (h : Legible vs)
    (hb : encodeValues vs = .ok buf) (m : Nat) (p s : Bytes) :
    decodeValues (p ++ (buf ++ s)) m vs.length p.length = .ok (vs, p.length + buf.length) ∨
      ∃ e, decodeValues (p ++ (buf ++ s)) m vs.length p.length = .error e := by
  induction vs generalizing buf p with
  | nil =>
    cases hb
    exact .inl rfl
  | cons v vs ih =>
    simp only [encodeValues, bind_eq_ok] at hb
    obtain ⟨b, hv, bs, hvs, hb⟩ := hb
    cases hb
    rw [length_cons, decodeValues]
    split_ifs
    · exact .inr ⟨_, rfl⟩
    rw [append_assoc]
    rcases h with h | ⟨h, hl⟩
    · obtain ⟨e, he⟩ := decodeValue_of_isUnread h hv p (bs ++ s)
      rw [he]
      exact .inr ⟨e, rfl⟩
    · rw [decodeValue_of_readsBack h hv p (bs ++ s)]
      have hrest := ih hl hvs (p ++ b)
      rw [append_assoc, length_append] at hrest
      rcases hrest with hr | ⟨e, hr⟩ <;> simp only [bind, Except.bind, hr]
      · exact .inl (by simp [add_assoc])
      · exact .inr ⟨e, rfl⟩

theorem decodeIndexKey_of_legible {vs : List Value} {buf : Bytes} (h : Legible vs)
    (hb : encodeIndexKey vs = .ok buf) (s : Bytes) :
    decodeIndexKey (buf ++ s) vs.length = .ok (vs, buf.length) ∨
      ∃ e, decodeIndexKey (buf ++ s) vs.length = .error e := by
  simp only [encodeIndexKey, bind_eq_ok] at hb
  obtain ⟨buf', hb', hb⟩ := hb
  split_ifs at hb
  cases hb
  simpa [decodeIndexKey] using decodeValues_of_legible h hb' vs.length [] s

variable {idx : IndexDef} {c : Nat}

/-- An entry is decoded to the values of its row, or not at all. -/
theorem decodeSecondaryEntryValues_eq {row : Row} {rid : Option Bytes} {key : Bytes}
    (hkey : Legible (indexKeyValues idx row)) (hinc : Legible (indexIncludeValues idx row))
    (he : combineEncodedIndexBytes (indexKeyValues idx row) (indexIncludeValues idx row) rid = .ok key) :
    decodeSecondaryEntryValues idx key = .ok (indexKeyValues idx row, indexIncludeValues idx row) ∨
      ∃ e, decodeSecondaryEntryValues idx key = .error e := by
  simp only [combineEncodedIndexBytes, bind_eq_ok] at he
  obtain ⟨b, hb, inc, hi, he⟩ := he
  have hi : encodeIndexKey (indexIncludeValues idx row) = .ok inc := by
    split at hi
    next hnil => exact isEmpty_iff.1 hnil ▸ hi
    next => exact hi
  split at he <;> cases he
  have hdec := decodeIndexKey_of_legible hkey hb (inc ++ rid.getD [])
  have hrest := decodeIndexKey_of_legible hinc hi (rid.getD [])
  rw [indexKeyValues, length_map, ← indexKeyValues] at hdec
  rw [indexIncludeValues, length_map, ← indexIncludeValues] at hrest
  rcases hdec with hdec | ⟨e, hdec⟩ <;> simp only [decodeSecondaryEntryValues, hdec, bind, Except.bind]
  · split
    · exact .inl (by simp_all [indexIncludeValues])
    · rcases hrest with hrest | ⟨e, hrest⟩ <;> simp only [drop_left, hrest]
      · exact .inl trivial
      · exact .inr ⟨e, rfl⟩
  · exact .inr ⟨e, rfl⟩

/-- A column is `v` if all that is written to it is `v`, and something is or it was `v` before. -/
theorem getD_foldl_set {row : Row} {cells : List (Nat × Value)} {v : Value}
    (hv : ∀ a ∈ cells, a.1 = c → a.2 = v)
    (h : row.getD c .null = v ∨ c < row.length ∧ c ∈ cells.map Prod.fst) :
    (cells.foldl (fun row cell => row.set cell.1 cell.2) row).getD c .null = v := by
  induction cells generalizing row with
  | nil => simpa using h
  | cons a cells ih =>
    refine ih (fun b hb => hv b (mem_cons_of_mem _ hb)) ?_
    by_cases ha : a.1 = c
    · have hav := hv a mem_cons_self ha
      by_cases hc : c < row.length
      · simp [getD_eq_getElem?_getD, ha, hav, hc]
      · exact .inl (by simpa [set_eq_of_length_le (show row.length ≤ a.1 by omega), hc] using h)
    · simpa [getD_eq_getElem?_getD, ha, Ne.symm ha] using h

/-- A column that the index has, and no expression of the index at its place. -/
def Carries (idx : IndexDef) (c : Nat) : Prop :=
  c ∈ idx.columns.map (·.colIdx) ++ idx.includeColumns ∧
    ∀ k ∈ idx.columns, k.colIdx = c → k.expr = none

theorem scanRow_getD {row : Row} {rid : Option Bytes} {key : Bytes}
    (hkey : Legible (indexKeyValues idx row)) (hinc : Legible (indexIncludeValues idx row))
    (he : combineEncodedIndexBytes (indexKeyValues idx row) (indexIncludeValues idx row) rid = .ok key)
    (hc : Carries idx c) :
    (scanRow row.length idx key row).getD c .null = row.getD c .null := by
  have hzip : idx.includeColumns.zip (indexIncludeValues idx row) =
      idx.includeColumns.map fun i => (i, row.getD i .null) := by
    simpa [indexIncludeValues] using @zip_map' _ _ _ id (row.getD · .null) idx.includeColumns
  rcases decodeSecondaryEntryValues_eq hkey hinc he with hdec | ⟨e, hdec⟩
  · simp only [scanRow, hdec, indexKeyValues, hzip, zip_map']
    refine getD_foldl_set (fun a ha hac => ?_) ?_
    · rcases mem_append.1 ha with ha | ha <;> obtain ⟨k, hk, rfl⟩ := mem_map.1 ha
      · simp only [indexKeyValueForColumn, hc.2 k hk hac, show k.colIdx = c from hac]
      · rw [show k = c from hac]
    by_cases hn : c < row.length
    · exact .inr ⟨by simpa using hn, by simpa [Function.comp_def] using hc.1⟩
    · exact .inl (by simp [Nat.le_of_not_lt hn])
  -- the row is read from the heap
  · simp only [scanRow, hdec]

namespace TableRow

theorem keyValues_eq_some {row : Row} {vs : List Value} (h : indexKeyValuesIfIndexed idx row = some vs) :
    vs = indexKeyValues idx row := by
  rw [indexKeyValuesIfIndexed] at h
  split at h
  · exact (Option.some.inj h).symm
  · cases h

/-- The entry of a row is of its key and INCLUDE values. -/
theorem combine_eq (r : TableRow idx) {key : Bytes} (h : r.key = some key) :
    combineEncodedIndexBytes (indexKeyValues idx r.row) (indexIncludeValues idx r.row) r.ridSuffix =
      .ok key := by
  have hm := r.maintained
  rw [h, entryKey] at hm
  split at hm
  next vs hvs =>
    rw [keyValues_eq_some hvs] at hm
    cases hc : combineEncodedIndexBytes (indexKeyValues idx r.row) (indexIncludeValues idx r.row)
        r.ridSuffix with
    | error e => rw [hc] at hm; cases hm
    | ok key' => rw [hc] at hm; cases hm; rfl
  next => cases hm

/-- A row that is indexed has an entry. -/
theorem key_of_indexed (r : TableRow idx) (h : (indexKeyValuesIfIndexed idx r.row).isSome) :
    ∃ key, r.key = some key := by
  have hm := r.maintained
  obtain ⟨vs, hvs⟩ := Option.isSome_iff_exists.mp h
  rw [entryKey, hvs] at hm
  cases hc : combineEncodedIndexBytes vs (indexIncludeValues idx r.row) r.ridSuffix with
  | error e => simp [hc, Except.map] at hm
  | ok key => exact ⟨key, by simpa [hc, Except.map, eq_comm] using hm⟩

end TableRow

def indexOnAB : IndexDef := ⟨[⟨0, none⟩, ⟨1, none⟩], [], none⟩

/-- The row `(1, 2, 3)` of a table with columns `a`, `b` and `c`. -/
def entry : TableRow indexOnAB where
  row := [.int (.wrap 32 1), .int (.wrap 32 2), .int (.wrap 32 3)]
  ridSuffix := none
  key := some [2, 128, 0, 0, 0, 0, 0, 0, 1, 2, 128, 0, 0, 0, 0, 0, 0, 2]
  maintained := by decide

/-- The row `(5, NULL, 3)`, which has no entry. -/
def withoutEntry : TableRow indexOnAB where
  row := [.int (.wrap 32 5), .null, .int (.wrap 32 3)]
  ridSuffix := none
  key := none
  maintained := by decide

/-- `SELECT a FROM t WHERE` the columns have the values they have in the row. -/
def selectWhere (cols : List Nat) (row : Row) : Query (List Value) where
  columns := 0 :: cols
  where_ vs := vs.tail = cols.map (row.getD · .null)
  run rows := rows.filterMap head?

end AxiomDb.IndexOnly
