import AxiomDb.Sql.Coherence
import AxiomDb.Lib.FirstByKey

/-!
# `DISTINCT`, `GROUP BY` and `COUNT(DISTINCT)`

The three operators put the values of a column into classes by three different keys:
`DISTINCT` by bytes that are folded for text, `GROUP BY` by these bytes or, if the first row
has an integer or NULL, by the number, and `COUNT(DISTINCT)` by what is printed for a value.
`classes_agree_iff` says for which columns they agree with `=` and with one another.
-/

namespace AxiomDb.Row

open Lib Sql List Option Value

/-- What the keys take from elsewhere: `Display` of ranges and composites, and what is printed
of values for `COUNT(DISTINCT)` (`to_string` of numbers, `Debug` of the others). -/
structure PrintOps where
  displayRange : RangeValue Value → Utf8
  displayComposite : List Value → Utf8
  printed : Value → Utf8

variable (o : Ops) (x : TextOps) (c : SessionCollation) (pr : PrintOps) {κ : Type}

/-! ## Keys -/

/-- A length in four bytes, and the bytes. -/
def withLength (b : Bytes) : Bytes := leBytes 4 b.length ++ b

/-- `value_to_key_bytes` in `agg_having.rs`. -/
def valueToKeyBytes : Value → Bytes
  | .null => [0x00]
  | .bool b => [0x01, if b then 1 else 0]
  | .int n => 0x02 :: leSigned n
  | .bigInt n => 0x03 :: leSigned n
  | .real f => 0x04 :: leBytes 8 f.val
  | .decimal m s => 0x05 :: (leSigned m ++ [s])
  | .text s => 0x06 :: withLength s.bytes
  | .json s => 0x06 :: withLength s.bytes
  | .jsonb b => 0x0B :: withLength b
  | .bytes b => 0x07 :: withLength b
  | .date d => 0x08 :: leSigned d
  | .timestamp t => 0x09 :: leSigned t
  | .timestampTz t => 0x09 :: leSigned t
  | .uuid u => 0x0A :: u.val
  | .array _ => [0x0D]
  | .range rv => 0x0E :: withLength (pr.displayRange rv).bytes
  | .money m s cur => 0x0F :: (leSigned m ++ [s] ++ cur.val)
  | .composite fields => 0x10 :: withLength (pr.displayComposite fields).bytes
  | .ltree s => 0x11 :: withLength s.bytes
  | .xml s => 0x12 :: withLength s.bytes

/-- `value_to_session_key_bytes` in `agg_group_table.rs`. -/
def valueToSessionKeyBytes (v : Value) : Bytes :=
  if c = .binary then valueToKeyBytes pr v
  else match v with
    | .text s => 0x06 :: withLength (x.canonicalText c s).bytes
    | other => valueToKeyBytes pr other

def asciiDigit (d : Fin 10) : Utf8 where
  bytes := [Fin.ofNat 256 (48 + d.val)]
  valid := by revert d; decide

/-- `value_to_display_string` in `agg_group_table.rs`. -/
def valueToDisplayString : Value → Utf8
  | .text s => s
  | .bool b => asciiDigit (if b then 1 else 0)
  | .null => ⟨[], rfl⟩
  | other => pr.printed other

/-! ## The operators, for one column -/

/-- `apply_distinct_with_session`. -/
def applyDistinctWithSession (rows : List (List Value)) : List (List Value) :=
  firsts (fun row => row.flatMap (valueToSessionKeyBytes x c pr)) [] rows

section

variable (vals : List Value)

/-- `COUNT(DISTINCT e)` of the values of `e`. -/
def countDistinct : Nat :=
  (firsts (valueToDisplayString pr) [] (vals.filter fun v => !v.isNull)).length

/-- The table of numbers is used if the first row has one, or NULL. -/
def usePrimitive : Bool :=
  match vals with
  | .int _ :: _ | .bigInt _ :: _ | .null :: _ => true
  | _ => false

/-- `GroupTablePrimitive::get_or_insert` in `agg_group_table.rs`. -/
def primitiveKey : Value → Option Int
  | .int n => some n.val
  | .bigInt n => some n.val
  | _ => none

/-- The value of a group in the table of numbers: that of the row, but NULL for the group of
all that are no numbers. -/
def primitiveEntry (v : Value) : Value :=
  match primitiveKey v with
  | none => .null
  | some _ => v

/-- The groups of `execute_select_grouped_hash` for `GROUP BY` one column: the values of the
groups, and the group of each row. -/
def groupBy : List Value × List Nat :=
  if usePrimitive vals then
    let table := numberKeys primitiveKey primitiveEntry vals []
    (table.1.map Prod.snd, table.2)
  else
    let table := numberKeys (valueToSessionKeyBytes x c pr) id vals []
    (table.1.map Prod.snd, table.2)

def nonNull : List Value := vals.filter fun v => !v.isNull

/-! ## Agreement -/

/-- The operators put two values in one class if they are equal, and so count the same classes. -/
structure ClassesAgree (vals : List Value) : Prop where
  distinct : ∀ a ∈ nonNull vals, ∀ b ∈ nonNull vals,
    (applyDistinctWithSession x c pr [[a], [b]]).length = 1 ↔ Holds o x c .eq a b
  group : ∀ (i j : Nat) (a b : Value), vals[i]? = some a → vals[j]? = some b → a.isNull = false → b.isNull = false →
    ((groupBy x c pr vals).2[i]? = (groupBy x c pr vals).2[j]? ↔ Holds o x c .eq a b)
  count : ∀ a ∈ nonNull vals, ∀ b ∈ nonNull vals, countDistinct pr [a, b] = 1 ↔ Holds o x c .eq a b
  countDistinct_eq : countDistinct pr vals =
    ((applyDistinctWithSession x c pr (vals.map fun v => [v])).filter
      fun row => !row.all Value.isNull).length
  countGroups_eq : countDistinct pr vals = (nonNull (groupBy x c pr vals).1).length

/-- Two different values of one type that a key can tell apart: texts whose folds differ, where the
session folds text, ranges and composites that are displayed differently, and no arrays. -/
def Distinguished : Value → Value → Prop
  | .text s, .text t => c = .binary ∨ x.fold s ≠ x.fold t
  | .array _, .array _ => False
  | .range r, .range r' => pr.displayRange r ≠ pr.displayRange r'
  | .composite fs, .composite fs' => pr.displayComposite fs ≠ pr.displayComposite fs'
  | _, _ => True

/-- `=` is identity on the values, and different ones are told apart. -/
structure ToldApart (a b : Value) : Prop where
  eq : Holds o x c .eq a b ↔ a = b
  apart : a ≠ b → Distinguished x c pr a b

/-- The values of a column: of one variant, no floats, and printed differently. -/
structure Column (vals : List Value) : Prop where
  variant : ∀ a ∈ nonNull vals, ∀ b ∈ nonNull vals, a.variantName = b.variantName
  noFloat : ∀ f, .real f ∉ vals
  shown : ∀ a ∈ nonNull vals, ∀ b ∈ nonNull vals, pr.printed a = pr.printed b → a = b

/-- A NULL in the first row is followed by numbers only. -/
def firstRowOk : Prop :=
  vals.head? = some .null → ∀ v ∈ nonNull vals, primitiveKey v ≠ none

end

theorem length_firsts_pair {α : Type} [DecidableEq κ] (key : α → κ) (a b : α) :
    (firsts key [] [a, b]).length = 1 ↔ key a = key b := by
  by_cases h : key b = key a
  · simp [firsts, h]
  · simp [firsts, h, Ne.symm h]

theorem length_distinct_pair (a b : Value) :
    (applyDistinctWithSession x c pr [[a], [b]]).length = 1 ↔
      valueToSessionKeyBytes x c pr a = valueToSessionKeyBytes x c pr b := by
  rw [applyDistinctWithSession, length_firsts_pair, flatMap_singleton, flatMap_singleton]

variable {vals : List Value} {a b v : Value}

theorem mem_nonNull : v ∈ nonNull vals ↔ v ∈ vals ∧ v.isNull = false := by
  rw [nonNull, mem_filter, Bool.not_eq_true']

theorem isNull_iff : v.isNull ↔ v = .null := by
  cases v <;> simp [isNull]

theorem countDistinct_pair (ha : a.isNull = false) (hb : b.isNull = false) :
    countDistinct pr [a, b] = 1 ↔ valueToDisplayString pr a = valueToDisplayString pr b := by
  have hall : ([a, b].filter fun v => !v.isNull) = [a, b] := by simp [ha, hb]
  rw [countDistinct, hall, length_firsts_pair]

section

variable {pr}

variable {vals : List Value} {a b v : Value}

section

variable (h : Column pr vals) (ha : a ∈ nonNull vals) (hb : b ∈ nonNull vals)
include h ha hb

/-- What `COUNT(DISTINCT)` prints tells the values of a column apart. -/
theorem Column.displayed : valueToDisplayString pr a = valueToDisplayString pr b ↔ a = b := by
  refine ⟨fun heq => ?_, fun h => by rw [h]⟩
  have hvar := h.variant a ha b hb
  cases a with
  | text s =>
    cases b with
    | text t => exact congrArg Value.text heq
    | _ => exact absurd hvar (by simp [variantName])
  | bool p =>
    cases b with
    | bool q =>
      have hne : asciiDigit 0 ≠ asciiDigit 1 := by decide
      cases p <;> cases q <;> first | rfl | exact (hne heq).elim | exact (hne heq.symm).elim
    | _ => exact absurd hvar (by simp [variantName])
  | null => cases (mem_nonNull.1 ha).2
  | _ =>
    cases b with
    | text | bool => exact absurd hvar (by simp [variantName])
    | null => cases (mem_nonNull.1 hb).2
    | _ => exact h.shown _ ha _ hb heq

/-- The values of a column are all numbers, or none is. -/
theorem Column.primitiveKey_none (hnone : primitiveKey a = none) : primitiveKey b = none := by
  have hvar := h.variant a ha b hb
  cases a with
  | int n => cases hnone
  | bigInt n => cases hnone
  | _ =>
    cases b with
    | int n | bigInt n => exact absurd hvar (by simp [variantName])
    | _ => rfl

theorem Column.primitiveKey_inj
    (hsome : primitiveKey a ≠ none) (heq : primitiveKey a = primitiveKey b) : a = b := by
  have hvar := h.variant a ha b hb
  have hval : ∀ {bits : Nat} {n m : SInt bits}, n.val = m.val → n = m := by
    rintro bits ⟨n, _, _⟩ ⟨m, _, _⟩ rfl
    rfl
  cases a with
  | int n =>
    cases b with
    | int m => exact congrArg Value.int (hval (some.inj heq))
    | _ => exact absurd hvar (by simp [variantName])
  | bigInt n =>
    cases b with
    | bigInt m => exact congrArg Value.bigInt (hval (some.inj heq))
    | _ => exact absurd hvar (by simp [variantName])
  | _ => exact (hsome rfl).elim

end

end

/-- The bytes of NULL are those of no other value. -/
theorem sessionKey_eq_null
    (h : valueToSessionKeyBytes x c pr v = valueToSessionKeyBytes x c pr .null) : v = .null := by
  have hnull : (valueToSessionKeyBytes x c pr .null).head? = some 0 := by
    unfold valueToSessionKeyBytes
    split <;> rfl
  rw [← h] at hnull
  unfold valueToSessionKeyBytes at hnull
  cases v with
  | null => rfl
  | _ => split at hnull <;> simp [valueToKeyBytes] at hnull

/-! ## Keys and values -/

theorem leSigned_inj {bits : Nat} {n k : SInt bits} (h8 : 8 ∣ bits) (hpos : 0 < bits)
    (h : leSigned n = leSigned k) : n = k := by
  rw [← wrap_leSigned h8 hpos n, ← wrap_leSigned h8 hpos k, h]

theorem withLength_inj {b b' : Bytes} (h : withLength b = withLength b') : b = b' :=
  (append_inj h (by simp)).2

theorem utf8_inj {s t : Utf8} (h : withLength s.bytes = withLength t.bytes) : s = t := by
  cases s
  cases t
  cases withLength_inj h
  rfl

variable {x c pr}

/-- The bytes tell apart what can be told apart. -/
theorem eq_of_sessionKey (hvar : a.variantName = b.variantName)
    (hd : a ≠ b → Distinguished x c pr a b)
    (h : valueToSessionKeyBytes x c pr a = valueToSessionKeyBytes x c pr b) : a = b := by
  by_contra hne
  replace hd := hd hne
  apply hne
  cases a <;> cases b <;> simp only [variantName, String.reduceEq] at hvar
  case text.text s t =>
    by_cases hc : c = .binary
    · simp only [valueToSessionKeyBytes, if_pos hc, valueToKeyBytes, cons.injEq, true_and] at h
      rw [utf8_inj h]
    · simp only [valueToSessionKeyBytes, if_neg hc, cons.injEq, true_and] at h
      have hfold := utf8_inj h
      refine absurd ?_ (hd.resolve_left hc)
      cases c with
      | binary => exact absurd rfl hc
      | es | icu => exact hfold
  all_goals
    simp only [valueToSessionKeyBytes, valueToKeyBytes, ite_self, cons.injEq, true_and] at h
  case null.null => rfl
  case bool.bool p q => cases p <;> cases q <;> first | rfl | simp at h
  case int.int | bigInt.bigInt | date.date | timestamp.timestamp | timestampTz.timestampTz =>
    rw [leSigned_inj (by decide) (by decide) h]
  case real.real f g => rw [← f64OfBits_leBytes f, ← f64OfBits_leBytes g, h]
  case decimal.decimal n s k t =>
    obtain ⟨hn, hs⟩ := append_inj h (by simp only [length_leSigned])
    rw [leSigned_inj (by decide) (by decide) hn, (cons.inj hs).1]
  case money.money n s cur k t cur' =>
    obtain ⟨hn, hcur⟩ := append_inj h (by simp only [length_append, length_leSigned, length_singleton])
    obtain ⟨hn, hs⟩ := append_inj hn (by simp only [length_leSigned])
    rw [leSigned_inj (by decide) (by decide) hn, (cons.inj hs).1, Subtype.ext hcur]
  case jsonb.jsonb | bytes.bytes => rw [withLength_inj h]
  case json.json | ltree.ltree | xml.xml => rw [utf8_inj h]
  case uuid.uuid => rw [Subtype.ext h]
  case array.array => exact hd.elim
  case range.range => exact absurd (utf8_inj h) hd
  case composite.composite => exact absurd (utf8_inj h) hd

/-- And nothing else. -/
theorem distinguished_of_sessionKey
    (hkey : valueToSessionKeyBytes x c pr a = valueToSessionKeyBytes x c pr b → a = b)
    (hne : a ≠ b) : Distinguished x c pr a b := by
  unfold Distinguished
  split
  case h_1 s t =>
    by_contra hd
    obtain ⟨hc, hfold⟩ := not_or.mp hd
    refine hne (hkey ?_)
    simp only [valueToSessionKeyBytes, if_neg hc]
    cases c with
    | binary => exact absurd rfl hc
    | es | icu => simp only [TextOps.canonicalText, not_not.mp hfold]
  case h_2 as bs =>
    refine hne (hkey ?_)
    simp [valueToSessionKeyBytes, valueToKeyBytes]
  case h_3 r r' | h_4 fs fs' =>
    intro hd
    refine hne (hkey ?_)
    simp [valueToSessionKeyBytes, valueToKeyBytes, hd]
  case h_5 => trivial

variable (x c pr)

/-! ## The condition is necessary -/

theorem usePrimitive_of_null (h : vals.head? = some .null) : usePrimitive vals := by
  cases vals with
  | nil => cases h
  | cons v vals =>
    cases h
    rfl

theorem primitiveEntry_of_none (h : primitiveKey v = none) : primitiveEntry v = .null := by
  rw [primitiveEntry, h]

theorem isNull_primitiveEntry (v : Value) : (primitiveEntry v).isNull = (primitiveKey v).isNone := by
  cases v <;> rfl

theorem groupBy_primitive (h : usePrimitive vals) :
    groupBy x c pr vals = ((firsts primitiveKey [] vals).map primitiveEntry,
      vals.map fun v => (numberKeys primitiveKey primitiveEntry vals []).1.findIdx
        fun e => e.1 = primitiveKey v) := by
  rw [groupBy, if_pos h, ← numberKeys_snd]
  dsimp only
  rw [numberKeys_fst]
  simp

theorem groupBy_generic (h : usePrimitive vals = false) :
    groupBy x c pr vals = (firsts (valueToSessionKeyBytes x c pr) [] vals,
      vals.map fun v => (numberKeys (valueToSessionKeyBytes x c pr) id vals []).1.findIdx
        fun e => e.1 = valueToSessionKeyBytes x c pr v) := by
  rw [groupBy, h, if_neg Bool.false_ne_true, ← numberKeys_snd]
  dsimp only
  rw [numberKeys_fst, nil_append, List.map_map]
  exact Prod.ext (map_id _) rfl

theorem countDistinct_pos (h : v ∈ nonNull vals) : 0 < countDistinct pr vals := by
  obtain ⟨b, hb, -⟩ := exists_mem_firsts (valueToDisplayString pr) h not_mem_nil
  exact length_pos_of_mem hb

variable {o x c pr}

theorem ClassesAgree.toldApart (hcol : Column pr vals) (h : ClassesAgree o x c pr vals)
    (ha : a ∈ nonNull vals) (hb : b ∈ nonNull vals) : ToldApart o x c pr a b := by
  have heq : Holds o x c .eq a b ↔ a = b := by
    rw [← h.count a ha b hb, countDistinct_pair pr (mem_nonNull.1 ha).2 (mem_nonNull.1 hb).2,
      hcol.displayed ha hb]
  refine ⟨heq, distinguished_of_sessionKey fun hkey => heq.1 ?_⟩
  rw [← h.distinct a ha b hb, length_distinct_pair]
  exact hkey

theorem ClassesAgree.firstRowOk (hcol : Column pr vals) (h : ClassesAgree o x c pr vals) :
    firstRowOk vals := by
  intro hhead v hv hnone
  have hall : ∀ w ∈ vals, primitiveKey w = none := by
    intro w hw
    cases hnull : w.isNull with
    | true =>
      rw [isNull_iff.1 hnull]
      rfl
    | false => exact hcol.primitiveKey_none hv (mem_nonNull.2 ⟨hw, hnull⟩) hnone
  have hgroups : nonNull (groupBy x c pr vals).1 = [] := by
    rw [groupBy_primitive x c pr (usePrimitive_of_null hhead)]
    refine filter_eq_nil_iff.2 fun e he => ?_
    obtain ⟨w, hw, rfl⟩ := mem_map.1 he
    rw [primitiveEntry_of_none (hall w (of_mem_firsts _ hw).1)]
    decide
  have hcount := h.countGroups_eq
  rw [hgroups, length_nil] at hcount
  exact (countDistinct_pos pr hv).ne' hcount

/-! ## The condition suffices -/

theorem card_map_of_inj [DecidableEq κ] (key : Value → κ)
    (hinj : ∀ a ∈ vals, ∀ b ∈ vals, key a = key b → a = b) :
    (vals.map key).toFinset.card = vals.toFinset.card := by
  have himage : (vals.map key).toFinset = vals.toFinset.image key := by
    ext k
    simp
  rw [himage]
  refine Finset.card_image_of_injOn fun a ha b hb => ?_
  exact hinj a (mem_toFinset.1 ha) b (mem_toFinset.1 hb)

theorem Column.countDistinct_eq (hcol : Column pr vals) :
    countDistinct pr vals = (nonNull vals).toFinset.card := by
  have hlen := length_filter_firsts (valueToDisplayString pr) (nonNull vals)
    (q := fun _ => true) fun _ _ _ _ _ => rfl
  rw [filter_true, filter_true] at hlen
  rw [← card_map_of_inj (valueToDisplayString pr) fun a ha b hb => (hcol.displayed ha hb).1, ← hlen]
  rfl

/-- As many kept as there are values, if the keys tell them apart and NULL from them. -/
theorem length_firsts_nonNull [DecidableEq κ] {key : Value → κ}
    (hkey : ∀ a ∈ nonNull vals, ∀ b ∈ nonNull vals, key a = key b → a = b)
    (hnull : ∀ a ∈ vals, ∀ b ∈ vals, key a = key b → a.isNull = b.isNull) :
    (nonNull (firsts key [] vals)).length = (nonNull vals).toFinset.card := by
  rw [← card_map_of_inj key hkey]
  exact length_filter_firsts key vals fun a ha b hb h => by rw [hnull a ha b hb h]

theorem isNull_eq_of_sessionKey
    (h : valueToSessionKeyBytes x c pr a = valueToSessionKeyBytes x c pr b) : a.isNull = b.isNull := by
  rw [Bool.eq_iff_iff, isNull_iff, isNull_iff]
  constructor <;> rintro rfl
  · exact sessionKey_eq_null x c pr h.symm
  · exact sessionKey_eq_null x c pr h

/-- The rows of `DISTINCT`, of one column, are the first values. -/
theorem applyDistinct_singletons (vals : List Value) (seen : List Bytes) :
    firsts (fun row => row.flatMap (valueToSessionKeyBytes x c pr)) seen (vals.map fun v => [v]) =
      (firsts (valueToSessionKeyBytes x c pr) seen vals).map fun v => [v] := by
  induction vals generalizing seen with
  | nil => rfl
  | cons v vals ih =>
    rw [map_cons, firsts, firsts, flatMap_singleton]
    split
    · exact ih seen
    · rw [map_cons, ih]

theorem length_distinct (vals : List Value) :
    ((applyDistinctWithSession x c pr (vals.map fun v => [v])).filter
      fun row => !row.all isNull).length =
      (nonNull (firsts (valueToSessionKeyBytes x c pr) [] vals)).length := by
  rw [applyDistinctWithSession, applyDistinct_singletons, List.filter_map, length_map, nonNull]
  refine congrArg (fun f => (filter f _).length) (funext fun v => ?_)
  exact congrArg not (Bool.and_true _)

/-- In the table of numbers, the values are numbers. -/
theorem primitiveKey_ne_none (hcol : Column pr vals) (hfirst : firstRowOk vals)
    (hprim : usePrimitive vals) : ∀ v ∈ nonNull vals, primitiveKey v ≠ none := by
  intro v hv hnone
  unfold usePrimitive at hprim
  split at hprim
  next n vals =>
    have hmem : Value.int n ∈ nonNull (.int n :: vals) := mem_nonNull.2 ⟨.head _, rfl⟩
    cases hcol.primitiveKey_none hv hmem hnone
  next n vals =>
    have hmem : Value.bigInt n ∈ nonNull (.bigInt n :: vals) := mem_nonNull.2 ⟨.head _, rfl⟩
    cases hcol.primitiveKey_none hv hmem hnone
  · exact hfirst rfl v hv hnone
  · cases hprim

theorem length_groups (hcol : Column pr vals) (hfirst : firstRowOk vals)
    (hkey : ∀ a ∈ nonNull vals, ∀ b ∈ nonNull vals,
      valueToSessionKeyBytes x c pr a = valueToSessionKeyBytes x c pr b → a = b) :
    (nonNull (groupBy x c pr vals).1).length = (nonNull vals).toFinset.card := by
  cases hprim : usePrimitive vals with
  | false =>
    rw [groupBy_generic x c pr hprim]
    exact length_firsts_nonNull hkey fun a _ b _ h => isNull_eq_of_sessionKey h
  | true =>
    have hne := primitiveKey_ne_none hcol hfirst hprim
    have hnonNull : (vals.filter fun v => !(primitiveEntry v).isNull) = nonNull vals := by
      refine filter_congr fun v hv => ?_
      rw [isNull_primitiveEntry]
      cases hnull : v.isNull with
      | true =>
        obtain rfl := isNull_iff.1 hnull
        rfl
      | false =>
        rw [isNone_eq_false_iff.2 (isSome_iff_ne_none.2 (hne v (mem_nonNull.2 ⟨hv, hnull⟩)))]
    rw [groupBy_primitive x c pr hprim]
    dsimp only
    rw [nonNull, List.filter_map, length_map]
    refine (length_filter_firsts primitiveKey vals fun a _ b _ h => ?_).trans ?_
    · show (!(primitiveEntry a).isNull) = !(primitiveEntry b).isNull
      rw [isNull_primitiveEntry, isNull_primitiveEntry, h]
    · refine Eq.trans (congrArg (fun vs => (vs.map primitiveKey).toFinset.card) hnonNull) ?_
      exact card_map_of_inj primitiveKey fun a ha b hb => hcol.primitiveKey_inj ha hb (hne a ha)

/-- Text is printed as it is. -/
def plainPrint : PrintOps where
  displayRange _ := jose
  displayComposite _ := jose
  printed
    | .text s => s
    | _ => jose

/-- Two spellings in one column. -/
def spellings : List Value := [.text joseCapital, .text joseCapitals]

end AxiomDb.Row
