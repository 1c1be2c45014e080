import AxiomDb.Sql.BatchAgreement

/-!
# Partly decoded rows

`collect_where_columns` marks the columns that it finds in a WHERE, and
`decode_row_masked` decodes only the marked columns, with NULL for the others:
`decodeRowMasked_eq`. An expression gives the same on the partly decoded row if no
column that it mentions differs (`eval_congr`); but the walk over the expression does
not enter every form.
-/

namespace AxiomDb.Row

open Lib Sql List

/-! ## The columns of an expression -/

/-- The columns that an expression mentions. -/
def Expr.columns : Expr → List Nat
  | .literal _ => []
  | .column colIdx => [colIdx]
  | .unaryOp _ operand => operand.columns
  | .binaryOp _ left right => left.columns ++ right.columns
  | .isNull expr _ => expr.columns
  | .function _ args => args.flatMap fun a => a.columns
  | .special _ subs => subs.flatMap fun a => a.columns

/-- The columns that `collect_where_columns` walks to. -/
def Expr.walked : Expr → List Nat
  | .column colIdx => [colIdx]
  | .binaryOp _ left right => left.walked ++ right.walked
  | .unaryOp _ operand => operand.walked
  | .function _ args => args.flatMap fun a => a.walked
  | _ => []

/-- `collect_where_columns`, and the mask it fills. -/
def collectWhereColumns (e : Expr) (nCols : Nat) : List Bool :=
  (List.range nCols).map fun i => e.walked.contains i

variable {bitmap bs bytes rest : Bytes} {dec' : Bytes → Except CodecError Value} {dt : DataType}
  {x : Externals} {mask : List Bool} {dts schema : List DataType} {vs : List Value} {n : Nat}
  {inline : Nat → Decoder Value} {v : Value}

theorem getElem?_collectWhereColumns {i : Nat} (e : Expr) (hi : i < n) :
    (collectWhereColumns e n)[i]? = some (decide (i ∈ e.walked)) := by
  rw [collectWhereColumns, getElem?_map, getElem?_range hi]
  simp

/-- An expression depends on its columns only. -/
theorem eval_congr {o : Ops} {row row' : List Value} (hlen : row.length = row'.length) (e : Expr)
    (h : ∀ i ∈ e.columns, row[i]? = row'[i]?) : eval o row e = eval o row' e := by
  fun_induction eval o row e with
  | case1 v => rw [eval]
  | case2 i v hv => rw [eval, ← h i (by simp [Expr.columns]), hv]
  | case3 i hv =>
    rw [eval, ← h i (by simp [Expr.columns]), hv]
    dsimp only
    rw [hlen]
  | case4 left right ihl ihr =>
    rw [Expr.columns] at h
    rw [eval, ihl fun i hi => h i (mem_append_left _ hi),
      ihr fun i hi => h i (mem_append_right _ hi)]
  | case5 op left right hand hcmp ihl ihr | case6 op left right hand hcmp ihl ihr =>
    rw [Expr.columns] at h
    rw [ihl fun i hi => h i (mem_append_left _ hi),
      ihr fun i hi => h i (mem_append_right _ hi), eval]
    · simp only [hcmp, if_true, if_false, Bool.false_eq_true]
    · exact hand
  | case7 _ _ ih | case8 _ _ ih =>
    rw [Expr.columns] at h
    rw [ih h, eval]
  | case9 _ _ ih | case10 _ _ ih =>
    rw [Expr.columns] at h
    rw [eval, map_congr_left fun a ha => ih a ha fun i hi => h i (mem_flatMap.2 ⟨a, ha, hi⟩)]

/-! ## Decoding with a mask -/

/-- The bytes of a column that is not in the mask. -/
def skipBytes (n : Nat) : Decoder Unit := do
  let _ ← ensureBytes n
  pure ()

def skipValue (dt : DataType) : Decoder Unit :=
  match dt with
  | .bool => skipBytes 1
  | .tinyInt | .smallInt | .int | .float | .date => skipBytes 4
  | .bigInt | .real | .timestamp | .timestampTz => skipBytes 8
  | .decimal => skipBytes 17
  | .uuid => skipBytes 16
  | .money => skipBytes 20
  | .composite _ | .ltree | .xml => do
    let dataLen ← readUnsigned 4
    skipBytes dataLen
  | .text | .json | .jsonb | .bytes | .array _ | .range _ => do
    let len ← readU24
    if isToastSentinel len then skipBytes 12 else skipBytes len

/-- The loop over the columns, from column `i` on. -/
def decodeValuesMasked (x : Externals) (dec' : Bytes → Except CodecError Value) (bitmap : Bytes) :
    Nat → List DataType → List Bool → Decoder (List Value)
  | i, dt :: dts, m :: ms => do
    let v ← (if isNullBit bitmap i then pure .null
      else if m then decodeValue x dec' dt
      else (do
        skipValue dt
        pure .null))
    let vs ← decodeValuesMasked x dec' bitmap (i + 1) dts ms
    pure (v :: vs)
  | _, _, _ => pure []

/-- `decode_row_masked` in `codec.rs`. -/
def decodeRowMasked (x : Externals) (bytes : Bytes) (schema : List DataType) (mask : List Bool) :
    Except CodecError (List Value) :=
  if mask.length ≠ schema.length then
    .error (.typeMismatch ("mask length " ++ toString schema.length)
      ("mask length " ++ toString mask.length))
  else do
    let (bitmap, rest) ← (ensureBytes (bitmapLen schema.length)).run bytes
    let (values, _) ← (decodeValuesMasked x (decodeCompositeInnerWith (decodeRowDepth x bytes.length))
      bitmap 0 schema mask).run rest
    .ok values

/-! ## What a decoder takes -/

variable {α β : Type} {p : Decoder α} {f : α → Decoder β} {a : α}

theorem run_bind_eq_ok {b : β} (h : (p >>= f).run bs = .ok (b, rest)) :
    ∃ a r, p.run bs = .ok (a, r) ∧ (f a).run r = .ok (b, rest) := by
  rw [StateT.run_bind] at h
  obtain ⟨⟨a, r⟩, hp, hf⟩ := bind_eq_ok.1 h
  exact ⟨a, r, hp, hf⟩

/-- The decoder takes `n` bytes whenever it returns. -/
def Takes {α : Type} (p : Decoder α) (n : Nat) : Prop :=
  ∀ bs a rest, p.run bs = .ok (a, rest) → n ≤ bs.length ∧ rest = bs.drop n

theorem takes_ensureBytes (n : Nat) : Takes (ensureBytes n) n := by
  intro bs a rest h
  have h' : (if bs.length < n then .error (.truncated n bs.length)
      else .ok (bs.take n, bs.drop n) : Except CodecError (Bytes × Bytes)) = .ok (a, rest) := h
  split at h'
  · cases h'
  · cases h'
    exact ⟨by omega, rfl⟩

theorem Takes.pure (a : α) : Takes (Pure.pure a : Decoder α) 0 := by
  intro bs b rest h
  cases h
  exact ⟨Nat.zero_le _, rfl⟩

theorem Takes.throw (e : CodecError) (n : Nat) : Takes (throw e : Decoder α) n := by
  intro bs b rest h
  cases h

theorem Takes.lift (y : Except CodecError α) : Takes (StateT.lift y : Decoder α) 0 := by
  intro bs b rest h
  cases y with
  | error e => cases h
  | ok a =>
    cases h
    exact ⟨Nat.zero_le _, rfl⟩

theorem Takes.bind {m : Nat} (hp : Takes p m)
    (hf : ∀ a, Takes (f a) n) : Takes (p >>= f) (m + n) := by
  intro bs b rest h
  obtain ⟨a, r, hpr, hfr⟩ := run_bind_eq_ok h
  obtain ⟨hm, rfl⟩ := hp bs a r hpr
  obtain ⟨hn, rfl⟩ := hf a _ b rest hfr
  rw [length_drop] at hn
  exact ⟨by omega, drop_drop⟩

theorem Takes.map (hp : Takes p n) (f : α → β) :
    Takes (p >>= fun a => Pure.pure (f a)) n := hp.bind fun a => Takes.pure (f a)

theorem takes_signed (bits : Nat) : Takes (readSigned bits) (bits / 8) := (takes_ensureBytes _).map _

theorem takes_unsigned (k : Nat) : Takes (readUnsigned k) k := (takes_ensureBytes _).map _

theorem takes_byte : Takes readByte 1 := (takes_ensureBytes 1).map _

theorem Takes.bind_zero (hp : Takes p n) (hf : ∀ a, Takes (f a) 0) : Takes (p >>= f) n := hp.bind hf

theorem takes_exact (n : Nat) : Takes (readExact n) n := by
  refine (takes_ensureBytes n).bind_zero fun b => ?_
  split
  · exact Takes.pure _
  · exact Takes.throw _ _

theorem takes_utf8 (what : String) (len : Nat) : Takes (readUtf8 what len) len := by
  refine (takes_ensureBytes len).bind_zero fun b => ?_
  split
  · exact Takes.pure _
  · exact Takes.throw _ _

theorem takes_toastPointer (len : Nat) : Takes (readToastPointer len) 12 :=
  (takes_unsigned 8).bind fun _ => (takes_unsigned 4).map _

theorem skipBytes_run (h : n ≤ bs.length) : (skipBytes n).run bs = .ok ((), bs.drop n) := by
  have hrun : (ensureBytes n).run bs = .ok (bs.take n, bs.drop n) :=
    if_neg (Nat.not_lt.2 h)
  rw [skipBytes, StateT.run_bind, hrun]
  rfl

theorem Takes.skip (hp : Takes p n)
    (h : p.run bs = .ok (a, rest)) : (skipBytes n).run bs = .ok ((), rest) := by
  obtain ⟨hn, rfl⟩ := hp bs a rest h
  exact skipBytes_run hn

/-- A value behind a length that may mark a pointer. -/
theorem skip_prefixed {pointer : Nat → Decoder Value} (hp : ∀ len, Takes (pointer len) 12)
    (hi : ∀ len, Takes (inline len) len)
    (h : (do let len ← readU24; if isToastSentinel len then pointer len else inline len : Decoder Value).run
      bs = .ok (v, rest)) :
    (do let len ← readU24; if isToastSentinel len then skipBytes 12 else skipBytes len : Decoder Unit).run
      bs = .ok ((), rest) := by
  obtain ⟨len, r, hlen, h⟩ := run_bind_eq_ok h
  rw [StateT.run_bind, hlen, ok_bind]
  cases hs : isToastSentinel len with
  | true =>
    rw [hs, if_pos rfl] at h
    rw [if_pos rfl]
    exact (hp len).skip h
  | false =>
    rw [hs, if_neg Bool.false_ne_true] at h
    rw [if_neg Bool.false_ne_true]
    exact (hi len).skip h

/-- A value behind its length in four bytes. -/
theorem skip_u32 (hi : ∀ len, Takes (inline len) len)
    (h : (readUnsigned 4 >>= inline).run bs = .ok (v, rest)) :
    (readUnsigned 4 >>= skipBytes).run bs = .ok ((), rest) := by
  obtain ⟨len, r, hlen, h⟩ := run_bind_eq_ok h
  rw [StateT.run_bind, hlen, ok_bind]
  exact (hi len).skip h

/-- A column that is skipped takes the bytes that it would take decoded. A tuple of a page
is far shorter than the lengths that mark pointers. -/
theorem skipValue_run (hlen : bs.length < TOAST_SENTINEL_LZ4)
    (h : (decodeValue x dec' dt).run bs = .ok (v, rest)) : (skipValue dt).run bs = .ok ((), rest) := by
  cases dt with
  | bool => exact (takes_byte.map _).skip h
  | tinyInt | smallInt | int | date => exact ((takes_signed 32).map _).skip h
  | float => exact (((takes_unsigned 4).map _).map _).skip h
  | bigInt | timestamp | timestampTz => exact ((takes_signed 64).map _).skip h
  | real => exact (((takes_unsigned 8).map _).map _).skip h
  | decimal => exact ((takes_signed 128).bind fun _ => takes_byte.map _).skip h
  | uuid => exact ((takes_exact 16).map _).skip h
  | money =>
    exact ((takes_signed 128).bind fun _ => takes_byte.bind fun _ => (takes_exact 3).map _).skip h
  | text | json =>
    exact skip_prefixed (fun len => (takes_toastPointer len).map _) (fun len => (takes_utf8 _ len).map _) h
  | bytes | jsonb =>
    exact skip_prefixed (fun len => (takes_toastPointer len).map _)
      (fun len => (takes_ensureBytes len).map _) h
  | array elem =>
    exact skip_prefixed (fun len => (takes_toastPointer len).map _)
      (fun len => (takes_ensureBytes len).bind_zero fun _ => Takes.lift _) h
  | range elem =>
    -- decoding does not look for pointers here, skipping does
    obtain ⟨len, r, hu, h⟩ := run_bind_eq_ok h
    obtain ⟨h3, rfl⟩ := takes_unsigned 3 _ _ _ hu
    have htakes : Takes (ensureBytes len >>= fun blob =>
        StateT.lift (decodeRangePayload blob elem) >>= fun rv => pure (Value.range rv)) len :=
      (takes_ensureBytes len).bind_zero fun _ => (Takes.lift _).map _
    obtain ⟨hl, -⟩ := htakes _ _ _ h
    have hs : isToastSentinel len = false := by
      rw [length_drop] at hl
      rw [TOAST_SENTINEL_LZ4] at hlen
      rw [isToastSentinel, TOAST_SENTINEL_RAW, TOAST_SENTINEL_LZ4, Bool.or_eq_false_iff, beq_eq_false_iff_ne,
        beq_eq_false_iff_ne]
      omega
    show (readU24 >>= fun len => if isToastSentinel len then skipBytes 12 else skipBytes len).run bs = _
    rw [StateT.run_bind, hu, ok_bind]
    dsimp only
    rw [hs, if_neg Bool.false_ne_true]
    exact htakes.skip h
  | composite fields =>
    exact skip_u32 (fun len => (takes_ensureBytes len).bind_zero fun _ => Takes.lift _) h
  | ltree | xml => exact skip_u32 (fun len => (takes_utf8 _ len).map _) h

theorem Takes.length_le (hp : Takes p n)
    (h : p.run bs = .ok (a, rest)) : rest.length ≤ bs.length := by
  obtain ⟨-, rfl⟩ := hp bs a rest h
  rw [length_drop]
  omega

theorem takes_skipBytes (n : Nat) : Takes (skipBytes n) n := (takes_ensureBytes n).map _

theorem length_le_of_skipValue (h : (skipValue dt).run bs = .ok ((), rest)) :
    rest.length ≤ bs.length := by
  have htwo : ∀ {k : Nat} {f : Nat → Decoder Unit}, (∀ len, ∃ n, Takes (f len) n) →
      (readUnsigned k >>= f).run bs = .ok ((), rest) → rest.length ≤ bs.length := by
    intro k f hf h
    obtain ⟨len, r, hlen, h⟩ := run_bind_eq_ok h
    obtain ⟨n, hn⟩ := hf len
    exact (hn.length_le h).trans ((takes_unsigned k).length_le hlen)
  have hprefixed : ∀ len, ∃ n, Takes (if isToastSentinel len then skipBytes 12 else skipBytes len) n := by
    intro len
    split
    · exact ⟨_, takes_skipBytes 12⟩
    · exact ⟨_, takes_skipBytes len⟩
  cases dt with
  | text | json | jsonb | bytes | array _ | range _ => exact htwo hprefixed h
  | composite _ | ltree | xml => exact htwo (fun len => ⟨len, takes_skipBytes len⟩) h
  | _ => exact (takes_skipBytes _).length_le h

/-- Decoding with a mask leaves NULL in the columns that are not in it. -/
theorem decodeValuesMasked_run (i : Nat) (hmask : mask.length = dts.length)
    (hlen : bs.length < TOAST_SENTINEL_LZ4)
    (h : (decodeValues x dec' bitmap i dts).run bs = .ok (vs, rest)) :
    (decodeValuesMasked x dec' bitmap i dts mask).run bs =
      .ok (zipWith (fun m v => if m then v else .null) mask vs, rest) := by
  induction dts generalizing i mask bs vs with
  | nil =>
    rw [length_eq_zero_iff.1 hmask]
    cases h
    rfl
  | cons dt dts ih =>
    obtain _ | ⟨m, mask⟩ := mask
    · cases hmask
    obtain ⟨v, r, hv, h⟩ := run_bind_eq_ok h
    obtain ⟨ws, r', hws, h⟩ := run_bind_eq_ok h
    cases h
    have hone : (if isNullBit bitmap i then pure .null else if m then decodeValue x dec' dt
        else (do skipValue dt; pure .null) : Decoder Value).run bs =
          .ok (if m then v else .null, r) ∧ r.length ≤ bs.length := by
      cases hn : isNullBit bitmap i with
      | true =>
        rw [hn, if_pos rfl] at hv
        cases hv
        rw [if_pos rfl, ite_self]
        exact ⟨rfl, le_rfl⟩
      | false =>
        rw [hn, if_neg Bool.false_ne_true] at hv
        have hskip := skipValue_run hlen hv
        refine ⟨?_, length_le_of_skipValue hskip⟩
        rw [if_neg Bool.false_ne_true]
        cases m with
        | true => exact hv
        | false =>
          rw [if_neg Bool.false_ne_true, StateT.run_bind, hskip]
          rfl
    rw [decodeValuesMasked, StateT.run_bind, hone.1, ok_bind, StateT.run_bind,
      ih (i + 1) (Nat.succ.inj hmask) (lt_of_le_of_lt hone.2 hlen) hws]
    rfl

theorem decodeRowMasked_eq (hmask : mask.length = schema.length)
    (hlen : bytes.length < TOAST_SENTINEL_LZ4) (h : decodeRow x bytes schema = .ok vs) :
    decodeRowMasked x bytes schema mask =
      .ok (zipWith (fun m v => if m then v else .null) mask vs) := by
  obtain ⟨⟨bitmap, rest⟩, hb, h⟩ := bind_eq_ok.1 h
  obtain ⟨⟨ws, r⟩, hws, h⟩ := bind_eq_ok.1 h
  cases h
  have hle := (takes_ensureBytes _).length_le hb
  rw [decodeRowMasked, if_neg (not_not.2 hmask), hb, ok_bind]
  dsimp only
  rw [decodeValuesMasked_run 0 hmask (lt_of_le_of_lt hle hlen) hws]
  rfl

theorem length_decodeValues (i : Nat)
    (h : (decodeValues x dec' bitmap i dts).run bs = .ok (vs, rest)) : vs.length = dts.length := by
  induction dts generalizing i bs vs with
  | nil =>
    cases h
    rfl
  | cons dt dts ih =>
    obtain ⟨v, r, -, h⟩ := run_bind_eq_ok h
    obtain ⟨ws, r', hws, h⟩ := run_bind_eq_ok h
    cases h
    rw [length_cons, length_cons, ih (i + 1) hws]

theorem length_decodeRow (h : decodeRow x bytes schema = .ok vs) : vs.length = schema.length := by
  obtain ⟨⟨bitmap, rest⟩, -, h⟩ := bind_eq_ok.1 h
  obtain ⟨⟨ws, r⟩, hws, h⟩ := bind_eq_ok.1 h
  cases h
  exact length_decodeValues 0 hws

end AxiomDb.Row
