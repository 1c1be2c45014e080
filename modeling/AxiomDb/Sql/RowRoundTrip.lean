import AxiomDb.Sql.RowCodec

/-!
# Reading rows back

`rows_read_back`: what `encode_row` accepts, `decode_row` returns with its texts in
NFC, for values that are not cut by the encoding. Those that are cut are listed by
`Value.RoundTrips`: a length that marks a TOAST pointer, a float wider than its
column, an array element of another type, an empty range with bounds, and a
composite whose number of fields does not fit a byte.

Each layout and its reader are put together from the same parts, by `Reads`.
-/

namespace AxiomDb.Row

open Lib Sql List Option Value SInt CodecError

/-! ## Readers of numbers -/

theorem wrap_emod (bits : Nat) (n : Int) : wrap bits (n % 2 ^ bits) = wrap bits n := by
  simp only [wrap, Int.emod_add_emod]

variable {b bitmap blob enc payload : Bytes} {dec' : Bytes → Except CodecError Value}
  {elemType : ColumnType} {dt elemDt : DataType} {x : Externals} {dts : List DataType}
  {es fields values vs : List Value} {enc' enc1 enc2 : List Value → Except CodecError Bytes}
  {bits len n pageId rawLen : Nat} {rv : RangeValue Value} {dim : SInt 32} {s : Utf8} {v : Value}
  {i : Nat} {a : ArrayBlob} {body : Bytes} {α β : Type}

theorem length_leSigned (n : SInt bits) : (leSigned n).length = bits / 8 := by
  rw [leSigned, length_leBytes]

theorem wrap_leSigned (h8 : 8 ∣ bits) (hpos : 0 < bits) (n : SInt bits) :
    wrap bits (ofLeBytes (leSigned n)) = n := by
  have hpow : (256 : Nat) ^ (bits / 8) = 2 ^ bits := by
    rw [show 256 = 2 ^ 8 by decide, ← pow_mul, Nat.mul_div_cancel' h8]
  have hnonneg : 0 ≤ n.val % 2 ^ bits := Int.emod_nonneg _ (by positivity)
  have hlt : (n.val % 2 ^ bits).toNat < 2 ^ bits := by
    rw [Int.toNat_lt hnonneg]
    push_cast
    exact Int.emod_lt_of_pos _ (by positivity)
  rw [leSigned, ofLeBytes_leBytes, hpow, Nat.mod_eq_of_lt hlt, Int.toNat_of_nonneg hnonneg, wrap_emod,
    wrap_val hpos]

theorem reads_signed (h8 : 8 ∣ bits) (hpos : 0 < bits) (n : SInt bits) :
    Reads (readSigned bits) (leSigned n) n := by
  have h := (reads_takeBytes truncated (leSigned n) (length_leSigned n)).map
    fun b => wrap bits (ofLeBytes b)
  rwa [wrap_leSigned h8 hpos] at h

theorem reads_i32 (n : SInt 32) : Reads (readSigned 32) (leSigned n) n :=
  reads_signed (by decide) (by decide) n

theorem reads_i64 (n : SInt 64) : Reads (readSigned 64) (leSigned n) n :=
  reads_signed (by decide) (by decide) n

theorem reads_i128 (n : SInt 128) : Reads (readSigned 128) (leSigned n) n :=
  reads_signed (by decide) (by decide) n

theorem reads_unsigned {k : Nat} (h : n < 256 ^ k) : Reads (readUnsigned k) (leBytes k n) n := by
  have hr := (reads_takeBytes truncated (leBytes k n) (length_leBytes k n)).map ofLeBytes
  rwa [ofLeBytes_leBytes, Nat.mod_eq_of_lt h] at hr

theorem reads_byte (b : Byte) : Reads readByte [b] b := by
  have h := (reads_takeBytes truncated [b] rfl).map fun b => b.headD (0 : Byte)
  exact h

theorem reads_f32 (f : Fin (2 ^ 32)) : Reads readF32 (leBytes 4 f.val) f := by
  have h := (reads_unsigned (k := 4) f.isLt).map f32OfBits
  rwa [f32OfBits, Fin.ofNat_val_eq_self] at h

theorem reads_f64 (f : Fin (2 ^ 64)) : Reads readF64 (leBytes 8 f.val) f := by
  have h := (reads_unsigned (k := 8) f.isLt).map f64OfBits
  rwa [f64OfBits, Fin.ofNat_val_eq_self] at h

theorem reads_exact (u : {b : Bytes // b.length = n}) : Reads (readExact n) u.val u := by
  refine (reads_takeBytes truncated u.val u.property).bind_nil ?_
  rw [dif_pos u.property]
  exact Reads.pure _

theorem reads_utf8 (what : String) (s : Utf8) : Reads (readUtf8 what s.bytes.length) s.bytes s := by
  refine (reads_takeBytes truncated s.bytes rfl).bind_nil ?_
  rw [dif_pos s.valid]
  exact Reads.pure _

theorem reads_bytes (b : Bytes) : Reads (ensureBytes b.length) b b :=
  reads_takeBytes truncated b rfl

/-! ## The bitmap -/

theorem length_setNullBits (vs : List Value) (i : Nat) (bitmap : Bytes) :
    (setNullBits vs i bitmap).length = bitmap.length := by
  induction vs generalizing i bitmap with
  | nil => rfl
  | cons v vs ih =>
    rw [setNullBits, ih]
    split
    · rw [setNullBit, length_modify]
    · rfl

theorem length_nullBitmap (vs : List Value) : (nullBitmap vs).length = bitmapLen vs.length := by
  rw [nullBitmap, length_setNullBits, length_replicate]

theorem isNullBit_setNullBit (h : i / 8 < bitmap.length) (j : Nat) :
    isNullBit (setNullBit bitmap i) j = (isNullBit bitmap j || decide (i = j)) := by
  have hj : j % 8 < 8 := Nat.mod_lt _ (by decide)
  simp only [isNullBit, setNullBit, getD_eq_getElem?_getD, getElem?_modify]
  by_cases hq : i / 8 = j / 8
  · rw [hq] at h
    have hbit : (i % 8 = j % 8) = (i = j) := by
      rw [eq_iff_iff]
      omega
    simp only [hq, if_true, getElem?_eq_getElem h, Option.map_eq_map, map_some,
      getD_some, byteOf, show 256 = 2 ^ 8 by decide, Nat.testBit_mod_two_pow, Nat.testBit_or,
      Nat.testBit_two_pow, hj, decide_true, Bool.true_and, hbit]
  · have hne : ¬i = j := fun he => hq (by rw [he])
    simp only [hq, if_false, Option.map_eq_map, Option.map_id', hne, decide_false, Bool.or_false]

theorem isNullBit_setNullBits (vs : List Value) (i : Nat) (h : i + vs.length ≤ 8 * bitmap.length)
    (j : Nat) : isNullBit (setNullBits vs i bitmap) j =
      (isNullBit bitmap j || (decide (i ≤ j) && (vs.map isNull).getD (j - i) false)) := by
  induction vs generalizing i bitmap with
  | nil => simp [setNullBits]
  | cons v vs ih =>
    rw [length_cons] at h
    have hi : i / 8 < bitmap.length := by omega
    have hstep : isNullBit (if v.isNull then setNullBit bitmap i else bitmap) j =
        (isNullBit bitmap j || (v.isNull && decide (i = j))) := by
      cases v.isNull with
      | true => rw [if_pos rfl, isNullBit_setNullBit hi, Bool.true_and]
      | false => simp
    have hlen : (if v.isNull then setNullBit bitmap i else bitmap).length = bitmap.length := by
      split
      · rw [setNullBit, length_modify]
      · rfl
    rw [setNullBits, ih (i + 1) (by rw [hlen]; omega), hstep, map_cons]
    rcases Nat.lt_trichotomy i j with hlt | heq | hgt
    · obtain ⟨k, rfl⟩ := Nat.exists_eq_add_of_lt hlt
      simp [show i + k + 1 - i = k + 1 by omega, show i + k + 1 - (i + 1) = k by omega,
        show ¬i = i + k + 1 by omega, show i ≤ i + k + 1 by omega]
    · subst heq
      simp [show ¬i + 1 ≤ i by omega]
    · simp [show ¬i = j by omega, show ¬i ≤ j by omega, show ¬i + 1 ≤ j by omega]

/-- The bitmap marks the NULL columns and no others. -/
theorem isNullBit_nullBitmap (vs : List Value) (j : Nat) :
    isNullBit (nullBitmap vs) j = (vs.map isNull).getD j false := by
  have hzero : isNullBit (replicate (bitmapLen vs.length) 0) j = false := by
    simp only [isNullBit, getD_eq_getElem?_getD, getElem?_replicate]
    split <;> simp
  rw [nullBitmap, isNullBit_setNullBits vs 0 (by rw [length_replicate, bitmapLen]; omega), hzero]
  simp

/-! ## What is read back -/

/-- A value with its texts in NFC. The bounds of a range are no texts. -/
def Value.nfc (x : Externals) : Value → Value
  | .text s => .text (x.nfc s)
  | .json s => .json (x.nfc s)
  | .array elems => .array (elems.map (nfc x))
  | .composite fields => .composite (fields.map (nfc x))
  | v => v

/-- An element that has the element type, and that a `f32` holds if it is one. -/
def Value.IsElement (x : Externals) (elemType : ColumnType) (e : Value) : Prop :=
  match e, elemType with
  | .null, _ => True
  | .bool _, .bool => True
  | .int _, .tinyInt => True
  | .int _, .smallInt => True
  | .int _, .int => True
  | .date _, .date => True
  | .real f, .float32 => x.toF64 (x.toF32 f) = f
  | .real _, .float => True
  | .bigInt _, .bigInt => True
  | .timestamp _, .timestamp => True
  | .timestampTz _, .timestampTz => True
  | .decimal _ _, .decimal => True
  | .uuid _, .uuid => True
  | .text _, .text => True
  | .json _, .json => True
  | .bytes _, .bytes => True
  | .jsonb _, .jsonb => True
  | _, _ => False

/-- The bytes that an element takes. -/
def elementSize (x : Externals) (elemType : ColumnType) (e : Value) : Nat :=
  match e with
  | .bool _ => 1
  | .int _ | .date _ => 4
  | .real _ => if elemType = .float32 then 4 else 8
  | .bigInt _ | .timestamp _ | .timestampTz _ => 8
  | .decimal _ _ => 17
  | .uuid _ => 16
  | .text s | .json s => 3 + (x.nfc s).bytes.length
  | .bytes b | .jsonb b => 3 + b.length
  | _ => 0

/-- The bytes that an array takes. -/
def arraySize (x : Externals) (elemType : ColumnType) (elems : List Value) : Nat :=
  if elems.isEmpty then 13
  else 21 + (if elems.any isNull then bitmapLen elems.length else 0) +
    (elems.map (elementSize x elemType)).sum

/-! ## Elements -/

theorem lengthPrefixed_ok {max : Nat} (h : lengthPrefixed max b = .ok enc) :
    b.length ≤ max ∧ enc = writeU24 b.length ++ b := by
  rw [lengthPrefixed] at h
  split at h
  · cases h
  · cases h
    exact ⟨by omega, rfl⟩

theorem reads_u24 (h : n ≤ 0xFFFFFF) : Reads readU24 (writeU24 n) n :=
  reads_unsigned (lt_of_le_of_lt h (by decide))

theorem length_lengthPrefixed : (writeU24 b.length ++ b).length = 3 + b.length := by
  rw [length_append, writeU24, length_leBytes]

theorem reads_prefixed_utf8 (what : String) (h : s.bytes.length ≤ 0xFFFFFF)
    (f : Utf8 → α) : Reads (do let len ← readU24; let s ← readUtf8 what len; pure (f s))
      (writeU24 s.bytes.length ++ s.bytes) (f s) :=
  (reads_u24 h).bind ((reads_utf8 what s).map f)

theorem reads_prefixed_bytes (h : b.length ≤ 0xFFFFFF) (f : Bytes → α) :
    Reads (do let len ← readU24; let b ← ensureBytes len; pure (f b))
      (writeU24 b.length ++ b) (f b) :=
  (reads_u24 h).bind ((reads_bytes b).map f)

theorem reads_bool (b : Bool) :
    Reads (do let c ← readByte; pure (Value.bool (c != 0))) [if b then 1 else 0] (.bool b) := by
  have h := (reads_byte (if b then 1 else 0)).map fun c => Value.bool (c != 0)
  cases b with
  | true => exact h
  | false => exact h

theorem reads_decimal (m : SInt 128) (s : Byte) :
    Reads (do let m ← readSigned 128; let s ← readByte; pure (Value.decimal m s))
      (leSigned m ++ [s]) (.decimal m s) :=
  (reads_i128 m).bind ((reads_byte s).map (Value.decimal m))

theorem reads_element {e : Value} (he : e.IsElement x elemType) (hnull : e.isNull = false)
    (henc : encodeElement x e elemType = .ok enc) :
    Reads (decodeElement x elemType) enc (e.nfc x) ∧ enc.length = elementSize x elemType e := by
  unfold IsElement at he
  split at he
  case h_1 => cases hnull
  case h_18 => cases he
  all_goals simp only [nfc]
  case h_2 b =>
    cases henc
    exact ⟨reads_bool b, rfl⟩
  case h_3 n | h_4 n | h_5 n | h_6 n =>
    cases henc
    exact ⟨(reads_i32 n).map _, length_leSigned n⟩
  case h_7 f =>
    simp only [encodeElement] at henc
    split at henc
    · cases henc
    cases henc
    have h := (reads_f32 (x.toF32 f)).map fun f => Value.real (x.toF64 f)
    rw [he] at h
    exact ⟨h, length_leBytes _ _⟩
  case h_8 f =>
    simp only [encodeElement] at henc
    split at henc
    · cases henc
    · cases henc
      exact ⟨(reads_f64 f).map Value.real, length_leBytes _ _⟩
  case h_9 n | h_10 n | h_11 n =>
    cases henc
    exact ⟨(reads_i64 n).map _, length_leSigned n⟩
  case h_12 m s =>
    cases henc
    exact ⟨reads_decimal m s, by rw [length_append, length_leSigned]; rfl⟩
  case h_13 u =>
    cases henc
    exact ⟨(reads_exact u).map Value.uuid, u.property⟩
  case h_14 s | h_15 s =>
    obtain ⟨hlen, rfl⟩ := lengthPrefixed_ok henc
    exact ⟨reads_prefixed_utf8 _ hlen _, length_lengthPrefixed⟩
  case h_16 b | h_17 b =>
    obtain ⟨hlen, rfl⟩ := lengthPrefixed_ok henc
    exact ⟨reads_prefixed_bytes hlen _, length_lengthPrefixed⟩

/-- The marks of the NULLs of the values behind the first. -/
theorem bits_cons {isNull : Nat → Bool}
    (h : ∀ k, (hk : k < (v :: vs).length) → isNull (i + k) = (v :: vs)[k].isNull) :
    isNull i = v.isNull ∧ ∀ k, (hk : k < vs.length) → isNull (i + 1 + k) = vs[k].isNull := by
  refine ⟨h 0 (Nat.succ_pos _), fun k hk => ?_⟩
  rw [Nat.add_assoc, Nat.add_comm 1]
  exact h (k + 1) (Nat.succ_lt_succ hk)

theorem reads_elements (isNull : Nat → Bool) (i : Nat) (he : ∀ e ∈ es, e.IsElement x elemType)
    (hnull : ∀ k, (h : k < es.length) → isNull (i + k) = es[k].isNull)
    (henc : encodeElements x elemType es = .ok enc) :
    Reads (decodeElements x elemType isNull es.length i) enc (es.map (nfc x)) ∧
      enc.length = (es.map (elementSize x elemType)).sum := by
  induction es generalizing i enc with
  | nil =>
    cases henc
    exact ⟨Reads.pure _, rfl⟩
  | cons e es ih =>
    obtain ⟨hfirst, hrest⟩ := bits_cons hnull
    rw [encodeElements, bind_eq_ok] at henc
    obtain ⟨b, hb, henc⟩ := henc
    obtain ⟨bs, hbs, henc⟩ := bind_eq_ok.1 henc
    cases henc
    obtain ⟨hreads, hsize⟩ := ih (i + 1) (fun e h => he e (mem_cons_of_mem _ h)) hrest hbs
    have hone : Reads (if isNull i then pure .null else decodeElement x elemType) b (e.nfc x) ∧
        b.length = elementSize x elemType e := by
      rw [hfirst]
      cases hn : e.isNull with
      | true =>
        rw [hn] at hb
        cases hb
        cases e with
        | null =>
          simp only [nfc]
          exact ⟨Reads.pure _, rfl⟩
        | _ => cases hn
      | false =>
        rw [hn] at hb
        exact reads_element (he e mem_cons_self) hn hb
    refine ⟨hone.1.bind (hreads.map (e.nfc x :: ·)), ?_⟩
    rw [length_append, map_cons, sum_cons, hone.2, hsize]

/-! ## Arrays -/

theorem ColumnType.tryFrom_toByte (ct : ColumnType) : ColumnType.tryFrom ct.toByte = .ok ct := by
  cases ct <;> rfl

/-- A small number that is read as a signed one. -/
theorem wrap_le32 (h : n < 2 ^ 31) : (wrap 32 (ofLeBytes (leBytes 4 n))).val = n := by
  rw [ofLeBytes_leBytes, Nat.mod_eq_of_lt (by omega), wrap]
  show ((n : Int) + 2 ^ 31) % 2 ^ 32 - 2 ^ 31 = n
  omega

/-- The header of an array of one dimension, and what stands behind it. -/
structure ArrayBlob where
  totalLen : Nat
  dataoffset : Nat
  elemType : ColumnType
  dim : SInt 32
  bitmap : Bytes
  elems : Bytes

namespace ArrayBlob

def bytes (a : ArrayBlob) : Bytes :=
  leBytes 4 a.totalLen ++ (leBytes 4 1 ++ (leBytes 4 a.dataoffset ++ ([a.elemType.toByte] ++
    (leSigned a.dim ++ (leBytes 4 1 ++ (a.bitmap ++ a.elems))))))

variable (a : ArrayBlob)

theorem length_bytes : a.bytes.length = 21 + a.bitmap.length + a.elems.length := by
  simp only [bytes, length_append, length_leBytes, length_leSigned, length_singleton]
  omega

theorem take_four : a.bytes.take 4 = leBytes 4 a.totalLen := take_left' (length_leBytes 4 _)

theorem drop_four : a.bytes.drop 4 = leBytes 4 1 ++ (leBytes 4 a.dataoffset ++ ([a.elemType.toByte] ++
    (leSigned a.dim ++ (leBytes 4 1 ++ (a.bitmap ++ a.elems))))) :=
  drop_left' (length_leBytes 4 _)

theorem drop_eight : a.bytes.drop 8 = leBytes 4 a.dataoffset ++ ([a.elemType.toByte] ++
    (leSigned a.dim ++ (leBytes 4 1 ++ (a.bitmap ++ a.elems)))) := by
  rw [show 8 = 4 + 4 by rfl, ← drop_drop, drop_four]
  exact drop_left' (length_leBytes 4 _)

theorem drop_twelve : a.bytes.drop 12 = [a.elemType.toByte] ++
    (leSigned a.dim ++ (leBytes 4 1 ++ (a.bitmap ++ a.elems))) := by
  rw [show 12 = 8 + 4 by rfl, ← drop_drop, drop_eight]
  exact drop_left' (length_leBytes 4 _)

theorem drop_thirteen : a.bytes.drop 13 =
    leSigned a.dim ++ (leBytes 4 1 ++ (a.bitmap ++ a.elems)) := by
  rw [show 13 = 12 + 1 by rfl, ← drop_drop, drop_twelve]
  exact drop_left' rfl

theorem drop_header : a.bytes.drop 21 = a.bitmap ++ a.elems := by
  rw [show 21 = 13 + 8 by rfl, ← drop_drop, drop_thirteen, ← append_assoc]
  exact drop_left' (by rw [length_append, length_leSigned, length_leBytes])

theorem drop_bitmap (h : a.bitmap.length = n) : a.bytes.drop (21 + n) = a.elems := by
  rw [← drop_drop, drop_header]
  exact drop_left' h

end ArrayBlob

theorem computeNitems_one (h : 0 ≤ dim.val) : computeNitems [dim] = .ok dim.val.toNat := by
  have hle := dim.upper
  have hneg : ¬dim.val < 0 := by omega
  have hmax : ¬dim.val.toNat > 2 ^ 31 - 1 := by
    have : (2 : Int) ^ (32 - 1) = 2 ^ 31 := rfl
    omega
  simp only [computeNitems, isEmpty_cons, Bool.false_eq_true, if_false, foldlM_cons,
    foldlM_nil, hneg, hmax, one_mul, bind, Except.bind, pure, Except.pure]

theorem readDims_one (dim : SInt 32) (rest : Bytes) :
    (readDims 1).run (leSigned dim ++ rest) = .ok ([dim], rest) :=
  (reads_i32 dim).map (fun d => [d]) rest

/-- What is behind the header of an array is read with its bitmap. -/
theorem decodeArrayElements_bytes {off : SInt 32} {nitems : Nat}
    (hval : off.val = a.dataoffset) (hoff : a.dataoffset = 0 ∧ a.bitmap = [] ∨
      a.dataoffset = 21 + a.bitmap.length ∧ a.bitmap.length = bitmapLen nitems)
    (helems : Reads (decodeElements x a.elemType
      (fun i => off.val ≠ 0 && isNullBit a.bitmap i) nitems 0) a.elems values) :
    decodeArrayElements x a.bytes a.elemType off 21 nitems = .ok (.array values) := by
  have hlen := a.length_bytes
  have hbit : ¬(off.val ≠ 0 ∧ a.bytes.length < 21 + bitmapLen nitems) := by
    rintro ⟨hne, hlt⟩
    omega
  have hmask : (fun i => decide (off.val ≠ 0) &&
      isNullBit ((a.bitmap ++ a.elems).take (bitmapLen nitems)) i) =
      fun i => decide (off.val ≠ 0) && isNullBit a.bitmap i := by
    rcases hoff with ⟨h, -⟩ | ⟨-, h⟩
    · simp [hval, h]
    · rw [take_left' h]
  have hstart : a.bytes.drop (if off.val = 0 then 21
      else if off.val < 0 then a.bytes.length else off.val.toNat) = a.elems := by
    rcases hoff with ⟨h, hb⟩ | ⟨h, hb⟩
    · rw [if_pos (by omega), a.drop_header, hb, nil_append]
    · rw [if_neg (by omega), if_neg (by omega), hval, Int.toNat_natCast, h, a.drop_bitmap rfl]
  simp only [decodeArrayElements]
  rw [if_neg hbit, a.drop_header, hmask, hstart, helems.run_eq]
  rfl

/-- Reading an array whose header is right. -/
theorem decodeArray_bytes (htotal : a.totalLen = a.bytes.length)
    (hsmall : a.bytes.length < 2 ^ 31) (hdim : 0 ≤ a.dim.val)
    (hoff : a.dataoffset = 0 ∧ a.bitmap = [] ∨
      a.dataoffset = 21 + a.bitmap.length ∧ a.bitmap.length = bitmapLen a.dim.val.toNat)
    (helems : Reads (decodeElements x a.elemType
      (fun i => (a.dataoffset : Int) ≠ 0 && isNullBit a.bitmap i) a.dim.val.toNat 0) a.elems values) :
    decodeArray x a.bytes = .ok (.array values) := by
  have hlen := a.length_bytes
  have hoffval : (wrap 32 (ofLeBytes (leBytes 4 a.dataoffset))).val = a.dataoffset :=
    wrap_le32 (by omega)
  have hndim : (wrap 32 (ofLeBytes (leBytes 4 1))).val = 1 := wrap_le32 (by decide)
  have htot : ¬a.bytes.length < ofLeBytes (leBytes 4 a.totalLen) := by
    rw [ofLeBytes_leBytes, htotal, Nat.mod_eq_of_lt (by omega)]
    omega
  have helems' : Reads (decodeElements x a.elemType
      (fun i => (wrap 32 (ofLeBytes (leBytes 4 a.dataoffset))).val ≠ 0 && isNullBit a.bitmap i)
      a.dim.val.toNat 0) a.elems values := by
    rw [hoffval]
    exact helems
  rw [decodeArray, if_neg (by omega), a.take_four, if_neg htot, a.drop_four, a.drop_eight,
    take_left' (length_leBytes 4 1), take_left' (length_leBytes 4 _)]
  dsimp only
  rw [hndim, a.drop_twelve, a.drop_thirteen]
  show (ColumnType.tryFrom a.elemType.toByte >>= _) = _
  rw [ColumnType.tryFrom_toByte, ok_bind, if_neg (by decide), if_neg (by decide),
    show 13 + Int.toNat 1 * 8 = 21 by rfl, if_neg (by omega), show Int.toNat 1 = 1 by rfl, readDims_one,
    ok_bind, computeNitems_one hdim, ok_bind]
  exact decodeArrayElements_bytes hoffval hoff helems'

theorem assembleArray_ok {hasNulls : Bool} {elemBuf : Bytes}
    (h : assembleArray elemType dim hasNulls bitmap elemBuf = .ok blob) :
    ∃ a : ArrayBlob, a.bytes = blob ∧ a.totalLen = blob.length ∧ blob.length ≤ 0xFFFFFF ∧
      a.dataoffset = (if hasNulls then 21 + bitmap.length else 0) ∧ a.elemType = elemType ∧
      a.dim = dim ∧ a.bitmap = bitmap ∧ a.elems = elemBuf := by
  rw [assembleArray] at h
  dsimp only at h
  generalize (if hasNulls then 21 + bitmap.length else 0) = dataoffset at h ⊢
  split at h
  · cases h
  rename_i hmax
  split at h
  · cases h
  rename_i hlen
  cases h
  refine ⟨⟨_, _, elemType, dim, bitmap, elemBuf⟩, rfl, (not_not.1 hlen).symm, ?_, rfl, rfl, rfl, rfl, rfl⟩
  rw [not_not.1 hlen]
  exact Nat.le_of_not_lt hmax

theorem length_encodeArray (henc : encodeArray x es elemType = .ok blob) : blob.length ≤ 0xFFFFFF := by
  rw [encodeArray] at henc
  split at henc
  · cases henc
    cases elemType <;> decide
  dsimp only at henc
  split at henc
  · cases henc
  split at henc
  · cases henc
  obtain ⟨elemBuf, -, henc⟩ := bind_eq_ok.1 henc
  obtain ⟨a, rfl, -, hmax, -⟩ := assembleArray_ok henc
  exact hmax

theorem decodeArray_encodeArray (he : ∀ e ∈ es, e.IsElement x elemType)
    (henc : encodeArray x es elemType = .ok blob) :
    decodeArray x blob = .ok (.array (es.map (nfc x))) ∧
      blob.length = arraySize x elemType es ∧ blob.length ≤ 0xFFFFFF := by
  cases hempty : es.isEmpty with
  | true =>
    rw [isEmpty_iff.1 hempty] at henc ⊢
    cases henc
    cases elemType <;> exact ⟨rfl, rfl, by decide⟩
  | false =>
    rw [encodeArray, hempty, if_neg Bool.false_ne_true] at henc
    dsimp only at henc
    split at henc
    · cases henc
    rename_i hneg
    split at henc
    · cases henc
    rename_i hcount
    obtain ⟨elemBuf, hbuf, henc⟩ := bind_eq_ok.1 henc
    obtain ⟨a, rfl, htotal, hmax, hoff, htype, hdim, hbitmap, helems⟩ := assembleArray_ok henc
    have hcount' : a.dim.val.toNat = es.length := by rw [hdim]; exact (not_not.1 hcount).symm
    have hnull : ∀ k, (h : k < es.length) →
        (decide ((a.dataoffset : Int) ≠ 0) && isNullBit a.bitmap (0 + k)) = es[k].isNull := by
      intro k hk
      rw [hoff, hbitmap, zero_add]
      cases hn : es.any isNull with
      | true =>
        have hne : ((21 + (nullBitmap es).length : Nat) : Int) ≠ 0 := by omega
        rw [if_pos rfl, if_pos rfl, decide_eq_true hne, Bool.true_and, isNullBit_nullBitmap]
        simp [hk]
      | false =>
        have h := any_eq_false.1 hn es[k] (getElem_mem hk)
        simpa using h
    obtain ⟨hreads, hsize⟩ := reads_elements
      (fun i => decide ((a.dataoffset : Int) ≠ 0) && isNullBit a.bitmap i) 0 he hnull hbuf
    have hlen := a.length_bytes
    refine ⟨decodeArray_bytes htotal (by omega) (by rw [hdim]; omega) ?_ ?_, ?_, hmax⟩
    · rw [hoff, hbitmap, hcount']
      cases hn : es.any isNull with
      | true => exact .inr ⟨rfl, length_nullBitmap es⟩
      | false => exact .inl ⟨rfl, rfl⟩
    · rw [htype, helems, hcount']
      exact hreads
    · rw [hlen, hbitmap, helems, hsize, arraySize, hempty, if_neg Bool.false_ne_true]
      cases hn : es.any isNull with
      | true => rw [if_pos rfl, if_pos rfl, length_nullBitmap]
      | false => rfl

/-! ## Ranges -/

/-- The bytes that a bound takes. -/
def boundSize : Option Value → Nat
  | some (.int _) | some (.date _) => 4
  | some (.bigInt _) | some (.timestamp _) => 8
  | some (.decimal _ _) => 17
  | _ => 0

def rangeSize (rv : RangeValue Value) : Nat :=
  if rv.isEmpty then 1 else 1 + boundSize rv.lower + boundSize rv.upper

theorem reads_bound (h : encodeBound v elemDt = .ok enc) :
    Reads (decodeBound elemDt) enc v ∧ enc.length = boundSize (some v) := by
  unfold encodeBound at h
  split at h
  case h_1 n | h_2 n =>
    cases h
    exact ⟨(reads_i32 n).map _, length_leSigned n⟩
  case h_3 n | h_4 n =>
    cases h
    exact ⟨(reads_i64 n).map _, length_leSigned n⟩
  case h_5 m s =>
    cases h
    exact ⟨reads_decimal m s, by rw [length_append, length_leSigned]; rfl⟩
  case h_6 => cases h

theorem reads_bound? {bound : Option Value} (h : encodeBound? bound elemDt = .ok enc) :
    Reads (decodeBound? bound.isSome elemDt) enc bound ∧ enc.length = boundSize bound := by
  cases bound with
  | none =>
    cases h
    exact ⟨Reads.pure _, rfl⟩
  | some v =>
    obtain ⟨hreads, hsize⟩ := reads_bound h
    exact ⟨hreads.map some, hsize⟩

theorem rangeFlags_bits (rv : RangeValue Value) : (byteOf (rangeFlags rv)).val.testBit 0 = false ∧
      (byteOf (rangeFlags rv)).val.testBit 1 = rv.lower.isSome ∧
      (byteOf (rangeFlags rv)).val.testBit 2 = rv.upper.isSome ∧
      (byteOf (rangeFlags rv)).val.testBit 3 = rv.lowerInc ∧
      (byteOf (rangeFlags rv)).val.testBit 4 = rv.upperInc := by
  rw [rangeFlags]
  generalize rv.lower.isSome = a, rv.upper.isSome = b, rv.lowerInc = c, rv.upperInc = d
  revert a b c d
  decide

theorem length_encodeRangePayload (h : encodeRangePayload rv elemDt = .ok payload) :
    payload.length = rangeSize rv := by
  rw [encodeRangePayload] at h
  rw [rangeSize]
  split at h
  next hempty =>
    cases h
    rw [if_pos hempty]
    rfl
  rename_i hempty
  obtain ⟨lower, hlower, h⟩ := bind_eq_ok.1 h
  obtain ⟨upper, hupper, h⟩ := bind_eq_ok.1 h
  cases h
  rw [if_neg hempty, length_append, length_cons, (reads_bound? hlower).2, (reads_bound? hupper).2]
  omega

theorem rangeSize_le (rv : RangeValue Value) : rangeSize rv ≤ 35 := by
  have hbound : ∀ o : Option Value, boundSize o ≤ 17 := by
    intro o
    unfold boundSize
    split <;> decide
  have hlower := hbound rv.lower
  have hupper := hbound rv.upper
  rw [rangeSize]
  split <;> omega

/-- A range is read back, if an empty one is the canonical one. -/
theorem decodeRangePayload_encodeRangePayload (hcanon : rv.isEmpty → rv = .empty)
    (h : encodeRangePayload rv elemDt = .ok payload) :
    decodeRangePayload payload elemDt = .ok rv := by
  rw [encodeRangePayload] at h
  cases hempty : rv.isEmpty with
  | true =>
    rw [hempty] at h
    cases h
    rw [hcanon hempty]
    rfl
  | false =>
    rw [hempty, if_neg Bool.false_ne_true] at h
    obtain ⟨lower, hlower, h⟩ := bind_eq_ok.1 h
    obtain ⟨upper, hupper, h⟩ := bind_eq_ok.1 h
    cases h
    obtain ⟨h0, h1, h2, h3, h4⟩ := rangeFlags_bits rv
    have hrv : (⟨rv.lower, rv.upper, rv.lowerInc, rv.upperInc, false⟩ : RangeValue Value) = rv := by
      rw [← hempty]
    have hreads : Reads (readRange elemDt) ([byteOf (rangeFlags rv)] ++ (lower ++ upper)) rv := by
      refine (reads_byte (byteOf (rangeFlags rv))).bind ?_
      rw [h0, if_neg Bool.false_ne_true, h1, h2, h3, h4]
      have hb := (reads_bound? hupper).1.map
        fun u => (⟨rv.lower, u, rv.lowerInc, rv.upperInc, false⟩ : RangeValue Value)
      rw [hrv] at hb
      exact (reads_bound? hlower).1.bind hb
    have hrun := hreads.run_eq
    rw [singleton_append, ← cons_append] at hrun
    rw [decodeRangePayload, if_neg (by simp), hrun]
    rfl

/-! ## Values -/

/-- The bytes that a value takes that is not a composite. -/
def valueSize (x : Externals) (dt : DataType) (v : Value) : Nat :=
  match v with
  | .bool _ => 1
  | .int _ | .date _ => 4
  | .real _ => match dt with
    | .float => 4
    | _ => 8
  | .bigInt _ | .timestamp _ | .timestampTz _ => 8
  | .decimal _ _ => 17
  | .uuid _ => 16
  | .text s | .json s => 3 + (x.nfc s).bytes.length
  | .bytes b | .jsonb b => 3 + b.length
  | .array elems => match dt with
    | .array elem => 3 + arraySize x (dataTypeToColumnType elem) elems
    | _ => 0
  | .range rv => 3 + rangeSize rv
  | .money _ _ _ => 20
  | .ltree s | .xml s => 4 + s.bytes.length
  | .composite _ | .null => 0

/-- What a value must be to be read back. -/
def Value.ReadsBack (x : Externals) (dt : DataType) (v : Value) : Prop :=
  match v with
  | .real f => match dt with
    | .float => x.toF64 (x.toF32 f) = f
    | _ => True
  | .text s | .json s => isToastSentinel (x.nfc s).bytes.length = false
  | .bytes b | .jsonb b => isToastSentinel b.length = false
  | .array elems => match dt with
    | .array elem => (∀ e ∈ elems, e.IsElement x (dataTypeToColumnType elem)) ∧
        isToastSentinel (arraySize x (dataTypeToColumnType elem) elems) = false
    | _ => True
  | .range rv => rv.isEmpty = true → rv = .empty
  | .ltree s | .xml s => s.bytes.length < 2 ^ 32
  | _ => True

theorem normalized_eq (x : Externals) (s : Utf8) : normalized x s = x.nfc s := by
  rw [normalized]
  split
  next h => exact (x.nfc_ascii s h).symm
  · rfl

/-- A length that is no sentinel is followed by the value itself. -/
theorem reads_inline {pointer inline : Nat → Decoder Value} (hlen : b.length ≤ 0xFFFFFF)
    (hs : isToastSentinel b.length = false) (h : Reads (inline b.length) b v) :
    Reads (do let len ← readU24; if isToastSentinel len then pointer len else inline len)
      (writeU24 b.length ++ b) v := by
  refine (reads_u24 hlen).bind ?_
  rw [hs, if_neg Bool.false_ne_true]
  exact h

theorem reads_u32_utf8 (what : String) (h : s.bytes.length < 2 ^ 32) (f : Utf8 → Value) :
    Reads (do let len ← readUnsigned 4; let s ← readUtf8 what len; pure (f s))
      (leBytes 4 s.bytes.length ++ s.bytes) (f s) :=
  (reads_unsigned h).bind ((reads_utf8 what s).map f)

theorem length_u32_prefixed (b : Bytes) : (leBytes 4 b.length ++ b).length = 4 + b.length := by
  rw [length_append, length_leBytes]

/-- A value is read back; of a composite, if its fields are. -/
theorem reads_value (hv : validateType v dt = .ok ()) (henc : encodeValue x enc' v dt = .ok enc)
    (hback : v.ReadsBack x dt)
    (hcomp : ∀ fields inner, v = .composite fields → enc' fields = .ok inner →
      dec' inner = .ok (.composite (fields.map (nfc x))) ∧ inner.length < 2 ^ 32) :
    Reads (decodeValue x dec' dt) enc (v.nfc x) ∧
      ((∀ fields, v ≠ .composite fields) → enc.length = valueSize x dt v) := by
  unfold validateType at hv
  split at hv
  case h_23 => cases hv
  all_goals simp only [nfc]
  case h_1 b =>
    cases henc
    exact ⟨reads_bool b, fun _ => rfl⟩
  case h_2 n | h_3 n | h_4 n | h_13 n =>
    cases henc
    exact ⟨(reads_i32 n).map _, fun _ => length_leSigned n⟩
  case h_5 n | h_14 n | h_15 n =>
    cases henc
    exact ⟨(reads_i64 n).map _, fun _ => length_leSigned n⟩
  case h_6 f =>
    simp only [encodeValue] at henc
    split at henc
    · cases henc
    cases henc
    have h := (reads_f32 (x.toF32 f)).map fun f => Value.real (x.toF64 f)
    have hexact : x.toF64 (x.toF32 f) = f := hback
    rw [hexact] at h
    exact ⟨h, fun _ => length_leBytes _ _⟩
  case h_7 f =>
    simp only [encodeValue] at henc
    split at henc
    · cases henc
    · cases henc
      exact ⟨(reads_f64 f).map Value.real, fun _ => length_leBytes _ _⟩
  case h_8 m s =>
    cases henc
    exact ⟨reads_decimal m s, fun _ => by rw [length_append, length_leSigned]; rfl⟩
  case h_9 s =>
    simp only [encodeValue, normalized_eq] at henc
    obtain ⟨hlen, rfl⟩ := lengthPrefixed_ok henc
    exact ⟨reads_inline hlen hback ((reads_utf8 _ _).map Value.text), fun _ => length_lengthPrefixed⟩
  case h_10 s =>
    simp only [encodeValue, normalized_eq] at henc
    split at henc
    · cases henc
    · obtain ⟨hlen, rfl⟩ := lengthPrefixed_ok henc
      exact ⟨reads_inline hlen hback ((reads_utf8 _ _).map Value.json), fun _ => length_lengthPrefixed⟩
  case h_11 b | h_12 b =>
    obtain ⟨hlen, rfl⟩ := lengthPrefixed_ok henc
    exact ⟨reads_inline hlen hback ((reads_bytes b).map _), fun _ => length_lengthPrefixed⟩
  case h_16 u =>
    cases henc
    exact ⟨(reads_exact u).map Value.uuid, fun _ => u.property⟩
  case h_17 elems elem =>
    obtain ⟨blob, hblob, henc⟩ := bind_eq_ok.1 henc
    cases henc
    obtain ⟨helems, hs⟩ := hback
    obtain ⟨hdec, hsize, hmax⟩ := decodeArray_encodeArray helems hblob
    rw [← hsize] at hs
    refine ⟨reads_inline hmax hs ((reads_bytes blob).bind_nil (Reads.lift hdec)), fun _ => ?_⟩
    rw [length_lengthPrefixed, hsize, valueSize]
  case h_18 rv elem =>
    obtain ⟨payload, hpayload, henc⟩ := bind_eq_ok.1 henc
    cases henc
    have hdec := decodeRangePayload_encodeRangePayload hback hpayload
    have hsize := length_encodeRangePayload hpayload
    have hmax : payload.length ≤ 0xFFFFFF := by
      rw [hsize]
      exact (rangeSize_le rv).trans (by decide)
    refine ⟨(reads_u24 hmax).bind
      ((reads_bytes payload).bind_nil ((Reads.lift hdec).map Value.range)), fun _ => ?_⟩
    rw [length_lengthPrefixed, hsize, valueSize]
  case h_19 m s c =>
    cases henc
    refine ⟨?_, fun _ => ?_⟩
    · rw [append_assoc]
      exact (reads_i128 m).bind ((reads_byte s).bind ((reads_exact c).map (money m s)))
    · rw [length_append, length_append, length_leSigned, c.property]
      rfl
  case h_20 fields _ =>
    obtain ⟨inner, hinner, henc⟩ := bind_eq_ok.1 henc
    cases henc
    obtain ⟨hdec, hlt⟩ := hcomp fields inner rfl hinner
    exact ⟨(reads_unsigned hlt).bind ((reads_bytes inner).bind_nil (Reads.lift hdec)),
      fun h => (h fields rfl).elim⟩
  case h_21 s | h_22 s =>
    cases henc
    exact ⟨reads_u32_utf8 _ hback _, fun _ => length_u32_prefixed _⟩

/-! ## Rows -/

theorem encodeValues_cons
    (h : encodeValues x enc' bitmap i (v :: vs) (dt :: dts) = .ok body) : ∃ b bs, body = b ++ bs ∧
      (if isNullBit bitmap i then .ok [] else encodeValue x enc' v dt) = .ok b ∧
      encodeValues x enc' bitmap (i + 1) vs dts = .ok bs := by
  obtain ⟨b, hb, h⟩ := bind_eq_ok.1 h
  obtain ⟨bs, hbs, h⟩ := bind_eq_ok.1 h
  cases h
  exact ⟨b, bs, rfl, hb, hbs⟩

theorem reads_values (i : Nat)
    (hback : Forall₂ (fun v dt => v.ReadsBack x dt) vs dts)
    (hbits : ∀ k, (h : k < vs.length) → isNullBit bitmap (i + k) = vs[k].isNull)
    (hv : validateTypes vs dts = .ok ()) (henc : encodeValues x enc' bitmap i vs dts = .ok body)
    (hcomp : ∀ fields inner, .composite fields ∈ vs → enc' fields = .ok inner →
      dec' inner = .ok (.composite (fields.map (nfc x))) ∧ inner.length < 2 ^ 32) :
    Reads (decodeValues x dec' bitmap i dts) body (vs.map (nfc x)) ∧
      ((∀ fields, .composite fields ∉ vs) → body.length = (zipWith (valueSize x) dts vs).sum) := by
  induction hback generalizing i body with
  | nil =>
    cases henc
    exact ⟨Reads.pure _, fun _ => rfl⟩
  | @cons v dt vs dts hv1 _ ih =>
    obtain ⟨hfirst, hrest⟩ := bits_cons hbits
    obtain ⟨b, bs, rfl, hb, hbs⟩ := encodeValues_cons henc
    rw [validateTypes, bind_eq_ok] at hv
    obtain ⟨_, hval, hvals⟩ := hv
    obtain ⟨hreads, hsize⟩ := ih (i + 1) hrest hvals hbs
      fun fields inner hmem => hcomp fields inner (mem_cons_of_mem _ hmem)
    have hone : Reads (if isNullBit bitmap i then pure .null else decodeValue x dec' dt) b (v.nfc x) ∧
        ((∀ fields, v ≠ .composite fields) → b.length = valueSize x dt v) := by
      rw [hfirst] at hb ⊢
      cases hn : v.isNull with
      | true =>
        rw [hn] at hb
        cases hb
        cases v with
        | null =>
          simp only [nfc]
          exact ⟨Reads.pure _, fun _ => rfl⟩
        | _ => cases hn
      | false =>
        rw [hn] at hb hval
        exact reads_value hval hb hv1 fun fields inner heq => hcomp fields inner (by simp [heq])
    refine ⟨hone.1.bind (hreads.map (v.nfc x :: ·)), fun hno => ?_⟩
    rw [length_append, zipWith_cons_cons, sum_cons,
      hone.2 fun fields heq => hno fields (by simp [heq]),
      hsize fun fields hmem => hno fields (mem_cons_of_mem _ hmem)]

/-- A row is read back, if its composites are. -/
theorem decodeRowWith_encodeRowWith {bytes : Bytes} (henc : encodeRowWith x enc' vs dts = .ok bytes)
    (hback : Forall₂ (fun v dt => v.ReadsBack x dt) vs dts)
    (hcomp : ∀ fields inner, .composite fields ∈ vs → enc' fields = .ok inner →
      dec' inner = .ok (.composite (fields.map (nfc x))) ∧ inner.length < 2 ^ 32) :
    decodeRowWith x dec' bytes dts = .ok (vs.map (nfc x)) ∧ ((∀ fields, .composite fields ∉ vs) →
        bytes.length = bitmapLen vs.length + (zipWith (valueSize x) dts vs).sum) := by
  have hlen : vs.length = dts.length := hback.length_eq
  rw [encodeRowWith, if_neg (not_not.2 hlen), bind_eq_ok] at henc
  obtain ⟨_, hval, henc⟩ := henc
  obtain ⟨body, hbody, henc⟩ := bind_eq_ok.1 henc
  cases henc
  have hbits : ∀ k, (h : k < vs.length) → isNullBit (nullBitmap vs) (0 + k) = vs[k].isNull := by
    intro k hk
    rw [isNullBit_nullBitmap, zero_add]
    simp [hk]
  obtain ⟨hreads, hsize⟩ := reads_values 0 hback hbits hval hbody hcomp
  have hmap : Reads (ensureBytes (bitmapLen dts.length)) (nullBitmap vs) (nullBitmap vs) :=
    reads_takeBytes truncated _ (by rw [length_nullBitmap, hlen])
  refine ⟨?_, fun hno => ?_⟩
  · rw [decodeRowWith, hmap body, ok_bind]
    dsimp only
    rw [hreads.run_eq]
    rfl
  · rw [length_append, length_nullBitmap, hsize hno]

/-! ## Composites -/

/-- The bytes that a composite takes behind its length. -/
def compositeSize (x : Externals) (fields : List Value) : Nat :=
  1 + fields.length + bitmapLen fields.length + (fields.map fun f => valueSize x (fieldType f) f).sum

/-- What a value of a column must be to be read back. -/
def Value.RoundTrips (x : Externals) (dt : DataType) (v : Value) : Prop :=
  match v with
  | .composite fields => fields.length < 256 ∧ compositeSize x fields < 2 ^ 32 ∧
      ∀ f ∈ fields, f.ReadsBack x (fieldType f)
  | v => v.ReadsBack x dt

/-- No field of a composite that is accepted is a composite. -/
theorem no_composite_of_validateTypes (h : validateTypes fields (fields.map fieldType) = .ok ())
    (fs : List Value) : .composite fs ∉ fields := by
  induction fields with
  | nil => exact not_mem_nil
  | cons f fields ih =>
    rw [map_cons, validateTypes, bind_eq_ok] at h
    obtain ⟨_, hval, h⟩ := h
    intro hmem
    rcases mem_cons.1 hmem with rfl | hmem
    · cases hval
    · exact ih h hmem

theorem decodeTags_map (fields : List Value) :
    decodeTags (fields.map fun f => (valueToColType f).toByte) = .ok (fields.map fieldType) := by
  induction fields with
  | nil => rfl
  | cons f fields ih =>
    rw [map_cons, decodeTags, ColumnType.tryFrom_toByte, ok_bind, ih]
    rfl

theorem forall₂_map_right {r : α → β → Prop} {f : α → β} {l : List α}
    (h : ∀ a ∈ l, r a (f a)) : Forall₂ r l (l.map f) := by
  rw [forall₂_map_right_iff]
  exact forall₂_same.2 h

theorem zipWith_map_left_self {γ : Type} (g : β → α → γ) (f : α → β) (l : List α) :
    zipWith g (l.map f) l = l.map fun a => g (f a) a := by
  induction l with
  | nil => rfl
  | cons a l ih => rw [map_cons, zipWith_cons_cons, map_cons, ih]

theorem decodeCompositeInnerWith_encodeCompositeWith {inner : Bytes} (hn : fields.length < 256)
    (hsize : compositeSize x fields < 2 ^ 32) (hback : ∀ f ∈ fields, f.ReadsBack x (fieldType f))
    (h : encodeCompositeWith (encodeRowWith x enc') fields = .ok inner) :
    decodeCompositeInnerWith (decodeRowWith x dec') inner = .ok (.composite (fields.map (nfc x))) ∧
      inner.length < 2 ^ 32 := by
  obtain ⟨fieldBytes, hrow, h⟩ := bind_eq_ok.1 h
  cases h
  have hno : ∀ fs, .composite fs ∉ fields := by
    rw [encodeRowWith, if_neg (by rw [length_map]; exact not_not.2 rfl), bind_eq_ok] at hrow
    obtain ⟨_, hval, -⟩ := hrow
    exact no_composite_of_validateTypes hval
  obtain ⟨hdec, hlen⟩ := decodeRowWith_encodeRowWith hrow (forall₂_map_right hback)
    fun fs _ hmem => (hno fs hmem).elim
  have hcount : (byteOf fields.length).val = fields.length := Nat.mod_eq_of_lt hn
  have htags : (fields.map fun f => (valueToColType f).toByte).length = fields.length := length_map _
  refine ⟨?_, ?_⟩
  · rw [cons_append, decodeCompositeInnerWith, hcount,
      if_neg (by rw [length_append, htags]; omega), take_left' htags, drop_left' htags,
      decodeTags_map, ok_bind, hdec, ok_bind]
  · rw [length_append, length_cons, htags, hlen hno, zipWith_map_left_self]
    rw [compositeSize] at hsize
    omega

/-- The encoder of nested composites does not matter to the fields of a composite. -/
theorem encodeValues_congr (i : Nat) (dts : List DataType) (hno : ∀ fields, .composite fields ∉ vs) :
    encodeValues x enc1 bitmap i vs dts = encodeValues x enc2 bitmap i vs dts := by
  induction vs generalizing i dts with
  | nil => rfl
  | cons v vs ih =>
    obtain _ | ⟨dt, dts⟩ := dts
    · rfl
    have hv : encodeValue x enc1 v dt = encodeValue x enc2 v dt := by
      cases v with
      | composite fields => exact (hno fields mem_cons_self).elim
      | _ => rfl
    rw [encodeValues, encodeValues, hv,
      ih (i + 1) dts fun fields hmem => hno fields (mem_cons_of_mem _ hmem)]

theorem encodeCompositeWith_congr :
    encodeCompositeWith (encodeRowWith x enc1) = encodeCompositeWith (encodeRowWith x enc2) := by
  funext fields
  rw [encodeCompositeWith, encodeCompositeWith, encodeRowWith, encodeRowWith]
  cases hval : validateTypes fields (fields.map fieldType) with
  | error e => rfl
  | ok _ => rw [encodeValues_congr 0 _ (no_composite_of_validateTypes hval)]

/-- One level of composites is all that `encode_row` accepts. -/
theorem encodeRowDepth_succ (x : Externals) (depth : Nat) :
    encodeRowDepth x (depth + 1) = encodeRow x := by
  cases depth with
  | zero => rfl
  | succ depth =>
    show encodeRowWith x (encodeCompositeWith (encodeRowWith x _)) =
      encodeRowWith x (encodeCompositeWith (encodeRowWith x _))
    rw [encodeCompositeWith_congr]

theorem Value.RoundTrips.readsBack (h : v.RoundTrips x dt) : v.ReadsBack x dt := by
  cases v with
  | composite fields => trivial
  | _ => exact h

/-- Decoding a row at any depth is decoding it with some decoder for composites. -/
theorem decodeRowDepth_eq (x : Externals) (depth : Nat) :
    ∃ dec', decodeRowDepth x depth = decodeRowWith x dec' := by
  cases depth with
  | zero => exact ⟨_, rfl⟩
  | succ depth => exact ⟨_, rfl⟩

/-- A row that `encode_row` accepts is read back with its texts in NFC, if no length
is one that marks a pointer, a `REAL` is exact, arrays hold elements of their type, an
empty range is the canonical one, and a composite has at most 255 fields. -/
theorem rows_read_back {x : Externals} {values : List Value} {schema : List DataType} {bytes : Bytes}
    (henc : encodeRow x values schema = .ok bytes)
    (h : List.Forall₂ (fun v dt => v.RoundTrips x dt) values schema) :
    decodeRow x bytes schema = .ok (values.map (nfc x)) := by
  refine (decodeRowWith_encodeRowWith henc (h.imp fun _ _ => Value.RoundTrips.readsBack) ?_).1
  intro fields inner hmem hinner
  obtain ⟨k, hk, hv⟩ := mem_iff_getElem.1 hmem
  have hr := (forall₂_iff_get.1 h).2 k hk (by rw [← h.length_eq]; exact hk)
  have hv' : values.get ⟨k, hk⟩ = .composite fields := hv
  rw [hv'] at hr
  obtain ⟨hn, hsize, hback⟩ := hr
  obtain ⟨dec', hdec⟩ := decodeRowDepth_eq x bytes.length
  rw [hdec]
  exact decodeCompositeInnerWith_encodeCompositeWith hn hsize hback hinner

/-- Texts that are in NFC already, JSON that always parses, and floats cut to their
low half. -/
def plainExternals : Externals where
  nfc := id
  jsonError := fun _ => none
  toF32 := fun f => f32OfBits f.val
  toF64 := fun f => f64OfBits f.val
  nfc_ascii := fun _ _ => rfl

theorem rows_read_back_array : ∃ bytes, encodeRow plainExternals
        [.int (.wrap 32 7), .null, .array [.bool true, .null]] [.int, .text, .array .bool] = .ok bytes ∧
      decodeRow plainExternals bytes [.int, .text, .array .bool] =
        .ok ([.int (.wrap 32 7), .null, .array [.bool true, .null]].map (nfc plainExternals)) := by
  have henc : ∃ bytes, encodeRow plainExternals
      [.int (.wrap 32 7), .null, .array [.bool true, .null]] [.int, .text, .array .bool] = .ok bytes :=
    ⟨_, rfl⟩
  obtain ⟨bytes, henc⟩ := henc
  refine ⟨bytes, henc, rows_read_back henc (.cons trivial (.cons trivial (.cons ⟨?_, rfl⟩ .nil)))⟩
  intro e he
  rcases mem_cons.1 he with rfl | he
  · trivial
  · rw [mem_singleton.1 he]
    trivial

theorem reads_toastPointer (hp : pageId < 256 ^ 8) (hr : rawLen < 256 ^ 4) :
    Reads (readToastPointer len) (leBytes 8 pageId ++ leBytes 4 rawLen)
      (toastPlaceholder pageId (len == TOAST_SENTINEL_LZ4) rawLen) :=
  (reads_unsigned hp).bind ((reads_unsigned hr).map _)

/-- Bytes behind a length that marks a pointer are read as the pointer. -/
theorem reads_pointer (hs : isToastSentinel len) (hlen : len ≤ 0xFFFFFF)
    (hp : pageId < 256 ^ 8) (hr : rawLen < 256 ^ 4) :
    Reads (decodeValue x dec' .bytes) (writeU24 len ++ (leBytes 8 pageId ++ leBytes 4 rawLen))
      (.bytes (toastPlaceholder pageId (len == TOAST_SENTINEL_LZ4) rawLen).bytes) := by
  refine (reads_u24 hlen).bind ?_
  rw [hs, if_pos rfl]
  exact (reads_toastPointer hp hr).map fun s : Utf8 => Value.bytes s.bytes

/-- A byte string of 16,777,214 zeros is accepted, and read back as a placeholder. -/
theorem bytes_read_as_pointer :
    ∃ b bytes, b.length = TOAST_SENTINEL_RAW ∧ encodeRow plainExternals [.bytes b] [.bytes] = .ok bytes ∧
      decodeRow plainExternals bytes [.bytes] = .ok [.bytes (toastPlaceholder 0 false 0).bytes] ∧
      decodeRow plainExternals bytes [.bytes] ≠
        .ok ([.bytes b].map (nfc plainExternals)) := by
  obtain ⟨r, hr⟩ : ∃ r : Bytes, r.length = 0xFFFFF2 := ⟨replicate _ 0, length_replicate⟩
  have hlen : (leBytes 8 0 ++ leBytes 4 0 ++ r).length = TOAST_SENTINEL_RAW := by
    rw [length_append, hr]
    rfl
  generalize hb : leBytes 8 0 ++ leBytes 4 0 ++ r = b at hlen
  have hinline : lengthPrefixed MAX_INLINE_LEN b = .ok (writeU24 TOAST_SENTINEL_RAW ++ b) := by
    rw [lengthPrefixed, hlen, if_neg (by decide)]
  have henc : encodeRow plainExternals [.bytes b] [.bytes] =
      .ok ([0] ++ (writeU24 TOAST_SENTINEL_RAW ++ b)) := by
    have hbody : encodeValues plainExternals (encodeCompositeWith (encodeRowDepth plainExternals 0))
        [0] 0 [.bytes b] [.bytes] = .ok (writeU24 TOAST_SENTINEL_RAW ++ b) := by
      rw [encodeValues, show isNullBit [0] 0 = false by rfl, if_neg Bool.false_ne_true, encodeValue,
        hinline, ok_bind, encodeValues, ok_bind, append_nil]
      simp
    have hbitmap : nullBitmap [.bytes b] = [0] := by
      simp [nullBitmap, setNullBits, isNull, bitmapLen]
    have hval : validateTypes [.bytes b] [.bytes] = .ok () := rfl
    rw [encodeRow, encodeRowDepth, encodeRowWith, if_neg (by simp), hval, ok_bind, hbitmap, hbody, ok_bind]
  have hdec : decodeRow plainExternals ([0] ++ (writeU24 TOAST_SENTINEL_RAW ++ b)) [.bytes] =
      .ok [.bytes (toastPlaceholder 0 false 0).bytes] := by
    rw [← hb, ← append_assoc (writeU24 _), decodeRow]
    generalize hbytes : writeU24 TOAST_SENTINEL_RAW ++ (leBytes 8 0 ++ leBytes 4 0) ++ r = bytes
    obtain ⟨dec', hdepth⟩ := decodeRowDepth_eq plainExternals (([0] ++ bytes).length + 1)
    have hmap : Reads (ensureBytes (bitmapLen 1)) [0] [0] := reads_takeBytes truncated [0] rfl
    have hval : Reads (decodeValues plainExternals dec' [0] 0 [.bytes])
        (writeU24 TOAST_SENTINEL_RAW ++ (leBytes 8 0 ++ leBytes 4 0))
        [.bytes (toastPlaceholder 0 false 0).bytes] := by
      have hone : Reads (decodeValue plainExternals dec' .bytes)
          (writeU24 TOAST_SENTINEL_RAW ++ (leBytes 8 0 ++ leBytes 4 0))
          (.bytes (toastPlaceholder 0 false 0).bytes) :=
        reads_pointer rfl (by decide) (by decide) (by decide)
      exact hone.map fun v => [v]
    rw [hdepth, decodeRowWith, length_singleton, hmap bytes, ok_bind]
    dsimp only
    rw [← hbytes, hval r]
    rfl
  refine ⟨b, _, hlen, henc, hdec, ?_⟩
  rw [hdec]
  simp only [map_cons, map_nil, nfc]
  intro heq
  have hsame : (toastPlaceholder 0 false 0).bytes = b := by
    cases heq
    rfl
  have hshort : (toastPlaceholder 0 false 0).bytes.length = 19 := by decide
  rw [hsame, hlen] at hshort
  exact absurd hshort (by decide)

end AxiomDb.Row
