import AxiomDb.Sql.KeyRoundTrip
import AxiomDb.Lib.Reader

/-!
# The row codec

`encode_row` writes the values of a row as a bitmap of the NULL columns followed
by the other values, each in the layout of its type, and `decode_row` reads them
back with the types of the schema. Arrays have a header of their own, and
composites carry the types of their fields.

The decoder is written as a reader of what is left of the bytes; the offsets that
its error messages report are left out. Names of error variants and their texts
are the source's otherwise.
-/

namespace AxiomDb.Row

open Lib Sql

/-! ## Values and types -/

/-- `DataType`. -/
inductive DataType where
  | bool
  | tinyInt
  | smallInt
  | int
  | bigInt
  | float
  | real
  | decimal
  | text
  | bytes
  | date
  | timestamp
  | timestampTz
  | uuid
  | json
  | jsonb
  | array (elem : DataType)
  | range (inner : DataType)
  | money
  | composite (fields : List (String × DataType))
  | ltree
  | xml

/-- `RangeValue`, over the type of its bounds. -/
structure RangeValue (α : Type) where
  lower : Option α
  upper : Option α
  lowerInc : Bool
  upperInc : Bool
  isEmpty : Bool

/-- The canonical empty range. -/
def RangeValue.empty {α : Type} : RangeValue α where
  lower := none
  upper := none
  lowerInc := false
  upperInc := false
  isEmpty := true

/-- `Value`. A float is its bits. -/
inductive Value where
  | null
  | bool (b : Bool)
  | int (n : SInt 32)
  | bigInt (n : SInt 64)
  | real (f : Fin (2 ^ 64))
  | decimal (m : SInt 128) (s : Byte)
  | text (s : Utf8)
  | bytes (b : Bytes)
  | date (d : SInt 32)
  | timestamp (t : SInt 64)
  | timestampTz (t : SInt 64)
  | uuid (u : {b : Bytes // b.length = 16})
  | json (s : Utf8)
  | jsonb (blob : Bytes)
  | array (elems : List Value)
  | range (rv : RangeValue Value)
  | money (m : SInt 128) (s : Byte) (c : {b : Bytes // b.length = 3})
  | composite (fields : List Value)
  | ltree (s : Utf8)
  | xml (s : Utf8)

def Value.isNull : Value → Bool
  | .null => true
  | _ => false

def DataType.name : DataType → String
  | .bool => "BOOL"
  | .tinyInt => "TINYINT"
  | .smallInt => "SMALLINT"
  | .int => "INT"
  | .bigInt => "BIGINT"
  | .float => "REAL"
  | .real => "DOUBLE"
  | .decimal => "DECIMAL"
  | .text => "TEXT"
  | .bytes => "BYTES"
  | .date => "DATE"
  | .timestamp => "TIMESTAMP"
  | .timestampTz => "TIMESTAMPTZ"
  | .uuid => "UUID"
  | .json => "JSON"
  | .jsonb => "JSONB"
  | .array elem => elem.name ++ "[]"
  | .range .int => "INT4RANGE"
  | .range .bigInt => "INT8RANGE"
  | .range .decimal => "NUMRANGE"
  | .range .date => "DATERANGE"
  | .range .timestamp => "TSRANGE"
  | .range other => "RANGE(" ++ other.name ++ ")"
  | .money => "MONEY"
  | .composite _ => "COMPOSITE"
  | .ltree => "LTREE"
  | .xml => "XML"

def Value.variantName : Value → String
  | .null => "NULL"
  | .bool _ => "Bool"
  | .int _ => "Int"
  | .bigInt _ => "BigInt"
  | .real _ => "Real"
  | .decimal _ _ => "Decimal"
  | .text _ => "Text"
  | .bytes _ => "Bytes"
  | .date _ => "Date"
  | .timestamp _ => "Timestamp"
  | .timestampTz _ => "TimestampTz"
  | .uuid _ => "Uuid"
  | .json _ => "Json"
  | .jsonb _ => "Jsonb"
  | .array _ => "Array"
  | .range _ => "Range"
  | .money _ _ _ => "Money"
  | .composite _ => "Composite"
  | .ltree _ => "Ltree"
  | .xml _ => "Xml"

inductive CodecError where
  | typeMismatch (expected got : String)
  | invalidValue (reason : String)
  | valueTooLarge (len max : Nat)
  | truncated (need got : Nat)
  | parseError (message : String)
  deriving DecidableEq

/-- What the codec takes from elsewhere: normalisation to NFC, which leaves ASCII
as it is, the JSON parser with its error, and the casts between `f64` and `f32`. -/
structure Externals where
  nfc : Utf8 → Utf8
  jsonError : Utf8 → Option String
  toF32 : Fin (2 ^ 64) → Fin (2 ^ 32)
  toF64 : Fin (2 ^ 32) → Fin (2 ^ 64)
  nfc_ascii : ∀ s, s.bytes.all (·.val < 128) = true → nfc s = s

/-- The tag of a type, as arrays and composites store it. -/
inductive ColumnType where
  | bool
  | int
  | bigInt
  | float
  | text
  | bytes
  | timestamp
  | uuid
  | json
  | jsonb
  | decimal
  | date
  | array
  | range
  | money
  | composite
  | ltree
  | xml
  | tinyInt
  | smallInt
  | float32
  | timestampTz
  deriving DecidableEq

def ColumnType.toByte : ColumnType → Byte
  | .bool => 1
  | .int => 2
  | .bigInt => 3
  | .float => 4
  | .text => 5
  | .bytes => 6
  | .timestamp => 7
  | .uuid => 8
  | .json => 9
  | .jsonb => 10
  | .decimal => 11
  | .date => 12
  | .array => 13
  | .range => 14
  | .money => 15
  | .composite => 16
  | .ltree => 17
  | .xml => 18
  | .tinyInt => 19
  | .smallInt => 20
  | .float32 => 21
  | .timestampTz => 22

def ColumnType.tryFrom (v : Byte) : Except CodecError ColumnType :=
  match v.val with
  | 1 => .ok .bool
  | 2 => .ok .int
  | 3 => .ok .bigInt
  | 4 => .ok .float
  | 5 => .ok .text
  | 6 => .ok .bytes
  | 7 => .ok .timestamp
  | 8 => .ok .uuid
  | 9 => .ok .json
  | 10 => .ok .jsonb
  | 11 => .ok .decimal
  | 12 => .ok .date
  | 13 => .ok .array
  | 14 => .ok .range
  | 15 => .ok .money
  | 16 => .ok .composite
  | 17 => .ok .ltree
  | 18 => .ok .xml
  | 19 => .ok .tinyInt
  | 20 => .ok .smallInt
  | 21 => .ok .float32
  | 22 => .ok .timestampTz
  | v => .error (.parseError ("unknown ColumnType discriminant: " ++ toString v))

def dataTypeToColumnType : DataType → ColumnType
  | .bool => .bool
  | .tinyInt => .tinyInt
  | .smallInt => .smallInt
  | .int => .int
  | .bigInt => .bigInt
  | .float => .float32
  | .real => .float
  | .text => .text
  | .bytes => .bytes
  | .timestamp => .timestamp
  | .uuid => .uuid
  | .json => .json
  | .jsonb => .jsonb
  | .decimal => .decimal
  | .date => .date
  | .array _ => .array
  | .range _ => .range
  | .money => .money
  | .composite _ => .composite
  | .ltree => .ltree
  | .xml => .xml
  | .timestampTz => .timestampTz

/-! ## Bytes of numbers -/

def MAX_INLINE_LEN : Nat := 0xFFFFFF
def TOAST_SENTINEL_RAW : Nat := 0xFFFFFE
def TOAST_SENTINEL_LZ4 : Nat := 0xFFFFFD

/-- `is_toast_sentinel` in `codec.rs`. -/
def isToastSentinel (len : Nat) : Bool := len == TOAST_SENTINEL_RAW || len == TOAST_SENTINEL_LZ4

/-- `to_le_bytes` of a signed number. -/
def leSigned {bits : Nat} (n : SInt bits) : Bytes := leBytes (bits / 8) (n.val % 2 ^ bits).toNat

/-- `write_u24` in `codec.rs`. -/
def writeU24 (n : Nat) : Bytes := leBytes 3 n

abbrev Decoder := Reader CodecError

/-- `ensure_bytes` and the slice after it. -/
def ensureBytes (n : Nat) : Decoder Bytes := takeBytes .truncated n

/-- `from_le_bytes` of a signed number. -/
def readSigned (bits : Nat) : Decoder (SInt bits) := do
  let b ← ensureBytes (bits / 8)
  pure (.wrap bits (ofLeBytes b))

def readUnsigned (k : Nat) : Decoder Nat := do
  let b ← ensureBytes k
  pure (ofLeBytes b)

/-- `read_u24` in `codec.rs`. -/
def readU24 : Decoder Nat := readUnsigned 3

def readByte : Decoder Byte := do
  let b ← ensureBytes 1
  pure (b.headD 0)

/-- `f32::from_le_bytes`, of the number that the bytes are: a float is its bits. -/
def f32OfBits (n : Nat) : Fin (2 ^ 32) := Fin.ofNat (2 ^ 32) n

/-- `f64::from_le_bytes` -/
def f64OfBits (n : Nat) : Fin (2 ^ 64) := Fin.ofNat (2 ^ 64) n

def readF32 : Decoder (Fin (2 ^ 32)) := do
  let n ← readUnsigned 4
  pure (f32OfBits n)

def readF64 : Decoder (Fin (2 ^ 64)) := do
  let n ← readUnsigned 8
  pure (f64OfBits n)

/-- A byte array of a fixed length. -/
def readExact (n : Nat) : Decoder {b : Bytes // b.length = n} := do
  let b ← ensureBytes n
  if h : b.length = n then pure ⟨b, h⟩ else throw (.truncated n b.length)

/-- `str::from_utf8` of the next `len` bytes; `what` names the column in the error. -/
def readUtf8 (what : String) (len : Nat) : Decoder Utf8 := do
  let b ← ensureBytes len
  if h : isUtf8 b = true then pure ⟨b, h⟩ else throw (.parseError ("invalid UTF-8 in " ++ what))

/-! ## The bitmap of NULLs -/

/-- `bitmap_len` in `codec.rs`. -/
def bitmapLen (nCols : Nat) : Nat := (nCols + 7) / 8

/-- `is_null_bit` in `batch.rs`. -/
def isNullBit (bitmap : Bytes) (col : Nat) : Bool := (bitmap.getD (col / 8) 0).val.testBit (col % 8)

/-- `set_null_bit` in `codec.rs`. -/
def setNullBit (bitmap : Bytes) (col : Nat) : Bytes :=
  bitmap.modify (col / 8) fun b => byteOf (b.val ||| 2 ^ (col % 8))

/-- The loop that marks the NULL columns, from column `i` on. -/
def setNullBits : List Value → Nat → Bytes → Bytes
  | [], _, bitmap => bitmap
  | v :: vs, i, bitmap => setNullBits vs (i + 1) (if v.isNull then setNullBit bitmap i else bitmap)

def nullBitmap (values : List Value) : Bytes :=
  setNullBits values 0 (List.replicate (bitmapLen values.length) 0)

/-! ## Arrays -/

def MAX_ARRAY_INLINE : Nat := 0xFFFFFF

def i32InRange (n : Int) : Bool := -2 ^ 31 ≤ n && n < 2 ^ 31

/-- A blob behind its length in three bytes, if it is not too long for that. -/
def lengthPrefixed (max : Nat) (b : Bytes) : Except CodecError Bytes :=
  if b.length > max then .error (.valueTooLarge b.length max) else .ok (writeU24 b.length ++ b)

section

variable (x : Externals)

def encodeElement (elem : Value) (elemType : ColumnType) : Except CodecError Bytes :=
  match elemType with
  | .bool => match elem with
    | .bool b => .ok [if b then 1 else 0]
    | .null => .ok [0]
    | _ => .error (.typeMismatch "BOOL" elem.variantName)
  | .tinyInt | .smallInt | .int | .date => match elem with
    | .int n => .ok (leSigned n)
    | .date d => .ok (leSigned d)
    | .bigInt n =>
      if i32InRange n.val then .ok (leSigned (SInt.wrap 32 n.val))
      else .error (.typeMismatch "INT" "BIGINT out of range")
    | .null => .ok (List.replicate 4 0)
    | _ => .error (.typeMismatch "INT" elem.variantName)
  | .float32 => match elem with
    | .real f =>
      if isNan f.val then .error (.invalidValue "NaN is not a valid SQL real value")
      else .ok (leBytes 4 (x.toF32 f).val)
    | .null => .ok (List.replicate 4 0)
    | _ => .error (.typeMismatch "REAL" elem.variantName)
  | .bigInt | .float | .timestamp | .timestampTz => match elem with
    | .bigInt n => .ok (leSigned n)
    | .real f =>
      if isNan f.val then .error (.invalidValue "NaN is not a valid SQL real value")
      else .ok (leBytes 8 f.val)
    | .timestamp t => .ok (leSigned t)
    | .timestampTz t => .ok (leSigned t)
    | .null => .ok (List.replicate 8 0)
    | _ => .error (.typeMismatch "BIGINT/REAL/TIMESTAMP/TIMESTAMPTZ" elem.variantName)
  | .decimal => match elem with
    | .decimal m s => .ok (leSigned m ++ [s])
    | .null => .ok (List.replicate 17 0)
    | _ => .error (.typeMismatch "DECIMAL" elem.variantName)
  | .uuid => match elem with
    | .uuid u => .ok u.val
    | .null => .ok (List.replicate 16 0)
    | _ => .error (.typeMismatch "UUID" elem.variantName)
  | .text | .json => match elem with
    | .text s => lengthPrefixed MAX_ARRAY_INLINE (x.nfc s).bytes
    | .json s => lengthPrefixed MAX_ARRAY_INLINE (x.nfc s).bytes
    | .null => .ok (List.replicate 3 0)
    | _ => .error (.typeMismatch "TEXT" elem.variantName)
  | .bytes => match elem with
    | .bytes b => lengthPrefixed MAX_ARRAY_INLINE b
    | .null => .ok (List.replicate 3 0)
    | _ => .error (.typeMismatch "BYTES" elem.variantName)
  | .jsonb => match elem with
    | .jsonb blob => lengthPrefixed MAX_ARRAY_INLINE blob
    | .null => .ok (List.replicate 3 0)
    | _ => .error (.typeMismatch "JSONB" elem.variantName)
  | .array =>
    .error (.invalidValue "Array element type cannot itself be an array in this implementation")
  | .range => .error (.invalidValue "Range type cannot be used as an array element type")
  | .money => .error (.invalidValue "Money type cannot be used as an array element type")
  | .composite => .error (.invalidValue "Composite type cannot be used as an array element type")
  | .ltree => .error (.invalidValue "Ltree type cannot be used as an array element type")
  | .xml => .error (.invalidValue "Xml type cannot be used as an array element type")

def decodeElement (elemType : ColumnType) : Decoder Value :=
  match elemType with
  | .bool => do
    let b ← readByte
    pure (.bool (b != 0))
  | .tinyInt | .smallInt | .int => do
    let n ← readSigned 32
    pure (.int n)
  | .date => do
    let n ← readSigned 32
    pure (.date n)
  | .float32 => do
    let f ← readF32
    pure (.real (x.toF64 f))
  | .float => do
    let f ← readF64
    pure (.real f)
  | .timestamp => do
    let v ← readSigned 64
    pure (.timestamp v)
  | .timestampTz => do
    let v ← readSigned 64
    pure (.timestampTz v)
  | .bigInt => do
    let v ← readSigned 64
    pure (.bigInt v)
  | .decimal => do
    let m ← readSigned 128
    let s ← readByte
    pure (.decimal m s)
  | .uuid => do
    let u ← readExact 16
    pure (.uuid u)
  | .text => do
    let len ← readU24
    let s ← readUtf8 "Text/Json array element" len
    pure (.text s)
  | .json => do
    let len ← readU24
    let s ← readUtf8 "Text/Json array element" len
    pure (.json s)
  | .bytes => do
    let len ← readU24
    let b ← ensureBytes len
    pure (.bytes b)
  | .jsonb => do
    let len ← readU24
    let b ← ensureBytes len
    pure (.jsonb b)
  | .array => throw (.parseError "Array element type not supported as leaf element")
  | .range => throw (.parseError "Range element type not supported as array element")
  | .money => throw (.parseError "Money element type not supported as array element")
  | .composite => throw (.parseError "Composite element type not supported as array element")
  | .ltree => throw (.parseError "Ltree element type not supported as array element")
  | .xml => throw (.parseError "Xml element type not supported as array element")

/-- The loop over the elements: NULLs take no bytes. -/
def encodeElements (x : Externals) (elemType : ColumnType) : List Value → Except CodecError Bytes
  | [] => .ok []
  | e :: es => do
    let b ← (if e.isNull then .ok [] else encodeElement x e elemType)
    let bs ← encodeElements x elemType es
    .ok (b ++ bs)

/-- The end of `encode_array_nd`: the blob of one dimension. `bitmap` is empty if no
element is NULL. -/
def assembleArray (elemType : ColumnType) (dim : SInt 32) (hasNulls : Bool) (bitmap elemBuf : Bytes) :
    Except CodecError Bytes :=
  let headerSize := 21
  let dataoffset := if hasNulls then headerSize + bitmap.length else 0
  let totalLen := (headerSize + bitmap.length + elemBuf.length) % 2 ^ 32  -- `as u32`
  if totalLen > MAX_ARRAY_INLINE then .error (.valueTooLarge totalLen MAX_ARRAY_INLINE)
  else
    let buf := leBytes 4 totalLen ++ (leBytes 4 1 ++ (leBytes 4 dataoffset ++ ([elemType.toByte] ++
      (leSigned dim ++ (leBytes 4 1 ++ (bitmap ++ elemBuf))))))
    if buf.length ≠ totalLen then
      .error (.invalidValue "internal error: array encoding produced another length")
    else .ok buf

/-- `encode_array`: the blob of one dimension, or of none for an empty array. -/
def encodeArray (elems : List Value) (elemType : ColumnType) : Except CodecError Bytes :=
  if elems.isEmpty then .ok (leBytes 4 9 ++ leBytes 4 0 ++ leBytes 4 0 ++ [elemType.toByte])
  else
    let dim := SInt.wrap 32 elems.length  -- `as i32`
    if dim.val < 0 then
      .error (.invalidValue ("array dimension cannot be negative: " ++ toString dim.val))
    else if elems.length ≠ dim.val.toNat then
      .error (.invalidValue "array element count does not match dimensions")
    else do
      let elemBuf ← encodeElements x elemType elems
      let hasNulls := elems.any Value.isNull
      assembleArray elemType dim hasNulls (if hasNulls then nullBitmap elems else []) elemBuf

/-- The loop over `nitems` elements, from element `i` on. -/
def decodeElements (x : Externals) (elemType : ColumnType) (isNull : Nat → Bool) :
    Nat → Nat → Decoder (List Value)
  | 0, _ => pure []
  | n + 1, i => do
    let v ← (if isNull i then pure .null else decodeElement x elemType)
    let vs ← decodeElements x elemType isNull n (i + 1)
    pure (v :: vs)

/-- The product of the dimensions, if none is negative and no product too large. -/
def computeNitems (dims : List (SInt 32)) : Except CodecError Nat :=
  if dims.isEmpty then .ok 0
  else dims.foldlM (fun product d =>
    if d.val < 0 then
      .error (.invalidValue ("array dimension cannot be negative: " ++ toString d.val))
    else if product * d.val.toNat > 2 ^ 31 - 1 then
      .error (.invalidValue "array size exceeds maximum allowed")
    else .ok (product * d.val.toNat)) 1

def readDims : Nat → Decoder (List (SInt 32))
  | 0 => pure []
  | n + 1 => do
    let d ← readSigned 32
    let ds ← readDims n
    pure (d :: ds)

/-- `decode_array` behind the dimensions: the bitmap of NULLs if there is one, and the
element data, which starts at `dataoffset` if that is not 0. -/
def decodeArrayElements (blob : Bytes) (elemType : ColumnType) (dataoffset : SInt 32)
    (headerSize nitems : Nat) : Except CodecError Value :=
  if dataoffset.val ≠ 0 ∧ blob.length < headerSize + bitmapLen nitems then
    .error (.parseError "truncated: null bitmap extends beyond blob")
  else
    let bitmap := (blob.drop headerSize).take (bitmapLen nitems)
    let isNull := fun i => dataoffset.val ≠ 0 && isNullBit bitmap i
    -- a negative offset becomes a huge `usize`, past the end of the blob
    let elemStart := if dataoffset.val = 0 then headerSize
      else if dataoffset.val < 0 then blob.length else dataoffset.val.toNat
    do
      let (values, _) ← (decodeElements x elemType isNull nitems 0).run (blob.drop elemStart)
      .ok (.array values)

def decodeArray (blob : Bytes) : Except CodecError Value :=
  if blob.length < 13 then .error (.parseError "truncated: array blob too short")
  else if blob.length < ofLeBytes (blob.take 4) then
    .error (.truncated (ofLeBytes (blob.take 4)) blob.length)
  else
    let ndim := SInt.wrap 32 (ofLeBytes ((blob.drop 4).take 4))
    let dataoffset := SInt.wrap 32 (ofLeBytes ((blob.drop 8).take 4))
    let headerSize := 13 + ndim.val.toNat * 8
    do
      let elemType ← ColumnType.tryFrom ((blob.drop 12).headD 0)
      if ndim.val < 0 ∨ 6 < ndim.val then
        .error (.invalidValue "number of array dimensions exceeds the maximum allowed")
      else if ndim.val = 0 then .ok (.array [])
      else if blob.length < headerSize then .error (.parseError "truncated: array blob header")
      else
        let (dims, _) ← (readDims ndim.val.toNat).run (blob.drop 13)
        let nitems ← computeNitems dims
        decodeArrayElements x blob elemType dataoffset headerSize nitems

/-! ## Ranges -/

/-- `encode_bound` in `codec.rs`. -/
def encodeBound (val : Value) (elemDt : DataType) : Except CodecError Bytes :=
  match val, elemDt with
  | .int n, .int => .ok (leSigned n)
  | .date d, .date => .ok (leSigned d)
  | .bigInt n, .bigInt => .ok (leSigned n)
  | .timestamp t, .timestamp => .ok (leSigned t)
  | .decimal m s, .decimal => .ok (leSigned m ++ [s])
  | val, elemDt => .error (.typeMismatch elemDt.name val.variantName)

/-- `decode_bound` in `codec.rs`. -/
def decodeBound (elemDt : DataType) : Decoder Value :=
  match elemDt with
  | .int => do
    let v ← readSigned 32
    pure (.int v)
  | .date => do
    let v ← readSigned 32
    pure (.date v)
  | .bigInt => do
    let v ← readSigned 64
    pure (.bigInt v)
  | .timestamp => do
    let v ← readSigned 64
    pure (.timestamp v)
  | .decimal => do
    let m ← readSigned 128
    let s ← readByte
    pure (.decimal m s)
  | elemDt => throw (.parseError ("unsupported range element type: " ++ elemDt.name))

/-- A bound that may be missing. -/
def encodeBound? (bound : Option Value) (elemDt : DataType) : Except CodecError Bytes :=
  match bound with
  | none => .ok []
  | some val => encodeBound val elemDt

/-- `RANGE_LOWER_BOUNDED`, `RANGE_UPPER_BOUNDED`, `RANGE_LOWER_INC` and
`RANGE_UPPER_INC`, of a range that is not empty. -/
def rangeFlags (rv : RangeValue Value) : Nat :=
  (if rv.lower.isSome then 2 else 0) + (if rv.upper.isSome then 4 else 0) +
    (if rv.lowerInc then 8 else 0) + (if rv.upperInc then 16 else 0)

/-- `encode_range_payload` in `codec.rs`. -/
def encodeRangePayload (rv : RangeValue Value) (elemDt : DataType) : Except CodecError Bytes :=
  if rv.isEmpty then .ok [1]
  else do
    let lower ← encodeBound? rv.lower elemDt
    let upper ← encodeBound? rv.upper elemDt
    .ok (byteOf (rangeFlags rv) :: lower ++ upper)

def decodeBound? (present : Bool) (elemDt : DataType) : Decoder (Option Value) :=
  if present then do
    let v ← decodeBound elemDt
    pure (some v)
  else pure none

def readRange (elemDt : DataType) : Decoder (RangeValue Value) := do
  let flags ← readByte
  if flags.val.testBit 0 then pure .empty
  else
    let lower ← decodeBound? (flags.val.testBit 1) elemDt
    let upper ← decodeBound? (flags.val.testBit 2) elemDt
    pure ⟨lower, upper, flags.val.testBit 3, flags.val.testBit 4, false⟩

/-- `decode_range_payload` in `codec.rs`. -/
def decodeRangePayload (bytes : Bytes) (elemDt : DataType) : Except CodecError (RangeValue Value) :=
  if bytes.isEmpty then .error (.parseError "empty range payload")
  else do
    let (rv, _) ← (readRange elemDt).run bytes
    .ok rv

/-! ## Composites -/

/-- `value_to_col_type` in `codec.rs`. -/
def valueToColType : Value → ColumnType
  | .bool _ => .bool
  | .int _ => .int
  | .bigInt _ => .bigInt
  | .real _ => .float
  | .decimal _ _ => .decimal
  | .text _ => .text
  | .json _ => .json
  | .jsonb _ => .jsonb
  | .bytes _ => .bytes
  | .date _ => .date
  | .timestamp _ => .timestamp
  | .timestampTz _ => .timestampTz
  | .uuid _ => .uuid
  | .array _ => .array
  | .range _ => .range
  | .money _ _ _ => .money
  | .ltree _ => .ltree
  | .xml _ => .xml
  | .composite _ | .null => .int

/-- `col_type_to_data_type` in `codec.rs`. -/
def colTypeToDataType : ColumnType → DataType
  | .bool => .bool
  | .tinyInt => .tinyInt
  | .smallInt => .smallInt
  | .int => .int
  | .bigInt => .bigInt
  | .float => .real
  | .float32 => .float
  | .decimal => .decimal
  | .text => .text
  | .json => .json
  | .jsonb => .jsonb
  | .bytes => .bytes
  | .date => .date
  | .timestamp => .timestamp
  | .timestampTz => .timestampTz
  | .uuid => .uuid
  | .array => .array .int
  | .range => .range .int
  | .money => .money
  | .composite => .composite []
  | .ltree => .ltree
  | .xml => .xml

/-- The type a field of a composite is stored with. -/
def fieldType (f : Value) : DataType := colTypeToDataType (valueToColType f)

/-! ## Rows -/

/-- `validate_type` in `codec.rs`. -/
def validateType (value : Value) (dt : DataType) : Except CodecError Unit :=
  match value, dt with
  | .bool _, .bool => .ok ()
  | .int _, .tinyInt => .ok ()
  | .int _, .smallInt => .ok ()
  | .int _, .int => .ok ()
  | .bigInt _, .bigInt => .ok ()
  | .real _, .float => .ok ()
  | .real _, .real => .ok ()
  | .decimal _ _, .decimal => .ok ()
  | .text _, .text => .ok ()
  | .json _, .json => .ok ()
  | .jsonb _, .jsonb => .ok ()
  | .bytes _, .bytes => .ok ()
  | .date _, .date => .ok ()
  | .timestamp _, .timestamp => .ok ()
  | .timestampTz _, .timestampTz => .ok ()
  | .uuid _, .uuid => .ok ()
  | .array _, .array _ => .ok ()
  | .range _, .range _ => .ok ()
  | .money _ _ _, .money => .ok ()
  | .composite _, .composite _ => .ok ()
  | .ltree _, .ltree => .ok ()
  | .xml _, .xml => .ok ()
  | value, dt => .error (.typeMismatch dt.name value.variantName)

/-- The second phase: every value that is not NULL has the type of its column. -/
def validateTypes : List Value → List DataType → Except CodecError Unit
  | v :: vs, dt :: dts => do
    (if v.isNull then .ok () else validateType v dt)
    validateTypes vs dts
  | _, _ => .ok ()

/-- The NFC form of a text, taken as it is if it is ASCII. -/
def normalized (s : Utf8) : Utf8 :=
  if s.bytes.all (·.val < 128) then s else x.nfc s

end

section Encode

-- the encoding of a composite's fields is `encode_row` again
variable (x : Externals) (encodeComposite : List Value → Except CodecError Bytes)

/-- One value of the third phase. -/
def encodeValue (v : Value) (dt : DataType) : Except CodecError Bytes :=
  match v with
  | .bool b => .ok [if b then 1 else 0]
  | .int n => .ok (leSigned n)
  | .bigInt n => .ok (leSigned n)
  | .real f =>
    if isNan f.val then .error (.invalidValue "NaN is not a valid SQL real value")
    else match dt with
      | .float => .ok (leBytes 4 (x.toF32 f).val)
      | _ => .ok (leBytes 8 f.val)
  | .decimal m s => .ok (leSigned m ++ [s])
  | .text s => lengthPrefixed MAX_INLINE_LEN (normalized x s).bytes
  | .bytes b => lengthPrefixed MAX_INLINE_LEN b
  | .json s => match x.jsonError (normalized x s) with
    | some e => .error (.invalidValue ("invalid JSON: " ++ e))
    | none => lengthPrefixed MAX_INLINE_LEN (normalized x s).bytes
  | .jsonb blob => lengthPrefixed MAX_INLINE_LEN blob
  | .date d => .ok (leSigned d)
  | .timestamp t | .timestampTz t => .ok (leSigned t)
  | .uuid u => .ok u.val
  | .array elems => match dt with
    | .array elemDt => do
      let blob ← encodeArray x elems (dataTypeToColumnType elemDt)
      .ok (writeU24 blob.length ++ blob)
    | dt => .error (.typeMismatch "Array" dt.name)
  | .range rv => match dt with
    | .range elemDt => do
      let payload ← encodeRangePayload rv elemDt
      .ok (writeU24 payload.length ++ payload)
    | dt => .error (.typeMismatch "Range" dt.name)
  | .money m s c => .ok (leSigned m ++ [s] ++ c.val)
  | .composite fields => do
    let inner ← encodeComposite fields
    .ok (leBytes 4 inner.length ++ inner)  -- `as u32`
  | .ltree s | .xml s => .ok (leBytes 4 s.bytes.length ++ s.bytes)  -- `as u32`
  | .null => .ok []

/-- The loop of the third phase, from column `i` on. -/
def encodeValues (bitmap : Bytes) : Nat → List Value → List DataType → Except CodecError Bytes
  | i, v :: vs, dt :: dts => do
    let b ← (if isNullBit bitmap i then .ok [] else encodeValue x encodeComposite v dt)
    let bs ← encodeValues bitmap (i + 1) vs dts
    .ok (b ++ bs)
  | _, _, _ => .ok []

def encodeRowWith (values : List Value) (schema : List DataType) : Except CodecError Bytes :=
  if values.length ≠ schema.length then
    .error (.typeMismatch (toString schema.length ++ " columns") (toString values.length ++ " values"))
  else do
    validateTypes values schema
    let body ← encodeValues x encodeComposite (nullBitmap values) 0 values schema
    .ok (nullBitmap values ++ body)

end Encode

/-- A composite: the number of its fields as a byte, their tags, and their row. -/
def encodeCompositeWith (encodeRow : List Value → List DataType → Except CodecError Bytes)
    (fields : List Value) : Except CodecError Bytes := do
  let fieldBytes ← encodeRow fields (fields.map fieldType)
  .ok (byteOf fields.length :: fields.map (fun f => (valueToColType f).toByte) ++ fieldBytes)

/-- `encode_row`, with composites nested at most `depth` deep. -/
def encodeRowDepth (x : Externals) : Nat → List Value → List DataType → Except CodecError Bytes
  | 0 => encodeRowWith x fun _ => .error (.invalidValue "composites nested too deep")
  | depth + 1 => encodeRowWith x (encodeCompositeWith (encodeRowDepth x depth))

/-- `encode_row`. The tag of a composite in a composite is the one of an integer,
so that a second level is refused and one is enough (`encodeRowDepth_succ`). -/
def encodeRow (x : Externals) : List Value → List DataType → Except CodecError Bytes :=
  encodeRowDepth x 1

section Decode

/-- The bytes of a text of ASCII characters. -/
def asciiBytes (s : String) : Bytes := s.toList.map fun c => byteOf (c.toNat % 128)

theorem isUtf8_ascii (cs : List Char) : isUtf8 (cs.map fun c => byteOf (c.toNat % 128)) := by
  induction cs with
  | nil => rfl
  | cons c cs ih =>
    have hlt : (byteOf (c.toNat % 128)).val < 0x80 := by
      show c.toNat % 128 % 256 < 0x80
      omega
    rw [List.map_cons, isUtf8.eq_def]
    simp only [hlt, if_true, ih]

/-- The text that stands for a value stored elsewhere. -/
def toastPlaceholder (pageId : Nat) (lz4 : Bool) (rawLen : Nat) : Utf8 where
  bytes := asciiBytes ("__toast__:" ++ toString pageId ++ ":" ++ toString lz4 ++ ":" ++ toString rawLen)
  valid := isUtf8_ascii _

/-- `decode_toast_pointer`, and the placeholder for it. -/
def readToastPointer (len : Nat) : Decoder Utf8 := do
  let pageId ← readUnsigned 8
  let rawLen ← readUnsigned 4
  pure (toastPlaceholder pageId (len == TOAST_SENTINEL_LZ4) rawLen)

variable (x : Externals) (decodeComposite : Bytes → Except CodecError Value)

/-- One value, of the type of its column. -/
def decodeValue (dt : DataType) : Decoder Value :=
  match dt with
  | .bool => do
    let b ← readByte
    pure (.bool (b != 0))
  | .tinyInt | .smallInt | .int => do
    let v ← readSigned 32
    pure (.int v)
  | .float => do
    let v ← readF32
    pure (.real (x.toF64 v))
  | .bigInt => do
    let v ← readSigned 64
    pure (.bigInt v)
  | .real => do
    let v ← readF64
    pure (.real v)
  | .decimal => do
    let m ← readSigned 128
    let s ← readByte
    pure (.decimal m s)
  | .text => do
    let len ← readU24
    if isToastSentinel len then do
      let s ← readToastPointer len
      pure (.text s)
    else do
      let s ← readUtf8 "Text column" len
      pure (.text s)
  | .bytes => do
    let len ← readU24
    if isToastSentinel len then do
      let s ← readToastPointer len
      pure (.bytes s.bytes)
    else do
      let b ← ensureBytes len
      pure (.bytes b)
  | .json => do
    let len ← readU24
    if isToastSentinel len then do
      let s ← readToastPointer len
      pure (.json s)
    else do
      let s ← readUtf8 "JSON column" len
      pure (.json s)
  | .jsonb => do
    let len ← readU24
    if isToastSentinel len then do
      let s ← readToastPointer len
      pure (.json s)
    else do
      let b ← ensureBytes len
      pure (.jsonb b)
  | .date => do
    let v ← readSigned 32
    pure (.date v)
  | .timestamp => do
    let v ← readSigned 64
    pure (.timestamp v)
  | .timestampTz => do
    let v ← readSigned 64
    pure (.timestampTz v)
  | .uuid => do
    let u ← readExact 16
    pure (.uuid u)
  | .array _ => do
    let len ← readU24
    if isToastSentinel len then do
      let _ ← readToastPointer len
      pure (.array [])
    else do
      let blob ← ensureBytes len
      StateT.lift (decodeArray x blob)
  | .range elemDt => do
    let len ← readU24
    let blob ← ensureBytes len
    let rv ← StateT.lift (decodeRangePayload blob elemDt)
    pure (.range rv)
  | .money => do
    let m ← readSigned 128
    let s ← readByte
    let c ← readExact 3
    pure (.money m s c)
  | .composite _ => do
    let dataLen ← readUnsigned 4
    let inner ← ensureBytes dataLen
    StateT.lift (decodeComposite inner)
  | .ltree => do
    let dataLen ← readUnsigned 4
    let s ← readUtf8 "Ltree column" dataLen
    pure (.ltree s)
  | .xml => do
    let dataLen ← readUnsigned 4
    let s ← readUtf8 "Xml column" dataLen
    pure (.xml s)

/-- The loop over the columns, from column `i` on. -/
def decodeValues (bitmap : Bytes) : Nat → List DataType → Decoder (List Value)
  | _, [] => pure []
  | i, dt :: dts => do
    let v ← (if isNullBit bitmap i then pure .null else decodeValue x decodeComposite dt)
    let vs ← decodeValues bitmap (i + 1) dts
    pure (v :: vs)

def decodeRowWith (bytes : Bytes) (schema : List DataType) : Except CodecError (List Value) := do
  let (bitmap, rest) ← (ensureBytes (bitmapLen schema.length)).run bytes
  let (values, _) ← (decodeValues x decodeComposite bitmap 0 schema).run rest
  .ok values

end Decode

/-- The types that the tags of a composite stand for. -/
def decodeTags : Bytes → Except CodecError (List DataType)
  | [] => .ok []
  | tag :: tags => do
    let ct ← ColumnType.tryFrom tag
    let dts ← decodeTags tags
    .ok (colTypeToDataType ct :: dts)

/-- `decode_composite_inner` in `codec.rs`. -/
def decodeCompositeInnerWith (decodeRow : Bytes → List DataType → Except CodecError (List Value))
    (inner : Bytes) : Except CodecError Value :=
  match inner with
  | [] => .ok (.composite [])
  | n :: rest =>
    if rest.length < n.val then .error (.parseError "truncated composite: field type tags missing")
    else do
      let innerSchema ← decodeTags (rest.take n.val)
      let innerValues ← decodeRow (rest.drop n.val) innerSchema
      .ok (.composite innerValues)

/-- `decode_row`, with composites nested at most `depth` deep. -/
def decodeRowDepth (x : Externals) : Nat → Bytes → List DataType → Except CodecError (List Value)
  | 0 => decodeRowWith x fun _ => .error (.parseError "composites nested too deep")
  | depth + 1 => decodeRowWith x (decodeCompositeInnerWith (decodeRowDepth x depth))

/-- `decode_row`: the bytes of a composite in a row are fewer than those of the row. -/
def decodeRow (x : Externals) (bytes : Bytes) (schema : List DataType) :
    Except CodecError (List Value) :=
  decodeRowDepth x (bytes.length + 1) bytes schema

end AxiomDb.Row
