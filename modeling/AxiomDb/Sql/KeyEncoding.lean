import AxiomDb.Core
import AxiomDb.Lib.ByteOrder

/-!
# Index keys

`encode_index_key` writes a list of values as one byte string, each value as a
type tag and a payload, and `decode_index_key` reads it back. Signed numbers are
written with their sign bit flipped: as an unsigned number, the XOR of a signed
number with the least one is the number plus half of the range.
-/

namespace AxiomDb.Sql

open Lib

/-! ## Values -/

/-- Signed numbers of a width. -/
structure SInt (bits : Nat) where
  val : Int
  lower : -2 ^ (bits - 1) ≤ val
  upper : val < 2 ^ (bits - 1)
  deriving DecidableEq

/-- The signed number of a width that is `n` modulo `2 ^ bits`, as a cast keeps it. -/
def SInt.wrap (bits : Nat) (n : Int) : SInt bits where
  val := (n + 2 ^ (bits - 1)) % 2 ^ bits - 2 ^ (bits - 1)
  lower := by
    have := Int.emod_nonneg (n + 2 ^ (bits - 1)) (show (2 : Int) ^ bits ≠ 0 by positivity)
    omega
  upper := by
    have := Int.emod_lt_of_pos (n + 2 ^ (bits - 1)) (show (0 : Int) < 2 ^ bits by positivity)
    have : (2 : Int) ^ bits ≤ 2 * 2 ^ (bits - 1) := by
      rw [← pow_succ']
      exact pow_le_pow_right₀ (by norm_num) (by omega)
    omega

/-- A continuation byte of UTF-8. -/
def isCont (b : Byte) : Bool := 0x80 ≤ b.val && b.val ≤ 0xBF

/-- Well-formed UTF-8: no overlong forms, no surrogates, nothing above U+10FFFF. -/
def isUtf8 : Bytes → Bool
  | [] => true
  | b₀ :: rest =>
    if b₀.val < 0x80 then isUtf8 rest
    else match rest with
      | [] => false
      | b₁ :: rest =>
        if 0xC2 ≤ b₀.val ∧ b₀.val ≤ 0xDF then isCont b₁ && isUtf8 rest
        else match rest with
          | [] => false
          | b₂ :: rest =>
            if 0xE0 ≤ b₀.val ∧ b₀.val ≤ 0xEF then
              isCont b₁ && isCont b₂ && (b₀.val != 0xE0 || 0xA0 ≤ b₁.val) &&
                (b₀.val != 0xED || b₁.val ≤ 0x9F) && isUtf8 rest
            else match rest with
              | [] => false
              | b₃ :: rest =>
                decide (0xF0 ≤ b₀.val ∧ b₀.val ≤ 0xF4) && isCont b₁ && isCont b₂ && isCont b₃ &&
                  (b₀.val != 0xF0 || 0x90 ≤ b₁.val) && (b₀.val != 0xF4 || b₁.val ≤ 0x8F) && isUtf8 rest

/-- A `String`. -/
structure Utf8 where
  bytes : Bytes
  valid : isUtf8 bytes = true
  deriving DecidableEq

/-- SQL values. A float is its bits, a JSONB value its canonical text; of the
values that are no keys, and of arrays, the contents are left out. -/
inductive Value where
  | null
  | bool (b : Bool)
  | int (n : SInt 32)
  | bigInt (n : SInt 64)
  | real (bits : Fin (2 ^ 64))
  | decimal (mantissa : SInt 128) (scale : Byte)
  | date (days : SInt 32)
  | timestamp (micros : SInt 64)
  | timestampTz (micros : SInt 64)
  | text (s : Utf8)
  | json (s : Utf8)
  | jsonb (text : Utf8)
  | bytes (b : Bytes)
  | uuid (u : {b : Bytes // b.length = 16})
  | array
  | range
  | money
  | composite
  | ltree (s : Utf8)
  | xml (s : Utf8)
  deriving DecidableEq

inductive KeyError where
  | indexKeyTooLong (keyLen max : Nat)
  | invalidValue (reason : String)
  | bTreeCorrupted (msg : String)
  | parseError (message : String)
  deriving DecidableEq

/-! ## Encoding -/

def MAX_INDEX_KEY : Nat := 768

/-- `(n ^ MIN) as u64`, or `u128`. -/
def signFlip (bits : Nat) (n : Int) : Nat := (n + 2 ^ (bits - 1)).toNat

def isNan (bits : Nat) : Bool := bits / 2 ^ 52 % 2 ^ 11 == 2047 && bits % 2 ^ 52 != 0

/-- `f >= 0.0`, for a number: the sign is not set, or it is negative zero. -/
def isNonneg (bits : Nat) : Bool := bits < 2 ^ 63 || bits == 2 ^ 63

/-- `encode_f64` in `key_encoding.rs`. -/
def encodeF64 (bits : Nat) : Bytes :=
  if isNan bits then List.replicate 8 0
  else beBytes 8 (if isNonneg bits then (if bits < 2 ^ 63 then bits + 2 ^ 63 else bits)
    else 2 ^ 64 - 1 - bits)

/-- `encode_bytes_nul` in `key_encoding.rs`. -/
def encodeBytesNul : Bytes → Bytes
  | [] => [0]
  | b :: bs => if b = 0 then 0xFF :: 0 :: encodeBytesNul bs else b :: encodeBytesNul bs

/-- `encode_value` in `key_encoding.rs`. -/
def encodeValue : Value → Except KeyError Bytes
  | .null => .ok [0x00]
  | .bool b => .ok [0x01, if b then 1 else 0]
  | .int n => .ok (0x02 :: beBytes 8 (signFlip 64 n.val))
  | .bigInt n => .ok (0x03 :: beBytes 8 (signFlip 64 n.val))
  | .real bits => .ok (0x04 :: encodeF64 bits)
  | .decimal mantissa scale => .ok (0x05 :: scale :: beBytes 16 (signFlip 128 mantissa.val))
  | .date days => .ok (0x06 :: beBytes 8 (signFlip 64 days.val))
  | .timestamp micros | .timestampTz micros => .ok (0x07 :: beBytes 8 (signFlip 64 micros.val))
  | .text s | .json s => .ok (0x08 :: encodeBytesNul s.bytes)
  | .jsonb text => .ok (0x0C :: encodeBytesNul text.bytes)
  | .bytes b => .ok (0x09 :: encodeBytesNul b)
  | .uuid u => .ok (0x0A :: u.val)
  | .array => .ok [0x0D]
  | .range => .error (.invalidValue "Range values cannot be used as index keys")
  | .money => .error (.invalidValue "Money values cannot be used as index keys")
  | .composite => .error (.invalidValue "Composite values cannot be used as index keys")
  | .ltree s => .ok (0x11 :: encodeBytesNul s.bytes)
  | .xml s => .ok (0x12 :: encodeBytesNul s.bytes)

/-- The loop over the values. -/
def encodeValues : List Value → Except KeyError Bytes
  | [] => .ok []
  | v :: vs => do
    let b ← encodeValue v
    let bs ← encodeValues vs
    .ok (b ++ bs)

/-- `encode_index_key` in `key_encoding.rs`. -/
def encodeIndexKey (values : List Value) : Except KeyError Bytes := do
  let buf ← encodeValues values
  if buf.length > MAX_INDEX_KEY then .error (.indexKeyTooLong buf.length MAX_INDEX_KEY)
  else .ok buf

/-! ## Decoding -/

/-- `trunc` in `key_encoding.rs`. -/
def trunc : KeyError := .bTreeCorrupted "decode_index_key: key bytes truncated"

/-- Two hexadecimal digits, the format `02x`. -/
def hexByte (b : Nat) : String := String.ofList [Nat.digitChar (b / 16), Nat.digitChar (b % 16)]

/-- The decoded bytes, and how many were read including the terminator. -/
def decodeBytesNul : Bytes → Except KeyError (Bytes × Nat)
  | [] => .error (.parseError "decode_index_key: unterminated bytes value")
  | 0xFF :: 0x00 :: src => do
    let (out, n) ← decodeBytesNul src
    .ok (0x00 :: out, n + 2)
  | b :: src =>
    if b = 0x00 then .ok ([], 1)
    else do
      let (out, n) ← decodeBytesNul src
      .ok (b :: out, n + 1)

/-- The next `n` bytes, if there are so many. -/
def payload (n : Nat) (src : Bytes) : Except KeyError Bytes :=
  if src.length < n then .error trunc else .ok (src.take n)

/-- `u as i64`, after the sign bit is flipped back. -/
def signUnflip (bits : Nat) (u : Nat) : Int := (u : Int) - 2 ^ (bits - 1)

/-- `decode_f64` in `key_encoding.rs`. -/
def decodeF64 (bytes : Bytes) : Fin (2 ^ 64) :=
  let u := ofBeBytes bytes
  ⟨(if u ≥ 2 ^ 63 then u - 2 ^ 63 else 2 ^ 64 - 1 - u) % 2 ^ 64, Nat.mod_lt _ (by decide)⟩

def decodeText (raw : Bytes) : Except KeyError Value :=
  if h : isUtf8 raw = true then .ok (.text ⟨raw, h⟩)
  else .error (.parseError "decode_index_key: invalid UTF-8 in Text value")

/-- The value at `pos`, and the position after it. -/
def decodeValue (key : Bytes) (pos : Nat) : Except KeyError (Value × Nat) :=
  match key.drop pos with
  | [] => .error (.parseError "decode_value: unexpected end of key bytes")
  | tag :: src =>
    if tag = 0x00 then .ok (.null, pos + 1)
    else if tag = 0x01 then do
      let b ← payload 1 src
      .ok (.bool (b.head? != some 0), pos + 2)
    else if tag = 0x02 then do
      let b ← payload 8 src
      .ok (.int (.wrap 32 (signUnflip 64 (ofBeBytes b))), pos + 9)
    else if tag = 0x03 then do
      let b ← payload 8 src
      .ok (.bigInt (.wrap 64 (signUnflip 64 (ofBeBytes b))), pos + 9)
    else if tag = 0x04 then do
      let b ← payload 8 src
      .ok (.real (decodeF64 b), pos + 9)
    else if tag = 0x05 then do
      let b ← payload 17 src
      .ok (.decimal (.wrap 128 (signUnflip 128 (ofBeBytes b.tail))) (b.headD 0), pos + 18)
    else if tag = 0x06 then do
      let b ← payload 8 src
      .ok (.date (.wrap 32 (signUnflip 64 (ofBeBytes b))), pos + 9)
    else if tag = 0x07 then do
      let b ← payload 8 src
      .ok (.timestamp (.wrap 64 (signUnflip 64 (ofBeBytes b))), pos + 9)
    else if tag = 0x08 then do
      let (raw, n) ← decodeBytesNul src
      let v ← decodeText raw
      .ok (v, pos + 1 + n)
    else if tag = 0x09 then do
      let (raw, n) ← decodeBytesNul src
      .ok (.bytes raw, pos + 1 + n)
    else if tag = 0x0A then do
      if h : src.length < 16 then .error trunc
      else .ok (.uuid ⟨src.take 16, by rw [List.length_take]; omega⟩, pos + 17)
    else .error (.parseError ("decode_index_key: unknown type tag 0x" ++ hexByte tag.toNat))

/-- The loop over `n` values from `pos` on. -/
def decodeValues (key : Bytes) (nValues : Nat) : Nat → Nat → Except KeyError (List Value × Nat)
  | 0, pos => .ok ([], pos)
  | n + 1, pos =>
    if pos ≥ key.length then
      .error (.bTreeCorrupted s!"decode_index_key: key truncated at pos {pos} (need {nValues} values)")
    else do
      let (v, pos) ← decodeValue key pos
      let (vs, pos) ← decodeValues key nValues n pos
      .ok (v :: vs, pos)

/-- `decode_index_key` in `key_encoding.rs`. -/
def decodeIndexKey (key : Bytes) (nValues : Nat) : Except KeyError (List Value × Nat) :=
  decodeValues key nValues nValues 0

/-! ## The types of a key -/

namespace Value

/-- NULL, Bool, Int, BigInt, Decimal, Date, Timestamp, Text, Bytes and Uuid. -/
def isScalar : Value → Bool
  | null | bool _ | int _ | bigInt _ | decimal .. | date _ | timestamp _ | text _ | bytes _ | uuid _ =>
    true
  | _ => false

/-- The bytes a scalar is written as. -/
def encoding (v : Value) : Bytes :=
  match encodeValue v with
  | .ok b => b
  | .error _ => []

theorem encodeValue_eq {v : Value} (h : v.isScalar) : encodeValue v = .ok v.encoding := by
  cases v <;> first | rfl | simp [isScalar] at h

end Value

/-- The bytes a list of scalars is written as. -/
def encodings (vs : List Value) : Bytes := vs.flatMap Value.encoding

theorem encodeValues_eq {vs : List Value} (h : ∀ v ∈ vs, v.isScalar) :
    encodeValues vs = .ok (encodings vs) := by
  induction vs with
  | nil => rfl
  | cons v vs ih =>
    rw [encodeValues, Value.encodeValue_eq (h v List.mem_cons_self),
      ih fun w hw => h w (List.mem_cons_of_mem _ hw)]
    rfl

theorem encodeIndexKey_eq {vs : List Value} {buf : Bytes} (h : ∀ v ∈ vs, v.isScalar)
    (he : encodeIndexKey vs = .ok buf) : buf = encodings vs := by
  simp only [encodeIndexKey, encodeValues_eq h, bind, Except.bind] at he
  split at he
  · cases he
  · exact (Except.ok.inj he).symm

end AxiomDb.Sql
