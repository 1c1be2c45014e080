import AxiomDb.Lib.Scanning
import AxiomDb.Sql.RowCodec

/-!
# Tokens

The lexer of SQL texts. `strip_hash_comments` goes over the text first; then white space and
comments are skipped and the longest token is taken off, again and again. The rules that start
alike are tried from the longer to the shorter, so that the first one that applies is the
longest. A keyword or an identifier is its word, an operator is its text and an optimizer hint
is its text before `trim`; positions and the end marker are left out. Texts are bytes, which the
lexer's classes of characters do not tell apart above 127.
-/

namespace AxiomDb.Prepared

open Lib Sql Row
open Scanner (one many many1 seq alt opt text)

/-! ## `strip_hash_comments` -/

/-- Where the comment stripper is: at the start of a line, further on, or in a comment. -/
inductive LineState where
  | start | inside | comment

def lineState (b : Byte) : LineState := if b = 10 ∨ b = 13 then .start else .inside

/-- `strip_hash_comments` in `lexer.rs`. -/
def stripHashComments : LineState → Bytes → Bytes
  | _, [] => []
  | .start, b :: s =>
    if b = 35 then stripHashComments .comment s else b :: stripHashComments (lineState b) s
  | .inside, b :: s => b :: stripHashComments (lineState b) s
  | .comment, b :: s =>
    if b = 10 then b :: stripHashComments .start s else stripHashComments .comment s

/-! ## Tokens -/

/-- `Token` in `lexer.rs`. -/
inductive Token where
  | stringLit (s : Bytes)
  | bytesLit (b : Bytes)
  | integer (n : Int)
  | hexLit (n : Int)
  | float (slice : Bytes)
  | word (slice : Bytes)
  | quotedIdent (s : Bytes)
  | dqIdent (s : Bytes)
  | optimizerHint (s : Bytes)
  | symbol (slice : Bytes)
  deriving DecidableEq

/-- Letters, digits and the underscore. -/
def isWordByte (b : Byte) : Bool :=
  (48 ≤ b.val && b.val ≤ 57) || (65 ≤ b.val && b.val ≤ 90) || (97 ≤ b.val && b.val ≤ 122) ||
    b.val == 95

def isDigitByte (b : Byte) : Bool := 48 ≤ b.val && b.val ≤ 57

def numberOf (w : Bytes) : Nat := w.foldl (fun n b => n * 10 + (b.val - 48)) 0

def isSpace (b : Byte) : Bool := b = 32 || b = 9 || b = 13 || b = 10

def isHexDigit (b : Byte) : Bool :=
  isDigitByte b || (65 ≤ b.val && b.val ≤ 70) || (97 ≤ b.val && b.val ≤ 102)

def isBit (b : Byte) : Bool := b = 48 || b = 49

def isLetter (b : Byte) : Bool :=
  (65 ≤ b.val && b.val ≤ 90) || (97 ≤ b.val && b.val ≤ 122) || b = 95

def hexValue (b : Byte) : Nat :=
  if b.val ≤ 57 then b.val - 48 else if b.val ≤ 70 then b.val - 55 else b.val - 87

/-- `from_str_radix`, without a limit. -/
def numberIn (base : Nat) (w : Bytes) : Nat := w.foldl (fun n b => n * base + hexValue b) 0

/-- A number as `i64`, or wrapped around from `u64`. -/
def wrapI64 (n : Nat) : Option Int :=
  if n < 2 ^ 63 then some n else if n < 2 ^ 64 then some ((n : Int) - 2 ^ 64) else none

/-- A number as `i64`, or the largest one if it is an `u64`. -/
def clampI64 (n : Nat) : Option Int :=
  if n < 2 ^ 63 then some n else if n < 2 ^ 64 then some (2 ^ 63 - 1) else none

/-- The bytes of pairs of hexadecimal digits. -/
def decodeHex : Bytes → Option Bytes
  | [] => some []
  | [_] => none
  | hi :: lo :: s => (decodeHex s).map fun r => Fin.ofNat 256 (hexValue hi * 16 + hexValue lo) :: r

/-- `decode_hex_bytes_literal` -/
def decodeHexBytesLiteral (slice : Bytes) : Option Bytes := decodeHex (slice.drop 2).dropLast

/-- What an escaped character stands for. -/
def unescaped (b : Byte) : Byte :=
  if b = 110 then 10 else if b = 114 then 13 else if b = 116 then 9 else if b = 48 then 0
  else if b = 98 then 8 else if b = 90 then 26 else b

/-- `process_string_literal` and `process_double_quoted_string_literal`, inside of the quotes. -/
def processString (q : Byte) : Bytes → Option Bytes
  | [] => some []
  | [b] => if b = 92 then none else if b = q then some [] else some [b]
  | b :: c :: s =>
    if b = 92 then (processString q s).map (unescaped c :: ·)
    else if b = q then
      if c = q then (processString q s).map (q :: ·) else processString q (c :: s)
    else (processString q (c :: s)).map (b :: ·)

/-- `process_double_quoted_identifier`, inside of the quotes. -/
def processIdentifier : Bytes → Option Bytes
  | [] => some []
  | [b] => if b = 34 then none else some [b]
  | b :: c :: s =>
    if b = 34 then if c = 34 then (processIdentifier s).map (34 :: ·) else none
    else (processIdentifier (c :: s)).map (b :: ·)

/-! ## Quotes and comments -/

/-- What is behind an opening quote, up to the one that closes it. The match is the longest: of two
quotes the first one closes if nothing behind them does. -/
def quotedBody (q : Byte) : Scanner Byte
  | [] => none
  | [b] => if b = q then some ([], []) else none
  | b :: c :: s =>
    if b = q then
      if c = q then
        ((quotedBody q s).map fun r => (b :: c :: r.1, r.2)).or (some ([], c :: s))
      else some ([], c :: s)
    else if b = 92 then
      if c = 10 then none else (quotedBody q s).map fun r => (b :: c :: r.1, r.2)
    else (quotedBody q (c :: s)).map fun r => (b :: r.1, r.2)

def backtickBody : Scanner Byte
  | [] => none
  | b :: s => if b = 96 then some ([], s) else (backtickBody s).map fun r => (b :: r.1, r.2)

/-- What is behind the start of a block comment. A star and the character behind it are taken
together, so that the second of two stars does not close the comment. -/
def commentBody : Scanner Byte
  | [] => none
  | [_] => none
  | b :: c :: s =>
    if b = 42 then
      if c = 47 then some ([], s) else (commentBody s).map fun r => (b :: c :: r.1, r.2)
    else (commentBody (c :: s)).map fun r => (b :: r.1, r.2)

/-! ## The other rules -/

structure Rule where
  scan : Scanner Byte
  callback : Bytes → Option Token

def isByte (bs : List Byte) (b : Byte) : Bool := bs.contains b

def exponent : Scanner Byte :=
  seq (one (isByte [69, 101])) (seq (opt (one (isByte [43, 45]))) (many1 isDigitByte))

def floatScan : Scanner Byte :=
  alt (seq (many isDigitByte) (seq (one (isByte [46])) (seq (many1 isDigitByte) (opt exponent))))
    (seq (many1 isDigitByte) exponent)

/-- A byte of one class, a quote, a run of another class and a quote. -/
def quotedRun (first inner : Byte → Bool) : Scanner Byte :=
  seq (one first) (seq (one (isByte [39])) (seq (many inner) (one (isByte [39]))))

/-- A zero, a byte of one class and a run of another. -/
def zeroRun (second inner : Byte → Bool) : Scanner Byte :=
  seq (one (isByte [48])) (seq (one second) (many1 inner))

def wordScan : Scanner Byte := seq (one isLetter) (many isWordByte)

/-- The operators, the longer ones first. -/
def symbols : List Bytes :=
  ["<=>", "->>", "!~*", "#>>", "<>", "!=", "<=", ">=", "<<", ">>", "->", "||", "&&", "!~", "~*",
    "@@", "@>", "@?", "<@", "?|", "?&", "#>", "#-", "=", "<", ">", "+", "-", "*", "/", "%", "&",
    "|", "^", "~", ".", "(", ")", "[", "]", ",", ";", ":", "@", "?"].map asciiBytes

def rules : List Rule := [
  ⟨zeroRun (isByte [88, 120]) isHexDigit,
    fun s => (wrapI64 (numberIn 16 (s.drop 2))).map .hexLit⟩,
  ⟨zeroRun (isByte [66, 98]) isBit, fun s => (wrapI64 (numberIn 2 (s.drop 2))).map .integer⟩,
  ⟨floatScan, fun s => some (.float s)⟩,
  ⟨many1 isDigitByte, fun s => (clampI64 (numberOf s)).map .integer⟩,
  ⟨quotedRun (isByte [66, 98]) isBit,
    fun s => (wrapI64 (numberIn 2 (s.drop 2).dropLast)).map .integer⟩,
  ⟨quotedRun (isByte [88, 120]) isHexDigit, fun s => (decodeHexBytesLiteral s).map .bytesLit⟩,
  ⟨wordScan, fun s => some (.word s)⟩,
  ⟨fun s => symbols.findSome? fun w => text w s, fun s => some (.symbol s)⟩]

/-- The first rule that applies, and the rest of the text. -/
def applyRules : List Rule → Bytes → Option (Token × Bytes)
  | [], _ => none
  | r :: rs, s => match r.scan s with
    | some q => (r.callback q.1).map fun t => (t, q.2)
    | none => applyRules rs s

/-! ## The lexer -/

/-- `RawDoubleQuoted` in the given mode. -/
def doubleQuoted (ansiQuotes : Bool) (raw : Bytes) : Option Token :=
  if ansiQuotes then (processIdentifier raw).map .dqIdent else (processString 34 raw).map .stringLit

/-- What is taken off the start of a text: a token, or nothing for white space and comments. -/
def lexOne (ansiQuotes : Bool) (s : Bytes) : Option (Option Token × Bytes) :=
  match s with
  | [] => none
  | b :: rest =>
    if isSpace b then some (none, rest)
    else if b = 39 then (quotedBody 39 rest).bind fun r =>
      (processString 39 r.1).map fun t => (some (.stringLit t), r.2)
    else if b = 34 then (quotedBody 34 rest).bind fun r =>
      (doubleQuoted ansiQuotes r.1).map fun t => (some t, r.2)
    else if b = 96 then (backtickBody rest).map fun r => (some (.quotedIdent r.1), r.2)
    else if [45, 45].isPrefixOf s then some (none, s.dropWhile (· != 10))
    else if [47, 42].isPrefixOf s then match commentBody (s.drop 2) with
      | some r => some (if r.1.head? = some 43 then some (.optimizerHint r.1.tail) else none, r.2)
      -- an open comment is no comment
      | none => some (some (.symbol [47]), rest)
    else (applyRules rules s).map fun q => (some q.1, q.2)

def lexFrom (ansiQuotes : Bool) : Nat → Bytes → Option (List Token)
  | _, [] => some []
  | 0, _ :: _ => none
  | n + 1, b :: s => (lexOne ansiQuotes (b :: s)).bind fun q =>
      (lexFrom ansiQuotes n q.2).map (q.1.toList ++ ·)

/-- `tokenize_with_sql_mode` -/
def tokenize (ansiQuotes : Bool) (input : Bytes) : Option (List Token) :=
  lexFrom ansiQuotes input.length (stripHashComments .start input)

end AxiomDb.Prepared
