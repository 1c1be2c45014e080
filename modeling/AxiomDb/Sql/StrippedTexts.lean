import AxiomDb.Sql.TokenRuns

/-!
# Stripped texts

`strip_hash_comments` takes the lines that start with a number sign off a text before it is lexed:
off literals of several lines as well, `literal_kept_iff`, and without the positions of errors, at
which the text is quoted, being moved back, `tokenizer_returns_iff`.
-/

namespace AxiomDb.Prepared

open Lib Sql Row List Option

/-! ## Lines -/

/-- No line starts with a number sign. -/
def hashFree : LineState → Bytes → Bool
  | _, [] => true
  | .start, b :: s => b != 35 && hashFree (lineState b) s
  | _, b :: s => hashFree (lineState b) s

theorem lineState_ne_comment (b : Byte) : lineState b ≠ .comment := by
  rw [lineState]
  split <;> simp

section

variable {b : Byte} {s a : Bytes} {st : LineState}

theorem hashFree_cons (h : hashFree st (b :: s)) : hashFree (lineState b) s := by
  cases st with
  | start =>
    rw [hashFree, Bool.and_eq_true] at h
    exact h.2
  | inside => exact h
  | comment => exact h

theorem stripHashComments_cons (hst : st ≠ .comment) (hb : st = .start → b ≠ 35) (s : Bytes) :
    stripHashComments st (b :: s) = b :: stripHashComments (lineState b) s := by
  cases st with
  | start => rw [stripHashComments, if_neg (hb rfl)]
  | inside => rfl
  | comment => exact absurd rfl hst

theorem stripHashComments_of_hashFree (hst : st ≠ .comment) (ha : hashFree st a) :
    stripHashComments st a = a := by
  induction a generalizing st with
  | nil => cases st <;> rfl
  | cons b a ih =>
    have hb : st = .start → b ≠ 35 := by
      rintro rfl rfl
      cases ha
    rw [stripHashComments_cons hst hb, ih (lineState_ne_comment b) (hashFree_cons ha)]

theorem stripHashComments_comment (s : Bytes) :
    stripHashComments .comment s = [] ∨ ∃ z, stripHashComments .comment s = 10 :: z := by
  induction s with
  | nil => exact .inl rfl
  | cons b s ih =>
    rw [stripHashComments]
    split
    next hb => exact .inr ⟨_, by rw [hb]⟩
    · exact ih

theorem length_stripHashComments (st : LineState) (s : Bytes) :
    (stripHashComments st s).length ≤ s.length := by
  induction s generalizing st with
  | nil => cases st <;> simp [stripHashComments]
  | cons b s ih =>
    have hshort := fun st => (ih st).trans (Nat.le_succ s.length)
    have hkept := fun st => Nat.succ_le_succ (ih st)
    cases st with
    | start =>
      rw [stripHashComments]
      split
      · exact hshort .comment
      · exact hkept (lineState b)
    | inside => exact hkept (lineState b)
    | comment =>
      rw [stripHashComments]
      split
      · exact hkept .start
      · exact hshort .comment

end

/-! ## Strings -/

section

variable {ansiQuotes : Bool} {b : Byte} {r s y : Bytes} {k : Nat}

/-- A string literal behind its opening quote: what it stands for, and what is behind it. -/
def readString (s : Bytes) : Option (Bytes × Bytes) :=
  (quotedBody 39 s).bind fun r => (processString 39 r.1).map fun t => (t, r.2)

theorem lexOne_quote (s : Bytes) :
    lexOne ansiQuotes (39 :: s) = (readString s).map fun q => (some (.stringLit q.1), q.2) := by
  have hlex : lexOne ansiQuotes (39 :: s) = (quotedBody 39 s).bind fun r =>
      (processString 39 r.1).map fun t => (some (.stringLit t), r.2) := rfl
  rw [hlex, readString, map_bind]
  congr 1
  funext r
  rw [Function.comp_apply, Option.map_map]
  rfl

theorem readString_close (hr : ∀ d ∈ r.head?, d ≠ 39) : readString (39 :: r) = some ([], r) := by
  cases r with
  | nil => rfl
  | cons d s =>
    rw [readString, quotedBody, if_pos rfl, if_neg (hr d rfl)]
    rfl

theorem readString_plain (h39 : b ≠ 39) (h92 : b ≠ 92) (s : Bytes) :
    readString (b :: s) = (readString s).map fun q => (b :: q.1, q.2) := by
  have hbody : quotedBody 39 (b :: s) = (quotedBody 39 s).map fun r => (b :: r.1, r.2) := by
    cases s with
    | nil => simp [quotedBody, h39]
    | cons c s => rw [quotedBody, if_neg h39, if_neg h92]
  have hprocess : ∀ w, processString 39 (b :: w) = (processString 39 w).map (b :: ·) := by
    intro w
    cases w with
    | nil => simp [processString, h92, h39]
    | cons c w => rw [processString, if_neg h92, if_neg h39]
  rw [readString, readString, hbody]
  cases quotedBody 39 s with
  | none => rfl
  | some r =>
    rw [map_some, bind_some, bind_some, hprocess, Option.map_map, Option.map_map]
    rfl

theorem readString_escape (c : Byte) (s : Bytes) : readString (92 :: c :: s) =
      if c = 10 then none else (readString s).map fun q => (unescaped c :: q.1, q.2) := by
  rw [readString, readString, quotedBody, if_neg (by decide), if_pos rfl]
  split
  · rfl
  cases quotedBody 39 s with
  | none => rfl
  | some r =>
    rw [map_some, bind_some, bind_some, processString, if_pos rfl, Option.map_map, Option.map_map]
    rfl

/-- Where the stripper takes off a number sign, a line break follows. -/
theorem readString_comment (z : Bytes) :
    readString (stripHashComments .comment z) ≠ some (replicate k 92 ++ 35 :: s, y) := by
  obtain hz | ⟨z', hz⟩ := stripHashComments_comment z
  · rw [hz]
    simp [readString, quotedBody]
  rw [hz, readString_plain (by decide) (by decide)]
  intro h
  obtain ⟨q, -, hq⟩ := map_eq_some_iff.1 h
  cases k with
  | zero => simp at hq
  | succ k => simp [replicate_succ] at hq

end

/-! ## Literals -/

def escape (b : Byte) : Bytes := if b = 92 ∨ b = 39 then [92, b] else [b]

/-- A text with a backslash before every backslash and every quote. -/
def escaped (s : Bytes) : Bytes := s.flatMap escape

def escapedLiteral (s : Bytes) : Bytes := 39 :: (escaped s ++ [39])

/-- The lexer takes `ts` off the text and is where `w` starts. -/
def ReadsUpTo (ansiQuotes : Bool) (pre w : Bytes) (ts : List Token) : Prop :=
  ∃ st, st ≠ .comment ∧
    Steps ansiQuotes (stripHashComments .start (pre ++ w)) ts (stripHashComments st w)

/-- Wherever the lexer gets to, the literal is one token, and stands for its text. -/
def LiteralKept (s : Bytes) : Prop :=
  ∀ ansiQuotes pre post ts us, ReadsUpTo ansiQuotes pre (escapedLiteral s ++ post) ts →
    (∀ d ∈ post.head?, d ≠ 39) → Steps ansiQuotes (stripHashComments .inside post) us [] →
    tokenize ansiQuotes (pre ++ (escapedLiteral s ++ post)) = some (ts ++ .stringLit s :: us)

variable {b : Byte} {s w y : Bytes} {st : LineState}

theorem escaped_cons (b : Byte) (s : Bytes) : escaped (b :: s) = escape b ++ escaped s := rfl

theorem stripHashComments_escape (hst : st ≠ .comment) (hb : st = .start → b ≠ 35) (w : Bytes) :
    stripHashComments st (escape b ++ w) = escape b ++ stripHashComments (lineState b) w := by
  rw [escape]
  split
  · show stripHashComments st (92 :: b :: w) = 92 :: b :: stripHashComments (lineState b) w
    rw [stripHashComments_cons hst (by simp),
      stripHashComments_cons (lineState_ne_comment 92) (by rintro ⟨⟩)]
  · exact stripHashComments_cons hst hb w

theorem readString_escape_append (b : Byte) (w : Bytes) :
    readString (escape b ++ w) = (readString w).map fun q => (b :: q.1, q.2) := by
  rw [escape]
  split
  next hb =>
    show readString (92 :: b :: w) = _
    rw [readString_escape]
    obtain rfl | rfl := hb <;> rfl
  next hb =>
    rw [not_or] at hb
    exact readString_plain hb.2 hb.1 w

theorem head?_stripHashComments (s : Bytes) : (stripHashComments .inside s).head? = s.head? := by
  cases s <;> rfl

theorem readString_escaped (hy : ∀ d ∈ y.head?, d ≠ 39) :
    readString (escaped s ++ 39 :: y) = some (s, y) := by
  induction s with
  | nil => exact readString_close hy
  | cons b s ih =>
    rw [escaped_cons, append_assoc, readString_escape_append, ih]
    rfl

theorem hashFree_cons_of_ne (hb : st = .start → b ≠ 35) :
    hashFree st (b :: s) = hashFree (lineState b) s := by
  cases st with
  | start => rw [hashFree, bne_iff_ne.2 (hb rfl), Bool.true_and]
  | _ => rfl

/-- From a text with no number sign at the start of a line the stripper takes nothing. -/
theorem stripHashComments_escaped (hst : st ≠ .comment) (hs : hashFree st s) (w : Bytes) :
    stripHashComments st (escaped s ++ 39 :: w) = escaped s ++ 39 :: stripHashComments .inside w := by
  induction s generalizing st with
  | nil => exact stripHashComments_cons hst (by simp) w
  | cons b s ih =>
    have hb : st = .start → b ≠ 35 := by
      rintro rfl rfl
      cases hs
    rw [hashFree_cons_of_ne hb] at hs
    rw [escaped_cons, append_assoc, append_assoc, stripHashComments_escape hst hb,
      ih (lineState_ne_comment b) hs]

/-- What is read back has no number sign at the start of a line. -/
theorem hashFree_of_readString (hst : st ≠ .comment)
    (h : readString (stripHashComments st (escaped s ++ 39 :: w)) = some (s, y)) :
    hashFree st s := by
  induction s generalizing st with
  | nil => cases st <;> rfl
  | cons b s ih =>
    by_cases h35 : st = .start ∧ b = 35
    · obtain ⟨rfl, rfl⟩ := h35
      exact absurd h (readString_comment (k := 0) _)
    have hb : st = .start → b ≠ 35 := fun hs hb => h35 ⟨hs, hb⟩
    rw [escaped_cons, append_assoc, stripHashComments_escape hst hb, readString_escape_append] at h
    obtain ⟨⟨t, r⟩, hread, heq⟩ := map_eq_some_iff.1 h
    cases heq
    rw [hashFree_cons_of_ne hb]
    exact ih (lineState_ne_comment b) hread

/-- A literal is kept just if its text has no number sign at the start of a line but the first. -/
theorem literal_kept_iff (s : Utf8) : LiteralKept s.bytes ↔ hashFree .inside s.bytes = true := by
  have hstrip {st : LineState} (hst : st ≠ .comment) (post : Bytes) :
      stripHashComments st (escapedLiteral s.bytes ++ post) =
        39 :: stripHashComments .inside (escaped s.bytes ++ 39 :: post) := by
    rw [escapedLiteral, cons_append, append_assoc, stripHashComments_cons hst (by simp)]
    rfl
  constructor
  · intro h
    have hself := h false [] [] [] [] ⟨.start, by simp, .refl _⟩ (by simp) (.refl [])
    have hsteps := (lexFrom_iff (length_stripHashComments .start _)).1 hself
    rw [nil_append, hstrip (by simp)] at hsteps
    generalize htokens : [] ++ [Token.stringLit s.bytes] = ts at hsteps
    cases hsteps with
    | step hone _ =>
      rw [lexOne_quote] at hone
      obtain ⟨⟨text, r⟩, hread, heq⟩ := map_eq_some_iff.1 hone
      cases heq
      cases htokens
      exact hashFree_of_readString (by simp) hread
  · intro hs ansiQuotes pre post ts us hpre hpost hus
    obtain ⟨st, hst, hsteps⟩ := hpre
    rw [hstrip hst, stripHashComments_escaped (by simp) hs] at hsteps
    refine (lexFrom_iff (length_stripHashComments .start _)).2 (hsteps.trans
      (Steps.trans (.single ?_) hus))
    rw [lexOne_quote, readString_escaped (by rwa [head?_stripHashComments])]
    rfl

/-- Three lines, the second of which starts with a number sign. -/
def threeLines : Bytes := asciiBytes "a\n#b\nc"

/-- The second line is lost. -/
theorem line_lost : tokenize false (asciiBytes "SELECT " ++ escapedLiteral threeLines) =
    some [.word (asciiBytes "SELECT"), .stringLit (asciiBytes "a\n\nc")] := by
  decide +kernel

/-! ## Errors -/

inductive LexError where
  | tooLong (len max : Nat)
  | invalidDoubleQuoted (start : Nat)
  | unexpectedCharacter (start : Nat)
  deriving DecidableEq

/-- `is_char_boundary` -/
def isCharBoundary (s : Bytes) (i : Nat) : Bool :=
  i = 0 || i = s.length || s[i]?.any fun b => b.val < 128 || 192 ≤ b.val

/-- What is left where the lexer stops. -/
def leftOver (ansiQuotes : Bool) : Nat → Bytes → Bytes
  | n + 1, b :: s => match lexOne ansiQuotes (b :: s) with
    | some q => leftOver ansiQuotes n q.2
    | none => b :: s
  | _, s => s

/-- A text in double quotes: logos takes it, what it stands for is computed behind it. -/
def isRawDoubleQuoted (s : Bytes) : Bool := s.head? = some 34 && (quotedBody 34 s.tail).isSome

/-- `tokenize_with_sql_mode` with its limit and its errors; nothing where it panics. The character
of an error is looked up in the text as it came, by its position in the stripped one. -/
def tokenizeWithSqlMode (ansiQuotes : Bool) (maxBytes : Option Nat) (input : Bytes) :
    Option (Except LexError (List Token)) :=
  let stripped := stripHashComments .start input
  let rest := leftOver ansiQuotes stripped.length stripped
  let start := stripped.length - rest.length
  if maxBytes.any (· < input.length) then some (.error (.tooLong input.length (maxBytes.getD 0)))
  else match tokenize ansiQuotes input with
    | some ts => some (.ok ts)
    | none =>
      if isRawDoubleQuoted rest then some (.error (.invalidDoubleQuoted start))
      else if isCharBoundary input start then some (.error (.unexpectedCharacter start))
      else none

/-- Where logos recognizes nothing. -/
def Unrecognized (ansiQuotes : Bool) (s : Bytes) : Prop :=
  s ≠ [] ∧ lexOne ansiQuotes s = none ∧ isRawDoubleQuoted s = false

variable {ansiQuotes : Bool} {ts us : List Token} {rest rest' : Bytes} {n : Nat}

theorem steps_leftOver (hn : s.length ≤ n) :
    (∃ ts, Steps ansiQuotes s ts (leftOver ansiQuotes n s)) ∧
      lexOne ansiQuotes (leftOver ansiQuotes n s) = none := by
  induction n generalizing s with
  | zero =>
    rw [length_eq_zero_iff.1 (Nat.le_zero.1 hn)]
    exact ⟨⟨_, .refl []⟩, rfl⟩
  | succ n ih =>
    cases s with
    | nil => exact ⟨⟨_, .refl []⟩, rfl⟩
    | cons b s =>
      rw [leftOver]
      split
      next q hone =>
        have hlt := (lexOne_suffix hone).2
        rw [length_cons] at hn hlt
        obtain ⟨⟨ts, hsteps⟩, hstop⟩ := ih (s := q.2) (by omega)
        exact ⟨⟨_, .step hone hsteps⟩, hstop⟩
      next hone => exact ⟨⟨_, .refl _⟩, hone⟩

/-- There is one place where the lexer stops. -/
theorem Steps.rest_eq (h : Steps ansiQuotes s ts rest)
    (hrest : lexOne ansiQuotes rest = none) (h' : Steps ansiQuotes s us rest')
    (hrest' : lexOne ansiQuotes rest' = none) : rest = rest' := by
  induction h generalizing us with
  | refl s =>
    cases h' with
    | refl => rfl
    | step hone _ => cases hrest.symm.trans hone
  | step hone _ ih =>
    cases h' with
    | refl => cases hrest'.symm.trans hone
    | step hone' h' =>
      cases hone.symm.trans hone'
      exact ih hrest h'

/-- The offset at which nothing is recognized, in the stripped text. -/
def StopsAt (ansiQuotes : Bool) (input : Bytes) (start : Nat) : Prop :=
  ∃ ts rest, Steps ansiQuotes (stripHashComments .start input) ts rest ∧
    Unrecognized ansiQuotes rest ∧ start = (stripHashComments .start input).length - rest.length

/-- The tokenizer returns just if the text is too long, or the offset at which nothing is recognized
is not inside of a character of the text. -/
theorem returns_iff_boundary (ansiQuotes : Bool) (maxBytes : Option Nat) (input : Bytes) :
    (tokenizeWithSqlMode ansiQuotes maxBytes input).isSome ↔
      maxBytes.any (· < input.length) = true ∨
      ∀ start, StopsAt ansiQuotes input start → isCharBoundary input start = true := by
  obtain ⟨⟨us, hsteps⟩, hstop⟩ := @steps_leftOver
    (stripHashComments .start input) ansiQuotes _ le_rfl
  have htokens (ts : List Token) : tokenize ansiQuotes input = some ts ↔ _ :=
    lexFrom_iff (length_stripHashComments .start input)
  simp only [StopsAt]
  rw [tokenizeWithSqlMode]
  generalize stripHashComments .start input = stripped at *
  generalize leftOver ansiQuotes stripped.length stripped = left at *
  by_cases hmax : maxBytes.any (· < input.length) = true
  · simp [hmax]
  simp only [hmax, Bool.false_eq_true, if_false, false_or]
  cases hlex : tokenize ansiQuotes input with
  | some ts =>
    refine iff_of_true rfl ?_
    rintro _ ⟨us, rest, hrest, hun, rfl⟩
    exact absurd (hrest.rest_eq hun.2.1 ((htokens ts).1 hlex) rfl) hun.1
  | none =>
    have hne : left ≠ [] := by
      rintro rfl
      cases hlex.symm.trans ((htokens us).2 hsteps)
    constructor
    · rintro h _ ⟨ts, rest, hrest, hun, rfl⟩
      obtain rfl := hsteps.rest_eq hstop hrest hun.2.1
      simpa [hun.2.2, isSome_iff_ne_none] using h
    intro h
    cases hraw : isRawDoubleQuoted left with
    | true => rfl
    | false => simp [h _ ⟨us, left, hsteps, ⟨hne, hstop, hraw⟩, rfl⟩]

/-- In a text of ASCII characters every offset is between two of them. -/
theorem isCharBoundary_ascii {input : Bytes} (h : ∀ b ∈ input, b.val < 128) {i : Nat}
    (hi : i ≤ input.length) : isCharBoundary input i = true := by
  rcases hi.lt_or_eq with hi | rfl
  · simp [isCharBoundary, getElem?_eq_getElem hi, h _ (getElem_mem hi)]
  · simp [isCharBoundary]

/-- If logos stops between two characters of the stripped text, the tokenizer returns just if the
text is too long or this is also between two characters of the text as it came. So it is if no line
starts with a number sign, and if all characters are ASCII. -/
theorem tokenizer_returns_iff (ansiQuotes : Bool) (maxBytes : Option Nat) (input : Utf8)
    (hspans : ∀ start, StopsAt ansiQuotes input.bytes start →
      isCharBoundary (stripHashComments .start input.bytes) start = true) :
    ((tokenizeWithSqlMode ansiQuotes maxBytes input.bytes).isSome ↔
      maxBytes.any (· < input.bytes.length) = true ∨
      ∀ start, StopsAt ansiQuotes input.bytes start → isCharBoundary input.bytes start = true) ∧
    (hashFree .start input.bytes = true ∨ (∀ b ∈ input.bytes, b.val < 128) →
      (tokenizeWithSqlMode ansiQuotes maxBytes input.bytes).isSome) := by
  have hiff := returns_iff_boundary ansiQuotes maxBytes input.bytes
  refine ⟨hiff, fun h => hiff.2 (.inr fun start hstart => ?_)⟩
  rcases h with hfree | hascii
  · have hsame := hspans start hstart
    rwa [stripHashComments_of_hashFree (by simp) hfree] at hsame
  · obtain ⟨ts, rest, -, -, rfl⟩ := hstart
    refine isCharBoundary_ascii hascii ?_
    exact (Nat.sub_le ..).trans (length_stripHashComments .start input.bytes)

/-- An unknown character behind a comment. -/
theorem tokenizer_returns_iff_dollar :
    (tokenizeWithSqlMode false none [35, 65, 10, 32, 36]).isSome := by
  refine (tokenizer_returns_iff false none ⟨[35, 65, 10, 32, 36], by decide⟩ ?_).2 (.inr ?_)
  · rintro _ ⟨ts, rest, -, -, rfl⟩
    exact isCharBoundary_ascii (show ∀ b ∈ ([10, 32, 36] : Bytes), b.val < 128 by simp) (Nat.sub_le ..)
  · simp

/-- A comment with an accent before a character that starts no token: the position of the character
is inside of the accented letter. -/
theorem tokenizer_panics :
    tokenizeWithSqlMode false none [35, 195, 169, 10, 32, 36] = none := by
  decide +kernel

end AxiomDb.Prepared
