import AxiomDb.Sql.StoredEquality

/-!
# Decimals and the rational numbers

Two decimals are compared at the greater of their scales, with a product that saturates
(`compare_values`, `text_vs_decimal_cmp`), is checked (integers) or is not (`compare_bounds`).
`decimal_order_iff` says where the order is that of the rational numbers: where the power of ten
fits, and no product leaves the range of an `i128` next to a mantissa at its end. `Numeral` is what
a text for `text_vs_decimal_cmp` looks like, and `parseTextToDecimal_eq_ok` its reading.
-/

namespace AxiomDb.Row

open Lib Sql Value List

/-! ## Numerals -/

/-- White space, as it is encoded. -/
def whiteSpace : List Bytes :=
  [[9], [10], [11], [12], [13], [32], [0xC2, 0x85], [0xC2, 0xA0], [0xE1, 0x9A, 0x80],
    [0xE2, 0x80, 0x80], [0xE2, 0x80, 0x81], [0xE2, 0x80, 0x82], [0xE2, 0x80, 0x83],
    [0xE2, 0x80, 0x84], [0xE2, 0x80, 0x85], [0xE2, 0x80, 0x86], [0xE2, 0x80, 0x87],
    [0xE2, 0x80, 0x88], [0xE2, 0x80, 0x89], [0xE2, 0x80, 0x8A], [0xE2, 0x80, 0xA8],
    [0xE2, 0x80, 0xA9], [0xE2, 0x80, 0xAF], [0xE2, 0x81, 0x9F], [0xE3, 0x80, 0x80]]

/-- A text without the characters of `cs` it starts with; there are no more of them than bytes. -/
def stripWith (cs : List Bytes) : Nat → Bytes → Bytes
  | 0, s => s
  | n + 1, s => match cs.find? (·.isPrefixOf s) with
    | some ch => stripWith cs n (s.drop ch.length)
    | none => s

/-- `str::trim` -/
def trim (s : Bytes) : Bytes :=
  let s := stripWith whiteSpace s.length s
  (stripWith (whiteSpace.map reverse) s.length s.reverse).reverse

def isAsciiDigit (b : Byte) : Bool := 48 ≤ b.val && b.val ≤ 57

def digitsValue (ds : Bytes) : Nat := ds.foldl (fun n d => n * 10 + (d.val - 48)) 0

/-- Why a text is no decimal. -/
inductive DecimalError where
  | scale (digits : Nat)
  | unexpected (rest : Bytes)
  | noDigits
  | intOverflow (digits : Bytes)
  | fracOverflow (digits : Bytes)
  | overflow
  deriving DecidableEq

/-- `parse::<i128>`, of digits; no digits are zero here. -/
def parseI128 (ds : Bytes) (err : DecimalError) : Except DecimalError Int :=
  if (digitsValue ds : Int) ≤ i128Max then .ok (digitsValue ds) else .error err

/-- A sign, if there is one, and what follows. -/
def splitSign : Bytes → Bool × Bytes
  | 45 :: rest => (true, rest)
  | 43 :: rest => (false, rest)
  | rest => (false, rest)

/-- The digits after a point, if there is one, and what follows. -/
def splitFraction : Bytes → Except DecimalError (Bytes × Bytes)
  | 46 :: rest =>
    let frac := rest.takeWhile isAsciiDigit
    if 38 < frac.length then .error (.scale frac.length)
    else .ok (frac, rest.dropWhile isAsciiDigit)
  | rest => .ok ([], rest)

/-- `checked_mul` and `checked_add` -/
def checkedMulAdd (n k r : Int) : Option Int := do
  let m ← checkedMul n k
  if m + r ≤ i128Max then some (m + r) else none

/-- `parse_text_to_decimal` -/
def parseTextToDecimal (s : Bytes) (strict : Bool) : Except DecimalError (SInt 128 × Byte) := do
  let (negative, rest) := splitSign (trim s)
  let intDigits := rest.takeWhile isAsciiDigit
  let (fracDigits, rest) ← splitFraction (rest.dropWhile isAsciiDigit)
  if strict && !rest.isEmpty then .error (.unexpected rest)
  else if intDigits.isEmpty && fracDigits.isEmpty then .error .noDigits
  else
    let intPart ← parseI128 intDigits (.intOverflow intDigits)
    let fracPart ← parseI128 fracDigits (.fracOverflow fracDigits)
    match checkedMulAdd intPart (10 ^ fracDigits.length) fracPart with
    | some mantissa =>
      .ok (.wrap 128 (if negative then -mantissa else mantissa), Fin.ofNat 256 fracDigits.length)
    | none => .error .overflow

/-- `text_vs_decimal_cmp`. Its error is a type mismatch, with what was expected and the text. -/
def textVsDecimalCmp (t : Utf8) (mantissa : SInt 128) (scale : Byte) :
    Except (String × Utf8) Ordering :=
  match parseTextToDecimal t.bytes true with
  | .ok (m₂, s₂) => .ok (compareScaled mantissa.val scale.val m₂.val s₂.val)
  | .error _ => .error ("decimal string", t)

/-- A decimal numeral: digits, and a fraction if there is a point. -/
structure Numeral where
  sign : Option Bool
  ints : Bytes
  frac : Option Bytes
  ints_digits : ∀ b ∈ ints, isAsciiDigit b
  frac_digits : ∀ b ∈ frac.getD [], isAsciiDigit b

namespace Numeral

/-- The point and the digits after it. -/
def fraction (n : Numeral) : Bytes :=
  match n.frac with
  | some ds => 46 :: ds
  | none => []

/-- The sign `true` is a minus. -/
def text (n : Numeral) : Bytes :=
  match n.sign with
  | some true => 45 :: (n.ints ++ n.fraction)
  | some false => 43 :: (n.ints ++ n.fraction)
  | none => n.ints ++ n.fraction

def scale (n : Numeral) : Nat := (n.frac.getD []).length

/-- The digits before and after the point, as one number with the sign. -/
def mantissa (n : Numeral) : Int :=
  let m : Int := digitsValue n.ints * 10 ^ n.scale + digitsValue (n.frac.getD [])
  if n.sign = some true then -m else m

/-- The number that a numeral stands for. -/
def value (n : Numeral) : ℚ :=
  let q : ℚ := digitsValue n.ints + digitsValue (n.frac.getD []) / 10 ^ n.scale
  if n.sign = some true then -q else q

/-- The decimal with its digits. -/
def decimal (n : Numeral) : Value := .decimal (.wrap 128 n.mantissa) (Fin.ofNat 256 n.scale)

theorem value_eq (n : Numeral) : n.value = n.mantissa / 10 ^ n.scale := by
  have hq : (digitsValue n.ints + digitsValue (n.frac.getD []) / 10 ^ n.scale : ℚ) =
      ((digitsValue n.ints * 10 ^ n.scale + digitsValue (n.frac.getD []) : Int) : ℚ) / 10 ^ n.scale := by
    push_cast
    rw [add_div, mul_div_cancel_right₀ _ (by positivity)]
  rw [value, mantissa, hq]
  split
  · rw [Int.cast_neg, neg_div]
  · rfl

end Numeral

/-- A numeral starts with a digit or a point behind its sign. -/
theorem splitSign_digits (n : Numeral) : splitSign (n.ints ++ n.fraction) = (false, n.ints ++ n.fraction) := by
  have hhead : ∀ b, (n.ints ++ n.fraction).head? = some b → b ≠ 45 ∧ b ≠ 43 := by
    intro b hb
    have hb' : isAsciiDigit b ∨ b = 46 := by
      cases hints : n.ints with
      | cons d ds =>
        rw [hints] at hb
        cases hb
        exact .inl (n.ints_digits _ (hints ▸ .head _))
      | nil =>
        rw [hints, Numeral.fraction] at hb
        cases hfrac : n.frac with
        | none => rw [hfrac] at hb; cases hb
        | some ds => rw [hfrac] at hb; cases hb; exact .inr rfl
    refine ⟨?_, ?_⟩
    · rintro rfl
      exact absurd hb' (by decide)
    · rintro rfl
      exact absurd hb' (by decide)
  unfold splitSign
  split
  next hs => exact ((hhead 45 (hs ▸ rfl)).1 rfl).elim
  next hs => exact ((hhead 43 (hs ▸ rfl)).2 rfl).elim
  next => rfl

theorem splitSign_text (n : Numeral) :
    splitSign n.text = (decide (n.sign = some true), n.ints ++ n.fraction) := by
  rw [Numeral.text]
  cases hsign : n.sign with
  | none => rw [splitSign_digits]; rfl
  | some minus => cases minus <;> rfl

theorem takeWhile_fraction (n : Numeral) : n.fraction.takeWhile isAsciiDigit = [] := by
  rw [Numeral.fraction]
  cases n.frac <;> rfl

theorem dropWhile_fraction (n : Numeral) : n.fraction.dropWhile isAsciiDigit = n.fraction := by
  rw [Numeral.fraction]
  cases n.frac <;> rfl

theorem splitFraction_fraction (n : Numeral) (h : n.scale ≤ 38) :
    splitFraction n.fraction = .ok (n.frac.getD [], []) := by
  have hdigits := n.frac_digits
  rw [Numeral.scale] at h
  rw [Numeral.fraction]
  cases hfrac : n.frac with
  | none => rfl
  | some ds =>
    rw [hfrac, Option.getD_some] at hdigits h
    show (if 38 < (ds.takeWhile isAsciiDigit).length then _ else _) = _
    rw [takeWhile_eq_self_iff.2 hdigits, dropWhile_eq_nil_iff.2 hdigits, if_neg (by omega)]
    rfl

theorem splitFraction_error (n : Numeral) (h : ¬ n.scale ≤ 38) :
    ∃ e, splitFraction n.fraction = .error e := by
  have hdigits := n.frac_digits
  rw [Numeral.scale] at h
  rw [Numeral.fraction]
  cases hfrac : n.frac with
  | none => simp [hfrac] at h
  | some ds =>
    rw [hfrac, Option.getD_some] at hdigits h
    refine ⟨.scale ds.length, ?_⟩
    show (if 38 < (ds.takeWhile isAsciiDigit).length then _ else _) = _
    rw [takeWhile_eq_self_iff.2 hdigits, if_pos (by omega)]

theorem checkedMulAdd_eq_some {n k r m : Int} (h : checkedMulAdd n k r = some m) :
    m = n * k + r ∧ m ≤ i128Max := by
  obtain ⟨p, hp, hm⟩ := Option.bind_eq_some_iff.1 h
  rw [checkedMul] at hp
  split at hp <;> cases hp
  split at hm <;> cases hm
  exact ⟨rfl, by assumption⟩

theorem parseI128_eq_ok {ds : Bytes} {e : DecimalError} {n : Int} (h : parseI128 ds e = .ok n) :
    n = digitsValue ds := by
  rw [parseI128] at h
  split at h <;> cases h
  rfl

/-- What is read from a numeral are its mantissa and its scale. -/
theorem parseTextToDecimal_eq_ok {n : Numeral} {t : Bytes} {strict : Bool} {m : SInt 128} {s : Byte}
    (ht : trim t = n.text) (h : parseTextToDecimal t strict = .ok (m, s)) :
    m.val = n.mantissa ∧ s.val = n.scale := by
  rw [parseTextToDecimal, ht, splitSign_text] at h
  dsimp only at h
  rw [takeWhile_append_of_pos n.ints_digits, dropWhile_append_of_pos n.ints_digits,
    takeWhile_fraction, dropWhile_fraction, append_nil] at h
  by_cases hscale : n.scale ≤ 38
  · rw [splitFraction_fraction n hscale] at h
    dsimp only [bind, Except.bind] at h
    split at h
    · cases h
    split at h
    · cases h
    obtain ⟨intPart, hint, hrest⟩ := bind_eq_ok.1 h
    obtain ⟨fracPart, hfrac, hlast⟩ := bind_eq_ok.1 hrest
    clear h hrest
    split at hlast <;> cases hlast
    next mantissa hm =>
      obtain ⟨hm, hmax⟩ := checkedMulAdd_eq_some hm
      rw [parseI128_eq_ok hint, parseI128_eq_ok hfrac] at hm
      have hnonneg : 0 ≤ mantissa := by rw [hm]; positivity
      have hval : n.mantissa = if n.sign = some true then -mantissa else mantissa := by
        rw [Numeral.mantissa, hm]
        rfl
      refine ⟨?_, ?_⟩
      · rw [wrap128_val, hval]
        · simp
        all_goals
          simp only [i128Min, i128Max] at hmax ⊢
          split <;> omega
      · rw [Fin.val_ofNat]
        exact Nat.mod_eq_of_lt (show n.scale < 256 by omega)
  · obtain ⟨e, he⟩ := splitFraction_error n hscale
    rw [he] at h
    cases h

/-! ## The order -/

/-- The order of the rational numbers `m / 10 ^ s`. -/
def rationalOrder (a b : Value) : Ordering :=
  compare (a.number.1 / 10 ^ a.number.2 : ℚ) (b.number.1 / 10 ^ b.number.2)

/-- Both mantissas at the greater scale. -/
def aligned (a b : Value) : Int × Int :=
  (a.number.1 * 10 ^ (b.number.2 - a.number.2), b.number.1 * 10 ^ (a.number.2 - b.number.2))

/-- `10i128.pow` does not overflow. -/
def PowFits (a b : Value) : Prop := a.number.2 ≤ b.number.2 + 38 ∧ b.number.2 ≤ a.number.2 + 38

/-- The products fit into an `i128`. -/
def ProductsFit (a b : Value) : Prop :=
  (i128Min ≤ (aligned a b).1 ∧ (aligned a b).1 ≤ i128Max) ∧
    i128Min ≤ (aligned a b).2 ∧ (aligned a b).2 ≤ i128Max

/-- A number past an end of the range of an `i128`, and the number at that end. -/
def PastEnd (p q : Int) : Prop := (i128Max < p ∧ q = i128Max) ∨ (p < i128Min ∧ q = i128Min)

instance (p q : Int) : Decidable (PastEnd p q) := inferInstanceAs (Decidable (_ ∨ _))

/-- No product of decimals leaves the range next to a mantissa at that end of it. -/
def KeptApart (a b : Value) : Prop :=
  match a, b with
  | .decimal _ _, .decimal _ _ =>
    ¬ PastEnd (aligned a b).1 (aligned a b).2 ∧ ¬ PastEnd (aligned a b).2 (aligned a b).1
  | _, _ => True

variable {a b : Value} {p q : Int} {m m' : SInt 128} {s s' : Byte}

theorem rationalOrder_eq (a b : Value) :
    rationalOrder a b = compare (aligned a b).1 (aligned a b).2 := by
  have hmono : StrictMono fun n : Int => (n : ℚ) / 10 ^ max a.number.2 b.number.2 :=
    fun _ _ h => div_lt_div_of_pos_right (Int.cast_lt.2 h) (by positivity)
  have hscale (n : Int) {k : Nat} (j : Nat) (h : max a.number.2 b.number.2 = j + k) :
      (n : ℚ) / 10 ^ k = (n * 10 ^ j : Int) / 10 ^ max a.number.2 b.number.2 := by
    rw [h, pow_add, mul_comm n]
    push_cast
    rw [mul_div_mul_left _ _ (by positivity)]
  rw [rationalOrder, hscale _ (b.number.2 - a.number.2) (by omega),
    hscale b.number.1 (a.number.2 - b.number.2) (by omega), ← cmp_eq_compare, ← cmp_eq_compare]
  exact hmono.cmp_map_eq _ _

/-- Saturation keeps the order of what it does not make equal. -/
theorem compare_saturate : compare (saturate p) (saturate q) = compare p q ↔
    (saturate p = saturate q → p = q) := by
  constructor
  · intro h he
    rw [he, compare_eq_iff_eq.2 rfl] at h
    exact compare_eq_iff_eq.1 h.symm
  · intro h
    have hlt {p q : Int} (hpq : p < q) (hne : saturate p ≠ saturate q) : saturate p < saturate q := by
      rw [saturate, saturate] at hne ⊢
      omega
    rcases lt_trichotomy p q with hpq | rfl | hpq
    · rw [compare_lt_iff_lt.2 hpq, compare_lt_iff_lt.2 (hlt hpq fun he => hpq.ne (h he))]
    · rw [compare_eq_iff_eq.2 rfl, compare_eq_iff_eq.2 rfl]
    · rw [compare_gt_iff_gt.2 hpq, compare_gt_iff_gt.2 (hlt hpq fun he => hpq.ne' (h he.symm))]

/-- If one of two numbers is in the range, saturation makes them equal only at its ends. -/
theorem saturate_eq_iff (h : saturate p = p ∨ saturate q = q) :
    (saturate p = saturate q → p = q) ↔ ¬ PastEnd p q ∧ ¬ PastEnd q p := by
  have hends : i128Min < i128Max := by decide
  simp only [saturate, PastEnd] at h ⊢
  omega

/-- One of the two is a mantissa as it is. -/
theorem saturate_aligned (m m' : SInt 128) (s s' : Byte) :
    saturate (aligned (.decimal m s) (.decimal m' s')).1 = (aligned (.decimal m s) (.decimal m' s')).1 ∨
      saturate (aligned (.decimal m s) (.decimal m' s')).2 =
        (aligned (.decimal m s) (.decimal m' s')).2 := by
  have hm (m : SInt 128) : saturate m.val = m.val :=
    saturate_of_range m.lower (Int.le_sub_one_of_lt m.upper)
  simp only [aligned, number]
  rcases le_total s.val s'.val with h | h
  · right
    rw [Nat.sub_eq_zero_of_le h, pow_zero, mul_one, hm]
  · left
    rw [Nat.sub_eq_zero_of_le h, pow_zero, mul_one, hm]

theorem compareScaled_exact_iff (h : PowFits (.decimal m s) (.decimal m' s')) :
    compareScaled m.val s.val m'.val s'.val = rationalOrder (.decimal m s) (.decimal m' s') ↔
      KeptApart (.decimal m s) (.decimal m' s') := by
  have hm (m : SInt 128) : saturate m.val = m.val :=
    saturate_of_range m.lower (Int.le_sub_one_of_lt m.upper)
  have hsat : compareScaled m.val s.val m'.val s'.val =
      compare (saturate (aligned (.decimal m s) (.decimal m' s')).1)
        (saturate (aligned (.decimal m s) (.decimal m' s')).2) := by
    simp only [PowFits, number] at h
    simp only [aligned, number]
    rw [compareScaled]
    split
    · rename_i heq
      rw [heq, Nat.sub_self, pow_zero, mul_one, mul_one, hm, hm]
    split
    · rw [show s'.val - s.val = 0 by omega, pow_zero, mul_one, hm, pow10_eq (by omega)]
      rfl
    · rw [show s.val - s'.val = 0 by omega, pow_zero, mul_one, hm, pow10_eq (by omega)]
      rfl
  rw [hsat, rationalOrder_eq, compare_saturate, saturate_eq_iff (saturate_aligned m m' s s')]
  rfl

theorem compareBounds_exact (h : PowFits (.decimal m s) (.decimal m' s'))
    (hfit : ProductsFit (.decimal m s) (.decimal m' s')) :
    compareBounds (.decimal m s) (.decimal m' s') =
      some (rationalOrder (.decimal m s) (.decimal m' s')) := by
  obtain ⟨h1, h2⟩ := hfit
  rw [rationalOrder_eq, compareBounds]
  simp only [PowFits, aligned, number] at h h1 h2 ⊢
  split
  · rename_i hle
    rw [pow10_eq (by omega), wrap128_val h2.1 h2.2, Nat.sub_eq_zero_of_le hle, pow_zero, mul_one]
  · rw [pow10_eq (by omega), wrap128_val h1.1 h1.2, show s.val - s'.val = 0 by omega, pow_zero, mul_one]

theorem compareValues_exact_iff (o : Ops) (x : TextOps) (c : SessionCollation)
    (ha : a.kind = some .number) (hb : b.kind = some .number) (h : PowFits a b) :
    (∀ ord, compareValues (sqlOps o x c) a b = .ok ord → ord = rationalOrder a b) ↔ KeptApart a b := by
  rw [rationalOrder_eq]
  cases a <;> cases ha <;> cases b <;> cases hb
  case decimal.refl.decimal.refl =>
    have hiff := compareScaled_exact_iff h
    rw [rationalOrder_eq] at hiff
    refine ⟨fun hall => hiff.1 (hall _ rfl), fun ht ord hord => ?_⟩
    cases hord
    exact hiff.2 ht
  case int.refl.decimal.refl | bigInt.refl.decimal.refl =>
    refine iff_of_true (fun ord hord => ?_) trivial
    obtain ⟨-, rfl⟩ := compareIntDecimal_eq_ok (by simpa [number] using h.2) hord
    simp [aligned, number]
  case decimal.refl.int.refl | decimal.refl.bigInt.refl =>
    refine iff_of_true (fun ord hord => ?_) trivial
    obtain ⟨-, rfl⟩ := compareIntDecimal_swap_eq_ok (by simpa [number] using h.1) hord
    simp [aligned, number]
  all_goals
    refine iff_of_true (fun ord hord => ?_) trivial
    cases hord
    simp [aligned, number]

/-- An ordering with a numeral is that with the decimal of its digits. -/
theorem textVsDecimalCmp_eq_ok {n : Numeral} {t : Utf8} {ord : Ordering} (ht : trim t.bytes = n.text)
    (h : textVsDecimalCmp t m s = .ok ord) :
    ∃ m' s', n.decimal = .decimal m' s' ∧ ord = compareScaled m.val s.val m'.val s'.val ∧
      n.value = m'.val / 10 ^ s'.val := by
  rw [textVsDecimalCmp] at h
  split at h <;> cases h
  next m' s' hparse =>
    obtain ⟨hm, hs⟩ := parseTextToDecimal_eq_ok ht hparse
    refine ⟨m', s', ?_, rfl, by rw [Numeral.value_eq, hm, hs]⟩
    rw [Numeral.decimal, ← hm, ← hs, Fin.ofNat_val_eq_self]
    congr
    exact sint_val_inj.1 (wrap128_val m'.lower (Int.le_sub_one_of_lt m'.upper))

/-- What is compared exactly: by `compare_values`, numbers whose power of ten fits, decimals only
if they are kept apart; by `text_vs_decimal_cmp` the same, of a decimal and a numeral; by
`compare_bounds`, decimals whose products fit too. -/
theorem decimal_order_iff (o : Ops) (x : TextOps) (c : SessionCollation) {a b : Value}
    (ha : a.kind = some .number) (hb : b.kind = some .number) :
    ((PowFits a b ∧ ∀ ord, compareValues (sqlOps o x c) a b = .ok ord → ord = rationalOrder a b) ↔
      PowFits a b ∧ KeptApart a b) ∧
    ∀ m s, a = .decimal m s →
      (∀ m' s', b = .decimal m' s' → PowFits a b → ProductsFit a b →
        compareBounds a b = some (rationalOrder a b)) ∧
      ∀ (n : Numeral) (t : Utf8) (ord : Ordering), trim t.bytes = n.text →
        textVsDecimalCmp t m s = .ok ord →
        ((PowFits a n.decimal ∧ ord = compare (m.val / 10 ^ s.val : ℚ) n.value) ↔
          PowFits a n.decimal ∧ KeptApart a n.decimal) := by
  refine ⟨and_congr_right fun h => compareValues_exact_iff o x c ha hb h, ?_⟩
  rintro m s rfl
  refine ⟨?_, fun n t ord ht hord => and_congr_right fun h => ?_⟩
  · rintro m' s' rfl
    exact compareBounds_exact
  · obtain ⟨m', s', hn, rfl, hvalue⟩ := textVsDecimalCmp_eq_ok ht hord
    rw [hn] at h ⊢
    rw [hvalue]
    exact compareScaled_exact_iff h

/-- The numeral `+.5`. -/
def half : Numeral := ⟨some false, [], some [53], by simp, by simp [isAsciiDigit]⟩

/-- `0.05` against `0.5` and against the text `+.5`. -/
theorem decimal_order_iff_half :
    (∀ ord, compareValues (sqlOps plainOps joseText .binary) (.decimal (.wrap 128 5) 2)
        (.decimal (.wrap 128 5) 1) = .ok ord →
      ord = rationalOrder (.decimal (.wrap 128 5) 2) (.decimal (.wrap 128 5) 1)) ∧
      .lt = compare (((SInt.wrap 128 5).val : Int) / 10 ^ 2 : ℚ) half.value := by
  have hall := decimal_order_iff plainOps joseText .binary (a := .decimal (.wrap 128 5) 2)
    (b := .decimal (.wrap 128 5) 1) rfl rfl
  refine ⟨(hall.1.2 ⟨⟨by decide, by decide⟩, by decide, by decide⟩).2, ?_⟩
  exact (((hall.2 _ _ rfl).2 half ⟨[43, 46, 53], by decide⟩ .lt (by decide) (by decide)).2
    ⟨⟨by decide, by decide⟩, by decide, by decide⟩).2

/-- The greatest mantissa with one decimal place and with none: equal for `compare_values`, and
the wrong way round for `compare_bounds` in a release build. -/
theorem saturated_equal :
    let a : Value := .decimal (.wrap 128 (2 ^ 127 - 1)) 1
    let b : Value := .decimal (.wrap 128 (2 ^ 127 - 1)) 0
    compareValues (sqlOps plainOps joseText .binary) a b = .ok .eq ∧
      compareBounds a b = some .gt ∧ rationalOrder a b = .lt :=
  ⟨rfl, rfl, rationalOrder_eq _ _⟩

end AxiomDb.Row
