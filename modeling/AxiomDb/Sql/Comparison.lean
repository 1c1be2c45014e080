import AxiomDb.Sql.BatchAgreement

/-!
# Comparisons of values

`eval_binary` compares values of most types by `compare_values`, which puts them in an
order, and looks at text, arrays, ranges, amounts of money and label paths on their own:
equality of text does not come from the order of text, and equality of ranges is that of
their fields. `BETWEEN` and `IN` are computed from the same parts.

Unicode folding and the collators of ICU come from other crates, comparisons of floats with
other numbers and of text with numbers and dates are left to `Ops`.
-/

namespace AxiomDb.Row

open Lib Sql

/-! ## Equality of values -/

mutual
/-- `PartialEq` of values, floats by their bits. -/
def Value.beq : Value → Value → Bool
  | .null, .null => true
  | .bool a, .bool b => a == b
  | .int a, .int b => a == b
  | .bigInt a, .bigInt b => a == b
  | .real a, .real b => a == b
  | .decimal m s, .decimal m' s' => m == m' && s == s'
  | .text a, .text b => a == b
  | .bytes a, .bytes b => a == b
  | .date a, .date b => a == b
  | .timestamp a, .timestamp b => a == b
  | .timestampTz a, .timestampTz b => a == b
  | .uuid a, .uuid b => a == b
  | .json a, .json b => a == b
  | .jsonb a, .jsonb b => a == b
  | .array as, .array bs => beqList as bs
  | .range a, .range b => beqRange a b
  | .money m s c, .money m' s' c' => m == m' && s == s' && c == c'
  | .composite as, .composite bs => beqList as bs
  | .ltree a, .ltree b => a == b
  | .xml a, .xml b => a == b
  | _, _ => false

def beqList : List Value → List Value → Bool
  | [], [] => true
  | a :: as, b :: bs => a.beq b && beqList as bs
  | _, _ => false

def beqRange : RangeValue Value → RangeValue Value → Bool
  | ⟨lo, up, loInc, upInc, e⟩, ⟨lo', up', loInc', upInc', e'⟩ =>
    beqBound lo lo' && beqBound up up' && loInc == loInc' && upInc == upInc' && e == e'

def beqBound : Option Value → Option Value → Bool
  | none, none => true
  | some a, some b => a.beq b
  | _, _ => false
end

mutual
theorem Value.beq_iff : ∀ a b : Value, a.beq b = true ↔ a = b := by
  intro a b
  cases a <;> cases b <;> simp [Value.beq, Subtype.ext_iff, and_assoc]
  · exact beqList_iff _ _
  · exact beqRange_iff _ _
  · exact beqList_iff _ _

theorem beqList_iff : ∀ as bs : List Value, beqList as bs ↔ as = bs := by
  intro as bs
  cases as <;> cases bs <;> simp [beqList]
  rw [Value.beq_iff, beqList_iff]

theorem beqRange_iff : ∀ a b : RangeValue Value, beqRange a b ↔ a = b := by
  intro a b
  cases a
  cases b
  simp only [beqRange, Bool.and_eq_true, beq_iff_eq, RangeValue.mk.injEq, and_assoc]
  rw [beqBound_iff, beqBound_iff]

theorem beqBound_iff : ∀ a b : Option Value, beqBound a b ↔ a = b := by
  intro a b
  cases a <;> cases b <;> simp [beqBound]
  rw [Value.beq_iff]
end

instance : DecidableEq Value := fun a b => decidable_of_iff _ (Value.beq_iff a b)

instance : DecidableEq (RangeValue Value) := fun a b => decidable_of_iff _ (beqRange_iff a b)

/-! ## Text -/

inductive IcuLocale where
  | turkish | german | spanish | swedish | french | czech | polish | unicodeCi
  deriving DecidableEq

inductive SessionCollation where
  | binary
  | es
  | icu (locale : IcuLocale)
  deriving DecidableEq

/-- What text comparisons take from elsewhere: the fold to NFC in lower case without
combining marks, and the comparison of a locale, which is that of its collator, or of the
folds if there is none. -/
structure TextOps where
  fold : Utf8 → Utf8
  icuCompare : IcuLocale → Utf8 → Utf8 → Ordering
  trans : ∀ locale, Std.TransCmp (icuCompare locale)

namespace TextOps

variable (x : TextOps) (c : SessionCollation)

/-- `canonical_text` in `text_semantics.rs`. -/
def canonicalText (s : Utf8) : Utf8 :=
  match c with
  | .binary => s
  | .es | .icu _ => x.fold s

/-- `compare_text` in `text_semantics.rs`. -/
def compareText (a b : Utf8) : Ordering :=
  match c with
  | .binary => compare a.bytes b.bytes
  | .es => (compare (x.fold a).bytes (x.fold b).bytes).then (compare a.bytes b.bytes)
  | .icu locale => x.icuCompare locale a b

/-- `text_eq` in `text_semantics.rs`. -/
def textEq (a b : Utf8) : Bool :=
  match c with
  | .binary => a == b
  | .es => x.fold a == x.fold b
  | .icu locale => x.icuCompare locale a b == .eq

end TextOps

/-! ## Numbers -/

/-- `10i128.pow`, which wraps around in a release build. -/
def pow10 (k : Nat) : Int := (SInt.wrap 128 (10 ^ k)).val

def i128Max : Int := 2 ^ 127 - 1

def i128Min : Int := -2 ^ 127

def saturatingMul (a b : Int) : Int := max i128Min (min i128Max (a * b))

def checkedMul (a b : Int) : Option Int :=
  if i128Min ≤ a * b ∧ a * b ≤ i128Max then some (a * b) else none

/-- The comparison of two mantissas with scales, as for decimals and for money. -/
def compareScaled (m₁ : Int) (s₁ : Nat) (m₂ : Int) (s₂ : Nat) : Ordering :=
  if s₁ = s₂ then compare m₁ m₂
  else if s₂ < s₁ then compare m₁ (saturatingMul m₂ (pow10 (s₁ - s₂)))
  else compare (saturatingMul m₁ (pow10 (s₂ - s₁))) m₂

def incomparable (l r : Value) : Except EvalError Ordering :=
  .error (.typeMismatch "comparable types" (l.variantName ++ " and " ++ r.variantName))

/-- An integer and a decimal: the integer adopts the scale, or nothing is coerced. -/
def compareIntDecimal (l r : Value) (n m : Int) (s : Nat) : Except EvalError Ordering :=
  match checkedMul n (pow10 s) with
  | some n => .ok (compare n m)
  | none => incomparable l r

/-- The comparisons of floats with integers, and of text that is parsed. -/
def isLoose : Value → Value → Bool
  | .int _, .real _ | .real _, .int _ | .bigInt _, .real _ | .real _, .bigInt _
  | .decimal _ _, .text _ | .text _, .decimal _ _ | .timestamp _, .text _ | .text _, .timestamp _
  | .timestampTz _, .text _ | .text _, .timestampTz _ | .date _, .text _ | .text _, .date _ => true
  | _, _ => false

variable (o : Ops) (x : TextOps) (c : SessionCollation)

/-- `compare_values`, but for the pairs that `compareValues` compares itself. -/
def compareOther (l r : Value) : Except EvalError Ordering :=
  match l, r with
  | .decimal m s, .decimal m' s' => .ok (compareScaled m.val s.val m'.val s'.val)
  | .int n, .decimal m s => compareIntDecimal l r n.val m.val s.val
  | .bigInt n, .decimal m s => compareIntDecimal l r n.val m.val s.val
  | .decimal m s, .int n => (compareIntDecimal l r n.val m.val s.val).map Ordering.swap
  | .decimal m s, .bigInt n => (compareIntDecimal l r n.val m.val s.val).map Ordering.swap
  | .text a, .text b => .ok (x.compareText c a b)
  | .bytes a, .bytes b => .ok (compare a b)
  | .timestampTz a, .timestampTz b => .ok (compare a.val b.val)
  | .timestamp a, .timestampTz b => .ok (compare a.val b.val)
  | .timestampTz a, .timestamp b => .ok (compare a.val b.val)
  | .uuid a, .uuid b => .ok (compare a.val b.val)
  | l, r => if isLoose l r then o.compareOther l r else incomparable l r

/-! ## Arrays, ranges, money, label paths -/

/-- `op_variant_name` in `ops.rs`. -/
def BinaryOp.variantName : BinaryOp → String
  | .eq => "Eq"
  | .notEq => "NotEq"
  | .lt => "Lt"
  | .ltEq => "LtEq"
  | .gt => "Gt"
  | _ => "GtEq"

/-- The elements of two arrays of one length: the first pair that is not equal decides, a
NULL makes the result NULL. -/
def elemsEqual (cmp : Value → Value → Except EvalError Ordering) : List Value → List Value → EvalResult
  | ae :: as, be :: bs => match ae, be with
    | .null, _ | _, .null => .ok .null
    | .array as', .array bs' => do
      if as'.length ≠ bs'.length then .ok (.bool false)
      else match ← elemsEqual cmp as' bs' with
        | .bool true => elemsEqual cmp as bs
        | .bool false => .ok (.bool false)
        | _ => .ok .null
    | ae, be => do
      if (← cmp ae be) ≠ .eq then .ok (.bool false) else elemsEqual cmp as bs
  | _, _ => .ok (.bool true)

def arrayEquals (cmp : Value → Value → Except EvalError Ordering) (as : List Value) (b : Value) :
    EvalResult :=
  match b with
  | .null => .ok .null
  | .array bs => if as.length ≠ bs.length then .ok (.bool false) else elemsEqual cmp as bs
  | b => .error (.typeMismatch "Array" b.variantName)

/-- `apply_not` in `ops.rs`. -/
def applyNot : Value → Value
  | .bool b => .bool !b
  | v => v

/-- `eval_binary_array` in `ops.rs`. -/
def evalBinaryArray (cmp : Value → Value → Except EvalError Ordering) (op : BinaryOp)
    (as : List Value) (r : Value) : EvalResult :=
  match op with
  | .eq => arrayEquals cmp as r
  | .notEq => (arrayEquals cmp as r).map applyNot
  | op => .error (.typeMismatch "array operator" (op.variantName ++ " on Array"))

/-- `compare_bounds`. The product wraps around in a release build. -/
def compareBounds : Value → Value → Option Ordering
  | .int a, .int b => some (compare a.val b.val)
  | .bigInt a, .bigInt b => some (compare a.val b.val)
  | .decimal m s, .decimal m' s' =>
    if s'.val ≤ s.val then some (compare m.val (SInt.wrap 128 (m'.val * pow10 (s.val - s'.val))).val)
    else some (compare (SInt.wrap 128 (m.val * pow10 (s'.val - s.val))).val m'.val)
  | .date a, .date b => some (compare a.val b.val)
  | .timestamp a, .timestamp b => some (compare a.val b.val)
  | _, _ => none

/-- `compare_option_bounds` in `range_value.rs`. -/
def compareOptionBounds (a : Option Value) (aInc : Bool) (b : Option Value) (bInc isLower : Bool) :
    Ordering :=
  match a, b with
  | none, none => .eq
  | none, some _ => if isLower then .lt else .gt
  | some _, none => if isLower then .gt else .lt
  | some av, some bv => match compareBounds av bv with
    | some .eq => if isLower then compare bInc.toNat aInc.toNat else compare aInc.toNat bInc.toNat
    | some ord => ord
    | none => .eq

/-- `partial_cmp` of ranges, which always gives an order. -/
def RangeValue.cmp (a b : RangeValue Value) : Ordering :=
  match a.isEmpty, b.isEmpty with
  | true, true => .eq
  | true, false => .lt
  | false, true => .gt
  | false, false =>
    (compareOptionBounds a.lower a.lowerInc b.lower b.lowerInc true).then
      (compareOptionBounds a.upper a.upperInc b.upper b.upperInc false)

/-- What an order makes of a comparison if equality is decided apart. -/
def BinaryOp.verdict (op : BinaryOp) (ord : Ordering) (eq : Bool) : Bool :=
  match op with
  | .eq => eq
  | .notEq => !eq
  | op => op.holds ord

def BinaryOp.symbol : BinaryOp → String
  | .eq => "="
  | .notEq => "<>"
  | .lt => "<"
  | .ltEq => "<="
  | .gt => ">"
  | _ => ">="

/-- `eval_binary_range` in `ops.rs`. -/
def evalBinaryRange (op : BinaryOp) (a : RangeValue Value) (r : Value) : EvalResult :=
  match r with
  | .range b => .ok (.bool (op.verdict (a.cmp b) (decide (a = b))))
  | r => .error (.typeMismatch ("RANGE " ++ op.symbol ++ " RANGE")
      ("Range " ++ op.symbol ++ " " ++ r.variantName))

/-- Money of two currencies is unequal, and has no order. -/
def evalBinaryMoney (op : BinaryOp) (l r : Value) : EvalResult :=
  match l, r with
  | .money m s cur, .money m' s' cur' =>
    if cur = cur' then .ok (.bool (op.holds (compareScaled m.val s.val m'.val s'.val)))
    else match op with
      | .eq => .ok (.bool false)
      | .notEq => .ok (.bool true)
      | op => .error (.typeMismatch "MONEY +/- MONEY (same currency)"
          ("Money " ++ op.variantName ++ " Money"))
  | l, r => .error (.typeMismatch "MONEY +/- MONEY (same currency)"
      (l.variantName ++ " " ++ op.variantName ++ " " ++ r.variantName))

/-- `eval_binary_ltree` in `ops.rs`. -/
def evalBinaryLtree (op : BinaryOp) (a : Utf8) (r : Value) : EvalResult :=
  match r with
  | .null => .ok .null
  | .ltree b | .text b => .ok (.bool (op.holds (compare a.bytes b.bytes)))
  | r => .error (.typeMismatch "LTREE" r.variantName)

/-- The operands with operators of their own, in the order in which `eval_binary` looks at
them. -/
def dispatch (cmp : Value → Value → Except EvalError Ordering) (op : BinaryOp) (l r : Value) :
    EvalResult :=
  match l, r with
  | .array as, r => evalBinaryArray cmp op as r
  | .range a, r => evalBinaryRange op a r
  | .money m s cur, r => evalBinaryMoney op (.money m s cur) r
  | l, .money m s cur => evalBinaryMoney op l (.money m s cur)
  | .ltree a, r => evalBinaryLtree op a r
  | _, _ => .ok .null

/-- The evaluator's comparisons in a session. -/
def sqlOps : Ops :=
  let base : Ops := { o with
    compareOther := compareOther o x c
    textCompare := fun op a b => if op = .eq then x.textEq c a b else !x.textEq c a b }
  { base with
    dispatch := fun op l r =>
      if op.isComparison then dispatch (compareValues base) op l r else o.dispatch op l r }

/-! ## `BETWEEN` and `IN` -/

/-- `apply_and_values` in `ops.rs`. -/
def applyAndValues : Value → Value → Value
  | .bool false, _ | _, .bool false => .bool false
  | .bool true, .bool true => .bool true
  | _, _ => .null

/-- `Expr::Between`, of what its operands evaluate to. -/
def evalBetween (v lo hi : Value) (negated : Bool) : EvalResult := do
  let ge ← evalBinary o .gtEq v lo
  let le ← evalBinary o .ltEq v hi
  let result := applyAndValues ge le
  .ok (if negated then applyNot result else result)

/-- The loop over the list of `eval_in`. -/
def evalInLoop (v : Value) (hasNull : Bool) : List EvalResult → EvalResult
  | [] => if hasNull then .ok .null else .ok (.bool false)
  | item :: items => do
    match ← item with
    | .null => evalInLoop v true items
    | iv => match compareValues o v iv with
      | .ok .eq => .ok (.bool true)
      | _ => evalInLoop v hasNull items

/-- `eval_in` in `ops.rs`. -/
def evalIn (v : Value) (list : List EvalResult) : EvalResult :=
  match v with
  | .null => .ok .null
  | v => evalInLoop o v false list

end AxiomDb.Row
