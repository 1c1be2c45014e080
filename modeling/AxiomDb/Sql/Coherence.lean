import AxiomDb.Sql.Comparison

/-!
# Comparisons agree with one another

Whatever the collation, of two values of one kind that have an order just one of `<`, `=`
and `>` holds, unless `=` and the order of their type are not one: text is equal under the
folding collation if its folds are, but the order goes on to the text itself, and ranges
are equal if their fields are, but the order compares decimals by their numbers
(`orderDecides`). `<` is transitive, also where the comparison of decimals saturates.
`BETWEEN` is the conjunction it stands for. `IN` asks the order alone (`inDecides`).
-/

namespace AxiomDb.Row

open Lib Sql List Value BinaryOp Except RangeValue

variable (o : Ops) (x : TextOps) (c : SessionCollation)

/-! ## The order of scaled numbers -/

variable {op : BinaryOp} {eq e1 e2 e3 : Bool} {e : EvalError} {m m1 m2 n : Int}
  {items vs : List Value} {k s s1 s2 : Nat} {ord : Ordering} {t : Utf8} {a b l r v : Value}
  {cmp : Value → Value → Except EvalError Ordering}

theorem ten_pow_lt (h : k ≤ 38) : (10 : Int) ^ k < 2 ^ 127 :=
  lt_of_le_of_lt (pow_le_pow_right₀ (by norm_num) h) (by norm_num)

theorem wrap128_val (hmin : i128Min ≤ n) (hmax : n ≤ i128Max) : (SInt.wrap 128 n).val = n := by
  rw [i128Min] at hmin
  rw [i128Max] at hmax
  show (n + 2 ^ 127) % 2 ^ 128 - 2 ^ 127 = n
  norm_num at hmin hmax ⊢
  omega

theorem pow10_eq (h : k ≤ 38) : pow10 k = 10 ^ k := by
  have hpos : (0 : Int) < 10 ^ k := by positivity
  have hlt := ten_pow_lt h
  exact wrap128_val (by rw [i128Min]; omega) (by rw [i128Max]; omega)

/-- Mantissas and scales of decimals. -/
structure Scaled (m : Int) (s : Nat) : Prop where
  min : i128Min ≤ m
  max : m ≤ i128Max
  scale : s ≤ 38

/-- A mantissa at the largest scale. -/
def atMaxScale (m : Int) (s : Nat) : Int := m * 10 ^ (38 - s)

theorem atMaxScale_eq {s' : Nat} (h : s ≤ s') (h' : s' ≤ 38) :
    atMaxScale m s = m * 10 ^ (s' - s) * 10 ^ (38 - s') := by
  rw [atMaxScale, mul_assoc, ← pow_add]
  congr 2
  omega

/-- Saturation, of a number that is already a product. -/
def saturate (n : Int) : Int := max i128Min (min i128Max n)

theorem saturate_of_range (hmin : i128Min ≤ n) (hmax : n ≤ i128Max) : saturate n = n := by
  rw [saturate, min_eq_right hmax, max_eq_right hmin]

theorem compareScaled_of_le (h1 : Scaled m1 s1) (h2 : Scaled m2 s2) (h : s1 ≤ s2) :
    compareScaled m1 s1 m2 s2 = compare (saturate (m1 * 10 ^ (s2 - s1))) m2 := by
  have hscale := h2.scale
  rw [compareScaled]
  split
  next heq => rw [heq, Nat.sub_self, pow_zero, mul_one, saturate_of_range h1.min h1.max]
  · rw [if_neg (by omega), pow10_eq (by omega), saturatingMul, saturate]

theorem compareScaled_of_ge (h1 : Scaled m1 s1) (h2 : Scaled m2 s2) (h : s2 ≤ s1) :
    compareScaled m1 s1 m2 s2 = compare m1 (saturate (m2 * 10 ^ (s1 - s2))) := by
  have hscale := h1.scale
  rw [compareScaled]
  split
  next heq => rw [heq, Nat.sub_self, pow_zero, mul_one, saturate_of_range h2.min h2.max]
  · rw [if_pos (by omega), pow10_eq (by omega), saturatingMul, saturate]

theorem i128Min_neg : i128Min < 0 := by rw [i128Min]; norm_num

theorem i128Max_pos : 0 < i128Max := by rw [i128Max]; norm_num

/-- The ends of the range stay where they are. -/
theorem i128Max_le_mul : i128Max ≤ i128Max * 10 ^ k :=
  le_mul_of_one_le_right i128Max_pos.le (one_le_pow₀ (by norm_num))

theorem mul_le_i128Min : i128Min * 10 ^ k ≤ i128Min := by
  have h : (1 : Int) ≤ 10 ^ k := one_le_pow₀ (by norm_num)
  nlinarith [i128Min_neg]

/-- What is less is less as a number, and neither is at the end where a product may have
been cut off. -/
theorem lt_of_compareScaled (h1 : Scaled m1 s1) (h2 : Scaled m2 s2)
    (h : compareScaled m1 s1 m2 s2 = .lt) :
    atMaxScale m1 s1 < atMaxScale m2 s2 ∧ m1 ≠ i128Max ∧ m2 ≠ i128Min := by
  have hneg := i128Min_neg
  have hpos := i128Max_pos
  have hmin1 := h1.min
  have hmax2 := h2.max
  rcases Nat.le_total s1 s2 with hs | hs
  · rw [compareScaled_of_le h1 h2 hs, compare_lt_iff_lt, saturate] at h
    refine ⟨?_, ?_, by omega⟩
    · rw [atMaxScale_eq hs h2.scale, atMaxScale]
      exact mul_lt_mul_of_pos_right (by omega) (by positivity)
    · rintro rfl
      have := @i128Max_le_mul (s2 - s1)
      omega
  · rw [compareScaled_of_ge h1 h2 hs, compare_lt_iff_lt, saturate] at h
    refine ⟨?_, by omega, ?_⟩
    · rw [atMaxScale_eq hs h1.scale, atMaxScale]
      exact mul_lt_mul_of_pos_right (by omega) (by positivity)
    · rintro rfl
      have := @mul_le_i128Min (s1 - s2)
      omega

theorem compareScaled_of_lt (h1 : Scaled m1 s1) (h2 : Scaled m2 s2)
    (h : atMaxScale m1 s1 < atMaxScale m2 s2) (hne1 : m1 ≠ i128Max) (hne2 : m2 ≠ i128Min) :
    compareScaled m1 s1 m2 s2 = .lt := by
  have hmax1 := h1.max
  have hmin2 := h2.min
  rcases Nat.le_total s1 s2 with hs | hs
  · rw [atMaxScale_eq hs h2.scale, atMaxScale] at h
    have hlt := lt_of_mul_lt_mul_right h (by positivity)
    rw [compareScaled_of_le h1 h2 hs, compare_lt_iff_lt, saturate]
    omega
  · rw [atMaxScale_eq hs h1.scale, atMaxScale] at h
    have hlt := lt_of_mul_lt_mul_right h (by positivity)
    rw [compareScaled_of_ge h1 h2 hs, compare_lt_iff_lt, saturate]
    omega

theorem compareScaled_trans {m3 : Int} {s3 : Nat} (h1 : Scaled m1 s1) (h2 : Scaled m2 s2)
    (h3 : Scaled m3 s3) (h12 : compareScaled m1 s1 m2 s2 = .lt)
    (h23 : compareScaled m2 s2 m3 s3 = .lt) : compareScaled m1 s1 m3 s3 = .lt := by
  obtain ⟨hlt12, hne1, -⟩ := lt_of_compareScaled h1 h2 h12
  obtain ⟨hlt23, -, hne3⟩ := lt_of_compareScaled h2 h3 h23
  exact compareScaled_of_lt h1 h3 (hlt12.trans hlt23) hne1 hne3

/-! ## The order of ranges -/

/-- A bound as a number. -/
def boundKey : Value → Int
  | .int n => n.val
  | .bigInt n => n.val
  | .date d => d.val
  | .timestamp t => t.val
  | .decimal m s => atMaxScale m.val s.val
  | _ => 0

/-- Two bounds of one type; decimals that can be brought to one scale. -/
def boundsFit : Value → Value → Prop
  | .int _, .int _ | .bigInt _, .bigInt _ | .date _, .date _ | .timestamp _, .timestamp _ => True
  | .decimal m s, .decimal m' s' =>
    s.val ≤ 38 ∧ s'.val ≤ 38 ∧
      i128Min ≤ m.val * 10 ^ (s'.val - s.val) ∧ m.val * 10 ^ (s'.val - s.val) ≤ i128Max ∧
      i128Min ≤ m'.val * 10 ^ (s.val - s'.val) ∧ m'.val * 10 ^ (s.val - s'.val) ≤ i128Max
  | _, _ => False

theorem compare_mul_right {a b k : Int} (hk : 0 < k) : compare (a * k) (b * k) = compare a b := by
  rw [← cmp_eq_compare, ← cmp_eq_compare, cmp_mul_pos_right hk]

theorem compareBounds_eq (h : boundsFit a b) :
    compareBounds a b = some (compare (boundKey a) (boundKey b)) := by
  unfold boundsFit at h
  split at h
  case h_5 m s m' s' =>
    obtain ⟨hs, hs', hmin, hmax, hmin', hmax'⟩ := h
    rw [compareBounds, boundKey, boundKey]
    split
    next hle =>
      rw [pow10_eq (by omega), wrap128_val hmin' hmax', atMaxScale_eq hle hs, atMaxScale,
        compare_mul_right (by positivity)]
    next hle =>
      rw [pow10_eq (by omega), wrap128_val hmin hmax, atMaxScale_eq (by omega) hs', atMaxScale,
        compare_mul_right (by positivity)]
  case h_6 => exact h.elim
  all_goals rfl

/-- A lower bound as a list that is compared like it, below all if there is none. -/
def lowerKey : Option Value → Bool → List Int
  | none, _ => [0, 0, 0]
  | some v, inc => [1, boundKey v, if inc then 0 else 1]

def upperKey : Option Value → Bool → List Int
  | none, _ => [1, 0, 0]
  | some v, inc => [0, boundKey v, if inc then 1 else 0]

def RangeValue.key (a : RangeValue Value) : List Int :=
  if a.isEmpty then [0] else 1 :: (lowerKey a.lower a.lowerInc ++ upperKey a.upper a.upperInc)

def optionBoundsFit : Option Value → Option Value → Prop
  | some a, some b => boundsFit a b
  | _, _ => True

/-- The bounds of two ranges fit as far as they are looked at: the upper ones only if the lower
ones are equal. -/
def RangeValue.Fits (a b : RangeValue Value) : Prop :=
  a.isEmpty = true ∨ b.isEmpty = true ∨ (optionBoundsFit a.lower b.lower ∧
    (lowerKey a.lower a.lowerInc = lowerKey b.lower b.lowerInc → optionBoundsFit a.upper b.upper))

theorem compare_cons_cons {α : Type} [Ord α] (a b : α) (as bs : List α) :
    compare (a :: as) (b :: bs) = (compare a b).then (compare as bs) := by
  show List.compareLex compare (a :: as) (b :: bs) = _
  rw [List.compareLex_cons_cons]
  rfl

theorem compareOptionBounds_lower {a b : Option Value} (aInc bInc : Bool) (h : optionBoundsFit a b)
    (as bs : List Int) : compare (lowerKey a aInc ++ as) (lowerKey b bInc ++ bs) =
      (compareOptionBounds a aInc b bInc true).then (compare as bs) := by
  cases a with
  | none => cases b <;> rfl
  | some v =>
    cases b with
    | none => rfl
    | some w =>
      rw [compareOptionBounds, compareBounds_eq h, lowerKey, lowerKey]
      simp only [cons_append, nil_append, compare_cons_cons]
      cases compare (boundKey v) (boundKey w) <;> cases aInc <;> cases bInc <;> rfl

theorem compareOptionBounds_upper {a b : Option Value} (aInc bInc : Bool) (h : optionBoundsFit a b) :
    compare (upperKey a aInc) (upperKey b bInc) = compareOptionBounds a aInc b bInc false := by
  cases a with
  | none => cases b <;> rfl
  | some v =>
    cases b with
    | none => rfl
    | some w =>
      rw [compareOptionBounds, compareBounds_eq h, upperKey, upperKey]
      simp only [compare_cons_cons]
      cases compare (boundKey v) (boundKey w) <;> cases aInc <;> cases bInc <;> rfl

theorem RangeValue.cmp_eq {a b : RangeValue Value} (h : a.Fits b) : a.cmp b = compare a.key b.key := by
  rw [cmp, key, key]
  rw [Fits] at h
  cases ha : a.isEmpty <;> cases hb : b.isEmpty
  · simp only [ha, hb, Bool.false_eq_true, false_or] at h
    obtain ⟨hlower, hupper⟩ := h
    rw [if_neg Bool.false_ne_true, if_neg Bool.false_ne_true, compare_cons_cons,
      compareOptionBounds_lower _ _ hlower]
    by_cases heq : compareOptionBounds a.lower a.lowerInc b.lower b.lowerInc true = .eq
    · have hkey := compareOptionBounds_lower a.lowerInc b.lowerInc hlower [] []
      rw [heq, append_nil, append_nil] at hkey
      rw [compareOptionBounds_upper _ _ (hupper (Std.LawfulEqOrd.compare_eq_iff_eq.1 hkey))]
      rfl
    · revert heq
      cases compareOptionBounds a.lower a.lowerInc b.lower b.lowerInc true
      · exact fun _ => rfl
      · exact fun h => (h rfl).elim
      · exact fun _ => rfl
  · rfl
  · rfl
  · rfl

/-! ## One comparison -/

/-- The types that are compared with one another: the numbers, and each other type with
itself. NULL and floats have none. -/
inductive Kind where
  | bool | number | text | bytes | date | timestamp | timestampTz | uuid | json | jsonb | array
  | range | money | composite | ltree | xml
  deriving DecidableEq

def Value.kind : Value → Option Kind
  | .null | .real _ => none
  | .bool _ => some .bool
  | .int _ | .bigInt _ | .decimal _ _ => some .number
  | .text _ => some .text
  | .bytes _ => some .bytes
  | .date _ => some .date
  | .timestamp _ => some .timestamp
  | .timestampTz _ => some .timestampTz
  | .uuid _ => some .uuid
  | .json _ => some .json
  | .jsonb _ => some .jsonb
  | .array _ => some .array
  | .range _ => some .range
  | .money _ _ _ => some .money
  | .composite _ => some .composite
  | .ltree _ => some .ltree
  | .xml _ => some .xml

/-- Two values of one kind: not NULL, no floats. -/
def Comparable (a b : Value) : Prop := a.kind.isSome ∧ a.kind = b.kind

/-- The order of two values and whether they are equal, if there is an order. -/
def judge (a b : Value) : Except EvalError (Ordering × Bool) :=
  match a, b with
  | .text s, .text t => .ok (x.compareText c s t, x.textEq c s t)
  | .range r, .range r' => .ok (r.cmp r', decide (r = r'))
  | .money m s cur, .money m' s' cur' =>
    let ord := compareScaled m.val s.val m'.val s'.val
    if cur = cur' then .ok (ord, ord == .eq)
    else .error (.typeMismatch "MONEY +/- MONEY (same currency)" "Money Lt Money")
  | .ltree s, .ltree t => .ok (compare s.bytes t.bytes, compare s.bytes t.bytes == .eq)
  | .array _, .array _ => .error (.typeMismatch "array operator" "Lt on Array")
  | a, b => do
    let ord ← compareValues (sqlOps o x c) a b
    .ok (ord, ord == .eq)

theorem verdict_holds (op : BinaryOp) (ord : Ordering) :
    op.verdict ord (ord == .eq) = op.holds ord := by
  cases op <;> rfl

theorem evalBinary_of_dispatches (hop : op.isComparison) (hd : a.dispatches b) :
    evalBinary (sqlOps o x c) op a b = dispatch (compareValues (sqlOps o x c)) op a b := by
  rw [evalBinary, if_pos hd]
  show (if op.isComparison then _ else _) = _
  rw [if_pos hop]
  rfl

theorem evalBinary_text (hop : op.isComparison) (s t : Utf8) :
    evalBinary (sqlOps o x c) op (.text s) (.text t) =
      .ok (.bool (op.verdict (x.compareText c s t) (x.textEq c s t))) := by
  cases op <;> cases hop <;> rfl

/-- The types with operators or an equality of their own, and the others. -/
inductive Pair : Value → Value → Prop where
  | text (s t : _) : Pair (.text s) (.text t)
  | range (r r' : _) : Pair (.range r) (.range r')
  | money (m s cur m' s' cur' : _) : Pair (.money m s cur) (.money m' s' cur')
  | ltree (s t : _) : Pair (.ltree s) (.ltree t)
  | array (as bs : _) : Pair (.array as) (.array bs)
  | other {a b : Value} (hd : a.dispatches b = false) (ha : a.isNull = false) (hb : b.isNull = false)
      (htext : ∀ s, a ≠ .text s) (hjudge : judge o x c a b = (do
        let ord ← compareValues (sqlOps o x c) a b
        .ok (ord, ord == .eq))) : Pair a b

theorem Comparable.pair (hk : Comparable a b) : Pair o x c a b := by
  obtain ⟨hsome, hkind⟩ := hk
  cases a with
  | text s => cases b <;> cases hkind; exact .text ..
  | range r => cases b <;> cases hkind; exact .range ..
  | money m s cur => cases b <;> cases hkind; exact .money ..
  | ltree s => cases b <;> cases hkind; exact .ltree ..
  | array as => cases b <;> cases hkind; exact .array ..
  | _ =>
    cases hsome <;> cases b <;> cases hkind <;> exact .other rfl rfl rfl (fun s hs => (by cases hs)) rfl

/-- All six comparisons come from the order and the equality. -/
theorem evalBinary_judge (hk : Comparable a b) (hop : op.isComparison)
    (h : judge o x c a b = .ok (ord, eq)) :
    evalBinary (sqlOps o x c) op a b = .ok (.bool (op.verdict ord eq)) := by
  cases hk.pair o x c with
  | text s t =>
    cases h
    exact evalBinary_text o x c hop s t
  | range r r' =>
    cases h
    rw [evalBinary_of_dispatches o x c hop rfl]
    rfl
  | money m s cur m' s' cur' =>
    rw [judge] at h
    split at h <;> cases h
    next hcur =>
      rw [evalBinary_of_dispatches o x c hop rfl, dispatch]
      unfold evalBinaryMoney
      dsimp only
      rw [if_pos hcur, verdict_holds]
  | ltree s t =>
    cases h
    rw [evalBinary_of_dispatches o x c hop rfl, verdict_holds]
    rfl
  | array as bs => cases h
  | other hd ha hb htext hjudge =>
    rw [hjudge] at h
    obtain ⟨ord', hord, heq⟩ := bind_eq_ok.1 h
    cases heq
    rw [verdict_holds]
    exact evalBinary_of_compare hd ha hb htext hord

theorem evalBinary_of_error (hd : a.dispatches b = false) (ha : a.isNull = false)
    (hb : b.isNull = false) (htext : ∀ s, a ≠ .text s)
    (h : compareValues (sqlOps o x c) a b = .error e) :
    evalBinary (sqlOps o x c) op a b = .error e := by
  rw [evalBinary, hd, if_neg Bool.false_ne_true, ha, hb, if_neg (by decide)]
  unfold evalComparison
  split
  · exact (htext _ rfl).elim
  · rw [h]
    rfl

theorem evalBinary_lt_error (hk : Comparable a b) (h : judge o x c a b = .error e) :
    evalBinary (sqlOps o x c) .lt a b = .error e := by
  cases hk.pair o x c with
  | text s t => cases h
  | range r r' => cases h
  | money m s cur m' s' cur' =>
    rw [judge] at h
    split at h
    · cases h
    rename_i hcur
    cases h
    rw [evalBinary_of_dispatches o x c rfl rfl, dispatch]
    unfold evalBinaryMoney
    dsimp only
    rw [if_neg hcur]
    rfl
  | ltree s t => cases h
  | array as bs =>
    cases h
    rfl
  | other hd ha hb htext hjudge =>
    rw [hjudge] at h
    cases hord : compareValues (sqlOps o x c) a b with
    | ok ord => rw [hord] at h; cases h
    | error e' =>
      rw [hord] at h
      cases h
      exact evalBinary_of_error o x c hd ha hb htext hord

theorem judge_of_lt (hk : Comparable a b) (h : evalBinary (sqlOps o x c) .lt a b = .ok v) :
    ∃ ord eq, judge o x c a b = .ok (ord, eq) := by
  cases hj : judge o x c a b with
  | ok p => exact ⟨p.1, p.2, rfl⟩
  | error e =>
    rw [evalBinary_lt_error o x c hk hj] at h
    cases h

/-! ## Coherence of a pair -/

/-- A comparison that is TRUE. -/
def Holds (op : BinaryOp) (a b : Value) : Prop := evalBinary (sqlOps o x c) op a b = .ok (.bool true)

/-- One of `<`, `=`, `>`, and `<=` for the first two. -/
structure Coherent (a b : Value) : Prop where
  one : (Holds o x c .lt a b ∧ ¬Holds o x c .eq a b ∧ ¬Holds o x c .gt a b) ∨
    (¬Holds o x c .lt a b ∧ Holds o x c .eq a b ∧ ¬Holds o x c .gt a b) ∨
    (¬Holds o x c .lt a b ∧ ¬Holds o x c .eq a b ∧ Holds o x c .gt a b)
  le : Holds o x c .ltEq a b ↔ Holds o x c .lt a b ∨ Holds o x c .eq a b

theorem holds_iff (hk : Comparable a b) (hop : op.isComparison)
    (h : judge o x c a b = .ok (ord, eq)) : Holds o x c op a b ↔ op.verdict ord eq := by
  rw [Holds, evalBinary_judge o x c hk hop h, Except.ok.injEq, Value.bool.injEq]

/-- A pair is coherent if equality is that of the order. -/
theorem coherent_iff_judge (hk : Comparable a b) (h : judge o x c a b = .ok (ord, eq)) :
    Coherent o x c a b ↔ eq = (ord == .eq) := by
  have hiff : ∀ op : BinaryOp, op.isComparison →
      (Holds o x c op a b ↔ op.verdict ord eq) := fun op hop => holds_iff o x c hk hop h
  constructor
  · rintro ⟨hone, -⟩
    rw [hiff .lt rfl, hiff .eq rfl, hiff .gt rfl] at hone
    cases ord <;> cases eq <;> simp_all [verdict, holds]
  rintro rfl
  constructor
  · rw [hiff .lt rfl, hiff .eq rfl, hiff .gt rfl]
    cases ord <;> simp [verdict, holds]
  · rw [hiff .lt rfl, hiff .eq rfl, hiff .ltEq rfl]
    cases ord <;> simp [verdict, holds]

/-- Equal texts and equal ranges, as `=` sees them, are at one place in the order, and
the other way round. -/
def orderDecides (a b : Value) : Bool :=
  match a, b with
  | .text s, .text t => c != .es || x.fold s != x.fold t || s == t
  | .range r, .range r' => r.cmp r' != .eq || r = r'
  | _, _ => true

theorem compareBounds_self (v : Value) : compareBounds v v = none ∨ compareBounds v v = some .eq := by
  cases v with
  | int n | bigInt n | date n | timestamp n => exact .inr (congrArg some (compare_eq_iff_eq.2 rfl))
  | decimal m s =>
    refine .inr ?_
    rw [compareBounds, if_pos le_rfl, Nat.sub_self, pow10_eq (by decide), pow_zero, mul_one,
      wrap128_val m.lower (Int.le_sub_one_of_lt m.upper), compare_eq_iff_eq.2 rfl]
  | _ => exact .inl rfl

theorem compareOptionBounds_self (a : Option Value) (inc isLower : Bool) :
    compareOptionBounds a inc a inc isLower = .eq := by
  obtain _ | v := a
  · rfl
  rw [compareOptionBounds]
  rcases compareBounds_self v with h | h
  · rw [h]
  · rw [h]
    cases inc <;> cases isLower <;> rfl

theorem RangeValue.cmp_self (r : RangeValue Value) : r.cmp r = .eq := by
  rw [cmp, compareOptionBounds_self, compareOptionBounds_self]
  cases r.isEmpty <;> rfl

theorem compare_bytes_eq_iff {s : Utf8} : compare s.bytes t.bytes = .eq ↔ s = t := by
  rw [Std.LawfulEqOrd.compare_eq_iff_eq]
  exact ⟨fun h => by cases s; cases t; cases h; rfl, fun h => by rw [h]⟩

theorem textEq_iff (s t : Utf8) : x.textEq c s t = (x.compareText c s t == .eq) ↔
    (c != .es || x.fold s != x.fold t || s == t) := by
  cases c with
  | binary =>
    have h : (s == t) = (compare s.bytes t.bytes == .eq) := by
      rw [Bool.eq_iff_iff, beq_iff_eq, beq_iff_eq, compare_bytes_eq_iff]
    exact iff_of_true h rfl
  | icu locale => exact iff_of_true rfl rfl
  | es =>
    rw [TextOps.textEq, TextOps.compareText, Bool.eq_iff_iff, beq_iff_eq, beq_iff_eq,
      Ordering.then_eq_eq, compare_bytes_eq_iff, compare_bytes_eq_iff]
    by_cases hf : x.fold s = x.fold t
    · simp [hf]
    · simp [hf]

theorem orderDecides_iff (hk : Comparable a b) (h : judge o x c a b = .ok (ord, eq)) :
    eq = (ord == .eq) ↔ orderDecides x c a b := by
  cases hk.pair o x c with
  | text s t =>
    cases h
    exact textEq_iff x c s t
  | range r r' =>
    cases h
    rw [orderDecides]
    by_cases hr : r = r'
    · subst hr
      rw [RangeValue.cmp_self]
      simp
    · simp [hr]
  | money m s cur m' s' cur' =>
    rw [judge] at h
    split at h <;> cases h
    exact iff_of_true rfl rfl
  | ltree s t =>
    cases h
    exact iff_of_true rfl rfl
  | array as bs => cases h
  | other hd ha hb htext hjudge =>
    rw [hjudge] at h
    obtain ⟨ord', -, heq⟩ := bind_eq_ok.1 h
    cases heq
    refine iff_of_true rfl ?_
    unfold orderDecides
    split
    · exact (htext _ rfl).elim
    · cases hd
    · rfl

/-! ## `<` is transitive -/

/-- The scales of decimals and of money are those that the row codec takes. -/
def Value.scaleOk : Value → Bool
  | .decimal _ s => s.val ≤ 38
  | .money _ s _ => s.val ≤ 38
  | _ => true

/-- The bounds of two ranges that are compared have one type, and decimals among them can be
aligned. -/
def rangesFit : Value → Value → Prop
  | .range a, .range b => a.Fits b
  | _, _ => True

/-- A number as mantissa and scale. -/
def Value.number : Value → Int × Nat
  | .int n => (n.val, 0)
  | .bigInt n => (n.val, 0)
  | .decimal m s => (m.val, s.val)
  | _ => (0, 0)

theorem scaled_number (hk : a.kind = some .number) (hs : a.scaleOk) :
    Scaled a.number.1 a.number.2 := by
  cases a <;> cases hk
  case int.refl n | bigInt.refl n =>
    have hlow := n.lower
    have hup := n.upper
    norm_num at hlow hup
    exact ⟨by rw [i128Min]; norm_num [number]; omega, by rw [i128Max]; norm_num [number]; omega,
      Nat.zero_le _⟩
  case decimal.refl m s => exact ⟨m.lower, Int.le_sub_one_of_lt m.upper, of_decide_eq_true hs⟩

theorem compareIntDecimal_eq_ok (hs : s ≤ 38) (h : compareIntDecimal l r n m s = .ok ord) :
    saturate (n * 10 ^ s) = n * 10 ^ s ∧ ord = compare (n * 10 ^ s) m := by
  rw [compareIntDecimal, checkedMul, pow10_eq hs] at h
  split at h
  next n' hn =>
    split at hn <;> cases hn
    next hrange =>
      cases h
      exact ⟨saturate_of_range hrange.1 hrange.2, rfl⟩
  · cases h

theorem compareIntDecimal_swap_eq_ok (hs : s ≤ 38)
    (h : (compareIntDecimal l r n m s).map Ordering.swap = .ok ord) :
    saturate (n * 10 ^ s) = n * 10 ^ s ∧ ord = compare m (n * 10 ^ s) := by
  cases hc : compareIntDecimal l r n m s with
  | error e => rw [hc] at h; cases h
  | ok ord' =>
    obtain ⟨hsat, rfl⟩ := compareIntDecimal_eq_ok hs hc
    rw [hc] at h
    cases h
    exact ⟨hsat, (compare_swap_int _ _).symm⟩

theorem judge_number (ha : a.kind = some .number) (hb : b.kind = some .number)
    (hsa : a.scaleOk) (hsb : b.scaleOk) (h : judge o x c a b = .ok (ord, eq)) :
    ord = compareScaled a.number.1 a.number.2 b.number.1 b.number.2 := by
  have hA := scaled_number ha hsa
  have hB := scaled_number hb hsb
  cases a <;> cases ha <;> cases b <;> cases hb
  case int.refl.decimal.refl n m s | bigInt.refl.decimal.refl n m s =>
    obtain ⟨ord', hord, heq⟩ := bind_eq_ok.1 h
    obtain ⟨hsat, rfl⟩ := compareIntDecimal_eq_ok hB.scale hord
    cases heq
    rw [compareScaled_of_le hA hB (Nat.zero_le _)]
    exact congrArg (compare · m.val) hsat.symm
  case decimal.refl.int.refl m s n | decimal.refl.bigInt.refl m s n =>
    obtain ⟨ord', hord, heq⟩ := bind_eq_ok.1 h
    obtain ⟨hsat, rfl⟩ := compareIntDecimal_swap_eq_ok hA.scale hord
    cases heq
    rw [compareScaled_of_ge hA hB (Nat.zero_le _)]
    exact congrArg (compare m.val) hsat.symm
  all_goals
    cases h
    rfl

theorem compareText_trans {s u : Utf8} (h1 : x.compareText c s t = .lt)
    (h2 : x.compareText c t u = .lt) : x.compareText c s u = .lt := by
  cases c with
  | binary =>
    have hcmp : Std.TransCmp (compareOn Utf8.bytes) := inferInstance
    exact hcmp.lt_trans h1 h2
  | icu locale => exact (x.trans locale).lt_trans h1 h2
  | es =>
    have hlex : Std.TransCmp (compareLex (compareOn fun s : Utf8 => (x.fold s).bytes)
        (compareOn Utf8.bytes)) := inferInstance
    exact hlex.lt_trans h1 h2

theorem ok_lt_trans {α : Type} [Ord α] [Std.TransOrd α] {p q r : α}
    (h1 : (.ok (compare p q, compare p q == .eq) : Except EvalError (Ordering × Bool)) = .ok (.lt, e1))
    (h2 : (.ok (compare q r, compare q r == .eq) : Except EvalError (Ordering × Bool)) = .ok (.lt, e2))
    (h3 : (.ok (compare p r, compare p r == .eq) : Except EvalError (Ordering × Bool)) = .ok (ord, e3)) :
    ord = .lt := by
  simp only [ok.injEq, Prod.mk.injEq] at h1 h2 h3
  rw [← h3.1]
  exact Std.TransCmp.lt_trans h1.1 h2.1

theorem judge_trans {d : Value} (hab : Comparable a b) (hbd : Comparable b d)
    (hsa : a.scaleOk) (hsb : b.scaleOk) (hsd : d.scaleOk)
    (hfab : rangesFit a b) (hfbd : rangesFit b d) (hfad : rangesFit a d)
    (h1 : judge o x c a b = .ok (.lt, e1)) (h2 : judge o x c b d = .ok (.lt, e2))
    (h3 : judge o x c a d = .ok (ord, e3)) : ord = .lt := by
  obtain ⟨hsome, hkab⟩ := hab
  have hkbd := hbd.2
  by_cases hnum : b.kind = some .number
  · have ha : a.kind = some .number := hkab.trans hnum
    have hd : d.kind = some .number := hkbd.symm.trans hnum
    have hlt1 := judge_number o x c ha hnum hsa hsb h1
    have hlt2 := judge_number o x c hnum hd hsb hsd h2
    rw [judge_number o x c ha hd hsa hsd h3]
    exact compareScaled_trans (scaled_number ha hsa) (scaled_number hnum hsb) (scaled_number hd hsd)
      hlt1.symm hlt2.symm
  cases a with
  | text s =>
    cases b <;> cases hkab
    cases d <;> cases hkbd
    simp only [judge, ok.injEq, Prod.mk.injEq] at h1 h2 h3
    rw [← h3.1]
    exact compareText_trans x c h1.1 h2.1
  | range r =>
    cases b <;> cases hkab
    cases d <;> cases hkbd
    simp only [judge, ok.injEq, Prod.mk.injEq] at h1 h2 h3
    rw [cmp_eq hfab] at h1
    rw [cmp_eq hfbd] at h2
    rw [← h3.1, cmp_eq hfad]
    exact Std.TransCmp.lt_trans h1.1 h2.1
  | money m s cur =>
    cases b <;> cases hkab
    cases d <;> cases hkbd
    rename_i m' s' cur' m'' s'' cur''
    rw [judge] at h1 h2 h3
    split at h1
    · split at h2
      · split at h3
        · simp only [ok.injEq, Prod.mk.injEq] at h1 h2 h3
          rw [← h3.1]
          have hsc : ∀ (m : SInt 128) (s : Byte), decide (s.val ≤ 38) → Scaled m.val s.val :=
            fun m s hs => ⟨m.lower, Int.le_sub_one_of_lt m.upper, of_decide_eq_true hs⟩
          exact compareScaled_trans (hsc _ _ hsa) (hsc _ _ hsb) (hsc _ _ hsd) h1.1 h2.1
        · cases h3
      · cases h2
    · cases h1
  | ltree s | bool p | bytes p | date p | timestamp p | timestampTz p | uuid p =>
    cases b <;> cases hkab
    cases d <;> cases hkbd
    exact ok_lt_trans h1 h2 h3
  | null | real _ => cases hsome
  | array _ | json _ | jsonb _ | composite _ | xml _ =>
    cases b <;> cases hkab
    cases h1
  | int _ | bigInt _ | decimal _ _ => exact (hnum hkab.symm).elim

/-! ## `BETWEEN` and `IN` -/

theorem evalAnd_eq (hl : l.IsTruth) (hr : r.IsTruth) :
    evalAnd (.ok l) (.ok r) = .ok (applyAndValues l r) := by
  rcases hl with rfl | ⟨p, rfl⟩ <;> rcases hr with rfl | ⟨q, rfl⟩
  · rfl
  · cases q <;> rfl
  · cases p <;> rfl
  · cases p <;> cases q <;> rfl

theorem elemsEqual_isTruth (cmp : Value → Value → Except EvalError Ordering) (as bs : List Value)
    (h : elemsEqual cmp as bs = .ok v) : v.IsTruth := by
  fun_induction elemsEqual cmp as bs generalizing v
  case case1 | case2 => cases h; exact .inl rfl
  case case3 => cases h; exact .inr ⟨_, rfl⟩
  case case4 ih ih' =>
    obtain ⟨w, hw, h⟩ := bind_eq_ok.1 h
    split at h
    · exact ih' h
    · cases h; exact .inr ⟨_, rfl⟩
    · cases h; exact .inl rfl
  case case5 ih =>
    obtain ⟨ord, -, h⟩ := bind_eq_ok.1 h
    split at h
    · cases h; exact .inr ⟨_, rfl⟩
    · exact ih h
  case case6 => cases h; exact .inr ⟨_, rfl⟩

theorem arrayEquals_isTruth {as : List Value} (h : arrayEquals cmp as b = .ok v) : v.IsTruth := by
  unfold arrayEquals at h
  split at h
  · cases h; exact .inl rfl
  · split at h
    · cases h; exact .inr ⟨_, rfl⟩
    · exact elemsEqual_isTruth cmp _ _ h
  · cases h

theorem evalBinaryMoney_isTruth (h : evalBinaryMoney op a b = .ok v) : v.IsTruth := by
  unfold evalBinaryMoney at h
  split at h
  · split at h
    · cases h; exact .inr ⟨_, rfl⟩
    split at h
    · cases h; exact .inr ⟨_, rfl⟩
    · cases h; exact .inr ⟨_, rfl⟩
    · cases h
  · cases h

theorem dispatch_isTruth (h : dispatch cmp op a b = .ok v) : v.IsTruth := by
  unfold dispatch at h
  split at h
  case h_1 as =>
    unfold evalBinaryArray at h
    split at h
    · exact arrayEquals_isTruth h
    · rcases heq : arrayEquals cmp as b with _ | w
      · rw [heq] at h; cases h
      rw [heq] at h
      cases h
      rcases arrayEquals_isTruth heq with rfl | ⟨p, rfl⟩
      · exact .inl rfl
      · exact .inr ⟨_, rfl⟩
    · cases h
  case h_2 r =>
    unfold evalBinaryRange at h
    split at h
    · cases h; exact .inr ⟨_, rfl⟩
    · cases h
  case h_3 | h_4 => exact evalBinaryMoney_isTruth h
  case h_5 s =>
    unfold evalBinaryLtree at h
    split at h
    · cases h; exact .inl rfl
    · cases h; exact .inr ⟨_, rfl⟩
    · cases h; exact .inr ⟨_, rfl⟩
    · cases h
  case h_6 => cases h; exact .inl rfl

theorem evalBinary_isTruth (hop : op.isComparison)
    (h : evalBinary (sqlOps o x c) op a b = .ok v) : v.IsTruth := by
  by_cases hd : a.dispatches b
  · rw [evalBinary_of_dispatches o x c hop hd] at h
    exact dispatch_isTruth h
  rw [evalBinary, if_neg hd] at h
  split at h
  · cases h; exact .inl rfl
  unfold evalComparison at h
  split at h
  · cases h; exact .inr ⟨_, rfl⟩
  · obtain ⟨ord, -, heq⟩ := bind_eq_ok.1 h
    cases heq
    exact .inr ⟨_, rfl⟩

theorem evalBetween_eq {lo hi w : Value} (hge : evalBinary (sqlOps o x c) .gtEq a lo = .ok v)
    (hle : evalBinary (sqlOps o x c) .ltEq a hi = .ok w) :
    evalBetween (sqlOps o x c) a lo hi false =
      evalAnd (evalBinary (sqlOps o x c) .gtEq a lo) (evalBinary (sqlOps o x c) .ltEq a hi) := by
  rw [evalBetween, hge, hle, evalAnd_eq (evalBinary_isTruth o x c rfl hge)
    (evalBinary_isTruth o x c rfl hle)]
  rfl

/-- The three-valued OR of a list. -/
def anyOf (vs : List Value) : Value :=
  if vs.any isTruthy then .bool true else if vs.any Value.isNull then .null else .bool false

/-- `IN` decides like `=` on an item: the types that `compare_values` does not know are unequal. -/
def inDecides (a i : Value) : Prop :=
  match a, i with
  | .text s, .text t => c = .es → x.fold s = x.fold t → s = t
  | .range r, .range r' => r ≠ r'
  | .money m s cur, .money m' s' cur' => cur = cur' → compareScaled m.val s.val m'.val s'.val ≠ .eq
  | .ltree s, .ltree t => s ≠ t
  | .array as, .array bs =>
    arrayEquals (compareValues (sqlOps o x c)) as (.array bs) = .ok (.bool false)
  | _, _ => True

theorem compareValues_eq_iff {i : Value} (hk : Comparable a i) (hin : inDecides o x c a i)
    (h : evalBinary (sqlOps o x c) .eq a i = .ok v) :
    v = .bool (compareValues (sqlOps o x c) a i = .ok .eq) := by
  cases hk.pair o x c with
  | text s t =>
    rw [evalBinary_text o x c rfl] at h
    cases h
    have heq : x.textEq c s t = (x.compareText c s t == .eq) := by
      rw [textEq_iff]
      by_cases hes : c = .es <;> by_cases hf : x.fold s = x.fold t
      · simp [hin hes hf]
      all_goals simp [hes, hf]
    show Value.bool (x.textEq c s t) = .bool (decide ((.ok (x.compareText c s t) :
      Except EvalError Ordering) = .ok .eq))
    rw [heq]
    cases x.compareText c s t <;> rfl
  | range r r' =>
    rw [evalBinary_of_dispatches o x c rfl rfl] at h
    cases h
    exact congrArg Value.bool (decide_eq_false hin)
  | money m s cur m' s' cur' =>
    rw [evalBinary_of_dispatches o x c rfl rfl, dispatch] at h
    unfold evalBinaryMoney at h
    dsimp only at h
    split at h
    next hcur =>
      cases h
      exact congrArg Value.bool (beq_eq_false_iff_ne.2 (hin hcur))
    · cases h
      rfl
  | ltree s t =>
    rw [evalBinary_of_dispatches o x c rfl rfl] at h
    cases h
    exact congrArg Value.bool (beq_eq_false_iff_ne.2 fun heq => hin (compare_bytes_eq_iff.1 heq))
  | array as bs =>
    rw [evalBinary_of_dispatches o x c rfl rfl] at h
    cases hin.symm.trans h
    rfl
  | other hd ha hb htext _ =>
    cases hord : compareValues (sqlOps o x c) a i with
    | ok ord =>
      rw [evalBinary_of_compare hd ha hb htext hord] at h
      cases h
      cases ord <;> rfl
    | error e =>
      rw [evalBinary_of_error o x c hd ha hb htext hord] at h
      cases h

theorem evalBinary_eq_null (ha : a.isNull = false)
    (h : evalBinary (sqlOps o x c) .eq a .null = .ok v) : v = .null := by
  cases a <;> cases ha <;> cases h <;> rfl

/-- An item that is missed is equal, or an array of which `=` does not know. -/
theorem missed_of_not_inDecides {i : Value} (hk : Comparable a i) (hin : ¬ inDecides o x c a i)
    (h : evalBinary (sqlOps o x c) .eq a i = .ok v) :
    compareValues (sqlOps o x c) a i ≠ .ok .eq ∧ (v = .bool true ∨ v = .null) := by
  cases hk.pair o x c with
  | text s t =>
    rw [inDecides] at hin
    push Not at hin
    obtain ⟨rfl, hfold, hne⟩ := hin
    rw [evalBinary_text o x .es rfl] at h
    cases h
    refine ⟨fun heq => ?_, .inl ?_⟩
    · replace heq : x.compareText .es s t = .eq := Except.ok.inj heq
      rw [TextOps.compareText, Ordering.then_eq_eq, compare_bytes_eq_iff, compare_bytes_eq_iff] at heq
      exact hne heq.2
    · simp [verdict, TextOps.textEq, hfold]
  | range r r' =>
    rw [evalBinary_of_dispatches o x c rfl rfl] at h
    cases h
    obtain rfl := not_not.1 hin
    exact ⟨fun heq => (by cases heq), .inl (by simp [verdict])⟩
  | money m s cur m' s' cur' =>
    rw [inDecides] at hin
    push Not at hin
    rw [evalBinary_of_dispatches o x c rfl rfl, dispatch, evalBinaryMoney, if_pos hin.1, hin.2] at h
    cases h
    exact ⟨fun heq => (by cases heq), .inl rfl⟩
  | ltree s t =>
    obtain rfl := not_not.1 hin
    rw [evalBinary_of_dispatches o x c rfl rfl] at h
    cases h
    exact ⟨fun heq => (by cases heq), .inl (by simp [holds])⟩
  | array as bs =>
    rw [evalBinary_of_dispatches o x c rfl rfl] at h
    refine ⟨fun heq => (by cases heq), ?_⟩
    have harray : arrayEquals (compareValues (sqlOps o x c)) as (.array bs) = .ok v := h
    rcases arrayEquals_isTruth harray with rfl | ⟨truth, rfl⟩
    · exact .inr rfl
    · cases truth
      · exact (hin h).elim
      · exact .inl rfl
  | other hd _ _ htext _ =>
    refine (hin ?_).elim
    unfold inDecides
    split
    · exact (htext _ rfl).elim
    all_goals first | cases hd | trivial

/-- `IN` finds an item that is equal, or decides on every item like `=`; if `=` does not know of
one, there is a NULL in the list. -/
def InAgrees (a : Value) (items : List Value) : Prop :=
  (∃ i ∈ items, Holds o x c .eq a i ∧ inDecides o x c a i) ∨
    ∀ i ∈ items, i = .null ∨ inDecides o x c a i ∨
      (evalBinary (sqlOps o x c) .eq a i = .ok .null ∧ .null ∈ items)

/-- The loop of `IN` looks for an item that `compare_values` takes for equal. -/
theorem evalInLoop_eq (hasNull : Bool) :
    evalInLoop (sqlOps o x c) a hasNull (items.map .ok) =
      .ok (if ∃ i ∈ items, i ≠ .null ∧ compareValues (sqlOps o x c) a i = .ok .eq then .bool true
        else if hasNull ∨ .null ∈ items then .null else .bool false) := by
  induction items generalizing hasNull with
  | nil => cases hasNull <;> simp [evalInLoop]
  | cons i items ih =>
    rw [map_cons, evalInLoop, ok_bind]
    split
    · rw [ih]
      simp
    next hnull =>
      split
      next hcmp =>
        rw [if_pos ⟨i, .head _, hnull, hcmp⟩]
      next hcmp =>
        rw [ih]
        have hex : (∃ j ∈ i :: items, j ≠ .null ∧ compareValues (sqlOps o x c) a j = .ok .eq) ↔
            ∃ j ∈ items, j ≠ .null ∧ compareValues (sqlOps o x c) a j = .ok .eq := by
          simp only [mem_cons, exists_eq_or_imp]
          exact or_iff_right fun h => hcmp h.2
        have hmem : .null ∈ i :: items ↔ .null ∈ items := by
          simp [Ne.symm hnull]
        rw [if_congr hex rfl (if_congr (or_congr_right hmem) rfl rfl)]

/-- What `=` gives for each value of a list. -/
def Chain (a : Value) (items vs : List Value) : Prop :=
  Forall₂ (fun i v => evalBinary (sqlOps o x c) .eq a i = .ok v) items vs

variable {o x c}

/-- What is in the chain comes from the list. -/
theorem Chain.mem_iff (h : Chain o x c a items vs) (v : Value) :
    v ∈ vs ↔ ∃ i ∈ items, evalBinary (sqlOps o x c) .eq a i = .ok v := by
  induction h with
  | nil => simp
  | cons hi _ ih => simp [ih, hi, eq_comm]

theorem Chain.total (h : Chain o x c a items vs) :
    ∀ i ∈ items, ∃ v, evalBinary (sqlOps o x c) .eq a i = .ok v := by
  induction h with
  | nil => simp
  | cons hi _ ih => exact forall_mem_cons.2 ⟨⟨_, hi⟩, ih⟩

theorem anyOf_eq (vs : List Value) : anyOf vs =
    if .bool true ∈ vs then .bool true else if .null ∈ vs then .null else .bool false := by
  have htrue : vs.any isTruthy ↔ .bool true ∈ vs := by
    rw [any_eq_true]
    refine ⟨fun ⟨v, hv, ht⟩ => ?_, fun h => ⟨_, h, rfl⟩⟩
    unfold isTruthy at ht
    split at ht
    · exact hv
    · cases ht
  have hnull : vs.any isNull ↔ .null ∈ vs := by
    rw [any_eq_true]
    refine ⟨fun ⟨v, hv, hn⟩ => ?_, fun h => ⟨_, h, rfl⟩⟩
    cases v <;> first | exact hv | cases hn
  rw [anyOf, if_congr htrue rfl (if_congr hnull rfl rfl)]

section

variable (ha : a.isNull = false) (hk : ∀ i ∈ items, i = .null ∨ Comparable a i)
  (h : Chain o x c a items vs)
include ha hk h

/-- `IN` finds an item that is equal and on which it decides like `=`. -/
theorem exists_compareValues_iff :
    (∃ i ∈ items, i ≠ .null ∧ compareValues (sqlOps o x c) a i = .ok .eq) ↔
      ∃ i ∈ items, Holds o x c .eq a i ∧ inDecides o x c a i := by
  refine exists_congr fun i => and_congr_right fun hi => ?_
  obtain ⟨v, hv⟩ := h.total i hi
  rcases hk i hi with rfl | hcmp
  · rw [Holds, hv, evalBinary_eq_null o x c ha hv]
    simp
  have hnull : i ≠ .null := by
    rintro rfl
    obtain ⟨hsome, hkind⟩ := hcmp
    rw [hkind] at hsome
    cases hsome
  rw [and_iff_right hnull]
  by_cases hin : inDecides o x c a i
  · rw [Holds, hv, compareValues_eq_iff o x c hcmp hin hv]
    simp [hin]
  · exact iff_of_false (missed_of_not_inDecides o x c hcmp hin hv).1 fun h => hin h.2

/-- `IN` is the three-valued OR of the equalities just if it agrees with them. -/
theorem evalIn_eq_iff : evalIn (sqlOps o x c) a (items.map .ok) = .ok (anyOf vs) ↔
    InAgrees o x c a items := by
  have hin : evalIn (sqlOps o x c) a (items.map .ok) = evalInLoop (sqlOps o x c) a false (items.map .ok) := by
    unfold evalIn
    split
    · cases ha
    · rfl
  have hnull : .null ∈ items → .null ∈ vs := by
    intro hi
    obtain ⟨v, hv⟩ := h.total _ hi
    obtain rfl := evalBinary_eq_null o x c ha hv
    exact (h.mem_iff _).2 ⟨_, hi, hv⟩
  have hfound := exists_compareValues_iff ha hk h
  rw [hin, evalInLoop_eq, anyOf_eq, InAgrees]
  by_cases hf : ∃ i ∈ items, Holds o x c .eq a i ∧ inDecides o x c a i
  · obtain ⟨i, hi, hh, -⟩ := id hf
    rw [if_pos (hfound.2 hf), if_pos ((h.mem_iff _).2 ⟨i, hi, hh⟩)]
    exact iff_of_true rfl (.inl hf)
  rw [if_neg (mt hfound.1 hf), or_iff_right hf]
  constructor
  · intro heq i hi
    obtain ⟨v, hv⟩ := h.total i hi
    rcases hk i hi with rfl | hcmp
    · exact .inl rfl
    by_cases hdec : inDecides o x c a i
    · exact .inr (.inl hdec)
    rcases (missed_of_not_inDecides o x c hcmp hdec hv).2 with rfl | rfl
    · rw [if_pos ((h.mem_iff _).2 ⟨i, hi, hv⟩)] at heq
      split at heq <;> cases heq
    · by_cases hmem : .null ∈ items
      · exact .inr (.inr ⟨hv, hmem⟩)
      rw [if_neg (by simpa using hmem), if_pos ((h.mem_iff _).2 ⟨i, hi, hv⟩)] at heq
      split at heq <;> cases heq
  · intro hall
    have htrue : .bool true ∉ vs := by
      intro hmem
      obtain ⟨i, hi, hv⟩ := (h.mem_iff _).1 hmem
      rcases hall i hi with rfl | hdec | ⟨hn, -⟩
      · cases evalBinary_eq_null o x c ha hv
      · exact hf ⟨i, hi, hv, hdec⟩
      · cases hv.symm.trans hn
    have hiff : .null ∈ vs ↔ .null ∈ items := by
      refine ⟨fun hmem => ?_, hnull⟩
      obtain ⟨i, hi, hv⟩ := (h.mem_iff _).1 hmem
      rcases hall i hi with rfl | hdec | ⟨-, hn⟩
      · exact hi
      · rcases hk i hi with rfl | hcmp
        · exact hi
        · cases compareValues_eq_iff o x c hcmp hdec hv
      · exact hn
    simp [htrue, hiff]

end

variable (o x c)

/-! ## All comparisons -/

theorem evalBinary_notEq (hk : Comparable a b) :
    evalBinary (sqlOps o x c) .notEq a b = (evalBinary (sqlOps o x c) .eq a b).map applyNot := by
  cases hk.pair o x c with
  | text s t => rfl
  | range r r' => rfl
  | money m s cur m' s' cur' =>
    rw [evalBinary_of_dispatches o x c rfl rfl, evalBinary_of_dispatches o x c rfl rfl, dispatch, dispatch]
    unfold evalBinaryMoney
    dsimp only
    split <;> rfl
  | ltree s t => rfl
  | array as bs => rfl
  | other hd ha hb htext _ =>
    cases hord : compareValues (sqlOps o x c) a b with
    | ok ord =>
      rw [evalBinary_of_compare hd ha hb htext hord, evalBinary_of_compare hd ha hb htext hord]
      rfl
    | error e =>
      rw [evalBinary_of_error o x c hd ha hb htext hord, evalBinary_of_error o x c hd ha hb htext hord]
      rfl

theorem isNull_of_comparable (hk : Comparable a b) : a.isNull = false := by
  obtain ⟨hsome, -⟩ := hk
  cases a <;> first | rfl | cases hsome

/-- The comparisons of two values of one kind: `<>` negates `=`; if there is an order, one of
`<`, `=`, `>` holds and `<=` goes with it, just if `orderDecides`; `<` is transitive; `BETWEEN`
is what it abbreviates; and so is `IN`, just if it agrees with `=`. -/
theorem comparisons_coherent {a b : Value} (hk : Comparable a b) :
    evalBinary (sqlOps o x c) .notEq a b = (evalBinary (sqlOps o x c) .eq a b).map applyNot ∧
    (∀ v, evalBinary (sqlOps o x c) .lt a b = .ok v →
      (Coherent o x c a b ↔ orderDecides x c a b = true)) ∧
    (∀ d v, Comparable b d → (∀ u ∈ [a, b, d], u.scaleOk = true) →
      rangesFit a b ∧ rangesFit b d ∧ rangesFit a d → evalBinary (sqlOps o x c) .lt a d = .ok v →
      Holds o x c .lt a b → Holds o x c .lt b d → Holds o x c .lt a d) ∧
    (∀ lo hi v w, evalBinary (sqlOps o x c) .gtEq a lo = .ok v →
      evalBinary (sqlOps o x c) .ltEq a hi = .ok w → evalBetween (sqlOps o x c) a lo hi false =
        evalAnd (evalBinary (sqlOps o x c) .gtEq a lo) (evalBinary (sqlOps o x c) .ltEq a hi)) ∧
    (∀ items vs, Chain o x c a items vs → (∀ i ∈ items, i = .null ∨ Comparable a i) →
      (evalIn (sqlOps o x c) a (items.map .ok) = .ok (anyOf vs) ↔ InAgrees o x c a items)) := by
  refine ⟨evalBinary_notEq o x c hk, fun v hv => ?_, fun d v hbd hscale hfit hv hlt₁ hlt₂ => ?_,
    fun lo hi v w hge hle => evalBetween_eq o x c hge hle,
    fun items vs hchain hitems => evalIn_eq_iff (isNull_of_comparable hk) hitems hchain⟩
  · obtain ⟨ord, eq, hjudge⟩ := judge_of_lt o x c hk hv
    rw [coherent_iff_judge o x c hk hjudge, orderDecides_iff o x c hk hjudge]
  have had : Comparable a d := ⟨hk.1, hk.2.trans hbd.2⟩
  obtain ⟨ord₁, eq₁, h₁⟩ := judge_of_lt o x c hk hlt₁
  obtain ⟨ord₂, eq₂, h₂⟩ := judge_of_lt o x c hbd hlt₂
  obtain ⟨ord₃, eq₃, h₃⟩ := judge_of_lt o x c had hv
  rw [holds_iff o x c hk rfl h₁] at hlt₁
  rw [holds_iff o x c hbd rfl h₂] at hlt₂
  rw [holds_iff o x c had rfl h₃]
  obtain rfl : ord₁ = .lt := by cases ord₁ <;> first | rfl | cases hlt₁
  obtain rfl : ord₂ = .lt := by cases ord₂ <;> first | rfl | cases hlt₂
  rw [judge_trans o x c hk hbd (hscale a (by simp)) (hscale b (by simp)) (hscale d (by simp))
    hfit.1 hfit.2.1 hfit.2.2 h₁ h₂ h₃]
  rfl

/-- Three spellings of a name. -/
def jose : Utf8 := ⟨[106, 111, 115, 101], by decide⟩

def joseCapital : Utf8 := ⟨[74, 111, 115, 101], by decide⟩

def joseCapitals : Utf8 := ⟨[74, 79, 83, 69], by decide⟩

/-- A fold that knows these spellings. -/
def joseText : TextOps where
  fold s := if s = joseCapital ∨ s = joseCapitals then jose else s
  icuCompare _ := compareOn Utf8.bytes
  trans _ := inferInstanceAs (Std.TransCmp (compareOn Utf8.bytes))

/-- The spellings have an order as they are, and `IN` finds the one that is the same. -/
theorem comparisons_coherent_binary :
    Coherent plainOps joseText .binary (.text joseCapital) (.text joseCapitals) ∧
      evalIn (sqlOps plainOps joseText .es) (.text joseCapital)
        [.ok (.text joseCapital), .ok (.text joseCapitals)] = .ok (anyOf [.bool true, .bool true]) := by
  have heq : ∀ s, evalBinary (sqlOps plainOps joseText .es) .eq (.text joseCapital) (.text s) = _ :=
    evalBinary_text plainOps joseText .es rfl joseCapital
  constructor
  · exact ((comparisons_coherent plainOps joseText .binary (a := .text joseCapital)
      (b := .text joseCapitals) ⟨rfl, rfl⟩).2.1 _ rfl).2 rfl
  · refine ((comparisons_coherent plainOps joseText .es (a := .text joseCapital)
      (b := .text joseCapitals) ⟨rfl, rfl⟩).2.2.2.2 [.text joseCapital, .text joseCapitals] _
      (.cons (heq _) (.cons (heq _) .nil)) ?_).2 (.inl ⟨_, .head _, heq _, fun _ _ => rfl⟩)
    simp [Comparable, Value.kind]

/-- Under the folding collation the two spellings are equal and also one is greater, and
`IN` does not find the one that `=` finds. -/
theorem equal_and_greater :
    Holds plainOps joseText .es .eq (.text joseCapital) (.text joseCapitals) ∧
      Holds plainOps joseText .es .gt (.text joseCapital) (.text joseCapitals) ∧
      ¬Holds plainOps joseText .es .ltEq (.text joseCapital) (.text joseCapitals) ∧
      evalIn (sqlOps plainOps joseText .es) (.text joseCapital) [.ok (.text joseCapitals)] =
        .ok (.bool false) := by
  refine ⟨rfl, rfl, ?_, rfl⟩
  rintro h
  cases h

end AxiomDb.Row
