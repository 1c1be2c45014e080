import AxiomDb.Sql.BatchPredicate

/-!
# Compiled predicates and the evaluator

`raw_predicates_agree`: on an encoded row, a compiled predicate gives what the
evaluator gives on the row. First where a column is in the bytes (`walk_eq`,
`fixedOffset_eq`), then what a comparison of its bytes with those of the literal is
(`compared_of_encodeLiteral`), then one check, a conjunction, and a batch of rows.

`RawSafe` says when: the offset computed from the schema is that of a row without
NULLs before the column, and the walk takes every type that has no fixed size to be
behind a length in three bytes.
-/

namespace AxiomDb.Row

open Lib Sql List Option BinaryOp SInt

/-! ## Where a column is -/

section Layout

variable {x : Externals} {enc' : List Value → Except CodecError Bytes} {bitmap : Bytes}

variable {body enc : Bytes} {dt : DataType} {dts : List DataType} {vs : List Value} {i k : Nat}
  {v : Value}

theorem encodeValues_take (h : encodeValues x enc' bitmap i vs dts = .ok body) (hk : k < vs.length)
    (hk' : k < dts.length) : ∃ before enc after, body = before ++ (enc ++ after) ∧
      encodeValues x enc' bitmap i (vs.take k) (dts.take k) = .ok before ∧
      (isNullBit bitmap (i + k) = false → encodeValue x enc' vs[k] dts[k] = .ok enc) := by
  induction vs generalizing i k dts body with
  | nil => exact absurd hk (Nat.not_lt_zero _)
  | cons v vs ih =>
    obtain _ | ⟨dt, dts⟩ := dts
    · exact absurd hk' (Nat.not_lt_zero _)
    obtain ⟨b, bs, rfl, hb, hbs⟩ := encodeValues_cons h
    cases k with
    | zero =>
      refine ⟨[], b, bs, rfl, by simp [encodeValues], fun hnull => ?_⟩
      rw [Nat.add_zero] at hnull
      rwa [hnull, if_neg Bool.false_ne_true] at hb
    | succ k =>
      obtain ⟨before, enc, after, rfl, hbefore, henc⟩ :=
        ih hbs (Nat.lt_of_succ_lt_succ hk) (Nat.lt_of_succ_lt_succ hk')
      refine ⟨b ++ before, enc, after, by rw [append_assoc], ?_, ?_⟩
      · rw [take_succ_cons, take_succ_cons, encodeValues, hb, ok_bind, hbefore, ok_bind]
      · rw [show i + (k + 1) = i + 1 + k by omega]
        exact henc

/-- The first value has its type, if it is not NULL. -/
theorem validateTypes_cons (h : validateTypes (v :: vs) (dt :: dts) = .ok ()) :
    (v.isNull = false → validateType v dt = .ok ()) ∧ validateTypes vs dts = .ok () := by
  rw [validateTypes, bind_eq_ok] at h
  obtain ⟨_, hv, h⟩ := h
  refine ⟨fun hn => ?_, h⟩
  rwa [hn, if_neg Bool.false_ne_true] at hv

theorem validateTypes_getElem (h : validateTypes vs dts = .ok ()) (hk : k < vs.length)
    (hk' : k < dts.length) (hnull : vs[k].isNull = false) : validateType vs[k] dts[k] = .ok () := by
  induction vs generalizing k dts with
  | nil => exact absurd hk (Nat.not_lt_zero _)
  | cons v vs ih =>
    obtain _ | ⟨dt, dts⟩ := dts
    · exact absurd hk' (Nat.not_lt_zero _)
    cases k with
    | zero => exact (validateTypes_cons h).1 hnull
    | succ k =>
      exact ih (validateTypes_cons h).2 (Nat.lt_of_succ_lt_succ hk) (Nat.lt_of_succ_lt_succ hk') hnull

/-- A value of a type of fixed size takes that many bytes. -/
theorem length_of_fixedSize {sz : Nat} (hv : validateType v dt = .ok ())
    (henc : encodeValue x enc' v dt = .ok enc) (hsz : fixedSize dt = some sz) : enc.length = sz := by
  unfold validateType at hv
  split at hv
  case h_1 | h_2 | h_3 | h_4 | h_5 | h_13 | h_14 | h_15 =>
    cases henc
    cases hsz
    rfl
  case h_6 | h_7 =>
    simp only [encodeValue] at henc
    split at henc
    · cases henc
    · cases henc
      cases hsz
      exact length_leBytes _ _
  case h_23 => cases hv
  all_goals cases hsz

/-- The types whose values stand behind their length in three bytes. -/
def isPrefixed : DataType → Bool
  | .text | .json | .jsonb | .bytes | .array _ | .range _ => true
  | _ => false

/-- The length in front of a value says where it ends. -/
theorem ofLeBytes_of_isPrefixed (hv : validateType v dt = .ok ())
    (henc : encodeValue x enc' v dt = .ok enc) (hp : isPrefixed dt) :
    ∃ b : Bytes, enc = writeU24 b.length ++ b ∧ b.length ≤ 0xFFFFFF := by
  unfold validateType at hv
  split at hv
  case h_9 | h_11 | h_12 =>
    obtain ⟨hlen, rfl⟩ := lengthPrefixed_ok henc
    exact ⟨_, rfl, hlen⟩
  case h_10 s =>
    simp only [encodeValue] at henc
    split at henc
    · cases henc
    · obtain ⟨hlen, rfl⟩ := lengthPrefixed_ok henc
      exact ⟨_, rfl, hlen⟩
  case h_17 elems elem =>
    simp only [encodeValue] at henc
    obtain ⟨blob, hblob, henc⟩ := bind_eq_ok.1 henc
    cases henc
    exact ⟨blob, rfl, length_encodeArray hblob⟩
  case h_18 rv elem =>
    simp only [encodeValue] at henc
    obtain ⟨payload, hpayload, henc⟩ := bind_eq_ok.1 henc
    cases henc
    refine ⟨payload, rfl, ?_⟩
    rw [length_encodeRangePayload hpayload]
    exact (rangeSize_le rv).trans (by decide)
  case h_23 => cases hv
  all_goals cases hp

/-- The walk ends behind the columns that were encoded, if it knows their sizes. -/
theorem walk_eq (front rest : Bytes) (hlen : vs.length = dts.length)
    (h : encodeValues x enc' bitmap i vs dts = .ok body)
    (hbits : ∀ k, (hk : k < vs.length) → isNullBit bitmap (i + k) = vs[k].isNull)
    (hval : validateTypes vs dts = .ok ())
    (hknown : ∀ k, (hk : k < vs.length) → (hk' : k < dts.length) →
      vs[k].isNull ∨ (fixedSize dts[k]).isSome ∨ isPrefixed dts[k]) :
    BatchPredicate.walk bitmap (front ++ (body ++ rest)) i front.length dts =
      some (front.length + body.length) := by
  induction vs generalizing i dts body front with
  | nil =>
    obtain rfl := length_eq_zero_iff.1 hlen.symm
    cases h
    rfl
  | cons v vs ih =>
    obtain _ | ⟨dt, dts⟩ := dts
    · cases hlen
    obtain ⟨hfirst, hbits'⟩ := bits_cons hbits
    obtain ⟨b, bs, rfl, hb, hbs⟩ := encodeValues_cons h
    obtain ⟨hv, hval⟩ := validateTypes_cons hval
    have hrest := ih (front ++ b) (Nat.succ.inj hlen) hbs hbits' hval
      fun k hk hk' => hknown (k + 1) (Nat.succ_lt_succ hk) (Nat.succ_lt_succ hk')
    rw [append_assoc front, ← append_assoc b, length_append] at hrest
    rw [length_append, ← Nat.add_assoc, ← hrest, BatchPredicate.walk]
    rw [hfirst] at hb ⊢
    cases hn : v.isNull with
    | true =>
      rw [hn, if_pos rfl] at hb
      cases hb
      rfl
    | false =>
      rw [hn, if_neg Bool.false_ne_true] at hb
      rw [if_neg Bool.false_ne_true]
      rcases hknown 0 (Nat.succ_pos _) (Nat.succ_pos _) with hnull | hfix | hpre
      · rw [getElem_cons_zero, hn] at hnull
        cases hnull
      · obtain ⟨sz, hsz⟩ := isSome_iff_exists.1 hfix
        rw [getElem_cons_zero] at hsz
        rw [hsz, length_of_fixedSize (hv hn) hb hsz]
      rw [getElem_cons_zero] at hpre
      obtain ⟨c, rfl, hc⟩ := ofLeBytes_of_isPrefixed (hv hn) hb hpre
      have hnone : fixedSize dt = none := by
        cases dt <;> first | rfl | cases hpre
      have hdrop : ((front ++ (writeU24 c.length ++ c ++ bs ++ rest)).drop front.length).take 3 =
          writeU24 c.length := by
        rw [drop_left, append_assoc, append_assoc]
        exact take_left' (length_leBytes 3 _)
      rw [hnone]
      dsimp only
      rw [if_neg, hdrop, writeU24, ofLeBytes_leBytes, Nat.mod_eq_of_lt (by omega), ← writeU24,
        length_lengthPrefixed]
      simp only [length_append, writeU24, length_leBytes]
      omega

/-- The sizes of columns of fixed size add up to the offset behind them, if none is NULL. -/
theorem fixedOffset_eq {offset : Nat} {off : Nat} (hlen : vs.length = dts.length)
    (h : encodeValues x enc' bitmap i vs dts = .ok body)
    (hbits : ∀ k, (hk : k < vs.length) → isNullBit bitmap (i + k) = vs[k].isNull)
    (hval : validateTypes vs dts = .ok ()) (hnull : ∀ v ∈ vs, v.isNull = false)
    (hoff : fixedOffset offset dts = some off) : off = offset + body.length := by
  induction vs generalizing i dts body offset with
  | nil =>
    obtain rfl := length_eq_zero_iff.1 hlen.symm
    cases h
    cases hoff
    rfl
  | cons v vs ih =>
    obtain _ | ⟨dt, dts⟩ := dts
    · cases hlen
    have hn : v.isNull = false := hnull v mem_cons_self
    obtain ⟨hfirst, hbits'⟩ := bits_cons hbits
    obtain ⟨b, bs, rfl, hb, hbs⟩ := encodeValues_cons h
    obtain ⟨hv, hval⟩ := validateTypes_cons hval
    rw [hfirst, hn, if_neg Bool.false_ne_true] at hb
    rw [fixedOffset] at hoff
    cases hsz : fixedSize dt with
    | none =>
      rw [hsz] at hoff
      cases hoff
    | some sz =>
      rw [hsz] at hoff
      rw [ih (Nat.succ.inj hlen) hbs hbits' hval (fun v h => hnull v (mem_cons_of_mem _ h)) hoff,
        length_append, length_of_fixedSize (hv hn) hb hsz, Nat.add_assoc]

end Layout

/-! ## What a comparison is -/

open BatchPredicate

theorem cmpOrd_eq (a b : Int) (op : CmpOp) : cmpOrd a b op = op.toBinaryOp.holds (compare a b) := by
  rcases lt_trichotomy a b with h | rfl | h
  · rw [compare_lt_iff_lt.2 h]
    cases op <;> simp [cmpOrd, CmpOp.toBinaryOp, holds, bne, h, h.ne, h.le]
  · rw [compare_eq_iff_eq.2 rfl]
    cases op <;> simp [cmpOrd, CmpOp.toBinaryOp, holds]
  · rw [compare_gt_iff_gt.2 h]
    cases op <;> simp [cmpOrd, CmpOp.toBinaryOp, holds, bne, h, h.ne', h.le]

theorem cmpBool_eq (a b : Bool) (op : CmpOp) :
    cmpBool a b op = op.toBinaryOp.holds (compare a.toNat b.toNat) := by
  cases a <;> cases b <;> cases op <;> rfl

theorem holds_flip (op : CmpOp) (ord : Ordering) :
    op.flip.toBinaryOp.holds ord = op.toBinaryOp.holds ord.swap := by
  cases op <;> cases ord <;> rfl

variable {o : Ops} {x : Externals} {row : List Value} {p : BatchPredicate} {op : BinaryOp}
  {bytes lit : Bytes} {dt : DataType} {e : Expr} {output : List Bool} {schema : List DataType}
  {len : Nat} {ord : Ordering} {l r v w : Value} {reversed : Bool} {α : Type} {rows : List α}

theorem evalBinary_of_compare (hd : l.dispatches r = false) (hl : l.isNull = false)
    (hr : r.isNull = false) (htext : ∀ s, l ≠ .text s) (h : compareValues o l r = .ok ord) :
    evalBinary o op l r = .ok (.bool (op.holds ord)) := by
  rw [evalBinary, hd, if_neg Bool.false_ne_true, hl, hr, if_neg (by decide), evalComparison, h,
    ok_bind]
  exact fun a _ heq => (htext a heq).elim

/-- A value that the column's type holds as it is. -/
def literalFits (x : Externals) (dt : DataType) (v : Value) : Bool :=
  match dt, v with
  | .int, .bigInt n => i32InRange n.val
  | .bool, .int n => n.val == 0 || n.val == 1
  | .date, .int _ => false
  | .float, .real f => !isNan f.val && x.toF64 (x.toF32 f) == f
  | .real, .real f => !isNan f.val
  | _, _ => true

/-- What the evaluator and the check make of a value and a literal. -/
structure Compared (o : Ops) (x : Externals) (dt : DataType) (w v : Value) (enc lit : Bytes)
    (ord : Ordering) : Prop where
  left : ∀ op : BinaryOp, evalBinary o op w v = .ok (.bool (op.holds ord))
  right : ∀ op : BinaryOp, evalBinary o op v w = .ok (.bool (op.holds ord.swap))
  length : enc.length = lit.length
  bytes : ∀ check : SingleCheck, check.dataType = dt →
    compareBytes x check enc lit = check.op.toBinaryOp.holds ord

theorem compare_swap_int (a b : Int) : compare b a = (compare a b).swap := Std.OrientedCmp.eq_swap

/-- The values that a check compares. -/
def Value.isChecked : Value → Bool
  | .bool _ | .int _ | .bigInt _ | .date _ | .timestamp _ | .real _ => true
  | _ => false

theorem evalBinary_of_isChecked (hl : l.isChecked) (hr : r.isChecked)
    (h : compareValues o l r = .ok ord) : evalBinary o op l r = .ok (.bool (op.holds ord)) := by
  refine evalBinary_of_compare ?_ ?_ ?_ ?_ h
  · cases l <;> cases hl <;> cases r <;> cases hr <;> rfl
  · cases l <;> cases hl <;> rfl
  · cases r <;> cases hr <;> rfl
  · rintro s rfl
    cases hl

/-- A comparison of two signed numbers of the column's width. -/
theorem compared_signed {bits : Nat} (h8 : 8 ∣ bits) (hpos : 0 < bits)
    (a b : SInt bits) (hw : w.isChecked) (hv : v.isChecked)
    (hleft : compareValues o w v = .ok (compare a.val b.val))
    (hright : compareValues o v w = .ok (compare b.val a.val))
    (hbytes : ∀ check : SingleCheck, check.dataType = dt → ∀ c l, compareBytes x check c l =
      cmpOrd (wrap bits (ofLeBytes c)).val (wrap bits (ofLeBytes l)).val check.op) :
    ((literalBuf (leSigned b)).take (bits / 8)).length = bits / 8 ∧
      ∃ ord, Compared o x dt w v (leSigned a) ((literalBuf (leSigned b)).take (bits / 8)) ord := by
  rw [literalBuf, take_left' (length_leSigned b)]
  refine ⟨length_leSigned b, compare a.val b.val, ?_⟩
  exact
    { left := fun op => evalBinary_of_isChecked hw hv hleft
      right := fun op => by
        rw [← compare_swap_int]
        exact evalBinary_of_isChecked hv hw hright
      length := by rw [length_leSigned, length_leSigned]
      bytes := by
        intro check hdt
        rw [hbytes check hdt, wrap_leSigned h8 hpos, wrap_leSigned h8 hpos, cmpOrd_eq] }

theorem wrap_val_of_i32 {n : Int} (h : i32InRange n) : (wrap 32 n).val = n := by
  rw [i32InRange, Bool.and_eq_true, decide_eq_true_eq, decide_eq_true_eq] at h
  show (n + 2 ^ 31) % 2 ^ 32 - 2 ^ 31 = n
  omega

theorem wrap64_val (n : SInt 32) : (wrap 64 n.val).val = n.val := by
  have hlow := n.lower
  have hup := n.upper
  show (n.val + 2 ^ 63) % 2 ^ 64 - 2 ^ 63 = n.val
  norm_num at hlow hup ⊢
  omega

theorem f32OfBits_leBytes (f : Fin (2 ^ 32)) : f32OfBits (ofLeBytes (leBytes 4 f.val)) = f := by
  rw [ofLeBytes_leBytes, Nat.mod_eq_of_lt (by simp), f32OfBits, Fin.ofNat_val_eq_self]

theorem f64OfBits_leBytes (f : Fin (2 ^ 64)) : f64OfBits (ofLeBytes (leBytes 8 f.val)) = f := by
  rw [ofLeBytes_leBytes, Nat.mod_eq_of_lt (by simp), f64OfBits, Fin.ofNat_val_eq_self]

/-- A comparison of two numbers that are no NaN. -/
theorem compared_real {f g : Fin (2 ^ 64)} {enc lit : Bytes} (hf : isNan f.val = false)
    (hg : isNan g.val = false) (hlen : enc.length = lit.length)
    (hbytes : ∀ check : SingleCheck, check.dataType = dt →
      compareBytes x check enc lit = cmpF64 f g check.op) :
    Compared o x dt (.real f) (.real g) enc lit (compare (f64Place f) (f64Place g)) where
  left op := by
    refine evalBinary_of_isChecked rfl rfl ?_
    simp [compareValues, f64PartialCmp, hf, hg]
  right op := by
    refine evalBinary_of_isChecked rfl rfl ?_
    rw [← compare_swap_int]
    simp [compareValues, f64PartialCmp, hf, hg]
  length := hlen
  bytes check hdt := by
    rw [hbytes check hdt, cmpF64]
    simp [f64PartialCmp, hf, hg]

/-- A literal that fits is compared as the evaluator does. -/
theorem compared_of_encodeLiteral {enc' : List Value → Except CodecError Bytes} {enc : Bytes}
    (hlit : encodeLiteral x v dt = some (lit, len)) (hfit : literalFits x dt v)
    (hfit' : literalFits x dt w) (hw : validateType w dt = .ok ()) (henc : encodeValue x enc' w dt = .ok enc) :
    (lit.take len).length = len ∧ ∃ ord, Compared o x dt w v enc (lit.take len) ord := by
  unfold encodeLiteral at hlit
  split at hlit
  case h_1 b =>
    cases hlit
    cases w with
    | bool a =>
      cases henc
      refine ⟨rfl, compare a.toNat b.toNat, ⟨fun op => ?_, fun op => ?_, rfl, ?_⟩⟩
      · exact evalBinary_of_isChecked rfl rfl rfl
      · refine evalBinary_of_isChecked rfl rfl ?_
        cases a <;> cases b <;> rfl
      · intro check hdt
        rw [compareBytes, hdt]
        cases a <;> cases b <;> exact cmpBool_eq _ _ _
    | _ => cases hw
  case h_2 n =>
    cases hlit
    -- the literal is 0 or 1, so that the byte of the check is the number it stands for
    obtain ⟨b, hb, hbyte⟩ : ∃ b : Bool, n.val = (b.toNat : Int) ∧
        [if n.val ≠ 0 then (1 : Byte) else 0] = [if b then 1 else 0] := by
      rw [literalFits, Bool.or_eq_true, beq_iff_eq, beq_iff_eq] at hfit
      rcases hfit with h | h
      · exact ⟨false, h, by rw [h]; rfl⟩
      · exact ⟨true, h, by rw [h]; rfl⟩
    rw [hbyte]
    cases w with
    | bool a =>
      cases henc
      refine ⟨rfl, compare a.toNat b.toNat, ⟨fun op => ?_, fun op => ?_, rfl, ?_⟩⟩
      · refine evalBinary_of_isChecked rfl rfl ?_
        rw [compareValues, hb]
        cases a <;> cases b <;> rfl
      · refine evalBinary_of_isChecked rfl rfl ?_
        rw [compareValues, hb]
        cases a <;> cases b <;> rfl
      · intro check hdt
        rw [compareBytes, hdt]
        cases a <;> cases b <;> exact cmpBool_eq _ _ _
    | _ => cases hw
  case h_5 => cases hfit
  case h_3 n | h_6 n | h_7 n | h_11 n =>
    cases hlit
    cases w <;> cases hw
    cases henc
    exact compared_signed (by decide) (by decide) _ n rfl rfl rfl rfl fun check hdt c l => by
      rw [compareBytes, hdt]
  case h_4 n =>
    cases hlit
    have hval := wrap_val_of_i32 hfit
    cases w <;> cases hw
    cases henc
    exact compared_signed (by decide) (by decide) _ (wrap 32 n.val) rfl rfl (by rw [hval]; rfl)
      (by rw [hval]; rfl) fun check hdt c l => by rw [compareBytes, hdt]
  case h_8 n =>
    cases hlit
    have hval := wrap64_val n
    cases w <;> cases hw
    cases henc
    exact compared_signed (by decide) (by decide) _ (wrap 64 n.val) rfl rfl (by rw [hval]; rfl)
      (by rw [hval]; rfl) fun check hdt c l => by rw [compareBytes, hdt]
  case h_9 g =>
    cases hlit
    cases w <;> cases hw
    next f =>
      simp only [literalFits, Bool.and_eq_true, Bool.not_eq_true', beq_iff_eq] at hfit hfit'
      rw [encodeValue, hfit'.1, if_neg Bool.false_ne_true] at henc
      cases henc
      rw [literalBuf, take_left' (length_leBytes 4 _)]
      refine ⟨length_leBytes 4 _, _, compared_real hfit'.1 hfit.1 (by simp) fun check hdt => ?_⟩
      rw [compareBytes, hdt]
      simp only [f32OfBits_leBytes, hfit'.2, hfit.2]
  case h_10 g =>
    cases hlit
    cases w <;> cases hw
    next f =>
      simp only [literalFits, Bool.not_eq_true'] at hfit hfit'
      simp only [encodeValue, hfit', if_neg Bool.false_ne_true] at henc
      cases henc
      rw [literalBuf, take_left' (length_leBytes 8 _)]
      refine ⟨length_leBytes 8 _, _, compared_real hfit' hfit (by simp) fun check hdt => ?_⟩
      rw [compareBytes, hdt]
      simp only [f64OfBits_leBytes]
  case h_12 => cases hlit

theorem evalBinary_null {lit : Bytes × Nat}
    (hlit : encodeLiteral x v dt = some lit) (op : BinaryOp) :
    evalBinary o op .null v = .ok .null ∧ evalBinary o op v .null = .ok .null := by
  unfold encodeLiteral at hlit
  split at hlit
  case h_12 => cases hlit
  all_goals exact ⟨rfl, rfl⟩

/-! ## A check of a row -/

/-- The offset that the check uses is where the column is: behind columns of fixed size
only if none of them is NULL, and behind others only if each is NULL, of fixed size, or
behind its length in three bytes. -/
def columnFound (schema : List DataType) (row : List Value) (colIdx : Nat) : Prop :=
  if (schema.take colIdx).all (fun dt => (fixedSize dt).isSome) then
    ∀ v ∈ row.take colIdx, v.isNull = false
  else List.Forall₂ (fun v dt => v.isNull = true ∨ (fixedSize dt).isSome = true ∨ isPrefixed dt = true)
    (row.take colIdx) (schema.take colIdx)

/-- A check of a column that is not NULL finds it, and compares what the evaluator compares. -/
def checkSafe (x : Externals) (schema : List DataType) (row : List Value) (colIdx : Nat) (v : Value) :
    Prop :=
  row[colIdx]? = some .null ∨ (∀ dt w, schema[colIdx]? = some dt → row[colIdx]? = some w →
    literalFits x dt v = true ∧ literalFits x dt w = true) ∧ columnFound schema row colIdx

/-- `P` holds of the comparisons of a conjunction that are reached, which are those behind operands
that are true. Behind a NULL the evaluator goes on, and must succeed. -/
def Expr.ReachedAll (o : Ops) (row : List Value) (P : Nat → Value → Prop) : Expr → Prop
  | .binaryOp .and left right => left.ReachedAll o row P ∧
    (eval o row left = .ok (.bool true) → right.ReachedAll o row P) ∧
    (eval o row left = .ok .null → ∃ v, eval o row right = .ok v)
  | .binaryOp _ (.column colIdx) (.literal v) => P colIdx v
  | .binaryOp _ (.literal v) (.column colIdx) => P colIdx v
  | _ => True

/-- The compiled predicate can be used for a row. -/
def Expr.RawSafe (o : Ops) (x : Externals) (schema : List DataType) (row : List Value) (e : Expr) :
    Prop :=
  e.ReachedAll o row (checkSafe x schema row)

theorem Expr.ReachedAll.imp {P Q : Nat → Value → Prop} (hPQ : ∀ i v, P i v → Q i v)
    (h : e.ReachedAll o row P) : e.ReachedAll o row Q := by
  fun_induction Expr.ReachedAll o row P e with
  | case1 left right ihl ihr => exact ⟨ihl h.1, fun htrue => ihr (h.2.1 htrue), h.2.2⟩
  | case2 op colIdx v hne | case3 op v colIdx hne =>
    rw [Expr.ReachedAll]
    · exact hPQ _ _ h
    · exact hne
  | case4 => rwa [Expr.ReachedAll] <;> assumption

theorem fixedOffset_isSome (offset : Nat) (dts : List DataType) :
    (fixedOffset offset dts).isSome = dts.all fun dt => (fixedSize dt).isSome := by
  induction dts generalizing offset with
  | nil => rfl
  | cons dt dts ih =>
    rw [fixedOffset, all_cons]
    cases fixedSize dt with
    | none => rfl
    | some sz => exact ih _

theorem validateTypes_take {vs : List Value} {dts : List DataType} (k : Nat)
    (h : validateTypes vs dts = .ok ()) : validateTypes (vs.take k) (dts.take k) = .ok () := by
  induction k generalizing vs dts with
  | zero => rfl
  | succ k ih =>
    obtain _ | ⟨v, vs⟩ := vs
    · rfl
    obtain _ | ⟨dt, dts⟩ := dts
    · rfl
    rw [validateTypes, bind_eq_ok] at h
    obtain ⟨_, hv, h⟩ := h
    rw [take_succ_cons, take_succ_cons, validateTypes, hv, ok_bind, ih h]

/-- What `encode_row` has checked and written of the first `k` columns, with `rest` behind them. -/
structure Encoded (x : Externals) (enc' : List Value → Except CodecError Bytes) (row : List Value)
    (schema : List DataType) (k : Nat) (bytes body rest : Bytes) : Prop where
  length : row.length = schema.length
  types : validateTypes (row.take k) (schema.take k) = .ok ()
  written : encodeValues x enc' (nullBitmap row) 0 (row.take k) (schema.take k) = .ok body
  split : bytes = nullBitmap row ++ (body ++ rest)

/-- The bitmap of a row and its first `k` columns are stored as `encode_row` writes them. -/
def StoredTo (x : Externals) (row : List Value) (schema : List DataType) (k : Nat) (bytes : Bytes) :
    Prop :=
  ∃ body rest, Encoded x (encodeCompositeWith (encodeRowDepth x 0)) row schema k bytes body rest

theorem storedTo_of_encodeRow (h : encodeRow x row schema = .ok bytes) (k : Nat) :
    StoredTo x row schema k bytes := by
  rw [encodeRow, encodeRowDepth, encodeRowWith] at h
  split at h
  · cases h
  next hlen =>
  obtain ⟨_, htypes, h⟩ := bind_eq_ok.1 h
  obtain ⟨body, hbody, h⟩ := bind_eq_ok.1 h
  cases h
  have hlen : row.length = schema.length := by simpa using hlen
  by_cases hk : k < row.length
  · obtain ⟨before, enc, after, rfl, hbefore, -⟩ := encodeValues_take hbody hk (hlen ▸ hk)
    exact ⟨before, enc ++ after, hlen, validateTypes_take k htypes, hbefore, rfl⟩
  · refine ⟨body, [], hlen, ?_, ?_, by rw [append_nil]⟩
    all_goals rwa [take_of_length_le (by omega), take_of_length_le (by omega)]

section Check

variable {enc' : List Value → Except CodecError Bytes} {body rest : Bytes} {k : Nat}

theorem Encoded.take_bitmap (h : Encoded x enc' row schema k bytes body rest) :
    bytes.take (bitmapLen schema.length) = nullBitmap row := by
  rw [h.split]
  exact take_left' (by rw [length_nullBitmap, h.length])

theorem isNullBit_getElem {k : Nat} (hk : k < row.length) :
    isNullBit (nullBitmap row) (0 + k) = row[k].isNull := by
  rw [isNullBit_nullBitmap, zero_add]
  simp [hk]

theorem Encoded.colOffset_eq {check : SingleCheck}
    (h : Encoded x enc' row schema (check.colIdx + 1) bytes body rest)
    (checks : List SingleCheck) (hk : check.colIdx < row.length) (hk' : check.colIdx < schema.length)
    (hoff : check.fixedOffset = fixedOffset (bitmapLen schema.length) (schema.take check.colIdx))
    (hnull : row[check.colIdx].isNull = false) (hfound : columnFound schema row check.colIdx) :
    ∃ before enc after, body = before ++ (enc ++ after) ∧
      encodeValue x enc' row[check.colIdx] schema[check.colIdx] = .ok enc ∧
      colOffset ⟨checks, schema, bitmapLen schema.length⟩ bytes check =
        some ((nullBitmap row).length + before.length) := by
  obtain ⟨before, enc, after, hbody, hbefore, henc⟩ := encodeValues_take (k := check.colIdx) h.written
    (by rw [length_take]; omega) (by rw [length_take]; omega)
  rw [take_take, take_take, Nat.min_eq_left (Nat.le_succ _)] at hbefore
  rw [getElem_take, getElem_take] at henc
  have htypes := validateTypes_take check.colIdx h.types
  rw [take_take, take_take, Nat.min_eq_left (Nat.le_succ _)] at htypes
  have hblen : bitmapLen schema.length = (nullBitmap row).length := by
    rw [length_nullBitmap, h.length]
  have hlen : (row.take check.colIdx).length = (schema.take check.colIdx).length := by
    rw [length_take, length_take, h.length]
  have hbits : ∀ k, (hk : k < (row.take check.colIdx).length) →
      isNullBit (nullBitmap row) (0 + k) = (row.take check.colIdx)[k].isNull := by
    intro k hk
    rw [getElem_take]
    exact isNullBit_getElem _
  refine ⟨before, enc, after, hbody, henc ((isNullBit_getElem hk).trans hnull), ?_⟩
  rw [columnFound, ← fixedOffset_isSome (bitmapLen schema.length)] at hfound
  rw [colOffset, hoff]
  cases hf : fixedOffset (bitmapLen schema.length) (schema.take check.colIdx) with
  | some off =>
    rw [hf, isSome_some, if_pos rfl] at hfound
    rw [fixedOffset_eq hlen hbefore hbits htypes hfound hf, some_or, hblen]
  | none =>
    rw [hf, isSome_none, if_neg Bool.false_ne_true] at hfound
    have hknown : ∀ k, (hk : k < (row.take check.colIdx).length) →
        (hk' : k < (schema.take check.colIdx).length) →
        (row.take check.colIdx)[k].isNull ∨ (fixedSize (schema.take check.colIdx)[k]).isSome ∨
          isPrefixed (schema.take check.colIdx)[k] :=
      fun k hk hk' => (forall₂_iff_get.1 hfound).2 k hk hk'
    rw [none_or, locateColumnRuntime]
    dsimp only
    rw [h.take_bitmap, h.split, hbody, hblen, append_assoc]
    exact walk_eq _ _ hlen hbefore hbits htypes hknown

/-- A check of a row is the comparison of the evaluator. -/
theorem Encoded.evalSingle_eq (checks : List SingleCheck) (check : SingleCheck)
    (h : Encoded x enc' row schema (check.colIdx + 1) bytes body rest) (hk : check.colIdx < row.length)
    (hk' : check.colIdx < schema.length) (hdt : check.dataType = schema[check.colIdx])
    (hoff : check.fixedOffset = fixedOffset (bitmapLen schema.length) (schema.take check.colIdx))
    (hlit : encodeLiteral x v schema[check.colIdx] = some (check.literalBytes, check.literalLen))
    (hfit : literalFits x schema[check.colIdx] v) (hfit' : literalFits x schema[check.colIdx] row[check.colIdx])
    (hfound : columnFound schema row check.colIdx)
    (hnull : row[check.colIdx].isNull = false) :
    ∃ ord, (∀ op : BinaryOp, evalBinary o op row[check.colIdx] v = .ok (.bool (op.holds ord))) ∧
      (∀ op : BinaryOp, evalBinary o op v row[check.colIdx] = .ok (.bool (op.holds ord.swap))) ∧
      evalSingle x ⟨checks, schema, bitmapLen schema.length⟩ bytes check =
        check.op.toBinaryOp.holds ord := by
  obtain ⟨before, enc, after, hbody, henc, hcol⟩ := h.colOffset_eq checks hk hk' hoff hnull hfound
  have htype := validateTypes_getElem (k := check.colIdx) h.types (by rw [length_take]; omega)
    (by rw [length_take]; omega) (by rwa [getElem_take])
  rw [getElem_take, getElem_take] at htype
  obtain ⟨hlen, ord, hcmp⟩ := compared_of_encodeLiteral (o := o) hlit hfit hfit' htype henc
  refine ⟨ord, hcmp.left, hcmp.right, ?_⟩
  have henclen : enc.length = check.literalLen := hcmp.length.trans hlen
  have hdrop : (bytes.drop ((nullBitmap row).length + before.length)).take check.literalLen = enc := by
    rw [h.split, hbody, append_assoc, ← append_assoc, ← length_append, drop_left, append_assoc]
    exact take_left' henclen
  have hle : ¬(nullBitmap row).length + before.length + check.literalLen > bytes.length := by
    rw [h.split, hbody, ← henclen]
    simp only [length_append]
    omega
  have hbit := isNullBit_getElem hk
  rw [zero_add, hnull] at hbit
  rw [evalSingle]
  dsimp only
  rw [h.take_bitmap, hbit, if_neg Bool.false_ne_true, hcol]
  dsimp only
  rw [if_neg hle, hdrop]
  exact hcmp.bytes check hdt

end Check

/-! ## Expressions -/

theorem fromBinaryOp_eq_some {c : CmpOp}
    (h : CmpOp.fromBinaryOp op reversed = some c) :
    ∃ c', op = c'.toBinaryOp ∧ c = if reversed then c'.flip else c' := by
  unfold CmpOp.fromBinaryOp at h
  cases op
  case eq | notEq | lt | ltEq | gt | gtEq =>
    refine ⟨_, ?_, (some.inj h).symm⟩
    rfl
  all_goals cases h

theorem eval_comparison (o : Ops) (row : List Value) (c : CmpOp) (left right : Expr) :
    eval o row (.binaryOp c.toBinaryOp left right) = (do
      let l ← eval o row left
      let r ← eval o row right
      evalBinary o c.toBinaryOp l r) := by
  have hcmp : c.toBinaryOp.isComparison := by cases c <;> rfl
  have hand : c.toBinaryOp = .and → False := by
    cases c <;> intro h <;> cases h
  rw [eval, if_pos hcmp]
  exact hand

/-- NULL, or a truth value. -/
def Value.IsTruth (v : Value) : Prop := v = .null ∨ ∃ b, v = .bool b

/-- What a compiled expression evaluates to. -/
structure Agrees (o : Ops) (row : List Value) (e : Expr) (passes : Bool) : Prop where
  evaluates : ∃ v, eval o row e = .ok v ∧ v.IsTruth ∧ passes = isTruthy v

/-- The second operand is looked at where the first is true, and evaluated where it is NULL. -/
theorem Agrees.and {l r : Expr} {a b : Bool} (hl : Agrees o row l a)
    (hr : eval o row l = .ok (.bool true) → Agrees o row r b)
    (hnull : eval o row l = .ok .null → ∃ v, eval o row r = .ok v) :
    Agrees o row (.binaryOp .and l r) (a && b) := by
  obtain ⟨v, hv, htv, rfl⟩ := hl.evaluates
  refine ⟨?_⟩
  rw [eval, hv]
  rcases htv with rfl | ⟨c, rfl⟩
  · obtain ⟨w, hw⟩ := hnull hv
    rw [hw, evalAnd, ok_bind]
    dsimp only
    rw [ok_bind]
    split
    · exact ⟨_, rfl, .inr ⟨_, rfl⟩, rfl⟩
    · exact ⟨_, rfl, .inl rfl, rfl⟩
  · cases c with
    | true =>
      obtain ⟨w, hw, htw, rfl⟩ := (hr hv).evaluates
      rw [hw]
      exact ⟨w, rfl, htw, rfl⟩
    | false => exact ⟨_, rfl, .inr ⟨_, rfl⟩, rfl⟩

/-- The offset that `precompute_offsets` gives to a check. -/
def withOffset (schema : List DataType) (c : SingleCheck) : SingleCheck :=
  { c with fixedOffset := fixedOffset (bitmapLen schema.length) (schema.take c.colIdx) }

section Compile

variable {enc' : List Value → Except CodecError Bytes} {body : Bytes} {cs : List SingleCheck}
  {colIdx : Nat}

/-- A comparison of a column with a literal is compiled to one check. -/
theorem compileCheck_eq_some
    (h : compileCheck x schema op colIdx v reversed = some cs) :
    ∃ c, ∃ hk : colIdx < schema.length, ∃ lit,
      op = c.toBinaryOp ∧ encodeLiteral x v schema[colIdx] = some lit ∧
      cs = [⟨colIdx, if reversed then c.flip else c, lit.1, lit.2, schema[colIdx], none⟩] := by
  obtain ⟨c, hc, h⟩ := bind_eq_some_iff.1 h
  obtain ⟨dt, hdt, h⟩ := bind_eq_some_iff.1 h
  obtain ⟨lit, hlit, h⟩ := bind_eq_some_iff.1 h
  obtain ⟨c', rfl, rfl⟩ := fromBinaryOp_eq_some hc
  obtain ⟨hk, rfl⟩ := List.getElem?_eq_some_iff.1 hdt
  exact ⟨c', hk, lit, rfl, hlit, (some.inj h).symm⟩

theorem agrees_check (hlen : row.length = schema.length)
    (hbitmap : bytes.take (bitmapLen schema.length) = nullBitmap row) (checks : List SingleCheck)
    (reversed : Bool) (hc : compileCheck x schema op colIdx v reversed = some cs)
    (hsafe : checkSafe x schema row colIdx v)
    (hstored : row[colIdx]? = some .null ∨ StoredTo x row schema (colIdx + 1) bytes) :
    Agrees o row (if reversed then .binaryOp op (.literal v) (.column colIdx)
        else .binaryOp op (.column colIdx) (.literal v)) ((cs.map (withOffset schema)).all
        (evalSingle x ⟨checks, schema, bitmapLen schema.length⟩ bytes)) := by
  obtain ⟨c, hk', lit, rfl, hlit, rfl⟩ := compileCheck_eq_some hc
  have hk : colIdx < row.length := by rw [hlen]; exact hk'
  have hcol : eval o row (.column colIdx) = .ok row[colIdx] := by
    rw [eval, getElem?_eq_getElem hk]
  have hlitv : eval o row (.literal v) = .ok v := by rw [eval]
  refine ⟨?_⟩
  rw [map_singleton, all_cons, all_nil, Bool.and_true]
  cases hnull : row[colIdx].isNull with
  | true =>
    have hrow : row[colIdx] = .null := by
      cases hr : row[colIdx] with
      | null => rfl
      | _ =>
        rw [hr] at hnull
        cases hnull
    have hbit := isNullBit_getElem hk
    rw [zero_add, hnull] at hbit
    have hfalse : evalSingle x ⟨checks, schema, bitmapLen schema.length⟩ bytes (withOffset schema
        ⟨colIdx, if reversed then c.flip else c, lit.1, lit.2, schema[colIdx], none⟩) = false := by
      rw [evalSingle, withOffset]
      dsimp only
      rw [hbitmap, hbit, if_pos rfl]
    obtain ⟨hl, hr⟩ := evalBinary_null (o := o) hlit c.toBinaryOp
    rw [hfalse]
    cases reversed with
    | true =>
      rw [if_pos rfl, eval_comparison, hcol, hlitv, ok_bind, ok_bind, hrow, hr]
      exact ⟨_, rfl, .inl rfl, rfl⟩
    | false =>
      rw [if_neg Bool.false_ne_true, eval_comparison, hcol, hlitv, ok_bind, ok_bind, hrow, hl]
      exact ⟨_, rfl, .inl rfl, rfl⟩
  | false =>
    have hnot : row[colIdx]? ≠ some .null := fun heq => by
      rw [getElem?_eq_getElem hk] at heq
      rw [some.inj heq] at hnull
      cases hnull
    obtain ⟨hfit, hfound⟩ := hsafe.resolve_left hnot
    obtain ⟨body, rest, h⟩ := hstored.resolve_left hnot
    obtain ⟨hfit, hfit'⟩ := hfit _ _ (getElem?_eq_getElem hk') (getElem?_eq_getElem hk)
    obtain ⟨ord, hl, hr, heq⟩ := Encoded.evalSingle_eq (o := o) checks (withOffset schema
      ⟨colIdx, if reversed then c.flip else c, lit.1, lit.2, schema[colIdx], none⟩) h hk hk' rfl rfl hlit
      hfit hfit' hfound hnull
    rw [heq]
    cases reversed with
    | true =>
      rw [if_pos rfl, eval_comparison, hcol, hlitv, ok_bind, ok_bind]
      refine ⟨_, hr c.toBinaryOp, .inr ⟨_, rfl⟩, ?_⟩
      show c.flip.toBinaryOp.holds ord = _
      rw [holds_flip]
      cases c.toBinaryOp.holds ord.swap <;> rfl
    | false =>
      rw [if_neg Bool.false_ne_true, eval_comparison, hcol, hlitv, ok_bind, ok_bind]
      refine ⟨_, hl c.toBinaryOp, .inr ⟨_, rfl⟩, ?_⟩
      show c.toBinaryOp.holds ord = _
      cases c.toBinaryOp.holds ord <;> rfl

/-- The checks of an expression pass where the expression holds. -/
theorem agrees_checks (hlen : row.length = schema.length)
    (hbitmap : bytes.take (bitmapLen schema.length) = nullBitmap row) (checks : List SingleCheck)
    (e : Expr) (hc : collectChecks x schema e = some cs)
    (hsafe : e.ReachedAll o row fun colIdx v => checkSafe x schema row colIdx v ∧
      (row[colIdx]? = some .null ∨ StoredTo x row schema (colIdx + 1) bytes)) :
    Agrees o row e ((cs.map (withOffset schema)).all
      (evalSingle x ⟨checks, schema, bitmapLen schema.length⟩ bytes)) := by
  fun_induction collectChecks x schema e generalizing cs with
  | case1 left right ihl ihr =>
    obtain ⟨l, hl, hc⟩ := bind_eq_some_iff.1 hc
    obtain ⟨r, hr, hc⟩ := bind_eq_some_iff.1 hc
    cases hc
    rw [Expr.ReachedAll] at hsafe
    rw [map_append, all_append]
    exact (ihl hl hsafe.1).and (fun htrue => ihr hr (hsafe.2.1 htrue)) hsafe.2.2
  | case2 op colIdx v hne =>
    rw [Expr.ReachedAll] at hsafe
    · exact agrees_check hlen hbitmap checks false hc hsafe.1 hsafe.2
    · exact hne
  | case3 op v colIdx hne =>
    rw [Expr.ReachedAll] at hsafe
    · exact agrees_check hlen hbitmap checks true hc hsafe.1 hsafe.2
    · exact hne
  | case4 => cases hc

end Compile

/-! ## Batches -/

theorem gatherSize_of_encodeLiteral (h : encodeLiteral x v dt = some (lit, len)) :
    gatherSize dt = some len := by
  unfold encodeLiteral at h
  split at h
  case h_12 => cases h
  all_goals
    cases h
    rfl

theorem gatherSize_of_collectChecks {cs : List SingleCheck}
    (h : collectChecks x schema e = some cs) :
    ∀ c ∈ cs, gatherSize c.dataType = some c.literalLen := by
  have hone : ∀ {op : BinaryOp} {colIdx : Nat} {v : Value} {reversed : Bool} {cs : List SingleCheck},
      compileCheck x schema op colIdx v reversed = some cs →
      ∀ c ∈ cs, gatherSize c.dataType = some c.literalLen := by
    intro op colIdx v reversed cs h c hmem
    obtain ⟨c', hk, lit, -, hlit, rfl⟩ := compileCheck_eq_some h
    rw [mem_singleton.1 hmem]
    exact gatherSize_of_encodeLiteral hlit
  fun_induction collectChecks x schema e generalizing cs with
  | case1 left right ihl ihr =>
    obtain ⟨l, hl, h⟩ := bind_eq_some_iff.1 h
    obtain ⟨r, hr, h⟩ := bind_eq_some_iff.1 h
    cases h
    exact forall_mem_append.2 ⟨ihl hl, ihr hr⟩
  | case2 => exact hone h
  | case3 => exact hone h
  | case4 => cases h

/-- One check of a batch clears the flags of the rows that fail it. -/
theorem evalCheckBatch_eq (x : Externals) (p : BatchPredicate) (rows : List Bytes)
    {check : SingleCheck} (output : List Bool)
    (h : gatherSize check.dataType = some check.literalLen) :
    p.evalCheckBatch x rows check output =
      zipWith (fun row flag => flag && p.evalSingle x row check) rows output := by
  have hrow : ∀ row flag, ((p.gather check check.literalLen row flag).1 &&
      compareBytes x check (p.gather check check.literalLen row flag).2
        (check.literalBytes.take check.literalLen)) = (flag && p.evalSingle x row check) := by
    intro row flag
    rw [gather, evalSingle]
    cases flag with
    | false => rfl
    | true =>
      cases isNullBit (row.take p.bitmapLen) check.colIdx with
      | true => rfl
      | false =>
        rcases p.colOffset row check with _ | off
        · rfl
        dsimp only
        by_cases hle : off + check.literalLen ≤ row.length
        · rw [if_pos hle, if_neg (show ¬off + check.literalLen > row.length by omega)]
          rfl
        · rw [if_neg hle, if_pos (show off + check.literalLen > row.length by omega)]
          rfl
  rw [evalCheckBatch, h]
  exact congrArg (fun f => zipWith f rows output) (funext fun row => funext fun flag => hrow row flag)

theorem zipWith_and_zipWith (f g : α → Bool) (rows : List α) (output : List Bool) :
    zipWith (fun row flag => flag && f row) rows
        (zipWith (fun row flag => flag && g row) rows output) =
      zipWith (fun row flag => flag && (g row && f row)) rows output := by
  induction rows generalizing output with
  | nil => rfl
  | cons row rows ih =>
    cases output with
    | nil => rfl
    | cons flag output =>
      rw [zipWith_cons_cons, zipWith_cons_cons, zipWith_cons_cons, ih, Bool.and_assoc]

theorem zipWith_and_true (h : rows.length = output.length) :
    zipWith (fun _ flag => flag && true) rows output = output := by
  induction rows generalizing output with
  | nil => rw [length_eq_zero_iff.1 h.symm, zipWith_nil_left]
  | cons row rows ih =>
    cases output with
    | nil => cases h
    | cons flag output => rw [zipWith_cons_cons, ih (Nat.succ.inj h), Bool.and_true]

theorem zipWith_and_congr {β : Type} {f : β → Bool} {g : α → Bool} {encs : List β}
    (h : Forall₂ (fun row enc => f enc = g row) rows encs) (output : List Bool) :
    zipWith (fun enc flag => flag && f enc) encs output =
      zipWith (fun row flag => flag && g row) rows output := by
  induction h generalizing output with
  | nil => rfl
  | cons h _ ih =>
    cases output with
    | nil => rfl
    | cons flag output => rw [zipWith_cons_cons, zipWith_cons_cons, h, ih]

/-- A batch of rows gets what each row gets on its own. -/
theorem evalBatch_eq (x : Externals) (p : BatchPredicate) {rows : List Bytes}
    (hlen : rows.length = output.length)
    (h : ∀ c ∈ p.checks, gatherSize c.dataType = some c.literalLen) : p.evalBatch x rows output =
      zipWith (fun row flag => flag && p.evalOnRaw x row) rows output := by
  have hfold : ∀ (cs : List SingleCheck) (output : List Bool), rows.length = output.length →
      (∀ c ∈ cs, gatherSize c.dataType = some c.literalLen) →
      cs.foldl (fun output check => p.evalCheckBatch x rows check output) output =
        zipWith (fun row flag => flag && cs.all (p.evalSingle x row)) rows output := by
    intro cs
    induction cs with
    | nil => exact fun output hlen _ => (zipWith_and_true hlen).symm
    | cons c cs ih =>
      intro output hlen h
      rw [foldl_cons, evalCheckBatch_eq x p rows output (h c mem_cons_self),
        ih _ (by rw [length_zipWith, ← hlen, Nat.min_self])
          fun c hmem => h c (mem_cons_of_mem _ hmem)]
      exact zipWith_and_zipWith _ _ rows output
  exact hfold p.checks output hlen h

/-- The WHERE of a statement holds on a row. -/
def holdsOn (o : Ops) (e : Expr) (row : List Value) : Bool :=
  match eval o row e with
  | .ok v => isTruthy v
  | .error _ => false

/-- A compiled predicate on a row whose reached columns are stored as `encode_row` writes them. -/
theorem evalOnRaw_of_storedTo
    (hc : tryCompile x e schema = some p) (hstart : StoredTo x row schema 0 bytes)
    (hsafe : e.ReachedAll o row fun colIdx v => checkSafe x schema row colIdx v ∧
      (row[colIdx]? = some .null ∨ StoredTo x row schema (colIdx + 1) bytes)) :
    ∃ v, eval o row e = .ok v ∧ p.evalOnRaw x bytes = isTruthy v := by
  obtain ⟨cs, hcs, hc⟩ := bind_eq_some_iff.1 hc
  split at hc
  · cases hc
  cases hc
  obtain ⟨body, rest, h⟩ := hstart
  obtain ⟨v, hv, -, heq⟩ :=
    (agrees_checks h.length h.take_bitmap (cs.map (withOffset schema)) e hcs hsafe).evaluates
  exact ⟨v, hv, heq⟩

theorem evalOnRaw_eq
    (hc : tryCompile x e schema = some p) (henc : encodeRow x row schema = .ok bytes)
    (hsafe : e.RawSafe o x schema row) :
    ∃ v, eval o row e = .ok v ∧ p.evalOnRaw x bytes = isTruthy v :=
  evalOnRaw_of_storedTo hc (storedTo_of_encodeRow henc 0)
    (hsafe.imp fun colIdx _ h => ⟨h, .inr (storedTo_of_encodeRow henc (colIdx + 1))⟩)

theorem gatherSize_of_tryCompile (hc : tryCompile x e schema = some p) :
    ∀ c ∈ p.checks, gatherSize c.dataType = some c.literalLen := by
  obtain ⟨cs, hcs, hc⟩ := bind_eq_some_iff.1 hc
  split at hc
  · cases hc
  cases hc
  intro c hmem
  obtain ⟨c', hc', rfl⟩ := mem_map.1 hmem
  exact gatherSize_of_collectChecks hcs c' hc'

/-- A compiled predicate is what the evaluator makes of the row, alone and in a batch, if
the literals fit their columns and every column is where the check looks for it. -/
theorem raw_predicates_agree {o : Ops} {x : Externals} {schema : List DataType} {e : Expr}
    {p : BatchPredicate} {rows : List (List Value)} {encs : List Bytes}
    (hc : tryCompile x e schema = some p)
    (henc : List.Forall₂ (fun row bytes => encodeRow x row schema = .ok bytes ∧ e.RawSafe o x schema row)
      rows encs) :
    List.Forall₂ (fun row bytes => ∃ v, eval o row e = .ok v ∧ p.evalOnRaw x bytes = isTruthy v)
        rows encs ∧
      ∀ output : List Bool, output.length = encs.length → p.evalBatch x encs output =
        List.zipWith (fun row flag => flag && holdsOn o e row) rows output := by
  have hraw : List.Forall₂
      (fun row bytes => ∃ v, eval o row e = .ok v ∧ p.evalOnRaw x bytes = isTruthy v) rows encs :=
    henc.imp fun row bytes h => evalOnRaw_eq hc h.1 h.2
  refine ⟨hraw, fun output hlen => ?_⟩
  refine (evalBatch_eq x p hlen.symm (gatherSize_of_tryCompile hc)).trans (zipWith_and_congr ?_ output)
  refine hraw.imp fun row bytes h => ?_
  obtain ⟨v, hv, heq⟩ := h
  rw [holdsOn, hv]
  exact heq

/-- An evaluator that knows only comparisons. -/
def plainOps : Ops where
  combine := fun _ _ => .ok .null
  compareOther := fun _ _ => .error (.typeMismatch "comparable types" "other")
  textCompare := fun _ _ _ => false
  dispatch := fun _ _ _ => .ok .null

/-- `col1 = 5` -/
def secondIsFive : Expr := .binaryOp .eq (.column 1) (.literal (.int (.wrap 32 5)))

/-- `col0 = 1 AND col2 = 5` -/
def firstAndThird : Expr := .binaryOp .and (.binaryOp .eq (.column 0) (.literal (.int (.wrap 32 1))))
  (.binaryOp .eq (.column 2) (.literal (.int (.wrap 32 5))))

/-- On the first row the conjunction is false at its first operand; the NULL before the third column
is not reached. On the second row both operands are true. -/
theorem raw_predicates_agree_two_rows :
    ∃ p, tryCompile plainExternals firstAndThird [.int, .int, .int] = some p ∧
      List.Forall₂ (fun row bytes => ∃ v, eval plainOps row firstAndThird = .ok v ∧
        p.evalOnRaw plainExternals bytes = isTruthy v)
        [[.int (.wrap 32 2), .null, .int (.wrap 32 7)],
          [.int (.wrap 32 1), .int (.wrap 32 3), .int (.wrap 32 5)]]
        [[2, 2, 0, 0, 0, 7, 0, 0, 0], [0, 1, 0, 0, 0, 3, 0, 0, 0, 5, 0, 0, 0]] ∧
      p.evalBatch plainExternals
          [[2, 2, 0, 0, 0, 7, 0, 0, 0], [0, 1, 0, 0, 0, 3, 0, 0, 0, 5, 0, 0, 0]] [true, true] =
        List.zipWith (fun row flag => flag && holdsOn plainOps firstAndThird row)
          [[.int (.wrap 32 2), .null, .int (.wrap 32 7)],
            [.int (.wrap 32 1), .int (.wrap 32 3), .int (.wrap 32 5)]] [true, true] := by
  have hsome : (tryCompile plainExternals firstAndThird [.int, .int, .int]).isSome = true := rfl
  obtain ⟨p, hp⟩ := isSome_iff_exists.1 hsome
  have hsafe₁ : firstAndThird.RawSafe plainOps plainExternals [.int, .int, .int]
      [.int (.wrap 32 2), .null, .int (.wrap 32 7)] := by
    refine ⟨.inr ⟨fun dt w hdt hw => ?_, by simp [columnFound]⟩, fun h => ?_, fun h => ?_⟩
    · cases hdt
      cases hw
      exact ⟨rfl, rfl⟩
    all_goals simp [eval, isComparison, evalBinary, Value.dispatches, Value.isNull, evalComparison,
      compareValues, holds, bind, Except.bind, SInt.wrap] at h
  have hsafe₂ : firstAndThird.RawSafe plainOps plainExternals [.int, .int, .int]
      [.int (.wrap 32 1), .int (.wrap 32 3), .int (.wrap 32 5)] := by
    refine ⟨.inr ⟨fun dt w hdt hw => ?_, by simp [columnFound]⟩, fun h => .inr ⟨fun dt w hdt hw => ?_, ?_⟩,
      fun h => ?_⟩
    · cases hdt
      cases hw
      exact ⟨rfl, rfl⟩
    · cases hdt
      cases hw
      exact ⟨rfl, rfl⟩
    · simp [columnFound, fixedSize, Value.isNull]
    · simp [eval, isComparison, evalBinary, Value.dispatches, Value.isNull, evalComparison,
        compareValues, holds, bind, Except.bind, SInt.wrap] at h
  have h := raw_predicates_agree (o := plainOps) hp
    (.cons ⟨rfl, hsafe₁⟩ (.cons ⟨rfl, hsafe₂⟩ .nil))
  exact ⟨p, hp, h.1, h.2 [true, true] rfl⟩

/-- A NULL before a column of a fixed offset: the check reads past the row, and fails,
where the evaluator finds the row to match. -/
theorem null_before_column :
    ∃ p bytes, tryCompile plainExternals secondIsFive [.int, .int] = some p ∧
      encodeRow plainExternals [.null, .int (.wrap 32 5)] [.int, .int] = .ok bytes ∧
      eval plainOps [.null, .int (.wrap 32 5)] secondIsFive = .ok (.bool true) ∧
      p.evalOnRaw plainExternals bytes = false := by
  refine ⟨_, _, rfl, rfl, ?_, rfl⟩
  simp [secondIsFive, eval, isComparison, evalBinary, Value.dispatches, Value.isNull,
    evalComparison, compareValues, holds, bind, Except.bind]

end AxiomDb.Row
