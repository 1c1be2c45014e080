import AxiomDb.Sql.KeyEncoding

/-!
# The order of index keys

Keys are compared as byte strings, so the encoding has to keep the order of the
values. Where two lists first differ, the encodings of the two values part, in
an order that can be read off the values (`encodedOrder`): for most types it is
the order of the values; for decimals it is by scale before mantissa; for strings
an embedded NUL is written as `0xFF 0x00` and sorts like `0xFF`. Only a NUL
against a last byte `0xFF` is left open: there the encodings go on alike, and
what follows them decides.
-/

namespace AxiomDb.Sql

open Lib List Option

/-! ## The order of the values -/

namespace Value

/-- Two values of one scalar type, or one of them NULL. -/
def comparable : Value → Value → Bool
  | null, y => y.isScalar
  | x, null => x.isScalar
  | bool _, bool _ | int _, int _ | bigInt _, bigInt _ | decimal .., decimal .. | date _, date _
  | timestamp _, timestamp _ | text _, text _ | bytes _, bytes _ | uuid _, uuid _ => true
  | _, _ => false

/-- The SQL order of comparable values: NULL first, decimals by the number they
stand for, strings by their bytes. -/
def cmp : Value → Value → Ordering
  | null, null => .eq
  | null, _ => .lt
  | _, null => .gt
  | bool x, bool y => compareOfLessAndEq x.toNat y.toNat
  | int x, int y => compareOfLessAndEq x.val y.val
  | bigInt x, bigInt y => compareOfLessAndEq x.val y.val
  | decimal x s, decimal y t => compareOfLessAndEq (x.val * 10 ^ t.val) (y.val * 10 ^ s.val)
  | date x, date y => compareOfLessAndEq x.val y.val
  | timestamp x, timestamp y => compareOfLessAndEq x.val y.val
  | text x, text y => compareOfLessAndEq x.bytes y.bytes
  | bytes x, bytes y => compareOfLessAndEq x y
  | uuid x, uuid y => compareOfLessAndEq x.val y.val
  | _, _ => .eq

end Value

/-- The first components that differ decide. -/
def cmpTuple : List Value → List Value → Ordering
  | x :: xs, y :: ys => (x.cmp y).then (cmpTuple xs ys)
  | _, _ => .eq

/-! ## The order of the encodings -/

/-- The order of two different strings' encodings, where what follows does not matter. -/
def bytesOrder : Bytes → Bytes → Option Ordering
  | [], _ => some .lt
  | _ :: _, [] => some .gt
  | c :: r, d :: s =>
    if c = d then bytesOrder r s
    else if c = 0 then
      if d = 0xFF then (if s = [] then none else some .lt) else some .gt
    else if d = 0 then
      if c = 0xFF then (if r = [] then none else some .gt) else some .lt
    else some (compareOfLessAndEq c d)

/-- The order of two different comparable values' encodings. -/
def encodedOrder : Value → Value → Option Ordering
  | .decimal x s, .decimal y t =>
    some ((compareOfLessAndEq s t).then (compareOfLessAndEq x.val y.val))
  | .text x, .text y => bytesOrder x.bytes y.bytes
  | .bytes x, .bytes y => bytesOrder x y
  | x, y => some (x.cmp y)

/-- Where the lists first differ, the encodings are in the order of the lists. -/
def keepsOrder : List Value → List Value → Bool
  | x :: xs, y :: ys =>
    if x = y then keepsOrder xs ys else encodedOrder x y == some (cmpTuple (x :: xs) (y :: ys))
  | _, _ => true

/-- The lists first differ in two strings, in a NUL against a last byte `0xFF`. -/
def openOrder : List Value → List Value → Bool
  | x :: xs, y :: ys => if x = y then openOrder xs ys else encodedOrder x y == none
  | _, _ => false

theorem compareOfLessAndEq_self {α : Type} [Preorder α] [DecidableLT α] [DecidableEq α] (a : α) :
    compareOfLessAndEq a a = .eq := by
  simp [compareOfLessAndEq]

theorem Value.cmp_self (x : Value) : x.cmp x = .eq := by
  cases x <;> first | rfl | exact compareOfLessAndEq_self _

theorem exists_encodeBytesNul (b : Bytes) : ∃ c r, encodeBytesNul b = c :: r ∧ (b ≠ [] → c ≠ 0) := by
  cases b with
  | nil => exact ⟨0, [], rfl, (by simp)⟩
  | cons c b =>
    rw [encodeBytesNul]
    split
    next => exact ⟨_, _, rfl, fun _ => by decide⟩
    next h => exact ⟨_, _, rfl, fun _ => h⟩

variable {x y : Bytes} {a b : List Value} {bits : Nat} {o : Ordering}

theorem parts_encodeBytesNul (h : x ≠ y) (ho : bytesOrder x y = some o) :
    Parts o (encodeBytesNul x) (encodeBytesNul y) := by
  induction x generalizing y with
  | nil =>
    obtain ⟨c, r, hc, hne⟩ := exists_encodeBytesNul y
    obtain rfl := some.inj ho
    rw [hc]
    exact Below.cons_of_lt (Fin.pos_iff_ne_zero.mpr (hne (Ne.symm h))) _ _
  | cons c r ih =>
    cases y with
    | nil =>
      obtain ⟨c', r', hc, hne⟩ := exists_encodeBytesNul (c :: r)
      obtain rfl := some.inj ho
      rw [hc]
      exact Below.cons_of_lt (Fin.pos_iff_ne_zero.mpr (hne h)) _ _
    | cons d s =>
      simp only [bytesOrder] at ho
      by_cases hcd : c = d
      · subst hcd
        have hrest := ih (fun e => h (by rw [e])) (by simpa using ho)
        rw [encodeBytesNul, encodeBytesNul]
        split
        · exact (hrest.cons 0).cons 0xFF
        · exact hrest.cons c
      rw [if_neg hcd] at ho
      rw [encodeBytesNul, encodeBytesNul]
      by_cases hc : c = 0
      · have hd : d ≠ 0 := fun e => hcd (hc.trans e.symm)
        rw [if_pos hc, if_neg hd]
        rw [if_pos hc] at ho
        split at ho
        next hff =>
          split at ho
          · cases ho
          next hs =>
            obtain rfl := some.inj ho
            obtain ⟨d', s', hd', hne⟩ := exists_encodeBytesNul s
            rw [hff, hd']
            exact (Below.cons_of_lt (Fin.pos_iff_ne_zero.mpr (hne hs)) _ _).cons _
        next hff =>
          obtain rfl := some.inj ho
          exact Below.cons_of_lt (lt_of_le_of_ne (Fin.le_last d) hff) _ _
      rw [if_neg hc] at ho
      rw [if_neg hc]
      by_cases hd : d = 0
      · rw [if_pos hd] at ho
        rw [if_pos hd]
        split at ho
        next hff =>
          split at ho
          · cases ho
          next hr =>
            obtain rfl := some.inj ho
            obtain ⟨c', r', hc', hne⟩ := exists_encodeBytesNul r
            rw [hff, hc']
            exact (Below.cons_of_lt (Fin.pos_iff_ne_zero.mpr (hne hr)) _ _).cons _
        next hff =>
          obtain rfl := some.inj ho
          exact Below.cons_of_lt (lt_of_le_of_ne (Fin.le_last c) hff) _ _
      · rw [if_neg hd] at ho
        rw [if_neg hd]
        obtain rfl := some.inj ho
        exact Parts.of_ne hcd _ _

theorem parts_signFlip {k : Nat} (hk : (256 : Int) ^ k = 2 * 2 ^ (bits - 1)) {m n : Int}
    (hm : -2 ^ (bits - 1) ≤ m ∧ m < 2 ^ (bits - 1)) (hn : -2 ^ (bits - 1) ≤ n ∧ n < 2 ^ (bits - 1))
    (h : m ≠ n) :
    Parts (compareOfLessAndEq m n) (beBytes k (signFlip bits m)) (beBytes k (signFlip bits n)) := by
  have hcast : ((256 ^ k : Nat) : Int) = 256 ^ k := by push_cast; rfl
  simp only [signFlip]
  generalize (2 : Int) ^ (bits - 1) = M at *
  have hcmp : compareOfLessAndEq (m + M).toNat (n + M).toNat = compareOfLessAndEq m n := by
    simp only [compareOfLessAndEq]
    split_ifs <;> first | rfl | omega
  rw [← hcmp]
  exact parts_beBytes (by omega) (by omega) (by omega)

/-- Strings of one length are their own encodings. -/
theorem parts_of_length_eq (hl : x.length = y.length) (h : x ≠ y) :
    Parts (compareOfLessAndEq x y) x y := by
  induction x generalizing y with
  | nil => exact absurd (length_eq_zero_iff.mp hl.symm).symm h
  | cons c r ih =>
    obtain _ | ⟨d, s⟩ := y
    · simp at hl
    by_cases hcd : c = d
    · subst hcd
      have hrs : r ≠ s := fun e => h (by rw [e])
      have : compareOfLessAndEq (c :: r) (c :: s) = compareOfLessAndEq r s := by
        simp [compareOfLessAndEq]
      rw [this]
      exact (ih (by simpa using hl) hrs).cons c
    · have : compareOfLessAndEq (c :: r) (d :: s) = compareOfLessAndEq c d := by
        simp [compareOfLessAndEq, cons_lt_cons_iff, hcd]
      rw [this]
      exact Parts.of_ne hcd r s

theorem SInt.bounds (n : SInt bits) : -2 ^ (bits - 1) ≤ n.val ∧ n.val < 2 ^ (bits - 1) := ⟨n.lower, n.upper⟩

theorem SInt.widen (n : SInt 32) : -2 ^ (64 - 1) ≤ n.val ∧ n.val < 2 ^ (64 - 1) := by
  have := n.lower
  have := n.upper
  omega

theorem SInt.val_ne {x y : SInt bits} (h : x ≠ y) : x.val ≠ y.val := by
  intro e
  cases x
  cases y
  exact h (by simpa using e)

/-- The encodings of two different values part, in the order read off the values. -/
theorem parts_encoding {x y : Value} (hc : x.comparable y) (h : x ≠ y)
    (ho : encodedOrder x y = some o) : Parts o x.encoding y.encoding := by
  have h64 : (256 : Int) ^ 8 = 2 * 2 ^ (64 - 1) := by norm_num
  have h128 : (256 : Int) ^ 16 = 2 * 2 ^ (128 - 1) := by norm_num
  cases x <;> cases y <;> first | exact Bool.noConfusion hc | skip
  case null.null => exact absurd rfl h
  case text.text x y =>
    exact (parts_encodeBytesNul (fun e => h (by cases x; cases y; simp_all)) ho).cons _
  case bytes.bytes x y => exact (parts_encodeBytesNul (fun e => h (by rw [e])) ho).cons _
  all_goals obtain rfl := some.inj ho
  case bool.bool x y =>
    cases x <;> cases y <;>
      first | exact absurd rfl h | exact Below.cons (Below.cons_of_lt (by decide) _ _) _
  case int.int x y | date.date x y =>
    exact (parts_signFlip h64 x.widen y.widen (SInt.val_ne fun e => h (by rw [e]))).cons _
  case bigInt.bigInt x y | timestamp.timestamp x y =>
    exact (parts_signFlip h64 x.bounds y.bounds (SInt.val_ne fun e => h (by rw [e]))).cons _
  case uuid.uuid x y =>
    refine (parts_of_length_eq (x.property.trans y.property.symm) fun e => h ?_).cons _
    rw [Subtype.ext e]
  case decimal.decimal x s y t =>
    by_cases hst : s = t
    · subst hst
      rw [compareOfLessAndEq_self]
      exact ((parts_signFlip h128 x.bounds y.bounds
        (SInt.val_ne fun e => h (by rw [e]))).cons s).cons _
    have hne : compareOfLessAndEq s t ≠ .eq := by
      rcases lt_or_gt_of_ne hst with hlt | hgt
      · simp [compareOfLessAndEq, hlt]
      · simp [compareOfLessAndEq, hgt.asymm, hst]
    have hthen : (compareOfLessAndEq s t).then (compareOfLessAndEq x.val y.val) =
        compareOfLessAndEq s t := by
      cases hc' : compareOfLessAndEq s t <;> simp_all
    rw [hthen]
    exact (Parts.of_ne hst _ _).cons _
  all_goals exact Below.cons_of_lt (by decide) _ _

/-- Where the encodings part, the rest of the key does not matter. -/
theorem compare_encodings (hc : Forall₂ (fun x y => x.comparable y) a b) :
    (keepsOrder a b → compareOfLessAndEq (encodings a) (encodings b) = cmpTuple a b) ∧
    (compareOfLessAndEq (encodings a) (encodings b) = cmpTuple a b → openOrder a b = false →
      keepsOrder a b) := by
  induction hc with
  | nil => exact ⟨fun _ => rfl, fun _ _ => rfl⟩
  | @cons x y a b hxy hab ih =>
    by_cases h : x = y
    · subst h
      have hcmp : compareOfLessAndEq (encodings (x :: a)) (encodings (x :: b)) =
          compareOfLessAndEq (encodings a) (encodings b) := compare_append_left _ _ _
      rw [hcmp, keepsOrder, openOrder, if_pos rfl, if_pos rfl, cmpTuple, Value.cmp_self]
      exact ih
    rw [keepsOrder, openOrder, if_neg h, if_neg h]
    cases ho : encodedOrder x y with
    | none => simp
    | some o =>
      have hparts := (parts_encoding hxy h ho).compare_append (encodings a) (encodings b)
      change compareOfLessAndEq (encodings (x :: a)) (encodings (y :: b)) = o at hparts
      rw [hparts]
      exact ⟨fun e => by simpa using e, fun e _ => by simpa using e⟩

theorem comparable_isScalar {x y : Value} (h : x.comparable y) : x.isScalar ∧ y.isScalar := by
  cases x <;> cases y <;> first | exact ⟨rfl, rfl⟩ | exact Bool.noConfusion h

theorem isScalar_of_comparable (hc : Forall₂ (fun x y => x.comparable y) a b) :
    (∀ x ∈ a, x.isScalar) ∧ ∀ y ∈ b, y.isScalar := by
  induction hc with
  | nil => simp
  | cons hxy _ ih =>
    obtain ⟨hx, hy⟩ := comparable_isScalar hxy
    exact ⟨forall_mem_cons.mpr ⟨hx, ih.1⟩, forall_mem_cons.mpr ⟨hy, ih.2⟩⟩

/-! ## Accepted keys -/

/-- Accepted keys of comparable lists are in the order of the lists where the
encodings of the first different values are, and only there: unless these are two
strings that differ in a NUL against a last byte `0xFF`. -/
theorem keys_in_value_order {a b : List Value} {bufA bufB : Bytes}
    (hc : List.Forall₂ (fun x y => x.comparable y = true) a b)
    (ha : encodeIndexKey a = .ok bufA) (hb : encodeIndexKey b = .ok bufB) :
    (keepsOrder a b = true → compareOfLessAndEq bufA bufB = cmpTuple a b) ∧
    (compareOfLessAndEq bufA bufB = cmpTuple a b → openOrder a b = false →
      keepsOrder a b = true) := by
  obtain ⟨hsa, hsb⟩ := isScalar_of_comparable hc
  rw [encodeIndexKey_eq hsa ha, encodeIndexKey_eq hsb hb]
  exact compare_encodings hc

/-- `(NULL, 'a')` is below `(FALSE, 'a')`, and so are their keys. -/
theorem keys_in_value_order_null_first :
    compareOfLessAndEq [0x00, 0x08, 97, 0x00] [0x01, 0x00, 0x08, 97, (0x00 : Byte)] =
      cmpTuple [.null, .text ⟨[97], rfl⟩] [.bool false, .text ⟨[97], rfl⟩] :=
  (keys_in_value_order (a := [.null, .text ⟨[97], rfl⟩]) (b := [.bool false, .text ⟨[97], rfl⟩])
    (.cons rfl (.cons rfl .nil)) rfl rfl).1 (by decide)

/-- `'a\0'` is below `'ab'`, and `0.5` below `1`, but their keys are above; the
keys of `1` and `1.0` differ. -/
theorem keys_out_of_value_order : (∃ bufA bufB, encodeIndexKey [.text ⟨[97, 0], rfl⟩] = .ok bufA ∧
      encodeIndexKey [.text ⟨[97, 98], rfl⟩] = .ok bufB ∧
      cmpTuple [.text ⟨[97, 0], rfl⟩] [.text ⟨[97, 98], rfl⟩] = .lt ∧
      compareOfLessAndEq bufA bufB = .gt) ∧
    (∃ bufA bufB, encodeIndexKey [.decimal (.wrap 128 5) 1] = .ok bufA ∧
      encodeIndexKey [.decimal (.wrap 128 1) 0] = .ok bufB ∧
      cmpTuple [.decimal (.wrap 128 5) 1] [.decimal (.wrap 128 1) 0] = .lt ∧
      compareOfLessAndEq bufA bufB = .gt) ∧
    ∃ bufA bufB, encodeIndexKey [.decimal (.wrap 128 1) 0] = .ok bufA ∧
      encodeIndexKey [.decimal (.wrap 128 10) 1] = .ok bufB ∧
      cmpTuple [.decimal (.wrap 128 1) 0] [.decimal (.wrap 128 10) 1] = .eq ∧ bufA ≠ bufB := by
  refine ⟨⟨_, _, rfl, rfl, ?_, ?_⟩, ⟨_, _, rfl, rfl, ?_, ?_⟩, _, _, rfl, rfl, ?_, ?_⟩ <;>
    decide +kernel

end AxiomDb.Sql
