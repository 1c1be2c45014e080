import AxiomDb.Sql.KeyOrder

/-!
# Index keys read back

What `encode_index_key` wrote, `decode_index_key` reads back, whatever follows:
unless a string ends in `0xFF`. That byte is not escaped, so with the terminator
it reads as an escaped NUL, and the string goes on into what follows. Text never
ends so, bytes may.
-/

namespace AxiomDb.Sql

open Lib List

/-! ## Strings -/

theorem decodeBytesNul_escape (src : Bytes) : decodeBytesNul (0xFF :: 0x00 :: src) =
      (decodeBytesNul src).map fun r => (0x00 :: r.1, r.2 + 2) := by
  rw [decodeBytesNul]
  cases decodeBytesNul src <;> rfl

theorem decodeBytesNul_end (src : Bytes) : decodeBytesNul (0x00 :: src) = .ok ([], 1) := by
  rw [decodeBytesNul.eq_def]
  rfl

theorem decodeBytesNul_plain {b : Byte} {src : Bytes} (hb : b ≠ 0)
    (h : b = 0xFF → ∀ r, src ≠ 0x00 :: r) :
    decodeBytesNul (b :: src) = (decodeBytesNul src).map fun r => (b :: r.1, r.2 + 1) := by
  rw [decodeBytesNul.eq_3 _ _ (by intro r h1 h2; exact h h1 r h2), if_neg hb]
  cases decodeBytesNul src <;> rfl

variable {b r : Bytes} {bits : Nat} {v : Value} {vs : List Value}

/-- Behind a byte that is not a last `0xFF` the rest is read on its own. -/
theorem decode_encodeBytesNul_cons {c : Byte} (h : c = 0xFF → r ≠ []) (s : Bytes) :
    ∃ k, (encodeBytesNul (c :: r)).length = (encodeBytesNul r).length + k ∧
      decodeBytesNul (encodeBytesNul (c :: r) ++ s) =
        (decodeBytesNul (encodeBytesNul r ++ s)).map fun y => (c :: y.1, y.2 + k) := by
  rw [encodeBytesNul]
  split
  next hc =>
    rw [cons_append, cons_append, decodeBytesNul_escape, hc]
    exact ⟨2, rfl, rfl⟩
  next hc =>
    rw [cons_append, decodeBytesNul_plain hc]
    · exact ⟨1, rfl, rfl⟩
    intro hff q hq
    obtain ⟨c', r', he, hne⟩ := exists_encodeBytesNul r
    rw [he, cons_append] at hq
    exact hne (h hff) (cons.inj hq).1

/-- A string that does not end in `0xFF` is read back. -/
theorem decode_encodeBytesNul (h : b.getLast? ≠ some 0xFF) (s : Bytes) :
    decodeBytesNul (encodeBytesNul b ++ s) = .ok (b, (encodeBytesNul b).length) := by
  induction b with
  | nil => exact decodeBytesNul_end s
  | cons c r ih =>
    obtain ⟨k, hlen, hdec⟩ := decode_encodeBytesNul_cons (c := c) (r := r) (by rintro rfl rfl; simp at h) s
    rw [hdec, hlen, ih fun hr => h (by rw [getLast?_cons, hr]; rfl)]
    rfl

theorem map_cons_ne {x : Except KeyError (Bytes × Nat)} (h : ∀ n, x ≠ .ok (r, n))
    (c d : Byte) (k n : Nat) : x.map (fun y => (c :: y.1, y.2 + k)) ≠ .ok (d :: r, n) := by
  cases x with
  | error e => exact fun h => by cases h
  | ok y =>
    intro he
    have hr := congrArg (fun z => z.1.tail) (Except.ok.inj he)
    exact h y.2 (congrArg Except.ok (Prod.ext hr rfl))

/-- One that ends in `0xFF` never is. -/
theorem decode_encodeBytesNul_ne (h : b.getLast? = some 0xFF) (s : Bytes) (n : Nat) :
    decodeBytesNul (encodeBytesNul b ++ s) ≠ .ok (b, n) := by
  induction b generalizing n with
  | nil => simp at h
  | cons c r ih =>
    by_cases hnil : r = []
    · subst hnil
      obtain rfl : c = 0xFF := by simpa using h
      change decodeBytesNul (0xFF :: 0x00 :: s) ≠ _
      rw [decodeBytesNul_escape]
      cases decodeBytesNul s with
      | error e => exact fun h => by cases h
      | ok y =>
        intro he
        have hhead := congrArg (fun z => z.1.head?) (Except.ok.inj he)
        simp at hhead
    have hr : r.getLast? = some 0xFF := by
      cases r with
      | nil => exact absurd rfl hnil
      | cons d r => simpa using h
    obtain ⟨k, -, hdec⟩ := decode_encodeBytesNul_cons (fun _ => hnil) s
    rw [hdec]
    exact map_cons_ne (fun m => ih hr m) _ _ _ _

theorem isUtf8_ne (h : isUtf8 b) : ∀ c ∈ b, c ≠ 0xFF := by
  have hcont {c : Byte} (hc : isCont c) : c ≠ 0xFF := by
    rintro rfl
    exact absurd hc (by decide)
  have hlt {c : Byte} {m : Nat} (hc : c.val ≤ m) (hm : m < 255) : c ≠ 0xFF := by
    rintro rfl
    exact absurd (hc.trans_lt hm) (by decide)
  fun_induction isUtf8 b <;> simp_all
  all_goals exact hlt (m := 244) (by omega) (by decide)

/-! ## Numbers -/

theorem signUnflip_signFlip {k : Nat} (hk : (256 : Int) ^ k = 2 * 2 ^ (bits - 1)) {n : Int}
    (hn : -2 ^ (bits - 1) ≤ n ∧ n < 2 ^ (bits - 1)) :
    signUnflip bits (ofBeBytes (beBytes k (signFlip bits n))) = n := by
  have hcast : ((256 ^ k : Nat) : Int) = 256 ^ k := by push_cast; rfl
  have hlt : signFlip bits n < 256 ^ k := by
    simp only [signFlip]
    omega
  rw [ofBeBytes_beBytes hlt, signUnflip, signFlip]
  omega

theorem SInt.wrap_val (hb : 0 < bits) (n : SInt bits) : SInt.wrap bits n.val = n := by
  obtain ⟨n, hl, hu⟩ := n
  have hpow : (2 : Int) ^ bits = 2 * 2 ^ (bits - 1) := by
    rw [← pow_succ', Nat.sub_add_cancel hb]
  simp only [SInt.wrap, SInt.mk.injEq]
  rw [Int.emod_eq_of_lt (by omega) (by omega)]
  omega

/-! ## Values -/

namespace Value

/-- Not bytes that end in `0xFF`. -/
def delimited : Value → Bool
  | bytes b => b.getLast? != some 0xFF
  | _ => true

end Value

theorem payload_append {n : Nat} (h : b.length = n) (s : Bytes) : payload n (b ++ s) = .ok b := by
  subst h
  simp [payload]

theorem decode_encoding (hs : v.isScalar) (hd : v.delimited) (p s : Bytes) :
    decodeValue (p ++ (v.encoding ++ s)) p.length = .ok (v, p.length + v.encoding.length) := by
  have hdrop : (p ++ (v.encoding ++ s)).drop p.length = v.encoding ++ s := drop_left
  rw [decodeValue, hdrop]
  have h64 : (256 : Int) ^ 8 = 2 * 2 ^ (64 - 1) := by norm_num
  have h128 : (256 : Int) ^ 16 = 2 * 2 ^ (128 - 1) := by norm_num
  clear hdrop
  cases v <;> first | exact Bool.noConfusion hs | skip
  case null => rfl
  case bool b => cases b <;> rfl
  case int n | date n =>
    simp [Value.encoding, encodeValue, payload_append, signUnflip_signFlip h64 n.widen,
      SInt.wrap_val, bind, Except.bind]
  case bigInt n | timestamp n =>
    simp [Value.encoding, encodeValue, payload_append, signUnflip_signFlip h64 n.bounds,
      SInt.wrap_val, bind, Except.bind]
  case decimal n scale =>
    have hlen : (scale :: beBytes 16 (signFlip 128 n.val)).length = 17 := by simp
    have hpay := payload_append hlen s
    rw [cons_append] at hpay
    simp [Value.encoding, encodeValue, hpay, signUnflip_signFlip h128 n.bounds,
      SInt.wrap_val, bind, Except.bind]
  case text t =>
    have hlast : t.bytes.getLast? ≠ some 0xFF := fun h =>
      isUtf8_ne t.valid _ (mem_of_getLast? h) rfl
    simp [Value.encoding, encodeValue, decode_encodeBytesNul hlast, decodeText, t.valid, bind,
      Except.bind]
    omega
  case bytes b =>
    simp [Value.encoding, encodeValue, decode_encodeBytesNul (by simpa [Value.delimited] using hd),
      bind, Except.bind]
    omega
  case uuid u => simp [Value.encoding, encodeValue, u.property]

theorem decode_encoding_ne (hd : v.delimited = false) (p s : Bytes) (n : Nat) :
    decodeValue (p ++ (v.encoding ++ s)) p.length ≠ .ok (v, n) := by
  have hdrop : (p ++ (v.encoding ++ s)).drop p.length = v.encoding ++ s := drop_left
  rw [decodeValue, hdrop]
  cases v <;> first | exact Bool.noConfusion hd | skip
  case bytes b =>
    have hne := decode_encodeBytesNul_ne (b := b) (by simpa [Value.delimited] using hd) s
    simp [Value.encoding, encodeValue, bind, Except.bind]
    cases hx : decodeBytesNul (encodeBytesNul b ++ s) with
    | error e => simp
    | ok y =>
      simp
      intro h1 h2
      exact hne y.2 (by rw [hx, ← h1])

theorem encoding_length_pos (hs : v.isScalar) : 0 < v.encoding.length := by
  cases v <;> first | exact Nat.succ_pos _ | exact Bool.noConfusion hs

/-! ## Lists of values -/

theorem decodeValues_encodings (hs : ∀ v ∈ vs, v.isScalar) (m : Nat)
    (p s : Bytes) : decodeValues (p ++ (encodings vs ++ s)) m vs.length p.length =
      .ok (vs, p.length + (encodings vs).length) ↔ ∀ v ∈ vs, v.delimited := by
  induction vs generalizing p with
  | nil => simp [decodeValues, encodings]
  | cons v vs ih =>
    have hv := hs v mem_cons_self
    have hkey : p ++ (encodings (v :: vs) ++ s) = p ++ (v.encoding ++ (encodings vs ++ s)) := by
      simp [encodings]
    have hlen : p.length < (p ++ (encodings (v :: vs) ++ s)).length := by
      have hpos := encoding_length_pos hv
      rw [hkey]
      simp only [length_append]
      omega
    rw [length_cons, decodeValues, if_neg (by omega), hkey, forall_mem_cons]
    cases hd : v.delimited with
    | false =>
      refine ⟨fun h => ?_, fun h => Bool.noConfusion h.1⟩
      have hne := decode_encoding_ne hd p (encodings vs ++ s)
      rcases hx : decodeValue (p ++ (v.encoding ++ (encodings vs ++ s))) p.length with _ | y
      · simp [hx, bind, Except.bind] at h
      simp only [hx, bind, Except.bind] at h
      split at h
      · cases h
      · have hhead := congrArg (fun z => z.1.head?) (Except.ok.inj h)
        exact absurd (by rw [hx, ← Option.some.inj hhead]) (hne y.2)
    | true =>
      have hrest := ih (fun w hw => hs w (mem_cons_of_mem _ hw)) (p ++ v.encoding)
      rw [append_assoc, length_append] at hrest
      have hsize : (encodings (v :: vs)).length = v.encoding.length + (encodings vs).length := by
        simp [encodings]
      rw [decode_encoding hv hd, ← hrest, hsize]
      simp only [bind, Except.bind, true_and]
      cases decodeValues (p ++ (v.encoding ++ (encodings vs ++ s))) m vs.length
          (p.length + v.encoding.length) with
      | error e => simp
      | ok y => simp [Prod.ext_iff, add_assoc]

/-! ## Keys -/

theorem decodeIndexKey_iff {buf : Bytes} (hs : ∀ v ∈ vs, v.isScalar)
    (he : encodeIndexKey vs = .ok buf) (s : Bytes) :
    decodeIndexKey (buf ++ s) vs.length = .ok (vs, buf.length) ↔ ∀ v ∈ vs, v.delimited := by
  rw [encodeIndexKey_eq hs he]
  simpa [decodeIndexKey] using decodeValues_encodings hs vs.length [] s

/-- An accepted key is read back, whatever follows it, exactly if no bytes of it end
in `0xFF`; so of lists without such bytes, none is a prefix of another or collides. -/
theorem key_decodes_iff {vs : List Value} {buf : Bytes} (hs : ∀ v ∈ vs, v.isScalar = true)
    (he : encodeIndexKey vs = .ok buf) :
    (∀ s, decodeIndexKey (buf ++ s) vs.length = .ok (vs, buf.length) ↔
      ∀ v ∈ vs, v.delimited = true) ∧
    ∀ ws buf', ws.length = vs.length → (∀ w ∈ ws, w.isScalar = true) →
      encodeIndexKey ws = .ok buf' → (∀ v ∈ vs ++ ws, v.delimited = true) → buf <+: buf' →
      ws = vs := by
  refine ⟨decodeIndexKey_iff hs he, fun ws buf' hlen hs' he' hd hpre => ?_⟩
  obtain ⟨s, rfl⟩ := hpre
  have hv := (decodeIndexKey_iff hs he s).mpr fun v hv => hd v (mem_append_left _ hv)
  have hw := (decodeIndexKey_iff hs' he' []).mpr fun w hw => hd w (mem_append_right _ hw)
  rw [append_nil, hlen, hv] at hw
  exact (congrArg Prod.fst (Except.ok.inj hw)).symm

/-- The key of `(x'FF00', NULL)` is read back. -/
theorem key_decodes_iff_bytes : decodeIndexKey ([0x09, 0xFF, 0xFF, 0x00, 0x00, 0x00] ++ [7]) 2 =
      .ok ([.bytes [0xFF, 0x00], .null], 6) :=
  ((@key_decodes_iff [.bytes [0xFF, 0x00], .null] _ (by decide) rfl).1 [7]).mpr (by decide)

/-- The key of `x'FF'` is not read back, and is the beginning of the key of `x'00'`;
followed by a number, it is the key of other bytes followed by NULL. -/
theorem key_collides : (∃ buf, encodeIndexKey [.bytes [0xFF]] = .ok buf ∧
      decodeIndexKey buf 1 ≠ .ok ([.bytes [0xFF]], buf.length) ∧
      ∃ buf', encodeIndexKey [.bytes [0x00]] = .ok buf' ∧ buf <+: buf' ∧ buf ≠ buf') ∧
    encodeIndexKey [.bytes [0xFF], .bigInt (.wrap 64 (0x0101010101010000 - 2 ^ 63))] =
      encodeIndexKey [.bytes [0x00, 0x03, 1, 1, 1, 1, 1, 1], .null] := by
  refine ⟨⟨_, rfl, ?_, _, rfl, ?_, ?_⟩, ?_⟩ <;> decide +kernel

end AxiomDb.Sql
