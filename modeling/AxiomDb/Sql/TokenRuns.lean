import AxiomDb.Sql.Tokens

/-!
# Runs of the lexer

Every step of the lexer takes something off the text and leaves the rest, `lexOne_suffix`; `Steps`
is what it has taken off after some steps, and `lexFrom_iff` says that the tokens of a text are
those of the steps to its end.
-/

namespace AxiomDb.Prepared

open Lib Sql Row List
open Scanner

/-! ## Quotes and comments -/

variable {first inner second : Byte → Bool} {u s : Bytes} {a : Bytes × Bytes} {rs : List Rule}

theorem quotedBody_suffix {q : Byte} (h : quotedBody q u = some a) : a.2 <:+ u := by
  induction u using quotedBody.induct q generalizing a with
  | case1 => cases h
  | case2 =>
    rw [quotedBody, if_pos rfl] at h
    cases h
    exact nil_suffix
  | case3 b hb =>
    rw [quotedBody, if_neg hb] at h
    cases h
  | case4 s ih =>
    rw [quotedBody, if_pos rfl, if_pos rfl] at h
    cases hs : quotedBody q s with
    | none =>
      rw [hs] at h
      cases h
      exact suffix_cons q _
    | some x =>
      rw [hs] at h
      cases h
      exact (ih hs).trans (suffix_append [q, q] s)
  | case5 c s hc =>
    rw [quotedBody, if_pos rfl, if_neg hc] at h
    cases h
    exact suffix_cons q _
  | case6 s hb =>
    rw [quotedBody, if_neg hb, if_pos rfl, if_pos rfl] at h
    cases h
  | case7 c s hb hc ih =>
    rw [quotedBody, if_neg hb, if_pos rfl, if_neg hc, Option.map_eq_some_iff] at h
    obtain ⟨x, hx, rfl⟩ := h
    exact (ih hx).trans (suffix_append [92, c] s)
  | case8 b c s hb hb' ih =>
    rw [quotedBody, if_neg hb, if_neg hb', Option.map_eq_some_iff] at h
    obtain ⟨x, hx, rfl⟩ := h
    exact (ih hx).trans (suffix_cons b _)

theorem backtickBody_suffix (h : backtickBody u = some a) : a.2 <:+ u := by
  induction u generalizing a with
  | nil => cases h
  | cons b u ih =>
    rw [backtickBody] at h
    by_cases hb : b = 96
    · rw [if_pos hb] at h
      cases h
      exact suffix_cons b u
    rw [if_neg hb, Option.map_eq_some_iff] at h
    obtain ⟨x, hx, rfl⟩ := h
    exact (ih hx).trans (suffix_cons b u)

theorem commentBody_suffix (h : commentBody u = some a) : a.2 <:+ u := by
  induction u using commentBody.induct generalizing a with
  | case1 => cases h
  | case2 => cases h
  | case3 s =>
    cases h
    exact suffix_append [42, 47] s
  | case4 c s hc ih =>
    rw [commentBody, if_pos rfl, if_neg hc, Option.map_eq_some_iff] at h
    obtain ⟨x, hx, rfl⟩ := h
    exact (ih hx).trans (suffix_append [42, c] s)
  | case5 b c s hb ih =>
    rw [commentBody, if_neg hb, Option.map_eq_some_iff] at h
    obtain ⟨x, hx, rfl⟩ := h
    exact (ih hx).trans (suffix_cons b _)

/-! ## The rules -/

theorem shrinks_exponent : Shrinks exponent :=
  Shrinks.seq shrinks_one (Keeps.seq (Keeps.opt shrinks_one.keeps) shrinks_many1.keeps)

theorem shrinks_floatScan : Shrinks floatScan := by
  refine Shrinks.alt (Keeps.seq_shrinks keeps_many (Shrinks.seq shrinks_one ?_)) ?_
  · exact Keeps.seq shrinks_many1.keeps (Keeps.opt shrinks_exponent.keeps)
  · exact Shrinks.seq shrinks_many1 shrinks_exponent.keeps

theorem shrinks_quotedRun : Shrinks (quotedRun first inner) :=
  Shrinks.seq shrinks_one (Keeps.seq shrinks_one.keeps (Keeps.seq keeps_many shrinks_one.keeps))

theorem shrinks_zeroRun : Shrinks (zeroRun second inner) :=
  Shrinks.seq shrinks_one (Keeps.seq shrinks_one.keeps shrinks_many1.keeps)

theorem symbols_ne_nil : (symbols.all fun w => !w.isEmpty) := by decide

theorem shrinks_rules : ∀ rule ∈ rules, Shrinks rule.scan := by
  have hsymbols : Shrinks fun s => symbols.findSome? fun w => text w s := by
    refine shrinks_findSome fun w hw => shrinks_text ?_
    simpa using all_eq_true.1 symbols_ne_nil w hw
  simp only [rules, forall_mem_cons]
  exact ⟨shrinks_zeroRun, shrinks_zeroRun, shrinks_floatScan, shrinks_many1, shrinks_quotedRun,
    shrinks_quotedRun, Shrinks.seq shrinks_one keeps_many, hsymbols, by simp⟩

theorem applyRules_suffix (hrs : ∀ rule ∈ rs, Shrinks rule.scan) {q : Token × Bytes}
    (h : applyRules rs s = some q) : q.2 <:+ s ∧ q.2.length < s.length := by
  induction rs with
  | nil => cases h
  | cons rule rs ih =>
    rw [applyRules] at h
    split at h
    next x hx =>
      obtain ⟨t, -, rfl⟩ := Option.map_eq_some_iff.1 h
      exact hrs rule mem_cons_self s x hx
    · exact ih (fun rule' h => hrs rule' (mem_cons_of_mem rule h)) h

/-! ## One step -/

section

variable {ansiQuotes : Bool} {t : Option Token} {rest : Bytes}

theorem lexOne_suffix (h : lexOne ansiQuotes s = some (t, rest)) :
    rest <:+ s ∧ rest.length < s.length := by
  obtain _ | ⟨b, s⟩ := s
  · cases h
  -- every rule but the last ones takes off the first byte and what stands behind it
  have hbehind : rest <:+ s → rest <:+ b :: s ∧ rest.length < (b :: s).length := fun hr =>
    ⟨hr.trans (suffix_cons b s), Nat.lt_succ_of_le hr.length_le⟩
  rw [lexOne] at h
  split_ifs at h with hspace h39 h34 h96 hline hblock
  · cases h
    exact hbehind (suffix_refl _)
  iterate 2
    · obtain ⟨x, hx, h⟩ := Option.bind_eq_some_iff.1 h
      obtain ⟨y, -, hy⟩ := Option.map_eq_some_iff.1 h
      cases hy
      exact hbehind (quotedBody_suffix hx)
  · obtain ⟨x, hx, hy⟩ := Option.map_eq_some_iff.1 h
    cases hy
    exact hbehind (backtickBody_suffix hx)
  · cases h
    have hb : (b != 10) := by
      rw [isPrefixOf_cons_cons, Bool.and_eq_true, beq_iff_eq] at hline
      rw [← hline.1]
      rfl
    refine hbehind ?_
    rw [dropWhile_cons, if_pos hb]
    exact dropWhile_suffix _
  · split at h
    next x hx =>
      cases h
      exact hbehind ((commentBody_suffix hx).trans (drop_suffix 1 _))
    · cases h
      exact hbehind (suffix_refl _)
  · obtain ⟨x, hx, hy⟩ := Option.map_eq_some_iff.1 h
    cases hy
    exact applyRules_suffix shrinks_rules hx

end

/-! ## Whole texts -/

section Steps

variable {ansiQuotes : Bool}

/-- The lexer takes the tokens off a text and leaves the rest. -/
inductive Steps (ansiQuotes : Bool) : Bytes → List Token → Bytes → Prop
  | refl (s : Bytes) : Steps ansiQuotes s [] s
  | step {s rest r : Bytes} {t : Option Token} {ts : List Token}
    (h : lexOne ansiQuotes s = some (t, rest)) (hrest : Steps ansiQuotes rest ts r) :
    Steps ansiQuotes s (t.toList ++ ts) r

variable {r s : Bytes} {ts : List Token} {n : Nat}

theorem Steps.single {t : Token} (h : lexOne ansiQuotes s = some (some t, r)) :
    Steps ansiQuotes s [t] r := .step h (.refl r)

theorem Steps.trans {r' : Bytes} {ts' : List Token} (h : Steps ansiQuotes s ts r)
    (h' : Steps ansiQuotes r ts' r') : Steps ansiQuotes s (ts ++ ts') r' := by
  induction h with
  | refl s => exact h'
  | step h _ ih =>
    rw [append_assoc]
    exact .step h (ih h')

/-- The tokens of the whole text start with those that are taken off first. -/
theorem Steps.tail {us : List Token} (h : Steps ansiQuotes s ts r)
    (hs : Steps ansiQuotes s us []) : ∃ us', us = ts ++ us' ∧ Steps ansiQuotes r us' [] := by
  induction h generalizing us with
  | refl s => exact ⟨us, rfl, hs⟩
  | step h _ ih =>
    cases hs with
    | refl => cases h
    | step h' hrest =>
      rw [h] at h'
      cases h'
      obtain ⟨us', rfl, hus⟩ := ih hrest
      exact ⟨us', (append_assoc ..).symm, hus⟩

theorem lexFrom_iff (hn : s.length ≤ n) :
    lexFrom ansiQuotes n s = some ts ↔ Steps ansiQuotes s ts [] := by
  constructor
  · intro h
    clear hn
    induction n generalizing s ts with
    | zero =>
      cases s with
      | nil =>
        cases h
        exact .refl []
      | cons b s => cases h
    | succ n ih =>
      cases s with
      | nil =>
        cases h
        exact .refl []
      | cons b s =>
        rw [lexFrom, Option.bind_eq_some_iff] at h
        obtain ⟨⟨t, rest⟩, hone, h⟩ := h
        obtain ⟨us, hus, rfl⟩ := Option.map_eq_some_iff.1 h
        exact .step hone (ih hus)
  · intro h
    generalize hr : ([] : Bytes) = r at h
    induction h generalizing n with
    | refl s =>
      subst hr
      rw [lexFrom]
    | @step s rest r t ts h _ ih =>
      have hlt := (lexOne_suffix h).2
      obtain _ | ⟨b, s⟩ := s
      · cases h
      rw [length_cons] at hn hlt
      cases n with
      | zero => cases hn
      | succ n =>
        rw [lexFrom, h, Option.bind_some, ih (by omega) hr]
        rfl

end Steps

end AxiomDb.Prepared
