import Mathlib.Data.List.Basic
import Mathlib.Data.List.TakeWhile

/-!
# Scanners

A scanner takes a piece off the start of a text. Regular expressions without alternatives that
start alike are scanners: one character of a class, a run of a class, one after the other. What
such a scanner leaves is an end of the text (`Keeps`), and a shorter one if it cannot take nothing
(`Shrinks`).
-/

namespace AxiomDb.Lib

open List Option

variable {α : Type}

/-- What is taken off, and the rest. -/
abbrev Scanner (α : Type) := List α → Option (List α × List α)

namespace Scanner

def one (p : α → Bool) : Scanner α
  | [] => none
  | a :: s => if p a then some ([a], s) else none

def many (p : α → Bool) : Scanner α := fun s => some (s.takeWhile p, s.dropWhile p)

def seq (p q : Scanner α) : Scanner α := fun s =>
  (p s).bind fun a => (q a.2).map fun b => (a.1 ++ b.1, b.2)

def many1 (p : α → Bool) : Scanner α := seq (one p) (many p)

/-- The first, or the second if the first takes nothing. -/
def alt (p q : Scanner α) : Scanner α := fun s => (p s).or (q s)

def opt (p : Scanner α) : Scanner α := alt p fun s => some ([], s)

def text [DecidableEq α] (w : List α) : Scanner α := fun s =>
  if w.isPrefixOf s then some (w, s.drop w.length) else none

variable {p q : Scanner α} {c : α → Bool} {w : List α} {ι : Type} {ps : List ι} {f : ι → Scanner α}

/-! ## What is left -/

/-- The rest is an end of the text. -/
def Keeps (p : Scanner α) : Prop := ∀ s q, p s = some q → q.2 <:+ s

/-- The scanner takes something off. -/
def Shrinks (p : Scanner α) : Prop := ∀ s q, p s = some q → q.2 <:+ s ∧ q.2.length < s.length

theorem Shrinks.keeps (h : Shrinks p) : Keeps p := fun s q hq => (h s q hq).1

theorem shrinks_one : Shrinks (one c) := by
  intro s q hq
  cases s with
  | nil => cases hq
  | cons a s =>
    rw [one] at hq
    split at hq <;> cases hq
    exact ⟨suffix_cons a s, Nat.lt_succ_self _⟩

theorem keeps_many : Keeps (many c) := by
  intro s q hq
  cases hq
  exact dropWhile_suffix c

theorem Keeps.opt (hp : Keeps p) : Keeps (opt p) := by
  intro s a ha
  rw [Scanner.opt, Scanner.alt, or_eq_some_iff] at ha
  obtain ha | ⟨-, ha⟩ := ha
  · exact hp s a ha
  · cases ha
    exact suffix_refl s

theorem seq_eq_some {s : List α} {a : List α × List α} (h : seq p q s = some a) :
    ∃ b c, p s = some b ∧ q b.2 = some c ∧ c.2 = a.2 := by
  rw [Scanner.seq, bind_eq_some_iff] at h
  obtain ⟨b, hb, h⟩ := h
  obtain ⟨c, hc, rfl⟩ := map_eq_some_iff.1 h
  exact ⟨b, c, hb, hc, rfl⟩

theorem Keeps.seq (hp : Keeps p) (hq : Keeps q) : Keeps (seq p q) := by
  intro s a ha
  obtain ⟨b, d, hb, hd, had⟩ := seq_eq_some ha
  exact had ▸ (hq b.2 d hd).trans (hp s b hb)

theorem Shrinks.seq (hp : Shrinks p) (hq : Keeps q) : Shrinks (seq p q) := by
  intro s a ha
  obtain ⟨b, d, hb, hd, had⟩ := seq_eq_some ha
  have hkeep := hq b.2 d hd
  obtain ⟨hsuf, hlt⟩ := hp s b hb
  exact had ▸ ⟨hkeep.trans hsuf, hkeep.length_le.trans_lt hlt⟩

theorem Keeps.seq_shrinks (hp : Keeps p) (hq : Shrinks q) : Shrinks (Scanner.seq p q) := by
  intro s a ha
  obtain ⟨b, d, hb, hd, had⟩ := seq_eq_some ha
  have hkeep := hp s b hb
  obtain ⟨hsuf, hlt⟩ := hq b.2 d hd
  exact had ▸ ⟨hsuf.trans hkeep, hlt.trans_le hkeep.length_le⟩

theorem shrinks_many1 : Shrinks (many1 c) := Shrinks.seq shrinks_one keeps_many

theorem Shrinks.alt (hp : Shrinks p) (hq : Shrinks q) : Shrinks (alt p q) := by
  intro s a ha
  rw [Scanner.alt, or_eq_some_iff] at ha
  obtain ha | ⟨-, ha⟩ := ha
  · exact hp s a ha
  · exact hq s a ha

theorem shrinks_text [DecidableEq α] (hw : w ≠ []) : Shrinks (text w) := by
  intro s q hq
  rw [text] at hq
  split at hq <;> cases hq
  rename_i hpre
  have hlen := ( isPrefixOf_iff_prefix.1 hpre).length_le
  have hpos := length_pos_iff.2 hw
  refine ⟨drop_suffix _ s, ?_⟩
  rw [length_drop]
  omega

theorem shrinks_findSome (h : ∀ t ∈ ps, Shrinks (f t)) :
    Shrinks fun s => ps.findSome? fun t => f t s := by
  intro s q hq
  obtain ⟨t, ht, hq⟩ := exists_of_findSome?_eq_some hq
  exact h t ht s q hq

end Scanner

end AxiomDb.Lib
