import AxiomDb.Lib.Store

/-!
# Chains of pages on a heap

Pages that hold the number of the next page, up to `null`. `IsChain H p ps`:
from `p` the pages of `H` lead through `ps`, in this order, to the end. A chain
has no repeated page, it is the only one from its first page, and its pages are
the ones that can be reached from there (`reach_iff`).
-/

namespace AxiomDb.Lib

open List Option

variable {P : Type} (next : P → PageId) (null : PageId)

/-- From `p` the pages of `H` lead through `ps` to the end. -/
def IsChain (H : Heap P) : PageId → List PageId → Prop
  | p, [] => p = null
  | p, q :: ps => p = q ∧ q ≠ null ∧ ∃ v, H q = some v ∧ IsChain H (next v) ps

/-- The page `q` comes right after `p`. -/
def NextPage (H : Heap P) (p q : PageId) : Prop := ∃ v, H p = some v ∧ next v = q ∧ q ≠ null

/-- The page `q` can be reached from `p`. -/
def Reach (H : Heap P) : PageId → PageId → Prop := Relation.ReflTransGen (NextPage next null H)

variable {next null} {H H' : Heap P} {p q r : PageId} {ps qs : List PageId}

namespace IsChain

theorem unique (h : IsChain next null H p ps) (h' : IsChain next null H p qs) : ps = qs := by
  induction ps generalizing p qs with
  | nil =>
    cases qs with
    | nil => rfl
    | cons q qs => exact absurd (h'.1.symm.trans h) h'.2.1
  | cons a ps ih =>
    obtain ⟨rfl, hn, v, hv, hs⟩ := h
    cases qs with
    | nil => exact absurd h' hn
    | cons q qs =>
      obtain ⟨rfl, -, w, hw, hs'⟩ := h'
      obtain rfl := some.inj (hv.symm.trans hw)
      rw [ih hs hs']

/-- The part of a chain from one of its pages on. -/
theorem suffix (h : IsChain next null H p (ps ++ qs)) : ∃ q, IsChain next null H q qs := by
  induction ps generalizing p with
  | nil => exact ⟨p, h⟩
  | cons a ps ih =>
    obtain ⟨-, -, v, -, hs⟩ := h
    exact ih hs

section

variable (h : IsChain next null H p ps)
include h

theorem nodup : ps.Nodup := by
  induction ps generalizing p with
  | nil => exact .nil
  | cons a ps ih =>
    have hs := h.2.2
    obtain ⟨v, -, hs⟩ := hs
    refine nodup_cons.mpr ⟨fun hmem => ?_, ih hs⟩
    -- the chain from the second visit on would be a proper part of itself
    obtain ⟨b, c, rfl⟩ := append_of_mem hmem
    obtain ⟨q, hq⟩ := hs.suffix
    obtain rfl : q = p := hq.1.trans h.1.symm
    have := congrArg length (hq.unique h)
    simp only [length_cons, length_append] at this
    omega

theorem get (hq : q ∈ ps) : q ≠ null ∧ ∃ v, H q = some v := by
  induction ps generalizing p with
  | nil => simp at hq
  | cons a ps ih =>
    obtain ⟨-, hn, v, hv, hs⟩ := h
    rcases mem_cons.mp hq with rfl | hq
    · exact ⟨hn, v, hv⟩
    · exact ih hs hq

/-- The links of the chain's pages stay as they are. -/
theorem congr (hH : ∀ q ∈ ps, ∀ v, H q = some v → ∃ w, H' q = some w ∧ next w = next v) :
    IsChain next null H' p ps := by
  induction ps generalizing p with
  | nil => exact h
  | cons a ps ih =>
    obtain ⟨rfl, hn, v, hv, hs⟩ := h
    obtain ⟨w, hw, e⟩ := hH p mem_cons_self v hv
    exact ⟨rfl, hn, w, hw, e ▸ ih hs fun q hq => hH q (mem_cons_of_mem _ hq)⟩

/-- The last page of a chain that starts at a page. -/
theorem exists_last (hp : p ≠ null) : ∃ qs q, ps = qs ++ [q] := by
  rcases eq_nil_or_concat' ps with rfl | ⟨qs, q, rfl⟩
  · exact absurd h hp
  · exact ⟨qs, q, rfl⟩

end

section

variable (h : IsChain next null H p (ps ++ [q]))
include h

theorem last_next : ∃ v, H q = some v ∧ next v = null := by
  induction ps generalizing p with
  | nil =>
    obtain ⟨-, -, v, hv, hs⟩ := h
    exact ⟨v, hv, hs⟩
  | cons a ps ih =>
    obtain ⟨-, -, v, -, hs⟩ := h
    exact ih hs

/-- A page whose link is `null` is the last one. -/
theorem eq_last (hr : r ∈ ps ++ [q]) {v : P} (hv : H r = some v) (hn : next v = null) : r = q := by
  induction ps generalizing p with
  | nil => simpa using hr
  | cons a ps ih =>
    obtain ⟨-, -, w, hw, hs⟩ := h
    rcases mem_cons.mp hr with rfl | hr
    · obtain rfl := some.inj (hv.symm.trans hw)
      cases ps with
      | nil | cons b ps => exact absurd (hs.1.symm.trans hn) hs.2.1
    · exact ih hs hr

/-- A page is linked to the last one. -/
theorem link (hr : r ≠ null) {v w : P}
    (hq : H' q = some v) (hv : next v = r) (hw : H' r = some w) (hn : next w = null)
    (hH : ∀ a ∈ ps, ∀ v, H a = some v → ∃ w, H' a = some w ∧ next w = next v) :
    IsChain next null H' p (ps ++ [q, r]) := by
  induction ps generalizing p with
  | nil => exact ⟨h.1, h.2.1, v, hq, hv, hr, w, hw, hn⟩
  | cons a ps ih =>
    obtain ⟨rfl, ha, u, hu, hs⟩ := h
    obtain ⟨u', hu', e⟩ := hH p mem_cons_self u hu
    exact ⟨rfl, ha, u', hu', e ▸ ih hs fun b hb => hH b (mem_cons_of_mem _ hb)⟩

end

/-- The pages of a chain are those that can be reached from its start. -/
theorem reach_iff (h : IsChain next null H p ps) (hp : p ≠ null) : Reach next null H p q ↔ q ∈ ps := by
  constructor
  · intro hr
    induction hr with
    | refl =>
      cases ps with
      | nil => exact absurd h hp
      | cons a ps => exact h.1 ▸ mem_cons_self
    | tail _ hn ih =>
      obtain ⟨v, hv, rfl, hne⟩ := hn
      obtain ⟨b, c, rfl⟩ := append_of_mem ih
      obtain ⟨a, ha⟩ := h.suffix
      obtain ⟨-, -, w, hw, hs⟩ := ha
      obtain rfl := some.inj (hv.symm.trans hw)
      cases c with
      | nil => exact absurd hs hne
      | cons d c => rw [hs.1]; simp
  · intro hq
    clear hp
    induction ps generalizing p with
    | nil => simp at hq
    | cons a ps ih =>
      obtain ⟨rfl, -, v, hv, hs⟩ := h
      rcases mem_cons.mp hq with rfl | hq
      · exact .refl
      have hne : next v ≠ null := by
        cases ps with
        | nil => simp at hq
        | cons b ps => rw [hs.1]; exact hs.2.1
      exact .head ⟨v, hv, rfl, hne⟩ (ih hs hq)

end IsChain

end AxiomDb.Lib
