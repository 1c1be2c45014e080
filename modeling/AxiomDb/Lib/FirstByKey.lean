import Mathlib.Data.Finset.Card

/-!
# The first element of each key

Going through a list and keeping an element if its key is new: what is kept has each key
of the list once. The same pass can number the keys as they appear, so that two elements
have one number just if they have one key.
-/

namespace AxiomDb.Lib

open List

variable {α κ : Type} [DecidableEq κ] (key : α → κ)

/-- The elements whose key is not among `seen` and not that of an element before. -/
def firsts : List κ → List α → List α
  | _, [] => []
  | seen, a :: as => if key a ∈ seen then firsts seen as else a :: firsts (seen ++ [key a]) as

variable {as : List α} {seen : List κ} {a : α}

theorem of_mem_firsts (h : a ∈ firsts key seen as) : a ∈ as ∧ key a ∉ seen := by
  induction as generalizing seen with
  | nil => cases h
  | cons b as ih =>
    rw [firsts] at h
    split at h
    · exact (ih h).imp_left (.tail _)
    rename_i hb
    rcases mem_cons.1 h with rfl | h
    · exact ⟨.head _, hb⟩
    · exact ⟨.tail _ (ih h).1, fun hmem => (ih h).2 (mem_append_left _ hmem)⟩

theorem nodup_firsts (seen : List κ) (as : List α) : ((firsts key seen as).map key).Nodup := by
  induction as generalizing seen with
  | nil => exact nodup_nil
  | cons b as ih =>
    rw [firsts]
    split
    · exact ih seen
    rw [map_cons, nodup_cons]
    refine ⟨fun hmem => ?_, ih _⟩
    obtain ⟨a, ha, hkey⟩ := mem_map.1 hmem
    exact (of_mem_firsts key ha).2 (mem_append_right _ (mem_singleton.2 hkey))

theorem exists_mem_firsts (ha : a ∈ as) (hseen : key a ∉ seen) :
    ∃ b ∈ firsts key seen as, key b = key a := by
  induction as generalizing seen with
  | nil => cases ha
  | cons b as ih =>
    rw [firsts]
    split
    next hb =>
      rcases mem_cons.1 ha with rfl | ha
      · exact (hseen hb).elim
      · exact ih ha hseen
    by_cases hkey : key b = key a
    · exact ⟨b, .head _, hkey⟩
    rcases mem_cons.1 ha with rfl | ha
    · exact (hkey rfl).elim
    · obtain ⟨b', hb', hkey'⟩ := @ih (seen ++ [key b]) ha (by simp [hseen, Ne.symm hkey])
      exact ⟨b', .tail _ hb', hkey'⟩

/-- What is kept with a property that goes by the key: as many as there are keys with it. -/
theorem length_filter_firsts (as : List α) {q : α → Bool}
    (hq : ∀ a ∈ as, ∀ b ∈ as, key a = key b → q a = q b) :
    ((firsts key [] as).filter q).length = ((as.filter q).map key).toFinset.card := by
  have hnodup : (((firsts key [] as).filter q).map key).Nodup :=
    (nodup_firsts key [] as).sublist (filter_sublist.map _)
  rw [← length_map (f := key), ← toFinset_card_of_nodup hnodup]
  congr 1
  ext k
  simp only [mem_toFinset, mem_map, mem_filter]
  constructor
  · rintro ⟨a, ⟨ha, hqa⟩, rfl⟩
    exact ⟨a, ⟨(of_mem_firsts key ha).1, hqa⟩, rfl⟩
  · rintro ⟨a, ⟨ha, hqa⟩, rfl⟩
    obtain ⟨b, hb, hkey⟩ := exists_mem_firsts key ha not_mem_nil
    exact ⟨b, ⟨hb, by rw [hq b (of_mem_firsts key hb).1 a ha hkey, hqa]⟩, hkey⟩

/-! ## Numbering the keys -/

variable {β : Type} (entry : α → β)

/-- The number of each element's key, and the keys with what they were first seen with. -/
def numberKeys : List α → List (κ × β) → List (κ × β) × List Nat
  | [], t => (t, [])
  | a :: as, t =>
    let idx := t.findIdx fun e => e.1 = key a
    let t := if idx < t.length then t else t ++ [(key a, entry a)]
    let (t, is) := numberKeys as t
    (t, idx :: is)

/-- The table gets an entry for each first element. -/
theorem numberKeys_fst (as : List α) (t : List (κ × β)) : (numberKeys key entry as t).1 =
    t ++ (firsts key (t.map Prod.fst) as).map fun a => (key a, entry a) := by
  induction as generalizing t with
  | nil => simp [numberKeys, firsts]
  | cons a as ih =>
    rw [numberKeys, firsts]
    dsimp only
    rw [ih]
    have hfind : t.findIdx (fun e => decide (e.1 = key a)) < t.length ↔ key a ∈ t.map Prod.fst := by
      rw [findIdx_lt_length, mem_map]
      simp only [decide_eq_true_eq]
    by_cases hmem : key a ∈ t.map Prod.fst
    · rw [if_pos (hfind.2 hmem), if_pos hmem]
    · rw [if_neg (fun h => hmem (hfind.1 h)), if_neg hmem, map_append, map_cons, map_nil,
        map_cons, append_assoc]
      rfl

theorem numberKeys_snd (as : List α) (t : List (κ × β)) : (numberKeys key entry as t).2 =
    as.map fun a => (numberKeys key entry as t).1.findIdx fun e => e.1 = key a := by
  induction as generalizing t with
  | nil => rfl
  | cons a as ih =>
    rw [numberKeys]
    dsimp only
    rw [map_cons, ← ih]
    congr 1
    rw [numberKeys_fst]
    -- the key is in the table that the rest starts from, so its number does not change
    by_cases hlt : t.findIdx (fun e => decide (e.1 = key a)) < t.length
    · rw [if_pos hlt, findIdx_append, if_pos hlt]
    rw [if_neg hlt, append_assoc, findIdx_append, if_neg hlt]
    have hlen : t.findIdx (fun e => decide (e.1 = key a)) = t.length :=
      Nat.le_antisymm findIdx_le_length (Nat.le_of_not_lt hlt)
    rw [hlen, singleton_append, findIdx_cons, decide_eq_true rfl]
    simp

/-- Two elements have one number just if they have one key. -/
theorem numberKeys_eq_iff (as : List α) {b : α} (ha : a ∈ as) :
    ((numberKeys key entry as []).1.findIdx (fun e => e.1 = key a) =
      (numberKeys key entry as []).1.findIdx fun e => e.1 = key b) ↔ key a = key b := by
  refine ⟨fun h => ?_, fun h => by rw [h]⟩
  have hmem : ∃ e ∈ (numberKeys key entry as []).1, decide (e.1 = key a) := by
    rw [numberKeys_fst, nil_append]
    obtain ⟨a', ha', hkey⟩ := exists_mem_firsts key ha not_mem_nil
    exact ⟨(key a', entry a'), mem_map.2 ⟨a', ha', rfl⟩, decide_eq_true hkey⟩
  have hlt := findIdx_lt_length.2 hmem
  have hget := @findIdx_getElem _ (fun e : κ × β => decide (e.1 = key a)) _ hlt
  have hlt' := hlt
  rw [h] at hlt'
  have hget' := @findIdx_getElem _ (fun e : κ × β => decide (e.1 = key b)) _ hlt'
  simp only [decide_eq_true_eq] at hget hget'
  simp only [h] at hget
  exact hget.symm.trans hget'

end AxiomDb.Lib
