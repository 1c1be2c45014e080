import Mathlib

/-!
# Chains of children under separators

A node of a search tree with separators `s₁ … sₙ` sends a key to one of `n + 1`
children. `SepChain P I seps kids` says that the separators are in the set `I`
of the node's keys, ascend strictly, and that each child has `P` for the part
of `I` between its two separators. Two facts carry every change of a node: a
chain can be cut at a separator into two (`sepChain_append_cons`), which is
what a split, a merge and a rotation do; and a run of neighbouring children can
be replaced by any other chain for the same part of `I` (`SepChain.window`).
-/

namespace AxiomDb.Lib

open Set List

variable {K C : Type} [LinearOrder K] {P : Set K → C → Prop} {I : Set K} {c : C} {s : K}

/-- `kids` have `P` for the parts into which `seps` cut `I`. -/
def SepChain (P : Set K → C → Prop) : Set K → List K → List C → Prop
  | I, [], [c] => P I c
  | I, s :: seps, c :: kids =>
    s ∈ I ∧ (∃ x ∈ I, x < s) ∧ P (I ∩ Iio s) c ∧ SepChain P (I ∩ Ici s) seps kids
  | _, _, _ => False

theorem sepChain_cons {seps : List K} {kids : List C} :
    SepChain P I (s :: seps) (c :: kids) ↔
      s ∈ I ∧ (∃ x ∈ I, x < s) ∧ P (I ∩ Iio s) c ∧ SepChain P (I ∩ Ici s) seps kids := Iff.rfl

namespace SepChain

variable {seps s₁ s₂ ws : List K} {kids c₁ c₂ w : List C}

section

variable (h : SepChain P I seps kids)
include h

theorem length_eq : kids.length = seps.length + 1 := by
  induction seps generalizing I kids with
  | nil =>
    match kids, h with
    | [_], _ => rfl
  | cons s seps ih =>
    match kids, h with
    | _ :: kids, h => simp [ih h.2.2.2]

/-- The chain's property may be weakened, and its children replaced one by one. -/
theorem imp {D : Type} {Q : Set K → D → Prop} {kids' : List D}
    (hr : Forall₂ (fun c d => ∀ J ⊆ I, P J c → Q J d) kids kids') : SepChain Q I seps kids' := by
  induction seps generalizing I kids kids' with
  | nil =>
    match kids, h with
    | [c], h =>
      obtain ⟨d, _, hcd, hn, rfl⟩ := forall₂_cons_left_iff.mp hr
      cases forall₂_nil_left_iff.mp hn
      exact hcd I Subset.rfl h
  | cons s seps ih =>
    match kids, h with
    | c :: kids, ⟨hs, hx, hc, h⟩ =>
      obtain ⟨d, kids', hcd, hkids, rfl⟩ := forall₂_cons_left_iff.mp hr
      exact ⟨hs, hx, hcd _ inter_subset_left hc,
        ih h (hkids.imp fun _ _ hP J hJ => hP J (hJ.trans inter_subset_left))⟩

/-- A chain for a set is one for a larger set, if its children are. -/
theorem mono {I' : Set K} (hI : I ⊆ I')
    (hP : ∀ c ∈ kids, ∀ J J', J ⊆ J' → P J c → P J' c) : SepChain P I' seps kids := by
  induction seps generalizing I I' kids with
  | nil =>
    match kids, h with
    | [c], h => exact hP c (mem_singleton_self c) _ _ hI h
  | cons s seps ih =>
    match kids, h with
    | c :: kids, ⟨hs, ⟨x, hx, hxs⟩, hc, h⟩ =>
      exact ⟨hI hs, ⟨x, hI hx, hxs⟩, hP c mem_cons_self _ _ (inter_subset_inter_left _ hI) hc,
        ih h (inter_subset_inter_left _ hI) fun c hc => hP c (mem_cons_of_mem _ hc)⟩

theorem sep_mem (hs : s ∈ seps) : s ∈ I ∧ ∃ x ∈ I, x < s := by
  induction seps generalizing I kids with
  | nil => cases hs
  | cons s' seps ih =>
    match kids, h with
    | c :: kids, ⟨hs', hx, _, h⟩ =>
      rcases mem_cons.mp hs with rfl | hs
      · exact ⟨hs', hx⟩
      · obtain ⟨hmem, x, hx, hlt⟩ := ih h hs
        exact ⟨hmem.1, x, hx.1, hlt⟩

/-- Every child has `P` for some part of the set. -/
theorem exists_of_mem (hc : c ∈ kids) : ∃ J ⊆ I, P J c := by
  induction seps generalizing I kids with
  | nil =>
    match kids, h with
    | [c'], h => exact ⟨I, Subset.rfl, mem_singleton.mp hc ▸ h⟩
  | cons s seps ih =>
    match kids, h with
    | c' :: kids, ⟨_, _, hc', h⟩ =>
      rcases mem_cons.mp hc with rfl | hc
      · exact ⟨_, inter_subset_left, hc'⟩
      · obtain ⟨J, hJ, hP⟩ := ih h hc
        exact ⟨J, hJ.trans inter_subset_left, hP⟩

theorem pairwise_lt : seps.Pairwise (· < ·) := by
  induction seps generalizing I kids with
  | nil => exact Pairwise.nil
  | cons s seps ih =>
    match kids, h with
    | c :: kids, ⟨_, _, _, h⟩ =>
      refine Pairwise.cons (fun s' hs' => ?_) (ih h)
      match seps, kids, h with
      | t :: seps, _ :: kids, ⟨_, ⟨x, hx, hxt⟩, _, h'⟩ =>
        have hst : s < t := lt_of_le_of_lt hx.2 hxt
        rcases mem_cons.mp hs' with rfl | hs'
        · exact hst
        · exact lt_of_lt_of_le hst (h'.sep_mem hs').1.2

end

end SepChain

/-- A chain is cut at a separator into two chains. -/
theorem sepChain_append_cons {s₁ s₂ : List K} {m : K} {c₁ c₂ : List C}
    (hc : c₁.length = s₁.length + 1) : SepChain P I (s₁ ++ m :: s₂) (c₁ ++ c₂) ↔
      m ∈ I ∧ (∃ x ∈ I, x < m) ∧ SepChain P (I ∩ Iio m) s₁ c₁ ∧ SepChain P (I ∩ Ici m) s₂ c₂ := by
  induction s₁ generalizing I c₁ with
  | nil =>
    match c₁, hc with
    | [c], _ => rfl
  | cons s s₁ ih =>
    match c₁, hc with
    | c :: c₁, hc =>
      rw [cons_append, cons_append, sepChain_cons, ih (by simpa using hc), sepChain_cons]
      -- Both sides put `s` below `m`, and then cut `I` into the same parts.
      have hleft (h : s < m) : I ∩ Iio m ∩ Iio s = I ∩ Iio s := by
        rw [inter_assoc, Iio_inter_Iio, min_eq_right h.le]
      have hright (h : s < m) : I ∩ Ici s ∩ Ici m = I ∩ Ici m := by
        rw [inter_assoc, Ici_inter_Ici, max_eq_right h.le]
      have hmid : I ∩ Iio m ∩ Ici s = I ∩ Ici s ∩ Iio m := inter_right_comm ..
      constructor
      · rintro ⟨hs, ⟨y, hy, hys⟩, hc', hm, ⟨x, hx, hxm⟩, h1, h2⟩
        have hsm : s < m := lt_of_le_of_lt hx.2 hxm
        exact ⟨hm.1, ⟨x, hx.1, hxm⟩, ⟨⟨hs, hsm⟩, ⟨y, ⟨hy, hys.trans hsm⟩, hys⟩,
          (hleft hsm).symm ▸ hc', hmid.symm ▸ h1⟩, hright hsm ▸ h2⟩
      · rintro ⟨hm, _, ⟨hs, ⟨y, hy, hys⟩, hc', h1⟩, h2⟩
        exact ⟨hs.1, ⟨y, hy.1, hys⟩, hleft hs.2 ▸ hc', ⟨hm, hs.2.le⟩, ⟨s, ⟨hs.1, le_rfl⟩, hs.2⟩,
          hmid ▸ h1, (hright hs.2).symm ▸ h2⟩

/-- The part of `I` that a run of children of a chain answers for: what may stand
in their place, and that no other child answers for it. -/
structure Window (P : Set K → C → Prop) (I : Set K) (s₁ s₂ : List K) (c₁ c₂ : List C)
    (J : Set K) : Prop where
  subset : J ⊆ I
  /-- The keys sent between the separators `s₁` and `s₂` are in the part. -/
  mem {k : K} : k ∈ I → (∀ s ∈ s₁, s ≤ k) → (∀ s ∈ s₂, k < s) → k ∈ J
  bounds {k : K} : k ∈ J → (∀ s ∈ s₁, s ≤ k) ∧ (∀ s ∈ s₂, k < s)
  fill {ws : List K} {w : List C} : SepChain P J ws w →
    SepChain P I (s₁ ++ ws ++ s₂) (c₁ ++ w ++ c₂)
  left {c : C} : c ∈ c₁ → ∃ J' ⊆ I, P J' c ∧ ∀ x ∈ J', ∀ y ∈ J, x < y
  right {c : C} : c ∈ c₂ → ∃ J' ⊆ I, P J' c ∧ ∀ x ∈ J', ∀ y ∈ J, y < x

namespace SepChain

variable {seps s₁ s₂ ws : List K} {kids c₁ c₂ w : List C}

/-- The children after the first `c₁.length`. -/
theorem window_left (hc : c₁.length = s₁.length) (h : SepChain P I (s₁ ++ ws) (c₁ ++ w)) :
    ∃ J, SepChain P J ws w ∧ Window P I s₁ [] c₁ [] J := by
  induction s₁ generalizing I c₁ with
  | nil =>
    cases length_eq_zero_iff.mp hc
    exact ⟨I, h, ⟨Subset.rfl, fun hk _ _ => hk, by simp, fun h => by simpa using h, by simp, by simp⟩⟩
  | cons s s₁ ih =>
    match c₁, hc with
    | c :: c₁, hc =>
      obtain ⟨hs, hx, hc', h⟩ := h
      obtain ⟨J, hJ, W⟩ := ih (Nat.succ.inj hc) h
      refine ⟨J, hJ, W.subset.trans inter_subset_left, fun hk hs1 hs2 => ?_, fun hk => ?_,
        fun h => ⟨hs, hx, hc', W.fill h⟩, fun {c''} hc'' => ?_, by simp⟩
      · exact W.mem ⟨hk, hs1 s mem_cons_self⟩ (fun s hs => hs1 s (mem_cons_of_mem _ hs)) hs2
      · refine ⟨fun s' hs' => ?_, by simp⟩
        rcases mem_cons.mp hs' with rfl | hs'
        · exact (W.subset hk).2
        · exact (W.bounds hk).1 s' hs'
      · rcases mem_cons.mp hc'' with rfl | hc''
        · exact ⟨_, inter_subset_left, hc', fun x hx y hy => lt_of_lt_of_le hx.2 (W.subset hy).2⟩
        · obtain ⟨J', hJ', hP, hlt⟩ := W.left hc''
          exact ⟨J', hJ'.trans inter_subset_left, hP, hlt⟩

/-- The children before the last `c₂.length`. -/
theorem window_right (hw : w.length = ws.length + 1) (hc : c₂.length = s₂.length)
    (h : SepChain P I (ws ++ s₂) (w ++ c₂)) :
    ∃ J, SepChain P J ws w ∧ Window P I [] s₂ [] c₂ J := by
  match s₂, c₂, hc with
  | [], [], _ =>
    exact ⟨I, by simpa using h, ⟨Subset.rfl, fun hk _ _ => hk, by simp, fun h => by simpa using h,
      by simp, by simp⟩⟩
  | m :: s₂, c :: c₂, hc =>
    obtain ⟨hm, hx, hl, hr⟩ := (sepChain_append_cons hw).mp h
    refine ⟨I ∩ Iio m, hl, inter_subset_left, fun hk _ hs2 => ⟨hk, hs2 m mem_cons_self⟩,
      fun hk => ⟨by simp, fun s hs => ?_⟩, fun h => (sepChain_append_cons h.length_eq).mpr
        ⟨hm, hx, h, hr⟩, by simp, fun hc => ?_⟩
    · rcases mem_cons.mp hs with rfl | hs
      · exact hk.2
      · have hasc := (pairwise_append.mp h.pairwise_lt).2.1
        exact lt_trans hk.2 (rel_of_pairwise_cons hasc hs)
    · obtain ⟨J', hJ', hP⟩ := hr.exists_of_mem hc
      exact ⟨J', hJ'.trans inter_subset_left, hP, fun x hx y hy => lt_of_lt_of_le hy.2 (hJ' hx).2⟩

/-- A run of children `w` with the separators `ws` between them is a chain for the
part of `I` it answers for. -/
theorem window (hc1 : c₁.length = s₁.length) (hc2 : c₂.length = s₂.length)
    (h : SepChain P I (s₁ ++ ws ++ s₂) (c₁ ++ w ++ c₂)) :
    ∃ J, SepChain P J ws w ∧ Window P I s₁ s₂ c₁ c₂ J := by
  rw [append_assoc, append_assoc] at h
  obtain ⟨J1, h1, W1⟩ := h.window_left hc1
  have hw : w.length = ws.length + 1 := by
    have := h1.length_eq
    simp only [length_append] at this
    omega
  obtain ⟨J, hJ, W⟩ := h1.window_right hw hc2
  refine ⟨J, hJ, W.subset.trans W1.subset,
    fun hk hs1 hs2 => W.mem (W1.mem hk hs1 (by simp)) (by simp) hs2,
    fun hk => ⟨(W1.bounds (W.subset hk)).1, (W.bounds hk).2⟩, fun h => ?_, fun hc => ?_, fun hc => ?_⟩
  · have := W1.fill (W.fill h)
    simpa [append_assoc] using this
  · obtain ⟨J', hJ', hP, hlt⟩ := W1.left hc
    exact ⟨J', hJ', hP, fun x hx y hy => hlt x hx y (W.subset hy)⟩
  · obtain ⟨J', hJ', hP, hlt⟩ := W.right hc
    exact ⟨J', hJ'.trans W1.subset, hP, hlt⟩

end SepChain

end AxiomDb.Lib
