import AxiomDb.Index.RangeScan
import AxiomDb.Index.Refinement

/-!
# The chain of leaves over a run

Every deletion keeps the chain of the tree's leaves. So does an insertion, unless
it splits a leaf that is the first child of its parent and not the first leaf of
the tree (`splitLosesLink`): the leaf before it, which is under another parent,
goes on pointing at the page that the split has freed. In a run without such a
split, every range scan agrees with the lookups (`range_agrees_of_runsSafely`).
-/

namespace AxiomDb.Index

open Lib Set List BTree Layout Route Leaf

/-! ## The chain of the leaves -/

section Links

variable {h : Nat} {I J : Set Bytes} {t : Node h} {key : Bytes} {ff : Nat} {lv A B : List Leaf}
  {l : Leaf}

theorem LeafEdit.keepsLinks (g : LeafEdit ff t lv) : KeepsLinks (leaves t) lv := by
  obtain ⟨A, l, B, hl, -, node', rfl, hnext, -⟩ := g
  have : KeepsLinks [l] [⟨l.pid, node'⟩] := SameLinks.of_forall₂ (.cons ⟨rfl, hnext⟩ .nil)
  simpa [hl] using this.append A B

/-- The leaf before the two halves of a leaf still points at the leaf's old page if it
is under another parent. -/
theorem LeafSplit.linked_iff (g : LeafSplit key ff t lv)
    (hl : Linked pid (fun l => l.node.nextLeaf) NULL_PAGE (leaves t)) :
    Linked pid (fun l => l.node.nextLeaf) NULL_PAGE lv ↔ (FirstKid key t → leafPos key t = 0) := by
  obtain ⟨A, l, B, e, hpos, -, A', x, y, rfl, hxy, hfirst, hnot⟩ := g
  rw [e] at hl
  obtain ⟨hA, hlB, hB⟩ := linked_append.mp hl
  have hlxy : Linked pid (fun l => l.node.nextLeaf) NULL_PAGE (x :: y :: B) :=
    ⟨hxy.left_next, hxy.right_next.trans hlB, hB⟩
  rw [linked_append, and_iff_left hlxy]
  by_cases hF : FirstKid key t
  · rw [hfirst hF]
    rcases eq_nil_or_concat' A with rfl | ⟨A0, z, rfl⟩
    · exact ⟨fun _ _ => hpos.symm, fun _ => trivial⟩
    -- The leaf before them would point at both the old page and the new one.
    have hz : z.node.nextLeaf = l.pid := ((linked_append.mp hA).2).1
    have hne : leafPos key t ≠ 0 := by rw [← hpos]; simp
    refine ⟨fun h' => absurd (((linked_append.mp h').2).1.symm.trans hz) hxy.left_pid, fun h' => ?_⟩
    exact absurd (h' hF) hne
  · obtain ⟨hne, rfl⟩ := hnot hF
    obtain ⟨A0, z, rfl⟩ := (eq_nil_or_concat' A).resolve_left hne
    refine ⟨fun _ h' => absurd h' hF, fun _ => ?_⟩
    rw [relinkLast_append_singleton, linked_append]
    exact ⟨(linked_append.mp hA).1, rfl, trivial⟩

theorem Focus.leafPos_eq (f : layout.Focus key I t A l B J) : A.length = leafPos key t := by
  induction f using Layout.Focus.climb with
  | leaf => rfl
  | route rt _ ih => rw [Route.leafPos_eq rt, length_append, ih]

end Links

/-! ## Splits that lose a link -/

section LosesLink

variable {σ : Type} (E : StorageEngine Stop σ Page)

/-- Whether the insertion of the key splits a leaf that is the first child of its
parent and not the first leaf of the tree. The flags say whether the page is on the
leftmost path and whether it is a first child. -/
def splitLosesLink (key : Bytes) (fillfactor : Nat) :
    Nat → PageId → (leftmost first : Bool) → EStateM Stop σ Bool
  | 0, _, _, _ => throw .outOfFuel
  | fuel + 1, pid, leftmost, first => do
    match ← E.readPage pid with
    | .leaf node =>
      match node.search key with
      | .ok _ => pure false
      | .error _ =>
        pure (!leftmost && first && decide (fillThreshold ORDER_LEAF fillfactor ≤ node.numKeys))
    | .internal node =>
      let idx := node.findChildIdx key
      splitLosesLink key fillfactor fuel (node.childAt idx) (leftmost && idx == 0) (idx == 0)

/-- The call keeps the chain of leaves. -/
def linkSafe (fuel : Nat) : Cmd → Handle σ → Bool
  | .insert key _ fillfactor, d =>
    match splitLosesLink E key fillfactor fuel d.rootPid true true d.store with
    | .ok loses _ => !loses
    | .error .. => false
  | .delete _, _ | .lookup _, _ => true

variable {E} {view : σ → Heap Page} {s : σ} {h fuel ff : Nat} {I J : Set Bytes} {t : Node h}
  {key : Bytes} {A B : List Leaf} {l : Leaf}

theorem splitLosesLink_eq (ff : Nat) (hE : E.Lawful NULL_PAGE view) (ht : layout.Valid (view s) I t)
    (f : layout.Focus key I t A l B J) (hm : ∀ e ∈ l.node.slots, e.1 ≠ key) {p q : Bool}
    (hf : h < fuel) : ∃ r, splitLosesLink E key ff fuel (layout.rootPid t) p q s = .ok r s ∧
      (r ↔ ¬ (p ∧ A = []) ∧ (h = 0 → q) ∧ FirstKid key t ∧
        fillThreshold ORDER_LEAF ff ≤ l.node.numKeys) := by
  induction h generalizing I A B fuel p q with
  | zero =>
    obtain _ | fuel := fuel
    · omega
    obtain ⟨rfl, rfl, rfl, rfl⟩ := f
    obtain ⟨a, b, -, -, -, hsearch⟩ :=
      LeafNodePage.search_missing (ordered_leaf.mp ht.ordered).1 hm
    refine WP.eq_ok_iff (hE.wp_read ht.stored ?_)
    simp only [hsearch]
    refine WP.pure ⟨rfl, ?_⟩
    simp [FirstKid, and_assoc]
  | succ h ih =>
    obtain _ | fuel := fuel
    · omega
    obtain ⟨s1, s2, c1, c, c2, I', A', B', rt, f, rfl, rfl⟩ := f
    obtain ⟨r, e, hr⟩ := ih (p := p && c1.length == 0) (q := c1.length == 0)
      (ht.kid (by simp [rt.kids]) rt.child) f (show h < fuel by omega)
    refine WP.eq_ok_iff (hE.wp_read ht.page ?_)
    simp only [layout_branchPage, findChildIdx rt, childAt rt ht]
    refine WP.of_eq e ⟨rfl, hr.trans ?_⟩
    have hA : c1.flatMap leaves ++ A' = [] ↔ c1.length = 0 ∧ A' = [] := by
      rw [append_eq_nil_iff, length_eq_zero_iff]
      refine and_congr_left fun _ => ⟨fun h => ?_, fun h => by simp [h]⟩
      by_contra hne
      obtain ⟨d, hd⟩ := exists_mem_of_ne_nil c1 hne
      obtain ⟨K, -, hK, -⟩ := rt.window.left hd
      exact hK.leaves_ne_nil (flatMap_eq_nil_iff.mp h d hd)
    have hF : FirstKid key t ↔ (h = 0 → c1.length = 0) ∧ FirstKid key c := by
      cases h with
      | zero =>
        rw [show FirstKid key t ↔ t.node.findChildIdx key = 0 from Iff.rfl, findChildIdx rt]
        simp [FirstKid]
      | succ h => simp [firstKid_iff rt]
    rw [hA, hF]
    simp only [Bool.and_eq_true, beq_iff_eq, and_assoc, Nat.succ_ne_zero, IsEmpty.forall_iff,
      true_and]

theorem Stepped.linked {h' : Nat} {t' : Node h'} {c : Cmd} {d d' : Handle σ}
    (hE : E.Lawful NULL_PAGE view) (ht : IsTree view I d t) (hk : c.key ∈ I) (hf : h < fuel)
    (hsafe : linkSafe E fuel c d) (st : Stepped view I d d' t c h' t')
    (hl : Linked pid (fun l => l.node.nextLeaf) NULL_PAGE (leaves t)) :
    Linked pid (fun l => l.node.nextLeaf) NULL_PAGE (leaves t') := by
  cases st with
  | same => exact hl
  | deleted _ g => exact (g.links _).2 hl
  | @inserted key rid ff _ _ hm _ g =>
    rcases g.leaves with e | e
    · exact (e.keepsLinks _).2 hl
    rw [e.linked_iff hl]
    intro hF
    obtain ⟨A, l, B, J, f⟩ := ht.valid.ordered.focus (k := key) hk
    obtain ⟨r, er, hr⟩ := splitLosesLink_eq ff (p := true) (q := true) hE ht.valid f
      (search_leaf_missing ht.valid f hk hm).1 hf
    simp only [ht.root] at er
    simp only [linkSafe, er, Bool.not_eq_true'] at hsafe
    subst hsafe
    obtain ⟨A', l', B', he, hpos, hfull, -⟩ := e
    have hA := Focus.leafPos_eq f
    by_contra hne
    have hll : l' = l := by
      rw [f.leaves_eq] at he
      exact (cons.inj (append_inj he (hA.trans hpos.symm)).2).1.symm
    subst hll
    exact absurd (hr.mpr ⟨fun h => hne (by rw [← hA, h.2]; rfl), fun _ => rfl, hF, hfull⟩) (by simp)

end LosesLink

/-! ## Scans and lookups -/

section Run

variable {σ : Type} {E : StorageEngine Stop σ Page} {view : σ → Heap Page} {d : Handle σ}
  {h fuel : Nat} {t : Node h}

theorem IsTree.chain (ht : IsTree view univ d t)
    (hl : Linked pid (fun l => l.node.nextLeaf) NULL_PAGE (leaves t)) :
    Chain (view d.store) (leaves t) :=
  ⟨fun _ hm => ht.valid.stored.leaf hm, hl⟩

theorem IsTree.leaves_nodup (ht : IsTree view univ d t) : ((leaves t).map pid).Nodup := by
  have := ht.valid.nodup.sublist (leafPages_sublist t)
  rwa [show (leaves t).flatMap layout.leafPages = (leaves t).map pid from
    flatMap_pure_eq_map ..] at this

/-- The tree reached by a run from an empty leaf. -/
theorem reached (hE : E.Lawful NULL_PAGE view) (hd : view d.store d.rootPid = some (.leaf emptyLeaf))
    (cmds : List Cmd) (hc : ∀ c ∈ cmds, c.Valid) (hf : cmds.length < fuel) :
    ∃ d', run E fuel cmds d = .ok (specRun cmds fun _ => none).1 d' ∧
      ∃ h' ≤ cmds.length, ∃ t' : Node h', IsTree view univ d' t' ∧
        Holds t' (specRun cmds fun _ => none).2 ∧ (runsWith E (linkSafe E fuel) fuel cmds d →
          Linked Leaf.pid (fun l => l.node.nextLeaf) NULL_PAGE (leaves t')) := by
  by_cases hsafe : runsWith E (linkSafe E fuel) fuel cmds d
  · obtain ⟨d', e, h', hh, t', ht, hm, hl⟩ := run_spec hE
      (P := fun _ t => Linked Leaf.pid (fun l => l.node.nextLeaf) NULL_PAGE (leaves t))
      (fun ht hk hf hok st hl => st.linked hE ht hk hf hok hl) hsafe (isTree_empty (I := univ) hd)
      (holds_empty d.rootPid) ⟨rfl, trivial⟩ (fun c hc' => ⟨hc c hc', mem_univ _⟩)
      (show _ < fuel by omega)
    exact ⟨d', e, h', by omega, t', ht, hm, fun _ => hl⟩
  · obtain ⟨d', e, h', hh, t', ht, hm, -⟩ := run_spec hE (P := fun _ _ => True) (fun _ _ _ _ _ h => h)
      (runsWith_true fuel cmds d) (isTree_empty (I := univ) hd) (holds_empty d.rootPid) trivial
      (fun c hc' => ⟨hc c hc', mem_univ _⟩) (show _ < fuel by omega)
    exact ⟨d', e, h', by omega, t', ht, hm, fun h => (hsafe h).elim⟩

/-- In every run from an empty leaf whose insertions do not split a leaf that is the
first child of its parent and not the first leaf of the tree, a range scan returns
the entries of the map within its bounds, which lookups return too, in ascending
order; and the chain from the leftmost leaf has every leaf of the tree once. -/
theorem range_agrees_with_lookups (hE : E.Lawful NULL_PAGE view)
    (hd : view d.store d.rootPid = some (.leaf emptyLeaf)) (cmds : List Cmd)
    (hc : ∀ c ∈ cmds, c.Valid) (hf : cmds.length < fuel)
    (hsafe : runsWith E (linkSafe E fuel) fuel cmds d = true) :
    ∃ d', run E fuel cmds d = .ok (specRun cmds fun _ => none).1 d' ∧
      (∀ key, ValidKey key → BTree.lookupIn E fuel d'.rootPid key d'.store =
        .ok ((specRun cmds fun _ => none).2 key) d'.store) ∧ (∀ lo hi, ∃ n, ∀ fuel ≥ n, ∃ rows,
        BTree.rangeIn E fuel d'.rootPid lo hi d'.store = .ok rows d'.store ∧
        rows.Pairwise (fun a b => a.2 < b.2) ∧ ∀ key rid, (rid, key) ∈ rows ↔
          BTree.InRange lo hi key = true ∧ (specRun cmds fun _ => none).2 key = some rid) ∧
      ∃ h, ∃ t : Node h, IsTree view univ d' t ∧ Chain (view d'.store) (Layout.leaves t) ∧
        ((Layout.leaves t).map Leaf.pid).Nodup ∧ BTree.leftmostLeafIn E fuel d'.rootPid d'.store =
          .ok (headPid Leaf.pid NULL_PAGE (Layout.leaves t)) d'.store := by
  obtain ⟨d', e, h', hh, t', ht, hm, hl⟩ := reached hE hd cmds hc hf
  replace hl := hl hsafe
  refine ⟨d', e, fun key hk => ?_, fun lo hi => ⟨_, fun n hn => ⟨_,
    rangeIn_eq hE ht (ht.chain hl) lo hi (Nat.lt_of_succ_le hn), ?_, fun key rid => ?_⟩⟩,
    h', t', ht, ht.chain hl, ht.leaves_nodup, ?_⟩
  · obtain ⟨r, er, hr⟩ := lookupIn_eq hE ht hk (mem_univ _) (show h' < fuel by omega)
    rw [er, hm.lookup_eq hr]
  · exact pairwise_map.mpr (ht.valid.ordered.sorted.sublist filter_sublist)
  · rw [hm key rid, mem_map]
    simp only [mem_filter, Prod.mk.injEq]
    constructor
    · rintro ⟨e, ⟨he, hin⟩, rfl, rfl⟩
      exact ⟨hin, he⟩
    · exact fun ⟨hin, he⟩ => ⟨(key, rid), ⟨he, hin⟩, rfl, rfl⟩
  · obtain ⟨l, ls, hls, el⟩ := leftmostLeafIn_eq hE ht.valid (show h' < fuel by omega)
    rw [← ht.root, el, hls]
    rfl

theorem range_agrees_with_lookups_memory :
    ∃ d', run memory 4 [.insert [2] ⟨7, 0⟩ 90, .insert [1] ⟨8, 0⟩ 10, .delete [2]] emptyIndex =
        .ok [.inserted, .inserted, .deleted true] d' ∧
      ∃ n, ∀ fuel ≥ n, ∃ rows, BTree.rangeIn memory fuel d'.rootPid none none d'.store =
        .ok rows d'.store ∧ (⟨8, 0⟩, [1]) ∈ rows := by
  obtain ⟨d', e, -, hr, -⟩ := range_agrees_with_lookups memory_lawful emptyIndex_root
    [.insert [2] ⟨7, 0⟩ 90, .insert [1] ⟨8, 0⟩ 10, .delete [2]]
    (by simp [Cmd.Valid, ValidKey, MAX_KEY_LEN]) (show _ < 4 by decide) (by decide)
  obtain ⟨n, hn⟩ := hr none none
  refine ⟨d', e, n, fun fuel hf => ?_⟩
  obtain ⟨rows, er, -, hmem⟩ := hn fuel hf
  exact ⟨rows, er, (hmem [1] ⟨8, 0⟩).mpr ⟨rfl, rfl⟩⟩

end Run

end AxiomDb.Index
