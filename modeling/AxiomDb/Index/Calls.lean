import AxiomDb.Index.DeleteSpec

/-!
# What the calls do to the tree

One lemma for each outcome of `lookup_in`, `insert_in` and `delete_in` on a handle
whose tree is in order (`IsTree`): the answer, the entries of the tree afterwards
and what became of its leaves. The fast path and the way through the tree meet
here: the fast path changes the one leaf for the key (`Focus.replace`).
-/

namespace AxiomDb.Index

open Lib Set List Layout

variable {σ : Type} {E : StorageEngine Stop σ Page} {view : σ → Heap Page} {s : σ} {d : Handle σ}
  {h : Nat} {I J : Set Bytes} {t : Node h} {key : Bytes} {rid : RecordId} {ff fuel : Nat}
  {H H' : Heap Page} {A B : List Leaf} {l l' : Leaf} {t' : Node h}
  {α : Type} {x : EStateM Stop σ α}

/-- `t` is the tree of the handle. -/
structure IsTree (view : σ → Heap Page) (I : Set Bytes) (d : Handle σ) (t : Node h) : Prop where
  root : layout.rootPid t = d.rootPid
  valid : layout.Valid (view d.store) I t
  branches : Layout.Branches HasKeys t

/-- A key that `insert_in`, `delete_in` and `lookup_in` accept. -/
def ValidKey (key : Bytes) : Prop := key ≠ [] ∧ key.length ≤ MAX_KEY_LEN

instance (key : Bytes) : Decidable (ValidKey key) := inferInstanceAs (Decidable (_ ∧ _))

/-- The tree `t'` after the insertion of a key into `t`. -/
structure Inserted {h' : Nat} (H H' : Heap Page) (I : Set Bytes) (t : Node h) (key : Bytes)
    (rid : RecordId) (ff : Nat) (t' : Node h') : Prop where
  valid : layout.Valid H' I t'
  branches : Layout.Branches HasKeys t'
  keeps : Keeps H H' (layout.pages t) (layout.pages t')
  entries (e : Bytes × RecordId) : e ∈ layout.entries t' ↔ e = (key, rid) ∨ e ∈ layout.entries t
  leaves : LeafEdit ff t (Layout.leaves t') ∨ LeafSplit key ff t (Layout.leaves t')

/-- The tree `t'` after the deletion of a key from `t`. -/
structure Deleted {h' : Nat} (H H' : Heap Page) (I : Set Bytes) (t : Node h) (key : Bytes)
    (t' : Node h') : Prop where
  valid : layout.Valid H' I t'
  branches : Layout.Branches HasKeys t'
  keeps : Keeps H H' (layout.pages t) (layout.pages t')
  entries (e : Bytes × RecordId) : e ∈ layout.entries t' ↔ e ∈ layout.entries t ∧ e.1 ≠ key
  links : KeepsLinks (Layout.leaves t) (Layout.leaves t')

theorem Grown.inserted (g : Grown H H' I t key rid ff [] [t']) :
    Inserted H H' I t key rid ff t' where
  valid := g.replaces.valid
  branches := g.branches t' (mem_singleton_self _)
  keeps := by simpa using g.replaces.keeps
  entries e := by simpa using g.entries e
  leaves := by simpa using g.leaves

theorem Shrunk.deleted (g : Shrunk H H' I t t' key)
    (hbr : Branches HasKeys t') : Deleted H H' I t key t' where
  valid := g.replaces.valid
  branches := hbr
  keeps := by simpa using g.replaces.keeps
  entries := g.entries
  links := g.links

theorem onStore_ok {a : α} (e : x d.store = .ok a s) :
    onStore x d = .ok a { d with store := s } := by
  rw [onStore, e]

theorem onStore_error {z : Stop} (e : x d.store = .error z s) :
    onStore x d = .error z { d with store := s } := by
  rw [onStore, e]

theorem wp_onStore {β : Type} {f : α → EStateM Stop (Handle σ) β}
    {R : β → Handle σ → Prop} (hx : WP x d.store fun a s' => WP (f a) { d with store := s' } R) :
    WP (onStore x >>= f) d R := by
  obtain ⟨a, s', e, h⟩ := hx
  exact WP.bind_ok (onStore_ok e) h

/-! ## The leaf for the key -/

/-- The leaf for the key takes a new entry in its place. -/
theorem Grown.focus (g : Grown (h := 0) H H' J l key rid ff [] [l'])
    (f : layout.Focus key I t A l B J) (ht : layout.Valid H I t) (hbr : Branches HasKeys t)
    (hpid : l'.pid = l.pid) (hnext : l'.node.nextLeaf = l.node.nextLeaf)
    (hnum : l'.node.numKeys = l.node.numKeys + 1)
    (hlt : l.node.numKeys < fillThreshold ORDER_LEAF ff) :
    ∃ t' : Node h, layout.rootPid t' = layout.rootPid t ∧ Grown H H' I t key rid ff [] [t'] := by
  obtain ⟨t', hp, r, f', hok⟩ := f.replace ht hpid g.replaces
  refine ⟨t', hp, ⟨r, by simpa using hok _ hbr, fun e => ?_, .inl ?_⟩⟩
  · have hl := g.entries e
    simp only [flatMap_singleton, entries_zero, layout_leafEntries] at hl
    simp only [Layout.entries, f.leaves_eq, f'.leaves_eq,
      flatMap_append, flatMap_cons, mem_append, layout_leafEntries, hl]
    tauto
  · exact ⟨A, l, B, f.leaves_eq, hlt, l'.node, by simp [f'.leaves_eq, ← hpid], hnext, hnum⟩

/-- The leaf for the key loses its entry in its place. -/
theorem Shrunk.focus (g : Shrunk (h := 0) H H' J l l' key) (f : layout.Focus key I t A l B J)
    (ht : layout.Valid H I t) (hbr : Branches HasKeys t) (hk : key ∈ I)
    (hpid : l'.pid = l.pid) (hnext : l'.node.nextLeaf = l.node.nextLeaf) :
    ∃ t' : Node h, layout.rootPid t' = layout.rootPid t ∧ Shrunk H H' I t t' key ∧
      Branches HasKeys t' := by
  obtain ⟨t', hp, r, f', hok⟩ := f.replace ht hpid g.replaces
  refine ⟨t', hp, ⟨r, Weak.of_branches (hok _ hbr), fun e => ?_, ?_⟩, hok _ hbr⟩
  · have hl := g.entries e
    have hside : e ∈ (A ++ B).flatMap layout.leafEntries → e.1 ≠ key :=
      fun he hek => f.key_not_mem he (by rw [layout_key, hek]; exact f.mem hk)
    simp only [entries_zero, layout_leafEntries] at hl
    simp only [flatMap_append, mem_append] at hside
    simp only [Layout.entries, f.leaves_eq, f'.leaves_eq, flatMap_append, flatMap_cons,
      mem_append, layout_leafEntries, hl]
    tauto
  · rw [f.leaves_eq, f'.leaves_eq]
    simpa using (SameLinks.of_forall₂ (.cons ⟨hpid, hnext⟩ .nil) :
      KeepsLinks [l] [l']).append A B

section Focus

variable (ht : layout.Valid H I t) (f : layout.Focus key I t A l B J) (hk : key ∈ I)

include ht f

theorem leaf_valid : layout.Valid (h := 0) H J l :=
  ⟨f.leaf_stored ht.stored, f.leaf_ordered ht.ordered, nodup_singleton _⟩

include hk

theorem search_leaf_missing (hm : ∀ e ∈ layout.entries t, e.1 ≠ key) :
    (∀ e ∈ l.node.slots, e.1 ≠ key) ∧ ∃ a b, l.node.slots = a ++ b ∧ (∀ e ∈ a, e.1 < key) ∧
      (∀ e ∈ b, key < e.1) ∧ l.node.search key = .error a.length := by
  have hm' (e : Bytes × RecordId) (he : e ∈ l.node.slots) : e.1 ≠ key := fun hek =>
    hm e ((f.mem_entries_iff (by rw [layout_key, hek]; exact f.mem hk)).mpr he) hek
  exact ⟨hm', LeafNodePage.search_missing (ordered_leaf.mp (leaf_valid ht f).ordered).1 hm'⟩

theorem search_leaf_found (hm : ∃ e ∈ layout.entries t, e.1 = key) :
    ∃ rid a b, l.node.slots = a ++ (key, rid) :: b ∧ (∀ e ∈ a, e.1 < key) ∧
      (∀ e ∈ b, key < e.1) ∧ l.node.search key = .ok a.length := by
  obtain ⟨⟨_, rid⟩, he, rfl⟩ := hm
  have hm' := (f.mem_entries_iff (e := (_, rid)) (f.mem hk)).mp he
  exact ⟨rid, LeafNodePage.search_found (ordered_leaf.mp (leaf_valid ht f).ordered).1 hm'⟩

end Focus

namespace BTree

theorem checkKey_eq (hk : ValidKey key) : checkKey (σ := σ) key = pure () := by
  rw [checkKey, if_neg]
  simpa [ValidKey] using hk

section Leaf

variable (hE : E.Lawful NULL_PAGE view) (ht : layout.Valid (view s) I t)
  (f : layout.Focus key I t A l B J) (hk : key ∈ I) (hf : h < fuel)

include hE ht f hk hf

/-- The fast path of an insertion: the leaf has room. -/
theorem tryInsertLeafOptimistically_room (hm : ∀ e ∈ layout.entries t, e.1 ≠ key) (hff : ff ≤ 100)
    (hlt : l.node.numKeys < fillThreshold ORDER_LEAF ff) :
    WP (tryInsertLeafOptimistically E fuel (layout.rootPid t) key rid ff) s fun r s' =>
      r = .done () ∧ ∃ l' : Leaf, l'.pid = l.pid ∧ l'.node.nextLeaf = l.node.nextLeaf ∧
        l'.node.numKeys = l.node.numKeys + 1 ∧
        Grown (h := 0) (view s) (view s') J l key rid ff [] [l'] := by
  have hl := leaf_valid ht f
  obtain ⟨-, a, b, e, ha, hb, hsearch⟩ := search_leaf_missing ht f hk hm
  obtain ⟨hfits, hins⟩ := insertAt_leaf e (hlt.trans_le (fillThreshold_le hff)) key rid
  refine WP.bind_ok (findLeafForIn_eq hE ht f hf) (hE.wp_read hl.stored ?_)
  simp only [hsearch, if_pos hlt]
  refine wp_checked hins (hE.wp_write_own hl.owns (by simp) fun s' o e' _ => WP.pure ?_)
  refine ⟨rfl, ⟨l.pid, _, _, hfits⟩, rfl, rfl, ?_, grown_leaf hl (f.mem hk) e ha hb hlt o e'⟩
  simp [LeafNodePage.numKeys, e]
  omega

theorem tryInsertLeafOptimistically_full (hm : ∀ e ∈ layout.entries t, e.1 ≠ key)
    (hge : fillThreshold ORDER_LEAF ff ≤ l.node.numKeys) :
    tryInsertLeafOptimistically E fuel (layout.rootPid t) key rid ff s = .ok .needPessimistic s := by
  obtain ⟨-, a, b, e, ha, hb, hsearch⟩ := search_leaf_missing ht f hk hm
  rw [tryInsertLeafOptimistically, bind_ok (findLeafForIn_eq hE ht f hf),
    bind_ok (hE.read (f.leaf_stored ht.stored))]
  simp only [hsearch, if_neg (Nat.not_lt.mpr hge)]
  rfl

theorem tryInsertLeafOptimistically_duplicate (rid : RecordId) (ff : Nat) (hm : ∃ e ∈ layout.entries t, e.1 = key) :
    tryInsertLeafOptimistically E fuel (layout.rootPid t) key rid ff s =
      .error (.err .duplicateKey) s := by
  obtain ⟨_, a, b, -, -, -, hsearch⟩ := search_leaf_found ht f hk hm
  rw [tryInsertLeafOptimistically, bind_ok (findLeafForIn_eq hE ht f hf),
    bind_ok (hE.read (f.leaf_stored ht.stored))]
  simp only [hsearch]
  rfl

theorem tryDeleteLeafOptimistically_missing (hm : ∀ e ∈ layout.entries t, e.1 ≠ key) :
    tryDeleteLeafOptimistically E fuel (layout.rootPid t) key s = .ok (.done false) s := by
  obtain ⟨-, a, b, e, ha, hb, hsearch⟩ := search_leaf_missing ht f hk hm
  rw [tryDeleteLeafOptimistically, bind_ok (findLeafForIn_eq hE ht f hf),
    bind_ok (hE.read (f.leaf_stored ht.stored))]
  simp only [hsearch]
  rfl

/-- The fast path of a deletion: done, or left to the slow path with nothing changed. -/
theorem tryDeleteLeafOptimistically_found (hm : ∃ e ∈ layout.entries t, e.1 = key) :
    WP (tryDeleteLeafOptimistically E fuel (layout.rootPid t) key) s fun r s' =>
      (r = .needPessimistic ∧ s' = s) ∨ (r = .done true ∧ ∃ l' : Leaf, l'.pid = l.pid ∧
        l'.node.nextLeaf = l.node.nextLeaf ∧ Shrunk (h := 0) (view s) (view s') J l l' key) := by
  have hl := leaf_valid ht f
  obtain ⟨_, a, b, e, ha, hb, hsearch⟩ := search_leaf_found ht f hk hm
  refine WP.bind_ok (findLeafForIn_eq hE ht f hf) (hE.wp_read hl.stored ?_)
  simp only [hsearch]
  split
  · exact WP.pure (.inl ⟨rfl, rfl⟩)
  · refine hE.wp_write_own hl.owns (by simp) fun s' o e' _ => WP.pure (.inr ⟨rfl, ?_⟩)
    exact ⟨⟨l.pid, l.node.removeAt a.length⟩, rfl, rfl, shrunk_leaf hl e ha hb o e'⟩

end Leaf

/-- The slow path of an insertion: a root that was split gets a parent. -/
theorem insertRoot_spec (hE : E.Lawful NULL_PAGE view) (ht : layout.Valid (view s) I t)
    (hbr : Branches HasKeys t) (hk : key ∈ I) (hm : ∀ e ∈ layout.entries t, e.1 ≠ key)
    (hff : ff ≤ 100) (hf : h < fuel) :
    WP (insertRoot E fuel (layout.rootPid t) key rid ff) s fun p s' => ∃ h' ≤ h + 1, ∃ t' : Node h',
      layout.rootPid t' = p ∧ Inserted (view s) (view s') I t key rid ff t' := by
  refine WP.bind (insertSubtreeBatched_spec hE ht hbr hk hm hff hf) fun res s' hpost => ?_
  match res, hpost with
  | .ok _, ⟨rfl, t', hp, g⟩ => exact WP.pure ⟨h, Nat.le_succ h, t', hp, g.inserted⟩
  | .split _ _ sep _, ⟨_, _, l, r, rfl, rfl, g⟩ =>
    refine hE.wp_alloc_own g.replaces.owns fun p s1 o1 hp h1 => ?_
    refine wp_checked (@InternalNodePage.ofArrays_eq [sep] _ (by simp [ORDER_INTERNAL]) (by simp)) ?_
    refine hE.wp_write_own o1 (by simp) fun s2 o2 e2 h2 => WP.pure ?_
    have hsame (q : PageId) (hq : q ∈ [l, r].flatMap layout.pages) : view s2 q = view s' q := by
      have hqp : q ≠ p := fun h => hp (h ▸ hq)
      rw [h2 q hqp, h1 q hqp]
    refine ⟨h + 1, le_rfl, ⟨p, _, [l, r]⟩, rfl, ⟨⟨e2, rfl, stored_congr g.replaces.stored hsame⟩,
      g.replaces.chain, o2.nodup⟩, ⟨by simp [HasKeys, InternalNodePage.numKeys], g.branches⟩, o2.keeps,
      fun e => ?_, ?_⟩
    · rw [entries_succ]; exact g.entries e
    · rw [leaves_succ]; exact g.leaves

/-! ## The calls -/

section Calls

variable (hE : E.Lawful NULL_PAGE view) (ht : IsTree view I d t) (hv : ValidKey key) (hk : key ∈ I)
  (hf : h < fuel)

include hE ht hv hk hf

theorem lookupIn_eq : ∃ r, lookupIn E fuel d.rootPid key d.store = .ok r d.store ∧
    ∀ rid, r = some rid ↔ (key, rid) ∈ layout.entries t := by
  rw [lookupIn, checkKey_eq hv, pure_bind, ← ht.root]
  exact lookupFrom_eq hE ht.valid hk hf

theorem insertIn_new (rid : RecordId) (hm : ∀ e ∈ layout.entries t, e.1 ≠ key) (hff : ff ≤ 100) :
    WP (insertIn E fuel key rid ff) d fun _ d' => ∃ h' ≤ h + 1, ∃ t' : Node h',
      layout.rootPid t' = d'.rootPid ∧
        Inserted (view d.store) (view d'.store) I t key rid ff t' := by
  obtain _ | fuel := fuel
  · omega
  obtain ⟨A, l, B, J, f⟩ := ht.valid.ordered.focus hk
  rw [insertIn, checkKey_eq hv, pure_bind]
  refine WP.get (wp_onStore ?_)
  rw [← ht.root]
  by_cases hlt : l.node.numKeys < fillThreshold ORDER_LEAF ff
  · refine WP.mono (tryInsertLeafOptimistically_room hE ht.valid f hk hf hm hff hlt) ?_
    rintro _ s' ⟨rfl, l', hp, hn, hnum, g⟩
    obtain ⟨t', hp', g'⟩ := g.focus f ht.valid ht.branches hp hn hnum hlt
    exact WP.pure ⟨h, Nat.le_succ h, t', hp', g'.inserted⟩
  · refine WP.of_eq (tryInsertLeafOptimistically_full hE ht.valid f hk hf hm (Nat.le_of_not_lt hlt)) ?_
    refine wp_onStore (WP.mono (insertRoot_spec hE ht.valid ht.branches hk hm hff hf) ?_)
    rintro _ s' ⟨h', hh, t', rfl, g⟩
    exact WP.of_eq rfl ⟨h', hh, t', rfl, g⟩

theorem insertIn_duplicate (hm : ∃ e ∈ layout.entries t, e.1 = key) :
    insertIn E fuel key rid ff d = .error (.err .duplicateKey) d := by
  obtain _ | fuel := fuel
  · omega
  obtain ⟨A, l, B, J, f⟩ := ht.valid.ordered.focus hk
  have he := tryInsertLeafOptimistically_duplicate hE ht.valid f hk hf rid ff hm
  rw [insertIn, checkKey_eq hv, pure_bind]
  rw [ht.root] at he
  exact (bind_ok rfl).trans (bind_error (onStore_error he))

theorem deleteIn_missing (hm : ∀ e ∈ layout.entries t, e.1 ≠ key) :
    deleteIn E fuel key d = .ok false d := by
  obtain _ | fuel := fuel
  · omega
  obtain ⟨A, l, B, J, f⟩ := ht.valid.ordered.focus hk
  have he := tryDeleteLeafOptimistically_missing hE ht.valid f hk hf hm
  rw [deleteIn, checkKey_eq hv, pure_bind]
  rw [ht.root] at he
  exact (bind_ok rfl).trans (bind_ok (onStore_ok he))

theorem deleteIn_found (hm : ∃ e ∈ layout.entries t, e.1 = key) :
    WP (deleteIn E fuel key) d fun r d' => r ∧ ∃ h' ≤ h, ∃ t' : Node h',
      layout.rootPid t' = d'.rootPid ∧ Deleted (view d.store) (view d'.store) I t key t' := by
  obtain _ | fuel := fuel
  · omega
  obtain ⟨A, l, B, J, f⟩ := ht.valid.ordered.focus hk
  rw [deleteIn, checkKey_eq hv, pure_bind]
  refine WP.get (wp_onStore ?_)
  rw [← ht.root]
  refine WP.mono (tryDeleteLeafOptimistically_found hE ht.valid f hk hf hm) ?_
  rintro _ s' (⟨rfl, rfl⟩ | ⟨rfl, l', hp, hn, g⟩)
  · refine wp_onStore (WP.mono (deleteSubtreeBatched_spec hE ht.valid ht.branches hk hm hf) ?_)
    rintro (_ | ⟨_, _⟩) s' hpost
    · exact hpost.elim
    obtain ⟨t', rfl, g, -⟩ := hpost
    refine wp_onStore (WP.mono (collapseRoot_spec hE g) ?_)
    rintro _ s'' ⟨h', hh, t'', rfl, hval, hbr, hkeep, hent, hlv⟩
    refine WP.of_eq rfl ⟨rfl, h', hh, t'', rfl, hval, hbr, hkeep, fun e => ?_, ?_⟩
    · rw [hent]; exact g.entries e
    · rw [hlv]; exact g.links
  · obtain ⟨t', hp', g', hbr⟩ := g.focus f ht.valid ht.branches hk hp hn
    exact WP.pure ⟨rfl, h, le_rfl, t', hp', g'.deleted hbr⟩

end Calls

end BTree

end AxiomDb.Index
