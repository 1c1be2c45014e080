import AxiomDb.Index.FailedInsert

/-!
# Batch deletion

`delete_many_in` removes a sorted list of keys in one pass: the list is cut at the
separators of each internal page, every leaf is scanned once, and the children that
got underfull are rebalanced from left to right. A leaf that got underfull is moved
to a new page, but the leaf before it still points at the old one.
-/

namespace AxiomDb.Index

open Lib Set List Layout

/-- `BatchDeleteResult` in `tree_bulk.rs`. -/
structure BatchDeleteResult where
  newPid : PageId
  underfull : Bool
  deleted : Nat

namespace BTree

section Model

variable {σ : Type} (E : StorageEngine Stop σ Page)

/-- The loop of `batch_delete_leaf`: the slots that stay, and how many do not. -/
def batchDeleteSlots : List (Bytes × RecordId) → List Bytes → List (Bytes × RecordId) × Nat
  | [], _ => ([], 0)
  | slot :: slots, sortedKeys =>
    match sortedKeys.dropWhile fun key => decide (key < slot.1) with
    | [] =>
      let rest := batchDeleteSlots slots []
      (slot :: rest.1, rest.2)
    | key :: keys =>
      if key = slot.1 then
        let rest := batchDeleteSlots slots keys
        (rest.1, rest.2 + 1)
      else
        let rest := batchDeleteSlots slots (key :: keys)
        (slot :: rest.1, rest.2)

/-- `BTree::batch_delete_leaf` in `tree_bulk.rs`. -/
def batchDeleteLeaf (pid : PageId) (node : LeafNodePage) (sortedKeys : List Bytes) (isRoot : Bool) :
    EStateM Stop σ BatchDeleteResult := do
  let survivors := batchDeleteSlots node.slots sortedKeys
  if survivors.2 = 0 then pure ⟨pid, false, 0⟩
  else
    let leaf ← checked (LeafNodePage.ofArrays survivors.1 node.nextLeaf)
    if isRoot ∨ MIN_KEYS_LEAF ≤ leaf.numKeys then
      let newPid ← writeLeafSamePid E pid leaf
      pure ⟨newPid, false, survivors.2⟩
    else
      let newPid ← E.allocPage
      E.writePage newPid (.leaf leaf)
      E.freePage pid
      pure ⟨newPid, true, survivors.2⟩

/-- The keys for each child, cut at the separators. -/
def keyRanges : List Bytes → List Bytes → List (List Bytes)
  | [], sortedKeys => [sortedKeys]
  | sep :: seps, sortedKeys =>
    let split := partitionPoint (fun i => decide (sortedKeys.getD i [] < sep)) sortedKeys.length 0
      sortedKeys.length
    sortedKeys.take split :: keyRanges seps (sortedKeys.drop split)

/-- Without keys, nothing is read. -/
def skipEmpty (pid : PageId) (keys : List Bytes) (delete : EStateM Stop σ BatchDeleteResult) :
    EStateM Stop σ BatchDeleteResult :=
  if keys.isEmpty then pure ⟨pid, false, 0⟩ else delete

/-- The loop over the children: their new pages, those that got underfull, and how
many keys were removed. -/
def batchDeleteChildren (subtree : PageId → List Bytes → EStateM Stop σ BatchDeleteResult) :
    List (PageId × List Bytes) → EStateM Stop σ (List PageId × List PageId × Nat)
  | [] => pure ([], [], 0)
  | (pid, keys) :: children => do
    let result ← skipEmpty pid keys (subtree pid keys)
    let rest ← batchDeleteChildren subtree children
    pure (result.newPid :: rest.1,
      if result.underfull then result.newPid :: rest.2.1 else rest.2.1, result.deleted + rest.2.2)

/-- The loop over the underfull children; one that is no longer there was merged. -/
def rebalanceUnderfull : List PageId → PageId → EStateM Stop σ PageId
  | [], parentPid => pure parentPid
  | pid :: pids, parentPid => do
    let parent ← readInternal E parentPid
    match parent.children.findIdx? (· = pid) with
    | none => rebalanceUnderfull pids parentPid
    | some childIdx =>
      let newPid ← rebalanceBatched E parentPid parent childIdx pid
      rebalanceUnderfull pids newPid

/-- The part of `batch_delete_internal` after the loop over the children. -/
def absorbBatch (pid : PageId) (node : InternalNodePage) (isRoot : Bool)
    (children : List PageId × List PageId × Nat) : EStateM Stop σ BatchDeleteResult :=
  if children.2.2 = 0 then pure ⟨pid, false, 0⟩
  else do
    let node ← checked (InternalNodePage.ofArrays node.keys children.1)
    let parentPid ← writeInternalSamePid E pid node
    let parentPid ← rebalanceUnderfull E children.2.1 parentPid
    let underfull2 ← if isRoot then pure false else internalUnderfull E parentPid
    pure ⟨parentPid, underfull2, children.2.2⟩

/-- `BTree::batch_delete_subtree` in `tree_bulk.rs`. -/
def batchDeleteSubtree : Nat → PageId → List Bytes → Bool → EStateM Stop σ BatchDeleteResult
  | 0, _, _, _ => throw .outOfFuel
  | fuel + 1, pid, sortedKeys, isRoot =>
    skipEmpty pid sortedKeys do
      match ← E.readPage pid with
      | .leaf node => batchDeleteLeaf E pid node sortedKeys isRoot
      | .internal node =>
        let children ← batchDeleteChildren (fun pid keys => batchDeleteSubtree fuel pid keys false)
          (node.children.zip (keyRanges node.keys sortedKeys))
        absorbBatch E pid node isRoot children

/-- `BTree::delete_many_in` in `tree_bulk.rs`. -/
def deleteManyIn (fuel : Nat) (sortedKeys : List Bytes) : EStateM Stop (Handle σ) Nat := do
  if sortedKeys.isEmpty then pure 0
  else
    sortedKeys.forM checkKey
    let root := (← get).rootPid
    let result ← onStore (batchDeleteSubtree E fuel root sortedKeys true)
    let finalRoot ← onStore (collapseRoot E result.newPid)
    modify fun d => { d with rootPid := finalRoot }
    pure result.deleted

end Model

/-! ## The scan of a leaf -/

variable {σ : Type} {E : StorageEngine Stop σ Page} {view : σ → Heap Page} {s : σ} {h fuel : Nat}
  {I : Set Bytes} {t : Node h} {keys ks : List Bytes} {H H' : Heap Page} {d : Handle σ}

/-- A sorted list is cut where its keys reach `x`. -/
theorem exists_cut (hs : ks.Pairwise (· ≤ ·)) (x : Bytes) : ∃ a b, ks = a ++ b ∧ (∀ k ∈ a, k < x) ∧
    (∀ k ∈ b, x ≤ k) ∧ ks.dropWhile (fun k => decide (k < x)) = b := by
  refine ⟨_, _, (takeWhile_append_dropWhile (p := fun k => decide (k < x))).symm, fun k hk => ?_, ?_, rfl⟩
  · simpa using mem_takeWhile_imp hk
  induction ks with
  | nil => simp
  | cons k ks ih =>
    obtain ⟨hle, hs⟩ := pairwise_cons.mp hs
    by_cases hk : k < x
    · simpa [dropWhile_cons, hk] using ih hs
    · have hx := not_lt.mp hk
      simpa [dropWhile_cons, hk, hx] using fun k' hk' => hx.trans (hle k' hk')

theorem batchDeleteSlots_eq {slots : List (Bytes × RecordId)}
    (hslots : slots.Pairwise fun a b => a.1 < b.1) (hs : ks.Pairwise (· ≤ ·)) :
    batchDeleteSlots slots ks =
      (slots.filter fun e => decide (e.1 ∉ ks), slots.countP fun e => decide (e.1 ∈ ks)) := by
  induction slots generalizing ks with
  | nil => rfl
  | cons slot slots ih =>
    obtain ⟨hlt, hslots⟩ := pairwise_cons.mp hslots
    obtain ⟨a, b, rfl, ha, hb, hdrop⟩ := exists_cut hs slot.1
    -- Only the keys that are left can be those of this slot or a later one.
    have hmem (k : Bytes) (hk : slot.1 ≤ k) : k ∈ a ++ b ↔ k ∈ b := by
      rw [mem_append, or_iff_right fun hk' => absurd (ha k hk') (not_lt.mpr hk)]
    have hrest {ks : List Bytes} (hs : ks.Pairwise (· ≤ ·)) (h : ∀ e ∈ slots, e.1 ∈ b ↔ e.1 ∈ ks) :
        batchDeleteSlots slots ks = (slots.filter fun e => decide (e.1 ∉ a ++ b),
          slots.countP fun e => decide (e.1 ∈ a ++ b)) := by
      have hiff (e : Bytes × RecordId) (he : e ∈ slots) := (hmem e.1 (hlt e he).le).trans (h e he)
      refine (ih hslots hs).trans (Prod.ext ?_ ?_)
      · exact filter_congr fun e he => by simp only [hiff e he]
      · exact countP_congr fun e he => by simp only [hiff e he]
    have hsb := (pairwise_append.mp hs).2.1
    rw [batchDeleteSlots, hdrop, filter_cons, countP_cons]
    simp only [hmem slot.1 le_rfl]
    obtain _ | ⟨key, kk⟩ := b
    · simp [hrest .nil fun _ _ => Iff.rfl]
    obtain ⟨hkk, hsk⟩ := pairwise_cons.mp hsb
    by_cases hkey : key = slot.1
    · have := hrest hsk fun e he => by rw [mem_cons, or_iff_right (hkey ▸ (hlt e he).ne')]
      simp [this, hkey]
    · have hnot : slot.1 ∉ kk := fun hin => hkey (le_antisymm (hkk _ hin) (hb key mem_cons_self))
      simp [hrest hsb fun _ _ => Iff.rfl, hnot, hkey, Ne.symm hkey]

/-! ## A batch of keys that are not there -/

theorem batchDeleteChildren_absent {f : PageId → List Bytes → EStateM Stop σ BatchDeleteResult}
    {children : List (PageId × List Bytes)} (hf : ∀ x ∈ children, f x.1 x.2 s = .ok ⟨x.1, false, 0⟩ s) :
    batchDeleteChildren f children s = .ok (children.map Prod.fst, [], 0) s := by
  induction children with
  | nil => rfl
  | cons x children ih =>
    have hx : skipEmpty x.1 x.2 (f x.1 x.2) s = .ok ⟨x.1, false, 0⟩ s := by
      rw [skipEmpty]
      split
      · rfl
      · exact hf x mem_cons_self
    rw [batchDeleteChildren, bind_ok hx, bind_ok (ih fun y hy => hf y (mem_cons_of_mem _ hy))]
    rfl

theorem keyRanges_sublist {seps r : List Bytes} (hr : r ∈ keyRanges seps ks) : r.Sublist ks := by
  induction seps generalizing ks with
  | nil => exact mem_singleton.mp hr ▸ .refl _
  | cons sep seps ih =>
    rcases mem_cons.mp hr with rfl | hr
    · exact take_sublist ..
    · exact (ih hr).trans (drop_sublist ..)

theorem batchDeleteSubtree_absent (hE : E.Lawful NULL_PAGE view) {isRoot : Bool}
    (ht : layout.Stored (view s) t) (ho : layout.Ordered I t) (hs : ks.Pairwise (· ≤ ·))
    (hm : ∀ e ∈ layout.entries t, e.1 ∉ ks) (hf : h < fuel) :
    batchDeleteSubtree E fuel (layout.rootPid t) ks isRoot s = .ok ⟨layout.rootPid t, false, 0⟩ s := by
  induction h generalizing I fuel ks isRoot with
  | zero =>
    obtain _ | fuel := fuel
    · omega
    rw [batchDeleteSubtree, skipEmpty]
    split
    · rfl
    · refine (bind_ok (hE.read ht)).trans ?_
      have hnone : (Leaf.node t).slots.countP (fun e => decide (e.1 ∈ ks)) = 0 :=
        countP_eq_zero.mpr (by simpa using hm)
      simp only [batchDeleteLeaf, batchDeleteSlots_eq (ordered_leaf.mp ho).1 hs, hnone]
      rfl
  | succ h ih =>
    obtain _ | fuel := fuel
    · omega
    obtain ⟨hpage, hch, hkids⟩ := ht
    rw [batchDeleteSubtree, skipEmpty]
    split
    · rfl
    refine (bind_ok (hE.read hpage)).trans ((bind_ok (batchDeleteChildren_absent fun x hx => ?_)).trans rfl)
    obtain ⟨hp, hr⟩ := of_mem_zip hx
    rw [← layout_children, hch] at hp
    obtain ⟨c, hc, hp⟩ := mem_map.mp hp
    rw [← hp]
    obtain ⟨J, -, hJ⟩ := SepChain.exists_of_mem ho hc
    have hsub := keyRanges_sublist hr
    refine ih (hkids c hc) hJ (hs.sublist hsub) (fun e he hin => hm e ?_ (hsub.subset hin)) (by omega)
    rw [entries_succ]
    exact mem_flatMap.mpr ⟨c, hc, he⟩

/-! ## The tree without the keys -/

/-- The leaf without the keys. -/
def pruneLeaf (keys : List Bytes) (l : Leaf) : Leaf :=
  ⟨l.pid, l.node.slots.filter fun e => decide (e.1 ∉ keys), l.node.nextLeaf,
    (length_filter_le ..).trans l.node.fits⟩

/-- The tree without the keys, on the same pages. -/
def prune (keys : List Bytes) : {h : Nat} → Node h → Node h
  | 0, l => pruneLeaf keys l
  | _ + 1, b => ⟨b.pid, b.node, b.kids.map (prune keys)⟩

theorem rootPid_prune (t : Node h) : layout.rootPid (prune keys t) = layout.rootPid t := by
  cases h <;> rfl

theorem pages_prune (t : Node h) : layout.pages (prune keys t) = layout.pages t := by
  induction h with
  | zero => rfl
  | succ h ih =>
    simp only [prune, pages_succ, flatMap_map]
    congr 2
    exact funext ih

theorem leaves_prune (t : Node h) : leaves (prune keys t) = (leaves t).map (pruneLeaf keys) := by
  induction h with
  | zero => rfl
  | succ h ih =>
    simp only [prune, leaves_succ, flatMap_map, map_flatMap]
    congr 1
    exact funext ih

theorem entries_prune (t : Node h) :
    layout.entries (prune keys t) = (layout.entries t).filter fun e => decide (e.1 ∉ keys) := by
  simp only [entries, leaves_prune, flatMap_map, filter_flatMap]
  rfl

theorem pruneLeaf_self {l : Leaf} (h : ∀ e ∈ l.node.slots, e.1 ∉ keys) : pruneLeaf keys l = l := by
  obtain ⟨pid, slots, next, fits⟩ := l
  have : slots.filter (fun e => decide (e.1 ∉ keys)) = slots :=
    filter_eq_self.mpr fun e he => by simpa using h e he
  simp only [pruneLeaf, this]

theorem prune_self (hm : ∀ e ∈ layout.entries t, e.1 ∉ keys) : prune keys t = t := by
  induction h with
  | zero => exact pruneLeaf_self (by simpa using hm)
  | succ h ih =>
    rw [entries_succ] at hm
    have : t.kids.map (prune keys) = t.kids := (map_congr_left fun c hc =>
      ih fun e he => hm e (mem_flatMap.mpr ⟨c, hc, he⟩)).trans (map_id _)
    rw [prune, this]

theorem ordered_prune (ht : layout.Ordered I t) : layout.Ordered I (prune keys t) := by
  induction h generalizing I with
  | zero => exact ⟨ht.1.filter _, fun e he => ht.2 e (mem_of_mem_filter he)⟩
  | succ h ih =>
    have hchain {seps : List Bytes} {kids : List (Node h)} (hc : SepChain layout.Ordered I seps kids) :
        SepChain layout.Ordered I seps (kids.map (prune keys)) := by
      clear ht
      induction seps generalizing I kids with
      | nil => match kids, hc with
        | [_], hc => exact ih hc
      | cons sep seps ihs => match kids, hc with
        | _ :: _, ⟨h₁, h₂, hc, hrest⟩ => exact ⟨h₁, h₂, ih hc, ihs hrest⟩
    exact hchain ht

theorem branches_prune (ht : Layout.Branches HasKeys t) : Layout.Branches HasKeys (prune keys t) := by
  induction h with
  | zero => trivial
  | succ h ih =>
    refine ⟨ht.1, fun c hc => ?_⟩
    obtain ⟨c', hc', rfl⟩ := mem_map.mp hc
    exact ih (ht.2 c' hc')

/-- The tree lost the keys in its place. -/
structure Pruned (keys : List Bytes) (t : Node h) (H H' : Heap Page) (r : BatchDeleteResult) : Prop where
  pid : r.newPid = layout.rootPid t
  full : r.underfull = false
  deleted : r.deleted = (layout.entries t).countP fun e => decide (e.1 ∈ keys)
  stored : layout.Stored H' (prune keys t)
  frame : ∀ p ∉ layout.pages t, H' p = H p

theorem pruned_self (ht : layout.Stored H t) (hm : ∀ e ∈ layout.entries t, e.1 ∉ keys) :
    Pruned keys t H H ⟨layout.rootPid t, false, 0⟩ :=
  ⟨rfl, rfl, (countP_eq_zero.mpr fun e he => by simpa using hm e he).symm, (prune_self hm).symm ▸ ht,
    fun _ _ => rfl⟩

/-- No leaf that loses keys gets underfull, and no internal page above one is, apart from the root. -/
def Roomy (keys : List Bytes) : {h : Nat} → (isRoot : Bool) → Node h → Prop
  | 0, isRoot, l => isRoot = true ∨ (∀ e ∈ (Leaf.node l).slots, e.1 ∉ keys) ∨
    MIN_KEYS_LEAF ≤ (pruneLeaf keys l).node.numKeys
  | _ + 1, isRoot, b => (isRoot = true ∨ (∀ e ∈ layout.entries b, e.1 ∉ keys) ∨
      MIN_KEYS_INTERNAL ≤ b.node.numKeys) ∧ ∀ c ∈ b.kids, Roomy keys false c

/-! ## The pass over the tree -/

theorem batchDeleteLeaf_prunes (hE : E.Lawful NULL_PAGE view) {l : Leaf} {isRoot : Bool}
    (hl : layout.Stored (h := 0) (view s) l) (ho : layout.Ordered (h := 0) I l) (hs : ks.Pairwise (· ≤ ·))
    (hks : ∀ k ∈ I, k ∈ ks ↔ k ∈ keys) (hr : Roomy (h := 0) keys isRoot l) :
    WP (batchDeleteLeaf E l.pid l.node ks isRoot) s fun r s' =>
      Pruned (h := 0) keys l (view s) (view s') r := by
  obtain ⟨hsorted, hmem⟩ := ordered_leaf.mp ho
  have hin (e : Bytes × RecordId) (he : e ∈ l.node.slots) : e.1 ∈ ks ↔ e.1 ∈ keys := hks _ (hmem e he)
  have hkept : l.node.slots.filter (fun e => decide (e.1 ∉ ks)) = (pruneLeaf keys l).node.slots :=
    filter_congr fun e he => by simp [hin e he]
  have hcount : l.node.slots.countP (fun e => decide (e.1 ∈ ks)) =
      l.node.slots.countP fun e => decide (e.1 ∈ keys) :=
    countP_congr fun e he => by simp [hin e he]
  rw [batchDeleteLeaf, batchDeleteSlots_eq hsorted hs, hkept, hcount]
  split
  next h0 =>
    have hm : ∀ e ∈ layout.entries (h := 0) l, e.1 ∉ keys := fun e he => by
      rw [entries_zero] at he
      simpa using countP_eq_zero.mp h0 e he
    have hp : Pruned (h := 0) keys l (view s) (view s) ⟨l.pid, false, 0⟩ := pruned_self hl hm
    exact WP.pure hp
  next h0 =>
    refine wp_checked (LeafNodePage.ofArrays_eq (pruneLeaf keys l).node.fits) ?_
    rw [if_pos]
    · refine WP.bind_assoc (hE.wp_write (hl.live (mem_singleton_self _)) fun s' hs' => WP.pure ?_)
      refine ⟨rfl, rfl, by rw [entries_zero]; rfl, ?_, fun p hp => ?_⟩
      · show view s' l.pid = _
        rw [hs', Function.update_self]
        rfl
      · rw [hs', Function.update_of_ne (by simpa using hp)]
    · rcases hr with hr | hr | hr
      · exact .inl hr
      · exact (h0 (countP_eq_zero.mpr fun e he => by simpa using hr e he)).elim
      · exact .inr hr

theorem skipEmpty_prunes {x : EStateM Stop σ BatchDeleteResult} (ho : layout.Ordered I t)
    (ht : layout.Stored (view s) t) (hks : ∀ k ∈ I, k ∈ ks ↔ k ∈ keys)
    (hx : WP x s fun r s' => Pruned keys t (view s) (view s') r) :
    WP (skipEmpty (layout.rootPid t) ks x) s fun r s' => Pruned keys t (view s) (view s') r := by
  rw [skipEmpty]
  split
  next he =>
    rw [List.isEmpty_iff] at he
    exact WP.pure (pruned_self ht fun e he' => by simpa [he] using (hks e.1 (ho.key_mem he')).not)
  next => exact hx

/-- The children of an internal page lose the keys one after the other. -/
theorem batchDeleteChildren_prunes {seps : List Bytes} {kids : List (Node h)}
    {subtree : PageId → List Bytes → EStateM Stop σ BatchDeleteResult}
    (hc : SepChain layout.Ordered I seps kids) (hs : ks.Pairwise (· ≤ ·))
    (hks : ∀ k ∈ I, k ∈ ks ↔ k ∈ keys) (hst : ∀ c ∈ kids, layout.Stored (view s) c)
    (hnd : (kids.flatMap layout.pages).Nodup)
    (hsub : ∀ c ∈ kids, ∀ (J : Set Bytes) (ks : List Bytes) (s : σ), layout.Ordered J c →
      ks.Pairwise (· ≤ ·) → (∀ k ∈ J, k ∈ ks ↔ k ∈ keys) → layout.Stored (view s) c →
      WP (subtree (layout.rootPid c) ks) s fun r s' => Pruned keys c (view s) (view s') r) :
    WP (batchDeleteChildren subtree ((kids.map layout.rootPid).zip (keyRanges seps ks))) s fun r s' =>
      r = (kids.map layout.rootPid, [],
        (kids.flatMap layout.entries).countP fun e => decide (e.1 ∈ keys)) ∧
      (∀ c ∈ kids, layout.Stored (view s') (prune keys c)) ∧
      ∀ p ∉ kids.flatMap layout.pages, view s' p = view s p := by
  induction seps generalizing I kids ks s with
  | nil =>
    match kids, hc with
    | [c], hc =>
      have hc' := hsub c mem_cons_self I ks s hc hs hks (hst c mem_cons_self)
      refine WP.bind (skipEmpty_prunes hc (hst c mem_cons_self) hks hc') fun r s' g => ?_
      refine WP.pure ⟨?_, ?_, ?_⟩
      · simp [g.pid, g.full, g.deleted]
      · simpa using g.stored
      · simpa using g.frame
  | cons sep seps ih =>
    match kids, hc with
    | c :: kids, ⟨_, _, hc, hrest⟩ =>
      obtain ⟨a, b, rfl, ha, hb, -⟩ := exists_cut hs sep
      obtain ⟨hsa, hsb, -⟩ := pairwise_append.mp hs
      rw [flatMap_cons, nodup_append] at hnd
      obtain ⟨-, hnd, hdis⟩ := hnd
      have hka : ∀ k ∈ I ∩ Iio sep, k ∈ a ↔ k ∈ keys := fun k hk => by
        rw [← hks k hk.1, mem_append, or_iff_left fun h => absurd (hb k h) (not_le.mpr hk.2)]
      have hkb : ∀ k ∈ I ∩ Ici sep, k ∈ b ↔ k ∈ keys := fun k hk => by
        rw [← hks k hk.1, mem_append, or_iff_right fun h => absurd (ha k h) (not_lt.mpr hk.2)]
      have hc' := hsub c mem_cons_self _ a s hc hsa hka (hst c mem_cons_self)
      have hpoint := partitionPoint_append (d := []) (q := fun key => decide (key < sep))
        (fun k hk => decide_eq_true (ha k hk)) fun k hk => decide_eq_false (not_lt.mpr (hb k hk))
      rw [keyRanges, hpoint, take_left, drop_left]
      refine WP.bind (skipEmpty_prunes hc (hst c mem_cons_self) hka hc') fun r s₁ g => ?_
      have hst₁ : ∀ c' ∈ kids, layout.Stored (view s₁) c' := fun c' hc' =>
        (hst c' (mem_cons_of_mem _ hc')).congr fun p hp =>
          g.frame p fun hp' => hdis p hp' p (mem_flatMap.mpr ⟨c', hc', hp⟩) rfl
      refine WP.bind (ih hrest hsb hkb hst₁ hnd fun c' hc' => hsub c' (mem_cons_of_mem _ hc'))
        fun r' s₂ g' => ?_
      obtain ⟨rfl, hst₂, hframe⟩ := g'
      refine WP.pure ⟨?_, fun c' hc' => ?_, fun p hp => ?_⟩
      · simp [g.pid, g.full, g.deleted]
      · rcases mem_cons.mp hc' with rfl | hc'
        · refine g.stored.congr fun p hp => hframe p fun hp' => ?_
          rw [pages_prune] at hp
          exact hdis p hp p hp' rfl
        · exact hst₂ c' hc'
      · rw [flatMap_cons, mem_append, not_or] at hp
        rw [hframe p hp.2, g.frame p hp.1]

theorem absorbBatch_prunes (hE : E.Lawful NULL_PAGE view) {b : Node (h + 1)} {isRoot : Bool} {H : Heap Page}
    (hst : layout.Stored (view s) (prune keys b)) (hframe : ∀ p ∉ layout.pages b, view s p = H p)
    (hr : isRoot = true ∨ (∀ e ∈ layout.entries b, e.1 ∉ keys) ∨ MIN_KEYS_INTERNAL ≤ b.node.numKeys) :
    WP (absorbBatch E b.pid b.node isRoot (b.node.children, [],
        (layout.entries b).countP fun e => decide (e.1 ∈ keys))) s fun r s' =>
      Pruned keys b H (view s') r := by
  have hpage : view s b.pid = some (.internal b.node) := hst.1
  rw [absorbBatch]
  split
  next h0 => exact WP.pure ⟨rfl, rfl, h0.symm, hst, hframe⟩
  next h0 =>
    have hr := hr.imp_right fun h => h.resolve_left fun hm =>
      h0 (countP_eq_zero.mpr fun e he => by simpa using hm e he)
    refine wp_checked (InternalNodePage.ofArrays_eq b.node.fits b.node.arity) (WP.bind_assoc
      (hE.wp_write (by simp [hpage]) fun s' hs' => ?_))
    have hview : view s' = view s := by rw [hs', ← hpage, Function.update_eq_self]
    have hdone : Pruned keys b H (view s') ⟨b.pid, false,
        (layout.entries b).countP fun e => decide (e.1 ∈ keys)⟩ :=
      ⟨rfl, rfl, rfl, hview ▸ hst, hview ▸ hframe⟩
    cases isRoot with
    | true => exact WP.pure hdone
    | false =>
      have hnot : decide (b.node.numKeys < MIN_KEYS_INTERNAL) = false :=
        decide_eq_false (Nat.not_lt.mpr (hr.resolve_left Bool.false_ne_true))
      have hread : internalUnderfull E b.pid s' = .ok false s' := by
        rw [internalUnderfull, bind_ok (hE.read (hview ▸ hpage)), ← hnot]
        rfl
      exact WP.bind_ok rfl (WP.bind_ok rfl (WP.bind_ok hread (WP.pure hdone)))

theorem batchDeleteSubtree_prunes (hE : E.Lawful NULL_PAGE view) {isRoot : Bool}
    (ht : layout.Stored (view s) t) (ho : layout.Ordered I t) (hnd : (layout.pages t).Nodup)
    (hs : ks.Pairwise (· ≤ ·)) (hks : ∀ k ∈ I, k ∈ ks ↔ k ∈ keys) (hr : Roomy keys isRoot t)
    (hf : h < fuel) :
    WP (batchDeleteSubtree E fuel (layout.rootPid t) ks isRoot) s fun r s' =>
      Pruned keys t (view s) (view s') r := by
  induction h generalizing I fuel ks s isRoot with
  | zero =>
    obtain ⟨fuel, rfl⟩ := Nat.exists_eq_succ_of_ne_zero (by omega : fuel ≠ 0)
    exact skipEmpty_prunes ho ht hks (hE.wp_read ht (batchDeleteLeaf_prunes hE ht ho hs hks hr))
  | succ h ih =>
    obtain ⟨fuel, rfl⟩ := Nat.exists_eq_succ_of_ne_zero (by omega : fuel ≠ 0)
    obtain ⟨hpage, hch, hkids⟩ := id ht
    rw [pages_succ, nodup_cons] at hnd
    refine skipEmpty_prunes ho ht hks (hE.wp_read hpage ?_)
    have hsub : WP (batchDeleteChildren (fun pid keys => batchDeleteSubtree E fuel pid keys false) _) _ _ :=
      batchDeleteChildren_prunes ho hs hks hkids hnd.2 fun c hc J ks s hJ hs hks hst =>
        ih hst hJ (nodup_flatMap.mp hnd.2 |>.1 c hc) hs hks (hr.2 c hc) (by omega)
    rw [← hch, ← entries_succ] at hsub
    refine WP.bind hsub fun r s' g => ?_
    obtain ⟨rfl, hst, hframe⟩ := g
    refine absorbBatch_prunes hE ⟨(hframe _ hnd.1).trans hpage, ?_, fun c hc => ?_⟩ (fun p hp => ?_) hr.1
    · simp only [prune, map_map, hch]
      exact map_congr_left fun c _ => (rootPid_prune c).symm
    · obtain ⟨c', hc', rfl⟩ := mem_map.mp hc
      exact hst c' hc'
    · exact hframe p fun h => hp (mem_cons_of_mem _ h)

/-! ## The call -/

theorem forM_checkKey (hv : ∀ k ∈ keys, ValidKey k) :
    keys.forM checkKey = (pure () : EStateM Stop σ PUnit) := by
  induction keys with
  | nil => rfl
  | cons k keys ih =>
    show (checkKey k >>= fun _ => keys.forM checkKey) = _
    rw [checkKey_eq (hv k mem_cons_self), pure_bind]
    exact ih fun k hk => hv k (mem_cons_of_mem _ hk)

section

variable (hE : E.Lawful NULL_PAGE view)
include hE

theorem collapseRoot_eq (ht : layout.Stored (view s) t) (hbr : Layout.Branches HasKeys t) :
    collapseRoot E (layout.rootPid t) s = .ok (layout.rootPid t) s := by
  cases h with
  | zero => exact bind_ok (hE.read ht)
  | succ h =>
    refine (bind_ok (hE.read ht.1)).trans ?_
    simp only [layout_branchPage, if_neg (Nat.ne_of_gt hbr.1)]
    rfl

section

variable (ht : IsTree view univ d t) (hv : ∀ k ∈ keys, ValidKey k) (hm : ∀ e ∈ layout.entries t, e.1 ∉ keys) (hf : h < fuel)
include ht hv hm hf

theorem deleteManyIn_absent (hs : keys.Pairwise (· ≤ ·)) : deleteManyIn E fuel keys d = .ok 0 d := by
  rw [deleteManyIn]
  split
  · rfl
  rw [forM_checkKey hv, pure_bind]
  have hrun : batchDeleteSubtree E fuel d.rootPid keys true d.store = .ok ⟨d.rootPid, false, 0⟩ d.store :=
    ht.root ▸ batchDeleteSubtree_absent hE ht.valid.stored ht.valid.ordered hs hm hf
  have hroot : collapseRoot E d.rootPid d.store = .ok d.rootPid d.store :=
    ht.root ▸ collapseRoot_eq hE ht.valid.stored ht.branches
  exact (bind_ok (onStore_ok hrun)).trans (bind_ok (onStore_ok hroot))

theorem run_delete_absent : ∃ as, run E fuel (keys.map .delete) d = .ok as d := by
  induction keys with
  | nil => exact ⟨[], rfl⟩
  | cons k keys ih =>
    obtain ⟨as, e⟩ := ih (fun k hk => hv k (mem_cons_of_mem _ hk))
      fun x hx hin => hm x hx (mem_cons_of_mem _ hin)
    have hk := deleteIn_missing hE ht (hv k mem_cons_self) (mem_univ _) hf
      fun x hx hkey => hm x hx (hkey ▸ mem_cons_self)
    have hexec : exec E fuel (.delete k) d = .ok (.deleted false) d := map_ok hk
    refine ⟨.deleted false :: as, ?_⟩
    rw [map_cons, run, bind_ok hexec, bind_ok e]
    rfl

end

/-- A batch for which no page gets underfull. -/
theorem deleteManyIn_prunes (ht : IsTree view univ d t)
    (hv : ∀ k ∈ keys, ValidKey k) (hs : keys.Pairwise (· ≤ ·)) (hr : Roomy keys true t)
    (hf : h < fuel) :
    WP (deleteManyIn E fuel keys) d fun n d' =>
      n = (layout.entries t).countP (fun e => decide (e.1 ∈ keys)) ∧ IsTree view univ d' (prune keys t) := by
  rw [deleteManyIn]
  split
  next he =>
    rw [List.isEmpty_iff] at he
    subst he
    have hself : prune [] t = t := prune_self (by simp)
    exact WP.pure ⟨by simp, hself.symm ▸ ht⟩
  next =>
    rw [forM_checkKey hv, pure_bind]
    refine WP.get (wp_onStore ?_)
    rw [← ht.root]
    refine (batchDeleteSubtree_prunes hE ht.valid.stored ht.valid.ordered ht.valid.nodup hs
      (fun _ _ => Iff.rfl) hr hf).mono fun r s' g => ?_
    have hroot : collapseRoot E r.newPid s' = .ok (layout.rootPid t) s' := by
      rw [g.pid]
      have := collapseRoot_eq hE g.stored (branches_prune ht.branches)
      rwa [rootPid_prune] at this
    refine WP.bind_ok (onStore_ok hroot) (WP.pure ⟨g.deleted, rootPid_prune t, ?_, branches_prune ht.branches⟩)
    refine ⟨g.stored, ordered_prune ht.valid.ordered, ?_⟩
    rw [pages_prune]
    exact ht.valid.nodup

end

/-! ## Batch and repeated deletion -/

/-- The batch returns the number of its keys that are in the map, and lookups and
scans answer then as they do after the deletions one by one. -/
def DeletesAlike (E : StorageEngine Stop σ Page) (fuel : Nat) (m : Map) (keys : List Bytes)
    (d : Handle σ) : Prop :=
  ∃ d₁ d₂ as, deleteManyIn E fuel keys d = .ok (keys.dedup.filter fun k => (m k).isSome).length d₁ ∧
    run E fuel (keys.map .delete) d = .ok as d₂ ∧
    (∀ key, answer (lookupIn E fuel d₁.rootPid key d₁.store) =
      answer (lookupIn E fuel d₂.rootPid key d₂.store)) ∧
    ∀ lo hi, ∃ n, ∀ fuel ≥ n, answer (rangeIn E fuel d₁.rootPid lo hi d₁.store) =
      answer (rangeIn E fuel d₂.rootPid lo hi d₂.store)

theorem specRun_delete (keys : List Bytes) (m : Map) :
    (specRun (keys.map .delete) m).2 = fun k => if k ∈ keys then none else m k := by
  induction keys generalizing m with
  | nil => rfl
  | cons k keys ih =>
    rw [map_cons, specRun, ih]
    funext k'
    by_cases hk : k' = k <;> simp [Cmd.spec, hk]

theorem runsWith_delete (keys : List Bytes) (d : Handle σ) :
    runsWith E (linkSafe E fuel) fuel (keys.map .delete) d := by
  induction keys generalizing d with
  | nil => rfl
  | cons k keys ih =>
    rw [map_cons, runsWith, linkSafe, Bool.true_and]
    split
    · exact ih _
    · rfl

/-- The entries with a listed key are as many as the listed keys in the map. -/
theorem countP_keys {m : Map} (hm : Holds t m) (ho : layout.Ordered I t) :
    (layout.entries t).countP (fun e => decide (e.1 ∈ keys)) =
      (keys.dedup.filter fun k => (m k).isSome).length := by
  rw [countP_eq_length_filter, ← length_map (f := Prod.fst)]
  refine ((perm_ext_iff_of_nodup ?_ (keys.nodup_dedup.filter _)).mpr fun k => ?_).length_eq
  · exact pairwise_map.mpr ((ho.sorted.filter _).imp ne_of_lt)
  simp only [mem_map, mem_filter, decide_eq_true_eq, mem_dedup, Option.isSome_iff_exists, hm k]
  constructor
  · rintro ⟨e, ⟨he, hk⟩, rfl⟩
    exact ⟨hk, e.2, he⟩
  · rintro ⟨hk, rid, he⟩
    exact ⟨(k, rid), ⟨he, hk⟩, rfl⟩

theorem holds_prune {m : Map} (hm : Holds t m) :
    Holds (prune keys t) fun k => if k ∈ keys then none else m k := by
  intro k rid
  rw [entries_prune, mem_filter, ← hm k rid]
  by_cases hk : k ∈ keys <;> simp [hk]

theorem linked_prune (hl : Linked Leaf.pid (fun l => l.node.nextLeaf) NULL_PAGE (leaves t)) :
    Linked Leaf.pid (fun l => l.node.nextLeaf) NULL_PAGE (leaves (prune keys t)) := by
  rw [leaves_prune]
  refine (SameLinks.of_forall₂ ?_ NULL_PAGE).2 hl
  exact forall₂_map_right_iff.mpr (forall₂_same.mpr fun _ _ => ⟨rfl, rfl⟩)

/-- In every tree reached by calls, a batch of keys that are not there does what its
deletions do one by one; and so does every batch by which no leaf gets underfull, where
the calls kept the chain of leaves. -/
theorem deleteManyIn_alike (hE : E.Lawful NULL_PAGE view)
    (hd : view d.store d.rootPid = some (.leaf emptyLeaf)) (cmds : List Cmd)
    (hc : ∀ c ∈ cmds, c.Valid) (keys : List Bytes) (hv : ∀ k ∈ keys, ValidKey k)
    (hs : keys.Pairwise (· ≤ ·)) (hf : cmds.length + keys.length < fuel) :
    ∃ d' h, ∃ t : Node h, run E fuel cmds d = .ok (specRun cmds fun _ => none).1 d' ∧
      IsTree view univ d' t ∧ ((∀ k ∈ keys, (specRun cmds fun _ => none).2 k = none) ∨
        Roomy keys true t ∧ runsWith E (linkSafe E fuel) fuel cmds d = true →
        DeletesAlike E fuel (specRun cmds fun _ => none).2 keys d') := by
  obtain ⟨d', e, h', hh, t', ht, hm, hl⟩ := reached hE hd cmds hc (show _ < fuel by omega)
  refine ⟨d', h', t', e, ht, fun hcond => ?_⟩
  rcases hcond with hnone | ⟨hroomy, hsafe⟩
  · have habsent : ∀ x ∈ layout.entries t', x.1 ∉ keys := fun x hx hin =>
      hm.none_iff.mp (hnone x.1 hin) x hx rfl
    obtain ⟨as, e₂⟩ := run_delete_absent hE ht hv habsent (show h' < fuel by omega)
    have hzero : (keys.dedup.filter fun k => ((specRun cmds fun _ => none).2 k).isSome).length = 0 := by
      rw [← countP_keys hm ht.valid.ordered, countP_eq_zero]
      exact fun x hx => by simpa using habsent x hx
    exact ⟨d', d', as, hzero ▸ deleteManyIn_absent hE ht hv habsent (by omega) hs, e₂, fun _ => rfl,
      fun _ _ => ⟨0, fun _ _ => rfl⟩⟩
  obtain ⟨n, d₁, e₁, rfl, ht₁⟩ := deleteManyIn_prunes hE ht hv hs hroomy (show h' < fuel by omega)
  obtain ⟨d₂, e₂, h₂, hh₂, t₂, ht₂, hm₂, hl₂⟩ := run_spec hE
    (P := fun _ t => Linked Leaf.pid (fun l => l.node.nextLeaf) NULL_PAGE (leaves t))
    (fun ht hk hf hok st hl => st.linked hE ht hk hf hok hl) (runsWith_delete keys d') ht hm (hl hsafe)
    (fun c hc => by
      obtain ⟨k, hk, rfl⟩ := mem_map.mp hc
      exact ⟨hv k hk, mem_univ _⟩)
    (show _ < fuel by rw [length_map]; omega)
  rw [length_map] at hh₂
  have hsame (x : Bytes × RecordId) : x ∈ layout.entries (prune keys t') ↔ x ∈ layout.entries t₂ := by
    rw [← hm₂ x.1 x.2, specRun_delete, ← holds_prune hm x.1 x.2]
  rw [countP_keys hm ht.valid.ordered] at e₁
  exact ⟨d₁, d₂, _, e₁, e₂, lookupIn_same hE ht₁ ht₂ hsame (by omega) (by omega),
    rangeIn_same hE ht₁ ht₂ hsame (linked_prune (hl hsafe)) hl₂⟩

/-- A root over leaves that stay full enough. -/
theorem roomy_of_leaves {node : InternalNodePage} (hst : layout.Stored H t)
    (hroot : H (layout.rootPid t) = some (.internal node))
    (hleaves : ∀ p ∈ node.children, ∃ n, H p = some (.leaf n) ∧
      MIN_KEYS_LEAF ≤ (n.slots.filter fun e => decide (e.1 ∉ keys)).length) : Roomy keys true t := by
  cases h with
  | zero => cases (show H _ = some (.leaf _) from hst).symm.trans hroot
  | succ h =>
    obtain ⟨hpage, hch, hkids⟩ := hst
    cases hpage.symm.trans hroot
    refine ⟨.inl rfl, fun c hc => ?_⟩
    obtain ⟨n, hn, hmin⟩ := hleaves (layout.rootPid c) (by
      rw [← layout_children, hch]
      exact mem_map_of_mem hc)
    cases h with
    | zero =>
      cases (show H _ = some (.leaf _) from hkids c hc).symm.trans hn
      exact .inr (.inr hmin)
    | succ h => cases (hkids c hc).1.symm.trans hn

/-- Calls that leave a root with two leaves of 109 keys. -/
def fullLeaves : List Cmd := (List.range 218).map fun i => .insert [Fin.ofNat 256 i] ⟨i, 0⟩ 100

/-- The children of the root are leaves that keep at least `MIN_KEYS_LEAF` keys. -/
def leavesStayFull (keys : List Bytes) (d : Handle (Mem Page NULL_PAGE)) : Bool :=
  match d.store.pages d.rootPid with
  | some (.internal node) => node.children.all fun p =>
    match d.store.pages p with
    | some (.leaf n) => MIN_KEYS_LEAF ≤ (n.slots.filter fun e => decide (e.1 ∉ keys)).length
    | _ => false
  | _ => false

/-- A key of each leaf is deleted, one of them listed twice, and a key that is not there. -/
theorem deleteManyIn_alike_memory : ∃ d', run memory 223 fullLeaves emptyIndex =
      .ok (specRun fullLeaves fun _ => none).1 d' ∧
    DeletesAlike memory 223 (specRun fullLeaves fun _ => none).2 [[5], [5], [150], [250]] d' := by
  have hvalid : ∀ c ∈ fullLeaves, c.Valid := by
    intro c hc
    obtain ⟨i, -, rfl⟩ := mem_map.mp hc
    simp [Cmd.Valid, ValidKey, MAX_KEY_LEN]
  obtain ⟨d', h, t, e, ht, ha⟩ := deleteManyIn_alike memory_lawful emptyIndex_root fullLeaves hvalid
    [[5], [5], [150], [250]] (by simp [ValidKey, MAX_KEY_LEN]) (by decide)
    (show _ < 223 by simp [fullLeaves])
  refine ⟨d', e, ha (.inr ⟨?_, by decide +kernel⟩)⟩
  have hd : d' = endState (run memory 223 fullLeaves emptyIndex) := by
    rw [e, endState]
  have hfull : leavesStayFull [[5], [5], [150], [250]] d' = true := by
    rw [hd]
    decide +kernel
  rw [leavesStayFull, ← ht.root] at hfull
  split at hfull
  next node hroot =>
    refine roomy_of_leaves ht.valid.stored hroot fun p hp => ?_
    have hp := all_eq_true.mp hfull p hp
    split at hp
    next n hn => exact ⟨n, hn, of_decide_eq_true hp⟩
    next => cases hp
  next => cases hfull

/-- Calls that leave a root with two leaves, of 109 and 12 keys. -/
def twoLeaves : List Cmd :=
  ((List.range 23).map fun i => .insert [Fin.ofNat 256 (200 + i)] ⟨i, 0⟩ 10) ++
    (List.range 98).map fun i => .insert [Fin.ofNat 256 i] ⟨i, 1⟩ 100

/-- The index after them. -/
def twoLeafIndex : Handle (Mem Page NULL_PAGE) := endState (run memory 122 twoLeaves emptyIndex)

/-- The batch of one key of the second leaf, which has 11 keys then and is moved to a
new page. It takes a key from the first leaf, which still points at the old page: a
scan fails there, and does not after the deletion of the key by itself. -/
theorem deleteManyIn_loses_link : answer (deleteManyIn memory 124 [[211]] twoLeafIndex) = .ok 1 ∧
      answer (rangeIn memory 124 (endState (deleteManyIn memory 124 [[211]] twoLeafIndex)).rootPid
        (some [209]) none (endState (deleteManyIn memory 124 [[211]] twoLeafIndex)).store) =
        .error (.err (.pageNotFound 2)) ∧
      (answer (rangeIn memory 124 (endState (deleteIn memory 124 [211] twoLeafIndex)).rootPid
        (some [209]) (some [212]) (endState (deleteIn memory 124 [211] twoLeafIndex)).store)) =
        .ok [(⟨9, 0⟩, [209]), (⟨10, 0⟩, [210]), (⟨12, 0⟩, [212])] := by
  decide +kernel

end BTree

end AxiomDb.Index
