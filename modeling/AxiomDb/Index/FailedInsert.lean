import AxiomDb.Index.LeafChain
import AxiomDb.Lib.FailingStore

/-!
# Insertions that run out of pages

`insert_in` on a store of which an allocation fails. A leaf is split before anything
else: if one of the two allocations of that split fails, no page of the tree has been
written. With the third one the old leaf is already freed, and its parent, or the
root of the index, still points at it (`insertIn_failing`).
-/

namespace AxiomDb.Index

open Lib Lib.Probe Set List LeafNodePage

variable {σ α : Type} {E : StorageEngine Stop σ Page} {full : Stop} {view : σ → Heap Page} {s : Probe σ}
  {h fuel ff : Nat} {I J : Set Bytes} {t : Node h} {key : Bytes} {rid : RecordId} {A B : List Leaf}
  {l : Leaf} {q : PageId}

namespace BTree

/-! ## What is freed stays noted -/

theorem noted_checked (o : Option α) : KeepsNoted q (checked o : EStateM Stop (Probe σ) α) := by
  cases o with
  | none => exact .throw _
  | some a => exact .pure a

variable {sep : Bytes} {node : InternalNodePage} {idx : Nat} {left pid right : PageId}

theorem descendRightmostLeaf_noted :
    KeepsNoted q (descendRightmostLeaf (failing E full) fuel pid) := by
  induction fuel generalizing pid with
  | zero => exact .throw _
  | succ fuel ih =>
    refine .bind .lift fun page => ?_
    cases page with
    | leaf _ => exact .pure _
    | internal node => exact ih

theorem updatePredecessorNextLeaf_noted {parent : InternalNodePage} :
    KeepsNoted q (updatePredecessorNextLeaf (failing E full) fuel parent idx pid) := by
  refine .bind (descendRightmostLeaf_noted) fun pred => .bind .lift fun page => ?_
  cases page with
  | leaf leaf => exact .lift
  | internal _ => exact .throw _

theorem splitInternalBatched_noted :
    KeepsNoted q (splitInternalBatched (failing E full) pid node idx sep right) := by
  refine .bind .alloc fun _ => .bind .alloc fun _ => .bind (noted_checked _) fun _ => .bind .lift fun _ => ?_
  exact .bind (noted_checked _) fun _ => .bind .lift fun _ => .bind .free fun _ => .pure _

theorem allocRootBatched_noted : KeepsNoted q (allocRootBatched (failing E full) sep left right) :=
  .bind .alloc fun _ => .bind (noted_checked _) fun _ => .bind .lift fun _ => .pure _

theorem absorbSplit_noted :
    KeepsNoted q (absorbSplit (failing E full) pid node idx left right sep) := by
  rw [absorbSplit]
  split
  · exact .bind (noted_checked _) fun _ => .bind (.bind .lift fun _ => .pure _) fun _ => .pure _
  · exact splitInternalBatched_noted

theorem absorbChild_noted {child : PageId} {result : InsertResult} :
    KeepsNoted q (absorbChild (failing E full) fuel pid node idx child result) := by
  cases result with
  | ok new =>
    rw [absorbChild]
    split
    · exact .pure _
    · exact .bind (.bind .lift fun _ => .pure _) fun _ => .pure _
  | split left right sep leafSplit =>
    rw [absorbChild]
    split
    · exact .bind (updatePredecessorNextLeaf_noted) fun _ => absorbSplit_noted
    · exact absorbSplit_noted

/-! ## The split of the leaf comes first -/

section

variable (hE : E.Lawful NULL_PAGE view)
include hE

theorem insertLeafBatched_failing
    (hl : layout.Valid (h := 0) (view s.store) I l) (hm : ∀ e ∈ l.node.slots, e.1 ≠ key) :
    TwoThenFree view full l.pid s (insertLeafBatched (failing E full) l.pid l.node key rid) := by
  obtain ⟨a, b, e, -, -, hsearch⟩ := search_missing (ordered_leaf.mp hl.ordered).1 hm
  have hfits := l.node.fits
  have hpos : 0 < ORDER_LEAF := by decide
  have htotal : (l.node.slots.take a.length ++ (key, rid) :: l.node.slots.drop a.length).length =
      l.node.numKeys + 1 := by
    simp only [e, numKeys, take_left, drop_left, length_append, length_cons]
    omega
  simp only [insertLeafBatched, hsearch]
  generalize l.node.slots.take a.length ++ (key, rid) :: l.node.slots.drop a.length = all at htotal
  refine TwoThenFree.of_allocs hE fun p1 p2 s' h1 h2 => ?_
  have hleft : (all.take ((l.node.numKeys + 1) / 2)).length ≤ ORDER_LEAF := by
    rw [numKeys] at *
    simp
    omega
  have hright : (all.drop ((l.node.numKeys + 1) / 2)).length ≤ ORDER_LEAF := by
    rw [numKeys] at *
    simp
    omega
  rw [ofArrays_eq hleft, ofArrays_eq hright]
  obtain ⟨s3, e3, hv3⟩ := hE.write (.leaf ⟨all.take ((l.node.numKeys + 1) / 2), p2, hleft⟩) h1
  have hp2 : view s3 p2 ≠ none := by
    rw [hv3]
    by_cases h : p2 = p1
    · simp [h]
    · simpa [h] using h2
  obtain ⟨s4, e4, -⟩ := hE.write (.leaf ⟨all.drop ((l.node.numKeys + 1) / 2), l.node.nextLeaf, hright⟩) hp2
  refine Always.bind_ok rfl (Always.bind_ok (lift_ok e3) (Always.bind_ok rfl ?_))
  refine Always.bind_ok (lift_ok (s := { s' with store := s3 }) e4) ?_
  exact Always.bind noted_free fun _ _ hq => Always.pure hq

theorem childIsSafeForInsert_failing (ht : layout.Stored (view s.store) t) :
    ∃ safe, childIsSafeForInsert (failing E full) (layout.rootPid t) ff s = .ok safe s := by
  cases h with
  | zero => exact ⟨_, bind_ok (read_ok hE ht)⟩
  | succ h => exact ⟨_, bind_ok (read_ok hE ht.1)⟩

section

variable (ht : layout.Valid (view s.store) I t) (f : layout.Focus key I t A l B J) (hm : ∀ e ∈ l.node.slots, e.1 ≠ key) (hge : fillThreshold ORDER_LEAF ff ≤ l.node.numKeys) (hf : h < fuel)
include ht f hm hge hf

theorem insertSubtreeBatched_failing : TwoThenFree view full l.pid s
      (insertSubtreeBatched (failing E full) fuel (layout.rootPid t) key rid ff) := by
  induction h generalizing I A B fuel with
  | zero =>
    obtain _ | fuel := fuel
    · omega
    obtain ⟨-, -, rfl, rfl⟩ := f
    obtain ⟨a, b, -, -, -, hsearch⟩ := search_missing (ordered_leaf.mp ht.ordered).1 hm
    refine TwoThenFree.after (read_ok hE ht.stored) ?_
    simp only [hsearch, if_neg (Nat.not_lt.mpr hge)]
    exact insertLeafBatched_failing hE ht hm
  | succ h ih =>
    obtain _ | fuel := fuel
    · omega
    obtain ⟨s1, s2, c1, c, c2, I', A', B', rt, f, -, -⟩ := f
    have hc : c ∈ t.kids := by simp [rt.kids]
    have hchild := ih (ht.kid hc rt.child) f (show h < fuel by omega)
    obtain ⟨safe, hsafe⟩ : ∃ safe, childIsSafeForInsert (failing E full) (layout.rootPid c) ff s = .ok safe s :=
      childIsSafeForInsert_failing hE (ht.kid_stored hc)
    refine TwoThenFree.after (read_ok hE ht.page) ?_
    simp only [layout_branchPage, Route.findChildIdx rt, Route.childAt rt ht]
    refine TwoThenFree.after hsafe ?_
    split
    · exact hchild.bind fun _ => .pure _
    · exact hchild.bind fun _ => absorbChild_noted

theorem insertRoot_failing :
    TwoThenFree view full l.pid s (insertRoot (failing E full) fuel (layout.rootPid t) key rid ff) := by
  refine (insertSubtreeBatched_failing hE ht f hm hge hf).bind fun result => ?_
  cases result with
  | ok _ => exact .pure _
  | split _ _ _ _ => exact allocRootBatched_noted

end

end

/-! ## The fast path allocates no page -/

theorem lift_checked (o : Option α) : lift (checked o) = (checked o : EStateM Stop (Probe σ) α) := by
  cases o <;> rfl

theorem findLeafForIn_failing (pid : PageId) :
    findLeafForIn (failing E full) fuel pid key = lift (findLeafForIn E fuel pid key) := by
  induction fuel generalizing pid with
  | zero => rfl
  | succ fuel ih =>
    rw [findLeafForIn, findLeafForIn, lift_bind]
    refine congrArg _ (funext fun page => ?_)
    cases page with
    | leaf _ => rfl
    | internal node => exact ih _

theorem tryInsertLeafOptimistically_failing (pid : PageId) :
    tryInsertLeafOptimistically (failing E full) fuel pid key rid ff =
      lift (tryInsertLeafOptimistically E fuel pid key rid ff) := by
  rw [tryInsertLeafOptimistically, tryInsertLeafOptimistically, lift_bind, findLeafForIn_failing]
  refine congrArg _ (funext fun leafPid => ?_)
  rw [lift_bind]
  refine congrArg _ (funext fun page => ?_)
  cases page with
  | internal _ => rfl
  | leaf leaf =>
    cases hs : leaf.search key with
    | ok _ => simp only [hs]; rfl
    | error insertPos =>
      simp only [hs]
      split
      · rw [lift_bind, lift_checked]
        refine congrArg _ (funext fun leaf' => ?_)
        rw [lift_bind]
        rfl
      · rfl

end BTree

/-! ## The tree after a failed insertion -/

/-- The handle, with `k` allocations until the store is full. -/
def Handle.withAllocs (d : Handle σ) (k : Nat) : Handle (Probe σ) := ⟨⟨d.store, k, false, []⟩, d.rootPid⟩

/-- The pages reached from `root` through the children of internal pages. -/
inductive Reachable (H : Heap Page) (root : PageId) : PageId → Prop
  | root : Reachable H root root
  | child {p c : PageId} {node : InternalNodePage} : Reachable H root p →
    H p = some (.internal node) → c ∈ node.children → Reachable H root c

theorem reachable_pages {H : Heap Page} {root : PageId} (ht : layout.Stored H t)
    (hr : Reachable H root (layout.rootPid t)) (hq : q ∈ layout.pages t) : Reachable H root q := by
  induction h with
  | zero => exact mem_singleton.mp hq ▸ hr
  | succ h ih =>
    obtain ⟨hb, hch, hkids⟩ := ht
    rcases mem_cons.mp hq with rfl | hq
    · exact hr
    obtain ⟨c, hc, hq⟩ := mem_flatMap.mp hq
    refine ih (hkids c hc) (.child hr hb ?_) hq
    rw [← layout_children, hch]
    exact mem_map_of_mem hc

namespace BTree

/-- An insertion into the tree of `d` that ended in `r` failed and left the tree as it was. -/
structure Unharmed (E : StorageEngine Stop σ Page) (view : σ → Heap Page) (fuel : Nat) (d : Handle σ)
    (r : EStateM.Result Stop (Handle (Probe σ)) Unit) : Prop where
  failed : ∃ e, answer r = .error e
  root : (endState r).rootPid = d.rootPid
  lookups (key : Bytes) : answer (lookupIn E fuel d.rootPid key (endState r).store.store) =
    answer (lookupIn E fuel d.rootPid key d.store)
  ranges (lo hi : Option Bytes) : ∃ n, ∀ fuel ≥ n,
    answer (rangeIn E fuel d.rootPid lo hi (endState r).store.store) =
      answer (rangeIn E fuel d.rootPid lo hi d.store)
  freed (p : PageId) : Reachable (view d.store) d.rootPid p → p ∉ (endState r).store.freed

/-- A leaf with room: the fast path ends the insertion. -/
theorem tryInsertLeafOptimistically_ends {s : σ} (hE : E.Lawful NULL_PAGE view)
    (ht : layout.Valid (view s) I t) (f : layout.Focus key I t A l B J) (hk : key ∈ I)
    (hf : h < fuel) (rid : RecordId) (hm : ∀ e ∈ layout.entries t, e.1 ≠ key)
    (hlt : l.node.numKeys < fillThreshold ORDER_LEAF ff) :
    ∃ s', tryInsertLeafOptimistically E fuel (layout.rootPid t) key rid ff s = .ok (.done ()) s' ∨
      ∃ e, tryInsertLeafOptimistically E fuel (layout.rootPid t) key rid ff s = .error e s' := by
  have hl := leaf_valid ht f
  obtain ⟨-, a, b, -, -, -, hsearch⟩ := search_leaf_missing ht f hk hm
  rw [tryInsertLeafOptimistically, bind_ok (findLeafForIn_eq hE ht f hf), bind_ok (hE.read hl.stored)]
  simp only [hsearch, if_pos hlt]
  cases l.node.insertAt a.length key rid with
  | none => exact ⟨s, .inr ⟨.panic, rfl⟩⟩
  | some node =>
    obtain ⟨s', e, -⟩ := hE.write (.leaf node) (hl.stored.live (mem_singleton_self _))
    exact ⟨s', .inl ((bind_ok rfl).trans (bind_ok e))⟩

variable {d : Handle σ} {k : Nat}

/-- The slow path of an insertion of which an allocation fails has been reached, with
the leaf for the key full. -/
theorem insertIn_failing (hE : E.Lawful NULL_PAGE view) (ht : IsTree view univ d t) (hf : h < fuel)
    (hfail : (endState (insertIn (failing E full) fuel key rid ff (d.withAllocs k))).store.failed) :
    ∃ q ∈ layout.pages t, ∃ x : EStateM Stop (Probe σ) PageId,
      TwoThenFree view full q (d.withAllocs k).store x ∧
      insertIn (failing E full) fuel key rid ff (d.withAllocs k) =
        (onStore x >>= fun root => modify fun d => { d with rootPid := root }) (d.withAllocs k) := by
  by_cases hv : ValidKey key
  swap
  · have he : checkKey (σ := Handle (Probe σ)) key = throw (.err (.keyTooLong key.length MAX_KEY_LEN)) := by
      rw [checkKey, if_pos]
      simpa [ValidKey, Decidable.or_iff_not_imp_left] using hv
    rw [insertIn, he] at hfail
    cases hfail
  obtain _ | fuel := fuel
  · omega
  obtain ⟨A, l, B, J, f⟩ := ht.valid.ordered.focus (mem_univ key)
  have hq : l.pid ∈ layout.pages t := (Layout.leafPages_sublist t).subset
    (mem_flatMap.mpr ⟨l, by simp [f.leaves_eq], mem_singleton_self _⟩)
  have hloop : insertIn (failing E full) (fuel + 1) key rid ff (d.withAllocs k) =
      insertLoop (failing E full) (fuel + 1) key rid ff (fuel + 1) (d.withAllocs k) := by
    rw [insertIn, checkKey_eq hv, pure_bind]
  have hget : (get : EStateM Stop (Handle (Probe σ)) _) (d.withAllocs k) = .ok (d.withAllocs k) _ := rfl
  have hroot : (d.withAllocs k).rootPid = layout.rootPid t := ht.root.symm
  rw [insertLoop, bind_ok hget] at hloop
  simp only [hroot, tryInsertLeafOptimistically_failing] at hloop
  by_cases hm : ∃ e ∈ layout.entries t, e.1 = key
  · have he := tryInsertLeafOptimistically_duplicate hE ht.valid f (mem_univ key) hf rid ff hm
    rw [hloop, bind_error (onStore_error (lift_error he))] at hfail
    cases hfail
  push Not at hm
  by_cases hge : fillThreshold ORDER_LEAF ff ≤ l.node.numKeys
  · have he : tryInsertLeafOptimistically E (fuel + 1) (layout.rootPid t) key rid ff d.store = _ :=
      tryInsertLeafOptimistically_full hE ht.valid f (mem_univ key) hf hm hge
    refine ⟨l.pid, hq, insertRoot (failing E full) (fuel + 1) (layout.rootPid t) key rid ff,
      insertRoot_failing hE ht.valid f
        (search_leaf_missing ht.valid f (mem_univ key) hm).1 hge hf, ?_⟩
    rw [hloop, bind_ok (onStore_ok (lift_ok he))]
    rfl
  · obtain ⟨s', he | ⟨e, he⟩⟩ := tryInsertLeafOptimistically_ends hE ht.valid f (mem_univ key) hf rid hm
      (Nat.lt_of_not_le hge)
    · rw [hloop, bind_ok (onStore_ok (lift_ok he))] at hfail
      cases hfail
    · rw [hloop, bind_error (onStore_error (lift_error he))] at hfail
      cases hfail

/-- A page that was not allocated is none of the tree's. -/
theorem IsTree.alloc {p : PageId} {v : Page} {s : σ} (ht : IsTree view I d t) (hp : view d.store p = none)
    (hs : view s = Function.update (view d.store) p (some v)) : IsTree view I ⟨s, d.rootPid⟩ t := by
  refine ⟨ht.root, ⟨ht.valid.stored.congr fun p' hp' => ?_, ht.valid.ordered, ht.valid.nodup⟩, ht.branches⟩
  have hne : p' ≠ p := fun h => ht.valid.stored.live hp' (h ▸ hp)
  rw [hs, Function.update_of_ne hne]

variable {d' : Handle σ} {h' : Nat} {t' : Node h'}

theorem lookupIn_same (hE : E.Lawful NULL_PAGE view) (ht : IsTree view univ d t)
    (ht' : IsTree view univ d' t') (hsame : ∀ e, e ∈ layout.entries t ↔ e ∈ layout.entries t')
    (hf : h < fuel) (hf' : h' < fuel) (key : Bytes) :
    answer (lookupIn E fuel d.rootPid key d.store) = answer (lookupIn E fuel d'.rootPid key d'.store) := by
  by_cases hv : ValidKey key
  · obtain ⟨r, e, hr⟩ := lookupIn_eq hE ht hv (mem_univ _) hf
    obtain ⟨r', e', hr'⟩ := lookupIn_eq hE ht' hv (mem_univ _) hf'
    have hrr : r = r' := Option.ext fun rid => (hr rid).trans ((hsame _).trans (hr' rid).symm)
    rw [e, e', hrr]
    rfl
  · rw [lookupIn, lookupIn, checkKey, if_pos]
    · rfl
    · simpa [ValidKey, Decidable.or_iff_not_imp_left] using hv

/-- Scans of two trees with the same entries and their leaves linked in order. -/
theorem rangeIn_same (hE : E.Lawful NULL_PAGE view) (ht : IsTree view univ d t)
    (ht' : IsTree view univ d' t') (hsame : ∀ e, e ∈ layout.entries t ↔ e ∈ layout.entries t')
    (hl : Linked Leaf.pid (fun l => l.node.nextLeaf) NULL_PAGE (Layout.leaves t))
    (hl' : Linked Leaf.pid (fun l => l.node.nextLeaf) NULL_PAGE (Layout.leaves t'))
    (lo hi : Option Bytes) : ∃ n, ∀ fuel ≥ n, answer (rangeIn E fuel d.rootPid lo hi d.store) =
      answer (rangeIn E fuel d'.rootPid lo hi d'.store) := by
  have hs := ht.valid.ordered.sorted
  have hs' := ht'.valid.ordered.sorted
  have hnd : (layout.entries t).Nodup := hs.imp fun hlt he => ne_of_lt hlt (congrArg _ he)
  have hnd' : (layout.entries t').Nodup := hs'.imp fun hlt he => ne_of_lt hlt (congrArg _ he)
  have hperm := (perm_ext_iff_of_nodup hnd hnd').mpr hsame
  have he : layout.entries t = layout.entries t' :=
    hperm.eq_of_pairwise (fun a b _ _ hab hba => absurd hab (lt_asymm hba)) hs hs'
  refine ⟨h + ((Layout.leaves t).map fun l => l.node.numKeys + 1).sum +
    (h' + ((Layout.leaves t').map fun l => l.node.numKeys + 1).sum) + 1, fun n hn => ?_⟩
  rw [rangeIn_eq hE ht (ht.chain hl) lo hi (by omega), rangeIn_eq hE ht' (ht'.chain hl') lo hi (by omega), he]
  rfl

/-- An insertion into a tree reached by calls of which an allocation fails leaves the
tree as it was if it is the first one, and if it is the second one and the leaves are
linked in order; if it is a later one, a page of the tree is freed. -/
theorem failed_insertIn_unharmed (hE : E.Lawful NULL_PAGE view)
    (hd : view d.store d.rootPid = some (.leaf emptyLeaf)) (cmds : List Cmd)
    (hc : ∀ c ∈ cmds, c.Valid) (hf : cmds.length < fuel) (key : Bytes) (rid : RecordId) (ff : Nat)
    (full : Stop) (k : Nat) : ∃ d', run E fuel cmds d = .ok (specRun cmds fun _ => none).1 d' ∧
      ((endState (insertIn (failing E full) fuel key rid ff (d'.withAllocs k))).store.failed = true →
        (k = 0 ∨ k = 1 ∧ runsWith E (linkSafe E fuel) fuel cmds d = true →
          Unharmed E view fuel d' (insertIn (failing E full) fuel key rid ff (d'.withAllocs k))) ∧
        (2 ≤ k →
          ¬ Unharmed E view fuel d' (insertIn (failing E full) fuel key rid ff (d'.withAllocs k)))) := by
  obtain ⟨d', e, h', hh, t', ht, -, hl⟩ := reached hE hd cmds hc hf
  have hh' : h' < fuel := by omega
  refine ⟨d', e, fun hfail => ?_⟩
  obtain ⟨q, hq, x, hx, er⟩ := insertIn_failing hE ht hh' hfail
  refine ⟨fun hk => ?_, fun hk hu => ?_⟩
  · rcases hk with rfl | ⟨rfl, hsafe⟩
    · rw [er, bind_error (onStore_error (hx.first rfl))]
      exact ⟨⟨_, rfl⟩, rfl, fun _ => rfl, fun _ _ => ⟨0, fun _ _ => rfl⟩, fun _ _ => not_mem_nil⟩
    obtain ⟨p, v, s', hp, hs', e'⟩ := hx.second rfl
    have ht' := IsTree.alloc ht hp hs'
    rw [er, bind_error (onStore_error e')]
    exact ⟨⟨_, rfl⟩, rfl, lookupIn_same hE ht' ht (fun _ => Iff.rfl) hh' hh',
      rangeIn_same hE ht' ht (fun _ => Iff.rfl) (hl hsafe) (hl hsafe), fun _ _ => not_mem_nil⟩
  refine hu.freed q (reachable_pages ht.valid.stored (ht.root ▸ .root) hq) ?_
  have hn : Noted q (endState (x (d'.withAllocs k).store)) := hx.later hk
  rw [er]
  cases ex : x (d'.withAllocs k).store with
  | ok root s' =>
    rw [ex] at hn
    rw [bind_ok (onStore_ok ex)]
    exact hn
  | error z s' =>
    rw [ex] at hn
    rw [bind_error (onStore_error ex)]
    exact hn

/-- Calls that fill the root, a leaf, up to a fillfactor of 10. -/
def fillRoot : List Cmd := (List.range 22).map fun i => .insert [Fin.ofNat 256 i] ⟨i, 0⟩ 10

/-- An error of the page store. -/
def allocError : Stop := .err (.heapPageFull 2 16384 0)

/-- The insertion of one more key, with `k` pages left. -/
def insertAfterFill (k : Nat) : EStateM.Result Stop (Handle (Probe (Mem Page NULL_PAGE))) Unit :=
  insertIn (failing memory allocError) 23 [22] ⟨22, 0⟩ 10
    ((endState (run memory 23 fillRoot emptyIndex)).withAllocs k)

theorem failed_insertIn_unharmed_memory :
    Unharmed memory Mem.pages 23 (endState (run memory 23 fillRoot emptyIndex)) (insertAfterFill 1) ∧
      ¬ Unharmed memory Mem.pages 23 (endState (run memory 23 fillRoot emptyIndex)) (insertAfterFill 2) := by
  have hc : ∀ c ∈ fillRoot, c.Valid := by
    simp [fillRoot, Cmd.Valid, ValidKey, MAX_KEY_LEN]
  obtain ⟨d₁, e₁, h₁⟩ := failed_insertIn_unharmed memory_lawful emptyIndex_root fillRoot hc
    (show _ < 23 by decide) [22] ⟨22, 0⟩ 10 allocError 1
  obtain ⟨d₂, e₂, h₂⟩ := failed_insertIn_unharmed memory_lawful emptyIndex_root fillRoot hc
    (show _ < 23 by decide) [22] ⟨22, 0⟩ 10 allocError 2
  have hd₁ : d₁ = endState (run memory 23 fillRoot emptyIndex) := by rw [e₁, endState]
  have hd₂ : d₂ = endState (run memory 23 fillRoot emptyIndex) := by rw [e₂, endState]
  rw [hd₁, ← insertAfterFill] at h₁
  rw [hd₂, ← insertAfterFill] at h₂
  have hf₁ : (endState (insertAfterFill 1)).store.failed = true := by decide +kernel
  have hf₂ : (endState (insertAfterFill 2)).store.failed = true := by decide +kernel
  exact ⟨(h₁ hf₁).1 (.inr ⟨rfl, by decide +kernel⟩), (h₂ hf₂).2 le_rfl⟩

/-- The root of the index is a full leaf. Its split takes the two pages that are left,
and with the page for the new root the insertion fails: the old root is freed, and
a key that was there is not found any more. -/
theorem failed_insertIn_frees_root :
    answer (insertAfterFill 2) = .error allocError ∧ (endState (insertAfterFill 2)).store.failed = true ∧
      (endState (insertAfterFill 2)).rootPid = 0 ∧ (endState (insertAfterFill 2)).store.freed = [0] ∧
      answer (lookupIn memory 23 0 [1] (endState (run memory 23 fillRoot emptyIndex)).store) =
        .ok (some ⟨1, 0⟩) ∧
      answer (lookupIn memory 23 0 [1] (endState (insertAfterFill 2)).store.store) =
        .error (.err (.pageNotFound 0)) := by
  decide +kernel

end BTree

end AxiomDb.Index
