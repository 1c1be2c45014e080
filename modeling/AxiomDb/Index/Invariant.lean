import AxiomDb.Index.TreeRange
import AxiomDb.Lib.PagedTree

/-!
# Index pages as a search tree

The layout of the index tree: a leaf is one page, whose slots are its entries,
and an internal node's keys are the separators of its children. What the two
binary searches find on a page of a tree in order, and where that leads: to the
leaf in `Focus`, and for a lookup to the record id of the tree's entry.
-/

namespace AxiomDb.Index

open Lib Set LeafNodePage List WP

/-! ## Nodes -/

namespace InternalNodePage

variable {node : InternalNodePage}

theorem ofArrays_eq {keys : List Bytes} {children : List PageId}
    (hk : keys.length ≤ ORDER_INTERNAL) (hc : children.length = keys.length + 1) :
    ofArrays keys children = some ⟨keys, children, hk, hc⟩ :=
  dif_pos ⟨hk, hc⟩

theorem childAt_append {a b : List PageId} {p : PageId} (h : node.children = a ++ p :: b) :
    node.childAt a.length = p := by
  simp [childAt, h]

theorem keyAt_append {a b : List Bytes} {k : Bytes} (h : node.keys = a ++ k :: b) :
    node.keyAt a.length = k := by
  simp [keyAt, h]

theorem findChildIdx_append {s1 s2 : List Bytes} {key : Bytes} (h : node.keys = s1 ++ s2)
    (hle : ∀ s ∈ s1, s ≤ key) (hlt : ∀ s ∈ s2, key < s) : node.findChildIdx key = s1.length := by
  have := partitionPoint_append (a := s1) (b := s2) (d := []) (q := fun s => decide (s ≤ key))
    (fun s hs => by simpa using hle s hs) (fun s hs => by simpa using hlt s hs)
  simpa [findChildIdx, numKeys, keyAt, h] using this

end InternalNodePage

namespace LeafNodePage

variable {node : LeafNodePage} {a b : List (Bytes × RecordId)} {rid : RecordId}

/-- The slots are in order of their keys. -/
def Sorted (node : LeafNodePage) : Prop := node.slots.Pairwise fun a b => a.1 < b.1

theorem ofArrays_eq {slots : List (Bytes × RecordId)} {next : PageId}
    (h : slots.length ≤ ORDER_LEAF) : ofArrays slots next = some ⟨slots, next, h⟩ :=
  dif_pos h

theorem search_append_cons {key : Bytes}
    (h : node.slots = a ++ (key, rid) :: b) (ha : ∀ e ∈ a, e.1 < key) (hb : ∀ e ∈ b, key < e.1) :
    node.search key = .ok a.length := by
  have := binarySearch_append_cons (a := a) (b := b) (d := default) (x := (key, rid))
    (c := fun e => cmp e.1 key) (fun e he => Bytes.cmp_lt (ha e he)) Bytes.cmp_self
    (fun e he => Bytes.cmp_gt (hb e he))
  simpa [search, numKeys, keyAt, h] using this

theorem search_append {key : Bytes} (h : node.slots = a ++ b)
    (ha : ∀ e ∈ a, e.1 < key) (hb : ∀ e ∈ b, key < e.1) : node.search key = .error a.length := by
  have := binarySearch_append (a := a) (b := b) (d := default) (c := fun e => cmp e.1 key)
    (fun e he => Bytes.cmp_lt (ha e he)) (fun e he => Bytes.cmp_gt (hb e he))
  simpa [search, numKeys, keyAt, h] using this

theorem search_found (hs : node.Sorted) {key : Bytes}
    (hm : (key, rid) ∈ node.slots) : ∃ a b, node.slots = a ++ (key, rid) :: b ∧
      (∀ e ∈ a, e.1 < key) ∧ (∀ e ∈ b, key < e.1) ∧ node.search key = .ok a.length := by
  rcases exists_split_of_sorted hs key with ⟨a, ⟨k, r⟩, b, e, rfl, ha, hb⟩ | ⟨a, b, e, ha, hb⟩
  · have hr : rid = r := by
      rw [e, mem_append, mem_cons] at hm
      rcases hm with hm | hm | hm
      · exact absurd (ha _ hm) (lt_irrefl _)
      · exact (Prod.mk.inj hm).2
      · exact absurd (hb _ hm) (lt_irrefl _)
    subst hr
    exact ⟨a, b, e, ha, hb, search_append_cons e ha hb⟩
  · rw [e, mem_append] at hm
    rcases hm with hm | hm
    · exact absurd (ha _ hm) (lt_irrefl _)
    · exact absurd (hb _ hm) (lt_irrefl _)

theorem search_missing (hs : node.Sorted) {key : Bytes} (hm : ∀ e ∈ node.slots, e.1 ≠ key) :
    ∃ a b, node.slots = a ++ b ∧ (∀ e ∈ a, e.1 < key) ∧ (∀ e ∈ b, key < e.1) ∧
      node.search key = .error a.length := by
  rcases exists_split_of_sorted hs key with ⟨a, x, b, e, hx, -, -⟩ | ⟨a, b, e, ha, hb⟩
  · exact absurd hx (hm x (by simp [e]))
  · exact ⟨a, b, e, ha, hb, search_append e ha hb⟩

end LeafNodePage

/-! ## The tree -/

/-- A leaf and its page number. -/
structure Leaf where
  pid : PageId
  node : LeafNodePage

/-- The layout of an index tree. -/
def layout : Layout Bytes (Bytes × RecordId) Page InternalNodePage Leaf where
  key := Prod.fst
  seps := InternalNodePage.keys
  children := InternalNodePage.children
  branchPage := .internal
  leafPid := Leaf.pid
  leafPages l := [l.pid]
  leafEntries l := l.node.slots
  leafStored H l := H l.pid = some (.leaf l.node)
  leafPid_mem l := List.mem_singleton_self _
  leafStored_live h hp := by cases List.mem_singleton.mp hp; simp [h]
  leafStored_congr h hH := (hH _ (List.mem_singleton_self _)).trans h

abbrev Node (h : Nat) := Tree InternalNodePage Leaf h

section

variable (n : InternalNodePage)

@[simp] theorem layout_key (e : Bytes × RecordId) : layout.key e = e.1 := rfl
@[simp] theorem layout_seps : layout.seps n = n.keys := rfl
@[simp] theorem layout_children : layout.children n = n.children := rfl
@[simp] theorem layout_branchPage : layout.branchPage n = .internal n := rfl
@[simp] theorem layout_leafEntries (l : Leaf) : layout.leafEntries l = l.node.slots := rfl
@[simp] theorem layout_pages_leaf (l : Node 0) : layout.pages l = [Leaf.pid l] := rfl
@[simp] theorem layout_rootPid_leaf (l : Node 0) : layout.rootPid l = Leaf.pid l := rfl

theorem ordered_leaf {I : Set Bytes} {l : Node 0} :
    layout.Ordered I l ↔ (Leaf.node l).Sorted ∧ ∀ e ∈ (Leaf.node l).slots, e.1 ∈ I := Iff.rfl

/-- Every internal node of a tree has a key, so it has two children. -/
def HasKeys : Prop := 0 < n.numKeys

end

theorem HasKeys.of_mem {n : InternalNodePage} {k : Bytes} (h : k ∈ n.keys) : HasKeys n :=
  List.length_pos_of_mem h

theorem replaces_leaf {H H' : Heap Page} {I : Set Bytes} {l : Leaf}
    {node' : LeafNodePage} (o : Owns H H' [l.pid] [l.pid])
    (hH : H' l.pid = some (.leaf node')) (ho : layout.Ordered (h := 0) I (⟨l.pid, node'⟩ : Leaf)) :
    layout.Replaces (h := 0) H H' I l [] [(⟨l.pid, node'⟩ : Leaf)] := by
  have hv : layout.Valid (h := 0) H' I (⟨l.pid, node'⟩ : Leaf) := ⟨hH, ho, nodup_singleton _⟩
  exact hv.replaces (t := (l : Node 0)) o.keeps

variable {h : Nat} {I J : Set Bytes} {b : Node (h + 1)} {key : Bytes} {s1 s2 : List Bytes}
  {c1 c2 : List (Node h)} {c : Node h}

/-- The search on an internal page finds the child in the tree. -/
theorem Route.findChildIdx (r : layout.Route I b key s1 s2 c1 c c2 J) :
    b.node.findChildIdx key = c1.length :=
  (InternalNodePage.findChildIdx_append r.seps r.le r.lt).trans r.length₁.symm

theorem Route.childAt {H : Heap Page} (r : layout.Route I b key s1 s2 c1 c c2 J)
    (hb : layout.Valid H I b) : b.node.childAt c1.length = layout.rootPid c := by
  have hch : b.node.children = c1.map layout.rootPid ++ layout.rootPid c :: c2.map layout.rootPid := by
    rw [← layout_children, hb.children, r.kids, map_append, map_cons]
  simpa using InternalNodePage.childAt_append hch

namespace BTree

variable {σ : Type} {E : StorageEngine Stop σ Page} {view : σ → Heap Page} {s : σ} {t : Node h}
  {fuel : Nat}

theorem findLeafForIn_eq (hE : E.Lawful NULL_PAGE view) {A B : List Leaf} {l : Leaf}
    (ht : layout.Valid (view s) I t) (f : layout.Focus key I t A l B J) (hf : h < fuel) :
    findLeafForIn E fuel (layout.rootPid t) key s = .ok l.pid s := by
  induction h generalizing I A B fuel with
  | zero =>
    obtain _ | fuel := fuel
    · omega
    obtain ⟨-, -, rfl, -⟩ := f
    exact eq_ok (hE.wp_read ht.stored (pure ⟨rfl, rfl⟩))
  | succ h ih =>
    obtain _ | fuel := fuel
    · omega
    obtain ⟨s1, s2, c1, c, c2, I', A', B', rt, f, -, -⟩ := f
    refine eq_ok (hE.wp_read ht.page ?_)
    show WP (findLeafForIn E fuel (t.node.childAt (t.node.findChildIdx key)) key) s _
    rw [Route.findChildIdx rt, Route.childAt rt ht]
    exact of_eq (ih (ht.kid (by simp [rt.kids]) rt.child) f (by omega)) ⟨rfl, rfl⟩

/-- A lookup answers with the tree's entry for the key. -/
theorem lookupFrom_eq (hE : E.Lawful NULL_PAGE view) (ht : layout.Valid (view s) I t)
    (hk : key ∈ I) (hf : h < fuel) : ∃ r, lookupFrom E fuel (layout.rootPid t) key s = .ok r s ∧
      ∀ rid, r = some rid ↔ (key, rid) ∈ layout.entries t := by
  induction h generalizing I fuel with
  | zero =>
    obtain _ | fuel := fuel
    · omega
    have hs := (ordered_leaf.mp ht.ordered).1
    rw [Layout.entries_zero, layout_leafEntries]
    refine eq_ok_iff (hE.wp_read ht.stored ?_)
    by_cases hm : ∃ rid, (key, rid) ∈ (Leaf.node t).slots
    · obtain ⟨rid, hm⟩ := hm
      obtain ⟨a, b, e, -, -, hsearch⟩ := search_found hs hm
      have hrid : (Leaf.node t).ridAt a.length = rid := by simp [ridAt, e]
      simp only [hsearch, hrid]
      refine pure ⟨rfl, fun rid' => ⟨?_, fun hm' => ?_⟩⟩
      · rintro ⟨⟩; exact hm
      · have := ht.ordered.eq_of_key_eq (a := (key, rid)) (b := (key, rid')) (by simpa using hm)
          (by simpa using hm') rfl
        exact congrArg some (Prod.mk.inj this).2
    · obtain ⟨a, b, -, -, -, hsearch⟩ := search_missing hs
        (show ∀ e ∈ (Leaf.node t).slots, e.1 ≠ key from fun e he h => hm ⟨e.2, h ▸ he⟩)
      simp only [hsearch]
      exact pure ⟨rfl, fun rid => ⟨nofun, fun h => (hm ⟨rid, h⟩).elim⟩⟩
  | succ h ih =>
    obtain _ | fuel := fuel
    · omega
    obtain ⟨s1, s2, c1, c, c2, I', rt⟩ := ht.ordered.route hk
    obtain ⟨r, e, hr⟩ := ih (ht.kid (by simp [rt.kids]) rt.child) rt.mem (show h < fuel by omega)
    refine eq_ok_iff (hE.wp_read ht.page ?_)
    show WP (lookupFrom E fuel (t.node.childAt (t.node.findChildIdx key)) key) s _
    rw [Route.findChildIdx rt, Route.childAt rt ht]
    exact of_eq e ⟨rfl, fun rid => by rw [hr, rt.mem_entries_iff (e := (key, rid)) rt.mem]⟩

end BTree

end AxiomDb.Index
