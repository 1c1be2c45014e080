import AxiomDb.Index.Invariant

/-!
# What an insertion does to the tree

`insertSubtreeBatched_spec`: the insertion of a new key into a subtree returns,
and leaves in its place one or two trees (`Grown`) with the subtree's entries
and the new one. It is by induction on the height. A leaf is changed in place or
split in two (`insertLeafBatched_spec`); a branch takes what its child has become
into its own page, or is split itself (`absorbChild_spec`).

`LeafGrowth` says what happens to the leaves' links: the leaf before a split one
is relinked if and only if it is under the same parent.
-/

namespace AxiomDb.Index

open Lib Set List InternalNodePage LeafNodePage Layout Leaf Route WP

def Leaf.relink (l : Leaf) (next : PageId) : Leaf := ⟨l.pid, l.node.setNextLeaf next⟩

/-- The last leaf points at `next`. -/
def relinkLast (next : PageId) (ls : List Leaf) : List Leaf :=
  ls.dropLast ++ ls.getLast?.toList.map fun l => l.relink next

@[simp] theorem relinkLast_append_singleton (next : PageId) (ls : List Leaf) (l : Leaf) :
    relinkLast next (ls ++ [l]) = ls ++ [l.relink next] := by
  simp [relinkLast]

/-- The leaf for the key is the first child of its parent, or the root. -/
def FirstKid (key : Bytes) : {h : Nat} → Node h → Prop
  | 0, _ => True
  | 1, b => b.node.findChildIdx key = 0
  | _ + 2, b => ∀ c, b.kids[b.node.findChildIdx key]? = some c → FirstKid key c

/-- The number of leaves before the one for the key. -/
def leafPos (key : Bytes) : {h : Nat} → Node h → Nat
  | 0, _ => 0
  | _ + 1, b => ((b.kids.take (b.node.findChildIdx key)).flatMap Layout.leaves).length +
    match b.kids[b.node.findChildIdx key]? with
    | some c => leafPos key c
    | none => 0

/-- The leaves `lv` have one for the key in the place of the leaf `l` of `t`, on the
same page. -/
def LeafEdit {h : Nat} (fillfactor : Nat) (t : Node h) (lv : List Leaf) : Prop :=
  ∃ A l B, Layout.leaves t = A ++ l :: B ∧
    l.node.numKeys < fillThreshold ORDER_LEAF fillfactor ∧
    ∃ node', lv = A ++ ⟨l.pid, node'⟩ :: B ∧ node'.nextLeaf = l.node.nextLeaf ∧
      node'.numKeys = l.node.numKeys + 1

/-- The leaf `l` with one more entry is split into `x` and `y` on new pages. -/
structure Halves (l x y : Leaf) : Prop where
  left_next : x.node.nextLeaf = y.pid
  right_next : y.node.nextLeaf = l.node.nextLeaf
  left_pid : x.pid ≠ l.pid
  right_pid : y.pid ≠ l.pid
  left_keys : x.node.numKeys = (l.node.numKeys + 1) / 2
  keys : x.node.numKeys + y.node.numKeys = l.node.numKeys + 1

/-- The leaves `lv` have two in the place of the leaf `l` of `t` for the key, and the
leaf before them is relinked unless `l` is a first child. -/
def LeafSplit {h : Nat} (key : Bytes) (fillfactor : Nat) (t : Node h) (lv : List Leaf) : Prop :=
  ∃ A l B, Layout.leaves t = A ++ l :: B ∧ A.length = leafPos key t ∧
    fillThreshold ORDER_LEAF fillfactor ≤ l.node.numKeys ∧
    ∃ A' x y, lv = A' ++ x :: y :: B ∧ Halves l x y ∧
      (FirstKid key t → A' = A) ∧ (¬ FirstKid key t → A ≠ [] ∧ A' = relinkLast x.pid A)

variable {h : Nat} {I J : Set Bytes} {key : Bytes} {rid : RecordId} {ff : Nat} {H H' : Heap Page}

/-- The trees `ts` hold what `t` held and the new entry. -/
structure Grown (H H' : Heap Page) (I : Set Bytes) (t : Node h) (key : Bytes) (rid : RecordId)
    (fillfactor : Nat) (ss : List Bytes) (ts : List (Node h)) : Prop where
  replaces : layout.Replaces H H' I t ss ts
  branches : ∀ c ∈ ts, Layout.Branches HasKeys c
  entries (e : Bytes × RecordId) :
    e ∈ ts.flatMap layout.entries ↔ e = (key, rid) ∨ e ∈ layout.entries t
  leaves : LeafEdit fillfactor t (ts.flatMap Layout.leaves) ∨
    LeafSplit key fillfactor t (ts.flatMap Layout.leaves)

/-- The node is full: an insertion may split it. -/
def Full (fillfactor : Nat) : {h : Nat} → Node h → Prop
  | 0, l => fillThreshold ORDER_LEAF fillfactor ≤ (Leaf.node l).numKeys
  | _ + 1, b => ORDER_INTERNAL ≤ b.node.numKeys

/-- What the insertion into the subtree `t` returns. -/
def InsertPost (H H' : Heap Page) (I : Set Bytes) (t : Node h) (key : Bytes) (rid : RecordId)
    (fillfactor : Nat) : InsertResult → Prop
  | .ok pid => pid = layout.rootPid t ∧
    ∃ t', layout.rootPid t' = layout.rootPid t ∧ Grown H H' I t key rid fillfactor [] [t']
  | .split leftPid rightPid sep leafSplit => leafSplit = decide (h = 0) ∧ Full fillfactor t ∧
    ∃ l r, layout.rootPid l = leftPid ∧ layout.rootPid r = rightPid ∧
      Grown H H' I t key rid fillfactor [sep] [l, r]

/-! ## Leaves -/

/-- The slots of a leaf with a new one in its place. -/
theorem ordered_insert {l : Node 0} (hl : layout.Ordered I l) (hk : key ∈ I)
    {a b : List (Bytes × RecordId)} (e : (node l).slots = a ++ b) (ha : ∀ x ∈ a, x.1 < key)
    (hb : ∀ x ∈ b, key < x.1) (rid : RecordId) :
    (a ++ (key, rid) :: b).Pairwise (fun x y => x.1 < y.1) ∧
      ∀ x ∈ a ++ (key, rid) :: b, x.1 ∈ I := by
  obtain ⟨hs, hm⟩ := ordered_leaf.mp hl
  rw [Sorted, e, pairwise_append] at hs
  rw [e] at hm
  refine ⟨pairwise_append.mpr ⟨hs.1, pairwise_cons.mpr ⟨hb, hs.2.1⟩, ?_⟩, fun x hx => ?_⟩
  · intro x hx y hy
    rcases mem_cons.mp hy with rfl | hy
    · exact ha x hx
    · exact (ha x hx).trans (hb y hy)
  simp only [mem_append, mem_cons] at hx
  rcases hx with hx | rfl | hx
  · exact hm x (by simp [hx])
  · exact hk
  · exact hm x (by simp [hx])

namespace BTree

variable {σ : Type} {E : StorageEngine Stop σ Page} {view : σ → Heap Page} {s : σ}

theorem insertLeafBatched_spec (hE : E.Lawful NULL_PAGE view) {l : Leaf}
    (hl : layout.Valid (h := 0) (view s) I l) (hk : key ∈ I)
    (hm : ∀ e ∈ l.node.slots, e.1 ≠ key) (hfull : fillThreshold ORDER_LEAF ff ≤ l.node.numKeys) :
    WP (insertLeafBatched E l.pid l.node key rid) s fun r s' =>
      InsertPost (h := 0) (view s) (view s') I l key rid ff r := by
  obtain ⟨a, b, e, ha, hb, hsearch⟩ :=
    search_missing (ordered_leaf.mp hl.ordered).1 hm
  have hord := ordered_insert hl.ordered hk e ha hb rid
  have hpos := fillThreshold_pos ORDER_LEAF ff
  have hfits := l.node.fits
  have hlen : l.node.numKeys = a.length + b.length := by simp [LeafNodePage.numKeys, e]
  have hslots : l.node.slots.take a.length ++ (key, rid) :: l.node.slots.drop a.length =
      a ++ (key, rid) :: b := by simp [e]
  simp only [insertLeafBatched, hsearch, hslots]
  generalize hall : a ++ (key, rid) :: b = all at hord
  have hmem (x : Bytes × RecordId) : x ∈ all ↔ x = (key, rid) ∨ x ∈ l.node.slots := by
    rw [← hall, e]; simp only [mem_append, mem_cons]; tauto
  have htotal : all.length = l.node.numKeys + 1 := by rw [← hall]; simp; omega
  generalize hmid : (l.node.numKeys + 1) / 2 = mid
  rw [LeafNodePage.numKeys] at hlen htotal hmid hfull
  -- The cut: `mid` is inside of the slots, and the slot there gives the separator.
  obtain ⟨x0, hx0⟩ : ∃ x, all.drop mid = x :: all.drop (mid + 1) :=
    ⟨_, drop_eq_getElem_cons (by omega)⟩
  have hcut : all = all.take mid ++ x0 :: all.drop (mid + 1) := by
    rw [← hx0, take_append_drop]
  have hsep : all.getD mid default = x0 := by
    have : all[mid]? = some x0 := by rw [← head?_drop, hx0]; rfl
    simp [getD, this]
  have hfl : (all.take mid).length ≤ ORDER_LEAF := by simp; omega
  have hfr : (all.drop mid).length ≤ ORDER_LEAF := by simp; omega
  refine hE.wp_alloc_own hl.owns fun p1 s1 o1 hp1 h₁ => ?_
  refine hE.wp_alloc_own o1 fun p2 s2 o2 hp2 h₂ => ?_
  refine wp_checked (ofArrays_eq hfl) ?_
  refine hE.wp_write_own o2 (by simp) fun s3 o3 e3 h3 => ?_
  refine wp_checked (ofArrays_eq hfr) ?_
  refine hE.wp_write_own o3 (by simp) fun s4 o4 e4 h4 => ?_
  refine hE.wp_free_own (Q := [p1, p2]) o4 ?_ fun s5 o5 h5 => ?_
  · exact perm_iff_count.mpr fun p => by
      simp only [layout_pages_leaf, count_cons, count_nil]; omega
  simp only [layout_pages_leaf, mem_cons, not_mem_nil, or_false, not_or] at hp1 hp2
  rw [hsep]
  refine pure ⟨rfl, hfull, (⟨p1, _, p2, hfl⟩ : Leaf), (⟨p2, _, l.node.nextLeaf, hfr⟩ : Leaf), rfl, rfl,
    ⟨?_, ?_, o5.nodup, o5.keeps⟩, fun _ _ => ?_, fun x => ?_, ?_⟩
  · rw [hcut] at hord
    exact leaf_cut (Λ := layout) hord.1 hord.2 rfl hx0 (ne_nil_of_length_pos (by simp; omega))
  · rintro c (_ | ⟨_, _ | ⟨_, ⟨⟩⟩⟩)
    · exact (h5 _ hp1).trans ((h4 _ (Ne.symm hp2.1)).trans e3)
    · exact (h5 _ hp2.2).trans e4
  · exact trivial
  · rw [entries_zero, layout_leafEntries, ← hmem]
    simp
  · refine .inr ⟨[], l, [], rfl, rfl, hfull, [], _, _, rfl, ⟨rfl, rfl, hp1, hp2.2, ?_, ?_⟩,
      fun _ => rfl, fun h => (h trivial).elim⟩
    · simp [LeafNodePage.numKeys]; omega
    · simp [LeafNodePage.numKeys]; omega

end BTree

/-! ## Lifting to the parent -/

theorem relinkLast_append (next : PageId) (A : List Leaf) {B : List Leaf} (hB : B ≠ []) :
    relinkLast next (A ++ B) = A ++ relinkLast next B := by
  obtain ⟨B, l, rfl⟩ := eq_nil_or_concat' B |>.resolve_left hB
  rw [← append_assoc, relinkLast_append_singleton, relinkLast_append_singleton, append_assoc]

section Lift

variable {b : Node (h + 1)} {s1 s2 : List Bytes} {c1 c2 : List (Node h)} {c : Node h}
  {lv : List Leaf}

theorem LeafEdit.lift (g : LeafEdit ff c lv) (rt : layout.Route I b key s1 s2 c1 c c2 J) :
    LeafEdit ff b (c1.flatMap leaves ++ lv ++ c2.flatMap leaves) := by
  obtain ⟨A, l, B, hl, hn, node', rfl, hnext⟩ := g
  refine ⟨c1.flatMap leaves ++ A, l, B ++ c2.flatMap leaves, ?_, hn, node', ?_, hnext⟩
  · simp [rt.leaves_eq, hl]
  · simp

theorem Route.leafPos_eq (rt : layout.Route I b key s1 s2 c1 c c2 J) :
    leafPos key b = (c1.flatMap leaves).length + leafPos key c := by
  rw [leafPos, findChildIdx rt, rt.kids]
  simp

theorem LeafSplit.lift (g : LeafSplit key ff c lv) (rt : layout.Route I b key s1 s2 c1 c c2 J)
    (hfirst : FirstKid key b ↔ FirstKid key c) :
    LeafSplit key ff b (c1.flatMap leaves ++ lv ++ c2.flatMap leaves) := by
  obtain ⟨A, l, B, hl, hpos, hn, A', x, y, rfl, hxy, hA, hA'⟩ := g
  refine ⟨c1.flatMap leaves ++ A, l, B ++ c2.flatMap leaves, ?_, ?_, hn,
    c1.flatMap leaves ++ A', x, y, ?_, hxy, fun h => ?_, fun h => ?_⟩
  · simp [rt.leaves_eq, hl]
  · rw [leafPos_eq rt, length_append, hpos]
  · simp
  · rw [hA (hfirst.mp h)]
  · obtain ⟨hne, rfl⟩ := hA' (mt hfirst.mpr h)
    exact ⟨by simp [hne], (relinkLast_append _ _ hne).symm⟩

theorem leafSplit_leaf {c x y : Node 0} (g : LeafEdit ff c ([x, y].flatMap leaves) ∨
    LeafSplit key ff c ([x, y].flatMap leaves)) :
    fillThreshold ORDER_LEAF ff ≤ (node c).numKeys ∧ Halves c x y := by
  rw [flatMap_leaves_zero] at g
  have hc : leaves c = [c] := rfl
  rcases g with ⟨A, l, B, hl, -, n, hlv, -⟩ | ⟨A, l, B, hl, -, hn, A', x', y', hlv, hxy, -⟩
  · have h₁ := congrArg length hl
    have h₂ := congrArg length hlv
    simp [hc] at h₁ h₂
    omega
  rw [hc] at hl
  have h₁ := congrArg length hl
  have h₂ := congrArg length hlv
  simp at h₁ h₂
  obtain rfl : A = [] := eq_nil_of_length_eq_zero (by omega)
  obtain rfl : A' = [] := eq_nil_of_length_eq_zero (by omega)
  simp at hl hlv
  obtain ⟨⟨rfl, -⟩, rfl, rfl, -⟩ := And.intro hl hlv
  exact ⟨hn, hxy⟩

theorem Route.firstKid_iff {b : Node (h + 2)} {c1 c2 : List (Node (h + 1))} {c : Node (h + 1)}
    (rt : layout.Route I b key s1 s2 c1 c c2 J) : FirstKid key b ↔ FirstKid key c := by
  have hc : b.kids[b.node.findChildIdx key]? = some c := by
    rw [findChildIdx rt, rt.kids]; simp
  simp only [FirstKid, hc, Option.some.injEq, forall_eq']

end Lift

/-! ## Branches -/

/-- The children `kids` of `b`, which a split has left with the separators `seps`,
hold what `b` held and the new entry; the page of `b` is still to be written. -/
structure KidsGrown (H H' : Heap Page) (I : Set Bytes) (b : Node (h + 1)) (key : Bytes)
    (rid : RecordId) (fillfactor : Nat) (seps : List Bytes) (kids : List (Node h)) : Prop where
  owns : Owns H H' (layout.pages b) (b.pid :: kids.flatMap layout.pages)
  stored : ∀ c ∈ kids, layout.Stored H' c
  chain : SepChain layout.Ordered I seps kids
  branches : ∀ c ∈ kids, Layout.Branches HasKeys c
  entries (e : Bytes × RecordId) :
    e ∈ kids.flatMap layout.entries ↔ e = (key, rid) ∨ e ∈ layout.entries b
  leaves : LeafEdit fillfactor b (kids.flatMap Layout.leaves) ∨
    LeafSplit key fillfactor b (kids.flatMap Layout.leaves)

section Branch

variable {b : Node (h + 1)} {s1 s2 ss seps : List Bytes} {c1 c2 ts kids : List (Node h)}
  {c c' : Node h}

section

variable (g : Grown H H' J c key rid ff ss ts)
include g

theorem Grown.kids_branches (hbr : Branches HasKeys b)
    (rt : layout.Route I b key s1 s2 c1 c c2 J) : ∀ d ∈ c1 ++ ts ++ c2, Branches HasKeys d := by
  intro d hd
  simp only [mem_append] at hd
  rcases hd with (hd | hd) | hd
  · exact hbr.2 d (by simp [rt.kids, hd])
  · exact g.branches d hd
  · exact hbr.2 d (by simp [rt.kids, hd])

theorem Grown.kids_entries (rt : layout.Route I b key s1 s2 c1 c c2 J) (e : Bytes × RecordId) :
    e ∈ (c1 ++ ts ++ c2).flatMap layout.entries ↔ e = (key, rid) ∨ e ∈ layout.entries b := by
  rw [rt.mem_entries]
  simp only [flatMap_append, mem_append, g.entries]
  tauto

theorem Grown.toKids (hb : layout.Valid H I b)
    (hbr : Branches HasKeys b) (rt : layout.Route I b key s1 s2 c1 c c2 J)
    (hfirst : FirstKid key b ↔ FirstKid key c) :
    KidsGrown H H' I b key rid ff (s1 ++ ss ++ s2) (c1 ++ ts ++ c2) := by
  obtain ⟨o, hs, hch, -⟩ := g.replaces.kids hb rt
  refine ⟨o, hs, hch, g.kids_branches hbr rt, g.kids_entries rt, ?_⟩
  rw [flatMap_append, flatMap_append]
  exact g.leaves.imp (·.lift rt) (·.lift rt hfirst)

end

/-- The child is on the same page as before: nothing has to be written. -/
theorem Grown.branch (g : Grown H H' J c key rid ff [] [c']) (hb : layout.Valid H I b)
    (hbr : Branches HasKeys b) (rt : layout.Route I b key s1 s2 c1 c c2 J)
    (hp : layout.rootPid c' = layout.rootPid c) : Grown H H' I b key rid ff []
      [(⟨b.pid, b.node, c1 ++ [c'] ++ c2⟩ : Branch InternalNodePage (Node h))] := by
  refine ⟨g.replaces.branch hb rt hp, ?_, fun e => ?_, ?_⟩
  · rintro _ (_ | ⟨_, ⟨⟩⟩)
    exact ⟨hbr.1, g.kids_branches hbr rt⟩
  · rw [← g.kids_entries rt, flatMap_singleton, entries_succ]
  rw [flatMap_singleton, leaves_succ, flatMap_append, flatMap_append]
  rcases g.leaves with g | g
  · exact .inl (g.lift rt)
  cases h with
  | zero =>
    -- A leaf that was split would be two.
    obtain ⟨A, l, B, -, -, -, A', x, y, hlv, -⟩ := g
    have := congrArg length hlv
    simp [Layout.leaves] at this
    omega
  | succ h => exact .inr (g.lift rt (Route.firstKid_iff rt))

/-- The children are taken into the branch's page. -/
theorem KidsGrown.absorb (g : KidsGrown H H' I b key rid ff seps kids) {H'' : Heap Page}
    {node : InternalNodePage} (hk : node.keys = seps) (hc : node.children = kids.map layout.rootPid)
    (o : Owns H H'' (layout.pages b) (b.pid :: kids.flatMap layout.pages))
    (hp : H'' b.pid = some (.internal node)) (hsame : ∀ q, q ≠ b.pid → H'' q = H' q)
    (hpos : HasKeys node) :
    Grown H H'' I b key rid ff [] [(⟨b.pid, node, kids⟩ : Branch InternalNodePage (Node h))] := by
  have hpid : b.pid ∉ kids.flatMap layout.pages := (nodup_cons.mp g.owns.nodup).1
  refine ⟨Valid.replaces ⟨⟨hp, hc, ?_⟩, ?_, o.nodup⟩ o.keeps, ?_, fun e => ?_, ?_⟩
  · exact stored_congr g.stored fun q hq => hsame q fun h => hpid (h ▸ hq)
  · subst hk; exact g.chain
  · rintro _ (_ | ⟨_, ⟨⟩⟩)
    exact ⟨hpos, g.branches⟩
  · rw [← g.entries, flatMap_singleton, entries_succ]
  · rw [flatMap_singleton, leaves_succ]; exact g.leaves

end Branch

namespace BTree

variable {σ : Type} {E : StorageEngine Stop σ Page} {view : σ → Heap Page} {s : σ}
  {b : Node (h + 1)} {s1 s2 seps : List Bytes} {c1 c2 kids : List (Node h)} {c : Node h}

variable {sep : Bytes} {node : InternalNodePage} {l : Leaf} {a : List (Bytes × RecordId)}
  {fuel : Nat}

theorem splitInternalBatched_spec (hE : E.Lawful NULL_PAGE view) {idx : Nat} {rightChild : PageId}
    (g : KidsGrown H (view s) I b key rid ff seps kids) (hkeys : node.keys.insertIdx idx sep = seps)
    (hch : node.children.insertIdx (idx + 1) rightChild = kids.map layout.rootPid)
    (hn : node.numKeys = ORDER_INTERNAL) (hlen : seps.length = ORDER_INTERNAL + 1)
    (hfull : Full ff b) : WP (splitInternalBatched E b.pid node idx sep rightChild) s fun r s' =>
      InsertPost H (view s') I b key rid ff r := by
  have hkids := g.chain.length_eq
  simp only [splitInternalBatched, hkeys, hch, hn]
  rw [show (ORDER_INTERNAL + 1) / 2 = 112 from rfl]
  rw [show ORDER_INTERNAL = 223 from rfl] at hlen
  -- The cut: the middle separator goes up, and the children are parted after it.
  obtain ⟨m, hm⟩ : ∃ m, seps.drop 112 = m :: seps.drop 113 :=
    ⟨_, drop_eq_getElem_cons (by omega)⟩
  have hseps : seps = seps.take 112 ++ m :: seps.drop 113 := by rw [← hm, take_append_drop]
  have hnew : seps.getD 112 [] = m := by
    have : seps[112]? = some m := by rw [← head?_drop, hm]; rfl
    simp [getD, this]
  have hchain := g.chain
  rw [hseps, ← take_append_drop 113 kids, sepChain_append_cons (by simp; omega)] at hchain
  have hfl : (seps.take 112).length ≤ ORDER_INTERNAL ∧
      ((kids.map layout.rootPid).take 113).length = (seps.take 112).length + 1 := by
    simp [ORDER_INTERNAL]; omega
  have hfr : (seps.drop 113).length ≤ ORDER_INTERNAL ∧
      ((kids.map layout.rootPid).drop 113).length = (seps.drop 113).length + 1 := by
    simp [ORDER_INTERNAL]; omega
  refine hE.wp_alloc_own g.owns fun p1 s1 o1 hp1 h₁ => ?_
  refine hE.wp_alloc_own o1 fun p2 s2 o2 hp2 h₂ => ?_
  refine wp_checked (ofArrays_eq hfl.1 hfl.2) ?_
  refine hE.wp_write_own o2 (by simp) fun s3 o3 e3 h3 => ?_
  refine wp_checked (ofArrays_eq hfr.1 hfr.2) ?_
  refine hE.wp_write_own o3 (by simp) fun s4 o4 e4 h4 => ?_
  refine hE.wp_free_own (Q := p1 :: p2 :: kids.flatMap layout.pages) o4 ?_ fun s5 o5 h5 => ?_
  · exact perm_iff_count.mpr fun p => by simp only [count_cons]; omega
  simp only [mem_cons, not_or] at hp1 hp2
  rw [hnew]
  have hsame (q : PageId) (hq : q ∈ kids.flatMap layout.pages) : view s5 q = view s q := by
    have hb : q ≠ b.pid := fun h => (nodup_cons.mp g.owns.nodup).1 (h ▸ hq)
    have h1 : q ≠ p1 := fun h => hp1.2 (h ▸ hq)
    have h2 : q ≠ p2 := fun h => hp2.2.2 (h ▸ hq)
    rw [h5 q hb, h4 q h2, h3 q h1, h₂ q h2, h₁ q h1]
  have hstored := stored_congr g.stored hsame
  let l : Node (h + 1) := ⟨p1, ⟨_, _, hfl.1, hfl.2⟩, kids.take 113⟩
  let r : Node (h + 1) := ⟨p2, ⟨_, _, hfr.1, hfr.2⟩, kids.drop 113⟩
  have hcut : kids = l.kids ++ r.kids := (take_append_drop 113 kids).symm
  have o : Owns H (view s5) (layout.pages b) ([l, r].flatMap layout.pages) :=
    o5.perm (perm_iff_count.mpr fun p => by
      rw [hcut]
      simp only [flatMap_cons, flatMap_nil, pages_succ, flatMap_append,
        count_append, count_cons, count_nil, l, r]
      omega)
  refine pure ⟨rfl, hfull, l, r, rfl, rfl, ⟨hchain, ?_, o.nodup, o.keeps⟩, ?_, fun x => ?_, ?_⟩
  · rintro _ (_ | ⟨_, _ | ⟨_, ⟨⟩⟩⟩)
    · refine ⟨(h5 _ hp1.1).trans ((h4 _ (Ne.symm hp2.1)).trans e3), map_take.symm, fun d hd => ?_⟩
      exact hstored d (mem_of_mem_take hd)
    · refine ⟨(h5 _ hp2.2.1).trans e4, map_drop.symm, fun d hd => ?_⟩
      exact hstored d (mem_of_mem_drop hd)
  · rintro _ (_ | ⟨_, _ | ⟨_, ⟨⟩⟩⟩)
    · exact ⟨by simp [HasKeys, InternalNodePage.numKeys, l]; omega,
        fun d hd => g.branches d (mem_of_mem_take hd)⟩
    · exact ⟨by simp [HasKeys, InternalNodePage.numKeys, r]; omega,
        fun d hd => g.branches d (mem_of_mem_drop hd)⟩
  · rw [← g.entries, hcut]
    simp [entries_succ]
  · have := g.leaves
    rw [hcut] at this
    simpa [leaves_succ] using this

/-- The keys and children of the parent with the two halves of a child. -/
theorem absorb_arrays {l r p : PageId} {cs1 cs2 : List PageId} (sep : Bytes)
    (hkeys : node.keys = s1 ++ s2) (hch : node.children = cs1 ++ p :: cs2)
    (hlen : cs1.length = s1.length) :
    (node.setChildAt cs1.length l).keys.insertIdx cs1.length sep = s1 ++ [sep] ++ s2 ∧
      (node.setChildAt cs1.length l).children.insertIdx (cs1.length + 1) r =
        cs1 ++ [l, r] ++ cs2 := by
  constructor
  · simp [setChildAt, hkeys, hlen, insertIdx_append_length]
  · simp [setChildAt, hch, insertIdx_append_length_succ]

theorem absorbSplit_spec (hE : E.Lawful NULL_PAGE view) (hb : layout.Valid H I b)
    (rt : layout.Route I b key s1 s2 c1 c c2 J) {c1' : List (Node h)} {l r : Node h}
    (hc1 : c1'.map layout.rootPid = c1.map layout.rootPid)
    (g : KidsGrown H (view s) I b key rid ff (s1 ++ [sep] ++ s2) (c1' ++ [l, r] ++ c2)) :
    WP (absorbSplit E b.pid b.node c1.length (layout.rootPid l) (layout.rootPid r) sep) s
      fun r s' => InsertPost H (view s') I b key rid ff r := by
  have hch : b.node.children = c1.map layout.rootPid ++ layout.rootPid c :: c2.map layout.rootPid := by
    rw [← layout_children, hb.children, rt.kids, map_append, map_cons]
  obtain ⟨hkeys, hchild⟩ := absorb_arrays (l := layout.rootPid l) (r := layout.rootPid r)
    sep rt.seps hch (by simpa using rt.length₁)
  rw [length_map] at hkeys hchild
  have hkids : c1.map layout.rootPid ++ [layout.rootPid l, layout.rootPid r] ++ c2.map layout.rootPid =
      (c1' ++ [l, r] ++ c2).map layout.rootPid := by simp [hc1]
  rw [hkids] at hchild
  have hn : b.node.numKeys = s1.length + s2.length := by
    simp [InternalNodePage.numKeys, ← layout_seps, rt.seps]
  have hlen := g.chain.length_eq
  simp only [absorbSplit]
  split
  next hlt =>
    have hfits : (s1 ++ [sep] ++ s2).length ≤ ORDER_INTERNAL := by simp; omega
    have harity : ((c1' ++ [l, r] ++ c2).map layout.rootPid).length =
        (s1 ++ [sep] ++ s2).length + 1 := by rw [length_map]; exact hlen
    refine wp_checked (a := ⟨_, _, hfits, harity⟩) ?_ ?_
    · rw [InternalNodePage.insertAt, hkeys, hchild]
      exact ofArrays_eq hfits harity
    refine bind_assoc (hE.wp_write_own (p := b.pid) g.owns (by simp) fun s' o e hsame => pure ?_)
    exact ⟨rfl, ⟨b.pid, ⟨_, _, hfits, harity⟩, c1' ++ [l, r] ++ c2⟩, rfl,
      g.absorb rfl rfl o e hsame (.of_mem (k := sep) (by simp))⟩
  next hge =>
    have hfits := b.node.fits
    rw [InternalNodePage.numKeys] at hn hge
    exact splitInternalBatched_spec hE g hkeys hchild
      (by simp [InternalNodePage.numKeys, setChildAt]; omega)
      (by simp; omega) (by simp [Full, InternalNodePage.numKeys]; omega)

/-- The leaf before the two halves of a leaf under the same parent is relinked. -/
theorem updatePredecessorNextLeaf_spec (hE : E.Lawful NULL_PAGE view) {b : Node 1}
    {c1 c2 : List (Node 0)} {c x y : Node 0} (hb : layout.Valid H I b)
    (rt : layout.Route I b key s1 s2 c1 c c2 J) (g : Grown H (view s) J c key rid ff [sep] [x, y])
    (hidx : c1.length > 0) (hf : 0 < fuel) :
    WP (updatePredecessorNextLeaf E fuel b.node c1.length (layout.rootPid x)) s fun _ s' =>
      ∃ c1' : List (Node 0), c1'.map layout.rootPid = c1.map layout.rootPid ∧
        KidsGrown H (view s') I b key rid ff (s1 ++ [sep] ++ s2) (c1' ++ [x, y] ++ c2) := by
  obtain _ | fuel := fuel
  · omega
  obtain ⟨o, hs, hch, hpage⟩ := g.replaces.kids hb rt
  obtain ⟨k1, pl, rfl⟩ := (eq_nil_or_concat' c1).resolve_left (by rintro rfl; simp at hidx)
  have hpl : view s (pid pl) = some (.leaf (node pl)) := hs pl (by simp)
  have hchild : b.node.childAt ((k1 ++ [pl]).length - 1) = pid pl := by
    have : b.node.children = k1.map layout.rootPid ++ pid pl ::
        (layout.rootPid c :: c2.map layout.rootPid) := by
      rw [← layout_children, hb.children, rt.kids]; simp
    simpa using childAt_append this
  have hperm : (b.pid :: (k1 ++ [pl] ++ [x, y] ++ c2).flatMap layout.pages).Perm
      (pid pl :: b.pid :: (k1 ++ [x, y] ++ c2).flatMap layout.pages) :=
    perm_iff_count.mpr fun p => by
      simp only [flatMap_append, flatMap_cons, flatMap_nil, layout_pages_leaf,
        count_append, count_cons, count_nil]
      omega
  have hout := (nodup_cons.mp (hperm.nodup_iff.mp o.nodup)).1
  simp only [updatePredecessorNextLeaf, hchild, descendRightmostLeaf]
  refine bind_assoc (hE.wp_read hpl (bind_ok rfl (hE.wp_read hpl (of_bind_pure ?_))))
  refine hE.wp_write_own o (hperm.mem_iff.mpr mem_cons_self) fun s' o' e' hsame => pure ?_
  let pl' : Node 0 := relink pl (layout.rootPid x)
  refine ⟨k1 ++ [pl'], by simp [pl', relink], by simpa [pl', relink] using o', ?_, ?_,
    fun _ _ => ?_, fun e => ?_, ?_⟩
  · -- Only the relinked leaf's page has changed.
    have hrest : ∀ d ∈ k1 ++ [x, y] ++ c2, layout.Stored (view s') d :=
      stored_congr (H := view s) (fun d hd => hs d (by simp at hd ⊢; tauto))
        fun q hq => hsame q fun h => hout (h ▸ mem_cons_of_mem _ hq)
    intro d hd
    by_cases hd' : d = pl'
    · subst hd'; exact e'
    · exact hrest d (by simp only [mem_append, List.mem_singleton] at hd ⊢; tauto)
  · refine SepChain.imp hch ?_
    have hrefl (ds : List (Node 0)) : Forall₂ (fun c d => ∀ K ⊆ I, layout.Ordered K c →
        layout.Ordered K d) ds ds := forall₂_same.mpr fun _ _ _ _ h => h
    refine rel_append (rel_append (rel_append (hrefl k1) (.cons ?_ .nil)) (hrefl _)) (hrefl _)
    exact fun K _ h => h
  · exact trivial
  · rw [← g.kids_entries rt]
    simp [pl', relink, setNextLeaf]
  · obtain ⟨hn, hxy⟩ := leafSplit_leaf g.leaves
    refine .inr ⟨k1 ++ [pl], c, c2, ?_, ?_, hn, k1 ++ [pl'], x, y, ?_, hxy, fun hfirst => ?_,
      fun _ => ⟨by simp, (relinkLast_append_singleton ..).symm⟩⟩
    · rw [leaves_succ, flatMap_leaves_zero, rt.kids]
    · rw [leafPos_eq rt, flatMap_leaves_zero]; rfl
    · rw [flatMap_leaves_zero]; simp
    · have : b.node.findChildIdx key = 0 := hfirst
      rw [findChildIdx rt] at this
      simp at this

theorem absorbChild_spec (hE : E.Lawful NULL_PAGE view) {res : InsertResult}
    (hb : layout.Valid H I b) (hbr : Branches HasKeys b) (rt : layout.Route I b key s1 s2 c1 c c2 J)
    (hf : 0 < fuel) (hpost : InsertPost H (view s) J c key rid ff res) :
    WP (absorbChild E fuel b.pid b.node c1.length (layout.rootPid c) res) s fun r s' =>
      InsertPost H (view s') I b key rid ff r := by
  cases res with
  | ok pid =>
    obtain ⟨rfl, c', hp, g⟩ := hpost
    simp only [absorbChild, if_pos]
    exact pure ⟨rfl, ⟨b.pid, b.node, c1 ++ [c'] ++ c2⟩, rfl, g.branch hb hbr rt hp⟩
  | split leftPid rightPid sep leafSplit =>
    obtain ⟨rfl, -, l, r, rfl, rfl, g⟩ := hpost
    cases h with
    | succ h =>
      simp only [absorbChild, Nat.succ_ne_zero, decide_false, Bool.false_eq_true, false_and, if_false]
      exact absorbSplit_spec hE hb rt rfl (g.toKids hb hbr rt (firstKid_iff rt))
    | zero =>
      by_cases hidx : c1.length > 0
      · simp only [absorbChild, decide_true, hidx, and_self, if_true]
        refine bind (updatePredecessorNextLeaf_spec hE hb rt g hidx hf) fun _ s' ⟨c1', hc, k⟩ => ?_
        exact absorbSplit_spec hE hb rt hc k
      simp only [absorbChild, hidx, and_false, if_false]
      refine absorbSplit_spec hE hb rt rfl (g.toKids hb hbr rt ⟨fun _ => trivial, fun _ => ?_⟩)
      show b.node.findChildIdx key = 0
      rw [findChildIdx rt]
      omega

theorem childIsSafeForInsert_eq (ff : Nat) (hE : E.Lawful NULL_PAGE view) (hc : layout.Stored (view s) c) :
    ∃ safe, childIsSafeForInsert E (layout.rootPid c) ff s = .ok safe s ∧ (safe → ¬ Full ff c) := by
  cases h with
  | zero =>
    refine eq_ok_iff (hE.wp_read hc (pure ⟨rfl, fun h => ?_⟩))
    simpa [Full] using h
  | succ h =>
    refine eq_ok_iff (hE.wp_read hc.1 (pure ⟨rfl, fun h => ?_⟩))
    simpa [Full] using h

/-- A leaf with room takes the key on its own page. -/
theorem insertAt_leaf {b : List (Bytes × RecordId)} (e : l.node.slots = a ++ b)
    (hlt : l.node.numKeys < ORDER_LEAF) (key : Bytes) (rid : RecordId) :
    ∃ hfits, l.node.insertAt a.length key rid =
      some ⟨a ++ (key, rid) :: b, l.node.nextLeaf, hfits⟩ := by
  have hfits : (a ++ (key, rid) :: b).length ≤ ORDER_LEAF := by
    rw [LeafNodePage.numKeys, e] at hlt
    simp at hlt ⊢
    omega
  refine ⟨hfits, ?_⟩
  rw [LeafNodePage.insertAt, e, insertIdx_append_length, ofArrays_eq hfits]

theorem grown_leaf {b : List (Bytes × RecordId)} {hfits} (hl : layout.Valid (h := 0) H I l)
    (hk : key ∈ I) (e : l.node.slots = a ++ b) (ha : ∀ x ∈ a, x.1 < key) (hb : ∀ x ∈ b, key < x.1)
    (hlt : l.node.numKeys < fillThreshold ORDER_LEAF ff) (o : Owns H H' [l.pid] [l.pid])
    (hH : H' l.pid = some (.leaf ⟨a ++ (key, rid) :: b, l.node.nextLeaf, hfits⟩)) : Grown (h := 0) H H' I l key rid ff []
      [(⟨l.pid, ⟨a ++ (key, rid) :: b, l.node.nextLeaf, hfits⟩⟩ : Leaf)] := by
  refine ⟨replaces_leaf o hH (ordered_insert hl.ordered hk e ha hb rid), fun _ _ => trivial,
    fun x => ?_, .inl ⟨[], l, [], rfl, hlt, _, rfl, rfl, ?_⟩⟩
  · rw [entries_zero, layout_leafEntries, e]
    simp
    tauto
  · simp [LeafNodePage.numKeys, e]
    omega

theorem insertSubtreeBatched_spec (hE : E.Lawful NULL_PAGE view) {t : Node h}
    (ht : layout.Valid (view s) I t) (hbr : Branches HasKeys t) (hk : key ∈ I)
    (hm : ∀ e ∈ layout.entries t, e.1 ≠ key) (hff : ff ≤ 100) (hf : h < fuel) :
    WP (insertSubtreeBatched E fuel (layout.rootPid t) key rid ff) s fun r s' =>
      InsertPost (view s) (view s') I t key rid ff r := by
  induction h generalizing I fuel with
  | zero =>
    obtain _ | fuel := fuel
    · omega
    rw [entries_zero] at hm
    obtain ⟨a, b, e, ha, hb, hsearch⟩ :=
      search_missing (ordered_leaf.mp ht.ordered).1 hm
    refine hE.wp_read ht.stored ?_
    simp only [hsearch]
    split
    next hlt =>
      obtain ⟨hfits, hins⟩ := insertAt_leaf e (hlt.trans_le (fillThreshold_le hff)) key rid
      refine wp_checked hins (hE.wp_write_own ht.owns (by simp) fun s' o e' _ => pure ?_)
      exact ⟨rfl, (⟨pid t, _, _, hfits⟩ : Leaf), rfl, grown_leaf ht hk e ha hb hlt o e'⟩
    next hge => exact insertLeafBatched_spec hE ht hk hm (Nat.le_of_not_lt hge)
  | succ h ih =>
    obtain _ | fuel := fuel
    · omega
    obtain ⟨s1, s2, c1, c, c2, J, rt⟩ := ht.ordered.route hk
    have hc : c ∈ t.kids := by simp [rt.kids]
    have hchild := ih (ht.kid hc rt.child) (hbr.2 c hc) rt.mem
      (fun e he => hm e (rt.mem_entries.mpr (.inr (.inl he)))) (show h < fuel by omega)
    obtain ⟨safe, hsafe, hnot⟩ := childIsSafeForInsert_eq ff hE (ht.kid_stored hc)
    refine hE.wp_read ht.page ?_
    simp only [layout_branchPage, findChildIdx rt, childAt rt ht]
    refine bind_ok hsafe ?_
    split
    next hs =>
      -- A safe child is not split, so the result that is dropped is its own page.
      refine bind hchild fun res s' hpost => ?_
      match res, hpost with
      | .ok _, ⟨_, c', hp, g⟩ =>
        exact pure ⟨rfl, ⟨t.pid, t.node, c1 ++ [c'] ++ c2⟩, rfl, g.branch ht hbr rt hp⟩
      | .split .., ⟨_, hfull, _⟩ => exact (hnot hs hfull).elim
    next => exact bind hchild fun res s' hpost => absorbChild_spec hE ht hbr rt (by omega) hpost

end BTree

end AxiomDb.Index
