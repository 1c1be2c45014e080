import AxiomDb.Index.InsertSpec
import AxiomDb.Lib.Linked

/-!
# What a deletion does to the tree

`deleteSubtreeBatched_spec`: the deletion of a key from a subtree that has it
returns, and leaves in its place a tree (`Shrunk`) with the other entries. It is
by induction on the height. The child from which the key went may be `Weak`: an
internal node left without keys. Its parent then works on the pair of the child
and a neighbour (`Pair`): a rotation moves the separator between the two, a
merge removes it, and either puts the parent on a new page (`Pair.close`).

Leaves stay on their pages, so the chain of leaves is kept (`SameLinks`).
-/

namespace AxiomDb.Index

open Lib Set List InternalNodePage LeafNodePage Layout SepChain Leaf

/-- The internal nodes below the root have keys. -/
def Weak : {h : Nat} → Node h → Prop
  | 0, _ => True
  | _ + 1, b => ∀ c ∈ b.kids, Layout.Branches HasKeys c

/-- The number of keys on the root's page. -/
def nodeKeys : {h : Nat} → Node h → Nat
  | 0, l => (Leaf.node l).numKeys
  | _ + 1, b => b.node.numKeys

def minKeys (h : Nat) : Nat := if h = 0 then MIN_KEYS_LEAF else MIN_KEYS_INTERNAL

/-- The links of the leaves are kept. -/
abbrev KeepsLinks (ls ls' : List Leaf) : Prop :=
  SameLinks Leaf.pid (fun l => l.node.nextLeaf) ls ls'

theorem Weak.of_branches : {h : Nat} → {t : Node h} → Branches HasKeys t → Weak t
  | 0, _, _ => trivial
  | _ + 1, _, ht => ht.2

theorem Weak.branches : {h : Nat} → {t : Node h} → Weak t → (h ≠ 0 → 0 < nodeKeys t) →
    Branches HasKeys t
  | 0, _, _, _ => trivial
  | h + 1, _, ht, hn => ⟨hn (Nat.succ_ne_zero h), ht⟩

/-- The tree `t'` has the entries of `t` but for the key's. -/
structure Shrunk {h : Nat} (H H' : Heap Page) (I : Set Bytes) (t t' : Node h) (key : Bytes) :
    Prop where
  replaces : layout.Replaces H H' I t [] [t']
  weak : Weak t'
  entries (e : Bytes × RecordId) : e ∈ layout.entries t' ↔ e ∈ layout.entries t ∧ e.1 ≠ key
  links : KeepsLinks (Layout.leaves t) (Layout.leaves t')

/-- What the deletion from the subtree `t` returns. -/
def DeletePost {h : Nat} (H H' : Heap Page) (I : Set Bytes) (t : Node h) (key : Bytes)
    (isRoot : Bool) : DeleteResult → Prop
  | .notFound => False
  | .deleted pid underfull => ∃ t', layout.rootPid t' = pid ∧ Shrunk H H' I t t' key ∧
    (underfull = true → isRoot = false ∧ nodeKeys t' < minKeys h) ∧
    (underfull = false → isRoot = false → Layout.Branches HasKeys t') ∧
    (h = 0 → pid = layout.rootPid t)

variable {h : Nat} {I J : Set Bytes} {key : Bytes} {H H' H₁ : Heap Page}

/-! ## A pair of neighbours -/

/-- The children `x` and `y` of `b`, with the separator `m` between them, after the
key was deleted below one of them: `b` is still on its old page, whose pointers to
the two may be out of date. -/
structure Pair (H H₁ : Heap Page) (I : Set Bytes) (b : Node (h + 1)) (key : Bytes)
    (s₁ s₂ : List Bytes) (m : Bytes) (k₁ k₂ : List (Node h)) (x y : Node h) (J : Set Bytes) :
    Prop where
  owns : Owns H H₁ (layout.pages b) (b.pid :: (k₁ ++ [x, y] ++ k₂).flatMap layout.pages)
  stored : ∀ c ∈ k₁ ++ [x, y] ++ k₂, layout.Stored H₁ c
  keys : b.node.keys = s₁ ++ m :: s₂
  length_eq : k₁.length = s₁.length
  children : ∃ u v, b.node.children = k₁.map layout.rootPid ++ u :: v :: k₂.map layout.rootPid
  window : Window layout.Ordered I s₁ s₂ k₁ k₂ J
  chain : SepChain layout.Ordered J [m] [x, y]
  sides : ∀ c ∈ k₁ ++ k₂, Layout.Branches HasKeys c
  weak : Weak x ∧ Weak y
  entries (e : Bytes × RecordId) : e ∈ (k₁ ++ [x, y] ++ k₂).flatMap layout.entries ↔
    e ∈ layout.entries b ∧ e.1 ≠ key
  links : KeepsLinks (Layout.leaves b) ((k₁ ++ [x, y] ++ k₂).flatMap Layout.leaves)

/-- The parent is on the page `np`, with the pair repaired. -/
def RebalancePost (H H' : Heap Page) (I : Set Bytes) (b : Node (h + 1)) (key : Bytes)
    (np : PageId) : Prop :=
  ∃ b' : Node (h + 1), b'.pid = np ∧ Shrunk H H' I b b' key

variable {b : Node (h + 1)} {s₁ s₂ : List Bytes} {m : Bytes} {k₁ k₂ : List (Node h)} {x y : Node h}

section

variable (p : Pair H H₁ I b key s₁ s₂ m k₁ k₂ x y J)
include p

theorem Pair.keyAt : b.node.keyAt k₁.length = m := by
  rw [p.length_eq]; exact keyAt_append p.keys

/-- What has to be shown of the nodes `w` in the place of the pair. -/
theorem Pair.close {u : List Bytes} {w : List (Node h)} {node : InternalNodePage} {np : PageId}
    (o : Owns H H' (layout.pages b) (np :: (k₁ ++ w ++ k₂).flatMap layout.pages))
    (hpage : H' np = some (.internal node))
    (hsides : ∀ q ∈ (k₁ ++ k₂).flatMap layout.pages, H' q = H₁ q) (hs : ∀ c ∈ w, layout.Stored H' c)
    (hkeys : node.keys = s₁ ++ u ++ s₂) (hch : node.children = (k₁ ++ w ++ k₂).map layout.rootPid)
    (hchain : SepChain layout.Ordered J u w) (hw : ∀ c ∈ w, Branches HasKeys c)
    (hent : ∀ e, e ∈ w.flatMap layout.entries ↔ e ∈ layout.entries x ∨ e ∈ layout.entries y)
    (hlinks : KeepsLinks (leaves x ++ leaves y) (w.flatMap leaves)) :
    RebalancePost H H' I b key np := by
  have hstored := stored_congr (w := k₁ ++ k₂)
    (fun c hc => p.stored c (by simp only [mem_append] at hc ⊢; tauto)) hsides
  refine ⟨⟨np, node, k₁ ++ w ++ k₂⟩, rfl, ?_, fun c hc => ?_, fun e => ?_, p.links.trans ?_⟩
  · refine Valid.replaces ⟨⟨hpage, hch, fun c hc => ?_⟩, ?_, o.nodup⟩ o.keeps
    · by_cases hcw : c ∈ w
      · exact hs c hcw
      · exact hstored c (by simp only [mem_append] at hc ⊢; tauto)
    · have := p.window.fill hchain
      rw [← hkeys] at this
      exact this
  · by_cases hcw : c ∈ w
    · exact hw c hcw
    · exact p.sides c (by simp only [mem_append] at hc ⊢; tauto)
  · rw [← p.entries, entries_succ]
    simp only [flatMap_append, flatMap_cons, flatMap_nil, append_nil, mem_append, hent]
  · rw [leaves_succ]
    simp only [flatMap_append, flatMap_cons, flatMap_nil, append_nil]
    exact hlinks.append _ _

theorem Pair.rotated (m' : Bytes) (px py : PageId) :
    (((b.node.setKeyAt k₁.length m').setChildAt k₁.length px).setChildAt (k₁.length + 1) py).keys =
        s₁ ++ [m'] ++ s₂ ∧
      (((b.node.setKeyAt k₁.length m').setChildAt k₁.length px).setChildAt (k₁.length + 1)
        py).children = k₁.map layout.rootPid ++ [px, py] ++ k₂.map layout.rootPid := by
  obtain ⟨u, v, hch⟩ := p.children
  constructor
  · simp [setChildAt, setKeyAt, p.keys, p.length_eq]
  · simp [setChildAt, setKeyAt, hch]

theorem Pair.merged (pz : PageId) :
    ∃ node, (b.node.setChildAt k₁.length pz).removeAt k₁.length (k₁.length + 1) = some node ∧
      node.keys = s₁ ++ s₂ ∧
      node.children = k₁.map layout.rootPid ++ [pz] ++ k₂.map layout.rootPid := by
  obtain ⟨u, v, hch⟩ := p.children
  have hkeys : (b.node.setChildAt k₁.length pz).keys.eraseIdx k₁.length = s₁ ++ s₂ := by
    simp [setChildAt, p.keys, p.length_eq, eraseIdx_append_length]
  have hchild : (b.node.setChildAt k₁.length pz).children.eraseIdx (k₁.length + 1) =
      k₁.map layout.rootPid ++ pz :: k₂.map layout.rootPid := by
    have := eraseIdx_append_length_succ (k₁.map layout.rootPid) (k₂.map layout.rootPid) pz v
    simpa [setChildAt, hch] using this
  have hfits := b.node.fits
  have harity := b.node.arity
  rw [p.keys] at hfits harity
  rw [hch] at harity
  have hfits' : (s₁ ++ s₂).length ≤ ORDER_INTERNAL := by simp at hfits ⊢; omega
  have harity' : (k₁.map layout.rootPid ++ pz :: k₂.map layout.rootPid).length =
      (s₁ ++ s₂).length + 1 := by simp at harity ⊢; omega
  refine ⟨⟨_, _, hfits', harity'⟩, ?_, rfl, by simp⟩
  rw [InternalNodePage.removeAt, hkeys, hchild]
  exact ofArrays_eq hfits' harity'

end

section Shrunk

variable {c c' : Node h} {c1 c2 : List (Node h)}

theorem Shrunk.kid_entries (g : Shrunk H H' J c c' key) (rt : Route layout I b key s₁ s₂ c1 c c2 J)
    (e : Bytes × RecordId) :
    e ∈ (c1 ++ [c'] ++ c2).flatMap layout.entries ↔ e ∈ layout.entries b ∧ e.1 ≠ key := by
  have hside := rt.ne_of_mem_sides (e := e) rt.mem
  rw [rt.mem_entries]
  simp only [flatMap_append, flatMap_cons, flatMap_nil, append_nil, mem_append, g.entries]
  tauto

theorem Shrunk.kid_links (g : Shrunk H H' J c c' key) (rt : Route layout I b key s₁ s₂ c1 c c2 J) :
    KeepsLinks (leaves b) ((c1 ++ [c'] ++ c2).flatMap leaves) := by
  rw [rt.leaves_eq]
  simp only [flatMap_append, flatMap_cons, flatMap_nil, append_nil]
  exact g.links.append _ _

theorem branches_kids (hbr : Branches HasKeys b) (rt : Route layout I b key s₁ s₂ c1 c c2 J)
    (hw : Branches HasKeys c') : ∀ d ∈ c1 ++ [c'] ++ c2, Branches HasKeys d := by
  intro d hd
  simp only [mem_append, List.mem_singleton] at hd
  rcases hd with (hd | rfl) | hd
  · exact hbr.2 d (by simp [rt.kids, hd])
  · exact hw
  · exact hbr.2 d (by simp [rt.kids, hd])

/-- The branch with the new child, on its old page. -/
theorem Shrunk.branch (g : Shrunk H H₁ J c c' key) (hb : layout.Valid H I b)
    (hbr : Branches HasKeys b) (rt : Route layout I b key s₁ s₂ c1 c c2 J)
    (hw : Branches HasKeys c') {node : InternalNodePage}
    (o : Owns H H' (layout.pages b) (b.pid :: (c1 ++ [c'] ++ c2).flatMap layout.pages))
    (hpage : H' b.pid = some (.internal node)) (hsame : ∀ q, q ≠ b.pid → H' q = H₁ q)
    (hkeys : node.keys = b.node.keys)
    (hch : node.children = (c1 ++ [c'] ++ c2).map layout.rootPid) :
    Shrunk H H' I b (⟨b.pid, node, c1 ++ [c'] ++ c2⟩ : Branch InternalNodePage (Node h)) key := by
  obtain ⟨-, hst, hchain, -⟩ := g.replaces.kids hb rt
  have hnd := nodup_cons.mp o.nodup
  refine ⟨?_, branches_kids hbr rt hw, fun e => ?_, leaves_succ .. ▸ g.kid_links rt⟩
  · refine Valid.replaces ⟨⟨hpage, hch, ?_⟩, ?_, o.nodup⟩ o.keeps
    · exact stored_congr hst fun q hq => hsame q fun h => hnd.1 (h ▸ hq)
    · rw [append_nil, ← rt.seps, layout_seps, ← hkeys] at hchain
      exact hchain
  · rw [← g.kid_entries rt, entries_succ]

section

variable (g : Shrunk H H' J c c' key)
include g

section

variable (hb : layout.Valid H I b) (hbr : Branches HasKeys b)
include hb hbr

/-- The child is on its old page, and nothing is written for the branch. -/
theorem Shrunk.branch_same (rt : Route layout I b key s₁ s₂ c1 c c2 J)
    (hw : Branches HasKeys c') (hp : layout.rootPid c' = layout.rootPid c) :
    Shrunk H H' I b (⟨b.pid, b.node, c1 ++ [c'] ++ c2⟩ : Branch InternalNodePage (Node h)) key := by
  obtain ⟨o, -, -, hpage⟩ := g.replaces.kids hb rt
  refine g.branch hb hbr rt hw o (hpage.trans hb.page) (fun _ _ => rfl) rfl ?_
  have := hb.children
  rw [rt.kids] at this
  simpa [hp] using this

theorem Shrunk.pair (rt : Route layout I b key s₁ s₂ c1 c c2 J) {u v : List Bytes}
    (hs : s₁ ++ s₂ = u ++ m :: v) (hk : c1 ++ [c'] ++ c2 = k₁ ++ [x, y] ++ k₂)
    (hl : k₁.length = u.length) (hside : ∀ d ∈ k₁ ++ k₂, d ∈ c1 ++ c2) (hw : Weak x ∧ Weak y)
    (hch : ∃ p q, b.node.children = k₁.map layout.rootPid ++ p :: q :: k₂.map layout.rootPid) :
    ∃ J', Pair H H' I b key u v m k₁ k₂ x y J' := by
  obtain ⟨o, hst, hchain, -⟩ := g.replaces.kids hb rt
  rw [append_nil, hk, hs, ← singleton_append, ← append_assoc] at hchain
  have hlen := hchain.length_eq
  simp only [length_append, length_cons, length_nil] at hlen
  obtain ⟨J', hJ', W⟩ := hchain.window hl (by omega)
  rw [hk] at o hst
  refine ⟨J', o, hst, rt.seps.trans hs, hl, hch, W, hJ', fun d hd => hbr.2 d ?_, hw, fun e => ?_, ?_⟩
  · have := hside d hd
    rw [rt.kids]
    simp only [mem_append, mem_cons] at this ⊢
    tauto
  · rw [← hk]
    exact g.kid_entries rt e
  · rw [← hk]
    exact g.kid_links rt

theorem Shrunk.pair_left (rt : Route layout I b key s₁ s₂ (k₁ ++ [x]) c c2 J) :
    ∃ u m J', Pair H H' I b key u s₂ m k₁ c2 x c' J' := by
  obtain ⟨u, m, rfl⟩ := (eq_nil_or_concat' s₁).resolve_left fun h => by
    have := rt.length₁
    simp [h] at this
  refine ⟨u, m, g.pair hb hbr rt (by simp) (by simp) ?_ ?_ ⟨?_, g.weak⟩
    ⟨layout.rootPid x, layout.rootPid c, ?_⟩⟩
  · simpa using rt.length₁
  · intro d hd
    simp only [mem_append, List.mem_singleton] at hd ⊢
    tauto
  · exact Weak.of_branches (hbr.2 x (by simp [rt.kids]))
  · have := hb.children
    rw [rt.kids] at this
    simpa using this

theorem Shrunk.pair_right (rt : Route layout I b key s₁ s₂ c1 c (y :: k₂) J) :
    ∃ v m J', Pair H H' I b key s₁ v m c1 k₂ c' y J' := by
  obtain ⟨m, v, rfl⟩ := exists_cons_of_ne_nil (l := s₂) fun h => by
    have := rt.length₂
    simp [h] at this
  refine ⟨v, m, g.pair hb hbr rt rfl (by simp) rt.length₁ ?_ ⟨g.weak, ?_⟩
    ⟨layout.rootPid c, layout.rootPid y, ?_⟩⟩
  · intro d hd
    simp only [mem_append, mem_cons] at hd ⊢
    tauto
  · exact Weak.of_branches (hbr.2 y (by simp [rt.kids]))
  · have := hb.children
    rw [rt.kids] at this
    simpa using this

end

end

theorem shrunk_leaf {l : Leaf} {a r : List (Bytes × RecordId)} {rid : RecordId}
    (hl : layout.Valid (h := 0) H I l) (e : l.node.slots = a ++ (key, rid) :: r)
    (ha : ∀ x ∈ a, x.1 < key) (hr : ∀ x ∈ r, key < x.1) (o : Owns H H' [l.pid] [l.pid])
    (hH : H' l.pid = some (.leaf (l.node.removeAt a.length))) :
    Shrunk (h := 0) H H' I l (⟨l.pid, l.node.removeAt a.length⟩ : Leaf) key := by
  have hslots : (l.node.removeAt a.length).slots = a ++ r := by
    have := eraseIdx_append_length a r (key, rid)
    rwa [← e] at this
  have hsub : (a ++ r).Sublist l.node.slots := by rw [e]; simp
  obtain ⟨hs, hm⟩ := ordered_leaf.mp hl.ordered
  refine ⟨replaces_leaf o hH (ordered_leaf.mpr ⟨?_, fun x hx => hm x ?_⟩), trivial, fun x => ?_,
    SameLinks.of_forall₂ (.cons ⟨rfl, rfl⟩ .nil)⟩
  · rw [Sorted, hslots]
    exact hs.sublist hsub
  · exact hsub.subset (hslots ▸ hx)
  rw [entries_zero, entries_zero, layout_leafEntries, layout_leafEntries, hslots, e]
  have hne {x : Bytes × RecordId} (hx : x ∈ a ∨ x ∈ r) : x.1 ≠ key :=
    hx.elim (fun hx => (ha x hx).ne) fun hx => (hr x hx).ne'
  simp only [mem_append, mem_cons]
  constructor
  · exact fun hx => ⟨hx.imp id .inr, hne hx⟩
  rintro ⟨hx | rfl | hx, hk⟩
  · exact .inl hx
  · exact absurd rfl hk
  · exact .inr hx

end Shrunk

section Internal

variable {b : Node (h + 2)} {k₁ k₂ : List (Node (h + 1))} {x y : Node (h + 1)}

theorem pages_pair (k₁ k₂ : List (Node (h + 1))) (x y : Node (h + 1)) :
    ((k₁ ++ [x, y] ++ k₂).flatMap layout.pages).Perm (x.pid :: y.pid ::
      ((x.kids ++ y.kids).flatMap layout.pages ++ (k₁ ++ k₂).flatMap layout.pages)) :=
  perm_iff_count.mpr fun p => by
    simp only [flatMap_append, flatMap_cons, flatMap_nil, pages_succ,
      count_append, count_cons, count_nil]
    omega

section

variable (p : Pair H H₁ I b key s₁ s₂ m k₁ k₂ x y J)
include p

theorem Pair.join :
    SepChain layout.Ordered J (x.node.keys ++ m :: y.node.keys) (x.kids ++ y.kids) := by
  obtain ⟨hm, hx, hl, hr⟩ := p.chain
  exact (sepChain_append_cons (SepChain.length_eq hl)).mpr ⟨hm, hx, hl, hr⟩

theorem Pair.kids_stored : ∀ c ∈ x.kids ++ y.kids, layout.Stored H₁ c :=
  forall_mem_append.mpr ⟨(p.stored x (by simp)).2.2, (p.stored y (by simp)).2.2⟩

theorem Pair.kids_branches : ∀ c ∈ x.kids ++ y.kids, Branches HasKeys c :=
  forall_mem_append.mpr p.weak

/-- The pages of the pair after the allocations. -/
theorem Pair.read (hsame : ∀ q, q ∈ (k₁ ++ [x, y] ++ k₂).flatMap layout.pages → H' q = H₁ q) :
    H' x.pid = some (.internal x.node) ∧ H' y.pid = some (.internal y.node) :=
  ⟨(hsame _ (by simp [pages_succ])).trans (p.stored x (by simp)).1,
    (hsame _ (by simp [pages_succ])).trans (p.stored y (by simp)).1⟩

end

end Internal

namespace BTree

variable {σ : Type} {E : StorageEngine Stop σ Page} {view : σ → Heap Page} {s : σ}
  (hE : E.Lawful NULL_PAGE view) {isRoot : Bool} {β : Type} {R : β → σ → Prop}

include hE

theorem wp_readLeaf {pid : PageId} {n : LeafNodePage} {f : LeafNodePage → EStateM Stop σ β}
    (hp : view s pid = some (.leaf n)) (h : WP (f n) s R) : WP (readLeaf E pid >>= f) s R := by
  rw [readLeaf, bind_assoc]
  exact hE.wp_read hp h

theorem wp_readInternal {pid : PageId} {n : InternalNodePage}
    {f : InternalNodePage → EStateM Stop σ β} (hp : view s pid = some (.internal n))
    (h : WP (f n) s R) : WP (readInternal E pid >>= f) s R := by
  rw [readInternal, bind_assoc]
  exact hE.wp_read hp h

section Leaves

variable {b : Node 1} {k₁ k₂ : List (Node 0)} {x y : Node 0}

/-- The parent's new page is allocated, and both leaves are read. -/
theorem wp_readLeaves {f : PageId → LeafNodePage → LeafNodePage → EStateM Stop σ PageId}
    {R : PageId → σ → Prop} (p : Pair H (view s) I b key s₁ s₂ m k₁ k₂ x y J)
    (h : ∀ np s', Owns H (view s') (layout.pages b)
        (np :: b.pid :: pid x :: pid y :: (k₁ ++ k₂).flatMap layout.pages) →
      (∀ q, q ≠ np → view s' q = view s q) → WP (f np (node x) (node y)) s' R) : WP (do
      let np ← E.allocPage
      let l ← readLeaf E (layout.rootPid x)
      let r ← readLeaf E (layout.rootPid y)
      f np l r) s R := by
  refine hE.wp_alloc_own p.owns fun np s' o hnp hsame => ?_
  have hread {c : Node 0} (hc : c ∈ k₁ ++ [x, y] ++ k₂) : view s' (pid c) = some (.leaf (node c)) :=
    (hsame _ fun h => hnp (mem_cons_of_mem _ (h ▸ mem_flatMap.mpr ⟨c, hc, by simp⟩))).trans
      (p.stored c hc)
  refine wp_readLeaf hE (hread (by simp)) (wp_readLeaf hE (hread (by simp)) (h np s' ?_ hsame))
  exact o.perm (((pages_run (Λ := layout) k₁ [x, y] k₂).cons b.pid).cons np).symm

/-- The end of a rotation of leaves: both are written where they are, and the parent
on its new page. -/
theorem rotate_leaf {s0 : σ} {X Y : LeafNodePage} {m' : Bytes}
    {np : PageId} (p : Pair H (view s0) I b key s₁ s₂ m k₁ k₂ x y J)
    (o : Owns H (view s) (layout.pages b)
      (np :: b.pid :: pid x :: pid y :: (k₁ ++ k₂).flatMap layout.pages))
    (hsame : ∀ q, q ≠ np → view s q = view s0 q)
    (hchain : SepChain (layout.Ordered (h := 0)) J [m'] [⟨pid x, X⟩, ⟨pid y, Y⟩])
    (hent : ∀ e, e ∈ X.slots ∨ e ∈ Y.slots ↔ e ∈ (node x).slots ∨ e ∈ (node y).slots)
    (hX : X.nextLeaf = (node x).nextLeaf) (hY : Y.nextLeaf = (node y).nextLeaf) :
    WP (do
      E.writePage (layout.rootPid x) (.leaf X)
      E.writePage (layout.rootPid y) (.leaf Y)
      E.writePage np (.internal (((b.node.setKeyAt k₁.length m').setChildAt k₁.length
        (layout.rootPid x)).setChildAt (k₁.length + 1) (layout.rootPid y)))
      E.freePage b.pid
      pure np) s fun np s' => RebalancePost H (view s') I b key np := by
  obtain ⟨hkeys, hch⟩ := p.rotated m' (pid x) (pid y)
  have hnd := o.nodup
  simp only [nodup_cons, mem_cons, not_or] at hnd
  obtain ⟨⟨hnb, hnx, hny, hnr⟩, ⟨hbx, hby, hbr⟩, ⟨hxy, hxr⟩, hyr, -⟩ := hnd
  refine hE.wp_write_own o (by simp) fun s₂ o2 e2 h2 => ?_
  refine hE.wp_write_own o2 (by simp) fun s3 o3 e3 h3 => ?_
  refine hE.wp_write_own o3 (by simp) fun s4 o4 e4 h4 => ?_
  refine hE.wp_free_own (Q := np :: pid x :: pid y :: (k₁ ++ k₂).flatMap layout.pages) o4
    (Perm.swap ..) fun s5 o5 h5 => WP.pure ?_
  refine p.close (w := [(⟨pid x, X⟩ : Leaf), (⟨pid y, Y⟩ : Leaf)]) (u := [m'])
    (o5.perm ?_) ((h5 _ hnb).trans e4) ?_ ?_ hkeys ?_ hchain (fun _ _ => trivial) ?_ ?_
  · exact (pages_run k₁ _ k₂).cons np
  · intro q hq
    have ne {r : PageId} (hr : r ∉ (k₁ ++ k₂).flatMap layout.pages) : q ≠ r := fun h => hr (h ▸ hq)
    rw [h5 q (ne hbr), h4 q (ne hnr), h3 q (ne hyr), h2 q (ne hxr), hsame q (ne hnr)]
  · rintro _ (_ | ⟨_, _ | ⟨_, ⟨⟩⟩⟩)
    · exact (h5 _ (Ne.symm hbx)).trans ((h4 _ (Ne.symm hnx)).trans ((h3 _ hxy).trans e2))
    · exact (h5 _ (Ne.symm hby)).trans ((h4 _ (Ne.symm hny)).trans e3)
  · exact hch.trans (by simp)
  · simpa using hent
  · exact SameLinks.of_forall₂ (.cons ⟨rfl, hX⟩ (.cons ⟨rfl, hY⟩ .nil))

section

variable (p : Pair H (view s) I b key s₁ s₂ m k₁ k₂ x y J)
include p

theorem rotateRightBatched_leaf
    (hx : MIN_KEYS_LEAF < nodeKeys x) (hy : nodeKeys y < MIN_KEYS_LEAF) :
    WP (rotateRightBatched E b.pid b.node (k₁.length + 1) (layout.rootPid y) (layout.rootPid x) true)
      s fun np s' => RebalancePost H (view s') I b key np := by
  simp only [nodeKeys, LeafNodePage.numKeys, MIN_KEYS_LEAF, ORDER_LEAF] at hx hy
  obtain ⟨a, e, hxs⟩ := (eq_nil_or_concat' (Leaf.node x).slots).resolve_left fun h => by
    simp [h] at hx
  have hlk : (Leaf.node x).numKeys - 1 = a.length := by simp [LeafNodePage.numKeys, hxs]
  have hkey : (Leaf.node x).keyAt a.length = e.1 := by simp [LeafNodePage.keyAt, hxs]
  have hrid : (node x).ridAt a.length = e.2 := by simp [ridAt, hxs]
  have hfits : (e :: (Leaf.node y).slots).length ≤ ORDER_LEAF := by simp [ORDER_LEAF]; omega
  have hins : (node y).insertAt 0 e.1 e.2 =
      some ⟨e :: (node y).slots, (node y).nextLeaf, hfits⟩ :=
    @ofArrays_eq (e :: (node y).slots) _ hfits
  have hrem : ((node x).removeAt a.length).slots = a := by
    have := eraseIdx_append_length a [] e
    simpa [LeafNodePage.removeAt, hxs] using this
  obtain ⟨hsort, hmem⟩ := leaf_join (Λ := layout) p.chain
  simp only [layout_leafEntries, hxs, append_assoc, singleton_append] at hsort hmem
  simp only [rotateRightBatched, if_true, pure_bind, Nat.add_sub_cancel]
  refine wp_readLeaves hE p fun np s' o hsame => ?_
  simp only [hlk, hkey, hrid]
  refine wp_checked hins (rotate_leaf hE p o hsame ?_ ?_ rfl rfl)
  · exact leaf_cut (Λ := layout) hsort hmem hrem rfl
      (ne_nil_of_length_pos (by simp [hxs] at hx; omega))
  · simp [hrem, hxs]; tauto

theorem rotateLeftBatched_leaf (hy : MIN_KEYS_LEAF < nodeKeys y) (hx : nodeKeys x < MIN_KEYS_LEAF) :
    WP (rotateLeftBatched E b.pid b.node k₁.length (layout.rootPid x) (layout.rootPid y) true)
      s fun np s' => RebalancePost H (view s') I b key np := by
  simp only [nodeKeys, LeafNodePage.numKeys, MIN_KEYS_LEAF, ORDER_LEAF] at hx hy
  obtain ⟨e, f, r, hys⟩ : ∃ e f r, (node y).slots = e :: f :: r := by
    obtain ⟨e, t, hys⟩ := exists_cons_of_length_pos (l := (Leaf.node y).slots) (by omega)
    obtain ⟨f, r, rfl⟩ := exists_cons_of_length_pos (l := t) (by simp [hys] at hy; omega)
    exact ⟨e, f, r, hys⟩
  have hkey : (Leaf.node y).keyAt 0 = e.1 := by simp [LeafNodePage.keyAt, hys]
  have hrid : (node y).ridAt 0 = e.2 := by simp [ridAt, hys]
  have hfits : ((Leaf.node x).slots ++ [e]).length ≤ ORDER_LEAF := by simp [ORDER_LEAF]; omega
  have hins : (node x).insertAt (node x).numKeys e.1 e.2 =
      some ⟨(node x).slots ++ [e], (node x).nextLeaf, hfits⟩ := by
    have := insertIdx_append_length (node x).slots [] e
    rw [append_nil] at this
    rw [LeafNodePage.insertAt, LeafNodePage.numKeys, this, ofArrays_eq hfits]
  have hrem : ((Leaf.node y).removeAt 0).slots = f :: r := by simp [LeafNodePage.removeAt, hys]
  have hsep : ((Leaf.node y).removeAt 0).keyAt 0 = f.1 := by simp [LeafNodePage.keyAt, hrem]
  obtain ⟨hsort, hmem⟩ := leaf_join (Λ := layout) p.chain
  simp only [layout_leafEntries, hys, show ∀ l : List (Bytes × RecordId),
    l ++ e :: f :: r = (l ++ [e]) ++ f :: r from fun l => by simp] at hsort hmem
  simp only [rotateLeftBatched, if_true, pure_bind]
  refine wp_readLeaves hE p fun np s' o hsame => ?_
  simp only [hkey, hrid, hsep]
  refine wp_checked hins (rotate_leaf hE p o hsame ?_ ?_ rfl rfl)
  · exact leaf_cut (Λ := layout) hsort hmem rfl hrem (by simp)
  · simp [hrem, hys]; tauto

theorem mergeChildrenBatched_leaf (hfits : nodeKeys x + nodeKeys y ≤ ORDER_LEAF) :
    WP (mergeChildrenBatched E b.pid b.node k₁.length (layout.rootPid x) (layout.rootPid y) true)
      s fun np s' => RebalancePost H (view s') I b key np := by
  have hfits : ((node x).slots ++ (node y).slots).length ≤ ORDER_LEAF := by
    simpa [nodeKeys, LeafNodePage.numKeys] using hfits
  obtain ⟨node, hnode, hkeys, hch⟩ := p.merged (pid x)
  have hjoin := leaf_join (Λ := layout) p.chain
  simp only [mergeChildrenBatched, if_true, pure_bind]
  refine wp_readLeaves hE p fun np s' o hsame => ?_
  refine wp_checked (ofArrays_eq hfits) ?_
  have hnd := o.nodup
  simp only [nodup_cons, mem_cons, not_or] at hnd
  obtain ⟨⟨hnb, hnx, hny, hnr⟩, ⟨hbx, hby, hbr⟩, ⟨hxy, hxr⟩, hyr, -⟩ := hnd
  refine hE.wp_write_own o (by simp) fun s₂ o2 e2 h2 => ?_
  refine wp_checked hnode (hE.wp_write_own o2 (by simp) fun s3 o3 e3 h3 => ?_)
  refine hE.wp_free_own o3 (Perm.swap ..) fun s4 o4 h4 => ?_
  refine hE.wp_free_own (Q := np :: pid x :: (k₁ ++ k₂).flatMap layout.pages) o4 ?_
    fun s5 o5 h5 => WP.pure ?_
  · exact perm_iff_count.mpr fun q => by
      simp only [count_cons, layout_rootPid_leaf]; omega
  refine p.close (w := [(⟨Leaf.pid x, _, (Leaf.node y).nextLeaf, hfits⟩ : Leaf)]) (u := [])
    (o5.perm ?_) ((h5 _ hny).trans ((h4 _ hnb).trans e3)) ?_ ?_ ?_ ?_ hjoin (fun _ _ => trivial) ?_ ?_
  · exact (pages_run k₁ _ k₂).cons np
  · intro q hq
    have ne {r : PageId} (hr : r ∉ (k₁ ++ k₂).flatMap layout.pages) : q ≠ r := fun h => hr (h ▸ hq)
    rw [h5 q (ne hyr), h4 q (ne hbr), h3 q (ne hnr), h2 q (ne hxr), hsame q (ne hnr)]
  · rintro _ (_ | ⟨_, ⟨⟩⟩)
    exact (h5 _ hxy).trans ((h4 _ (Ne.symm hbx)).trans ((h3 _ (Ne.symm hnx)).trans e2))
  · simp [hkeys]
  · exact hch.trans (by simp)
  · intro e; simp
  · exact SameLinks.join rfl rfl

end

end Leaves

section Internal

variable {b : Node (h + 2)} {k₁ k₂ : List (Node (h + 1))} {x y : Node (h + 1)}

/-- The end of a rotation of internal nodes: both are written on new pages, their
old ones are freed, and the parent is written on its new page. -/
theorem rotate_internal {s0 : σ} {X Y : InternalNodePage} {xk yk : List (Node h)} {m' : Bytes}
    {np px py f1 f2 : PageId} {qs : List PageId} (p : Pair H (view s0) I b key s₁ s₂ m k₁ k₂ x y J)
    (o : Owns H (view s) (layout.pages b) qs)
    (hqs : qs.Perm (px :: py :: np :: b.pid :: (k₁ ++ [x, y] ++ k₂).flatMap layout.pages))
    (hsame : ∀ q, q ≠ np → q ≠ px → q ≠ py → view s q = view s0 q)
    (hf : [f1, f2].Perm [x.pid, y.pid]) (hk : xk ++ yk = x.kids ++ y.kids)
    (hX : X.children = xk.map layout.rootPid) (hY : Y.children = yk.map layout.rootPid)
    (hchain : SepChain (layout.Ordered (h := h + 1)) J [m'] [⟨px, X, xk⟩, ⟨py, Y, yk⟩])
    (hXk : HasKeys X) (hYk : HasKeys Y) : WP (do
      E.writePage px (.internal X)
      E.writePage py (.internal Y)
      E.freePage f1
      E.freePage f2
      E.writePage np (.internal (((b.node.setKeyAt k₁.length m').setChildAt k₁.length
        px).setChildAt (k₁.length + 1) py))
      E.freePage b.pid
      pure np) s fun np s' => RebalancePost H (view s') I b key np := by
  obtain ⟨hkeys, hch⟩ := p.rotated m' px py
  generalize hR : (x.kids ++ y.kids).flatMap layout.pages ++ (k₁ ++ k₂).flatMap layout.pages = R
  have hpair := pages_pair k₁ k₂ x y
  rw [hR] at hpair
  replace o : Owns H (view s) (layout.pages b) (f1 :: f2 :: px :: py :: np :: b.pid :: R) := by
    refine o.perm (Perm.trans ?_ hqs.symm)
    refine perm_iff_count.mpr fun q => ?_
    have h1 := hpair.count_eq q
    have h2 := hf.count_eq q
    simp only [count_cons, count_nil] at h1 h2 ⊢
    omega
  have hnd := o.nodup
  simp only [nodup_cons, mem_cons, not_or] at hnd
  obtain ⟨⟨-, h1x, h1y, h1n, -, h1R⟩, ⟨h2x, h2y, h2n, -, h2R⟩, ⟨hxy, hxn, hxb, hxR⟩, ⟨hyn, hyb, hyR⟩,
    ⟨hnb, hnR⟩, hbR, -⟩ := hnd
  refine hE.wp_write_own o (by simp) fun s₂ o2 e2 h2 => ?_
  refine hE.wp_write_own o2 (by simp) fun s3 o3 e3 h3 => ?_
  refine hE.wp_free_own o3 (Perm.refl _) fun s4 o4 h4 => ?_
  refine hE.wp_free_own o4 (Perm.refl _) fun s5 o5 h5 => ?_
  refine hE.wp_write_own o5 (by simp) fun s6 o6 e6 h6 => ?_
  refine hE.wp_free_own (Q := px :: py :: np :: R) o6 ?_ fun s7 o7 h7 => WP.pure ?_
  · exact perm_iff_count.mpr fun q => by simp only [count_cons]; omega
  -- The pages of the children were neither written nor freed.
  have hrest (q : PageId) (hq : q ∈ R) : view s7 q = view s0 q := by
    have ne {r : PageId} (hr : r ∉ R) : q ≠ r := fun h => hr (h ▸ hq)
    rw [h7 q (ne hbR), h6 q (ne hnR), h5 q (ne h2R), h4 q (ne h1R), h3 q (ne hyR), h2 q (ne hxR),
      hsame q (ne hnR) (ne hxR) (ne hyR)]
  have hstored := stored_congr p.kids_stored fun q hq =>
    hrest q (hR ▸ mem_append_left _ hq)
  have hbr := p.kids_branches
  rw [← hk] at hstored hbr
  refine p.close (w := [⟨px, X, xk⟩, ⟨py, Y, yk⟩]) (u := [m']) (o7.perm ?_) ((h7 _ hnb).trans e6)
    (fun q hq => hrest q (hR ▸ mem_append_right _ hq)) ?_ hkeys (hch.trans ?_) hchain ?_ ?_ ?_
  · rw [← hR, ← hk]
    refine perm_iff_count.mpr fun q => ?_
    simp only [flatMap_append, flatMap_cons, flatMap_nil, pages_succ,
      count_append, count_cons, count_nil]
    omega
  · rintro _ (_ | ⟨_, _ | ⟨_, ⟨⟩⟩⟩)
    · refine ⟨?_, hX, fun c hc => hstored c (mem_append_left _ hc)⟩
      rw [h7 _ hxb, h6 _ hxn, h5 _ (Ne.symm h2x), h4 _ (Ne.symm h1x), h3 _ hxy]
      exact e2
    · refine ⟨?_, hY, fun c hc => hstored c (mem_append_right _ hc)⟩
      rw [h7 _ hyb, h6 _ hyn, h5 _ (Ne.symm h2y), h4 _ (Ne.symm h1y)]
      exact e3
  · simp [rootPid]
  · rintro _ (_ | ⟨_, _ | ⟨_, ⟨⟩⟩⟩)
    · exact ⟨hXk, fun c hc => hbr c (mem_append_left _ hc)⟩
    · exact ⟨hYk, fun c hc => hbr c (mem_append_right _ hc)⟩
  · intro e
    have : e ∈ (xk ++ yk).flatMap layout.entries ↔ e ∈ (x.kids ++ y.kids).flatMap layout.entries := by
      rw [hk]
    simpa [entries_succ] using this
  · have : (xk ++ yk).flatMap leaves = (x.kids ++ y.kids).flatMap leaves := by rw [hk]
    simp only [flatMap_append] at this
    simp only [flatMap_cons, flatMap_nil, append_nil, leaves_succ, this]
    exact SameLinks.refl _

section

variable (p : Pair H (view s) I b key s₁ s₂ m k₁ k₂ x y J)
include p

theorem rotateRightBatched_internal
    (hx : MIN_KEYS_INTERNAL < nodeKeys x) (hy : nodeKeys y < MIN_KEYS_INTERNAL) :
    WP (rotateRightBatched E b.pid b.node (k₁.length + 1) (layout.rootPid y) (layout.rootPid x) false)
      s fun np s' => RebalancePost H (view s') I b key np := by
  simp only [nodeKeys, InternalNodePage.numKeys, MIN_KEYS_INTERNAL, ORDER_INTERNAL] at hx hy
  obtain ⟨a, k, hxs⟩ := (eq_nil_or_concat' x.node.keys).resolve_left fun h => by simp [h] at hx
  have hlen : x.kids.length = x.node.keys.length + 1 := SepChain.length_eq p.chain.2.2.1
  obtain ⟨ak, kc, hxk⟩ := (eq_nil_or_concat' x.kids).resolve_left fun h => by simp [h] at hlen
  have hlk : x.node.numKeys - 1 = a.length := by simp [InternalNodePage.numKeys, hxs]
  have hak : ak.length = a.length + 1 := by simpa [hxs, hxk] using hlen
  have hxc : x.node.children = ak.map layout.rootPid ++ [layout.rootPid kc] := by
    have := (p.stored x (by simp)).2.1
    simpa [hxk] using this
  have hyc : y.node.children = y.kids.map layout.rootPid := (p.stored y (by simp)).2.1
  have hlast : x.node.childAt (a.length + 1) = layout.rootPid kc := by
    rw [← hak, ← length_map (f := layout.rootPid)]; exact childAt_append hxc
  have hup : x.node.keyAt a.length = k := keyAt_append hxs
  have hfa : a.length ≤ ORDER_INTERNAL := by
    have := x.node.fits
    simp [hxs] at this
    omega
  have hfm : (m :: y.node.keys).length ≤ ORDER_INTERNAL := by simp [ORDER_INTERNAL]; omega
  have hac : (ak.map layout.rootPid).length = a.length + 1 := by simpa using hak
  have hmc : (layout.rootPid kc :: y.node.children).length = (m :: y.node.keys).length + 1 := by
    simpa using y.node.arity
  have hleft : ofArrays (x.node.keys.take a.length)
      (x.node.children.take (a.length + 1)) = some ⟨a, ak.map layout.rootPid, hfa, hac⟩ := by
    rw [hxs, hxc, take_left, ← hac, take_left, ofArrays_eq hfa hac]
  have hchain : SepChain (layout.Ordered (h := h)) J (a ++ k :: (m :: y.node.keys))
      (ak ++ (kc :: y.kids)) := by simpa [hxs, hxk] using p.join
  simp only [rotateRightBatched, Bool.false_eq_true, if_false, pure_bind, Nat.add_sub_cancel, p.keyAt]
  refine hE.wp_alloc_own p.owns fun np s₁ o1 hnp h1 => ?_
  refine hE.wp_alloc_own o1 fun nc s₂ o2 hnc h2 => ?_
  refine hE.wp_alloc_own o2 fun nl s3 o3 hnl h3 => ?_
  simp only [mem_cons, not_or] at hnp hnc hnl
  have hsame (q : PageId) (hn : q ≠ np) (hl : q ≠ nl) (hc : q ≠ nc) : view s3 q = view s q := by
    rw [h3 q hl, h2 q hc, h1 q hn]
  obtain ⟨hrx, hry⟩ := p.read (show ∀ q, q ∈ _ → view s3 q = _ from fun q hq =>
    hsame q (fun h => hnp.2 (h ▸ hq)) (fun h => hnl.2.2.2 (h ▸ hq)) fun h => hnc.2.2 (h ▸ hq))
  refine wp_readInternal hE hrx (wp_readInternal hE hry ?_)
  simp only [hlk, hlast, hup]
  refine wp_checked (ofArrays_eq hfm hmc) (wp_checked hleft ?_)
  refine rotate_internal hE p o3 ?_ hsame (Perm.swap ..) ?_ rfl ?_
    ((sepChain_append_cons hak).mp hchain) ?_ ?_
  · exact Perm.refl _
  · simp [hxk]
  · simp [hyc]
  · simp [HasKeys, InternalNodePage.numKeys]; simp [hxs] at hx; omega
  · simp [HasKeys, InternalNodePage.numKeys]

theorem rotateLeftBatched_internal
    (hy : MIN_KEYS_INTERNAL < nodeKeys y) (hx : nodeKeys x < MIN_KEYS_INTERNAL) :
    WP (rotateLeftBatched E b.pid b.node k₁.length (layout.rootPid x) (layout.rootPid y) false)
      s fun np s' => RebalancePost H (view s') I b key np := by
  simp only [nodeKeys, InternalNodePage.numKeys, MIN_KEYS_INTERNAL, ORDER_INTERNAL] at hx hy
  obtain ⟨k, r, hys⟩ := exists_cons_of_ne_nil (l := y.node.keys) fun h => by simp [h] at hy
  have hlenx : x.kids.length = x.node.keys.length + 1 := SepChain.length_eq p.chain.2.2.1
  have hleny : y.kids.length = y.node.keys.length + 1 := SepChain.length_eq p.chain.2.2.2
  obtain ⟨kc, rk, hyk⟩ := exists_cons_of_ne_nil (l := y.kids) fun h => by simp [h] at hleny
  have hxc : x.node.children = x.kids.map layout.rootPid := (p.stored x (by simp)).2.1
  have hyc : y.node.children = layout.rootPid kc :: rk.map layout.rootPid := by
    have := (p.stored y (by simp)).2.1
    simpa [hyk] using this
  have hfirst : y.node.childAt 0 = layout.rootPid kc :=
    childAt_append (a := []) hyc
  have hup : y.node.keyAt 0 = k := keyAt_append (a := []) hys
  have hfr : r.length ≤ ORDER_INTERNAL := by
    have := y.node.fits
    simp [hys] at this
    omega
  have hfm : (x.node.keys ++ [m]).length ≤ ORDER_INTERNAL := by simp [ORDER_INTERNAL]; omega
  have hrc : (rk.map layout.rootPid).length = r.length + 1 := by simpa [hys, hyk] using hleny
  have hmc : (x.node.children ++ [layout.rootPid kc]).length = (x.node.keys ++ [m]).length + 1 := by
    simpa using x.node.arity
  have hright : y.node.removeAt 0 0 = some ⟨r, rk.map layout.rootPid, hfr, hrc⟩ := by
    rw [InternalNodePage.removeAt, hys, hyc]
    exact ofArrays_eq hfr hrc
  have hchain : SepChain (layout.Ordered (h := h)) J ((x.node.keys ++ [m]) ++ k :: r)
      ((x.kids ++ [kc]) ++ rk) := by simpa [hys, hyk] using p.join
  simp only [rotateLeftBatched, Bool.false_eq_true, if_false, pure_bind, p.keyAt]
  refine hE.wp_alloc_own p.owns fun np s₁ o1 hnp h1 => ?_
  refine hE.wp_alloc_own o1 fun nc s₂ o2 hnc h2 => ?_
  refine hE.wp_alloc_own o2 fun nr s3 o3 hnr h3 => ?_
  simp only [mem_cons, not_or] at hnp hnc hnr
  have hsame (q : PageId) (hn : q ≠ np) (hc : q ≠ nc) (hr : q ≠ nr) : view s3 q = view s q := by
    rw [h3 q hr, h2 q hc, h1 q hn]
  obtain ⟨hrx, hry⟩ := p.read (show ∀ q, q ∈ _ → view s3 q = _ from fun q hq =>
    hsame q (fun h => hnp.2 (h ▸ hq)) (fun h => hnc.2.2 (h ▸ hq)) fun h => hnr.2.2.2 (h ▸ hq))
  refine wp_readInternal hE hrx (wp_readInternal hE hry ?_)
  simp only [hfirst, hup]
  refine wp_checked (ofArrays_eq hfm hmc) (wp_checked hright ?_)
  refine rotate_internal hE p o3 ?_ hsame (Perm.refl _) ?_ ?_ rfl
    ((sepChain_append_cons (by simp; omega)).mp hchain) ?_ ?_
  · exact perm_iff_count.mpr fun q => by simp only [count_cons]; omega
  · simp [hyk]
  · simp [hxc]
  · simp [HasKeys, InternalNodePage.numKeys]
  · simp [HasKeys, InternalNodePage.numKeys]; simp [hys] at hy; omega

theorem mergeChildrenBatched_internal (hfits : nodeKeys x + 1 + nodeKeys y ≤ ORDER_INTERNAL) :
    WP (mergeChildrenBatched E b.pid b.node k₁.length (layout.rootPid x) (layout.rootPid y) false)
      s fun np s' => RebalancePost H (view s') I b key np := by
  have hfits : (x.node.keys ++ m :: y.node.keys).length ≤ ORDER_INTERNAL := by
    simp only [nodeKeys, InternalNodePage.numKeys] at hfits
    simp only [length_append, length_cons]
    omega
  have harity : (x.node.children ++ y.node.children).length =
      (x.node.keys ++ m :: y.node.keys).length + 1 := by
    simp only [length_append, length_cons, x.node.arity, y.node.arity]
    omega
  simp only [mergeChildrenBatched, Bool.false_eq_true, if_false, pure_bind, p.keyAt]
  refine hE.wp_alloc_own p.owns fun np s₁ o1 hnp h1 => ?_
  refine hE.wp_alloc_own o1 fun mp s₂ o2 hmp h2 => ?_
  obtain ⟨node, hnode, hkeys, hch⟩ := p.merged mp
  simp only [mem_cons, not_or] at hnp hmp
  obtain ⟨hrx, hry⟩ := p.read (show ∀ q, q ∈ _ → view s₂ q = _ from fun q hq => by
    rw [h2 q fun h => hmp.2.2 (h ▸ hq), h1 q fun h => hnp.2 (h ▸ hq)])
  refine wp_readInternal hE hrx (wp_readInternal hE hry ?_)
  refine wp_checked (ofArrays_eq hfits harity) ?_
  generalize hR : (x.kids ++ y.kids).flatMap layout.pages ++ (k₁ ++ k₂).flatMap layout.pages = R
  have hpair := pages_pair k₁ k₂ x y
  rw [hR] at hpair
  have o : Owns H (view s₂) (layout.pages b) (x.pid :: b.pid :: y.pid :: mp :: np :: R) := by
    refine o2.perm (perm_iff_count.mpr fun q => ?_)
    have := hpair.count_eq q
    simp only [count_cons] at this ⊢
    omega
  have hnd := o.nodup
  simp only [nodup_cons, mem_cons, not_or] at hnd
  obtain ⟨⟨-, -, hxm, hxn, hxR⟩, ⟨-, hbm, hbn, hbR⟩, ⟨hym, hyn, hyR⟩, ⟨hmn, hmR⟩, hnR, -⟩ := hnd
  refine hE.wp_write_own o (by simp) fun s3 o3 e3 h3 => ?_
  refine hE.wp_free_own o3 (Perm.refl _) fun s4 o4 h4 => ?_
  refine wp_checked hnode (hE.wp_write_own o4 (by simp) fun s5 o5 e5 h5 => ?_)
  refine hE.wp_free_own o5 (Perm.refl _) fun s6 o6 h6 => ?_
  refine hE.wp_free_own o6 (Perm.refl _) fun s7 o7 h7 => WP.pure ?_
  have hrest (q : PageId) (hq : q ∈ R) : view s7 q = view s q := by
    have ne {r : PageId} (hr : r ∉ R) : q ≠ r := fun h => hr (h ▸ hq)
    rw [h7 q (ne hyR), h6 q (ne hbR), h5 q (ne hnR), h4 q (ne hxR), h3 q (ne hmR), h2 q (ne hmR),
      h1 q (ne hnR)]
  have hstored := stored_congr p.kids_stored fun q hq =>
    hrest q (hR ▸ mem_append_left _ hq)
  refine p.close (w := [⟨mp, ⟨_, _, hfits, harity⟩, x.kids ++ y.kids⟩]) (u := []) (o7.perm ?_) ?_
    (fun q hq => hrest q (hR ▸ mem_append_right _ hq)) ?_ (by simp [hkeys]) (hch.trans ?_)
    p.join ?_ ?_ ?_
  · rw [← hR]
    refine perm_iff_count.mpr fun q => ?_
    simp only [flatMap_append, flatMap_cons, flatMap_nil, pages_succ,
      count_append, count_cons, count_nil]
    omega
  · rw [h7 _ (Ne.symm hyn), h6 _ (Ne.symm hbn)]
    exact e5
  · rintro _ (_ | ⟨_, ⟨⟩⟩)
    refine ⟨?_, ?_, hstored⟩
    · rw [h7 _ (Ne.symm hym), h6 _ (Ne.symm hbm), h5 _ hmn, h4 _ (Ne.symm hxm)]
      exact e3
    have hx := (p.stored x (by simp)).2.1
    have hy := (p.stored y (by simp)).2.1
    simp only [map_append]
    exact congrArg₂ _ hx hy
  · simp [rootPid]
  · rintro _ (_ | ⟨_, ⟨⟩⟩)
    exact ⟨.of_mem (k := m) (by simp), p.kids_branches⟩
  · intro e
    simp only [flatMap_cons, flatMap_nil, append_nil, entries_succ, flatMap_append, mem_append]
  · simp only [flatMap_cons, flatMap_nil, append_nil, leaves_succ, flatMap_append]
    exact SameLinks.refl _

end

end Internal

section

variable (p : Pair H (view s) I b key s₁ s₂ m k₁ k₂ x y J)
include p

theorem rotateRightBatched_spec (hx : minKeys h < nodeKeys x) (hy : nodeKeys y < minKeys h) :
    WP (rotateRightBatched E b.pid b.node (k₁.length + 1) (layout.rootPid y) (layout.rootPid x)
      (decide (h = 0))) s fun np s' => RebalancePost H (view s') I b key np := by
  match h with
  | 0 => exact rotateRightBatched_leaf hE p hx hy
  | _ + 1 => exact rotateRightBatched_internal hE p hx hy

theorem rotateLeftBatched_spec (hy : minKeys h < nodeKeys y) (hx : nodeKeys x < minKeys h) :
    WP (rotateLeftBatched E b.pid b.node k₁.length (layout.rootPid x) (layout.rootPid y)
      (decide (h = 0))) s fun np s' => RebalancePost H (view s') I b key np := by
  match h with
  | 0 => exact rotateLeftBatched_leaf hE p hy hx
  | _ + 1 => exact rotateLeftBatched_internal hE p hy hx

theorem mergeChildrenBatched_spec (hfits : nodeKeys x + nodeKeys y < 2 * minKeys h) :
    WP (mergeChildrenBatched E b.pid b.node k₁.length (layout.rootPid x) (layout.rootPid y)
      (decide (h = 0))) s fun np s' => RebalancePost H (view s') I b key np := by
  match h with
  | 0 =>
    simp only [minKeys, if_true, MIN_KEYS_LEAF, ORDER_LEAF] at hfits
    exact mergeChildrenBatched_leaf hE p (by simp only [ORDER_LEAF]; omega)
  | _ + 1 =>
    simp only [minKeys, Nat.succ_ne_zero, if_false, MIN_KEYS_INTERNAL, ORDER_INTERNAL] at hfits
    exact mergeChildrenBatched_internal hE p (by simp only [ORDER_INTERNAL]; omega)

end

theorem nodeKeyCount_eq {t : Node h}
    (ht : layout.Stored (view s) t) : nodeKeyCount E (layout.rootPid t) s = .ok (nodeKeys t) s := by
  match h with
  | 0 => exact WP.eq_ok (hE.wp_read ht (WP.pure ⟨rfl, rfl⟩))
  | _ + 1 => exact WP.eq_ok (hE.wp_read ht.1 (WP.pure ⟨rfl, rfl⟩))

section Rebalance

variable {c c' : Node h} {c1 c2 : List (Node h)}

theorem rebalanceBatched_spec (hb : layout.Valid H I b)
    (hbr : Branches HasKeys b) (rt : Route layout I b key s₁ s₂ c1 c c2 J)
    (g : Shrunk H (view s) J c c' key) (hu : nodeKeys c' < minKeys h) :
    WP (rebalanceBatched E b.pid b.node c1.length (layout.rootPid c')) s fun np s' =>
      RebalancePost H (view s') I b key np := by
  obtain ⟨-, hst, -, -⟩ := g.replaces.kids hb rt
  have hch : b.node.children = (c1 ++ c :: c2).map layout.rootPid := rt.kids ▸ hb.children
  have hmin : (if decide (h = 0) = true then MIN_KEYS_LEAF else MIN_KEYS_INTERNAL) = minKeys h := by
    simp [minKeys]
  have hcount {d : Node h} (hd : d ∈ c1 ++ [c'] ++ c2) :
      ((fun n => decide (n > minKeys h)) <$> nodeKeyCount E (layout.rootPid d)) s =
        .ok (decide (nodeKeys d > minKeys h)) s := by
    rw [map_ok (nodeKeyCount_eq hE (hst d hd))]
  have hnum : b.node.numKeys = c1.length + c2.length := by
    have hseps : b.node.keys = s₁ ++ s₂ := rt.seps
    simp [InternalNodePage.numKeys, hseps, rt.length₁, rt.length₂]
  refine WP.bind (Q := fun isLeaf s' => isLeaf = decide (h = 0) ∧ s = s') ?_ ?_
  · have hc' := hst c' (by simp)
    cases h with
    | zero => exact hE.wp_read hc' (WP.pure ⟨rfl, rfl⟩)
    | succ => exact hE.wp_read hc'.1 (WP.pure ⟨rfl, rfl⟩)
  rintro _ _ ⟨rfl, rfl⟩
  simp only [hmin]
  have hright {k₂ : List (Node h)} {y : Node h} (hc2 : c2 = y :: k₂) :
      c1.length < b.node.numKeys ∧ b.node.childAt (c1.length + 1) = layout.rootPid y ∧
        ∃ v m J', Pair H (view s) I b key s₁ v m c1 k₂ c' y J' := by
    subst hc2
    refine ⟨by simp [hnum], ?_, g.pair_right hb hbr rt⟩
    have := childAt_append (a := (c1 ++ [c]).map layout.rootPid)
      (b := k₂.map layout.rootPid) (p := layout.rootPid y) (hch.trans (by simp))
    simpa using this
  rcases eq_nil_or_concat' c1 with hc1 | ⟨k₁, x, hc1⟩
  · have hz : ¬ c1.length > 0 := by simp [hc1]
    obtain ⟨y, k₂, hc2⟩ := exists_cons_of_ne_nil (l := c2) fun h => by
      have := hbr.1
      simp [HasKeys, hnum, h, hc1] at this
    obtain ⟨hlt, hy, v, m, J', p⟩ := hright hc2
    simp only [if_neg hz, pure_bind, Bool.false_eq_true, if_false, if_pos hlt, hy]
    refine WP.bind_ok (hcount (by simp [hc2])) ?_
    split
    next hgt => exact rotateLeftBatched_spec hE p (of_decide_eq_true hgt) hu
    next hle => exact mergeChildrenBatched_spec hE p (by simp at hle; omega)
  have hpos : c1.length > 0 := by simp [hc1]
  have hpred : c1.length = k₁.length + 1 := by simp [hc1]
  have hx : b.node.childAt k₁.length = layout.rootPid x := by
    have := childAt_append (a := k₁.map layout.rootPid)
      (b := (c :: c2).map layout.rootPid) (p := layout.rootPid x) (hch.trans (by simp [hc1]))
    simpa using this
  obtain ⟨u, m, J', p⟩ := g.pair_left hb hbr (hc1 ▸ rt)
  have hmerge (hle : ¬ nodeKeys x > minKeys h) := mergeChildrenBatched_spec hE p (by omega)
  simp only [if_pos hpos, show c1.length - 1 = k₁.length by omega, hx]
  refine WP.bind_ok (hcount (by simp [hc1])) ?_
  split
  next hgt =>
    rw [hpred]
    exact rotateRightBatched_spec hE p (of_decide_eq_true hgt) hu
  next hle =>
    replace hmerge := hmerge (of_decide_eq_false (Bool.eq_false_iff.mpr hle))
    rcases hc2 : c2 with - | ⟨y, k₂⟩
    · simp only [if_neg (show ¬ c1.length < b.node.numKeys by simp [hnum, hc2]), pure_bind,
        Bool.false_eq_true, if_false]
      exact hmerge
    obtain ⟨hlt, hy, v, m, J', p'⟩ := hright hc2
    simp only [if_pos hlt, hy]
    refine WP.bind_ok (hcount (by simp [hc2])) ?_
    split
    next hgt => exact rotateLeftBatched_spec hE p' (of_decide_eq_true hgt) hu
    next => exact hmerge

end Rebalance

theorem childIsSafeForDelete_eq {c : Node h} (hc : layout.Stored (view s) c) :
    ∃ safe, childIsSafeForDelete E (layout.rootPid c) s = .ok safe s ∧ (safe → h = 0) := by
  cases h with
  | zero => exact WP.eq_ok_iff (hE.wp_read hc (WP.pure ⟨rfl, fun _ => rfl⟩))
  | succ h => exact WP.eq_ok_iff (hE.wp_read hc.1 (WP.pure ⟨rfl, by simp⟩))

theorem deleteLeaf_spec {l : Node 0}
    (hl : layout.Valid (view s) I l) (hm : ∃ e ∈ layout.entries l, e.1 = key) :
    WP (deleteLeaf E (pid l) (node l) key isRoot) s fun r s' =>
      DeletePost (view s) (view s') I l key isRoot r := by
  obtain ⟨⟨_, rid⟩, hm, rfl⟩ := hm
  obtain ⟨a, r, e, ha, hr, hsearch⟩ :=
    search_found (ordered_leaf.mp hl.ordered).1 (by simpa using hm)
  simp only [deleteLeaf, hsearch, writeLeafSamePid, bind_assoc, pure_bind]
  refine hE.wp_write_own hl.owns (by simp) fun s' o e' _ => WP.pure ?_
  refine ⟨(⟨Leaf.pid l, (Leaf.node l).removeAt a.length⟩ : Leaf), rfl,
    shrunk_leaf hl e ha hr o e', ?_, fun _ _ => trivial, fun _ => rfl⟩
  intro hu
  simpa [nodeKeys, minKeys] using hu

/-- What the parent does when the key is gone from its child. -/
theorem absorbDeleted_spec {c : Node h} {c1 c2 : List (Node h)} {res : DeleteResult}
    (hb : layout.Valid H I b) (hbr : Branches HasKeys b) (rt : layout.Route I b key s₁ s₂ c1 c c2 J)
    (hpost : DeletePost H (view s) J c key false res) :
    WP (absorbDeleted E b.pid b.node c1.length (layout.rootPid c) isRoot res) s fun r s' =>
      DeletePost H (view s') I b key isRoot r := by
  match res, hpost with
  | .deleted _ false, ⟨c', rfl, g, _, hbr', _⟩ =>
    have hw := hbr' rfl rfl
    have hkids := branches_kids hbr rt hw
    simp only [absorbDeleted, Bool.not_false, if_true]
    split
    next hp =>
      exact WP.pure ⟨⟨b.pid, b.node, c1 ++ [c'] ++ c2⟩, rfl, g.branch_same hb hbr rt hw hp, by simp,
        fun _ _ => ⟨hbr.1, hkids⟩, by simp⟩
    next =>
      obtain ⟨o, -, -, -⟩ := g.replaces.kids hb rt
      simp only [inPlaceUpdateChild, writeInternalSamePid, bind_assoc, pure_bind]
      refine hE.wp_write_own o (by simp) fun s' o' e' hs' => WP.pure ?_
      refine ⟨⟨b.pid, b.node.setChildAt c1.length (layout.rootPid c'), c1 ++ [c'] ++ c2⟩, rfl,
        g.branch hb hbr rt hw o' e' hs' rfl ?_, by simp, fun _ _ => ⟨hbr.1, hkids⟩, by simp⟩
      have := hb.children
      rw [rt.kids] at this
      simp only [layout_children] at this
      simp [setChildAt, this]
  | .deleted _ true, ⟨c', rfl, g, hu, _⟩ =>
    simp only [absorbDeleted, Bool.not_true, Bool.false_eq_true, if_false]
    refine WP.bind (rebalanceBatched_spec hE hb hbr rt g (hu rfl).2) fun np s' hpost => ?_
    obtain ⟨b', rfl, g'⟩ := hpost
    cases isRoot with
    | true => exact WP.pure ⟨b', rfl, g', by simp, by simp, by simp⟩
    | false =>
      rw [internalUnderfull]
      simp only [Bool.false_eq_true, if_false, bind_assoc]
      refine hE.wp_read (g'.replaces.valid.stored.1) (WP.pure ⟨b', rfl, g', fun hu => ?_, fun hu _ => ?_,
        by simp⟩)
      · exact ⟨rfl, of_decide_eq_true hu⟩
      · refine g'.weak.branches fun _ => Nat.lt_of_lt_of_le ?_ (Nat.le_of_not_lt (of_decide_eq_false hu))
        decide

theorem deleteSubtreeBatched_spec {t : Node h} {fuel : Nat} {isRoot : Bool}
    (ht : layout.Valid (view s) I t) (hbr : Branches HasKeys t)
    (hk : key ∈ I) (hm : ∃ e ∈ layout.entries t, e.1 = key) (hf : h < fuel) :
    WP (deleteSubtreeBatched E fuel (layout.rootPid t) key isRoot) s fun r s' =>
      DeletePost (view s) (view s') I t key isRoot r := by
  induction h generalizing I fuel isRoot with
  | zero =>
    obtain _ | fuel := fuel
    · omega
    exact hE.wp_read ht.stored (deleteLeaf_spec hE ht hm)
  | succ h ih =>
    obtain _ | fuel := fuel
    · omega
    obtain ⟨s₁, s₂, c1, c, c2, J, rt⟩ := ht.ordered.route hk
    have hc : c ∈ t.kids := by simp [rt.kids]
    obtain ⟨e, he, hek⟩ := hm
    have hchild := @ih J c fuel false (ht.kid hc rt.child) (hbr.2 c hc)
      rt.mem ⟨e, (rt.mem_entries_iff (by rw [layout_key, hek]; exact rt.mem)).mp he, hek⟩ (by omega)
    obtain ⟨safe, hsafe, hnot⟩ := childIsSafeForDelete_eq hE (ht.kid_stored hc)
    refine hE.wp_read ht.page ?_
    simp only [layout_branchPage, Route.findChildIdx rt, Route.childAt rt ht]
    refine WP.bind_ok hsafe ?_
    split
    next hs =>
      -- The safe child is a leaf, which stays on its page.
      obtain rfl := hnot hs
      refine WP.bind hchild fun res s' hpost => ?_
      match res, hpost with
      | .deleted _ _, ⟨c', rfl, g, _, _, hp⟩ =>
        exact WP.pure ⟨⟨t.pid, t.node, c1 ++ [c'] ++ c2⟩, rfl,
          g.branch_same ht hbr rt trivial (hp rfl), by simp,
          fun _ _ => ⟨hbr.1, branches_kids hbr rt trivial⟩, by simp⟩
    next => exact WP.bind hchild fun res s' hpost => absorbDeleted_spec hE ht hbr rt hpost

/-- The root after a deletion: an internal root without keys gives way to its child. -/
theorem collapseRoot_spec {t t' : Node h} (g : Shrunk H (view s) I t t' key) :
    WP (collapseRoot E (layout.rootPid t')) s fun p s' => ∃ h' ≤ h, ∃ t'' : Node h',
      layout.rootPid t'' = p ∧ layout.Valid (view s') I t'' ∧ Branches HasKeys t'' ∧
      Keeps H (view s') (layout.pages t) (layout.pages t'') ∧
      layout.entries t'' = layout.entries t' ∧ leaves t'' = leaves t' := by
  have hv := g.replaces.valid
  have o : Owns H (view s) (layout.pages t) (layout.pages t') := by simpa using g.replaces.owns
  cases h with
  | zero =>
    exact hE.wp_read hv.stored (WP.pure ⟨0, le_rfl, t', rfl, hv, trivial, o.keeps, rfl, rfl⟩)
  | succ h =>
    refine hE.wp_read hv.page ?_
    simp only [layout_branchPage]
    split
    next hz =>
      obtain ⟨c, hkids⟩ : ∃ c, t'.kids = [c] := by
        have hlen : t'.kids.length = t'.node.keys.length + 1 := SepChain.length_eq hv.ordered
        rw [InternalNodePage.numKeys] at hz
        exact length_eq_one_iff.mp (by omega)
      have hkeys : t'.node.keys = [] := eq_nil_of_length_eq_zero hz
      have hpages : layout.pages t' = t'.pid :: layout.pages c := by simp [pages_succ, hkids]
      have hord : layout.Ordered I c := by
        have : SepChain layout.Ordered I t'.node.keys t'.kids := hv.ordered
        rwa [hkeys, hkids] at this
      have hpid : t'.pid ∉ layout.pages c := (nodup_cons.mp (hpages ▸ hv.nodup)).1
      have hchild : t'.node.childAt 0 = layout.rootPid c :=
        childAt_append (a := []) (hv.children.trans (by simp [hkids]; rfl))
      rw [hpages] at o
      refine hE.wp_free_own o (Perm.refl _) fun s' o' hs' => WP.pure ?_
      refine ⟨h, Nat.le_succ h, c, hchild.symm, ⟨?_, hord, o'.nodup⟩, ?_, o'.keeps, ?_, ?_⟩
      · exact (hv.kid_stored (by simp [hkids])).congr fun q hq =>
          hs' q fun h : q = t'.pid => hpid (h ▸ hq)
      · exact g.weak c (by simp [hkids])
      · simp [entries_succ, hkids]
      · simp [leaves_succ, hkids]
    next hz =>
      exact WP.pure ⟨h + 1, le_rfl, t', rfl, hv, ⟨Nat.pos_of_ne_zero hz, g.weak⟩, o.keeps, rfl, rfl⟩

end BTree

end AxiomDb.Index
