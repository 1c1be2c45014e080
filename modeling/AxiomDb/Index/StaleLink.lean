import AxiomDb.Index.LeafChain

/-!
# A split that loses a link

A run after which a full scan fails. Keys of three bytes are inserted in ascending
order until the tree has three levels; then one key more goes into the first leaf
below the root's second child, with a fill factor for which that leaf is full. The
leaf is the first child of its parent, so the leaf before it is not relinked: it
goes on pointing at a page that is no leaf any more.

That the tree has three levels follows by counting: with two it has at most
`224 * 217` entries.
-/

namespace AxiomDb.Index

open Lib Set List InternalNodePage SepChain Layout BTree

/-! ## Scans of a broken chain -/

namespace RangeIter

variable {σ : Type} {E : StorageEngine Stop σ Page} {view : σ → Heap Page} {s : σ}
  {it : RangeIter} {l : Leaf} {ls : List Leaf} {i fuel : Nat} {n : PageId}

/-- The leaves lead to the page `n`, which holds no leaf. -/
structure Broken (E : StorageEngine Stop σ Page) (view : σ → Heap Page) (s : σ) (n : PageId)
    (ls : List Leaf) : Prop where
  stored : ∀ l ∈ ls, view s l.pid = some (.leaf l.node)
  linked : Linked Leaf.pid (fun l => l.node.nextLeaf) n ls
  fails : ∃ e, BTree.readLeaf E n s = .error e s
  ne_null : n ≠ NULL_PAGE

theorem next_error {e : Stop} (hn : l.pid ≠ NULL_PAGE) (he : readLeaf E l.pid s = .error e s) :
    next E (fuel + 1) (it.atSlot l i) s = .error e s := by
  rw [next, if_neg (show ¬ (it.atSlot l i).done by simp [atSlot]),
    if_neg (show ¬ (it.atSlot l i).currentPid = NULL_PAGE from hn)]
  exact bind_error he

theorem next_broken (fuel : Nat) (hE : E.Lawful NULL_PAGE view) (hb : Broken E view s n (l :: ls))
    (hlo : it.lower = .unbounded) (hhi : it.upper = .unbounded) :
    (∃ e, next E fuel (it.atSlot l i) s = .error e s) ∨ ∃ e l' ls' i',
      next E fuel (it.atSlot l i) s = .ok (some e, it.atSlot l' i') s ∧
        Broken E view s n (l' :: ls') := by
  induction fuel generalizing l ls i with
  | zero => exact .inl ⟨_, rfl⟩
  | succ fuel ih =>
    rw [next_turn hE (hb.stored l mem_cons_self)]
    by_cases hlt : i < l.node.numKeys
    · rw [if_pos hlt, if_neg (by simp [aboveLower, hlo]), if_neg (by simp [belowUpper, hhi])]
      exact .inr ⟨_, l, ls, i + 1, rfl, hb⟩
    rw [if_neg hlt]
    cases ls with
    | nil =>
      have hn : l.node.nextLeaf = n := hb.linked.1
      obtain ⟨e, he⟩ := hb.fails
      rw [if_neg (hn ▸ hb.ne_null), hn]
      cases fuel with
      | zero => exact .inl ⟨_, rfl⟩
      | succ fuel => exact .inl ⟨e, next_error hb.ne_null he⟩
    | cons l1 ls =>
      have hlink : l.node.nextLeaf = l1.pid := hb.linked.1
      have hne : l1.pid ≠ NULL_PAGE := fun h => by
        have := hb.stored l1 (by simp)
        rw [h, hE.null_free s] at this
        cases this
      rw [if_neg (hlink ▸ hne), show it.atSlot ⟨l.node.nextLeaf, l.node⟩ 0 = it.atSlot l1 0 by
        simp [atSlot, hlink]]
      exact ih { hb with
        stored := fun x hx => hb.stored x (mem_cons_of_mem _ hx)
        linked := hb.linked.2 }

theorem collect_broken (it : RangeIter) (fuel : Nat) (hE : E.Lawful NULL_PAGE view) (hb : Broken E view s n (l :: ls))
    (hlo : it.lower = .unbounded) (hhi : it.upper = .unbounded) :
    ∃ e, collect E fuel (it.atSlot l i) s = .error e s := by
  induction fuel generalizing l ls i with
  | zero => exact ⟨_, rfl⟩
  | succ fuel ih =>
    rcases next_broken (fuel + 1) (i := i) hE hb hlo hhi with ⟨e, he⟩ | ⟨e, l', ls', i', he, hb'⟩
    · exact ⟨e, bind_error he⟩
    · obtain ⟨e', h'⟩ := ih (i := i') hb'
      refine ⟨e', (bind_ok he).trans ?_⟩
      exact bind_error h'

end RangeIter

/-! ## Keys in ascending order -/

/-- The three bytes of `i`. -/
def ascKey (i : Nat) : Bytes := [Fin.ofNat 256 (i / 65536), Fin.ofNat 256 (i / 256), Fin.ofNat 256 i]

theorem ascKey_lt {i j : Nat} (h : i < j) (hj : j < 2 ^ 24) : ascKey i < ascKey j := by
  simp only [ascKey, cons_lt_cons_iff, Fin.lt_def, Fin.ext_iff, Fin.val_ofNat, not_lt_nil,
    and_false, or_false]
  omega

/-- The first `n` of the keys. -/
def ascKeys (n : Nat) : Set Bytes := {k | ∃ i < n, k = ascKey i}

/-- The only leaf, or one of many that are not nearly empty. -/
def Sized (ls : List Leaf) : Prop := ls.length = 1 ∨ ∀ l ∈ ls, 108 ≤ l.node.numKeys

section Shape

variable {h : Nat} {I : Set Bytes} {t : Node h} {key : Bytes} {lv : List Leaf}

/-- A key above all others goes to the last leaf, which is no first child. -/
theorem not_firstKid_of_lt (ht : layout.Ordered I t) (hbr : Branches HasKeys t)
    (hk : ∀ k ∈ I, k < key) (hh : h ≠ 0) : ¬ FirstKid key t := by
  induction h generalizing I with
  | zero => exact absurd rfl hh
  | succ h ih =>
    have hidx : t.node.findChildIdx key = t.node.keys.length :=
      findChildIdx_append (show _ = t.node.keys ++ [] by simp)
        (fun s hs => (hk s (sep_mem ht hs).1).le) (by simp)
    cases h with
    | zero =>
      rw [FirstKid, hidx]
      exact Nat.ne_of_gt hbr.1
    | succ h =>
      have hlen : t.kids.length = t.node.keys.length + 1 := length_eq ht
      obtain ⟨c, hc⟩ : ∃ c, t.kids[t.node.findChildIdx key]? = some c :=
        ⟨_, getElem?_eq_getElem (by omega)⟩
      have hmem := mem_of_getElem? hc
      obtain ⟨J, hJ, hcJ⟩ := exists_of_mem ht hmem
      exact fun hF => ih hcJ (hbr.2 c hmem) (fun k hk' => hk k (hJ hk')) (Nat.succ_ne_zero h) (hF c hc)

theorem sized_edit (hs : Sized (leaves t)) (g : LeafEdit 100 t lv) : Sized lv := by
  obtain ⟨A, l, B, e, -, node', rfl, -, hn⟩ := g
  rw [e] at hs
  refine hs.imp (fun h => by simpa using h) fun h l' hl' => ?_
  simp only [mem_append, mem_cons] at h hl'
  rcases hl' with hl' | rfl | hl'
  · exact h l' (.inl hl')
  · have := h l (.inr (.inl rfl))
    simp only [hn]
    omega
  · exact h l' (.inr (.inr hl'))

theorem numKeys_relinkLast {p : PageId} {A : List Leaf} {l : Leaf} (hl : l ∈ relinkLast p A) :
    ∃ l' ∈ A, l'.node.numKeys = l.node.numKeys := by
  rcases eq_nil_or_concat' A with rfl | ⟨A0, z, rfl⟩
  · simp [relinkLast] at hl
  rw [relinkLast_append_singleton, mem_append, List.mem_singleton] at hl
  rcases hl with hl | rfl
  · exact ⟨l, by simp [hl], rfl⟩
  · exact ⟨z, by simp, rfl⟩

theorem sized_split (hs : Sized (leaves t)) (g : LeafSplit key 100 t lv) : Sized lv := by
  obtain ⟨A, l, B, e, -, hfull, A', x, y, rfl, hxy, hfirst, hnot⟩ := g
  have hA (z : Leaf) (hz : z ∈ A') : ∃ z' ∈ A, z'.node.numKeys = z.node.numKeys := by
    by_cases hF : FirstKid key t
    · exact ⟨z, hfirst hF ▸ hz, rfl⟩
    · rw [(hnot hF).2] at hz
      exact numKeys_relinkLast hz
  have h1 := hxy.left_keys
  have h2 := hxy.keys
  rw [show fillThreshold ORDER_LEAF 100 = 217 from rfl] at hfull
  rw [e] at hs
  have hside (z : Leaf) (hz : z ∈ A ∨ z ∈ B) : 108 ≤ z.node.numKeys := by
    rcases hs with hs | hs
    · simp only [length_append, length_cons] at hs
      rcases hz with hz | hz <;> have := length_pos_of_mem hz <;> omega
    · exact hs z (by simp only [mem_append, mem_cons]; tauto)
  refine .inr fun z hz => ?_
  simp only [mem_append, mem_cons] at hz
  rcases hz with hz | rfl | rfl | hz
  · obtain ⟨z', hz', hn⟩ := hA z hz
    exact hn ▸ hside z' (.inl hz')
  · omega
  · omega
  · exact hside z (.inr hz)

end Shape

section Ascend

variable {σ : Type} {E : StorageEngine Stop σ Page} {view : σ → Heap Page} {d d' d'' : Handle σ}
  {h fuel n : Nat} {t : Node h}

/-- The tree of the first `n` keys. -/
structure Ascended (view : σ → Heap Page) (n : Nat) (d : Handle σ) (t : Node h) : Prop where
  tree : IsTree view (ascKeys n) d t
  keys : ∀ i < n, ∃ e ∈ layout.entries t, e.1 = ascKey i
  linked : Linked Leaf.pid (fun l => l.node.nextLeaf) NULL_PAGE (Layout.leaves t)
  sized : Sized (Layout.leaves t)

def ascCmd (i : Nat) : Cmd := .insert (ascKey i) ⟨0, i⟩ 100

theorem IsTree.mono {I J : Set Bytes} (ht : IsTree view I d t) (hI : I ⊆ J) : IsTree view J d t :=
  ⟨ht.root, ht.valid.mono hI, ht.branches⟩

theorem Ascended.step (hE : E.Lawful NULL_PAGE view) (a : Ascended view n d t) (hn : n < 2 ^ 24)
    (hf : h < fuel) : ∃ d', exec E fuel (ascCmd n) d = .ok .inserted d' ∧ ∃ h' ≤ h + 1,
      ∃ t' : Node h', Ascended view (n + 1) d' t' := by
  have hlt (k : Bytes) (hk : k ∈ ascKeys n) : k < ascKey n := by
    obtain ⟨i, hi, rfl⟩ := hk
    exact ascKey_lt hi hn
  have hsub : ascKeys n ⊆ ascKeys (n + 1) := fun k ⟨i, hi, e⟩ => ⟨i, by omega, e⟩
  have hm (e : Bytes × RecordId) (he : e ∈ layout.entries t) : e.1 ≠ ascKey n :=
    (hlt _ (a.tree.valid.ordered.key_mem he)).ne
  obtain ⟨⟨⟩, d', e, h', hh, t', hp, g⟩ := insertIn_new hE (a.tree.mono hsub)
    (show ValidKey (ascKey n) by simp [ValidKey, ascKey, MAX_KEY_LEN]) ⟨n, Nat.lt_succ_self n, rfl⟩ hf ⟨0, n⟩ hm
    (Nat.le_refl 100)
  refine ⟨d', by simp only [exec, ascCmd, e], h', hh, t', ⟨hp, g.valid, g.branches⟩, fun i hi => ?_, ?_, ?_⟩
  · by_cases hin : i = n
    · exact ⟨(ascKey n, ⟨0, n⟩), (g.entries _).mpr (.inl rfl), hin ▸ rfl⟩
    · obtain ⟨e, he, hk⟩ := a.keys i (by omega)
      exact ⟨e, (g.entries e).mpr (.inr he), hk⟩
  · rcases g.leaves with e | e
    · exact (e.keepsLinks _).2 a.linked
    rw [e.linked_iff a.linked]
    intro hF
    by_cases hh : h = 0
    · subst hh; rfl
    · exact absurd hF (not_firstKid_of_lt a.tree.valid.ordered a.tree.branches hlt hh)
  · exact g.leaves.elim (sized_edit a.sized) (sized_split a.sized)

theorem run_append (fuel : Nat) (cmds cmds' : List Cmd) : run E fuel (cmds ++ cmds') =
    run E fuel cmds >>= fun as => run E fuel cmds' >>= fun bs => pure (as ++ bs) := by
  induction cmds with
  | nil => simp [run]
  | cons c cmds ih => simp [run, ih]

theorem run_snoc {cmds : List Cmd} {c : Cmd} {as : List Answer} {a : Answer}
    (hr : run E fuel cmds d = .ok as d') (hc : exec E fuel c d' = .ok a d'') :
    ∃ as', run E fuel (cmds ++ [c]) d = .ok as' d'' := by
  refine ⟨as ++ [a], ?_⟩
  have h1 : run E fuel [c] d' = .ok [a] d'' := (bind_ok hc).trans rfl
  rw [run_append, bind_ok hr, bind_ok h1]
  rfl

theorem ascend (hE : E.Lawful NULL_PAGE view) (hd : view d.store d.rootPid = some (.leaf emptyLeaf))
    (hn : n ≤ 2 ^ 24) (hf : n < fuel) : ∃ as d', run E fuel ((range n).map ascCmd) d = .ok as d' ∧
      ∃ h ≤ n, ∃ t : Node h, Ascended view n d' t := by
  induction n with
  | zero =>
    exact ⟨[], d, rfl, 0, le_rfl, (⟨d.rootPid, emptyLeaf⟩ : Leaf), isTree_empty hd,
      fun i hi => absurd hi (Nat.not_lt_zero i), ⟨rfl, trivial⟩, .inl rfl⟩
  | succ n ih =>
    obtain ⟨as, d1, e1, h1, hh1, t1, a1⟩ := ih (by omega) (by omega)
    obtain ⟨d2, e2, h2, hh2, t2, a2⟩ := a1.step hE (by omega) (show h1 < fuel by omega)
    obtain ⟨as', e⟩ := run_snoc e1 e2
    exact ⟨as', d2, by rw [range_succ, map_append]; exact e, h2, by omega, t2, a2⟩

/-- A tree of two levels holds no more than `224 * 217` entries. -/
theorem entries_length_le {I : Set Bytes} (ht : layout.Ordered I t)
    (hh : h ≤ 1) : (layout.entries t).length ≤ 224 * 217 := by
  have hleaf (l : Leaf) : (layout.leafEntries l).length ≤ 217 := l.node.fits
  match h with
  | 0 =>
    rw [entries_zero]
    exact (hleaf t).trans (by decide)
  | 1 =>
    have hlen : t.kids.length = t.node.keys.length + 1 := length_eq ht
    have hfits : t.node.keys.length ≤ 223 := t.node.fits
    rw [entries_succ, length_flatMap]
    refine (sum_le_card_nsmul _ 217 ?_).trans ?_
    · intro k hk
      obtain ⟨c, -, rfl⟩ := mem_map.mp hk
      rw [entries_zero]
      exact hleaf c
    · rw [length_map]
      exact Nat.mul_le_mul_right _ (by omega)

theorem Ascended.two_le_height (a : Ascended view n d t) (hn : 224 * 217 < n) (hn' : n ≤ 2 ^ 24) :
    2 ≤ h := by
  by_contra hlt
  have hle := entries_length_le a.tree.valid.ordered (by omega)
  have hsub : (range n).map ascKey ⊆ (layout.entries t).map Prod.fst := by
    intro k hk
    obtain ⟨i, hi, rfl⟩ := mem_map.mp hk
    obtain ⟨e, he, hek⟩ := a.keys i (mem_range.mp hi)
    exact mem_map.mpr ⟨e, he, hek⟩
  have hnd : ((range n).map ascKey).Nodup := by
    refine pairwise_map.mpr (pairwise_lt_range.imp_of_mem fun _ hj hij => ?_)
    exact (ascKey_lt hij ((mem_range.mp hj).trans_le hn')).ne
  have := (Nodup.subperm hnd hsub).length_le
  simp only [length_map, length_range] at this
  omega

end Ascend

/-! ## The split -/

section Low

variable {h : Nat} {K : Set Bytes} {s q : Bytes}

/-- A key just above `s`, below a tree of keys from `s` on, goes to the first leaf. -/
theorem firstKid_of_low {t : Node h} (ht : layout.Ordered K t) (hK : ∀ k ∈ K, s ≤ k)
    (hq : ∀ k ∈ K, s < k → q < k) : FirstKid q t := by
  induction h generalizing K with
  | zero => trivial
  | succ h ih =>
    have hlt (m : Bytes) (hm : m ∈ t.node.keys) : q < m := by
      obtain ⟨hmem, x, hx, hlt⟩ := sep_mem ht hm
      exact hq m hmem ((hK x hx).trans_lt hlt)
    have hidx : t.node.findChildIdx q = 0 :=
      findChildIdx_append (show t.node.keys = [] ++ t.node.keys from rfl) (by simp) hlt
    cases h with
    | zero => exact hidx
    | succ h =>
      intro c hc
      obtain ⟨J, hJ, hcJ⟩ := exists_of_mem ht (mem_of_getElem? hc)
      exact ih hcJ (fun k hk => hK k (hJ hk)) fun k hk => hq k (hJ hk)

theorem append_lt_of_lt {k : Bytes} (r : Bytes) (hlen : s.length = k.length) (h : s < k) :
    s ++ r < k := by
  induction s generalizing k with
  | nil => simp [eq_nil_of_length_eq_zero hlen.symm] at h
  | cons a s ih =>
    match k, hlen with
    | b :: k, hlen =>
      rw [cons_append, cons_lt_cons_iff]
      rw [cons_lt_cons_iff] at h
      exact h.imp id fun h => ⟨h.1, ih (Nat.succ.inj hlen) h.2⟩

theorem le_append (s r : Bytes) : s ≤ s ++ r := by
  refine le_of_not_gt fun h => ?_
  induction s with
  | nil => exact not_lt_nil _ h
  | cons a s ih =>
    rw [cons_append, cons_lt_cons_iff] at h
    exact h.elim (lt_irrefl _) fun h => ih h.2

/-- Below the root's second child, the first leaf is a first child. -/
theorem exists_firstKid {t : Node (h + 2)} (ht : layout.Ordered K t) (hbr : Branches HasKeys t)
    (hK : ∀ k ∈ K, k.length = 3) : ∃ q : Bytes, q.length = 4 ∧ FirstKid q t ∧ leafPos q t ≠ 0 := by
  obtain ⟨m, ms, hkeys⟩ := exists_cons_of_ne_nil (ne_nil_of_length_pos hbr.1)
  have hch : SepChain layout.Ordered K t.node.keys t.kids := ht
  have hlen := hch.length_eq
  rw [hkeys] at hch hlen
  obtain ⟨c0, c1, cs, hkids⟩ : ∃ c0 c1 cs, t.kids = c0 :: c1 :: cs := by
    match t.kids, hlen with
    | c0 :: c1 :: cs, _ => exact ⟨c0, c1, cs, rfl⟩
  rw [hkids] at hch
  obtain ⟨hm, -, hc0, hrest⟩ := hch
  obtain ⟨J, hJ, hc1⟩ := hrest.exists_of_mem mem_cons_self
  have hq (k : Bytes) (hk : k ∈ K) (hlt : m < k) : m ++ [0] < k :=
    append_lt_of_lt [0] ((hK m hm).trans (hK k hk).symm) hlt
  have hidx : t.node.findChildIdx (m ++ [0]) = 1 := by
    refine findChildIdx_append (show t.node.keys = [m] ++ ms from hkeys)
      (by simpa using le_append m [0]) fun k hk => ?_
    obtain ⟨hmem, x, hx, hlt⟩ := hrest.sep_mem hk
    exact hq k hmem.1 (lt_of_le_of_lt hx.2 hlt)
  have hF : FirstKid (m ++ [0]) c1 :=
    firstKid_of_low hc1 (s := m) (fun k hk => (hJ hk).2) fun k hk => hq k (hJ hk).1
  refine ⟨m ++ [0], by simp [hK m hm], ?_, ?_⟩
  · simpa [FirstKid, hidx, hkids] using hF
  · have := hc0.leaves_ne_nil
    simp [leafPos, hidx, hkids, this]

end Low

/-- A tree's page with a leaf on it is the page of one of its leaves. -/
theorem leaf_of_page {h : Nat} {t : Node h} {H : Heap Page} {p : PageId} {node : LeafNodePage}
    (ht : layout.Stored H t) (hp : p ∈ layout.pages t) (hn : H p = some (.leaf node)) :
    ∃ l ∈ leaves t, l.pid = p := by
  induction h with
  | zero => exact ⟨t, mem_singleton_self _, (mem_singleton.mp hp).symm⟩
  | succ h ih =>
    rcases mem_cons.mp hp with rfl | hp
    · cases ht.1.symm.trans hn
    · obtain ⟨c, hc, hp⟩ := mem_flatMap.mp hp
      obtain ⟨l, hl, hlp⟩ := ih (ht.2.2 c hc) hp
      exact ⟨l, mem_flatMap.mpr ⟨c, hc, hl⟩, hlp⟩

section Stale

variable {σ : Type} {E : StorageEngine Stop σ Page} {view : σ → Heap Page} {d : Handle σ}
  {h fuel n : Nat} {t : Node h}

/-- One insertion more, after which a leaf points at a page that is no leaf. -/
theorem Ascended.stale (hE : E.Lawful NULL_PAGE view) (a : Ascended view n d t) (hh : 2 ≤ h)
    (hf : h < fuel) : ∃ c d' h', c.Valid ∧ exec E fuel c d = .ok .inserted d' ∧ h' ≤ h + 1 ∧
      ∃ t' : Node h', IsTree view univ d' t' ∧ ∃ l ls rest p, leaves t' = l :: ls ++ rest ∧
        Linked Leaf.pid (fun l => l.node.nextLeaf) p (l :: ls) ∧ p ≠ NULL_PAGE ∧
        ∀ node, view d'.store p ≠ some (.leaf node) := by
  have hK (k : Bytes) (hk : k ∈ ascKeys n) : k.length = 3 := by
    obtain ⟨i, -, rfl⟩ := hk
    rfl
  obtain ⟨q, hq, hF, hpos⟩ : ∃ q : Bytes, q.length = 4 ∧ FirstKid q t ∧ leafPos q t ≠ 0 := by
    match h, hh with
    | h + 2, _ => exact exists_firstKid a.tree.valid.ordered a.tree.branches hK
  have hv : ValidKey q := ⟨ne_nil_of_length_pos (by omega), by rw [hq]; decide⟩
  have hm (e : Bytes × RecordId) (he : e ∈ layout.entries t) : e.1 ≠ q := fun h => by
    have := hK e.1 (a.tree.valid.ordered.key_mem he)
    rw [h] at this
    omega
  have ht := a.tree.mono (subset_univ _)
  obtain ⟨⟨⟩, d', e, h', hh', t', hp, g⟩ := insertIn_new hE ht hv (mem_univ _) hf ⟨0, 0⟩ hm
    (show 10 ≤ 100 by omega)
  refine ⟨.insert q ⟨0, 0⟩ 10, d', h', ⟨hv, by omega, by omega⟩, by simp only [exec, e], hh', t',
    ⟨hp, g.valid, g.branches⟩, ?_⟩
  rcases g.leaves with ⟨A, l, B, el, hlt, -⟩ | ⟨A, l, B, el, hA, -, A', x, y, el', hxy, hfirst, -⟩
  · -- All the leaves are too large to take the key in place.
    obtain ⟨A0, l0, B0, J, f⟩ := ht.valid.ordered.focus (mem_univ q)
    have hlen := congrArg length f.leaves_eq
    have hpos0 := Focus.leafPos_eq f
    simp only [length_append, length_cons] at hlen
    rcases a.sized with hs | hs
    · omega
    · have := hs l (by simp [el])
      rw [show fillThreshold ORDER_LEAF 10 = 22 from rfl] at hlt
      omega
  obtain ⟨z, A, rfl⟩ := exists_cons_of_ne_nil (ne_nil_of_length_pos (by omega : 0 < A.length))
  rw [hfirst hF] at el'
  have hl := a.linked
  have hnd := ht.leaves_nodup
  rw [el] at hl hnd
  have hstored : view d.store l.pid = some (.leaf l.node) := ht.valid.stored.leaf (by simp [el])
  refine ⟨z, A, x :: y :: B, l.pid, el', (linked_append.mp hl).1, fun h => ?_, fun node hn => ?_⟩
  · rw [h, hE.null_free] at hstored
    cases hstored
  have hpage : l.pid ∈ layout.pages t := (leafPages_sublist (Λ := layout) t).subset
    (mem_flatMap.mpr ⟨l, by simp [el], mem_singleton_self _⟩)
  have hpage' : l.pid ∈ layout.pages t' := by
    by_contra hout
    rw [g.keeps.freed hout (.inl hpage)] at hn
    cases hn
  obtain ⟨l', hl', hpid⟩ := leaf_of_page g.valid.stored hpage' hn
  have hout : l.pid ∉ (z :: A ++ B).map Leaf.pid := by
    rw [map_append, map_cons (l := B), nodup_middle, nodup_cons] at hnd
    rw [map_append]
    exact hnd.1
  rw [el'] at hl'
  by_cases hside : l' ∈ z :: A ++ B
  · exact hout (mem_map.mpr ⟨l', hside, hpid⟩)
  have : l' = x ∨ l' = y := by
    simp only [mem_append, mem_cons] at hl' hside
    tauto
  rcases this with rfl | rfl
  · exact hxy.left_pid hpid
  · exact hxy.right_pid hpid

end Stale

theorem memory_readLeaf_error {s : Mem Page NULL_PAGE} {p : PageId}
    (hp : ∀ node, s.pages p ≠ some (.leaf node)) : ∃ e, readLeaf memory p s = .error e s := by
  match h : s.pages p with
  | none => exact ⟨_, bind_error (memoryStore_read_none h)⟩
  | some (.leaf node) => exact absurd h (hp node)
  | some (.internal node) => exact ⟨.panic, bind_ok (memory_lawful.read h)⟩

/-- A run of valid insertions into an empty index after which a scan without bounds
fails, however much fuel it has. -/
theorem range_fails_after_split : ∃ cmds : List Cmd, (∀ c ∈ cmds, c.Valid) ∧
    ∃ as d', run memory (cmds.length + 1) cmds emptyIndex = .ok as d' ∧
      ∃ n, ∀ fuel ≥ n, ∃ e, BTree.rangeIn memory fuel d'.rootPid none none d'.store = .error e d'.store := by
  obtain ⟨as, d₁, e₁, h₁, hh₁, t₁, a₁⟩ := ascend memory_lawful emptyIndex_root
    (show 48609 ≤ 2 ^ 24 by decide) (show 48609 < 48611 by decide)
  obtain ⟨c, d₂, h₂, hc, e₂, hh₂, t₂, ht₂, l, ls, rest, p, el, hl, hp, hbad⟩ :=
    a₁.stale memory_lawful (a₁.two_le_height (by decide) (by decide)) (show h₁ < 48611 by omega)
  obtain ⟨as', e⟩ := run_snoc e₁ e₂
  refine ⟨(range 48609).map ascCmd ++ [c], fun c' hc' => ?_, as', d₂, ?_, h₂ + 1, fun fuel hf => ?_⟩
  · simp only [mem_append, mem_map, List.mem_singleton] at hc'
    rcases hc' with ⟨i, -, rfl⟩ | rfl
    · exact ⟨by simp [ValidKey, ascKey, MAX_KEY_LEN], by omega, by omega⟩
    · exact hc
  · rw [length_append, length_map, length_range]
    exact e
  obtain ⟨l', ls', el', eleft⟩ := leftmostLeafIn_eq memory_lawful ht₂.valid
    (show h₂ < fuel by omega)
  obtain rfl : l' = l := by
    rw [el] at el'
    exact (cons.inj el').1.symm
  rw [ht₂.root] at eleft
  have hb : RangeIter.Broken memory Mem.pages d₂.store p (l' :: ls) :=
    ⟨fun x hx => ht₂.valid.stored.leaf (by rw [el]; exact mem_append_left _ hx), hl,
      memory_readLeaf_error hbad, hp⟩
  obtain ⟨z, hz⟩ := RangeIter.collect_broken (RangeIter.new 0 .unbounded .unbounded) fuel
    (i := 0) memory_lawful hb rfl rfl
  exact ⟨z, (bind_ok eleft).trans hz⟩

end AxiomDb.Index
