import AxiomDb.Index.Calls

/-!
# Range scans

A scan starts at one leaf and follows `next_leaf`. Along a chain of leaves in
which each points at the next (`Chain`) it returns the entries within its bounds
(`rangeIn_eq`).
-/

namespace AxiomDb.Index

open Lib Set List RangeIter

/-- Each leaf is on its page and points at the next, the last at nothing. -/
structure Chain (H : Heap Page) (ls : List Leaf) : Prop where
  stored : ∀ l ∈ ls, H l.pid = some (.leaf l.node)
  linked : Linked Leaf.pid (fun l => l.node.nextLeaf) NULL_PAGE ls

theorem Chain.of_append {H : Heap Page} {a b : List Leaf} (h : Chain H (a ++ b)) : Chain H b :=
  ⟨fun l hl => h.stored l (mem_append_right _ hl), (linked_append.mp h.linked).2⟩

namespace RangeIter

variable {σ : Type} {E : StorageEngine Stop σ Page} {view : σ → Heap Page} {s : σ}
  {it : RangeIter} {l : Leaf} {ls : List Leaf} {i fuel : Nat}

/-- The iterator before slot `i` of the leaf `l`. -/
def atSlot (it : RangeIter) (l : Leaf) (i : Nat) : RangeIter :=
  { it with
    currentPid := l.pid
    nextLeafCache := if i = 0 then NULL_PAGE else l.node.nextLeaf
    slotIdx := i
    done := false }

/-- What a scan of entries in ascending order returns. -/
def scan (it : RangeIter) (es : List (Bytes × RecordId)) : List (Bytes × RecordId) :=
  (es.filter fun e => it.aboveLower e.1).takeWhile fun e => it.belowUpper e.1

/-- The entries from slot `i` of `l` on. -/
def rest (l : Leaf) (ls : List Leaf) (i : Nat) : List (Bytes × RecordId) :=
  l.node.slots.drop i ++ ls.flatMap fun l => l.node.slots

/-- The turns of the loop that are left: one for each slot and one for each leaf. -/
def turns (l : Leaf) (ls : List Leaf) (i : Nat) : Nat :=
  l.node.numKeys - i + 1 + (ls.map fun l => l.node.numKeys + 1).sum

/-- One turn of the loop: the next slot, or the step to the next leaf. -/
theorem next_turn (hE : E.Lawful NULL_PAGE view) (hp : view s l.pid = some (.leaf l.node)) :
    next E (fuel + 1) (it.atSlot l i) s = if i < l.node.numKeys then
        if it.aboveLower (l.node.keyAt i) = false then next E fuel (it.atSlot l (i + 1)) s
        else if it.belowUpper (l.node.keyAt i) = false then
          .ok (none, { it.atSlot l (i + 1) with done := true }) s
        else .ok (some (l.node.keyAt i, l.node.ridAt i), it.atSlot l (i + 1)) s
      else if l.node.nextLeaf = NULL_PAGE then
        .ok (none, { it.atSlot l i with nextLeafCache := l.node.nextLeaf, done := true }) s
      else next E fuel (it.atSlot ⟨l.node.nextLeaf, l.node⟩ 0) s := by
  have hpid : l.pid ≠ NULL_PAGE := fun h => by
    rw [h, hE.null_free s] at hp
    cases hp
  have hread : BTree.readLeaf E (it.atSlot l i).currentPid s = .ok l.node s := bind_ok (hE.read hp)
  -- The copy of `next_leaf` is taken with the first slot and then kept.
  have hcache : (if (it.atSlot l i).nextLeafCache = NULL_PAGE ∧ (it.atSlot l i).slotIdx = 0 then
      { it.atSlot l i with nextLeafCache := l.node.nextLeaf } else it.atSlot l i) =
      { it.atSlot l i with nextLeafCache := l.node.nextLeaf } := by
    by_cases hi : i = 0 <;> simp [atSlot, hi]
  have hstep : { it.atSlot l i with nextLeafCache := l.node.nextLeaf, slotIdx := i + 1 } =
      it.atSlot l (i + 1) := by simp [atSlot]
  rw [next, if_neg (show ¬ (it.atSlot l i).done by simp [atSlot]),
    if_neg (show ¬ (it.atSlot l i).currentPid = NULL_PAGE from hpid), bind_ok hread]
  simp only [hcache]
  by_cases hlt : i < l.node.numKeys
  · rw [if_pos hlt, if_neg (show ¬ (it.atSlot l i).slotIdx ≥ l.node.numKeys from Nat.not_le.mpr hlt)]
    change (if (!it.aboveLower (l.node.keyAt i)) = true then next E fuel
        { it.atSlot l i with nextLeafCache := l.node.nextLeaf, slotIdx := i + 1 }
      else if (!it.belowUpper (l.node.keyAt i)) = true then pure (none,
        { it.atSlot l i with nextLeafCache := l.node.nextLeaf, slotIdx := i + 1, done := true })
      else pure (_, { it.atSlot l i with nextLeafCache := l.node.nextLeaf, slotIdx := i + 1 }) :
        EStateM Stop σ _) s = _
    rw [hstep]
    cases it.aboveLower (l.node.keyAt i)
    · rfl
    · cases it.belowUpper (l.node.keyAt i)
      · rw [← hstep]; rfl
      · rfl
  · rw [if_neg hlt, if_pos (show (it.atSlot l i).slotIdx ≥ l.node.numKeys from Nat.le_of_not_lt hlt)]
    by_cases hn : l.node.nextLeaf = NULL_PAGE
    · rw [if_pos hn, if_pos hn]; rfl
    · rw [if_neg hn, if_neg hn]; rfl

theorem rest_lt (hi : i < l.node.numKeys) :
    rest l ls i = (l.node.keyAt i, l.node.ridAt i) :: rest l ls (i + 1) := by
  have hi' : i < l.node.slots.length := hi
  rw [rest, drop_eq_getElem_cons hi', cons_append]
  simp [LeafNodePage.keyAt, LeafNodePage.ridAt, rest, List.getElem?_eq_getElem hi']

theorem rest_ge (hi : l.node.numKeys ≤ i) : rest l ls i = ls.flatMap fun l => l.node.slots := by
  rw [rest, drop_eq_nil_of_le hi, nil_append]

theorem turns_lt (ls : List Leaf) (hi : i < l.node.numKeys) : turns l ls (i + 1) < turns l ls i := by
  simp only [turns]
  omega

/-- A call of `next` returns the first entry of the scan that is left. -/
theorem next_spec (it : RangeIter) (hE : E.Lawful NULL_PAGE view) (hc : Chain (view s) (l :: ls))
    (hi : i ≤ l.node.numKeys) (hf : turns l ls i ≤ fuel) :
    WP (next E fuel (it.atSlot l i)) s fun r s' => s' = s ∧ match r with
      | (none, _) => it.scan (rest l ls i) = []
      | (some e, it') => ∃ l' ls' i', it' = it.atSlot l' i' ∧ Chain (view s) (l' :: ls') ∧
        i' ≤ l'.node.numKeys ∧ turns l' ls' i' < turns l ls i ∧
        it.scan (rest l ls i) = e :: it.scan (rest l' ls' i') := by
  induction fuel generalizing l ls i with
  | zero => simp only [turns] at hf; omega
  | succ fuel ih =>
    rw [WP, next_turn hE (hc.stored l mem_cons_self)]
    by_cases hlt : i < l.node.numKeys
    · have hturn := turns_lt ls hlt
      rw [if_pos hlt, rest_lt hlt]
      cases ha : it.aboveLower (l.node.keyAt i) with
      | false =>
        refine WP.mono (ih hc hlt (by omega)) ?_
        rintro ⟨_ | e, it'⟩ _ ⟨rfl, h⟩
        · exact ⟨rfl, by simpa [scan, ha] using h⟩
        · obtain ⟨l', ls', i', h1, h2, h3, h4, h5⟩ := h
          exact ⟨rfl, l', ls', i', h1, h2, h3, h4.trans hturn, by simpa [scan, ha] using h5⟩
      | true =>
        cases hb : it.belowUpper (l.node.keyAt i) with
        | false => exact ⟨_, _, rfl, rfl, by simp [scan, ha, hb]⟩
        | true => exact ⟨_, _, rfl, rfl, l, ls, i + 1, rfl, hc, hlt, hturn, by simp [scan, ha, hb]⟩
    rw [if_neg hlt, rest_ge (Nat.le_of_not_lt hlt)]
    cases ls with
    | nil =>
      rw [if_pos (show l.node.nextLeaf = NULL_PAGE from hc.linked.1)]
      exact ⟨_, _, rfl, rfl, rfl⟩
    | cons l1 ls =>
      have hlink : l.node.nextLeaf = l1.pid := hc.linked.1
      have hne : l1.pid ≠ NULL_PAGE := fun h => by
        have := hc.stored l1 (by simp)
        rw [h, hE.null_free s] at this
        cases this
      have hturn : turns l1 ls 0 < turns l (l1 :: ls) i := by
        simp only [turns, map_cons, sum_cons]
        omega
      rw [if_neg (hlink ▸ hne), show it.atSlot ⟨l.node.nextLeaf, l.node⟩ 0 = it.atSlot l1 0 by
        simp [atSlot, hlink]]
      refine WP.mono (ih (hc.of_append (a := [l])) (Nat.zero_le _) (by omega)) ?_
      rintro ⟨_ | e, it'⟩ _ ⟨rfl, h⟩
      · exact ⟨rfl, by simpa [rest] using h⟩
      · obtain ⟨l', ls', i', h1, h2, h3, h4, h5⟩ := h
        exact ⟨rfl, l', ls', i', h1, h2, h3, h4.trans hturn, by simpa [rest] using h5⟩

theorem collect_eq (hE : E.Lawful NULL_PAGE view) (hc : Chain (view s) (l :: ls))
    (hi : i ≤ l.node.numKeys) (hf : turns l ls i < fuel) : collect E fuel (it.atSlot l i) s =
      .ok ((it.scan (rest l ls i)).map fun e => (e.2, e.1)) s := by
  induction fuel generalizing l ls i with
  | zero => omega
  | succ fuel ih =>
    obtain ⟨⟨_ | e, it'⟩, _, e1, rfl, h⟩ := next_spec it hE hc hi hf.le
    · rw [collect, bind_ok e1, h]
      rfl
    obtain ⟨l', ls', i', rfl, hc', hi', hturn, hscan⟩ := h
    rw [collect, bind_ok e1]
    show (collect E fuel (it.atSlot l' i') >>= _) _ = _
    rw [bind_ok (ih hc' hi' (by omega)), hscan]
    rfl

theorem belowUpper_mono {k k' : Bytes} (hk : k < k') (h : it.belowUpper k') : it.belowUpper k := by
  cases hu : it.upper with
  | unbounded => simp only [belowUpper, hu]
  | included hi =>
    simp only [belowUpper, hu, decide_eq_true_eq] at h ⊢
    exact hk.le.trans h
  | excluded hi =>
    simp only [belowUpper, hu, decide_eq_true_eq] at h ⊢
    exact hk.trans h

theorem scan_sorted {es : List (Bytes × RecordId)} (hs : es.Pairwise fun a b => a.1 < b.1) :
    it.scan es = es.filter fun e => it.aboveLower e.1 && it.belowUpper e.1 := by
  have hs' := hs.sublist (filter_sublist (p := fun e => it.aboveLower e.1))
  rw [scan, takeWhile_eq_filter (hs'.imp fun hlt => belowUpper_mono hlt), filter_filter]
  exact filter_congr fun e _ => Bool.and_comm ..

end RangeIter

namespace BTree

variable {σ : Type} {E : StorageEngine Stop σ Page} {view : σ → Heap Page} {s : σ} {d : Handle σ}
  {h fuel : Nat} {I : Set Bytes} {t : Node h}

theorem leftmostLeafIn_eq (hE : E.Lawful NULL_PAGE view) (ht : layout.Valid (view s) I t)
    (hf : h < fuel) : ∃ l ls, Layout.leaves t = l :: ls ∧
      leftmostLeafIn E fuel (layout.rootPid t) s = .ok l.pid s := by
  induction h generalizing I fuel with
  | zero =>
    obtain _ | fuel := fuel
    · omega
    exact ⟨t, [], rfl, WP.eq_ok (hE.wp_read ht.stored (WP.pure ⟨rfl, rfl⟩))⟩
  | succ h ih =>
    obtain _ | fuel := fuel
    · omega
    have hlen : t.kids.length = t.node.keys.length + 1 := SepChain.length_eq ht.ordered
    obtain ⟨c, cs, hkids⟩ := exists_cons_of_ne_nil (l := t.kids) fun h => by simp [h] at hlen
    obtain ⟨J, -, hc⟩ := SepChain.exists_of_mem ht.ordered (c := c) (by simp [hkids])
    obtain ⟨l, ls, hl, e⟩ := ih (ht.kid (by simp [hkids]) hc) (show h < fuel by omega)
    refine ⟨l, ls ++ cs.flatMap Layout.leaves, by simp [Layout.leaves_succ, hkids, hl], ?_⟩
    have hchild : t.node.childAt 0 = layout.rootPid c :=
      InternalNodePage.childAt_append (a := []) (ht.children.trans (by simp [hkids]; rfl))
    refine WP.eq_ok (hE.wp_read ht.page ?_)
    show WP (leftmostLeafIn E fuel (t.node.childAt 0)) s _
    rw [hchild]
    exact WP.of_eq e ⟨rfl, rfl⟩

/-- Within the bounds of `range_in`. -/
def InRange (lo hi : Option Bytes) (key : Bytes) : Bool :=
  (match lo with
    | none => true
    | some k => decide (k ≤ key)) &&
  match hi with
    | none => true
    | some k => decide (key ≤ k)

theorem collect_range (hE : E.Lawful NULL_PAGE view) {A B : List Leaf} {l : Leaf}
    (hc : Chain (view s) (A ++ l :: B)) (lo hi : Option Bytes)
    (hs : ((A ++ l :: B).flatMap layout.leafEntries).Pairwise fun a b => a.1 < b.1)
    (hA : ∀ e ∈ A.flatMap layout.leafEntries, InRange lo hi e.1 = false)
    (hf : ((A ++ l :: B).map fun l => l.node.numKeys + 1).sum < fuel) :
    collect E fuel (new l.pid (.ofOption lo) (.ofOption hi)) s =
      .ok ((((A ++ l :: B).flatMap layout.leafEntries).filter fun e => InRange lo hi e.1).map
        fun e => (e.2, e.1)) s := by
  have hrest : rest l B 0 = (l :: B).flatMap layout.leafEntries := rfl
  have hs' : ((l :: B).flatMap layout.leafEntries).Pairwise fun a b => a.1 < b.1 := by
    rw [flatMap_append] at hs
    exact (pairwise_append.mp hs).2.1
  have hin (key : Bytes) : ((new 0 (.ofOption lo) (.ofOption hi)).aboveLower key &&
      (new 0 (.ofOption lo) (.ofOption hi)).belowUpper key) = InRange lo hi key := by
    cases lo <;> cases hi <;> rfl
  rw [show new l.pid (.ofOption lo) (.ofOption hi) =
    (new 0 (.ofOption lo) (.ofOption hi)).atSlot l 0 from rfl]
  rw [collect_eq hE hc.of_append (Nat.zero_le _), hrest, scan_sorted hs',
    flatMap_append, filter_append,
    (filter_eq_nil_iff (l := A.flatMap _)).mpr fun e he => by simp [hA e he]]
  · simp only [hin, nil_append]
  · simp only [turns, map_append, map_cons, sum_append, sum_cons] at hf ⊢
    omega

/-- A scan along a chain returns the entries within its bounds. -/
theorem rangeIn_eq (hE : E.Lawful NULL_PAGE view) (ht : IsTree view univ d t)
    (hc : Chain (view d.store) (Layout.leaves t)) (lo hi : Option Bytes)
    (hf : h + ((Layout.leaves t).map fun l => l.node.numKeys + 1).sum < fuel) :
    rangeIn E fuel d.rootPid lo hi d.store =
      .ok (((layout.entries t).filter fun e => InRange lo hi e.1).map fun e => (e.2, e.1)) d.store := by
  have hs := ht.valid.ordered.sorted
  rw [Layout.entries] at hs ⊢
  cases lo with
  | none =>
    obtain ⟨l, ls, hl, e⟩ := leftmostLeafIn_eq hE ht.valid (show h < fuel by omega)
    rw [ht.root] at e
    rw [hl] at hs hc hf ⊢
    exact (bind_ok e).trans (collect_range (A := []) hE hc none hi hs (by simp)
      (show _ < fuel from Nat.lt_of_le_of_lt (Nat.le_add_left ..) hf))
  | some k =>
    obtain ⟨A, l, B, J, f⟩ := ht.valid.ordered.focus (mem_univ k)
    have e := findLeafForIn_eq hE ht.valid f (show h < fuel by omega)
    rw [ht.root] at e
    rw [f.leaves_eq] at hs hc hf ⊢
    have hA (e : Bytes × RecordId) (he : e ∈ A.flatMap layout.leafEntries) :
        InRange (some k) hi e.1 = false := by
      have hlt : e.1 < k := f.key_lt he
      simp [InRange, not_le.mpr hlt]
    exact (bind_ok e).trans (collect_range hE hc (some k) hi hs hA
      (Nat.lt_of_le_of_lt (Nat.le_add_left ..) hf))

end BTree

end AxiomDb.Index
