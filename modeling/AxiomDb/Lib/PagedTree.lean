import AxiomDb.Lib.Lists
import AxiomDb.Lib.Search
import AxiomDb.Lib.SepChain
import AxiomDb.Lib.Store

/-!
# Search trees in pages

A search tree whose nodes are pages of a heap, described by the tree it stands
for. `Tree N L h` is a tree of height `h`: a leaf `L`, or a branch with its page
`N` and its children; a `Layout` says which pages a leaf takes, which entries it
holds, and what a branch page's separators and child pointers are. A tree is
`Valid` in a heap if its nodes are on their pages (`Stored`), its entries are
where the separators send their keys (`Ordered`) and no page is used twice.

A program that changes such a tree does so at a run of neighbouring children of
one branch (`Replaces.kids`), or at the leaf for one key (`Focus.replace`).
-/

namespace AxiomDb.Lib

open Set List

/-- An inner node: its page number, the page's contents and the subtrees below. -/
structure Branch (N C : Type) where
  pid : PageId
  node : N
  kids : List C

/-- Trees of height `h` with branch pages `N` and leaves `L`. -/
@[reducible] def Tree (N L : Type) : Nat → Type
  | 0 => L
  | h + 1 => Branch N (Tree N L h)

/-- How the nodes of a tree with entries `E` under keys `K` lie in pages `P`. -/
structure Layout (K E P N L : Type) where
  key : E → K
  seps : N → List K
  children : N → List PageId
  branchPage : N → P
  leafPid : L → PageId
  leafPages : L → List PageId
  leafEntries : L → List E
  leafStored : Heap P → L → Prop
  leafPid_mem (l : L) : leafPid l ∈ leafPages l
  leafStored_live {H : Heap P} {l : L} {p : PageId} : leafStored H l → p ∈ leafPages l → H p ≠ none
  leafStored_congr {H H' : Heap P} {l : L} : leafStored H l →
    (∀ p ∈ leafPages l, H' p = H p) → leafStored H' l

namespace Layout

variable {K E P N L : Type} (Λ : Layout K E P N L)

/-! ## The parts of a tree -/

def rootPid : {h : Nat} → Tree N L h → PageId
  | 0, l => Λ.leafPid l
  | _ + 1, b => b.pid

/-- Every page the tree takes. -/
def pages : {h : Nat} → Tree N L h → List PageId
  | 0, l => Λ.leafPages l
  | _ + 1, b => b.pid :: b.kids.flatMap pages

/-- The leaves from left to right. -/
def leaves : {h : Nat} → Tree N L h → List L
  | 0, l => [l]
  | _ + 1, b => b.kids.flatMap leaves

/-- The entries from left to right. -/
def entries {h : Nat} (t : Tree N L h) : List E :=
  (leaves t).flatMap Λ.leafEntries

/-- The nodes of the tree are on their pages. -/
def Stored (H : Heap P) : {h : Nat} → Tree N L h → Prop
  | 0, l => Λ.leafStored H l
  | _ + 1, b => H b.pid = some (Λ.branchPage b.node) ∧
    Λ.children b.node = b.kids.map Λ.rootPid ∧ ∀ c ∈ b.kids, Stored H c

/-- Every branch page has `ok`. -/
def Branches (ok : N → Prop) : {h : Nat} → Tree N L h → Prop
  | 0, _ => True
  | _ + 1, b => ok b.node ∧ ∀ c ∈ b.kids, Branches ok c

variable {Λ} {h : Nat}

theorem pages_succ (b : Tree N L (h + 1)) : Λ.pages b = b.pid :: b.kids.flatMap Λ.pages := rfl

/-- The pages of a run of trees are taken to the front. -/
theorem pages_run (c₁ w c₂ : List (Tree N L h)) : ((c₁ ++ w ++ c₂).flatMap Λ.pages).Perm
    (w.flatMap Λ.pages ++ (c₁ ++ c₂).flatMap Λ.pages) := by
  rw [flatMap_append, flatMap_append, flatMap_append]
  exact perm_append_middle ..

theorem leaves_succ (b : Tree N L (h + 1)) : leaves b = b.kids.flatMap leaves := rfl

theorem flatMap_leaves_zero (ts : List (Tree N L 0)) : ts.flatMap leaves = ts := by
  induction ts with
  | nil => rfl
  | cons t ts ih => rw [flatMap_cons, ih]; rfl

theorem entries_succ (b : Tree N L (h + 1)) : Λ.entries b = b.kids.flatMap Λ.entries :=
  flatMap_assoc ..

@[simp] theorem entries_zero (l : Tree N L 0) : Λ.entries l = Λ.leafEntries l :=
  flatMap_singleton ..

/-- The pages of the leaves are among the tree's pages. -/
theorem leafPages_sublist (t : Tree N L h) :
    ((leaves t).flatMap Λ.leafPages).Sublist (Λ.pages t) := by
  induction h with
  | zero => simp [leaves, pages]
  | succ h ih =>
    rw [leaves_succ, pages_succ, flatMap_assoc]
    refine Sublist.cons _ ?_
    induction t.kids with
    | nil => exact Sublist.slnil
    | cons c cs ihs => exact (ih c).append ihs

namespace Stored

variable {H H' : Heap P} {t : Tree N L h}

theorem live {p : PageId} (ht : Λ.Stored H t) (hp : p ∈ Λ.pages t) : H p ≠ none := by
  induction h with
  | zero => exact Λ.leafStored_live ht hp
  | succ h ih =>
    obtain ⟨hb, _, hkids⟩ := ht
    rcases mem_cons.mp hp with rfl | hp
    · simp [hb]
    · obtain ⟨c, hc, hp⟩ := mem_flatMap.mp hp
      exact ih (hkids c hc) hp

/-- A tree depends on its own pages only. -/
theorem congr (ht : Λ.Stored H t) (hH : ∀ p ∈ Λ.pages t, H' p = H p) : Λ.Stored H' t := by
  induction h with
  | zero => exact Λ.leafStored_congr ht hH
  | succ h ih =>
    obtain ⟨hb, hch, hkids⟩ := ht
    refine ⟨(hH _ mem_cons_self).trans hb, hch, fun c hc => ih (hkids c hc) fun p hp => ?_⟩
    exact hH p (mem_cons_of_mem _ (mem_flatMap.mpr ⟨c, hc, hp⟩))

theorem leaf {l : L} (ht : Λ.Stored H t) (hl : l ∈ leaves t) : Λ.leafStored H l := by
  induction h with
  | zero => exact mem_singleton.mp hl ▸ ht
  | succ h ih =>
    obtain ⟨c, hc, hl⟩ := mem_flatMap.mp hl
    exact ih (ht.2.2 c hc) hl

end Stored

theorem stored_congr {H H' : Heap P} {w : List (Tree N L h)} (hs : ∀ c ∈ w, Λ.Stored H c)
    (hH : ∀ p ∈ w.flatMap Λ.pages, H' p = H p) : ∀ c ∈ w, Λ.Stored H' c :=
  fun c hc => (hs c hc).congr fun p hp => hH p (mem_flatMap.mpr ⟨c, hc, hp⟩)

/-! ## Order -/

section Order

variable [LinearOrder K] (Λ)

/-- The keys below the tree are in `I`, in order, and each below the child to which
the separators send it. -/
def Ordered : {h : Nat} → Set K → Tree N L h → Prop
  | 0, I, l => (Λ.leafEntries l).Pairwise (fun a b => Λ.key a < Λ.key b) ∧
    ∀ e ∈ Λ.leafEntries l, Λ.key e ∈ I
  | _ + 1, I, b => SepChain Ordered I (Λ.seps b.node) b.kids

variable {Λ} {I J : Set K} {x y : Tree N L 0}

section

variable {t : Tree N L h}

theorem Ordered.mono (ht : Λ.Ordered I t) (hI : I ⊆ J) : Λ.Ordered J t := by
  induction h generalizing I J with
  | zero => exact ⟨ht.1, fun e he => hI (ht.2 e he)⟩
  | succ h ih => exact SepChain.mono ht hI fun c _ J J' hJ hc => ih hc hJ

/-- The entries under a chain of children: in order, with keys in the chain's set. -/
theorem sepChain_entries {seps : List K} {kids : List (Tree N L h)}
    (hkid : ∀ {J : Set K} {c : Tree N L h}, Λ.Ordered J c →
      (Λ.entries c).Pairwise (fun a b => Λ.key a < Λ.key b) ∧ ∀ e ∈ Λ.entries c, Λ.key e ∈ J)
    (hc : SepChain Λ.Ordered I seps kids) :
    (kids.flatMap Λ.entries).Pairwise (fun a b => Λ.key a < Λ.key b) ∧
      ∀ e ∈ kids.flatMap Λ.entries, Λ.key e ∈ I := by
  induction seps generalizing I kids with
  | nil =>
    match kids, hc with
    | [c], hc => simpa using hkid hc
  | cons s seps ih =>
    match kids, hc with
    | c :: kids, ⟨_, _, hc, hkids⟩ =>
      obtain ⟨hp, hm⟩ := hkid hc
      obtain ⟨hp', hm'⟩ := ih hkids
      rw [flatMap_cons]
      refine ⟨pairwise_append.mpr ⟨hp, hp', fun a ha b hb => ?_⟩, fun e he => ?_⟩
      · exact lt_of_lt_of_le (hm a ha).2 (hm' b hb).2
      · rcases mem_append.mp he with he | he
        · exact (hm e he).1
        · exact (hm' e he).1

theorem Ordered.sorted_and_mem (ht : Λ.Ordered I t) :
    (Λ.entries t).Pairwise (fun a b => Λ.key a < Λ.key b) ∧ ∀ e ∈ Λ.entries t, Λ.key e ∈ I := by
  induction h generalizing I with
  | zero => rw [entries_zero]; exact ht
  | succ h ih => rw [entries_succ]; exact sepChain_entries (fun hc => ih hc) ht

theorem Ordered.sorted (ht : Λ.Ordered I t) :
    (Λ.entries t).Pairwise (fun a b => Λ.key a < Λ.key b) := ht.sorted_and_mem.1

theorem Ordered.key_mem (ht : Λ.Ordered I t) {e : E} (he : e ∈ Λ.entries t) :
    Λ.key e ∈ I := ht.sorted_and_mem.2 e he

theorem Ordered.leaves_ne_nil (ht : Λ.Ordered I t) : leaves t ≠ [] := by
  induction h generalizing I with
  | zero => exact cons_ne_nil _ _
  | succ h ih =>
    obtain ⟨c, cs, hkids⟩ := exists_cons_of_ne_nil (l := t.kids) fun hn => by
      have := SepChain.length_eq ht
      simp [hn] at this
    obtain ⟨J, -, hc⟩ := SepChain.exists_of_mem ht (c := c) (by simp [hkids])
    simp [leaves_succ, hkids, ih hc]

/-- A key has one entry. -/
theorem Ordered.eq_of_key_eq (ht : Λ.Ordered I t) {a b : E}
    (ha : a ∈ Λ.entries t) (hb : b ∈ Λ.entries t) (hk : Λ.key a = Λ.key b) : a = b := by
  have hnodup : ((Λ.entries t).map Λ.key).Nodup := pairwise_map.mpr (ht.sorted.imp ne_of_lt)
  exact inj_on_of_nodup_map hnodup ha hb hk

end

/-! ## Cutting and joining nodes -/

/-- The entries of a leaf are cut before `e`, which gives the separator. -/
theorem leaf_cut {a b : List E} {e : E}
    (hs : (a ++ e :: b).Pairwise fun a b => Λ.key a < Λ.key b) (hm : ∀ z ∈ a ++ e :: b, Λ.key z ∈ I)
    (ex : Λ.leafEntries x = a) (ey : Λ.leafEntries y = e :: b) (ha : a ≠ []) :
    SepChain (Λ.Ordered (h := 0)) I [Λ.key e] [x, y] := by
  obtain ⟨hsa, hsb, hab⟩ := pairwise_append.mp hs
  have hlt {z : E} (hz : z ∈ a) : Λ.key z < Λ.key e := hab z hz e mem_cons_self
  obtain ⟨z, hz⟩ := exists_mem_of_ne_nil a ha
  refine ⟨hm e (by simp), ⟨Λ.key z, hm z (by simp [hz]), hlt hz⟩, ⟨ex ▸ hsa, fun z hz => ?_⟩,
    ⟨ey ▸ hsb, fun z hz => ?_⟩⟩
  · rw [ex] at hz
    exact ⟨hm z (by simp [hz]), hlt hz⟩
  rw [ey] at hz
  refine ⟨hm z (mem_append_right _ hz), ?_⟩
  rcases mem_cons.mp hz with rfl | hz
  · exact le_rfl
  · exact (rel_of_pairwise_cons hsb hz).le

/-- Two neighbouring leaves are joined. -/
theorem leaf_join {m : K} (hxy : SepChain (Λ.Ordered (h := 0)) I [m] [x, y]) :
    (Λ.leafEntries x ++ Λ.leafEntries y).Pairwise (fun a b => Λ.key a < Λ.key b) ∧
      ∀ e ∈ Λ.leafEntries x ++ Λ.leafEntries y, Λ.key e ∈ I := by
  obtain ⟨-, -, ⟨hsx, hmx⟩, ⟨hsy, hmy⟩⟩ := hxy
  refine ⟨pairwise_append.mpr ⟨hsx, hsy, fun a ha b hb => ?_⟩, fun e he => ?_⟩
  · exact lt_of_lt_of_le (hmx a ha).2 (hmy b hb).2
  · exact (mem_append.mp he).elim (fun he => (hmx e he).1) fun he => (hmy e he).1

/-! ## Following the separators -/

theorem exists_append_of_sorted {seps : List K} (hs : seps.Pairwise (· < ·)) (k : K) :
    ∃ s₁ s₂, seps = s₁ ++ s₂ ∧ (∀ s ∈ s₁, s ≤ k) ∧ ∀ s ∈ s₂, k < s := by
  rcases exists_split_of_sorted (f := id) hs k with ⟨a, x, b, rfl, hx, ha, hb⟩ | ⟨a, b, rfl, ha, hb⟩
  · refine ⟨a ++ [x], b, by simp, fun s hs => ?_, hb⟩
    rcases mem_append.mp hs with hs | hs
    · exact (ha s hs).le
    · exact (mem_singleton.mp hs ▸ hx).le
  · exact ⟨a, b, rfl, fun s hs => (ha s hs).le, hb⟩

/-- The child `c` of `b` to which the separators send `k`, for the part `J` of the
keys, with the separators and children on its two sides. -/
structure Route (Λ : Layout K E P N L) (I : Set K) (b : Tree N L (h + 1)) (k : K)
    (s₁ s₂ : List K) (c₁ : List (Tree N L h)) (c : Tree N L h) (c₂ : List (Tree N L h))
    (J : Set K) : Prop where
  seps : Λ.seps b.node = s₁ ++ s₂
  kids : b.kids = c₁ ++ c :: c₂
  length₁ : c₁.length = s₁.length
  length₂ : c₂.length = s₂.length
  le : ∀ s ∈ s₁, s ≤ k
  lt : ∀ s ∈ s₂, k < s
  mem : k ∈ J
  child : Λ.Ordered J c
  window : Window Λ.Ordered I s₁ s₂ c₁ c₂ J

theorem Ordered.route {b : Tree N L (h + 1)} (hb : Λ.Ordered I b) {k : K} (hk : k ∈ I) :
    ∃ s₁ s₂ c₁ c c₂ J, Route Λ I b k s₁ s₂ c₁ c c₂ J := by
  have hch : SepChain Λ.Ordered I (Λ.seps b.node) b.kids := hb
  obtain ⟨s₁, s₂, es, hle, hlt⟩ := exists_append_of_sorted hch.pairwise_lt k
  have hlen := hch.length_eq
  rw [es, length_append] at hlen
  obtain ⟨c₁, rest, ek, hl1⟩ : ∃ c₁ rest, b.kids = c₁ ++ rest ∧ c₁.length = s₁.length :=
    ⟨b.kids.take s₁.length, b.kids.drop s₁.length, (take_append_drop ..).symm,
      length_take_of_le (by omega)⟩
  rw [ek, length_append] at hlen
  match rest, ek with
  | [], _ => simp at hlen; omega
  | c :: c₂, ek =>
    have hl2 : c₂.length = s₂.length := by simp at hlen; omega
    rw [es, ek, show s₁ ++ s₂ = s₁ ++ [] ++ s₂ by simp,
      show c₁ ++ c :: c₂ = c₁ ++ [c] ++ c₂ by simp] at hch
    obtain ⟨J, hJ, W⟩ := hch.window hl1 hl2
    exact ⟨s₁, s₂, c₁, c, c₂, J, es, ek, hl1, hl2, hle, hlt, W.mem hk hle hlt, hJ, W⟩

namespace Route

variable {b : Tree N L (h + 1)} {k : K} {s₁ s₂ : List K} {c₁ c₂ : List (Tree N L h)}
  {c : Tree N L h}

section

variable (r : Route Λ I b k s₁ s₂ c₁ c c₂ J)
include r

theorem mem_entries {e : E} : e ∈ Λ.entries b ↔
      e ∈ c₁.flatMap Λ.entries ∨ e ∈ Λ.entries c ∨ e ∈ c₂.flatMap Λ.entries := by
  simp only [entries_succ, r.kids, flatMap_append, flatMap_cons, mem_append]

theorem leaves_eq : leaves b = c₁.flatMap leaves ++ leaves c ++ c₂.flatMap leaves := by
  simp [leaves_succ, r.kids]

/-- The children beside `c` hold no key of its part. -/
theorem ne_of_mem_sides {x : K} (hx : x ∈ J) {e : E}
    (he : e ∈ c₁.flatMap Λ.entries ∨ e ∈ c₂.flatMap Λ.entries) : Λ.key e ≠ x := by
  simp only [mem_flatMap] at he
  rcases he with ⟨d, hd, he⟩ | ⟨d, hd, he⟩
  · obtain ⟨J', _, hd, hlt⟩ := r.window.left hd
    exact (hlt _ (hd.key_mem he) x hx).ne
  · obtain ⟨J', _, hd, hlt⟩ := r.window.right hd
    exact (hlt _ (hd.key_mem he) x hx).ne'

/-- The entries of the part are those of `c`. -/
theorem mem_entries_iff {e : E} (he : Λ.key e ∈ J) : e ∈ Λ.entries b ↔ e ∈ Λ.entries c := by
  rw [r.mem_entries]
  refine ⟨fun h => ?_, fun h => .inr (.inl h)⟩
  rcases h with h | h | h
  · exact absurd rfl (r.ne_of_mem_sides he (.inl h))
  · exact h
  · exact absurd rfl (r.ne_of_mem_sides he (.inr h))

end

end Route

/-! ## Valid trees -/

/-- The tree is in the heap, in order, and its pages are distinct. -/
structure Valid (Λ : Layout K E P N L) (H : Heap P) (I : Set K) (t : Tree N L h) : Prop where
  stored : Λ.Stored H t
  ordered : Λ.Ordered I t
  nodup : (Λ.pages t).Nodup

namespace Valid

variable {H H' : Heap P} {b b' : Tree N L (h + 1)} {c : Tree N L h} {c₁ c₂ w w' : List (Tree N L h)}

section

variable (hb : Λ.Valid H I b)
include hb

theorem page : H b.pid = some (Λ.branchPage b.node) := hb.stored.1

theorem children : Λ.children b.node = b.kids.map Λ.rootPid := hb.stored.2.1

theorem kid_stored (hc : c ∈ b.kids) : Λ.Stored H c := hb.stored.2.2 c hc

theorem kids_nodup : (b.kids.flatMap Λ.pages).Nodup :=
  (nodup_cons.mp hb.nodup).2

theorem kid_nodup (hc : c ∈ b.kids) : (Λ.pages c).Nodup :=
  (nodup_flatMap.mp hb.kids_nodup).1 c hc

theorem kid (hc : c ∈ b.kids) (ho : Λ.Ordered J c) : Λ.Valid H J c :=
  ⟨hb.kid_stored hc, ho, hb.kid_nodup hc⟩

end

theorem mono {t : Tree N L h} (ht : Λ.Valid H I t) (hI : I ⊆ J) : Λ.Valid H J t :=
  ⟨ht.stored, ht.ordered.mono hI, ht.nodup⟩

end Valid

/-- The trees `ts` with the separators `ss` between them have taken the place of `t`. -/
structure Replaces (Λ : Layout K E P N L) (H H' : Heap P) (I : Set K) (t : Tree N L h)
    (ss : List K) (ts : List (Tree N L h)) : Prop where
  chain : SepChain Λ.Ordered I ss ts
  stored : ∀ c ∈ ts, Λ.Stored H' c
  nodup : (ts.flatMap Λ.pages).Nodup
  keeps : Keeps H H' (Λ.pages t) (ts.flatMap Λ.pages)

variable {H H' : Heap P} {t t' : Tree N L h}

theorem Valid.replaces (ht : Λ.Valid H' I t')
    (hk : Keeps H H' (Λ.pages t) (Λ.pages t')) : Replaces Λ H H' I t [] [t'] :=
  ⟨ht.ordered, by simpa using ht.stored, by simpa using ht.nodup, by simpa using hk⟩

theorem Replaces.owns {ss : List K} {ts : List (Tree N L h)}
    (r : Replaces Λ H H' I t ss ts) : Owns H H' (Λ.pages t) (ts.flatMap Λ.pages) :=
  ⟨r.keeps, r.nodup, fun p hp => by
    obtain ⟨c, hc, hp⟩ := mem_flatMap.mp hp
    exact (r.stored c hc).live hp⟩

theorem Valid.owns (ht : Λ.Valid H I t) : Owns H H (Λ.pages t) (Λ.pages t) :=
  Owns.refl ht.nodup fun _ hp => ht.stored.live hp

theorem Replaces.valid (r : Replaces Λ H H' I t [] [t']) : Λ.Valid H' I t' :=
  ⟨r.stored t' (mem_singleton_self _), r.chain, by simpa using r.nodup⟩

section Kids

variable {b : Tree N L (h + 1)} {c c' : Tree N L h} {k : K} {s₁ s₂ ss : List K}
  {c₁ c₂ ts : List (Tree N L h)}

/-- A child is replaced: the branch's new children, with its page as it was. -/
theorem Replaces.kids (r : Replaces Λ H H' J c ss ts) (hb : Λ.Valid H I b)
    (rt : Route Λ I b k s₁ s₂ c₁ c c₂ J) :
    Owns H H' (Λ.pages b) (b.pid :: (c₁ ++ ts ++ c₂).flatMap Λ.pages) ∧
      (∀ d ∈ c₁ ++ ts ++ c₂, Λ.Stored H' d) ∧
      SepChain Λ.Ordered I (s₁ ++ ss ++ s₂) (c₁ ++ ts ++ c₂) ∧ H' b.pid = H b.pid := by
  have hside {d : Tree N L h} (hd : d ∈ c₁ ++ c₂) : Λ.Stored H d :=
    hb.kid_stored (by rw [rt.kids]; simp only [mem_append, mem_cons] at hd ⊢; tauto)
  obtain ⟨o, hsame⟩ := hb.owns.call (Q := b.pid :: (c₁ ++ c₂).flatMap Λ.pages)
    (perm_iff_count.mpr fun p => by
      simp only [pages_succ, rt.kids, flatMap_append, flatMap_cons, count_append, count_cons]
      omega) r.owns
  refine ⟨o.perm (perm_iff_count.mpr fun p => ?_), fun d hd => ?_, rt.window.fill r.chain,
    hsame _ mem_cons_self⟩
  · simp only [flatMap_append, count_append, count_cons]
    omega
  by_cases hts : d ∈ ts
  · exact r.stored d hts
  · have hd' : d ∈ c₁ ++ c₂ := by simp only [mem_append] at hd ⊢; tauto
    exact (hside hd').congr fun p hp =>
      hsame p (mem_cons_of_mem _ (mem_flatMap.mpr ⟨d, hd', hp⟩))

/-- A child is replaced by one on the same page, and the branch's page stays. -/
theorem Replaces.branch (r : Replaces Λ H H' J c [] [c']) (hb : Λ.Valid H I b)
    (rt : Route Λ I b k s₁ s₂ c₁ c c₂ J) (hp : Λ.rootPid c' = Λ.rootPid c) :
    Replaces Λ H H' I b [] [(⟨b.pid, b.node, c₁ ++ [c'] ++ c₂⟩ : Branch N (Tree N L h))] := by
  obtain ⟨o, hs, hch, hpage⟩ := r.kids hb rt
  refine Valid.replaces ⟨⟨hpage.trans hb.page, ?_, hs⟩, ?_, o.nodup⟩ o.keeps
  · rw [hb.children, rt.kids]; simp [hp]
  · rw [append_nil, ← rt.seps] at hch
    exact hch

end Kids

/-! ## The leaf for a key -/

/-- `l` is the leaf to which the separators send `k`; it answers for `J`, and `A` and
`B` are the leaves on its two sides. -/
def Focus (Λ : Layout K E P N L) (k : K) :
    {h : Nat} → Set K → Tree N L h → List L → L → List L → Set K → Prop
  | 0, I, t, A, l, B, J => A = [] ∧ B = [] ∧ l = t ∧ J = I
  | _ + 1, I, b, A, l, B, J => ∃ s₁ s₂ c₁ c c₂ I' A' B', Route Λ I b k s₁ s₂ c₁ c c₂ I' ∧
    Focus Λ k I' c A' l B' J ∧ A = c₁.flatMap leaves ++ A' ∧ B = B' ++ c₂.flatMap leaves

theorem Ordered.focus (ht : Λ.Ordered I t) {k : K} (hk : k ∈ I) :
    ∃ A l B J, Focus Λ k I t A l B J := by
  induction h generalizing I with
  | zero => exact ⟨[], t, [], I, rfl, rfl, rfl, rfl⟩
  | succ h ih =>
    obtain ⟨s₁, s₂, c₁, c, c₂, I', rt⟩ := ht.route hk
    obtain ⟨A', l, B', J, f⟩ := ih rt.child rt.mem
    exact ⟨_, l, _, J, s₁, s₂, c₁, c, c₂, I', A', B', rt, f, rfl, rfl⟩

namespace Focus

variable {k : K} {A B : List L} {l : L}

section

variable (f : Focus Λ k I t A l B J)
include f

/-- From the leaf up, one child of a branch after the other. -/
@[elab_as_elim]
theorem climb {motive : ∀ {h : Nat} {I : Set K} {t : Tree N L h} {A B : List L},
      Focus Λ k I t A l B J → Prop}
    (leaf : motive (h := 0) (I := J) (t := l) ⟨rfl, rfl, rfl, rfl⟩)
    (route : ∀ {h : Nat} {I I' : Set K} {b : Tree N L (h + 1)} {s₁ s₂ c₁ c c₂} {A B : List L}
      (rt : Route Λ I b k s₁ s₂ c₁ c c₂ I') (f : Focus Λ k I' c A l B J), motive f →
        motive (t := b) ⟨s₁, s₂, c₁, c, c₂, I', A, B, rt, f, rfl, rfl⟩) : motive f := by
  induction h generalizing I A B with
  | zero =>
    obtain ⟨rfl, rfl, rfl, rfl⟩ := f
    exact leaf
  | succ h ih =>
    obtain ⟨s₁, s₂, c₁, c, c₂, I', A', B', rt, f, rfl, rfl⟩ := f
    exact route rt f (ih f)

theorem leaves_eq : leaves t = A ++ l :: B := by
  induction f using climb with
  | leaf => rfl
  | route rt _ ih => simp [leaves_succ, rt.kids, ih]

theorem mem (hk : k ∈ I) : k ∈ J := by
  induction f using climb with
  | leaf => exact hk
  | route rt _ ih => exact ih rt.mem

theorem subset : J ⊆ I := by
  induction f using climb with
  | leaf => exact Subset.rfl
  | route rt _ ih => exact ih.trans rt.window.subset

theorem leaf_ordered (ht : Λ.Ordered I t) : Λ.Ordered (h := 0) J l := by
  induction f using climb with
  | leaf => exact ht
  | route rt _ ih => exact ih rt.child

theorem leaf_stored (ht : Λ.Stored H t) : Λ.leafStored H l := by
  induction f using climb with
  | leaf => exact ht
  | @route _ _ _ _ _ _ _ c _ _ _ rt _ ih => exact ih (ht.2.2 c (by simp [rt.kids]))

/-- The tree's entries with a key in `J` are the leaf's. -/
theorem mem_entries_iff {e : E} (he : Λ.key e ∈ J) : e ∈ Λ.entries t ↔ e ∈ Λ.leafEntries l := by
  induction f using climb with
  | leaf => rw [entries_zero]
  | route rt f ih => rw [rt.mem_entries_iff (f.subset he), ih]

/-- The leaves before it hold smaller keys. -/
theorem key_lt {e : E} (he : e ∈ A.flatMap Λ.leafEntries) : Λ.key e < k := by
  induction f using climb with
  | leaf => simp at he
  | route rt _ ih =>
    simp only [flatMap_append, mem_append, flatMap_assoc] at he
    rcases he with he | he
    · obtain ⟨d, hd, he⟩ := mem_flatMap.mp he
      obtain ⟨J', _, hd, hlt⟩ := rt.window.left hd
      exact hlt _ (hd.key_mem he) k rt.mem
    · exact ih he

/-- The entries of the other leaves have keys outside of `J`. -/
theorem key_not_mem {e : E} (he : e ∈ (A ++ B).flatMap Λ.leafEntries) : Λ.key e ∉ J := by
  induction f using climb with
  | leaf => simp at he
  | route rt f ih =>
    simp only [flatMap_append, mem_append, flatMap_assoc] at he
    rcases he with (he | he) | he | he
    · exact fun hJ => rt.ne_of_mem_sides (f.subset hJ) (.inl he) rfl
    · exact ih (by simp [he])
    · exact ih (by simp [he])
    · exact fun hJ => rt.ne_of_mem_sides (f.subset hJ) (.inr he) rfl

/-- The leaf is replaced by one on the same page that answers for the same keys. -/
theorem replace (ht : Λ.Valid H I t) {l' : L}
    (hpid : Λ.leafPid l' = Λ.leafPid l) (r : Replaces Λ (h := 0) H H' J l [] [l']) :
    ∃ t' : Tree N L h, Λ.rootPid t' = Λ.rootPid t ∧ Replaces Λ H H' I t [] [t'] ∧
      Focus Λ k I t' A l' B J ∧ ∀ ok, Branches ok t → Branches ok t' := by
  induction h generalizing I A B with
  | zero =>
    obtain ⟨rfl, rfl, rfl, rfl⟩ := f
    exact ⟨l', hpid, r, ⟨rfl, rfl, rfl, rfl⟩, fun _ h => h⟩
  | succ h ih =>
    obtain ⟨s₁, s₂, c₁, c, c₂, I', A', B', rt, f, rfl, rfl⟩ := f
    obtain ⟨c', hp, r', f', hok⟩ := ih f (ht.kid (by simp [rt.kids]) rt.child)
    refine ⟨⟨t.pid, t.node, c₁ ++ [c'] ++ c₂⟩, rfl, r'.branch ht rt hp,
      ⟨s₁, s₂, c₁, c', c₂, I', A', B', { rt with kids := by simp, child := r'.chain }, f', rfl, rfl⟩,
      fun ok h => ⟨h.1, fun d hd => ?_⟩⟩
    simp only [mem_append, List.mem_singleton] at hd
    rcases hd with (hd | rfl) | hd
    · exact h.2 d (by simp [rt.kids, hd])
    · exact hok ok (h.2 c (by simp [rt.kids]))
    · exact h.2 d (by simp [rt.kids, hd])

end

end Focus

end Order

end Layout

end AxiomDb.Lib
