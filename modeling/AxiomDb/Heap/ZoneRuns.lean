import AxiomDb.Heap.FilteredScan
import AxiomDb.Lib.MemoryStore

/-!
# Zone maps along a run

The writes of a table's chain, one after the other, and what becomes of the zone
maps. Only the batch insert widens them: a row that one of the other writes puts
on a page with a zone map must have a value within its bounds, or NULL
(`zoneSafe`). In a run that keeps to that, every zone map on the chain holds the
rows of its page, and a filtered scan returns the same rows with the zone map
predicate as without. A single insert after a batch is enough to break it.
-/

namespace AxiomDb.Heap

open Lib List Option HeapPage HeapChain Function

/-! ## Chains whose zone maps are sound -/

/-- The chain at `root` has the pages `ps`, and their zone maps are sound. -/
structure SoundChain (value : Bytes → Option I64) (col : Fin 256) (H : Heap HeapPage)
    (root : PageId) (ps : List PageId) : Prop where
  chain : IsChain chainNextPage 0 H root ps
  sound : ∀ p ∈ ps, ∀ page, H p = some page → ZoneSound value col page

namespace SoundChain

variable {value : Bytes → Option I64} {col : Fin 256} {H H' : Heap HeapPage} {root p : PageId}
  {ps : List PageId} {page page' : HeapPage}

section

variable (h : SoundChain value col H root ps)
include h

/-- A page is written whose link stays. -/
theorem write (hp : H p = some page) (hn : page'.nextPage = page.nextPage)
    (hz : ZoneSound value col page → ZoneSound value col page') :
    SoundChain value col (update H p (some page')) root ps := by
  refine ⟨h.chain.congr fun q _ v hv => ?_, fun q hq v hv => ?_⟩
  · by_cases hqp : q = p
    · subst hqp
      obtain rfl := some.inj (hp.symm.trans hv)
      exact ⟨page', Heap.update_self .., hn⟩
    · exact ⟨v, by rw [Heap.update_ne hqp, hv], rfl⟩
  by_cases hqp : q = p
  · subst hqp
    rw [Heap.update_self] at hv
    exact some.inj hv ▸ hz (h.sound q hq page hp)
  · rw [Heap.update_ne hqp] at hv
    exact h.sound q hq v hv

theorem frame (hp : p ∉ ps) (v : Option HeapPage) :
    SoundChain value col (update H p v) root ps := by
  have hH (q : PageId) (hq : q ∈ ps) : update H p v q = H q :=
    Heap.update_ne (fun e : q = p => hp (e ▸ hq)) ..
  exact ⟨h.chain.congr fun q hq w hw => ⟨w, by rw [hH q hq, hw], rfl⟩,
    fun q hq w hw => h.sound q hq w (hH q hq ▸ hw)⟩

theorem not_mem (hp : H p = none) : p ∉ ps := by
  intro hmem
  obtain ⟨-, v, hv⟩ := h.chain.get hmem
  simp [hp] at hv

/-- A page outside of the chain is linked to a last page. -/
theorem link {last new : PageId} {prev w : HeapPage}
    (hlast : H last = some prev) (hprev : prev.nextPage = 0) (hnew : H new = some w)
    (hw : w.nextPage = 0) (hz : ZoneSound value col w) (h0 : new ≠ 0) (hps : new ∉ ps)
    (hne : new ≠ last) :
    ∃ ps', SoundChain value col (update H last (some (prev.chainSetNextPage new))) root ps' := by
  by_cases hmem : last ∈ ps
  · obtain ⟨qs, q, rfl⟩ : ∃ qs q, ps = qs ++ [q] := by
      rcases eq_nil_or_concat' ps with rfl | ⟨qs, q, rfl⟩
      · simp at hmem
      · exact ⟨qs, q, rfl⟩
    obtain rfl : last = q := h.chain.eq_last hmem hlast hprev
    have hlq : last ∉ qs := fun hq => (nodup_append.mp h.chain.nodup).2.2 last hq last (by simp) rfl
    have hother {a : PageId} (ha : a ≠ last) {v : HeapPage} :
        update H last (some (prev.chainSetNextPage new)) a = some v ↔ H a = some v := by
      rw [Heap.update_ne ha]
    refine ⟨qs ++ [last, new], h.chain.link h0 (Heap.update_self ..) rfl ((hother hne).mpr hnew) hw
      fun a ha v hv => ⟨v, (hother fun e => hlq (e ▸ ha)).mpr hv, rfl⟩, fun a ha v hv => ?_⟩
    by_cases hal : a = last
    · subst hal
      rw [Heap.update_self] at hv
      exact some.inj hv ▸ (h.sound a hmem prev hlast).congr rfl rfl
    rw [hother hal] at hv
    by_cases han : a = new
    · obtain rfl := some.inj (hnew.symm.trans (han ▸ hv))
      exact hz
    · exact h.sound a (by simpa [hal, han] using ha) v hv
  · exact ⟨ps, h.frame hmem _⟩

end

end SoundChain

/-! ## What the operations keep -/

/-- The zone maps on the chain at `root` are sound. -/
def ZonesSound (value : Bytes → Option I64) (col : Fin 256) (root : PageId) (H : Heap HeapPage) :
    Prop :=
  ∃ ps, SoundChain value col H root ps

namespace HeapChain

variable {σ α : Type} {E : StorageEngine Stop σ HeapPage} {view : σ → Heap HeapPage} {s : σ}
  {value : Bytes → Option I64} {col : Fin 256} {root p : PageId} {page : HeapPage} {data : Bytes}
  {txnId : TxnId} {fuel : Nat} {ps : List PageId}

/-- The walk ends at the last page, or is out of fuel before. -/
theorem lastPageId_eq (hE : E.Lawful 0 view)
    (hc : IsChain chainNextPage 0 (view s) p (ps ++ [root])) : lastPageId E fuel p s =
      if ps.length < fuel then .ok root s else .error .outOfFuel s := by
  induction ps generalizing p fuel with
  | nil =>
    obtain ⟨rfl, -, page, hp, hn⟩ := hc
    cases fuel with
    | zero => rfl
    | succ fuel =>
      rw [lastPageId, if_pos (by simp)]
      refine (bind_ok (hE.read hp)).trans ?_
      simp only [if_pos (show page.chainNextPage = 0 from hn)]
      rfl
  | cons q ps ih =>
    obtain ⟨rfl, hne, page, hp, hc⟩ := hc
    have hn : page.chainNextPage ≠ 0 := by
      cases ps with
      | nil => exact hc.1 ▸ hc.2.1
      | cons a ps => exact hc.1 ▸ hc.2.1
    cases fuel with
    | zero => rfl
    | succ fuel =>
      rw [lastPageId]
      refine (bind_ok (hE.read hp)).trans ?_
      simp only [if_neg hn, ih hc, length_cons, Nat.add_lt_add_iff_right]

/-- The tail that an insert works on. -/
theorem lastPageId_cases (fuel : Nat) (hE : E.Lawful 0 view) (h : ZonesSound value col root (view s))
    (hroot : root ≠ 0) :
    (∃ last page, lastPageId E fuel root s = .ok last s ∧ view s last = some page ∧
      page.nextPage = 0 ∧ ZoneSound value col page) ∨
      lastPageId E fuel root s = .error .outOfFuel s := by
  obtain ⟨ps, h⟩ := h
  obtain ⟨qs, q, rfl⟩ := h.chain.exists_last hroot
  obtain ⟨page, hp, hn⟩ := h.chain.last_next
  rw [lastPageId_eq hE h.chain]
  split
  · exact .inl ⟨q, page, rfl, hp, hn, h.sound q (by simp) page hp⟩
  · exact .inr rfl

theorem ofExcept_cases (x : Except DbError α) :
    (∃ a, x = .ok a ∧ ∀ s : σ, (ofExcept x : EStateM Stop σ α) s = .ok a s) ∨
      ∃ e, x = .error e ∧ ∀ s : σ, (ofExcept x : EStateM Stop σ α) s = .error (.err e) s := by
  cases x with
  | ok a => exact .inl ⟨a, rfl, fun _ => rfl⟩
  | error e => exact .inr ⟨e, rfl, fun _ => rfl⟩

theorem growChain_sound (hE : E.Lawful 0 view) (h : ZonesSound value col root (view s))
    (hp : view s p = some page) (hn : page.nextPage = 0) :
    Always (growChain E p data txnId) s fun s' => ZonesSound value col root (view s') := by
  obtain ⟨ps, h⟩ := h
  rw [growChain]
  refine hE.always_alloc fun new v s1 _ hfree h0 hv1 => ?_
  have hnew : new ∉ ps := h.not_mem hfree
  have hne : p ≠ new := fun e => by simp [← e, hp] at hfree
  have h1 : SoundChain value col (view s1) root ps := hv1 ▸ h.frame hnew _
  rcases ofExcept_cases ((HeapPage.new new).insertTuple data txnId) with ⟨⟨i, w⟩, hw, e⟩ | ⟨err, -, e⟩
  · have hins := insertTuple_ok hw
    refine Always.bind_ok (e s1) ?_
    refine hE.always_write (by simp [hv1]) fun s2 hv2 => ?_
    have hp2 : view s2 p = some page := by rw [hv2, Heap.update_ne hne, hv1, Heap.update_ne hne, hp]
    refine hE.always_read hp2 ?_
    refine hE.always_write (by simp [hp2]) fun s3 hv3 => Always.pure ?_
    rw [hv3]
    exact SoundChain.link (hv2 ▸ h1.frame hnew _) hp2 hn (by rw [hv2, Heap.update_self])
      (hins.nextPage.trans rfl) ((zoneSound_new new).insert hins (by simp [Covers, HeapPage.new]))
      h0 hnew hne.symm
  · exact Always.bind_error (e s1) ⟨ps, h1⟩

/-- The row is added to a last page: it must lie within the page's bounds if it
fits there. -/
theorem insertAt_sound (hE : E.Lawful 0 view) (h : ZonesSound value col root (view s))
    (hp : view s p = some page) (hn : page.nextPage = 0)
    (hc : (page.insertTuple data txnId).isOk → Covers col page (value data)) :
    Always (insertAt E p data txnId) s fun s' => ZonesSound value col root (view s') := by
  rw [insertAt]
  refine hE.always_read hp ?_
  cases hi : page.insertTuple data txnId with
  | ok r =>
    obtain ⟨i, page'⟩ := r
    have hins := insertTuple_ok hi
    obtain ⟨ps, h⟩ := h
    refine hE.always_write (by simp [hp]) fun s' hv => Always.pure ⟨ps, ?_⟩
    rw [hv]
    exact h.write hp hins.nextPage fun hz => hz.insert hins (hc (by rw [hi]; rfl))
  | error e =>
    obtain rfl := insertTuple_error hi
    exact growChain_sound hE h hp hn

/-- The value a batch insert is given for a row: that of the tracked column. -/
def zmValue (value : Bytes → Option I64) (col : Fin 256) (data : Bytes) : Option (Fin 256 × I64) :=
  (value data).map fun x => (col, x)

variable {dirty : Bool} {page' : HeapPage} {rids : List RecordId} {us : List Rewrite} {i : Nat}
  {H H' : Heap HeapPage}

theorem trackValue_sound (h : ZoneSound value col page) (hi : Inserted page data txnId i page') :
    ZoneSound value col (trackValue page' (zmValue value col data)) := by
  cases hv : value data with
  | none =>
    simp only [zmValue, hv, map_none, trackValue]
    exact h.insert hi fun _ _ _ x hx => by simp [hv] at hx
  | some x =>
    simp only [zmValue, hv, map_some, trackValue]
    exact h.insert_update hi hv

theorem nextPage_trackValue (page : HeapPage) (zm : Option (Fin 256 × I64)) :
    (trackValue page zm).nextPage = page.nextPage := by
  cases zm <;> rfl

/-- The loop of a batch insert, by induction on the rows: the stored last page
and the local copy of it both end the chain, and the copy is sound. -/
theorem insertRows_sound (hE : E.Lawful 0 view) (hB : E.AllocsBlank view new)
    {stored : HeapPage} (rows : List Bytes) (h : ZonesSound value col root (view s))
    (hp : view s p = some stored) (hs : stored.nextPage = 0) (hn : page.nextPage = 0)
    (hz : ZoneSound value col page) :
    Always (insertRows E txnId (rows.map fun data => (data, zmValue value col data)) p page dirty) s
      fun s' => ZonesSound value col root (view s') := by
  induction rows generalizing s p page stored dirty with
  | nil =>
    simp only [map_nil, insertRows]
    cases dirty with
    | false => exact h
    | true =>
      obtain ⟨ps, h⟩ := h
      refine hE.always_write (by simp [hp]) fun s' hv => Always.pure ⟨ps, ?_⟩
      rw [hv]
      exact h.write hp (hn.trans hs.symm) fun _ => hz
  | cons data rows ih =>
    simp only [map_cons, insertRows]
    cases hi : page.insertTuple data txnId with
    | ok r =>
      obtain ⟨i, page'⟩ := r
      have hins := insertTuple_ok hi
      refine Always.bind (ih h hp hs ?_ (trackValue_sound hz hins)) fun _ _ h => Always.pure h
      rw [nextPage_trackValue, hins.nextPage, hn]
    | error e =>
      obtain rfl := insertTuple_error hi
      obtain ⟨ps, h⟩ := h
      -- the copy is flushed, and a blank page linked to it before it has a row
      refine hE.always_write (by simp [hp]) fun s1 hv1 => ?_
      have h1 : SoundChain value col (view s1) root ps :=
        hv1 ▸ h.write hp (hn.trans hs.symm) fun _ => hz
      have hp1 : view s1 p = some page := by rw [hv1, Heap.update_self]
      refine hE.always_alloc fun new v s2 ha hfree h0 hv2 => ?_
      have hnew : new ∉ ps := h1.not_mem hfree
      have hne : p ≠ new := fun e => by simp [← e, hp1] at hfree
      have hblank : view s2 new = some (.new new) := hB _ _ _ ha
      have hp2 : view s2 p = some page := by rw [hv2, Heap.update_ne hne, hp1]
      refine hE.always_read hp2 ?_
      refine hE.always_write (by simp [hp2]) fun s3 hv3 => ?_
      have h3 : ZonesSound value col root (view s3) := hv3 ▸ SoundChain.link (hv2 ▸ h1.frame hnew _)
        hp2 hn hblank rfl (zoneSound_new new) h0 hnew hne.symm
      have hnew3 : view s3 new = some (.new new) := by rw [hv3, Heap.update_ne hne.symm, hblank]
      rcases ofExcept_cases ((HeapPage.new new).insertTuple data txnId) with
        ⟨⟨i, w⟩, hw, e⟩ | ⟨err, -, e⟩
      · have hins := insertTuple_ok hw
        refine Always.bind_ok (e s3) ?_
        refine Always.bind (ih h3 hnew3 rfl ?_ (trackValue_sound (zoneSound_new new) hins))
          fun _ _ h => Always.pure h
        rw [nextPage_trackValue, hins.nextPage]
        rfl
      · exact Always.bind_error (e s3) h3

theorem zipIdx_zmValues (rows : List Bytes) :
    (rows.zipIdx.map fun (data, i) => (data, (rows.map (zmValue value col))[i]?.join)) =
      rows.map fun data => (data, zmValue value col data) := by
  refine ext_getElem (by simp) fun i h1 h2 => ?_
  rw [length_map] at h2
  simp [h2]

theorem insertBatchWithZm_sound (hE : E.Lawful 0 view) (hB : E.AllocsBlank view new)
    (h : ZonesSound value col root (view s)) (hroot : root ≠ 0) (rows : List Bytes) :
    Always (insertBatchWithZm E fuel root rows txnId (rows.map (zmValue value col))) s
      fun s' => ZonesSound value col root (view s') := by
  rw [insertBatchWithZm]
  split
  · exact Always.pure h
  rcases lastPageId_cases fuel hE h hroot with ⟨last, page, e, hp, hn, hz⟩ | e
  · refine Always.bind_ok e (hE.always_read hp ?_)
    rw [zipIdx_zmValues]
    exact insertRows_sound hE hB rows h hp hn hn hz
  · exact Always.bind_error e h

/-- The lists of `byPage` are not empty, and each is about one page. -/
theorem mem_byPage {rid : α → RecordId} {xs g : List α} (hg : g ∈ byPage rid xs) :
    ∃ a as, g = a :: as ∧ ∀ b ∈ g, b ∈ xs ∧ (rid b).pageId = (rid a).pageId := by
  obtain ⟨a, as, rfl⟩ := exists_cons_of_ne_nil (ne_nil_of_mem_splitBy hg)
  have hsame : ∀ b ∈ as, (rid b).pageId = (rid a).pageId := by
    have hchain := isChain_of_mem_splitBy hg
    clear hg
    induction as generalizing a with
    | nil => simp
    | cons c as ih =>
      obtain ⟨hac, hchain⟩ := isChain_cons_cons.mp hchain
      rw [beq_iff_eq] at hac
      exact forall_mem_cons.mpr ⟨hac.symm, fun b hb => (ih c hchain b hb).trans hac.symm⟩
  refine ⟨a, as, rfl, fun b hb => ⟨?_, ?_⟩⟩
  · have : b ∈ (byPage rid xs).flatten := mem_flatten.mpr ⟨_, hg, hb⟩
    rw [byPage, flatten_splitBy] at this
    exact mem_mergeSort.mp this
  · rcases mem_cons.mp hb with rfl | hb
    · rfl
    · exact hsame b hb

/-- Rows of a page are changed in place: it keeps its link and its zone map, and
that stays sound. -/
structure KeepsZone (value : Bytes → Option I64) (col : Fin 256) (page page' : HeapPage) : Prop where
  nextPage : page'.nextPage = page.nextPage
  zoneMap : page'.zoneMap = page.zoneMap
  sound : ZoneSound value col page → ZoneSound value col page'

theorem KeepsZone.refl (page : HeapPage) : KeepsZone value col page page := ⟨rfl, rfl, id⟩

theorem KeepsZone.trans {page1 page2 page3 : HeapPage} (h1 : KeepsZone value col page1 page2)
    (h2 : KeepsZone value col page2 page3) : KeepsZone value col page1 page3 :=
  ⟨h2.nextPage.trans h1.nextPage, h2.zoneMap.trans h1.zoneMap, h2.sound ∘ h1.sound⟩

theorem markDeleted_keepsZone (h : page.markDeleted i txnId = .ok page') :
    KeepsZone value col page page' := by
  obtain ⟨-, rfl⟩ := markDeleted_ok h
  refine ⟨rfl, rfl, fun hz t ht => ?_⟩
  obtain ⟨u, hu, hd⟩ := mem_setHeader ht
  exact hd ▸ hz u hu

theorem markAllDeleted_keepsZone {rows : List (RecordId × Bytes)}
    (h : markAllDeleted txnId page rids = .ok (rows, page')) : KeepsZone value col page page' := by
  induction rids generalizing page rows with
  | nil =>
    obtain ⟨-, rfl⟩ := by simpa [markAllDeleted, pure, Except.pure] using h
    exact .refl page
  | cons rid rids ih =>
    simp only [markAllDeleted, bind, Except.bind] at h
    split at h
    · cases h
    split at h
    · cases h
    split at h
    · cases h
    next page1 h1 =>
      split at h
      · cases h
      next r hr =>
        obtain ⟨rest, page2⟩ := r
        obtain ⟨-, rfl⟩ := by simpa [pure, Except.pure] using h
        exact (markDeleted_keepsZone h1).trans (ih hr)

theorem rewriteAll_keepsZone {olds : List (Nat × Option TupleImage)}
    (h : rewriteAll txnId page us = .ok (olds, dirty, page'))
    (hc : ∀ u ∈ us, Covers col page (value u.newRow)) : KeepsZone value col page page' := by
  induction us generalizing page olds dirty with
  | nil =>
    obtain ⟨-, -, rfl⟩ := by simpa [rewriteAll, pure, Except.pure] using h
    exact .refl page
  | cons u us ih =>
    simp only [rewriteAll, bind, Except.bind] at h
    split at h
    · cases h
    next r hr =>
      obtain ⟨old, page1⟩ := r
      have h1 : KeepsZone value col page page1 := by
        cases old with
        | none => exact tryRewrite_none hr ▸ ⟨rfl, rfl, fun hz => hz.congr rfl rfl⟩
        | some old =>
          obtain ⟨t, -, hw⟩ := tryRewrite_some hr
          exact ⟨hw.nextPage, hw.zoneMap, fun hz => hz.rewrite hw (hc u mem_cons_self)⟩
      split at h
      · cases h
      next r' hr' =>
        obtain ⟨rest, dirty', page2⟩ := r'
        obtain ⟨-, -, rfl⟩ := by simpa [pure, Except.pure] using h
        refine h1.trans (ih hr' fun v hv => ?_)
        have := hc v (mem_cons_of_mem _ hv)
        rwa [Covers, h1.zoneMap]

/-- The zone maps are sound, and every page has the one it has in `H`. -/
def SameZones (value : Bytes → Option I64) (col : Fin 256) (root : PageId) (H H' : Heap HeapPage) :
    Prop :=
  ZonesSound value col root H' ∧ ∀ p, (H' p).map zoneMap = (H p).map zoneMap

theorem SameZones.write (h : SameZones value col root H H')
    (hp : H' p = some page) (hk : KeepsZone value col page page') :
    SameZones value col root H (update H' p (some page')) := by
  obtain ⟨⟨ps, hs⟩, hz⟩ := h
  refine ⟨⟨ps, hs.write hp hk.nextPage hk.sound⟩, fun q => ?_⟩
  rw [← hz q]
  by_cases hqp : q = p
  · simp [hqp, hp, hk.zoneMap]
  · rw [Heap.update_ne hqp]

/-- A page that `H` has is there, with the same zone map. -/
theorem SameZones.get (h : SameZones value col root H H') (hp : H p ≠ none) :
    ∃ page, H' p = some page ∧ ∀ v, (∀ page, H p = some page → Covers col page v) →
      Covers col page v := by
  obtain ⟨page0, hp0⟩ := ne_none_iff_exists'.mp hp
  have hz := h.2 p
  rw [hp0, map_some, map_eq_some_iff] at hz
  obtain ⟨page, hp', hz⟩ := hz
  refine ⟨page, hp', fun v hv => ?_⟩
  rw [Covers, hz]
  exact hv page0 hp0

section

variable (hE : E.Lawful 0 view)
include hE

theorem delete_sound (h : ZonesSound value col root (view s)) (hp : view s p ≠ none) (i : Nat) :
    Always (delete E p i txnId) s fun s' => ZonesSound value col root (view s') := by
  obtain ⟨page, hp⟩ := ne_none_iff_exists'.mp hp
  rw [delete]
  refine hE.always_read hp ?_
  rcases ofExcept_cases (page.deleteTuple i txnId) with ⟨page', hd, e⟩ | ⟨err, -, e⟩
  · refine Always.bind_ok (e s) ?_
    obtain ⟨s', ew, hv⟩ := hE.write page' (show view s p ≠ none by simp [hp])
    obtain ⟨ps, h⟩ := h
    have hk : KeepsZone value col page page' := markDeleted_keepsZone hd
    rw [Always, ew]
    exact ⟨ps, show SoundChain value col (view s') root ps from hv ▸ h.write hp hk.nextPage hk.sound⟩
  · exact Always.bind_error (e s) h

theorem deletePage_sameZones
    (h : SameZones value col root H (view s)) (hp : ∀ r ∈ rids, H r.pageId ≠ none) :
    Always (deletePage E txnId rids) s fun s' => SameZones value col root H (view s') := by
  obtain _ | ⟨r, rids⟩ := rids
  · exact Always.pure h
  obtain ⟨page, hp, -⟩ := h.get (hp r mem_cons_self)
  rw [deletePage]
  refine hE.always_read hp ?_
  rcases ofExcept_cases (markAllDeleted txnId page (r :: rids)) with ⟨⟨rows, page'⟩, hd, e⟩ | ⟨err, -, e⟩
  · refine Always.bind_ok (e s) (hE.always_write (by simp [hp]) fun s' hv => Always.pure ?_)
    rw [hv]
    exact h.write hp (markAllDeleted_keepsZone hd)
  · exact Always.bind_error (e s) h

theorem deleteBatch_sound (h : ZonesSound value col root (view s))
    (hp : ∀ r ∈ rids, view s r.pageId ≠ none) :
    Always (deleteBatch E rids txnId) s fun s' => ZonesSound value col root (view s') := by
  rw [deleteBatch]
  have hmap : Always ((byPage id rids).mapM (deletePage E txnId)) s
      fun s' => SameZones value col root (view s) (view s') :=
    Always.mapM ⟨h, fun _ => rfl⟩ fun g hg s' h' => deletePage_sameZones hE h' fun r hr => by
      obtain ⟨a, as, -, hb⟩ := mem_byPage hg
      exact hp r (hb r hr).1
  exact (Always.bind hmap fun _ _ h => Always.pure h).1

theorem rewritePage_sameZones
    (h : SameZones value col root H (view s)) {u : Rewrite} (hp : H u.rid.pageId ≠ none)
    (hc : ∀ v ∈ u :: us, ∀ page, H u.rid.pageId = some page → Covers col page (value v.newRow)) :
    Always (rewritePage E txnId (u :: us)) s fun s' => SameZones value col root H (view s') := by
  obtain ⟨page, hp, hcov⟩ := h.get hp
  rw [rewritePage]
  refine hE.always_read hp ?_
  rcases ofExcept_cases (rewriteAll txnId page (u :: us)) with ⟨⟨olds, dirty, page'⟩, hd, e⟩ | ⟨err, -, e⟩
  · refine Always.bind_ok (e s) ?_
    cases dirty with
    | false => exact h
    | true =>
      refine hE.always_write (by simp [hp]) fun s' hv => Always.pure ?_
      rw [hv]
      exact h.write hp (rewriteAll_keepsZone hd fun v hv => hcov _ (hc v hv))
  · exact Always.bind_error (e s) h

theorem rewriteBatchSameSlot_sound (h : ZonesSound value col root (view s))
    {updates : List (RecordId × Bytes)} (hp : ∀ u ∈ updates, view s u.1.pageId ≠ none)
    (hc : ∀ u ∈ updates, ∀ page, view s u.1.pageId = some page → Covers col page (value u.2)) :
    Always (rewriteBatchSameSlot E updates txnId) s
      fun s' => ZonesSound value col root (view s') := by
  rw [rewriteBatchSameSlot]
  have hmem {v : Rewrite} (hv : v ∈ updates.zipIdx.map fun p => ⟨p.2, p.1.1, p.1.2⟩) :
      (v.rid, v.newRow) ∈ updates := by
    obtain ⟨p, hu, rfl⟩ := mem_map.mp hv
    exact fst_mem_of_mem_zipIdx hu
  refine (Always.bind (Always.mapM (P := fun s' => SameZones value col root (view s) (view s'))
    ⟨h, fun _ => rfl⟩ fun g hg s' h' => ?_) fun _ _ h => Always.pure h).1
  obtain ⟨a, as, rfl, hb⟩ := mem_byPage hg
  refine rewritePage_sameZones hE h' (hp _ (hmem (hb a mem_cons_self).1)) fun v hv page hpage => ?_
  exact hc _ (hmem (hb v hv).1) page ((hb v hv).2 ▸ hpage)

end

end HeapChain

/-! ## Runs -/

/-- The writes of a table's rows. -/
inductive ChainCmd where
  | insert (data : Bytes) (txnId : TxnId)
  | insertWithHint (data : Bytes) (txnId : TxnId) (hint : Option HeapAppendHint)
  | insertBatchWithZm (rows : List Bytes) (txnId : TxnId)
  | rewriteBatchSameSlot (updates : List (RecordId × Bytes)) (txnId : TxnId)
  | delete (pageId : PageId) (slotId : Nat) (txnId : TxnId)
  | deleteBatch (rids : List RecordId) (txnId : TxnId)

namespace ChainCmd

variable {σ : Type} (E : StorageEngine Stop σ HeapPage) (view : σ → Heap HeapPage)
  (value : Bytes → Option I64) (col : Fin 256) (fuel : Nat) (root : PageId)

/-- A batch insert is given the value of the tracked column of each row. -/
def exec : ChainCmd → EStateM Stop σ Unit
  | insert data txnId => do let _ ← HeapChain.insert E fuel root data txnId
  | insertWithHint data txnId hint => do
    let _ ← HeapChain.insertWithHint E fuel root data txnId hint
  | insertBatchWithZm rows txnId => do
    let _ ← HeapChain.insertBatchWithZm E fuel root rows txnId
      (rows.map (HeapChain.zmValue value col))
  | rewriteBatchSameSlot updates txnId => do
    let _ ← HeapChain.rewriteBatchSameSlot E updates txnId
  | delete pageId slotId txnId => HeapChain.delete E pageId slotId txnId
  | deleteBatch rids txnId => do let _ ← HeapChain.deleteBatch E rids txnId

/-- The state after the commands; one that fails leaves what it did. -/
def run (cmds : List ChainCmd) (s : σ) : σ :=
  cmds.foldl (fun s c => endState (c.exec E value col fuel root s)) s

/-- What a read-only call answers, if it does. -/
def answer (x : EStateM Stop σ Bool) (s : σ) : Bool :=
  match x s with
  | .ok b _ => b
  | .error .. => true

/-- A row of a single insert does not fit on the tail, or lies within its bounds. -/
def rowSafe (data : Bytes) (txnId : TxnId) (page : HeapPage) : Bool :=
  !(page.insertTuple data txnId).isOk || decide (Covers col page (value data))

/-- A row that a single insert or a rewrite puts on a page lies within the
bounds of the zone map that the page has before the call. -/
def zoneSafe (s : σ) : ChainCmd → Bool
  | insert data txnId => answer (do
      let last ← HeapChain.lastPageId E fuel root
      rowSafe value col data txnId <$> E.readPage last) s
  | insertWithHint data txnId hint => answer (do
      let (last, _) ← HeapChain.resolveTailWithHint E fuel root hint
      rowSafe value col data txnId <$> E.readPage last) s
  | rewriteBatchSameSlot updates _ => updates.all fun (rid, newRow) =>
      answer ((fun page => decide (Covers col page (value newRow))) <$> E.readPage rid.pageId) s
  | _ => true

/-- Rows are addressed on allocated pages, and so is the tail of a hint, unless
it cannot be read. -/
def Valid (s : σ) : ChainCmd → Prop
  | insertWithHint _ _ (some h) => h.rootPageId = root →
      view s h.tailPageId ≠ none ∨ ∃ e, E.readPage h.tailPageId s = .error e s
  | rewriteBatchSameSlot updates _ => ∀ u ∈ updates, view s u.1.pageId ≠ none
  | delete pageId _ _ => view s pageId ≠ none
  | deleteBatch rids _ => ∀ rid ∈ rids, view s rid.pageId ≠ none
  | _ => True

/-- Every command of a run is valid and safe in the state it starts from. -/
def SafeRun : List ChainCmd → σ → Prop
  | [], _ => True
  | c :: cmds, s => c.Valid E view root s ∧ c.zoneSafe E value col fuel root s = true ∧
      SafeRun cmds (endState (c.exec E value col fuel root s))

variable {E view value col fuel root} {s : σ}

variable {data : Bytes} {txnId : TxnId}

theorem covers_of_rowSafe {page : HeapPage} (h : rowSafe value col data txnId page)
    (hi : (page.insertTuple data txnId).isOk) : Covers col page (value data) := by
  simpa [rowSafe, hi] using h

theorem resolveTailWithHint_cases (fuel : Nat) (hE : E.Lawful 0 view)
    (h : ZonesSound value col root (view s)) (hroot : root ≠ 0) {hint : Option HeapAppendHint}
    (hv : (insertWithHint data txnId hint).Valid E view root s) :
    (∃ last hint' page, resolveTailWithHint E fuel root hint s = .ok (last, hint') s ∧
      view s last = some page ∧ page.nextPage = 0) ∨
      resolveTailWithHint E fuel root hint s = .error .outOfFuel s := by
  have hwalk (f : PageId → Option HeapAppendHint) :
      (∃ last hint' page, (lastPageId E fuel root >>= fun tail => pure (tail, f tail)) s =
        .ok (last, hint') s ∧ view s last = some page ∧ page.nextPage = 0) ∨
      (lastPageId E fuel root >>= fun tail => pure (tail, f tail)) s =
        .error .outOfFuel s := by
    rcases lastPageId_cases fuel hE h hroot with ⟨last, page, e, hp, hn, -⟩ | e
    · exact .inl ⟨last, f last, page, bind_ok e, hp, hn⟩
    · exact .inr (bind_error e)
  obtain _ | hint := hint
  · exact hwalk fun _ => none
  simp only [resolveTailWithHint]
  split
  next hr =>
    rcases hv hr with hp | ⟨err, he⟩
    · obtain ⟨page, hp⟩ := ne_none_iff_exists'.mp hp
      have e : isTail E hint.tailPageId s = .ok (page.chainNextPage == 0) s := by
        simp only [isTail, hE.read hp]
      simp only [bind_ok e]
      split
      next hn => exact .inl ⟨_, _, page, rfl, hp, beq_iff_eq.mp hn⟩
      next => exact hwalk fun tail => some ⟨root, tail⟩
    · have e : isTail E hint.tailPageId s = .ok false s := by
        simp only [isTail, he]
      simp only [bind_ok e]
      exact hwalk fun tail => some ⟨root, tail⟩
  next => exact hwalk fun tail => some ⟨root, tail⟩

theorem exec_sound (hE : E.Lawful 0 view) (hB : E.AllocsBlank view new) (hroot : root ≠ 0)
    (c : ChainCmd) (h : ZonesSound value col root (view s)) (hv : c.Valid E view root s)
    (hs : c.zoneSafe E value col fuel root s) :
    ZonesSound value col root (view (endState (c.exec E value col fuel root s))) := by
  have hpure {α : Type} {x : EStateM Stop σ α}
      (hx : Always x s fun s' => ZonesSound value col root (view s')) :
      Always (do let _ ← x) s fun s' => ZonesSound value col root (view s') :=
    Always.bind hx fun _ _ h => Always.pure h
  cases c with
  | insert data txnId =>
    refine hpure ?_
    rcases lastPageId_cases fuel hE h hroot with ⟨last, page, e, hp, hn, -⟩ | e
    · refine Always.bind_ok e (insertAt_sound hE h hp hn (covers_of_rowSafe ?_))
      simpa only [zoneSafe, answer, bind_ok e, map_ok (hE.read hp)] using hs
    · exact Always.bind_error e h
  | insertWithHint data txnId hint =>
    refine hpure ?_
    rcases resolveTailWithHint_cases fuel hE h hroot hv with ⟨last, hint', page, e, hp, hn⟩ | e
    · refine Always.bind_ok e (Always.bind (insertAt_sound hE h hp hn
        (covers_of_rowSafe ?_)) fun _ _ h => Always.pure h)
      simpa only [zoneSafe, answer, bind_ok e, map_ok (hE.read hp)] using hs
    · exact Always.bind_error e h
  | insertBatchWithZm rows txnId => exact hpure (insertBatchWithZm_sound hE hB h hroot rows)
  | rewriteBatchSameSlot updates txnId =>
    refine hpure (rewriteBatchSameSlot_sound hE h hv fun u hu page hp => ?_)
    have := all_eq_true.mp hs u hu
    simpa only [answer, map_ok (hE.read hp), decide_eq_true_eq] using this
  | delete pageId slotId txnId => exact delete_sound hE h hv slotId
  | deleteBatch rids txnId => exact hpure (deleteBatch_sound hE h hv)

theorem run_sound (hE : E.Lawful 0 view) (hB : E.AllocsBlank view new) (hroot : root ≠ 0)
    (cmds : List ChainCmd) (h : ZonesSound value col root (view s))
    (hs : SafeRun E view value col fuel root cmds s) :
    ZonesSound value col root (view (run E value col fuel root cmds s)) := by
  induction cmds generalizing s with
  | nil => exact h
  | cons c cmds ih =>
    obtain ⟨hv, hz, hs⟩ := hs
    exact ih (exec_sound hE hB hroot c h hv hz) hs

end ChainCmd

section Claim

variable {σ Row : Type} {E : StorageEngine Stop σ HeapPage} {view : σ → Heap HeapPage}
  {value : Bytes → Option I64} {col : Fin 256} {fuel : Nat} {root : PageId} {s : σ}

/-- A chain is built from a blank root page by commands each of which is safe
when it is run. Then a page with a live row that satisfies a predicate has no
zone map, one of another column, or one that lets the predicate through; and a
filtered scan for the predicate returns the same rows with the zone map
predicate as without. -/
theorem zone_maps_hide_no_row (hE : E.Lawful 0 view) (hB : E.AllocsBlank view new)
    (hroot : view s root = some (.new root)) (cmds : List ChainCmd)
    (hs : ChainCmd.SafeRun E view value col fuel root cmds s) :
    let s' := ChainCmd.run E value col fuel root cmds s
    let Page (p : PageId) (page : HeapPage) :=
      Reach chainNextPage 0 (view s') root p ∧ view s' p = some page
    (∀ p page, Page p page → ∀ (q : ZoneMapPredicate) (t : Slot), some t ∈ page.slots →
      (∃ x ∈ value t.data, q.holds x = true) →
      readZoneMap page = none ∨ ∃ zm, readZoneMap page = some zm ∧
        (zm.colIdx ≠ col ∨ zoneMapMightMatch zm q = true)) ∧
    ∀ (args : FilterArgs Row) (q : ZoneMapPredicate), args.zoneMapPred = some (col.val, q) →
      args.Implies value q → (∀ p page, Page p page → args.Reads page) →
      ∃ rows n, ∀ fuel > n, args.scanTableFilteredBrin E fuel root s' = .ok rows s' ∧
        args.withoutZoneMap.scanTableFilteredBrin E fuel root s' = .ok rows s' := by
  intro s' Page
  have h0 : root ≠ 0 := fun h => by simp [h ▸ hE.null_free s] at hroot
  have hstart : ZonesSound value col root (view s) := by
    refine ⟨[root], ⟨rfl, h0, _, hroot, rfl⟩, fun p hp page hpage => ?_⟩
    rw [mem_singleton.mp hp, hroot] at hpage
    exact some.inj hpage ▸ zoneSound_new root
  obtain ⟨ps, h⟩ := ChainCmd.run_sound hE hB h0 cmds hstart hs
  have hmem {p : PageId} : p ∈ ps ↔ Reach chainNextPage 0 (view s') root p :=
    (h.chain.reach_iff h0).symm
  constructor
  · rintro p page ⟨hr, hp⟩ q t ht hx
    cases hz : readZoneMap page with
    | none => exact .inl rfl
    | some zm =>
      refine .inr ⟨zm, rfl, or_iff_not_imp_left.mpr fun hc => ?_⟩
      exact zoneSound_iff.mp (h.sound p (hmem.mpr hr) page hp) q t ht hx zm hz (not_not.mp hc)
  · intro args q hz hi hr
    obtain ⟨rows, hrows⟩ := FilterArgs.scan_zoneMap_eq hE hz hi h.chain fun p hp page hpage =>
      ⟨h.sound p hp page hpage, hr p page ⟨hmem.mp hp, hpage⟩⟩
    exact ⟨rows, ps.length, hrows⟩

/-! ## A table in memory -/

/-- Heap pages in memory. -/
def memory : StorageEngine Stop (Mem HeapPage 0) HeapPage :=
  memoryStore 0 new fun pageId => .err (.pageNotFound pageId)

/-- The chain of a new table, at page 1. -/
def newChain : Mem HeapPage 0 := Mem.empty.alloc (new 1)

/-- The row of a table with one INT column: a null bitmap and the value, little endian. -/
def intRow (b : Byte) : Bytes := [0, b, 0, 0, 0]

/-- The column's value. -/
def intColumn : Bytes → Option I64
  | [0, b₀, b₁, b₂, b₃] =>
    let n : Int := b₀.val + 256 * b₁.val + 65536 * b₂.val + 16777216 * b₃.val
    some ⟨if n < 2 ^ 31 then n else n - 2 ^ 32, by split <;> omega⟩
  | _ => none

/-- A scan of the table for the rows with a given value. -/
def scanFor (x : I64) : FilterArgs (Option I64) where
  reader := ⟨fun data => .ok (intColumn data), fun _ data => .ok (intColumn data)⟩
  snap := ⟨10, 0, []⟩
  predicate v := v == some x
  zoneMapPred := some (0, .eq x)
  whereColMask := none
  batchPred := none
  brinRanges := none
  brinPpr := 0

theorem memory_lawful : memory.Lawful 0 Mem.pages := memoryStore_lawful ..

theorem memory_allocsBlank : memory.AllocsBlank Mem.pages new :=
  memoryStore_allocsBlank 0 new _

theorem scanFor_filterRow (x : I64) (data : Bytes) :
    (scanFor x).filterRow data = .ok (if intColumn data = some x then some (intColumn data) else none) := by
  by_cases h : intColumn data = some x <;>
    simp [FilterArgs.filterRow, scanFor, h, pure, bind, Except.pure, Except.bind]

theorem scanFor_implies (x : I64) : (scanFor x).Implies intColumn (.eq x) := by
  intro data row h
  rw [scanFor_filterRow] at h
  split at h
  next hx => exact ⟨x, hx, by simp [ZoneMapPredicate.holds]⟩
  next => simp at h

/-- A batch insert, and a single insert within its bounds. -/
def withinBounds : List ChainCmd := [.insertBatchWithZm [intRow 5, intRow 10] 1, .insert (intRow 9) 2]

theorem zone_maps_hide_no_row_memory :
    let s' := ChainCmd.run memory intColumn 0 3 1 withinBounds newChain
    ∃ rows n, ∀ fuel > n,
      (scanFor ⟨9, by decide⟩).scanTableFilteredBrin memory fuel 1 s' = .ok rows s' ∧
      (scanFor ⟨9, by decide⟩).withoutZoneMap.scanTableFilteredBrin memory fuel 1 s' = .ok rows s' :=
  (zone_maps_hide_no_row memory_lawful memory_allocsBlank rfl withinBounds
    ⟨trivial, rfl, trivial, by decide, trivial⟩).2 _ _ rfl (scanFor_implies _)
    fun _ _ _ _ _ => ⟨_, scanFor_filterRow ..⟩

/-- A batch insert, and a single insert outside of its bounds. -/
def outsideBounds : List ChainCmd := [.insertBatchWithZm [intRow 10] 1, .insert (intRow 99) 2]

/-- The rows a call returns, if it returns. -/
def returned {α : Type} : EStateM.Result Stop (Mem HeapPage 0) α → Option α
  | .ok a _ => some a
  | .error .. => none

/-- After them the page has a live row with the value 99 and a zone map of the
column that rules 99 out, and the scan for 99 returns nothing where the scan
without the zone map predicate returns the row. -/
theorem zone_map_hides_row :
    let s' := ChainCmd.run memory intColumn 0 3 1 outsideBounds newChain
    (∃ page, s'.pages 1 = some page ∧ (∃ t, some t ∈ page.slots ∧ intColumn t.data = some ⟨99, by decide⟩) ∧
      ∃ zm, readZoneMap page = some zm ∧ zm.colIdx = 0 ∧
        zoneMapMightMatch zm (.eq ⟨99, by decide⟩) = false) ∧
    returned ((scanFor ⟨99, by decide⟩).scanTableFilteredBrin memory 3 1 s') = some [] ∧
    returned ((scanFor ⟨99, by decide⟩).withoutZoneMap.scanTableFilteredBrin memory 3 1 s') =
      some [(⟨1, 1⟩, some ⟨99, by decide⟩)] := by
  refine ⟨⟨_, rfl, ⟨_, .tail _ (.head _), ?_⟩, _, rfl, rfl, ?_⟩, ?_, ?_⟩
  · decide +kernel
  · decide +kernel
  · decide +kernel
  · decide +kernel

end Claim

end AxiomDb.Heap
