import AxiomDb.Lib.MemoryStore
import AxiomDb.Storage.Overflow

/-!
# What overflow chains hold

A chain is written, read and released on any page store that does not fail. The
readers and the releaser follow the same pages that the writer filled:
`HoldsChain` is what the writer establishes and what the loops go along, by
induction over the pages. A call that counts a reference changes the first page
only.
-/

namespace AxiomDb.Storage.Overflow

open Lib Heap Heap.PageBytes List Option

/-- The heap holds the chunks under their page numbers, each page with the number of the next. -/
def HoldsChain (page : Bool → PageId → Bytes → ByteMem → Prop) (H : Lib.Heap ByteMem) :
    Bool → List (PageId × Bytes) → Prop
  | _, [] => True
  | isFirst, (q, c) :: l =>
    q ≠ NULL_PAGE ∧ (∃ v, H q = some v ∧ page isFirst (nextOf l) c v) ∧ HoldsChain page H false l

variable {page : Bool → PageId → Bytes → ByteMem → Prop} {H H' : Lib.Heap ByteMem} {isFirst : Bool}
  {l : List (PageId × Bytes)}

theorem HoldsChain.congr (h : HoldsChain page H isFirst l) (hH : ∀ q ∈ l.map Prod.fst, H' q = H q) :
    HoldsChain page H' isFirst l := by
  induction l generalizing isFirst with
  | nil => trivial
  | cons e l ih =>
    obtain ⟨hq, ⟨v, hv, hpage⟩, hrest⟩ := h
    refine ⟨hq, ⟨v, ?_, hpage⟩, ih hrest fun q hq => hH q (mem_cons_of_mem _ hq)⟩
    rw [hH e.1 mem_cons_self, hv]

theorem nextOf_cons (q : PageId) (c : Bytes) (l : List (PageId × Bytes)) :
    nextOf ((q, c) :: l) = q := rfl

theorem nextOf_nil : nextOf [] = NULL_PAGE := rfl

/-- Only the empty chain begins at the end. -/
theorem HoldsChain.nextOf_eq_null (h : HoldsChain page H isFirst l) : nextOf l = NULL_PAGE ↔ l = [] := by
  cases l with
  | nil => exact iff_of_true rfl rfl
  | cons e l => exact iff_of_false h.1 (cons_ne_nil _ _)

section Store

variable {σ : Type} {E : StorageEngine ChainError σ ByteMem} {view : σ → Lib.Heap ByteMem}
  {crc32c : ByteMem → Nat} {s : σ}

/-! ## Writing -/

variable {v : ByteMem} {c payload : Bytes} {pageIds : List PageId} {refcount refcount' : Nat}
  {q : PageId}

theorem orCleanup_ok {α : Type} {x : EStateM ChainError σ α} {a : α} {s' : σ} (h : x s = .ok a s') :
    orCleanup E pageIds x s = .ok a s' := by
  simp only [orCleanup, tryCatch, tryCatchThe, MonadExceptOf.tryCatch, EStateM.tryCatch, h]

theorem lift_ok {α : Type} {x : Except ChainError α} {a : α} (h : x = .ok a) (s : σ) :
    lift x s = .ok a s := by
  rw [h]
  rfl

theorem allocPages_spec (hE : E.Lawful NULL_PAGE view) (n : Nat) (pageIds : List PageId) (s : σ) :
    ∃ new s', allocPages E n pageIds s = .ok (pageIds ++ new) s' ∧ new.length = n ∧ new.Nodup ∧
      (∀ q ∈ new, view s q = none ∧ view s' q ≠ none) ∧ ∀ q ∉ new, view s' q = view s q := by
  induction n generalizing pageIds s with
  | zero => exact ⟨[], s, by rw [append_nil]; rfl, rfl, .nil, by simp, fun _ _ => rfl⟩
  | succ n ih =>
    obtain ⟨p, v, s1, halloc, hnone, hview⟩ := hE.alloc s
    obtain ⟨new, s', hrest, hlen, hnd, hnew, hold⟩ := ih (pageIds ++ [p]) s1
    have hp : view s1 p ≠ none := by simp [hview]
    have hfresh : p ∉ new := fun hmem => hp (hnew p hmem).1
    have hne {q : PageId} (hq : q ∈ new) : q ≠ p := fun heq => hfresh (heq ▸ hq)
    refine ⟨p :: new, s', ?_, by simp [hlen], nodup_cons.mpr ⟨hfresh, hnd⟩, fun q hq => ?_,
      fun q hq => ?_⟩
    · rw [allocPages, bind_ok (orCleanup_ok halloc), hrest, append_assoc]
      rfl
    · rcases mem_cons.mp hq with rfl | hq
      · exact ⟨hnone, by rwa [hold q hfresh]⟩
      · refine ⟨?_, (hnew q hq).2⟩
        have := (hnew q hq).1
        rwa [hview, update_ne (hne hq)] at this
    · rw [mem_cons, not_or] at hq
      rw [hold q hq.2, hview, update_ne hq.1]

/-- The pages that are written hold the chain. -/
theorem writePages_spec (hE : E.Lawful NULL_PAGE view)
    {format : Bool → PageId → PageId → Bytes → Except ChainError ByteMem}
    (hformat : ∀ isFirst pageId next c, c ∈ l.map Prod.snd →
      ∃ v, format isFirst pageId next c = .ok v ∧ page isFirst next c v)
    (hnd : (l.map Prod.fst).Nodup) (hlive : ∀ q ∈ l.map Prod.fst, view s q ≠ none) :
    ∃ s', writePages E format pageIds isFirst l s = .ok () s' ∧ HoldsChain page (view s') isFirst l ∧
      (∀ q ∉ l.map Prod.fst, view s' q = view s q) ∧ ∀ q, view s' q ≠ none ↔ view s q ≠ none := by
  induction l generalizing s isFirst with
  | nil => exact ⟨s, rfl, trivial, fun _ _ => rfl, fun _ => Iff.rfl⟩
  | cons e l ih =>
    obtain ⟨p, c⟩ := e
    have hp : view s p ≠ none := hlive p mem_cons_self
    obtain ⟨v, hv, hpage⟩ := hformat isFirst p (nextOf l) c mem_cons_self
    obtain ⟨s1, hwrite, hview⟩ := hE.write v hp
    obtain ⟨hpl, hnd⟩ := nodup_cons.mp hnd
    have hother {q : PageId} (hq : q ∈ l.map Prod.fst) : view s1 q = view s q := by
      rw [hview, update_ne fun heq : q = p => hpl (heq ▸ hq)]
    have hdomain (q : PageId) : view s1 q ≠ none ↔ view s q ≠ none := by
      by_cases hqp : q = p
      · rw [hqp]
        exact iff_of_true (by simp [hview]) hp
      · rw [hview, update_ne hqp]
    have hlive' : ∀ q ∈ l.map Prod.fst, view s1 q ≠ none := fun q hq => by
      rw [hother hq]
      exact hlive q (mem_cons_of_mem _ hq)
    obtain ⟨s', hrest, hholds, hframe, hdomain'⟩ := @ih false s1
      (fun isFirst pageId next c hc => hformat isFirst pageId next c (mem_cons_of_mem _ hc))
      hnd hlive'
    have hnull : p ≠ NULL_PAGE := fun heq => hp (heq ▸ hE.null_free s)
    refine ⟨s', ?_, ⟨hnull, ⟨v, ?_, hpage⟩, hholds⟩, fun q hq => ?_, fun q =>
      (hdomain' q).trans (hdomain q)⟩
    · rw [writePages, bind_ok (lift_ok hv s), bind_ok (orCleanup_ok hwrite), hrest]
    · rw [hframe p hpl, hview, update_self]
    · rw [map_cons, mem_cons, not_or] at hq
      rw [hframe q hq.2, hview, update_ne hq.1]

variable (page) in
/-- A payload that is not empty is written to new pages. -/
theorem writeWith_spec (hE : E.Lawful NULL_PAGE view) {cap : Nat} (hcap : 0 < cap)
    (format : Bool → PageId → PageId → Bytes → Except ChainError ByteMem)
    (hformat : ∀ isFirst pageId next c, c.length ≤ cap →
      ∃ v, format isFirst pageId next c = .ok v ∧ page isFirst next c v) (hpayload : payload ≠ [])
    (s : σ) :
    ∃ l s', writeWith E cap format payload s = .ok (some (nextOf l)) s' ∧
      l.map Prod.snd = chunks cap payload ∧ (l.map Prod.fst).Nodup ∧
      (∀ q, q ∈ l.map Prod.fst ↔ view s q = none ∧ view s' q ≠ none) ∧
      HoldsChain page (view s') true l := by
  obtain ⟨ids, s1, halloc, hlen, hnd, hnew, hold⟩ :=
    allocPages_spec hE (chunks cap payload).length [] s
  rw [nil_append] at halloc
  have hfst : (ids.zip (chunks cap payload)).map Prod.fst = ids :=
    map_fst_zip (by omega)
  have hsnd : (ids.zip (chunks cap payload)).map Prod.snd = chunks cap payload :=
    map_snd_zip (by omega)
  obtain ⟨s', hwrite, hholds, -, hdomain⟩ : ∃ s',
      writePages E format ids true (ids.zip (chunks cap payload)) s1 = .ok () s' ∧
        HoldsChain page (view s') true (ids.zip (chunks cap payload)) ∧ _ :=
    writePages_spec hE (fun isFirst pageId next c hc =>
      hformat isFirst pageId next c (length_le_of_mem_chunks (by rwa [hsnd] at hc)))
    (by rwa [hfst]) (by rw [hfst]; exact fun q hq => (hnew q hq).2)
  have hhead : ids.head? = some (nextOf (ids.zip (chunks cap payload))) := by
    have hne := chunks_ne_nil hcap hpayload
    cases hids : ids with
    | nil =>
      rw [hids] at hlen
      exact absurd (length_eq_zero_iff.mp hlen.symm) hne
    | cons p ids =>
      cases hchunks : chunks cap payload with
      | nil => exact absurd hchunks hne
      | cons c cs => rfl
  refine ⟨ids.zip (chunks cap payload), s', ?_, hsnd, by rwa [hfst], fun q => ?_, hholds⟩
  · rw [writeWith, if_neg hpayload, bind_ok halloc, bind_ok hwrite, hhead]
    rfl
  rw [hfst, hdomain]
  refine ⟨hnew q, fun ⟨hnone, hlive⟩ => ?_⟩
  by_contra hq
  exact hlive (by rw [hold q hq, hnone])

/-- What a page holds once its next page has a number that fits. -/
theorem HoldsChain.mono {page' : Bool → PageId → Bytes → ByteMem → Prop}
    (hpage : ∀ isFirst next c v, next ∈ l.map Prod.fst ∨ next = NULL_PAGE → page isFirst next c v →
      page' isFirst next c v) (h : HoldsChain page H isFirst l) : HoldsChain page' H isFirst l := by
  induction l generalizing isFirst with
  | nil => trivial
  | cons e l ih =>
    obtain ⟨hq, ⟨v, hv, hp⟩, hrest⟩ := h
    refine ⟨hq, ⟨v, hv, hpage _ _ _ _ ?_ hp⟩, ih (fun isFirst next c v hn =>
      hpage isFirst next c v (hn.imp_left (mem_cons_of_mem _))) hrest⟩
    cases l with
    | nil => exact .inr rfl
    | cons e l => exact .inl (mem_cons_of_mem _ mem_cons_self)

/-! ## Reading -/

/-- The next page of the chain joins those that were visited. -/
theorem nodup_visit {visited ids : List PageId} (h : (visited ++ q :: ids).Nodup) :
    q ∉ visited ∧ q ∉ ids ∧ ((q :: visited) ++ ids).Nodup := by
  have hnd := perm_middle.nodup_iff.mp h
  have hq := (nodup_cons.mp hnd).1
  rw [mem_append, not_or] at hq
  exact ⟨hq.1, hq.2, hnd⟩

section

variable (hE : E.Lawful NULL_PAGE view)
include hE

/-- The loop of `read_chain` goes along the chunks. -/
theorem readLoop_spec {expectedLen fuel : Nat}
    {visited : List PageId} {out : Bytes} (hpayload : payload ≠ []) (hfuel : payload.length ≤ fuel)
    (hl : l.map Prod.snd = chunks payloadCapacity payload) (hnd : (visited ++ l.map Prod.fst).Nodup)
    (h : HoldsChain (fun _ => LegacyPage) (view s) isFirst l) :
    readLoop E expectedLen fuel visited (nextOf l) payload.length out s = .ok (out ++ payload) s := by
  have hcap : 0 < payloadCapacity := by decide
  induction fuel generalizing visited payload out isFirst l with
  | zero => exact absurd (length_eq_zero_iff.mp (by omega)) hpayload
  | succ fuel ih =>
    rw [chunks_cons hcap hpayload] at hl
    obtain _ | ⟨e, l⟩ := l
    · cases hl
    obtain ⟨q, c⟩ := e
    obtain ⟨hc, hl⟩ := cons.inj hl
    obtain ⟨hq, ⟨v, hv, hpage⟩, hrest⟩ := h
    have hc : c = payload.take payloadCapacity := hc
    have hclen : min payload.length payloadCapacity = c.length := by
      rw [hc, length_take, min_comm]
    have hdrop : payload.length - c.length = (payload.drop payloadCapacity).length := by
      rw [length_drop, hc, length_take]
      omega
    obtain ⟨hvisited, -, hnd'⟩ := nodup_visit hnd
    have hpos := length_pos_of_ne_nil hpayload
    have hstep : readLoop E expectedLen (fuel + 1) visited q payload.length out s =
        (if (payload.drop payloadCapacity).length = 0 then
          if nextOf l ≠ NULL_PAGE then throw (.trailingPage q (nextOf l) expectedLen)
          else pure (out ++ c)
        else if nextOf l = NULL_PAGE then
          throw (.endedEarly q (payload.drop payloadCapacity).length)
        else readLoop E expectedLen fuel (q :: visited) (nextOf l)
          (payload.drop payloadCapacity).length (out ++ c)) s := by
      rw [readLoop, if_neg hvisited]
      show (E.readPage q >>= _) s = _
      rw [bind_ok (hE.read hv), bind_ok (lift_ok (ensureOverflowPage_ok q hpage.type) s), hclen,
        hpage.payload, hpage.next_eq, hdrop]
      split
      · split <;> rfl
      · split <;> rfl
    rw [nextOf_cons, hstep]
    by_cases hlast : payload.drop payloadCapacity = []
    · have hnil : l = [] := by
        rw [hlast, chunks_nil] at hl
        exact map_eq_nil_iff.mp hl
      have hall : c = payload := by
        rw [hc]
        have := take_append_drop payloadCapacity payload
        rwa [hlast, append_nil] at this
      rw [hlast, hnil, nextOf_nil, hall]
      rfl
    · have hne : nextOf l ≠ NULL_PAGE := fun heq => by
        rw [hrest.nextOf_eq_null] at heq
        rw [heq, map_nil] at hl
        exact chunks_ne_nil hcap hlast hl.symm
      have hpos' := length_pos_of_ne_nil hlast
      have hshort := length_drop (l := payload) (i := payloadCapacity)
      rw [if_neg (by omega), if_neg hne, ih hlast (by omega) hl hnd' hrest, append_assoc, hc,
        take_append_drop]

section

variable (hpayload : payload ≠ []) (hl : l.map Prod.snd = chunks payloadCapacity payload) (hnd : (l.map Prod.fst).Nodup)
include hpayload hl hnd

theorem readChain_spec (h : HoldsChain (fun _ => LegacyPage) (view s) isFirst l) :
    readChain E (nextOf l) payload.length s = .ok payload s := by
  have hpos := length_pos_of_ne_nil hpayload
  rw [readChain, if_neg (by omega), readLoop_spec hE hpayload le_rfl hl hnd h, nil_append]

/-- The older format is told apart by the number of its next page. -/
theorem readBlobChain_legacy (hids : ∀ q ∈ l.map Prod.fst, q < BITMAP_CAPACITY)
    (h : HoldsChain (fun _ => LegacyPage) (view s) isFirst l) :
    readBlobChain E (nextOf l) payload.length s = .ok payload s := by
  have hread := readChain_spec hE hpayload hl hnd h
  obtain _ | ⟨e, l⟩ := l
  · exact absurd hl.symm (chunks_ne_nil (by decide) hpayload)
  obtain ⟨q, c⟩ := e
  obtain ⟨hq, ⟨v, hv, hpage⟩, hrest⟩ := h
  rw [nextOf_cons] at hread ⊢
  have hnext : nextOf l < BITMAP_CAPACITY ∨ nextOf l = NULL_PAGE := by
    cases l with
    | nil => exact .inr rfl
    | cons e l => exact .inl (hids _ (mem_cons_of_mem _ mem_cons_self))
  rw [readBlobChain]
  rw [bind_ok (hE.read hv), bind_ok (lift_ok (ensureOverflowPage_ok _ hpage.type) s),
    hpage.not_refcounted hnext]
  exact hread

end

/-- A chain with `refcount` references. -/
abbrev HoldsBlob (refcount : Nat) : Lib.Heap ByteMem → Bool → List (PageId × Bytes) → Prop :=
  HoldsChain fun isFirst => BlobPage isFirst (if isFirst then refcount else 0)

/-- The page that the loops have at hand. -/
def AtHand (H : Lib.Heap ByteMem) (q : PageId) (pageRef : Option ByteMem) : Prop :=
  ∀ v, pageRef = some v → H q = some v

theorem pageOrRead_ok {pageRef : Option ByteMem}
    (hv : view s q = some v) (href : AtHand (view s) q pageRef) :
    pageOrRead E pageRef q s = .ok v s := by
  cases pageRef with
  | none => exact hE.read hv
  | some w =>
    obtain rfl := some.inj (hv.symm.trans (href w rfl))
    rfl

end

theorem ensureBlobPage_ok {next : PageId}
    (h : BlobPage isFirst (if isFirst then refcount else 0) next c v) (q : PageId) :
    ensureBlobPage v q isFirst = .ok () :=
  h.ensure (fun hfirst => by rw [hfirst]; rfl) q

section

variable {refcount fuel : Nat} {visited : List PageId} {pageRef : Option ByteMem}
  (hE : E.Lawful NULL_PAGE view) (hne : l ≠ []) (hfuel : l.length ≤ fuel)
  (href : AtHand (view s) (nextOf l) pageRef) (hnd : (visited ++ l.map Prod.fst).Nodup)
  (h : HoldsBlob refcount (view s) isFirst l)

include hE hne hfuel href hnd h

/-- The loop of `read_blob_chain` goes along the pages. -/
theorem readBlobLoop_spec {out : Bytes} :
    readBlobLoop E fuel visited (nextOf l) pageRef isFirst out s =
      .ok (out ++ (l.map Prod.snd).flatten) s := by
  induction fuel generalizing visited pageRef out isFirst l with
  | zero => exact absurd (length_eq_zero_iff.mp (by omega)) hne
  | succ fuel ih =>
    obtain _ | ⟨e, l⟩ := l
    · exact absurd rfl hne
    obtain ⟨q, c⟩ := e
    obtain ⟨hq, ⟨v, hv, hpage⟩, hrest⟩ := h
    obtain ⟨hvisited, -, hnd'⟩ := nodup_visit hnd
    have hfits := hpage.fits
    rw [nextOf_cons, readBlobLoop, if_neg hvisited]
    show (pageOrRead E pageRef q >>= _) s = _
    rw [bind_ok (pageOrRead_ok hE hv href), bind_ok (lift_ok (ensureBlobPage_ok hpage q) s),
      hpage.partLen, hpage.next_eq, if_neg (by omega), hpage.payload, map_cons,
      flatten_cons, ← append_assoc]
    by_cases hlast : l = []
    · subst hlast
      rw [map_nil, flatten_nil, append_nil]
      rfl
    · rw [if_neg fun heq => hlast (hrest.nextOf_eq_null.mp heq)]
      exact ih hlast (by rw [length_cons] at hfuel; omega) (fun _ heq => by cases heq) hnd' hrest

/-- The loop of `free_blob` frees the pages, and no others. -/
theorem freeBlobLoop_spec :
    ∃ s', freeBlobLoop E fuel visited (nextOf l) pageRef isFirst s = .ok () s' ∧
      ∀ p, view s' p = if p ∈ l.map Prod.fst then none else view s p := by
  induction fuel generalizing visited pageRef isFirst l s with
  | zero => exact absurd (length_eq_zero_iff.mp (by omega)) hne
  | succ fuel ih =>
    obtain _ | ⟨e, l⟩ := l
    · exact absurd rfl hne
    obtain ⟨q, c⟩ := e
    obtain ⟨hq, ⟨v, hv, hpage⟩, hrest⟩ := h
    obtain ⟨hvisited, hql, hnd'⟩ := nodup_visit hnd
    obtain ⟨s1, hfree, hview⟩ := hE.free (s := s) (p := q) (by simp [hv])
    have hrest' : HoldsBlob refcount (view s1) false l := hrest.congr fun p hp => by
      rw [hview, update_ne fun heq : p = q => hql (heq ▸ hp)]
    rw [nextOf_cons, freeBlobLoop, if_neg hvisited]
    show ∃ s', (pageOrRead E pageRef q >>= _) s = _ ∧ _
    rw [bind_ok (pageOrRead_ok hE hv href), bind_ok (lift_ok (ensureBlobPage_ok hpage q) s),
      hpage.next_eq, bind_ok hfree]
    by_cases hlast : l = []
    · subst hlast
      refine ⟨s1, rfl, fun p => ?_⟩
      rw [hview]
      by_cases hp : p = q <;> simp [hp]
    rw [if_neg fun heq => hlast (hrest.nextOf_eq_null.mp heq)]
    obtain ⟨s', hloop, hfreed⟩ := @ih false l s1 (q :: visited) none hlast
      (by rw [length_cons] at hfuel; omega) (fun _ heq => by cases heq) hnd' hrest'
    refine ⟨s', hloop, fun p => ?_⟩
    rw [hfreed, hview]
    by_cases hp : p = q
    · simp [hp]
    · simp only [update_ne hp, map_cons, mem_cons, hp, false_or]

end

/-! ## References -/

theorem HoldsChain.length_le (h : ∀ q ∈ l.map Prod.fst, q < BITMAP_CAPACITY)
    (hnd : (l.map Prod.fst).Nodup) : l.length ≤ BITMAP_CAPACITY := by
  have hsub : (l.map Prod.fst).toFinset ⊆ Finset.range BITMAP_CAPACITY := fun q hq =>
    Finset.mem_range.mpr (h q (mem_toFinset.mp hq))
  have hcard := Finset.card_le_card hsub
  rwa [toFinset_card_of_nodup hnd, length_map, Finset.card_range] at hcard

/-- A chain with its references on a heap: at least one, as many as the field holds. -/
structure Referenced (H : Lib.Heap ByteMem) (l : List (PageId × Bytes)) (refcount : Nat) : Prop where
  ne_nil : l ≠ []
  nodup : (l.map Prod.fst).Nodup
  bounded : ∀ q ∈ l.map Prod.fst, q < BITMAP_CAPACITY
  positive : 0 < refcount
  fits : refcount < 2 ^ 64
  holds : HoldsBlob refcount H true l

theorem Referenced.fuel (h : Referenced H l refcount) : l.length ≤ 2 ^ 64 + 1 :=
  (HoldsChain.length_le h.bounded h.nodup).trans (by decide)

theorem readBlobChain_spec (hE : E.Lawful NULL_PAGE view) (h : Referenced (view s) l refcount)
    (legacyExpectedLen : Nat) :
    readBlobChain E (nextOf l) legacyExpectedLen s = .ok (l.map Prod.snd).flatten s := by
  rcases hl : l with _ | ⟨e, l'⟩
  · exact absurd hl h.ne_nil
  obtain ⟨q, c⟩ := e
  have hholds := h.holds
  rw [hl] at hholds
  obtain ⟨-, ⟨v, hv, hpage⟩, -⟩ := hholds
  have hloop := @readBlobLoop_spec true l σ E view s refcount (2 ^ 64 + 1) [] (some v) hE
    h.ne_nil h.fuel (fun w hw => by rw [hl, ← some.inj hw]; exact hv) h.nodup h.holds []
  rw [hl, nextOf_cons, nil_append] at hloop
  rw [nextOf_cons, readBlobChain]
  rw [bind_ok (hE.read hv), bind_ok (lift_ok (ensureOverflowPage_ok _ hpage.type) s),
    hpage.isRefcounted]
  exact hloop

/-- The first page is written with another number of references. -/
theorem holdsBlob_update (h : HoldsBlob refcount H true ((q, c) :: l)) (hq : q ∉ l.map Prod.fst)
    (hv : H q = some v) (hlt : refcount' < 2 ^ 64) : HoldsBlob refcount' (Function.update H q
      (some (updateChecksum crc32c (setBlobRefcount v refcount')))) true ((q, c) :: l) := by
  obtain ⟨hnull, ⟨w, hw, hpage⟩, hrest⟩ := h
  obtain rfl := some.inj (hv.symm.trans hw)
  refine ⟨hnull, ⟨_, update_self .., BlobPage.setRefcount hpage hlt⟩, ?_⟩
  have hcont : HoldsBlob refcount (Function.update H q
      (some (updateChecksum crc32c (setBlobRefcount v refcount')))) false l :=
    hrest.congr fun p hp => update_ne (fun heq : p = q => hq (heq ▸ hp)) _ _
  -- the pages behind the first one hold no count
  clear hrest hpage hw hv hq
  generalize Function.update H q _ = H' at hcont
  have hmono : ∀ (l : List (PageId × Bytes)), HoldsBlob refcount H' false l →
      HoldsBlob refcount' H' false l := by
    intro l
    induction l with
    | nil => exact fun _ => trivial
    | cons e l ih => exact fun ⟨hn, hp, hr⟩ => ⟨hn, hp, ih hr⟩
  exact hmono l hcont

theorem Referenced.cons_of (h : Referenced H l refcount) :
    ∃ q c l' v, l = (q, c) :: l' ∧ H q = some v ∧ q ∉ l'.map Prod.fst ∧
      BlobPage true refcount (nextOf l') c v := by
  rcases hl : l with _ | ⟨e, l'⟩
  · exact absurd hl h.ne_nil
  have hholds := h.holds
  have hnd := h.nodup
  rw [hl] at hholds hnd
  obtain ⟨-, ⟨v, hv, hpage⟩, -⟩ := hholds
  exact ⟨e.1, e.2, l', v, rfl, hv, (nodup_cons.mp hnd).1, hpage⟩

variable (crc32c) in
theorem write_refcount (hE : E.Lawful NULL_PAGE view)
    (h : Referenced (view s) ((q, c) :: l) refcount) (hv : view s q = some v) (hpos : 0 < refcount')
    (hlt : refcount' < 2 ^ 64) :
    ∃ s', E.writePage q (updateChecksum crc32c (setBlobRefcount v refcount')) s = .ok () s' ∧
      Referenced (view s') ((q, c) :: l) refcount' ∧ ∀ p, p ≠ q → view s' p = view s p := by
  obtain ⟨s', hwrite, hview⟩ :=
    hE.write (updateChecksum crc32c (setBlobRefcount v refcount')) (s := s) (p := q) (by simp [hv])
  refine ⟨s', hwrite, ⟨h.ne_nil, h.nodup, h.bounded, hpos, hlt, ?_⟩, fun p hp => ?_⟩
  · rw [hview]
    exact holdsBlob_update h.holds (nodup_cons.mp h.nodup).1 hv hlt
  · rw [hview, update_ne hp]

variable (crc32c) in
/-- One reference more, where the count can take it. -/
theorem increfBlob_spec (hE : E.Lawful NULL_PAGE view) (h : Referenced (view s) l refcount) :
    (refcount + 1 < 2 ^ 64 ∧ ∃ s', increfBlob E crc32c (nextOf l) s = .ok (refcount + 1) s' ∧
      Referenced (view s') l (refcount + 1) ∧ ∀ p, p ≠ nextOf l → view s' p = view s p) ∨
    refcount + 1 = 2 ^ 64 ∧
      increfBlob E crc32c (nextOf l) s = .error (.refcountOverflow (nextOf l)) s := by
  obtain ⟨q, c, l', v, rfl, hv, hq, hpage⟩ := h.cons_of
  have hpos := h.positive
  have hfits := h.fits
  rw [nextOf_cons, increfBlob]
  rw [bind_ok (hE.read hv), bind_ok (lift_ok (hpage.ensure (by simp) q) s), hpage.refcount_eq,
    if_neg (by omega)]
  by_cases hlt : refcount + 1 < 2 ^ 64
  · obtain ⟨s', hwrite, href, hframe⟩ := write_refcount crc32c hE h hv (Nat.succ_pos refcount) hlt
    refine .inl ⟨hlt, s', ?_, href, hframe⟩
    rw [if_neg (by omega)]
    show (E.writePage q _ >>= _) s = _
    rw [bind_ok hwrite]
    rfl
  · refine .inr ⟨by omega, ?_⟩
    rw [if_pos (by omega)]
    rfl

variable (crc32c) in
/-- One reference less; the last one takes the pages along. -/
theorem freeBlob_spec (hE : E.Lawful NULL_PAGE view) (h : Referenced (view s) l refcount) :
    ∃ s', freeBlob E crc32c (nextOf l) s = .ok () s' ∧
      (1 < refcount → Referenced (view s') l (refcount - 1) ∧
        ∀ p, p ≠ nextOf l → view s' p = view s p) ∧
      (refcount = 1 → ∀ p, view s' p = if p ∈ l.map Prod.fst then none else view s p) := by
  obtain ⟨q, c, l', v, hl, hv, hq, hpage⟩ := h.cons_of
  have hpos := h.positive
  have hfits := h.fits
  have hrun : freeBlob E crc32c (nextOf l) s =
      (if refcount > 1 then
        E.writePage q (updateChecksum crc32c (setBlobRefcount v (refcount - 1)))
      else freeBlobLoop E (2 ^ 64 + 1) [] q (some v) true) s := by
    rw [hl, nextOf_cons, freeBlob]
    rw [bind_ok (hE.read hv), bind_ok (lift_ok (ensureOverflowPage_ok _ hpage.type) s),
      hpage.isRefcounted]
    show (lift (ensureBlobPage v q true) >>= _) s = _
    rw [bind_ok (lift_ok (hpage.ensure (by simp) q) s), hpage.refcount_eq, if_neg (by omega)]
  rw [hrun]
  by_cases hone : refcount > 1
  · rw [if_pos hone]
    rw [hl] at h ⊢
    obtain ⟨s', hwrite, href, hframe⟩ :=
      write_refcount crc32c hE h hv (Nat.sub_pos_of_lt hone) (by omega)
    exact ⟨s', hwrite, fun _ => ⟨href, hframe⟩, by omega⟩
  rw [if_neg hone]
  obtain ⟨s', hloop, hfreed⟩ := @freeBlobLoop_spec true l σ E view s refcount (2 ^ 64 + 1) []
    (some v) hE h.ne_nil h.fuel
    (fun w hw => by rw [hl, nextOf_cons, ← some.inj hw]; exact hv) h.nodup h.holds
  rw [show nextOf l = q by rw [hl, nextOf_cons]] at hloop
  exact ⟨s', hloop, by omega, fun _ => hfreed⟩

/-! ## Runs of calls -/

inductive BlobCall where
  | increfBlob
  | freeBlob

/-- A state of the store with the numbers of the calls that returned. -/
structure Counted (σ : Type) where
  store : σ
  increfs : Nat
  frees : Nat

variable (E crc32c) in
/-- A call on the chain at `first`, which is made as long as there are references. -/
def call (first : PageId) (st : Counted σ) : BlobCall → Option (Counted σ)
  | .increfBlob =>
    if st.increfs + 1 > st.frees then
      match increfBlob E crc32c first st.store with
      | .ok _ s => some { st with store := s, increfs := st.increfs + 1 }
      | .error _ s => some { st with store := s }
    else none
  | .freeBlob =>
    if st.increfs + 1 > st.frees then
      match freeBlob E crc32c first st.store with
      | .ok _ s => some { st with store := s, frees := st.frees + 1 }
      | .error _ s => some { st with store := s }
    else none

/-- As long as there are references, they are counted on the first page. -/
theorem reached_referenced (hE : E.Lawful NULL_PAGE view) (h : Referenced (view s) l 1)
    {st : Counted σ} (hst : Reached (call E crc32c (nextOf l)) Lib.free ⟨s, 0, 0⟩ st) :
    st.frees ≤ st.increfs + 1 ∧
      (st.frees < st.increfs + 1 → Referenced (view st.store) l (st.increfs + 1 - st.frees)) := by
  refine hst.invariant (I := fun st => st.frees ≤ st.increfs + 1 ∧
    (st.frees < st.increfs + 1 → Referenced (view st.store) l (st.increfs + 1 - st.frees)))
    ⟨Nat.zero_le _, fun _ => h⟩ fun {st st' c} hI _ hcall => ?_
  obtain ⟨-, href⟩ := hI
  cases c with
  | increfBlob =>
    rw [call] at hcall
    split at hcall
    next hlt =>
      have hr := href hlt
      rcases increfBlob_spec crc32c hE hr with ⟨-, s', hok, hr', -⟩ | ⟨-, herr⟩
      · rw [hok] at hcall
        obtain rfl := some.inj hcall
        refine ⟨by simp only; omega, fun _ => ?_⟩
        rwa [show st.increfs + 1 - st.frees + 1 = st.increfs + 1 + 1 - st.frees by omega] at hr'
      · rw [herr] at hcall
        obtain rfl := some.inj hcall
        exact ⟨by simp only; omega, fun _ => hr⟩
    next => cases hcall
  | freeBlob =>
    rw [call] at hcall
    split at hcall
    next hlt =>
      obtain ⟨s', hok, hmore, -⟩ := freeBlob_spec crc32c hE (href hlt)
      rw [hok] at hcall
      obtain rfl := some.inj hcall
      refine ⟨by simp only; omega, fun hleft => ?_⟩
      simp only at hleft
      have hr' := (hmore (by omega)).1
      rwa [show st.increfs + 1 - st.frees - 1 = st.increfs + 1 - (st.frees + 1) by omega] at hr'
    next => cases hcall

end Store

/-! ## Round trips -/

/-- On a page store that does not fail, as long as its page numbers are below the capacity of the
bitmap: chains of both formats are read back, and a chain with references is read back until the call
that releases the last one, which frees its pages and no others. `incref_blob` succeeds on it as long
as the count of the references fits into 64 bits, and `free_blob` always. -/
theorem chains_round_trip {σ : Type} (E : StorageEngine ChainError σ ByteMem)
    (view : σ → Lib.Heap ByteMem) (crc32c : ByteMem → Nat) (hE : E.Lawful NULL_PAGE view)
    (payload : Bytes) (hpayload : payload ≠ []) (s : σ) :
    (∃ first t, writeChain E crc32c payload s = .ok (some first) t ∧
      ((∀ q, view t q ≠ none → q < BITMAP_CAPACITY) →
        readChain E first payload.length t = .ok payload t ∧
        readBlobChain E first payload.length t = .ok payload t)) ∧
    ∃ (first : PageId) (t : σ) (pages : List PageId), writeRefcountedChain E crc32c payload s = .ok (some first) t ∧
      (∀ q, q ∈ pages ↔ view s q = none ∧ view t q ≠ none) ∧
      ((∀ q, view t q ≠ none → q < BITMAP_CAPACITY) →
        ∀ st, Reached (call E crc32c first) Lib.free ⟨t, 0, 0⟩ st → st.increfs + 1 > st.frees →
          (∀ len, readBlobChain E first len st.store = .ok payload st.store) ∧
          (st.increfs + 1 - st.frees + 1 < 2 ^ 64 → ∃ s', increfBlob E crc32c first st.store =
            .ok (st.increfs + 1 - st.frees + 1) s') ∧
          ∃ s', freeBlob E crc32c first st.store = .ok () s' ∧ (st.increfs + 1 = st.frees + 1 →
              ∀ q, view s' q = if q ∈ pages then none else view st.store q)) := by
  have hnull : NULL_PAGE < 2 ^ 64 := by decide
  have hfits {next : PageId} {ids : List PageId} (hids : ∀ q ∈ ids, q < BITMAP_CAPACITY)
      (h : next ∈ ids ∨ next = NULL_PAGE) : next < 2 ^ 64 := by
    rcases h with h | rfl
    · exact lt_trans (hids next h) (by decide)
    · exact hnull
  constructor
  · obtain ⟨l, t, hwrite, hsnd, hnd, hlive, hholds⟩ := writeWith_spec
      (fun _ next c v => next < 2 ^ 64 → LegacyPage next c v) hE
      (by decide : 0 < payloadCapacity) (legacyPage crc32c)
      (fun _ _ _ _ _ => legacyPage_spec) hpayload s
    refine ⟨nextOf l, t, hwrite, fun hids => ?_⟩
    have hids' : ∀ q ∈ l.map Prod.fst, q < BITMAP_CAPACITY := fun q hq => hids q ((hlive q).mp hq).2
    have hchain : HoldsChain (fun _ => LegacyPage) (view t) true l :=
      hholds.mono fun _ _ _ _ hn hp => hp (hfits hids' hn)
    exact ⟨readChain_spec hE hpayload hsnd hnd hchain,
      readBlobChain_legacy hE hpayload hsnd hnd hids' hchain⟩
  obtain ⟨l, t, hwrite, hsnd, hnd, hlive, hholds⟩ := writeWith_spec
    (fun isFirst next c v => next < 2 ^ 64 →
      BlobPage isFirst (if isFirst then 1 else 0) next c v) hE
    (by decide : 0 < blobPayloadCapacity) (blobPage crc32c)
    (fun _ _ _ _ hc => blobPage_spec hc) hpayload s
  refine ⟨nextOf l, t, l.map Prod.fst, hwrite, hlive, fun hids st hst hmore => ?_⟩
  have hids' : ∀ q ∈ l.map Prod.fst, q < BITMAP_CAPACITY := fun q hq => hids q ((hlive q).mp hq).2
  have hne : l ≠ [] := fun heq => by
    rw [heq] at hsnd
    exact chunks_ne_nil (by decide) hpayload hsnd.symm
  have href : Referenced (view t) l 1 := ⟨hne, hnd, hids', by decide, by decide,
    hholds.mono fun _ _ _ _ hn hp => hp (hfits hids' hn)⟩
  have hr := (reached_referenced hE href hst).2 hmore
  obtain ⟨s', hfree, -, hlast⟩ := freeBlob_spec crc32c hE hr
  refine ⟨fun len => ?_, fun hlt => ?_, s', hfree, fun heq => hlast (by omega)⟩
  · rw [readBlobChain_spec hE hr len, hsnd, flatten_chunks (by decide)]
  · rcases increfBlob_spec crc32c hE hr with ⟨-, s', hok, -⟩ | ⟨hmax, -⟩
    · exact ⟨s', hok⟩
    · omega

/-- Pages in memory, zero when they are new; reading one that is not allocated is `PageNotFound`. -/
def pagesInMemory : StorageEngine ChainError (Mem ByteMem NULL_PAGE) ByteMem :=
  memoryStore NULL_PAGE (fun _ _ => 0) .pageNotFound

theorem chunks_of_le {cap : Nat} {payload : Bytes} (hne : payload ≠ []) (hcap : payload.length ≤ cap) :
    chunks cap payload = [payload] := by
  have hpos := length_pos_of_ne_nil hne
  rw [chunks, dif_neg (by simp [hne]; omega), take_of_length_le hcap, drop_of_length_le hcap, chunks,
    dif_pos (.inr rfl)]

/-- Three bytes take one page. After one `incref_blob` and one `free_blob` they are still there, and the
next `free_blob` frees the page. -/
theorem chains_round_trip_three :
    (∃ first t, writeChain pagesInMemory (fun _ => 0) [1, 2, 3] Mem.empty = .ok (some first) t ∧
      readChain pagesInMemory first 3 t = .ok [1, 2, 3] t ∧
      readBlobChain pagesInMemory first 3 t = .ok [1, 2, 3] t) ∧
    ∃ first t st, writeRefcountedChain pagesInMemory (fun _ => 0) [1, 2, 3] Mem.empty = .ok (some first) t ∧
      Reached (call pagesInMemory (fun _ => 0) first) Lib.free ⟨t, 0, 0⟩ st ∧ st.increfs = 1 ∧ st.frees = 1 ∧
      (∀ len, readBlobChain pagesInMemory first len st.store = .ok [1, 2, 3] st.store) ∧
      ∃ s', freeBlob pagesInMemory (fun _ => 0) first st.store = .ok () s' ∧ s'.pages first = none := by
  obtain ⟨⟨first, t, hwrite, hread⟩, first', t', pages, hwrite', hpages, hcalls⟩ :=
    chains_round_trip pagesInMemory Mem.pages (fun _ => 0) (memoryStore_lawful _ _ _) [1, 2, 3]
      (by decide) Mem.empty
  have hone : ∃ t0, writeChain pagesInMemory (fun _ => 0) [1, 2, 3] Mem.empty = .ok (some 0) t0 ∧
      t0.next = 1 := by
    rw [writeChain, writeWith, chunks_of_le (by decide) (by decide)]
    exact ⟨_, rfl, rfl⟩
  have hone' : ∃ t0, writeRefcountedChain pagesInMemory (fun _ => 0) [1, 2, 3] Mem.empty =
      .ok (some 0) t0 ∧ t0.next = 1 ∧ (t0.pages 0).isSome := by
    rw [writeRefcountedChain, writeWith, chunks_of_le (by decide) (by decide)]
    exact ⟨_, rfl, rfl, rfl⟩
  obtain ⟨t0, h0, hnext⟩ := hone
  obtain ⟨t1, h1, hnext1, hlive⟩ := hone'
  cases hwrite.symm.trans h0
  cases hwrite'.symm.trans h1
  have hbound {m : Mem ByteMem NULL_PAGE} (hm : m.next = 1) (q : PageId) (hq : m.pages q ≠ none) :
      q < BITMAP_CAPACITY := by
    have hlt : q < m.next := by
      by_contra hge
      exact hq (m.fresh (not_lt.mp hge))
    exact lt_trans (hm ▸ hlt) (by decide)
  refine ⟨⟨_, _, hwrite, hread (hbound hnext)⟩, ?_⟩
  have hcalls := hcalls (hbound hnext1)
  obtain ⟨-, hincref, -⟩ := hcalls _ .init (Nat.zero_lt_one)
  obtain ⟨s1, hs1⟩ := hincref (by norm_num)
  have hreach1 : Reached (call pagesInMemory (fun _ => 0) 0) Lib.free ⟨t', 0, 0⟩ ⟨s1, 1, 0⟩ :=
    .step (e := .increfBlob) .init trivial (by simp [call, hs1])
  obtain ⟨-, -, s2, hs2, -⟩ := hcalls _ hreach1 Nat.zero_lt_two
  have hreach2 : Reached (call pagesInMemory (fun _ => 0) 0) Lib.free ⟨t', 0, 0⟩ ⟨s2, 1, 1⟩ :=
    .step (e := .freeBlob) hreach1 trivial (by simp [call, hs2])
  obtain ⟨hsame, -, s3, hs3, hlast⟩ := hcalls _ hreach2 Nat.one_lt_two
  refine ⟨_, _, _, hwrite', hreach2, rfl, rfl, hsame, s3, hs3, ?_⟩
  rw [hlast rfl, if_pos ((hpages 0).mpr ⟨rfl, Option.isSome_iff_ne_none.mp hlive⟩)]

end AxiomDb.Storage.Overflow
