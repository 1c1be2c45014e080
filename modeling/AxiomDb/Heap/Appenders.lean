import AxiomDb.Heap.Chain
import AxiomDb.Lib.Runs

/-!
# Concurrent appends

Threads that append to one chain, interleaved at the sections that run under one
page latch and at single page reads. Finding the tail, finding it full, and
linking a new page to it are separate steps: a thread links its page to the page
that was the tail when it looked. If another page has been linked there in
between, that one is lost with all after it.
-/

namespace AxiomDb.Heap.Appenders

open Lib List Function HeapPage

/-- The arguments of `HeapChain::insert`. -/
structure Call where
  data : Bytes
  txnId : TxnId

/-- Where a call of `insert` or `insert_with_hint` is. -/
inductive Phase where
  | idle
  /-- The hint's page is to be read. -/
  | checking (call : Call) (tail : PageId)
  /-- The walk is to read a page. -/
  | walking (call : Call) (current : PageId)
  | found (call : Call) (last : PageId)
  /-- The tail was full, and its latch is dropped. -/
  | full (call : Call) (last : PageId)
  | allocated (call : Call) (last new : PageId)
  /-- The new page is written and not linked. -/
  | written (call : Call) (last new : PageId) (slotId : Nat)

namespace Phase

/-- The page of the chain that the call has come to. -/
def page : Phase → Option PageId
  | idle => none
  | checking _ p | walking _ p | found _ p | full _ p | allocated _ p _ | written _ p _ _ => some p

/-- The page that the call has for itself. -/
def own : Phase → Option PageId
  | allocated _ _ new | written _ _ new _ => some new
  | _ => none

end Phase

/-- The pages, and the hints and addresses that calls have returned. -/
structure State (τ : Type) where
  pages : Heap HeapPage
  allocated : PageId → Bool
  hints : List HeapAppendHint
  phase : τ → Phase
  returned : List ((PageId × Nat) × Bytes)

inductive Event (τ : Type) where
  | start (t : τ) (call : Call) (hint : Option HeapAppendHint)
  | check (t : τ)
  | walk (t : τ)
  | insert (t : τ)
  | alloc (t : τ) (p : PageId)
  | write (t : τ)
  | link (t : τ)

variable {τ : Type} [DecidableEq τ] (root : PageId)

namespace State

def setPhase (s : State τ) (t : τ) (p : Phase) : State τ :=
  { s with phase := Function.update s.phase t p }

theorem setPhase_phase (s : State τ) (t : τ) (p : Phase) (u : τ) :
    (s.setPhase t p).phase u = if u = t then p else s.phase u :=
  update_apply ..

/-- A page is written, and the call returns the address of its row. -/
def finish (s : State τ) (t : τ) (p : PageId) (page : HeapPage) (rid : PageId × Nat) (data : Bytes) :
    State τ :=
  { s.setPhase t .idle with
    pages := Function.update s.pages p (some page)
    hints := ⟨root, rid.1⟩ :: s.hints
    returned := (rid, data) :: s.returned }

end State

/-- A call that fails returns no address. The page that is allocated is any that is not in use. -/
def step (s : State τ) : Event τ → Option (State τ)
  | .start t call hint =>
    match s.phase t with
    | .idle =>
      match hint with
      | none => some (s.setPhase t (.walking call root))
      | some h =>
        if h ∈ s.hints then
          some (s.setPhase t (if h.rootPageId = root then .checking call h.tailPageId
            else .walking call root))
        else none
    | _ => none
  | .check t =>
    match s.phase t with
    | .checking call tail =>
      some (s.setPhase t (if (s.pages tail).any (·.chainNextPage == 0) then .found call tail
        else .walking call root))
    | _ => none
  | .walk t =>
    match s.phase t with
    | .walking call current =>
      match s.pages current with
      | some page =>
        some (s.setPhase t (if page.chainNextPage = 0 then .found call current
          else .walking call page.chainNextPage))
      | none => some (s.setPhase t .idle)
    | _ => none
  | .insert t =>
    match s.phase t with
    | .found call last =>
      match s.pages last with
      | some page =>
        match page.insertTuple call.data call.txnId with
        | .ok (slotId, page') => some (s.finish root t last page' (last, slotId) call.data)
        | .error _ => some (s.setPhase t (.full call last))
      | none => some (s.setPhase t .idle)
    | _ => none
  | .alloc t p =>
    match s.phase t with
    | .full call last =>
      if p = 0 ∨ s.allocated p = true then none
      else some { s.setPhase t (.allocated call last p) with
        allocated := Function.update s.allocated p true }
    | _ => none
  | .write t =>
    match s.phase t with
    | .allocated call last new =>
      match (HeapPage.new new).insertTuple call.data call.txnId with
      | .ok (slotId, page) => some { s.setPhase t (.written call last new slotId) with
          pages := Function.update s.pages new (some page) }
      | .error _ => some (s.setPhase t .idle)
    | _ => none
  | .link t =>
    match s.phase t with
    | .written call last new slotId =>
      match s.pages last with
      | some prev => some (s.finish root t last (prev.chainSetNextPage new) (new, slotId) call.data)
      | none => some (s.setPhase t .idle)
    | _ => none

/-- A new page is linked only to a page that is still the last one. -/
def linksTail (s : State τ) : Event τ → Bool
  | .link t =>
    match s.phase t with
    | .written _ last _ _ => (s.pages last).all (·.chainNextPage == 0)
    | _ => true
  | _ => true

def LinksTail (s : State τ) (e : Event τ) : Prop := linksTail s e = true

instance (s : State τ) (e : Event τ) : Decidable (LinksTail s e) :=
  inferInstanceAs (Decidable (_ = true))

/-! ## What the threads keep -/

/-- The row is in the slot. -/
def Holds (page : HeapPage) (slotId : Nat) (data : Bytes) : Prop :=
  ∃ t, page.slots[slotId]? = some (some t) ∧ t.data = data

/-- With `ps` the pages of the chain: calls stand at pages of it, pages that are not linked yet
are each of one call, and the rows returned are on the chain, at different addresses. -/
structure Chained (s : State τ) (ps : List PageId) : Prop where
  chain : IsChain HeapPage.nextPage 0 s.pages root ps
  pages : ∀ p, s.pages p ≠ none → s.allocated p = true
  hints : ∀ h ∈ s.hints, h.rootPageId = root → h.tailPageId ∈ ps
  stands : ∀ t p, (s.phase t).page = some p → p ∈ ps
  own : ∀ t p, (s.phase t).own = some p → p ∉ ps ∧ p ≠ 0 ∧ s.allocated p = true
  apart : ∀ t u p, (s.phase t).own = some p → (s.phase u).own = some p → t = u
  written : ∀ t call last new i, s.phase t = .written call last new i →
    ∃ page, s.pages new = some page ∧ page.nextPage = 0 ∧ Holds page i call.data
  returned : ∀ r ∈ s.returned, r.1.1 ∈ ps ∧ ∃ page, s.pages r.1.1 = some page ∧ Holds page r.1.2 r.2
  distinct : (s.returned.map Prod.fst).Nodup

namespace Chained

variable {root} {s : State τ} {ps : List PageId} {t : τ}

section

variable (hs : Chained root s ps)
include hs

/-- A call goes on, with no page of its own. -/
theorem setPhase {p : Phase} (hpage : ∀ q, p.page = some q → q ∈ ps)
    (hown : p.own = none) : Chained root (s.setPhase t p) ps := by
  have hphase := s.setPhase_phase t p
  have hold {u : τ} {q : PageId} (h : ((s.setPhase t p).phase u).own = some q) :
      (s.phase u).own = some q := by
    rw [hphase] at h
    split at h
    · cases hown.symm.trans h
    · exact h
  refine ⟨hs.chain, hs.pages, hs.hints, fun u q h => ?_, fun u q h => hs.own u q (hold h),
    fun u v q hu hv => hs.apart u v q (hold hu) (hold hv), fun u call last new i h => ?_, hs.returned,
    hs.distinct⟩
  · rw [hphase] at h
    split at h
    · exact hpage q h
    · exact hs.stands u q h
  rw [hphase] at h
  split at h
  · rw [h] at hown
    cases hown
  · exact hs.written u call last new i h

omit [DecidableEq τ] in
theorem root_mem (hroot : root ≠ 0) : root ∈ ps :=
  (hs.chain.reach_iff hroot).mp .refl

variable {call : Call} {old page : HeapPage} {slotId : Nat} {last p new : PageId}

omit [DecidableEq τ] in
theorem next_mem (hroot : root ≠ 0) (hp : p ∈ ps)
    (h : s.pages p = some page) (hn : page.nextPage ≠ 0) : page.nextPage ∈ ps :=
  (hs.chain.reach_iff hroot).mp (((hs.chain.reach_iff hroot).mpr hp).tail ⟨page, h, rfl, hn⟩)

theorem alloc (hp : s.phase t = .full call last) (hne : p ≠ 0) (hfree : s.allocated p = false) :
    Chained root { s.setPhase t (.allocated call last p) with
      allocated := update s.allocated p true } ps := by
  have hphase := s.setPhase_phase t (.allocated call last p)
  have hlater {q : PageId} (h : s.allocated q) : update s.allocated p true q := by
    rw [update_apply]
    split <;> simp [h]
  have hfresh : p ∉ ps := fun h => by
    obtain ⟨-, v, hv⟩ := hs.chain.get h
    have := hs.pages p (by simp [hv])
    simp [hfree] at this
  have hother {u : τ} (h : (s.phase u).own = some p) : False := by
    have := (hs.own u p h).2.2
    simp [hfree] at this
  refine ⟨hs.chain, fun q hq => hlater (hs.pages q hq), hs.hints, fun u q h => ?_, fun u q h => ?_,
    fun u v q hu hv => ?_, fun u call' last' new i h => ?_, hs.returned, hs.distinct⟩
  · rw [hphase] at h
    split at h
    · cases h
      exact hs.stands t last (by rw [hp]; rfl)
    · exact hs.stands u q h
  · rw [hphase] at h
    split at h
    · cases h
      exact ⟨hfresh, hne, update_self ..⟩
    · obtain ⟨h1, h2, h3⟩ := hs.own u q h
      exact ⟨h1, h2, hlater h3⟩
  · rw [hphase] at hu hv
    split at hu <;> split at hv
    next hut hvt => exact hut.trans hvt.symm
    next => cases hu; exact (hother hv).elim
    next => cases hv; exact (hother hu).elim
    next => exact hs.apart u v q hu hv
  · rw [hphase] at h
    split at h
    · cases h
    · exact hs.written u call' last' new i h

theorem write (hp : s.phase t = .allocated call last new)
    (h : (HeapPage.new new).insertTuple call.data call.txnId = .ok (slotId, page)) :
    Chained root { s.setPhase t (.written call last new slotId) with
      pages := Function.update s.pages new (some page) } ps := by
  obtain ⟨hnot, hne, halloc⟩ := hs.own t new (by rw [hp]; rfl)
  have hphase := s.setPhase_phase t (.written call last new slotId)
  have hpages {q : PageId} (hq : q ≠ new) : update s.pages new (some page) q = s.pages q :=
    update_of_ne hq ..
  have hmem {q : PageId} (hq : q ∈ ps) : update s.pages new (some page) q = s.pages q :=
    hpages fun h => hnot (h ▸ hq)
  have hold {u : τ} {q : PageId}
      (h : ((s.setPhase t (.written call last new slotId)).phase u).own = some q) :
      (s.phase u).own = some q := by
    rw [hphase] at h
    split at h
    next hut => rw [hut, hp]; exact h
    next => exact h
  have hins := insertTuple_ok h
  refine ⟨hs.chain.congr fun q hq v hv => ⟨v, (hmem hq).trans hv, rfl⟩, fun q hq => ?_, hs.hints,
    fun u q h => ?_, fun u q h => hs.own u q (hold h),
    fun u v q hu hv => hs.apart u v q (hold hu) (hold hv), fun u call' last' new' i h => ?_,
    fun r hr => ?_, hs.distinct⟩
  · by_cases hqn : q = new
    · exact hqn ▸ halloc
    · exact hs.pages q (hpages hqn ▸ hq)
  · rw [hphase] at h
    split at h
    · cases h
      exact hs.stands t last (by rw [hp]; rfl)
    · exact hs.stands u q h
  · rw [hphase] at h
    split at h
    · cases h
      obtain ⟨offset, hslots⟩ := hins.slots
      refine ⟨page, update_self .., hins.nextPage, ⟨offset, ⟨call.txnId, 0, 0, 0⟩, call.data⟩, ?_, rfl⟩
      rw [hslots, hins.slotId]
      simp
    next hut =>
      obtain ⟨page', hpage', hrest⟩ := hs.written u call' last' new' i h
      have hne' : new' ≠ new := fun heq =>
        hut (hs.apart u t new (by rw [h]; exact congrArg some heq) (by rw [hp]; rfl))
      exact ⟨page', (hpages hne').trans hpage', hrest⟩
  · obtain ⟨hmem', page', hpage', hholds⟩ := hs.returned r hr
    exact ⟨hmem', page', (hmem hmem').trans hpage', hholds⟩

/-- A call writes a page of the chain and returns the address of a row that is then on the chain:
on that page, or on the page of its own that has been linked there. -/
theorem finish {ps' : List PageId} {rid : PageId × Nat} {data : Bytes}
    (hp : p ∈ ps) (hold : s.pages p = some old)
    (hchain : IsChain nextPage 0 (update s.pages p (some page)) root ps')
    (hps : ∀ q, q ∈ ps' ↔ q ∈ ps ∨ q = rid.1) (hown : rid.1 ∈ ps ∨ (s.phase t).own = some rid.1)
    (hkept : ∀ (i : Nat) (t : Slot), old.slots[i]? = some (some t) → page.slots[i]? = some (some t))
    (hrow : ∃ page', update s.pages p (some page) rid.1 = some page' ∧
      Holds page' rid.2 data) (hnew : ∀ r ∈ s.returned, r.1 ≠ rid) :
    Chained root (s.finish root t p page rid data) ps' := by
  have hphase (u : τ) : (s.finish root t p page rid data).phase u =
      if u = t then .idle else s.phase u := s.setPhase_phase t .idle u
  have hlater {q : PageId} (hq : q ∈ ps) : q ∈ ps' := (hps q).mpr (.inl hq)
  have hstay {q : PageId} {v : HeapPage} {i : Nat} {d : Bytes} (hv : s.pages q = some v)
      (hd : Holds v i d) : ∃ w, update s.pages p (some page) q = some w ∧ Holds w i d := by
    by_cases hqp : q = p
    · subst hqp
      obtain rfl := Option.some.inj (hold.symm.trans hv)
      obtain ⟨t, ht, hd⟩ := hd
      exact ⟨page, update_self .., t, hkept i t ht, hd⟩
    · exact ⟨v, (update_of_ne hqp ..).trans hv, hd⟩
  refine ⟨hchain, fun q hq => ?_, fun h hh hr => ?_, fun u q h => ?_, fun u q h => ?_,
    fun u v q hu hv => ?_, fun u call last new i h => ?_, fun r hr => ?_, ?_⟩
  · by_cases hqp : q = p
    · exact hs.pages q (by simp [hqp, hold])
    · have hsame : (s.finish root t p page rid data).pages q = s.pages q :=
        update_of_ne hqp ..
      exact hs.pages q (hsame ▸ hq)
  · rcases mem_cons.mp hh with rfl | hh
    · exact (hps _).mpr (.inr rfl)
    · exact hlater (hs.hints h hh hr)
  · rw [hphase] at h
    split at h
    · cases h
    · exact hlater (hs.stands u q h)
  · rw [hphase] at h
    split at h
    · cases h
    next hut =>
      obtain ⟨h1, h2, h3⟩ := hs.own u q h
      refine ⟨fun hmem => ?_, h2, h3⟩
      rcases (hps q).mp hmem with hmem | rfl
      · exact h1 hmem
      · rcases hown with hown | hown
        · exact h1 hown
        · exact hut (hs.apart u t _ h hown)
  · rw [hphase] at hu hv
    split at hu
    · cases hu
    · split at hv
      · cases hv
      · exact hs.apart u v q hu hv
  · rw [hphase] at h
    split at h
    · cases h
    · obtain ⟨v, hv, hn, hd⟩ := hs.written u call last new i h
      have hne : new ≠ p := fun heq => (hs.own u new (by rw [h]; rfl)).1 (heq ▸ hp)
      exact ⟨v, (update_of_ne hne ..).trans hv, hn, hd⟩
  · rcases mem_cons.mp hr with rfl | hr
    · exact ⟨(hps _).mpr (.inr rfl), hrow⟩
    · obtain ⟨hmem, v, hv, hd⟩ := hs.returned r hr
      exact ⟨hlater hmem, hstay hv hd⟩
  · refine nodup_cons.mpr ⟨fun hmem => ?_, hs.distinct⟩
    obtain ⟨r, hr, heq⟩ := mem_map.mp hmem
    exact hnew r hr heq

/-- A row goes to a page of the chain. -/
theorem insert (hp : s.phase t = .found call last)
    (hold : s.pages last = some old) (h : old.insertTuple call.data call.txnId = .ok (slotId, page)) :
    Chained root (s.finish root t last page (last, slotId) call.data) ps := by
  have hmem := hs.stands t last (by rw [hp]; rfl)
  have hins := insertTuple_ok h
  obtain ⟨offset, hslots⟩ := hins.slots
  have hrow : Holds page slotId call.data := by
    refine ⟨⟨offset, ⟨call.txnId, 0, 0, 0⟩, call.data⟩, ?_, rfl⟩
    rw [hslots, hins.slotId]
    simp
  refine hs.finish hmem hold (hs.chain.congr fun q hq v hv => ?_) (fun q => ?_) (.inl hmem)
    (fun i t ht => ?_) ⟨page, update_self .., hrow⟩ fun r hr heq => ?_
  · by_cases hq : q = last
    · subst hq
      obtain rfl := Option.some.inj (hold.symm.trans hv)
      exact ⟨page, update_self .., hins.nextPage⟩
    · exact ⟨v, (update_of_ne hq ..).trans hv, rfl⟩
  · exact ⟨.inl, fun h => h.elim id fun h => h ▸ hmem⟩
  · rw [hslots, getElem?_append_left (List.getElem?_eq_some_iff.mp ht).1]
    exact ht
  · -- the slots returned before are below the new one
    obtain ⟨-, v, hv, u, hu, -⟩ := hs.returned r hr
    rw [heq] at hv hu
    obtain rfl := Option.some.inj (hold.symm.trans hv)
    have := (List.getElem?_eq_some_iff.mp hu).1
    rw [hins.slotId] at this
    exact lt_irrefl _ this

theorem link (hroot : root ≠ 0) {prev : HeapPage}
    (hp : s.phase t = .written call last new slotId) (hprev : s.pages last = some prev)
    (htail : prev.nextPage = 0) :
    Chained root (s.finish root t last (prev.chainSetNextPage new) (new, slotId) call.data)
      (ps ++ [new]) := by
  have hmem := hs.stands t last (by rw [hp]; rfl)
  obtain ⟨hnot, hne, -⟩ := hs.own t new (by rw [hp]; rfl)
  obtain ⟨page, hpage, hnext, hholds⟩ := hs.written t call last new slotId hp
  obtain ⟨qs, q, rfl⟩ := hs.chain.exists_last hroot
  obtain rfl := hs.chain.eq_last hmem hprev htail
  have hnl : new ≠ last := fun h => hnot (h ▸ hmem)
  have hnd := hs.chain.nodup
  refine hs.finish hmem hprev ?_ (fun q => by simp [or_assoc]) (.inr (by rw [hp]; rfl)) (fun i t ht => ht)
    ⟨page, (update_of_ne hnl ..).trans hpage, hholds⟩ fun r hr heq => ?_
  · rw [append_assoc]
    refine hs.chain.link hne (update_self ..) rfl ((update_of_ne hnl ..).trans hpage)
      hnext fun a ha v hv => ⟨v, (update_of_ne (fun h => ?_) ..).trans hv, rfl⟩
    subst h
    rw [nodup_append] at hnd
    exact hnd.2.2 a ha a (by simp) rfl
  · have hpage : r.1.1 = new := congrArg Prod.fst heq
    exact hnot (hpage ▸ (hs.returned r hr).1)

end

end Chained

variable {root}

theorem chained_step (hroot : root ≠ 0) {s s' : State τ} {ps : List PageId} {e : Event τ}
    (hs : Chained root s ps) (hok : LinksTail s e) (h : step root s e = some s') :
    ∃ ps', Chained root s' ps' := by
  cases e <;> simp only [step] at h
  case start t call hint =>
    split at h
    next hp =>
      cases hint with
      | none =>
        cases h
        refine ⟨ps, hs.setPhase (fun q hq => ?_) rfl⟩
        cases hq
        exact hs.root_mem hroot
      | some hint =>
        dsimp only at h
        split at h <;> cases h
        next hmem =>
          refine ⟨ps, hs.setPhase (fun q hq => ?_) ?_⟩
          · split at hq <;> cases hq
            next hr => exact hs.hints hint hmem hr
            next => exact hs.root_mem hroot
          · split <;> rfl
    next => cases h
  case check t =>
    split at h <;> cases h
    next call tail hp =>
      refine ⟨ps, hs.setPhase (fun q hq => ?_) ?_⟩
      · split at hq <;> cases hq
        · exact hs.stands t tail (by rw [hp]; rfl)
        · exact hs.root_mem hroot
      · split <;> rfl
  case walk t =>
    split at h
    next call current hp =>
      have hmem := hs.stands t current (by rw [hp]; rfl)
      split at h
      next page hpage =>
        cases h
        refine ⟨ps, hs.setPhase (fun q hq => ?_) ?_⟩
        · split at hq <;> cases hq
          next => exact hmem
          next hn => exact hs.next_mem hroot hmem hpage hn
        · split <;> rfl
      next =>
        cases h
        exact ⟨ps, hs.setPhase (fun q hq => by cases hq) rfl⟩
    next => cases h
  case insert t =>
    split at h
    next call last hp =>
      split at h
      next page hpage =>
        split at h
        next slotId page' hins =>
          cases h
          exact ⟨ps, hs.insert hp hpage hins⟩
        next =>
          cases h
          refine ⟨ps, hs.setPhase (fun q hq => ?_) rfl⟩
          cases hq
          exact hs.stands t last (by rw [hp]; rfl)
      next =>
        cases h
        exact ⟨ps, hs.setPhase (fun q hq => by cases hq) rfl⟩
    next => cases h
  case alloc t p =>
    split at h
    next call last hp =>
      split at h
      next => cases h
      next hfree =>
        cases h
        rw [not_or, Bool.not_eq_true] at hfree
        exact ⟨ps, hs.alloc hp hfree.1 hfree.2⟩
    next => cases h
  case write t =>
    split at h
    next call last new hp =>
      split at h
      next slotId page hins =>
        cases h
        exact ⟨ps, hs.write hp hins⟩
      next =>
        cases h
        exact ⟨ps, hs.setPhase (fun q hq => by cases hq) rfl⟩
    next => cases h
  case link t =>
    split at h
    next call last new slotId hp =>
      split at h
      next prev hprev =>
        cases h
        have htail : prev.nextPage = 0 := by
          simpa [LinksTail, linksTail, hp, hprev, chainNextPage] using hok
        exact ⟨ps ++ [new], hs.link hroot hp hprev htail⟩
      next =>
        cases h
        exact ⟨ps, hs.setPhase (fun q hq => by cases hq) rfl⟩
    next => cases h

/-! ## The rows returned -/

/-- The threads at the start, on the pages of a chain. -/
def opened (pages : Heap HeapPage) : State τ :=
  ⟨pages, fun p => (pages p).isSome, [], fun _ => .idle, []⟩

/-- Where every new page is linked to a page that is still the last one, the addresses returned are
different, on pages that can be reached from the root, and `read_row` finds the rows there. -/
theorem appends_lose_no_row {pages : Heap HeapPage} {ps : List PageId} (hroot : root ≠ 0)
    (hchain : IsChain HeapPage.nextPage 0 pages root ps) {s : State τ}
    (h : Reached (step root) LinksTail (opened pages) s) : (s.returned.map Prod.fst).Nodup ∧
      ∀ r ∈ s.returned, Reach HeapPage.nextPage 0 s.pages root r.1.1 ∧
        ∃ page header, s.pages r.1.1 = some page ∧ page.readTuple r.1.2 = .ok (some (header, r.2)) := by
  have hinit : Chained root (opened pages : State τ) ps := by
    refine ⟨hchain, fun p hp => Option.isSome_iff_ne_none.mpr hp, ?_, ?_, ?_, ?_, ?_, ?_, .nil⟩
    all_goals simp [opened, Phase.page, Phase.own]
  obtain ⟨ps', hs⟩ := h.invariant (I := fun s => ∃ ps, Chained root s ps) ⟨ps, hinit⟩
    fun hs hok hstep => by
      obtain ⟨ps, hs⟩ := hs
      exact chained_step hroot hs hok hstep
  refine ⟨hs.distinct, fun r hr => ?_⟩
  obtain ⟨hmem, page, hpage, t, ht, hdata⟩ := hs.returned r hr
  refine ⟨(hs.chain.reach_iff hroot).mpr hmem, page, t.header, hpage, ?_⟩
  simp only [readTuple, ht, Option.map_some, Slot.image, hdata]

/-- A page that is full: the one row it had is dead. -/
def fullPage : HeapPage where
  pageId := 2
  allVisible := false
  nextPage := 0
  zoneMap := none
  slots := [none]
  freeEnd := 72
  layout := ⟨by decide, by decide, by simp, by simp⟩

/-- Two threads append to a full page rows of which a page holds one: the second call walks on from
the page that the first has linked, and links its own page to that one. -/
theorem appends_lose_no_row_two :
    ∃ s, Reached (step 2) LinksTail
        (opened (Function.update (fun _ => none) 2 (some fullPage)) : State (Fin 2)) s ∧
      s.returned.map Prod.fst = [(4, 0), (3, 0)] ∧
      ∀ r ∈ s.returned, Reach HeapPage.nextPage 0 s.pages 2 r.1.1 := by
  have hchain : IsChain nextPage 0 (update (fun _ => none) 2 (some fullPage)) 2 [2] :=
    ⟨rfl, by decide, fullPage, rfl, rfl⟩
  have hex : ∃ s, Reached (step 2) LinksTail (opened (update (fun _ => none) 2 (some fullPage)) :
      State (Fin 2)) s ∧ (s.returned.map Prod.fst == [(4, 0), (3, 0)]) = true :=
    Reached.exists_of_run (l := [.start 0 ⟨replicate 8200 7, 1⟩ none,
      .start 1 ⟨replicate 8200 8, 2⟩ none, .walk 0, .insert 0, .alloc 0 3, .write 0, .link 0,
      .walk 1, .walk 1, .insert 1, .alloc 1 4, .write 1, .link 1]) (by decide +kernel)
  obtain ⟨s, hreach, hp⟩ := hex
  exact ⟨s, hreach, by simpa using hp, fun r hr =>
    ((appends_lose_no_row (by decide) hchain hreach).2 r hr).1⟩

/-- Two threads find the same full page, and each links its own page to it: the row that the first
call has returned is on a page that no link leads to. -/
theorem append_loses_row : ∃ s, Reached (step 2) free
        (opened (Function.update (fun _ => none) 2 (some fullPage)) : State (Fin 2)) s ∧
      (∀ t, s.phase t = .idle) ∧ ((3, 0), [7]) ∈ s.returned ∧
      ¬Reach HeapPage.nextPage 0 s.pages 2 3 := by
  have hreach : Reached (step 2) free
      (opened (update (fun _ => none) 2 (some fullPage)) : State (Fin 2)) _ :=
    .of_run (l := [.start 0 ⟨[7], 1⟩ none, .start 1 ⟨[8], 2⟩ none, .walk 0, .walk 1, .insert 0,
      .insert 1, .alloc 0 3, .alloc 1 4, .write 0, .write 1, .link 0, .link 1]) .init rfl
  refine ⟨_, hreach, fun t => ?_, mem_cons_of_mem _ mem_cons_self, fun h => ?_⟩
  · fin_cases t <;> rfl
  -- the chain is now the pages 2 and 4
  refine absurd ((IsChain.reach_iff (?_ : IsChain nextPage 0 _ 2 [2, 4])
    (by decide)).mp h) (by decide)
  exact ⟨rfl, by decide, _, rfl, rfl, by decide, _, rfl, rfl⟩

end AxiomDb.Heap.Appenders
