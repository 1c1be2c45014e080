import AxiomDb.Lib.Runs
import AxiomDb.Storage.BufferPool

/-!
# Reads through the buffer pool

`read_page` looks a page up in the pool; on a miss it copies the page from the file
and then inserts the copy. `write_page` holds the page's latch while it writes the
file and then invalidates the page in the pool. Readers take no latch, so that a copy
made before a write can be inserted after the write has invalidated the page
(`stale_copy_inserted`). Where no reader holds a copy of a page when the page is
written, the pool has what the file has once all calls have returned
(`cache_coherent`).
-/

namespace AxiomDb.Storage.PageCache

open Lib Function

variable {τ P : Type}

/-- Where a thread is in its call. -/
inductive Call (P : Type) where
  | idle
  /-- `read_page`, after a miss -/
  | missed (pageId : PageId)
  /-- `read_page`, with the copy from the file -/
  | copied (pageId : PageId) (page : P)
  /-- `write_page`, with the latch -/
  | latched (pageId : PageId) (page : P)
  /-- `write_page`, after the write to the file -/
  | written (pageId : PageId)
  /-- `write_page`, after the invalidation -/
  | invalidated (pageId : PageId)
  deriving DecidableEq

/-- The page of which a reader holds a copy. -/
def Call.copyOf : Call P → Option PageId
  | .copied pageId _ => some pageId
  | _ => none

/-- The page that a writer is about to write. -/
def Call.target : Call P → Option PageId
  | .latched pageId _ => some pageId
  | _ => none

structure State (τ P : Type) where
  file : PageId → P
  pool : BufferPool P
  latch : PageId → Option τ
  call : τ → Call P

inductive Event (τ P : Type) where
  | lookup (t : τ) (pageId : PageId)
  | copy (t : τ)
  /-- `pinned` are the pages that a reader still holds. -/
  | insert (t : τ) (pinned : PageId → Bool)
  | latch (t : τ) (pageId : PageId) (page : P)
  | pwrite (t : τ)
  /-- The write to the file fails, and the call returns. -/
  | pwriteFails (t : τ)
  | invalidate (t : τ)
  | unlatch (t : τ)
  /-- The invalidation of a page that is allocated or freed. -/
  | invalidateCached (pageId : PageId)

section Step

variable [DecidableEq τ]

def State.setCall (s : State τ P) (t : τ) (c : Call P) : State τ P :=
  { s with call := update s.call t c }

theorem State.setCall_call (s : State τ P) (t t' : τ) (c : Call P) :
    (s.setCall t c).call t' = if t' = t then c else s.call t' := update_apply ..

/-- `MmapStorage::write_page_inner` and `MmapStorage::invalidate_cached` in `mmap.rs`. -/
def step (s : State τ P) : Event τ P → Option (State τ P)
  | .lookup t pageId => match s.call t with
    | .idle =>
      let (hit, pool) := s.pool.get pageId
      match hit with
      | some _ => some { s with pool }
      | none => some ({ s with pool }.setCall t (.missed pageId))
    | _ => none
  | .copy t => match s.call t with
    | .missed pageId => some (s.setCall t (.copied pageId (s.file pageId)))
    | _ => none
  | .insert t pinned => match s.call t with
    | .copied pageId page =>
      some ({ s with pool := s.pool.insert pinned pageId page }.setCall t .idle)
    | _ => none
  | .latch t pageId page => match s.call t, s.latch pageId with
    | .idle, none =>
      some ({ s with latch := update s.latch pageId (some t) }.setCall t (.latched pageId page))
    | _, _ => none
  | .pwrite t => match s.call t with
    | .latched pageId page =>
      some ({ s with file := update s.file pageId page }.setCall t (.written pageId))
    | _ => none
  | .pwriteFails t => match s.call t with
    | .latched pageId _ => some ({ s with latch := update s.latch pageId none }.setCall t .idle)
    | _ => none
  | .invalidate t => match s.call t with
    | .written pageId =>
      some ({ s with pool := s.pool.invalidate pageId }.setCall t (.invalidated pageId))
    | _ => none
  | .unlatch t => match s.call t with
    | .invalidated pageId => some ({ s with latch := update s.latch pageId none }.setCall t .idle)
    | _ => none
  | .invalidateCached pageId => some { s with pool := s.pool.invalidate pageId }

end Step

/-- No reader holds a copy of a page that is written. -/
def NoCopies (s : State τ P) : Event τ P → Prop
  | .pwrite t => ∀ t', ∀ pageId ∈ (s.call t).target, (s.call t').copyOf ≠ some pageId
  | _ => True

instance [Fintype τ] (s : State τ P) (e : Event τ P) : Decidable (NoCopies s e) :=
  match e with
  | .pwrite t => inferInstanceAs (Decidable (∀ _, ∀ pageId ∈ (s.call t).target, _))
  | .lookup .. | .copy _ | .insert .. | .latch .. | .pwriteFails _ | .invalidate _ | .unlatch _
  | .invalidateCached _ => isTrue trivial

/-- What a read returns that no other call interrupts. -/
def State.readPage (s : State τ P) (pageId : PageId) : P :=
  (s.pool.get pageId).1.getD (s.file pageId)

/-- A file that has been opened, with an empty pool. -/
def opened (file : PageId → P) (totalPages : Nat) : State τ P where
  file := file
  pool := .withCapacity totalPages
  latch _ := none
  call _ := .idle

/-- The pool has what the file has, unless the page is about to be invalidated, and so
have the copies that readers hold. -/
structure Coherent (s : State τ P) : Prop where
  pool : ∀ pageId page, s.pool.lookup pageId = some page →
    page = s.file pageId ∨ ∃ t, s.call t = .written pageId
  copies : ∀ t pageId page, s.call t = .copied pageId page → page = s.file pageId

theorem coherent_opened (file : PageId → P) (totalPages : Nat) :
    Coherent (opened file totalPages : State τ P) where
  pool pageId page h := by cases h
  copies t pageId page h := by cases h

/-- Pages are dropped from the pool, or put into it as the file has them. -/
theorem Coherent.setPool {s : State τ P} (h : Coherent s) {pool : BufferPool P}
    (hp : ∀ p page, pool.lookup p = some page → s.pool.lookup p = some page ∨ page = s.file p) :
    Coherent { s with pool } where
  pool pageId page hpage := (hp pageId page hpage).elim (h.pool pageId page) .inl
  copies := h.copies

theorem Coherent.invalidateCached {s : State τ P} (h : Coherent s) (pageId : PageId) :
    Coherent { s with pool := s.pool.invalidate pageId } := by
  refine h.setPool fun p page hp => .inl ?_
  rw [BufferPool.lookup_invalidate] at hp
  split at hp
  · cases hp
  · exact hp

theorem Coherent.latch {s : State τ P} (h : Coherent s) (latch : PageId → Option τ) :
    Coherent { s with latch } := ⟨h.pool, h.copies⟩

section Steps

variable [DecidableEq τ] {s s' : State τ P} {e : Event τ P}

section

variable (h : Coherent s) {t : τ}
include h

/-- A thread that is not about to invalidate goes on, with no copy or one of the file. -/
theorem Coherent.setCall {c : Call P} (ht : ∀ p, s.call t ≠ .written p)
    (hc : ∀ p page, c = .copied p page → page = s.file p) : Coherent (s.setCall t c) where
  pool pageId page hp := by
    refine (h.pool pageId page hp).imp id ?_
    rintro ⟨t', ht'⟩
    refine ⟨t', ?_⟩
    rw [State.setCall_call, if_neg, ht']
    rintro rfl
    exact ht pageId ht'
  copies t' pageId page hp := by
    rw [State.setCall_call] at hp
    split at hp
    · exact hc pageId page hp
    · exact h.copies t' pageId page hp

/-- A thread goes on to a place where it holds no copy. -/
theorem Coherent.goOn {c0 c : Call P} (ht : s.call t = c0)
    (h0 : ∀ p, c0 ≠ .written p) (hc : c.copyOf = none) : Coherent (s.setCall t c) := by
  refine h.setCall (fun p hp => h0 p (ht.symm.trans hp)) fun p page hp => ?_
  rw [hp] at hc
  cases hc

/-- The write of a page of which no reader holds a copy. -/
theorem Coherent.pwrite {pageId : PageId} {page : P}
    (ht : s.call t = .latched pageId page) (hno : ∀ t', (s.call t').copyOf ≠ some pageId) :
    Coherent ({ s with file := update s.file pageId page }.setCall t (.written pageId)) where
  pool p page' hp := by
    by_cases hpid : p = pageId
    · subst hpid
      exact .inr ⟨t, by rw [State.setCall_call, if_pos rfl]⟩
    refine (h.pool p page' hp).imp (fun heq => ?_) ?_
    · exact heq.trans (update_of_ne hpid _ _).symm
    rintro ⟨t', ht'⟩
    refine ⟨t', ?_⟩
    rw [State.setCall_call, if_neg]
    · exact ht'
    · rintro rfl
      rw [ht] at ht'
      cases ht'
  copies t' p page' hp := by
    rw [State.setCall_call] at hp
    split at hp
    · cases hp
    have hne : p ≠ pageId := by
      rintro rfl
      exact hno t' (congrArg Call.copyOf hp)
    exact (h.copies t' p page' hp).trans (update_of_ne hne _ _).symm

/-- The invalidation of a page that has been written. -/
theorem Coherent.invalidate {pageId : PageId} (ht : s.call t = .written pageId) :
    Coherent ({ s with pool := s.pool.invalidate pageId }.setCall t (.invalidated pageId)) where
  pool p page hp := by
    have hp' : (s.pool.invalidate pageId).lookup p = some page := hp
    rw [BufferPool.lookup_invalidate] at hp'
    split at hp'
    · cases hp'
    rename_i hne
    refine (h.pool p page hp').imp id ?_
    rintro ⟨t', ht'⟩
    refine ⟨t', ?_⟩
    rw [State.setCall_call, if_neg]
    · exact ht'
    · rintro rfl
      rw [ht] at ht'
      exact hne (Call.written.inj ht').symm
  copies t' p page hp := by
    rw [State.setCall_call] at hp
    split at hp
    · cases hp
    · exact h.copies t' p page hp

end

theorem step_coherent (h : Coherent s) (hok : NoCopies s e) (hs : step s e = some s') : Coherent s' := by
  cases e <;> rw [step] at hs
  case lookup t pageId =>
    split at hs
    next ht =>
      have hget : Coherent { s with pool := (s.pool.get pageId).2 } := by
        refine h.setPool fun p page hp => .inl ?_
        rwa [BufferPool.lookup_get] at hp
      dsimp only at hs
      split at hs
      · cases hs
        exact hget
      · cases hs
        exact hget.goOn ht (by simp) rfl
    · cases hs
  case copy t =>
    split at hs <;> cases hs
    next pageId ht =>
      refine h.setCall (fun p hp => ?_) fun p page hp => ?_
      · rw [hp] at ht
        cases ht
      · cases hp
        rfl
  case insert t pinned =>
    split at hs <;> cases hs
    next pageId page ht =>
      have hins : Coherent { s with pool := s.pool.insert pinned pageId page } := by
        refine h.setPool fun p page' hp => ?_
        by_cases hpid : p = pageId
        · subst hpid
          rw [BufferPool.lookup_insert_self] at hp
          cases hp
          exact .inr (h.copies t p page ht)
        · rcases BufferPool.lookup_insert_of_ne pinned page hpid with heq | heq
          · exact .inl (heq.symm.trans hp)
          · rw [heq] at hp
            cases hp
      exact hins.goOn ht (by simp) rfl
  case latch t pageId page =>
    split at hs <;> cases hs
    next ht _ => exact (h.latch _).goOn ht (by simp) rfl
  case pwrite t =>
    split at hs <;> cases hs
    next pageId page ht =>
      refine h.pwrite ht fun t' => ?_
      have hno : ∀ t', ∀ p ∈ (s.call t).target, (s.call t').copyOf ≠ some p := hok
      exact hno t' pageId (by rw [ht]; rfl)
  case pwriteFails t =>
    split at hs <;> cases hs
    next pageId page ht => exact (h.latch _).goOn ht (by simp) rfl
  case invalidate t =>
    split at hs <;> cases hs
    next pageId ht => exact h.invalidate ht
  case unlatch t =>
    split at hs <;> cases hs
    next pageId ht => exact (h.latch _).goOn ht (by simp) rfl
  case invalidateCached pageId =>
    cases hs
    exact h.invalidateCached pageId

/-- Once all calls have returned, a read gives the page as it was last written to the file,
if no page is written while a reader holds a copy of it. -/
theorem cache_coherent {file : PageId → P} {totalPages : Nat}
    (h : Reached step NoCopies (opened file totalPages) s) (hidle : ∀ t, s.call t = .idle)
    (pageId : PageId) : s.readPage pageId = s.file pageId := by
  have hinv : Coherent s := h.invariant (coherent_opened file totalPages) step_coherent
  rw [State.readPage, BufferPool.get_fst]
  cases hp : s.pool.lookup pageId with
  | none => rfl
  | some page =>
    rcases hinv.pool pageId page hp with heq | ⟨t, ht⟩
    · exact heq
    · rw [hidle t] at ht
      cases ht

end Steps

/-- A reader inserts its copy before the page is written, and one copies the page again
before the writer returns. -/
theorem cache_coherent_copied_again :
    ∃ s : State Bool Nat, Reached step NoCopies (opened (fun _ => 5) 32) s ∧ s.file 3 = 7 ∧
      s.readPage 3 = s.file 3 := by
  obtain ⟨s, hreach, hs⟩ := @Reached.exists_of_run _ _ step NoCopies (opened (fun _ => 5) 32 : State Bool Nat) _
    ([.lookup true 3, .copy true, .latch false 3 7, .insert true fun _ => false, .pwrite false,
      .invalidate false, .lookup true 3, .copy true, .unlatch false, .insert true fun _ => false])
    (fun s => decide ((∀ t, s.call t = .idle) ∧ s.file 3 = 7)) (by decide +kernel)
  obtain ⟨hidle, hfile⟩ := of_decide_eq_true hs
  exact ⟨s, hreach, hfile, cache_coherent hreach hidle 3⟩

/-- A reader copies a page, the page is written and invalidated, and the reader inserts its
copy: all calls have returned, and reads give the old page. -/
theorem stale_copy_inserted :
    ∃ s : State Bool Nat, Reached step free (opened (fun _ => 5) 32) s ∧ (∀ t, s.call t = .idle) ∧
      s.file 3 = 7 ∧ s.readPage 3 = 5 := by
  obtain ⟨s, hreach, hs⟩ := @Reached.exists_of_run _ _ step free (opened (fun _ => 5) 32 : State Bool Nat) _
    ([.lookup true 3, .copy true, .latch false 3 7, .pwrite false, .invalidate false,
      .unlatch false, .insert true fun _ => false])
    (fun s => decide ((∀ t, s.call t = .idle) ∧ s.file 3 = 7 ∧ s.readPage 3 = 5))
    (by decide +kernel)
  exact ⟨s, hreach, of_decide_eq_true hs⟩

end AxiomDb.Storage.PageCache
