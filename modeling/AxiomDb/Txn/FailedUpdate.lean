import AxiomDb.Txn.InPlaceUpdate

/-!
# Updates in place that fail

An UPDATE in place writes the pages of its rows one after another and records what it has
overwritten in one batch after the last, whose result it ignores. If it fails where it has written
a page, the rollback knows nothing of that page; if the batch fails, the statement succeeds and
cannot be rolled back. A failed statement can be rolled back exactly if it fails at the first page
with a row to change, or in the maintenance of the indexes after the batch was recorded
(`failed_update_undone`).
-/

namespace AxiomDb.Txn.FailedUpdate

open Lib Heap Function List

/-- The tuples of the slots, none for a dead slot. -/
abbrev Page := Nat → Option TupleImage

/-- `UndoOp::UndoUpdateInPlace`, with the image to put back. -/
abbrev UndoOp := PageId × Nat × TupleImage

/-- The heap and what the transaction has recorded. -/
structure Conn where
  pages : PageId → Page
  undoOps : List UndoOp

variable {ε : Type}

/-- What fails: a page that is read or written, the append of the batch, and the maintenance of
the indexes (a key that a UNIQUE index has, an expression of an index that is no longer one). -/
structure Faults (ε : Type) where
  read : PageId → Option ε
  write : PageId → Option ε
  append : Option ε
  indexes : Option ε

/-- What the data of a row become, if the row is changed. -/
abbrev Patch (ε : Type) := PageId → Nat → TupleImage → Except ε (Option Bytes)

/-- The rows by page, as in `page_groups`. -/
abbrev PageGroups := List (PageId × List Nat)

/-- The creator is kept and the version raised. -/
def patched (h : RowHeader) : RowHeader :=
  { h with txnIdDeleted := 0, rowVersion := (h.rowVersion + 1) % 2 ^ 32 }

inductive Update (ε : Type) where
  /-- `fused_index_range_patch`: the assignments are evaluated as the rows are patched; without
  a result they change no value. -/
  | fused (groups : PageGroups) (visible : RowHeader → Bool)
      (assign : Bytes → Except ε (Option Bytes))
  /-- The in-place branch of `execute_update_with_candidates`: they have been evaluated before. -/
  | candidates (values : Except ε (PageGroups × (PageId → Nat → Bytes → Bytes)))

/-- The groups of rows and what becomes of a row. -/
def Update.prepare : Update ε → Except ε (PageGroups × Patch ε)
  | fused groups visible assign =>
    .ok (groups, fun _ _ image => if visible image.1 then assign image.2 else .ok none)
  | candidates values => values.map fun r =>
      (r.1, fun pageId slotId image => .ok (some (r.2 pageId slotId image.2)))

/-- The error of `apply_update_index_maintenance`, which the fused path does not call: no column of
an index is assigned there. -/
def Update.indexError (f : Faults ε) : Update ε → Option ε
  | fused .. => none
  | candidates _ => f.indexes

/-- The slots of one page: the page, and the old images of what was changed. -/
def patchPage (patch : Nat → TupleImage → Except ε (Option Bytes)) :
    List Nat → Page → Except ε (Page × List (Nat × TupleImage))
  | [], page => .ok (page, [])
  | slotId :: slots, page =>
    match page slotId with
    | none => patchPage patch slots page
    | some old =>
      match patch slotId old with
      | .error e => .error e
      | .ok none => patchPage patch slots page
      | .ok (some data) =>
        (patchPage patch slots (update page slotId (some (patched old.1, data)))).map
          fun r => (r.1, (slotId, old) :: r.2)

/-- One page is read, patched and written, if a row of it is changed. -/
def visitPage (f : Faults ε) (patch : Patch ε) (pageId : PageId) (slots : List Nat) (page : Page) :
    Except ε (Option (Page × List (Nat × TupleImage))) :=
  match f.read pageId with
  | some e => .error e
  | none =>
    match patchPage (patch pageId) slots page with
    | .error e => .error e
    | .ok (page, images) =>
      if images = [] then .ok none
      else match f.write pageId with
        | some e => .error e
        | none => .ok (some (page, images))

/-- The loop over the pages: the heap, and the images for the batch. -/
def patchPages (f : Faults ε) (patch : Patch ε) :
    PageGroups → (PageId → Page) → (PageId → Page) × Except ε (List UndoOp)
  | [], pages => (pages, .ok [])
  | (pageId, slots) :: groups, pages =>
    match visitPage f patch pageId slots (pages pageId) with
    | .error e => (pages, .error e)
    | .ok none => patchPages f patch groups pages
    | .ok (some (page, images)) =>
      let r := patchPages f patch groups (update pages pageId page)
      (r.1, r.2.map (images.map (pageId, ·) ++ ·))

section

variable (f : Faults ε) (u : Update ε)

/-- The statement. The result of `record_update_in_place_batch` is ignored, that of the maintenance
of the indexes after it is not. -/
def Update.run (s : Conn) : Conn × Except ε Unit :=
  match u.prepare with
  | .error e => (s, .error e)
  | .ok (groups, patch) =>
    match patchPages f patch groups s.pages with
    | (pages, .error e) => ({ s with pages }, .error e)
    | (pages, .ok images) =>
      let undoOps := if f.append.isSome then s.undoOps else s.undoOps ++ images
      match u.indexError f with
      | some e => (⟨pages, undoOps⟩, .error e)
      | none => (⟨pages, undoOps⟩, .ok ())

/-- The images are put back into their slots. -/
def restore (pages : PageId → Page) : List UndoOp → PageId → Page
  | [] => pages
  | (pageId, slotId, image) :: ops =>
    restore (update pages pageId (update (pages pageId) slotId (some image))) ops

/-- The operations after the savepoint are undone, the last first; `rollback` undoes all. -/
def Conn.rollbackToSavepoint (s : Conn) (undoLen : Nat) : Conn :=
  ⟨restore s.pages (s.undoOps.drop undoLen).reverse, s.undoOps.take undoLen⟩

/-- The statement returns an error, and a rollback to before it finds the heap as it was. -/
def Update.Undone (s : Conn) : Prop :=
  (∃ e, (u.run f s).2 = .error e) ∧
    ((u.run f s).1.rollbackToSavepoint s.undoOps.length).pages = s.pages

/-- The first page with a row to change is one at which the loop fails. -/
def failsFirst (f : Faults ε) (patch : Patch ε) (pages : PageId → Page) : PageGroups → Bool
  | [] => false
  | (pageId, slots) :: groups =>
    match visitPage f patch pageId slots (pages pageId) with
    | .error _ => true
    | .ok none => failsFirst f patch pages groups
    | .ok (some _) => false

/-- The statement fails before a page is changed. -/
def Update.failsFirst (pages : PageId → Page) : Bool :=
  match u.prepare with
  | .error _ => true
  | .ok (groups, patch) => FailedUpdate.failsFirst f patch pages groups

/-- All pages are written, and the statement fails at the indexes: after the batch was recorded, or
where it had nothing to record. -/
def Update.failsLast (pages : PageId → Page) : Bool :=
  match u.prepare with
  | .error _ => false
  | .ok (groups, patch) =>
    match (patchPages f patch groups pages).2 with
    | .error _ => false
    | .ok images => (u.indexError f).isSome && (f.append.isNone || images.isEmpty)

end

/-- Each row is found once. -/
def Update.Distinct (u : Update ε) : Prop :=
  ∀ r, u.prepare = .ok r → (r.1.map Prod.fst).Nodup ∧ ∀ g ∈ r.1, g.2.Nodup

/-! ## What is written -/

variable {f : Faults ε} {patch : Patch ε} {groups : PageGroups} {pages : PageId → Page}
  {slots : List Nat} {pageId : PageId}

theorem patched_ne (h : RowHeader) : patched h ≠ h := by
  intro heq
  have hv : (h.rowVersion + 1) % 2 ^ 32 = h.rowVersion := congrArg RowHeader.rowVersion heq
  omega

/-- A page of which a row is patched is not what it was; other slots are. -/
theorem patchPage_spec {patch : Nat → TupleImage → Except ε (Option Bytes)}
    (hnd : slots.Nodup) {page page' : Page} {images : List (Nat × TupleImage)}
    (h : patchPage patch slots page = .ok (page', images)) :
    (∀ slotId ∉ slots, page' slotId = page slotId) ∧ (images ≠ [] → page' ≠ page) := by
  induction slots generalizing page page' images with
  | nil =>
    cases h
    exact ⟨fun _ _ => rfl, fun h => absurd rfl h⟩
  | cons slotId slots ih =>
    obtain ⟨hnot, hnd⟩ := nodup_cons.mp hnd
    have hskip (h : patchPage patch slots page = .ok (page', images)) :
        (∀ i ∉ slotId :: slots, page' i = page i) ∧ (images ≠ [] → page' ≠ page) :=
      ⟨fun i hi => (ih hnd h).1 i fun hm => hi (mem_cons_of_mem _ hm), (ih hnd h).2⟩
    rw [patchPage] at h
    split at h
    next => exact hskip h
    next old hold =>
      split at h
      next => cases h
      next => exact hskip h
      next data _ =>
        cases hr : patchPage patch slots (update page slotId (some (patched old.1, data))) with
        | error e => rw [hr] at h; cases h
        | ok r =>
          rw [hr] at h
          cases h
          have hrest := (ih hnd hr).1
          refine ⟨fun i hi => ?_, fun _ heq => ?_⟩
          · rw [mem_cons, not_or] at hi
            rw [hrest i hi.2, update_of_ne hi.1]
          · have hslot := hrest slotId hnot
            rw [heq, hold, update_self] at hslot
            exact patched_ne _ (congrArg Prod.fst (Option.some.inj hslot)).symm

/-- A page that is written is not what it was. -/
theorem visitPage_ne (hnd : slots.Nodup) {page : Page}
    {r : Page × List (Nat × TupleImage)}
    (h : visitPage f patch pageId slots page = .ok (some r)) : r.1 ≠ page := by
  rw [visitPage] at h
  split at h
  · cases h
  split at h
  next => cases h
  next hp =>
    split at h
    next => cases h
    next hi =>
      split at h
      next => cases h
      next => cases h; exact (patchPage_spec hnd hp).2 hi

/-- Pages of other groups stay as they are. -/
theorem patchPages_other (h : pageId ∉ groups.map Prod.fst) :
    (patchPages f patch groups pages).1 pageId = pages pageId := by
  induction groups generalizing pages with
  | nil => rfl
  | cons g groups ih =>
    rw [map_cons, mem_cons, not_or] at h
    rw [patchPages]
    split
    · rfl
    · exact ih h.2
    · rw [ih h.2, update_of_ne h.1]

/-- A loop that has come to its end and has written nothing has no images. -/
theorem images_of_patchPages (hnd : (groups.map Prod.fst).Nodup) (hslots : ∀ g ∈ groups, g.2.Nodup)
    {images : List UndoOp} (h : patchPages f patch groups pages = (pages, .ok images)) :
    images = [] := by
  induction groups generalizing images with
  | nil =>
    cases h
    rfl
  | cons g groups ih =>
    obtain ⟨hnot, hnd⟩ := nodup_cons.mp hnd
    rw [patchPages] at h
    split at h
    next => cases h
    next => exact ih hnd (fun g hg => hslots g (mem_cons_of_mem _ hg)) h
    next hv =>
      have hpage := congrFun (congrArg Prod.fst h) g.1
      rw [patchPages_other hnot, Function.update_self] at hpage
      exact absurd hpage (visitPage_ne (hslots g mem_cons_self) hv)

/-! ## What is restored -/

theorem restore_append (pages : PageId → Page) (ops ops' : List UndoOp) :
    restore pages (ops ++ ops') = restore (restore pages ops) ops' := by
  induction ops generalizing pages with
  | nil => rfl
  | cons op ops ih => exact ih _

theorem restore_patchPage {patch : Nat → TupleImage → Except ε (Option Bytes)} {page page' : Page}
    {images : List (Nat × TupleImage)} (h : patchPage patch slots page = .ok (page', images)) :
    restore (update pages pageId page') (images.map (pageId, ·)).reverse = update pages pageId page := by
  induction slots generalizing page page' images with
  | nil =>
    cases h
    rfl
  | cons slotId slots ih =>
    rw [patchPage] at h
    split at h
    next => exact ih h
    next old hold =>
      split at h
      next => cases h
      next => exact ih h
      next data _ =>
        cases hr : patchPage patch slots (update page slotId (some (patched old.1, data))) with
        | error e => rw [hr] at h; cases h
        | ok r =>
          rw [hr] at h
          cases h
          rw [map_cons, reverse_cons, restore_append, ih hr]
          simp [restore, ← hold]

/-- A page that is written is restored from its images. -/
theorem restore_visitPage {r : Page × List (Nat × TupleImage)}
    (h : visitPage f patch pageId slots (pages pageId) = .ok (some r)) :
    restore (update pages pageId r.1) (r.2.map (pageId, ·)).reverse = pages := by
  rw [visitPage] at h
  split at h
  · cases h
  split at h
  next => cases h
  next hp =>
    split at h
    next => cases h
    next =>
      split at h
      next => cases h
      next =>
        cases h
        rw [restore_patchPage hp, update_eq_self]

/-- The images of a loop that has come to its end restore the heap. -/
theorem restore_patchPages {pages' : PageId → Page} {images : List UndoOp}
    (h : patchPages f patch groups pages = (pages', .ok images)) :
    restore pages' images.reverse = pages := by
  induction groups generalizing pages pages' images with
  | nil =>
    cases h
    rfl
  | cons g groups ih =>
    rw [patchPages] at h
    split at h
    next => cases h
    next => exact ih h
    next page images' hv =>
      cases hr : patchPages f patch groups (update pages g.1 page) with
      | mk pages'' result =>
        rw [hr] at h
        cases result with
        | error => cases h
        | ok images'' =>
          cases h
          rw [reverse_append, restore_append, ih hr]
          exact restore_visitPage hv

/-- A loop that fails first has written nothing. -/
theorem patchPages_of_failsFirst (h : failsFirst f patch pages groups) :
    ∃ e, patchPages f patch groups pages = (pages, .error e) := by
  induction groups with
  | nil => cases h
  | cons g groups ih =>
    rw [failsFirst] at h
    rw [patchPages]
    split at h
    next e hv => rw [hv]; exact ⟨e, rfl⟩
    next hv => rw [hv]; exact ih h
    next => cases h

/-- A loop that has written nothing and fails, fails first. -/
theorem failsFirst_of_patchPages (hnd : (groups.map Prod.fst).Nodup)
    (hslots : ∀ g ∈ groups, g.2.Nodup) {e : ε}
    (h : patchPages f patch groups pages = (pages, .error e)) :
    failsFirst f patch pages groups := by
  induction groups with
  | nil => cases h
  | cons g groups ih =>
    obtain ⟨hnot, hnd⟩ := nodup_cons.mp hnd
    rw [patchPages] at h
    rw [failsFirst]
    split at h
    next hv => rw [hv]
    next hv =>
      rw [hv]
      exact ih hnd (fun g hg => hslots g (mem_cons_of_mem _ hg)) h
    next hv =>
      -- the page was written, and is not written again
      have hpage := congrFun (congrArg Prod.fst h) g.1
      rw [patchPages_other hnot, Function.update_self] at hpage
      exact absurd hpage (visitPage_ne (hslots g mem_cons_self) hv)

/-- Nothing was recorded since the savepoint. -/
theorem pages_rollbackToSavepoint (s : Conn) :
    (s.rollbackToSavepoint s.undoOps.length).pages = s.pages := by
  simp [Conn.rollbackToSavepoint, restore]

/-- What was recorded since the savepoint is restored. -/
theorem pages_rollbackToSavepoint_append (pages : PageId → Page) (undoOps images : List UndoOp) :
    ((Conn.mk pages (undoOps ++ images)).rollbackToSavepoint undoOps.length).pages =
      restore pages images.reverse := by
  simp [Conn.rollbackToSavepoint]

/-- **Failed updates and rollback.** A statement that fails before it has changed a page, or at the
indexes after the batch was recorded, returns an error and is undone by a rollback to before it.
There are no others, if each row is found once. -/
theorem failed_update_undone (f : Faults ε) (u : Update ε) (s : Conn) :
    (u.failsFirst f s.pages = true ∨ u.failsLast f s.pages = true → u.Undone f s) ∧
      (u.Distinct → u.Undone f s →
        u.failsFirst f s.pages = true ∨ u.failsLast f s.pages = true) := by
  rw [Update.failsFirst, Update.failsLast, Update.Undone, Update.run]
  rcases hp : u.prepare with e | r
  · exact ⟨fun _ => ⟨⟨e, rfl⟩, pages_rollbackToSavepoint s⟩, fun _ _ => .inl rfl⟩
  obtain ⟨groups, patch⟩ := r
  dsimp only
  cases hr : patchPages f patch groups s.pages with
  | mk pages result =>
  cases result with
  | error e =>
    dsimp only
    refine ⟨fun h => ?_, fun hd ⟨_, hpages⟩ => .inl ?_⟩
    · obtain ⟨e', he⟩ := patchPages_of_failsFirst (h.resolve_right Bool.false_ne_true)
      cases hr.symm.trans he
      exact ⟨⟨e, rfl⟩, pages_rollbackToSavepoint s⟩
    · obtain ⟨hnd, hslots⟩ := hd _ hp
      rw [pages_rollbackToSavepoint ⟨pages, s.undoOps⟩] at hpages
      exact failsFirst_of_patchPages hnd hslots (hr.trans (congrArg (·, Except.error e) hpages))
  | ok images =>
    dsimp only
    cases hidx : u.indexError f with
    | none =>
      refine ⟨fun h => ?_, fun _ ⟨⟨e, he⟩, _⟩ => by cases he⟩
      obtain ⟨e', he⟩ := patchPages_of_failsFirst (h.resolve_right (by simp))
      cases hr.symm.trans he
    | some e =>
      refine ⟨fun h => ⟨⟨e, rfl⟩, ?_⟩, fun hd ⟨_, hpages⟩ => .inr ?_⟩
      · have hlast : f.append = none ∨ images = [] := by
          rcases h with h | h
          · obtain ⟨e', he⟩ := patchPages_of_failsFirst h
            cases hr.symm.trans he
          · simpa using h
        have himages : (if f.append.isSome then s.undoOps else s.undoOps ++ images) =
            s.undoOps ++ images := by
          rcases hlast with h | rfl <;> simp [*]
        rw [himages, pages_rollbackToSavepoint_append, restore_patchPages hr]
      · cases happ : f.append with
        | none => rfl
        | some e' =>
          obtain ⟨hnd, hslots⟩ := hd _ hp
          rw [happ, Option.isSome_some, if_pos rfl, pages_rollbackToSavepoint ⟨pages, s.undoOps⟩]
            at hpages
          cases images_of_patchPages hnd hslots (hr.trans (congrArg (·, _) hpages))
          rfl

/-- A row in each slot. -/
def oneTuple : Conn := ⟨fun _ _ => some (⟨1, 0, 0, 0⟩, [7]), []⟩

/-- An UPDATE of a row on each of two pages. -/
def eightFor : Update Unit := .fused [(1, [0]), (2, [0])] (fun _ => true) fun _ => .ok (some [8])

/-- The same with the rows known before. -/
def eightForBoth : Update Unit := .candidates (.ok ([(1, [0]), (2, [0])], fun _ _ _ => [8]))

/-- Of the pages, only the given one can be written. -/
def onlyWrites (pageId : PageId) : Faults Unit :=
  ⟨fun _ => none, fun p => if p = pageId then none else some (), none, none⟩

/-- A first page that cannot be written, and a key that a UNIQUE index has. -/
theorem failed_update_undone_first_last : eightFor.Undone (onlyWrites 2) oneTuple ∧
    eightForBoth.Undone ⟨fun _ => none, fun _ => none, none, some ()⟩ oneTuple :=
  ⟨(failed_update_undone _ _ _).1 (.inl rfl), (failed_update_undone _ _ _).1 (.inr rfl)⟩

/-- The first page is written and the second is not: the statement returns an error, and after the
rollback the first page is as it was written. -/
theorem written_page_stays : (eightFor.run (onlyWrites 1) oneTuple).2 = .error () ∧
      (((eightFor.run (onlyWrites 1) oneTuple).1.rollbackToSavepoint 0).pages 1 0).map Prod.snd =
        some [8] :=
  ⟨rfl, rfl⟩

end AxiomDb.Txn.FailedUpdate
