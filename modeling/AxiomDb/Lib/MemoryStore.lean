import AxiomDb.Lib.Store

/-!
# A page store in memory

The smallest engine that meets `StorageEngine.Lawful`: pages are handed out in
ascending order and never again after they are freed, and an operation on a page
that is not allocated fails. Programs that use a page store can be run on it.
-/

namespace AxiomDb.Lib

variable {ε P : Type} {null : Nat}

/-- The pages, and the first number not handed out so far. -/
structure Mem (P : Type) (null : Nat) where
  pages : Heap P
  next : Nat
  fresh {p : Nat} : next ≤ p → pages p = none
  null_free : pages null = none

namespace Mem

section

variable (m : Mem P null)

/-- The page that is handed out next. -/
def nextPid : Nat := if m.next = null then m.next + 1 else m.next

theorem nextPid_ne : m.nextPid ≠ null := by
  unfold nextPid
  split <;> omega

theorem le_nextPid : m.next ≤ m.nextPid := by
  unfold nextPid
  split <;> omega

def empty : Mem P null := ⟨fun _ => none, 0, fun _ => rfl, rfl⟩

def set (p : Nat) (v : Option P) (hp : m.pages p ≠ none) : Mem P null where
  pages := Function.update m.pages p v
  next := m.next
  fresh {q} hq := by
    rw [Heap.update_ne fun h : q = p => hp (h ▸ m.fresh hq)]
    exact m.fresh hq
  null_free := by
    rw [Heap.update_ne fun h : null = p => hp (h ▸ m.null_free)]
    exact m.null_free

def alloc (blank : P) : Mem P null where
  pages := Function.update m.pages m.nextPid (some blank)
  next := m.nextPid + 1
  fresh {q} hq := by
    have := m.le_nextPid
    rw [Heap.update_ne (by omega : q ≠ m.nextPid)]
    exact m.fresh (by omega)
  null_free := by
    rw [Heap.update_ne m.nextPid_ne.symm]
    exact m.null_free

end

end Mem

/-- The engine: `blank` is what a new page holds, `notFound` the error for a page that
is not allocated. -/
def memoryStore (null : PageId) (blank : PageId → P) (notFound : PageId → ε) :
    StorageEngine ε (Mem P null) P where
  readPage p m := match m.pages p with
    | some v => .ok v m
    | none => .error (notFound p) m
  writePage p v m := match hp : m.pages p with
    | some _ => .ok () (m.set p (some v) (by simp [hp]))
    | none => .error (notFound p) m
  allocPage m := .ok m.nextPid (m.alloc (blank m.nextPid))
  freePage p m := match hp : m.pages p with
    | some _ => .ok () (m.set p none (by simp [hp]))
    | none => .error (notFound p) m

theorem memoryStore_lawful (null : PageId) (blank : PageId → P) (notFound : PageId → ε) :
    (memoryStore null blank notFound).Lawful null Mem.pages where
  read {s p v} hp := by simp [memoryStore, hp]
  write {s p} v hp := by
    refine ⟨s.set p (some v) hp, ?_, rfl⟩
    simp only [memoryStore]
    split
    · rfl
    · exact absurd ‹_› hp
  alloc s := ⟨s.nextPid, blank s.nextPid, s.alloc (blank s.nextPid), rfl, s.fresh s.le_nextPid, rfl⟩
  null_free s := s.null_free
  free {s p} hp := by
    refine ⟨s.set p none hp, ?_, rfl⟩
    simp only [memoryStore]
    split
    · rfl
    · exact absurd ‹_› hp

theorem memoryStore_read_none {null : PageId} {blank : PageId → P} {notFound : PageId → ε}
    {m : Mem P null} {p : PageId} (hp : m.pages p = none) :
    (memoryStore null blank notFound).readPage p m = .error (notFound p) m := by
  simp [memoryStore, hp]

theorem memoryStore_allocsBlank (null : PageId) (blank : PageId → P) (notFound : PageId → ε) :
    (memoryStore null blank notFound).AllocsBlank Mem.pages blank := by
  rintro s _ _ ⟨⟩
  simp [Mem.alloc]

end AxiomDb.Lib
