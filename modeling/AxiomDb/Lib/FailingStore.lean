import AxiomDb.Lib.Store

/-!
# A page store that runs out of room

`failing E full` has the operations of `E`, but an allocation fails with `full` once
a given number of allocations has succeeded. The state notes whether that has
happened and which pages were freed, so that a statement can speak about the
moment of the failure.
-/

namespace AxiomDb.Lib

/-- A store, how many allocations are left, whether one has failed and which pages were freed. -/
structure Probe (σ : Type) where
  store : σ
  left : Nat
  failed : Bool
  freed : List PageId

variable {ε σ P α β : Type}

/-- A computation on the store alone. -/
def Probe.lift (x : EStateM ε σ α) : EStateM ε (Probe σ) α := fun s =>
  match x s.store with
  | .ok a s' => .ok a { s with store := s' }
  | .error e s' => .error e { s with store := s' }

def failing (E : StorageEngine ε σ P) (full : ε) : StorageEngine ε (Probe σ) P where
  readPage p := Probe.lift (E.readPage p)
  writePage p v := Probe.lift (E.writePage p v)
  allocPage s := match s.left with
    | 0 => .error full { s with failed := true }
    | left + 1 => Probe.lift E.allocPage { s with left := left }
  freePage p s := Probe.lift (E.freePage p) { s with freed := p :: s.freed }

/-- The answer of a computation, without the state. -/
def answer : EStateM.Result ε σ α → Except ε α
  | .ok a _ => .ok a
  | .error e _ => .error e

namespace Probe

variable {E : StorageEngine ε σ P} {full : ε} {null : PageId} {view : σ → Heap P} {s : Probe σ}
  {p q : PageId} {x : EStateM ε σ α} {s' : σ} {a : α}

theorem lift_ok (h : x s.store = .ok a s') :
    lift x s = .ok a { s with store := s' } := by
  rw [lift, h]

theorem lift_error {e : ε} (h : x s.store = .error e s') :
    lift x s = .error e { s with store := s' } := by
  rw [lift, h]

theorem lift_bind {f : α → EStateM ε σ β} : lift (x >>= f) = lift x >>= fun a => lift (f a) := by
  funext s
  cases h : x s.store with
  | ok a s' => rw [bind_ok (lift_ok h), lift, bind_ok h, lift]
  | error e s' => rw [bind_error (lift_error h), lift_error (bind_error h)]

theorem read_ok (hE : E.Lawful null view) {v : P} (hp : view s.store p = some v) :
    (failing E full).readPage p s = .ok v s := lift_ok (hE.read hp)

theorem alloc_full (h : s.left = 0) :
    (failing E full).allocPage s = .error full { s with failed := true } := by
  simp only [failing, h]

theorem alloc_ok {n : Nat} (h : s.left = n + 1) (hs : E.allocPage s.store = .ok p s') :
    (failing E full).allocPage s = .ok p { s with store := s', left := n } := by
  simp only [failing, h]
  exact lift_ok hs

/-! ## Pages that were freed stay noted -/

/-- The page was freed. -/
def Noted (q : PageId) (s : Probe σ) : Prop := q ∈ s.freed

/-- A page that was freed before `x` is noted after it, however `x` ends. -/
def KeepsNoted (q : PageId) (x : EStateM ε (Probe σ) α) : Prop := ∀ s, Noted q s → Always x s (Noted q)

theorem always_lift {R : Probe σ → Prop} (h : ∀ s', R { s with store := s' }) : Always (lift x) s R := by
  rw [Always]
  cases hx : x s.store with
  | ok a s' => rw [lift_ok hx]; exact h s'
  | error e s' => rw [lift_error hx]; exact h s'

theorem noted_free : Always ((failing E full).freePage p) s (Noted p) :=
  always_lift (s := { s with freed := p :: s.freed }) (R := Noted p) fun _ => List.mem_cons_self

namespace KeepsNoted

variable {y : EStateM ε (Probe σ) α} {f : α → EStateM ε (Probe σ) β}

theorem pure (a : α) : KeepsNoted q (Pure.pure a : EStateM ε (Probe σ) α) := fun _ h => h

theorem throw (e : ε) : KeepsNoted q (throw e : EStateM ε (Probe σ) α) := fun _ h => h

theorem bind (hy : KeepsNoted q y) (hf : ∀ a, KeepsNoted q (f a)) : KeepsNoted q (y >>= f) :=
  fun s h => (hy s h).bind fun a s' => hf a s'

theorem lift : KeepsNoted q (Probe.lift x) := fun _ h => always_lift fun _ => h

theorem alloc : KeepsNoted q (failing E full).allocPage := by
  intro s h
  cases hleft : s.left with
  | zero =>
    rw [Always, alloc_full hleft]
    exact h
  | succ n =>
    have hrun : (failing E full).allocPage s = Probe.lift E.allocPage { s with left := n } := by
      simp only [failing, hleft]
    rw [Always, hrun]
    exact always_lift (s := { s with left := n }) (R := Noted q) fun _ => h

theorem free : KeepsNoted q ((failing E full).freePage p) := fun s h =>
  always_lift (s := { s with freed := p :: s.freed }) (R := Noted q) fun _ => List.mem_cons_of_mem p h

end KeepsNoted

/-! ## Two allocations before a page is freed -/

/-- How a computation ends that allocates two pages before it writes any other page
or frees `q`, by the allocations that are left. -/
structure TwoThenFree (view : σ → Heap P) (full : ε) (q : PageId) (s : Probe σ)
    (x : EStateM ε (Probe σ) α) : Prop where
  first : s.left = 0 → x s = .error full { s with failed := true }
  second : s.left = 1 → ∃ p v s', view s.store p = none ∧
    view s' = Function.update (view s.store) p (some v) ∧ x s = .error full ⟨s', 0, true, s.freed⟩
  later : 2 ≤ s.left → Always x s (Noted q)

namespace TwoThenFree

variable {y : EStateM ε (Probe σ) α} {f : α → EStateM ε (Probe σ) β}

theorem bind (hy : TwoThenFree view full q s y) (hf : ∀ a, KeepsNoted q (f a)) :
    TwoThenFree view full q s (y >>= f) where
  first h := bind_error (hy.first h)
  second h := by
    obtain ⟨p, v, s', hp, hv, e⟩ := hy.second h
    exact ⟨p, v, s', hp, hv, bind_error e⟩
  later h := (hy.later h).bind fun a s' => hf a s'

theorem after (e : y s = .ok a s) (hf : TwoThenFree view full q s (f a)) :
    TwoThenFree view full q s (y >>= f) where
  first h := (bind_ok e).trans (hf.first h)
  second h := by
    obtain ⟨p, v, s', hp, hv, e'⟩ := hf.second h
    exact ⟨p, v, s', hp, hv, (bind_ok e).trans e'⟩
  later h := .bind_ok e (hf.later h)

theorem of_allocs (hE : E.Lawful null view) {g : PageId → PageId → EStateM ε (Probe σ) β}
    (hg : ∀ p1 p2 s', view s'.store p1 ≠ none → view s'.store p2 ≠ none →
      Always (g p1 p2) s' (Noted q)) :
    TwoThenFree view full q s ((failing E full).allocPage >>= fun p1 =>
      (failing E full).allocPage >>= g p1) := by
  obtain ⟨p1, v1, s1, e1, hp1, hv1⟩ := hE.alloc s.store
  obtain ⟨p2, v2, s2, e2, hp2, hv2⟩ := hE.alloc s1
  refine ⟨fun h => bind_error (alloc_full h), fun h => ⟨p1, v1, s1, hp1, hv1, ?_⟩, fun h => ?_⟩
  · exact (bind_ok (alloc_ok h e1)).trans (bind_error (alloc_full rfl))
  obtain ⟨n, hn⟩ := Nat.exists_eq_add_of_le' h
  refine .bind_ok (alloc_ok (n := n + 1) hn e1) (.bind_ok (alloc_ok (n := n) rfl e2) (hg _ _ _ ?_ ?_))
  · have hne : p1 ≠ p2 := fun h => by simp [← h, hv1] at hp2
    simp [hv2, hne, hv1]
  · simp [hv2]

end TwoThenFree

end Probe

end AxiomDb.Lib
