import Mathlib

/-!
# Undo of transactions in flight

Transactions change places and remember, for each operation, how to undo it. As
long as no place is changed by two transactions in flight, undoing what they
remember, in any order that is backwards for each of them, gives every place what
the committed transactions left there.
-/

namespace AxiomDb.Lib

open List Function

/-- How operations are undone: the places that an operation has to do with, and what its undo
leaves in such a place, or that it fails. The flag tells two ways of undoing apart. -/
structure UndoOps (O X V : Type) where
  touches : O → X → Bool
  undo : Bool → O → V → Option V

variable {O X V : Type}

/-- The undo of operations one after the other, at one place. -/
def UndoOps.undoAt (U : UndoOps O X V) (strict : Bool) (x : X) : List O → V → Option V
  | [], v => some v
  | o :: os, v =>
    if U.touches o x then (U.undo strict o v).bind (U.undoAt strict x os) else U.undoAt strict x os v

section undoAt

variable {U : UndoOps O X V} {strict : Bool} {x : X} {os : List O} {v : V}

/-- Only the operations on a place matter to it. -/
theorem undoAt_filter (os : List O) :
    U.undoAt strict x (os.filter (U.touches · x)) v = U.undoAt strict x os v := by
  induction os generalizing v with
  | nil => rfl
  | cons o os ih =>
    by_cases h : U.touches o x
    · simp [UndoOps.undoAt, h, funext fun v => ih (v := v)]
    · simp [UndoOps.undoAt, h, ih]

theorem undoAt_untouched (h : ∀ o ∈ os, U.touches o x = false) : U.undoAt strict x os v = some v := by
  rw [← undoAt_filter, filter_eq_nil_iff.mpr fun o ho => by simp [h o ho], UndoOps.undoAt]

end undoAt

/-- The transactions in flight, with what each has to undo and the values it last left in the
places it changed; and the places as the committed transactions left them. -/
structure InFlight (O X V : Type) where
  active : List Nat
  ops : Nat → List O
  writes : Nat → X → Option V
  committed : X → V

namespace InFlight

def idle (committed : X → V) : InFlight O X V := ⟨[], fun _ => [], fun _ _ => none, committed⟩

section

variable (f : InFlight O X V)

def begin (c : Nat) : InFlight O X V :=
  { f with
    active := c :: f.active
    ops := Function.update f.ops c []
    writes := Function.update f.writes c fun _ => none }

/-- Transaction `c` has changed the places from `now` to `now'`, and `o` undoes it. -/
def record [DecidableEq V] (f : InFlight O X V) (c : Nat) (o : O) (now now' : X → V) :
    InFlight O X V :=
  { f with
    ops := Function.update f.ops c (f.ops c ++ [o])
    writes := Function.update f.writes c
      fun x => if now' x = now x then f.writes c x else some (now' x) }

/-- Transaction `c` has ended. -/
def drop (c : Nat) : InFlight O X V :=
  { f with active := f.active.filter (· ≠ c) }

/-- Transaction `c` ends, and what it left is committed. -/
def commit (c : Nat) : InFlight O X V :=
  { f.drop c with committed := fun x => (f.writes c x).getD (f.committed x) }

def crash : InFlight O X V := { f with active := [] }

end

section frame

variable {f : InFlight O X V} {b c : Nat}

theorem begin_ops (h : b ≠ c) : (f.begin c).ops b = f.ops b := update_of_ne h ..

theorem begin_writes (h : b ≠ c) : (f.begin c).writes b = f.writes b := update_of_ne h ..

variable [DecidableEq V] {o : O} {now now' : X → V}

theorem record_ops (h : b ≠ c) : (f.record c o now now').ops b = f.ops b :=
  update_of_ne h ..

theorem record_writes (h : b ≠ c) : (f.record c o now now').writes b = f.writes b :=
  update_of_ne h ..

end frame

end InFlight

variable (U : UndoOps O X V)

/-- Transaction `c` has to do with the place. -/
def InFlight.Touched (f : InFlight O X V) (c : Nat) (x : X) : Prop :=
  ∃ o ∈ f.ops c, U.touches o x = true

/-- Each place is the committed one, but for the one active transaction that has changed it, the
undo of which gives the committed one back. -/
structure Isolated (f : InFlight O X V) (now : X → V) : Prop where
  owned : ∀ b ∈ f.active, ∀ c ∈ f.active, ∀ x, f.Touched U b x → f.Touched U c x → b = c
  untouched : ∀ x, (∀ c ∈ f.active, ¬f.Touched U c x) → now x = f.committed x
  undone : ∀ c ∈ f.active, ∀ x, f.Touched U c x → ∀ strict,
    U.undoAt strict x (f.ops c).reverse (now x) = some (f.committed x)
  writes : ∀ c ∈ f.active, ∀ x, f.Touched U c x → (f.writes c x).getD (f.committed x) = now x
  unwritten : ∀ c ∈ f.active, ∀ x, ¬f.Touched U c x → f.writes c x = none

/-- The transactions in progress in a log are the active ones, each with what it has to undo. -/
structure Matches (activeTxns : List Nat) (timeline : List (Nat × O)) (f : InFlight O X V) : Prop where
  active : ∀ c, c ∈ activeTxns ↔ c ∈ f.active
  timeline : ∀ c ∈ f.active, (timeline.filter (·.1 == c)).map Prod.snd = f.ops c

variable {U} {f : InFlight O X V} {now now' : X → V} {c : Nat} {o : O}

namespace Isolated

theorem of_idle (hactive : f.active = []) (h : now = f.committed) : Isolated U f now := by
  constructor <;> simp [hactive, h]

theorem touches_eq_false {x : X} (h : ¬f.Touched U c x) (ho : o ∈ (f.ops c).reverse) :
    U.touches o x = false := by
  by_contra ht
  exact h ⟨o, mem_reverse.mp ho, by simpa using ht⟩

section

variable (hi : Isolated U f now)
include hi

theorem begin (hc : c ∉ f.active) : Isolated U (f.begin c) now := by
  obtain ⟨howned, huntouched, hundone, hwrites, hunwritten⟩ := hi
  have hne {b : Nat} (hb : b ∈ f.active) : b ≠ c := fun h => hc (h ▸ hb)
  have htouched {b : Nat} (hb : b ∈ f.active) (x : X) :
      (f.begin c).Touched U b x ↔ f.Touched U b x := by
    rw [InFlight.Touched, InFlight.begin_ops (hne hb), InFlight.Touched]
  have hself (x : X) : ¬(f.begin c).Touched U c x := by
    simp [InFlight.Touched, InFlight.begin]
  refine ⟨fun b hb d hd x h1 h2 => ?_, fun x hx => ?_, fun b hb x hx strict => ?_,
    fun b hb x hx => ?_, fun b hb x hx => ?_⟩
  · rcases mem_cons.mp hb with rfl | hb
    · exact absurd h1 (hself x)
    rcases mem_cons.mp hd with rfl | hd
    · exact absurd h2 (hself x)
    exact howned b hb d hd x ((htouched hb x).mp h1) ((htouched hd x).mp h2)
  · exact huntouched x fun b hb h => hx b (mem_cons_of_mem _ hb) ((htouched hb x).mpr h)
  · rcases mem_cons.mp hb with rfl | hb
    · exact absurd hx (hself x)
    rw [InFlight.begin_ops (hne hb)]
    exact hundone b hb x ((htouched hb x).mp hx) strict
  · rcases mem_cons.mp hb with rfl | hb
    · exact absurd hx (hself x)
    rw [InFlight.begin_writes (hne hb)]
    exact hwrites b hb x ((htouched hb x).mp hx)
  · rcases mem_cons.mp hb with rfl | hb
    · simp [InFlight.begin]
    rw [InFlight.begin_writes (hne hb)]
    exact hunwritten b hb x fun h => hx ((htouched hb x).mpr h)

/-- An operation on places that no other active transaction has changed, which its undo takes
back. -/
theorem record [DecidableEq V] (hc : c ∈ f.active)
    (hframe : ∀ x, U.touches o x = false → now' x = now x)
    (hundo : ∀ x, U.touches o x → ∀ strict, U.undo strict o (now' x) = some (now x))
    (hfree : ∀ x, U.touches o x → ∀ b ∈ f.active, b ≠ c → ¬f.Touched U b x) :
    Isolated U (f.record c o now now') now' := by
  have htouched (b : Nat) (x : X) : (f.record c o now now').Touched U b x ↔
      f.Touched U b x ∨ b = c ∧ U.touches o x := by
    by_cases hb : b = c
    · subst hb
      simp [InFlight.Touched, InFlight.record, or_and_right, exists_or]
    · simp [InFlight.Touched, InFlight.record, hb]
  -- a place of another transaction is not one of the operation
  have hother {b : Nat} (hb : b ∈ f.active) (hbc : b ≠ c) {x : X}
      (h : (f.record c o now now').Touched U b x) :
      f.Touched U b x ∧ U.touches o x = false := by
    have hold : f.Touched U b x := by simpa [htouched, hbc] using h
    refine ⟨hold, ?_⟩
    by_contra ht
    exact hfree x (by simpa using ht) b hb hbc hold
  have hfirst {x : X} (ht : U.touches o x) (hold : ¬f.Touched U c x) :
      now x = f.committed x := by
    refine hi.untouched x fun b hb => ?_
    obtain rfl | hbc := eq_or_ne b c
    · exact hold
    · exact hfree x ht b hb hbc
  refine ⟨fun b hb d hd x h1 h2 => ?_, fun x hx => ?_, fun b hb x hx strict => ?_,
    fun b hb x hx => ?_, fun b hb x hx => ?_⟩
  · by_cases hbc : b = c
    · by_cases hdc : d = c
      · rw [hbc, hdc]
      · obtain ⟨hold, ht⟩ := hother hd hdc h2
        exact hi.owned b hb d hd x (by simpa [htouched, ht] using h1) hold
    · obtain ⟨hold, ht⟩ := hother hb hbc h1
      exact hi.owned b hb d hd x hold (by simpa [htouched, ht] using h2)
  · simp only [htouched, not_or, not_and, Bool.not_eq_true] at hx
    exact (hframe x ((hx c hc).2 rfl)).trans (hi.untouched x fun b hb => (hx b hb).1)
  · obtain rfl | hbc := eq_or_ne b c
    · simp only [InFlight.record, update_self, reverse_append,
        reverse_singleton, singleton_append, UndoOps.undoAt]
      split
      next ht =>
        rw [hundo x ht, Option.bind_some]
        by_cases hold : f.Touched U b x
        · exact hi.undone b hb x hold strict
        · rw [undoAt_untouched fun o ho => touches_eq_false hold ho, hfirst ht hold]
      next ht =>
        have hold : f.Touched U b x := by simpa [htouched, ht] using hx
        rw [hframe x (by simpa using ht)]
        exact hi.undone b hb x hold strict
    · obtain ⟨hold, ht⟩ := hother hb hbc hx
      rw [InFlight.record_ops hbc, hframe x ht]
      exact hi.undone b hb x hold strict
  · obtain rfl | hbc := eq_or_ne b c
    · simp only [InFlight.record, update_self]
      split
      next heq =>
        rw [heq]
        by_cases hold : f.Touched U b x
        · exact hi.writes b hb x hold
        · have ht : U.touches o x := by simpa [htouched, hold] using hx
          rw [hi.unwritten b hb x hold, Option.getD_none, hfirst ht hold]
      next => rfl
    · obtain ⟨hold, ht⟩ := hother hb hbc hx
      rw [InFlight.record_writes hbc, hframe x ht]
      exact hi.writes b hb x hold
  · simp only [htouched, not_or, not_and, Bool.not_eq_true] at hx
    obtain rfl | hbc := eq_or_ne b c
    · simp only [InFlight.record, update_self]
      rw [if_pos (hframe x (hx.2 rfl))]
      exact hi.unwritten b hb x hx.1
    · rw [InFlight.record_writes hbc]
      exact hi.unwritten b hb x hx.1

/-- The end of a transaction that leaves in its places what is then committed. -/
theorem finish (hc : c ∈ f.active) {committed : X → V}
    (htouched : ∀ x, f.Touched U c x → now' x = committed x)
    (huntouched : ∀ x, ¬f.Touched U c x → now' x = now x ∧ committed x = f.committed x) :
    Isolated U { f.drop c with committed := committed } now' := by
  have hmem {b : Nat} : b ∈ (f.drop c).active ↔ b ∈ f.active ∧ b ≠ c := by
    simp [InFlight.drop]
  have hother {b : Nat} (hb : b ∈ (f.drop c).active) {x : X} (hx : f.Touched U b x) :
      now' x = now x ∧ committed x = f.committed x :=
    huntouched x fun h => (hmem.mp hb).2 (hi.owned b (hmem.mp hb).1 c hc x hx h)
  refine ⟨fun b hb d hd x => hi.owned b (hmem.mp hb).1 d (hmem.mp hd).1 x, fun x hx => ?_,
    fun b hb x hx strict => ?_, fun b hb x hx => ?_,
    fun b hb x hx => hi.unwritten b (hmem.mp hb).1 x hx⟩
  · by_cases h : f.Touched U c x
    · exact htouched x h
    obtain ⟨heq, hcm⟩ := huntouched x h
    refine heq.trans ((hi.untouched x fun b hb => ?_).trans hcm.symm)
    obtain rfl | hbc := eq_or_ne b c
    · exact h
    · exact hx b (hmem.mpr ⟨hb, hbc⟩)
  · obtain ⟨heq, hcm⟩ := hother hb hx
    exact (congrArg _ heq).trans ((hi.undone b (hmem.mp hb).1 x hx strict).trans (congrArg _ hcm.symm))
  · obtain ⟨heq, hcm⟩ := hother hb hx
    exact (congrArg _ hcm).trans ((hi.writes b (hmem.mp hb).1 x hx).trans heq.symm)

theorem commit (hc : c ∈ f.active) : Isolated U (f.commit c) now := by
  refine hi.finish hc (fun x hx => (hi.writes c hc x hx).symm) fun x hx => ⟨rfl, ?_⟩
  simp [hi.unwritten c hc x hx]

theorem rollback (hc : c ∈ f.active) {strict : Bool}
    (h : ∀ x, U.undoAt strict x (f.ops c).reverse (now x) = some (now' x)) :
    Isolated U (f.drop c) now' := by
  refine hi.finish hc (fun x hx => ?_) fun x hx => ⟨?_, rfl⟩
  · exact Option.some.inj ((h x).symm.trans (hi.undone c hc x hx strict))
  · exact Option.some.inj ((h x).symm.trans (undoAt_untouched fun o ho => touches_eq_false hx ho))

/-- What the undo of one transaction leaves in a place. -/
theorem undoAt_ops (hc : c ∈ f.active) (strict : Bool) (x : X) :
    ∃ v, U.undoAt strict x (f.ops c).reverse (now x) = some v := by
  by_cases h : f.Touched U c x
  · exact ⟨_, hi.undone c hc x h strict⟩
  · exact ⟨_, undoAt_untouched fun o ho => touches_eq_false h ho⟩

/-- The undo of all that is in progress gives the committed places. -/
theorem undo_inProgress {activeTxns : List Nat} {timeline : List (Nat × O)}
    (hm : Matches activeTxns timeline f) (strict : Bool) (x : X) :
    U.undoAt strict x ((timeline.filter fun p => p.1 ∈ activeTxns).reverse.map Prod.snd) (now x) =
      some (f.committed x) := by
  have hmem {p : Nat × O} (hp : p ∈ timeline) (hact : p.1 ∈ activeTxns)
      (ht : U.touches p.2 x) : p.1 ∈ f.active ∧ f.Touched U p.1 x := by
    have hact := (hm.active _).mp hact
    refine ⟨hact, p.2, ?_, ht⟩
    rw [← hm.timeline _ hact]
    exact mem_map_of_mem (mem_filter.mpr ⟨hp, by simp⟩)
  by_cases h : ∃ c ∈ f.active, f.Touched U c x
  · obtain ⟨c, hc, htouched⟩ := h
    -- the operations on the place are those of its one transaction
    rw [← hi.undone c hc x htouched strict, ← undoAt_filter,
      ← undoAt_filter (f.ops c).reverse, ← hm.timeline c hc]
    congr 1
    simp only [← map_reverse, filter_map, ← filter_reverse, filter_filter]
    refine congrArg _ (filter_congr fun p hp => ?_)
    have hp := mem_reverse.mp hp
    simp only [comp_apply]
    by_cases ht : U.touches p.2 x
    · by_cases hact : p.1 ∈ activeTxns
      · obtain ⟨hb, hbx⟩ := hmem hp hact ht
        simp [ht, hi.owned _ hb c hc x hbx htouched, (hm.active c).mpr hc]
      · have hne : p.1 ≠ c := fun heq => hact ((hm.active _).mpr (heq ▸ hc))
        simp [hact, hne]
    · simp [ht]
  · push Not at h
    refine (undoAt_untouched fun o ho => ?_).trans (congrArg _ (hi.untouched x h))
    obtain ⟨p, hp, rfl⟩ := mem_map.mp ho
    obtain ⟨hp, hact⟩ := mem_filter.mp (mem_reverse.mp hp)
    by_contra ht
    obtain ⟨hb, hbx⟩ := hmem hp (by simpa using hact) (by simpa using ht)
    exact h _ hb hbx

end

end Isolated

end AxiomDb.Lib
