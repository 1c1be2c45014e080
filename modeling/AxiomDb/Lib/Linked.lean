import AxiomDb.Lib.Store

/-!
# Chains of linked pages

Nodes each with a page number and the number of the next page. `Linked ls n`:
each of `ls` points at the one after it, and the last at `n`. `SameLinks` is
the relation that holds when a run of linked nodes may take the place of
another in any chain.
-/

namespace AxiomDb.Lib

variable {α : Type} (pid next : α → PageId)

/-- The first page of a chain that goes on at `n`. -/
def headPid (n : PageId) : List α → PageId
  | [] => n
  | l :: _ => pid l

/-- Each node points at the one after it, the last at `n`. -/
def Linked (n : PageId) : List α → Prop
  | [] => True
  | l :: ls => next l = headPid pid n ls ∧ Linked n ls

/-- In a chain, `ls'` may take the place of `ls`. -/
def SameLinks (ls ls' : List α) : Prop :=
  ∀ n, headPid pid n ls' = headPid pid n ls ∧ (Linked pid next n ls → Linked pid next n ls')

variable {pid next} {n : PageId} {a b ls ls' : List α}

theorem headPid_append : headPid pid n (a ++ b) = headPid pid (headPid pid n b) a := by
  cases a <;> rfl

theorem linked_append :
    Linked pid next n (a ++ b) ↔ Linked pid next (headPid pid n b) a ∧ Linked pid next n b := by
  induction a with
  | nil => simp [Linked]
  | cons l a ih => simp [Linked, ih, headPid_append, and_assoc]

theorem SameLinks.refl (ls : List α) : SameLinks pid next ls ls := fun _ => ⟨rfl, id⟩

theorem SameLinks.trans {ls'' : List α} (h1 : SameLinks pid next ls ls')
    (h2 : SameLinks pid next ls' ls'') : SameLinks pid next ls ls'' :=
  fun n => ⟨(h2 n).1.trans (h1 n).1, fun h => (h2 n).2 ((h1 n).2 h)⟩

theorem SameLinks.append (h : SameLinks pid next ls ls') (a b : List α) :
    SameLinks pid next (a ++ ls ++ b) (a ++ ls' ++ b) := by
  intro n
  simp only [headPid_append, linked_append, (h _).1, true_and]
  exact fun ⟨⟨ha, hl⟩, hb⟩ => ⟨⟨ha, (h _).2 hl⟩, hb⟩

/-- Nodes are changed in other parts than their links. -/
theorem SameLinks.of_forall₂
    (h : List.Forall₂ (fun l l' => pid l' = pid l ∧ next l' = next l) ls ls') :
    SameLinks pid next ls ls' := by
  induction h with
  | nil => exact SameLinks.refl _
  | cons hl _ ih => exact fun n => ⟨hl.1, fun ⟨h, hs⟩ => ⟨by rw [hl.2, h, (ih n).1], (ih n).2 hs⟩⟩

/-- Two nodes are joined on the first one's page. -/
theorem SameLinks.join {l r m : α} (hp : pid m = pid l) (hn : next m = next r) :
    SameLinks pid next [l, r] [m] :=
  fun _ => ⟨hp, fun ⟨_, h, _⟩ => ⟨hn.trans h, trivial⟩⟩

end AxiomDb.Lib
