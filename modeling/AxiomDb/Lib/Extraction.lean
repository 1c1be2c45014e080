import Mathlib.Data.List.Basic

/-!
# Taking values out of a structure and putting them back

A walk goes over a structure with the list of what it has taken out so far, leaves numbered
holes, and appends to the list. Filling the holes from a list that starts with what was taken
gives the structure back; and what is filled from any list, walked again, has the same holes.

A structure that is written on two streams at once is readable if the beginnings of both
determine it and what follows.
-/

namespace AxiomDb.Lib

open List

/-! ## Walks -/

section Walk

variable {α V : Type} (walk : α → List V → α × List V)

def walkList : List α → List V → List α × List V
  | [], out => ([], out)
  | a :: as, out =>
    let r := walk a out
    let rs := walkList as r.2
    (r.1 :: rs.1, rs.2)

def walkOption : Option α → List V → Option α × List V
  | none, out => (none, out)
  | some a, out => (some (walk a out).1, (walk a out).2)

/-- What a walk over `a` does, where `fill` puts values into the holes and `plain` says that there
are none. -/
structure Extracts (fill : List V → α → α) (plain : α → Prop) (a : α) : Prop where
  grows : ∀ out, out <+: (walk a out).2
  back : ∀ out vs, (walk a out).2 <+: vs → fill vs (walk a out).1 = a
  enough : ∀ out vs, out.length ≤ vs.length → plain (fill vs (walk a out).1) →
    (walk a out).2.length ≤ vs.length
  again : ∀ out out' vs, out'.length = out.length → plain (fill vs (walk a out).1) →
    out.length ≤ vs.length → (walk (fill vs (walk a out).1) out').1 = (walk a out).1 ∧
      (walk (fill vs (walk a out).1) out').2.length = (walk a out).2.length

variable {walk} {fill : List V → α → α} {plain : α → Prop}

/-- A structure that the walk passes over. -/
theorem Extracts.of_fixed {a : α} (hwalk : ∀ out, walk a out = (a, out)) (hfill : ∀ vs, fill vs a = a) :
    Extracts walk fill plain a where
  grows out := ⟨[], by rw [append_nil, hwalk]⟩
  back out vs _ := by rw [hwalk, hfill]
  enough out vs hlen _ := by rwa [hwalk]
  again out out' vs hlen _ _ := by
    rw [hwalk, hfill, hwalk]
    exact ⟨rfl, hlen⟩

theorem Extracts.walkList {as : List α} (h : ∀ a ∈ as, Extracts walk fill plain a) :
    Extracts (Lib.walkList walk) (fun vs => List.map (fill vs)) (fun as => ∀ a ∈ as, plain a) as := by
  induction as with
  | nil => exact .of_fixed (fun _ => rfl) fun _ => rfl
  | cons a as ih =>
    have ha := h a mem_cons_self
    have has := ih fun b hb => h b (mem_cons_of_mem a hb)
    refine ⟨?_, ?_, ?_, ?_⟩
    · intro out
      exact (ha.grows out).trans (has.grows _)
    · intro out vs hvs
      show fill vs (walk a out).1 :: map (fill vs) (Lib.walkList walk as (walk a out).2).1 = a :: as
      rw [ha.back out vs ((has.grows _).trans hvs), has.back _ vs hvs]
    · intro out vs hlen hplain
      have h1 := ha.enough out vs hlen (hplain _ mem_cons_self)
      exact has.enough _ vs h1 fun b hb => hplain b (mem_cons_of_mem _ hb)
    · intro out out' vs hout hplain hlen
      have hhead := hplain _ mem_cons_self
      obtain ⟨he, hl⟩ := ha.again out out' vs hout hhead hlen
      obtain ⟨hes, hls⟩ := has.again _ _ vs hl (fun b hb => hplain b (mem_cons_of_mem _ hb))
        (ha.enough out vs hlen hhead)
      exact ⟨congrArg₂ cons he hes, hls⟩

theorem Extracts.walkOption {o : Option α} (h : ∀ a ∈ o, Extracts walk fill plain a) :
    Extracts (Lib.walkOption walk) (fun vs => Option.map (fill vs)) (fun o => ∀ a ∈ o, plain a) o := by
  obtain _ | a := o
  · exact .of_fixed (fun _ => rfl) fun _ => rfl
  have ha := h a rfl
  refine ⟨ha.grows, ?_, ?_, ?_⟩
  · intro out vs hvs
    exact congrArg some (ha.back out vs hvs)
  · intro out vs hlen hplain
    exact ha.enough out vs hlen (hplain _ rfl)
  · intro out out' vs hout hplain hlen
    obtain ⟨he, hl⟩ := ha.again out out' vs hout (hplain _ rfl) hlen
    exact ⟨congrArg some he, hl⟩

end Walk

/-- Two walks, one behind the other, as one. -/
def walkPair {α β V : Type} (walk : α → List V → α × List V) (walk' : β → List V → β × List V)
    (p : α × β) (out : List V) : (α × β) × List V :=
  let r := walk p.1 out
  let r' := walk' p.2 r.2
  ((r.1, r'.1), r'.2)

section

variable {α β V : Type} {walk : α → List V → α × List V} {walk' : β → List V → β × List V} {fill : List V → α → α} {fill' : List V → β → β} {plain : α → Prop} {plain' : β → Prop} {a : α}

theorem Extracts.pair {b : β} (ha : Extracts walk fill plain a)
    (hb : Extracts walk' fill' plain' b) :
    Extracts (walkPair walk walk') (fun vs p => (fill vs p.1, fill' vs p.2))
      (fun p => plain p.1 ∧ plain' p.2) (a, b) := by
  refine ⟨?_, ?_, ?_, ?_⟩
  · intro out
    exact (ha.grows out).trans (hb.grows _)
  · intro out vs hvs
    exact Prod.ext (ha.back out vs ((hb.grows _).trans hvs)) (hb.back _ vs hvs)
  · intro out vs hlen hplain
    exact hb.enough _ vs (ha.enough out vs hlen hplain.1) hplain.2
  · intro out out' vs hout hplain hlen
    obtain ⟨he, hl⟩ := ha.again out out' vs hout hplain.1 hlen
    obtain ⟨he', hl'⟩ := hb.again _ _ vs hl hplain.2 (ha.enough out vs hlen hplain.1)
    exact ⟨Prod.ext he he', hl'⟩

/-- A structure that is built from another one, and walked as that one is. -/
theorem Extracts.map (build : α → β) (h : Extracts walk fill plain a)
    (hwalk : ∀ a out, walk' (build a) out = (build (walk a out).1, (walk a out).2))
    (hfill : ∀ vs a, fill' vs (build a) = build (fill vs a))
    (hplain : ∀ a, plain' (build a) → plain a) : Extracts walk' fill' plain' (build a) where
  grows out := by
    rw [hwalk]
    exact h.grows out
  back out vs hvs := by
    rw [hwalk] at hvs ⊢
    rw [hfill, h.back out vs hvs]
  enough out vs hlen hp := by
    rw [hwalk] at hp ⊢
    rw [hfill] at hp
    exact h.enough out vs hlen (hplain _ hp)
  again out out' vs hout hp hlen := by
    rw [hwalk] at hp ⊢
    rw [hfill] at hp ⊢
    obtain ⟨he, hl⟩ := h.again out out' vs hout (hplain _ hp) hlen
    rw [hwalk, he]
    exact ⟨rfl, hl⟩

end

/-! ## Two streams -/

section Readable

variable {α S T : Type}

/-- What `f` and `g` write of a structure at the beginnings of two streams determines it. -/
def Readable (f : α → List S) (g : α → List T) (ok : α → Prop) : Prop :=
  ∀ a b, ok a → ok b → ∀ r r' i i', f a ++ r = f b ++ r' → g a ++ i = g b ++ i' →
    a = b ∧ r = r' ∧ i = i'

variable {f : α → List S} {g : α → List T} {ok : α → Prop}

/-- Lists of one length. -/
theorem Readable.flatMap (h : Readable f g ok) :
    ∀ l l' : List α, l.length = l'.length → (∀ a ∈ l, ok a) → (∀ a ∈ l', ok a) → ∀ r r' i i',
      l.flatMap f ++ r = l'.flatMap f ++ r' → l.flatMap g ++ i = l'.flatMap g ++ i' →
      l = l' ∧ r = r' ∧ i = i'
  | [], [], _, _, _, _, _, _, _, hr, hi => ⟨rfl, hr, hi⟩
  | [], _ :: _, hlen, _, _, _, _, _, _, _, _ => absurd hlen (by simp)
  | _ :: _, [], hlen, _, _, _, _, _, _, _, _ => absurd hlen (by simp)
  | a :: l, b :: l', hlen, hok, hok', r, r', i, i', hr, hi => by
    rw [flatMap_cons, flatMap_cons, append_assoc, append_assoc] at hr hi
    obtain ⟨rfl, hr, hi⟩ := h a b (hok a mem_cons_self) (hok' b mem_cons_self) _ _ _ _ hr hi
    obtain ⟨rfl, hr, hi⟩ := h.flatMap l l' (by simpa using hlen)
      (fun c hc => hok c (mem_cons_of_mem a hc)) (fun c hc => hok' c (mem_cons_of_mem a hc))
      _ _ _ _ hr hi
    exact ⟨rfl, hr, hi⟩

/-- Lists of any length, before something that no element starts with. -/
theorem Readable.flatMap_until (h : Readable f g ok) {start : S → Prop}
    (hstart : ∀ a, ok a → ∃ t u, f a = t :: u ∧ start t) :
    ∀ l l' : List α, (∀ a ∈ l, ok a) → (∀ a ∈ l', ok a) → ∀ r r' i i',
      (∀ t ∈ r.head?, ¬start t) → (∀ t ∈ r'.head?, ¬start t) →
      l.flatMap f ++ r = l'.flatMap f ++ r' → l.flatMap g ++ i = l'.flatMap g ++ i' →
      l = l' ∧ r = r' ∧ i = i'
  | [], [], _, _, _, _, _, _, _, _, hr, hi => ⟨rfl, hr, hi⟩
  | [], b :: l', _, hok', r, r', _, _, hstop, _, hr, _ => by
    obtain ⟨t, u, ht, hst⟩ := hstart b (hok' b mem_cons_self)
    have hr' : r = t :: (u ++ (l'.flatMap f ++ r')) := by simpa [ht] using hr
    exact absurd hst (hstop t (by rw [hr']; rfl))
  | a :: l, [], hok, _, r, r', _, _, _, hstop', hr, _ => by
    obtain ⟨t, u, ht, hst⟩ := hstart a (hok a mem_cons_self)
    have hr' : t :: (u ++ (l.flatMap f ++ r)) = r' := by simpa [ht] using hr
    exact absurd hst (hstop' t (by rw [← hr']; rfl))
  | a :: l, b :: l', hok, hok', r, r', i, i', hstop, hstop', hr, hi => by
    rw [flatMap_cons, flatMap_cons, append_assoc, append_assoc] at hr hi
    obtain ⟨rfl, hr, hi⟩ := h a b (hok a mem_cons_self) (hok' b mem_cons_self) _ _ _ _ hr hi
    obtain ⟨rfl, hr, hi⟩ := h.flatMap_until hstart l l'
      (fun c hc => hok c (mem_cons_of_mem a hc)) (fun c hc => hok' c (mem_cons_of_mem a hc))
      _ _ _ _ hstop hstop' hr hi
    exact ⟨rfl, hr, hi⟩

end Readable

end AxiomDb.Lib
