import Mathlib

/-!
# Page stores

A page store hands out page numbers and keeps one page under each. What a
program that uses one relies on is stated on its `Heap`, the partial map from
the allocated pages to their contents: `StorageEngine.Lawful` says how each
operation of an engine that never fails changes it. Nothing is said of a page
once it is freed: an engine may keep its bytes, lose them or hand the page out
again.

`Keeps H H' ps qs` is the frame rule of the development: code that owned the
pages `ps` in `H` left the heap `H'` and owns `qs`, every other allocated page
kept its contents, and every page of `qs` was one of `ps` or not allocated.
-/

namespace AxiomDb.Lib

open List Function

abbrev PageId := Nat

/-- The allocated pages and their contents. -/
abbrev Heap (P : Type) := PageId → Option P

/-! ## Running operations -/

section EStateM

variable {ε σ α β : Type} {x : EStateM ε σ α} {f : α → EStateM ε σ β} {s s' : σ}

variable {a : α} {Q : α → σ → Prop} {R : β → σ → Prop} {P : σ → Prop} {e : ε} {γ : Type}

theorem bind_ok (h : x s = .ok a s') : (x >>= f) s = f a s' := by
  simp only [bind, EStateM.bind, h]

theorem bind_error (h : x s = .error e s') : (x >>= f) s = .error e s' := by
  simp only [bind, EStateM.bind, h]

theorem map_ok {g : α → β} (h : x s = .ok a s') : (g <$> x) s = .ok (g a) s' := by
  simp only [Functor.map, EStateM.map, h]

/-- `x` returns, with a result and a state for which `Q` holds. -/
def WP (x : EStateM ε σ α) (s : σ) (Q : α → σ → Prop) : Prop :=
  ∃ a s', x s = .ok a s' ∧ Q a s'

theorem WP.pure (h : Q a s) : WP (Pure.pure a : EStateM ε σ α) s Q :=
  ⟨a, s, rfl, h⟩

theorem WP.mono {R : α → σ → Prop} (h : WP x s Q) (hQ : ∀ a s', Q a s' → R a s') : WP x s R := by
  obtain ⟨a, s', e, h⟩ := h
  exact ⟨a, s', e, hQ a s' h⟩

theorem WP.bind (h : WP x s Q) (hf : ∀ a s', Q a s' → WP (f a) s' R) : WP (x >>= f) s R := by
  obtain ⟨a, s', e, h⟩ := h
  obtain ⟨b, s'', e', h'⟩ := hf a s' h
  exact ⟨b, s'', (bind_ok e).trans e', h'⟩

theorem WP.bind_ok (e : x s = .ok a s') (h : WP (f a) s' R) : WP (x >>= f) s R := by
  obtain ⟨b, t, e', h⟩ := h
  exact ⟨b, t, (Lib.bind_ok e).trans e', h⟩

theorem WP.bind_assoc {g : β → EStateM ε σ γ} {R : γ → σ → Prop}
    (h : WP (x >>= fun a => f a >>= g) s R) : WP (x >>= f >>= g) s R := by
  obtain ⟨c, t, e, h⟩ := h
  refine ⟨c, t, Eq.trans ?_ e, h⟩
  simp only [Bind.bind, EStateM.bind]
  cases x s <;> rfl

theorem WP.of_bind_pure (h : WP (x >>= Pure.pure) s Q) : WP x s Q := by
  obtain ⟨a, t, e, h⟩ := h
  refine ⟨a, t, Eq.trans ?_ e, h⟩
  simp only [Bind.bind, EStateM.bind]
  cases x s <;> rfl

theorem WP.of_eq (e : x s = .ok a s') (h : Q a s') : WP x s Q :=
  ⟨a, s', e, h⟩

theorem WP.get {g : σ → EStateM ε σ β} (h : WP (g s) s R) : WP (MonadState.get >>= g) s R :=
  WP.bind_ok rfl h

/-- A computation that leaves the state as it is. -/
theorem WP.eq_ok (h : WP x s fun r s' => r = a ∧ s' = s) : x s = .ok a s := by
  obtain ⟨_, _, e, rfl, rfl⟩ := h
  exact e

theorem WP.eq_ok_iff {Q : α → Prop} (h : WP x s fun r s' => s' = s ∧ Q r) :
    ∃ a, x s = .ok a s ∧ Q a := by
  obtain ⟨a, _, e, rfl, h⟩ := h
  exact ⟨a, e, h⟩

/-- The state a run ends in, whether it returns or fails. -/
def endState : EStateM.Result ε σ α → σ
  | .ok _ s => s
  | .error _ s => s

/-- However `x` ends, `P` holds then. -/
def Always (x : EStateM ε σ α) (s : σ) (P : σ → Prop) : Prop := P (endState (x s))

theorem Always.pure (h : P s) : Always (Pure.pure a : EStateM ε σ α) s P := h

theorem Always.bind_ok (e : x s = .ok a s') (h : Always (f a) s' P) : Always (x >>= f) s P := by
  rwa [Always, Lib.bind_ok e]

theorem Always.bind_error (he : x s = .error e s') (h : P s') : Always (x >>= f) s P := by
  rwa [Always, Lib.bind_error he]

theorem Always.bind (h : Always x s P) (hf : ∀ a s', P s' → Always (f a) s' P) :
    Always (x >>= f) s P := by
  rw [Always] at h
  cases e : x s with
  | ok a s' => exact bind_ok e (hf a s' (by rwa [e] at h))
  | error err s' => exact bind_error e (by rwa [e] at h)

theorem Always.mapM {g : γ → EStateM ε σ α} {l : List γ} (h : P s)
    (hg : ∀ c ∈ l, ∀ s, P s → Always (g c) s P) : Always (l.mapM g) s P := by
  induction l generalizing s with
  | nil => exact pure h
  | cons c l ih =>
    rw [mapM_cons]
    refine bind (hg c mem_cons_self s h) fun a s' h => ?_
    exact bind (ih h fun d hd => hg d (mem_cons_of_mem _ hd)) fun _ _ h => pure h

end EStateM

/-! ## Engines -/

/-- The operations of a page store with states `σ`, pages `P` and errors `ε`. -/
structure StorageEngine (ε σ P : Type) where
  readPage : PageId → EStateM ε σ P
  writePage : PageId → P → EStateM ε σ Unit
  allocPage : EStateM ε σ PageId
  freePage : PageId → EStateM ε σ Unit

/-- An engine whose operations never fail: `view` is the heap of a state, and
each operation on allocated pages changes it as its name says. The page number
`null` is never handed out. -/
structure StorageEngine.Lawful {ε σ P : Type} (E : StorageEngine ε σ P) (null : PageId)
    (view : σ → Heap P) : Prop where
  read {s : σ} {p : PageId} {v : P} : view s p = some v → E.readPage p s = .ok v s
  write {s : σ} {p : PageId} (v : P) : view s p ≠ none →
    ∃ s', E.writePage p v s = .ok () s' ∧ view s' = update (view s) p (some v)
  /-- A page handed out was not allocated; its contents are not specified. -/
  alloc (s : σ) : ∃ p v s', E.allocPage s = .ok p s' ∧ view s p = none ∧
    view s' = update (view s) p (some v)
  null_free (s : σ) : view s null = none
  free {s : σ} {p : PageId} : view s p ≠ none →
    ∃ s', E.freePage p s = .ok () s' ∧ view s' = update (view s) p none

/-- A page that is handed out is blank. -/
def StorageEngine.AllocsBlank {ε σ P : Type} (E : StorageEngine ε σ P) (view : σ → Heap P)
    (blank : PageId → P) : Prop :=
  ∀ (s s' : σ) (p : PageId), E.allocPage s = .ok p s' → view s' p = some (blank p)

namespace StorageEngine.Lawful

variable {ε σ P β : Type} {E : StorageEngine ε σ P} {null : PageId} {view : σ → Heap P}
  {s : σ} {p : PageId} {f : P → EStateM ε σ β} {R : β → σ → Prop}

variable {v : P}

section

variable (hE : E.Lawful null view)
include hE

theorem wp_read (hp : view s p = some v) (h : WP (f v) s R) : WP (E.readPage p >>= f) s R :=
  WP.bind_ok (hE.read hp) h

theorem wp_write {f : Unit → EStateM ε σ β} (hp : view s p ≠ none)
    (h : ∀ s', view s' = update (view s) p (some v) → WP (f ()) s' R) :
    WP (E.writePage p v >>= f) s R := by
  obtain ⟨s', e, hv⟩ := hE.write v hp
  exact WP.bind_ok e (h s' hv)

theorem wp_alloc {f : PageId → EStateM ε σ β}
    (h : ∀ p v s', view s p = none → view s' = update (view s) p (some v) →
      WP (f p) s' R) : WP (E.allocPage >>= f) s R := by
  obtain ⟨p, v, s', e, hn, hv⟩ := hE.alloc s
  exact WP.bind_ok e (h p v s' hn hv)

theorem wp_free {f : Unit → EStateM ε σ β} (hp : view s p ≠ none)
    (h : ∀ s', view s' = update (view s) p none → WP (f ()) s' R) :
    WP (E.freePage p >>= f) s R := by
  obtain ⟨s', e, hv⟩ := hE.free hp
  exact WP.bind_ok e (h s' hv)

end

variable {A : σ → Prop}

theorem always_read (hE : E.Lawful null view) (hp : view s p = some v) (h : Always (f v) s A) :
    Always (E.readPage p >>= f) s A :=
  Always.bind_ok (hE.read hp) h

theorem always_write (hE : E.Lawful null view) {f : Unit → EStateM ε σ β} (hp : view s p ≠ none)
    (h : ∀ s', view s' = update (view s) p (some v) → Always (f ()) s' A) :
    Always (E.writePage p v >>= f) s A := by
  obtain ⟨s', e, hv⟩ := hE.write v hp
  exact Always.bind_ok e (h s' hv)

theorem always_alloc (hE : E.Lawful null view) {f : PageId → EStateM ε σ β}
    (h : ∀ p v s', E.allocPage s = .ok p s' → view s p = none → p ≠ null →
      view s' = update (view s) p (some v) → Always (f p) s' A) :
    Always (E.allocPage >>= f) s A := by
  obtain ⟨p, v, s', e, hn, hv⟩ := hE.alloc s
  refine Always.bind_ok e (h p v s' e hn ?_ hv)
  rintro rfl
  simpa [hv] using hE.null_free s'

end StorageEngine.Lawful

/-! ## Heaps -/

namespace Heap

variable {P : Type}

@[simp] theorem update_self (H : Heap P) (p : PageId) (v : Option P) :
    Function.update H p v p = v := Function.update_self ..

variable {q p : PageId}

theorem update_ne (h : q ≠ p) (H : Heap P) (v : Option P) :
    update H p v q = H q := update_of_ne h ..

/-- A page outside a list of pages that `p` belongs to is not `p`. -/
theorem ne_of_not_mem {ps : List PageId} (hp : p ∈ ps) (hq : q ∉ ps) : q ≠ p :=
  fun h => hq (h ▸ hp)

end Heap

/-- From `H` to `H'`, the code that owned the pages `ps` owns `qs`: the other
allocated pages are unchanged, a page of `qs` was owned or not allocated, and no
other page of those is allocated at the end. -/
structure Keeps {P : Type} (H H' : Heap P) (ps qs : List PageId) : Prop where
  frame {p : PageId} : p ∉ ps → H p ≠ none → H' p = H p
  owned {p : PageId} : p ∈ qs → p ∈ ps ∨ H p = none
  freed {p : PageId} : p ∉ qs → p ∈ ps ∨ H p = none → H' p = none

namespace Keeps

variable {P : Type} {H H' H'' : Heap P} {ps qs rs : List PageId} {p : PageId}

theorem refl (H : Heap P) (ps : List PageId) : Keeps H H ps ps :=
  ⟨fun _ _ => rfl, Or.inl, fun hp h => h.resolve_left hp⟩

theorem congr {ps' qs' : List PageId} (h : Keeps H H' ps qs) (hps : ∀ p, p ∈ ps' ↔ p ∈ ps)
    (hqs : ∀ p, p ∈ qs' ↔ p ∈ qs) : Keeps H H' ps' qs' := by
  refine ⟨fun hp => h.frame (mt (hps _).mpr hp), fun hp => ?_, fun hp hq => ?_⟩
  · exact (h.owned ((hqs _).mp hp)).imp (hps _).mpr id
  · exact h.freed (mt (hqs _).mpr hp) (hq.imp (hps _).mp id)

/-- Pages that were allocated and not owned are not owned afterwards. -/
theorem not_mem (h : Keeps H H' ps qs) (hp : p ∉ ps) (hn : H p ≠ none) : p ∉ qs :=
  fun hq => (h.owned hq).elim hp hn

theorem trans (h1 : Keeps H H' ps qs) (h2 : Keeps H' H'' qs rs) : Keeps H H'' ps rs := by
  refine ⟨fun {p} hp hn => ?_, fun {p} hp => ?_, fun {p} hp hq => ?_⟩
  · have e := h1.frame hp hn
    rw [h2.frame (h1.not_mem hp hn) (e ▸ hn), e]
  · by_cases hps : p ∈ ps
    · exact .inl hps
    · rcases h2.owned hp with hq | hn
      · exact h1.owned hq
      · right; by_contra hH; exact hH (h1.frame hps hH ▸ hn)
  · by_cases hqs : p ∈ qs
    · exact h2.freed hp (.inl hqs)
    · exact h2.freed hp (.inr (h1.freed hqs hq))

theorem write (h : Keeps H H' ps qs) (hp : p ∈ qs) (v : P) :
    Keeps H (update H' p (some v)) ps qs := by
  refine h.trans ⟨fun hq _ => Heap.update_ne (Heap.ne_of_not_mem hp hq) .., Or.inl, fun hq hn => ?_⟩
  rw [Heap.update_ne (Heap.ne_of_not_mem hp hq)]
  exact hn.resolve_left hq

theorem alloc (h : Keeps H H' ps qs) (hp : H' p = none) (v : P) :
    Keeps H (update H' p (some v)) ps (p :: qs) := by
  refine h.trans ⟨fun {q} _ hn => Heap.update_ne (fun h : q = p => hn (h ▸ hp)) .., fun hq => ?_,
    fun {q} hq hn => ?_⟩
  · rcases mem_cons.mp hq with rfl | hq
    · exact .inr hp
    · exact .inl hq
  · rw [mem_cons, not_or] at hq
    rw [Heap.update_ne hq.1]
    exact hn.resolve_left hq.2

theorem free (h : Keeps H H' ps qs) (hp : qs.Perm (p :: rs)) (hnd : qs.Nodup) :
    Keeps H (update H' p none) ps rs := by
  have hmem := fun q => hp.mem_iff (a := q)
  have hrs : p ∉ rs := (nodup_cons.mp (hp.nodup_iff.mp hnd)).1
  refine h.trans ⟨fun {q} hq _ => Heap.update_ne (Heap.ne_of_not_mem ((hmem p).mpr (by simp)) hq) ..,
    fun {q} hq => .inl ((hmem q).mpr (mem_cons_of_mem _ hq)), fun {q} hq hn => ?_⟩
  by_cases hqp : q = p
  · rw [hqp, Heap.update_self]
  · rw [Heap.update_ne hqp]
    exact hn.resolve_left fun h => hq (((mem_cons.mp ((hmem q).mp h)).resolve_left hqp))

/-- The code owns other pages as well, and leaves them alone. -/
theorem exchange {fp fp' : List PageId} (h : Keeps H H' fp fp') (hps : ps.Perm (fp ++ rs))
    (hqs : qs.Perm (fp' ++ rs)) (hnd : ps.Nodup) (hlive : ∀ p ∈ rs, H p ≠ none) (hfp : fp'.Nodup) :
    qs.Nodup ∧ Keeps H H' ps qs ∧ ∀ p ∈ rs, H' p = H p := by
  obtain ⟨-, hrs, hdisj⟩ := nodup_append.mp (hps.nodup_iff.mp hnd)
  have hout {p : PageId} (hp : p ∈ rs) : p ∉ fp := fun hq => hdisj p hq p hp rfl
  have hps' (p : PageId) : p ∈ ps ↔ p ∈ fp ∨ p ∈ rs := hps.mem_iff.trans mem_append
  have hqs' (p : PageId) : p ∈ qs ↔ p ∈ fp' ∨ p ∈ rs := hqs.mem_iff.trans mem_append
  refine ⟨hqs.nodup_iff.mpr (nodup_append.mpr ⟨hfp, hrs, ?_⟩),
    ⟨fun hp hn => ?_, fun hp => ?_, fun hp hn => ?_⟩, fun p hp => h.frame (hout hp) (hlive p hp)⟩
  · rintro p hp _ hq rfl
    exact h.not_mem (hout hq) (hlive p hq) hp
  · exact h.frame (fun hq => hp ((hps' _).mpr (.inl hq))) hn
  · rcases (hqs' _).mp hp with hp | hp
    · exact (h.owned hp).imp (fun hq => (hps' _).mpr (.inl hq)) id
    · exact .inl ((hps' _).mpr (.inr hp))
  · rw [hqs', not_or] at hp
    exact h.freed hp.1 (hn.imp (fun h => ((hps' _).mp h).resolve_right hp.2) id)

end Keeps

/-- The code that owned `ps` in `H` owns `qs` in `H'`: distinct, allocated pages. -/
structure Owns {P : Type} (H H' : Heap P) (ps qs : List PageId) : Prop where
  keeps : Keeps H H' ps qs
  nodup : qs.Nodup
  live : ∀ p ∈ qs, H' p ≠ none

namespace Owns

variable {P : Type} {H H' H'' : Heap P} {ps qs rs : List PageId} {p : PageId}

theorem refl (hnd : ps.Nodup) (hlive : ∀ p ∈ ps, H p ≠ none) : Owns H H ps ps :=
  ⟨Keeps.refl H ps, hnd, hlive⟩

theorem perm (h : Owns H H' ps qs) (hp : rs.Perm qs) : Owns H H' ps rs :=
  ⟨h.keeps.congr (fun _ => Iff.rfl) fun _ => hp.mem_iff, hp.nodup_iff.mpr h.nodup,
    fun p hq => h.live p (hp.mem_iff.mp hq)⟩

theorem not_mem_of_free (h : Owns H H' ps qs) (hp : H' p = none) : p ∉ qs :=
  fun hq => h.live p hq hp

/-- A call on some of the pages. -/
theorem call {fp fp' Q : List PageId} (h : Owns H H' ps qs) (hqs : qs.Perm (fp ++ Q))
    (hc : Owns H' H'' fp fp') : Owns H H'' ps (fp' ++ Q) ∧ ∀ p ∈ Q, H'' p = H' p := by
  have hlive (p : PageId) (hp : p ∈ Q) : H' p ≠ none :=
    h.live p (hqs.mem_iff.mpr (mem_append_right _ hp))
  obtain ⟨hnd, hk, hsame⟩ := hc.keeps.exchange hqs (List.Perm.refl (fp' ++ Q)) h.nodup hlive hc.nodup
  refine ⟨⟨h.keeps.trans hk, hnd, fun p hp => ?_⟩, hsame⟩
  rcases mem_append.mp hp with hp | hp
  · exact hc.live p hp
  · rw [hsame p hp]; exact hlive p hp

end Owns

/-! ## Engine operations on owned pages -/

namespace StorageEngine.Lawful

variable {ε σ P β : Type} {E : StorageEngine ε σ P} {null : PageId} {view : σ → Heap P} {s : σ}
  {p : PageId} {R : β → σ → Prop} {H : Heap P} {ps qs : List PageId}

theorem wp_alloc_own (hE : E.Lawful null view) {f : PageId → EStateM ε σ β}
    (o : Owns H (view s) ps qs) (h : ∀ p s', Owns H (view s') ps (p :: qs) → p ∉ qs →
      (∀ q, q ≠ p → view s' q = view s q) → WP (f p) s' R) : WP (E.allocPage >>= f) s R := by
  refine hE.wp_alloc fun p v s' hp hv => h p s' ?_ (o.not_mem_of_free hp) fun q hq => ?_
  · refine ⟨hv ▸ o.keeps.alloc hp v, nodup_cons.mpr ⟨o.not_mem_of_free hp, o.nodup⟩, fun q hq => ?_⟩
    rw [hv]
    by_cases hqp : q = p
    · simp [hqp]
    · rw [Heap.update_ne hqp]; exact o.live q ((mem_cons.mp hq).resolve_left hqp)
  · rw [hv, Heap.update_ne hq]

theorem wp_write_own (hE : E.Lawful null view) {v : P} {f : Unit → EStateM ε σ β}
    (o : Owns H (view s) ps qs) (hp : p ∈ qs)
    (h : ∀ s', Owns H (view s') ps qs → view s' p = some v →
      (∀ q, q ≠ p → view s' q = view s q) → WP (f ()) s' R) : WP (E.writePage p v >>= f) s R := by
  refine hE.wp_write (o.live p hp) fun s' hv => h s' ⟨hv ▸ o.keeps.write hp v, o.nodup, ?_⟩ ?_ ?_
  · intro q hq
    rw [hv]
    by_cases hqp : q = p
    · simp [hqp]
    · rw [Heap.update_ne hqp]; exact o.live q hq
  · rw [hv, Heap.update_self]
  · intro q hq; rw [hv, Heap.update_ne hq]

theorem wp_free_own (hE : E.Lawful null view) {f : Unit → EStateM ε σ β} {Q : List PageId}
    (o : Owns H (view s) ps qs) (hp : qs.Perm (p :: Q))
    (h : ∀ s', Owns H (view s') ps Q → (∀ q, q ≠ p → view s' q = view s q) → WP (f ()) s' R) :
    WP (E.freePage p >>= f) s R := by
  have hmem : p ∈ qs := hp.mem_iff.mpr mem_cons_self
  obtain ⟨hpQ, hQ⟩ := nodup_cons.mp (hp.nodup_iff.mp o.nodup)
  have hother (s' : σ) (hv : view s' = update (view s) p none) (q : PageId) (hq : q ≠ p) :
      view s' q = view s q := by rw [hv, Heap.update_ne hq]
  refine hE.wp_free (o.live p hmem) fun s' hv =>
    h s' ⟨hv ▸ o.keeps.free hp o.nodup, hQ, fun q hq => ?_⟩ (hother s' hv)
  rw [hother s' hv q fun h => hpQ (h ▸ hq)]
  exact o.live q (hp.mem_iff.mpr (mem_cons_of_mem _ hq))

end StorageEngine.Lawful

end AxiomDb.Lib
