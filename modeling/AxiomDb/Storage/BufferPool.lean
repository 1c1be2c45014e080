import AxiomDb.Core

/-!
# The buffer pool

A pool of pages in 16 shards, each an array of slots with a clock hand. A page is in
the slot that the index of its shard says (`CacheShard.Indexed`). To its users a pool
is a partial map (`BufferPool.lookup`): `insert` adds a page and may drop another one,
`invalidate` drops a page, and nothing else changes what is found.
-/

namespace AxiomDb.Storage

open Lib Function List Option

variable {P : Type}

/-- `Slot` in `buffer_pool.rs`. -/
structure CacheSlot (P : Type) where
  pageId : PageId
  page : P
  referenced : Bool

def CacheSlot.content (s : CacheSlot P) : PageId × P := (s.pageId, s.page)

/-- `CacheShard`, without the counts of hits and misses. -/
structure CacheShard (P : Type) where
  slots : List (Option (CacheSlot P))
  index : PageId → Option Nat
  hand : Nat

namespace CacheShard

/-- `CacheShard::new` in `buffer_pool.rs`. -/
def new (capacity : Nat) : CacheShard P := ⟨List.replicate (max capacity 1) none, fun _ => none, 0⟩

section

variable (c : CacheShard P)

/-- The page that is found. -/
def lookup (pageId : PageId) : Option P := do
  let idx ← c.index pageId
  let slot ← (c.slots[idx]?).join
  some slot.page

/-- A hit sets the reference bit. -/
def get (pageId : PageId) : Option P × CacheShard P :=
  match c.index pageId with
  | some idx => match (c.slots[idx]?).join with
    | some slot =>
      (some slot.page, { c with slots := c.slots.set idx (some { slot with referenced := true }) })
    | none => (none, c)  -- the source's `expect`, which `Indexed` rules out
  | none => (none, c)

/-- The sweep of `free_slot`. `pinned` are the pages that a reader still holds. -/
def sweep (pinned : PageId → Bool) : Nat → CacheShard P → Nat × CacheShard P
  | 0, c => (c.slots.length, { c with slots := c.slots ++ [none] })
  | steps + 1, c =>
    if c.slots.isEmpty then (c.slots.length, { c with slots := c.slots ++ [none] })
    else
      let i := c.hand % c.slots.length
      match (c.slots[i]?).join with
      | none => (i, c)
      | some slot =>
        if slot.referenced then
          sweep pinned steps
            { c with slots := c.slots.set i (some { slot with referenced := false }), hand := i + 1 }
        else if pinned slot.pageId then sweep pinned steps { c with hand := i + 1 }
        else
          (i, { c with
            index := Function.update c.index slot.pageId none
            slots := c.slots.set i none })

/-- `CacheShard::free_slot` in `buffer_pool.rs`. -/
def freeSlot (pinned : PageId → Bool) : Nat × CacheShard P :=
  c.sweep pinned (c.slots.length * 2 + 2)

/-- `CacheShard::insert` in `buffer_pool.rs`. -/
def insert (pinned : PageId → Bool) (pageId : PageId) (page : P) : CacheShard P :=
  match c.index pageId with
  | some idx => { c with slots := c.slots.set idx (some ⟨pageId, page, false⟩) }
  | none =>
    let (idx, c') := c.freeSlot pinned
    { slots := c'.slots.set idx (some ⟨pageId, page, false⟩)
      index := Function.update c'.index pageId (some idx)
      hand := idx + 1 }

/-- `CacheShard::invalidate` in `buffer_pool.rs`. -/
def invalidate (pageId : PageId) : CacheShard P :=
  match c.index pageId with
  | some idx => { c with index := Function.update c.index pageId none, slots := c.slots.set idx none }
  | none => c

/-- The index has exactly the slots that are in use. -/
def Indexed : Prop :=
  ∀ pageId i, c.index pageId = some i ↔ ∃ slot, (c.slots[i]?).join = some slot ∧ slot.pageId = pageId

end

theorem getElem?_set_join {l : List (Option (CacheSlot P))} {i j : Nat} {x : Option (CacheSlot P)}
    (hi : i < l.length) : ((l.set i x)[j]?).join = if i = j then x else (l[j]?).join := by
  by_cases h : i = j
  · rw [← h, getElem?_set_self hi, if_pos rfl]
    rfl
  · rw [getElem?_set_ne h, if_neg h]

theorem lt_length_of_join {l : List (Option (CacheSlot P))} {i : Nat} {slot : CacheSlot P}
    (h : (l[i]?).join = some slot) : i < l.length := by
  by_contra hi
  rw [getElem?_eq_none (Nat.not_lt.1 hi)] at h
  cases h

theorem join_append_none (l : List (Option (CacheSlot P))) (i : Nat) :
    ((l ++ [none])[i]?).join = (l[i]?).join := by
  rcases lt_trichotomy i l.length with h | rfl | h
  · rw [getElem?_append_left h]
  · simp
  · rw [getElem?_eq_none (by simp; omega), getElem?_eq_none (by omega)]

theorem indexed_new (capacity : Nat) : (new capacity : CacheShard P).Indexed := by
  intro pageId i
  constructor
  · intro h
    cases h
  · rintro ⟨slot, h, -⟩
    rw [new, getElem?_replicate] at h
    split at h <;> cases h

variable {c c' : CacheShard P} {pageId : PageId} {page : P} {i : Nat} {slot : CacheSlot P}

section

variable (h : c.Indexed)
include h

/-- Where the index and the slots' pages are the same, so is what is found. -/
theorem same_slots (hindex : c'.index = c.index)
    (hslots : ∀ j : Nat, ((c'.slots[j]?).join).map CacheSlot.content =
      ((c.slots[j]?).join).map CacheSlot.content) : c'.Indexed ∧ c'.lookup = c.lookup := by
  constructor
  · intro p j
    have hid : ∀ o : Option (CacheSlot P), (∃ s, o = some s ∧ s.pageId = p) ↔
        (o.map CacheSlot.content).map Prod.fst = some p := by
      intro o
      cases o <;> simp [CacheSlot.content]
    rw [hindex, h p j, hid, hid, hslots j]
  · funext p
    have hpage : ∀ o : Option (CacheSlot P), (o.bind fun s => some s.page) =
        (o.map CacheSlot.content).map Prod.snd := by
      intro o
      cases o <;> rfl
    have hbind : ∀ d : CacheShard P, d.lookup p =
        (d.index p).bind fun j => ((d.slots[j]?).join).bind fun s => some s.page := fun _ => rfl
    rw [hbind, hbind, hindex]
    refine bind_congr fun j _ => ?_
    rw [hpage, hpage, hslots j]

theorem set_referenced (hi : (c.slots[i]?).join = some slot) (b : Bool) (hand : Nat) :
    let c' := { c with slots := c.slots.set i (some { slot with referenced := b }), hand }
    c'.Indexed ∧ c'.lookup = c.lookup := by
  refine same_slots h rfl fun j => ?_
  rw [getElem?_set_join (lt_length_of_join hi)]
  split
  next heq =>
    rw [← heq, hi]
    rfl
  · rfl

theorem get_spec (pageId : PageId) : (c.get pageId).1 = c.lookup pageId ∧
    (c.get pageId).2.Indexed ∧ (c.get pageId).2.lookup = c.lookup := by
  have hbind : c.lookup pageId = (c.index pageId).bind fun j =>
      ((c.slots[j]?).join).bind fun s => some s.page := rfl
  rw [get, hbind]
  cases hidx : c.index pageId with
  | none => exact ⟨rfl, h, rfl⟩
  | some idx =>
    obtain ⟨slot, hslot, -⟩ := (h pageId idx).1 hidx
    simp only [hslot, bind_some, true_and]
    exact set_referenced h hslot true c.hand

/-- A slot that is the page's own or nobody's gets the page, or is emptied. -/
theorem store_spec (pageId : PageId) (hand : Nat) (hlt : i < c.slots.length)
    (hslot : ∀ q, c.index q = some i → q = pageId) (hpage : ∀ j, c.index pageId = some j → j = i)
    (o : Option P) : let c' : CacheShard P :=
      { slots := c.slots.set i (o.map (⟨pageId, ·, false⟩))
        index := update c.index pageId (o.map fun _ => i)
        hand := hand }
    c'.Indexed ∧ c'.lookup = update c.lookup pageId o := by
  constructor
  · intro q j
    dsimp only
    rw [getElem?_set_join hlt]
    by_cases hq : q = pageId
    · subst hq
      rw [update_self]
      by_cases hj : i = j
      · cases o <;> simp [hj]
      · rw [if_neg hj]
        refine iff_of_false (fun hi => ?_) fun hs => hj (hpage j ((h q j).2 hs)).symm
        obtain ⟨_, -, rfl⟩ := map_eq_some_iff.1 hi
        exact hj rfl
    rw [update_of_ne hq, h q j]
    split
    next hj =>
      subst hj
      refine iff_of_false (fun hs => hq (hslot q ((h q i).2 hs))) ?_
      rintro ⟨s, hs, rfl⟩
      obtain ⟨_, -, rfl⟩ := map_eq_some_iff.1 hs
      exact hq rfl
    · rfl
  · funext q
    rw [lookup]
    dsimp only
    by_cases hq : q = pageId
    · subst hq
      rw [update_self, update_self]
      cases o with
      | none => rfl
      | some page =>
        dsimp only [Option.map, bind, Option.bind]
        rw [getElem?_set_join hlt, if_pos rfl]
    rw [update_of_ne hq, update_of_ne hq, lookup]
    cases hj : c.index q with
    | none => rfl
    | some j =>
      dsimp only [bind, Option.bind]
      rw [getElem?_set_join hlt, if_neg]
      rintro rfl
      exact hq (hslot q hj)

theorem remove_spec (hi : (c.slots[i]?).join = some slot) :
    let c' := { c with index := update c.index slot.pageId none, slots := c.slots.set i none }
    c'.Indexed ∧ c'.lookup = update c.lookup slot.pageId none := by
  have hslot : c.index slot.pageId = some i := (h slot.pageId i).2 ⟨slot, hi, rfl⟩
  refine store_spec h slot.pageId c.hand (lt_length_of_join hi) (fun q hq => ?_) (fun j hj => ?_) none
  · obtain ⟨s, hs, rfl⟩ := (h q i).1 hq
    cases hi.symm.trans hs
    rfl
  · exact some.inj (hj.symm.trans hslot)

theorem invalidate_spec (pageId : PageId) : (c.invalidate pageId).Indexed ∧
      (c.invalidate pageId).lookup = update c.lookup pageId none := by
  rw [invalidate]
  cases hidx : c.index pageId with
  | none =>
    refine ⟨h, ?_⟩
    rw [eq_comm, update_eq_self_iff, lookup, hidx]
    rfl
  | some idx =>
    obtain ⟨slot, hslot, rfl⟩ := (h pageId idx).1 hidx
    exact remove_spec h hslot

/-- A free slot has been found, and no page but one at most is not found any more. -/
structure Freed (c : CacheShard P) (r : Nat × CacheShard P) : Prop where
  indexed : r.2.Indexed
  bound : r.1 < r.2.slots.length
  empty : (r.2.slots[r.1]?).join = none
  kept : ∀ q, r.2.lookup q = c.lookup q ∨ r.2.lookup q = none
  absent : ∀ q, c.index q = none → r.2.index q = none
  one : ∀ p q, r.2.lookup p ≠ c.lookup p → r.2.lookup q ≠ c.lookup q → p = q

theorem freed_grow (pinned : PageId → Bool) :
    let r := (c.slots.length, { c with slots := c.slots ++ [none] })
    Freed c r ∧ ∀ q, pinned q → r.2.lookup q = c.lookup q := by
  have hsame : _ ∧ { c with slots := c.slots ++ [none] }.lookup = c.lookup :=
    same_slots h rfl fun j => by rw [join_append_none]
  refine ⟨?_, fun q _ => congrFun hsame.2 q⟩
  exact
    { indexed := hsame.1
      bound := by simp
      empty := by simp
      kept := fun q => .inl (congrFun hsame.2 q)
      absent := fun q hq => hq
      one := fun p q hp => absurd (congrFun hsame.2 p) hp }

end

theorem Freed.trans {r : Nat × CacheShard P} (hlookup : c'.lookup = c.lookup) (hindex : c'.index = c.index)
    (h : Freed c' r) : Freed c r :=
  { h with
    kept := fun q => hlookup ▸ h.kept q
    one := fun p q => hlookup ▸ h.one p q
    absent := fun q hq => h.absent q (by rw [hindex, hq]) }

/-- Every step of the sweep leaves what is found as it is, but the last one may drop a
page that no reader holds. -/
theorem sweep_spec (pinned : PageId → Bool) (steps : Nat) (h : c.Indexed) :
    Freed c (c.sweep pinned steps) ∧
      ∀ q, pinned q → (c.sweep pinned steps).2.lookup q = c.lookup q := by
  induction steps generalizing c with
  | zero => exact freed_grow h pinned
  | succ steps ih =>
    rw [sweep]
    split
    · exact freed_grow h pinned
    rename_i hne
    have hpos : 0 < c.slots.length := by
      rw [List.isEmpty_iff] at hne
      exact length_pos_iff.2 hne
    have hlt := Nat.mod_lt c.hand hpos
    dsimp only
    cases hs : (c.slots[c.hand % c.slots.length]?).join with
    | none => exact ⟨⟨h, hlt, hs, fun _ => .inl rfl, fun _ hq => hq, fun _ _ hp => absurd rfl hp⟩,
        fun _ _ => rfl⟩
    | some slot =>
      dsimp only
      split
      · have hset := set_referenced h hs false (c.hand % c.slots.length + 1)
        rw [← hset.2]
        exact ⟨(ih hset.1).1.trans hset.2 rfl, (ih hset.1).2⟩
      split
      · have hsame : _ ∧ { c with hand := c.hand % c.slots.length + 1 }.lookup = c.lookup :=
          same_slots h rfl fun j => rfl
        rw [← hsame.2]
        exact ⟨(ih hsame.1).1.trans hsame.2 rfl, (ih hsame.1).2⟩
      rename_i hpin
      have hrem := remove_spec h hs
      have hother : ∀ q, pinned q → q ≠ slot.pageId := by
        rintro _ hq rfl
        exact hpin hq
      have hlost : ∀ q, _ ≠ c.lookup q → q = slot.pageId := fun q hq => by
        by_contra hne
        exact hq ((congrFun hrem.2 q).trans (update_of_ne hne _ _))
      refine ⟨?_, fun q hq => by rw [hrem.2, update_of_ne (hother q hq)]⟩
      exact
        { indexed := hrem.1
          bound := by simpa using hlt
          empty := by rw [getElem?_set_join hlt, if_pos rfl]
          kept := fun q => by
            rw [hrem.2]
            by_cases hq : q = slot.pageId
            · exact .inr (by rw [hq, update_self])
            · exact .inl (update_of_ne hq _ _)
          absent := fun q hq => by
            dsimp only
            by_cases hq' : q = slot.pageId
            · rw [hq', update_self]
            · rw [update_of_ne hq', hq]
          one := fun p q hp hq => (hlost p hp).trans (hlost q hq).symm }

/-- How many slots the hand passes before it is at slot `j`. -/
def distance (n hand j : Nat) : Nat :=
  if hand % n ≤ j then j - hand % n else j + n - hand % n

theorem distance_lt {n j : Nat} (hand : Nat) (hj : j < n) : distance n hand j < n := by
  have := Nat.mod_lt hand (Nat.zero_lt_of_lt hj)
  rw [distance]
  split <;> omega

theorem distance_next {n hand j : Nat} (hj : j < n) (hne : hand % n ≠ j) :
    distance n (hand % n + 1) j + 1 = distance n hand j := by
  have hlt := Nat.mod_lt hand (Nat.zero_lt_of_lt hj)
  rw [distance, distance]
  rcases Nat.lt_or_eq_of_le (Nat.succ_le_of_lt hlt) with hnext | hnext
  · rw [Nat.mod_eq_of_lt hnext]
    split <;> split <;> omega
  · rw [show hand % n + 1 = n from hnext, Nat.mod_self]
    split <;> split <;> omega

/-- The sweep passes a slot twice before it gives up, and the reference bit saves the page there
only once. -/
theorem length_sweep {pinned : PageId → Bool} {j : Nat} (steps : Nat) (hj : j < c.slots.length)
    (hfree : ∀ slot, (c.slots[j]?).join = some slot → ¬pinned slot.pageId ∧
      (slot.referenced → c.slots.length + distance c.slots.length c.hand j < steps))
    (hsteps : distance c.slots.length c.hand j < steps) :
    (c.sweep pinned steps).2.slots.length = c.slots.length := by
  induction steps generalizing c with
  | zero => omega
  | succ steps ih =>
    rw [sweep, if_neg (by rw [List.isEmpty_iff]; rintro hnil; simp [hnil] at hj)]
    dsimp only
    generalize hi : c.hand % c.slots.length = i
    have hlt : i < c.slots.length := hi ▸ Nat.mod_lt c.hand (Nat.zero_lt_of_lt hj)
    -- the rest of the sweep, from the slot behind `i`
    have hrest {l : List (Option (CacheSlot P))} (hl : l.length = c.slots.length)
        (hl' : ∀ slot, (l[j]?).join = some slot → ¬pinned slot.pageId ∧
          (slot.referenced → i ≠ j ∧ (c.slots[j]?).join = some slot))
        (hij : i = j → c.slots.length < steps + 1) :
        (sweep pinned steps { c with slots := l, hand := i + 1 }).2.slots.length =
          c.slots.length := by
      have hnext : i ≠ j → distance c.slots.length (i + 1) j + 1 =
          distance c.slots.length c.hand j := fun hne => hi ▸ distance_next hj (hi ▸ hne)
      have hbound := distance_lt (i + 1) hj
      refine (ih (c := { c with slots := l, hand := i + 1 }) (hl ▸ hj) (fun slot hslot => ?_) ?_).trans hl
      · refine ⟨(hl' slot hslot).1, fun href => ?_⟩
        obtain ⟨hne, hold⟩ := (hl' slot hslot).2 href
        have := (hfree slot hold).2 href
        have := hnext hne
        simp only [hl]
        omega
      · simp only [hl]
        by_cases hne : i = j
        · have := hij hne
          omega
        · have := hnext hne
          omega
    cases hs : (c.slots[i]?).join with
    | none => rfl
    | some slot =>
      dsimp only
      split
      next href =>
        refine hrest (by rw [length_set]) (fun slot' hslot' => ?_) (fun hij => ?_)
        · rw [getElem?_set_join hlt] at hslot'
          split at hslot'
          next hij =>
            cases hslot'
            exact ⟨(hfree slot (hij ▸ hs)).1, fun h => nomatch h⟩
          next hij => exact ⟨(hfree slot' hslot').1, fun _ => ⟨hij, hslot'⟩⟩
        · have := (hfree slot (hij ▸ hs)).2 href
          omega
      next href =>
        split
        next hpin =>
          refine hrest rfl (fun slot' hslot' => ?_) (fun hij => ?_)
          · refine ⟨(hfree slot' hslot').1, fun href' => ⟨?_, hslot'⟩⟩
            rintro rfl
            exact (hfree slot hs).1 hpin
          · exact absurd hpin (hfree slot (hij ▸ hs)).1
        next => exact length_set

/-- While every slot is in use and held, the sweep passes all of them. -/
theorem length_sweep_of_held {pinned : PageId → Bool} (steps : Nat)
    (hheld : ∀ j < c.slots.length, ∃ slot, (c.slots[j]?).join = some slot ∧ pinned slot.pageId) :
    (c.sweep pinned steps).2.slots.length = c.slots.length + 1 := by
  induction steps generalizing c with
  | zero => simp [sweep]
  | succ steps ih =>
    rw [sweep]
    split
    · simp
    rename_i hne
    have hlt : c.hand % c.slots.length < c.slots.length :=
      Nat.mod_lt c.hand (length_pos_iff.2 (by rwa [List.isEmpty_iff] at hne))
    obtain ⟨slot, hs, hpin⟩ := hheld _ hlt
    simp only [hs]
    split
    · refine (ih fun j hj => ?_).trans (by rw [length_set])
      rw [length_set] at hj
      dsimp only
      rw [getElem?_set_join hlt]
      split
      · exact ⟨_, rfl, hpin⟩
      · exact hheld j hj
    · exact ih hheld

/-- `free_slot` grows the shard just if every slot is in use and its page held. -/
theorem freeSlot_grows_iff (pinned : PageId → Bool) :
    c.slots.length < (c.freeSlot pinned).2.slots.length ↔
      ∀ j < c.slots.length, ∃ slot, (c.slots[j]?).join = some slot ∧ pinned slot.pageId := by
  constructor
  · intro hgrows j hj
    by_contra hnot
    have hfree (slot : CacheSlot P) (hs : (c.slots[j]?).join = some slot) : ¬pinned slot.pageId :=
      fun hpin => hnot ⟨slot, hs, hpin⟩
    have hdist := distance_lt c.hand hj
    refine absurd (length_sweep _ hj (fun slot hs => ⟨hfree slot hs, fun _ => ?_⟩) ?_) hgrows.ne'
    all_goals omega
  · intro hheld
    rw [freeSlot, length_sweep_of_held _ hheld]
    exact Nat.lt_succ_self _

theorem insert_spec (h : c.Indexed) (pinned : PageId → Bool) (pageId : PageId) (page : P) :
    (c.insert pinned pageId page).Indexed ∧ (c.insert pinned pageId page).lookup pageId = some page ∧
      ∀ q ≠ pageId, (c.insert pinned pageId page).lookup q = c.lookup q ∨
        (c.insert pinned pageId page).lookup q = none ∧ ¬pinned q := by
  rw [insert]
  cases hidx : c.index pageId with
  | some idx =>
    obtain ⟨slot, hslot, hpid⟩ := (h pageId idx).1 hidx
    have hput := store_spec h pageId c.hand (lt_length_of_join hslot) (fun q hq => by
      obtain ⟨s, hs, rfl⟩ := (h q idx).1 hq
      cases hslot.symm.trans hs
      exact hpid) (fun j hj => by
        rw [hidx] at hj
        exact (some.inj hj).symm) (some page)
    rw [map_some, map_some, update_eq_self_iff.2 hidx.symm] at hput
    refine ⟨hput.1, ?_, fun q hq => .inl ?_⟩
    · rw [hput.2, update_self]
    · rw [hput.2, update_of_ne hq]
  | none =>
    obtain ⟨hfree, hpin⟩ : Freed c (c.freeSlot pinned) ∧ _ := sweep_spec pinned _ h
    have hput := store_spec hfree.indexed pageId ((c.freeSlot pinned).1 + 1) hfree.bound
      (fun q hq => by
        obtain ⟨s, hs, -⟩ := (hfree.indexed q _).1 hq
        rw [hfree.empty] at hs
        cases hs) (fun j hj => by
          rw [hfree.absent pageId hidx] at hj
          cases hj) (some page)
    rw [map_some, map_some] at hput
    refine ⟨hput.1, ?_, fun q hq => ?_⟩
    · rw [hput.2, update_self]
    · rw [hput.2, update_of_ne hq]
      by_cases hp : pinned q
      · exact .inl (hpin q hp)
      · exact (hfree.kept q).imp_right fun hnone => ⟨hnone, hp⟩

/-! ### Runs -/

inductive Call (P : Type) where
  | get (pageId : PageId)
  | insert (pinned : PageId → Bool) (pageId : PageId) (page : P)
  | invalidate (pageId : PageId)

def call (c : CacheShard P) : Call P → CacheShard P
  | .get pageId => (c.get pageId).2
  | .insert pinned pageId page => c.insert pinned pageId page
  | .invalidate pageId => c.invalidate pageId

/-- The pages that were inserted last and have not been invalidated. -/
def Call.record (last : PageId → Option P) : Call P → PageId → Option P
  | .get _ => last
  | .insert _ pageId page => update last pageId (some page)
  | .invalidate pageId => update last pageId none

theorem call_spec (h : c.Indexed) (e : Call P) : (c.call e).Indexed ∧
    ∀ q, (c.call e).lookup q = e.record c.lookup q ∨ (c.call e).lookup q = none ∧
      ∃ pinned pageId page, e = .insert pinned pageId page ∧ q ≠ pageId ∧ ¬pinned q := by
  cases e with
  | get pageId =>
    obtain ⟨-, hindexed, hlookup⟩ := get_spec h pageId
    exact ⟨hindexed, fun q => .inl (congrFun hlookup q)⟩
  | insert pinned pageId page =>
    obtain ⟨hindexed, hself, hother⟩ := insert_spec h pinned pageId page
    refine ⟨hindexed, fun q => ?_⟩
    by_cases hq : q = pageId
    · subst hq
      rw [Call.record, update_self]
      exact .inl hself
    · rw [Call.record, update_of_ne hq]
      exact (hother q hq).imp_right fun ⟨hnone, hp⟩ => ⟨hnone, pinned, pageId, page, rfl, hq, hp⟩
  | invalidate pageId =>
    obtain ⟨hindexed, hlookup⟩ := invalidate_spec h pageId
    exact ⟨hindexed, fun q => .inl (congrFun hlookup q)⟩

/-- **A shard.** After any calls the index has exactly the slots in use, a hit is the page that was
inserted last, a call changes what is found as its record says except for pages that an insertion
drops and nobody holds, and `free_slot` ends with a slot that is free. -/
theorem shard_serves_last_inserted (capacity : Nat) (calls : List (Call P)) :
    let c := calls.foldl call (new capacity)
    c.Indexed ∧
    (∀ q, (c.get q).1 = c.lookup q ∧
      (c.lookup q = none ∨ c.lookup q = calls.foldl Call.record (fun _ => none) q)) ∧
    (∀ e q, (c.call e).lookup q = Call.record c.lookup e q ∨ (c.call e).lookup q = none ∧
      ∃ pinned pageId page, e = .insert pinned pageId page ∧ q ≠ pageId ∧ ¬pinned q) ∧
    ∀ pinned, Freed c (c.freeSlot pinned) ∧
      ∀ q, pinned q → (c.freeSlot pinned).2.lookup q = c.lookup q := by
  intro c
  have hrun : c.Indexed ∧ ∀ q, c.lookup q = none ∨
      c.lookup q = calls.foldl Call.record (fun _ => none) q := by
    induction calls using reverseRecOn with
    | nil => exact ⟨indexed_new capacity, fun q => .inl rfl⟩
    | append_singleton calls e ih =>
      simp only [c, foldl_append, foldl_cons, foldl_nil]
      obtain ⟨hindexed, hcall⟩ := call_spec ih.1 e
      refine ⟨hindexed, fun q => ?_⟩
      rcases hcall q with heq | ⟨hnone, -⟩
      · rw [heq]
        cases e with
        | get => exact ih.2 q
        | insert _ pageId | invalidate pageId =>
          by_cases hq : q = pageId
          · exact .inr (by simp [Call.record, hq])
          · simpa [Call.record, hq] using ih.2 q
      · exact .inl hnone
  exact ⟨hrun.1, fun q => ⟨(get_spec hrun.1 q).1, hrun.2 q⟩, fun e => (call_spec hrun.1 e).2,
    fun pinned => sweep_spec pinned _ hrun.1⟩

end CacheShard

/-! ## The pool -/

def NUM_SHARDS : Nat := 16

/-- The shards, each with the slots that its index has. -/
structure BufferPool (P : Type) where
  shards : Nat → CacheShard P
  indexed : ∀ i, (shards i).Indexed

namespace BufferPool

/-- `BufferPool::with_capacity` in `buffer_pool.rs`. -/
def withCapacity (totalPages : Nat) : BufferPool P where
  shards _ := .new (totalPages / NUM_SHARDS)
  indexed _ := CacheShard.indexed_new _

/-- `page_id & (NUM_SHARDS - 1)` -/
def shardIdx (pageId : PageId) : Nat := pageId % NUM_SHARDS

variable (pool : BufferPool P)

/-- The pool after a change of the shard of a page. -/
def modify (pageId : PageId) (shard : CacheShard P) (h : shard.Indexed) : BufferPool P where
  shards := Function.update pool.shards (shardIdx pageId) shard
  indexed i := by
    by_cases hi : i = shardIdx pageId
    · rw [hi, update_self]
      exact h
    · rw [update_of_ne hi]
      exact pool.indexed i

/-- `BufferPool::get` in `buffer_pool.rs`. -/
def get (pageId : PageId) : Option P × BufferPool P :=
  let r := (pool.shards (shardIdx pageId)).get pageId
  (r.1, pool.modify pageId r.2 (CacheShard.get_spec (pool.indexed _) pageId).2.1)

/-- `BufferPool::insert` in `buffer_pool.rs`. -/
def insert (pinned : PageId → Bool) (pageId : PageId) (page : P) : BufferPool P :=
  pool.modify pageId ((pool.shards (shardIdx pageId)).insert pinned pageId page)
    (CacheShard.insert_spec (pool.indexed _) pinned pageId page).1

/-- `BufferPool::invalidate` in `buffer_pool.rs`. -/
def invalidate (pageId : PageId) : BufferPool P :=
  pool.modify pageId ((pool.shards (shardIdx pageId)).invalidate pageId)
    (CacheShard.invalidate_spec (pool.indexed _) pageId).1

/-- The pages of the pool. -/
def lookup (pageId : PageId) : Option P := (pool.shards (shardIdx pageId)).lookup pageId

variable {pool}

theorem lookup_modify {pageId : PageId} {shard : CacheShard P} {h : shard.Indexed} (q : PageId) :
    (pool.modify pageId shard h).lookup q =
      if shardIdx q = shardIdx pageId then shard.lookup q else pool.lookup q := by
  rw [lookup, modify]
  dsimp only
  rw [update_apply]
  split
  · rfl
  · rfl

theorem get_fst (pageId : PageId) : (pool.get pageId).1 = pool.lookup pageId :=
  (CacheShard.get_spec (pool.indexed _) pageId).1

@[simp] theorem lookup_get (pageId q : PageId) : (pool.get pageId).2.lookup q = pool.lookup q := by
  rw [get, lookup_modify, (CacheShard.get_spec (pool.indexed _) pageId).2.2]
  split
  next hq => rw [lookup, hq]
  · rfl

@[simp] theorem lookup_invalidate (pageId q : PageId) :
    (pool.invalidate pageId).lookup q = if q = pageId then none else pool.lookup q := by
  rw [invalidate, lookup_modify, (CacheShard.invalidate_spec (pool.indexed _) pageId).2]
  by_cases hq : q = pageId
  · rw [if_pos (congrArg shardIdx hq), if_pos hq, hq, update_self]
  rw [if_neg hq, update_of_ne hq]
  split
  next hs => rw [lookup, hs]
  · rfl

theorem lookup_insert_self (pinned : PageId → Bool) (pageId : PageId) (page : P) :
    (pool.insert pinned pageId page).lookup pageId = some page := by
  rw [insert, lookup_modify, if_pos rfl]
  exact (CacheShard.insert_spec (pool.indexed _) pinned pageId page).2.1

theorem lookup_insert_of_ne (pinned : PageId → Bool) {pageId q : PageId} (page : P) (hq : q ≠ pageId) :
    (pool.insert pinned pageId page).lookup q = pool.lookup q ∨
      (pool.insert pinned pageId page).lookup q = none := by
  rw [insert, lookup_modify]
  split
  next hs =>
    rw [lookup, hs]
    exact ((CacheShard.insert_spec (pool.indexed _) pinned pageId page).2.2 q hq).imp_right And.left
  · exact .inl rfl

end BufferPool

end AxiomDb.Storage
