import AxiomDb.Lock.Manager

/-!
# Brent's algorithm on the wait-for map

What `detect_cycle` returns are the members of a cycle, and whoever leads to a cycle of at most 10000
members gets them.
-/

namespace AxiomDb.Lock

open Heap Relation List Function Option

/-- The first transaction waits for the second in the map. -/
def Edge (waitFor : WaitForMap) (a b : TxnId) : Prop :=
  ∃ edge, waitFor a = some edge ∧ edge.blockingTxn = b

variable {waitFor : WaitForMap} {start hare tortoise : TxnId} {cycle : List TxnId} {a b : TxnId}
  {fuel power lambda : Nat}

/-- The hare meets the tortoise on a cycle. -/
theorem findMeeting_sound {meet : TxnId}
    (ht : ReflTransGen (Edge waitFor) tortoise hare)
    (h : findMeeting waitFor start fuel tortoise hare power lambda = some (some meet)) :
    ReflTransGen (Edge waitFor) hare meet ∧ TransGen (Edge waitFor) meet meet := by
  induction fuel generalizing tortoise hare power lambda with
  | zero => cases h
  | succ fuel ih =>
    rw [findMeeting] at h
    rcases hw : waitFor hare with _ | edge
    · simp [hw] at h
    have hedge : Edge waitFor hare edge.blockingTxn := ⟨edge, hw, rfl⟩
    simp only [hw] at h
    split_ifs at h with hmeet
    · cases h
      exact ⟨.single hedge, .tail' (hmeet ▸ ht) hedge⟩
    · cases h
    · cases h
    · exact (ih .refl h).imp_left (.head hedge)
    · exact (ih (ht.tail hedge) h).imp_left (.head hedge)

theorem selectVictim_mem (h : cycle ≠ []) (waitMs : TxnId → Nat) :
    selectVictim cycle waitMs ∈ cycle := by
  have hfold : ∀ (l : List TxnId) (best : TxnId × Nat), best.1 ∈ cycle → (∀ t ∈ l, t ∈ cycle) →
      (l.foldl (fun best txnId =>
        let score := min (waitMs txnId) (2 ^ 64 - 1)
        if score < best.2 ∨ score = best.2 ∧ txnId > best.1 then (txnId, score) else best)
        best).1 ∈ cycle := by
    intro l
    induction l with
    | nil => exact fun best hb _ => hb
    | cons t l ih =>
      intro best hb hl
      refine ih _ ?_ fun u hu => hl u (mem_cons_of_mem _ hu)
      dsimp only
      split
      · exact hl t mem_cons_self
      · exact hb
  refine hfold cycle _ ?_ fun t ht => ht
  cases cycle with
  | nil => exact (h rfl).elim
  | cons t l => exact mem_cons_self

/-! ## Where the map leads -/

/-- Where the map leads, for as long as it does. -/
def blocker (waitFor : WaitForMap) (t : TxnId) : TxnId :=
  ((waitFor t).map WaitEdge.blockingTxn).getD t

theorem blocker_of_edge (h : Edge waitFor a b) : blocker waitFor a = b := by
  obtain ⟨edge, he, rfl⟩ := h
  simp [blocker, he]

theorem exists_iterate_eq (h : TransGen (Edge waitFor) a b) :
    ∃ n, 0 < n ∧ (blocker waitFor)^[n] a = b := by
  induction h with
  | single h => exact ⟨1, Nat.one_pos, blocker_of_edge h⟩
  | tail _ h ih =>
    obtain ⟨n, -, rfl⟩ := ih
    exact ⟨n + 1, n.succ_pos, by rw [iterate_succ_apply', blocker_of_edge h]⟩

section

variable {R : TxnId → TxnId → Prop} (hR : ∀ {a b}, R a b → Edge waitFor a b)
include hR

theorem waits_of_transGen (h : TransGen R a b) : (waitFor a).isSome := by
  obtain ⟨_, hstep, -⟩ := TransGen.head'_iff.mp h
  obtain ⟨edge, he, -⟩ := hR hstep
  rw [he, isSome_some]

/-- Edges that lead back to a transaction: so they do from all that it leads to. -/
theorem transGen_of_cycle {t : TxnId} (h : TransGen R t t) (i : Nat) :
    TransGen R t ((blocker waitFor)^[i] t) ∧ TransGen R ((blocker waitFor)^[i] t) t := by
  induction i with
  | zero => exact ⟨h, h⟩
  | succ i ih =>
    obtain ⟨_, hstep, hback⟩ := TransGen.head'_iff.mp ih.2
    rw [iterate_succ_apply', blocker_of_edge (hR hstep)]
    exact ⟨ih.1.tail hstep, .trans_right hback h⟩

end

/-- Whoever leads to a cycle leads to waiting transactions only. -/
theorem exists_iterate {c : TxnId} (h : ReflTransGen (Edge waitFor) start c)
    (hc : TransGen (Edge waitFor) c c) : (∃ m, (blocker waitFor)^[m] start = c) ∧
      ∀ i, (waitFor ((blocker waitFor)^[i] start)).isSome := by
  induction h using ReflTransGen.head_induction_on with
  | refl => exact ⟨⟨0, rfl⟩, fun i => waits_of_transGen id (transGen_of_cycle id hc i).2⟩
  | head h _ ih =>
    obtain ⟨⟨m, hm⟩, hsome⟩ := ih
    rw [← blocker_of_edge h] at hm hsome
    refine ⟨⟨m + 1, hm⟩, fun i => ?_⟩
    cases i with
    | zero => exact waits_of_transGen id (.single h)
    | succ i => exact hsome i

/-! ## Cycles are found -/

section Cycle

variable {t : TxnId} {L : Nat}

/-- The way from a transaction of a cycle of `L` members: everybody waits, and one is met again
after a multiple of `L` steps only. -/
structure OnCycle (waitFor : WaitForMap) (L : Nat) (t : TxnId) : Prop where
  pos : 0 < L
  some : ∀ i, (waitFor ((blocker waitFor)^[i] t)).isSome = true
  eq_iff : ∀ i k, (blocker waitFor)^[i + k] t = (blocker waitFor)^[i] t ↔ L ∣ k

theorem nodup_orbit :
    (iterate (blocker waitFor) t (minimalPeriod (blocker waitFor) t)).Nodup := by
  rw [← range_map_iterate]
  exact nodup_periodicOrbit

section

variable (hsome : ∀ i, (waitFor ((blocker waitFor)^[i] t)).isSome)
include hsome

theorem edge_iterate (i : Nat) :
    Edge waitFor ((blocker waitFor)^[i] t) ((blocker waitFor)^[i + 1] t) := by
  obtain ⟨edge, he⟩ := isSome_iff_exists.mp (hsome i)
  refine ⟨edge, he, ?_⟩
  rw [iterate_succ_apply']
  exact (blocker_of_edge ⟨edge, he, rfl⟩).symm

theorem transGen_iterate {i k : Nat} (hik : i < k) :
    TransGen (Edge waitFor) ((blocker waitFor)^[i] t) ((blocker waitFor)^[k] t) := by
  induction hik with
  | refl => exact .single (edge_iterate hsome i)
  | step _ ih => exact ih.tail (edge_iterate hsome _)

theorem onCycle_of_periodic (hper : t ∈ periodicPts (blocker waitFor)) :
    OnCycle waitFor (minimalPeriod (blocker waitFor) t) t := by
  refine ⟨minimalPeriod_pos_of_mem_periodicPts hper, hsome, fun i k => ?_⟩
  rw [Nat.add_comm, iterate_add_apply, ← minimalPeriod_apply_iterate hper i]
  exact isPeriodicPt_iff_minimalPeriod_dvd

/-- Whoever waits is counted once on a cycle. -/
theorem minimalPeriod_le {l : List TxnId} (hl : ∀ a, (waitFor a).isSome → a ∈ l) :
    minimalPeriod (blocker waitFor) t ≤ l.length := by
  have hsub : iterate (blocker waitFor) t (minimalPeriod (blocker waitFor) t) ⊆ l := fun a ha => by
    obtain ⟨i, -, rfl⟩ := mem_iterate.mp ha
    exact hl _ (hsome i)
  simpa using (nodup_orbit.subperm hsub).length_le

end

/-- The members from a transaction of the cycle on. -/
theorem OnCycle.collectCycle_eq (h : OnCycle waitFor L t) (hL : L ≤ 10000) (fuel k : Nat)
    (hlt : k < L) (hfuel : L < fuel + k) :
    collectCycle waitFor t fuel ((blocker waitFor)^[k] t) (iterate (blocker waitFor) t k) =
      .some (.some (iterate (blocker waitFor) t L)) := by
  induction fuel generalizing k with
  | zero => omega
  | succ fuel ih =>
    obtain ⟨edge, he, hb⟩ := edge_iterate h.some k
    have hback : (blocker waitFor)^[k + 1] t = t ↔ L ∣ k + 1 := by
      simpa using h.eq_iff 0 (k + 1)
    have hmem := (iterate_add (blocker waitFor) t k 1).symm
    rw [iterate, iterate] at hmem
    rw [collectCycle, he]
    dsimp only
    simp only [hb, hmem, hback]
    by_cases hend : k + 1 = L
    · rw [if_pos ⟨1, by omega⟩, hend]
    · rw [if_neg fun hdvd => absurd (Nat.le_of_dvd (Nat.succ_pos _) hdvd) (by omega),
        if_neg (by rw [length_iterate]; omega)]
      exact ih _ (by omega) (by omega)

end Cycle

/-- The hare meets the tortoise when the tortoise waits on the cycle for a whole round. -/
theorem findMeeting_eq {x : Nat → TxnId} (hx : ∀ i, Edge waitFor (x i) (x (i + 1))) {m L : Nat}
    (hpos : 0 < L) (hm : m ≤ 10000) (hL : L ≤ 10000) (hround : ∀ i, m ≤ i → x (i + L) = x i)
    (fuel i power lambda : Nat) (hi : power ≤ i + 1) (hlt : lambda < power) (hpow : power ≤ 20000)
    (hltL : m ≤ i → lambda < L) (hfuel : 2 ^ 21 ≤ fuel + power + lambda) :
    ∃ j, findMeeting waitFor start fuel (x i) (x (i + lambda)) power lambda = some (some (x j)) ∧
      ∃ k, x (j + (k + 1)) = x j := by
  induction fuel generalizing i power lambda with
  | zero => omega
  | succ fuel ih =>
    obtain ⟨edge, he, hb⟩ := hx (i + lambda)
    obtain ⟨next, hnext, -⟩ := hx (i + lambda + 1)
    rw [findMeeting, he]
    dsimp only
    rw [hb, hnext]
    by_cases hmeet : x (i + lambda + 1) = x i
    · exact ⟨i, by rw [if_pos hmeet, hmeet], lambda, hmeet⟩
    have hne : m ≤ i → lambda + 1 < L := fun hmi => by
      have := hltL hmi
      by_contra hge
      obtain rfl : L = lambda + 1 := by omega
      exact hmeet (hround i hmi)
    rw [if_neg hmeet, if_neg (by simp)]
    by_cases hp : lambda + 1 = power
    · rw [if_pos hp, if_neg (by omega)]
      exact ih (i + lambda + 1) _ 0 (by omega) (by omega) (by omega) (fun _ => hpos) (by omega)
    · rw [if_neg hp]
      exact ih _ _ _ hi (by omega) hpow hne (by omega)

theorem detectCycle_eq_some : detectCycle start waitFor = some cycle ↔
    ∃ meet, findMeeting waitFor start (2 ^ 21) start start 1 0 = some (some meet) ∧
      collectCycle waitFor meet 10001 meet [] = some (some cycle) := by
  rw [detectCycle, join_eq_some_iff, detectCycleLoops]
  split <;> simp_all

section

variable {l : List TxnId} (hl : ∀ a, (waitFor a).isSome → a ∈ l) (hlen : l.length ≤ 10000)
include hl hlen

/-- Whoever leads to waiting transactions only finds the members of a cycle that it leads to. -/
theorem detectCycle_eq (hsome : ∀ i, (waitFor ((blocker waitFor)^[i] start)).isSome) :
    ∃ j t, (blocker waitFor)^[j] start = t ∧ t ∈ periodicPts (blocker waitFor) ∧
      detectCycle start waitFor =
        some (iterate (blocker waitFor) t (minimalPeriod (blocker waitFor) t)) := by
  obtain ⟨i, hi, j, hj, hne, heq⟩ := Finset.exists_ne_map_eq_of_card_lt_of_maps_to
    (s := Finset.range (l.length + 1)) (t := l.toFinset) (f := fun i => (blocker waitFor)^[i] start)
    (by rw [Finset.card_range]; exact Nat.lt_succ_of_le l.toFinset_card_le)
    fun i _ => mem_toFinset.mpr (hl _ (hsome i))
  rw [Finset.mem_range] at hi hj
  wlog hij : i < j generalizing i j
  · exact this j hj i hi hne.symm heq.symm (by omega)
  obtain ⟨L, rfl⟩ := Nat.exists_eq_add_of_lt hij
  have hround (k : Nat) (hk : i ≤ k) :
      (blocker waitFor)^[k + (L + 1)] start = (blocker waitFor)^[k] start := by
    obtain ⟨d, rfl⟩ := Nat.exists_eq_add_of_le' hk
    rw [Nat.add_assoc, iterate_add_apply, ← Nat.add_assoc, ← heq, ← iterate_add_apply]
  obtain ⟨j, hj, k, hk⟩ := findMeeting_eq (edge_iterate hsome) (Nat.succ_pos L) (by omega)
    (by omega) hround (2 ^ 21) 0 1 0 le_rfl Nat.one_pos (by omega) (fun _ => Nat.succ_pos L) (by omega)
  have hsome (i : Nat) : (waitFor ((blocker waitFor)^[i] ((blocker waitFor)^[j] start))).isSome := by
    rw [← iterate_add_apply]
    exact hsome _
  have hper : (blocker waitFor)^[j] start ∈ periodicPts (blocker waitFor) := ⟨k + 1, Nat.succ_pos k, by
    rw [IsPeriodicPt, IsFixedPt, ← iterate_add_apply, Nat.add_comm, hk]⟩
  have hc := onCycle_of_periodic hsome hper
  have hL := (minimalPeriod_le hsome hl).trans hlen
  refine ⟨j, _, rfl, hper, detectCycle_eq_some.mpr ⟨_, hj, ?_⟩⟩
  exact hc.collectCycle_eq hL 10001 0 hc.pos (by omega)

/-- A transaction on a cycle finds members that it leads to and that lead back to it. -/
theorem detectCycle_complete {R : TxnId → TxnId → Prop} {t : TxnId}
    (hR : ∀ {a b}, R a b → Edge waitFor a b) (h : TransGen R t t) :
    ∃ cycle, detectCycle t waitFor = some cycle ∧ ∀ c ∈ cycle, TransGen R t c ∧ TransGen R c t := by
  obtain ⟨j, _, rfl, -, hcycle⟩ := detectCycle_eq hl hlen fun i =>
    waits_of_transGen hR (transGen_of_cycle hR h i).2
  refine ⟨_, hcycle, fun c hc => ?_⟩
  obtain ⟨i, -, rfl⟩ := mem_iterate.mp hc
  rw [← iterate_add_apply]
  exact transGen_of_cycle hR h _

/-- What is found are the members of the cycle that the start leads to. -/
theorem detectCycle_sound (h : detectCycle start waitFor = some cycle) :
    cycle ≠ [] ∧ cycle.Nodup ∧
      ∀ c, c ∈ cycle ↔ ReflTransGen (Edge waitFor) start c ∧ TransGen (Edge waitFor) c c := by
  obtain ⟨meet, hmeet, -⟩ := detectCycle_eq_some.mp h
  obtain ⟨hr, hc⟩ := findMeeting_sound .refl hmeet
  have hsome := (exists_iterate hr hc).2
  obtain ⟨j, _, rfl, hper, hcycle⟩ := detectCycle_eq hl hlen hsome
  cases h.symm.trans hcycle
  have hpos := minimalPeriod_pos_of_mem_periodicPts hper
  refine ⟨ne_nil_of_length_pos (by rwa [length_iterate]), nodup_orbit, fun c => ⟨fun hc => ?_, ?_⟩⟩
  · obtain ⟨i, -, rfl⟩ := mem_iterate.mp hc
    rw [← iterate_add_apply]
    obtain ⟨n, hn, hper⟩ := hper
    -- round the cycle once
    have hround : (blocker waitFor)^[i + j + n] start = (blocker waitFor)^[i + j] start := by
      rw [Nat.add_assoc, Nat.add_comm j, iterate_add_apply, iterate_add_apply, hper, ← iterate_add_apply]
    constructor
    · rw [← hround]
      exact (transGen_iterate hsome (i := 0) (by omega)).to_reflTransGen
    · have := transGen_iterate hsome (Nat.lt_add_of_pos_right (n := i + j) hn)
      rwa [hround] at this
  · rintro ⟨hr, hc⟩
    obtain ⟨⟨m, rfl⟩, -⟩ := exists_iterate hr hc
    obtain ⟨n, hn, hper'⟩ := exists_iterate_eq hc
    -- on from the meeting point by as many rounds of the cycle
    have hfrom : (blocker waitFor)^[m + n * j - j] ((blocker waitFor)^[j] start) =
        (blocker waitFor)^[m] start := by
      have hle : j ≤ n * j := Nat.le_mul_of_pos_left j hn
      rw [← iterate_add_apply, Nat.sub_add_cancel (by omega), Nat.add_comm, iterate_add_apply]
      exact IsPeriodicPt.mul_const hper' j
    rw [← range_map_iterate]
    exact (mem_periodicOrbit_iff hper).mpr ⟨_, hfrom⟩

end

/-! ## Exactness -/

/-! The loops end by themselves in the turns that they are given, whatever the map is. -/

theorem findMeeting_isSome
    (hlt : lambda < power) (hpow : power ≤ 2 ^ 20) (hfuel : 2 ^ 21 ≤ fuel + power + lambda) :
    (findMeeting waitFor start fuel tortoise hare power lambda).isSome := by
  induction fuel generalizing tortoise hare power lambda with
  | zero => omega
  | succ fuel ih =>
    rw [findMeeting]
    cases waitFor hare with
    | none => rfl
    | some edge =>
      dsimp only
      split_ifs
      any_goals rfl
      · exact ih (by omega) (by omega) (by omega)
      · exact ih (by omega) hpow (by omega)

theorem collectCycle_isSome {current : TxnId}
    (hlen : cycle.length ≤ 10000) (hfuel : 10001 ≤ fuel + cycle.length) :
    (collectCycle waitFor hare fuel current cycle).isSome := by
  induction fuel generalizing current cycle with
  | zero => omega
  | succ fuel ih =>
    rw [collectCycle]
    cases waitFor current with
    | none => rfl
    | some edge =>
      dsimp only
      split_ifs with _ hlong
      any_goals rfl
      exact ih (not_lt.mp hlong) (by simp; omega)

theorem detectCycleLoops_isSome : (detectCycleLoops start waitFor).isSome := by
  have hmeet : (findMeeting waitFor start (2 ^ 21) start start 1 0).isSome :=
    findMeeting_isSome Nat.one_pos (by omega) (by omega)
  rw [detectCycleLoops]
  split
  next h => rw [h] at hmeet; cases hmeet
  next => rfl
  next => exact collectCycle_isSome (by simp) (by simp)

/-- **Cycle detection is exact.** The loops of `detect_cycle` end. In a map of at most 10000
transactions it returns the members of the cycle that the start leads to, each once, if there is
one, and `None` otherwise. -/
theorem detect_cycle_exact {l : List TxnId} (hl : ∀ a, (waitFor a).isSome → a ∈ l)
    (hlen : l.length ≤ 10000) (start : TxnId) : (detectCycleLoops start waitFor).isSome ∧
    ((detectCycle start waitFor).isSome ↔
      ∃ c, ReflTransGen (Edge waitFor) start c ∧ TransGen (Edge waitFor) c c) ∧
    ∀ cycle, detectCycle start waitFor = some cycle → cycle.Nodup ∧
      (∀ t, t ∈ cycle ↔ ReflTransGen (Edge waitFor) start t ∧ TransGen (Edge waitFor) t t) ∧
      ∀ waitMs, selectVictim cycle waitMs ∈ cycle := by
  refine ⟨detectCycleLoops_isSome, ⟨fun h => ?_, fun ⟨c, hr, hc⟩ => ?_⟩, fun cycle h => ?_⟩
  · obtain ⟨cycle, h⟩ := isSome_iff_exists.mp h
    obtain ⟨meet, hmeet, -⟩ := detectCycle_eq_some.mp h
    exact ⟨meet, findMeeting_sound .refl hmeet⟩
  · obtain ⟨_, _, -, -, hcycle⟩ := detectCycle_eq hl hlen (exists_iterate hr hc).2
    rw [hcycle, isSome_some]
  · obtain ⟨hne, hnodup, hmem⟩ := detectCycle_sound hl hlen h
    exact ⟨hnodup, hmem, selectVictim_mem hne⟩

/-- Transaction 1 waits for a cycle of two others; 4 waits for one that does not wait. -/
theorem detect_cycle_exact_tail :
    let waitFor : WaitForMap := fun t =>
      if t ∈ [1, 2, 3, 4] then some ⟨if t = 4 then 5 else if t = 2 then 3 else 2, .table 0⟩ else none
    (∃ cycle, detectCycle 1 waitFor = some cycle ∧ cycle.Nodup ∧ 3 ∈ cycle ∧
      selectVictim cycle id ∈ cycle) ∧ detectCycleLoops 4 waitFor = some none := by
  intro waitFor
  have h := @detect_cycle_exact waitFor [1, 2, 3, 4]
    (fun a h => by simpa [waitFor] using h) (by decide)
  have h23 : Edge waitFor 2 3 := ⟨_, rfl, rfl⟩
  have h32 : Edge waitFor 3 2 := ⟨_, rfl, rfl⟩
  have h12 : Edge waitFor 1 2 := ⟨_, rfl, rfl⟩
  obtain ⟨-, hsome, hmem⟩ := h 1
  obtain ⟨cycle, hcycle⟩ := isSome_iff_exists.mp (hsome.mpr ⟨2, .single h12, .tail (.single h23) h32⟩)
  obtain ⟨hnodup, hiff, hvictim⟩ := hmem cycle hcycle
  refine ⟨⟨cycle, hcycle, hnodup, (hiff 3).mpr ⟨.tail (.single h12) h23, .tail (.single h32) h23⟩,
    hvictim id⟩, rfl⟩

end AxiomDb.Lock
