import AxiomDb.Sql.Joins
import AxiomDb.Sql.StoredEquality

/-!
# Hash joins and nested loops

Both paths of `apply_join` compute the join by a relation between rows (`joinWith`): the
nested loop by the evaluator's verdict on the condition, the hash joins by equality of the
values in the two columns. A row of the result that is not NULL in either column is a pair
of the relation, so the paths give the same rows just if the relations agree: if no two rows
have variants of one value in the columns (`hash_join_eq_nested_loop`). `hash_joins_exact` says
what the hash joins give at all.
-/

namespace AxiomDb.Row

open Lib Sql List Option HashIndex Perm

variable (o : Ops)

/-! ## Joins by a relation -/

/-- The join of two lists of rows whose pairs match by `p`. -/
def joinWith (p : Tuple → Tuple → Bool) (leftRows rightRows : List Tuple)
    (leftColCount rightColCount : Nat) (joinType : JoinType) : List Tuple :=
  let pairs := leftRows.flatMap fun l => (rightRows.filter (p l)).map (l ++ ·)
  let padded := leftRows.flatMap fun l =>
    if rightRows.any (p l) then (rightRows.filter (p l)).map (l ++ ·) else [l ++ nulls rightColCount]
  let unmatched := (rightRows.filter fun r => !leftRows.any (p · r)).map (nulls leftColCount ++ ·)
  match joinType with
  | .inner | .cross => pairs
  | .left => padded
  | .right => pairs ++ unmatched
  | .full => padded ++ unmatched

theorem pairsOf_map (l : Tuple) (f : Tuple → Bool) (rows : List Tuple) :
    pairsOf l rows (rows.map f) = (rows.filter f).map (l ++ ·) := by
  induction rows with
  | nil => rfl
  | cons r rows ih =>
    rw [map_cons, filter_cons]
    cases hf : f r with
    | true => rw [pairsOf, if_pos rfl, map_cons, ih]
    | false => rw [pairsOf, if_neg Bool.false_ne_true, ih]

theorem unmatchedRight_map (nullLeft : Tuple) (f : Tuple → Bool) (rows : List Tuple) :
    unmatchedRight nullLeft rows (rows.map f) = (rows.filter fun r => !f r).map (nullLeft ++ ·) := by
  induction rows with
  | nil => rfl
  | cons r rows ih =>
    rw [map_cons, filter_cons]
    cases hf : f r with
    | true => rw [unmatchedRight, Bool.not_true, if_neg Bool.false_ne_true, ih]
    | false => rw [unmatchedRight, Bool.not_false, if_pos rfl, map_cons, ih]

theorem ownRows_none (l : Tuple) (hasMatch : Bool) (pairs : List Tuple) :
    ownRows none l hasMatch pairs = pairs := rfl

theorem zipWith_or_map (f g : Tuple → Bool) (rows : List Tuple) :
    zipWith (· || ·) (rows.map f) (rows.map g) = rows.map fun r => f r || g r := by
  rw [zipWith_map, zipWith_self]

theorem any_id_map (f : Tuple → Bool) (rows : List Tuple) : (rows.map f).any id = rows.any f := by
  rw [List.any_map]
  rfl

section NestedLoop

variable {o : Ops} {cond : Expr} {p : Tuple → Tuple → Bool} {leftRows rightRows : List Tuple}

theorem mapM_evalJoinCond {l : Tuple} {rows : List Tuple}
    (h : ∀ r ∈ rows, evalJoinCond o cond (l ++ r) = .ok (p l r)) :
    (rows.mapM fun r => evalJoinCond o cond (l ++ r)) = .ok (rows.map (p l)) := by
  induction rows with
  | nil => rfl
  | cons r rows ih =>
    rw [mapM_cons, h r (.head _), ih fun r' hr' => h r' (.tail _ hr')]
    rfl

/-- What the loop has done after the rows on the left: `f` tells the rows on the right that
had a match before. -/
theorem nestedRows_eq (nullRight : Option Tuple)
    (h : ∀ l ∈ leftRows, ∀ r ∈ rightRows, evalJoinCond o cond (l ++ r) = .ok (p l r))
    (f : Tuple → Bool) : nestedRows o cond rightRows nullRight leftRows (rightRows.map f) =
      .ok (leftRows.flatMap fun l => ownRows nullRight l (rightRows.any (p l))
          ((rightRows.filter (p l)).map (l ++ ·)),
        rightRows.map fun r => f r || leftRows.any (p · r)) := by
  induction leftRows generalizing f with
  | nil => simp [nestedRows]
  | cons l ls ih =>
    rw [nestedRows, mapM_evalJoinCond (h l (.head _)), ok_bind, zipWith_or_map,
      ih (fun l' hl' => h l' (.tail _ hl')), ok_bind, pairsOf_map, any_id_map]
    simp only [flatMap_cons, any_cons, Bool.or_assoc]

theorem nestedLoop_eq (leftColCount rightColCount : Nat) (joinType : JoinType)
    (h : ∀ l ∈ leftRows, ∀ r ∈ rightRows, evalJoinCond o cond (l ++ r) = .ok (p l r)) :
    nestedLoop o leftRows rightRows leftColCount rightColCount joinType cond =
      .ok (joinWith p leftRows rightRows leftColCount rightColCount joinType) := by
  have hnone : replicate rightRows.length false = rightRows.map fun _ => false :=
    map_const'.symm
  have hpad : ∀ l : Tuple, ownRows (some (nulls rightColCount)) l (rightRows.any (p l))
      ((rightRows.filter (p l)).map (l ++ ·)) =
      if rightRows.any (p l) then (rightRows.filter (p l)).map (l ++ ·)
      else [l ++ nulls rightColCount] := by
    intro l
    cases rightRows.any (p l) <;> rfl
  unfold nestedLoop
  rw [hnone]
  cases joinType <;>
    simp only [nestedRows_eq _ h, ok_bind, joinWith, unmatchedRight_map, Bool.false_or, hpad, ownRows_none]

end NestedLoop

/-! ## Hash joins by the relation of equal keys -/

/-- Two keys that are there and equal. -/
def sameKey (a b : Option Value) : Bool := a.isSome && decide (a = b)

theorem sameKey_comm (a b : Option Value) : sameKey a b = sameKey b a := by
  rw [sameKey, sameKey]
  by_cases h : a = b
  · rw [h]
  · rw [decide_eq_false h, decide_eq_false (Ne.symm h), Bool.and_false, Bool.and_false]

theorem sameKey_some (k : Value) (b : Option Value) : sameKey (some k) b = decide (b = some k) := by
  rw [sameKey, isSome_some, Bool.true_and, decide_eq_decide]
  exact eq_comm

/-- What a probe finds: the rows with the key, or nothing. -/
theorem probe_build (key : Tuple → Option Value) (rows : List Tuple) (a : Option Value) :
    probe rows (build key rows) a =
      if rows.any fun r => sameKey a (key r) then some (rows.filter fun r => sameKey a (key r))
      else none := by
  cases a with
  | none =>
    have hany : (rows.any fun r => sameKey none (key r)) = false :=
      any_eq_false.2 fun r _ => by rw [sameKey]; exact Bool.false_ne_true
    rw [hany]
    rfl
  | some k =>
    simp only [sameKey_some]
    have hnil : positions key k 0 rows = [] ↔ ¬(rows.any fun r => decide (key r = some k)) := by
      simp [positions_eq_nil_iff]
    rw [probe, bind_some, get_build]
    by_cases hany : rows.any fun r => decide (key r = some k)
    · rw [if_neg fun h => hnil.1 h hany, if_pos hany, map_some, map_getD_positions]
    · rw [if_pos (hnil.2 hany), if_neg hany]
      rfl

variable {joinType : JoinType} {rows : List Tuple} {idx leftColCount rightColCount : Nat}
  {l r : Tuple} {f : Tuple → Bool} {leftRows rightRows : List Tuple} {α β : Type}

theorem filter_eq_nil_of_any (h : rows.any f = false) : rows.filter f = [] :=
  filter_eq_nil_iff.2 fun r hr => any_eq_false.1 h r hr

theorem probe_getD (key : Tuple → Option Value) (rows : List Tuple) (a : Option Value) :
    (probe rows (build key rows) a).getD [] = rows.filter fun r => sameKey a (key r) := by
  rw [probe_build]
  cases hany : rows.any fun r => sameKey a (key r) with
  | true => rfl
  | false => exact (filter_eq_nil_of_any hany).symm

theorem flatMap_comm {α β γ : Type} (f : α → β → List γ) (as : List α) (bs : List β) :
    (as.flatMap fun a => bs.flatMap (f a)).Perm (bs.flatMap fun b => as.flatMap (f · b)) := by
  have h := Multiset.bind_bind (as : Multiset α) (bs : Multiset β) (f := fun a b => (f a b : Multiset γ))
  simpa only [Multiset.coe_bind, Multiset.coe_eq_coe] using h

theorem filter_map_eq_flatMap (f : α → Bool) (g : α → β) (as : List α) :
    (as.filter f).map g = as.flatMap fun a => if f a then [g a] else [] := by
  induction as with
  | nil => rfl
  | cons a as ih =>
    rw [filter_cons, flatMap_cons, ← ih]
    cases f a <;> rfl

/-- The pairs, found from the rows on the right. -/
theorem pairs_comm (p : Tuple → Tuple → Bool) (leftRows rightRows : List Tuple) :
    (rightRows.flatMap fun r => (leftRows.filter (p · r)).map (· ++ r)).Perm
      (leftRows.flatMap fun l => (rightRows.filter (p l)).map (l ++ ·)) := by
  simp only [filter_map_eq_flatMap]
  exact flatMap_comm (fun r l => if p l r then [l ++ r] else []) rightRows leftRows

section HashJoin

variable (leftRows rightRows : List Tuple) (li ri : Nat)

/-- The pairs that hash joins find. -/
def keysMatch (l r : Tuple) : Bool := sameKey (joinKey li l) (joinKey ri r)

/-- The pairs of rows with equal keys, from a table on either side. -/
theorem buildOnSmaller_perm (kl kr : Tuple → Option Value) :
    (if leftRows.length < rightRows.length then rightRows.flatMap fun r =>
        ((probe leftRows (build kl leftRows) (kr r)).getD []).map fun l => l ++ r
      else leftRows.flatMap fun l =>
        ((probe rightRows (build kr rightRows) (kl l)).getD []).map fun r => l ++ r).Perm
      (leftRows.flatMap fun l => (rightRows.filter fun r => sameKey (kl l) (kr r)).map (l ++ ·)) := by
  simp only [probe_getD]
  split
  · simp only [sameKey_comm (kr _)]
    exact pairs_comm (fun l r => sameKey (kl l) (kr r)) leftRows rightRows
  · exact .refl _

theorem hashJoinInner_perm : (hashJoinInner leftRows rightRows li ri).Perm
    (leftRows.flatMap fun l => (rightRows.filter (keysMatch li ri l)).map (l ++ ·)) :=
  buildOnSmaller_perm leftRows rightRows (joinKey li) (joinKey ri)

theorem hashToPartition_lt (hash radixBits : Nat) : hashToPartition hash radixBits < 2 ^ radixBits := by
  rw [hashToPartition]
  split
  · positivity
  · exact Nat.mod_lt _ (by positivity)

/-- A pair with equal keys is found in the partition of its key, and in no other. -/
theorem sameKey_partitionKey (hashValue : Value → Nat) (bits part : Nat) (l r : Tuple) :
    sameKey (partitionKey hashValue bits part li l) (partitionKey hashValue bits part ri r) =
      (keysMatch li ri l r && decide ((joinKey li l).map
        (fun k => hashToPartition (hashValue k) bits) = some part)) := by
  rw [partitionKey, partitionKey, keysMatch]
  rcases joinKey li l with _ | k
  · rfl
  by_cases hpart : hashToPartition (hashValue k) bits = part
  · have hk : (some k).filter (fun k => decide (hashToPartition (hashValue k) bits = part)) = some k := by
      simp [hpart]
    rw [hk, sameKey_some, sameKey_some, map_some, hpart, decide_eq_true rfl, Bool.and_true,
      decide_eq_decide, filter_eq_some_iff]
    simp [hpart]
  · have hk : (some k).filter (fun k => decide (hashToPartition (hashValue k) bits = part)) = none := by
      simp [hpart]
    rw [hk, map_some, decide_eq_false (by simpa using hpart), Bool.and_false]
    rfl

theorem flatMap_single [DecidableEq α] {as : List α} (hnodup : as.Nodup) {a : α}
    (ha : a ∈ as) (bs : List β) : (as.flatMap fun a' => if a = a' then bs else []) = bs := by
  induction as with
  | nil => cases ha
  | cons b as ih =>
    rw [nodup_cons] at hnodup
    rw [flatMap_cons]
    by_cases hb : a = b
    · subst hb
      have hrest : (as.flatMap fun a' => if a = a' then bs else []) = [] :=
        flatMap_eq_nil_iff.2 fun a' ha' => if_neg (by rintro rfl; exact hnodup.1 ha')
      rw [if_pos rfl, hrest, append_nil]
    · rw [if_neg hb, nil_append, ih hnodup.2 ((mem_cons.1 ha).resolve_left hb)]

theorem hashJoinInnerWithSpill_perm (hashValue : Value → Nat) :
    (hashJoinInnerWithSpill hashValue leftRows rightRows li ri).Perm
      (leftRows.flatMap fun l => (rightRows.filter (keysMatch li ri l)).map (l ++ ·)) := by
  rw [hashJoinInnerWithSpill]
  dsimp only
  split
  · exact hashJoinInner_perm leftRows rightRows li ri
  generalize computeRadixBits _ SPILL_MEMORY_LIMIT = bits
  refine (flatMap_left _ fun part _ => buildOnSmaller_perm leftRows rightRows _ _).trans ?_
  refine (flatMap_comm _ _ _).trans (of_eq (flatMap_congr fun l _ => ?_))
  -- the partitions of one row on the left: only that of its key gives anything
  simp only [sameKey_partitionKey]
  cases hk : joinKey li l with
  | none =>
    have hmatch : keysMatch li ri l = fun _ => false := by
      funext r
      rw [keysMatch, hk]
      rfl
    simp [hmatch]
  | some k =>
    have hone : ∀ part, (rightRows.filter fun r => keysMatch li ri l r && decide ((some k).map
        (fun k => hashToPartition (hashValue k) bits) = some part)).map (l ++ ·) =
        if hashToPartition (hashValue k) bits = part then
          (rightRows.filter (keysMatch li ri l)).map (l ++ ·) else [] := by
      intro part
      by_cases hpart : hashToPartition (hashValue k) bits = part <;> simp [hpart]
    simp only [hone]
    exact flatMap_single nodup_range (mem_range.2 (hashToPartition_lt _ _)) _

theorem hashJoinLeft_eq (rightColCount : Nat) :
    hashJoinLeft leftRows rightRows li ri rightColCount = leftRows.flatMap fun l =>
      if rightRows.any (keysMatch li ri l) then (rightRows.filter (keysMatch li ri l)).map (l ++ ·)
      else [l ++ nulls rightColCount] := by
  rw [hashJoinLeft]
  refine flatMap_congr fun l _ => ?_
  have hprobe : probe rightRows (build (joinKey ri) rightRows) (joinKey li l) =
      if rightRows.any (keysMatch li ri l) then some (rightRows.filter (keysMatch li ri l)) else none :=
    probe_build _ _ _
  rw [hprobe]
  cases rightRows.any (keysMatch li ri l) <;> rfl

theorem swapColumns_hashJoinLeft (leftColCount rightColCount : Nat)
    (hl : ∀ l ∈ leftRows, l.length = leftColCount) (hr : ∀ r ∈ rightRows, r.length = rightColCount) :
    (swapColumns (hashJoinLeft rightRows leftRows ri li leftColCount) rightColCount leftColCount).Perm
      (joinWith (keysMatch li ri) leftRows rightRows leftColCount rightColCount .right) := by
  have hswap : ∀ l r : Tuple, l.length = leftColCount → r.length = rightColCount →
      ((r ++ l).drop rightColCount).take leftColCount ++ (r ++ l).take rightColCount = l ++ r := by
    intro l r hl hr
    rw [drop_left' hr, take_left' hr, ← hl, take_length]
  have hcomm : ∀ r l, keysMatch ri li r l = keysMatch li ri l r := fun r l => sameKey_comm _ _
  -- each row on the right gives its pairs, or itself padded
  have hrows : swapColumns (hashJoinLeft rightRows leftRows ri li leftColCount) rightColCount
      leftColCount = rightRows.flatMap fun r =>
        (leftRows.filter (keysMatch li ri · r)).map (· ++ r) ++
          if leftRows.any (keysMatch li ri · r) then [] else [nulls leftColCount ++ r] := by
    rw [swapColumns, hashJoinLeft_eq, map_flatMap]
    refine flatMap_congr fun r hmem => ?_
    simp only [funext (hcomm r)]
    cases hany : leftRows.any (keysMatch li ri · r) with
    | true =>
      rw [if_pos rfl, if_pos rfl, append_nil, List.map_map]
      exact map_congr_left fun l hl' => hswap l r (hl l (mem_of_mem_filter hl')) (hr r hmem)
    | false =>
      rw [if_neg Bool.false_ne_true, if_neg Bool.false_ne_true, filter_eq_nil_of_any hany]
      exact congrArg (fun row => [row]) (hswap _ r (length_replicate ..) (hr r hmem))
  rw [hrows]
  refine (flatMap_append_perm _ _ _).symm.trans ?_
  refine (pairs_comm (keysMatch li ri) leftRows rightRows).append (of_eq ?_)
  rw [filter_map_eq_flatMap]
  refine flatMap_congr fun r _ => ?_
  cases leftRows.any (keysMatch li ri · r) <;> rfl

theorem getElem?_foldl_set (is : List Nat) (m : List Bool) (j : Nat) :
    (is.foldl (fun m i => m.set i true) m)[j]? = if j ∈ is then m[j]?.map fun _ => true else m[j]? := by
  induction is generalizing m with
  | nil => rfl
  | cons i is ih =>
    rw [foldl_cons, ih, getElem?_set]
    by_cases hij : i = j
    · subst hij
      rw [if_pos rfl, if_pos (mem_cons_self ..)]
      cases hm : m[i]? with
      | none =>
        have hge : ¬i < m.length := by simpa using hm
        rw [if_neg hge]
        split <;> rfl
      | some b =>
        obtain ⟨hlt, -⟩ := List.getElem?_eq_some_iff.1 hm
        rw [if_pos hlt]
        split <;> rfl
    · simp only [if_neg hij, mem_cons, Ne.symm hij, false_or]

/-- Marking the positions of a key marks the rows with that key. -/
theorem foldl_set_positions (key : Tuple → Option Value) (k : Value) (rows : List Tuple)
    (f : Tuple → Bool) : (positions key k 0 rows).foldl (fun m ri => m.set ri true) (rows.map f) =
      rows.map fun r => f r || decide (key r = some k) := by
  refine ext_getElem? fun j => ?_
  rw [getElem?_foldl_set, getElem?_map, getElem?_map]
  simp only [mem_positions]
  cases hr : rows[j]? with
  | none => simp
  | some r => by_cases hkey : key r = some k <;> simp [hkey]

theorem hashFullRows_eq (rightColCount : Nat) (f : Tuple → Bool) :
    hashFullRows rightRows (build (joinKey ri) rightRows) li rightColCount leftRows
        (rightRows.map f) = (leftRows.flatMap fun l => if rightRows.any (keysMatch li ri l) then
          (rightRows.filter (keysMatch li ri l)).map (l ++ ·) else [l ++ nulls rightColCount],
        rightRows.map fun r => f r || leftRows.any (keysMatch li ri · r)) := by
  induction leftRows generalizing f with
  | nil => simp [hashFullRows]
  | cons l ls ih =>
    rw [hashFullRows, flatMap_cons]
    simp only [any_cons]
    cases hk : joinKey li l with
    | none =>
      have hmatch : ∀ r, keysMatch li ri l r = false := fun r => by
        rw [keysMatch, hk]
        rfl
      rw [bind_none]
      dsimp only
      rw [ih, if_neg (by simp [hmatch])]
      simp only [hmatch, Bool.false_or]
      rfl
    | some k =>
      have hmatch : ∀ r, keysMatch li ri l r = decide (joinKey ri r = some k) := fun r => by
        rw [keysMatch, hk, sameKey_some]
      rw [bind_some, get_build]
      by_cases hnil : positions (joinKey ri) k 0 rightRows = []
      · have hne := (positions_eq_nil_iff (joinKey ri) k rightRows).1 hnil
        rw [if_pos hnil]
        dsimp only
        rw [ih, if_neg (by simpa [hmatch] using hne)]
        refine Prod.ext rfl (map_congr_left fun r hr => ?_)
        rw [hmatch, decide_eq_false (hne r hr), Bool.false_or]
      rw [if_neg hnil]
      dsimp only
      rw [foldl_set_positions, ih, if_pos]
      · refine Prod.ext ?_ ?_
        · dsimp only
          rw [funext hmatch, ← map_getD_positions _ _ _ [], List.map_map]
          rfl
        · simp only [hmatch, Bool.or_assoc]
      · by_contra hany
        refine hnil ((positions_eq_nil_iff (joinKey ri) k rightRows).2 fun r hr hkey => hany ?_)
        exact any_eq_true.2 ⟨r, hr, by rw [hmatch, decide_eq_true hkey]⟩

theorem hashJoinFull_eq (leftColCount rightColCount : Nat) :
    hashJoinFull leftRows rightRows li ri leftColCount rightColCount =
      joinWith (keysMatch li ri) leftRows rightRows leftColCount rightColCount .full := by
  have hnone : replicate rightRows.length false = rightRows.map fun _ => false :=
    map_const'.symm
  rw [hashJoinFull, hnone, hashFullRows_eq]
  dsimp only
  rw [unmatchedRight_map]
  simp only [Bool.false_or]
  rfl

end HashJoin

/-! ## Hash join and nested loop -/

/-- The condition `ON` of two columns. -/
def onColumns (i j : Nat) : Expr := .binaryOp .eq (.column i) (.column j)

/-- The nested loop's decision on a pair. -/
def condHolds (cond : Expr) (l r : Tuple) : Bool := holdsOn o cond (l ++ r)

/-- A row whose two columns are there and not NULL. -/
def keyed (li ri : Nat) (row : Tuple) : Prop := (joinKey li row).isSome ∧ (joinKey ri row).isSome

section

variable {p : Tuple → Tuple → Bool} {leftRows rightRows : List Tuple}

theorem joinKey_append_left (h : idx < l.length) : joinKey idx (l ++ r) = joinKey idx l := by
  rw [joinKey, joinKey, getElem?_append_left h]

theorem joinKey_append_right (h : l.length ≤ idx) :
    joinKey idx (l ++ r) = joinKey (idx - l.length) r := by
  rw [joinKey, joinKey, getElem?_append_right h]

theorem joinKey_nulls (idx n : Nat) : joinKey idx (nulls n) = none := by
  rw [joinKey, nulls]
  cases h : (replicate n Value.null)[idx]? with
  | none => rfl
  | some v =>
    have hv : v = .null := eq_of_mem_replicate (mem_of_getElem? h)
    rw [hv]
    rfl

/-- The rows of a join with a key on both sides are the pairs. -/
theorem mem_joinWith_iff {row : Tuple} {li ri : Nat} (hli : li < leftColCount) (hri : leftColCount ≤ ri)
    (hl : ∀ l ∈ leftRows, l.length = leftColCount) (hkeyed : keyed li ri row) :
    row ∈ joinWith p leftRows rightRows leftColCount rightColCount joinType ↔
      ∃ l ∈ leftRows, ∃ r ∈ rightRows, p l r ∧ l ++ r = row := by
  have hpairs : row ∈ (leftRows.flatMap fun l => (rightRows.filter (p l)).map (l ++ ·)) ↔
      ∃ l ∈ leftRows, ∃ r ∈ rightRows, p l r ∧ l ++ r = row := by
    simp only [mem_flatMap, List.mem_map, mem_filter, and_assoc]
  -- padding leaves one of the two columns NULL
  have hpadded : row ∈ (leftRows.flatMap fun l => if rightRows.any (p l) then
      (rightRows.filter (p l)).map (l ++ ·) else [l ++ nulls rightColCount]) ↔
      row ∈ leftRows.flatMap fun l => (rightRows.filter (p l)).map (l ++ ·) := by
    simp only [mem_flatMap]
    refine exists_congr fun l => and_congr_right fun hmem => ?_
    split
    · rfl
    next hany =>
      rw [filter_eq_nil_of_any (Bool.eq_false_iff.2 hany)]
      refine iff_of_false (fun h => ?_) not_mem_nil
      have hnull : joinKey ri row = none := by
        rw [mem_singleton.1 h, joinKey_append_right (by rw [hl l hmem]; exact hri), joinKey_nulls]
      rw [keyed, hnull] at hkeyed
      cases hkeyed.2
  have hunmatched : row ∉ (rightRows.filter fun r => !leftRows.any (p · r)).map
      (nulls leftColCount ++ ·) := by
    intro h
    obtain ⟨r, -, rfl⟩ := mem_map.1 h
    have hnull : joinKey li (nulls leftColCount ++ r) = none := by
      rw [joinKey_append_left (by rw [nulls, length_replicate]; exact hli), joinKey_nulls]
    rw [keyed, hnull] at hkeyed
    cases hkeyed.1
  cases joinType <;> simp only [joinWith, mem_append, hunmatched, or_false, hpadded, hpairs]

end

theorem any_congr_of_mem {g : Tuple → Bool} (h : ∀ r ∈ rows, f r = g r) :
    rows.any f = rows.any g := by
  rw [← any_id_map, ← any_id_map, map_congr_left h]

/-- Two relations give the same join just if they agree on the pairs, where a pair has a key
on both sides. -/
theorem joinWith_perm_iff {p q : Tuple → Tuple → Bool}
    (joinType : JoinType) {li ri : Nat} (hli : li < leftColCount) (hri : leftColCount ≤ ri)
    (hl : ∀ l ∈ leftRows, l.length = leftColCount)
    (hp : ∀ l ∈ leftRows, ∀ r ∈ rightRows, p l r → keyed li ri (l ++ r))
    (hq : ∀ l ∈ leftRows, ∀ r ∈ rightRows, q l r → keyed li ri (l ++ r)) :
    (joinWith p leftRows rightRows leftColCount rightColCount joinType).Perm
        (joinWith q leftRows rightRows leftColCount rightColCount joinType) ↔
      ∀ l ∈ leftRows, ∀ r ∈ rightRows, p l r = q l r := by
  constructor
  · intro hperm
    have himp : ∀ {p q : Tuple → Tuple → Bool},
        (∀ l ∈ leftRows, ∀ r ∈ rightRows, p l r → keyed li ri (l ++ r)) →
        (joinWith p leftRows rightRows leftColCount rightColCount joinType).Perm
          (joinWith q leftRows rightRows leftColCount rightColCount joinType) →
        ∀ l ∈ leftRows, ∀ r ∈ rightRows, p l r → q l r := by
      intro p q hp hperm l hmem r hr h
      have hkeyed := hp l hmem r hr h
      obtain ⟨l', hmem', r', -, hq, heq⟩ := (mem_joinWith_iff hli hri hl hkeyed).1
        (hperm.mem_iff.1 ((mem_joinWith_iff hli hri hl hkeyed).2 ⟨l, hmem, r, hr, h, rfl⟩))
      obtain ⟨rfl, rfl⟩ := append_inj heq (by rw [hl l hmem, hl l' hmem'])
      exact hq
    intro l hmem r hr
    exact Bool.eq_iff_iff.2 ⟨himp hp hperm l hmem r hr, himp hq hperm.symm l hmem r hr⟩
  intro h
  have hfilter : ∀ l ∈ leftRows, rightRows.filter (p l) = rightRows.filter (q l) :=
    fun l hmem => filter_congr fun r hr => h l hmem r hr
  have hany : ∀ l ∈ leftRows, rightRows.any (p l) = rightRows.any (q l) :=
    fun l hmem => any_congr_of_mem fun r hr => h l hmem r hr
  have hpairs : (leftRows.flatMap fun l => (rightRows.filter (p l)).map (l ++ ·)) =
      leftRows.flatMap fun l => (rightRows.filter (q l)).map (l ++ ·) :=
    flatMap_congr fun l hmem => by rw [hfilter l hmem]
  have hpadded : (leftRows.flatMap fun l => if rightRows.any (p l) then
        (rightRows.filter (p l)).map (l ++ ·) else [l ++ nulls rightColCount]) =
      leftRows.flatMap fun l => if rightRows.any (q l) then
        (rightRows.filter (q l)).map (l ++ ·) else [l ++ nulls rightColCount] :=
    flatMap_congr fun l hmem => by rw [hfilter l hmem, hany l hmem]
  have hunmatched : (rightRows.filter fun r => !leftRows.any (p · r)) =
      rightRows.filter fun r => !leftRows.any (q · r) :=
    filter_congr fun r hr => by rw [any_congr_of_mem fun l hmem => h l hmem r hr]
  refine of_eq ?_
  simp only [joinWith, hpairs, hpadded, hunmatched]

/-! ## The join of the evaluator -/

section

variable {o : Ops} {x : TextOps} {c : SessionCollation}

variable {i j leftColCount : Nat} {l r row : Tuple} {v : Value} {cond : Expr}

theorem isNull_of_eq {u : Value} (h : evalBinary (sqlOps o x c) .eq u v = .ok (.bool true)) :
    u.isNull = false ∧ v.isNull = false := by
  constructor
  · cases u with
    | null => cases v <;> cases h
    | _ => rfl
  · cases v with
    | null => cases u <;> cases h
    | _ => rfl

theorem eval_onColumns (i j : Nat) (row : Tuple) : eval o row (onColumns i j) = (do
    let u ← eval o row (.column i)
    let v ← eval o row (.column j)
    evalBinary o .eq u v) :=
  eval_comparison o row .eq (.column i) (.column j)

theorem eval_column_eq_ok (h : eval o row (.column i) = .ok v) : row[i]? = some v := by
  rw [eval] at h
  split at h <;> cases h
  assumption

theorem joinKey_of_isNull (h : row[i]? = some v) (hv : v.isNull = false) : joinKey i row = some v := by
  rw [joinKey, h]
  dsimp only
  rw [hv, if_neg Bool.false_ne_true]

/-- A pair that the nested loop takes has a key in both columns. -/
theorem keyed_of_condHolds (h : condHolds (sqlOps o x c) (onColumns i j) l r) :
    keyed i j (l ++ r) := by
  rw [condHolds, holdsOn] at h
  split at h
  next w hw =>
    rw [eval_onColumns] at hw
    obtain ⟨u, hu, hw⟩ := bind_eq_ok.1 hw
    obtain ⟨v, hv, hw⟩ := bind_eq_ok.1 hw
    obtain rfl : w = .bool true := by
      unfold isTruthy at h
      split at h
      · rfl
      · cases h
    obtain ⟨hnu, hnv⟩ := isNull_of_eq hw
    rw [keyed, joinKey_of_isNull (eval_column_eq_ok hu) hnu, joinKey_of_isNull (eval_column_eq_ok hv) hnv]
    exact ⟨rfl, rfl⟩
  · cases h

theorem evalJoinCond_eq (h : eval o (l ++ r) cond = .ok v) :
    evalJoinCond o cond (l ++ r) = .ok (condHolds o cond l r) := by
  rw [evalJoinCond, condHolds, holdsOn, h]
  rfl

/-- One column on each side. -/
def acrossSides (i j leftColCount : Nat) : Prop :=
  (i < leftColCount ∧ leftColCount ≤ j) ∨ (j < leftColCount ∧ leftColCount ≤ i)

/-- What `Q` says of the values in two columns of every pair of rows. -/
def ForValues (i j : Nat) (leftRows rightRows : List Tuple) (Q : Value → Value → Prop) : Prop :=
  ∀ l ∈ leftRows, ∀ r ∈ rightRows, ∀ u v, (l ++ r)[i]? = some u → (l ++ r)[j]? = some v → Q u v

/-- Not two variants of a value, and not an array with a NULL twice. -/
def Alike (o : Ops) (x : TextOps) (c : SessionCollation) (u v : Value) : Prop :=
  ¬ Variants o x c u v ∧ (u = v → SelfEqual o x c u)

theorem alike_of_null {u v : Value} (h : u = .null ∨ v = .null) : Alike o x c u v := by
  rcases h with rfl | rfl
  · exact ⟨id, fun _ => trivial⟩
  · exact ⟨by cases u <;> exact id, fun h => h ▸ trivial⟩

theorem detectEquijoin_onColumns {li ri : Nat}
    (h : detectEquijoin (onColumns i j) leftColCount = some (li, ri)) :
    li < leftColCount ∧ leftColCount ≤ ri ∧ ((li = i ∧ ri = j) ∨ (li = j ∧ ri = i)) := by
  rw [onColumns, detectEquijoin] at h
  split at h
  next hij =>
    cases h
    exact ⟨hij.1, hij.2, .inl ⟨rfl, rfl⟩⟩
  split at h <;> cases h
  next hij => exact ⟨hij.1, hij.2, .inr ⟨rfl, rfl⟩⟩

theorem detectEquijoin_eq_none (h : detectEquijoin (onColumns i j) leftColCount = none) :
    ¬ acrossSides i j leftColCount := by
  rw [onColumns, detectEquijoin] at h
  split at h
  · cases h
  split at h
  · cases h
  next hij hji => exact fun h => h.elim hij hji

/-- The keys of a pair match if the values in the two columns are the same. -/
theorem keysMatch_iff {li ri : Nat} {u v : Value} (hl : l.length = leftColCount)
    (hdetect : detectEquijoin (onColumns i j) leftColCount = some (li, ri))
    (hu : (l ++ r)[i]? = some u) (hv : (l ++ r)[j]? = some v) :
    keysMatch li (ri - leftColCount) l r ↔ u ≠ .null ∧ u = v := by
  have hkey : ∀ {k w}, (l ++ r)[k]? = some w →
      joinKey k (l ++ r) = if w = .null then none else some w := by
    intro k w hw
    rw [joinKey, hw]
    cases w <;> simp [Value.isNull]
  obtain ⟨hli, hri, hij⟩ := detectEquijoin_onColumns hdetect
  rw [keysMatch, ← hl, ← joinKey_append_left (r := r) (hl ▸ hli), ← joinKey_append_right (hl ▸ hri)]
  rcases hij with ⟨rfl, rfl⟩ | ⟨rfl, rfl⟩
  · rw [hkey hu, hkey hv, sameKey]
    by_cases hun : u = .null <;> by_cases hvn : v = .null <;> simp_all
  · rw [hkey hu, hkey hv, sameKey_comm, sameKey]
    by_cases hun : u = .null <;> by_cases hvn : v = .null <;> simp_all

/-- The hash join and the nested loop decide alike on a pair. -/
theorem keysMatch_eq_condHolds_iff {li ri : Nat} {u v w : Value} (hl : l.length = leftColCount)
    (hdetect : detectEquijoin (onColumns i j) leftColCount = some (li, ri))
    (hu : (l ++ r)[i]? = some u) (hv : (l ++ r)[j]? = some v)
    (hk : u = .null ∨ v = .null ∨ Comparable u v)
    (hw : evalBinary (sqlOps o x c) .eq u v = .ok w)
    (heval : eval (sqlOps o x c) (l ++ r) (onColumns i j) = .ok w) :
    keysMatch li (ri - leftColCount) l r = condHolds (sqlOps o x c) (onColumns i j) l r ↔
      Alike o x c u v := by
  have hcond : condHolds (sqlOps o x c) (onColumns i j) l r ↔ Holds o x c .eq u v := by
    rw [condHolds, holdsOn, heval, Holds, hw]
    dsimp only
    unfold isTruthy
    split
    · simp
    next hne => simpa using hne
  rw [Bool.eq_iff_iff, keysMatch_iff hl hdetect hu hv, hcond]
  by_cases hnull : u = .null ∨ v = .null
  · refine iff_of_true (iff_of_false ?_ fun h => ?_) (alike_of_null hnull)
    · rintro ⟨hun, rfl⟩
      exact hun (hnull.elim id id)
    · obtain ⟨hun, hvn⟩ := isNull_of_eq h
      rcases hnull with rfl | rfl
      · cases hun
      · cases hvn
  · obtain ⟨hun, hvn⟩ := not_or.1 hnull
    rw [holds_eq_iff ((hk.resolve_left hun).resolve_left hvn) hw, Alike]
    by_cases huv : u = v
    · subst huv
      simp [hun, not_variants_self]
    · simp [huv]

theorem applyJoin_force (hashValue : Value → Nat) (leftRows rightRows : List Tuple)
    (leftColCount rightColCount : Nat) (joinType : JoinType) (cond : Expr) :
    applyJoin o hashValue leftRows rightRows leftColCount rightColCount true joinType cond =
      joinBy o hashValue leftRows rightRows leftColCount rightColCount joinType cond
        (detectEquijoin cond leftColCount) := by
  rw [applyJoin, Bool.true_or, Bool.true_or]
  rfl

/-- The hash path gives the join of the rows with equal keys. -/
theorem applyJoin_hash {hashValue : Value → Nat}
    {li ri : Nat} (hcross : joinType ≠ .cross)
    (hl : ∀ l ∈ leftRows, l.length = leftColCount) (hr : ∀ r ∈ rightRows, r.length = rightColCount)
    (hdetect : detectEquijoin cond leftColCount = some (li, ri)) :
    ∃ rows, applyJoin o hashValue leftRows rightRows leftColCount rightColCount true joinType cond =
        .ok rows ∧
      rows.Perm (joinWith (keysMatch li (ri - leftColCount)) leftRows rightRows leftColCount
        rightColCount joinType) := by
  rw [applyJoin_force, hdetect]
  cases joinType with
  | cross => exact (hcross rfl).elim
  | inner => exact ⟨_, rfl, hashJoinInnerWithSpill_perm leftRows rightRows li _ hashValue⟩
  | left => exact ⟨_, rfl, of_eq (hashJoinLeft_eq leftRows rightRows li _ rightColCount)⟩
  | right =>
    exact ⟨_, rfl, swapColumns_hashJoinLeft leftRows rightRows li _ leftColCount rightColCount hl hr⟩
  | full => exact ⟨_, rfl, of_eq (hashJoinFull_eq leftRows rightRows li _ leftColCount rightColCount)⟩

/-- For a condition on two columns of one kind that evaluates on every pair, the hash join gives
the rows of the nested loop just if no two rows have different values in the columns that stand for
the same, nor one array with a NULL in it. -/
theorem hash_join_eq_nested_loop (hashValue : Value → Nat) {leftRows rightRows : List Tuple}
    {leftColCount rightColCount : Nat} (hl : ∀ l ∈ leftRows, l.length = leftColCount)
    (hr : ∀ r ∈ rightRows, r.length = rightColCount) {joinType : JoinType}
    (hcross : joinType ≠ .cross) {i j : Nat}
    (hk : ForValues i j leftRows rightRows fun u v => u = .null ∨ v = .null ∨ Comparable u v)
    (heval : ∀ l ∈ leftRows, ∀ r ∈ rightRows,
      ∃ v, eval (sqlOps o x c) (l ++ r) (onColumns i j) = .ok v) :
    ∃ rows rows',
      applyJoin (sqlOps o x c) hashValue leftRows rightRows leftColCount rightColCount true joinType
        (onColumns i j) = .ok rows ∧
      nestedLoop (sqlOps o x c) leftRows rightRows leftColCount rightColCount joinType
        (onColumns i j) = .ok rows' ∧
      (rows.Perm rows' ↔
        (acrossSides i j leftColCount → ForValues i j leftRows rightRows (Alike o x c))) := by
  have hnested := nestedLoop_eq leftColCount rightColCount joinType fun l hmem r hmem' =>
    evalJoinCond_eq (heval l hmem r hmem').choose_spec
  cases hdetect : detectEquijoin (onColumns i j) leftColCount with
  | none =>
    refine ⟨_, _, ?_, hnested, iff_of_true (List.Perm.refl _) fun h => ?_⟩
    · rw [← hnested, applyJoin_force, hdetect]
      cases joinType <;> rfl
    · exact (detectEquijoin_eq_none hdetect h).elim
  | some key =>
    obtain ⟨li, ri⟩ := key
    obtain ⟨hli, hri, hij⟩ := detectEquijoin_onColumns hdetect
    obtain ⟨rows, hrows, hperm⟩ := applyJoin_hash (o := sqlOps o x c) hcross hl hr hdetect
    refine ⟨rows, _, hrows, hnested, ?_⟩
    have hkeys : ∀ l ∈ leftRows, ∀ r ∈ rightRows, keysMatch li (ri - leftColCount) l r = true →
        keyed li ri (l ++ r) := by
      intro l hmem r _ hmatch
      rw [keyed, joinKey_append_left (by rw [hl l hmem]; exact hli),
        joinKey_append_right (by rw [hl l hmem]; exact hri), hl l hmem]
      rw [keysMatch, sameKey, Bool.and_eq_true, decide_eq_true_eq] at hmatch
      exact ⟨hmatch.1, hmatch.2 ▸ hmatch.1⟩
    have hcond : ∀ l ∈ leftRows, ∀ r ∈ rightRows,
        condHolds (sqlOps o x c) (onColumns i j) l r = true → keyed li ri (l ++ r) := by
      intro l _ r _ h
      have hkeyed := keyed_of_condHolds h
      rcases hij with ⟨rfl, rfl⟩ | ⟨rfl, rfl⟩
      · exact hkeyed
      · exact hkeyed.symm
    have hiff : (joinWith (keysMatch li (ri - leftColCount)) leftRows rightRows leftColCount
        rightColCount joinType).Perm (joinWith (condHolds (sqlOps o x c) (onColumns i j)) leftRows
          rightRows leftColCount rightColCount joinType) ↔ _ :=
      joinWith_perm_iff joinType hli hri hl hkeys hcond
    have hacross : acrossSides i j leftColCount := by
      rcases hij with ⟨rfl, rfl⟩ | ⟨rfl, rfl⟩
      · exact .inl ⟨hli, hri⟩
      · exact .inr ⟨hli, hri⟩
    rw [forall_prop_of_true hacross,
      show rows.Perm _ ↔ _ from ⟨hperm.symm.trans, hperm.trans⟩, hiff]
    refine forall₂_congr fun l hmem => forall₂_congr fun r hmem' => ?_
    obtain ⟨w, hw⟩ := heval l hmem r hmem'
    obtain ⟨u, hu, hw'⟩ := bind_eq_ok.1 (eval_onColumns (o := sqlOps o x c) i j (l ++ r) ▸ hw)
    obtain ⟨v, hv, hw'⟩ := bind_eq_ok.1 hw'
    replace hu := eval_column_eq_ok hu
    replace hv := eval_column_eq_ok hv
    rw [keysMatch_eq_condHolds_iff (hl l hmem) hdetect hu hv (hk l hmem r hmem' u v hu hv) hw' hw]
    simp [hu, hv]

end

/-- One row with one column on either side. -/
def oneInt : List Tuple := [[.int (.wrap 32 1)]]

def oneBigInt : List Tuple := [[.bigInt (.wrap 64 1)]]

theorem eval_pair {u v w : Value} (h : evalBinary (sqlOps plainOps joseText .es) .eq u v = .ok w) :
    eval (sqlOps plainOps joseText .es) ([u] ++ [v]) (onColumns 0 1) = .ok w := by
  rw [eval_onColumns, eval, eval]
  exact h

theorem eval_oneInt (vs : List Tuple) (hvs : vs = oneInt ∨ vs = oneBigInt) : ∀ l ∈ oneInt, ∀ r ∈ vs,
      eval (sqlOps plainOps joseText .es) (l ++ r) (onColumns 0 1) = .ok (.bool true) := by
  intro l hl r hr
  rcases hvs with rfl | rfl
  all_goals
    rw [mem_singleton.1 hl, mem_singleton.1 hr]
    exact eval_pair rfl

/-- A full join of `NULL, 1` with `1, 2`. -/
theorem hash_join_eq_nested_loop_ints : ∃ rows rows',
      applyJoin (sqlOps plainOps joseText .es) (fun _ => 0) [[.null], [.int (.wrap 32 1)]]
        [[.int (.wrap 32 1)], [.int (.wrap 32 2)]] 1 1 true .full (onColumns 0 1) = .ok rows ∧
      nestedLoop (sqlOps plainOps joseText .es) [[.null], [.int (.wrap 32 1)]]
        [[.int (.wrap 32 1)], [.int (.wrap 32 2)]] 1 1 .full (onColumns 0 1) = .ok rows' ∧
      rows.Perm rows' := by
  have hk : ∀ Q : Value → Value → Prop, (∀ n : Int, Q .null (.int (.wrap 32 n))) →
      (∀ n : Int, Q (.int (.wrap 32 1)) (.int (.wrap 32 n))) →
      ForValues 0 1 [[.null], [.int (.wrap 32 1)]] [[.int (.wrap 32 1)], [.int (.wrap 32 2)]] Q := by
    intro Q hnull hint l hl r hr u v hu hv
    simp only [mem_cons, not_mem_nil, or_false] at hl hr
    rcases hl with rfl | rfl <;> rcases hr with rfl | rfl <;> cases hu <;> cases hv
    · exact hnull 1
    · exact hnull 2
    · exact hint 1
    · exact hint 2
  have heval : ∀ l ∈ [[.null], [.int (.wrap 32 1)]], ∀ r ∈ [[.int (.wrap 32 1)], [.int (.wrap 32 2)]],
      ∃ v, eval (sqlOps plainOps joseText .es) (l ++ r) (onColumns 0 1) = .ok v := by
    intro l hl r hr
    simp only [mem_cons, not_mem_nil, or_false] at hl hr
    rcases hl with rfl | rfl <;> rcases hr with rfl | rfl <;> exact ⟨_, eval_pair rfl⟩
  have hl : ∀ l ∈ ([[.null], [.int (.wrap 32 1)]] : List Tuple), l.length = 1 := by decide
  have hr : ∀ r ∈ ([[.int (.wrap 32 1)], [.int (.wrap 32 2)]] : List Tuple), r.length = 1 := by decide
  obtain ⟨rows, rows', hrows, hrows', hperm⟩ :=
    hash_join_eq_nested_loop (fun _ => 0) hl hr (show JoinType.full ≠ .cross by decide)
      (hk _ (fun _ => .inl rfl) fun _ => .inr (.inr ⟨rfl, rfl⟩)) heval
  exact ⟨rows, rows', hrows, hrows', hperm.2 fun _ =>
    hk _ (fun _ => alike_of_null (.inl rfl)) fun _ => ⟨id, fun _ => trivial⟩⟩

/-- The number one as INT and as BIGINT: the nested loop finds the pair, the hash join does not. -/
theorem int_and_bigint_not_joined :
    applyJoin (sqlOps plainOps joseText .es) (fun _ => 0) oneInt oneBigInt 1 1 true .inner
        (onColumns 0 1) = .ok [] ∧
      nestedLoop (sqlOps plainOps joseText .es) oneInt oneBigInt 1 1 .inner (onColumns 0 1) =
        .ok [[.int (.wrap 32 1), .bigInt (.wrap 64 1)]] := by
  constructor
  · rw [applyJoin_force]
    decide +kernel
  have hcond := eval_oneInt oneBigInt (.inr rfl)
  have hpair : condHolds (sqlOps plainOps joseText .es) (onColumns 0 1) [.int (.wrap 32 1)]
      [.bigInt (.wrap 64 1)] = true := by
    rw [condHolds, holdsOn, hcond _ (.head _) _ (.head _)]
    rfl
  rw [nestedLoop_eq 1 1 .inner fun l hl r hr => evalJoinCond_eq (hcond l hl r hr)]
  simp [joinWith, oneInt, oneBigInt, hpair]

/-- Hash joins give the pairs of rows whose keys are the same and not NULL, and the rows without
such a pair padded, by the kind of join; partitions and the side of the table do not matter. -/
theorem hash_joins_exact (hashValue : Value → Nat) (leftRows rightRows : List Tuple)
    (li ri leftColCount rightColCount : Nat) :
    let join := joinWith (keysMatch li ri) leftRows rightRows leftColCount rightColCount
    (hashJoinInner leftRows rightRows li ri).Perm (join .inner) ∧
      (hashJoinInnerWithSpill hashValue leftRows rightRows li ri).Perm (join .inner) ∧
      hashJoinLeft leftRows rightRows li ri rightColCount = join .left ∧
      hashJoinFull leftRows rightRows li ri leftColCount rightColCount = join .full ∧
      ((∀ l ∈ leftRows, l.length = leftColCount) → (∀ r ∈ rightRows, r.length = rightColCount) →
        (swapColumns (hashJoinLeft rightRows leftRows ri li leftColCount) rightColCount
          leftColCount).Perm (join .right)) :=
  ⟨hashJoinInner_perm leftRows rightRows li ri,
    hashJoinInnerWithSpill_perm leftRows rightRows li ri hashValue,
    hashJoinLeft_eq leftRows rightRows li ri rightColCount,
    hashJoinFull_eq leftRows rightRows li ri leftColCount rightColCount,
    swapColumns_hashJoinLeft leftRows rightRows li ri leftColCount rightColCount⟩

theorem hash_joins_exact_right :
    (swapColumns (hashJoinLeft [[.int (.wrap 32 1)], [.null]] oneInt 0 0 1) 1 1).Perm
      (joinWith (keysMatch 0 0) oneInt [[.int (.wrap 32 1)], [.null]] 1 1 .right) :=
  (hash_joins_exact (fun _ => 0) oneInt [[.int (.wrap 32 1)], [.null]] 0 0 1 1).2.2.2.2
    (by decide) (by decide)

end AxiomDb.Row
