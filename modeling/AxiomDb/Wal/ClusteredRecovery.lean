import AxiomDb.Wal.Clustered

/-!
# Recovery of clustered tables from the current roots

While every root that an active transaction has logged is the current one, recovery
starts from the current roots, and from there its undo gives the committed rows.
-/

namespace AxiomDb.Wal.Clustered

open Lib Heap List Function Option Db Event FieldDelta InFlight RecoveryOp Function

variable {code : TreeCode} {s s' : Db} {strict : Bool}

/-! ## Field patches -/

/-- The byte is one of the delta. -/
def FieldDelta.Holds (d : FieldDelta) (i : Nat) : Prop := d.offset ≤ i ∧ i < d.stop

variable {data : Bytes} {e : Entry} {d : FieldDelta} {l : List (Nat × TableId × PageId)}
  {ds : List FieldDelta} {c : Nat} {row : Option Row} {root : PageId} {undo : RecoveryOp}
  {table : TableId} {trees : TableId → Tree} {tree : Tree}

theorem length_splice (h : d.stop ≤ data.length) : (splice data d).length = data.length := by
  simp only [stop] at h
  simp [splice, stop]
  omega

theorem getElem?_splice (h : d.stop ≤ data.length) (i : Nat) :
    (d.Holds i → (splice data d)[i]? = d.bytes[i - d.offset]?) ∧
      (¬d.Holds i → (splice data d)[i]? = data[i]?) := by
  simp only [stop] at h
  have htake : (data.take d.offset).length = d.offset := by
    rw [length_take]
    omega
  simp only [Holds, stop, splice, append_assoc]
  refine ⟨fun ⟨hlo, hhi⟩ => ?_, fun hout => ?_⟩
  · rw [getElem?_append_right (by omega), htake, getElem?_append_left (by omega)]
  by_cases hlo : i < d.offset
  · rw [getElem?_append_left (by omega), getElem?_take_of_lt hlo]
  rw [getElem?_append_right (by omega), htake, getElem?_append_right (by omega), getElem?_drop]
  congr 1
  omega

/-- Deltas change the bytes they hold and no others. -/
theorem patchFields_frame {data' : Bytes} (h : patchFields ds data = some data') :
    data'.length = data.length ∧ (∀ d ∈ ds, d.stop ≤ data.length) ∧
      ∀ i, (∀ d ∈ ds, ¬d.Holds i) → data'[i]? = data[i]? := by
  induction ds generalizing data with
  | nil =>
    cases h
    simp
  | cons d ds ih =>
    rw [patchFields] at h
    split at h
    · cases h
    next hfit =>
    have hfit : d.stop ≤ data.length := by omega
    obtain ⟨hlen, hfits, hframe⟩ := ih h
    rw [length_splice hfit] at hlen hfits
    refine ⟨hlen, forall_mem_cons.mpr ⟨hfit, hfits⟩, fun i hi => ?_⟩
    obtain ⟨hd, hds⟩ := forall_mem_cons.mp hi
    exact (hframe i hds).trans ((getElem?_splice hfit i).2 hd)

theorem before_stop (h : d.stop ≤ data.length) : (d.before data).stop = d.stop := by
  simp only [stop] at h
  simp [before, stop]
  omega

/-- Bytes that differ from `data` only where deltas go are set back. -/
theorem patchFields_before {cur : Bytes} (hfits : ∀ d ∈ ds, d.stop ≤ data.length)
    (hlen : cur.length = data.length) (hframe : ∀ i, (∀ d ∈ ds, ¬d.Holds i) → cur[i]? = data[i]?) :
    patchFields (ds.map (·.before data)) cur = some data := by
  induction ds generalizing cur with
  | nil => exact congrArg some (ext_getElem? fun i => hframe i (by simp))
  | cons d ds ih =>
    obtain ⟨hfit, hfits⟩ := forall_mem_cons.mp hfits
    have hstop := before_stop hfit
    rw [map_cons, patchFields, if_neg (by omega)]
    refine ih hfits ((length_splice (by omega)).trans hlen) fun i hi => ?_
    have hs := getElem?_splice (show (d.before data).stop ≤ cur.length by omega) i
    by_cases hd : d.Holds i
    · have hd' : (d.before data).Holds i := ⟨hd.1, hstop.symm ▸ hd.2⟩
      obtain ⟨hlo, hhi⟩ := hd
      rw [hs.1 hd']
      simp only [stop] at hhi
      simp only [before]
      rw [getElem?_take_of_lt (by omega), getElem?_drop]
      congr 1
      omega
    · have hd' : ¬(d.before data).Holds i := fun h => hd ⟨h.1, hstop ▸ h.2⟩
      rw [hs.2 hd']
      exact hframe i (forall_mem_cons.mpr ⟨hd, hi⟩)

/-! ## Undo, key by key -/

theorem undoTree_sees (code : TreeCode) {op : RecoveryOp}
    (h : op.undoRow strict (tree root op.place.2) = some row) :
    ∃ tree' root', op.undoTree code strict tree root = some (tree', root') ∧
      tree' root' = update (tree root) op.place.2 row := by
  cases op with
  | insert table key =>
    simp only [place, undoRow] at h
    rw [undoTree]
    by_cases hnone : (tree root key).isNone
    · cases strict with
      | false =>
        obtain rfl : none = row := by simpa using h
        rw [if_pos hnone]
        exact ⟨_, _, rfl, (update_eq_self_iff.mpr (isNone_iff_eq_none.mp hnone).symm).symm⟩
      | true => simp [hnone] at h
    · obtain rfl : none = row := by simpa [hnone] using h
      rw [if_neg hnone]
      exact ⟨_, _, rfl, code.write_sees ..⟩
  | restore table key oldRow =>
    cases h
    exact ⟨_, _, rfl, code.write_sees ..⟩
  | fieldPatchRestore table key oldHeader deltas =>
    simp only [place, undoRow] at h
    rw [undoTree]
    cases hrow : tree root key with
    | none =>
      simp only [hrow] at h
      cases h
      exact ⟨_, _, rfl, (update_eq_self_iff.mpr hrow.symm).symm⟩
    | some old =>
      simp only [hrow] at h
      obtain ⟨data, hdata, rfl⟩ := map_eq_some_iff.mp h
      simp only [hdata, map_some]
      cases strict with
      | false => exact ⟨_, _, rfl, code.write_sees ..⟩
      | true => exact ⟨_, _, rfl, code.patch_sees ..⟩

/-- The rows found from the roots that are known. -/
def seen (trees : TableId → Tree) (roots : TableId → Option PageId) (x : TableId × Key) : Option Row :=
  (roots x.1).bind fun root => trees x.1 root x.2

theorem seen_update {trees : TableId → Tree} {roots : TableId → Option PageId} {table : TableId}
    {key : Key} {root root' : PageId} {tree' : Tree} {row : Option Row} (hroot : roots table = some root)
    (h : tree' root' = update (trees table root) key row) :
    seen (update trees table tree') (update roots table (some root')) =
      update (seen trees roots) (table, key) row := by
  funext x
  obtain ⟨t, k⟩ := x
  by_cases ht : t = table
  · subst ht
    by_cases hk : k = key
    · simp [seen, h, hk]
    · have hne : (t, k) ≠ (t, key) := fun h => hk (congrArg Prod.snd h)
      simp [seen, h, update_of_ne hk, update_of_ne hne, hroot]
  · have hne : (t, k) ≠ (table, key) := fun h => ht (congrArg Prod.fst h)
    simp [seen, update_of_ne ht, update_of_ne hne]

/-- Where the roots of the operations' tables are known, operations are undone in the trees as
they are on each row. -/
theorem undoAll_sees (code : TreeCode) {ops : List RecoveryOp} {roots : TableId → Option PageId}
    {rows : TableId × Key → Option Row} (hroots : ∀ op ∈ ops, roots op.place.1 ≠ none)
    (h : ∀ x, rowUndo.undoAt strict x ops (seen trees roots x) = some (rows x)) :
    ∃ trees' roots', undoAll code strict ops trees roots = some (trees', roots') ∧
      seen trees' roots' = rows ∧ (∀ table, roots' table = none ↔ roots table = none) ∧
      ∀ table, (∀ op ∈ ops, op.place.1 ≠ table) → trees' table = trees table := by
  induction ops generalizing trees roots with
  | nil => exact ⟨trees, roots, rfl, funext fun x => some.inj (h x), fun _ => .rfl, fun _ _ => rfl⟩
  | cons op ops ih =>
    obtain ⟨root, hroot⟩ := ne_none_iff_exists'.mp (hroots op mem_cons_self)
    have hat (x : TableId × Key) : rowUndo.undoAt strict x (op :: ops) (seen trees roots x) =
        if op.place = x then (op.undoRow strict (seen trees roots x)).bind (rowUndo.undoAt strict x ops)
        else rowUndo.undoAt strict x ops (seen trees roots x) := by
      simp [UndoOps.undoAt, rowUndo]
    obtain ⟨row, hrow, hrest⟩ := bind_eq_some_iff.mp
      ((if_pos rfl).symm.trans ((hat op.place).symm.trans (h op.place)))
    have hseen : seen trees roots op.place = trees op.place.1 root op.place.2 := by
      simp [seen, hroot]
    obtain ⟨tree', root', htree, hsees⟩ := undoTree_sees code (hseen ▸ hrow)
    have hupdate := seen_update hroot hsees
    have hroots' (o : RecoveryOp) (ho : o ∈ ops) :
        update roots op.place.1 (some root') o.place.1 ≠ none := by
      by_cases ht : o.place.1 = op.place.1
      · simp [ht]
      · rw [update_of_ne ht]
        exact hroots o (mem_cons_of_mem _ ho)
    have h' (x : TableId × Key) : rowUndo.undoAt strict x ops (seen (update trees op.place.1 tree')
          (update roots op.place.1 (some root')) x) = some (rows x) := by
      rw [hupdate]
      by_cases hx : x = op.place
      · rw [hx, Function.update_self, hrest]
      · rw [update_of_ne hx, ← h x, hat, if_neg (Ne.symm hx)]
    obtain ⟨trees'', roots'', hall, hrows, hnone, hframe⟩ := ih hroots' h'
    refine ⟨trees'', roots'', ?_, hrows, fun table => (hnone table).trans ?_, fun table ht => ?_⟩
    · rw [undoAll, hroot, bind_some, htree, bind_some, hall]
    · by_cases ht : table = op.place.1
      · simp [ht, hroot]
      · rw [update_of_ne ht]
    · obtain ⟨hop, hops⟩ := forall_mem_cons.mp ht
      rw [hframe table hops, update_of_ne (Ne.symm hop)]

/-! ## The roots that recovery finds -/

theorem rootScan_append (entries : List (LogEntry Entry)) (e : LogEntry Entry) :
    rootScan (entries ++ [e]) = (rootScan entries).entry e := by
  simp [rootScan, foldl_append]

theorem entry_toScan (sc : RootScan) (e : LogEntry Entry) :
    (sc.entry e).toScan = sc.toScan.entry (fun b => [b.undo]) e := by
  rw [RootScan.entry]
  cases e.kind with
  | op b =>
    dsimp only
    split
    · rfl
    · split <;> rfl
  | _ => rfl

theorem rootScan_toScan (entries : List (LogEntry Entry)) :
    (rootScan entries).toScan = scan (fun b => [b.undo]) entries := by
  induction entries using reverseRecOn with
  | nil => rfl
  | append_singleton entries e ih => rw [rootScan_append, entry_toScan, ih, scan_append]

/-- The root of the last pair for a table. -/
def lastRoot (l : List (Nat × TableId × PageId)) (table : TableId) : Option PageId :=
  (l.filter (·.2.1 == table)).getLast?.map (·.2.2)

theorem lastRoot_append (l : List (Nat × TableId × PageId)) (p : Nat × TableId × PageId)
    (table : TableId) :
    lastRoot (l ++ [p]) table = if p.2.1 = table then some p.2.2 else lastRoot l table := by
  by_cases h : p.2.1 = table <;> simp [lastRoot, h]

theorem foldl_roots (l : List (Nat × TableId × PageId)) (roots : TableId → Option PageId)
    (table : TableId) :
    l.foldl (fun (roots : TableId → Option PageId) p => update roots p.2.1 (some p.2.2))
      roots table = (lastRoot l table).or (roots table) := by
  induction l using reverseRecOn with
  | nil => rfl
  | append_singleton l p ih =>
    rw [foldl_append, foldl_cons, foldl_nil, lastRoot_append]
    by_cases h : p.2.1 = table
    · simp [h]
    · rw [update_of_ne (Ne.symm h), ih, if_neg h]

/-- The last pair for a table is the last one of its transaction for it. -/
theorem exists_lastRoot (h : lastRoot l table = some root) :
    ∃ p ∈ l, lastRoot (l.filter (·.1 == p.1)) table = some root := by
  obtain ⟨p, hp, rfl⟩ := map_eq_some_iff.mp h
  obtain ⟨l', hl'⟩ := getLast?_eq_some_iff.mp hp
  refine ⟨p, mem_of_mem_filter (hl' ▸ mem_append_right _ mem_cons_self), ?_⟩
  rw [lastRoot, filter_comm, hl', filter_append]
  simp

theorem lastRoot_eq_none (h : lastRoot l table = none) (c : Nat) :
    lastRoot (l.filter (·.1 == c)) table = none := by
  have hnil : l.filter (·.2.1 == table) = [] := by simpa [lastRoot] using h
  rw [lastRoot, filter_comm, hnil]
  rfl

/-- What the log says of roots, against the tables. -/
structure RootsSound (s : Db) (sc : RootScan) : Prop where
  /-- A root logged by an active transaction is the current one. -/
  current : ∀ c ∈ s.active, ∀ table root, sc.activeRoots c table = some root → root = s.roots table
  ended : ∀ c, c ∉ s.active → ∀ table, sc.activeRoots c table = none
  last : ∀ c ∈ s.active, ∀ table,
    lastRoot (sc.rootTimeline.filter (·.1 == c)) table = sc.activeRoots c table
  ids : ∀ p ∈ sc.rootTimeline, p.1 < s.nextTxnId
  /-- A root that a transaction writes to the catalog is logged too. -/
  written : ∀ c ∈ s.active, ∀ table, sc.activeRoots c table = none → s.written c table = none
  /-- The log names a root of each table that has something to undo, and of the others too if the
  catalog does not have it. -/
  known : ∀ table, (∃ c ∈ s.active, sc.activeRoots c table ≠ none) ∨
    sc.committedRoots table = some (s.roots table) ∨
    sc.committedRoots table = none ∧ (∀ c ∈ s.active, s.changed c table = false) ∧
      s.roots table = s.catalog table

/-- Recovery starts from the current root of each table that has something to undo. -/
theorem RootsSound.currentRoots {sc : RootScan} (h : RootsSound s sc)
    (hactive : ∀ c, c ∈ sc.activeTxns ↔ c ∈ s.active) (table : TableId) :
    sc.currentRoots table = some (s.roots table) ∨
      sc.currentRoots table = none ∧ (∀ c ∈ s.active, s.changed c table = false) ∧
        s.roots table = s.catalog table := by
  rw [RootScan.currentRoots, foldl_roots]
  cases hlast : lastRoot (sc.rootTimeline.filter fun p => p.1 ∈ sc.activeTxns) table with
  | some root =>
    obtain ⟨p, hp, hpl⟩ := exists_lastRoot hlast
    obtain ⟨-, hact⟩ := mem_filter.mp hp
    have hact : p.1 ∈ s.active := (hactive _).mp (by simpa using hact)
    have hfilter : (sc.rootTimeline.filter fun p => p.1 ∈ sc.activeTxns).filter (·.1 == p.1) =
        sc.rootTimeline.filter (·.1 == p.1) := by
      rw [List.filter_filter]
      refine filter_congr fun q _ => ?_
      by_cases hq : q.1 = p.1
      · simp [hq, (hactive p.1).mpr hact]
      · simp [hq]
    rw [hfilter, h.last _ hact] at hpl
    exact .inl (congrArg some (h.current _ hact _ _ hpl))
  | none =>
    rw [none_or]
    rcases h.known table with ⟨c, hc, hne⟩ | hcm | hcm
    · refine absurd ?_ hne
      rw [← h.last c hc, ← lastRoot_eq_none hlast c, List.filter_filter]
      refine congrArg (lastRoot · table) (filter_congr fun q _ => ?_)
      by_cases hq : q.1 = c
      · simp [hq, (hactive c).mpr hc]
      · simp [hq]
    · exact .inl hcm
    · exact .inr hcm

/-! ## Steps -/

/-- What holds in every state reached. -/
structure Inv (s : Db) : Prop where
  isolated : Isolated rowUndo s.toInFlight s.rows
  log : LogMatches (fun b => [b.undo]) s.log.window s.toInFlight
  roots : RootsSound s (rootScan s.log.window)
  ids : ∀ e ∈ s.log.window, e.txnId < s.nextTxnId
  pos : 0 < s.nextTxnId

theorem Inv.activeTxns (hs : Inv s) (c : Nat) :
    c ∈ (rootScan s.log.window).activeTxns ↔ c ∈ s.active := by
  rw [rootScan_toScan]
  exact hs.log.active c

theorem Inv.active_lt (hs : Inv s) (hc : c ∈ s.active) : c < s.nextTxnId := by
  obtain ⟨e, he, rfl⟩ := (exists_entry _ _).1 c ((hs.log.active c).mpr hc)
  exact hs.ids e he

theorem Inv.ids_append (hs : Inv s) {n : Nat} (hc : c < n) (hn : s.nextTxnId ≤ n)
    (kind : EntryKind Entry) : ∀ e ∈ (s.log.append c kind).window, e.txnId < n := by
  intro e he
  rw [Log.window_append] at he
  rcases mem_append.mp he with he | he
  · exact (hs.ids e he).trans_le hn
  · rw [mem_singleton.mp he]
    exact hc

theorem Inv.opened (trees : TableId → Tree) (roots : TableId → PageId) : Inv (.opened trees roots) := by
  refine ⟨.of_idle rfl rfl, .of_idle rfl rfl, ⟨?_, fun _ _ _ => rfl, ?_, ?_, ?_, fun _ => .inr (.inr ⟨rfl, ?_, rfl⟩)⟩,
    ?_, Nat.zero_lt_one⟩
  all_goals intro _ h; cases h

theorem Inv.begin (hs : Inv s) : ∀ {s'}, step code s .begin = some s' → Inv s' := by
  rintro _ ⟨⟩
  have hnew (e : LogEntry Entry) (he : e ∈ s.log.window) : e.txnId ≠ s.nextTxnId :=
    (hs.ids e he).ne
  obtain ⟨hidle, hlog⟩ := hs.log.begin hnew
  have hne {c : Nat} (hc : c ∈ s.active) : c ≠ s.nextTxnId := (hs.active_lt hc).ne
  refine ⟨hs.isolated.begin hidle, by simpa using hlog, ?_,
    hs.ids_append (Nat.lt_succ_self _) (Nat.le_succ _) _, Nat.succ_pos _⟩
  have hr := hs.roots
  rw [Log.window_append, rootScan_append]
  refine ⟨fun c hc table root h => ?_, fun c hc => ?_, fun c hc table => ?_,
    fun p hp => (hr.ids p hp).trans (Nat.lt_succ_self _), fun c hc table h => ?_, fun table => ?_⟩
  · rcases mem_cons.mp hc with rfl | hc
    · cases (hr.ended _ hidle table).symm.trans h
    · exact hr.current c hc table root h
  · exact hr.ended c fun h => hc (mem_cons_of_mem _ h)
  · rcases mem_cons.mp hc with rfl | hc
    · have hnil : (rootScan s.log.window).rootTimeline.filter (·.1 == s.nextTxnId) = [] :=
        filter_eq_nil_iff.mpr fun p hp => by simpa using (hr.ids p hp).ne
      exact (congrArg (lastRoot · table) hnil).trans (hr.ended _ hidle table).symm
    · exact hr.last c hc table
  · rcases mem_cons.mp hc with rfl | hc
    · change update s.written s.nextTxnId (fun _ => none) s.nextTxnId table = none
      rw [Function.update_self]
    · change update s.written s.nextTxnId (fun _ => none) c table = none
      rw [update_of_ne (hne hc)]
      exact hr.written c hc table h
  · rcases hr.known table with ⟨c, hc, h⟩ | h | ⟨h, hfree, hcat⟩
    · exact .inl ⟨c, mem_cons_of_mem _ hc, h⟩
    · exact .inr (.inl h)
    refine .inr (.inr ⟨h, fun c hc => ?_, hcat⟩)
    rcases mem_cons.mp hc with rfl | hc
    · simp [Db.changed, InFlight.begin]
    · simpa [changed, begin_ops (hne hc)] using hfree c hc

theorem rowsOf_update {roots : TableId → PageId} {key : Key} {root' : PageId} {tree' : Tree}
    (h : tree' root' = update (trees table (roots table)) key row) :
    rowsOf (update trees table tree') (update roots table root') =
      update (rowsOf trees roots) (table, key) row := by
  have := @seen_update trees (some ∘ roots) table key _ _ _ _ rfl h
  rw [← comp_update] at this
  exact this

/-- An operation on a row that no other active transaction has changed. -/
theorem Inv.put (hs : Inv s) (hc : c ∈ s.active) (hown : s.Owns c e.undo.place) (hsees : tree root =
      update (s.trees e.undo.place.1 (s.roots e.undo.place.1)) e.undo.place.2 row)
    (hundo : ∀ strict, e.undo.undoRow strict row = some (s.rows e.undo.place))
    (hroots : RootsSound (s.put c e tree root)
      ((rootScan s.log.window).entry ⟨s.log.nextLsn, c, .op e⟩)) : Inv (s.put c e tree root) := by
  have hrows : (s.put c e tree root).rows = update s.rows e.undo.place row :=
    rowsOf_update hsees
  refine ⟨hs.isolated.record hc (fun x hx => ?_) (fun x hx strict => ?_) fun x hx => ?_, ?_, ?_,
    hs.ids_append (hs.active_lt hc) le_rfl _, hs.pos⟩
  · have hne : x ≠ e.undo.place := fun h => by simp [rowUndo, h] at hx
    exact (congrFun hrows x).trans (update_of_ne hne ..)
  · obtain rfl : e.undo.place = x := by simpa [rowUndo] using hx
    exact (congrArg _ ((congrFun hrows _).trans (update_self ..))).trans (hundo strict)
  · obtain rfl : e.undo.place = x := by simpa [rowUndo] using hx
    exact hown
  · change LogMatches _ (s.log.append c (.op e)).window _
    rw [Log.window_append]
    exact hs.log.op hc rfl (update_self ..) fun b hbc => record_ops hbc
  · change RootsSound _ (rootScan (s.log.append c (.op e)).window)
    rw [Log.window_append, rootScan_append]
    exact hroots

theorem changed_put {b : Nat} (ht : table ≠ e.undo.place.1) :
    (s.put c e tree root).changed b table = s.changed b table := by
  by_cases hbc : b = c
  · simp [changed, put, record, hbc, ht.symm]
  · have : (s.put c e tree root).ops b = s.ops b := record_ops hbc
    rw [changed, this, changed]

theorem written_put {b : Nat} (ht : table ≠ e.undo.place.1) :
    (s.put c e tree root).written b table = s.written b table := by
  rw [put]
  dsimp only
  split
  · rfl
  by_cases hbc : b = c
  · rw [hbc, Function.update_self, update_of_ne ht]
  · rw [update_of_ne hbc]

theorem written_put_other {b : Nat} (hbc : b ≠ c) :
    (s.put c e tree root).written b table = s.written b table := by
  rw [put]
  dsimp only
  split
  · rfl
  · rw [update_of_ne hbc]

/-- An operation that logs the root after it. -/
theorem Inv.roots_write (hs : Inv s) (hc : c ∈ s.active)
    (hmove : root = s.roots undo.place.1 ∨ ∀ b ∈ s.active, b ≠ c → ¬s.Names b undo.place.1) :
    RootsSound (s.put c ⟨some root, undo⟩ tree root)
      ((rootScan s.log.window).entry ⟨s.log.nextLsn, c, .op ⟨some root, undo⟩⟩) := by
  have hr := hs.roots
  have hact := (hs.activeTxns c).mpr hc
  have hactive : ((rootScan s.log.window).entry
      ⟨s.log.nextLsn, c, .op ⟨some root, undo⟩⟩).activeRoots =
        update (rootScan s.log.window).activeRoots c
          (update ((rootScan s.log.window).activeRoots c) undo.place.1 (some root)) := by
    simp [RootScan.entry, hact]
  have htimeline : ((rootScan s.log.window).entry
      ⟨s.log.nextLsn, c, .op ⟨some root, undo⟩⟩).rootTimeline =
        (rootScan s.log.window).rootTimeline ++ [(c, undo.place.1, root)] := by
    simp [RootScan.entry, hact]
  have hcommitted : ((rootScan s.log.window).entry
      ⟨s.log.nextLsn, c, .op ⟨some root, undo⟩⟩).committedRoots =
        (rootScan s.log.window).committedRoots := by
    simp [RootScan.entry, hact]
  generalize (rootScan s.log.window).entry ⟨s.log.nextLsn, c, .op ⟨some root, undo⟩⟩ = sc' at *
  refine ⟨fun b hb table r h => ?_, fun b hb table => ?_, fun b hb table => ?_, fun p hp => ?_,
    fun b hb table h => ?_, fun table => ?_⟩
  · change r = update s.roots undo.place.1 root table
    rw [hactive] at h
    by_cases hbc : b = c
    · subst hbc
      rw [Function.update_self] at h
      by_cases ht : table = undo.place.1
      · subst ht
        rw [Function.update_self] at h ⊢
        exact (some.inj h).symm
      · rw [update_of_ne ht] at h ⊢
        exact hr.current b hb table r h
    rw [update_of_ne hbc] at h
    by_cases ht : table = undo.place.1
    · subst ht
      rw [Function.update_self, hr.current b hb _ r h]
      rcases hmove with hmove | hmove
      · exact hmove.symm
      · refine absurd ?_ (hmove b hb hbc)
        rw [Names, h]
        exact some_ne_none r
    · rw [update_of_ne ht]
      exact hr.current b hb table r h
  · have hbc : b ≠ c := fun h => hb (h ▸ hc)
    rw [hactive, update_of_ne hbc]
    exact hr.ended b hb table
  · rw [hactive, htimeline, filter_append]
    by_cases hbc : b = c
    · subst hbc
      rw [show [(b, undo.place.1, root)].filter (·.1 == b) = [(b, undo.place.1, root)] by simp,
        lastRoot_append, hr.last b hb, Function.update_self]
      by_cases ht : table = undo.place.1
      · simp [ht]
      · rw [if_neg (Ne.symm ht), update_of_ne ht]
    · rw [show [(c, undo.place.1, root)].filter (·.1 == b) = [] by simp [Ne.symm hbc],
        append_nil, hr.last b hb, update_of_ne hbc]
  · rw [htimeline] at hp
    rcases mem_append.mp hp with hp | hp
    · exact hr.ids p hp
    · rw [mem_singleton.mp hp]
      exact hs.active_lt hc
  · rw [hactive] at h
    by_cases hbc : b = c
    · subst hbc
      rw [Function.update_self] at h
      by_cases ht : table = undo.place.1
      · rw [ht, Function.update_self] at h
        cases h
      · rw [update_of_ne ht] at h
        exact (written_put ht).trans (hr.written b hb table h)
    · rw [update_of_ne hbc] at h
      exact (written_put_other hbc).trans (hr.written b hb table h)
  · rw [hactive, hcommitted]
    by_cases ht : table = undo.place.1
    · exact .inl ⟨c, hc, by simp [ht]⟩
    rcases hr.known table with ⟨b, hb, h⟩ | h | ⟨h, hfree, hcat⟩
    · refine .inl ⟨b, hb, ?_⟩
      by_cases hbc : b = c
      · subst hbc
        rwa [Function.update_self, update_of_ne ht]
      · rwa [update_of_ne hbc]
    · refine .inr (.inl (h.trans (congrArg some ?_)))
      exact (update_of_ne ht ..).symm
    · exact .inr (.inr ⟨h, fun b hb => (changed_put ht).trans (hfree b hb),
        (update_of_ne ht ..).trans hcat⟩)

/-- A field patch, which logs no root. -/
theorem Inv.roots_patch (hs : Inv s)
    (hknown : (rootScan s.log.window).committedRoots undo.place.1 ≠ none ∨
      ∃ b ∈ s.active, s.Names b undo.place.1) :
    RootsSound (s.put c ⟨none, undo⟩ tree (s.roots undo.place.1))
      ((rootScan s.log.window).entry ⟨s.log.nextLsn, c, .op ⟨none, undo⟩⟩) := by
  have hr := hs.roots
  have hroots : (s.put c ⟨none, undo⟩ tree (s.roots undo.place.1)).roots = s.roots :=
    update_eq_self ..
  have hwritten : (s.put c ⟨none, undo⟩ tree (s.roots undo.place.1)).written = s.written :=
    if_pos rfl
  refine ⟨fun b hb table r h => ?_, hr.ended, hr.last, hr.ids, fun b hb table h => ?_, fun table => ?_⟩
  · rw [hroots]
    exact hr.current b hb table r h
  · rw [hwritten]
    exact hr.written b hb table h
  rw [hroots]
  by_cases ht : table = undo.place.1
  · subst ht
    rcases hknown with hcm | hnamed
    · rcases hr.known undo.place.1 with h | h | ⟨h, -⟩
      · exact .inl h
      · exact .inr (.inl h)
      · exact absurd h hcm
    · exact .inl hnamed
  · rcases hr.known table with h | h | ⟨h, hfree, hcat⟩
    · exact .inl h
    · exact .inr (.inl h)
    · exact .inr (.inr ⟨h, fun b hb => (changed_put ht).trans (hfree b hb), hcat⟩)

/-- The end of a transaction, after which the log still names the roots. -/
theorem Inv.roots_end (hs : Inv s) {sc' : RootScan} (hactive : s'.active = s.active.filter (· ≠ c))
    (hops : s'.ops = s.ops) (hroots : s'.roots = s.roots) (hnext : s'.nextTxnId = s.nextTxnId)
    (hwritten : s'.written = s.written)
    (hcatalog : ∀ table, ¬s.Names c table → s'.catalog table = s.catalog table)
    (hsc : sc'.activeRoots = update (rootScan s.log.window).activeRoots c fun _ => none)
    (htl : sc'.rootTimeline = (rootScan s.log.window).rootTimeline)
    (hknown : ∀ table, s.Names c table → sc'.committedRoots table = some (s.roots table) ∨
      (∃ b ∈ s.active, b ≠ c ∧ s.Names b table) ∨
      sc'.committedRoots table = none ∧ (∀ b ∈ s.active, b ≠ c → s.changed b table = false) ∧
        s.roots table = s'.catalog table)
    (hkeep : ∀ table, ¬s.Names c table →
      sc'.committedRoots table = (rootScan s.log.window).committedRoots table) :
    RootsSound s' sc' := by
  have hr := hs.roots
  have hmem {b : Nat} : b ∈ s'.active ↔ b ∈ s.active ∧ b ≠ c := by simp [hactive]
  have hchanged (b : Nat) (table : TableId) : s'.changed b table = s.changed b table := by
    rw [changed, hops, changed]
  have hother {b : Nat} (hbc : b ≠ c) : sc'.activeRoots b = (rootScan s.log.window).activeRoots b := by
    rw [hsc, update_of_ne hbc]
  refine ⟨fun b hb table r h => ?_, fun b hb table => ?_, fun b hb table => ?_, fun p hp => ?_,
    fun b hb table h => ?_, fun table => ?_⟩
  · obtain ⟨hb, hbc⟩ := hmem.mp hb
    rw [hroots]
    exact hr.current b hb table r (hother hbc ▸ h)
  · obtain rfl | hbc := eq_or_ne b c
    · rw [hsc, Function.update_self]
    · rw [hother hbc]
      exact hr.ended b (fun h => hb (hmem.mpr ⟨h, hbc⟩)) table
  · obtain ⟨hb, hbc⟩ := hmem.mp hb
    rw [htl, hother hbc]
    exact hr.last b hb table
  · rw [hnext]
    exact hr.ids p (htl ▸ hp)
  · obtain ⟨hb, hbc⟩ := hmem.mp hb
    rw [hwritten]
    exact hr.written b hb table (hother hbc ▸ h)
  · rw [hroots]
    have hcases : sc'.committedRoots table = some (s.roots table) ∨
        (∃ b ∈ s.active, b ≠ c ∧ s.Names b table) ∨
        sc'.committedRoots table = none ∧ (∀ b ∈ s.active, b ≠ c → s.changed b table = false) ∧
          s.roots table = s'.catalog table := by
      by_cases hn : s.Names c table
      · exact hknown table hn
      rw [hkeep table hn, hcatalog table hn]
      rcases hr.known table with ⟨b, hb, h⟩ | h | ⟨h, hfree, hcat⟩
      · exact .inr (.inl ⟨b, hb, fun hbc => hn (hbc ▸ h), h⟩)
      · exact .inl h
      · exact .inr (.inr ⟨h, fun b hb _ => hfree b hb, hcat⟩)
    rcases hcases with h | ⟨b, hb, hbc, h⟩ | ⟨h, hfree, hcat⟩
    · exact .inr (.inl h)
    · exact .inl ⟨b, hmem.mpr ⟨hb, hbc⟩, hother hbc ▸ h⟩
    · refine .inr (.inr ⟨h, fun b hb => ?_, hcat⟩)
      obtain ⟨hb, hbc⟩ := hmem.mp hb
      exact (hchanged b table).trans (hfree b hb hbc)

theorem Inv.commit (hs : Inv s) (h : step code s (.commit c) = some s') : Inv s' := by
  rw [step] at h
  split at h <;> cases h
  next hc =>
    refine ⟨hs.isolated.commit hc, ?_, ?_, hs.ids_append (hs.active_lt hc) le_rfl _, hs.pos⟩
    · rw [Log.window_append]
      exact hs.log.drop (.inl rfl) rfl rfl
    rw [Log.window_append, rootScan_append]
    refine hs.roots_end rfl rfl rfl rfl rfl (fun table hn => ?_) rfl rfl (fun table hn => .inl ?_)
      fun table hn => ?_
    · have hnone : s.written c table = none := hs.roots.written c hc table (not_not.mp hn)
      simp [hnone]
    · obtain ⟨root, hroot⟩ := ne_none_iff_exists'.mp hn
      simp [RootScan.entry, hroot, hs.roots.current c hc table root hroot]
    · have hnone : (rootScan s.log.window).activeRoots c table = none := not_not.mp hn
      simp [RootScan.entry, hnone]

/-- A rollback through the current roots, which it does not move. -/
theorem Inv.rollback (hs : Inv s) (hok : RootsNamed code s (.rollback c))
    (h : step code s (.rollback c) = some s') : Inv s' := by
  obtain ⟨hconn, hstay, hknown⟩ := hok
  rw [step] at h
  split at h
  next hc =>
    obtain ⟨r, hr, rfl⟩ := map_eq_some_iff.mp h
    have hroots : (fun table => if s.changed c table then (r.2 table).getD 0 else s.roots table) =
        s.roots := by
      funext table
      split
      next ht => rw [hstay r hr table ht, getD_some]
      next => rfl
    have hplace {op : RecoveryOp} (hop : op ∈ s.ops c) : s.changed c op.place.1 := by
      simp only [Db.changed, List.any_eq_true]
      exact ⟨op, hop, by simp⟩
    have hfar {x : TableId × Key} (hx : ¬s.changed c x.1) : ¬s.Touched rowUndo c x := by
      rintro ⟨op, hop, ht⟩
      obtain rfl : op.place = x := by simpa [rowUndo] using ht
      exact hx (hplace hop)
    choose rows hrows using fun x => hs.isolated.undoAt_ops hc true x
    have huntouched {x : TableId × Key} (hx : ¬s.changed c x.1) (row : Option Row) :
        rowUndo.undoAt true x (s.ops c).reverse row = some row :=
      undoAt_untouched fun o ho => Isolated.touches_eq_false (hfar hx) ho
    -- in tables that it has not changed, the roots of the transaction may be old
    have hundo (x : TableId × Key) : rowUndo.undoAt true x (s.ops c).reverse
        (seen s.trees (fun table => some (s.connRoots c table)) x) =
          some (if s.changed c x.1 then rows x
            else seen s.trees (fun table => some (s.connRoots c table)) x) := by
      by_cases hx : s.changed c x.1
      · rw [if_pos hx, ← hrows x]
        simp only [seen, bind_some, hconn x.1 hx]
        rfl
      · rw [if_neg hx, huntouched hx]
    obtain ⟨trees', roots', hall, hseen, -, hframe⟩ := undoAll_sees code (by simp) hundo
    obtain rfl : r = (trees', roots') := some.inj (hr.symm.trans hall)
    have hnow (x : TableId × Key) : rows x = rowsOf trees' s.roots x := by
      by_cases hx : s.changed c x.1
      · have := congrFun hseen x
        rw [if_pos hx] at this
        rw [← this, seen, show roots' x.1 = some (s.roots x.1) from hstay _ hr x.1 hx]
        rfl
      · have hsame : trees' x.1 = s.trees x.1 := hframe x.1 fun op hop hop' =>
          hx (hop' ▸ hplace (mem_reverse.mp hop))
        rw [rowsOf, hsame]
        exact some.inj ((hrows x).symm.trans (huntouched hx _))
    rw [hroots]
    refine ⟨hs.isolated.rollback hc fun x => (hrows x).trans (congrArg some (hnow x)), ?_, ?_,
      hs.ids_append (hs.active_lt hc) le_rfl _, hs.pos⟩
    · rw [Log.window_append]
      exact hs.log.drop (.inr rfl) rfl rfl
    · rw [Log.window_append, rootScan_append]
      exact hs.roots_end rfl rfl rfl rfl rfl (fun _ _ => rfl) rfl rfl hknown fun _ _ => rfl
  next => cases h

theorem Inv.step {e : Event} (hs : Inv s) (hok : RootsNamed code s e)
    (h : step code s e = some s') : Inv s' := by
  cases e with
  | begin => exact hs.begin h
  | insert c table key row =>
    rw [Clustered.step] at h
    split at h <;> cases h
    next hc =>
      exact hs.put hc.1 hok.1 (code.write_sees ..) (fun strict => by simp [undoRow,
        place, hc.2]) (hs.roots_write hc.1 hok.2)
  | update c table key row =>
    rw [Clustered.step] at h
    split at h
    next oldRow hrow =>
      split at h <;> cases h
      next hc =>
        exact hs.put hc hok.1 (code.write_sees ..) (fun strict => congrArg some hrow.symm)
          (hs.roots_write hc hok.2)
    next => cases h
  | fieldPatch c table key header deltas =>
    rw [Clustered.step] at h
    split at h
    next oldRow hrow =>
      split at h
      next hc =>
        obtain ⟨data, hdata, rfl⟩ := map_eq_some_iff.mp h
        obtain ⟨hlen, hfits, hframe⟩ := patchFields_frame hdata
        refine hs.put hc hok.1 (code.patch_sees ..) (fun strict => ?_) (hs.roots_patch hok.2)
        simp only [undoRow, patchFields_before hfits hlen hframe, map_some]
        exact congrArg some hrow.symm
      next => cases h
    next => cases h
  | commit c => exact hs.commit h
  | rollback c => exact hs.rollback hok h
  | checkpoint =>
    rw [Clustered.step] at h
    split at h <;> cases h
    next hidle =>
      refine ⟨hs.isolated, ?_, ?_, ?_, hs.pos⟩
      · rw [Log.window_checkpoint]
        exact .of_idle rfl hidle
      · rw [Log.window_checkpoint]
        refine ⟨?_, fun _ _ _ => rfl, ?_, ?_, ?_, fun table => .inr (.inr ⟨rfl, ?_, hok table⟩)⟩
        · simp [hidle]
        · simp [hidle]
        · exact fun p hp => by cases hp
        · simp [hidle]
        · simp [hidle]
      · rw [Log.window_checkpoint]
        simpa using hs.pos

/-! ## The rows after recovery -/

/-- Tree code that splits root page 10 when key `05` comes in, to a new root 20. -/
def splitCode : TreeCode where
  write tree root key row :=
    if root = 10 ∧ key = [5] then
      (update tree 20 (update (tree root) key row), 20)
    else (update tree root (update (tree root) key row), root)
  patch tree root key row := update tree root (update (tree root) key (some row))
  write_sees tree root key row := by
    split <;> simp
  patch_sees tree root key row := by simp

end AxiomDb.Wal.Clustered
