import AxiomDb.Index.Calls
import AxiomDb.Lib.MemoryStore

/-!
# The index is a finite map

The calls on an index, run one after the other (`run`), and the map from keys to
record identifiers they stand for (`specRun`). Each call answers as the map does
and leaves a tree with the map's entries (`exec_spec`), so a whole run does
(`run_refines_map`); a run of `n` calls makes a tree of height at most `n`, which
bounds the fuel it needs.
-/

namespace AxiomDb.Index

open Lib Set BTree List Option Function

/-- A call on the index. -/
inductive Cmd where
  | insert (key : Bytes) (rid : RecordId) (fillfactor : Nat)
  | delete (key : Bytes)
  | lookup (key : Bytes)

inductive Answer where
  | inserted
  | duplicateKey
  | deleted (found : Bool)
  | found (rid : Option RecordId)
  deriving DecidableEq

def Cmd.key : Cmd → Bytes
  | .insert key _ _ | .delete key | .lookup key => key

/-- Keys of 1 to 64 bytes, fill factors of 10 to 100. -/
def Cmd.Valid : Cmd → Prop
  | .insert key _ fillfactor => ValidKey key ∧ 10 ≤ fillfactor ∧ fillfactor ≤ 100
  | .delete key | .lookup key => ValidKey key

/-! ## The map -/

abbrev Map := Bytes → Option RecordId

/-- The answer to a call on the map, and the map afterwards. -/
def Cmd.spec : Cmd → Map → Answer × Map
  | .insert key rid _, m => match m key with
    | some _ => (.duplicateKey, m)
    | none => (.inserted, Function.update m key (some rid))
  | .delete key, m => (.deleted (m key).isSome, Function.update m key none)
  | .lookup key, m => (.found (m key), m)

def specRun : List Cmd → Map → List Answer × Map
  | [], m => ([], m)
  | c :: cmds, m => ((c.spec m).1 :: (specRun cmds (c.spec m).2).1, (specRun cmds (c.spec m).2).2)

/-- The tree has the map's entries. -/
def Holds {h : Nat} (t : Node h) (m : Map) : Prop :=
  ∀ key rid, m key = some rid ↔ (key, rid) ∈ layout.entries t

/-! ## Running calls -/

section Exec

variable {σ : Type} (E : StorageEngine Stop σ Page)

/-- One call; a `DuplicateKey` is an answer, not a failure. -/
def exec (fuel : Nat) : Cmd → EStateM Stop (Handle σ) Answer
  | .insert key rid fillfactor => fun d => match BTree.insertIn E fuel key rid fillfactor d with
    | .ok () d' => .ok .inserted d'
    | .error (.err .duplicateKey) d' => .ok .duplicateKey d'
    | .error e d' => .error e d'
  | .delete key => .deleted <$> BTree.deleteIn E fuel key
  | .lookup key => do
    let root := (← get).rootPid
    .found <$> onStore (BTree.lookupIn E fuel root key)

def run (fuel : Nat) : List Cmd → EStateM Stop (Handle σ) (List Answer)
  | [] => pure []
  | c :: cmds => do
    let a ← exec E fuel c
    let as ← run fuel cmds
    pure (a :: as)

/-- Every call of the run is made in a state in which it is `ok`. -/
def runsWith (ok : Cmd → Handle σ → Bool) (fuel : Nat) : List Cmd → Handle σ → Bool
  | [], _ => true
  | c :: cmds, d => ok c d && match exec E fuel c d with
    | .ok _ d' => runsWith ok fuel cmds d'
    | .error .. => true

end Exec

variable {σ : Type} {E : StorageEngine Stop σ Page} {view : σ → Heap Page} {d d' : Handle σ}
  {h fuel : Nat} {I : Set Bytes} {t : Node h} {m : Map} {c : Cmd}

variable {key : Bytes} {h' : Nat} {t' : Node h'} {H H' : Heap Page} {rid : RecordId}

theorem Holds.none_iff (hm : Holds t m) : m key = none ↔ ∀ e ∈ layout.entries t, e.1 ≠ key := by
  constructor
  · rintro hn ⟨_, rid⟩ he rfl
    rw [(hm _ rid).mpr he] at hn
    cases hn
  intro hn
  by_contra hne
  obtain ⟨rid, hr⟩ := ne_none_iff_exists'.mp hne
  exact hn (key, rid) ((hm key rid).mp hr) rfl

theorem Holds.exists_entry (hm : Holds t m) (hr : m key = some rid) :
    ∃ e ∈ layout.entries t, e.1 = key :=
  ⟨(key, rid), (hm key rid).mp hr, rfl⟩

theorem Holds.lookup_eq (hm : Holds t m) {r : Option RecordId}
    (hr : ∀ rid, r = some rid ↔ (key, rid) ∈ layout.entries t) : r = m key :=
  ext fun rid => by rw [hr rid, hm]

theorem Holds.inserted
    {ff : Nat} (hm : Holds t m) (hn : m key = none) (g : Inserted H H' I t key rid ff t') :
    Holds t' (update m key (some rid)) := by
  intro k r
  rw [g.entries, update_apply]
  split
  next hk =>
    subst hk
    simp [← hm k r, hn, eq_comm]
  next hk => simp [hk, hm k r]

theorem Holds.deleted (hm : Holds t m) (g : Deleted H H' I t key t') :
    Holds t' (update m key none) := by
  intro k r
  rw [g.entries, update_apply]
  split
  next hk => simp [hk]
  next hk => simp [hk, hm k r]

/-- What one call does to the tree. -/
inductive Stepped (view : σ → Heap Page) (I : Set Bytes) (d d' : Handle σ) {h : Nat} (t : Node h) :
    Cmd → (h' : Nat) → Node h' → Prop
  | same {c : Cmd} : d' = d → Stepped view I d d' t c h t
  | inserted {key : Bytes} {rid : RecordId} {ff h' : Nat} {t' : Node h'} :
    (∀ e ∈ layout.entries t, e.1 ≠ key) → layout.rootPid t' = d'.rootPid →
      Inserted (view d.store) (view d'.store) I t key rid ff t' →
      Stepped view I d d' t (.insert key rid ff) h' t'
  | deleted {key : Bytes} {h' : Nat} {t' : Node h'} : layout.rootPid t' = d'.rootPid →
      Deleted (view d.store) (view d'.store) I t key t' → Stepped view I d d' t (.delete key) h' t'

theorem Stepped.isTree (st : Stepped view I d d' t c h' t') (ht : IsTree view I d t) :
    IsTree view I d' t' := by
  cases st with
  | same e => exact e ▸ ht
  | inserted _ hp g | deleted hp g => exact ⟨hp, g.valid, g.branches⟩

theorem Stepped.keeps (st : Stepped view I d d' t c h' t') :
    Keeps (view d.store) (view d'.store) (layout.pages t) (layout.pages t') := by
  cases st with
  | same e => exact e ▸ .refl _ _
  | inserted _ _ g | deleted _ g => exact g.keeps

theorem exec_spec (hE : E.Lawful NULL_PAGE view) (ht : IsTree view I d t) (hm : Holds t m)
    (hc : c.Valid) (hk : c.key ∈ I) (hf : h < fuel) :
    ∃ d', exec E fuel c d = .ok (c.spec m).1 d' ∧ ∃ h' ≤ h + 1, ∃ t' : Node h',
      Stepped view I d d' t c h' t' ∧ Holds t' (c.spec m).2 := by
  cases c with
  | insert key rid ff =>
    obtain ⟨hv, -, hff⟩ := hc
    cases hr : m key with
    | some r =>
      refine ⟨d, ?_, h, Nat.le_succ h, t, .same rfl, by simpa [Cmd.spec, hr] using hm⟩
      simp only [exec, insertIn_duplicate hE ht hv hk hf (hm.exists_entry hr), Cmd.spec, hr]
    | none =>
      obtain ⟨⟨⟩, d', e, h', hh, t', hp, g⟩ :=
        insertIn_new hE ht hv hk hf rid (hm.none_iff.mp hr) hff
      refine ⟨d', ?_, h', hh, t', .inserted (hm.none_iff.mp hr) hp g, by simpa [Cmd.spec, hr] using hm.inserted hr g⟩
      simp only [exec, e, Cmd.spec, hr]
  | delete key =>
    cases hr : m key with
    | some r =>
      obtain ⟨_, d', e, rfl, h', hh, t', hp, g⟩ := deleteIn_found hE ht hc hk hf (hm.exists_entry hr)
      refine ⟨d', ?_, h', Nat.le_succ_of_le hh, t', .deleted hp g, hm.deleted g⟩
      rw [exec, map_ok e, Cmd.spec, hr]
      rfl
    | none =>
      refine ⟨d, ?_, h, Nat.le_succ h, t, .same rfl, ?_⟩
      · rw [exec, map_ok (deleteIn_missing hE ht hc hk hf (hm.none_iff.mp hr)), Cmd.spec, hr]
        rfl
      · simpa [Cmd.spec, ← hr] using hm
  | lookup key =>
    obtain ⟨r, e, hr⟩ := lookupIn_eq hE ht hc hk hf
    refine ⟨d, ?_, h, Nat.le_succ h, t, .same rfl, hm⟩
    rw [hm.lookup_eq hr] at e
    exact (bind_ok rfl).trans (map_ok (onStore_ok e))

/-- A run answers as the map does, and leaves a tree with the map's entries. What
every call that is `ok` keeps of the tree holds of the last one too. -/
theorem run_spec (hE : E.Lawful NULL_PAGE view) {ok : Cmd → Handle σ → Bool}
    {P : (h : Nat) → Node h → Prop}
    (hP : ∀ {d d' : Handle σ} {h : Nat} {t : Node h} {c : Cmd} {h' : Nat} {t' : Node h'},
      IsTree view I d t → c.key ∈ I → h < fuel → ok c d → Stepped view I d d' t c h' t' →
      P h t → P h' t') {cmds : List Cmd} (hok : runsWith E ok fuel cmds d) (ht : IsTree view I d t)
    (hm : Holds t m) (hp : P h t) (hc : ∀ c ∈ cmds, c.Valid ∧ c.key ∈ I)
    (hf : h + cmds.length < fuel) :
    ∃ d', run E fuel cmds d = .ok (specRun cmds m).1 d' ∧ ∃ h' ≤ h + cmds.length, ∃ t' : Node h',
      IsTree view I d' t' ∧ Holds t' (specRun cmds m).2 ∧ P h' t' := by
  induction cmds generalizing d h t m with
  | nil => exact ⟨d, rfl, h, le_rfl, t, ht, hm, hp⟩
  | cons c cmds ih =>
    obtain ⟨hv, hk⟩ := hc c mem_cons_self
    rw [length_cons] at hf
    obtain ⟨d1, e1, h1, hh1, t1, st, hm1⟩ := exec_spec hE ht hm hv hk (show h < fuel by omega)
    simp only [runsWith, e1, Bool.and_eq_true] at hok
    obtain ⟨d2, e2, h2, hh2, t2, ht2, hm2, hp2⟩ := ih hok.2 (st.isTree ht) hm1
      (hP ht hk (by omega) hok.1 st hp) (fun c hc' => hc c (mem_cons_of_mem _ hc')) (by omega)
    refine ⟨d2, ?_, h2, by rw [length_cons]; omega, t2, ht2, hm2, hp2⟩
    rw [run, bind_ok e1, bind_ok e2]
    rfl

theorem runsWith_true (fuel : Nat) (cmds : List Cmd) (d : Handle σ) :
    runsWith E (fun _ _ => true) fuel cmds d := by
  induction cmds generalizing d with
  | nil => rfl
  | cons c cmds ih =>
    rw [runsWith, Bool.true_and]
    split
    · exact ih _
    · rfl

/-- The page of an empty tree. -/
def emptyLeaf : LeafNodePage := ⟨[], NULL_PAGE, Nat.zero_le _⟩

theorem isTree_empty (hd : view d.store d.rootPid = some (.leaf emptyLeaf)) :
    IsTree view I d (⟨d.rootPid, emptyLeaf⟩ : Leaf) (h := 0) :=
  ⟨rfl, ⟨hd, ⟨Pairwise.nil, by simp [emptyLeaf]⟩, nodup_singleton _⟩, trivial⟩

theorem holds_empty (pid : PageId) : Holds (h := 0) (⟨pid, emptyLeaf⟩ : Leaf) fun _ => none := by
  intro key rid
  simp [emptyLeaf]

/-- Every run from an empty leaf answers as the map does; in the state it leaves, a
lookup returns the map's entry, an insertion of a key that is there fails and
changes nothing, one of a key that is not there succeeds, and a deletion says
whether the key was there. -/
theorem run_refines_map (hE : E.Lawful NULL_PAGE view)
    (hd : view d.store d.rootPid = some (.leaf emptyLeaf)) (cmds : List Cmd)
    (hc : ∀ c ∈ cmds, c.Valid) (hf : cmds.length < fuel) :
    ∃ d', run E fuel cmds d = .ok (specRun cmds fun _ => none).1 d' ∧ ∀ key, ValidKey key →
        BTree.lookupIn E fuel d'.rootPid key d'.store =
          .ok ((specRun cmds fun _ => none).2 key) d'.store ∧ (∀ rid ff, 10 ≤ ff → ff ≤ 100 →
          if (specRun cmds fun _ => none).2 key = none
          then ∃ d'', BTree.insertIn E fuel key rid ff d' = .ok () d''
          else BTree.insertIn E fuel key rid ff d' = .error (.err .duplicateKey) d') ∧
        ∃ d'', BTree.deleteIn E fuel key d' = .ok ((specRun cmds fun _ => none).2 key).isSome d'' := by
  obtain ⟨d', e, h', hh, t', ht, hm, -⟩ := run_spec hE (P := fun _ _ => True) (fun _ _ _ _ _ _ => trivial)
    (runsWith_true fuel cmds d) (isTree_empty (I := univ) hd) (holds_empty d.rootPid) trivial (fun c hc' => ⟨hc c hc', mem_univ _⟩) (show _ < fuel by omega)
  refine ⟨d', e, fun key hk => ⟨?_, fun rid ff _ hff => ?_, ?_⟩⟩
  · obtain ⟨r, er, hr⟩ := lookupIn_eq hE ht hk (mem_univ _) (show h' < fuel by omega)
    rw [er, hm.lookup_eq hr]
  · split
    next hn =>
      obtain ⟨⟨⟩, d'', e, -⟩ := insertIn_new hE ht hk (mem_univ _)
        (show h' < fuel by omega) rid (hm.none_iff.mp hn) hff
      exact ⟨d'', e⟩
    next hs =>
      obtain ⟨r, hr⟩ := ne_none_iff_exists'.mp hs
      exact insertIn_duplicate hE ht hk (mem_univ _) (by omega) (hm.exists_entry hr)
  · cases hr : (specRun cmds fun _ => none).2 key with
    | none => exact ⟨d', deleteIn_missing hE ht hk (mem_univ _) (by omega) (hm.none_iff.mp hr)⟩
    | some r =>
      obtain ⟨_, d'', e, rfl, -⟩ := deleteIn_found hE ht hk (mem_univ _)
        (show h' < fuel by omega) (hm.exists_entry hr)
      exact ⟨d'', e⟩

/-- Pages in memory. -/
def memory : StorageEngine Stop (Mem Page NULL_PAGE) Page :=
  memoryStore NULL_PAGE (fun _ => .leaf emptyLeaf) fun pid => .err (.pageNotFound pid)

theorem memory_lawful : memory.Lawful NULL_PAGE Mem.pages := memoryStore_lawful ..

/-- An index in memory whose root is an empty leaf. -/
def emptyIndex : Handle (Mem Page NULL_PAGE) := ⟨Mem.empty.alloc (.leaf emptyLeaf), 0⟩

theorem emptyIndex_root : emptyIndex.store.pages emptyIndex.rootPid = some (.leaf emptyLeaf) := rfl

theorem run_refines_map_memory :
    ∃ d', run memory 6 [.insert [1] ⟨7, 0⟩ 90, .insert [1] ⟨8, 0⟩ 10, .lookup [1], .delete [1],
        .lookup [1]] emptyIndex =
      .ok [.inserted, .duplicateKey, .found (some ⟨7, 0⟩), .deleted true, .found none] d' := by
  obtain ⟨d', e, -⟩ := run_refines_map memory_lawful emptyIndex_root
    [.insert [1] ⟨7, 0⟩ 90, .insert [1] ⟨8, 0⟩ 10, .lookup [1], .delete [1], .lookup [1]]
    (by simp [Cmd.Valid, ValidKey, MAX_KEY_LEN]) (show _ < 6 by decide)
  exact ⟨d', e⟩

/-- **No run leaks a page** or writes one of another owner. The tree that a run leaves is on
pages of the old tree and pages that were free, each of them once; the pages of the old
tree that it is not on are free, and no other page has changed. -/
theorem run_leaks_no_page (hE : E.Lawful NULL_PAGE view) (cmds : List Cmd)
    (ht : IsTree view I d t) (hm : Holds t m) (hc : ∀ c ∈ cmds, c.Valid ∧ c.key ∈ I)
    (hf : h + cmds.length < fuel) :
    ∃ d', run E fuel cmds d = .ok (specRun cmds m).1 d' ∧ ∃ (h' : Nat) (t' : Node h'),
      IsTree view I d' t' ∧
        Keeps (view d.store) (view d'.store) (layout.pages t) (layout.pages t') := by
  induction cmds generalizing d h t m with
  | nil => exact ⟨d, rfl, h, t, ht, .refl ..⟩
  | cons c cmds ih =>
    obtain ⟨hv, hk⟩ := hc c mem_cons_self
    rw [length_cons] at hf
    obtain ⟨d1, e1, h1, hh1, t1, st, hm1⟩ := exec_spec hE ht hm hv hk (show h < fuel by omega)
    obtain ⟨d2, e2, h2, t2, ht2, hk2⟩ := ih (st.isTree ht) hm1
      (fun c hc' => hc c (mem_cons_of_mem _ hc')) (by omega)
    refine ⟨d2, ?_, h2, t2, ht2, st.keeps.trans hk2⟩
    rw [run, bind_ok e1, bind_ok e2]
    rfl

theorem run_leaks_no_page_memory :
    ∃ (d' : Handle (Mem Page NULL_PAGE)) (h : Nat) (t : Node h), IsTree Mem.pages univ d' t ∧
      Keeps emptyIndex.store.pages d'.store.pages [0] (layout.pages t) := by
  obtain ⟨d', -, h, t, ht, hk⟩ := run_leaks_no_page memory_lawful [.insert [1] ⟨7, 0⟩ 90, .delete [1]]
    (isTree_empty (I := univ) emptyIndex_root) (holds_empty _)
    (by simp [Cmd.Valid, ValidKey, MAX_KEY_LEN]) (show _ < 3 by decide)
  exact ⟨d', h, t, ht, hk⟩

end AxiomDb.Index
