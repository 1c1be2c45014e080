import AxiomDb.Wal.Writer

/-!
# Flushes that fail

`flush_and_sync` drains the queue before it writes. If the reservation cannot grow, or an entry is
not handed to the `BufWriter`, what was drained is dropped. A part of a large entry may be in the
file, and nothing behind it is read. What the `BufWriter` has it keeps for the next flush.
-/

namespace AxiomDb.Wal.FailedFlush

open Lib List Option

variable {β : Type}

/-- How a flush ends; `grows` says that the reservation is extended. -/
inductive Outcome where
  | ok (grows : Bool)
  /-- All entries are handed over, and the flush of the `BufWriter` or the sync fails. -/
  | syncFails (grows : Bool)
  | growFails
  /-- The first `n` entries are handed over; of the next a part is in the file, or nothing. -/
  | writeFails (grows : Bool) (n : Nat) (torn : Bool)

inductive Event (β : Type) where
  | append (body : β)
  | flush (outcome : Outcome)

/-- A writer with one thread. -/
structure Writer (β : Type) where
  nextLsn : Nat
  queue : List (Entry β)
  /-- What was handed over; `none` is a part of an entry. -/
  pieces : List (Option (Entry β))
  /-- What the thread has appended. -/
  appended : List (Entry β)

namespace Writer

/-- `ConcurrentWalWriter::create` in `concurrent_writer.rs`. -/
def create : Writer β := ⟨1, [], [], []⟩

/-- A seek to `logical_end`: parts of entries at the end will be overwritten. -/
def seek (s : Writer β) : List (Option (Entry β)) := s.pieces.rdropWhile Option.isNone

/-- `write_entries`, up to an entry that fails. -/
def writeEntries (s : Writer β) (grows : Bool) (n : Nat) (torn : Bool) : Writer β :=
  { s with
    queue := []
    pieces := (if grows && !s.queue.isEmpty then s.seek else s.pieces) ++
      ((s.queue.take n).map some ++ if torn then [none] else []) }

/-- `WalReader::scan_forward(0)`, once the pieces are in the file: the valid tail ends at a part. -/
def scanForward (s : Writer β) : List (Entry β) :=
  (s.pieces.takeWhile Option.isSome).filterMap id

/-- How many entries there still are. -/
def held (s : Writer β) : Nat := s.pieces.countP Option.isSome + s.queue.length

end Writer

open Writer

/-- The queue of one thread is in LSN order. -/
def step (s : Writer β) : Event β → Option (Writer β)
  | .append body => some { s with
      nextLsn := s.nextLsn + 1
      queue := s.queue ++ [⟨s.nextLsn, body⟩]
      appended := s.appended ++ [⟨s.nextLsn, body⟩] }
  | .flush (.ok grows) | .flush (.syncFails grows) =>
    some (s.writeEntries grows s.queue.length false)
  | .flush .growFails => if s.queue.isEmpty then none else some { s with queue := [] }
  | .flush (.writeFails grows n torn) =>
    if n < s.queue.length then some (s.writeEntries grows n torn) else none

/-- A flush that fails has handed all its entries over. -/
def handsOver : Event β → Bool
  | .flush .growFails | .flush (.writeFails ..) => false
  | _ => true

variable {s s' : Writer β} {e : Event β}

/-! ## Nothing is dropped -/

/-- All that was appended is there, in order. -/
def Kept (s : Writer β) : Prop := s.pieces ++ s.queue.map some = s.appended.map some

theorem Kept.isSome (h : Kept s) {p : Option (Entry β)} (hp : p ∈ s.pieces) : p.isSome := by
  have hmem : p ∈ s.appended.map some := h ▸ mem_append_left _ hp
  obtain ⟨e, -, rfl⟩ := mem_map.mp hmem
  rfl

theorem Kept.seek (h : Kept s) : s.seek = s.pieces := by
  refine rdropWhile_eq_self_iff.mpr fun hne hnone => ?_
  simpa [isNone_iff_eq_none.mp hnone] using h.isSome (getLast_mem hne)

theorem Kept.writeEntries (h : Kept s) (grows : Bool) :
    Kept (s.writeEntries grows s.queue.length false) := by
  simp only [Kept, Writer.writeEntries, h.seek, ite_self, take_length, map_nil, append_nil]
  simpa [Kept] using h

theorem Kept.step (h : Kept s) (hok : handsOver e) (hs : FailedFlush.step s e = some s') :
    Kept s' := by
  match e with
  | .append body =>
    cases hs
    simp only [Kept, map_append, ← append_assoc]
    rw [show s.pieces ++ s.queue.map some = s.appended.map some from h]
  | .flush (.ok grows) | .flush (.syncFails grows) =>
    cases hs
    exact h.writeEntries grows

theorem Kept.scanForward (h : Kept s) (hq : s.queue = []) : s.scanForward = s.appended := by
  have hp : s.pieces = s.appended.map some := by simpa [Kept, hq] using h
  rw [Writer.scanForward, takeWhile_eq_self_iff.mpr fun p hp => h.isSome hp, hp, filterMap_map]
  exact filterMap_some

/-! ## Something is dropped -/

/-- No step brings an entry back. -/
theorem held_step (hs : step s e = some s') :
    s'.held + s.appended.length + (if handsOver e then 0 else 1) ≤ s.held + s'.appended.length := by
  have hheld : s.held = s.pieces.countP isSome + s.queue.length := rfl
  have hwrite (grows : Bool) (n : Nat) (torn : Bool) :
      (s.writeEntries grows n torn).held ≤ s.pieces.countP isSome + n := by
    have hseek : s.seek.countP isSome ≤ s.pieces.countP isSome :=
      ( rdropWhile_prefix _ _).sublist.countP_le
    have htake : ((s.queue.take n).map some).countP isSome ≤ n :=
      countP_le_length.trans (by simp)
    have hpart : (if torn then [none] else [] : List (Option (Entry β))).countP isSome = 0 := by
      cases torn <;> rfl
    simp only [Writer.held, Writer.writeEntries, countP_append, hpart, length_nil]
    split <;> omega
  match e with
  | .append body =>
    cases hs
    show s.pieces.countP isSome + (s.queue ++ [_]).length + s.appended.length + 0 ≤
      s.held + (s.appended ++ [_]).length
    simp only [length_append, length_singleton]
    omega
  | .flush (.ok grows) | .flush (.syncFails grows) =>
    cases hs
    have := hwrite grows s.queue.length false
    show (s.writeEntries grows s.queue.length false).held + s.appended.length + 0 ≤
      s.held + s.appended.length
    omega
  | .flush .growFails =>
    rw [step] at hs
    split at hs <;> cases hs
    next hq =>
      have := length_pos_iff.mpr fun h => hq (isEmpty_iff.mpr h)
      show s.pieces.countP isSome + 0 + s.appended.length + 1 ≤ s.held + s.appended.length
      omega
  | .flush (.writeFails grows n torn) =>
    rw [step] at hs
    split at hs <;> cases hs
    next hn =>
      have := hwrite grows n torn
      show (s.writeEntries grows n torn).held + s.appended.length + 1 ≤ s.held + s.appended.length
      omega

theorem scanForward_length : s.scanForward.length ≤ s.held := by
  rw [Writer.scanForward, length_filterMap_eq_countP]
  exact (takeWhile_sublist _).countP_le.trans (Nat.le_add_right _ _)

/-- As long as flushes that fail have handed all over, one that returns `Ok` makes all read back;
once one has not, all never do. -/
theorem later_flushes_read (s s' : Writer β) :
    (∀ grows, Reached step (fun _ e => handsOver e = true) create s →
      step s (.flush (.ok grows)) = some s' → s'.scanForward = s'.appended) ∧
    ∀ e s₁, Reached step free create s → handsOver e = false → step s e = some s₁ →
      Reached step free s₁ s' → s'.scanForward ≠ s'.appended := by
  constructor
  · intro grows hreach hs
    have hinit : Kept (create : Writer β) := rfl
    have hk : Kept s := hreach.invariant hinit fun h hok hs => h.step hok hs
    refine (hk.step rfl hs).scanForward ?_
    cases hs
    rfl
  intro e s₁ hreach hlost hs hafter heq
  have hle : s.held ≤ s.appended.length := by
    refine hreach.invariant (I := fun s => s.held ≤ s.appended.length) le_rfl fun h _ hs => ?_
    have := held_step hs
    omega
  have hlt : s'.held < s'.appended.length := by
    refine hafter.invariant (I := fun s => s.held < s.appended.length) ?_ fun h _ hs => ?_
    · have := held_step hs
      rw [hlost] at this
      simp at this
      omega
    · have := held_step hs
      omega
  have := scanForward_length (s := s')
  rw [heq] at this
  omega

/-- After a sync that fails. -/
theorem later_flushes_read_synced :
    ∃ s' : Writer Nat, s'.appended = [⟨1, 7⟩, ⟨2, 8⟩] ∧ s'.scanForward = s'.appended := by
  have h : Reached step (fun _ e => handsOver e = true) (create : Writer Nat) _ :=
    .of_run (l := [.append 7, .flush (.syncFails true), .append 8]) .init rfl
  exact ⟨_, rfl, (later_flushes_read _ _).1 false h rfl⟩

/-- The reservation cannot grow, and the first entry is gone; or it is written in part, and the
second is not read either. -/
theorem flush_loses_entries : (∃ s : Writer Nat, Reached step free create s ∧
      s.appended = [⟨1, 7⟩, ⟨2, 8⟩] ∧ s.scanForward = [⟨2, 8⟩]) ∧
    ∃ s : Writer Nat, Reached step free create s ∧
      s.appended = [⟨1, 7⟩, ⟨2, 8⟩] ∧ s.scanForward = [] :=
  ⟨⟨_, .of_run (l := [.append 7, .flush .growFails, .append 8, .flush (.ok false)]) .init rfl,
      rfl, rfl⟩,
    _, .of_run (l := [.append 7, .flush (.writeFails false 0 true), .append 8, .flush (.ok false)])
      .init rfl, rfl, rfl⟩

end AxiomDb.Wal.FailedFlush
