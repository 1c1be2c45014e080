import AxiomDb.Lib.Reader

/-!
# Byte memories

A memory gives each address its byte. Strings of bytes and little-endian numbers
are read from and written to an address; `Same m m' a n` says that the `n` bytes
from `a` on are the same in both memories. A write leaves the bytes apart from it
as they were, so what lies apart from all writes of a program reads the same after
it.
-/

namespace AxiomDb.Lib

open List

/-- `Page` in `page.rs`. -/
abbrev ByteMem := Nat → Fin 256

namespace ByteMem

/-- The `n` bytes from `a` on. -/
def readBytes (m : ByteMem) (a n : Nat) : List (Fin 256) := (List.range n).map fun i => m (a + i)

/-- `bs` at `a`. -/
def writeBytes (m : ByteMem) (a : Nat) (bs : List (Fin 256)) : ByteMem := fun i =>
  if a ≤ i ∧ i < a + bs.length then bs.getD (i - a) 0 else m i

/-- The byte `b` at `n` addresses from `a` on. -/
def fill (m : ByteMem) (a n : Nat) (b : Fin 256) : ByteMem := m.writeBytes a (List.replicate n b)

/-- The number of `k` bytes at `a`. -/
def readLe (m : ByteMem) (a k : Nat) : Nat := ofLeBytes (m.readBytes a k)

def writeLe (m : ByteMem) (a k n : Nat) : ByteMem := m.writeBytes a (leBytes k n)

/-- The `n` bytes from `a` on are the same. -/
def Same (m m' : ByteMem) (a n : Nat) : Prop := ∀ i, a ≤ i → i < a + n → m' i = m i

variable {m m' m'' : ByteMem} {a b n k : Nat} {bs : List (Fin 256)} {i : Nat} {v : Nat}

/-! ## Reads -/

@[simp] theorem length_readBytes (m : ByteMem) (a n : Nat) : (m.readBytes a n).length = n := by
  simp [readBytes]

theorem getElem?_readBytes (m : ByteMem) (a : Nat) (hi : i < n) :
    (m.readBytes a n)[i]? = some (m (a + i)) := by
  simp [readBytes, hi]

theorem readBytes_one (m : ByteMem) (a : Nat) : m.readBytes a 1 = [m a] := rfl

theorem readBytes_add (m : ByteMem) (a n k : Nat) :
    m.readBytes a (n + k) = m.readBytes a n ++ m.readBytes (a + n) k := by
  rw [readBytes, range_add, map_append, map_map]
  refine congrArg (_ ++ ·) (map_congr_left fun i _ => ?_)
  rw [Function.comp_apply, Nat.add_assoc]

theorem take_readBytes (m : ByteMem) (a : Nat) (h : k ≤ n) :
    (m.readBytes a n).take k = m.readBytes a k := by
  obtain ⟨d, rfl⟩ := Nat.exists_eq_add_of_le h
  rw [readBytes_add, take_left' (length_readBytes m a k)]

theorem drop_readBytes (m : ByteMem) (a : Nat) (h : k ≤ n) :
    (m.readBytes a n).drop k = m.readBytes (a + k) (n - k) := by
  obtain ⟨d, rfl⟩ := Nat.exists_eq_add_of_le h
  rw [readBytes_add, drop_left' (length_readBytes m a k), Nat.add_sub_cancel_left]

theorem Same.readBytes (h : Same m m' a n) : m'.readBytes a n = m.readBytes a n := by
  refine map_congr_left fun i hi => ?_
  have := mem_range.mp hi
  exact h _ (by omega) (by omega)

theorem Same.readLe (h : Same m m' a n) : m'.readLe a n = m.readLe a n := by
  rw [ByteMem.readLe, ByteMem.readLe, h.readBytes]

theorem Same.trans (h : Same m m' a n) (h' : Same m' m'' a n) : Same m m'' a n := fun i hi hlt =>
  (h' i hi hlt).trans (h i hi hlt)

theorem Same.mono (h : Same m m' a n) (hb : a ≤ b) (hk : b + k ≤ a + n) : Same m m' b k :=
  fun i hi hlt => h i (by omega) (by omega)

/-! ## Writes -/

theorem writeBytes_apply_of_apart (h : i < a ∨ a + bs.length ≤ i) :
    m.writeBytes a bs i = m i := if_neg (by omega)

theorem writeBytes_apply_add (hi : i < bs.length) :
    m.writeBytes a bs (a + i) = bs.getD i 0 := by
  rw [writeBytes, if_pos (by omega), Nat.add_sub_cancel_left]

theorem same_writeBytes (h : b + n ≤ a ∨ a + bs.length ≤ b) : Same m (m.writeBytes a bs) b n :=
  fun _ hi hlt => writeBytes_apply_of_apart (by omega)

theorem readBytes_writeBytes (m : ByteMem) (a : Nat) (h : bs.length = n) :
    (m.writeBytes a bs).readBytes a n = bs := by
  subst h
  refine ext_getElem? fun i => ?_
  by_cases hi : i < bs.length
  · rw [getElem?_readBytes _ _ hi, writeBytes_apply_add hi, getD_eq_getElem?_getD,
      getElem?_eq_getElem hi, Option.getD_some]
  · rw [getElem?_eq_none (by simpa using hi), getElem?_eq_none (by simpa using hi)]

/-- A part of the bytes written. -/
theorem readBytes_writeBytes_part (m : ByteMem) (a : Nat) (h : k + n ≤ bs.length) :
    (m.writeBytes a bs).readBytes (a + k) n = (bs.drop k).take n := by
  have hall := readBytes_writeBytes m a (rfl : bs.length = bs.length)
  have hdrop := congrArg (fun l => (l.drop k).take n) hall
  simp only [drop_readBytes _ _ (show k ≤ bs.length by omega)] at hdrop
  rwa [take_readBytes _ _ (by omega)] at hdrop

theorem same_writeLe (h : b + n ≤ a ∨ a + k ≤ b) : Same m (m.writeLe a k v) b n :=
  same_writeBytes (by rwa [length_leBytes])

theorem same_fill {v : Fin 256} (h : b + n ≤ a ∨ a + k ≤ b) : Same m (m.fill a k v) b n :=
  same_writeBytes (by rwa [length_replicate])

theorem readLe_apart_writeLe (h : b + n ≤ a ∨ a + k ≤ b) :
    (m.writeLe a k v).readLe b n = m.readLe b n := (same_writeLe h).readLe

theorem readLe_apart_fill {v : Fin 256} (h : b + n ≤ a ∨ a + k ≤ b) :
    (m.fill a k v).readLe b n = m.readLe b n := (same_fill h).readLe

theorem readLe_writeLe (m : ByteMem) (a k v : Nat) : (m.writeLe a k v).readLe a k = v % 256 ^ k := by
  rw [readLe, writeLe, readBytes_writeBytes _ _ (length_leBytes k v), ofLeBytes_leBytes]

theorem readLe_writeLe_of_lt (m : ByteMem) (a k : Nat) (h : v < 256 ^ k) :
    (m.writeLe a k v).readLe a k = v := by
  rw [readLe_writeLe, Nat.mod_eq_of_lt h]

end ByteMem

end AxiomDb.Lib
