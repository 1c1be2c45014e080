import AxiomDb.Lib.ByteOrder

/-!
# Readers of byte strings

A reader takes a value off the front of a byte string and leaves the rest, or
fails. `Reads p enc a` says that `p` takes exactly `enc` and returns `a`, whatever
follows: the form in which the layout of a value and its reader are put together
out of their parts.
-/

namespace AxiomDb.Lib

open List

/-! ## Little-endian numbers -/

/-- The last `k` bytes of `n`, least significant first. -/
def leBytes : Nat → Nat → List (Fin 256)
  | 0, _ => []
  | k + 1, n => byteOf n :: leBytes k (n / 256)

/-- The number that bytes stand for, least significant first. -/
def ofLeBytes : List (Fin 256) → Nat
  | [] => 0
  | b :: bs => b.val + 256 * ofLeBytes bs

@[simp] theorem length_leBytes (k n : Nat) : (leBytes k n).length = k := by
  induction k generalizing n with
  | zero => rfl
  | succ k ih => rw [leBytes, length_cons, ih]

theorem ofLeBytes_leBytes (k n : Nat) : ofLeBytes (leBytes k n) = n % 256 ^ k := by
  induction k generalizing n with
  | zero => rw [leBytes, ofLeBytes, pow_zero, Nat.mod_one]
  | succ k ih => rw [leBytes, ofLeBytes, ih, byteOf, pow_succ', Nat.mod_mul]

/-! ## Readers -/

/-- A reader, with errors of type `ε`. -/
abbrev Reader (ε : Type) := StateT (List (Fin 256)) (Except ε)

variable {ε α β : Type}

/-- `p` takes `enc` off the front, and returns `a`. -/
def Reads (p : Reader ε α) (enc : List (Fin 256)) (a : α) : Prop :=
  ∀ rest, p.run (enc ++ rest) = .ok (a, rest)

variable {enc : List (Fin 256)} {p : Reader ε α} {a : α} {f : α → Reader ε β} {b : β}

theorem bind_eq_ok {y : Except ε α} {f : α → Except ε β} :
    (y >>= f) = .ok b ↔ ∃ a, y = .ok a ∧ f a = .ok b := by
  cases y with
  | error e => simp [bind, Except.bind]
  | ok a => simp [bind, Except.bind]

theorem ok_bind (a : α) (f : α → Except ε β) : (Except.ok a >>= f) = f a := rfl

theorem Reads.pure (a : α) : Reads (Pure.pure a : Reader ε α) [] a := fun _ => rfl

theorem Reads.bind {enc' : List (Fin 256)} (hp : Reads p enc a) (hf : Reads (f a) enc' b) :
    Reads (p >>= f) (enc ++ enc') b := by
  intro rest
  rw [append_assoc, StateT.run_bind, hp]
  exact hf rest

theorem Reads.map (f : α → β) (hp : Reads p enc a) :
    Reads (p >>= fun a => Pure.pure (f a)) enc (f a) := by
  intro rest
  rw [StateT.run_bind, hp]
  rfl

/-- A second step that takes nothing. -/
theorem Reads.bind_nil (hp : Reads p enc a) (hf : Reads (f a) [] b) : Reads (p >>= f) enc b := by
  have h := hp.bind hf
  rwa [append_nil] at h

/-- A computation that takes nothing. -/
theorem Reads.lift {x : Except ε α} (h : x = .ok a) : Reads (StateT.lift x : Reader ε α) [] a := by
  intro rest
  rw [h]
  rfl

/-- The next `n` bytes; `short n m` is the error if only `m` are left. -/
def takeBytes (short : Nat → Nat → ε) (n : Nat) : Reader ε (List (Fin 256)) := fun bs =>
  if bs.length < n then .error (short n bs.length) else .ok (bs.take n, bs.drop n)

theorem reads_takeBytes (short : Nat → Nat → ε) (bs : List (Fin 256)) {n : Nat} (h : bs.length = n) :
    Reads (takeBytes short n) bs bs := by
  intro rest
  have hlen : ¬(bs ++ rest).length < n := by
    rw [length_append]
    omega
  show (if (bs ++ rest).length < n then _ else _) = _
  rw [if_neg hlen, ← h, take_left, drop_left]

/-- What is read at the front of a string is read of the string itself. -/
theorem Reads.run_eq (hp : Reads p enc a) : p.run enc = .ok (a, []) := by
  have h := hp []
  rwa [append_nil] at h

end AxiomDb.Lib
