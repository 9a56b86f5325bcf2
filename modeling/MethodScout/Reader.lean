import MethodScout.Bytes

/-!
# Reading bytes from front to back

A `Reader` walks over bytes with a `Cursor` and may stop with a fault. Every read is all or nothing: it takes the
bytes that it asks for or reports a `Shortfall`. `Reader.Shrinks` says that a reader never gives bytes back, which is
why loops over readers end.
-/

namespace MethodScout

/-- A place in a byte sequence: what comes next, and how many bytes stand before it. -/
structure Cursor where
  offset : Nat
  rest : Bytes
  deriving DecidableEq, Repr

/-- A read that found fewer bytes than it wanted. -/
structure Shortfall where
  offset : Nat
  wanted : Nat
  deriving DecidableEq, Repr

/-- A step over bytes that gives a value or stops with a fault. -/
abbrev Reader (ε : Type) := StateT Cursor (Except ε)

namespace Reader

variable {ε α β : Type}

/-- The next `n` bytes; `short` turns a shortfall into a fault. -/
def take (short : Shortfall → ε) (n : Nat) : Reader ε Bytes := fun c =>
  if c.rest.holds n then .ok (c.rest.take n, ⟨c.offset + n, c.rest.drop n⟩)
  else .error (short ⟨c.offset, n⟩)

/-- How many bytes have been read. -/
def position : Reader ε Nat := fun c => .ok (c.offset, c)

/-- The values of `n` runs of a reader, in order. -/
def times (n : Nat) (p : Reader ε α) : Reader ε (List α) :=
  (List.replicate n ()).mapM fun _ => p

/-- Runs a reader on bytes from their start. What is left over is ignored. -/
def readAll (p : Reader ε α) (bs : Bytes) : Except ε α :=
  (p ⟨0, bs⟩).map Prod.fst

/-! ## Readers only move forward -/

/-- What is left after a run is no longer than what was there before. -/
def Shrinks (p : Reader ε α) : Prop :=
  ∀ c a c', p c = .ok (a, c') → c'.rest.length ≤ c.rest.length

theorem shrinks_pure (a : α) : Shrinks (pure a : Reader ε α) := by
  intro c a' c' h
  cases h
  exact Nat.le_refl _

theorem shrinks_throw (e : ε) : Shrinks (throw e : Reader ε α) := by
  intro c a c' h
  cases h

theorem shrinks_lift (x : Except ε α) : Shrinks (liftM x : Reader ε α) := by
  intro c a c' h
  cases x with
  | error e => cases h
  | ok b =>
    cases h
    exact Nat.le_refl _

theorem shrinks_position : Shrinks (position : Reader ε Nat) := by
  intro c a c' h
  cases h
  exact Nat.le_refl _

theorem shrinks_take (short : Shortfall → ε) (n : Nat) : Shrinks (take short n) := by
  intro c a c' h
  unfold take at h
  split at h
  · cases h
    simp
  · cases h

theorem Shrinks.bind {p : Reader ε α} {q : α → Reader ε β} (hp : Shrinks p) (hq : ∀ a, Shrinks (q a)) :
    Shrinks (p >>= q) := by
  intro c b c'' h
  cases hc : p c with
  | error e =>
    simp only [Bind.bind, StateT.bind, Except.bind, hc] at h
    cases h
  | ok r =>
    simp only [Bind.bind, StateT.bind, Except.bind, hc] at h
    exact Nat.le_trans (hq r.1 r.2 b c'' h) (hp c r.1 r.2 hc)

end Reader

end MethodScout
