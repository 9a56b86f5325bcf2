import MethodScout.Proofs.Formats

/-!
# Readers that count with machine words

`Machine.Parser` is a decoder whose position and lengths are words of 64 bits. The sum of a position and a length is checked,
all other arithmetic wraps. A run keeps a trace of what could go wrong in it: the reads, and the casts of slot numbers to 16
bits. `Steps` says how a reader gets from one state to another by what is in a trace, and what holds of every reachable state
is proved by induction on it. `Parser.Computes` says that a parser does what a decoder over unbounded numbers does and asks
for nothing that could overflow; it is closed under the ways in which parsers are put together.
-/

namespace MethodScout.Machine

/-- The sum of two words, unless it overflows. -/
def checkedAdd (a b : UInt64) : Option UInt64 :=
  if a.toNat + b.toNat < 2 ^ 64 then some (a + b) else none

/-! ## Slices and readers of them -/

/-- Bytes in memory, of which there are always fewer than 2⁶³. -/
structure Slice where
  bytes : Bytes
  short : bytes.length < 2 ^ 63

namespace Slice

def size (s : Slice) : UInt64 := UInt64.ofNat s.bytes.length

@[simp]
theorem toNat_size (s : Slice) : s.size.toNat = s.bytes.length :=
  UInt64.toNat_ofNat_of_lt' (Nat.lt_trans s.short (by decide))

/-- The bytes from one position up to another. -/
def part (s : Slice) (start stop : UInt64) : Slice where
  bytes := (s.bytes.drop start.toNat).take (stop.toNat - start.toNat)
  short := by
    have hshort := s.short
    simp only [List.length_take, List.length_drop]
    omega

end Slice

structure ByteReader where
  data : Slice
  pos : UInt64

namespace ByteReader

def new (s : Slice) : ByteReader := ⟨s, 0⟩

def isEmpty (r : ByteReader) : Bool := r.data.size ≤ r.pos

/-- Where a read ends, if there are so many bytes. -/
def stop? (r : ByteReader) (length : UInt64) : Option UInt64 :=
  (checkedAdd r.pos length).filter (· ≤ r.data.size)

/-- The reader after a read. A read that fails leaves it as it is. -/
def advance (r : ByteReader) (length : UInt64) : ByteReader := ⟨r.data, (r.stop? length).getD r.pos⟩

/-- The position is inside the data or at their end. -/
def Valid (r : ByteReader) : Prop := r.pos.toNat ≤ r.data.bytes.length

/-- The place of the reader, in unbounded numbers. -/
def cursor (r : ByteReader) : Cursor := ⟨r.pos.toNat, r.data.bytes.drop r.pos.toNat⟩

/-- The second reader is the first one moved forward. -/
def Precedes (r r' : ByteReader) : Prop := r'.data = r.data ∧ r.pos ≤ r'.pos

theorem valid_new (s : Slice) : (new s).Valid := Nat.zero_le _

@[simp]
theorem cursor_new (s : Slice) : (new s).cursor = ⟨0, s.bytes⟩ := rfl

/-- The check of the sum and the check against the end of the data come to one comparison of unbounded numbers. -/
theorem stop?_eq (r : ByteReader) (length : UInt64) :
    r.stop? length =
      if r.pos.toNat + length.toNat ≤ r.data.bytes.length then some (r.pos + length) else none := by
  have hshort := r.data.short
  rw [stop?, checkedAdd]
  by_cases hsum : r.pos.toNat + length.toNat < 2 ^ 64
  · simp only [hsum, ↓reduceIte, Option.filter_some, decide_eq_true_eq, UInt64.le_iff_toNat_le, UInt64.toNat_add,
      Slice.toNat_size, Nat.mod_eq_of_lt hsum]
  · have hend : ¬r.pos.toNat + length.toNat ≤ r.data.bytes.length := by omega
    simp only [hsum, hend, ↓reduceIte, Option.filter_none]

theorem advance_of_le {r : ByteReader} {length : UInt64} (h : r.pos.toNat + length.toNat ≤ r.data.bytes.length) :
    r.advance length = ⟨r.data, r.pos + length⟩ := by
  rw [advance, stop?_eq, if_pos h, Option.getD_some]

theorem advance_of_not_le {r : ByteReader} {length : UInt64}
    (h : ¬r.pos.toNat + length.toNat ≤ r.data.bytes.length) : r.advance length = r := by
  rw [advance, stop?_eq, if_neg h, Option.getD_none]

/-- Inside the data a sum never overflows. -/
theorem toNat_pos_add_of_le {r : ByteReader} {length : UInt64}
    (h : r.pos.toNat + length.toNat ≤ r.data.bytes.length) : (r.pos + length).toNat = r.pos.toNat + length.toNat := by
  have hshort := r.data.short
  rw [UInt64.toNat_add, Nat.mod_eq_of_lt]
  omega

theorem Valid.advance {r : ByteReader} (hr : r.Valid) (length : UInt64) : (r.advance length).Valid := by
  by_cases hend : r.pos.toNat + length.toNat ≤ r.data.bytes.length
  · rw [advance_of_le hend, Valid, toNat_pos_add_of_le hend]
    exact hend
  · rwa [advance_of_not_le hend]

theorem precedes_advance (r : ByteReader) (length : UInt64) : r.Precedes (r.advance length) := by
  by_cases hend : r.pos.toNat + length.toNat ≤ r.data.bytes.length
  · rw [advance_of_le hend]
    refine ⟨rfl, UInt64.le_iff_toNat_le.mpr ?_⟩
    rw [toNat_pos_add_of_le hend]
    exact Nat.le_add_right _ _
  · rw [advance_of_not_le hend]
    exact ⟨rfl, UInt64.le_refl _⟩

end ByteReader

/-! ## Traces -/

/-- What is noted of a run: a read of some length, and the number of a constant, which is the number of slots before it. -/
inductive Event where
  | read (reader : ByteReader) (length : UInt64)
  | entry (slots : Nat)

namespace Event

/-- No more is asked for than the largest table takes, and slots are numbered with 16 bits. -/
def Bounded : Event → Prop
  | .read _ length => length.toNat ≤ 2 ^ 34
  | .entry slots => slots < 2 ^ 16

/-- The end of a read is what it is in unbounded numbers, the position is never past the end of the data, and a read that
wants more than there is leaves it where it is; the number of a constant keeps all of its bits. -/
def Exact : Event → Prop
  | .read r length =>
    r.Valid ∧ (r.advance length).Valid ∧ (r.pos + length).toNat = r.pos.toNat + length.toNat ∧
      r.advance length = if r.pos.toNat + length.toNat ≤ r.data.bytes.length then ⟨r.data, r.pos + length⟩ else r
  | .entry slots => (UInt16.ofNat slots).toNat = slots

theorem exact_read {r : ByteReader} (hr : r.Valid) {length : UInt64} (hlength : length.toNat ≤ 2 ^ 34) :
    (Event.read r length).Exact := by
  have hshort := r.data.short
  have hpos : r.pos.toNat ≤ r.data.bytes.length := hr
  refine ⟨hr, hr.advance length, ?_, ?_⟩
  · rw [UInt64.toNat_add, Nat.mod_eq_of_lt]
    omega
  · by_cases hend : r.pos.toNat + length.toNat ≤ r.data.bytes.length
    · rw [if_pos hend, ByteReader.advance_of_le hend]
    · rw [if_neg hend, ByteReader.advance_of_not_le hend]

end Event

/-- From one state to another by the events of a trace. The events of a reader of its own may stand among those of the
reader. -/
inductive Steps : ByteReader → List Event → ByteReader → Prop
  | done (r : ByteReader) : Steps r [] r
  | read (r : ByteReader) (length : UInt64) : Steps r [.read r length] (r.advance length)
  | entry (r : ByteReader) (slots : Nat) : Steps r [.entry slots] r
  | inner {s : Slice} {t : List Event} {r' : ByteReader} (r : ByteReader) : Steps (.new s) t r' → Steps r t r
  | append {r₁ r₂ r₃ : ByteReader} {t t' : List Event} : Steps r₁ t r₂ → Steps r₂ t' r₃ → Steps r₁ (t ++ t') r₃

namespace Steps

variable {r r' : ByteReader} {t : List Event}

theorem precedes (h : Steps r t r') : r.Precedes r' := by
  induction h with
  | read r length => exact r.precedes_advance length
  | append _ _ ih ih' => exact ⟨ih'.1.trans ih.1, UInt64.le_trans ih.2 ih'.2⟩
  | _ => exact ⟨rfl, UInt64.le_refl _⟩

theorem valid (h : Steps r t r') (hr : r.Valid) : r'.Valid := by
  induction h with
  | read r length => exact hr.advance length
  | append _ _ ih ih' => exact ih' (ih hr)
  | _ => exact hr

theorem forall_exact (h : Steps r t r') (hr : r.Valid) (hbounded : ∀ e ∈ t, e.Bounded) : ∀ e ∈ t, e.Exact := by
  induction h with
  | done r => simp
  | read r length => simpa using Event.exact_read hr (hbounded _ List.mem_cons_self)
  | entry r slots => simpa [Event.Exact] using UInt16.toNat_ofNat_of_lt' (hbounded _ List.mem_cons_self)
  | inner r _ ih => exact ih (ByteReader.valid_new _) hbounded
  | append h _ ih ih' =>
      rw [List.forall_mem_append] at hbounded ⊢
      exact ⟨ih hr hbounded.1, ih' (h.valid hr) hbounded.2⟩

end Steps

/-! ## Parsers -/

/-- The end of a run, with or without a fault. -/
structure Run (α : Type) where
  outcome : Except DecodeFault α
  reader : ByteReader
  trace : List Event

variable {α β γ δ : Type}

/-- A run and then, unless it failed, another one from where it ended. -/
def Run.andThen (s : Run α) (next : α → ByteReader → Run β) : Run β :=
  match s.outcome with
  | .error fault => ⟨.error fault, s.reader, s.trace⟩
  | .ok a => ⟨(next a s.reader).outcome, (next a s.reader).reader, s.trace ++ (next a s.reader).trace⟩

/-- A decoder that counts with words. It moves its reader by the reads in its trace only. -/
structure Parser (α : Type) where
  run : ByteReader → Run α
  steps : ∀ r, Steps r (run r).trace (run r).reader

namespace Parser

protected def pure (a : α) : Parser α := ⟨fun r => ⟨.ok a, r, []⟩, .done⟩

protected def bind (p : Parser α) (k : α → Parser β) : Parser β where
  run r := (p.run r).andThen fun a => (k a).run
  steps r := by
    unfold Run.andThen
    split
    · exact p.steps r
    · exact (p.steps r).append ((k _).steps _)

instance : Monad Parser where
  pure := Parser.pure
  bind := Parser.bind

def fail (fault : DecodeFault) : Parser α := ⟨fun r => ⟨.error fault, r, []⟩, .done⟩

def lift (x : Except DecodeFault α) : Parser α := ⟨fun r => ⟨x, r, []⟩, .done⟩

/-- The parser, with one fault in place of all of its own. -/
def orFail (p : Parser α) (fault : DecodeFault) : Parser α where
  run r := { p.run r with outcome := (p.run r).outcome.mapError fun _ => fault }
  steps := p.steps

/-- Runs a parser with a reader of its own. -/
def within (s : Slice) (p : Parser α) : Parser α :=
  ⟨fun r => { p.run (.new s) with reader := r }, fun r => .inner r (p.steps (.new s))⟩

def times : Nat → Parser α → Parser (List α)
  | 0, _ => return []
  | n + 1, p => do
    let a ← p
    let as ← times n p
    return a :: as

theorem outcome_bind_eq_ok {p : Parser α} {k : α → Parser β} {r : ByteReader} {b : β}
    (h : ((p >>= k).run r).outcome = .ok b) :
    ∃ a, (p.run r).outcome = .ok a ∧ ((k a).run (p.run r).reader).outcome = .ok b ∧
      ((p >>= k).run r).reader = ((k a).run (p.run r).reader).reader := by
  change ((p.run r).andThen fun a => (k a).run).outcome = .ok b at h
  change ∃ a, _ ∧ _ ∧ ((p.run r).andThen fun a => (k a).run).reader = _
  cases ha : (p.run r).outcome with
  | error fault =>
      simp only [Run.andThen, ha] at h
      cases h
  | ok a =>
      simp only [Run.andThen, ha] at h ⊢
      exact ⟨a, rfl, h, rfl⟩

/-! ### Reads -/

def position : Parser UInt64 := ⟨fun r => ⟨.ok r.pos, r, []⟩, .done⟩

def bytes (length : UInt64) : Parser Slice where
  run r :=
    match r.stop? length with
    | some stop => ⟨.ok (r.data.part r.pos stop), ⟨r.data, stop⟩, [.read r length]⟩
    | none => ⟨.error (.truncated ⟨r.pos.toNat, length.toNat⟩), r, [.read r length]⟩
  steps r := by
    have hread := Steps.read r length
    unfold ByteReader.advance at hread
    split
    · rename_i stop hstop
      rwa [hstop] at hread
    · rename_i hstop
      rwa [hstop] at hread

def skip (length : UInt64) : Parser Unit := do
  let _ ← bytes length

def u8 : Parser UInt8 := do
  return UInt8.ofNat (← bytes 1).bytes.bigEndian

def u16 : Parser UInt16 := do
  return UInt16.ofNat (← bytes 2).bytes.bigEndian

def u32 : Parser UInt32 := do
  return UInt32.ofNat (← bytes 4).bytes.bigEndian

def i32 : Parser Int32 := do
  return (← u32).toInt32

/-- The number of the constant that comes after so many slots, cast to 16 bits. -/
def entryNumber (slots : Nat) : Parser UInt16 :=
  ⟨fun r => ⟨.ok (UInt16.ofNat slots), r, [.entry slots]⟩, fun r => .entry r slots⟩

theorem run_bytes_of_le {length : UInt64} {r : ByteReader} (h : r.pos.toNat + length.toNat ≤ r.data.bytes.length) :
    (bytes length).run r =
      ⟨.ok (r.data.part r.pos (r.pos + length)), ⟨r.data, r.pos + length⟩, [.read r length]⟩ := by
  simp only [bytes, ByteReader.stop?_eq, h, ↓reduceIte]

theorem run_bytes_of_not_le {length : UInt64} {r : ByteReader}
    (h : ¬r.pos.toNat + length.toNat ≤ r.data.bytes.length) :
    (bytes length).run r = ⟨.error (.truncated ⟨r.pos.toNat, length.toNat⟩), r, [.read r length]⟩ := by
  simp only [bytes, ByteReader.stop?_eq, h, ↓reduceIte]

theorem le_of_bytes {length : UInt64} {r : ByteReader} {s : Slice} (h : ((bytes length).run r).outcome = .ok s) :
    r.pos.toNat + length.toNat ≤ r.data.bytes.length := by
  by_cases hend : r.pos.toNat + length.toNat ≤ r.data.bytes.length
  · exact hend
  · rw [run_bytes_of_not_le hend] at h
    cases h

theorem length_of_bytes {length : UInt64} {r : ByteReader} {s : Slice} (h : ((bytes length).run r).outcome = .ok s) :
    s.bytes.length = length.toNat := by
  have hend := le_of_bytes h
  rw [run_bytes_of_le hend] at h
  cases h
  simp only [Slice.part, List.length_take, List.length_drop, ByteReader.toNat_pos_add_of_le hend]
  omega

theorem pos_lt_of_u8 {r : ByteReader} {b : UInt8} (h : (u8.run r).outcome = .ok b) :
    (u8.run r).reader.data = r.data ∧ r.pos < (u8.run r).reader.pos := by
  obtain ⟨s, hs, -, hreader⟩ := outcome_bind_eq_ok h
  have hend := le_of_bytes hs
  rw [u8, hreader]
  change ((bytes 1).run r).reader.data = r.data ∧ r.pos < ((bytes 1).run r).reader.pos
  rw [run_bytes_of_le hend]
  refine ⟨rfl, UInt64.lt_iff_toNat_lt.mpr ?_⟩
  rw [ByteReader.toNat_pos_add_of_le hend]
  exact Nat.lt_succ_self _

/-- A parser that fails leaves the reader where it was. -/
def Atomic (p : Parser α) : Prop := ∀ r fault, (p.run r).outcome = .error fault → (p.run r).reader = r

theorem atomic_bytes (length : UInt64) : (bytes length).Atomic := by
  intro r fault h
  by_cases hend : r.pos.toNat + length.toNat ≤ r.data.bytes.length
  · rw [run_bytes_of_le hend] at h
    cases h
  · rw [run_bytes_of_not_le hend]

theorem Atomic.map {p : Parser α} (hp : p.Atomic) (f : α → β) : (p >>= fun a => pure (f a)).Atomic := by
  intro r fault h
  change ((p.run r).andThen fun a => (Parser.pure (f a)).run).outcome = .error fault at h
  change ((p.run r).andThen fun a => (Parser.pure (f a)).run).reader = r
  cases ha : (p.run r).outcome with
  | error fault' =>
      simp only [Run.andThen, ha]
      exact hp r fault' ha
  | ok a =>
      simp only [Run.andThen, ha] at h
      cases h

end Parser

/-! ## Runs in unbounded numbers -/

/-- The run comes to what is expected of it and stays in bounds. -/
structure Run.Gives (s : Run α) (value : α → γ) (expected : Except DecodeFault γ) : Prop where
  outcome : expected = s.outcome.map value
  bounded : ∀ e ∈ s.trace, e.Bounded

namespace Parser

/-- The parser does with words what the decoder does with numbers; its results stand for those of the decoder. -/
def Computes (p : Parser α) (value : α → β) (q : Decoder β) : Prop :=
  ∀ r : ByteReader, r.Valid → (p.run r).Gives (fun a => (value a, (p.run r).reader.cursor)) (q r.cursor)

theorem computes_pure (a : α) (value : α → β) : Computes (pure a) value (pure (value a)) :=
  fun _ _ => ⟨rfl, by simp [pure, Parser.pure]⟩

theorem computes_fail (fault : DecodeFault) (value : α → β) : Computes (fail fault) value (throw fault) :=
  fun _ _ => ⟨rfl, by simp [fail]⟩

theorem computes_lift (x : Except DecodeFault α) : Computes (lift x) id (liftM x) := by
  intro r _
  refine ⟨?_, by simp [lift]⟩
  cases x <;> rfl

/-- Of the results of the first parser only those that it has matter. -/
theorem Computes.bind_of_outcome {p : Parser α} {k : α → Parser γ} {value : α → β} {value' : γ → δ} {q : Decoder β}
    {l : β → Decoder δ} (hp : p.Computes value q)
    (hk : ∀ r a, (p.run r).outcome = .ok a → (k a).Computes value' (l (value a))) :
    (p >>= k).Computes value' (q >>= l) := by
  intro r hr
  obtain ⟨hq, hbounded⟩ := hp r hr
  change ((p.run r).andThen fun a => (k a).run).Gives _ _
  simp only [Bind.bind, StateT.bind, Except.bind, hq, Parser.bind, Run.andThen]
  cases ha : (p.run r).outcome with
  | error fault => exact ⟨rfl, hbounded⟩
  | ok a =>
      obtain ⟨hl, hbounded'⟩ := hk r a ha _ ((p.steps r).valid hr)
      exact ⟨hl, List.forall_mem_append.mpr ⟨hbounded, hbounded'⟩⟩

theorem Computes.bind {p : Parser α} {k : α → Parser γ} {value : α → β} {value' : γ → δ} {q : Decoder β}
    {l : β → Decoder δ} (hp : p.Computes value q) (hk : ∀ a, (k a).Computes value' (l (value a))) :
    (p >>= k).Computes value' (q >>= l) :=
  hp.bind_of_outcome fun _ a _ => hk a

theorem Computes.map {p : Parser α} {value : α → β} {q : Decoder β} {f : α → γ} {value' : γ → δ} {g : β → δ}
    (hp : p.Computes value q) (hfg : ∀ a, value' (f a) = g (value a)) :
    (p >>= fun a => pure (f a)).Computes value' (q >>= fun b => pure (g b)) :=
  hp.bind fun a => hfg a ▸ computes_pure (f a) value'

/-- A fault in front of both, told on the same condition. -/
theorem Computes.unless {c d : Prop} [Decidable c] [Decidable d] {fault : DecodeFault} {k : Unit → Parser α}
    {l : Unit → Decoder β} {value : α → β} (hcd : c ↔ d) (hk : ¬c → (k ()).Computes value (l ())) :
    (if c then fail fault >>= k else k ()).Computes value (if d then throw fault >>= l else l ()) := by
  by_cases hc : c
  · simp only [hc, hcd.mp hc, ↓reduceIte]
    exact computes_fail fault value
  · simp only [hc, mt hcd.mpr hc, ↓reduceIte]
    exact hk hc

theorem Computes.orFail {p : Parser α} {value : α → β} {q q' : Decoder β} {fault : DecodeFault} (hp : p.Computes value q)
    (hq : ∀ c, q' c = (q c).mapError fun _ => fault) : (p.orFail fault).Computes value q' := by
  intro r hr
  obtain ⟨hq', hbounded⟩ := hp r hr
  refine ⟨?_, hbounded⟩
  rw [hq, hq']
  simp only [Parser.orFail]
  cases (p.run r).outcome <;> rfl

theorem Computes.times {p : Parser α} {value : α → β} {q : Decoder β} (hp : p.Computes value q) (n : Nat) :
    (times n p).Computes (List.map value) (Reader.times n q) := by
  induction n with
  | zero => exact computes_pure [] (List.map value)
  | succ n ih =>
      rw [Reader.times_succ]
      exact hp.bind fun a => ih.map fun as => rfl

theorem Computes.gives_new {p : Parser α} {value : α → β} {q : Decoder β} (hp : p.Computes value q) (s : Slice) :
    (p.run (.new s)).Gives value (q.readAll s.bytes) := by
  obtain ⟨hq, hbounded⟩ := hp (.new s) (ByteReader.valid_new s)
  refine ⟨?_, hbounded⟩
  rw [Reader.readAll, ← ByteReader.cursor_new, hq]
  cases (p.run (.new s)).outcome <;> rfl

theorem computes_within {s : Slice} {p : Parser α} {value : α → β} {x : Except DecodeFault β}
    (hp : (p.run (.new s)).Gives value x) : (within s p).Computes value (liftM x) := by
  intro r _
  refine ⟨?_, hp.bounded⟩
  rw [hp.outcome]
  simp only [within]
  cases (p.run (.new s)).outcome <;> rfl

/-! ### Reads in unbounded numbers -/

theorem computes_position : position.Computes UInt64.toNat Reader.position :=
  fun _ _ => ⟨rfl, by simp [position]⟩

theorem computes_bytes {length : UInt64} {n : Nat} (hn : length.toNat = n) (hlength : n ≤ 2 ^ 34) :
    (bytes length).Computes Slice.bytes (Decoder.bytes n) := by
  subst hn
  intro r hr
  have hvalid : r.pos.toNat ≤ r.data.bytes.length := hr
  by_cases hend : r.pos.toNat + length.toNat ≤ r.data.bytes.length
  · have hholds : length.toNat ≤ r.data.bytes.length - r.pos.toNat := by omega
    rw [run_bytes_of_le hend]
    refine ⟨?_, by simpa [Event.Bounded] using hlength⟩
    simp [Decoder.bytes, Reader.take, ByteReader.cursor, hholds, Except.map, Slice.part,
      ByteReader.toNat_pos_add_of_le hend]
  · have hholds : ¬length.toNat ≤ r.data.bytes.length - r.pos.toNat := by omega
    rw [run_bytes_of_not_le hend]
    refine ⟨?_, by simpa [Event.Bounded] using hlength⟩
    simp [Decoder.bytes, Reader.take, ByteReader.cursor, hholds, Except.map]

theorem computes_skip {length : UInt64} {n : Nat} (hn : length.toNat = n) (hlength : n ≤ 2 ^ 34) :
    (skip length).Computes id (Decoder.skip n) :=
  (computes_bytes hn hlength).map fun _ => rfl

/-- The digits of a number are as many as the word has, so that the word holds it. -/
theorem computes_number {length : UInt64} {word : Nat → α} {value : α → Nat} (hlength : length.toNat ≤ 2 ^ 34)
    (hword : ∀ n < 256 ^ length.toNat, value (word n) = n) :
    (do return word (← bytes length).bytes.bigEndian : Parser α).Computes value (Decoder.number length.toNat) := by
  refine (computes_bytes rfl hlength).bind_of_outcome fun r s hs => ?_
  have hlt := Bytes.bigEndian_lt s.bytes
  rw [length_of_bytes hs] at hlt
  have hpure := computes_pure (word s.bytes.bigEndian) value
  rwa [hword _ hlt] at hpure

theorem computes_u8 : u8.Computes UInt8.toNat Decoder.u8 :=
  computes_number (by decide) fun _ h => UInt8.toNat_ofNat_of_lt' h

theorem computes_u16 : u16.Computes UInt16.toNat Decoder.u16 :=
  computes_number (by decide) fun _ h => UInt16.toNat_ofNat_of_lt' h

theorem computes_u32 : u32.Computes UInt32.toNat Decoder.u32 :=
  computes_number (by decide) fun _ h => UInt32.toNat_ofNat_of_lt' h

theorem toInt_toInt32 (word : UInt32) : word.toInt32.toInt = signed32 word.toNat := by
  have hlt := word.toNat_lt
  rw [signed32, ← Int32.toInt_toBitVec, BitVec.toInt_eq_toNat_cond]
  change (if 2 * word.toNat < 2 ^ 32 then (word.toNat : Int) else word.toNat - (2 ^ 32 : Nat)) = _
  split <;> split <;> omega

theorem computes_i32 : i32.Computes Int32.toInt Decoder.i32 :=
  computes_u32.map toInt_toInt32

theorem computes_entryNumber {slots : Nat} {k : UInt16 → Parser α} {value : α → β} {q : Decoder β}
    (hslots : slots < 2 ^ 16) (hk : ∀ index : UInt16, index.toNat = slots → (k index).Computes value q) :
    (entryNumber slots >>= k).Computes value q := by
  have hnumber : (entryNumber slots).Computes (fun _ => ()) (pure ()) :=
    fun _ _ => ⟨rfl, by simpa [entryNumber, Event.Bounded] using hslots⟩
  refine hnumber.bind_of_outcome (l := fun _ => q) fun r index hindex => ?_
  cases hindex
  exact hk _ (UInt16.toNat_ofNat_of_lt' hslots)

end Parser

end MethodScout.Machine
