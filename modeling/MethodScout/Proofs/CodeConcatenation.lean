import MethodScout.Proofs.CodeFaults

/-!
# Code behind other code

A decoder that starts further on does the same, and the offsets that it tells grow by as much; `Decoder.Shifts` says so of
two decoders, since a switch is told where it starts. Switches are padded to a multiple of four, so all this holds for
distances that are multiples of four. Code behind such a distance of other code is therefore decoded as on its own.
-/

namespace MethodScout

/-- The fault as it is told by a reader that starts `n` bytes further on. -/
def DecodeFault.later (n : Nat) : DecodeFault → DecodeFault
  | truncated read => truncated ⟨read.offset + n, read.wanted⟩
  | invalidOpcode offset opcode => invalidOpcode (offset + n) opcode
  | malformedSwitch offset => malformedSwitch (offset + n)
  | fault => fault

theorem DecodeFault.IsReference.later {f : DecodeFault} (h : f.IsReference) (n : Nat) : f.later n = f := by
  cases h <;> rfl

/-- The cursor in bytes that begin `n` bytes further on. -/
def Cursor.later (n : Nat) (c : Cursor) : Cursor := ⟨c.offset + n, c.rest⟩

namespace Decoder

open Reader

variable {α β : Type} {n : Nat}

/-- What a run comes to, told for `n` bytes further on. -/
def later (n : Nat) : Except DecodeFault (α × Cursor) → Except DecodeFault (α × Cursor)
  | .ok (a, c) => .ok (a, c.later n)
  | .error f => .error (f.later n)

/-- The second decoder does `n` bytes further on what the first one does. -/
def Shifts (n : Nat) (p q : Decoder α) : Prop := ∀ c, q (c.later n) = later n (p c)

theorem shifts_pure (a : α) : Shifts n (pure a) (pure a) := fun _ => rfl

theorem shifts_throw (f : DecodeFault) : Shifts n (throw f : Decoder α) (throw (f.later n)) := fun _ => rfl

theorem shifts_lift {x : Except DecodeFault α} (hx : Attempt.FailsIn DecodeFault.IsReference x) :
    Shifts n (liftM x) (liftM x) := by
  intro c
  cases x with
  | ok a => rfl
  | error f =>
      have hf : f.later n = f := (hx f rfl).later n
      exact congrArg Except.error hf.symm

theorem shifts_take {short short' : Shortfall → DecodeFault} {size : Nat}
    (hshort : ∀ s : Shortfall, short' ⟨s.offset + n, s.wanted⟩ = (short s).later n) :
    Shifts n (take short size) (take short' size) := by
  rintro ⟨o, bs⟩
  by_cases hsize : size ≤ bs.length
  · simp [take, Cursor.later, later, hsize]
    omega
  · simp [take, Cursor.later, later, hsize, ← hshort]

theorem Shifts.bind {p q : Decoder α} {k l : α → Decoder β} (hp : Shifts n p q) (hk : ∀ a, Shifts n (k a) (l a)) :
    Shifts n (p >>= k) (q >>= l) := by
  intro c
  simp only [Bind.bind, StateT.bind, Except.bind, hp c]
  cases p c with
  | error f => rfl
  | ok r => exact hk r.1 r.2

theorem shifts_bytes (size : Nat) : Shifts n (bytes size) (bytes size) := shifts_take fun _ => rfl

theorem shifts_skip (size : Nat) : Shifts n (skip size) (skip size) :=
  (shifts_bytes size).bind fun _ => shifts_pure ()

theorem shifts_number (size : Nat) : Shifts n (number size) (number size) :=
  (shifts_bytes size).bind fun _ => shifts_pure _

theorem shifts_i32 : Shifts n i32 i32 := (shifts_number 4).bind fun _ => shifts_pure _

theorem shifts_skipped (size : Nat) (a : α) : Shifts n (do skip size; return a) (do skip size; return a) :=
  (shifts_skip size).bind fun _ => shifts_pure a

end Decoder

namespace Instruction

open Reader Decoder

variable {n : Nat}

/-! ## Instructions further on -/

theorem shifts_align (hn : 4 ∣ n) : Shifts n align align := by
  intro c
  have hmod : (c.offset + n) % 4 = c.offset % 4 := by omega
  change skip ((4 - (c.offset + n) % 4) % 4) (c.later n) = later n (skip ((4 - c.offset % 4) % 4) c)
  rw [hmod, shifts_skip _ c]

theorem shifts_skipTable (start size : Nat) : Shifts n (skipTable start size) (skipTable (start + n) size) :=
  (shifts_take fun _ => rfl).bind fun _ => shifts_pure ()

/-- The check of a range and the table behind it. -/
theorem shifts_checkedTable {c : Prop} [Decidable c] (start size : Nat) (x : Instruction) :
    Shifts n
      (do if c then throw (.malformedSwitch start)
          skipTable start size
          return x)
      (do if c then throw (.malformedSwitch (start + n))
          skipTable (start + n) size
          return x) := by
  have htable := (shifts_skipTable (n := n) start size).bind fun _ => shifts_pure x
  by_cases hc : c
  · simp only [hc, ↓reduceIte]
    exact (shifts_throw (.malformedSwitch start)).bind fun _ => htable
  · simp only [hc, ↓reduceIte]
    exact (shifts_pure ()).bind fun _ => htable

theorem shifts_readTableSwitch (hn : 4 ∣ n) (start : Nat) :
    Shifts n (readTableSwitch start) (readTableSwitch (start + n)) :=
  (shifts_align hn).bind fun _ => (shifts_skip 4).bind fun _ => shifts_i32.bind fun _ => shifts_i32.bind fun _ =>
    shifts_checkedTable start _ _

theorem shifts_readLookupSwitch (hn : 4 ∣ n) (start : Nat) :
    Shifts n (readLookupSwitch start) (readLookupSwitch (start + n)) :=
  (shifts_align hn).bind fun _ => (shifts_skip 4).bind fun _ => shifts_i32.bind fun _ => shifts_checkedTable start _ _

theorem shifts_readCall (pool : ConstantPool) (kind : CallKind) : Shifts n (readCall pool kind) (readCall pool kind) :=
  (shifts_number 2).bind fun index => (shifts_skip _).bind fun _ =>
    (shifts_lift (failsIn_resolve pool kind index)).bind fun _ => shifts_pure _

theorem shifts_readOperands (hn : 4 ∣ n) (pool : ConstantPool) (start : Nat) (opcode : UInt8) :
    Shifts n (readOperands pool start opcode) (readOperands pool (start + n) opcode) := by
  unfold readOperands
  cases form? opcode with
  | none => exact shifts_throw (.invalidOpcode start opcode)
  | some form =>
      cases form with
      | plain width => exact shifts_skipped width _
      | monitorEnter => exact shifts_pure _
      | call kind => exact shifts_readCall pool kind
      | branch => exact shifts_skipped 2 _
      | tableSwitch => exact shifts_readTableSwitch hn start
      | lookupSwitch => exact shifts_readLookupSwitch hn start
      | wide => exact (shifts_number 1).bind fun _ => shifts_skipped _ _

/-! ## Code further on -/

/-- The instructions behind others, or the fault told for `n` bytes further on. -/
def behind (xs : List Instruction) (n : Nat) :
    Except DecodeFault (List Instruction) → Except DecodeFault (List Instruction)
  | .ok ys => .ok (xs ++ ys)
  | .error f => .error (f.later n)

theorem decodeAfter_cons_later (hn : 4 ∣ n) {pool : ConstantPool} {read : List Instruction} {c : Cursor}
    {opcode : UInt8} {rest : Bytes} (hrest : c.rest = opcode :: rest) :
    decodeAfter pool read (c.later n) =
      (later n (readOperands pool c.offset opcode ⟨c.offset + 1, rest⟩) >>= fun r =>
        decodeAfter pool (r.1 :: read) r.2) := by
  have hstep := shifts_readOperands hn pool c.offset opcode ⟨c.offset + 1, rest⟩
  rw [Cursor.later, Nat.add_right_comm] at hstep
  rw [Cursor.later, hrest, decodeAfter_cons, hstep]

/-- Both loops take the same steps. -/
theorem decodeAfter_later (hn : 4 ∣ n) (pool : ConstantPool) (xs read : List Instruction) (c : Cursor) :
    decodeAfter pool (read ++ xs.reverse) (c.later n) = behind xs n (decodeAfter pool read c) := by
  fun_induction decodeAfter pool read c with
  | case1 read c hrest =>
      rw [Cursor.later, hrest, decodeAfter_nil]
      simp [behind]
  | case2 read c opcode rest hrest fault hfault =>
      rw [decodeAfter_cons_later hn hrest, hfault]
      rfl
  | case3 read c opcode rest hrest x c' hx ih =>
      rw [decodeAfter_cons_later hn hrest, hx]
      exact ih

/-- Code behind code whose length is a multiple of four is decoded as on its own, with its instructions behind the others
and its fault at an offset that is larger by that length. -/
theorem decode_append_of_aligned (pool : ConstantPool) (first second : Bytes) (xs : List Instruction)
    (hfirst : decode pool first = .ok xs) (haligned : 4 ∣ first.length) :
    (∀ ys, decode pool second = .ok ys → decode pool (first ++ second) = .ok (xs ++ ys)) ∧
      ∀ f, decode pool second = .error f → decode pool (first ++ second) = .error (f.later first.length) := by
  have hboth : decode pool (first ++ second) = behind xs first.length (decode pool second) := by
    obtain ⟨_, rfl, hseries⟩ := decodeAfter_eq_ok_iff.mp hfirst
    have hlater := decodeAfter_later haligned pool xs [] ⟨0, second⟩
    rw [decode, decodeAfter_append hseries, List.append_nil]
    exact hlater
  refine ⟨fun ys hys => ?_, fun f hf => ?_⟩
  · rw [hboth, hys]
    rfl
  · rw [hboth, hf]
    rfl

/-- Two `bipush` before a `lookupswitch` without pairs, and before code that is at fault. -/
theorem decode_append_of_aligned_switch :
    decode .empty [0x10, 5, 0x10, 6] = .ok [.other 0x10, .other 0x10] ∧
      decode .empty ([0x10, 5, 0x10, 6] ++ [0xAB, 0, 0, 0, 0, 0, 0, 0, 0, 0, 0, 0]) =
        .ok [.other 0x10, .other 0x10, .switch .lookup] ∧
      decode .empty ([0x10, 5, 0x10, 6] ++ cutSwitch) = .error (.malformedSwitch 5) := by
  have hpushes : decode .empty [0x10, 5, 0x10, 6] = .ok [.other 0x10, .other 0x10] := by
    refine decodeAfter_eq_ok_iff.mpr ⟨_, rfl, ?_⟩
    exact series_cons_iff.mpr ⟨_, ⟨2, [0x10, 6]⟩, _, by decide +kernel, rfl,
      series_cons_iff.mpr ⟨_, ⟨4, []⟩, _, by decide +kernel, rfl, .nil⟩⟩
  have hswitch : decode .empty [0xAB, 0, 0, 0, 0, 0, 0, 0, 0, 0, 0, 0] = .ok [.switch .lookup] := by
    refine decodeAfter_eq_ok_iff.mpr ⟨_, rfl, ?_⟩
    exact series_cons_iff.mpr ⟨_, ⟨12, []⟩, _, by decide +kernel, rfl, .nil⟩
  exact ⟨hpushes, (decode_append_of_aligned _ _ _ _ hpushes (by decide)).1 _ hswitch,
    (decode_append_of_aligned _ _ _ _ hpushes (by decide)).2 _ decode_cutSwitch⟩

end Instruction

end MethodScout
