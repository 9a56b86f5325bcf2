import MethodScout.ClassFile.Instruction
import MethodScout.Proofs.Attempts
import MethodScout.Proofs.Formats

/-!
# The grammar of code arrays

`Instruction.Encoding` says which bytes are an instruction that starts at an offset, and which instruction they are. A
code array decodes to a list of instructions exactly if it is their encodings one after the other.
-/

namespace MethodScout.Instruction

open Reader Decoder

/-! ## Opcodes -/

/-- The opcodes of jumps that depend on a test: `ifeq` to `if_acmpne`, `ifnull` and `ifnonnull`. -/
def IsConditional (opcode : UInt8) : Prop :=
  0x99 ≤ opcode ∧ opcode ≤ 0xA6 ∨ opcode = 0xC6 ∨ opcode = 0xC7

instance (opcode : UInt8) : Decidable (IsConditional opcode) :=
  inferInstanceAs (Decidable (_ ∨ _))

/-- The opcodes of calls, from `invokevirtual` to `invokedynamic`. -/
def callOpcode : CallKind → UInt8
  | .virtual => 0xB6
  | .special => 0xB7
  | .static => 0xB8
  | .interface => 0xB9
  | .dynamic => 0xBA

/-- The opcodes with an encoding of their own: `tableswitch`, `lookupswitch`, the calls, `monitorenter` and `wide`. -/
def ownEncoding : List UInt8 := [0xAA, 0xAB, 0xB6, 0xB7, 0xB8, 0xB9, 0xBA, 0xC2, 0xC4]

/-- The opcodes with one operand byte: `bipush`, `ldc`, loads and stores with an index, `ret` and `newarray`. -/
def oneByte : List UInt8 :=
  [0x10, 0x12, 0x15, 0x16, 0x17, 0x18, 0x19, 0x36, 0x37, 0x38, 0x39, 0x3A, 0xA9, 0xBC]

/-- The opcodes with two operand bytes: `sipush`, `ldc_w`, `ldc2_w`, `iinc`, `goto`, `jsr`, the uses of fields, `new`,
`anewarray`, `checkcast` and `instanceof`. -/
def twoBytes : List UInt8 := [0x11, 0x13, 0x14, 0x84, 0xA7, 0xA8, 0xB2, 0xB3, 0xB4, 0xB5, 0xBB, 0xBD, 0xC0, 0xC1]

/-- How many operand bytes an opcode with a fixed width has. There are three for `multianewarray`, four for `goto_w` and
`jsr_w`, and none where nothing else is said. -/
def fixedWidth? (opcode : UInt8) : Option Nat :=
  if 0xC9 < opcode ∨ IsConditional opcode ∨ opcode ∈ ownEncoding then none
  else if opcode ∈ oneByte then some 1
  else if opcode ∈ twoBytes then some 2
  else if opcode = 0xC5 then some 3
  else if opcode = 0xC8 ∨ opcode = 0xC9 then some 4
  else some 0

/-- The opcodes that have a form. -/
def Form.Has : Form → UInt8 → Prop
  | .plain width, opcode => fixedWidth? opcode = some width
  | .monitorEnter, opcode => opcode = 0xC2
  | .call kind, opcode => opcode = callOpcode kind
  | .branch, opcode => IsConditional opcode
  | .tableSwitch, opcode => opcode = 0xAA
  | .lookupSwitch, opcode => opcode = 0xAB
  | .wide, opcode => opcode = 0xC4

instance (f : Form) (opcode : UInt8) : Decidable (f.Has opcode) :=
  match f with
  | .plain _ | .monitorEnter | .call _ | .tableSwitch | .lookupSwitch | .wide => inferInstanceAs (Decidable (_ = _))
  | .branch => inferInstanceAs (Decidable (IsConditional opcode))

theorem has_of_form? : ∀ opcode, ∀ f ∈ form? opcode, f.Has opcode := by
  apply Bytes.forall_byte
  decide +kernel

theorem form?_of_conditional : ∀ opcode, IsConditional opcode → form? opcode = some .branch := by
  apply Bytes.forall_byte
  decide +kernel

theorem form?_of_fixedWidth : ∀ opcode, ∀ width ∈ fixedWidth? opcode, form? opcode = some (.plain width) := by
  apply Bytes.forall_byte
  decide +kernel

theorem form?_eq_some_iff {opcode : UInt8} {f : Form} : form? opcode = some f ↔ f.Has opcode := by
  refine ⟨has_of_form? opcode f, fun h => ?_⟩
  cases f with
  | plain width => exact form?_of_fixedWidth opcode width h
  | branch => exact form?_of_conditional opcode h
  | call kind => cases h; cases kind <;> rfl
  | _ => cases h; rfl

/-! ## Encodings -/

/-- The call that an index of a constant pool stands for, with the type that its descriptor says it returns. -/
inductive Resolved (pool : ConstantPool) (index : Nat) : CallKind → Call → Prop
  | owned {kind : CallKind} {owner name descriptor type : String} (hkind : kind ≠ .dynamic)
      (hmethod : pool.methodRef index = .ok (owner, name, descriptor))
      (htype : Descriptor.returnType descriptor = .ok type) :
      Resolved pool index kind ⟨kind, some owner, name, descriptor, type⟩
  | dynamic {name descriptor type : String} (hsite : pool.invokeDynamic index = .ok (name, descriptor))
      (htype : Descriptor.returnType descriptor = .ok type) :
      Resolved pool index .dynamic ⟨.dynamic, none, name, descriptor, type⟩

/-- Zero to three bytes that bring what follows an opcode at `start` to a multiple of four. -/
def IsPadding (start : Nat) (padding : Bytes) : Prop :=
  padding.length < 4 ∧ (start + 1 + padding.length) % 4 = 0

/-- The bytes of an instruction whose opcode stands at `start`. -/
inductive Encoding (pool : ConstantPool) (start : Nat) : Bytes → Instruction → Prop
  | plain {opcode : UInt8} {operands : Bytes} (hwidth : fixedWidth? opcode = some operands.length) :
      Encoding pool start (opcode :: operands) (.other opcode)
  | monitorEnter : Encoding pool start [0xC2] .monitorEnter
  | branch {opcode : UInt8} {target : Bytes} (hopcode : IsConditional opcode) (htarget : target.length = 2) :
      Encoding pool start (opcode :: target) .conditionalBranch
  /-- `wide` before `iinc`, with an index and a constant of two bytes each. -/
  | wideIncrement {operands : Bytes} (hoperands : operands.length = 4) :
      Encoding pool start (0xC4 :: 0x84 :: operands) (.other 0xC4)
  | wide {widened : UInt8} {index : Bytes} (hwidened : widened ≠ 0x84) (hindex : index.length = 2) :
      Encoding pool start (0xC4 :: widened :: index) (.other 0xC4)
  | tableSwitch {padding target low high targets : Bytes} (hpadding : IsPadding start padding)
      (htarget : target.length = 4) (hlow : low.length = 4) (hhigh : high.length = 4)
      (hle : signed32 low.bigEndian ≤ signed32 high.bigEndian)
      (htargets : (targets.length : Int) = 4 * (signed32 high.bigEndian - signed32 low.bigEndian + 1)) :
      Encoding pool start (0xAA :: (padding ++ target ++ low ++ high ++ targets)) (.switch .table)
  | lookupSwitch {padding target count pairs : Bytes} (hpadding : IsPadding start padding)
      (htarget : target.length = 4) (hcount : count.length = 4) (hle : 0 ≤ signed32 count.bigEndian)
      (hpairs : (pairs.length : Int) = 8 * signed32 count.bigEndian) :
      Encoding pool start (0xAB :: (padding ++ target ++ count ++ pairs)) (.switch .lookup)
  | call {kind : CallKind} {index unused : Bytes} {call : Call} (hindex : index.length = 2)
      (hunused : unused.length = if kind = .interface ∨ kind = .dynamic then 2 else 0)
      (hcall : Resolved pool index.bigEndian kind call) :
      Encoding pool start (callOpcode kind :: (index ++ unused)) (.call call)

/-! ## Operands -/

theorem resolve_eq_ok_iff {pool : ConstantPool} {kind : CallKind} {index : Nat} {call : Call} :
    resolve pool kind index = .ok call ↔ Resolved pool index kind call := by
  refine ⟨fun h => ?_, fun h => ?_⟩
  · unfold resolve at h
    split at h
    · obtain ⟨⟨name, descriptor⟩, hsite, h⟩ := Attempt.bind_eq_ok.mp h
      obtain ⟨type, htype, h⟩ := Attempt.bind_eq_ok.mp h
      cases h
      exact .dynamic hsite htype
    · rename_i hkind
      obtain ⟨⟨owner, name, descriptor⟩, hmethod, h⟩ := Attempt.bind_eq_ok.mp h
      obtain ⟨type, htype, h⟩ := Attempt.bind_eq_ok.mp h
      cases h
      exact .owned hkind hmethod htype
  · cases h with
    | owned hkind hmethod htype =>
        cases kind <;> simp_all [resolve, bind, Except.bind, pure, Except.pure]
    | dynamic hsite htype => simp [resolve, hsite, htype, bind, Except.bind, pure, Except.pure]

theorem follows_align : align.Follows fun o bs _ => bs.length = (4 - o % 4) % 4 := by
  refine (follows_position.bind fun o => follows_skip ((4 - o % 4) % 4)).congr fun o bs _ => ⟨?_, fun h => ?_⟩
  · rintro ⟨_, _, _, rfl, ⟨rfl, rfl⟩, h⟩
    exact h
  · exact ⟨o, [], bs, rfl, ⟨rfl, rfl⟩, h⟩

theorem follows_skipTable (start size : Nat) : (skipTable start size).Follows fun _ bs _ => bs.length = size :=
  ((follows_take _ size).map fun _ => ()).congr fun _ _ _ => by simp

theorem follows_readCall (pool : ConstantPool) (kind : CallKind) :
    (readCall pool kind).Follows fun _ bs x => ∃ (index unused : Bytes) (call : Call),
      bs = index ++ unused ∧ index.length = 2 ∧ unused.length = unusedBytes kind ∧
        Resolved pool index.bigEndian kind call ∧ x = .call call := by
  refine ((follows_number 2).bind fun index => (follows_skip (unusedBytes kind)).bind fun _ =>
    (follows_lift (resolve pool kind index)).map Instruction.call).congr fun o bs x => ⟨?_, ?_⟩
  · rintro ⟨_, index, _, rfl, hindex, _, unused, _, rfl, hunused, call, ⟨rfl, hcall⟩, rfl⟩
    obtain ⟨hlen, rfl⟩ := Bytes.bigEndian_eq_iff.mpr hindex
    exact ⟨index, unused, call, by simp, hlen, hunused, resolve_eq_ok_iff.mp hcall, rfl⟩
  · rintro ⟨index, unused, call, rfl, hlen, hunused, hcall, rfl⟩
    exact ⟨index.bigEndian, index, unused, rfl, Bytes.bigEndian_eq_iff.mp ⟨hlen, rfl⟩, (), unused, [], by simp, hunused,
      call, ⟨rfl, resolve_eq_ok_iff.mpr hcall⟩, rfl⟩

theorem follows_readTableSwitch (start : Nat) :
    (readTableSwitch start).Follows fun o bs x => ∃ padding target low high targets : Bytes,
      bs = padding ++ target ++ low ++ high ++ targets ∧ padding.length = (4 - o % 4) % 4 ∧
        target.length = 4 ∧ low.length = 4 ∧ high.length = 4 ∧
          signed32 low.bigEndian ≤ signed32 high.bigEndian ∧
            targets.length = 4 * (signed32 high.bigEndian - signed32 low.bigEndian + 1).toNat ∧
              x = .switch .table := by
  refine (follows_align.bind fun _ => (follows_skip 4).bind fun _ => follows_i32.bind fun low =>
    follows_i32.bind fun high => ((follows_skipTable start (4 * (high - low + 1).toNat)).map fun _ =>
      Instruction.switch .table).unless).congr fun o bs x => ⟨?_, ?_⟩
  · rintro ⟨_, padding, _, rfl, hpadding, _, target, _, rfl, htarget, _, low, _, rfl, ⟨hlow, rfl⟩, _, high, targets, rfl,
      ⟨hhigh, rfl⟩, hle, _, htargets, rfl⟩
    exact ⟨padding, target, low, high, targets, by simp, hpadding, htarget, hlow, hhigh, Int.not_lt.mp hle, htargets, rfl⟩
  · rintro ⟨padding, target, low, high, targets, rfl, hpadding, htarget, hlow, hhigh, hle, htargets, rfl⟩
    exact ⟨(), padding, target ++ (low ++ (high ++ targets)), by simp, hpadding, (), target, _, rfl, htarget, _, low, _,
      rfl, ⟨hlow, rfl⟩, _, high, targets, rfl, ⟨hhigh, rfl⟩, Int.not_lt.mpr hle, (), htargets, rfl⟩

theorem follows_readLookupSwitch (start : Nat) :
    (readLookupSwitch start).Follows fun o bs x => ∃ padding target count pairs : Bytes,
      bs = padding ++ target ++ count ++ pairs ∧ padding.length = (4 - o % 4) % 4 ∧
        target.length = 4 ∧ count.length = 4 ∧ 0 ≤ signed32 count.bigEndian ∧
          pairs.length = 8 * (signed32 count.bigEndian).toNat ∧ x = .switch .lookup := by
  refine (follows_align.bind fun _ => (follows_skip 4).bind fun _ => follows_i32.bind fun count =>
    ((follows_skipTable start (8 * count.toNat)).map fun _ =>
      Instruction.switch .lookup).unless).congr fun o bs x => ⟨?_, ?_⟩
  · rintro ⟨_, padding, _, rfl, hpadding, _, target, _, rfl, htarget, _, count, pairs, rfl, ⟨hcount, rfl⟩, hle, _, hpairs,
      rfl⟩
    exact ⟨padding, target, count, pairs, by simp, hpadding, htarget, hcount, Int.not_lt.mp hle, hpairs, rfl⟩
  · rintro ⟨padding, target, count, pairs, rfl, hpadding, htarget, hcount, hle, hpairs, rfl⟩
    exact ⟨(), padding, target ++ (count ++ pairs), by simp, hpadding, (), target, _, rfl, htarget, _, count, pairs, rfl,
      ⟨hcount, rfl⟩, Int.not_lt.mpr hle, (), hpairs, rfl⟩

/-! ## Whole instructions -/

theorem isPadding_iff {start : Nat} {padding : Bytes} :
    IsPadding start padding ↔ padding.length = (4 - (start + 1) % 4) % 4 := by
  unfold IsPadding
  omega

theorem unusedBytes_eq (kind : CallKind) :
    unusedBytes kind = if kind = .interface ∨ kind = .dynamic then 2 else 0 := by
  cases kind <;> rfl

theorem follows_wide (opcode : UInt8) :
    (do let widened ← u8; skip (if widened = increment then 4 else 2); return .other opcode :
        Decoder Instruction).Follows fun _ bs x => ∃ (widened : UInt8) (operands : Bytes),
      bs = widened :: operands ∧ operands.length = (if widened = 0x84 then 4 else 2) ∧ x = .other opcode := by
  have hiff (widened : UInt8) : widened.toNat = increment ↔ widened = 0x84 := UInt8.toNat_inj (b := 0x84)
  refine (follows_u8.bind fun widened =>
    follows_skipped (if widened = increment then 4 else 2) (Instruction.other opcode)).congr fun o bs x => ⟨?_, ?_⟩
  · rintro ⟨_, _, operands, rfl, ⟨widened, rfl, rfl⟩, hlen, rfl⟩
    exact ⟨widened, operands, rfl, by rw [hlen, if_congr (hiff widened) rfl rfl], rfl⟩
  · rintro ⟨widened, operands, rfl, hlen, rfl⟩
    exact ⟨widened.toNat, [widened], operands, rfl, ⟨widened, rfl, rfl⟩,
      by rw [hlen, if_congr (hiff widened) rfl rfl], rfl⟩

theorem encoding_of_readOperands {pool : ConstantPool} {start o' : Nat} {opcode : UInt8} {bs rest : Bytes}
    {x : Instruction} (h : readOperands pool start opcode ⟨start + 1, bs⟩ = .ok (x, ⟨o', rest⟩)) :
    ∃ operands, bs = operands ++ rest ∧ o' = start + 1 + operands.length ∧
      Encoding pool start (opcode :: operands) x := by
  unfold readOperands at h
  cases hform : form? opcode with
  | none =>
      rw [hform] at h
      cases h
  | some f =>
      rw [hform] at h
      have hopcode := form?_eq_some_iff.mp hform
      cases f with
      | plain width =>
          obtain ⟨operands, rfl, rfl, hlen, rfl⟩ := (follows_skipped width (Instruction.other opcode) _ _ _ _ _).mp h
          exact ⟨operands, rfl, rfl, .plain (hlen ▸ hopcode)⟩
      | monitorEnter =>
          obtain ⟨_, rfl, rfl, rfl, rfl⟩ := (follows_pure Instruction.monitorEnter _ _ _ _ _).mp h
          cases hopcode
          exact ⟨[], rfl, rfl, .monitorEnter⟩
      | call kind =>
          obtain ⟨_, rfl, rfl, index, unused, call, rfl, hindex, hunused, hcall, rfl⟩ :=
            (follows_readCall pool kind _ _ _ _ _).mp h
          cases hopcode
          exact ⟨_, rfl, rfl, .call hindex (unusedBytes_eq kind ▸ hunused) hcall⟩
      | branch =>
          obtain ⟨target, rfl, rfl, htarget, rfl⟩ := (follows_skipped 2 Instruction.conditionalBranch _ _ _ _ _).mp h
          exact ⟨target, rfl, rfl, .branch hopcode htarget⟩
      | tableSwitch =>
          obtain ⟨_, rfl, rfl, padding, target, low, high, targets, rfl, hpadding, htarget, hlow, hhigh, hle, htargets,
            rfl⟩ := (follows_readTableSwitch start _ _ _ _ _).mp h
          cases hopcode
          exact ⟨_, rfl, rfl, .tableSwitch (isPadding_iff.mpr hpadding) htarget hlow hhigh hle (by omega)⟩
      | lookupSwitch =>
          obtain ⟨_, rfl, rfl, padding, target, count, pairs, rfl, hpadding, htarget, hcount, hle, hpairs, rfl⟩ :=
            (follows_readLookupSwitch start _ _ _ _ _).mp h
          cases hopcode
          exact ⟨_, rfl, rfl, .lookupSwitch (isPadding_iff.mpr hpadding) htarget hcount hle (by omega)⟩
      | wide =>
          obtain ⟨_, rfl, rfl, widened, operands, rfl, hlen, rfl⟩ := (follows_wide opcode _ _ _ _ _).mp h
          cases hopcode
          refine ⟨_, rfl, rfl, ?_⟩
          split at hlen
          · rename_i hwidened
            exact hwidened ▸ .wideIncrement hlen
          · exact .wide ‹_› hlen

theorem readOperands_of_encoding {pool : ConstantPool} {start : Nat} {opcode : UInt8} {operands : Bytes}
    {x : Instruction} (h : Encoding pool start (opcode :: operands) x) (rest : Bytes) :
    readOperands pool start opcode ⟨start + 1, operands ++ rest⟩ =
      .ok (x, ⟨start + 1 + operands.length, rest⟩) := by
  unfold readOperands
  cases h with
  | plain hwidth =>
      rw [form?_eq_some_iff.mpr (show (Form.plain operands.length).Has opcode from hwidth)]
      exact (follows_skipped operands.length (Instruction.other opcode)).run ⟨rfl, rfl⟩ rest
  | monitorEnter => exact (follows_pure Instruction.monitorEnter).run ⟨rfl, rfl⟩ rest
  | branch hopcode htarget =>
      rw [form?_eq_some_iff.mpr (show Form.branch.Has opcode from hopcode)]
      exact (follows_skipped 2 Instruction.conditionalBranch).run ⟨htarget, rfl⟩ rest
  | wideIncrement hoperands => exact (follows_wide 0xC4).run ⟨0x84, _, rfl, hoperands, rfl⟩ rest
  | wide hwidened hindex => exact (follows_wide 0xC4).run ⟨_, _, rfl, by rwa [if_neg hwidened], rfl⟩ rest
  | tableSwitch hpadding htarget hlow hhigh hle htargets =>
      exact (follows_readTableSwitch start).run
        ⟨_, _, _, _, _, rfl, isPadding_iff.mp hpadding, htarget, hlow, hhigh, hle, by omega, rfl⟩ rest
  | lookupSwitch hpadding htarget hcount hle hpairs =>
      exact (follows_readLookupSwitch start).run
        ⟨_, _, _, _, rfl, isPadding_iff.mp hpadding, htarget, hcount, hle, by omega, rfl⟩ rest
  | @call kind index unused call hindex hunused hcall =>
      rw [form?_eq_some_iff.mpr (show (Form.call kind).Has (callOpcode kind) from rfl)]
      exact (follows_readCall pool kind).run
        ⟨index, unused, call, rfl, hindex, unusedBytes_eq kind ▸ hunused, hcall, rfl⟩ rest

/-! ## Code arrays -/

theorem series_nil_iff {pool : ConstantPool} {o : Nat} {xs : List Instruction} :
    Format.Series (Encoding pool) o [] xs ↔ xs = [] := by
  refine ⟨fun h => ?_, fun h => h ▸ .nil⟩
  generalize hbs : ([] : Bytes) = bs at h
  cases h with
  | nil => rfl
  | cons hx _ =>
      obtain ⟨rfl, rfl⟩ := List.append_eq_nil_iff.mp hbs.symm
      cases hx

theorem series_cons_iff {pool : ConstantPool} {o : Nat} {opcode : UInt8} {bs : Bytes} {xs : List Instruction} :
    Format.Series (Encoding pool) o (opcode :: bs) xs ↔
      ∃ x c' xs', readOperands pool o opcode ⟨o + 1, bs⟩ = .ok (x, c') ∧ xs = x :: xs' ∧
        Format.Series (Encoding pool) c'.offset c'.rest xs' := by
  refine ⟨fun h => ?_, ?_⟩
  · generalize hbs : opcode :: bs = all at h
    cases h with
    | nil => cases hbs
    | @cons _ first second x xs hx hxs =>
        cases first with
        | nil => cases hx
        | cons opcode' operands =>
            obtain ⟨rfl, rfl⟩ := List.cons_eq_cons.mp hbs
            refine ⟨x, _, xs, readOperands_of_encoding hx second, rfl, ?_⟩
            rwa [List.length_cons, Nat.add_comm operands.length, ← Nat.add_assoc] at hxs
  · rintro ⟨x, ⟨o', rest⟩, xs, hx, rfl, hxs⟩
    obtain ⟨operands, rfl, rfl, henc⟩ := encoding_of_readOperands hx
    rw [Nat.add_assoc, Nat.add_comm 1] at hxs
    exact .cons henc hxs

/-- The loop gives the instructions that it has read before and those that the rest of the code encodes. -/
theorem decodeAfter_eq_ok_iff {pool : ConstantPool} {read : List Instruction} {c : Cursor} {out : List Instruction} :
    decodeAfter pool read c = .ok out ↔
      ∃ xs, out = read.reverse ++ xs ∧ Format.Series (Encoding pool) c.offset c.rest xs := by
  fun_induction decodeAfter pool read c with
  | case1 read c hrest => simp [hrest, series_nil_iff, eq_comm]
  | case2 read c opcode rest hrest fault hfault => simp [hrest, series_cons_iff, hfault]
  | case3 read c opcode rest hrest x c' hx ih => simp [hrest, series_cons_iff, hx, ih]

/-- A code array decodes to instructions exactly if it is their encodings one after the other. -/
theorem decode_eq_ok_iff_series (pool : ConstantPool) (code : Bytes) (xs : List Instruction) :
    decode pool code = .ok xs ↔ Format.Series (Encoding pool) 0 code xs := by
  simp [decode, decodeAfter_eq_ok_iff]

end MethodScout.Instruction
