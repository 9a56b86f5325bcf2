import MethodScout.Proofs.ClassLayout
import MethodScout.Proofs.CodeGrammar
import MethodScout.Proofs.Rules

/-!
# Counting instructions

Counters stop at their greatest value, so the features of code are the true numbers of its instructions, clipped there.
An instruction takes at least one byte, and the length of a code array is a number of four bytes. So no counter is ever
clipped for a method that was decoded.
-/

namespace MethodScout

def Instruction.isOther : Instruction → Bool
  | .other _ => true
  | _ => false

/-- The call has an owner of the kind and gives back neither such a class nor a builder. -/
def Call.GoesOut (d : Dependency) (call : Call) : Prop :=
  ∃ owner, call.owner = some owner ∧ Text.EndsIn d.suffix owner ∧
    ¬Text.EndsIn d.suffix call.returnType ∧ ¬Text.EndsIn "Builder" call.returnType

namespace Features

/-- The features of code that is read from the features `start` on. -/
structure Extends (start : Features) (code : List Instruction) (f : Features) : Prop where
  monitors : f.monitors.toNat = min (2 ^ 32 - 1) (start.monitors.toNat + code.countP Instruction.isMonitorEnter)
  calls : f.calls.toNat = min (2 ^ 32 - 1) (start.calls.toNat + code.countP Instruction.isCall)
  branches : f.branches.toNat = min (2 ^ 32 - 1) (start.branches.toNat + code.countP Instruction.isBranch)
  callsClient : f.callsClient = true ↔ start.callsClient = true ∨ ∃ c, .call c ∈ code ∧ c.GoesOut .client
  callsRepository : f.callsRepository = true ↔
    start.callsRepository = true ∨ ∃ c, .call c ∈ code ∧ c.GoesOut .repository

/-- The counters have the numbers of instructions themselves. -/
structure Exact (f : Features) (code : List Instruction) : Prop where
  monitors : f.monitors.toNat = code.countP Instruction.isMonitorEnter
  calls : f.calls.toNat = code.countP Instruction.isCall
  branches : f.branches.toNat = code.countP Instruction.isBranch

theorem extends_foldl_add (start : Features) (code : List Instruction) : start.Extends code (code.foldl add start) := by
  have hflag (d : Dependency) (flag : Bool) :
      (flag || code.any (Instruction.reaches d)) = true ↔ flag = true ∨ ∃ c, .call c ∈ code ∧ c.GoesOut d := by
    rw [Bool.or_eq_true, Instruction.any_reaches_iff]
    simp only [Call.reaches_iff, Call.GoesOut]
  rw [foldl_add]
  exact ⟨by rw [toNat_tally, Nat.min_comm], by rw [toNat_tally, Nat.min_comm], by rw [toNat_tally, Nat.min_comm],
    hflag .client _, hflag .repository _⟩

theorem exact_ofCode {code : List Instruction} (h : code.length < 2 ^ 32) : (ofCode code).Exact code := by
  have hexact (p : Instruction → Bool) : (tally p 0 code).toNat = code.countP p := by
    have hle : code.countP p ≤ code.length := List.countP_le_length
    rw [toNat_tally, UInt32.toNat_zero]
    omega
  rw [ofCode, foldl_add]
  exact ⟨hexact _, hexact _, hexact _⟩

/-! ## What the features do not depend on -/

theorem add_add_comm (f : Features) (x y : Instruction) : (f.add x).add y = (f.add y).add x := by
  cases x <;> cases y <;> simp [add, Bool.or_right_comm]

theorem foldl_add_perm (start : Features) {code code' : List Instruction} (h : code'.Perm code) :
    code'.foldl add start = code.foldl add start :=
  h.foldl_eq' (fun x _ y _ f => add_add_comm f x y) start

theorem foldl_add_filter (start : Features) (code : List Instruction) :
    (code.filter fun x => !x.isOther).foldl add start = code.foldl add start := by
  induction code generalizing start with
  | nil => rfl
  | cons x code ih =>
      cases x with
      | other opcode => exact ih start
      | _ => exact ih _

theorem foldl_add_congr (start : Features) {code code' : List Instruction}
    (h : (code'.filter fun x => !x.isOther).Perm (code.filter fun x => !x.isOther)) :
    code'.foldl add start = code.foldl add start := by
  rw [← foldl_add_filter start code', ← foldl_add_filter start code]
  exact foldl_add_perm start h

end Features

/-! ## The length of decoded code -/

namespace Instruction

theorem Encoding.length_pos {pool : ConstantPool} {start : Nat} {bs : Bytes} {x : Instruction}
    (h : Encoding pool start bs x) : 0 < bs.length := by
  cases h <;> simp

theorem length_le_of_series {pool : ConstantPool} {o : Nat} {bs : Bytes} {xs : List Instruction}
    (h : Format.Series (Encoding pool) o bs xs) : xs.length ≤ bs.length := by
  induction h with
  | nil => exact Nat.le_refl _
  | cons hx _ ih =>
      have hpos := hx.length_pos
      simp only [List.length_cons, List.length_append]
      omega

theorem length_le_of_decode {pool : ConstantPool} {code : Bytes} {xs : List Instruction}
    (h : decode pool code = .ok xs) : xs.length ≤ code.length := by
  obtain ⟨_, rfl, hseries⟩ := decodeAfter_eq_ok_iff.mp h
  exact length_le_of_series hseries

end Instruction

namespace RawMember

variable {pool : ConstantPool} {raw : RawMember} {m : Method}

/-- The bytes are the code array of a method: they stand in the last of its attributes named `Code`, after four bytes and
their length. -/
def HasCode (pool : ConstantPool) (raw : RawMember) (code : Bytes) : Prop :=
  ∃ before a after head rest, raw.attributes = before ++ a :: after ∧ pool.utf8 a.name.toNat = .ok "Code" ∧
    (∀ later ∈ after, pool.utf8 later.name.toNat ≠ .ok "Code") ∧ head.length = 4 ∧
      a.body = head ++ (Bytes.word 4 code.length ++ (code ++ rest))

/-- The method has the instructions of its code array, no more than that has bytes, or none if it has no code array. -/
def Bounds (pool : ConstantPool) (raw : RawMember) (m : Method) : Prop :=
  (m.code = [] ∧ ∀ a ∈ raw.attributes, pool.utf8 a.name.toNat ≠ .ok "Code") ∨
    ∃ code, raw.HasCode pool code ∧ Instruction.decode pool code = .ok m.code ∧
      m.code.length ≤ code.length ∧ code.length ≤ 2 ^ 32 - 1

/-- Of several attributes named `Code` the last one has the code that counts. -/
theorem last_code_cases {attributes : List RawAttribute} {codes : List (Option (List Instruction))}
    (h : List.Forall₂ (RawAttribute.Says pool) attributes codes) (first : List Instruction) :
    ((codes.filterMap id).getLastD first = first ∧ ∀ a ∈ attributes, pool.utf8 a.name.toNat ≠ .ok "Code") ∨
      ∃ before a after xs, attributes = before ++ a :: after ∧ a.Says pool (some xs) ∧
        (∀ later ∈ after, pool.utf8 later.name.toNat ≠ .ok "Code") ∧ (codes.filterMap id).getLastD first = xs := by
  induction h generalizing first with
  | nil => exact .inl ⟨rfl, by simp⟩
  | @cons a found attributes codes ha _ ih =>
      cases found with
      | none =>
          rw [List.filterMap_cons_none rfl]
          cases ha with
          | @other name hname hne =>
              have hnot : pool.utf8 a.name.toNat ≠ .ok "Code" := by
                rw [hname]
                exact fun h => hne (Except.ok.inj h)
              rcases ih first with ⟨hlast, hnone⟩ | ⟨before, b, after, xs, rfl, hb, hafter, hlast⟩
              · exact .inl ⟨hlast, List.forall_mem_cons.mpr ⟨hnot, hnone⟩⟩
              · exact .inr ⟨a :: before, b, after, xs, rfl, hb, hafter, hlast⟩
      | some xs =>
          rw [List.filterMap_cons_some (f := id) rfl, List.getLastD_cons]
          rcases ih xs with ⟨hlast, hnone⟩ | ⟨before, b, after, ys, rfl, hb, hafter, hlast⟩
          · exact .inr ⟨[], a, attributes, xs, rfl, ha, hnone, hlast⟩
          · exact .inr ⟨a :: before, b, after, ys, rfl, hb, hafter, hlast⟩

theorem Describes.bounds (h : raw.Describes pool m) : raw.Bounds pool m := by
  obtain ⟨codes, hcodes, hcode⟩ := h.code
  rcases last_code_cases hcodes [] with ⟨hlast, hnone⟩ | ⟨before, a, after, xs, hsplit, ha, hafter, hlast⟩
  · exact .inl ⟨hcode.trans hlast, hnone⟩
  · cases ha with
    | @code head code rest _ hname hhead hbody hdecode =>
        rw [← hcode.trans hlast] at hdecode
        have hshort := a.short
        rw [hbody] at hshort
        simp only [List.length_append] at hshort
        exact .inr ⟨code, ⟨before, a, after, head, rest, hsplit, hname, hafter, hhead, hbody⟩, hdecode,
          Instruction.length_le_of_decode hdecode, by omega⟩

theorem Bounds.length_lt (h : raw.Bounds pool m) : m.code.length < 2 ^ 32 := by
  rcases h with ⟨hnil, -⟩ | ⟨code, -, -, hle, hmax⟩
  · simp [hnil]
  · omega

theorem length_lt_of_bounds {raws : List RawMember} {ms : List Method} (h : List.Forall₂ (Bounds pool) raws ms) :
    ∀ m ∈ ms, m.code.length < 2 ^ 32 := by
  induction h with
  | nil => simp
  | cons hm _ ih => exact List.forall_mem_cons.mpr ⟨hm.length_lt, ih⟩

end RawMember

namespace ClassFile

theorem bounds_of_decode {bs : Bytes} {file : ClassFile} (h : decode bs = .ok file) :
    ∃ (raw : RawClass) (pool : ConstantPool) (trailing : Bytes), bs = raw.encode ++ trailing ∧ raw.Describes pool file ∧
      List.Forall₂ (RawMember.Bounds pool) raw.methods file.methods := by
  obtain ⟨_, trailing, rfl, raw, pool, rfl, hraw⟩ := follows_read.readAll_eq_ok.mp h
  exact ⟨raw, pool, trailing, rfl, hraw, hraw.methods.imp fun _ _ hm => hm.bounds⟩

end ClassFile

namespace Features

/-- From any features on, the counters go up by the numbers of instructions of their kinds until they stop at their
greatest value, and a flag is set if it was set before or some call goes out. So neither the order of the instructions nor
those of no kind make a difference. A method that was decoded has no more instructions than its code array has bytes, and
its counters never stop. -/
theorem counters_clipped_but_exact_when_decoded :
    (∀ (start : Features) (code : List Instruction), start.Extends code (code.foldl add start) ∧
      ∀ code' : List Instruction, (code'.filter fun x => !x.isOther).Perm (code.filter fun x => !x.isOther) →
        code'.foldl add start = code.foldl add start) ∧
    ∀ (bs : Bytes) (file : ClassFile), ClassFile.decode bs = .ok file →
      (∃ (raw : RawClass) (pool : ConstantPool) (trailing : Bytes), bs = raw.encode ++ trailing ∧
        raw.Describes pool file ∧ List.Forall₂ (RawMember.Bounds pool) raw.methods file.methods) ∧
      List.Forall₂ (fun m profile => profile.features.Exact m.code) file.methods
        (ClassProfile.ofClassFile file).methods := by
  constructor
  · intro start code
    exact ⟨extends_foldl_add start code, fun code' h => foldl_add_congr start h⟩
  · intro bs file h
    obtain ⟨raw, pool, trailing, hbs, hraw, hbounds⟩ := ClassFile.bounds_of_decode h
    refine ⟨⟨raw, pool, trailing, hbs, hraw, hbounds⟩, List.forall₂_map_right_iff.mpr (List.forall₂_same.mpr ?_)⟩
    intro m hm
    exact exact_ofCode (RawMember.length_lt_of_bounds hbounds m hm)

/-- Code that locks, calls a client, branches and returns. -/
def lockingCode : Bytes := [0xC2, 0xB8, 0, 9, 0x99, 0, 3, 0xB1]

def lockingInstructions : List Instruction :=
  [.monitorEnter, .call ⟨.static, some "PayClient", "run", "()V", "V"⟩, .conditionalBranch, .other 0xB1]

def lockingPool : ConstantPool :=
  ⟨#[none, some (.utf8 "Job"), some (.classRef 1), some (.utf8 "run"), some (.utf8 "()V"), some (.utf8 "Code"),
    some (.utf8 "PayClient"), some (.classRef 6), some (.nameAndType 3 4), some (.methodRef 7 8)]⟩

def lockingMethod : RawMember where
  access := 1
  name := 3
  descriptor := 4
  attributes := [⟨5, [0, 1, 0, 1] ++ (Bytes.word 4 lockingCode.length ++ (lockingCode ++ [0, 0, 0, 0])), by decide⟩]
  few := by decide

/-- A class with a method that has that code. -/
def lockingClass : RawClass where
  minor := 0
  major := 52
  constants := [0, 10, 1, 0, 3, 74, 111, 98, 7, 0, 1, 1, 0, 3, 114, 117, 110, 1, 0, 3, 40, 41, 86, 1, 0, 4, 67, 111, 100,
    101, 1, 0, 9, 80, 97, 121, 67, 108, 105, 101, 110, 116, 7, 0, 6, 12, 0, 3, 0, 4, 10, 0, 7, 0, 8]
  access := 0x21
  thisClass := 2
  superClass := 0
  interfaces := []
  fields := []
  methods := [lockingMethod]
  fewInterfaces := by decide
  fewFields := by decide
  fewMethods := by decide

theorem decode_lockingCode : Instruction.decode lockingPool lockingCode = .ok lockingInstructions := by
  refine Instruction.decodeAfter_eq_ok_iff.mpr ⟨lockingInstructions, rfl, ?_⟩
  exact Instruction.series_cons_iff.mpr ⟨_, ⟨1, [0xB8, 0, 9, 0x99, 0, 3, 0xB1]⟩, _, by decide +kernel, rfl,
    Instruction.series_cons_iff.mpr ⟨_, ⟨4, [0x99, 0, 3, 0xB1]⟩, _, by decide +kernel, rfl,
      Instruction.series_cons_iff.mpr ⟨_, ⟨7, [0xB1]⟩, _, by decide +kernel, rfl,
        Instruction.series_cons_iff.mpr ⟨_, ⟨8, []⟩, _, by decide +kernel, rfl, .nil⟩⟩⟩⟩

theorem decode_lockingClass : ClassFile.decode lockingClass.encode = .ok ⟨"Job", [⟨"run", 1, lockingInstructions⟩]⟩ := by
  have hname : lockingPool.utf8 (UInt16.toNat 5) = .ok "Code" := by decide +kernel
  have hmethod : lockingMethod.Describes lockingPool ⟨"run", 1, lockingInstructions⟩ :=
    ⟨rfl, by decide +kernel, ⟨"()V", by decide +kernel⟩, [some lockingInstructions],
      .cons (.code hname (Eq.refl [0, 1, 0, 1].length) rfl decode_lockingCode) .nil, rfl⟩
  have hclass : lockingClass.Describes lockingPool ⟨"Job", [⟨"run", 1, lockingInstructions⟩]⟩ :=
    ⟨by decide, by decide +kernel, ⟨"Job", by decide +kernel, by decide +kernel⟩, .cons hmethod .nil⟩
  exact ClassFile.follows_read.readAll_eq_ok.mpr ⟨_, [], (List.append_nil _).symm, lockingClass, lockingPool, rfl, hclass⟩

theorem counters_clipped_but_exact_when_decoded_locking :
    ClassFile.decode lockingClass.encode = .ok ⟨"Job", [⟨"run", 1, lockingInstructions⟩]⟩ ∧
      ofCode lockingInstructions = { monitors := 1, calls := 1, branches := 1, callsClient := true } ∧
      (ofCode lockingInstructions).Exact lockingInstructions ∧
      ofCode [.other 0x00, .conditionalBranch, .monitorEnter, .call ⟨.static, some "PayClient", "run", "()V", "V"⟩] =
        ofCode lockingInstructions := by
  obtain ⟨hcounters, hdecoded⟩ := counters_clipped_but_exact_when_decoded
  refine ⟨decode_lockingClass, by decide +kernel, ?_, (hcounters {} lockingInstructions).2 _ (by decide +kernel)⟩
  obtain ⟨-, hexact⟩ := hdecoded _ _ decode_lockingClass
  cases hexact with
  | cons hrun _ => exact hrun

end Features

end MethodScout
