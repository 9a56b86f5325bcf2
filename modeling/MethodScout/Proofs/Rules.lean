import Mathlib.Data.Nat.Bitwise
import MethodScout.Classification

/-!
# Rules of the categories

The features of a method are gathered in one pass, with counters that stop at their greatest value. `Category.Rule` says
of the access flags and the instructions themselves which methods a category takes. The categories of a class are filled
method by method; `ByCategory.Collects` is what every step of that keeps.
-/

namespace MethodScout

/-- The text has the tail at its end. -/
def Text.EndsIn (tail text : String) : Prop := ∃ before : String, text = before ++ tail

theorem Text.endsWith_iff {tail text : String} : Text.endsWith tail text = true ↔ Text.EndsIn tail text := by
  rw [Text.endsWith, List.isSuffixOf_iff_suffix]
  refine ⟨fun ⟨before, h⟩ => ⟨String.ofList before, ?_⟩, fun ⟨before, h⟩ => ⟨before.toList, ?_⟩⟩
  · rw [← String.toList_inj, String.toList_append, String.toList_ofList, h]
  · rw [h, String.toList_append]

namespace Instruction

def isMonitorEnter : Instruction → Bool
  | .monitorEnter => true
  | _ => false

def isCall : Instruction → Bool
  | .call _ => true
  | _ => false

/-- Whether the instruction is a conditional branch or a switch. -/
def isBranch : Instruction → Bool
  | .conditionalBranch | .switch _ => true
  | _ => false

def reaches (d : Dependency) : Instruction → Bool
  | .call c => c.reaches d
  | _ => false

end Instruction

/-! ## Counting -/

theorem toNat_countUp (n : UInt32) : (countUp n).toNat = min (n.toNat + 1) (2 ^ 32 - 1) := by
  have hlt := n.toNat_lt
  unfold countUp
  split
  · rename_i heq
    subst heq
    rfl
  · rename_i hne
    have hne : n.toNat ≠ 2 ^ 32 - 1 := fun h => hne (UInt32.toNat_inj.mp h)
    rw [UInt32.toNat_add, UInt32.toNat_one]
    omega

/-- Counts the instructions that `p` holds of, from `n` on. -/
def Features.tally (p : Instruction → Bool) (n : UInt32) (code : List Instruction) : UInt32 :=
  code.foldl (fun n x => if p x then countUp n else n) n

namespace Features

theorem toNat_tally (p : Instruction → Bool) (n : UInt32) (code : List Instruction) :
    (tally p n code).toNat = min (n.toNat + code.countP p) (2 ^ 32 - 1) := by
  induction code generalizing n with
  | nil =>
      have hlt := n.toNat_lt
      simp only [tally, List.foldl_nil, List.countP_nil]
      omega
  | cons x code ih =>
      simp only [tally, List.foldl_cons] at ih ⊢
      rw [ih]
      by_cases hx : p x = true
      · rw [if_pos hx, toNat_countUp, List.countP_cons_of_pos hx]
        omega
      · rw [if_neg hx, List.countP_cons_of_neg hx]

theorem le_tally_iff (p : Instruction → Bool) (threshold : UInt32) (code : List Instruction) :
    threshold ≤ tally p 0 code ↔ threshold.toNat ≤ code.countP p := by
  -- no threshold is beyond the value that counters stop at
  have hlt := threshold.toNat_lt
  rw [UInt32.le_iff_toNat_le, toNat_tally, UInt32.toNat_zero]
  omega

theorem tally_pos_iff (p : Instruction → Bool) (code : List Instruction) :
    0 < tally p 0 code ↔ ∃ x ∈ code, p x = true := by
  rw [← List.countP_pos_iff, UInt32.lt_iff_toNat_lt, toNat_tally, UInt32.toNat_zero]
  omega

theorem add_eq (f : Features) (x : Instruction) : f.add x =
    { monitors := if x.isMonitorEnter then countUp f.monitors else f.monitors
      calls := if x.isCall then countUp f.calls else f.calls
      branches := if x.isBranch then countUp f.branches else f.branches
      callsClient := f.callsClient || x.reaches .client
      callsRepository := f.callsRepository || x.reaches .repository } := by
  cases x <;> simp [add, Instruction.isMonitorEnter, Instruction.isCall, Instruction.isBranch, Instruction.reaches]

theorem foldl_add (f : Features) (code : List Instruction) : code.foldl add f =
    { monitors := tally Instruction.isMonitorEnter f.monitors code
      calls := tally Instruction.isCall f.calls code
      branches := tally Instruction.isBranch f.branches code
      callsClient := f.callsClient || code.any (Instruction.reaches .client)
      callsRepository := f.callsRepository || code.any (Instruction.reaches .repository) } := by
  induction code generalizing f with
  | nil => simp [tally]
  | cons x code ih =>
      rw [List.foldl_cons, ih, add_eq]
      simp [tally, Bool.or_assoc]

end Features

/-! ## The rules -/

/-- Some call with an owner of the kind gives back neither such a class nor a builder. -/
def Method.CallsOut (d : Dependency) (m : Method) : Prop :=
  ∃ call owner, .call call ∈ m.code ∧ call.owner = some owner ∧ Text.EndsIn d.suffix owner ∧
    ¬Text.EndsIn d.suffix call.returnType ∧ ¬Text.EndsIn "Builder" call.returnType

/-- What a category asks of a method of the class `className`. -/
def Category.Rule (settings : Settings) (className : String) (m : Method) : Category → Prop
  | .synchronized => m.access &&& 0x0020 ≠ 0 ∨ .monitorEnter ∈ m.code
  | .clientCall => m.CallsOut .client ∧ ¬Text.EndsIn "Client" className
  | .repositoryCall => m.CallsOut .repository ∧ ¬Text.EndsIn "Repository" className
  | .highCallCount => settings.callThreshold.toNat ≤ m.code.countP Instruction.isCall
  | .highBranchCount => settings.branchThreshold.toNat ≤ m.code.countP Instruction.isBranch

/-- A rule depends on nothing of the settings but the threshold of its category. -/
theorem Category.rule_congr {s s' : Settings} {k : Category} (hcalls : k = .highCallCount → s'.callThreshold = s.callThreshold)
    (hbranches : k = .highBranchCount → s'.branchThreshold = s.branchThreshold) {c : String} {m : Method} :
    k.Rule s' c m ↔ k.Rule s c m := by
  cases k with
  | highCallCount =>
      unfold Rule
      rw [hcalls rfl]
  | highBranchCount =>
      unfold Rule
      rw [hbranches rfl]
  | _ => exact Iff.rfl

theorem Method.isSynchronized_iff {m : Method} : m.isSynchronized = true ↔ m.access &&& 0x0020 ≠ 0 := by
  rw [isSynchronized, show 0x0020 = 2 ^ 5 from rfl, Nat.and_two_pow]
  cases m.access.testBit 5 with
  | false => simp
  | true => simp

theorem Call.reaches_iff {call : Call} {d : Dependency} : call.reaches d = true ↔
    ∃ owner, call.owner = some owner ∧ Text.EndsIn d.suffix owner ∧
      ¬Text.EndsIn d.suffix call.returnType ∧ ¬Text.EndsIn "Builder" call.returnType := by
  unfold Call.reaches
  cases call.owner with
  | none => simp
  | some owner =>
      simp only [Dependency.names, Bool.and_eq_true, Bool.not_eq_true', bne_iff_ne, ← Bool.not_eq_true,
        Text.endsWith_iff, Option.some.injEq, exists_eq_left']
      refine ⟨fun ⟨⟨⟨_, howner⟩, hreturn⟩, hbuilder⟩ => ⟨howner, hreturn, hbuilder⟩, fun ⟨howner, hreturn, hbuilder⟩ => ?_⟩
      -- an owner that is also the return type would make that end in the suffix
      exact ⟨⟨⟨fun heq => hreturn (heq ▸ howner), howner⟩, hreturn⟩, hbuilder⟩

theorem Instruction.any_reaches_iff {code : List Instruction} {d : Dependency} :
    code.any (reaches d) = true ↔ ∃ c, .call c ∈ code ∧ c.reaches d = true := by
  rw [List.any_eq_true]
  constructor
  · intro h
    obtain ⟨x, hx, hreaches⟩ := h
    cases x with
    | call c => exact ⟨c, hx, hreaches⟩
    | _ => cases hreaches
  · intro h
    obtain ⟨c, hc, hreaches⟩ := h
    exact ⟨.call c, hc, hreaches⟩

theorem Method.any_reaches_iff {m : Method} {d : Dependency} :
    m.code.any (Instruction.reaches d) = true ↔ m.CallsOut d := by
  simp only [Instruction.any_reaches_iff, Call.reaches_iff, CallsOut, exists_and_left]

theorem Category.admits_iff_rule (settings : Settings) (className : String) (m : Method) (k : Category) :
    k.admits settings className (.ofMethod m) = true ↔ k.Rule settings className m := by
  have hfeatures := Features.foldl_add {} m.code
  unfold admits MethodProfile.ofMethod Features.ofCode
  rw [hfeatures]
  cases k with
  | synchronized =>
      have hmonitor : (∃ x ∈ m.code, x.isMonitorEnter = true) ↔ .monitorEnter ∈ m.code := by
        refine ⟨fun ⟨x, hx, hmonitor⟩ => ?_, fun h => ⟨_, h, rfl⟩⟩
        cases x with
        | monitorEnter => exact hx
        | _ => cases hmonitor
      simp only [Rule, Bool.or_eq_true, decide_eq_true_eq, Method.isSynchronized_iff, Features.tally_pos_iff, hmonitor]
  | clientCall =>
      simp [Rule, ← Method.any_reaches_iff, ← Text.endsWith_iff, Dependency.names, Dependency.suffix]
  | repositoryCall =>
      simp [Rule, ← Method.any_reaches_iff, ← Text.endsWith_iff, Dependency.names, Dependency.suffix]
  | highCallCount => simp [Rule, Features.le_tally_iff]
  | highBranchCount => simp [Rule, Features.le_tally_iff]

/-! ## Filling the categories -/

/-- Every category is there, with the names that are related to it. -/
def ByCategory.Collects (table : ByCategory (Option NameSet)) (P : Category → String → Prop) : Prop :=
  ∀ k, ∃ names, table.get k = some names ∧ ∀ x, x ∈ names ↔ P k x

section

variable {settings : Settings} {className : String} {table : ByCategory (Option NameSet)} {P Q : Category → String → Prop}

theorem ByCategory.Collects.congr (h : table.Collects P) (hPQ : ∀ k x, P k x ↔ Q k x) : table.Collects Q := by
  intro k
  obtain ⟨names, hnames, hmem⟩ := h k
  exact ⟨names, hnames, fun x => (hmem x).trans (hPQ k x)⟩

/-- One category that admits the method gets its name, and all others stay as they are. -/
theorem ByCategory.Collects.enroll (h : table.Collects P) (m : MethodProfile) (k : Category) :
    (k.enroll settings className m table).Collects fun j x =>
      P j x ∨ j = k ∧ k.admits settings className m = true ∧ x = m.name := by
  intro j
  obtain ⟨names, hnames, hmem⟩ := h j
  unfold Category.enroll
  split
  · rename_i hadmits
    by_cases hj : j = k
    · subst hj
      refine ⟨names.insert m.name, by simp [hnames], fun x => ?_⟩
      simp [hmem, hadmits, or_comm]
    · exact ⟨names, by simpa [hj] using hnames, fun x => by simp [hmem, hj]⟩
  · rename_i hrefuses
    exact ⟨names, hnames, fun x => by simp [hmem, hrefuses]⟩

theorem ByCategory.Collects.foldl_enroll (h : table.Collects P) (m : MethodProfile) (ks : List Category) :
    (ks.foldl (Category.enroll settings className m) table).Collects fun j x =>
      P j x ∨ j ∈ ks ∧ j.admits settings className m = true ∧ x = m.name := by
  induction ks generalizing table P with
  | nil => exact h.congr fun _ _ => by simp
  | cons k ks ih =>
      refine (ih (h.enroll m k)).congr fun j x => ?_
      rw [List.mem_cons, or_and_right, or_assoc]
      refine or_congr_right (or_congr_left (and_congr_right fun hj => ?_))
      rw [hj]

/-- One method is put into all categories that admit it. -/
theorem ByCategory.Collects.enroll_method (h : table.Collects P) (m : MethodProfile) :
    (m.enroll settings className table).Collects fun k x =>
      P k x ∨ k.admits settings className m = true ∧ x = m.name :=
  (h.foldl_enroll m Category.all).congr fun k x => by simp [Category.mem_all]

theorem ByCategory.Collects.foldl_enroll_method (h : table.Collects P) (ms : List MethodProfile) :
    (ms.foldl (MethodProfile.enroll settings className) table).Collects fun k x =>
      P k x ∨ ∃ m ∈ ms, k.admits settings className m = true ∧ x = m.name := by
  induction ms generalizing table P with
  | nil => exact h.congr fun _ _ => by simp
  | cons m ms ih => exact (ih (h.enroll_method m)).congr fun _ _ => by simp [or_assoc]

end

namespace ClassProfile

/-- What the loop over the methods leaves in the categories. -/
theorem collects_classify (settings : Settings) (c : ClassProfile) :
    (c.classify settings).categories.Collects fun k x =>
      ∃ m ∈ c.methods, m.name = x ∧ settings.filter.excludes x = false ∧ k.admits settings c.name m = true := by
  have hstart : (ByCategory.ofFn fun _ => some (∅ : NameSet)).Collects fun _ _ => False :=
    fun k => ⟨∅, by simp, fun x => by simp⟩
  refine (hstart.foldl_enroll_method _).congr fun k x => ?_
  simp only [false_or, List.mem_filter, Bool.not_eq_true']
  constructor
  · rintro ⟨m, ⟨hm, hkept⟩, hadmits, rfl⟩
    exact ⟨m, hm, rfl, hkept, hadmits⟩
  · rintro ⟨m, hm, rfl, hkept, hadmits⟩
    exact ⟨m, ⟨hm, hkept⟩, hadmits, rfl⟩

theorem mem_classify_iff {settings : Settings} {c : ClassProfile} {k : Category} {x : String} :
    x ∈ (c.classify settings).methods.get k ↔
      ∃ m ∈ c.methods, m.name = x ∧ settings.filter.excludes x = false ∧ k.admits settings c.name m = true := by
  obtain ⟨names, hnames, hmem⟩ := collects_classify settings c k
  rw [Classification.methods, ByCategory.get_ofFn, hnames, Option.getD_some, hmem]

theorem mem_classify {settings : Settings} {file : ClassFile} {k : Category} {x : String} :
    x ∈ ((ClassProfile.ofClassFile file).classify settings).methods.get k ↔
      ∃ m ∈ file.methods, m.name = x ∧ settings.filter.excludes x = false ∧ k.Rule settings file.name m := by
  rw [mem_classify_iff]
  constructor
  · rintro ⟨_, hmem, rfl, hkept, hadmits⟩
    obtain ⟨m, hm, rfl⟩ := List.mem_map.mp hmem
    exact ⟨m, hm, rfl, hkept, (Category.admits_iff_rule settings file.name m k).mp hadmits⟩
  · rintro ⟨m, hm, rfl, hkept, hrule⟩
    exact ⟨.ofMethod m, List.mem_map.mpr ⟨m, hm, rfl⟩, rfl, hkept,
      (Category.admits_iff_rule settings file.name m k).mpr hrule⟩

end ClassProfile

end MethodScout
