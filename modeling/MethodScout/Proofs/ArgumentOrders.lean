import MethodScout.CommandLine.Arguments
import MethodScout.Proofs.Aggregation
import MethodScout.Proofs.Attempts

/-!
# Arguments in any order

`Arguments.Arranges` says that a list of words, each of them one argument, holds what arguments say, in any order. Reading
the texts of such words gives the arguments back. The parser keeps paths and values back until it meets the next argument;
on words that carry their values this comes to taking in one word after the other.
-/

namespace MethodScout

/-- The name of an option on the command line. -/
def ValueOption.name : ValueOption → String
  | .callThreshold => "call-threshold"
  | .branchThreshold => "branch-threshold"
  | .exclude => "exclude"
  | .property => "property"
  | .envVar => "env-var"
  | .format => "format"
  | .output => "output"
  | .logLevel => "log-level"

/-- The name of a switch on the command line. -/
def Switch.name : Switch → String
  | .noDefaultExclusions => "no-default-exclusions"
  | .excludeAccessors => "exclude-accessors"
  | .excludeLambdas => "exclude-lambdas"
  | .includeNested => "include-nested"
  | .skipInvalid => "skip-invalid"

theorem OutputFormat.ofName?_name (f : OutputFormat) : ofName? f.name = some f := by
  cases f <;> decide

theorem LogLevel.ofName?_name (l : LogLevel) : ofName? l.name = some l := by
  cases l <;> decide

namespace Arguments

/-- One argument: an option with its value, a switch or a path. -/
inductive Word where
  | option (option : ValueOption) (value : String)
  | switch (switch : Switch)
  | path (path : String)

namespace Word

def text : Word → String
  | .option o v => "--" ++ o.name ++ "=" ++ v
  | .switch s => "--" ++ s.name
  | .path p => p

/-- The value that the word gives to an option. -/
def value? (o : ValueOption) : Word → Option String
  | .option o' v => if o' = o then some v else none
  | _ => none

def switch? : Word → Option Switch
  | .switch s => some s
  | _ => none

def path? : Word → Option String
  | .path p => some p
  | _ => none

/-- Takes in what a word says. -/
def apply (a : Arguments) : Word → Except Stop Arguments
  | .option o v => a.store o v
  | .switch s => a.turnOn s
  | .path p => .ok { a with paths := a.paths ++ [p] }

end Word

/-! ## One word after the other -/

/-- The path is there and does not look like an option. -/
def IsPath (path : String) : Prop := path ≠ "" ∧ path.toList.head? ≠ some '-'

theorem ofText_value {name value : String} (hne : name ≠ "") (hname : '=' ∉ name.toList) :
    Token.ofText ("--" ++ name ++ "=" ++ value) = .ofLong name (some value) := by
  have hall : ∀ c ∈ name.toList, (c != '=') = true := fun c hc => bne_iff_ne.mpr fun heq => hname (heq ▸ hc)
  obtain ⟨c, cs, hcs⟩ : ∃ c cs, name.toList = c :: cs := List.exists_cons_of_ne_nil (by simpa using hne)
  have htext : ("--" ++ name ++ "=" ++ value).toList = '-' :: '-' :: c :: (cs ++ '=' :: value.toList) := by simp [hcs]
  have htake : (c :: (cs ++ '=' :: value.toList)).takeWhile (· != '=') = name.toList := by
    rw [← List.cons_append, ← hcs, List.takeWhile_append_of_pos hall]
    simp
  have hdrop : (c :: (cs ++ '=' :: value.toList)).dropWhile (· != '=') = '=' :: value.toList := by
    rw [← List.cons_append, ← hcs, List.dropWhile_append_of_pos hall]
    simp
  unfold Token.ofText
  simp only [htext, htake, hdrop, String.ofList_toList]

theorem ofText_option (o : ValueOption) (v : String) : Token.ofText (Word.option o v).text = .option o (some v) := by
  have hne : o.name ≠ "" := by cases o <;> decide
  have hname : '=' ∉ o.name.toList := by cases o <;> decide
  have hlookup : ValueOption.names.lookup o.name = some o := by cases o <;> decide
  rw [Word.text, ofText_value hne hname, Token.ofLong, hlookup]

theorem ofText_switch (s : Switch) : Token.ofText (Word.switch s).text = .switch s false := by
  cases s <;> decide

theorem ofText_path {path : String} (h : IsPath path) : Token.ofText (Word.path path).text = .word path := by
  obtain ⟨hne, hdash⟩ := h
  obtain ⟨c, cs, hcs⟩ : ∃ c cs, path.toList = c :: cs := List.exists_cons_of_ne_nil (by simpa using hne)
  have hc : c ≠ '-' := by simpa [hcs] using hdash
  unfold Token.ofText
  simp only [Word.text, hcs]
  split <;> simp_all

variable {a b b' : Arguments} {p : Progress} {w : Word} {ws : List Word}

theorem addPaths_eq_ok_iff {paths : List String} :
    b.addPaths paths = .ok b' ↔ (∀ path ∈ paths, path ≠ "") ∧ b' = { b with paths := b.paths ++ paths } := by
  have hone {path path' : String} : expect .invalidValue (nonempty? path) = .ok path' ↔ path ≠ "" ∧ path' = path := by
    by_cases h : path = ""
    · simp [expect, nonempty?, h]
    · simp [expect, nonempty?, h, eq_comm]
  have hall {paths' : List String} : (paths.mapM fun path => expect .invalidValue (nonempty? path)) = .ok paths' ↔
      (∀ path ∈ paths, path ≠ "") ∧ paths' = paths := by
    rw [Attempt.mapM_eq_ok]
    simp only [hone]
    induction paths generalizing paths' with
    | nil => simp
    | cons path paths ih =>
        simp only [List.forall₂_cons_left_iff, ih, List.forall_mem_cons]
        constructor
        · rintro ⟨_, _, ⟨hpath, rfl⟩, ⟨hpaths, rfl⟩, rfl⟩
          exact ⟨⟨hpath, hpaths⟩, rfl⟩
        · rintro ⟨⟨hpath, hpaths⟩, rfl⟩
          exact ⟨path, paths, ⟨hpath, rfl⟩, ⟨hpaths, rfl⟩, rfl⟩
  rw [addPaths, Attempt.bind_eq_ok]
  simp only [hall]
  constructor
  · rintro ⟨_, ⟨hpaths, rfl⟩, h⟩
    cases h
    exact ⟨hpaths, rfl⟩
  · rintro ⟨hpaths, rfl⟩
    exact ⟨paths, ⟨hpaths, rfl⟩, rfl⟩

namespace Progress

theorem settle_paths {paths : List String} (hpending : p.pending = .paths paths) :
    p.settle = p.arguments.addPaths paths := by
  simp [settle, hpending]

theorem exists_addPath {path : String} (hne : path ≠ "") (hsettled : p.settle = .ok b) :
    ∃ p' : Progress, p.addPath path = .ok p' ∧ p'.onlyPaths = p.onlyPaths ∧
      p'.settle = .ok { b with paths := b.paths ++ [path] } := by
  cases hpending : p.pending with
  | paths paths =>
      obtain ⟨hpaths, rfl⟩ := addPaths_eq_ok_iff.mp (settle_paths hpending ▸ hsettled)
      refine ⟨{ p with pending := .paths (paths ++ [path]) }, ?_, rfl, ?_⟩
      · simp [addPath, hpending, pure, Except.pure]
      · refine addPaths_eq_ok_iff.mpr ⟨?_, by simp⟩
        simpa [or_imp, forall_and, hne] using hpaths
  | _ =>
      refine ⟨{ p with arguments := b, pending := .paths [path] }, ?_, rfl, ?_⟩
      · simp [addPath, hpending, hsettled, bind, Except.bind, pure, Except.pure]
      · exact addPaths_eq_ok_iff.mpr ⟨by simpa using hne, rfl⟩

/-- What is pending is taken in before a word is, so the word does to what is settled what it says. -/
theorem exists_step (hopen : p.onlyPaths = false) (hsettled : p.settle = .ok b) (hw : w.apply b = .ok b')
    (hpath : ∀ path, w = .path path → IsPath path) :
    ∃ p' : Progress, p.step w.text = .ok p' ∧ p'.onlyPaths = false ∧ p'.settle = .ok b' := by
  cases w with
  | option o v =>
      refine ⟨{ p with arguments := b', pending := .nothing }, ?_, hopen, rfl⟩
      rw [Word.apply] at hw
      simp [step, hopen, ofText_option, hsettled, hw, bind, Except.bind, pure, Except.pure]
  | switch s =>
      refine ⟨{ p with arguments := b', pending := .nothing }, ?_, hopen, rfl⟩
      rw [Word.apply] at hw
      simp [step, hopen, ofText_switch, hsettled, hw, bind, Except.bind, pure, Except.pure]
  | path path =>
      cases hw
      have hpath := hpath path rfl
      obtain ⟨p', hp', hopen', hsettled'⟩ := exists_addPath hpath.1 hsettled
      refine ⟨p', ?_, hopen'.trans hopen, hsettled'⟩
      rw [← hp']
      simp only [step, hopen, Bool.false_eq_true, ↓reduceIte, ofText_path hpath]
      -- no option waits for a value, since what is pending can be settled
      cases hpending : p.pending with
      | option o => simp [settle, hpending] at hsettled
      | _ => rfl

theorem exists_foldlM_step (hopen : p.onlyPaths = false) (hsettled : p.settle = .ok b)
    (hws : ws.foldlM Word.apply b = .ok b') (hpaths : ∀ path, .path path ∈ ws → IsPath path) :
    ∃ p' : Progress, (ws.map Word.text).foldlM step p = .ok p' ∧ p'.settle = .ok b' := by
  induction ws generalizing p b with
  | nil =>
      cases hws
      exact ⟨p, rfl, hsettled⟩
  | cons w ws ih =>
      rw [List.foldlM_cons, Attempt.bind_eq_ok] at hws
      obtain ⟨b₁, hw, hws⟩ := hws
      obtain ⟨p₁, hp₁, hopen₁, hsettled₁⟩ := exists_step hopen hsettled hw fun path hpath => hpaths path (by simp [hpath])
      obtain ⟨p', hp', hsettled'⟩ := ih hopen₁ hsettled₁ hws fun path hpath => hpaths path (List.mem_cons_of_mem _ hpath)
      refine ⟨p', ?_, hsettled'⟩
      rw [List.map_cons, List.foldlM_cons, hp₁]
      exact hp'

end Progress

theorem parse_eq_ok (hws : ws.foldlM Word.apply {} = .ok b) (hpaths : ∀ path, .path path ∈ ws → IsPath path) :
    parse (ws.map Word.text) = .ok b := by
  obtain ⟨p, hp, hsettled⟩ := Progress.exists_foldlM_step (p := {}) rfl rfl hws hpaths
  rw [parse, hp]
  exact hsettled

/-! ## Words in any order -/

/-- The values that the arguments give to an option, as they are written. -/
def values (a : Arguments) : ValueOption → List String
  | .callThreshold => a.callThreshold.toList.map fun n => n.toNat.repr
  | .branchThreshold => a.branchThreshold.toList.map fun n => n.toNat.repr
  | .exclude => a.excludes
  | .property => a.property.toList
  | .envVar => a.envVar.toList
  | .format => a.format.toList.map OutputFormat.name
  | .output => a.output.toList
  | .logLevel => a.logLevel.toList.map LogLevel.name

/-- The words hold what the arguments say, in any order: for each option one word for every value, the values of one
option in their order; one word for each switch that is on; and the paths in their order. -/
structure Arranges (a : Arguments) (ws : List Word) : Prop where
  values : ∀ o, ws.filterMap (Word.value? o) = a.values o
  switches : (ws.filterMap Word.switch?).Perm a.switches
  paths : ws.filterMap Word.path? = a.paths

/-- The arguments can be written: no switch is given twice, the output path is not empty, and the paths can be told from
options. -/
structure Writable (a : Arguments) : Prop where
  switches : a.switches.Nodup
  output : a.output ≠ some ""
  paths : ∀ path ∈ a.paths, IsPath path

theorem threshold?_repr (n : UInt32) : threshold? n.toNat.repr = some n := by
  have hdigits : ∀ c ∈ Nat.toDigits 10 n.toNat, c.isDigit = true := fun c hc =>
    Nat.isDigit_of_mem_toDigits (by decide) (by decide) hc
  obtain ⟨c, cs, hcs⟩ : ∃ c cs, Nat.toDigits 10 n.toNat = c :: cs :=
    List.exists_cons_of_ne_nil Nat.toDigits_ne_nil
  have hread : digits? (c :: cs) = some n.toNat := by
    rw [← hcs, digits?, if_pos ⟨by simp [hcs], List.all_eq_true.mpr hdigits⟩]
    exact congrArg some Nat.ofDigitChars_ten_toDigits
  have hc : c.isDigit = true := hdigits c (by simp [hcs])
  have hplus : c ≠ '+' := by
    rintro rfl
    simp at hc
  have hminus : c ≠ '-' := by
    rintro rfl
    simp at hc
  unfold threshold?
  rw [Nat.toList_repr, hcs]
  split
  · simp_all
  · simp_all
  · rw [hread]
    simp [Option.filter, n.toNat_lt]

/-- An option that is given once has one value, and none was taken in before it. -/
theorem exists_of_toList_map {α : Type} {x x' : Option α} {f : α → String} {rest : List String} {v : String}
    (h : x.toList.map f = x'.toList.map f ++ v :: rest) : ∃ y, x = some y ∧ v = f y ∧ x' = none := by
  cases x with
  | none => simp at h
  | some y =>
      cases x' with
      | none => exact ⟨y, rfl, by simpa [eq_comm] using (List.cons.inj h).1, rfl⟩
      | some y' => simp at h

theorem eq_some_of_toList {x x' : Option String} {rest : List String} {v : String}
    (h : x.toList = x'.toList ++ v :: rest) : x = some v ∧ x' = none := by
  have hmap : x.toList.map id = x'.toList.map id ++ v :: rest := by rwa [List.map_id, List.map_id]
  obtain ⟨_, hx, rfl, hnone⟩ := exists_of_toList_map hmap
  exact ⟨hx, hnone⟩

/-- One more value of an option. -/
theorem exists_store {o : ValueOption} {v : String} {rest : List String} (ha : a.Writable)
    (h : a.values o = b.values o ++ v :: rest) :
    ∃ b', b.store o v = .ok b' ∧ (∀ o', b'.values o' = if o' = o then b.values o ++ [v] else b.values o') ∧
      b'.switches = b.switches ∧ b'.paths = b.paths := by
  cases o with
  | callThreshold =>
      obtain ⟨n, -, rfl, hnone⟩ := exists_of_toList_map h
      refine ⟨{ b with callThreshold := some n }, ?_, fun o' => ?_, rfl, rfl⟩
      · simp [store, hnone, once, expect, threshold?_repr, bind, Except.bind, pure, Except.pure]
      · cases o' <;> simp [values, hnone]
  | branchThreshold =>
      obtain ⟨n, -, rfl, hnone⟩ := exists_of_toList_map h
      refine ⟨{ b with branchThreshold := some n }, ?_, fun o' => ?_, rfl, rfl⟩
      · simp [store, hnone, once, expect, threshold?_repr, bind, Except.bind, pure, Except.pure]
      · cases o' <;> simp [values, hnone]
  | exclude =>
      refine ⟨{ b with excludes := b.excludes ++ [v] }, rfl, fun o' => ?_, rfl, rfl⟩
      cases o' <;> simp [values]
  | property =>
      obtain ⟨-, hnone⟩ := eq_some_of_toList h
      refine ⟨{ b with property := some v }, ?_, fun o' => ?_, rfl, rfl⟩
      · simp [store, hnone, once, bind, Except.bind, pure, Except.pure]
      · cases o' <;> simp [values, hnone]
  | envVar =>
      obtain ⟨-, hnone⟩ := eq_some_of_toList h
      refine ⟨{ b with envVar := some v }, ?_, fun o' => ?_, rfl, rfl⟩
      · simp [store, hnone, once, bind, Except.bind, pure, Except.pure]
      · cases o' <;> simp [values, hnone]
  | format =>
      obtain ⟨f, -, rfl, hnone⟩ := exists_of_toList_map h
      refine ⟨{ b with format := some f }, ?_, fun o' => ?_, rfl, rfl⟩
      · simp [store, hnone, once, expect, OutputFormat.ofName?_name, bind, Except.bind, pure, Except.pure]
      · cases o' <;> simp [values, hnone]
  | output =>
      obtain ⟨houtput, hnone⟩ := eq_some_of_toList h
      have hne : v ≠ "" := fun heq => ha.output (heq ▸ houtput)
      refine ⟨{ b with output := some v }, ?_, fun o' => ?_, rfl, rfl⟩
      · simp [store, hnone, once, expect, nonempty?, hne, bind, Except.bind, pure, Except.pure]
      · cases o' <;> simp [values, hnone]
  | logLevel =>
      obtain ⟨l, -, rfl, hnone⟩ := exists_of_toList_map h
      refine ⟨{ b with logLevel := some l }, ?_, fun o' => ?_, rfl, rfl⟩
      · simp [store, hnone, once, expect, LogLevel.ofName?_name, bind, Except.bind, pure, Except.pure]
      · cases o' <;> simp [values, hnone]

variable {done rest : List Word}

/-- One more word of an arrangement is taken in. -/
theorem Arranges.exists_apply (ha : a.Writable) (hall : a.Arranges (done ++ w :: rest)) (hb : b.Arranges done) :
    ∃ b', w.apply b = .ok b' ∧ b'.Arranges (done ++ [w]) := by
  cases w with
  | option o v =>
      have hvalues : a.values o = b.values o ++ v :: rest.filterMap (Word.value? o) := by
        rw [← hall.values o, ← hb.values o, List.filterMap_append]
        simp [Word.value?]
      obtain ⟨b', hstore, hvalues', hswitches', hpaths'⟩ := exists_store ha hvalues
      refine ⟨b', hstore, fun o' => ?_, ?_, ?_⟩
      · rw [hvalues', List.filterMap_append, hb.values o']
        by_cases ho : o' = o
        · subst ho
          simp [Word.value?]
        · simp [Word.value?, ho, Ne.symm ho]
      · simpa [List.filterMap_append, List.filterMap_cons, Word.switch?, hswitches'] using hb.switches
      · simpa [List.filterMap_append, List.filterMap_cons, Word.path?, hpaths'] using hb.paths
  | switch s =>
      have hfresh : s ∉ b.switches := by
        have hnodup := hall.switches.nodup_iff.mpr ha.switches
        rw [List.filterMap_append, List.filterMap_cons] at hnodup
        intro hs
        have hdone := hb.switches.mem_iff.mpr hs
        exact (List.nodup_append.mp hnodup).2.2 s hdone s List.mem_cons_self rfl
      refine ⟨{ b with switches := b.switches ++ [s] }, by simp [Word.apply, turnOn, hfresh], fun o => ?_, ?_, ?_⟩
      · rw [List.filterMap_append, hb.values o]
        cases o <;> exact List.append_nil _
      · rw [List.filterMap_append]
        exact hb.switches.append_right [s]
      · rw [List.filterMap_append, hb.paths]
        exact List.append_nil _
  | path path =>
      refine ⟨{ b with paths := b.paths ++ [path] }, rfl, fun o => ?_, ?_, ?_⟩
      · rw [List.filterMap_append, hb.values o]
        cases o <;> exact List.append_nil _
      · rw [List.filterMap_append]
        exact (List.append_nil _).symm ▸ hb.switches
      · rw [List.filterMap_append, hb.paths]
        rfl

theorem Arranges.exists_foldlM_apply (ha : a.Writable) (hall : a.Arranges (done ++ rest)) (hb : b.Arranges done) :
    ∃ b', rest.foldlM Word.apply b = .ok b' ∧ b'.Arranges (done ++ rest) := by
  induction rest generalizing done b with
  | nil => exact ⟨b, rfl, by rwa [List.append_nil]⟩
  | cons w rest ih =>
      obtain ⟨b₁, hb₁, harranges⟩ := hall.exists_apply ha hb
      rw [List.append_cons] at hall ⊢
      obtain ⟨b', hb', harranges'⟩ := ih hall harranges
      refine ⟨b', ?_, harranges'⟩
      rw [List.foldlM_cons, hb₁]
      exact hb'

theorem arranges_nil : ({} : Arguments).Arranges [] :=
  ⟨fun o => by cases o <;> rfl, .nil, rfl⟩

theorem toList_injective {α : Type} : Function.Injective (@Option.toList α) := by
  intro x y h
  cases x <;> cases y <;> simp_all

theorem toList_map_injective {α : Type} {f : α → String} {g : String → Option α} (hfg : ∀ x, g (f x) = some x)
    {x y : Option α} (h : x.toList.map f = y.toList.map f) : x = y := by
  have hf : Function.Injective f := fun x y hxy => Option.some.inj (by rw [← hfg, hxy, hfg])
  exact toList_injective (List.map_injective_iff.mpr hf h)

/-- Arguments that are arranged in the same words differ at most in the order of their switches. -/
theorem Arranges.unique (ha : a.Arranges ws) (hb : b.Arranges ws) :
    b = { a with switches := b.switches } ∧ ∀ s, s ∈ b.switches ↔ s ∈ a.switches := by
  have hvalues (o : ValueOption) : b.values o = a.values o := by rw [← hb.values, ha.values]
  have hpaths : b.paths = a.paths := by rw [← hb.paths, ha.paths]
  refine ⟨?_, fun s => (hb.switches.symm.trans ha.switches).mem_iff⟩
  have hcall := toList_map_injective threshold?_repr (hvalues .callThreshold)
  have hbranch := toList_map_injective threshold?_repr (hvalues .branchThreshold)
  have hexcludes : b.excludes = a.excludes := hvalues .exclude
  have hproperty := toList_injective (hvalues .property)
  have hvariable := toList_injective (hvalues .envVar)
  have hformat := toList_map_injective OutputFormat.ofName?_name (hvalues .format)
  have houtput := toList_injective (hvalues .output)
  have hlevel := toList_map_injective LogLevel.ofName?_name (hvalues .logLevel)
  cases b
  simp_all

/-- Reading the words of arguments gives the arguments back, up to the order of the switches. -/
theorem Arranges.exists_parse (ha : a.Writable) (hws : a.Arranges ws) :
    ∃ b, parse (ws.map Word.text) = .ok b ∧ b = { a with switches := b.switches } ∧
      ∀ s, s ∈ b.switches ↔ s ∈ a.switches := by
  obtain ⟨b, hb, harranges⟩ : ∃ b, ws.foldlM Word.apply {} = .ok b ∧ b.Arranges ([] ++ ws) :=
    Arranges.exists_foldlM_apply ha hws arranges_nil
  have hpaths (path : String) (hpath : .path path ∈ ws) : IsPath path :=
    ha.paths path (hws.paths ▸ List.mem_filterMap.mpr ⟨.path path, hpath, rfl⟩)
  exact ⟨b, parse_eq_ok hb hpaths, hws.unique harranges⟩

/-! ## The settings asked for -/

/-- The settings are the ones that the arguments ask for. What is left out is a set of names: those that the arguments
give and, unless they say otherwise, the usual five. -/
structure Asks (a : Arguments) (s : Settings) : Prop where
  callThreshold : s.callThreshold = a.callThreshold.getD 10
  branchThreshold : s.branchThreshold = a.branchThreshold.getD 5
  names : ∀ x, x ∈ s.filter.names ↔ x ∈ a.excludes ∨
    .noDefaultExclusions ∉ a.switches ∧ x ∈ ["<init>", "<clinit>", "toString", "hashCode", "equals"]
  accessors : s.filter.accessors = true ↔ .excludeAccessors ∈ a.switches
  lambdas : s.filter.lambdas = true ↔ .excludeLambdas ∈ a.switches
  nested : s.includeNested = true ↔ .includeNested ∈ a.switches
  invalid : s.skipInvalid = true ↔ .skipInvalid ∈ a.switches
  property : s.propertyName = a.property.getD "otel.instrumentation.methods.include"
  envVar : s.variableName = a.envVar.getD "OTEL_INSTRUMENTATION_METHODS_INCLUDE"

theorem asks_settings (a : Arguments) : a.Asks a.settings where
  callThreshold := rfl
  branchThreshold := rfl
  names x := by
    have hkept : x ∈ (if .noDefaultExclusions ∈ a.switches then [] else MethodFilter.defaultNames) ↔
        .noDefaultExclusions ∉ a.switches ∧ x ∈ MethodFilter.defaultNames := by
      split <;> simp_all
    rw [settings, NameSet.mem_ofList, List.mem_append, hkept, or_comm]
    rfl
  accessors := decide_eq_true_iff
  lambdas := decide_eq_true_iff
  nested := decide_eq_true_iff
  invalid := decide_eq_true_iff
  property := rfl
  envVar := rfl

theorem Asks.unique {s t : Settings} (hs : a.Asks s) (ht : a.Asks t) : s = t := by
  obtain ⟨calls, branches, ⟨names, accessors, lambdas⟩, nested, invalid, property, envVar⟩ := s
  obtain ⟨calls', branches', ⟨names', accessors', lambdas'⟩, nested', invalid', property', envVar'⟩ := t
  have hnames : names = names' := NameSet.ext_mem fun x => (hs.names x).trans (ht.names x).symm
  have haccessors : accessors = accessors' := Bool.eq_iff_iff.mpr (hs.accessors.trans ht.accessors.symm)
  have hlambdas : lambdas = lambdas' := Bool.eq_iff_iff.mpr (hs.lambdas.trans ht.lambdas.symm)
  have hnested : nested = nested' := Bool.eq_iff_iff.mpr (hs.nested.trans ht.nested.symm)
  have hinvalid : invalid = invalid' := Bool.eq_iff_iff.mpr (hs.invalid.trans ht.invalid.symm)
  have hcalls : calls = calls' := hs.callThreshold.trans ht.callThreshold.symm
  have hbranches : branches = branches' := hs.branchThreshold.trans ht.branchThreshold.symm
  have hproperty : property = property' := hs.property.trans ht.property.symm
  have hvariable : envVar = envVar' := hs.envVar.trans ht.envVar.symm
  subst hnames haccessors hlambdas hnested hinvalid hcalls hbranches hproperty hvariable
  rfl

/-- Switches and names to leave out are asked for as sets. -/
theorem Asks.of_mem_iff {s : Settings} {switches : List Switch} {excludes : List String}
    (hswitches : ∀ x, x ∈ switches ↔ x ∈ a.switches) (hexcludes : ∀ x, x ∈ excludes ↔ x ∈ a.excludes)
    (h : ({ a with switches, excludes } : Arguments).Asks s) : a.Asks s where
  callThreshold := h.callThreshold
  branchThreshold := h.branchThreshold
  names x := by simpa only [hswitches, hexcludes] using h.names x
  accessors := h.accessors.trans (hswitches _)
  lambdas := h.lambdas.trans (hswitches _)
  nested := h.nested.trans (hswitches _)
  invalid := h.invalid.trans (hswitches _)
  property := h.property
  envVar := h.envVar

/-- Reading the words of arguments, in any order, gives the arguments back and the settings that they ask for; and so does
reading the words of arguments that leave out the same names in another order or with repetitions. -/
theorem parse_arranged (ha : a.Writable) (hws : a.Arranges ws) :
    ∃ b, parse (ws.map Word.text) = .ok b ∧
      b = { a with switches := b.switches } ∧ (∀ s, s ∈ b.switches ↔ s ∈ a.switches) ∧
      b.outputFormat = a.format.getD .text ∧ b.shownLevel = a.logLevel.getD .warn ∧ a.Asks b.settings ∧
      ∀ excludes ws', (∀ x, x ∈ excludes ↔ x ∈ a.excludes) → ({ a with excludes } : Arguments).Arranges ws' →
        ∃ b', parse (ws'.map Word.text) = .ok b' ∧ b'.excludes = excludes ∧ b'.settings = b.settings := by
  obtain ⟨b, hb, heq, hswitches⟩ := hws.exists_parse ha
  have hasks : a.Asks b.settings := .of_mem_iff hswitches (fun _ => Iff.rfl) (heq ▸ asks_settings b)
  refine ⟨b, hb, heq, hswitches, by rw [heq]; rfl, by rw [heq]; rfl, hasks, fun excludes ws' hexcludes hws' => ?_⟩
  have ha' : ({ a with excludes } : Arguments).Writable := ⟨ha.switches, ha.output, ha.paths⟩
  obtain ⟨b', hb', heq', hswitches'⟩ := hws'.exists_parse ha'
  have hasks' : a.Asks b'.settings := .of_mem_iff hswitches' hexcludes (heq' ▸ asks_settings b')
  exact ⟨b', hb', by rw [heq'], hasks'.unique hasks⟩

/-- Arguments with a name that is left out twice and a value that holds `=`. -/
def mixed : Arguments where
  paths := ["app.jar", "lib"]
  excludes := ["run", "close", "run"]
  switches := [.noDefaultExclusions, .skipInvalid]
  callThreshold := some 4294967295
  property := some "scan=methods"
  format := some .json
  output := some "-"

/-- The words of `mixed`, paths and options among each other. -/
def mixedWords : List Word :=
  [.option .exclude "run", .path "app.jar", .switch .skipInvalid, .option .output "-", .option .exclude "close",
   .option .callThreshold "4294967295", .option .property "scan=methods", .path "lib", .option .format "json",
   .switch .noDefaultExclusions, .option .exclude "run"]

theorem parse_arranged_mixed :
    mixed.Writable ∧ mixed.Arranges mixedWords ∧
      ∃ b, parse ["--exclude=run", "app.jar", "--skip-invalid", "--output=-", "--exclude=close",
          "--call-threshold=4294967295", "--property=scan=methods", "lib", "--format=json", "--no-default-exclusions",
          "--exclude=run"] = .ok b ∧
        b.excludes = ["run", "close", "run"] ∧ b.paths = ["app.jar", "lib"] ∧ mixed.Asks b.settings := by
  have hwritable : mixed.Writable :=
    ⟨by decide, by decide, by simp [mixed, IsPath]⟩
  have harranges : mixed.Arranges mixedWords :=
    ⟨fun o => by cases o <;> rfl, by decide, rfl⟩
  obtain ⟨b, hb, heq, -, -, -, hasks, -⟩ := parse_arranged hwritable harranges
  exact ⟨hwritable, harranges, b, hb, by rw [heq]; rfl, by rw [heq]; rfl, hasks⟩

end Arguments

end MethodScout
