import MethodScout.Log.Basic
import MethodScout.Settings

/-!
# Command-line arguments

Arguments are read from left to right. An option takes its value from the same argument or from the next one, and the
value is looked at only when the next option, a path or the end follows; so are the paths of a run when an option or
the end follows it. The first mistake met is reported.
-/

namespace MethodScout

inductive OutputFormat where
  | text
  | json
  | property
  | env
  deriving DecidableEq, Repr

namespace OutputFormat

def all : List OutputFormat := [.text, .json, .property, .env]

def name : OutputFormat → String
  | .text => "text"
  | .json => "json"
  | .property => "property"
  | .env => "env"

def ofName? (name : String) : Option OutputFormat := all.find? fun format => format.name == name

end OutputFormat

/-- The options that take a value. Only `exclude` may be given more than once. -/
inductive ValueOption where
  | callThreshold
  | branchThreshold
  | exclude
  | property
  | envVar
  | format
  | output
  | logLevel
  deriving DecidableEq, Repr

def ValueOption.names : List (String × ValueOption) :=
  [("call-threshold", .callThreshold), ("branch-threshold", .branchThreshold), ("exclude", .exclude),
   ("property", .property), ("env-var", .envVar), ("format", .format), ("output", .output),
   ("log-level", .logLevel)]

/-- The options that are given or not. -/
inductive Switch where
  | noDefaultExclusions
  | excludeAccessors
  | excludeLambdas
  | includeNested
  | skipInvalid
  deriving DecidableEq, Repr

def Switch.names : List (String × Switch) :=
  [("no-default-exclusions", .noDefaultExclusions), ("exclude-accessors", .excludeAccessors),
   ("exclude-lambdas", .excludeLambdas), ("include-nested", .includeNested), ("skip-invalid", .skipInvalid)]

/-- The mistakes in arguments. -/
inductive Misuse where
  | unknownArgument
  /-- A value is missing, empty where it may not be, or not among those that there are. -/
  | invalidValue
  /-- A value is not a number in range. -/
  | badNumber
  /-- An option is given twice. -/
  | repeatedOption
  /-- A switch is given a value. -/
  | unwantedValue
  deriving DecidableEq, Repr

/-- Why arguments give nothing to run: they ask for help or for the version, or they hold a mistake. -/
inductive Stop where
  | help
  | version
  | misuse (mistake : Misuse)
  deriving DecidableEq, Repr

/-- What arguments say; `none` where they say nothing. -/
structure Arguments where
  paths : List String := []
  excludes : List String := []
  switches : List Switch := []
  callThreshold : Option UInt32 := none
  branchThreshold : Option UInt32 := none
  property : Option String := none
  envVar : Option String := none
  format : Option OutputFormat := none
  output : Option String := none
  logLevel : Option LogLevel := none
  deriving DecidableEq, Repr

namespace Arguments

/-! ## Values -/

/-- A number of decimal digits. -/
def digits? (cs : List Char) : Option Nat :=
  if cs ≠ [] ∧ cs.all Char.isDigit then some (cs.foldl (fun n c => 10 * n + (c.toNat - '0'.toNat)) 0) else none

/-- A threshold: decimal digits, with a sign or without, that stand for a 32-bit number. -/
def threshold? (text : String) : Option UInt32 :=
  let n : Option Nat := match text.toList with
    | '+' :: cs => digits? cs
    | '-' :: cs => (digits? cs).filter (· == 0)
    | cs => digits? cs
  (n.filter (· < 0x100000000)).map UInt32.ofNat

def expect {α : Type} (mistake : Misuse) : Option α → Except Stop α
  | some a => .ok a
  | none => .error (.misuse mistake)

/-- A text with something in it. -/
def nonempty? (text : String) : Option String := if text = "" then none else some text

/-- Fails if an option has been given before. -/
def once {α : Type} (given : Option α) : Except Stop Unit :=
  if given.isSome then .error (.misuse .repeatedOption) else .ok ()

/-- Takes in the value of an option. -/
def store (a : Arguments) (option : ValueOption) (value : String) : Except Stop Arguments := do
  match option with
  | .callThreshold =>
    once a.callThreshold
    return { a with callThreshold := some (← expect .badNumber (threshold? value)) }
  | .branchThreshold =>
    once a.branchThreshold
    return { a with branchThreshold := some (← expect .badNumber (threshold? value)) }
  | .exclude => return { a with excludes := a.excludes ++ [value] }
  | .property =>
    once a.property
    return { a with property := some value }
  | .envVar =>
    once a.envVar
    return { a with envVar := some value }
  | .format =>
    once a.format
    return { a with format := some (← expect .invalidValue (OutputFormat.ofName? value)) }
  | .output =>
    once a.output
    return { a with output := some (← expect .invalidValue (nonempty? value)) }
  | .logLevel =>
    once a.logLevel
    return { a with logLevel := some (← expect .invalidValue (LogLevel.ofName? value)) }

def turnOn (a : Arguments) (switch : Switch) : Except Stop Arguments :=
  if switch ∈ a.switches then .error (.misuse .repeatedOption)
  else .ok { a with switches := a.switches ++ [switch] }

def addPaths (a : Arguments) (paths : List String) : Except Stop Arguments := do
  return { a with paths := a.paths ++ (← paths.mapM fun path => expect .invalidValue (nonempty? path)) }

/-! ## Tokens -/

/-- What one argument is, before `--`. -/
inductive Token where
  | separator
  | help (hasValue : Bool)
  | version (hasValue : Bool)
  | switch (switch : Switch) (hasValue : Bool)
  | option (option : ValueOption) (value : Option String)
  | unknown
  | word (text : String)
  deriving DecidableEq, Repr

/-- The option of a long name, with the value after `=` if there is one. -/
def Token.ofLong (name : String) (value : Option String) : Token :=
  match ValueOption.names.lookup name, Switch.names.lookup name with
  | some known, _ => .option known value
  | none, some known => .switch known value.isSome
  | none, none =>
    if name = "help" then .help value.isSome
    else if name = "version" then .version value.isSome
    else .unknown

/-- The value that follows the letter of an option in the same argument. -/
def Token.attached : List Char → Option String
  | [] => none
  | '=' :: value => some (String.ofList value)
  | value => some (String.ofList value)

/-- The option of a letter, with what follows the letter. -/
def Token.ofShort (letter : Char) (rest : List Char) : Token :=
  match letter with
  | 'h' => .help false
  | 'V' => .version false
  | 'f' => .option .format (attached rest)
  | 'o' => .option .output (attached rest)
  | _ => .unknown

def Token.ofText (text : String) : Token :=
  match text.toList with
  | ['-', '-'] => .separator
  | '-' :: '-' :: rest =>
    let name := String.ofList (rest.takeWhile (· != '='))
    match rest.dropWhile (· != '=') with
    | [] => .ofLong name none
    | _ :: value => .ofLong name (some (String.ofList value))
  | '-' :: letter :: rest => .ofShort letter rest
  | _ => .word text

/-! ## The pass over the arguments -/

/-- What has been met but not yet looked at. -/
inductive Pending where
  | nothing
  /-- An option that waits for its value. -/
  | option (option : ValueOption)
  | value (option : ValueOption) (value : String)
  | paths (paths : List String)
  deriving DecidableEq, Repr

structure Progress where
  arguments : Arguments := {}
  pending : Pending := .nothing
  /-- Whether `--` has been met, after which everything is a path. -/
  onlyPaths : Bool := false
  deriving DecidableEq, Repr

namespace Progress

/-- Looks at what is pending. -/
def settle (p : Progress) : Except Stop Arguments :=
  match p.pending with
  | .nothing => .ok p.arguments
  | .option _ => .error (.misuse .invalidValue)
  | .value option value => p.arguments.store option value
  | .paths paths => p.arguments.addPaths paths

def addPath (p : Progress) (path : String) : Except Stop Progress := do
  match p.pending with
  | .paths paths => return { p with pending := .paths (paths ++ [path]) }
  | _ => return { p with arguments := ← p.settle, pending := .paths [path] }

def step (p : Progress) (text : String) : Except Stop Progress := do
  if p.onlyPaths then return ← p.addPath text
  match Token.ofText text with
  | .separator => return { p with onlyPaths := true }
  | .unknown => throw (.misuse .unknownArgument)
  | .help true | .version true | .switch _ true => throw (.misuse .unwantedValue)
  | .help false =>
    let _ ← p.settle
    throw .help
  | .version false =>
    let _ ← p.settle
    throw .version
  | .switch switch false => return { p with arguments := ← (← p.settle).turnOn switch, pending := .nothing }
  | .option option none => return { p with arguments := ← p.settle, pending := .option option }
  | .option option (some value) =>
    return { p with arguments := ← (← p.settle).store option value, pending := .nothing }
  | .word word =>
    match p.pending with
    | .option option => return { p with pending := .value option word }
    | _ => p.addPath word

end Progress

/-- Reads arguments. -/
def parse (texts : List String) : Except Stop Arguments := do
  (← texts.foldlM Progress.step {}).settle

/-! ## What the arguments mean -/

/-- The settings that the arguments ask for, with the default where they say nothing. -/
def settings (a : Arguments) : Settings :=
  let defaults : Settings := {}
  let kept := if .noDefaultExclusions ∈ a.switches then [] else MethodFilter.defaultNames
  { callThreshold := a.callThreshold.getD defaults.callThreshold
    branchThreshold := a.branchThreshold.getD defaults.branchThreshold
    filter := {
      names := NameSet.ofList (kept ++ a.excludes)
      accessors := decide (.excludeAccessors ∈ a.switches)
      lambdas := decide (.excludeLambdas ∈ a.switches) }
    includeNested := decide (.includeNested ∈ a.switches)
    skipInvalid := decide (.skipInvalid ∈ a.switches)
    propertyName := a.property.getD defaults.propertyName
    variableName := a.envVar.getD defaults.variableName }

def outputFormat (a : Arguments) : OutputFormat := a.format.getD .text

/-- Up to which level messages are shown. -/
def shownLevel (a : Arguments) : LogLevel := a.logLevel.getD .warn

end Arguments

end MethodScout
