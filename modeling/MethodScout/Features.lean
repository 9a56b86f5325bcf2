import MethodScout.ClassFile.Basic

/-!
# Features of methods

What a method is judged by: how often it enters a monitor, calls and branches, and whether it calls out to a client
or a repository. The instructions are gone over once.
-/

namespace MethodScout

/-- One more, unless the count is already the greatest that there is. -/
def countUp (n : UInt32) : UInt32 :=
  if n = 0xFFFFFFFF then n else n + 1

/-- The kinds of class that calls are watched for, told by the end of the class name. -/
inductive Dependency where
  | client
  | repository
  deriving DecidableEq, Repr

def Dependency.suffix : Dependency → String
  | .client => "Client"
  | .repository => "Repository"

/-- Whether a class is of the kind, by its name. -/
def Dependency.names (d : Dependency) (name : String) : Bool :=
  Text.endsWith d.suffix name

/-- Whether a call goes out to a dependency. Calls that return such a class or a builder set one up, and calls without
an owner go nowhere that is known. -/
def Call.reaches (call : Call) (d : Dependency) : Bool :=
  match call.owner with
  | none => false
  | some owner =>
    owner != call.returnType && d.names owner && !d.names call.returnType &&
      !Text.endsWith "Builder" call.returnType

structure Features where
  monitors : UInt32 := 0
  calls : UInt32 := 0
  branches : UInt32 := 0
  callsClient : Bool := false
  callsRepository : Bool := false
  deriving DecidableEq, Repr

namespace Features

/-- The features after one more instruction. A switch is one branch, however many targets it has. -/
def add (f : Features) : Instruction → Features
  | .monitorEnter => { f with monitors := countUp f.monitors }
  | .call call =>
    { f with
      calls := countUp f.calls
      callsClient := f.callsClient || call.reaches .client
      callsRepository := f.callsRepository || call.reaches .repository }
  | .conditionalBranch => { f with branches := countUp f.branches }
  | .switch _ => { f with branches := countUp f.branches }
  | .other _ => f

def ofCode (code : List Instruction) : Features :=
  code.foldl add {}

end Features

/-- A method as the rules see it. -/
structure MethodProfile where
  name : String
  isSynchronized : Bool
  features : Features
  deriving DecidableEq, Repr

def MethodProfile.ofMethod (m : Method) : MethodProfile :=
  ⟨m.name, m.isSynchronized, Features.ofCode m.code⟩

/-- A class as the rules see it. -/
structure ClassProfile where
  name : String
  methods : List MethodProfile
  deriving DecidableEq, Repr

def ClassProfile.ofClassFile (c : ClassFile) : ClassProfile :=
  ⟨c.name, c.methods.map MethodProfile.ofMethod⟩

end MethodScout
