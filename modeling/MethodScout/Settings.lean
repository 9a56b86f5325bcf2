import MethodScout.NameSet
import MethodScout.Text.Basic

/-!
# Settings

What a scan can be told: the thresholds, the methods to leave out, the classes to look at and the names that the
report is printed under.
-/

namespace MethodScout

/-- The methods to leave out of every category: by name, accessors, bodies of lambdas. -/
structure MethodFilter where
  names : NameSet
  accessors : Bool := false
  lambdas : Bool := false
  deriving DecidableEq

namespace MethodFilter

/-- Constructors, initializers and the methods that every object has. -/
def defaultNames : List String := ["<init>", "<clinit>", "toString", "hashCode", "equals"]

def isAccessor (name : String) : Bool :=
  ["get", "set", "is"].any fun head => Text.beginsWith head name

def isLambda (name : String) : Bool := Text.beginsWith "lambda$" name

/-- Whether a method is left out. -/
def excludes (f : MethodFilter) (name : String) : Bool :=
  decide (name ∈ f.names) || (f.accessors && isAccessor name) || (f.lambdas && isLambda name)

end MethodFilter

structure Settings where
  callThreshold : UInt32 := 10
  branchThreshold : UInt32 := 5
  filter : MethodFilter := { names := NameSet.ofList MethodFilter.defaultNames }
  /-- Whether nested and anonymous classes are scanned too. -/
  includeNested : Bool := false
  /-- Whether a class that cannot be decoded is skipped instead of ending the scan. -/
  skipInvalid : Bool := false
  propertyName : String := "otel.instrumentation.methods.include"
  variableName : String := "OTEL_INSTRUMENTATION_METHODS_INCLUDE"
  deriving DecidableEq

end MethodScout
