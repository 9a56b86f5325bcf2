import MethodScout.Report.Basic
import MethodScout.Text.Json

/-!
# The report as text

A listing by category for people, the value of an include list as a property flag and as a shell assignment, and JSON.
-/

namespace MethodScout.Report

/-- The names between brackets. -/
def bracketed (separator : String) (names : NameSet) : String :=
  "[" ++ String.intercalate separator names.toList ++ "]"

/-- The methods of each category under its heading, a class a line. -/
def listing (r : Report) : String :=
  String.join (Category.all.map fun k =>
    k.heading ++ "\n" ++ String.join ((r.categories.get k).entries.map fun e =>
      "\t" ++ e.1 ++ bracketed ", " e.2 ++ "\n"))

/-- The entries of the include list: a class with its methods. -/
def includeEntries (r : Report) : List String :=
  r.classes.entries.map fun e => e.1 ++ bracketed "," e.2 ++ ";"

/-- The include list. -/
def includeList (r : Report) : String := String.join r.includeEntries

/-- The include list as the value of a system property. -/
def propertyFlag (r : Report) (name : String) : String :=
  "-D" ++ name ++ "=" ++ r.includeList

/-- The include list as a shell assignment, an entry a line. -/
def shellAssignment (r : Report) (name : String) : String :=
  name ++ "=\x22\x5c\n" ++ String.join (r.includeEntries.map fun entry => entry ++ "\x5c\n") ++ "\x22\n"

/-- The listing and both forms of the include list. -/
def text (r : Report) (propertyName variableName : String) : String :=
  r.listing ++ "System Property:\n" ++ r.propertyFlag propertyName ++ "\n\nEnvironment Variable:\n" ++
    r.shellAssignment variableName

/-! ## JSON -/

def namesJson (indent : Nat) (names : NameSet) : String :=
  Text.Json.array indent (names.toList.map Text.Json.string)

def classesJson (indent : Nat) (m : NameMap NameSet) : String :=
  Text.Json.object indent (m.entries.map fun e => (e.1, namesJson (indent + 2) e.2))

def categoriesJson (indent : Nat) (r : Report) : String :=
  Text.Json.object indent (Category.all.filterMap fun k =>
    (r.category? k).map fun m => (k.key, classesJson (indent + 2) m))

def json (r : Report) : String :=
  Text.Json.object 0 [("classes", classesJson 2 r.classes), ("categories", categoriesJson 2 r)]

end MethodScout.Report
