import MethodScout.Text.Basic

/-!
# Class resources

A class is found under a root by its resource name: its path with slashes and the ending `.class`.
-/

namespace MethodScout.Resource

def ending : String := ".class"

/-- The name of the class that a resource ought to hold. -/
def className (resource : String) : String :=
  Text.replaceChars (fun c => c == '/' || c == '\x5c') '.' ((Text.dropEnding? ending resource).getD resource)

/-- The last part of a resource name without its ending. -/
def simpleName (stem : String) : String :=
  (Text.parts '/' stem).getLast?.getD stem

/-- Whether a resource is scanned: module and package descriptors and versioned copies are not, and classes nested in
others only if that is asked for. -/
def isScannable (includeNested : Bool) (resource : String) : Bool :=
  match Text.dropEnding? ending resource with
  | none => false
  | some stem =>
    !Text.beginsWith "META-INF/" resource && simpleName stem != "module-info" && simpleName stem != "package-info" &&
      (includeNested || !(simpleName stem).toList.contains '$')

end MethodScout.Resource
