import MethodScout.Scan.Root

/-!
# Sources

A source is a list of roots. A class resource is taken from the first root that has it; in later roots it is shadowed.
-/

namespace MethodScout

structure Source where
  roots : List Root
  includeNested : Bool
  deriving DecidableEq

/-- The resources of one root, in increasing order: those to scan, and those that an earlier root has too. -/
structure Listing where
  root : Root
  resources : List String
  shadowed : List String
  deriving DecidableEq

namespace Source

/-- Opens the roots in order; nothing is opened if one of them is missing. -/
def ofPaths (t : FileTree) (paths : List PathText) (includeNested : Bool) : Except ScanFault Source := do
  return ⟨← paths.mapM (Root.ofPath t), includeNested⟩

/-- The scannable resources of a root, in increasing order. -/
def scannable (t : FileTree) (includeNested : Bool) (root : Root) : Except ScanFault (List String) :=
  (root.classes t).map fun names => (NameSet.ofList (names.filter (Resource.isScannable includeNested))).toList

/-- Lists roots one after the other; `seen` are the resources of the roots before them. -/
def listingsAfter (t : FileTree) (includeNested : Bool) (seen : List String) :
    List Root → Except ScanFault (List Listing)
  | [] => .ok []
  | root :: roots => do
    let names ← scannable t includeNested root
    let fresh := names.filter fun name => !seen.contains name
    let listings ← listingsAfter t includeNested (seen ++ fresh) roots
    return ⟨root, fresh, names.filter seen.contains⟩ :: listings

/-- The resources of each root, in the order of the roots. -/
def listings (t : FileTree) (s : Source) : Except ScanFault (List Listing) :=
  listingsAfter t s.includeNested [] s.roots

end Source

end MethodScout
