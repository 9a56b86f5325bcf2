import MethodScout.FileTree.Basic
import MethodScout.Resource

/-!
# The class files of a directory

All class files below a directory, hidden ones included, by their path from it. Links to directories are not entered,
links to files count as files.
-/

namespace MethodScout

namespace Path

/-- Whether a path names a class file: its last name is the ending with something before it. -/
def namesClass (path : PathText) : Bool :=
  match fileName? path with
  | some name => (PathText.ofText Resource.ending).bytes.isSuffixOf name.bytes && name != Resource.ending
  | none => false

/-- Whether a path stands for standard input, under which no file is found. -/
def isStandardInput (path : PathText) : Bool :=
  match names path with
  | first :: rest => first == "-" && rest.all (· == ".") && !isAbsolute path
  | [] => false

end Path

/-- The name of the class resource that names lead to: the names as they are shown. Different names can be shown alike. -/
def Resource.ofNames (names : List PathText) : String := "/".intercalate (names.map PathText.shown)

namespace FileTree

/-- Whether every name but the last leads from `dir` into a directory. -/
def reaches (t : FileTree) (dir : Location) : List PathText → Bool
  | [] => false
  | [_] => true
  | name :: more :: rest =>
    t.get? (dir ++ [name]) == some .directory && t.reaches (dir ++ [name]) (more :: rest)

/-- The ways from `dir` to the nodes below it. -/
def below (t : FileTree) (dir : Location) : List (List PathText) :=
  t.nodes.filterMap fun n =>
    let way := n.1.drop dir.length
    if dir.isPrefixOf n.1 && t.reaches dir way then some way else none

/-- The names of the class files below a directory. A path to a class file itself gives the empty name. -/
def classFiles (t : FileTree) (base : PathText) : List String :=
  if Path.isStandardInput base then []
  else
    match t.follow .look base with
    | .error _ => []
    | .ok dir =>
      match t.get? dir with
      | some .directory =>
        ((t.below dir).filter fun way =>
          Path.namesClass (Path.ofNames way) && t.isFile (Path.join base (Path.ofNames way))).map Resource.ofNames
      | some (.file _) => if Path.namesClass base then [""] else []
      | _ => []

end FileTree

end MethodScout
