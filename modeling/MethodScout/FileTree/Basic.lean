import MethodScout.FileTree.Path

/-!
# File trees

A file tree holds files, directories and symbolic links, each at a location: the names on the way to it from the root.
Paths are taken from the working directory of the tree, unless they begin with a slash. `FileTree.follow` follows a
path, links included.
-/

namespace MethodScout

inductive Node where
  | file (content : Bytes)
  | directory
  /-- A symbolic link; its target is taken from the directory that holds the link. -/
  | link (target : PathText)
  deriving DecidableEq, Repr

/-- The names on the way from the root. -/
abbrev Location := List PathText

/-- Nodes at distinct locations. The working directory and those above it are there without being in the list. -/
structure FileTree where
  workingDirectory : Location
  nodes : List (Location × Node)
  distinct : (nodes.map Prod.fst).Nodup
  deriving DecidableEq

/-- The ways in which the use of a path can fail. -/
inductive FileError where
  | notFound
  | alreadyExists
  | notDirectory
  | isDirectory
  | nameTooLong
  | tooManyLinks
  /-- The path holds the character that ends texts for the system. -/
  | nulCharacter
  deriving DecidableEq, Repr

def FileError.message : FileError → String
  | .notFound => "No such file or directory (os error 2)"
  | .alreadyExists => "File exists (os error 17)"
  | .notDirectory => "Not a directory (os error 20)"
  | .isDirectory => "Is a directory (os error 21)"
  | .nameTooLong => "File name too long (os error 36)"
  | .tooManyLinks => "Too many levels of symbolic links (os error 40)"
  | .nulCharacter => "file name contained an unexpected NUL byte"

namespace FileTree

/-- The tree with nothing but the way to its working directory. -/
def empty (workingDirectory : Location) : FileTree := ⟨workingDirectory, [], .nil⟩

instance : Inhabited FileTree := ⟨empty []⟩

/-- The node at a location. -/
def get? (t : FileTree) (l : Location) : Option Node :=
  if l.isPrefixOf t.workingDirectory then some .directory else t.nodes.lookup l

/-- What the location at the end of a path is wanted for. -/
inductive Purpose where
  /-- To look at what is there; a link at the end is followed. -/
  | look
  /-- To put something there or to remove it; a link at the end is not followed. -/
  | replace
  /-- To write a file; a link at the end is followed, and a slash at the end, also at that of the link's target, is
  refused. -/
  | write
  deriving DecidableEq, Repr

/-- How many links are followed on the way along one path. -/
def linkLimit : Nat := 40

/-- How many bytes a name may have. -/
def nameLimit : Nat := 255

/-- How many bytes a path may have. -/
def pathLimit : Nat := 4095

/-- Where the steps of a path lead from `dir`, when `onLink` says where they lead past a link. The last step may lead to
a location without a node, in a directory that is there. -/
def walk (t : FileTree) (purpose : Purpose) (onLink : Location → List PathText → Except FileError Location)
    (dir : Location) : List PathText → Except FileError Location
  | [] => .ok dir
  | name :: rest =>
    if t.get? dir ≠ some .directory then .error .notDirectory
    else if name = "." ∨ name = "" then t.walk purpose onLink dir rest
    else if name = ".." then t.walk purpose onLink dir.dropLast rest
    else if purpose = .write ∧ rest = [PathText.ofText ""] then .error .isDirectory
    else if nameLimit < name.bytes.length then .error .nameTooLong
    else
      match t.get? (dir ++ [name]) with
      | none => if rest = [] then .ok (dir ++ [name]) else .error .notFound
      | some (.link target) =>
        if rest = [] ∧ purpose = .replace then .ok (dir ++ [name])
        else onLink (if Path.isAbsolute target then [] else dir) (Path.steps target ++ rest)
      | some _ => t.walk purpose onLink (dir ++ [name]) rest

/-- Where the steps of a path lead from a location, when so many links may be followed. -/
def locate (t : FileTree) (purpose : Purpose) : (links : Nat) → Location → List PathText → Except FileError Location
  | 0 => t.walk purpose fun _ _ => .error .tooManyLinks
  | links + 1 => t.walk purpose (t.locate purpose links)

/-- The location that a path leads to. A slash at its end makes no difference to what is put there or removed. -/
def follow (t : FileTree) (purpose : Purpose) (path : PathText) : Except FileError Location :=
  if path.bytes.contains 0 then .error .nulCharacter
  else if pathLimit < path.bytes.length then .error .nameTooLong
  else if path = "" then .error .notFound
  else
    t.locate purpose linkLimit (if Path.isAbsolute path then [] else t.workingDirectory)
      (if purpose = .replace then Path.names path else Path.steps path)

/-- The node that a path leads to, links followed. -/
def look (t : FileTree) (path : PathText) : Except FileError Node := do
  match t.get? (← t.follow .look path) with
  | some node => return node
  | none => throw .notFound

def pathExists (t : FileTree) (path : PathText) : Bool := (t.look path).isOk

def isDirectory (t : FileTree) (path : PathText) : Bool :=
  match t.look path with
  | .ok .directory => true
  | _ => false

def isFile (t : FileTree) (path : PathText) : Bool :=
  match t.look path with
  | .ok (.file _) => true
  | _ => false

/-- The content of a file. -/
def contentOf (t : FileTree) (path : PathText) : Except FileError Bytes := do
  match ← t.look path with
  | .file content => return content
  | .directory => throw .isDirectory
  | .link _ => throw .notFound

end FileTree

end MethodScout
