import MethodScout.FileTree.Listing
import MethodScout.Scan.Fault

/-!
# Roots

A root is a directory or an archive with class files in it. A root only remembers its path; what is there is looked up
in the file tree whenever it is listed or read.
-/

namespace MethodScout

/-- Opens an archive in a file tree. -/
def FileTree.readArchive (t : FileTree) (path : PathText) : Except OpenFault Archive :=
  match t.contentOf path with
  | .error .isDirectory => .error .unmappable
  | .error e => .error (.system e)
  | .ok bs => (Archive.ofBytes bs).mapError .notArchive

inductive Root where
  | directory (path : PathText)
  | archive (path : PathText)
  deriving DecidableEq, Repr

/-- What classes are read from: a directory, in which they are looked up one by one, or the content of an archive. -/
inductive RootReader where
  | directory (path : PathText)
  | archive (path : PathText) (content : Archive)
  deriving DecidableEq

namespace Root

/-- The root at a path: a directory, or else an archive that can be opened. -/
def ofPath (t : FileTree) (path : PathText) : Except ScanFault Root :=
  if !t.pathExists path then .error (.pathNotFound path)
  else if t.isDirectory path then .ok (.directory path)
  else
    match t.readArchive path with
    | .ok _ => .ok (.archive path)
    | .error e => .error (.archive path e)

/-- The path of a root as it is shown. -/
def path : Root → String
  | .directory path => path.shown
  | .archive path => path.shown

/-- The names of all class files under a root. -/
def classes (t : FileTree) : Root → Except ScanFault (List String)
  | .directory path => .ok (t.classFiles path)
  | .archive path =>
    match t.readArchive path with
    | .ok a => .ok a.classNames
    | .error e => .error (.archive path e)

def reader (t : FileTree) : Root → Except OpenFault RootReader
  | .directory path => .ok (.directory path)
  | .archive path => (t.readArchive path).map (.archive path)

end Root

/-- The content of an entry of the archive at a path. -/
def Archive.readClass (a : Archive) (path : PathText) (resource : String) : Except ScanFault Bytes :=
  match a.read resource with
  | .ok bs => .ok bs
  | .error e => .error (.resourceUnavailable (path.shown ++ "!/" ++ resource) (.entry e))

/-- The content of a class file. -/
def RootReader.read (t : FileTree) (r : RootReader) (resource : String) : Except ScanFault Bytes :=
  match r with
  | .directory base =>
    match t.contentOf (Path.join base resource) with
    | .ok bs => .ok bs
    | .error e => .error (.resourceUnavailable (Path.join base resource).shown (.system e))
  | .archive path a => a.readClass path resource

end MethodScout
