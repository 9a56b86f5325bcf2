import MethodScout.Archive.Basic
import MethodScout.ClassFile.Fault
import MethodScout.FileTree.Basic

/-!
# Why a scan fails
-/

namespace MethodScout

/-- Why a path cannot be opened as an archive. -/
inductive OpenFault where
  | system (error : FileError)
  /-- The path leads to something that has no content to look at. -/
  | unmappable
  | notArchive (fault : Archive.Fault)
  deriving DecidableEq, Repr

def OpenFault.message : OpenFault → String
  | .system error => error.message
  | .unmappable => "mmap failed: No such device (os error 19)"
  | .notArchive fault => "not a zip archive: " ++ fault.message

/-- The text for an archive at `path` that cannot be opened. -/
def OpenFault.describe (path : String) (fault : OpenFault) : String :=
  "cannot open archive " ++ path ++ ": " ++ fault.message

/-- Why the content of a class resource is not to be had. -/
inductive ReadFault where
  | system (error : FileError)
  | entry (fault : Archive.EntryFault)
  /-- The archive at a path that holds the resource cannot be opened. -/
  | closed (path : String) (fault : OpenFault)
  deriving DecidableEq, Repr

def ReadFault.message : ReadFault → String
  | .system error => error.message
  | .entry fault => fault.message
  | .closed path fault => fault.describe path

inductive ScanFault where
  | pathNotFound (path : PathText)
  | archive (path : PathText) (fault : OpenFault)
  | resourceUnavailable (resource : String) (fault : ReadFault)
  | decode (className : String) (fault : DecodeFault)
  deriving DecidableEq, Repr

def ScanFault.message : ScanFault → String
  | .pathNotFound path => "path does not exist: " ++ path.shown
  | .archive path fault => fault.describe path.shown
  | .resourceUnavailable resource fault => "class resource unavailable: " ++ resource ++ ": " ++ fault.message
  | .decode className _ => "failed to decode " ++ className

/-- The fault and what it comes from, as texts. -/
def ScanFault.chain (fault : ScanFault) : List String :=
  match fault with
  | .decode _ cause => [fault.message, cause.message]
  | _ => [fault.message]

end MethodScout
