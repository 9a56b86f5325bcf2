import MethodScout.Command

/-!
# The program

Loads the files that the arguments ask for, runs the command on them and writes what it leaves behind. A path argument
that can be read is a file; the files below all other path arguments are named on standard input, one a line.
-/

namespace MethodScout.Program

/-- Adds a file to a tree, if it can be read. -/
def loadFile (t : FileTree) (path : String) : IO FileTree := do
  try
    let content ← IO.FS.readBinFile path
    return (t.place path (.file content.toList)).toOption.getD t
  catch _ => return t

/-- Adds the files that standard input names. -/
partial def loadNamed (input : IO.FS.Stream) (t : FileTree) : IO FileTree := do
  let line ← input.getLine
  if line.isEmpty then return t
  loadNamed input (← loadFile t line.trimAsciiEnd.toString)

/-- The files under some paths. -/
def load (paths : List String) : IO FileTree := do
  let workingDirectory := ((← IO.getEnv "PWD").map (Path.names ·)).getD []
  let t ← paths.foldlM loadFile (.empty workingDirectory)
  if paths.all (t.pathExists ·) then return t else loadNamed (← IO.getStdin) t

/-- Writes the file that a run of the command left in its tree. -/
def save (done : Completion) (path : String) : IO Unit := do
  if let .ok content := done.tree.contentOf path then
    if let some parent := ((Path.parent? path).map PathText.shown).filter (· != "") then IO.FS.createDirAll parent
    IO.FS.writeBinFile path content.toByteArray

/-- Runs the command on the files that its arguments ask for. -/
def run (arguments : List String) : IO UInt32 := do
  let asked := (Arguments.parse arguments).toOption.getD {}
  let done := Command.run (← load asked.paths) arguments (← IO.getEnv "RUST_LOG")
  IO.eprint done.stderr
  IO.print done.stdout
  if done.exitCode = 0 then
    if let some path := asked.output then save done path
  return done.exitCode

end MethodScout.Program

def main (arguments : List String) : IO UInt32 := MethodScout.Program.run arguments
