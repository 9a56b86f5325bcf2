import MethodScout.CommandLine.Arguments
import MethodScout.CommandLine.Help
import MethodScout.FileTree.Edit
import MethodScout.Log.Event
import MethodScout.Report.Rendering

/-!
# The command

Runs the command on a file tree: reads the arguments, scans, and prints the report or writes it to a file.
-/

namespace MethodScout

/-- What a run of the command leaves behind. -/
structure Completion where
  exitCode : UInt32
  stdout : String
  stderr : String
  tree : FileTree

def Misuse.message : Misuse → String
  | .unknownArgument => "unexpected argument"
  | .invalidValue => "missing or invalid value"
  | .badNumber => "not a number in range"
  | .repeatedOption => "an argument cannot be used twice"
  | .unwantedValue => "unexpected value for a switch"

/-- The report in a format. -/
def Report.render (r : Report) (settings : Settings) : OutputFormat → String
  | .text => r.text settings.propertyName settings.variableName
  | .json => r.json
  | .property => r.propertyFlag settings.propertyName
  | .env => r.shellAssignment settings.variableName

namespace Command

/-- The lines of a text behind a label, all but the first behind a margin. -/
def labelled (label margin text : String) : String :=
  label ++ String.intercalate ("\n" ++ margin) (Text.parts '\n' text) ++ "\n"

/-- The text of a fatal error: what failed, and the causes, numbered if there are several. -/
def errorText (failure : String) (causes : List String) : String :=
  "Error: " ++ failure ++ "\n\nCaused by:\n" ++
    match causes with
    | [cause] => labelled "    " "    " cause
    | _ => String.join (causes.zipIdx.map fun (cause, i) => labelled ("    " ++ i.repr ++ ": ") "       " cause)

/-- A text with a line break at its end. -/
def endLine (text : String) : String := if Text.endsWith "\n" text then text else text ++ "\n"

/-- Writes a text to a file and makes the directories on the way to it. A failure tells what failed and why. -/
def writeOutput (t : FileTree) (path : PathText) (content : String) : FileTree × Except (String × FileError) Unit :=
  let parent := (Path.parent? path).getD ""
  match t.makePath parent with
  | (t, .error e) => (t, .error ("Failed to create directory: " ++ parent.shown, e))
  | (t, .ok ()) =>
    match t.putFile path content.toUTF8.toList with
    | .ok t => (t, .ok ())
    | .error e => (t, .error ("Failed to write output: " ++ path.shown, e))

/-- The filter of the log: the given one if it can be read, or the level of the arguments. -/
def logFilter (a : Arguments) (given : Option String) : LogFilter :=
  (given.bind LogFilter.parse?).getD (.upTo a.shownLevel)

/-- Scans the paths of the arguments; gives the log and the outcome. -/
def scan (t : FileTree) (a : Arguments) (filter : LogFilter) : String × Except ScanFault Outcome :=
  match Source.ofPaths t (PathText.ofTexts a.paths) a.settings.includeNested with
  | .error e => ("", .error e)
  | .ok source => (Event.log filter (source.events t a.settings), source.scan t a.settings)

/-- Scans and reports. -/
def report (t : FileTree) (a : Arguments) (filter : LogFilter) : Completion :=
  match scan t a filter with
  | (log, .error e) => ⟨1, "", log ++ errorText "scan aborted" e.chain, t⟩
  | (log, .ok outcome) =>
    let content := outcome.report.render a.settings a.outputFormat
    match a.output with
    | none => ⟨0, endLine content, log, t⟩
    | some path =>
      match writeOutput t path content with
      | (t, .ok ()) => ⟨0, "", log, t⟩
      | (t, .error (failure, e)) => ⟨1, "", log ++ errorText failure [e.message], t⟩

/-- Runs the command. `logDirectives` is the log filter that the environment gives. -/
def run (t : FileTree) (arguments : List String) (logDirectives : Option String) : Completion :=
  match Arguments.parse arguments with
  | .error .help => ⟨0, helpText, "", t⟩
  | .error .version => ⟨0, versionText, "", t⟩
  | .error (.misuse mistake) => ⟨2, "", "error: " ++ mistake.message ++ "\n", t⟩
  | .ok a =>
    if a.paths.isEmpty then ⟨0, helpText ++ "\n", "", t⟩ else report t a (logFilter a logDirectives)

end Command

end MethodScout
