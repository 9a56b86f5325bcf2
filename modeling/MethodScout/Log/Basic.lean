import MethodScout.Text.Basic

/-!
# Log levels and filters

A log filter says, for the parts of the program, which messages are shown. A part is named by a target; a directive
for a target holds for all targets that begin with it, and the most specific directive wins.
-/

namespace MethodScout

inductive LogLevel where
  | error
  | warn
  | info
  | debug
  | trace
  deriving DecidableEq, Repr

namespace LogLevel

/-- The levels from the gravest on. -/
def all : List LogLevel := [.error, .warn, .info, .debug, .trace]

def name : LogLevel → String
  | .error => "error"
  | .warn => "warn"
  | .info => "info"
  | .debug => "debug"
  | .trace => "trace"

/-- The level as it stands in a log line, five columns wide. -/
def column : LogLevel → String
  | .error => "ERROR"
  | .warn => " WARN"
  | .info => " INFO"
  | .debug => "DEBUG"
  | .trace => "TRACE"

/-- How much is shown at a level: one for the gravest messages alone. -/
def detail : LogLevel → Nat
  | .error => 1
  | .warn => 2
  | .info => 3
  | .debug => 4
  | .trace => 5

def ofName? (name : String) : Option LogLevel := all.find? fun level => level.name == name

end LogLevel

/-- How much is shown of the targets that begin with `target`; nothing at 0. -/
structure LogDirective where
  target : String
  detail : Nat
  deriving DecidableEq, Repr

abbrev LogFilter := List LogDirective

namespace LogFilter

/-- How much a word for a level, or for no messages at all, shows. -/
def detail? (word : String) : Option Nat :=
  let word := word.toLower
  if word = "off" then some 0 else (LogLevel.ofName? word).map LogLevel.detail

/-- Reads a level for all targets, a target of which all is shown, or `target=level`. -/
def directive? (text : String) : Option LogDirective :=
  match Text.parts '=' text with
  | [word] =>
    match detail? word with
    | some detail => some ⟨"", detail⟩
    | none => some ⟨word, LogLevel.trace.detail⟩
  | [target, word] => (detail? word).map fun detail => ⟨target, detail⟩
  | _ => none

/-- Reads directives with commas between them. Without any, only errors are shown. -/
def parse? (text : String) : Option LogFilter :=
  match (Text.parts ',' text).filter (· != "") with
  | [] => some [⟨"", LogLevel.error.detail⟩]
  | directives => directives.mapM directive?

/-- Shows the messages of the program up to a level. -/
def upTo (level : LogLevel) : LogFilter := [⟨"flashlight", level.detail⟩]

/-- The more specific of two directives, the later one if they are for the same target. -/
def moreSpecific (a b : LogDirective) : LogDirective :=
  if a.target.length ≤ b.target.length then b else a

/-- Whether a message is shown. -/
def shows (f : LogFilter) (target : String) (level : LogLevel) : Bool :=
  match f.filter fun d => Text.beginsWith d.target target with
  | [] => false
  | d :: ds => level.detail ≤ (ds.foldl moreSpecific d).detail

end LogFilter

end MethodScout
