import MethodScout.Log.Basic
import MethodScout.Scan.Basic

/-!
# What a scan logs

The events of a scan in the order in which they happen: for each root the shadowed resources and the number of the
others, then the skipped classes, then the summary.
-/

namespace MethodScout

inductive Event where
  | shadowed (resource root : String)
  | enumerated (root : String) (classes : Nat)
  | skipped (className : String) (fault : DecodeFault)
  | complete (summary : Summary)
  deriving DecidableEq, Repr

namespace Event

def level : Event → LogLevel
  | .shadowed _ _ => .debug
  | .enumerated _ _ => .debug
  | .skipped _ _ => .warn
  | .complete _ => .info

/-- The part of the program that an event belongs to. -/
def target : Event → String
  | .shadowed _ _ => "flashlight::scan"
  | .enumerated _ _ => "flashlight::scan"
  | .skipped _ _ => "flashlight::pipeline"
  | .complete _ => "flashlight::pipeline"

def message : Event → String
  | .shadowed resource root => "shadowed by an earlier root resource=" ++ resource ++ " root=" ++ root
  | .enumerated root classes => "enumerated root root=" ++ root ++ " classes=" ++ classes.repr
  | .skipped className fault =>
    "skipping class that failed to decode class=" ++ className ++ " error=" ++ fault.message
  | .complete s =>
    "scan complete roots=" ++ s.roots.repr ++ " scanned=" ++ s.scanned.repr ++ " skipped=" ++ s.skipped.repr ++
      " reported=" ++ s.classes.repr ++ " methods=" ++ s.methods.repr

/-- The line of an event in the log. -/
def line (e : Event) : String :=
  e.level.column ++ " " ++ e.target ++ ": " ++ e.message ++ "\n"

/-- The lines of the events that a filter shows. -/
def log (filter : LogFilter) (events : List Event) : String :=
  String.join ((events.filter fun e => filter.shows e.target e.level).map line)

end Event

def Listing.events (l : Listing) : List Event :=
  l.shadowed.map (.shadowed · l.root.path) ++ [.enumerated l.root.path l.resources.length]

def Scan.Inspection.event? (i : Inspection) : Option Event :=
  match i.result with
  | .ok _ => none
  | .error fault => some (.skipped (Resource.className i.resource) fault)

/-- The events of a scan, up to the resource that ends it if one does. -/
def Source.events (t : FileTree) (settings : Settings) (s : Source) : List Event :=
  match s.listings t with
  | .error _ => []
  | .ok listings =>
    let inspections := (Scan.tasks t listings).map (Scan.inspect t settings)
    let done := (inspections.takeWhile Except.isOk).filterMap Except.toOption
    listings.flatMap Listing.events ++ done.filterMap Scan.Inspection.event? ++
      if done.length = inspections.length then [.complete (Scan.outcome listings.length done).summary] else []

end MethodScout
