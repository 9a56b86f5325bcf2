import MethodScout.Report.Basic
import MethodScout.Scan.Source

/-!
# Scans

A scan lists its roots, reads and classifies every class resource and collects the report. A resource that cannot be
read ends the scan; one that cannot be decoded ends it too, unless the settings say to skip it.
-/

namespace MethodScout

structure Summary where
  roots : Nat
  scanned : Nat
  skipped : Nat
  classes : Nat
  methods : Nat
  deriving DecidableEq, Repr

structure Outcome where
  report : Report
  summary : Summary
  deriving DecidableEq

namespace Scan

/-- What became of a class resource: its classification, or why it was skipped. -/
structure Inspection where
  resource : String
  result : Except DecodeFault Classification

/-- A class resource to scan, with its root and what the root is read by. -/
structure Task where
  root : Root
  reader : Except OpenFault RootReader
  resource : String

/-- The class resources to scan. One reader serves all resources of a root. -/
def tasks (t : FileTree) (listings : List Listing) : List Task :=
  listings.flatMap fun l =>
    let reader := l.root.reader t
    l.resources.map fun resource => ⟨l.root, reader, resource⟩

/-- Reads and classifies a class resource. -/
def inspect (t : FileTree) (settings : Settings) (task : Task) : Except ScanFault Inspection :=
  match task.reader with
  | .error e => .error (.resourceUnavailable task.resource (.closed task.root.path e))
  | .ok reader => do
    let bs ← reader.read t task.resource
    match Classification.ofBytes settings bs with
    | .ok c => return ⟨task.resource, .ok c⟩
    | .error e =>
      if settings.skipInvalid then return ⟨task.resource, .error e⟩
      else throw (.decode (Resource.className task.resource) e)

/-- The classifications of the resources that were not skipped. -/
def classified (inspections : List Inspection) : List Classification :=
  inspections.filterMap fun i => i.result.toOption

/-- The outcome of the inspections of all resources under a number of roots. -/
def outcome (roots : Nat) (inspections : List Inspection) : Outcome :=
  let results := classified inspections
  let report := Report.ofClassifications results
  { report := report
    summary := {
      roots := roots
      scanned := inspections.length
      skipped := inspections.length - results.length
      classes := report.classes.size
      methods := report.methodCount } }

end Scan

/-- Scans the roots of a source. -/
def Source.scan (t : FileTree) (settings : Settings) (s : Source) : Except ScanFault Outcome := do
  let listings ← s.listings t
  let inspections ← (Scan.tasks t listings).mapM (Scan.inspect t settings)
  return Scan.outcome listings.length inspections

/-- Opens the roots at some paths and scans them. -/
def scanPaths (t : FileTree) (settings : Settings) (paths : List PathText) : Except ScanFault Outcome := do
  let source ← Source.ofPaths t paths settings.includeNested
  source.scan t settings

end MethodScout
