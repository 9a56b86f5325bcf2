import MethodScout.Archive.Basic
import MethodScout.Archive.Checksum
import MethodScout.Archive.Inflate
import MethodScout.Bytes
import MethodScout.Category
import MethodScout.ClassFile.Basic
import MethodScout.ClassFile.ConstantPool
import MethodScout.ClassFile.Descriptor
import MethodScout.ClassFile.Fault
import MethodScout.ClassFile.Instruction
import MethodScout.Classification
import MethodScout.Command
import MethodScout.CommandLine.Arguments
import MethodScout.CommandLine.Help
import MethodScout.Features
import MethodScout.FileTree.Basic
import MethodScout.FileTree.Edit
import MethodScout.FileTree.Listing
import MethodScout.FileTree.Path
import MethodScout.Log.Basic
import MethodScout.Log.Event
import MethodScout.Main
import MethodScout.NameMap
import MethodScout.NameSet
import MethodScout.Proofs.Aggregation
import MethodScout.Proofs.ArchiveCopies
import MethodScout.Proofs.ArgumentOrders
import MethodScout.Proofs.Attempts
import MethodScout.Proofs.ClassLayout
import MethodScout.Proofs.Classifications
import MethodScout.Proofs.CodeConcatenation
import MethodScout.Proofs.CodeFaults
import MethodScout.Proofs.CodeGrammar
import MethodScout.Proofs.CodeUnits
import MethodScout.Proofs.Composition
import MethodScout.Proofs.Contents
import MethodScout.Proofs.Counts
import MethodScout.Proofs.DirectoryListings
import MethodScout.Proofs.Exclusions
import MethodScout.Proofs.Formats
import MethodScout.Proofs.IncludeLists
import MethodScout.Proofs.JsonReader
import MethodScout.Proofs.JsonReports
import MethodScout.Proofs.Links
import MethodScout.Proofs.MachineDecoder
import MethodScout.Proofs.MachineReader
import MethodScout.Proofs.MachineText
import MethodScout.Proofs.MethodTypes
import MethodScout.Proofs.ModifiedText
import MethodScout.Proofs.NestedClasses
import MethodScout.Proofs.Outcomes
import MethodScout.Proofs.PathNames
import MethodScout.Proofs.Policies
import MethodScout.Proofs.PoolEntries
import MethodScout.Proofs.PoolReferences
import MethodScout.Proofs.PoolSlots
import MethodScout.Proofs.ReportParts
import MethodScout.Proofs.Reports
import MethodScout.Proofs.Rules
import MethodScout.Proofs.Scans
import MethodScout.Proofs.Shadowing
import MethodScout.Proofs.ShellAssignments
import MethodScout.Proofs.StoredArchives
import MethodScout.Proofs.Summaries
import MethodScout.Proofs.Thresholds
import MethodScout.Proofs.Truncation
import MethodScout.Proofs.Utf8Order
import MethodScout.Proofs.Utf8Sequences
import MethodScout.Proofs.Words
import MethodScout.Reader
import MethodScout.Report.Basic
import MethodScout.Report.Rendering
import MethodScout.Resource
import MethodScout.Scan.Basic
import MethodScout.Scan.Fault
import MethodScout.Scan.Root
import MethodScout.Scan.Source
import MethodScout.Settings
import MethodScout.Text.Basic
import MethodScout.Text.CodePage437
import MethodScout.Text.Json
import MethodScout.Text.ModifiedUtf8
import MethodScout.Text.Utf16
import MethodScout.Text.Utf8
