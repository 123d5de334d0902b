import CoolBackend.Assemble
import CoolBackend.Assembly.Fragment
import CoolBackend.Assembly.Spim
import CoolBackend.Assembly.Template
import CoolBackend.Builtin
import CoolBackend.Cbor.Item
import CoolBackend.Cbor.Parse
import CoolBackend.ClassTable
import CoolBackend.ClassTable.Hierarchy
import CoolBackend.ClassTable.Layout
import CoolBackend.Code
import CoolBackend.CommandLine
import CoolBackend.CommandLine.Flags
import CoolBackend.CommandLine.Report
import CoolBackend.DatabaseHome
import CoolBackend.FileTree
import CoolBackend.Frame
import CoolBackend.Glob
import CoolBackend.Image
import CoolBackend.InternalError
import CoolBackend.Literal
import CoolBackend.Literal.Escape
import CoolBackend.Location
import CoolBackend.Lowering
import CoolBackend.Main
import CoolBackend.Manifest
import CoolBackend.Options
import CoolBackend.Path
import CoolBackend.Proofs.Agreement
import CoolBackend.Proofs.AlikeRuns
import CoolBackend.Proofs.Assembling
import CoolBackend.Proofs.AttributeLayouts
import CoolBackend.Proofs.CallingConvention
import CoolBackend.Proofs.Canonicalization
import CoolBackend.Proofs.Carried
import CoolBackend.Proofs.CarriedCode
import CoolBackend.Proofs.CarriedDiagnostics
import CoolBackend.Proofs.CarriedTables
import CoolBackend.Proofs.CaseSelection
import CoolBackend.Proofs.Climbs
import CoolBackend.Proofs.Closedness
import CoolBackend.Proofs.CompileOutcomes
import CoolBackend.Proofs.DeclarationOrder
import CoolBackend.Proofs.Decoding
import CoolBackend.Proofs.Dispatching
import CoolBackend.Proofs.Enrollment
import CoolBackend.Proofs.Evaluation
import CoolBackend.Proofs.Expressions
import CoolBackend.Proofs.FileTrees
import CoolBackend.Proofs.FrameOffsets
import CoolBackend.Proofs.FramePlans
import CoolBackend.Proofs.FrameScoping
import CoolBackend.Proofs.FreshLabels
import CoolBackend.Proofs.Globals
import CoolBackend.Proofs.Hierarchies
import CoolBackend.Proofs.HierarchyChecks
import CoolBackend.Proofs.ImageLabels
import CoolBackend.Proofs.ImageListing
import CoolBackend.Proofs.ImageText
import CoolBackend.Proofs.Initialization
import CoolBackend.Proofs.Items
import CoolBackend.Proofs.KnownClasses
import CoolBackend.Proofs.LayoutCaching
import CoolBackend.Proofs.Layouts
import CoolBackend.Proofs.Linking
import CoolBackend.Proofs.Listing
import CoolBackend.Proofs.ListingText
import CoolBackend.Proofs.LiteralLabels
import CoolBackend.Proofs.LiteralRequests
import CoolBackend.Proofs.Lookups
import CoolBackend.Proofs.LoweredParts
import CoolBackend.Proofs.LoweringInduction
import CoolBackend.Proofs.Lowerings
import CoolBackend.Proofs.Machines
import CoolBackend.Proofs.MethodSlots
import CoolBackend.Proofs.NodeNames
import CoolBackend.Proofs.ParsedItems
import CoolBackend.Proofs.PartialRuns
import CoolBackend.Proofs.Patterns
import CoolBackend.Proofs.PlannedDepths
import CoolBackend.Proofs.PlannedLowering
import CoolBackend.Proofs.ProgramTables
import CoolBackend.Proofs.Prototypes
import CoolBackend.Proofs.ReadRecords
import CoolBackend.Proofs.Reading
import CoolBackend.Proofs.RecordFaults
import CoolBackend.Proofs.Records
import CoolBackend.Proofs.References
import CoolBackend.Proofs.Rendering
import CoolBackend.Proofs.ReportedStores
import CoolBackend.Proofs.Resolution
import CoolBackend.Proofs.RoundTrip
import CoolBackend.Proofs.Runs
import CoolBackend.Proofs.SharedNodes
import CoolBackend.Proofs.Slots
import CoolBackend.Proofs.SourceDiscovery
import CoolBackend.Proofs.SpentSessions
import CoolBackend.Proofs.StackDiscipline
import CoolBackend.Proofs.StackFlow
import CoolBackend.Proofs.StringConstants
import CoolBackend.Proofs.SymbolDatabases
import CoolBackend.Proofs.SymbolRows
import CoolBackend.Proofs.SymbolUse
import CoolBackend.Proofs.TableCalls
import CoolBackend.Proofs.Tables
import CoolBackend.Proofs.TagTables
import CoolBackend.Proofs.Transport
import CoolBackend.Proofs.UniqueLabels
import CoolBackend.Proofs.UnreachableBranches
import CoolBackend.Proofs.Verified
import CoolBackend.Proofs.VerifiedTables
import CoolBackend.Proofs.WriteBarrier
import CoolBackend.Proofs.WrittenRecords
import CoolBackend.Session
import CoolBackend.Sources
import CoolBackend.Supply
import CoolBackend.SymbolStore
import CoolBackend.Symbols
import CoolBackend.Symbols.Script
import CoolBackend.Syntax
import CoolBackend.Text.Bytes
import CoolBackend.Text.Integer
import CoolBackend.Text.Printable
import CoolBackend.Text.Quoted
import CoolBackend.Text.Split
import CoolBackend.Toml
import CoolBackend.Toml.Document
import CoolBackend.Toml.Draft
import CoolBackend.Toml.Number
import CoolBackend.Toml.Parse
import CoolBackend.Toml.Quoted
import CoolBackend.Verify
import CoolBackend.Verify.Diagnostic
import CoolBackend.Verify.Hierarchy
import CoolBackend.Wire
import CoolBackend.Wire.Kind
import CoolBackend.Wire.OfItem
import CoolBackend.Wire.OfProgram
import CoolBackend.Wire.Record
import CoolBackend.Wire.ToItem
import CoolBackend.Wire.ToProgram
