import WireSchema.Compile.EncodeFunction
import WireSchema.Compile.Error
import WireSchema.Compile.Naming
import WireSchema.Compile.Program
import WireSchema.Compile.Representation
import WireSchema.Compile.SizeFunction
import WireSchema.Declaration
import WireSchema.Directive.Basic
import WireSchema.Directive.Document
import WireSchema.Encoding.Encoder
import WireSchema.Encoding.Fault
import WireSchema.Encoding.Output
import WireSchema.Encoding.Run
import WireSchema.Encoding.Scalar
import WireSchema.Encoding.Size
import WireSchema.Json
import WireSchema.Number.Binary64
import WireSchema.Number.Bytes
import WireSchema.Number.Decimal
import WireSchema.Number.Power
import WireSchema.Packing.Layout
import WireSchema.Packing.Primitive
import WireSchema.Program
import WireSchema.Proofs.AcceptedInputs
import WireSchema.Proofs.AgreeingInputs
import WireSchema.Proofs.AlikeGraphs
import WireSchema.Proofs.AlikeValues
import WireSchema.Proofs.BlamelessRuns
import WireSchema.Proofs.BoundedCompile
import WireSchema.Proofs.BuiltGraph
import WireSchema.Proofs.CheckedReadings
import WireSchema.Proofs.ClosedProgram
import WireSchema.Proofs.CompiledProgram
import WireSchema.Proofs.ConsistentNumbers
import WireSchema.Proofs.ContainedTypes
import WireSchema.Proofs.CycleDetection
import WireSchema.Proofs.DependencyOrder
import WireSchema.Proofs.DistinctNames
import WireSchema.Proofs.DocumentFormat
import WireSchema.Proofs.DocumentTrees
import WireSchema.Proofs.EncodeSafety
import WireSchema.Proofs.EncodedSize
import WireSchema.Proofs.ExactEncoding
import WireSchema.Proofs.Frame
import WireSchema.Proofs.GeneratedNames
import WireSchema.Proofs.GraphRepresentation
import WireSchema.Proofs.Indistinguishable
import WireSchema.Proofs.IntegerSlots
import WireSchema.Proofs.LaidOut
import WireSchema.Proofs.LayoutExistence
import WireSchema.Proofs.LocalFormat
import WireSchema.Proofs.MarkPropagation
import WireSchema.Proofs.MatchingLayouts
import WireSchema.Proofs.MatchingLowering
import WireSchema.Proofs.MatchingPrograms
import WireSchema.Proofs.MemberLowering
import WireSchema.Proofs.MemberViews
import WireSchema.Proofs.NameLookup
import WireSchema.Proofs.NestedPayload
import WireSchema.Proofs.Outcome
import WireSchema.Proofs.PackedSizes
import WireSchema.Proofs.PayloadArguments
import WireSchema.Proofs.PayloadReservation
import WireSchema.Proofs.PayloadRoom
import WireSchema.Proofs.PostOrder
import WireSchema.Proofs.Progress
import WireSchema.Proofs.QualifiedTypes
import WireSchema.Proofs.ReadyEncoder
import WireSchema.Proofs.RearrangedGraphs
import WireSchema.Proofs.ReferenceEncoding
import WireSchema.Proofs.ReferenceRecords
import WireSchema.Proofs.RejectedNesting
import WireSchema.Proofs.ResolvedGraph
import WireSchema.Proofs.RestatedValues
import WireSchema.Proofs.RootOrder
import WireSchema.Proofs.RunParts
import WireSchema.Proofs.SafeExecution
import WireSchema.Proofs.ScalarEncoding
import WireSchema.Proofs.ScopeNames
import WireSchema.Proofs.ShownValues
import WireSchema.Proofs.SizeAgreement
import WireSchema.Proofs.SlotOrder
import WireSchema.Proofs.SlotTable
import WireSchema.Proofs.StillCursor
import WireSchema.Proofs.StoreStatements
import WireSchema.Proofs.StoredNumbers
import WireSchema.Proofs.SyntaxTrees
import WireSchema.Proofs.TiledLayouts
import WireSchema.Proofs.TypeEnumeration
import WireSchema.Proofs.UnreadMembers
import WireSchema.Proofs.UnreadWording
import WireSchema.Proofs.Visits
import WireSchema.Proofs.WellShapedValues
import WireSchema.Proofs.WorklistSearch
import WireSchema.Proofs.Writes
import WireSchema.Rendering.Conversion
import WireSchema.Rendering.Declarations
import WireSchema.Rendering.Document
import WireSchema.Rendering.Service
import WireSchema.Request
import WireSchema.Search.Remaining
import WireSchema.Search.Worklist
import WireSchema.Settings
import WireSchema.Table
import WireSchema.Text.Blank
import WireSchema.Text.CaseTable
import WireSchema.Text.Identifier
import WireSchema.Text.Letter
import WireSchema.Text.Numeral
import WireSchema.Text.Quoted
import WireSchema.TypeGraph.Basic
import WireSchema.TypeGraph.Build
import WireSchema.TypeGraph.Order
import WireSchema.Value
