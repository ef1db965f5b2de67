import QueryTypes.Binary64
import QueryTypes.CommandLine
import QueryTypes.CommandLine.Choice
import QueryTypes.Compiled
import QueryTypes.Compiled.Json
import QueryTypes.Declaration
import QueryTypes.Declaration.Flow
import QueryTypes.Declaration.Swift
import QueryTypes.Declaration.Type
import QueryTypes.Declaration.TypeScript
import QueryTypes.Digest
import QueryTypes.Discriminator
import QueryTypes.Document
import QueryTypes.Document.Printer
import QueryTypes.Document.Read
import QueryTypes.Document.Rule
import QueryTypes.Error
import QueryTypes.Generation
import QueryTypes.Graph
import QueryTypes.Json
import QueryTypes.Main
import QueryTypes.Options
import QueryTypes.Ordered
import QueryTypes.Position
import QueryTypes.Proofs.BuiltSchemas
import QueryTypes.Proofs.CodeLines
import QueryTypes.Proofs.Coherence
import QueryTypes.Proofs.Collecting
import QueryTypes.Proofs.Combining
import QueryTypes.Proofs.Comments
import QueryTypes.Proofs.Compilable
import QueryTypes.Proofs.CompiledRuns
import QueryTypes.Proofs.Crossings
import QueryTypes.Proofs.Decoding
import QueryTypes.Proofs.DefaultOperations
import QueryTypes.Proofs.DefinitionOrder
import QueryTypes.Proofs.Deliveries
import QueryTypes.Proofs.DescriptionLines
import QueryTypes.Proofs.Discriminators
import QueryTypes.Proofs.EmbeddedOperations
import QueryTypes.Proofs.Emitting
import QueryTypes.Proofs.Erasing
import QueryTypes.Proofs.Everywhere
import QueryTypes.Proofs.Exclusivity
import QueryTypes.Proofs.ExpandedTypes
import QueryTypes.Proofs.Expansion
import QueryTypes.Proofs.FieldTypes
import QueryTypes.Proofs.FoldedExtensions
import QueryTypes.Proofs.Independence
import QueryTypes.Proofs.JoinedDocuments
import QueryTypes.Proofs.JoinedLines
import QueryTypes.Proofs.Layout
import QueryTypes.Proofs.Lexing
import QueryTypes.Proofs.Literals
import QueryTypes.Proofs.MappedFields
import QueryTypes.Proofs.MeetingSelections
import QueryTypes.Proofs.MergedPaths
import QueryTypes.Proofs.Merging
import QueryTypes.Proofs.NeededTypes
import QueryTypes.Proofs.Nesting
import QueryTypes.Proofs.OperationMeaning
import QueryTypes.Proofs.OperationNames
import QueryTypes.Proofs.OperationStrings
import QueryTypes.Proofs.OperationText
import QueryTypes.Proofs.Ordered
import QueryTypes.Proofs.PathNames
import QueryTypes.Proofs.PlacelessReading
import QueryTypes.Proofs.Placement
import QueryTypes.Proofs.PlainSelections
import QueryTypes.Proofs.Printing
import QueryTypes.Proofs.Provenance
import QueryTypes.Proofs.Pruning
import QueryTypes.Proofs.Reaching
import QueryTypes.Proofs.ReadDocuments
import QueryTypes.Proofs.ReadValues
import QueryTypes.Proofs.Reading
import QueryTypes.Proofs.ReferencedFragments
import QueryTypes.Proofs.References
import QueryTypes.Proofs.RepeatedFields
import QueryTypes.Proofs.Rereading
import QueryTypes.Proofs.ResponseKeys
import QueryTypes.Proofs.Results
import QueryTypes.Proofs.SchemaNames
import QueryTypes.Proofs.SchemaTypes
import QueryTypes.Proofs.Settled
import QueryTypes.Proofs.ShapeKeys
import QueryTypes.Proofs.ShapeNames
import QueryTypes.Proofs.SpreadStack
import QueryTypes.Proofs.StructuralTypes
import QueryTypes.Proofs.TextLines
import QueryTypes.Proofs.TypePartition
import QueryTypes.Proofs.TypeTexts
import QueryTypes.Proofs.Unconditional
import QueryTypes.Proofs.Undescribed
import QueryTypes.Proofs.UndescribedDeclarations
import QueryTypes.Proofs.UndescribedItems
import QueryTypes.Proofs.UndescribedShapes
import QueryTypes.Proofs.UniqueKeys
import QueryTypes.Proofs.Unplaced
import QueryTypes.Proofs.Unwinding
import QueryTypes.Proofs.UsedTypes
import QueryTypes.Proofs.Validity
import QueryTypes.Proofs.Verdicts
import QueryTypes.Proofs.VisitedTypes
import QueryTypes.Proofs.WellKeyed
import QueryTypes.Proofs.Writing
import QueryTypes.Proofs.WrittenDecoders
import QueryTypes.Proofs.WrittenNames
import QueryTypes.Proofs.WrittenTypes
import QueryTypes.Request
import QueryTypes.Rule
import QueryTypes.Schema
import QueryTypes.Schema.Build
import QueryTypes.Shape
import QueryTypes.Shape.Branches
import QueryTypes.Shape.Collect
import QueryTypes.Shape.PropertySet
import QueryTypes.Sources
import QueryTypes.Store
import QueryTypes.Synthesis
import QueryTypes.Tagged
import QueryTypes.Text.Blank
import QueryTypes.Text.Visible
import QueryTypes.Text.WordCharacter
import QueryTypes.Text.Words
import QueryTypes.Token
import QueryTypes.Token.Lexer
import QueryTypes.Token.Number
import QueryTypes.Token.Quoted
import QueryTypes.TypeRef
import QueryTypes.TypeRef.Rule
import QueryTypes.TypeSystem
import QueryTypes.TypeSystem.Rule
import QueryTypes.Validation
import QueryTypes.Value
import QueryTypes.Value.Printer
import QueryTypes.Value.Rule
import QueryTypes.Writer
import QueryTypes.Writer.Program
