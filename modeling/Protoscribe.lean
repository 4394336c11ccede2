import Protoscribe.CommandLine.Directory
import Protoscribe.Main
import Protoscribe.Proofs.Compile.Derivation
import Protoscribe.Proofs.Compile.Growth
import Protoscribe.Proofs.Compile.Run
import Protoscribe.Proofs.Compile.Soundness
import Protoscribe.Proofs.Compile.Outcome
import Protoscribe.Proofs.ReferenceGraph
import Protoscribe.Proofs.Compile.Everywhere
import Protoscribe.Proofs.Identifier
import Protoscribe.Proofs.Compile.WellNamed
import Protoscribe.Proofs.Compile.WellTyped
import Protoscribe.Proofs.Link.Places
import Protoscribe.Proofs.Link.Drafted
import Protoscribe.Proofs.Link.Compiled
import Protoscribe.Proofs.Link.References
import Protoscribe.Proofs.Compile.Linked
import Protoscribe.Proofs.DeclaredTypes
import Protoscribe.Proofs.ReferenceTargets
import Protoscribe.Proofs.TypeKinds
import Protoscribe.Proofs.Compile.Filled
import Protoscribe.Proofs.Compile.History
import Protoscribe.Proofs.EmptyMessages
import Protoscribe.Proofs.Compile.Failure
import Protoscribe.Proofs.Compile.Calls
import Protoscribe.Proofs.Compile.Blame
import Protoscribe.Proofs.Compile.MoreLevels
import Protoscribe.Proofs.OpenApi.Depth
import Protoscribe.Proofs.Compile.Roots
import Protoscribe.Proofs.Termination
import Protoscribe.Proofs.Compile.Needs
import Protoscribe.Proofs.CycleReports
import Protoscribe.Proofs.InlineTypes
import Protoscribe.Proofs.Compile.DistinctNames
import Protoscribe.Proofs.Link.FinishedFields
import Protoscribe.Proofs.NamesAndNumbers
import Protoscribe.Proofs.Compile.FreeName
import Protoscribe.Proofs.Spelling
import Protoscribe.Proofs.Compile.ValueNames
import Protoscribe.Proofs.EnumValues
import Protoscribe.Proofs.Compile.Grouped
import Protoscribe.Proofs.Oneofs
import Protoscribe.Proofs.Compile.ScopeNames
import Protoscribe.Proofs.Symbols
import Protoscribe.Proofs.Wire.Records
import Protoscribe.Proofs.Wire.Descriptors
import Protoscribe.Proofs.Operations
import Protoscribe.Proofs.PrintedTypes
import Protoscribe.Proofs.LegalNames
import Protoscribe.Proofs.Lettered
import Protoscribe.Proofs.OpenApi.Texts
import Protoscribe.Proofs.Compile.LetteredNames
import Protoscribe.Proofs.Compile.Interruption
import Protoscribe.Proofs.Compile.Passes
import Protoscribe.Proofs.Additions
import Protoscribe.Proofs.Compile.Chronicle
import Protoscribe.Proofs.DeclarationOrder
import Protoscribe.Proofs.ParameterOverrides
import Protoscribe.Proofs.Draft.Addresses
import Protoscribe.Proofs.Draft.Elements
import Protoscribe.Proofs.Comments
import Protoscribe.Proofs.Compile.EnoughLevels
import Protoscribe.Proofs.SkippedOperations
import Protoscribe.Proofs.Compile.Faithful
import Protoscribe.Proofs.Compile.FaithfulPasses
import Protoscribe.Proofs.TruthfulErrors
import Protoscribe.Proofs.ImportCover
import Protoscribe.Proofs.RegisteredNames
import Protoscribe.Proofs.Linking
import Protoscribe.Proofs.Compile.Marked
import Protoscribe.Proofs.Presence
import Protoscribe.Proofs.Compile.Blank
import Protoscribe.Proofs.PathVariables
import Protoscribe.Proofs.RenamedTypes
import Protoscribe.Proofs.Identifier.Words
import Protoscribe.Proofs.Identifier.SnakeCase
import Protoscribe.Proofs.Identifier.Letters
import Protoscribe.Proofs.Identifier.Repeated
import Protoscribe.Proofs.Compile.Tidy
import Protoscribe.Proofs.ObjectProperties
import Protoscribe.Proofs.ReferenceKeys
import Protoscribe.Proofs.ReferenceChains
import Protoscribe.Proofs.Compile.Built
import Protoscribe.Proofs.PropertyOrder
import Protoscribe.Proofs.MergedMessages
import Protoscribe.Proofs.PrintedFields
import Protoscribe.Proofs.CommentLines
import Protoscribe.Proofs.Compile.Mirrored
import Protoscribe.Proofs.Prose
import Protoscribe.Proofs.StringLiterals
import Protoscribe.Proofs.MemberOrder
import Protoscribe.Proofs.Compile.Watched
import Protoscribe.Proofs.Surroundings
