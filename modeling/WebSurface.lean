import WebSurface.Arguments
import WebSurface.Command
import WebSurface.Config
import WebSurface.Corpus.Bundled
import WebSurface.Corpus.Index
import WebSurface.Corpus.Registry
import WebSurface.Declaration
import WebSurface.Declaration.Interface
import WebSurface.Declaration.Member
import WebSurface.Document
import WebSurface.Files.Tree
import WebSurface.Main
import WebSurface.Names
import WebSurface.Proofs.AliasHeads
import WebSurface.Proofs.BalancedTypes
import WebSurface.Proofs.BareTypes
import WebSurface.Proofs.Blank
import WebSurface.Proofs.Boundaries
import WebSurface.Proofs.ByteComments
import WebSurface.Proofs.ByteCuts
import WebSurface.Proofs.ByteDeclarations
import WebSurface.Proofs.ByteLoops
import WebSurface.Proofs.ByteMembers
import WebSurface.Proofs.ByteNesting
import WebSurface.Proofs.ByteTokens
import WebSurface.Proofs.ByteTypes
import WebSurface.Proofs.CallbackFlags
import WebSurface.Proofs.Callee
import WebSurface.Proofs.Classification
import WebSurface.Proofs.ClosedSurface
import WebSurface.Proofs.CommentCover
import WebSurface.Proofs.Distance
import WebSurface.Proofs.EditDistance
import WebSurface.Proofs.Enclosure
import WebSurface.Proofs.Filing
import WebSurface.Proofs.Gaps
import WebSurface.Proofs.GraphRuns
import WebSurface.Proofs.InterfaceLayout
import WebSurface.Proofs.JoinedCorpus
import WebSurface.Proofs.Layout
import WebSurface.Proofs.LeadingNames
import WebSurface.Proofs.Lexemes
import WebSurface.Proofs.LineOrder
import WebSurface.Proofs.ListedEntries
import WebSurface.Proofs.ListedMethods
import WebSurface.Proofs.Lookups
import WebSurface.Proofs.MappedArrays
import WebSurface.Proofs.MappedParts
import WebSurface.Proofs.MappedUnions
import WebSurface.Proofs.MappingDepth
import WebSurface.Proofs.MemberRuns
import WebSurface.Proofs.MemberTables
import WebSurface.Proofs.NameTable
import WebSurface.Proofs.Naming
import WebSurface.Proofs.NormalForm
import WebSurface.Proofs.NormalTokens
import WebSurface.Proofs.NullablePaths
import WebSurface.Proofs.NullableSpellings
import WebSurface.Proofs.Overrides
import WebSurface.Proofs.Parentheses
import WebSurface.Proofs.Partition
import WebSurface.Proofs.Partners
import WebSurface.Proofs.Pieces
import WebSurface.Proofs.Placed
import WebSurface.Proofs.PureSurface
import WebSurface.Proofs.Quiet
import WebSurface.Proofs.Reached
import WebSurface.Proofs.ReadMembers
import WebSurface.Proofs.Reclassification
import WebSurface.Proofs.References
import WebSurface.Proofs.RegistryRuns
import WebSurface.Proofs.ReturnTypes
import WebSurface.Proofs.SearchSteps
import WebSurface.Proofs.Settled
import WebSurface.Proofs.Statements
import WebSurface.Proofs.TargetTexts
import WebSurface.Proofs.Targets
import WebSurface.Proofs.TokenNesting
import WebSurface.Proofs.TokenSpans
import WebSurface.Proofs.TopLevel
import WebSurface.Proofs.Unions
import WebSurface.Proofs.Utf8
import WebSurface.Proofs.Verdicts
import WebSurface.Proofs.Workload
import WebSurface.Proofs.WrittenAlias
import WebSurface.Proofs.WrittenHead
import WebSurface.Proofs.WrittenMember
import WebSurface.Proofs.WrittenOver
import WebSurface.Proofs.WrittenParameter
import WebSurface.Proofs.WrittenSource
import WebSurface.Proofs.WrittenType
import WebSurface.Proofs.WrittenUnion
import WebSurface.Purity
import WebSurface.Scan
import WebSurface.Span
import WebSurface.Surface
import WebSurface.Text
import WebSurface.Text.Case
import WebSurface.Text.Letter
import WebSurface.Token
import WebSurface.Toml
import WebSurface.Toml.Scalar
import WebSurface.TypeGraph
import WebSurface.TypeTable
import WebSurface.TypeText
