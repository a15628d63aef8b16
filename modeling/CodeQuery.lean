import CodeQuery.Text.Bytes
import CodeQuery.Text.Chars
import CodeQuery.Text.Lines
import CodeQuery.Text.Splice
import CodeQuery.Text.Utf8
import CodeQuery.Text.Words
import CodeQuery.Text.Blanks
import CodeQuery.Text.Rows
import CodeQuery.Text.Search
import CodeQuery.Text.Identifiers
import CodeQuery.Text.Percent
import CodeQuery.Text.Replace
import CodeQuery.Text.Occurrences
import CodeQuery.Data.Frames
import CodeQuery.Data.CommandLine
import CodeQuery.Data.LastGiven
import CodeQuery.Data.Blocks
import CodeQuery.Data.Groups
import CodeQuery.Data.FileTable
import CodeQuery.Data.FileTree
import CodeQuery.Data.StableSort
import CodeQuery.Data.Covers
import CodeQuery.Data.Firsts
import CodeQuery.Data.Demand
import CodeQuery.Data.Results
import CodeQuery.Data.Steps
import CodeQuery.Data.Worlds
import CodeQuery.Core.Path
import CodeQuery.Core.Symbol
import CodeQuery.Core.SymbolKind
import CodeQuery.Core.PathText
import CodeQuery.Core.Query
import CodeQuery.Core.Language
import CodeQuery.Parse.Tree
import CodeQuery.Parse.ExtractEngine
import CodeQuery.Parse.ExtractorCache
import CodeQuery.Parse.SymbolRanges
import CodeQuery.Index.Refs
import CodeQuery.Index.RefsPositions
import CodeQuery.Index.RefsGeneric
import CodeQuery.Index.RefsOrdered
import CodeQuery.Index.Scanner
import CodeQuery.Index.ScannerProofs
import CodeQuery.Index.CacheRecord
import CodeQuery.Index.SymbolIndex
import CodeQuery.Index.Grep
import CodeQuery.Index.RefsContext
import CodeQuery.Index.ConfiguredDiscovery
import CodeQuery.Resolve.Types
import CodeQuery.Resolve.Resolver
import CodeQuery.Resolve.Stitch
import CodeQuery.Resolve.Exact
import CodeQuery.Resolve.Warnings
import CodeQuery.Resolve.Cap
import CodeQuery.Resolve.Pruned
import CodeQuery.Resolve.Deps
import CodeQuery.Resolve.PreFilter
import CodeQuery.Resolve.Dialect
import CodeQuery.Parse.Parser
import CodeQuery.Parse.Places
import CodeQuery.Parse.Definition
import CodeQuery.Parse.Extract
import CodeQuery.Index.Extracted
import CodeQuery.Index.OwnUses
import CodeQuery.Parse.Items
import CodeQuery.Parse.RustItems
import CodeQuery.Parse.CppScopes
import CodeQuery.Parse.RubyNesting
import CodeQuery.Parse.Hierarchy
import CodeQuery.Parse.Supertypes
import CodeQuery.Parse.DefinitionNodes
import CodeQuery.Parse.Extraction
import CodeQuery.Parse.Diagnostics
import CodeQuery.Parse.Imports
import CodeQuery.Parse.AutoInstall
import CodeQuery.Parse.PackageInstall
import CodeQuery.Parse.TypeAnnotations
import CodeQuery.Parse.TrimmedText
import CodeQuery.Parse.Symbols.Go
import CodeQuery.Parse.HeaderSignatures
import CodeQuery.Parse.PythonSignatures
import CodeQuery.Parse.Decorators
import CodeQuery.Parse.GoNames
import CodeQuery.Parse.HtmlTags
import CodeQuery.Parse.DeclarationPlaces
import CodeQuery.Parse.NameNodes
import CodeQuery.Parse.EndLines
import CodeQuery.Parse.OwnComments
import CodeQuery.Cli.Common
import CodeQuery.Cli.Rename
import CodeQuery.Cli.RenameSafety
import CodeQuery.Cli.RenameReach
import CodeQuery.Cli.RenameFilter
import CodeQuery.Cli.ApplyEdits
import CodeQuery.Cli.EditOrder
import CodeQuery.Cli.Dead
import CodeQuery.Cli.Refs
import CodeQuery.Cli.RefsProofs
import CodeQuery.Cli.RefsOrder
import CodeQuery.Cli.ContextLines
import CodeQuery.Cli.Callers
import CodeQuery.Cli.Names
import CodeQuery.Cli.Lookups
import CodeQuery.Cli.FramedBody
import CodeQuery.Cli.LineMarker
import CodeQuery.Cli.FindSymbols
import CodeQuery.Cli.FirstMatch
import CodeQuery.Cli.Def
import CodeQuery.Cli.Deps
import CodeQuery.Cli.DepsShape
import CodeQuery.Cli.Context
import CodeQuery.Cli.Location
import CodeQuery.Cli.Hover
import CodeQuery.Cli.Innermost
import CodeQuery.Cli.ContextDepth
import CodeQuery.Cli.CallChain
import CodeQuery.Cli.Hierarchy
import CodeQuery.Cli.Grammar
import CodeQuery.Cli.GrammarUpdate
import CodeQuery.Cli.TreeDepth
import CodeQuery.Cli.GrammarRemove
import CodeQuery.Cli.PackageUsable
import CodeQuery.Lsp.Protocol
import CodeQuery.Lsp.Transport
import CodeQuery.Lsp.Framing
import CodeQuery.Lsp.Correlation
import CodeQuery.Lsp.Socket
import CodeQuery.Lsp.Daemon
import CodeQuery.Lsp.DaemonGate
import CodeQuery.Lsp.Client
import CodeQuery.Lsp.ClientRuns
import CodeQuery.Lsp.OpenDocs
import CodeQuery.Lsp.DaemonFile
import CodeQuery.Lsp.Readiness
import CodeQuery.Lsp.ServerPool
import CodeQuery.Lsp.ServerOverrides
import CodeQuery.Lsp.Queries
import CodeQuery.Lsp.Cascade
import CodeQuery.Lsp.CascadeTiers
import CodeQuery.Lsp.IdentifierColumn
import CodeQuery.Lsp.FileUri
import CodeQuery.Mcp.Protocol
import CodeQuery.Mcp.Tools
import CodeQuery.Mcp.Server
import CodeQuery.Mcp.Correlation
import CodeQuery.Mcp.Gate
import CodeQuery.Mcp.Edit
import CodeQuery.Mcp.CallLine
import CodeQuery.Tsg.Graph
import CodeQuery.Tsg.GraphOps
import CodeQuery.Tsg.Ast
import CodeQuery.Tsg.Strict
import CodeQuery.Tsg.Lazy
import CodeQuery.Tsg.LazyForce
import CodeQuery.Tsg.LazyBuild
import CodeQuery.Tsg.LazyRun
import CodeQuery.Tsg.Environments
import CodeQuery.Tsg.Checker
import CodeQuery.Tsg.Locality
import CodeQuery.Tsg.Settled
import CodeQuery.Tsg.EdgesFirst
import CodeQuery.Tsg.Agreement
import CodeQuery.Tsg.SameGraph
import CodeQuery.Tsg.Parser
import CodeQuery.Tsg.ParserRuns
import CodeQuery.Tsg.ParserFiles
import CodeQuery.Tsg.Display
import CodeQuery.Tsg.Reads
import CodeQuery.Tsg.Reading
