import TaskjugglerLsp.SemanticTokens.Delta
import TaskjugglerLsp.SemanticTokens.DeltaSearch
import TaskjugglerLsp.SemanticTokens.DeltaValid
import TaskjugglerLsp.DocumentStore
import TaskjugglerLsp.Json
import TaskjugglerLsp.CompileCommands
import TaskjugglerLsp.Lib.Worklist
import TaskjugglerLsp.ProjectTree
import TaskjugglerLsp.Workspace
import TaskjugglerLsp.Lifecycle
import TaskjugglerLsp.Workspace.Loading
import TaskjugglerLsp.Tj3
import TaskjugglerLsp.Workspace.Snapshot
import TaskjugglerLsp.Workspace.Assembly
import TaskjugglerLsp.Workspace.Membership
import TaskjugglerLsp.Lifecycle.Actions
import TaskjugglerLsp.Lib.Runs
import TaskjugglerLsp.Lifecycle.Events
import TaskjugglerLsp.Lifecycle.Buffers
import TaskjugglerLsp.Lifecycle.CompileRoots
import TaskjugglerLsp.Lifecycle.Publication
import TaskjugglerLsp.Lib.Decimal
import TaskjugglerLsp.SemanticTokens.Encode
import TaskjugglerLsp.QueryContext
import TaskjugglerLsp.SemanticTokens.Handlers
import TaskjugglerLsp.Lifecycle.Documents
import TaskjugglerLsp.SemanticTokens.History
import TaskjugglerLsp.Lifecycle.Prefixes
import TaskjugglerLsp.Lifecycle.Independence
import TaskjugglerLsp.Lifecycle.Chains
import TaskjugglerLsp.Lib.Arrivals
import TaskjugglerLsp.Lib.RefCount
import TaskjugglerLsp.Server
import TaskjugglerLsp.Server.Flow
import TaskjugglerLsp.Server.Isolation
import TaskjugglerLsp.Server.Responses
import TaskjugglerLsp.Lib.Mailbox
import TaskjugglerLsp.DiagWorker
import TaskjugglerLsp.DiagWorker.Registry
import TaskjugglerLsp.DiagWorker.Convergence
import TaskjugglerLsp.DiagWorker.Handover
import TaskjugglerLsp.Lib.Pool
import TaskjugglerLsp.QueryContext.Holders
import TaskjugglerLsp.QueryContext.Counting
import TaskjugglerLsp.Workspace.Closure
import TaskjugglerLsp.Lib.Descent
import TaskjugglerLsp.ProjectTree.Resolution
import TaskjugglerLsp.ProjectTree.Clones
import TaskjugglerLsp.ProjectTree.Agreement
import TaskjugglerLsp.Completion
import TaskjugglerLsp.Completion.Offers
import TaskjugglerLsp.Completion.Bangs
import TaskjugglerLsp.Lib.EditScript
import TaskjugglerLsp.SemanticTokens.DeltaMinimal
import TaskjugglerLsp.Lib.TextCursor
import TaskjugglerLsp.Lifecycle.TextChanges
import TaskjugglerLsp.Lifecycle.TextClamping
import TaskjugglerLsp.Lexer
import TaskjugglerLsp.Lifecycle.TextUtf16
import TaskjugglerLsp.Lexer.Coverage
import TaskjugglerLsp.Lexer.Spans
import TaskjugglerLsp.Lexer.Columns
import TaskjugglerLsp.Lib.LineBuffer
import TaskjugglerLsp.Lib.CountedArray
import TaskjugglerLsp.SemanticTokens.Buffer
import TaskjugglerLsp.SemanticTokens.Cover
import TaskjugglerLsp.Lib.Lr
import TaskjugglerLsp.Lib.SyntaxTree
import TaskjugglerLsp.Grammar
import TaskjugglerLsp.Grammar.Actions
import TaskjugglerLsp.Grammar.Isolation
import TaskjugglerLsp.Lexer.Boundaries
import TaskjugglerLsp.Grammar.Owners
import TaskjugglerLsp.Grammar.Statements
import TaskjugglerLsp.Grammar.Meaning
import TaskjugglerLsp.Lib.LrItems
import TaskjugglerLsp.Lexer.Evaluation
import TaskjugglerLsp.Grammar.Evaluation
import TaskjugglerLsp.Lexer.Placement
import TaskjugglerLsp.Grammar.Spelling
import TaskjugglerLsp.Grammar.Tokens
import TaskjugglerLsp.Grammar.Includes
import TaskjugglerLsp.Grammar.Captures
import TaskjugglerLsp.Grammar.Dependencies
import TaskjugglerLsp.Lib.Loop
import TaskjugglerLsp.CodeLens
import TaskjugglerLsp.CodeLens.WorkingDays
import TaskjugglerLsp.CodeLens.Durations
import TaskjugglerLsp.Lib.Paths
import TaskjugglerLsp.Tj3.Staging
import TaskjugglerLsp.Tj3.Reports
import TaskjugglerLsp.Hover
import TaskjugglerLsp.Completion.Response
import TaskjugglerLsp.Grammar.Output
import TaskjugglerLsp.Completion.Declarations
import TaskjugglerLsp.Completion.Statements
import TaskjugglerLsp.CodeLens.Spellings
import TaskjugglerLsp.Lib.RoseTree
import TaskjugglerLsp.Grammar.Outline
import TaskjugglerLsp.Grammar.Declarations
import TaskjugglerLsp.Lib.Regions
import TaskjugglerLsp.Arena
import TaskjugglerLsp.Lib.Bisect
import TaskjugglerLsp.Hover.Lookup
import TaskjugglerLsp.Hover.QualifiedId
import TaskjugglerLsp.Hover.ActiveKeyword
import TaskjugglerLsp.SemanticTokens.Capacity
import TaskjugglerLsp.SemanticTokens.Overflow
import TaskjugglerLsp.Pathutil.Spellings
import TaskjugglerLsp.Rpc
import TaskjugglerLsp.Lib.JsonText
import TaskjugglerLsp.DocumentSymbol
import TaskjugglerLsp.Lib.Ledger
import TaskjugglerLsp.Parser.Recycling
import TaskjugglerLsp.QueryContext.Memo
import TaskjugglerLsp.Lib.Layout
import TaskjugglerLsp.Dependency
import TaskjugglerLsp.Grammar.Layout
import TaskjugglerLsp.Grammar.Scopes
import TaskjugglerLsp.Grammar.Addresses
import TaskjugglerLsp.Grammar.Cursor
import TaskjugglerLsp.Grammar.Ids
import TaskjugglerLsp.Grammar.Symbols
import TaskjugglerLsp.Grammar.Attachment
import TaskjugglerLsp.Grammar.References
import TaskjugglerLsp.Lib.LinkedQueue
import TaskjugglerLsp.Threadpool
import TaskjugglerLsp.Threadpool.Conservation
import TaskjugglerLsp.Threadpool.Wakefulness
import TaskjugglerLsp.Threadpool.Refinement
import TaskjugglerLsp.Lib.Brackets
import TaskjugglerLsp.FoldingRange
import TaskjugglerLsp.Grammar.Segments
import TaskjugglerLsp.Grammar.TaskIds
import TaskjugglerLsp.Lib.Places
import TaskjugglerLsp.ProjectTree.Parsed
import TaskjugglerLsp.Navigation
import TaskjugglerLsp.Highlights
import TaskjugglerLsp.WorkspaceSymbol
