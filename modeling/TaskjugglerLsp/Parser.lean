import TaskjugglerLsp.Pathutil

/-!
# What a parse yields

The data of `parser.h`.  Token kinds and keywords are the codes that bison
assigns to the `%token` declarations of `grammar.y`, in order from 258; the ones
that the rest of the program compares with have names.

`parse` keeps no state between two calls, so the modules below take it as a
function of the text.
-/

namespace TaskjugglerLsp

/-- A source position, zero-indexed. -/
structure LspPos where
  line : UInt32
  character : UInt32
  deriving DecidableEq, Repr

/-- A half-open source range. -/
structure LspRange where
  start : LspPos
  stop : LspPos
  deriving DecidableEq, Repr

/-! ### Token kinds -/

def kwProject : ℕ := 258
def kwTask : ℕ := 259
def kwResource : ℕ := 260
def kwAccount : ℕ := 261
def kwShift : ℕ := 262
def kwInclude : ℕ := 264
def kwTaskprefix : ℕ := 437
def kwYearlyworkingdays : ℕ := 459
def tkIdent : ℕ := 460
def tkStr : ℕ := 461
def tkDate : ℕ := 464
def tkDuration : ℕ := 465
def tkLbrace : ℕ := 466
def tkRbrace : ℕ := 467
def tkBang : ℕ := 470
def tkDot : ℕ := 473
def tkComma : ℕ := 475
def tkMultiLineStr : ℕ := 478
def tkLineComment : ℕ := 480
def tkBlockComment : ℕ := 481

/-- A token with its source location and its text. -/
structure TokenSpan where
  tokenKind : ℕ
  start : LspPos
  stop : LspPos
  text : Option CStr
  deriving DecidableEq, Repr

/-! ### Declarations -/

/-- Direction of a dependency reference. -/
inductive DepKind where
  | depends
  | precedes
  deriving DecidableEq, Repr

/-- One `depends` or `precedes` reference. -/
structure Dependency where
  kind : DepKind
  bangCount : ℕ
  path : Option CStr
  sourceRange : LspRange
  deriving DecidableEq, Repr

/-- The fields of a declaration, apart from the declarations inside it. -/
structure TjInfo where
  keyword : ℕ
  id : Option CStr
  name : Option CStr
  range : LspRange
  selectionRange : LspRange
  dependencies : List Dependency
  deriving DecidableEq, Repr

/-- A declaration of a document. -/
inductive TjNode where
  | mk (info : TjInfo) (children : List TjNode)

namespace TjNode

def info : TjNode → TjInfo
  | mk info _ => info

def children : TjNode → List TjNode
  | mk _ children => children

def keyword (n : TjNode) : ℕ := n.info.keyword

end TjNode

/-! ### Include directives -/

/-- The id namespace that a prefix applies to. -/
inductive PrefixKind where
  | task
  | account
  | resource
  | report
  deriving DecidableEq, Repr

/-- One dotted path per kind, or none. -/
abbrev PrefixSet := PrefixKind → Option CStr

/-- The set without any prefix. -/
def noPrefixes : PrefixSet := fun _ => none

/-- An `include` directive. -/
structure IncludeRef where
  filename : CStr
  prefixes : PrefixSet

/-- The output of one parse; `root` is the synthetic root over the declarations. -/
structure ParseOutput where
  root : TjNode
  tokSpans : List TokenSpan
  numSemEntries : ℕ
  includes : List IncludeRef

end TaskjugglerLsp
