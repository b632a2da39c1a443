import TaskjugglerLsp.Grammar
import TaskjugglerLsp.Hover

/-!
# The completion list

`build_completions_json` of `completion.c`: no completion in a string or behind the keyword of a
declaration, identifiers in an argument, and the keywords of the block at the start of a statement.
It is `none` where `build_dep_completions` writes past its buffer.
-/

namespace TaskjugglerLsp

/-! ### Suppression -/

/-- `find_line_start`: how far in the text the line starts. -/
def findLineStart : CStr → ℕ → ℕ
  | [], _ => 0
  | _ :: _, 0 => 0
  | c :: s, n + 1 => findLineStart s (if c = 10 then n else n + 1) + 1

/-- The scan of `cursor_in_dquote`, of so many columns of a line: whether a string is open. -/
def dquoteLoop : CStr → ℕ → Bool → Bool
  | [], _, inString => inString
  | [c], cols, inString =>
    if cols = 0 ∨ c = 10 then inString else if c = 34 then !inString else inString
  | c :: d :: s, cols, inString =>
    if cols = 0 ∨ c = 10 then inString
    else if inString ∧ c = 92 ∧ d ≠ 10 then dquoteLoop s (cols - 2) inString
    else dquoteLoop (d :: s) (cols - 1) (if c = 34 then !inString else inString)

/-- `cursor_in_dquote`. -/
def cursorInDquote (text : CStr) (cursor : LspPos) (tokens : List TokenSpan) : Bool :=
  if (tokSpanAt tokens cursor).any (·.tokenKind == tkStr) then true
  else dquoteLoop (text.drop (findLineStart text cursor.line.toNat)) cursor.character.toNat false

/-- The backward scan of `cursor_in_scissors`, on the text before the cursor from its end. -/
def scissorsScan : CStr → Bool
  | [] => false
  | c :: s =>
    if (cstr "->8-").reverse.isPrefixOf (c :: s) then false
    else if (cstr "-8<-").reverse.isPrefixOf (c :: s) then true
    else scissorsScan s

/-- How far in the text the cursor is, or the end of its line. -/
def cursorOffset (text : CStr) (cursor : LspPos) : ℕ :=
  let lineStart := findLineStart text cursor.line.toNat
  lineStart + min ((text.drop lineStart).takeWhile (· != 10)).length cursor.character.toNat

/-- `cursor_in_scissors`. -/
def cursorInScissors (text : CStr) (cursor : LspPos) (tokens : List TokenSpan) : Bool :=
  match tokSpanAt tokens cursor with
  | some t => t.tokenKind == tkMultiLineStr
  | none => scissorsScan (text.take (cursorOffset text cursor)).reverse

/-! ### The context -/

/-- The first token that starts on the line of the cursor, apart from comments. -/
def firstOnLine (cursor : LspPos) : List TokenSpan → Option TokenSpan
  | [] => none
  | t :: tokens =>
    if t.tokenKind = tkEof then none
    else if t.isComment then firstOnLine cursor tokens
    else if t.start.line < cursor.line then firstOnLine cursor tokens
    else if cursor.line < t.start.line then none
    else some t

/-- `line_first_word`. -/
def lineFirstWord (tokens : List TokenSpan) (cursor : LspPos) : Option CStr := do
  let t ← firstOnLine cursor tokens
  if t.tokenKind = tkIdent then t.text else none

/-- `at_statement_start`. -/
def atStatementStart (cursor : LspPos) : List TokenSpan → Bool
  | [] => true
  | t :: tokens =>
    if t.tokenKind = tkEof then true
    else if t.isComment then atStatementStart cursor tokens
    else if cursor.line < t.start.line then true
    else if t.start.line = cursor.line ∧ t.start.character < cursor.character then false
    else atStatementStart cursor tokens

/-- `partial_word`. -/
def partialWord (tokens : List TokenSpan) (cursor : LspPos) : CStr :=
  ((tokSpanAt tokens cursor).bind fun t => if t.tokenKind = tkIdent then t.text else none).getD []

/-- `block_stack`: the keywords of the declarations around the cursor, the outermost first. -/
def blockStack (root : TjNode) (tokens : List TokenSpan) (owners : List (Option (List ℕ)))
    (cursor : LspPos) : List ℕ :=
  match tjNodeAt root tokens owners cursor with
  | none => []
  | some a => (root.lineage a).reverse.map (·.keyword)

/-! ### Keywords -/

/-- `KwEntry`. -/
structure KwEntry where
  kw : String
  doc : String

def toplevelKws : List KwEntry :=
  [
    ⟨"project", "Project header (required once per file)"⟩,
    ⟨"task", "Work package, summary task, or milestone"⟩,
    ⟨"resource", "Person, team, or equipment"⟩,
    ⟨"account", "Cost/revenue account"⟩,
    ⟨"shift", "Named working-hours shift"⟩,
    ⟨"scenario", "Alternative scheduling scenario"⟩,
    ⟨"macro", "Reusable text macro"⟩,
    ⟨"include", "Include another .tjp/.tji file"⟩,
    ⟨"flags", "Declare flag identifiers"⟩,
    ⟨"supplement", "Add attributes to an existing declaration"⟩,
    ⟨"rate", "Default daily cost rate for all resources"⟩,
    ⟨"leaves", "Global leave block"⟩,
    ⟨"vacation", "Global vacation / unavailability period"⟩,
    ⟨"now", "Reference date for reports"⟩,
    ⟨"currency", "Currency symbol"⟩,
    ⟨"timeformat", "Date/time display format string"⟩,
    ⟨"timezone", "IANA timezone identifier"⟩,
    ⟨"workinghours", "Working hours definition"⟩,
    ⟨"timingresolution", "Scheduling granularity in minutes"⟩,
    ⟨"balance", "Profit/loss account pair"⟩,
    ⟨"extend", "Add custom attributes to a built-in type"⟩,
    ⟨"navigator", "Navigation bar for HTML reports"⟩,
    ⟨"taskreport", "Task-based report definition"⟩,
    ⟨"textreport", "HTML/text report definition"⟩,
    ⟨"resourcereport", "Resource-based report definition"⟩]

def taskKws : List KwEntry :=
  [
    ⟨"task", "Sub-task"⟩,
    ⟨"effort", "Work required, e.g. `effort 5d`"⟩,
    ⟨"duration", "Elapsed wall-clock duration"⟩,
    ⟨"length", "Duration in working time"⟩,
    ⟨"milestone", "Mark as a zero-duration milestone"⟩,
    ⟨"scheduled", "Task has fixed pre-computed dates"⟩,
    ⟨"depends", "Finish-to-start dependency on task id(s)"⟩,
    ⟨"precedes", "Reverse dependency: listed tasks start after this one"⟩,
    ⟨"allocate", "Assign resource(s) to this task"⟩,
    ⟨"start", "Hard start date constraint (YYYY-MM-DD)"⟩,
    ⟨"end", "Hard end date constraint (YYYY-MM-DD)"⟩,
    ⟨"maxstart", "Maximum desired start date"⟩,
    ⟨"minstart", "Minimum desired start date"⟩,
    ⟨"maxend", "Maximum desired end date"⟩,
    ⟨"minend", "Minimum desired end date"⟩,
    ⟨"priority", "Scheduling priority 1-1000 (default 500)"⟩,
    ⟨"complete", "Completion percentage 0-100"⟩,
    ⟨"note", "Attach a text note"⟩,
    ⟨"responsible", "Resource(s) accountable for this task"⟩,
    ⟨"booking", "Record actual work performed"⟩,
    ⟨"charge", "Charge amount to an account"⟩,
    ⟨"chargeset", "Account to book labor costs to"⟩,
    ⟨"purge", "Remove an inherited attribute value"⟩,
    ⟨"journalentry", "Status / journal entry"⟩,
    ⟨"flags", "Assign flags to this task"⟩,
    ⟨"supplement", "Add attributes to an existing task"⟩,
    ⟨"limits", "Effort or allocation limits (dailymax, weeklymax, ...)"⟩,
    ⟨"statusnote", "Status note for dashboards"⟩]

def resourceKws : List KwEntry :=
  [
    ⟨"resource", "Sub-resource"⟩,
    ⟨"rate", "Daily cost rate"⟩,
    ⟨"efficiency", "Work output multiplier (default 1.0)"⟩,
    ⟨"vacation", "Vacation / unavailability period"⟩,
    ⟨"leaves", "Leave block by type"⟩,
    ⟨"workinghours", "Working hours override for this resource"⟩,
    ⟨"limits", "Working limits (dailymax, weeklymax, ...)"⟩,
    ⟨"flags", "Assign flags"⟩,
    ⟨"managers", "Manager resource(s)"⟩,
    ⟨"booking", "Record actual work performed"⟩,
    ⟨"journalentry", "Journal entry"⟩,
    ⟨"supplement", "Add attributes to an existing resource"⟩,
    ⟨"shift", "Apply a working-hours shift"⟩]

def projectKws : List KwEntry :=
  [
    ⟨"scenario", "Define a scheduling scenario"⟩,
    ⟨"extend", "Add custom attributes to a built-in type"⟩,
    ⟨"timezone", "IANA timezone identifier"⟩,
    ⟨"timeformat", "Date/time display format string"⟩,
    ⟨"now", "Reference date for reports"⟩,
    ⟨"currency", "Currency symbol"⟩,
    ⟨"workinghours", "Default working hours"⟩,
    ⟨"timingresolution", "Scheduling granularity in minutes"⟩,
    ⟨"dailyworkinghours", "Hours per working day"⟩,
    ⟨"weeklyworkinghours", "Hours per working week"⟩,
    ⟨"balance", "Profit/loss account pair"⟩,
    ⟨"outputdir", "Output directory for generated reports"⟩]

def accountKws : List KwEntry :=
  [
    ⟨"account", "Sub-account"⟩,
    ⟨"credit", "Credit transaction"⟩,
    ⟨"debit", "Debit transaction"⟩]

/-- The keywords of the blocks that `kws_for_stack` looks through. -/
def transparentKws : List ℕ :=
  ["limits", "journalentry", "supplement", "extend", "scenario", "navigator", "taskreport",
    "textreport", "resourcereport", "shift"].map kw

/-- The round of `kws_for_stack`, with the innermost keyword first. -/
def kwsForBlocks : List ℕ → List KwEntry
  | [] => toplevelKws
  | k :: stack =>
    if k = kwTask then taskKws
    else if k = kwResource then resourceKws
    else if k = kwProject then projectKws
    else if k = kwAccount then accountKws
    else if k ∈ transparentKws then kwsForBlocks stack
    else toplevelKws

/-- `kws_for_stack`. -/
def kwsForStack (stack : List ℕ) : List KwEntry := kwsForBlocks stack.reverse

/-- `tolower`, in the C locale. -/
def toLower (c : UInt8) : UInt8 := if 65 ≤ c ∧ c ≤ 90 then c + 32 else c

/-- `istarts`. -/
def istarts (s start : CStr) : Bool := (start.map toLower).isPrefixOf (s.map toLower)

/-- `is_decl_keyword`. -/
def isDeclKeyword (fw : Option CStr) : Bool :=
  fw.any fun w => ["project", "task", "resource", "account", "shift", "scenario", "macro",
    "include", "supplement"].any fun kw => w = cstr kw

/-- `id_kind_for_keyword`. -/
def idKindForKeyword (keyword : Option CStr) : Option ℕ := do
  let word ← keyword
  if word = cstr "depends" ∨ word = cstr "precedes" then some kwTask
  else if word = cstr "allocate" ∨ word = cstr "responsible" ∨ word = cstr "managers" then
    some kwResource
  else if word = cstr "chargeset" ∨ word = cstr "balance" then some kwAccount
  else none

/-! ### The list -/

/-- A `CompletionList`. -/
structure CompletionList where
  isIncomplete : Bool
  items : List CompletionItem
  deriving DecidableEq

section List

variable (root : TjNode) (extra : List TjNode) (tokens : List TokenSpan)
  (owners : List (Option (List ℕ))) (cursor : LspPos)

/-- `build_id_completions`. -/
def buildIdCompletions (idKind : ℕ) : Option (List CompletionItem × Bool) :=
  if idKind = kwTask then buildDepCompletions root extra tokens owners cursor idKind
  else
    some ((collectAllIds idKind root extra).map fun e =>
      emitIdItem e.id e.name idKind [] ⟨0, 0⟩ ⟨0, 0⟩, false)

/-- `build_keyword_completions`. -/
def buildKeywordCompletions (word : CStr) (stack : List ℕ) : List CompletionItem :=
  if word ≠ [] ∨ atStatementStart cursor tokens = true then
    ((kwsForStack stack).filter fun e => word = [] || istarts (cstr e.kw) word).map fun e =>
      ⟨cstr e.kw, 14, cstr e.doc, cstr "1", none⟩
  else []

/-- The kind of the identifiers that are offered, if identifiers are. -/
def offeredKind : Option ℕ :=
  let word := partialWord tokens cursor
  let firstWord := lineFirstWord tokens cursor
  if firstWord = none ∨ word = [] ∨ firstWord ≠ some word then
    idKindForKeyword ((activeContext tokens cursor).map (·.1))
  else none

/-- A list of no items is null. -/
def completionList (items : List CompletionItem) (isIncomplete : Bool) : Option CompletionList :=
  if items = [] then none else some ⟨isIncomplete, items⟩

/-- **`build_completions_json`**: the list, or null. -/
def buildCompletionsJson (text : CStr) : Option (Option CompletionList) :=
  if cursorInDquote text cursor tokens || cursorInScissors text cursor tokens then some none
  else if isDeclKeyword (lineFirstWord tokens cursor) then some none
  else
    match offeredKind tokens cursor with
    | some idKind =>
      (buildIdCompletions root extra tokens owners cursor idKind).map fun out =>
        completionList out.1 out.2
    | none =>
      some (completionList (buildKeywordCompletions tokens cursor (partialWord tokens cursor)
        (blockStack root tokens owners cursor)) false)

end List

end TaskjugglerLsp
