import Mathlib.Data.List.Sort
import TaskjugglerLsp.Grammar
import TaskjugglerLsp.ProjectTree.Resolution
import TaskjugglerLsp.SemanticTokens.Encode

/-!
# The actions of the grammar, and a parse

The variables and the helpers of `grammar.y` and `parser.c`, what the actions do with them,
and `parse` around the parser that bison makes of the grammar.  The tables of that parser
are generated by the build, so they are a parameter.  A declaration is a cell of the arena of the
parse, and a pointer to it is its number; cell 0 is the synthetic root.

`$$` of a production without an action and without symbols is what bison has left in it;
nothing reads it, and it is `Yystype.none` here.
-/

namespace TaskjugglerLsp

open Lib.Lr

/-! ### Values -/

/-- The result of `opt_body` and `body_items`. -/
structure BodyResult where
  syms : List ℕ
  stop : LspPos
  deriving DecidableEq

/-- The result of `dep_path` and `task_ref`. -/
structure TaskRef where
  bangCount : ℕ
  path : Option CStr
  start : LspPos
  stop : LspPos
  deriving DecidableEq

/-- `YYSTYPE`; an `ItemResult` is the declaration if there is one. -/
inductive Yystype where
  | none
  | tok (t : Token)
  | sym (a : ℕ)
  | body (b : BodyResult)
  | item (a : Option ℕ)
  | tref (r : TaskRef)
  | ival (n : ℕ)
  | text (s : CStr)
  deriving DecidableEq

namespace Yystype

def asTok : Yystype → Token
  | tok t => t
  | _ => Token.zero

def asSym : Yystype → ℕ
  | sym a => a
  | _ => 0

def asBody : Yystype → BodyResult
  | body b => b
  | _ => ⟨[], ⟨0, 0⟩⟩

def asItem : Yystype → Option ℕ
  | item a => a
  | _ => Option.none

def asTref : Yystype → TaskRef
  | tref r => r
  | _ => ⟨0, Option.none, ⟨0, 0⟩, ⟨0, 0⟩⟩

def asIval : Yystype → ℕ
  | ival n => n
  | _ => 0

def asText : Yystype → CStr
  | text s => s
  | _ => []

end Yystype

/-! ### Variables -/

/-- A `tj_node` of the arena; the dates are there if `has_start` and `has_end` are set. -/
structure NodeCell where
  info : TjInfo
  startDate : Option ℤ
  endDate : Option ℤ
  children : List ℕ
  deriving DecidableEq

/-- `tj_node_new`. -/
def NodeCell.new : NodeCell :=
  ⟨⟨0, none, none, ⟨⟨0, 0⟩, ⟨0, 0⟩⟩, ⟨⟨0, 0⟩, ⟨0, 0⟩⟩, []⟩, none, none, []⟩

/-- The variables of the actions: the arena, the output, and the globals of `grammar.y`.
`symStack` is the used part of `g_sym_stack`, the top first. -/
structure GrammarState where
  heap : List NodeCell
  includes : List IncludeRef
  inIncludeDepth : ℤ
  pendingPrefixes : PrefixSet
  pendingDepKind : DepKind
  symStack : List ℕ

/-- The size of `g_sym_stack`. -/
def symStackSize : ℕ := 128

/-! ### Dates -/

/-- A `%nd` of `sscanf`, of at most `width` characters: the number and the rest. -/
def scanInt (width : ℕ) (s : CStr) : Option (ℤ × CStr) :=
  let s := s.dropWhile isSpace
  let read := fun (sign : ℤ) (width : ℕ) (s : CStr) =>
    let digits := (s.take width).takeWhile isDigit
    if digits = [] then none else some (sign * digitsValue digits, s.drop digits.length)
  match s with
  | 45 :: s => read (-1) (width - 1) s
  | 43 :: s => read 1 (width - 1) s
  | s => read 1 width s

/-- The days of a year before a month, which counts from 0. -/
def daysBefore (leap : Bool) (mon : ℕ) : ℤ :=
  [0, 31, 59, 90, 120, 151, 181, 212, 243, 273, 304, 334].getD mon 0
    + if leap && 2 ≤ mon then 1 else 0

/-- `timegm`, of a day without a time. -/
def timegm (year mon mday : ℤ) : ℤ :=
  let y := year + mon / 12
  let leap := (y % 4 == 0 && y % 100 != 0) || y % 400 == 0
  let leaps := (y - 1) / 4 - (y - 1) / 100 + (y - 1) / 400 - 477
  86400 * (365 * (y - 1970) + leaps + daysBefore leap (mon % 12).toNat + (mday - 1))

/-- `parse_tjp_date`. -/
def parseTjpDate (text : Option CStr) : Option ℤ := do
  let (year, s) ← scanInt 4 (← text)
  guard (s.head? = some 45)
  let (month, s) ← scanInt 2 s.tail
  guard (s.head? = some 45)
  let (day, _) ← scanInt 2 s.tail
  let t := timegm year (month - 1) day
  guard (t ≠ -1)
  return t

/-! ### Helpers -/

namespace GrammarState

variable (s : GrammarState)

/-- The cell that a pointer leads to. -/
def cell (a : ℕ) : NodeCell := s.heap.getD a .new

/-- A cell is written. -/
def write (a : ℕ) (f : NodeCell → NodeCell) : GrammarState :=
  { s with heap := s.heap.modify a f }

/-- `set_pending_prefix`. -/
def setPendingPrefix (kind : PrefixKind) (value : CStr) : GrammarState :=
  if 0 < s.inIncludeDepth then
    { s with pendingPrefixes := Function.update s.pendingPrefixes kind (some value) }
  else s

/-- `tj_node_append_child`. -/
def tjNodeAppendChild (parent child : ℕ) : GrammarState :=
  s.write parent fun c => { c with children := c.children ++ [child] }

/-- `tj_node_push_dependency`. -/
def tjNodePushDependency (task : ℕ) (dep : Dependency) : GrammarState :=
  s.write task fun c =>
    { c with info := { c.info with dependencies := c.info.dependencies ++ [dep] } }

/-- `output_has_project`. -/
def outputHasProject : Bool :=
  (s.cell 0).children.any fun a => (s.cell a).info.keyword == kwProject

/-- `route_top_level`. -/
def routeTopLevel (node : ℕ) : GrammarState :=
  if (s.cell node).info.keyword = kwProject ∧ s.outputHasProject = true then s
  else s.tjNodeAppendChild 0 node

/-- `sym_stack_push`. -/
def symStackPush (a : ℕ) : GrammarState :=
  if s.symStack.length < symStackSize then { s with symStack := a :: s.symStack } else s

/-- `sym_stack_pop`. -/
def symStackPop : GrammarState := { s with symStack := s.symStack.tail }

/-- `sym_stack_top`. -/
def symStackTop : Option ℕ := s.symStack.head?

/-- `alloc_tj_node`. -/
def allocTjNode (kw id name : Token) : GrammarState × ℕ :=
  let idText := if id.text.isSome then id.text else kw.text
  let selection := if id.text.isSome then ⟨id.start, id.stop⟩ else ⟨kw.start, kw.stop⟩
  let nameText := if name.text.isSome then name.text else idText
  let info := ⟨kw.kind, idText, nameText, ⟨kw.start, ⟨0, 0⟩⟩, selection, []⟩
  ({ s with heap := s.heap ++ [⟨info, none, none, []⟩] }, s.heap.length)

end GrammarState

/-- The end of a declaration: that of its body, or that of its keyword. -/
def rangeEnd (kw : Token) (body : BodyResult) : LspPos :=
  if body.stop = ⟨0, 0⟩ then kw.stop else body.stop

/-- The name of a file without its quotes. -/
def unquoted (quoted : CStr) : CStr :=
  if 2 ≤ quoted.length ∧ (quoted.head? = some 34 ∨ quoted.head? = some 39) then
    (quoted.drop 1).take (quoted.length - 2)
  else quoted

namespace GrammarState

variable (s : GrammarState)

/-- The end of the range of a declaration is set. -/
def setRangeEnd (a : ℕ) (stop : LspPos) : GrammarState :=
  s.write a fun c => { c with info := { c.info with range := ⟨c.info.range.start, stop⟩ } }

/-- `finish_tj_node`. -/
def finishTjNode (a : ℕ) (kw : Token) (body : BodyResult) : GrammarState :=
  (s.setRangeEnd a (rangeEnd kw body)).write a fun c => { c with children := body.syms }

/-- The children of a project block are hoisted. -/
def hoist (syms : List ℕ) : GrammarState :=
  syms.foldl (fun s child =>
    if (s.cell child).info.keyword = kwProject then s else s.routeTopLevel child) s

/-- `push_include`. -/
def pushInclude (quoted : Option CStr) : GrammarState :=
  match quoted with
  | none => s
  | some quoted => { s with includes := s.includes ++ [⟨unquoted quoted, s.pendingPrefixes⟩] }

/-- A `start` or `end` date goes to the task on top of the stack. -/
def captureDate (date : Token) (set : ℤ → NodeCell → NodeCell) : GrammarState :=
  match s.symStackTop with
  | none => s
  | some task =>
    if (s.cell task).info.keyword = kwTask then
      match parseTjpDate date.text with
      | none => s
      | some parsed => s.write task (set parsed)
    else s

/-- A reference goes to the task on top of the stack. -/
def captureDep (ref : TaskRef) : GrammarState :=
  match s.symStackTop with
  | none => s
  | some task =>
    s.tjNodePushDependency task
      ⟨s.pendingDepKind, ref.bangCount, ref.path, ⟨ref.start, ref.stop⟩⟩

end GrammarState

/-! ### Actions -/

/-- `$i` -/
def dollar (args : List Yystype) (i : ℕ) : Yystype := args.getD (i - 1) .none

/-- **What an action does** with the values before it; its value is `$$`. -/
def ActionCode.run (args : List Yystype) (s : GrammarState) :
    ActionCode → GrammarState × Yystype
  | default => (s, dollar args 1)
  | resetSymStack => ({ s with symStack := [] }, .none)
  | routeItem =>
    match (dollar args 2).asItem with
    | none => (s, dollar args 1)
    | some node => (s.routeTopLevel node, dollar args 1)
  | itemSym => (s, .item (some (dollar args 1).asSym))
  | itemPlain => (s, .item none)
  | startDate =>
    (s.captureDate (dollar args 2).asTok fun t c => { c with startDate := some t }, dollar args 1)
  | endDate =>
    (s.captureDate (dollar args 2).asTok fun t c => { c with endDate := some t }, dollar args 1)
  | setPrefix kind => (s.setPendingPrefix kind (dollar args 2).asText, dollar args 1)
  | pendingDepKind kind => ({ s with pendingDepKind := kind }, .none)
  | projectDecl =>
    let (s, a) := s.allocTjNode (dollar args 1).asTok (dollar args 2).asTok (dollar args 3).asTok
    let body := (dollar args 6).asBody
    ((s.setRangeEnd a (rangeEnd (dollar args 1).asTok body)).hoist body.syms, .sym a)
  | openSymbol =>
    let (s, a) := s.allocTjNode (dollar args 1).asTok (dollar args 2).asTok (dollar args 3).asTok
    (if (dollar args 1).asTok.kind = kwTask then s.symStackPush a else s, .sym a)
  | closeSymbol =>
    let s := if (dollar args 1).asTok.kind = kwTask then s.symStackPop else s
    let a := (dollar args 4).asSym
    (s.finishTjNode a (dollar args 1).asTok (dollar args 5).asBody, .sym a)
  | declare id name body =>
    let arg := fun (i : Option ℕ) => i.elim Token.zero fun i => (dollar args i).asTok
    let (s, a) := s.allocTjNode (dollar args 1).asTok (arg id) (arg name)
    (s.finishTjNode a (dollar args 1).asTok (dollar args body).asBody, .sym a)
  | openInclude => ({ s with inIncludeDepth := s.inIncludeDepth + 1 }, .none)
  | closeInclude =>
    let s := { s with inIncludeDepth := s.inIncludeDepth - 1 }
    ({ s.pushInclude (dollar args 2).asTok.text with pendingPrefixes := noPrefixes },
      dollar args 1)
  | emptyToken => (s, .tok Token.zero)
  | prefixSegment => (s, .text ((dollar args 1).asTok.text.getD []))
  | prefixPath =>
    (s, .text ((dollar args 1).asText ++ 46 :: (dollar args 3).asTok.text.getD []))
  | noBangs => (s, .ival 0)
  | countBang => (s, .ival ((dollar args 1).asIval + 1))
  | depSegment =>
    let seg := (dollar args 1).asTok
    (s, .tref ⟨0, seg.text, seg.start, seg.stop⟩)
  | depPath =>
    let path := (dollar args 1).asTref
    let seg := (dollar args 3).asTok
    (s, .tref ⟨0, some (path.path.getD [] ++ 46 :: seg.text.getD []), path.start, seg.stop⟩)
  | taskRef => (s, .tref { (dollar args 2).asTref with bangCount := (dollar args 1).asIval })
  | depRef => (s.captureDep (dollar args 1).asTref, dollar args 1)
  | emptyBody => (s, .body ⟨[], ⟨0, 0⟩⟩)
  | closeBody => (s, .body ⟨(dollar args 2).asBody.syms, (dollar args 3).asTok.stop⟩)
  | bodyItem =>
    let body := (dollar args 1).asBody
    match (dollar args 2).asItem with
    | none => (s, .body body)
    | some node => (s, .body { body with syms := body.syms ++ [node] })
  | keepBody => (s, dollar args 1)

theorem run_routeItem (args : List Yystype) (s : GrammarState) :
    (ActionCode.run args s .routeItem).1
      = (dollar args 2).asItem.toList.foldl GrammarState.routeTopLevel s := by
  rw [ActionCode.run]
  cases (dollar args 2).asItem with
  | none => rfl
  | some node => rfl

theorem run_bodyItem (args : List Yystype) (s : GrammarState) :
    (ActionCode.run args s .bodyItem).2.asBody.syms
      = (dollar args 1).asBody.syms ++ (dollar args 2).asItem.toList := by
  rw [ActionCode.run]
  cases (dollar args 2).asItem with
  | none => exact (List.append_nil _).symm
  | some node => rfl

/-- An action of a production, on the values of the stack. -/
def SemAction.run (a : SemAction) (values : List Yystype) (s : GrammarState) :
    GrammarState × Yystype := a.code.run (values.take a.reach).reverse s

/-! ### The owners of the tokens -/

section Owners

variable (heap : List NodeCell)

/-- The range of a declaration. -/
def nodeRange (a : ℕ) : LspRange := (heap.getD a .new).info.range

/-- `qsort` by `compare_node_starts`. -/
def sortByStart (nodes : List ℕ) : List ℕ :=
  nodes.mergeSort fun a b => !decide ((nodeRange heap b).start.before (nodeRange heap a).start)

/-- `range_within`. -/
def rangeWithin (inner outer : LspRange) : Bool :=
  !decide (inner.start.before outer.start) && !decide (outer.stop.before inner.stop)

/-- The project block among the declarations. -/
def projectBlock (children : List ℕ) : Option ℕ :=
  children.find? fun a => (heap.getD a .new).info.keyword == kwProject

/-- `build_owner_scope`: the top scope, and the one of the project block. -/
def buildOwnerScope (children : List ℕ) (project : Option ℕ) : List ℕ × List ℕ :=
  let hoisted := children.filter fun a => some a != project
  match project with
  | none => (sortByStart heap hoisted, [])
  | some p =>
    let within := fun a => rangeWithin (nodeRange heap a) (nodeRange heap p)
    (sortByStart heap (hoisted.filter (fun a => !within a) ++ [p]),
      sortByStart heap (hoisted.filter within))

/-- An `OwnerFrame`, with the children that are still to visit. -/
structure OwnerFrame where
  rest : List ℕ
  scope : Option ℕ

/-- The frames above the first one that do not end after `pos` are popped. -/
def popEnded (pos : LspPos) : List OwnerFrame → List OwnerFrame
  | [] => []
  | [frame] => [frame]
  | frame :: below =>
    match frame.scope with
    | none => frame :: below
    | some a =>
      if pos.before (nodeRange heap a).stop then frame :: below else popEnded pos below

/-- The declarations around `pos` are pushed, at most so many. -/
def pushStarted (kids : ℕ → List ℕ) (pos : LspPos) : ℕ → List OwnerFrame → List OwnerFrame
  | 0, stack => stack
  | _, [] => []
  | n + 1, frame :: below =>
    let rest := frame.rest.dropWhile fun a => !decide (pos.before (nodeRange heap a).stop)
    let frame := { frame with rest := rest }
    match rest with
    | [] => frame :: below
    | child :: _ =>
      if pos.before (nodeRange heap child).start then frame :: below
      else pushStarted kids pos n (⟨kids child, some child⟩ :: frame :: below)

/-- A round of `assign_token_owners`: the frames after a token. -/
def ownerStep (kids : ℕ → List ℕ) (stack : List OwnerFrame) (pos : LspPos) : List OwnerFrame :=
  pushStarted heap kids pos (heap.length + 1) (popEnded heap pos stack)

/-- `assign_token_owners`. -/
def assignTokenOwners (children : List ℕ) (spans : List TokenSpan) : List (Option ℕ) :=
  let project := projectBlock heap children
  let scope := buildOwnerScope heap children project
  let kids := fun a => if some a = project then scope.2 else (heap.getD a .new).children
  let frames := (spans.map (·.start)).scanl (ownerStep heap kids) [⟨scope.1, none⟩]
  frames.tail.map fun stack => stack.head?.bind (·.scope)

end Owners

/-! ### A parse -/

/-- The state of the front end and of the grammar, between and during parses. -/
structure ProgState where
  front : FrontState
  grammar : GrammarState

/-- What `parse` returns: the declarations by their cells, and the rest of a `ParseOutput`. -/
structure ParseResult where
  heap : List NodeCell
  tokSpans : List TokenSpan
  tokOwners : List (Option ℕ)
  numSemEntries : ℕ
  includes : List IncludeRef

/-- What `parse` and `reset_pending_include_state` set; the root is the only cell. -/
def GrammarState.install (s : GrammarState) : GrammarState :=
  { s with
    heap := [.new]
    includes := []
    inIncludeDepth := 0
    pendingPrefixes := noPrefixes }

/-- The state as the program starts. -/
def ProgState.boot : ProgState := ⟨.boot, ⟨[], [], 0, noPrefixes, .depends, []⟩⟩

/-- The output, from what the actions have left. -/
def parseResult (front : FrontState) (s : GrammarState) : ParseResult :=
  let s := s.write 0 fun c => { c with children := sortByStart s.heap c.children }
  { heap := s.heap
    tokSpans := front.lex.vars.tokSpans
    tokOwners := assignTokenOwners s.heap (s.cell 0).children front.lex.vars.tokSpans
    numSemEntries := front.lex.vars.numSemEntries
    includes := s.includes }

section Tables

variable {κ : Type*} (T : Tables κ NonTerm SemAction)

/-- The parser that bison makes of the grammar. -/
def yyparser : Parser κ NonTerm SemAction FrontState GrammarState Yystype where
  toTables := T
  errorToken := yyError
  maxDepth := yyMaxDepth
  next := yylex
  lval s := .tok s.lex.vars.yylval
  run := SemAction.run

variable [DecidableEq κ]

/-- **A parse** of `text`, on what earlier ones have left: `yyparse` ends with a result after
so many syntax errors. -/
inductive Parses (s : ProgState) (text : CStr) :
    Result → ℕ → ProgState → ParseResult → Prop
  | intro {input : CStr} {d : Conf κ NonTerm FrontState GrammarState Yystype} {r : Result}
      (hscan : yyScanString text = some input)
      (hrun : (yyparser T).Runs
        (Parser.init (s.front.install input) s.grammar.install) d r) :
      Parses s text r d.errors ⟨d.lex, d.vars⟩ (parseResult d.lex d.vars)

end Tables

end TaskjugglerLsp
