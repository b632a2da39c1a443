import TaskjugglerLsp.Grammar.Actions

/-!
# The shapes of the productions

What the code of an action says about its production: where the actions in the middle stand,
which nonterminals an action looks at, and which nonterminals have no effect.  The facts are
checked on the list of productions.

* `productions_shape`: the nonterminals of a production, from the code of its action.
* `productions_pure`: values, dates and paths contain no statement.
-/

namespace TaskjugglerLsp

open Lib.Lr

/-- The actions in the middle of a production, and how many symbols are before them. -/
def midActions : List (NonTerm × ℕ) :=
  [(.midFile, 0), (.midSymbol, 3), (.midDepends, 1), (.midPrecedes, 1), (.midInclude, 2)]

theorem productions_reach : ∀ p ∈ grammar.productions, p.action.reach = p.rhs.length ∨
    (p.rhs = [] ∧ (p.lhs, p.action.reach) ∈ midActions) := by decide +kernel

theorem productions_mid : ∀ q ∈ grammar.accept :: grammar.productions, ∀ i < q.rhs.length,
    ∀ m ∈ midActions, q.rhs[i]? = some (.nt m.1) →
      i = m.2 ∧ ∀ X ∈ q.rhs.take i, X ≠ .tok 0 ∧ X ≠ .tok yyError := by decide +kernel

/-- No production has the end of the input, and one has `error`. -/
theorem productions_tok : ∀ p ∈ grammar.productions, ∀ X ∈ p.rhs,
    X ≠ .tok 0 ∧ (X = .tok yyError → p.action.code = .itemPlain) := by decide +kernel

theorem productions_code : ∀ p ∈ grammar.productions,
    (p.lhs = .file → p.action.code = .default) ∧
    (p.lhs = .midFile → p.action.code = .resetSymStack) ∧
    (p.lhs = .midDepends ∨ p.lhs = .midPrecedes →
      p.action.code = .pendingDepKind .depends ∨ p.action.code = .pendingDepKind .precedes) ∧
    (p.action.code = .depRef → p.lhs = .depRef) := by decide +kernel

/-! ### Shapes -/

/-- The nonterminals of declarations. -/
def declNonTerms : List NonTerm :=
  [.symbolDecl, .reportDecl, .navigatorDecl, .scenarioDecl, .timesheetDecl, .statussheetDecl,
    .tagfileDecl, .journalentryDecl]

/-- The nonterminals whose value is a declaration, or contains some. -/
def loudNonTerms : List NonTerm := [.bodyItems, .item] ++ declNonTerms

/-- The nonterminals below which there is no statement. -/
def pureNonTerms : List NonTerm :=
  [.symKw, .reportKw, .optId, .optName, .optVersion, .stringVal, .interval2, .interval3, .numVal,
    .durUnit, .prefixPathId, .bangSeq, .depPathSeg, .depPath, .taskRef]

/-- The nonterminals of a production with an action of this code: the left side, and the right
side with `none` for a terminal. -/
def ActionCode.Shape : ActionCode → NonTerm → List (Option NonTerm) → Prop
  | default, lhs, rhs => lhs ∉ loudNonTerms ++ [.optBody] ∧ ∀ n ∈ loudNonTerms, some n ∉ rhs
  | resetSymStack, lhs, rhs => lhs = .midFile ∧ rhs = []
  | routeItem, lhs, rhs => lhs = .items ∧ rhs = [some .items, some .item]
  | itemSym, lhs, rhs => lhs = .item ∧ ∃ n ∈ declNonTerms, rhs = [some n]
  | itemPlain, lhs, rhs => lhs = .item ∧ (rhs = [some .plainStmt] ∨ rhs = [none])
  | startDate, lhs, rhs => lhs = .plainStmt ∧ rhs = [none, none]
  | endDate, lhs, rhs => lhs = .plainStmt ∧ rhs = [none, none]
  | setPrefix _, lhs, rhs => lhs = .plainStmt ∧ rhs = [none, some .prefixPathId]
  | pendingDepKind _, lhs, rhs => lhs ∈ [.midDepends, .midPrecedes] ∧ rhs = []
  | projectDecl, lhs, rhs => lhs = .symbolDecl ∧
      rhs = [none, some .optId, some .stringVal, some .optVersion, some .interval2, some .optBody]
  | openSymbol, lhs, rhs => lhs = .midSymbol ∧ rhs = []
  | closeSymbol, lhs, rhs => lhs = .symbolDecl ∧
      rhs = [some .symKw, some .optId, some .stringVal, some .midSymbol, some .optBody]
  | declare id name body, lhs, rhs => lhs ∈ declNonTerms ∧ body = rhs.length ∧ 0 < body ∧
      rhs.getLast? = some (some .optBody) ∧ (∀ o ∈ rhs.dropLast, ∀ n ∈ o, n ∈ pureNonTerms) ∧
      (∀ i ∈ id, 0 < i ∧ i < body) ∧ ∀ i ∈ name, 0 < i ∧ i < body
  | openInclude, lhs, rhs => lhs = .midInclude ∧ rhs = []
  | closeInclude, lhs, rhs => lhs = .includeStmt ∧
      rhs = [none, some .stringVal, some .midInclude, some .optBody]
  | emptyToken, lhs, rhs => lhs ∈ [.optId, .optName, .optVersion] ∧ rhs = []
  | prefixSegment, lhs, rhs => lhs = .prefixPathId ∧ rhs = [none]
  | prefixPath, lhs, rhs => lhs = .prefixPathId ∧ rhs = [some .prefixPathId, none, none]
  | noBangs, lhs, rhs => lhs = .bangSeq ∧ rhs = []
  | countBang, lhs, rhs => lhs = .bangSeq ∧ rhs = [some .bangSeq, none]
  | depSegment, lhs, rhs => lhs = .depPath ∧ rhs = [some .depPathSeg]
  | depPath, lhs, rhs => lhs = .depPath ∧ rhs = [some .depPath, none, some .depPathSeg]
  | taskRef, lhs, rhs => lhs = .taskRef ∧ rhs = [some .bangSeq, some .depPath]
  | depRef, lhs, rhs => lhs = .depRef ∧ rhs = [some .taskRef, some .optBody]
  | emptyBody, lhs, rhs => lhs ∈ [.optBody, .bodyItems] ∧ rhs = []
  | closeBody, lhs, rhs => lhs = .optBody ∧ rhs = [none, some .bodyItems, none]
  | bodyItem, lhs, rhs => lhs = .bodyItems ∧ rhs = [some .bodyItems, some .item]
  | keepBody, lhs, rhs => lhs = .bodyItems ∧ rhs = [some .bodyItems, none]

instance (code : ActionCode) (lhs : NonTerm) (rhs : List (Option NonTerm)) :
    Decidable (code.Shape lhs rhs) := by
  cases code <;> unfold ActionCode.Shape <;> infer_instance

/-- **The code of an action** tells the shape of its production. -/
theorem productions_shape : ∀ p ∈ grammar.productions,
    p.action.code.Shape p.lhs (p.rhs.map Symbol.nonterm) := by decide +kernel

/-- **Below a pure nonterminal** there are pure ones, and the actions only compute a value. -/
theorem productions_pure : ∀ p ∈ grammar.productions, p.lhs ∈ pureNonTerms →
    (∀ o ∈ p.rhs.map Symbol.nonterm, ∀ n ∈ o, n ∈ pureNonTerms) ∧
    p.action.code ∈ [.default, .emptyToken, .prefixSegment, .prefixPath, .noBangs, .countBang,
      .depSegment, .depPath, .taskRef] := by decide +kernel

/-- Declarations are not below other nonterminals than these. -/
theorem productions_quiet : ∀ p ∈ grammar.productions, p.lhs ∉ loudNonTerms →
    p.lhs ∉ [NonTerm.items, .optBody] →
    ∀ o ∈ p.rhs.map Symbol.nonterm, ∀ n ∈ o, n ∉ loudNonTerms := by decide +kernel

theorem productions_midCode : ∀ p ∈ grammar.productions,
    (p.lhs = .midFile → p.action = ⟨0, .resetSymStack⟩) ∧
    (p.lhs = .midSymbol → p.action = ⟨3, .openSymbol⟩) ∧
    (p.lhs = .midInclude → p.action = ⟨2, .openInclude⟩) ∧
    (p.lhs = .midDepends → p.action = ⟨1, .pendingDepKind .depends⟩) ∧
    (p.lhs = .midPrecedes → p.action = ⟨1, .pendingDepKind .precedes⟩) ∧
    (p.lhs ∈ [.midFile, .midSymbol, .midInclude, .midDepends, .midPrecedes] → p.rhs = []) := by
  decide +kernel

theorem productions_ref : ∀ p ∈ grammar.productions,
    (p.action.code = .countBang → p.rhs = [.nt .bangSeq, .tok tkBang]) ∧
    (p.action.code = .depPath → p.rhs = [.nt .depPath, .tok tkDot, .nt .depPathSeg]) ∧
    (p.lhs = .bangSeq → p.action.code = .noBangs ∨ p.action.code = .countBang) ∧
    (p.lhs = .depPath → p.action.code = .depSegment ∨ p.action.code = .depPath) ∧
    (p.lhs = .taskRef → p.action.code = .taskRef) ∧
    (p.lhs = .depPathSeg → p.action.code = .default ∧
      (p.rhs = [.tok tkIdent] ∨ p.rhs = [.tok (kw "start")])) := by
  decide +kernel

end TaskjugglerLsp
