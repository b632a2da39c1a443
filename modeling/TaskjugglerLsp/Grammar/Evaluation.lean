import TaskjugglerLsp.Grammar.Meaning
import TaskjugglerLsp.Lexer.Evaluation
import TaskjugglerLsp.Lib.LrItems

/-!
# The parse of a given text

The automaton of the productions of projects, tasks, references and includes.  It belongs to the
grammar, and with the lexer that is evaluated in classes of bytes it parses a given text.

* `coreTables_sound`: the automaton belongs to the grammar.
* `parsesTo_of_treeUpTo`: what is evaluated is the syntax tree of a parse.
-/

namespace TaskjugglerLsp

open Lib.Lr

deriving instance DecidableEq for Production

/-- The productions of projects, tasks, references and includes. -/
def coreProductions : List (Production NonTerm SemAction) :=
  [rule .file [.nt .midFile, .nt .items] .default,
    midRule .midFile 0 .resetSymStack,
    rule .items [] .default,
    rule .items [.nt .items, .nt .item] .routeItem,
    rule .items [.nt .items, .tok tkEol] .default,
    rule .bodyItems [] .emptyBody,
    rule .bodyItems [.nt .bodyItems, .nt .item] .bodyItem,
    rule .bodyItems [.nt .bodyItems, .tok tkEol] .keepBody,
    rule .item [.nt .symbolDecl] .itemSym,
    rule .item [.nt .plainStmt] .itemPlain,
    rule .symbolDecl [.tok (kw "project"), .nt .optId, .nt .stringVal, .nt .optVersion,
      .nt .interval2, .nt .optBody] .projectDecl,
    rule .symbolDecl [.nt .symKw, .nt .optId, .nt .stringVal, .nt .midSymbol, .nt .optBody]
      .closeSymbol,
    midRule .midSymbol 3 .openSymbol,
    rule .symKw [.tok (kw "task")] .default,
    rule .optId [] .emptyToken,
    rule .optId [.tok tkIdent] .default,
    rule .optId [.tok (kw "start")] .default,
    rule .optVersion [] .emptyToken,
    rule .interval2 [.tok tkDate, .tok tkDuration] .default,
    rule .plainStmt [.tok (kw "start"), .tok tkDate] .startDate,
    rule .plainStmt [.tok (kw "taskprefix"), .nt .prefixPathId] (.setPrefix .task),
    rule .plainStmt [.tok (kw "depends"), .nt .midDepends, .nt .depRefList] .default,
    midRule .midDepends 1 (.pendingDepKind .depends),
    rule .plainStmt [.tok (kw "precedes"), .nt .midPrecedes, .nt .depRefList] .default,
    midRule .midPrecedes 1 (.pendingDepKind .precedes),
    rule .plainStmt [.nt .includeStmt] .default,
    rule .includeStmt [.tok (kw "include"), .nt .stringVal, .nt .midInclude, .nt .optBody]
      .closeInclude,
    midRule .midInclude 2 .openInclude,
    rule .stringVal [.tok tkStr] .default,
    rule .prefixPathId [.tok tkIdent] .prefixSegment,
    rule .depRefList [.nt .depRef] .default,
    rule .depRefList [.nt .depRefList, .tok tkComma, .nt .depRef] .default,
    rule .depRef [.nt .taskRef, .nt .optBody] .depRef,
    rule .taskRef [.nt .bangSeq, .nt .depPath] .taskRef,
    rule .bangSeq [] .noBangs,
    rule .bangSeq [.nt .bangSeq, .tok tkBang] .countBang,
    rule .depPath [.nt .depPathSeg] .depSegment,
    rule .depPath [.nt .depPath, .tok tkDot, .nt .depPathSeg] .depPath,
    rule .depPathSeg [.tok tkIdent] .default,
    rule .depPathSeg [.tok (kw "start")] .default,
    rule .optBody [] .emptyBody,
    rule .optBody [.tok tkLbrace, .nt .bodyItems, .tok tkRbrace] .closeBody]

theorem mem_productions_of_core : ∀ p ∈ coreProductions, p ∈ grammar.productions := by
  decide +kernel

/-- The automaton of these productions. -/
def coreTables : Tables (List (Item NonTerm)) NonTerm SemAction :=
  itemTables acceptProduction coreProductions yyError

/-- **The automaton belongs to the grammar.** -/
theorem coreTables_sound : coreTables.Sound grammar yyError :=
  itemTables_sound mem_productions_of_core

section Quick

variable {κ : Type*} (T : Tables κ NonTerm SemAction)

/-- The parser, with the lexer that is evaluated in classes of bytes. -/
def quickParser : Parser κ NonTerm SemAction FrontState GrammarState Yystype :=
  { yyparser T with next := quickYylex }

theorem yyparser_eq_quick : yyparser T = quickParser T := by
  unfold quickParser yyparser
  rw [funext yylex_eq_quick]

variable [DecidableEq κ]

/-- The syntax tree of a parse of at most `n` steps without a syntax error, and its output. -/
def treeUpTo (n : ℕ) (s : ProgState) (text : CStr) : Option (ParseResult × SynTree) :=
  (yyScanString text).bind fun input =>
    ((quickParser T).treesUpTo n
      (Parser.init (s.front.install input) s.grammar.install) []).bind fun out =>
        match out with
        | ((d, .accept), [_, doc]) =>
          if d.errors = 0 then some (parseResult d.lex d.vars, doc) else none
        | _ => none

variable {T} {n : ℕ} {s : ProgState} {text : CStr} {out : ParseResult}

/-- **What is evaluated is the syntax tree** of a parse. -/
theorem parsesTo_of_treeUpTo {doc : SynTree} (h : treeUpTo T n s text = some (out, doc)) :
    ∃ t, ParsesTo T s text doc t out := by
  obtain ⟨input, hscan, hrun⟩ := Option.bind_eq_some_iff.mp h
  obtain ⟨built, hbuilt, heq⟩ := Option.bind_eq_some_iff.mp hrun
  rw [← yyparser_eq_quick] at hbuilt
  split at heq
  case h_1 d last doc' =>
    split_ifs at heq with herrors
    simp only [Option.some.injEq, Prod.mk.injEq] at heq
    obtain ⟨rfl, rfl⟩ := heq
    exact ⟨_, .intro hscan hbuilt herrors⟩
  case h_2 => cases heq

/-- A parse with its syntax tree, and what can be evaluated of them. -/
theorem exists_parsesTo {β : Type*} {f : ParseResult × SynTree → β} {v : β}
    (h : (treeUpTo T n s text).map f = some v) :
    ∃ doc t out, ParsesTo T s text doc t out ∧ f (out, doc) = v := by
  obtain ⟨⟨out, doc⟩, htree, heq⟩ := Option.map_eq_some_iff.mp h
  obtain ⟨t, ht⟩ := parsesTo_of_treeUpTo htree
  exact ⟨doc, t, out, ht, heq⟩

end Quick

end TaskjugglerLsp
