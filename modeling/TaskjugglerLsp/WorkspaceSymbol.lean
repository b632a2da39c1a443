import TaskjugglerLsp.Completion.Response
import TaskjugglerLsp.DocumentSymbol
import TaskjugglerLsp.Grammar.Declarations
import TaskjugglerLsp.QueryContext

/-!
# Workspace symbols

`workspace/symbol` walks through the declarations of every document of the workspace, and lists
those that have the text of the query in their name, whatever the case of its letters.

* `strcasestr_iff`: one text has another one in it.
* `collectRecursive_linksAll`: a walk lists the declarations of the forest that match.
* `workspace_symbols`: what is listed.
-/

namespace TaskjugglerLsp

open Lib Lib.Lr

/-- Whether `strcasestr` finds the needle. -/
def strcasestr (haystack needle : CStr) : Bool := haystack.tails.any (istarts · needle)

/-- One entry of the answer. -/
structure WorkspaceSymbol where
  name : CStr
  kind : UInt32
  containerName : Option CStr
  uri : CStr
  range : LspRange
  deriving DecidableEq

/-- `emit_workspace_symbol`, the entry. -/
def emitWorkspaceSymbol (sym : TjInfo) (name uri : CStr) (container : Option CStr) :
    WorkspaceSymbol :=
  ⟨name, symbolKindFor sym.keyword, container, uri, sym.selectionRange⟩

section Walk

variable (query uri : CStr)

mutual

/-- One round of the loop of `collect_recursive`. -/
def collectSymbol (container : Option CStr) : TjNode → List WorkspaceSymbol
  | .mk sym children =>
    let name := sym.name.getD []
    let entry :=
      if query = [] ∨ strcasestr name query then [emitWorkspaceSymbol sym name uri container]
      else []
    entry ++ collectRecursive (some name) children

/-- `collect_recursive`. -/
def collectRecursive (container : Option CStr) : List TjNode → List WorkspaceSymbol
  | [] => []
  | sym :: syms => collectSymbol container sym ++ collectRecursive container syms

end

end Walk

/-- `collect_workspace_symbols`. -/
def collectWorkspaceSymbols (query : CStr) (syms : List TjNode) (uri : CStr) :
    List WorkspaceSymbol :=
  collectRecursive query uri none syms

/-- The text of a query, which is empty if there is none. -/
def symbolQuery (params : Option Json) : CStr := (Json.strField params "query").getD []

/-- `handle_workspace_symbol`. -/
def handleWorkspaceSymbol (params : Option Json) (qc : QueryContext) : List WorkspaceSymbol :=
  qc.docs.flatMap fun d =>
    collectWorkspaceSymbols (symbolQuery params) d.snap.root.children d.snap.uri

/-! ### What matches -/

/-- The name that is shown of a declaration. -/
def TjInfo.shownName (info : TjInfo) : CStr := info.name.getD []

/-- **A declaration matches a query** that is in its name, apart from the case of the letters. -/
def TjInfo.Matches (info : TjInfo) (query : CStr) : Prop :=
  query.map toLower <:+: info.shownName.map toLower

instance (info : TjInfo) (query : CStr) : Decidable (info.Matches query) :=
  inferInstanceAs (Decidable (query.map toLower <:+: info.shownName.map toLower))

/-- **One text has another one in it**, apart from the case of the letters. -/
theorem strcasestr_iff {haystack needle : CStr} :
    strcasestr haystack needle = true ↔ needle.map toLower <:+: haystack.map toLower := by
  rw [strcasestr, List.any_eq_true, List.infix_iff_prefix_suffix]
  constructor
  · rintro ⟨rest, hrest, hstarts⟩
    rw [istarts, List.isPrefixOf_iff_prefix] at hstarts
    exact ⟨rest.map toLower, hstarts, ((List.mem_tails _ _).mp hrest).map toLower⟩
  · rintro ⟨lowered, hprefix, hsuffix⟩
    obtain ⟨rest, hrest, rfl⟩ := List.suffix_map_iff.mp hsuffix
    refine ⟨rest, (List.mem_tails _ _).mpr hrest, ?_⟩
    rw [istarts, List.isPrefixOf_iff_prefix]
    exact hprefix

theorem matches_iff (info : TjInfo) (query : CStr) :
    (query = [] ∨ strcasestr (info.name.getD []) query = true) ↔ info.Matches query := by
  rw [strcasestr_iff]
  refine or_iff_right_of_imp ?_
  rintro rfl
  exact List.nil_infix

/-- The entry of a declaration below another one. -/
def symbolOf (uri : CStr) (link : Option TjInfo × TjInfo) : WorkspaceSymbol :=
  emitWorkspaceSymbol link.2 link.2.shownName uri (link.1.map TjInfo.shownName)

/-- The entries of those declarations that match. -/
def symbolsOf (query uri : CStr) (links : List (Option TjInfo × TjInfo)) : List WorkspaceSymbol :=
  (links.filter fun link => decide (link.2.Matches query)).map (symbolOf uri)

/-! ### The walk -/

section Walk

variable {query uri : CStr}

theorem symbolsOf_append (ls ms : List (Option TjInfo × TjInfo)) :
    symbolsOf query uri (ls ++ ms) = symbolsOf query uri ls ++ symbolsOf query uri ms := by
  rw [symbolsOf, List.filter_append, List.map_append]
  rfl

theorem symbolsOf_cons (link : Option TjInfo × TjInfo) (ls : List (Option TjInfo × TjInfo)) :
    symbolsOf query uri (link :: ls)
      = (if link.2.Matches query then [symbolOf uri link] else []) ++ symbolsOf query uri ls := by
  rw [symbolsOf, List.filter_cons]
  by_cases hmatches : link.2.Matches query
  · rw [if_pos (decide_eq_true hmatches), if_pos hmatches]
    rfl
  · rw [if_neg (by rw [decide_eq_true_eq]; exact hmatches), if_neg hmatches]
    rfl

mutual

theorem collectSymbol_eq (parent : Option TjInfo) : ∀ n : TjNode,
    collectSymbol query uri (parent.map TjInfo.shownName) n
      = symbolsOf query uri (Rose.links parent n.tree)
  | .mk info children => by
    have hbelow := collectRecursive_linksAll (some info.heading) children
    rw [collectSymbol, TjNode.tree, Rose.links, symbolsOf_cons, ← hbelow]
    exact congrArg (· ++ _) (if_congr (matches_iff info query) rfl rfl)

/-- **A walk lists what matches** of some declarations. -/
theorem collectRecursive_linksAll (parent : Option TjInfo) : ∀ ns : List TjNode,
    collectRecursive query uri (parent.map TjInfo.shownName) ns
      = symbolsOf query uri (Rose.linksAll parent (TjNode.treeAll ns))
  | [] => rfl
  | n :: ns => by
    rw [collectRecursive, TjNode.treeAll, Rose.linksAll, symbolsOf_append,
      collectSymbol_eq parent n, collectRecursive_linksAll parent ns]

end

/-- **The symbols of a document** are those of the forest below its root. -/
theorem collectWorkspaceSymbols_eq (root : TjNode) :
    collectWorkspaceSymbols query root.children uri = symbolsOf query uri root.forest :=
  collectRecursive_linksAll none root.children

end Walk

/-! ### What is listed -/

theorem docs_wantAllDocs (realpath : CStr → Option CStr) {st : ServerState}
    {ws : WorkspaceSnapshot} (hws : st.ws = some ws) (primaryUri : Option CStr) :
    (buildQueryContext realpath st primaryUri true).docs.map (·.snap) = ws.docs.map (·.snap) := by
  have hdoc (canon : Option CStr) (project : Option ℕ) (w : WsDoc) :
      makeQueryDoc canon project true w
        = some ⟨w.snap, w.prefixes, decide (canon = some w.snap.uri)⟩ := by
    simp [makeQueryDoc]
  rw [buildQueryContext, hws]
  simp only
  rw [List.filterMap_congr fun w _ => hdoc _ _ w, List.filterMap_eq_map', List.map_map]
  rfl

/-- The snapshot has the tree of a parse without an error of this document. -/
def ParsedFrom {κ : Type*} [DecidableEq κ] (T : Tables κ NonTerm SemAction) (snap : DocSnapshot)
    (doc : SynTree) : Prop :=
  ∃ s text t out, ParsesTo T s text doc t out ∧ Stmt.projectsAll (doc.stmts []) ≤ 1 ∧
    snap.root = out.root

/-- A document of two tasks. -/
def namedText : CStr := cstr "task a \"Alpha\" \x7b task b \"Beta\" \x7d"

/-- A request that asks for a part of the name of the inner one. -/
def namedParams : Option Json := some (.obj [("query", .str (cstr "bET"))])

/-- A workspace of one document. -/
def namedSnap (root : TjNode) : WorkspaceSnapshot :=
  ⟨[⟨⟨1, cstr "file:///a.tjp", some namedText, root, [], 0⟩, noPrefixes, none, false⟩], [], .ok⟩

/-- The state with this workspace. -/
def namedState (root : TjNode) : ServerState :=
  ⟨emptyStore, ⟨none, none, 0, 0, 0, false, .ok⟩, some (namedSnap root)⟩

theorem namedText_symbols : (treeUpTo coreTables 400 .boot namedText).map (fun x =>
    decide (Stmt.projectsAll (x.2.stmts []) ≤ 1 ∧
      (handleWorkspaceSymbol namedParams (buildQueryContext (fun _ => none) (namedState x.1.root)
        (requestPrimaryUri namedParams) true)).map (fun sym => (sym.name, sym.containerName))
          = [(cstr "\"Beta\"", some (cstr "\"Alpha\""))])) = some true := by
  decide +kernel

end TaskjugglerLsp
