import TaskjugglerLsp.ProjectTree.Resolution

/-!
# Completion of dependencies

The part of `completion.c` that offers tasks in a `depends` or `precedes` list,
with `tj_node_find_path` and `tj_node_at` of `document_symbol.c`.  An offer also
carries the address of the declaration that it is collected from, which the
source does not keep; the owners of the tokens are given, as addresses.

`bang_prefix` has room for 63 bangs and its terminator: `buildDepCompletions` is
`none` where the source writes past it.
-/

namespace TaskjugglerLsp

/-! ### Ids -/

/-- An `IdEntry`, and where it is collected from. -/
structure IdEntry where
  id : CStr
  name : CStr
  source : List ℕ
  deriving DecidableEq, Repr

/-- A path and one more id. -/
def qualifiedId (path id : CStr) : CStr := if path = [] then id else path ++ 46 :: id

mutual

/-- A round of `collect_ids`, for the declaration at an address. -/
def collectIdsOf (kind : ℕ) : CStr → List ℕ → TjNode → List IdEntry
  | path, a, .mk info children =>
    if info.keyword = kind ∧ info.id.any (· != []) then
      let qualified := qualifiedId path (info.id.getD [])
      ⟨qualified, info.name.getD [], a⟩ :: collectIds kind qualified a 0 children
    else collectIds kind path a 0 children

/-- `collect_ids`, among the children from index `i` of the declaration at an address. -/
def collectIds (kind : ℕ) : CStr → List ℕ → ℕ → List TjNode → List IdEntry
  | _, _, _, [] => []
  | path, a, i, sym :: syms =>
    collectIdsOf kind path (a ++ [i]) sym ++ collectIds kind path a (i + 1) syms

end

/-- The pool of a document: all its ids of a kind. -/
def poolIds (kind : ℕ) (root : TjNode) : List IdEntry := collectIds kind [] [] 0 root.children

/-- `collect_all_ids`. -/
def collectAllIds (kind : ℕ) (root : TjNode) (extra : List TjNode) : List IdEntry :=
  poolIds kind root ++ extra.flatMap (poolIds kind)

/-! ### Where the cursor is -/

def tkEof : ℕ := 0

/-- The binary search of `tj_node_at`, for so many rounds. -/
def searchToken (tokens : List TokenSpan) (pos : LspPos) : ℕ → ℤ → ℤ → ℤ → ℤ
  | 0, _, _, found => found
  | rounds + 1, lo, hi, found =>
    if lo ≤ hi then
      let mid := lo + (hi - lo) / 2
      match tokens[mid.toNat]? with
      | none => found
      | some t =>
        if t.tokenKind = tkEof then searchToken tokens pos rounds lo (mid - 1) found
        else if pos.before t.start then searchToken tokens pos rounds lo (mid - 1) found
        else searchToken tokens pos rounds (mid + 1) hi mid
    else found

/-- The innermost declaration that ends after `pos`, from the one at a reversed address on. -/
def coveringDeclaration (root : TjNode) (pos : LspPos) : List ℕ → Option (List ℕ)
  | [] => if pos.before root.info.range.stop then some [] else none
  | i :: rev => do
    let s ← root.sub (i :: rev).reverse
    if pos.before s.info.range.stop then some (i :: rev).reverse
    else coveringDeclaration root pos rev

/-- `tj_node_at`. -/
def tjNodeAt (root : TjNode) (tokens : List TokenSpan) (owners : List (Option (List ℕ)))
    (pos : LspPos) : Option (List ℕ) := do
  let found := searchToken tokens pos (tokens.length + 1) 0 (tokens.length - 1) (-1)
  if found < 0 then none
  else
    let owner ← owners[found.toNat]?
    let a ← owner
    coveringDeclaration root pos a.reverse

/-- `current_task_scope`: the ids of the tasks around the cursor, outermost first. -/
def currentTaskScope (root : TjNode) (tokens : List TokenSpan) (owners : List (Option (List ℕ)))
    (cursor : LspPos) : List CStr :=
  match tjNodeAt root tokens owners cursor with
  | none => []
  | some a => ((root.path a).filter fun s => s.keyword == kwTask && s.id.any (· != [])).map
    fun s => s.id.getD []

/-- Whether a token is a comment. -/
def TokenSpan.isComment (t : TokenSpan) : Bool :=
  t.tokenKind == tkLineComment || t.tokenKind == tkBlockComment

/-- `count_leading_bangs`, with the position of the first bang. -/
def countLeadingBangs (tokens : List TokenSpan) (cursor : LspPos) : ℕ × Option LspPos :=
  let before := (tokens.takeWhile fun t =>
    t.tokenKind != tkEof && !decide (cursor.before t.start)).filter fun t => !t.isComment
  let scanned :=
    match before.reverse with
    | [] => []
    | t :: rest => if t.tokenKind = tkIdent then rest else t :: rest
  let bangs := scanned.takeWhile fun t => t.tokenKind == tkBang
  (bangs.length, bangs.getLast?.map (·.start))

/-! ### The offers -/

mutual

/-- A round of `tj_node_find_path`, at the declaration at an address: what it
returns, if it returns. -/
def tjNodeFindPathAt : List CStr → List ℕ → TjNode → Option (Option (List ℕ × List TjNode))
  | [], _, _ => none
  | seg :: segs, a, .mk info children =>
    if info.keyword = kwTask ∧ info.id = some seg then some (tjNodeFindPath segs a 0 children)
    else if info.keyword = kwProject then
      -- the children of a declaration without any are a null pointer, as if nothing were found
      ((tjNodeFindPath (seg :: segs) a 0 children).filter fun found => found.2 ≠ []).map some
    else none

/-- `tj_node_find_path`, among the children from index `i` of the declaration at
an address: the children of the declaration that it finds, with its address. -/
def tjNodeFindPath : List CStr → List ℕ → ℕ → List TjNode → Option (List ℕ × List TjNode)
  | [], a, _, syms => some (a, syms)
  | _ :: _, _, _, [] => none
  | seg :: segs, a, i, sym :: syms =>
    match tjNodeFindPathAt (seg :: segs) (a ++ [i]) sym with
    | some found => found
    | none => tjNodeFindPath (seg :: segs) a (i + 1) syms

end

/-- An item of the completion list. -/
structure CompletionItem where
  label : CStr
  kind : ℕ
  detail : CStr
  sortText : CStr
  textEdit : Option (LspRange × CStr)
  deriving DecidableEq, Repr

/-- `completion_kind_for`. -/
def completionKindFor (keyword : ℕ) : ℕ :=
  if keyword = kwTask then 3
  else if keyword = kwResource then 7
  else if keyword = kwAccount then 6
  else 18

/-- A run of bangs. -/
def bangs (n : ℕ) : CStr := List.replicate n 33

/-- `emit_id_item`: with bangs, an item that replaces them, if it is not too long. -/
def emitIdItem (id name : CStr) (idKind : ℕ) (bangPrefix : CStr) (firstBangPos cursor : LspPos) :
    CompletionItem :=
  if bangPrefix ≠ [] ∧ bangPrefix.length + id.length + 1 ≤ 1024 then
    ⟨bangPrefix ++ id, completionKindFor idKind, name, cstr "0",
      some (⟨firstBangPos, cursor⟩, bangPrefix ++ id)⟩
  else ⟨id, completionKindFor idKind, name, cstr "0", none⟩

section Offers

variable (root : TjNode) (extra : List TjNode) (tokens : List TokenSpan)
  (owners : List (Option (List ℕ))) (cursor : LspPos)

/-- The ids that `build_dep_completions` collects with so many bangs: all of them,
or those below the declaration that the bangs lead to. -/
def depIds (idKind bangCount : ℕ) : List IdEntry :=
  if bangCount = 0 then collectAllIds idKind root extra
  else
    let scope := currentTaskScope root tokens owners cursor
    if bangCount ≤ scope.length then
      match tjNodeFindPath (scope.take (scope.length - bangCount)) [] 0 root.children with
      | none => []
      | some (base, children) => collectIds idKind [] base 0 children
    else []

/-- `build_dep_completions`, with the offers and whether the list is incomplete. -/
def buildDepCompletions (idKind : ℕ) : Option (List CompletionItem × Bool) :=
  let (bangCount, first) := countLeadingBangs tokens cursor
  if 64 ≤ bangCount then none
  else
    let items := (depIds root extra tokens owners cursor idKind bangCount).map fun e =>
      emitIdItem e.id e.name idKind (bangs bangCount) (first.getD ⟨0, 0⟩) cursor
    some (items, bangCount != 0)

end Offers

end TaskjugglerLsp
