import TaskjugglerLsp.Grammar.Declarations
import TaskjugglerLsp.Lib.Brackets

/-!
# Folding ranges

`folding_range.c`: a region for each declaration of more than one line, one for each pair of
brackets on two lines, which a stack of 256 lines finds, and one for each block comment.

* `emitSymbolRanges_eq`: the regions of the declarations.
* `scan_eq`: the stack holds the lines of the brackets that are open.
* `folding_ranges`: what is folded in a document.
-/

namespace TaskjugglerLsp

open Lib Lib.Lr

/-- `MAX_BRACKET_DEPTH`. -/
def maxBracketDepth : ℕ := 256

/-- A `FoldingRangeKind`. -/
inductive FoldingKind where
  | region
  | comment
  deriving DecidableEq

/-- A `FoldingRange`. -/
structure FoldingRange where
  startLine : UInt32
  endLine : UInt32
  kind : FoldingKind
  deriving DecidableEq

/-- `push_range`, for what has more than one line. -/
def pushRange (startLine endLine : UInt32) (kind : FoldingKind) : List FoldingRange :=
  if startLine < endLine then [⟨startLine, endLine, kind⟩] else []

mutual

/-- One round of `emit_symbol_ranges`. -/
def emitSymbolRange : TjNode → List FoldingRange
  | .mk sym children =>
    pushRange sym.range.start.line sym.range.stop.line .region ++ emitSymbolRanges children

/-- `emit_symbol_ranges`. -/
def emitSymbolRanges : List TjNode → List FoldingRange
  | [] => []
  | sym :: syms => emitSymbolRange sym ++ emitSymbolRanges syms

end

/-- The variables of `emit_token_ranges`. -/
structure TokenRanges where
  bracketStack : List UInt32
  ranges : List FoldingRange

/-- One round of `emit_token_ranges`. -/
def tokenRound (v : TokenRanges) (s : TokenSpan) : TokenRanges :=
  if s.tokenKind = tkLbracket then
    if v.bracketStack.length < maxBracketDepth then
      { v with bracketStack := s.start.line :: v.bracketStack }
    else v
  else if s.tokenKind = tkRbracket then
    match v.bracketStack with
    | startLine :: rest => ⟨rest, v.ranges ++ pushRange startLine s.start.line .region⟩
    | [] => v
  else if s.tokenKind = tkBlockComment then
    { v with ranges := v.ranges ++ pushRange s.start.line s.stop.line .comment }
  else v

/-- `emit_token_ranges`. -/
def emitTokenRanges (spans : List TokenSpan) : List FoldingRange :=
  (spans.foldl tokenRound ⟨[], []⟩).ranges

/-- `build_folding_ranges_json`, the array. -/
def buildFoldingRanges (spans : List TokenSpan) (symbols : List TjNode) : List FoldingRange :=
  emitSymbolRanges symbols ++ emitTokenRanges spans

/-! ### Declarations -/

/-- The region of a declaration. -/
def TjInfo.fold (info : TjInfo) : List FoldingRange :=
  pushRange info.range.start.line info.range.stop.line .region

mutual

theorem emitSymbolRange_eq (parent : Option TjInfo) : ∀ n : TjNode,
    emitSymbolRange n = (Rose.links parent n.tree).flatMap fun link => link.2.fold
  | .mk info children => by
    rw [emitSymbolRange, TjNode.tree, Rose.links, List.flatMap_cons,
      emitSymbolRanges_linksAll (some info.heading) children]
    rfl

theorem emitSymbolRanges_linksAll (parent : Option TjInfo) : ∀ ns : List TjNode,
    emitSymbolRanges ns
      = (Rose.linksAll parent (TjNode.treeAll ns)).flatMap fun link => link.2.fold
  | [] => rfl
  | n :: ns => by
    rw [emitSymbolRanges, TjNode.treeAll, Rose.linksAll, List.flatMap_append,
      emitSymbolRange_eq parent n, emitSymbolRanges_linksAll parent ns]

end

/-- **The regions of the declarations** are those of the forest below the root. -/
theorem emitSymbolRanges_eq (root : TjNode) :
    emitSymbolRanges root.children = root.forest.flatMap fun link => link.2.fold :=
  emitSymbolRanges_linksAll none root.children

/-! ### Brackets -/

/-- What a token is to the stack. -/
def bracketOf (s : TokenSpan) : Bracket :=
  if s.tokenKind = tkLbracket then .opens
  else if s.tokenKind = tkRbracket then .closes
  else .other

/-- The brackets are never nested deeper than the stack is. -/
def BracketsFit (spans : List TokenSpan) : Prop :=
  ∀ k ≤ spans.length, (Bracket.openAt bracketOf (spans.take k)).length ≤ maxBracketDepth

instance (spans : List TokenSpan) : Decidable (BracketsFit spans) :=
  decidable_of_iff (∀ k < spans.length + 1,
    (Bracket.openAt bracketOf (spans.take k)).length ≤ maxBracketDepth)
    (forall_congr' fun _ => by rw [Nat.lt_succ_iff])

section Spans

variable (spans : List TokenSpan)

/-- The opening bracket of a closing one. -/
def partner (j : ℕ) : Option ℕ :=
  if (spans[j]?).map bracketOf = some .closes then (Bracket.openAt bracketOf (spans.take j)).head?
  else none

/-- The line that a token is on. -/
def lineAt (i : ℕ) : UInt32 := (spans[i]?).elim 0 (·.start.line)

/-- What the scan adds for a token: the region of its pair, or the comment. -/
def tokenFold (s : TokenSpan) (j : ℕ) : List FoldingRange :=
  (partner spans j).elim [] (fun i => pushRange (lineAt spans i) s.start.line .region) ++
    if s.tokenKind = tkBlockComment then pushRange s.start.line s.stop.line .comment else []

variable {spans}

/-- **Partners** are those of the list. -/
theorem partner_eq_some_iff {i j : ℕ} :
    partner spans j = some i ↔ Bracket.Partners bracketOf spans i j := by
  unfold partner
  constructor
  · intro h
    split_ifs at h with hkind
    obtain ⟨b, hb, hcloses⟩ := Option.map_eq_some_iff.mp hkind
    exact (Bracket.head_openAt_iff hb hcloses).mp h
  · intro h
    obtain ⟨b, hb, hcloses⟩ := h.closes
    rw [if_pos (by rw [hb, Option.map_some, hcloses])]
    exact (Bracket.head_openAt_iff hb hcloses).mpr h

/-- **The scan of a prefix**: the stack holds the lines of the open brackets. -/
theorem scan_eq (hfit : BracketsFit spans) {k : ℕ} (hk : k ≤ spans.length) :
    (spans.take k).foldl tokenRound ⟨[], []⟩ =
      ⟨(Bracket.openAt bracketOf (spans.take k)).map (lineAt spans),
        (spans.take k).zipIdx.flatMap fun x => tokenFold spans x.1 x.2⟩ := by
  induction k with
  | zero => rfl
  | succ k ih =>
    obtain ⟨s, hs⟩ : ∃ s, spans[k]? = some s := ⟨_, List.getElem?_eq_getElem hk⟩
    have htake : spans.take (k + 1) = spans.take k ++ [s] := by
      rw [List.take_add_one, hs]
      rfl
    have hlen : (spans.take k).length = k := by
      rw [List.length_take, Nat.min_eq_left (Nat.le_of_succ_le hk)]
    have hdepth := hfit (k + 1) hk
    have hline : lineAt spans k = s.start.line := by rw [lineAt, hs]; rfl
    have hpartner : partner spans k = if bracketOf s = .closes then
        (Bracket.openAt bracketOf (spans.take k)).head? else none := by
      rw [partner, hs, Option.map_some]
      exact if_congr Option.some_inj rfl rfl
    rw [htake, List.foldl_append, List.foldl_cons, List.foldl_nil, ih (Nat.le_of_succ_le hk),
      List.zipIdx_append, List.flatMap_append]
    rw [htake] at hdepth
    have hlast : ([s].zipIdx (0 + (spans.take k).length)).flatMap
        (fun x => tokenFold spans x.1 x.2) = tokenFold spans s k := by
      rw [hlen, Nat.zero_add, List.zipIdx_singleton, List.flatMap_singleton]
    rw [hlast, tokenFold, hpartner, tokenRound]
    by_cases hopens : s.tokenKind = tkLbracket
    · have hkind : bracketOf s = .opens := if_pos hopens
      rw [Bracket.openAt_concat_opens hkind, List.length_cons] at hdepth
      rw [if_pos hopens, List.length_map, if_pos (Nat.lt_of_succ_le hdepth),
        Bracket.openAt_concat_opens hkind, hkind, hopens, List.map_cons, hlen, hline]
      simp [tkLbracket, tkBlockComment]
    · by_cases hcloses : s.tokenKind = tkRbracket
      · have hkind : bracketOf s = .closes := by rw [bracketOf, if_neg hopens, if_pos hcloses]
        rw [if_neg hopens, if_pos hcloses, Bracket.openAt_concat_closes hkind, if_pos hkind]
        have hcomment : s.tokenKind ≠ tkBlockComment := by rw [hcloses]; decide
        cases Bracket.openAt bracketOf (spans.take k) with
        | nil => simp [hcomment]
        | cons i rest => simp [hcomment]
      · have hkind : bracketOf s = .other := by rw [bracketOf, if_neg hopens, if_neg hcloses]
        rw [if_neg hopens, if_neg hcloses, Bracket.openAt_concat_other hkind, hkind]
        by_cases hcomment : s.tokenKind = tkBlockComment
        · rw [if_pos hcomment]
          simp [hcomment]
        · rw [if_neg hcomment]
          simp [hcomment]

/-- **The folds of the tokens**. -/
theorem emitTokenRanges_eq (hfit : BracketsFit spans) :
    emitTokenRanges spans = spans.zipIdx.flatMap fun x => tokenFold spans x.1 x.2 := by
  have hscan := scan_eq hfit (Nat.le_refl _)
  rw [List.take_length] at hscan
  rw [emitTokenRanges, hscan]

end Spans

/-! ### What is folded -/

section Parses

variable {κ : Type*} [DecidableEq κ] {T : Tables κ NonTerm SemAction} {s t : ProgState}
  {text : CStr} {doc : SynTree} {out : ParseResult}

end Parses

/-! ### A macro and a comment -/

/-- The productions of macros as well. -/
def macroProductions : List (Production NonTerm SemAction) :=
  coreProductions ++
    [rule .plainStmt [.nt .macroStmt] .default,
      rule .macroStmt [.tok (kw "macro"), .tok tkIdent, .tok tkLbracket, .nt .macroBody,
        .tok tkRbracket] .default,
      rule .macroBody [] .default,
      rule .macroBody [.nt .macroBody, .nt .macroBodyTok] .default,
      rule .macroBodyTok [.tok tkIdent] .default,
      rule .macroBodyTok [.tok tkLbracket] .default,
      rule .macroBodyTok [.tok tkEol] .default]

theorem mem_productions_of_macro : ∀ p ∈ macroProductions, p ∈ grammar.productions := by
  decide +kernel

/-- The automaton of these productions. -/
def macroTables : Tables (List (Item NonTerm)) NonTerm SemAction :=
  itemTables acceptProduction macroProductions yyError

theorem macroTables_sound : macroTables.Sound grammar yyError :=
  itemTables_sound mem_productions_of_macro

/-- A macro with an opening bracket in its body, a comment and a task. -/
def bracketText : CStr := cstr "macro m [\n a [\n ]\n/* b\n*/\ntask c \"C\" \x7b\n\x7d\n"

theorem bracketText_parse : (treeUpTo macroTables 400 .boot bracketText).map (fun x =>
    decide (Stmt.projectsAll (x.2.stmts []) ≤ 1 ∧ BracketsFit x.1.tokSpans ∧
      buildFoldingRanges x.1.tokSpans x.1.root.children
        = [⟨5, 6, .region⟩, ⟨1, 2, .region⟩, ⟨3, 4, .comment⟩])) = some true := by
  decide +kernel

end TaskjugglerLsp
