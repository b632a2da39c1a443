import TaskjugglerLsp.Completion.Offers
import TaskjugglerLsp.Completion.Response
import TaskjugglerLsp.Grammar.Evaluation
import TaskjugglerLsp.Grammar.Output
import TaskjugglerLsp.Lexer.Words

/-!
# Completion behind a declaration keyword

`line_first_word` looks for an identifier, and the lexer has a token of its own for each of the
declaration keywords.  So `is_decl_keyword` never holds (`isDeclKeyword_lineFirstWord`), and on the
line of a declaration there are no offers only where none can be made, since nothing is declared
that the keyword before the cursor takes or no keyword begins with the word at the cursor
(`declaration_line_iff`).
-/

namespace TaskjugglerLsp

/-- The keywords of `is_decl_keyword`. -/
def declKeywords : List ℕ :=
  ["project", "task", "resource", "account", "shift", "scenario", "macro", "include",
    "supplement"].map kw

/-- The cursor is on a line that begins with the keyword of a declaration, behind it. -/
structure BehindDeclaration (tokens : List TokenSpan) (cursor : LspPos) (t : TokenSpan) :
    Prop where
  first : firstOnLine cursor tokens = some t
  keyword : t.tokenKind ∈ declKeywords
  behind : t.start.before cursor

theorem declKeywords_ne_ident : ∀ k ∈ declKeywords, k ≠ tkIdent := by decide

theorem firstOnLine_line {cursor : LspPos} {tokens : List TokenSpan} {t : TokenSpan}
    (h : firstOnLine cursor tokens = some t) : t.start.line = cursor.line := by
  induction tokens with
  | nil => cases h
  | cons u tokens ih =>
    rw [firstOnLine] at h
    split_ifs at h with heof hcomment hless hmore
    · exact ih h
    · exact ih h
    · rw [Option.some.injEq] at h
      subst h
      rw [← UInt32.toNat_inj]
      rw [UInt32.lt_iff_toNat_lt] at hless hmore
      omega

theorem firstOnLine_mem {cursor : LspPos} {tokens : List TokenSpan} {t : TokenSpan}
    (h : firstOnLine cursor tokens = some t) : t ∈ tokens := by
  induction tokens with
  | nil => cases h
  | cons u tokens ih =>
    rw [firstOnLine] at h
    split_ifs at h with heof hcomment hless hmore
    · exact List.mem_cons_of_mem _ (ih h)
    · exact List.mem_cons_of_mem _ (ih h)
    · rw [← Option.some.inj h]
      exact List.mem_cons_self

/-- **The first word of a line is no declaration keyword**, in any text. -/
theorem isDeclKeyword_lineFirstWord {input : CStr} {s : LexState} (h : LexReached input s)
    (cursor : LspPos) : isDeclKeyword (lineFirstWord s.vars.tokSpans cursor) = false := by
  have hnames : ∀ name ∈ ["project", "task", "resource", "account", "shift", "scenario", "macro",
      "include", "supplement"],
      (initialRules.find? fun r => r.pattern (cstr name)).bind (·.action.code) ≠ some tkIdent := by
    decide +kernel
  cases hfirst : firstOnLine cursor s.vars.tokSpans with
  | none => rw [lineFirstWord, hfirst]; rfl
  | some t =>
    by_cases hident : t.tokenKind = tkIdent
    · have hword : lineFirstWord s.vars.tokSpans cursor = t.text := by
        rw [lineFirstWord, hfirst]
        exact if_pos hident
      rw [hword, isDeclKeyword, Option.any_eq_false]
      intro word htext
      rw [List.any_eq_false]
      intro name hname hsame
      rw [of_decide_eq_true hsame] at htext
      have hkind := kind_of_word h (firstOnLine_mem hfirst) (hident ▸ List.mem_cons_self) htext
      exact hnames name hname (hident ▸ hkind)
    · have hword : lineFirstWord s.vars.tokSpans cursor = none := by
        rw [lineFirstWord, hfirst]
        exact if_neg hident
      rw [hword]
      rfl

/-- Behind the first token of a line no statement starts. -/
theorem atStatementStart_behind {cursor : LspPos} {tokens : List TokenSpan} {t : TokenSpan}
    (h : firstOnLine cursor tokens = some t) (hbehind : t.start.before cursor) :
    atStatementStart cursor tokens = false := by
  have hline := firstOnLine_line h
  induction tokens with
  | nil => cases h
  | cons u tokens ih =>
    rw [firstOnLine] at h
    rw [atStatementStart]
    split_ifs at h with heof hcomment hless hmore
    · rw [if_neg heof, if_pos hcomment]
      exact ih h
    · have hnot : ¬ cursor.line < u.start.line := by
        rw [UInt32.lt_iff_toNat_lt] at hless ⊢
        omega
      have hne : ¬ (u.start.line = cursor.line ∧ u.start.character < cursor.character) := by
        rintro ⟨heq, -⟩
        rw [heq, UInt32.lt_iff_toNat_lt] at hless
        omega
      rw [if_neg heof, if_neg hcomment, if_neg hnot, if_neg hne]
      exact ih h
    · rw [Option.some.injEq] at h
      subst h
      have hchar : u.start.character < cursor.character := by
        rcases hbehind with hlt | ⟨-, hchar⟩
        · rw [hline, UInt32.lt_iff_toNat_lt] at hlt
          omega
        · exact hchar
      rw [if_neg heof, if_neg hcomment, if_neg hmore, if_pos ⟨hline, hchar⟩]

/-! ### What there is to offer -/

/-- A declaration of the kind with an id, among some declarations or in them. -/
def DeclaresId (kind : ℕ) (decls : List TjNode) : Prop :=
  ∃ c ∈ decls, ∃ a o, c.sub a = some o ∧ o.keyword = kind ∧ ∃ id, o.info.id = some id ∧ id ≠ []

theorem kindId_isSome_iff {kind : ℕ} {info : TjInfo} :
    (info.kindId kind).isSome ↔ info.keyword = kind ∧ ∃ id, info.id = some id ∧ id ≠ [] := by
  unfold TjInfo.kindId
  by_cases hk : info.keyword = kind
  · cases hid : info.id <;> simp [hk]
  · simp [hk]

theorem collectIds_eq_nil_iff {kind : ℕ} {path : CStr} {a : List ℕ} {decls : List TjNode} :
    collectIds kind path a 0 decls = [] ↔ ¬ DeclaresId kind decls := by
  rw [List.eq_nil_iff_forall_not_mem, DeclaresId, ← not_exists]
  refine not_congr ⟨?_, ?_⟩
  · rintro ⟨e, he⟩
    obtain ⟨j, c, rel, o, hc, ho, hk, -⟩ := mem_collectIds.mp he
    obtain ⟨hkind, hid⟩ := kindId_isSome_iff.mp hk
    exact ⟨c, List.mem_of_getElem? hc, rel, o, ho, hkind, hid⟩
  · rintro ⟨c, hc, rel, o, ho, hkind, hid⟩
    obtain ⟨j, hj⟩ := List.mem_iff_getElem?.mp hc
    exact ⟨_, mem_collectIds.mpr ⟨j, c, rel, o, hj, ho, kindId_isSome_iff.mpr ⟨hkind, hid⟩, rfl⟩⟩

section Offers

variable (root : TjNode) (extra : List TjNode) (tokens : List TokenSpan)
  (owners : List (Option (List ℕ))) (cursor : LspPos)

/-- The declarations that a kind of identifiers is offered from: those of all documents, or behind
bangs those of the task that the ids of the tasks around the cursor lead to, apart from as many of
the innermost. -/
inductive InReach (idKind : ℕ) : List TjNode → Prop
  | document {x : TjNode} : idKind ≠ kwTask ∨ (countLeadingBangs tokens cursor).1 = 0 →
      x ∈ root :: extra → InReach idKind x.children
  | scope {around inner : List CStr} {a : List ℕ} {decls : List TjNode} : idKind = kwTask →
      inner ≠ [] → inner.length = (countLeadingBangs tokens cursor).1 →
      currentTaskScope root tokens owners cursor = around ++ inner →
      tjNodeFindPath around [] 0 root.children = some (a, decls) → InReach idKind decls

/-- No identifier of the kind is within reach; for tasks, and the bangs are not too many. -/
def NothingDeclared (idKind : ℕ) : Prop :=
  (idKind = kwTask → (countLeadingBangs tokens cursor).1 < 64) ∧
    ∀ decls, InReach root extra tokens owners cursor idKind decls → ¬ DeclaresId idKind decls

/-- No keyword of the block around the cursor begins with the identifier at the cursor, in capitals
or not. -/
def NoKeywordBegun : Prop :=
  ∀ t word, tokSpanAt tokens cursor = some t → t.tokenKind = tkIdent → t.text = some word →
    word ≠ [] → ∀ e ∈ kwsForStack (blockStack root tokens owners cursor),
      ¬ word.map toLower <+: (cstr e.kw).map toLower

/-- There is nothing to offer: no identifier of the kind that the keyword before the cursor takes,
or, if it takes none, no keyword. -/
def NothingToOffer : Prop :=
  match idKindForKeyword ((activeContext tokens cursor).map (·.1)) with
  | some idKind => NothingDeclared root extra tokens owners cursor idKind
  | none => NoKeywordBegun root tokens owners cursor

variable {root extra tokens owners cursor}

theorem completionList_eq_none {items : List CompletionItem} {isIncomplete : Bool} :
    completionList items isIncomplete = none ↔ items = [] := by
  unfold completionList
  split_ifs with h <;> simp [h]

theorem collectAllIds_eq_nil_iff {idKind : ℕ} :
    collectAllIds idKind root extra = [] ↔ ∀ x ∈ root :: extra, ¬ DeclaresId idKind x.children := by
  rw [collectAllIds, List.append_eq_nil_iff, List.flatMap_eq_nil_iff, List.forall_mem_cons]
  exact and_congr collectIds_eq_nil_iff (forall₂_congr fun x _ => collectIds_eq_nil_iff)

/-- Behind bangs nothing is collected where the task that they lead to declares nothing. -/
theorem depIds_eq_nil_iff {n : ℕ} (hn : n = (countLeadingBangs tokens cursor).1) :
    depIds root extra tokens owners cursor kwTask n = [] ↔
      ∀ decls, InReach root extra tokens owners cursor kwTask decls → ¬ DeclaresId kwTask decls := by
  unfold depIds
  dsimp only
  split_ifs with hzero hle
  · rw [collectAllIds_eq_nil_iff]
    constructor
    · rintro hnone decls (⟨-, hx⟩ | ⟨-, hinner, hlen, -, -⟩)
      · exact hnone _ hx
      · refine absurd (List.eq_nil_of_length_eq_zero ?_) hinner
        omega
    · exact fun hnone x hx => hnone _ (.document (.inr (hn ▸ hzero)) hx)
  · -- the ids that lead to the scope are all but the last ones
    have hsplit : ∀ {around inner : List CStr}, inner.length = (countLeadingBangs tokens cursor).1 →
        currentTaskScope root tokens owners cursor = around ++ inner →
        (currentTaskScope root tokens owners cursor).take
          ((currentTaskScope root tokens owners cursor).length - n) = around := by
      intro around inner hlen heq
      rw [heq, List.length_append, hn, ← hlen, Nat.add_sub_cancel, List.take_left]
    have hscope : ∀ {a decls}, tjNodeFindPath ((currentTaskScope root tokens owners cursor).take
        ((currentTaskScope root tokens owners cursor).length - n)) [] 0 root.children
          = some (a, decls) → InReach root extra tokens owners cursor kwTask decls := by
      intro a decls hfound
      have hlen : ((currentTaskScope root tokens owners cursor).drop
          ((currentTaskScope root tokens owners cursor).length - n)).length = n := by
        rw [List.length_drop]
        omega
      refine .scope rfl ?_ (hlen.trans hn) (List.take_append_drop _ _).symm hfound
      rintro hnil
      rw [hnil, List.length_nil] at hlen
      exact hzero hlen.symm
    have honly : ∀ {decls}, InReach root extra tokens owners cursor kwTask decls → ∃ a,
        tjNodeFindPath ((currentTaskScope root tokens owners cursor).take
          ((currentTaskScope root tokens owners cursor).length - n)) [] 0 root.children
            = some (a, decls) := by
      rintro decls (⟨hno | hno, -⟩ | ⟨-, -, hlen, heq, hfound⟩)
      · exact absurd rfl hno
      · exact absurd (hn.trans hno) hzero
      · exact ⟨_, by rw [hsplit hlen heq]; exact hfound⟩
    cases hfound : tjNodeFindPath ((currentTaskScope root tokens owners cursor).take
        ((currentTaskScope root tokens owners cursor).length - n)) [] 0 root.children with
    | none =>
      refine ⟨fun _ decls hreach => ?_, fun _ => rfl⟩
      obtain ⟨a, ha⟩ := honly hreach
      rw [hfound] at ha
      cases ha
    | some found =>
      obtain ⟨a, decls⟩ := found
      refine collectIds_eq_nil_iff.trans ⟨fun hnone decls' hreach => ?_, fun h => h _ (hscope hfound)⟩
      obtain ⟨a', ha'⟩ := honly hreach
      rw [hfound, Option.some.injEq, Prod.mk.injEq] at ha'
      exact ha'.2 ▸ hnone
  · refine ⟨?_, fun _ => rfl⟩
    rintro - decls (⟨hno | hno, -⟩ | ⟨-, -, hlen, heq, -⟩)
    · exact absurd rfl hno
    · exact absurd (hn.trans hno) hzero
    · refine absurd ?_ hle
      rw [heq, List.length_append]
      omega

theorem buildIdCompletions_null_iff {idKind : ℕ} :
    ((buildIdCompletions root extra tokens owners cursor idKind).map fun out =>
      completionList out.1 out.2) = some none ↔
        NothingDeclared root extra tokens owners cursor idKind := by
  unfold buildIdCompletions NothingDeclared
  split_ifs with htask
  · subst htask
    unfold buildDepCompletions
    dsimp only
    split_ifs with hmany
    · constructor
      · intro h
        cases h
      · intro h
        have := h.1 rfl
        omega
    · rw [Option.map_some, Option.some.injEq, completionList_eq_none, List.map_eq_nil_iff,
        depIds_eq_nil_iff rfl]
      exact ⟨fun h => ⟨fun _ => by omega, h⟩, fun h => h.2⟩
  · rw [Option.map_some, Option.some.injEq, completionList_eq_none, List.map_eq_nil_iff,
      collectAllIds_eq_nil_iff]
    constructor
    · refine fun hnone => ⟨fun hk => absurd hk htask, ?_⟩
      rintro decls (⟨-, hx⟩ | ⟨hk, -⟩)
      · exact hnone _ hx
      · exact absurd hk htask
    · exact fun h x hx => h.2 _ (.document (.inl htask) hx)

theorem buildKeywordCompletions_eq_nil_iff (hstart : atStatementStart cursor tokens = false) :
    buildKeywordCompletions tokens cursor (partialWord tokens cursor)
      (blockStack root tokens owners cursor) = [] ↔ NoKeywordBegun root tokens owners cursor := by
  have hbegun : NoKeywordBegun root tokens owners cursor ↔ partialWord tokens cursor = [] ∨
      ∀ e ∈ kwsForStack (blockStack root tokens owners cursor),
        istarts (cstr e.kw) (partialWord tokens cursor) = false := by
    simp only [← Bool.not_eq_true, istarts, List.isPrefixOf_iff_prefix]
    unfold NoKeywordBegun partialWord
    constructor
    · intro h
      cases hat : tokSpanAt tokens cursor with
      | none => exact .inl rfl
      | some t =>
        rw [Option.bind_some]
        split_ifs with hident
        · cases htext : t.text with
          | none => exact .inl rfl
          | some word => exact or_iff_not_imp_left.mpr (h t word hat hident htext)
        · exact .inl rfl
    · intro h t word hat hident htext hword
      rw [hat, Option.bind_some, if_pos hident, htext] at h
      exact h.resolve_left hword
  rw [hbegun]
  unfold buildKeywordCompletions
  by_cases hword : partialWord tokens cursor = []
  · rw [if_neg (by simp [hword, hstart])]
    exact ⟨fun _ => Or.inl hword, fun _ => rfl⟩
  · rw [if_pos (Or.inl hword), List.map_eq_nil_iff, List.filter_eq_nil_iff, or_iff_right hword]
    simp [hword]

/-- **Behind the keyword of a declaration** nothing is offered if and only if the cursor is in a
string or there is nothing to offer. -/
theorem declaration_line_iff {t : TokenSpan} (h : BehindDeclaration tokens cursor t) (text : CStr) :
    buildCompletionsJson root extra tokens owners cursor text = some none ↔
      cursorInDquote text cursor tokens = true ∨ cursorInScissors text cursor tokens = true ∨
        NothingToOffer root extra tokens owners cursor := by
  have hfirst : lineFirstWord tokens cursor = none := by
    rw [lineFirstWord, h.first]
    exact if_neg (declKeywords_ne_ident _ h.keyword)
  have hstart := atStatementStart_behind h.first h.behind
  have hkind : offeredKind tokens cursor
      = idKindForKeyword ((activeContext tokens cursor).map (·.1)) := by
    rw [offeredKind, hfirst]
    exact if_pos (Or.inl rfl)
  have hdecl : isDeclKeyword none = false := rfl
  unfold buildCompletionsJson NothingToOffer
  rw [hfirst, hkind, hdecl]
  by_cases hsuppressed : (cursorInDquote text cursor tokens ||
    cursorInScissors text cursor tokens) = true
  · rw [if_pos hsuppressed]
    rw [Bool.or_eq_true] at hsuppressed
    exact ⟨fun _ => hsuppressed.elim Or.inl fun h => Or.inr (Or.inl h), fun _ => rfl⟩
  · rw [if_neg hsuppressed, if_neg Bool.false_ne_true]
    rw [Bool.or_eq_true, not_or] at hsuppressed
    rw [or_iff_right hsuppressed.1, or_iff_right hsuppressed.2]
    cases idKindForKeyword ((activeContext tokens cursor).map (·.1)) with
    | some idKind => exact buildIdCompletions_null_iff
    | none =>
      dsimp only
      rw [Option.some.injEq, completionList_eq_none]
      exact buildKeywordCompletions_eq_nil_iff hstart

end Offers

/-- A task whose id begins a keyword. -/
def taskLine : CStr := cstr "task t \"x\""

theorem taskLine_parse : (treeUpTo coreTables 100 .boot taskLine).map (fun x =>
    (firstOnLine ⟨0, 6⟩ x.1.tokSpans,
      buildCompletionsJson x.1.root [] x.1.tokSpans x.1.owners ⟨0, 6⟩ taskLine == some none))
    = some (some ⟨kwTask, ⟨0, 0⟩, ⟨0, 4⟩, some (cstr "task")⟩, false) := by
  decide +kernel

/-- What is offered behind the id of this task. -/
theorem declaration_line_taskLine : ∃ doc t out, ParsesTo coreTables .boot taskLine doc t out ∧
    (buildCompletionsJson out.root [] out.tokSpans out.owners ⟨0, 6⟩ taskLine = some none ↔
      cursorInDquote taskLine ⟨0, 6⟩ out.tokSpans = true ∨
        cursorInScissors taskLine ⟨0, 6⟩ out.tokSpans = true ∨
          NothingToOffer out.root [] out.tokSpans out.owners ⟨0, 6⟩) := by
  obtain ⟨doc, t, out, hparse, heq⟩ := exists_parsesTo taskLine_parse
  rw [Prod.mk.injEq] at heq
  exact ⟨doc, t, out, hparse,
    declaration_line_iff ⟨heq.1, by decide, by decide⟩ taskLine⟩

/-- **Keywords are offered** where the id of a task is typed. -/
theorem declaration_line_offers : ¬ ∀ (s t : ProgState) (text : CStr) (r : Lib.Lr.Result)
    (errors : ℕ) (out : ParseResult), Parses coreTables s text r errors t out →
      ∀ extra cursor tok, BehindDeclaration out.tokSpans cursor tok →
        buildCompletionsJson out.root extra out.tokSpans out.owners cursor text = some none := by
  intro h
  obtain ⟨doc, t, out, hparse, heq⟩ := exists_parsesTo taskLine_parse
  rw [Prod.mk.injEq] at heq
  have hnull := h .boot t taskLine .accept 0 out (hparse.parses coreTables_sound) [] ⟨0, 6⟩ _
    ⟨heq.1, by decide, by decide⟩
  have hoffers := heq.2
  dsimp only at hoffers
  rw [hnull] at hoffers
  cases hoffers

end TaskjugglerLsp
