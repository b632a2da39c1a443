import TaskjugglerLsp.Completion.Response
import TaskjugglerLsp.Grammar.Evaluation
import TaskjugglerLsp.Lexer.Boundaries
import TaskjugglerLsp.Lexer.Evaluation

/-!
# Completion in a statement

Which identifiers are offered depends on the last keyword with signature help in the block around
the cursor.  That is the one that the statement begins with only where such a keyword begins it and
no other one is in it.

* `activeEntry_eq`: the stack of `scan_kw_stack` has the last keyword of each open block.
* `mode_follows_iff`: when the identifiers that are offered are those of the statement.
-/

namespace TaskjugglerLsp

/-! ### The keyword of a block -/

/-- A keyword is kept unless 512 of the blocks around its own have one. -/
def keptIn (outer : List (Option TokenSpan)) (tok : TokenSpan) : Option TokenSpan :=
  if (outer.filter Option.isSome).length < 512 then some tok else none

/-- The last keyword of each open block, the innermost first, after a token. -/
def blockStep (blocks : List (Option TokenSpan)) (tok : TokenSpan) : List (Option TokenSpan) :=
  if tok.isComment then blocks
  else if tok.tokenKind = tkLbrace then none :: blocks
  else if tok.tokenKind = tkRbrace then
    match blocks with
    | _ :: block :: outer => block :: outer
    | blocks => blocks
  else if tok.tokenKind < kwSigEnd ∧ tok.text.isSome then
    keptIn blocks.tail tok :: blocks.tail
  else blocks

/-- The last keyword with signature help, up to the cursor, in the block around it. -/
def blockKeyword (tokens : List TokenSpan) (cursor : LspPos) : Option TokenSpan :=
  ((tokensUpTo tokens cursor).foldl blockStep [none]).head?.join

/-- The entry of a keyword, without the number of its arguments. -/
def TokenSpan.entry (t : TokenSpan) (depth : ℕ) : KwStackEntry :=
  ⟨t.text.getD [], ⟨t.start, t.stop⟩, depth, 0⟩

/-- The entries of the keywords of the blocks. -/
def entriesOf : List (Option TokenSpan) → List KwStackEntry
  | [] => []
  | block :: outer => (block.map (·.entry outer.length)).toList ++ entriesOf outer

/-- An entry, without the number of its arguments. -/
def KwStackEntry.core (e : KwStackEntry) : KwStackEntry := { e with argc := 0 }

theorem depth_entriesOf_lt {blocks : List (Option TokenSpan)} :
    ∀ e ∈ entriesOf blocks, e.depth < blocks.length := by
  induction blocks with
  | nil =>
    intro e he
    cases he
  | cons block outer ih =>
    intro e he
    rw [entriesOf, List.mem_append, Option.mem_toList, Option.map_eq_some_iff] at he
    rcases he with ⟨t, -, rfl⟩ | he
    · exact Nat.lt_succ_self _
    · exact Nat.lt_succ_of_lt (ih e he)

theorem length_entriesOf (blocks : List (Option TokenSpan)) :
    (entriesOf blocks).length = (blocks.filter Option.isSome).length := by
  induction blocks with
  | nil => rfl
  | cons block outer ih =>
    rw [entriesOf, List.length_append, ih]
    cases block with
    | none => simp
    | some t => simp [Nat.add_comm]

theorem dropWhile_entriesOf (block : Option TokenSpan) (outer : List (Option TokenSpan))
    {p : KwStackEntry → Bool} (hp : ∀ e, p e = decide (outer.length ≤ e.depth)) :
    (entriesOf (block :: outer)).dropWhile p = entriesOf outer := by
  have houter : (entriesOf outer).dropWhile p = entriesOf outer := by
    cases h : entriesOf outer with
    | nil => rfl
    | cons e rest =>
      have hlt := depth_entriesOf_lt e (by rw [h]; exact List.mem_cons_self)
      rw [List.dropWhile_cons_of_neg]
      rw [hp, decide_eq_true_eq]
      omega
  rw [entriesOf]
  cases block with
  | none => exact houter
  | some t =>
    rw [Option.map_some, Option.toList_some, List.singleton_append, List.dropWhile_cons_of_pos]
    · exact houter
    · rw [hp]
      exact decide_eq_true (Nat.le_refl _)

/-- The stack and the depth of a scan are those of the blocks. -/
structure Scanned (s : List KwStackEntry × ℕ) (blocks : List (Option TokenSpan)) : Prop where
  stack : s.1.map KwStackEntry.core = entriesOf blocks
  depth : s.2 + 1 = blocks.length

theorem dropWhile_core {p : KwStackEntry → Bool} (hp : ∀ e, p e.core = p e)
    (stack : List KwStackEntry) :
    (stack.dropWhile p).map KwStackEntry.core = (stack.map KwStackEntry.core).dropWhile p := by
  induction stack with
  | nil => rfl
  | cons e stack ih =>
    rw [List.map_cons, List.dropWhile_cons, List.dropWhile_cons, hp]
    split_ifs
    · exact ih
    · rfl

theorem core_bumpDepth (depth : ℕ) (stack : List KwStackEntry) :
    (bumpDepth depth stack).map KwStackEntry.core = stack.map KwStackEntry.core := by
  induction stack with
  | nil => rfl
  | cons e stack ih =>
    rw [bumpDepth]
    split_ifs
    · rfl
    · rw [List.map_cons, ih, List.map_cons]

/-- **A token** changes the stack as it changes the blocks. -/
theorem Scanned.step {s : List KwStackEntry × ℕ} {blocks : List (Option TokenSpan)}
    (h : Scanned s blocks) (cursor : LspPos) (tok : TokenSpan) :
    Scanned (scanKwToken cursor kwSigEnd true 512 s tok) (blockStep blocks tok) := by
  obtain ⟨stack, depth⟩ := s
  obtain ⟨hstack, hdepth⟩ := h
  dsimp only at hstack hdepth
  obtain ⟨block, outer, rfl⟩ : ∃ block outer, blocks = block :: outer :=
    List.exists_cons_of_length_pos (by omega)
  obtain rfl : depth = outer.length := by simpa using hdepth
  have hdrop : (stack.dropWhile fun e => decide (outer.length ≤ e.depth)).map KwStackEntry.core
      = entriesOf outer := by
    rw [dropWhile_core fun e => rfl, hstack]
    exact dropWhile_entriesOf block outer fun e => rfl
  unfold scanKwToken blockStep
  by_cases hcomment : tok.isComment = true
  · rw [if_pos hcomment, if_pos hcomment]
    exact ⟨hstack, rfl⟩
  rw [if_neg hcomment, if_neg hcomment]
  by_cases hopen : tok.tokenKind = tkLbrace
  · rw [if_pos hopen, if_pos hopen]
    exact ⟨hstack, rfl⟩
  rw [if_neg hopen, if_neg hopen]
  by_cases hclose : tok.tokenKind = tkRbrace
  · rw [if_pos hclose, if_pos hclose]
    cases outer with
    | nil =>
      refine ⟨?_, rfl⟩
      rw [dropWhile_core fun e => rfl, hstack]
      cases block <;> rfl
    | cons next outer => exact ⟨hdrop, rfl⟩
  rw [if_neg hclose, if_neg hclose]
  by_cases hkw : tok.tokenKind < kwSigEnd ∧ tok.text.isSome = true
  · rw [if_pos hkw, if_pos hkw]
    refine ⟨?_, rfl⟩
    have hlen := congrArg List.length hdrop
    rw [List.length_map, length_entriesOf] at hlen
    show (pushKeywordEntry 512 outer.length tok stack).map _ = entriesOf (keptIn outer tok :: outer)
    unfold pushKeywordEntry keptIn
    dsimp only
    rw [hlen]
    by_cases hroom : (outer.filter Option.isSome).length < 512
    · rw [if_pos hroom, if_pos hroom, List.map_cons, hdrop]
      rfl
    · rw [if_neg hroom, if_neg hroom, hdrop]
      rfl
  rw [if_neg hkw, if_neg hkw, if_pos rfl]
  refine ⟨?_, rfl⟩
  unfold bumpActiveArgc
  by_cases hbehind : cursor.before tok.stop
  · rw [if_pos hbehind]
    exact hstack
  · rw [if_neg hbehind, core_bumpDepth]
    exact hstack

theorem scanned_foldl (cursor : LspPos) (tokens : List TokenSpan) {s : List KwStackEntry × ℕ}
    {blocks : List (Option TokenSpan)} (h : Scanned s blocks) :
    Scanned (tokens.foldl (scanKwToken cursor kwSigEnd true 512) s)
      (tokens.foldl blockStep blocks) := by
  induction tokens generalizing s blocks with
  | nil => exact h
  | cons tok tokens ih => exact ih (h.step cursor tok)

/-- **The active keyword** is the last one of the block around the cursor. -/
theorem activeEntry_eq (tokens : List TokenSpan) (cursor : LspPos) :
    ∃ depth, (activeEntry tokens cursor).map KwStackEntry.core
      = (blockKeyword tokens cursor).map (·.entry depth) := by
  have hstart : Scanned ([], 0) [none] := ⟨rfl, rfl⟩
  have h := scanned_foldl cursor (tokensUpTo tokens cursor) hstart
  unfold activeEntry scanKwStack blockKeyword
  generalize (tokensUpTo tokens cursor).foldl (scanKwToken cursor kwSigEnd true 512) ([], 0) = s at h
  generalize (tokensUpTo tokens cursor).foldl blockStep [none] = blocks at h
  obtain ⟨stack, depth⟩ := s
  obtain ⟨hstack, hdepth⟩ := h
  dsimp only at hstack hdepth ⊢
  obtain ⟨block, outer, rfl⟩ : ∃ block outer, blocks = block :: outer :=
    List.exists_cons_of_length_pos (by omega)
  obtain rfl : depth = outer.length := by simpa using hdepth
  refine ⟨outer.length, ?_⟩
  have hfind : (stack.find? fun e => decide (e.depth = outer.length)).map KwStackEntry.core
      = (stack.map KwStackEntry.core).find? fun e => decide (e.depth = outer.length) := by
    rw [List.find?_map]
    rfl
  rw [hfind, hstack, entriesOf, List.head?_cons, Option.join_some]
  have houter : (entriesOf outer).find? (fun e => decide (e.depth = outer.length)) = none := by
    rw [List.find?_eq_none]
    intro e he
    have := depth_entriesOf_lt e he
    rw [decide_eq_true_eq]
    omega
  cases block with
  | none => exact houter
  | some t =>
    have hdepth' : (t.entry outer.length).depth = outer.length := rfl
    simp [hdepth']

/-! ### The statement at the cursor -/

/-- What the tokens have opened and not closed are macro calls. -/
def OpensCalls (before kinds : List ℕ) : Prop :=
  ∃ calls, braceStack (before ++ kinds) = calls ++ braceStack before ∧ ∀ call ∈ calls, call = true

/-- A statement begins behind these tokens: they are none, or end with a terminator or with the
brace of a body. -/
def BeginsStatement (before : List ℕ) : Prop :=
  before = [] ∨ before.getLast? = some tkEol ∨
    before.getLast? = some tkLbrace ∧ (braceStack before).head? = some false

/-- The cursor is in the statement that begins with `first`, behind this token and before any body
of the statement; the next token is behind the cursor, and a terminator before it is at the end of
the line. -/
def StatementAt (stream : List (ℕ × Token)) (cursor : LspPos) (first : Token) : Prop :=
  ∃ before rest after next more,
    stream = before ++ (first.kind, first) :: rest ++ after ++ next :: more ∧
    BeginsStatement (before.map (·.1)) ∧
    (∀ n ≤ rest.length + 1, OpensCalls (before.map (·.1)) ((first.kind :: rest.map (·.1)).take n)) ∧
    (∀ t ∈ (first.kind, first) :: rest, t.1 ≠ tkEol ∧ ¬ cursor.before t.2.start) ∧
    ¬ cursor.before first.stop ∧
    (after = [] ∨ after = [(tkEol, eolToken)] ∧
      ∀ last ∈ ((first.kind, first) :: rest).getLast?, cursor.line = last.2.stop.line) ∧
    (next.1 = 0 ∨ cursor.before next.2.start)

/-- The kind of the identifiers that a keyword takes; the keywords come before `TK_IDENT`. -/
def Token.idKind (first : Token) : Option ℕ :=
  if first.kind < tkIdent then idKindForKeyword first.text else none

section Mode

variable (tokens : List TokenSpan) (cursor : LspPos) (text : CStr)

/-- No identifier is offered, whatever the statement. -/
def Suppressed : Prop :=
  cursorInDquote text cursor tokens = true ∨ cursorInScissors text cursor tokens = true ∨
    isDeclKeyword (lineFirstWord tokens cursor) = true

instance : Decidable (Suppressed tokens cursor text) :=
  inferInstanceAs (Decidable (_ ∨ _ ∨ _))

/-- The cursor is on an identifier that is the first word of its line. -/
def OnFirstWord : Prop :=
  partialWord tokens cursor ≠ [] ∧ lineFirstWord tokens cursor = some (partialWord tokens cursor)

instance : Decidable (OnFirstWord tokens cursor) := inferInstanceAs (Decidable (_ ∧ _))

/-- The kind of the identifiers that `build_completions_json` offers. -/
def identifierKind : Option ℕ :=
  if Suppressed tokens cursor text then none else offeredKind tokens cursor

/-- The response with the identifiers of a kind; when there is none, with keywords, or null. -/
def responseWith (root : TjNode) (extra : List TjNode) (owners : List (Option (List ℕ))) :
    Option ℕ → Option (Option CompletionList)
  | some idKind => (buildIdCompletions root extra tokens owners cursor idKind).map fun out =>
      completionList out.1 out.2
  | none => if Suppressed tokens cursor text then some none
    else some (completionList (buildKeywordCompletions tokens cursor (partialWord tokens cursor)
      (blockStack root tokens owners cursor)) false)

theorem buildCompletionsJson_eq (root : TjNode) (extra : List TjNode)
    (owners : List (Option (List ℕ))) :
    buildCompletionsJson root extra tokens owners cursor text =
      responseWith tokens cursor text root extra owners (identifierKind tokens cursor text) := by
  unfold buildCompletionsJson identifierKind
  by_cases hstring : (cursorInDquote text cursor tokens || cursorInScissors text cursor tokens) = true
  · have hsup : Suppressed tokens cursor text := by
      rw [Bool.or_eq_true] at hstring
      exact hstring.elim Or.inl fun h => Or.inr (Or.inl h)
    rw [if_pos hstring, if_pos hsup]
    exact (if_pos hsup).symm
  · rw [if_neg hstring]
    rw [Bool.or_eq_true, not_or] at hstring
    by_cases hdecl : isDeclKeyword (lineFirstWord tokens cursor) = true
    · have hsup : Suppressed tokens cursor text := Or.inr (Or.inr hdecl)
      rw [if_pos hdecl, if_pos hsup]
      exact (if_pos hsup).symm
    · have hsup : ¬ Suppressed tokens cursor text := by
        rintro (h | h | h)
        · exact hstring.1 h
        · exact hstring.2 h
        · exact hdecl h
      rw [if_neg hdecl, if_neg hsup]
      cases offeredKind tokens cursor with
      | some idKind => rfl
      | none => exact (if_neg hsup).symm

/-- The identifiers that are offered are those of the keyword that the statement begins with, and
no keyword before it is the reason. -/
structure ModeFollows (first : Token) : Prop where
  kind : identifierKind tokens cursor text = first.idKind
  inside : identifierKind tokens cursor text ≠ none →
    ∀ e, activeEntry tokens cursor = some e → ¬ e.range.start.before first.start

/-- The keyword that decides what is offered stands in the statement and has identifiers of the same
kind; in a statement without identifiers, it has none either, or the cursor is in a string or on the
first word of a line. -/
def FirstDecides (first : Token) : Prop :=
  match first.idKind with
  | some idKind => ¬ Suppressed tokens cursor text ∧ ¬ OnFirstWord tokens cursor ∧
      ∃ w, blockKeyword tokens cursor = some w ∧ idKindForKeyword w.text = some idKind ∧
        ¬ w.start.before first.start
  | none => Suppressed tokens cursor text ∨ OnFirstWord tokens cursor ∨
      ∀ w, blockKeyword tokens cursor = some w → idKindForKeyword w.text = none

variable {tokens cursor text}

theorem idKindForKeyword_getD (word : Option CStr) :
    idKindForKeyword (some (word.getD [])) = idKindForKeyword word := by
  cases word with
  | none => decide
  | some w => rfl

theorem offeredKind_eq : offeredKind tokens cursor = if OnFirstWord tokens cursor then none
    else (blockKeyword tokens cursor).bind fun w => idKindForKeyword w.text := by
  obtain ⟨depth, hentry⟩ := activeEntry_eq tokens cursor
  have hkind : idKindForKeyword ((activeContext tokens cursor).map (·.1))
      = (blockKeyword tokens cursor).bind fun w => idKindForKeyword w.text := by
    rw [activeContext]
    cases he : activeEntry tokens cursor with
    | none =>
      rw [he] at hentry
      cases hb : blockKeyword tokens cursor with
      | none => rfl
      | some w =>
        rw [hb] at hentry
        cases hentry
    | some e =>
      rw [he] at hentry
      cases hb : blockKeyword tokens cursor with
      | none =>
        rw [hb] at hentry
        cases hentry
      | some w =>
        rw [hb, Option.map_some, Option.map_some, Option.some.injEq] at hentry
        have hkw : e.kw = w.text.getD [] := congrArg KwStackEntry.kw hentry
        rw [Option.map_some, Option.map_some, hkw]
        exact idKindForKeyword_getD w.text
  unfold offeredKind
  rw [hkind]
  dsimp only
  by_cases hword : OnFirstWord tokens cursor
  · have hnot : ¬ (lineFirstWord tokens cursor = none ∨ partialWord tokens cursor = [] ∨
        lineFirstWord tokens cursor ≠ some (partialWord tokens cursor)) := by
      rintro (h | h | h)
      · have := hword.2
        rw [h] at this
        cases this
      · exact hword.1 h
      · exact h hword.2
    rw [if_neg hnot, if_pos hword]
  · have hcond : lineFirstWord tokens cursor = none ∨ partialWord tokens cursor = [] ∨
        lineFirstWord tokens cursor ≠ some (partialWord tokens cursor) := by
      by_contra hnone
      rw [not_or, not_or, not_not] at hnone
      exact hword ⟨hnone.2.1, hnone.2.2⟩
    rw [if_pos hcond, if_neg hword]

theorem inside_iff (first : Token) :
    (∀ e, activeEntry tokens cursor = some e → ¬ e.range.start.before first.start) ↔
      ∀ w, blockKeyword tokens cursor = some w → ¬ w.start.before first.start := by
  obtain ⟨depth, hentry⟩ := activeEntry_eq tokens cursor
  cases he : activeEntry tokens cursor with
  | none =>
    rw [he] at hentry
    cases hb : blockKeyword tokens cursor with
    | none =>
      constructor
      · intro _ w h
        cases h
      · intro _ e h
        cases h
    | some w =>
      rw [hb] at hentry
      cases hentry
  | some e =>
    rw [he] at hentry
    cases hb : blockKeyword tokens cursor with
    | none =>
      rw [hb] at hentry
      cases hentry
    | some w =>
      rw [hb, Option.map_some, Option.map_some, Option.some.injEq] at hentry
      have hrange : e.range = ⟨w.start, w.stop⟩ := congrArg KwStackEntry.range hentry
      simp only [Option.some.injEq, forall_eq']
      rw [hrange]

theorem modeFollows_iff_firstDecides (first : Token) :
    ModeFollows tokens cursor text first ↔ FirstDecides tokens cursor text first := by
  have hkind : identifierKind tokens cursor text =
      if Suppressed tokens cursor text ∨ OnFirstWord tokens cursor then none
      else (blockKeyword tokens cursor).bind fun w => idKindForKeyword w.text := by
    unfold identifierKind
    rw [offeredKind_eq]
    by_cases hsup : Suppressed tokens cursor text <;> by_cases hword : OnFirstWord tokens cursor <;>
      simp [hsup, hword]
  have hiff : ModeFollows tokens cursor text first ↔
      identifierKind tokens cursor text = first.idKind ∧
        (identifierKind tokens cursor text ≠ none →
          ∀ w, blockKeyword tokens cursor = some w → ¬ w.start.before first.start) := by
    rw [← inside_iff]
    exact ⟨fun h => ⟨h.kind, h.inside⟩, fun h => ⟨h.1, h.2⟩⟩
  rw [hiff, hkind]
  unfold FirstDecides
  by_cases hnone : Suppressed tokens cursor text ∨ OnFirstWord tokens cursor
  · rw [if_pos hnone]
    cases first.idKind with
    | none => exact ⟨fun _ => hnone.elim Or.inl fun h => Or.inr (Or.inl h),
        fun _ => ⟨rfl, fun h => absurd rfl h⟩⟩
    | some idKind =>
      constructor
      · intro h
        cases h.1
      · intro h
        exact absurd hnone (not_or.mpr ⟨h.1, h.2.1⟩)
  · rw [if_neg hnone]
    rw [not_or] at hnone
    cases hb : blockKeyword tokens cursor with
    | none =>
      cases first.idKind with
      | none => simp
      | some idKind => simp
    | some w =>
      cases first.idKind with
      | none =>
        dsimp only
        rw [Option.bind_some, or_iff_right hnone.1, or_iff_right hnone.2]
        constructor
        · intro h v hv
          cases hv
          exact h.1
        · intro h
          exact ⟨h w rfl, fun hne => absurd (h w rfl) hne⟩
      | some idKind =>
        dsimp only
        rw [Option.bind_some]
        constructor
        · intro h
          exact ⟨hnone.1, hnone.2, w, rfl, h.1,
            h.2 (by rw [h.1]; exact Option.some_ne_none _) w rfl⟩
        · rintro ⟨-, -, v, hv, hkw, hin⟩
          cases hv
          refine ⟨hkw, fun _ u hu => ?_⟩
          cases hu
          exact hin

/-- **Identifiers follow the statement** if and only if the keyword that it begins with, or one with
identifiers of the same kind, is the last one with signature help in it; the response then has the
identifiers of that keyword, and no others. -/
theorem mode_follows_iff (first : Token) :
    (ModeFollows tokens cursor text first ↔ FirstDecides tokens cursor text first) ∧
      (FirstDecides tokens cursor text first → ∀ root extra owners,
        buildCompletionsJson root extra tokens owners cursor text =
          responseWith tokens cursor text root extra owners first.idKind) := by
  have hiff : ModeFollows tokens cursor text first ↔ _ := modeFollows_iff_firstDecides first
  refine ⟨hiff, fun hdecides root extra owners => ?_⟩
  rw [buildCompletionsJson_eq, (hiff.mpr hdecides).kind]

end Mode

/-- A statement behind the dependencies of a task. -/
def taskprefixText : CStr := cstr "task a \"\" \x7b\ndepends b\ntaskprefix c\n\x7d"

/-- No string and no comment is at the cursor. -/
def InCode (tokens : List TokenSpan) (cursor : LspPos) : Prop :=
  ∀ t ∈ tokSpanAt tokens cursor,
    t.isComment = false ∧ t.tokenKind ≠ tkStr ∧ t.tokenKind ≠ tkMultiLineStr

instance (tokens : List TokenSpan) (cursor : LspPos) : Decidable (InCode tokens cursor) :=
  inferInstanceAs (Decidable (∀ _ ∈ _, _))

theorem taskprefixText_parse : (treeUpTo coreTables 200 .boot taskprefixText).map (fun x =>
    (decide (InCode x.1.tokSpans ⟨2, 11⟩), identifierKind x.1.tokSpans ⟨2, 11⟩ taskprefixText))
    = some (true, some kwTask) := by
  decide +kernel

/-- The tokens of this text. -/
def taskprefixStream : List (ℕ × Token) :=
  quickHanded 11 (FrontState.boot.install taskprefixText)

/-- The keyword of its last statement. -/
def taskprefixFirst : Token := ⟨ kwTaskprefix, ⟨2, 0⟩, ⟨2, 10⟩, some (cstr "taskprefix")⟩

theorem taskprefixStream_eq : taskprefixStream = taskprefixStream.take 7 ++
    (taskprefixFirst.kind, taskprefixFirst) :: (taskprefixStream.drop 8).take 1 ++
      [(tkEol, eolToken)] ++ (tkRbrace, ⟨tkRbrace, ⟨3, 0⟩, ⟨3, 1⟩, none⟩) :: [] := by
  decide +kernel

theorem statementAt_taskprefix :
    StatementAt taskprefixStream ⟨2, 11⟩ taskprefixFirst := by
  have hcalls : ∀ n ≤ ((taskprefixStream.drop 8).take 1).length + 1,
      braceStack ((taskprefixStream.take 7).map (·.1) ++ ((taskprefixFirst.kind ::
        ((taskprefixStream.drop 8).take 1).map (·.1)).take n))
        = braceStack ((taskprefixStream.take 7).map (·.1)) := by
    decide +kernel
  have htokens : ∀ t ∈ (taskprefixFirst.kind, taskprefixFirst) :: (taskprefixStream.drop 8).take 1,
      t.1 ≠ tkEol ∧ ¬ LspPos.before ⟨2, 11⟩ t.2.start := by
    decide +kernel
  have hlast : ∀ last ∈ ((taskprefixFirst.kind, taskprefixFirst) ::
      (taskprefixStream.drop 8).take 1).getLast?, (⟨2, 11⟩ : LspPos).line = last.2.stop.line := by
    decide +kernel
  exact ⟨_, _, _, _, _, taskprefixStream_eq, Or.inr (Or.inl (by decide +kernel)),
    fun n hn => ⟨[], hcalls n hn, fun _ h => by cases h⟩, htokens, by decide,
    Or.inr ⟨rfl, hlast⟩, Or.inr (by decide)⟩

/-- **Tasks are offered** in a statement that takes none, for the dependencies before it. -/
theorem statement_offers_tasks : ¬ ∀ (s t : ProgState) (text input : CStr) (r : Lib.Lr.Result)
    (errors : ℕ) (out : ParseResult), yyScanString text = some input →
      Parses coreTables s text r errors t out →
        ∀ n cursor first, StatementAt (handed n (s.front.install input)) cursor first →
          InCode out.tokSpans cursor → ModeFollows out.tokSpans cursor text first := by
  intro h
  obtain ⟨doc, t, out, hparse, heq⟩ := exists_parsesTo taskprefixText_parse
  rw [Prod.mk.injEq, decide_eq_true_eq] at heq
  have hstatement : StatementAt (handed 11 (ProgState.boot.front.install taskprefixText)) ⟨2, 11⟩
      taskprefixFirst := by
    rw [handed_eq_quick]
    exact statementAt_taskprefix
  have hfollows := h .boot t taskprefixText taskprefixText .accept 0 out (by decide +kernel)
    (hparse.parses coreTables_sound) 11 ⟨2, 11⟩ taskprefixFirst hstatement heq.1
  have hkind := hfollows.kind
  rw [heq.2] at hkind
  revert hkind
  decide

end TaskjugglerLsp
