import TaskjugglerLsp.Grammar.Isolation
import TaskjugglerLsp.Grammar.Spelling

/-!
# The tokens of a document

The leaves of the syntax trees of a parse are tokens of the text, and closing braces that are missing
at its end.  So they are ordered by their places, and their spans are those of the parse.

* `ParsesTo.spells`: the tokens of the tree of a parse without a syntax error spell its statements.
* `ParsesTo.adjacent`: tokens next to each other are so among the spans, apart from comments.
* `Parses.exists_stmts`: so do those of the trees of any parse.
-/

namespace TaskjugglerLsp

open Lib.Lr

/-- **Tokens in the order of the text**: they are among those of some spans, and braces that are
missing at the end. -/
def InPlace (tokens : List Token) (spans : List TokenSpan) : Prop :=
  ∃ real missing last, tokens.Sublist (real ++ List.replicate missing (missingBrace last).val) ∧
    real.map Token.mark = spanMarks spans ∧ SpansInOrder spans last

/-- The places of tokens that are no closing braces. -/
def startKeys (tokens : List Token) : List ℕ :=
  (tokens.filter fun t => t.kind != tkRbrace).map (·.start.key)

theorem startKeys_append (ts us : List Token) :
    startKeys (ts ++ us) = startKeys ts ++ startKeys us := by
  unfold startKeys
  rw [List.filter_append, List.map_append]

theorem SpansInOrder.starts {spans : List TokenSpan} {last : LspPos} (h : SpansInOrder spans last) :
    (spans.map (·.start.key)).Pairwise (· < ·) := by
  rw [List.pairwise_map]
  refine List.Pairwise.imp_of_mem ?_ h.ordered
  intro x y hx _ hxy
  exact (h.nonempty x hx).trans_le hxy

theorem InPlace.startKeys {tokens : List Token} {spans : List TokenSpan}
    (h : InPlace tokens spans) : (startKeys tokens).Pairwise (· < ·) := by
  obtain ⟨real, missing, last, hsub, hmarks, hspans⟩ := h
  have hreal : (TaskjugglerLsp.startKeys (real ++ List.replicate missing (missingBrace last).val)).Sublist
      (spans.map (·.start.key)) := by
    have hbraces : TaskjugglerLsp.startKeys (List.replicate missing (missingBrace last).val) = [] := by
      unfold TaskjugglerLsp.startKeys
      rw [List.map_eq_nil_iff, List.filter_eq_nil_iff]
      intro t ht
      rw [List.eq_of_mem_replicate ht]
      exact Bool.false_ne_true
    rw [startKeys_append, hbraces, List.append_nil]
    have hstarts : real.map (·.start.key) = (spanMarks spans).map fun m => m.2.1.key := by
      rw [← hmarks, List.map_map]
      rfl
    refine (List.filter_sublist.map _).trans ?_
    rw [hstarts, spanMarks, List.map_map]
    exact List.filter_sublist.map _
  exact hspans.starts.sublist (((hsub.filter _).map _).trans hreal)

/-- What the lexer hands out is in the order of the text. -/
theorem inPlace_of_sublist {src input : CStr} {front : FrontState} {n : ℕ}
    {tokens : List (ℕ × Yystype)} (hcond : front.lex.cond = .initial)
    (hscan : yyScanString src = some input)
    (hsub : tokens.Sublist ((handed n (front.install input)).map fun t => (t.1, .tok t.2))) :
    (∀ x ∈ tokens, hasSpan x.1 = true → TokenOk x) ∧
      InPlace ((tokens.filter fun x => hasSpan x.1).map fun x => x.2.asTok)
        (yylexCalls n (front.install input)).lex.vars.tokSpans := by
  have htaken := taken_handed n (taken_install front input)
  rw [List.nil_append] at htaken
  constructor
  · intro x hx hspan
    obtain ⟨t, ht, rfl⟩ := List.mem_map.mp (hsub.subset hx)
    obtain ⟨hkind, htext⟩ := htaken.ok t (List.mem_append_left _ ht) hspan
    exact ⟨hkind, htext⟩
  · have hreached : LexReached input (yylexCalls n (front.install input)).lex := by
      have hstart : LexReached input _ := .start front.lex.vars
      rw [← hcond] at hstart
      exact LexReached.yylexCalls n hstart
    obtain ⟨real, missing, hspans, hreal, -⟩ := htaken.spans
    refine ⟨real, missing, _, ?_, hreal, hreached.inOrder hscan⟩
    rw [← hspans, spanned_append]
    refine List.Sublist.trans ?_ (List.sublist_append_left _ _)
    have hmap := (hsub.filter fun x => hasSpan x.1).map fun x => x.2.asTok
    rw [List.filter_map, List.map_map] at hmap
    exact hmap

section Parses

variable {κ : Type*} [DecidableEq κ] {T : Tables κ NonTerm SemAction} {s t : ProgState}
  {text : CStr} {doc : SynTree} {out : ParseResult}

theorem Parses.reached (hT : T.Sound grammar yyError) (hs : ParseHistory T s) {r : Result}
    {errors : ℕ} (h : Parses T s text r errors t out) : ∃ input, yyScanString text = some input ∧
      LexReached input t.front.lex ∧ out.tokSpans = t.front.lex.vars.tokSpans ∧
      out.numSemEntries = t.front.lex.vars.numSemEntries := by
  obtain ⟨input, -, hscan, -, -, rfl, n, -, hfront⟩ := h.exists_trees hT
  have hreached : LexReached input (yylexCalls n (s.front.install input)).lex := by
    have hstart : LexReached input _ := .start s.front.lex.vars
    rw [← hs.cond hT] at hstart
    exact LexReached.yylexCalls n hstart
  exact ⟨input, hscan, hfront ▸ hreached, rfl, rfl⟩

theorem ParsesTo.reached (hT : T.Sound grammar yyError) (hs : ParseHistory T s)
    (h : ParsesTo T s text doc t out) : ∃ input, yyScanString text = some input ∧
      LexReached input t.front.lex ∧ out.tokSpans = t.front.lex.vars.tokSpans := by
  obtain ⟨input, hscan, hreached, hspans, -⟩ := (h.parses hT).reached hT hs
  exact ⟨input, hscan, hreached, hspans⟩

/-- **A parse without a syntax error**: the statements of its tree are spelled by the tokens of
that, which are in order. -/
theorem ParsesTo.spells (hT : T.Sound grammar yyError) (hs : ParseHistory T s)
    (h : ParsesTo T s text doc t out) :
    Stmt.SpellsAll false (doc.stmts []) doc.toks ∧ InPlace doc.toks out.tokSpans := by
  obtain ⟨input, hscan, hdoc, -, rfl, n, more, htokens, hfront⟩ := h.spec hT
  have hsub : doc.yield.Sublist
      ((handed n (s.front.install input)).map fun t => (t.1, Yystype.tok t.2)) := by
    rw [htokens]
    exact List.sublist_append_left _ _
  obtain ⟨hok, hplace⟩ := inPlace_of_sublist (hs.cond hT) hscan hsub
  rw [← hfront] at hplace
  refine ⟨(spelled hdoc.valid (fun _ => ⟨hdoc.whole, ?_, ?_⟩) hok).all [], hplace⟩
  · rw [hdoc.root]
    nofun
  · rw [hdoc.root]
    nofun

/-- The tokens of leaves that have a span. -/
def leafToks (leaves : List (ℕ × Yystype)) : List Token :=
  (leaves.filter fun x => hasSpan x.1).map fun x => x.2.asTok

theorem leafToks_append (xs ys : List (ℕ × Yystype)) :
    leafToks (xs ++ ys) = leafToks xs ++ leafToks ys := by
  unfold leafToks
  rw [List.filter_append, List.map_append]

theorem leafToks_cons {x : ℕ × Yystype} (hx : hasSpan x.1 = true) (xs : List (ℕ × Yystype)) :
    leafToks (x :: xs) = x.2.asTok :: leafToks xs := by
  unfold leafToks
  rw [List.filter_cons_of_pos (p := fun x : ℕ × Yystype => hasSpan x.1) hx, List.map_cons]

theorem leafToks_eq_nil {xs : List (ℕ × Yystype)} (h : ∀ x ∈ xs, hasSpan x.1 = false) :
    leafToks xs = [] := by
  unfold leafToks
  rw [List.map_eq_nil_iff, List.filter_eq_nil_iff]
  intro x hx
  rw [h x hx]
  exact Bool.false_ne_true

/-- **The tokens of a document** are the first ones that have been taken, without a gap. -/
theorem ParsesTo.taken (hT : T.Sound grammar yyError) (hs : ParseHistory T s)
    (h : ParsesTo T s text doc t out) : ∃ real missing rest last,
      leafToks doc.yield ++ rest = real ++ List.replicate missing (missingBrace last).val ∧
      real.map Token.mark = spanMarks out.tokSpans ∧ SpansInOrder out.tokSpans last ∧
      ∀ x ∈ doc.yield, hasSpan x.1 = true → TokenOk x := by
  obtain ⟨input, hscan, -, -, rfl, n, more, htokens, hfront⟩ := h.spec hT
  have htaken := taken_handed n (taken_install s.front input)
  rw [List.nil_append] at htaken
  obtain ⟨real, missing, hspans, hreal, -⟩ := htaken.spans
  have hreached : LexReached input (yylexCalls n (s.front.install input)).lex := by
    have hstart : LexReached input _ := .start s.front.lex.vars
    rw [← hs.cond hT] at hstart
    exact LexReached.yylexCalls n hstart
  have hinOrder := hreached.inOrder hscan
  rw [← hfront] at hinOrder hreal hspans
  have hfirst : spanned (handed n (s.front.install input))
      = leafToks doc.yield ++ leafToks more := by
    have hmap := congrArg leafToks htokens
    rw [leafToks_append, leafToks, List.filter_map, List.map_map] at hmap
    exact hmap
  refine ⟨real, missing, leafToks more ++ spanned t.front.heldBack, _, ?_, hreal, hinOrder, ?_⟩
  · rw [← hspans, spanned_append, hfirst, List.append_assoc]
  · intro x hx hspan
    have hmem : x ∈ (handed n (s.front.install input)).map fun t => (t.1, Yystype.tok t.2) := by
      rw [htokens]
      exact List.mem_append_left _ hx
    obtain ⟨t, ht, rfl⟩ := List.mem_map.mp hmem
    obtain ⟨hkind, htext⟩ := htaken.ok t (List.mem_append_left _ ht) hspan
    exact ⟨hkind, htext⟩

/-- Two tokens in a row that are no missing brace are real ones. -/
theorem exists_real_pair {toks rest real : List Token} {x y brace : Token} {missing : ℕ}
    (h : toks ++ x :: y :: rest = real ++ List.replicate missing brace) (hy : y ≠ brace) :
    ∃ more, real = toks ++ x :: y :: more := by
  have h' : (toks ++ [x, y]) ++ rest = real ++ List.replicate missing brace := by
    rw [← h, List.append_assoc]
    rfl
  rcases List.append_eq_append_iff.mp h' with ⟨more, hreal, -⟩ | ⟨more, hpair, hbraces⟩
  · refine ⟨more, ?_⟩
    rw [hreal, List.append_assoc]
    rfl
  · rcases List.eq_nil_or_concat more with rfl | ⟨init, last, rfl⟩
    · refine ⟨[], ?_⟩
      rw [List.append_nil] at hpair
      exact hpair.symm
    · have hlast : y = last := by
        have := congrArg List.getLast? hpair
        simpa using this
      have hmem : y ∈ List.replicate missing brace := by
        rw [hbraces, hlast]
        simp
      exact absurd (List.eq_of_mem_replicate hmem) hy

/-- **Tokens next to each other**, apart from some without spans, are next to each other among the
spans, apart from comments. -/
theorem ParsesTo.adjacent (hT : T.Sound grammar yyError) (hs : ParseHistory T s)
    (h : ParsesTo T s text doc t out) {before gap after : List (ℕ × Yystype)} {x y : ℕ × Yystype}
    (hyield : doc.yield = before ++ x :: (gap ++ y :: after)) (hx : hasSpan x.1 = true)
    (hy : hasSpan y.1 = true) (hgap : ∀ z ∈ gap, hasSpan z.1 = false) (hbrace : y.1 ≠ tkRbrace) :
    ∃ pre first remarks second post, out.tokSpans = pre ++ first :: (remarks ++ second :: post) ∧
      first.mark = x.2.asTok.mark ∧ second.mark = y.2.asTok.mark ∧ second.isRemark = false ∧
      ∀ c ∈ remarks, c.isRemark = true := by
  obtain ⟨real, missing, rest, last, hreal, hmarks, -, hok⟩ := h.taken hT hs
  have hkind : y.2.asTok.kind = y.1 := (hok y (by rw [hyield]; simp) hy).kind
  rw [hyield, leafToks_append, leafToks_cons hx, leafToks_append, leafToks_eq_nil hgap,
    List.nil_append, leafToks_cons hy, List.append_assoc, List.cons_append, List.cons_append]
    at hreal
  obtain ⟨more, rfl⟩ := exists_real_pair hreal fun heq => by
    rw [heq] at hkind
    exact hbrace hkind.symm
  rw [List.map_append, List.map_cons, List.map_cons, spanMarks] at hmarks
  obtain ⟨l₁, l₂, hfilter, -, hl₂⟩ := List.map_eq_append_iff.mp hmarks.symm
  obtain ⟨first, l₃, rfl, hfirst, hl₃⟩ := List.map_eq_cons_iff.mp hl₂
  obtain ⟨second, l₄, rfl, hsecond, -⟩ := List.map_eq_cons_iff.mp hl₃
  obtain ⟨s₁, s₂, hspans, -, hs₂⟩ := List.filter_eq_append_iff.mp hfilter
  obtain ⟨s₃, s₄, rfl, -, -, hs₄⟩ := List.filter_eq_cons_iff.mp hs₂
  obtain ⟨remarks, post, rfl, hremarks, hreal, -⟩ := List.filter_eq_cons_iff.mp hs₄
  refine ⟨s₁ ++ s₃, first, remarks, second, post, ?_, hfirst, hsecond, ?_, ?_⟩
  · rw [hspans, List.append_assoc]
  · simpa using hreal
  · intro c hc
    simpa using hremarks c hc

/-- **Every parse** has done what some statements do, whose tokens are in the order of the text. -/
theorem Parses.exists_stmts (hT : T.Sound grammar yyError) (hs : ParseHistory T s) {r : Result}
    {errors : ℕ} (h : Parses T s text r errors t out) : ∃ sts toks,
      t.grammar = (Stmt.execAll sts s.grammar.install).1 ∧ out = parseResult t.front t.grammar ∧
      Stmt.SpellsAll true sts toks ∧ InPlace toks out.tokSpans := by
  obtain ⟨input, trees, hscan, hvalid, hstate, hout, n, hsub, hfront⟩ := h.exists_trees hT
  obtain ⟨hok, hplace⟩ := inPlace_of_sublist (hs.cond hT) hscan hsub
  refine ⟨(Tree.stmtsEach trees []).flatten, Tree.toksAll trees, hstate, hout, ?_, ?_⟩
  · refine spellsAll_flatten (fun tree htree => ?_) []
    exact spelled (hvalid tree htree) (fun h => by cases h) fun x hx =>
      hok x (Tree.mem_yieldAll.mpr ⟨tree, htree, hx⟩)
  · rw [hout, ← Tree.toksAll_eq]
    rw [← hfront] at hplace
    exact hplace

end Parses

end TaskjugglerLsp
