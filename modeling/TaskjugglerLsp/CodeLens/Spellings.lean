import TaskjugglerLsp.CodeLens.Durations
import TaskjugglerLsp.Grammar.Evaluation
import TaskjugglerLsp.Grammar.Tokens

/-!
# The two spellings of a duration

A value is one token, as in `5d`, or a number and a unit, as in `5 d`.  The lexer keeps no span of
a number, so that the second form has no lens.

* `lensOn_eq`: the lens on a keyword is the one of its span.
* `compact_lens`: the first form has the lens of its value, unless a comment is in the way.
* `separate_lens`: the second form has none.
* `duration_lens_iff`: when the lenses agree.
-/

namespace TaskjugglerLsp

open Lib.Lr

/-- `length` or `duration` with so many of a unit, as one token. -/
def CompactValue (doc : SynTree) (k : Token) (n : ℕ) (u : CStr) : Prop :=
  ∃ before v after, doc.yield = before ++ (k.kind, .tok k) :: (tkDuration, .tok v) :: after ∧
    v.text = some (decimal n ++ u)

/-- `length` or `duration` with a number in the text and an identifier. -/
def SeparateValue (text : CStr) (doc : SynTree) (k : Token) (n : ℕ) (u : CStr) : Prop :=
  ∃ before num unit after,
    doc.yield = before ++ (k.kind, .tok k) :: (tkInteger, .tok num) :: (tkIdent, .tok unit) :: after ∧
    (∃ pre post, yyScanString text = some (pre ++ decimal n ++ post) ∧
      bytePos pre = num.start.nat ∧ bytePos (pre ++ decimal n) = num.stop.nat) ∧
    unit.text = some u

/-- This keyword has the span `i`, and is in a task with this date. -/
structure DatedAt (out : ParseResult) (i : ℕ) (k : Token) (date : ℤ × Direction) : Prop where
  keyword : k.kind = kw "length" ∨ k.kind = kw "duration"
  span : (out.tokSpans[i]?).map (·.start) = some k.start
  owner : ∃ a, out.tokOwners[i]? = some (some a) ∧
    (out.heap.getD a .new).info.keyword = kwTask ∧ (out.heap.getD a .new).knownDate = some date

/-- The lens on a keyword. -/
def lensOn (out : ParseResult) (k : Token) : Option CodeLens :=
  (buildCodeLenses out).find? fun lens => lens.range.start = k.start

/-- A comment comes next among the spans. -/
def RemarkBehind (out : ParseResult) (i : ℕ) : Prop :=
  ∃ c, out.tokSpans[i + 1]? = some c ∧ c.isRemark = true

theorem parseCompactDuration_decimal (n : ℕ) {u : CStr} (hu : u ∈ unitTexts) :
    ∃ unit, canonUnit u = some unit ∧
      parseCompactDuration (some (decimal n ++ u)) = some ((n : ℤ), unit) := by
  obtain ⟨hunit, hstop⟩ := unitTexts_ok u hu
  obtain ⟨unit, hunit⟩ := Option.isSome_iff_exists.mp hunit
  have hall : ∀ c ∈ decimal n, isDigit c = true := fun c hc => isDigit_of_mem_decimal hc
  have hsplit : splitSign (decimal n ++ u) = (1, decimal n ++ u) :=
    splitSign_digits (decimal_ne_nil n) hall
  have htake : (decimal n ++ u).takeWhile isDigit = decimal n := by
    rw [List.takeWhile_append_of_pos hall, hstop, List.append_nil]
  have hdrop : (decimal n ++ u).dropWhile isDigit = u := by
    have happ := List.takeWhile_append_dropWhile (p := isDigit) (l := decimal n ++ u)
    rw [htake] at happ
    exact List.append_cancel_left happ
  have hguard : ((decimal n ++ u).head?.any isDigit) = true := by
    obtain ⟨c, more, hc⟩ := List.exists_cons_of_ne_nil (decimal_ne_nil n)
    rw [hc]
    exact hall c (by rw [hc]; exact List.mem_cons_self)
  have hloop := digitLoop_eq (decimal n ++ u) 0
  rw [htake, hdrop, show appendDigits 0 (decimal n) = n from digitsValue_decimal n] at hloop
  refine ⟨unit, hunit, ?_⟩
  rw [parseCompactDuration]
  simp only [Option.bind_eq_bind, Option.bind_some, hsplit, hguard, guard_true]
  rw [show (0 : ℤ) = ((0 : ℕ) : ℤ) from rfl, hloop]
  simp only [hunit, Option.bind_some, one_mul]
  rfl

section Lenses

variable {κ : Type*} [DecidableEq κ] {T : Tables κ NonTerm SemAction} {s t : ProgState}
  {text : CStr} {doc : SynTree} {out : ParseResult} {i n : ℕ} {k : Token} {u : CStr}
  {date : ℤ × Direction}

theorem codeLensAt_eq {sp : TokenSpan} (h : DatedAt out i k date)
    (hsp : out.tokSpans[i]? = some sp) (hmark : sp.mark = k.mark) :
    codeLensAt out.heap out.tokSpans out.tokOwners i =
      (parseDurValAt out.tokSpans (i + 1)).bind fun v => if v.1 = 0 then none else
        some ⟨⟨k.start, k.stop⟩, date.2, inferredDate k.kind v.1 v.2 date.1 date.2⟩ := by
  obtain ⟨a, howner, htask, hdate⟩ := h.owner
  have hkind : sp.tokenKind = k.kind := congrArg Prod.fst hmark
  have hstart : sp.start = k.start := congrArg (·.2.1) hmark
  have hstop : sp.stop = k.stop := congrArg (·.2.2.1) hmark
  have hkeyword : sp.tokenKind = kw "length" ∨ sp.tokenKind = kw "duration" := by
    rw [hkind]
    exact h.keyword
  unfold codeLensAt
  rw [hsp, howner]
  simp only [Option.bind_eq_bind, Option.bind_some, Option.join_some, hkeyword, htask, hdate,
    guard_true, Option.pure_def]
  rw [hkind, hstart, hstop]
  cases parseDurValAt out.tokSpans (i + 1) with
  | none => rfl
  | some v =>
    rw [Option.bind_some, Option.bind_some]
    by_cases hzero : v.1 = 0
    · rw [if_pos hzero]
      simp [hzero]
    · rw [if_neg hzero]
      simp [hzero]

theorem nodup_starts (hT : T.Sound grammar yyError) (hs : ParseHistory T s)
    (hp : ParsesTo T s text doc t out) : (out.tokSpans.map (·.start.key)).Nodup := by
  obtain ⟨real, missing, rest, last, -, -, horder, -⟩ := hp.taken hT hs
  exact horder.starts.imp fun hlt => Nat.ne_of_lt hlt

theorem codeLensAt_start {j : ℕ} {lens : CodeLens}
    (h : codeLensAt out.heap out.tokSpans out.tokOwners j = some lens) :
    (out.tokSpans[j]?).map (·.start) = some lens.range.start := by
  unfold codeLensAt at h
  simp only [Option.bind_eq_bind, Option.bind_eq_some_iff] at h
  obtain ⟨sp, hsp, -, -, owner, -, -, -, known, -, v, -, -, -, hlens⟩ := h
  rw [hsp, Option.map_some, ← Option.some.inj hlens]

/-- **The lens on a keyword** is the one of its span. -/
theorem lensOn_eq (hT : T.Sound grammar yyError) (hs : ParseHistory T s)
    (hp : ParsesTo T s text doc t out) (hspan : (out.tokSpans[i]?).map (·.start) = some k.start) :
    lensOn out k = codeLensAt out.heap out.tokSpans out.tokOwners i := by
  have hlt : i < out.tokSpans.length := by
    obtain ⟨sp, hsp, -⟩ := Option.map_eq_some_iff.mp hspan
    exact (List.getElem?_eq_some_iff.mp hsp).1
  -- no other span starts there
  have honly : ∀ {j lens}, codeLensAt out.heap out.tokSpans out.tokOwners j = some lens →
      lens.range.start = k.start → j = i := by
    intro j lens hj hstart
    have hplace := codeLensAt_start hj
    rw [hstart, ← hspan] at hplace
    refine (List.getElem?_inj (by rwa [List.length_map]) (nodup_starts hT hs hp)).mp ?_ |>.symm
    have hkey := congrArg (Option.map LspPos.key) hplace
    rw [Option.map_map, Option.map_map] at hkey
    rw [List.getElem?_map, List.getElem?_map]
    exact hkey.symm
  rw [lensOn, buildCodeLenses, List.find?_filterMap]
  cases hlens : codeLensAt out.heap out.tokSpans out.tokOwners i with
  | none =>
    rw [List.find?_eq_none.mpr, Option.bind_none]
    intro j _ hj
    obtain ⟨lens, hj, hstart⟩ := Option.any_eq_true _ _ |>.mp hj
    rw [honly hj (of_decide_eq_true hstart), hlens] at hj
    cases hj
  | some lens =>
    have hstart : lens.range.start = k.start := by
      have hplace := codeLensAt_start hlens
      rw [hspan] at hplace
      exact (Option.some.inj hplace).symm
    have hfound : ((List.range out.tokSpans.length).find? fun j =>
        (codeLensAt out.heap out.tokSpans out.tokOwners j).any fun lens =>
          lens.range.start = k.start).isSome := by
      rw [List.find?_isSome]
      exact ⟨i, List.mem_range.mpr hlt, by simp [hlens, hstart]⟩
    obtain ⟨j, hj⟩ := Option.isSome_iff_exists.mp hfound
    have hany := List.find?_some hj
    obtain ⟨lens', hj', hstart'⟩ := Option.any_eq_true _ _ |>.mp hany
    rw [hj, Option.bind_some, honly hj' (of_decide_eq_true hstart'), hlens]

theorem parseDurValAt_remark {spans : List TokenSpan} {c : TokenSpan} (hc : spans[i]? = some c)
    (hremark : c.isRemark = true) : parseDurValAt spans i = none := by
  have hkind : c.tokenKind = tkLineComment ∨ c.tokenKind = tkBlockComment := by
    simpa [TokenSpan.isRemark] using hremark
  unfold parseDurValAt
  rw [hc]
  rcases hkind with hkind | hkind
  · simp [hkind, tkLineComment, tkDuration, tkInteger, tkFloat]
  · simp [hkind, tkBlockComment, tkDuration, tkInteger, tkFloat]

theorem DatedAt.spans (hT : T.Sound grammar yyError) (hs : ParseHistory T s)
    (hp : ParsesTo T s text doc t out) (h : DatedAt out i k date)
    {before gap after : List (ℕ × Yystype)} {y : ℕ × Yystype}
    (hyield : doc.yield = before ++ (k.kind, .tok k) :: (gap ++ y :: after))
    (hy : hasSpan y.1 = true) (hgap : ∀ z ∈ gap, hasSpan z.1 = false) (hbrace : y.1 ≠ tkRbrace) :
    (∃ sp, out.tokSpans[i]? = some sp ∧ sp.mark = k.mark) ∧
      (RemarkBehind out i ∨ ∃ next, out.tokSpans[i + 1]? = some next ∧
        next.mark = y.2.asTok.mark ∧ next.tokenKind = y.1 ∧ next.isRemark = false) := by
  have hk : hasSpan k.kind = true := by
    rcases h.keyword with heq | heq
    · rw [heq]
      decide
    · rw [heq]
      decide
  obtain ⟨pre, first, remarks, second, post, hspans, hfirst, hsecond, hreal, hremarks⟩ :=
    hp.adjacent hT hs hyield hk hy hgap hbrace
  obtain ⟨real, missing, rest, last, -, -, -, hok⟩ := hp.taken hT hs
  -- the place of the keyword is that of only one span
  have hindex : i = pre.length := by
    obtain ⟨sp, hsp, hstart⟩ := Option.map_eq_some_iff.mp h.span
    have hfirstStart : first.start = k.start := congrArg (·.2.1) hfirst
    obtain ⟨hlt, -⟩ := List.getElem?_eq_some_iff.mp hsp
    refine (List.getElem?_inj (by rwa [List.length_map]) (nodup_starts hT hs hp)).mp ?_
    rw [List.getElem?_map, List.getElem?_map, hsp, hspans, List.getElem?_append_right (le_refl _),
      Nat.sub_self, List.getElem?_cons_zero, Option.map_some, Option.map_some, hstart, hfirstStart]
  have hnext : out.tokSpans[i + 1]? = (remarks ++ second :: post)[0]? := by
    rw [hspans, hindex, List.getElem?_append_right (Nat.le_succ _),
      Nat.succ_sub (le_refl _), Nat.sub_self]
    rfl
  refine ⟨⟨first, ?_, hfirst⟩, ?_⟩
  · rw [hspans, hindex, List.getElem?_append_right (le_refl _), Nat.sub_self]
    rfl
  · cases remarks with
    | cons c remarks => exact Or.inl ⟨c, hnext, hremarks c List.mem_cons_self⟩
    | nil =>
      right
      have hkind : second.tokenKind = y.1 := by
        have hmem : y ∈ doc.yield := by
          rw [hyield]
          simp
        rw [← (hok y hmem hy).kind]
        exact congrArg Prod.fst hsecond
      exact ⟨second, hnext, hsecond, hkind, hreal⟩

/-- The lens of a keyword that shows the date for a value. -/
def lensFor (k : Token) (date : ℤ × Direction) (n : ℕ) (unit : DurUnit) : CodeLens :=
  ⟨⟨k.start, k.stop⟩, date.2, inferredDate k.kind n unit date.1 date.2⟩

/-- **One token** has the lens of its value, if no comment is before it. -/
theorem compact_lens (hT : T.Sound grammar yyError) (hs : ParseHistory T s)
    (hp : ParsesTo T s text doc t out) (h : DatedAt out i k date) (hn : 0 < n)
    (hu : u ∈ unitTexts) (hv : CompactValue doc k n u) :
    RemarkBehind out i ∧ codeLensAt out.heap out.tokSpans out.tokOwners i = none ∨
      ¬ RemarkBehind out i ∧ ∃ unit, canonUnit u = some unit ∧
        codeLensAt out.heap out.tokSpans out.tokOwners i = some (lensFor k date n unit) := by
  obtain ⟨before, v, after, hyield, htext⟩ := hv
  have hgap : ∀ z ∈ ([] : List (ℕ × Yystype)), hasSpan z.1 = false := fun z hz => by cases hz
  obtain ⟨⟨sp, hsp, hmark⟩, hnext⟩ := h.spans hT hs hp hyield rfl hgap
    (show tkDuration ≠ tkRbrace by decide)
  rw [codeLensAt_eq h hsp hmark]
  rcases hnext with hremark | ⟨next, hnext, hval, hkind, hreal⟩
  · left
    obtain ⟨c, hc, hcomment⟩ := id hremark
    refine ⟨hremark, ?_⟩
    rw [parseDurValAt_remark hc hcomment]
    rfl
  · right
    constructor
    · rintro ⟨c, hc, hcomment⟩
      rw [hnext, Option.some.injEq] at hc
      rw [← hc, hreal] at hcomment
      cases hcomment
    · obtain ⟨unit, hunit, hparse⟩ := parseCompactDuration_decimal n hu
      have hkind : next.tokenKind = tkDuration := hkind
      have hnextText : next.text = some (decimal n ++ u) := by
        have hvkind : v.kind = tkDuration := by
          rw [← hkind]
          exact (congrArg Prod.fst hval).symm
        have hkept : keptText next.tokenKind next.text = keptText v.kind v.text :=
          congrArg (·.2.2.2) hval
        rw [hkind, hvkind] at hkept
        exact Eq.trans hkept htext
      refine ⟨unit, hunit, ?_⟩
      have hvalue : parseDurValAt out.tokSpans (i + 1) = some ((n : ℤ), unit) := by
        unfold parseDurValAt
        rw [hnext]
        simp only [Option.bind_eq_bind, Option.bind_some]
        rw [if_pos hkind, hnextText, hparse]
      rw [hvalue, Option.bind_some, if_neg (by simpa using hn.ne')]
      rfl

/-- **A number and a unit** have no lens. -/
theorem separate_lens (hT : T.Sound grammar yyError) (hs : ParseHistory T s)
    (hp : ParsesTo T s text doc t out) (h : DatedAt out i k date)
    (hv : SeparateValue text doc k n u) :
    codeLensAt out.heap out.tokSpans out.tokOwners i = none := by
  obtain ⟨before, num, unit, after, hyield, -, -⟩ := hv
  have hgap : ∀ z ∈ [(tkInteger, Yystype.tok num)], hasSpan z.1 = false := by
    intro z hz
    rw [List.mem_singleton.mp hz]
    rfl
  obtain ⟨⟨sp, hsp, hmark⟩, hnext⟩ := h.spans hT hs hp hyield rfl hgap
    (show tkIdent ≠ tkRbrace by decide)
  rw [codeLensAt_eq h hsp hmark]
  rcases hnext with ⟨c, hc, hcomment⟩ | ⟨next, hnext, -, hkind, -⟩
  · rw [parseDurValAt_remark hc hcomment]
    rfl
  · have hvalue : parseDurValAt out.tokSpans (i + 1) = none := by
      unfold parseDurValAt
      rw [hnext]
      simp [hkind, tkIdent, tkDuration, tkInteger, tkFloat]
    rw [hvalue]
    rfl

end Lenses

/-- **The two spellings** of a duration have the same lens, if a comment is before the value that is
one token, and only then, where the number is an `int`. -/
theorem duration_lens_iff {κ : Type*} [DecidableEq κ] {T : Tables κ NonTerm SemAction}
    (hT : T.Sound grammar yyError) {s s' t t' : ProgState} {text text' : CStr}
    {doc doc' : SynTree} {out out' : ParseResult} (hs : ParseHistory T s)
    (hp : ParsesTo T s text doc t out) (hs' : ParseHistory T s')
    (hp' : ParsesTo T s' text' doc' t' out') {i i' n : ℕ} {k : Token} {u : CStr}
    {date : ℤ × Direction} (hn : 0 < n) (hu : u ∈ unitTexts) (h : DatedAt out i k date)
    (hv : CompactValue doc k n u) (h' : DatedAt out' i' k date)
    (hv' : SeparateValue text' doc' k n u) :
    (RemarkBehind out i → lensOn out k = lensOn out' k) ∧
      (FitsInt n → lensOn out k = lensOn out' k → RemarkBehind out i) := by
  rw [lensOn_eq hT hs hp h.span, lensOn_eq hT hs' hp' h'.span, separate_lens hT hs' hp' h' hv']
  rcases compact_lens hT hs hp h hn hu hv with ⟨hremark, hnone⟩ | ⟨hremark, unit, -, hsome⟩
  · exact ⟨fun _ => hnone, fun _ _ => hremark⟩
  · refine ⟨fun hbehind => absurd hbehind hremark, fun _ hsame => ?_⟩
    rw [hsome] at hsame
    cases hsame

/-! ### Two texts -/

/-- The productions of durations as well. -/
def durationProductions : List (Production NonTerm SemAction) :=
  coreProductions ++
    [rule .plainStmt [.nt .durvalKw, .nt .durVal] .default,
      rule .durvalKw [.tok (kw "length")] .default,
      rule .durVal [.tok tkDuration] .default,
      rule .durVal [.nt .numVal, .nt .durUnit] .default,
      rule .numVal [.tok tkInteger] .default,
      rule .durUnit [.tok tkIdent] .default]

theorem mem_productions_of_duration : ∀ p ∈ durationProductions, p ∈ grammar.productions := by
  decide +kernel

/-- The automaton of these productions. -/
def durationTables : Tables (List (Item NonTerm)) NonTerm SemAction :=
  itemTables acceptProduction durationProductions yyError

theorem durationTables_sound : durationTables.Sound grammar yyError :=
  itemTables_sound mem_productions_of_duration

/-- A length of five days, as one token. -/
def compactText : CStr := cstr "task a \"\" \x7b\nstart 2024-01-01\nlength 5d\n\x7d"

/-- A length of five days, as a number and a unit. -/
def separateText : CStr := cstr "task a \"\" \x7b\nstart 2024-01-01\nlength 5 d\n\x7d"

/-- The keyword of both. -/
def lengthKeyword : Token := ⟨kw "length", ⟨2, 0⟩, ⟨2, 6⟩, some (cstr "length")⟩

/-- The start of both tasks. -/
def lengthDate : ℤ × Direction := (1704067200, .forward)

/-- The leaves of a tree are these from the eighth on. -/
def LeavesAre (doc : SynTree) (leaves : List (ℕ × Yystype)) : Prop :=
  doc.yield = doc.yield.take 7 ++ (leaves ++ doc.yield.drop (7 + leaves.length))

instance (doc : SynTree) (leaves : List (ℕ × Yystype)) : Decidable (LeavesAre doc leaves) :=
  inferInstanceAs (Decidable (_ = _))

/-- What the lens of a span depends on. -/
structure SpanData where
  start : Option LspPos
  owner : Option ℕ
  keyword : ℕ
  date : Option (ℤ × Direction)
  deriving DecidableEq

/-- What the lens of the seventh span depends on. -/
def seventhSpan (out : ParseResult) : SpanData :=
  ⟨(out.tokSpans[6]?).map (·.start), (out.tokOwners[6]?).getD none,
    (out.heap.getD 1 .new).info.keyword, (out.heap.getD 1 .new).knownDate⟩

/-- The keyword of both texts, in their task. -/
def lengthSpan : SpanData := ⟨some ⟨2, 0⟩, some 1, kwTask, some lengthDate⟩

theorem datedAt_of_seventhSpan {out : ParseResult} (h : seventhSpan out = lengthSpan) :
    DatedAt out 6 lengthKeyword lengthDate := by
  simp only [seventhSpan, lengthSpan, SpanData.mk.injEq] at h
  obtain ⟨hstart, howner, hkeyword, hdate⟩ := h
  refine ⟨Or.inl rfl, hstart, 1, ?_, hkeyword, hdate⟩
  cases h : out.tokOwners[6]? with
  | none =>
    rw [h] at howner
    cases howner
  | some owner =>
    rw [h, Option.getD_some] at howner
    rw [howner]

theorem compactText_parse : (treeUpTo durationTables 300 .boot compactText).map (fun x =>
    (decide (LeavesAre x.2 [(kw "length", .tok lengthKeyword),
      (tkDuration, .tok ⟨tkDuration, ⟨2, 7⟩, ⟨2, 9⟩, some (cstr "5d")⟩)]), seventhSpan x.1,
      (lensOn x.1 lengthKeyword).isSome))
    = some (true, lengthSpan, true) := by
  decide +kernel

theorem separateText_parse : (treeUpTo durationTables 300 .boot separateText).map (fun x =>
    (decide (LeavesAre x.2 [(kw "length", .tok lengthKeyword),
      (tkInteger, .tok ⟨tkInteger, ⟨2, 7⟩, ⟨2, 8⟩, none⟩),
      (tkIdent, .tok ⟨tkIdent, ⟨2, 9⟩, ⟨2, 10⟩, some (cstr "d")⟩)]), seventhSpan x.1,
      (lensOn x.1 lengthKeyword).isSome))
    = some (true, lengthSpan, false) := by
  decide +kernel

theorem separateText_number : ∃ pre post, yyScanString separateText
      = some (pre ++ decimal 5 ++ post) ∧ bytePos pre = (⟨2, 7⟩ : LspPos).nat ∧
        bytePos (pre ++ decimal 5) = (⟨2, 8⟩ : LspPos).nat :=
  ⟨separateText.take 36, separateText.drop 37, by decide +kernel⟩

theorem compactText_value {doc : SynTree} (h : LeavesAre doc [(kw "length", .tok lengthKeyword),
    (tkDuration, .tok ⟨tkDuration, ⟨2, 7⟩, ⟨2, 9⟩, some (cstr "5d")⟩)]) :
    CompactValue doc lengthKeyword 5 (cstr "d") :=
  ⟨_, _, _, h, by decide +kernel⟩

theorem separateText_value {doc : SynTree} (h : LeavesAre doc [(kw "length", .tok lengthKeyword),
    (tkInteger, .tok ⟨tkInteger, ⟨2, 7⟩, ⟨2, 8⟩, none⟩),
    (tkIdent, .tok ⟨tkIdent, ⟨2, 9⟩, ⟨2, 10⟩, some (cstr "d")⟩)]) :
    SeparateValue separateText doc lengthKeyword 5 (cstr "d") :=
  ⟨_, _, _, _, h, separateText_number, rfl⟩

/-- The lenses of the two texts. -/
theorem duration_lens_length : ∃ doc doc' t t' out out',
    ParsesTo durationTables .boot compactText doc t out ∧
      ParsesTo durationTables .boot separateText doc' t' out' ∧
      (RemarkBehind out 6 ↔ lensOn out lengthKeyword = lensOn out' lengthKeyword) := by
  obtain ⟨doc, t, out, hp, heq⟩ := exists_parsesTo compactText_parse
  obtain ⟨doc', t', out', hp', heq'⟩ := exists_parsesTo separateText_parse
  simp only [Prod.mk.injEq, decide_eq_true_eq] at heq heq'
  obtain ⟨hsame, hremark⟩ := duration_lens_iff durationTables_sound .boot hp .boot hp' (by decide)
    (by decide) (datedAt_of_seventhSpan heq.2.1) (compactText_value heq.1)
    (datedAt_of_seventhSpan heq'.2.1) (separateText_value heq'.1)
  exact ⟨doc, doc', t, t', out, out', hp, hp', hsame, hremark (by decide)⟩

/-- **The lens is lost** with the other spelling. -/
theorem duration_lens_lost : ¬ ∀ (s s' t t' : ProgState) (text text' : CStr) (doc doc' : SynTree)
    (out out' : ParseResult), ParseHistory durationTables s →
      ParsesTo durationTables s text doc t out → ParseHistory durationTables s' →
      ParsesTo durationTables s' text' doc' t' out' →
      ∀ i i' n k u date, 0 < n → u ∈ unitTexts → DatedAt out i k date → CompactValue doc k n u →
        DatedAt out' i' k date → SeparateValue text' doc' k n u → lensOn out k = lensOn out' k := by
  intro h
  obtain ⟨doc, t, out, hp, heq⟩ := exists_parsesTo compactText_parse
  obtain ⟨doc', t', out', hp', heq'⟩ := exists_parsesTo separateText_parse
  simp only [Prod.mk.injEq, decide_eq_true_eq] at heq heq'
  have hsame := h .boot .boot t t' compactText separateText doc doc' out out' .boot hp .boot hp' 6 6
    5 lengthKeyword (cstr "d") lengthDate (by decide) (by decide) (datedAt_of_seventhSpan heq.2.1)
    (compactText_value heq.1) (datedAt_of_seventhSpan heq'.2.1) (separateText_value heq'.1)
  have hsome := heq.2.2
  rw [hsame, heq'.2.2] at hsome
  cases hsome

end TaskjugglerLsp
