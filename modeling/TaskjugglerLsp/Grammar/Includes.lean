import TaskjugglerLsp.Grammar.Evaluation
import TaskjugglerLsp.Grammar.Tokens

/-!
# The prefixes of an include

A prefix statement in the body of an include goes to a set of pending ones, which the next include
that ends takes and clears.  So an include gets the prefixes written in its body if no other include
ends between them and its own end.

* `Stmt.exec_includes`: what a statement does to the includes of a parse.
* `includes_own_iff`: when each include has its own prefixes.
-/

namespace TaskjugglerLsp

open Lib.Lr

/-! ### What a document says -/

/-- What a document says about includes: a prefix in a body of one, and the end of one, with the
prefixes of its own. -/
inductive IncludeMark where
  | pref (kind : PrefixKind) (value : CStr)
  | stop (file : Token) (own : PrefixSet)

/-- The last prefix of each kind that is written directly in a body. -/
def ownPrefixes (body : List Stmt) : PrefixSet :=
  body.foldl (fun set st =>
    match st with
    | .pref kind value => Function.update set kind (some value)
    | _ => set) noPrefixes

namespace Stmt

mutual

/-- What a statement says about includes, `inside` the body of one or not. -/
def includeMarks (inside : Bool) : Stmt → List IncludeMark
  | pref k value => if inside then [.pref k value] else []
  | incl file body => includeMarksAll true body ++ [.stop file (ownPrefixes body)]
  | top body | project _ _ _ body _ | symbol _ _ _ body _ | declare _ _ _ body _ | ref _ _ body
  | block body => includeMarksAll inside body
  | _ => []

def includeMarksAll (inside : Bool) : List Stmt → List IncludeMark
  | [] => []
  | st :: sts => includeMarks inside st ++ includeMarksAll inside sts

end

end Stmt

/-- The record of an include with its own prefixes. -/
def IncludeMark.record : IncludeMark → Option IncludeRef
  | pref _ _ => none
  | stop file own => some ⟨unquoted (file.text.getD []), own⟩

/-- **The includes of a document**, each with its own prefixes, in the order in which they end. -/
def includeRecords (sts : List Stmt) : List IncludeRef :=
  (Stmt.includeMarksAll false sts).filterMap IncludeMark.record

/-- The last prefix of each kind since the last include that ended. -/
def prefixesSince (marks : List IncludeMark) (start : PrefixSet) : PrefixSet :=
  marks.foldl (fun set mark =>
    match mark with
    | .pref kind value => Function.update set kind (some value)
    | .stop _ _ => noPrefixes) start

/-- **Nothing disturbs the includes** of a document: the last prefixes in the bodies of includes
since the last end of one are those written directly in the body of the one that ends next. -/
def OwnPrefixesOnly (sts : List Stmt) : Prop :=
  ∀ before file own after,
    Stmt.includeMarksAll false sts = before ++ .stop file own :: after →
      prefixesSince before noPrefixes = own

/-! ### What the actions do -/

/-- What a mark does to the includes and the pending prefixes. -/
def IncludeMark.apply (x : List IncludeRef × PrefixSet) : IncludeMark → List IncludeRef × PrefixSet
  | pref kind value => (x.1, Function.update x.2 kind (some value))
  | stop file _ => (x.1 ++ (file.text.map fun quoted => ⟨unquoted quoted, x.2⟩).toList, noPrefixes)

namespace GrammarState

/-- The variables that have to do with includes. -/
def includeVars (s : GrammarState) : (List IncludeRef × PrefixSet) × ℤ :=
  ((s.includes, s.pendingPrefixes), s.inIncludeDepth)

variable (s : GrammarState)

@[simp] theorem includeVars_routeTopLevel (a : ℕ) :
    (s.routeTopLevel a).includeVars = s.includeVars := by
  unfold routeTopLevel
  split_ifs <;> rfl

@[simp] theorem includeVars_hoist (syms : List ℕ) : (s.hoist syms).includeVars = s.includeVars := by
  unfold hoist
  induction syms generalizing s with
  | nil => rfl
  | cons a syms ih =>
    rw [List.foldl_cons, ih]
    split_ifs
    · rfl
    · exact s.includeVars_routeTopLevel a

@[simp] theorem includeVars_routeAll (syms : List ℕ) :
    (syms.foldl routeTopLevel s).includeVars = s.includeVars := by
  induction syms generalizing s with
  | nil => rfl
  | cons a syms ih => rw [List.foldl_cons, ih, includeVars_routeTopLevel]

@[simp] theorem includeVars_symStackPush (a : ℕ) :
    (s.symStackPush a).includeVars = s.includeVars := by
  unfold symStackPush
  split_ifs <;> rfl

@[simp] theorem includeVars_captureDate (date : Token) (set : ℤ → NodeCell → NodeCell) :
    (s.captureDate date set).includeVars = s.includeVars := by
  unfold captureDate
  split
  · rfl
  · split_ifs
    · split <;> rfl
    · rfl

@[simp] theorem includeVars_captureDep (ref : TaskRef) :
    (s.captureDep ref).includeVars = s.includeVars := by
  unfold captureDep
  split <;> rfl

/-- At its end, an include takes the pending prefixes. -/
theorem includeVars_stop (file : Token) (own : PrefixSet) :
    ({ ({ s with inIncludeDepth := s.inIncludeDepth - 1 } : GrammarState).pushInclude file.text with
      pendingPrefixes := noPrefixes } : GrammarState).includeVars
      = ((IncludeMark.stop file own).apply s.includeVars.1, s.inIncludeDepth - 1) := by
  show _ = ((s.includes ++ (file.text.map fun quoted =>
    ⟨unquoted quoted, s.pendingPrefixes⟩).toList, noPrefixes), _)
  unfold pushInclude
  cases file.text with
  | none =>
    show ((s.includes, noPrefixes), _) = ((s.includes ++ [], noPrefixes), _)
    rw [List.append_nil]
  | some quoted => rfl

end GrammarState

/-- From one state to another, the includes are what some marks say. -/
def IncludesFrom (s t : GrammarState) (marks : List IncludeMark) : Prop :=
  t.includeVars = (marks.foldl IncludeMark.apply s.includeVars.1, s.includeVars.2)

theorem IncludesFrom.refl (s : GrammarState) : IncludesFrom s s [] := rfl

theorem IncludesFrom.trans {s t u : GrammarState} {marks more : List IncludeMark}
    (h : IncludesFrom s t marks) (h' : IncludesFrom t u more) : IncludesFrom s u (marks ++ more) := by
  unfold IncludesFrom at h h' ⊢
  rw [h', h, List.foldl_append]

theorem IncludesFrom.of_eq {s s' t t' : GrammarState} {marks : List IncludeMark} (h : IncludesFrom s' t' marks)
    (hs : s'.includeVars = s.includeVars) (ht : t.includeVars = t'.includeVars) :
    IncludesFrom s t marks := by
  unfold IncludesFrom at h ⊢
  rw [ht, h, hs]

namespace Stmt

theorem execAll_includes {sts : List Stmt} {inside : Bool}
    (h : ∀ st ∈ sts, ∀ s : GrammarState, decide (0 < s.inIncludeDepth) = inside →
      0 ≤ s.inIncludeDepth → IncludesFrom s (st.exec s).1 (st.includeMarks inside)) :
    ∀ s : GrammarState, decide (0 < s.inIncludeDepth) = inside → 0 ≤ s.inIncludeDepth →
      IncludesFrom s (execAll sts s).1 (includeMarksAll inside sts) := by
  induction sts with
  | nil =>
    intro s _ _
    exact .refl s
  | cons st sts ih =>
    obtain ⟨hst, hsts⟩ := List.forall_mem_cons.mp h
    intro s hs hpos
    have hone := hst s hs hpos
    have hdepth : (st.exec s).1.inIncludeDepth = s.inIncludeDepth := congrArg Prod.snd hone
    exact hone.trans (ih hsts (st.exec s).1 (by rw [hdepth, hs]) (by rw [hdepth]; exact hpos))

/-- **What a statement does to the includes** is what it says. -/
theorem exec_includes (st : Stmt) : ∀ ts, Spells false st ts → ∀ (inside : Bool) (s : GrammarState),
    decide (0 < s.inIncludeDepth) = inside → 0 ≤ s.inIncludeDepth →
      IncludesFrom s (st.exec s).1 (st.includeMarks inside) := by
  induction st using Stmt.induct with
  | h st ih =>
    intro ts hts inside
    have hall (inside : Bool) : ∀ s : GrammarState, decide (0 < s.inIncludeDepth) = inside →
        0 ≤ s.inIncludeDepth →
          IncludesFrom s (execAll st.body s).1 (includeMarksAll inside st.body) := by
      refine execAll_includes fun c hc => ?_
      obtain ⟨us, hus⟩ := hts.mem hc
      exact ih c hc us hus inside
    intro s hs hpos
    cases st with
    | reset => exact .refl s
    | top item =>
      refine (hall inside s hs hpos).of_eq rfl ?_
      rw [exec]
      simp only [GrammarState.includeVars_routeAll]
      rfl
    | project kw id name body stop =>
      refine (hall inside s hs hpos).of_eq rfl ?_
      rw [exec]
      simp
      rfl
    | symbol kw id name body stop =>
      obtain ⟨s', hs'⟩ : ∃ s', (if kw.kind = kwTask then
          (s.allocTjNode kw id name).1.symStackPush (s.allocTjNode kw id name).2
        else (s.allocTjNode kw id name).1) = s' := ⟨_, rfl⟩
      have hvars : s'.includeVars = s.includeVars := by
        rw [← hs']
        split_ifs
        · exact GrammarState.includeVars_symStackPush _ _
        · rfl
      have hdepth : s'.inIncludeDepth = s.inIncludeDepth := congrArg Prod.snd hvars
      refine (hall inside s' (by rw [hdepth, hs]) (by rw [hdepth]; exact hpos)).of_eq hvars ?_
      rw [exec]
      simp only [hs']
      split_ifs
      · rfl
      · rfl
    | declare kw id name body stop =>
      refine (hall inside s hs hpos).of_eq rfl ?_
      rw [exec]
      rfl
    | kind k => exact .refl s
    | ref bangs segs body =>
      refine (hall inside s hs hpos).of_eq rfl ?_
      rw [exec]
      simp
      rfl
    | startDate date => exact (IncludesFrom.refl s).of_eq rfl (s.includeVars_captureDate _ _)
    | endDate date => exact (IncludesFrom.refl s).of_eq rfl (s.includeVars_captureDate _ _)
    | pref k value =>
      show IncludesFrom s (s.setPendingPrefix k value) (if inside then [.pref k value] else [])
      rw [← hs, GrammarState.setPendingPrefix]
      by_cases hin : 0 < s.inIncludeDepth
      · rw [if_pos hin, decide_eq_true hin]
        rfl
      · rw [if_neg hin, decide_eq_false hin]
        exact .refl s
    | incl file body =>
      have hbody := hall true { s with inIncludeDepth := s.inIncludeDepth + 1 }
        (decide_eq_true (by show 0 < s.inIncludeDepth + 1; omega))
        (show 0 ≤ s.inIncludeDepth + 1 by omega)
      show IncludesFrom s _ (includeMarksAll true body ++ [.stop file (ownPrefixes body)])
      have hdepth : (execAll body { s with inIncludeDepth := s.inIncludeDepth + 1 }).1.inIncludeDepth
          = s.inIncludeDepth + 1 := congrArg Prod.snd hbody
      unfold IncludesFrom at hbody ⊢
      rw [exec, GrammarState.includeVars_stop _ file (ownPrefixes body), List.foldl_append, hdepth]
      refine Prod.ext ?_ (Int.add_sub_cancel _ _)
      exact congrArg (fun x => IncludeMark.apply x.1 (.stop file (ownPrefixes body))) hbody
    | block body => exact hall inside s hs hpos
    | opened => exact Bool.noConfusion (show false = true from hts)
    | included => exact Bool.noConfusion (show false = true from hts)

theorem mem_includeMarksAll {inside : Bool} {sts : List Stmt} {mark : IncludeMark} :
    mark ∈ includeMarksAll inside sts ↔ ∃ st ∈ sts, mark ∈ st.includeMarks inside := by
  induction sts with
  | nil => simp [includeMarksAll]
  | cons st sts ih => rw [includeMarksAll, List.mem_append, ih, List.exists_mem_cons_iff]

theorem stop_text (st : Stmt) : ∀ ts, Spells false st ts → ∀ (inside : Bool) (file : Token)
    (own : PrefixSet), .stop file own ∈ st.includeMarks inside → file.text.isSome = true := by
  induction st using Stmt.induct with
  | h st ih =>
    intro ts hts inside file own hmem
    have hall (inside : Bool) (hmem : .stop file own ∈ includeMarksAll inside st.body) :
        file.text.isSome = true := by
      obtain ⟨c, hc, hmem⟩ := mem_includeMarksAll.mp hmem
      obtain ⟨us, hus⟩ := hts.mem hc
      exact ih c hc us hus inside file own hmem
    cases st with
    | pref k value =>
      rw [includeMarks] at hmem
      split_ifs at hmem
      · cases List.mem_singleton.mp hmem
      · cases hmem
    | incl f body =>
      rw [includeMarks, List.mem_append] at hmem
      rcases hmem with hmem | hmem
      · exact hall true hmem
      · obtain ⟨rfl, -⟩ := IncludeMark.stop.inj (List.mem_singleton.mp hmem)
        obtain ⟨_, _, _, -, htext, -⟩ := hts
        exact htext
    | top | project | symbol | declare | ref | block => exact hall inside hmem
    | opened => exact Bool.noConfusion (show false = true from hts)
    | included => exact Bool.noConfusion (show false = true from hts)
    | _ => cases hmem

end Stmt

/-! ### When an include has its own prefixes -/

theorem foldl_apply (marks : List IncludeMark) : ∀ (records : List IncludeRef) (set : PrefixSet),
    (marks.foldl IncludeMark.apply (records, set)).1
      = records ++ (marks.foldl IncludeMark.apply ([], set)).1 := by
  induction marks with
  | nil =>
    intro records set
    exact (List.append_nil records).symm
  | cons mark marks ih =>
    intro records set
    cases mark with
    | pref k value => exact ih records _
    | stop file own =>
      rw [List.foldl_cons, List.foldl_cons, IncludeMark.apply, IncludeMark.apply, ih, ih (_ ++ _),
        List.nil_append, List.append_assoc]

theorem records_iff {marks : List IncludeMark}
    (htext : ∀ file own, .stop file own ∈ marks → file.text.isSome = true) : ∀ set : PrefixSet,
    (marks.foldl IncludeMark.apply ([], set)).1 = marks.filterMap IncludeMark.record ↔
      ∀ before file own after, marks = before ++ .stop file own :: after →
        prefixesSince before set = own := by
  induction marks with
  | nil =>
    intro set
    refine iff_of_true rfl fun before file own after h => ?_
    simp at h
  | cons mark marks ih =>
    intro set
    have hrest := ih fun file own h => htext file own (List.mem_cons_of_mem _ h)
    have hsplit : ∀ next : PrefixSet, (∀ before, prefixesSince (mark :: before) set
        = prefixesSince before next) →
        ((∀ before file own after, mark :: marks = before ++ .stop file own :: after →
          prefixesSince before set = own) ↔
        (∀ file own, mark = .stop file own → set = own) ∧
          ∀ before file own after, marks = before ++ .stop file own :: after →
            prefixesSince before next = own) := by
      intro next hnext
      constructor
      · intro h
        refine ⟨fun file own hmark => h [] file own marks (by rw [hmark]; rfl), ?_⟩
        intro before file own after heq
        rw [← hnext]
        exact h (mark :: before) file own after (by rw [heq]; rfl)
      · rintro ⟨hhead, htail⟩ before file own after heq
        cases before with
        | nil => exact hhead file own (List.cons.inj heq).1
        | cons first before =>
          rw [List.cons_append] at heq
          obtain ⟨rfl, hmarks⟩ := List.cons.inj heq
          rw [hnext]
          exact htail before file own after hmarks
    cases mark with
    | pref k value =>
      rw [hsplit (Function.update set k (some value)) fun _ => rfl, ← hrest]
      simp only [reduceCtorEq, false_implies, implies_true, true_and]
      rfl
    | stop file own =>
      obtain ⟨quoted, hquoted⟩ := Option.isSome_iff_exists.mp (htext file own List.mem_cons_self)
      have hrecord : (List.foldl IncludeMark.apply ([], set) (.stop file own :: marks)).1
          = ⟨unquoted quoted, set⟩
            :: (List.foldl IncludeMark.apply ([], noPrefixes) marks).1 := by
        rw [List.foldl_cons, IncludeMark.apply, foldl_apply, hquoted]
        rfl
      have hown : List.filterMap IncludeMark.record (.stop file own :: marks)
          = ⟨unquoted quoted, own⟩ :: marks.filterMap IncludeMark.record := by
        rw [List.filterMap_cons_some (b := ⟨unquoted quoted, own⟩)]
        rw [IncludeMark.record, hquoted]
        rfl
      rw [hsplit noPrefixes fun _ => rfl, ← hrest, hrecord, hown, List.cons.injEq,
        IncludeRef.mk.injEq]
      refine and_congr_left fun _ => ⟨fun h file own heq => ?_, fun h => ⟨rfl, h file own rfl⟩⟩
      rw [← (IncludeMark.stop.inj heq).2]
      exact h.2

section Parses

variable {κ : Type*} [DecidableEq κ] {T : Tables κ NonTerm SemAction} {s t : ProgState}
  {text : CStr} {doc : SynTree} {out : ParseResult}

/-- **The includes of a parse** are recorded with their own prefixes if and only if nothing
disturbs them. -/
theorem includes_own_iff (hT : T.Sound grammar yyError) (hs : ParseHistory T s)
    (h : ParsesTo T s text doc t out) :
    out.includes = includeRecords (doc.stmts []) ↔ OwnPrefixesOnly (doc.stmts []) := by
  obtain ⟨hspells, -⟩ := h.spells hT hs
  obtain ⟨input, -, -, hgrammar, rfl, -⟩ := h.spec hT
  have heach : ∀ st ∈ doc.stmts [], ∀ s : GrammarState, decide (0 < s.inIncludeDepth) = false →
      0 ≤ s.inIncludeDepth → IncludesFrom s (st.exec s).1 (st.includeMarks false) := by
    intro st hst
    obtain ⟨us, hus⟩ := hspells.mem hst
    exact st.exec_includes us hus false
  have hmarked := Stmt.execAll_includes heach s.grammar.install (by rfl) (Int.le_refl 0)
  have hincludes : (parseResult t.front t.grammar).includes
      = ((Stmt.includeMarksAll false (doc.stmts [])).foldl IncludeMark.apply ([], noPrefixes)).1 := by
    show t.grammar.includes = _
    rw [hgrammar]
    exact congrArg (fun x => x.1.1) hmarked
  rw [hincludes]
  refine records_iff (fun file own hmem => ?_) noPrefixes
  obtain ⟨st, hst, hmem⟩ := Stmt.mem_includeMarksAll.mp hmem
  obtain ⟨us, hus⟩ := hspells.mem hst
  exact st.stop_text us hus false file own hmem

/-- An include in the body of another one. -/
def nestedInclude : CStr := cstr "include \"a\" \x7b taskprefix p include \"b\" \x7d"

theorem nestedInclude_parse : (treeUpTo coreTables 100 .boot nestedInclude).map (fun x =>
    (x.1.includes.map fun r => (r.filename, r.prefixes .task),
      (includeRecords (x.2.stmts [])).map fun r => (r.filename, r.prefixes .task)))
    = some ([(cstr "b", some (cstr "p")), (cstr "a", none)],
      [(cstr "b", none), (cstr "a", some (cstr "p"))]) := by
  decide +kernel

/-- Its parse, and whether it is disturbed. -/
theorem includes_own_nested : ∃ doc t out, ParsesTo coreTables .boot nestedInclude doc t out ∧
    (out.includes = includeRecords (doc.stmts []) ↔ OwnPrefixesOnly (doc.stmts [])) := by
  obtain ⟨doc, t, out, hparse, -⟩ := exists_parsesTo nestedInclude_parse
  exact ⟨doc, t, out, hparse, includes_own_iff coreTables_sound .boot hparse⟩

/-- **The inner include** takes the prefix of the outer one. -/
theorem includes_nested : ¬ ∀ (s t : ProgState) (text : CStr) (doc : SynTree) (out : ParseResult),
    ParseHistory coreTables s → ParsesTo coreTables s text doc t out →
      out.includes = includeRecords (doc.stmts []) := by
  intro h
  obtain ⟨doc, t, out, hparse, heq⟩ := exists_parsesTo nestedInclude_parse
  have hown := h .boot t nestedInclude doc out .boot hparse
  rw [hown, Prod.mk.injEq] at heq
  exact absurd (heq.1.symm.trans heq.2) (by decide)

end Parses

end TaskjugglerLsp
