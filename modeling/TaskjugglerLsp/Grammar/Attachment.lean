import TaskjugglerLsp.Grammar.Layout

/-!
# References belong to the innermost task around them

A reference is appended to the task on top of the stack of tasks.  Where tasks are nested no deeper
than the stack is, that is the innermost task around the reference, and its range has the reference.

* `Stmt.refsIn`: the references of a statement, each with its task.
* `Stmt.attached`: the captures of a statement are those.
* `dependencies_attached`: so are the dependencies of a parse.
-/

namespace TaskjugglerLsp

open Lib Lib.Lr

namespace Stmt

mutual

/-- **The references of a statement**, each with the innermost task around it, if there is one. -/
def refsIn (task : Option TjInfo) : Stmt → List (TjInfo × TaskRef)
  | symbol kw id name body stop =>
    refsInAll (if kw.kind = kwTask then some (headingOf kw id name stop) else task) body
  | ref bangs segs body =>
    refsInAll task body ++ (task.map fun info => (info, taskRefOf bangs segs)).toList
  | top body | project _ _ _ body _ | declare _ _ _ body _ | incl _ body | block body =>
    refsInAll task body
  | _ => []

def refsInAll (task : Option TjInfo) : List Stmt → List (TjInfo × TaskRef)
  | [] => []
  | st :: sts => refsIn task st ++ refsInAll task sts

end

mutual

/-- How deep tasks are nested in a statement. -/
def taskDepth : Stmt → ℕ
  | symbol kw _ _ body _ => taskDepthAll body + if kw.kind = kwTask then 1 else 0
  | top body | project _ _ _ body _ | declare _ _ _ body _ | ref _ _ body | incl _ body
  | block body => taskDepthAll body
  | _ => 0

def taskDepthAll : List Stmt → ℕ
  | [] => 0
  | st :: sts => max (taskDepth st) (taskDepthAll sts)

end

end Stmt

/-! ### Cells that stay -/

theorem keepsCells_routeTopLevel (s : GrammarState) (a : ℕ) : KeepsCells s (s.routeTopLevel a) := by
  unfold GrammarState.routeTopLevel
  split_ifs
  · exact .refl s
  · exact grows_tjNodeAppendChild s a

theorem keepsCells_routeAll (s : GrammarState) (syms : List ℕ) :
    KeepsCells s (syms.foldl GrammarState.routeTopLevel s) := by
  induction syms generalizing s with
  | nil => exact .refl s
  | cons a syms ih => exact (keepsCells_routeTopLevel s a).trans (ih _)

theorem keepsCells_hoist (s : GrammarState) (syms : List ℕ) : KeepsCells s (s.hoist syms) := by
  unfold GrammarState.hoist
  induction syms generalizing s with
  | nil => exact .refl s
  | cons a syms ih =>
    rw [List.foldl_cons]
    refine KeepsCells.trans ?_ (ih _)
    split_ifs
    · exact .refl s
    · exact keepsCells_routeTopLevel s a

theorem Finished.keepsCells {s t u : GrammarState} {kw : Token} {stop : LspPos} {syms : List ℕ}
    (h : Finished t s.heap.length kw stop syms u) (hg : KeepsCells s t) : KeepsCells s u := by
  refine ⟨hg.length.trans h.length.ge, fun a ha hlt => ?_⟩
  obtain ⟨hheading, hkids⟩ := h.other a (Nat.ne_of_lt hlt)
  obtain ⟨hheading', hkids'⟩ := hg.same a ha hlt
  exact ⟨hheading.trans hheading', hkids.trans hkids'⟩

theorem length_lt_allocTjNode (s : GrammarState) (kw id name : Token) :
    s.heap.length < (s.allocTjNode kw id name).1.heap.length := by
  rw [s.length_allocTjNode]
  exact Nat.lt_succ_self _

/-! ### The captures of a statement -/

/-- **Captures are attached** to the tasks that the references are in, where `F` says what a cell
is. -/
structure Attached (F : ℕ → TjInfo) (v : CaptureVars) (out : CaptureVars × List Capture)
    (refs : List (TjInfo × TaskRef)) : Prop where
  stack : out.1.stack = v.stack
  log : out.2.map (fun c => (F c.task, c.ref)) = refs

/-- The cells that are new between two states are what they are in the second one. -/
def Labels (F : ℕ → TjInfo) (s t : GrammarState) : Prop :=
  ∀ a, s.heap.length ≤ a → a < t.heap.length → F a = t.heading a

theorem Labels.earlier {F : ℕ → TjInfo} {s t u : GrammarState} (h : Labels F s u)
    (hs : 0 < s.heap.length) (hg : KeepsCells t u) : Labels F s t := by
  intro a ha hlt
  exact (h a ha (hlt.trans_le hg.length)).trans (hg.same a (by omega) hlt).1

namespace Stmt

variable {F : ℕ → TjInfo} {kind : DepKind}

theorem attachedAll {sts : List Stmt} (h : ∀ st ∈ sts, ∀ (opened : List ℕ) (s : GrammarState)
      (r : List (Rose TjInfo)) (v : CaptureVars), Outlined opened s r → v.Agrees kind s →
      v.stack.length + st.taskDepth ≤ symStackSize → Labels F s (st.exec s).1 →
      Attached F v (st.captures v) (st.refsIn (v.stack.head?.map F))) :
    ∀ (opened : List ℕ) (s : GrammarState) (r : List (Rose TjInfo)) (v : CaptureVars),
      Outlined opened s r → v.Agrees kind s → v.stack.length + taskDepthAll sts ≤ symStackSize →
      Labels F s (execAll sts s).1 →
      Attached F v (capturesAll sts v) (refsInAll (v.stack.head?.map F) sts) := by
  induction sts with
  | nil => exact fun _ _ _ _ _ _ _ _ => ⟨rfl, rfl⟩
  | cons st sts ih =>
    obtain ⟨hst, hsts⟩ := List.forall_mem_cons.mp h
    intro opened s r v hs hv hdepth hlabels
    rw [taskDepthAll] at hdepth
    have hbuilt := st.exec_built opened s r hs
    have hrest := execAll_built (fun st (_ : st ∈ sts) => st.exec_built) opened _ _ hbuilt.outlined
    have hcaptures := st.exec_captures s v hv
    have hpos := hs.pos
    have hone : Attached F v (st.captures v) (st.refsIn (v.stack.head?.map F)) := by
      exact hst opened s r v hs hv (by omega) (hlabels.earlier hpos hrest.grows)
    have hmore : Attached F (st.captures v).1 (capturesAll sts (st.captures v).1)
        (refsInAll (v.stack.head?.map F) sts) := by
      rw [← hone.stack]
      refine ih hsts opened _ _ _ hbuilt.outlined hcaptures.agrees ?_ fun a ha hlt => ?_
      · rw [hone.stack]
        omega
      · exact hlabels a (hbuilt.grows.length.trans ha) hlt
    refine ⟨hmore.stack.trans hone.stack, ?_⟩
    rw [refsInAll, ← hone.log, ← hmore.log, ← List.map_append]
    rfl

/-- **The captures of a statement** are the references in it, each with the innermost task. -/
theorem attached (st : Stmt) : st.Inner → (∃ ts, Spells false st ts) → ∀ (opened : List ℕ)
    (s : GrammarState) (r : List (Rose TjInfo)) (v : CaptureVars), Outlined opened s r →
    v.Agrees kind s → v.stack.length + st.taskDepth ≤ symStackSize → Labels F s (st.exec s).1 →
    Attached F v (st.captures v) (st.refsIn (v.stack.head?.map F)) := by
  induction st using Stmt.induct with
  | h st ih =>
    intro hinner hspells opened s r v hs hv hdepth hlabels
    have hpos := hs.pos
    have hbody := attachedAll fun c (hc : c ∈ st.body) => ih c hc
      (by cases hinner with | intro _ _ hall => exact hall c hc) (by
        obtain ⟨ts, hts⟩ := hspells
        exact hts.mem hc)
    have hbuilt := execAll_built (fun c (_ : c ∈ st.body) => c.exec_built)
    cases st with
    | reset => cases hinner with | intro _ hreset _ => exact absurd rfl hreset
    | top item => cases hinner with | intro htop _ _ => exact absurd rfl (htop item)
    | project kw id name body stop =>
      have hg : KeepsCells (execAll body s).1 ((project kw id name body stop).exec s).1 :=
        ((finished_setRangeEnd _ (length_lt_allocTjNode _ kw id name) kw stop _).keepsCells
          (grows_allocTjNode _ kw id name)).trans (keepsCells_hoist _ _)
      have hone := hbody opened s r v hs hv hdepth (hlabels.earlier hpos hg)
      exact ⟨hone.stack, hone.log⟩
    | symbol kw id name body stop =>
      have hown : F s.heap.length = headingOf kw id name stop := by
        have hbuilt := (symbol kw id name body stop).exec_built opened s r hs
        obtain ⟨a, rest, heq, hholds, -⟩ := hbuilt.holds
        obtain ⟨rfl, -⟩ := List.cons.inj heq
        obtain ⟨⟨-, hlt⟩, hheading, -⟩ := hholds
        rw [hlabels _ (Nat.le_refl _) hlt]
        exact hheading
      have hview := (s.allocTjNode kw id name).1.outlineView_pushTask kw (s.allocTjNode kw id name).2
      have hstart := (hs.alloc kw id name).of_view hview
      have hagrees := hv.enter kw id name
      have hlen : (s.allocTjNode kw id name).1.heap.length = s.heap.length + 1 :=
        s.length_allocTjNode kw id name
      rw [← (Prod.mk.inj hview).1] at hlen
      obtain ⟨pushed, hpushed⟩ : ∃ pushed, pushed = if kw.kind = kwTask then
        (s.allocTjNode kw id name).1.symStackPush (s.allocTjNode kw id name).2
        else (s.allocTjNode kw id name).1 := ⟨_, rfl⟩
      rw [← hpushed] at hstart hagrees hlen
      obtain ⟨u, hu⟩ : ∃ u, u = (execAll body pushed).1 := ⟨_, rfl⟩
      have hgrows := (hbuilt _ pushed r hstart).grows.length
      have hpopped := u.outlineView_popTask kw
      have hpoppedLen : (if kw.kind = kwTask then u.symStackPop else u).heap.length
        = u.heap.length := (Prod.mk.inj hpopped).1
      have hinner : Labels F pushed u := by
        intro a ha hlt
        have hfinished := finished_finishTjNode (if kw.kind = kwTask then u.symStackPop else u)
          (a := s.heap.length) (by omega) kw stop (execAll body pushed).2
        have hexec : ((symbol kw id name body stop).exec s).1
            = (if kw.kind = kwTask then u.symStackPop else u).finishTjNode s.heap.length kw
              ⟨(execAll body pushed).2, stop⟩ := by
          rw [hu, hpushed]
          rfl
        have hlater := hlabels a (by omega) (by rw [hexec, hfinished.length]; omega)
        rw [hlater, hexec, (hfinished.other a (by omega)).1]
        exact congrFun (Prod.mk.inj (Prod.mk.inj hpopped).2).1 a
      rw [hu] at hinner
      rw [taskDepth] at hdepth
      by_cases hkw : kw.kind = kwTask
      · rw [if_pos hkw] at hdepth
        have henter : v.enter kw = { v.alloc with stack := v.cells :: v.stack } :=
          if_pos ⟨hkw, by omega⟩
        rw [henter] at hagrees
        obtain ⟨hstack, hlog⟩ := hbody _ pushed r _ hstart hagrees
          (by show v.stack.length + 1 + taskDepthAll body ≤ _; omega) hinner
        refine ⟨?_, ?_⟩
        · show ((capturesAll body (v.enter kw)).1.leave kw).stack = v.stack
          rw [henter, CaptureVars.leave, if_pos hkw]
          exact congrArg List.tail hstack
        · show (capturesAll body (v.enter kw)).2.map _ = refsInAll _ body
          rw [henter, if_pos hkw, ← hown, hv.cells]
          exact hlog
      · have henter : v.enter kw = v.alloc := if_neg fun h => hkw h.1
        rw [henter] at hagrees
        rw [if_neg hkw] at hdepth
        obtain ⟨hstack, hlog⟩ := hbody _ pushed r _ hstart hagrees hdepth hinner
        refine ⟨?_, ?_⟩
        · show ((capturesAll body (v.enter kw)).1.leave kw).stack = v.stack
          rw [henter, CaptureVars.leave, if_neg hkw]
          exact hstack
        · show (capturesAll body (v.enter kw)).2.map _ = refsInAll _ body
          rw [henter, if_neg hkw]
          exact hlog
    | declare kw id name body stop =>
      have hg : KeepsCells (execAll body s).1 ((declare kw id name body stop).exec s).1 :=
        (finished_finishTjNode _ (length_lt_allocTjNode _ kw id name) kw stop _).keepsCells
          (grows_allocTjNode _ kw id name)
      have hone := hbody opened s r v hs hv hdepth (hlabels.earlier hpos hg)
      exact ⟨hone.stack, hone.log⟩
    | ref bangs segs body =>
      have hg : KeepsCells (execAll body s).1 ((ref bangs segs body).exec s).1 :=
        grows_of_view (GrammarState.outlineView_captureDep _ _)
      have hone := hbody opened s r v hs hv hdepth (hlabels.earlier hpos hg)
      refine ⟨hone.stack, ?_⟩
      have hstack : (capturesAll body v).1.stack = v.stack := hone.stack
      have hlog : (capturesAll body v).2.map (fun c => (F c.task, c.ref))
        = refsInAll (v.stack.head?.map F) body := hone.log
      show ((capturesAll body v).2 ++ (capturesAll body v).1.capture (taskRefOf bangs segs)).map _
        = refsInAll (v.stack.head?.map F) body ++ _
      rw [List.map_append, hlog, CaptureVars.capture, hstack]
      cases v.stack <;> rfl
    | incl file body =>
      have hg : KeepsCells (execAll body { s with inIncludeDepth := s.inIncludeDepth + 1 }).1
          ((incl file body).exec s).1 :=
        grows_of_view (GrammarState.outlineView_pushInclude _ _)
      have hinner : Outlined opened { s with inIncludeDepth := s.inIncludeDepth + 1 } r :=
        hs.of_view rfl
      have hone := hbody opened _ r v hinner ⟨hv.cells, hv.stack, hv.kind, hv.valid⟩ hdepth
        (Labels.earlier (s := { s with inIncludeDepth := s.inIncludeDepth + 1 }) hlabels hpos hg)
      exact ⟨hone.stack, hone.log⟩
    | block body => exact hbody opened s r v hs hv hdepth hlabels
    | opened kw id name =>
      obtain ⟨ts, hts⟩ := hspells
      exact absurd hts Bool.false_ne_true
    | included =>
      obtain ⟨ts, hts⟩ := hspells
      exact absurd hts Bool.false_ne_true
    | _ => exact ⟨rfl, rfl⟩

end Stmt

/-! ### The dependencies of a parse -/

/-- The reference that a dependency was captured from. -/
def Dependency.taskRef (d : Dependency) : TaskRef :=
  ⟨d.bangCount, d.path, d.sourceRange.start, d.sourceRange.stop⟩

/-- The dependencies of a heap, each with its declaration. -/
def heapRefs (heap : List NodeCell) : List (TjInfo × TaskRef) :=
  heap.flatMap fun c => c.info.dependencies.map fun d => (c.info.heading, d.taskRef)

/-- **The references of a document**, each with the innermost task around it. -/
def documentRefs (doc : SynTree) : List (TjInfo × TaskRef) := Stmt.refsInAll none (doc.stmts [])

theorem heapRefs_perm {kind : DepKind} {heap : List NodeCell} {log : List Capture}
    (hvalid : ∀ c ∈ log, c.task < heap.length)
    (hdeps : ∀ a, (heap.getD a .new).info.dependencies
      = (log.filter fun c => c.task == a).map (Capture.dep kind)) :
    (heapRefs heap).Perm
      (log.map fun c => ((heap.getD c.task .new).info.heading, c.ref)) := by
  obtain ⟨pair, hpair⟩ : ∃ pair : Capture → TjInfo × TaskRef,
      pair = fun c => ((heap.getD c.task .new).info.heading, c.ref) := ⟨_, rfl⟩
  have hcell (a : ℕ) : ((heap.getD a .new).info.dependencies.map fun d =>
      ((heap.getD a .new).info.heading, d.taskRef)) = (log.filter fun c => c.task == a).map pair := by
    rw [hdeps, List.map_map]
    refine List.map_congr_left fun c hc => ?_
    obtain rfl : c.task = a := beq_iff_eq.mp (List.mem_filter.mp hc).2
    rw [hpair]
    rfl
  have hheap : heapRefs heap = (List.range heap.length).flatMap fun a =>
      (log.filter fun c => c.task == a).map pair := by
    have hrange : heap = (List.range heap.length).map fun a => heap.getD a .new := by
      refine List.ext_getElem (by simp) fun a ha _ => ?_
      rw [List.getElem_map, List.getElem_range, List.getD_eq_getElem _ _ ha]
    rw [← List.flatMap_congr fun a _ => hcell a]
    conv_lhs => rw [heapRefs, hrange, List.flatMap_map]
  have hperm := (perm_flatMap_filter log heap.length).map pair
  rw [List.filter_eq_self.mpr fun c hc => decide_eq_true (hvalid c hc), List.map_flatMap] at hperm
  rw [hheap, ← hpair]
  exact hperm

section Parses

variable {κ : Type*} [DecidableEq κ] {T : Tables κ NonTerm SemAction} {s t : ProgState}
  {text : CStr} {doc : SynTree} {out : ParseResult}

theorem Stmt.attached_top {F : ℕ → TjInfo} {kind : DepKind} {item : List Stmt} {ts : List Token}
    (hinner : ∀ st ∈ item, st.Inner) (hspells : SpellsAll false item ts) (opened : List ℕ)
    (s : GrammarState) (r : List (Rose TjInfo)) (v : CaptureVars) (hs : Outlined opened s r)
    (hv : v.Agrees kind s) (hdepth : v.stack.length + (top item).taskDepth ≤ symStackSize)
    (hlabels : Labels F s ((top item).exec s).1) :
    Attached F v ((top item).captures v) ((top item).refsIn (v.stack.head?.map F)) := by
  have hrouted : KeepsCells (execAll item s).1 ((top item).exec s).1 := keepsCells_routeAll _ _
  exact attachedAll (fun st hst => st.attached (hinner st hst) (hspells.mem hst)) opened s r v hs hv
    hdepth (hlabels.earlier hs.pos hrouted)

theorem ParsesTo.heapRefs_perm (hT : T.Sound grammar yyError) (hs : ParseHistory T s)
    (h : ParsesTo T s text doc t out) (hdepth : Stmt.taskDepthAll (doc.stmts []) ≤ symStackSize) :
    (heapRefs out.heap).Perm (documentRefs doc) := by
  obtain ⟨hspells, -⟩ := h.spells hT hs
  obtain ⟨input, -, hdoc, hgrammar, rfl, -⟩ := h.spec hT
  obtain ⟨items, hitems, hinner⟩ := document_items hdoc.valid hdoc.whole hdoc.root
  rw [documentRefs]
  rw [hitems] at hspells hdepth hgrammar ⊢
  obtain ⟨gap, own, rest, -, -, hrest⟩ := hspells
  have hdepth' : Stmt.taskDepthAll (items.map .top) ≤ symStackSize :=
    (Nat.le_max_right _ _).trans hdepth
  -- what is on the stack of tasks from earlier is dropped at the start
  obtain ⟨start, hstart⟩ : ∃ start, start = { s.grammar.install with symStack := [] } := ⟨_, rfl⟩
  have hstate : t.grammar = (Stmt.execAll (items.map .top) start).1 := by
    rw [hgrammar, hstart]
    rfl
  have hoff : Outlined [] start [] := by
    rw [hstart]
    exact (outlined_install s.grammar).of_view rfl
  have hagrees : CaptureVars.start.Agrees s.grammar.pendingDepKind start := by
    rw [hstart]
    exact ⟨rfl, rfl, rfl, fun a ha => by cases ha⟩
  have hcaptures := Stmt.execAll_captures
    (fun st (_ : st ∈ items.map .top) => st.exec_captures) start .start hagrees
  rw [← hstate] at hcaptures
  have hattached := Stmt.attachedAll (F := t.grammar.heading)
    (fun st (hst : st ∈ items.map .top) => by
      obtain ⟨item, hitem, rfl⟩ := List.mem_map.mp hst
      obtain ⟨ts, hts⟩ := hrest.mem hst
      exact Stmt.attached_top (hinner item hitem) hts)
    [] start [] .start hoff hagrees ((Nat.zero_add _).trans_le hdepth')
    (fun a _ _ => by rw [hstate])
  have hview := t.grammar.captureView_write (f := fun c =>
    { c with children := sortByStart t.grammar.heap c.children }) (fun _ => rfl) 0
  simp only [GrammarState.captureView, Prod.mk.injEq] at hview
  have hlabel (a : ℕ) : ((parseResult t.front t.grammar).heap.getD a .new).info.heading
      = t.grammar.heading a := by
    show ((t.grammar.write 0 _).cell a).info.heading = (t.grammar.cell a).info.heading
    rw [GrammarState.cell_write]
    split_ifs <;> rfl
  have hvalid : ∀ c ∈ (Stmt.capturesAll (items.map .top) .start).2,
      c.task < (parseResult t.front t.grammar).heap.length := by
    intro c hc
    have hlen : (parseResult t.front t.grammar).heap.length
        = (Stmt.capturesAll (items.map .top) .start).1.cells :=
      hview.1.1.trans hcaptures.agrees.cells
    rw [hlen]
    exact hcaptures.valid c hc
  have hdeps (a : ℕ) : ((parseResult t.front t.grammar).heap.getD a .new).info.dependencies
      = ((Stmt.capturesAll (items.map .top) .start).2.filter fun c => c.task == a).map
        (Capture.dep s.grammar.pendingDepKind) := by
    have hnone : start.deps a = [] := by
      rw [hstart]
      unfold GrammarState.deps GrammarState.cell
      cases a with
      | zero => rfl
      | succ a => rfl
    rw [show ((parseResult t.front t.grammar).heap.getD a .new).info.dependencies
      = t.grammar.deps a from congrFun hview.2 a, hcaptures.deps, hnone, List.nil_append]
  have hrefs : (Stmt.capturesAll (items.map .top) .start).2.map
      (fun c => (t.grammar.heading c.task, c.ref))
      = Stmt.refsInAll none (.reset :: items.map .top) := hattached.log
  rw [← hrefs]
  refine (heapRefs_perm hvalid hdeps).trans (List.Perm.of_eq (List.map_congr_left fun c _ => ?_))
  rw [hlabel]

/-- **The dependencies of a parse** are the references of its document: each one belongs to the
innermost task around it, and those outside of tasks are dropped. -/
theorem dependencies_attached (hT : T.Sound grammar yyError) (hs : ParseHistory T s)
    (h : ParsesTo T s text doc t out) (hdepth : Stmt.taskDepthAll (doc.stmts []) ≤ symStackSize) :
    (heapRefs out.heap).Perm (documentRefs doc) :=
  h.heapRefs_perm hT hs hdepth

end Parses

/-! ### A task in another one -/

/-- A task with a reference, and a task in it with another one. -/
def relatedText : CStr :=
  cstr "task a \"\" \x7b depends b task c \"\" \x7b precedes !d \x7d \x7d"

theorem relatedText_depth : (treeUpTo coreTables 400 .boot relatedText).map (fun x =>
    decide (Stmt.taskDepthAll (x.2.stmts []) ≤ symStackSize)) = some true := by
  decide +kernel

/-- The dependencies of this document. -/
theorem dependencies_attached_related : ∃ doc t out,
    ParsesTo coreTables .boot relatedText doc t out ∧
      (heapRefs out.heap).Perm (documentRefs doc) := by
  obtain ⟨doc, t, out, hp, hdepth⟩ := exists_parsesTo relatedText_depth
  exact ⟨doc, t, out, hp,
    dependencies_attached coreTables_sound .boot hp (of_decide_eq_true hdepth)⟩

end TaskjugglerLsp
