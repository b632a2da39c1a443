import TaskjugglerLsp.Grammar.Attachment
import TaskjugglerLsp.Grammar.Cursor
import TaskjugglerLsp.Grammar.Ids

/-!
# The reference at a position

`dependency_at_cursor` walks from the declaration at a position to the parents.  A reference is found
on its path, from the first segment to the end of the last one, if the task around it does not end
there; it is not found on its bangs.

* `Stmt.exec_starts`: the cells of a parse start in different places of the text.
* `Stmt.refsIn_placed`: a reference stands behind the start of its task.
* `dependency_at_cursor`: the reference that is found at a position.
-/

namespace TaskjugglerLsp

open Lib Lib.Lr

/-! ### Where cells start -/

namespace GrammarState

/-- The places in the text where the cells start. -/
def starts (s : GrammarState) : List ℕ := s.heap.map fun c => c.info.startKey

variable (s : GrammarState)

@[simp] theorem starts_write {f : NodeCell → NodeCell}
    (hf : ∀ c, (f c).info.range.start = c.info.range.start) (a : ℕ) :
    (s.write a f).starts = s.starts := by
  unfold starts write
  refine List.ext_getElem? fun b => ?_
  rw [List.getElem?_map, List.getElem?_map, List.getElem?_modify]
  cases s.heap[b]? with
  | none => rfl
  | some c =>
    show some ((if a = b then f c else c).info.startKey) = _
    split_ifs
    · exact congrArg (fun p : LspPos => some p.key) (hf c)
    · rfl

@[simp] theorem starts_setRangeEnd (a : ℕ) (stop : LspPos) : (s.setRangeEnd a stop).starts = s.starts :=
  s.starts_write (fun c => by rfl) a

@[simp] theorem starts_finishTjNode (a : ℕ) (kw : Token) (body : BodyResult) :
    (s.finishTjNode a kw body).starts = s.starts := by
  refine (starts_write _ (fun c => ?_) a).trans (s.starts_setRangeEnd a _)
  rfl

@[simp] theorem starts_routeTopLevel (a : ℕ) : (s.routeTopLevel a).starts = s.starts := by
  unfold routeTopLevel
  split_ifs
  · rfl
  · exact s.starts_write (fun c => by rfl) 0

@[simp] theorem starts_routeAll (syms : List ℕ) : (syms.foldl routeTopLevel s).starts = s.starts := by
  induction syms generalizing s with
  | nil => rfl
  | cons a syms ih => rw [List.foldl_cons, ih, starts_routeTopLevel]

@[simp] theorem starts_hoist (syms : List ℕ) : (s.hoist syms).starts = s.starts := by
  unfold hoist
  induction syms generalizing s with
  | nil => rfl
  | cons a syms ih =>
    rw [List.foldl_cons, ih]
    split_ifs
    · rfl
    · exact s.starts_routeTopLevel a

@[simp] theorem starts_captureDate (date : Token) {set : ℤ → NodeCell → NodeCell}
    (hset : ∀ t c, (set t c).info = c.info) : (s.captureDate date set).starts = s.starts := by
  unfold captureDate
  cases s.symStackTop with
  | none => rfl
  | some task =>
    show (if _ then _ else _ : GrammarState).starts = _
    split_ifs
    · cases parseTjpDate date.text with
      | none => rfl
      | some parsed => exact s.starts_write (fun c => by rw [hset]) task
    · rfl

@[simp] theorem starts_captureDep (ref : TaskRef) : (s.captureDep ref).starts = s.starts := by
  unfold captureDep
  cases s.symStackTop with
  | none => rfl
  | some task => exact s.starts_write (fun c => by rfl) task

@[simp] theorem starts_pushInclude (quoted : Option CStr) : (s.pushInclude quoted).starts = s.starts := by
  unfold pushInclude
  cases quoted <;> rfl

@[simp] theorem starts_setPendingPrefix (k : PrefixKind) (value : CStr) :
    (s.setPendingPrefix k value).starts = s.starts := by
  unfold setPendingPrefix
  split_ifs <;> rfl

theorem starts_allocTjNode (kw id name : Token) :
    (s.allocTjNode kw id name).1.starts = s.starts ++ [kw.start.key] := List.map_append

theorem starts_pushTask (kw : Token) (a : ℕ) :
    (if kw.kind = kwTask then s.symStackPush a else s).starts = s.starts := by
  unfold symStackPush
  split_ifs <;> rfl

theorem starts_popTask (kw : Token) :
    (if kw.kind = kwTask then s.symStackPop else s).starts = s.starts := by
  split_ifs <;> rfl

end GrammarState

namespace Stmt

mutual

/-- The places where the declarations of a statement start, in the order of their cells. -/
def starts : Stmt → List ℕ
  | project kw _ _ body _ | declare kw _ _ body _ => startsAll body ++ [kw.start.key]
  | symbol kw _ _ body _ => kw.start.key :: startsAll body
  | top body | ref _ _ body | incl _ body | block body => startsAll body
  | opened kw _ _ => [kw.start.key]
  | _ => []

def startsAll : List Stmt → List ℕ
  | [] => []
  | st :: sts => starts st ++ startsAll sts

end

theorem execAll_starts {sts : List Stmt}
    (h : ∀ st ∈ sts, ∀ s : GrammarState, (st.exec s).1.starts = s.starts ++ st.starts)
    (s : GrammarState) : (execAll sts s).1.starts = s.starts ++ startsAll sts := by
  induction sts generalizing s with
  | nil => exact (List.append_nil _).symm
  | cons st sts ih =>
    obtain ⟨hst, hsts⟩ := List.forall_mem_cons.mp h
    show (execAll sts (st.exec s).1).1.starts = _
    rw [ih hsts, hst, startsAll, List.append_assoc]

/-- **The cells of a statement** start where its declarations do. -/
theorem exec_starts (st : Stmt) :
    ∀ s : GrammarState, (st.exec s).1.starts = s.starts ++ st.starts := by
  induction st using Stmt.induct with
  | h st ih =>
    intro s
    have hall := execAll_starts ih
    cases st with
    | top item => exact (GrammarState.starts_routeAll _ _).trans (hall s)
    | project kw id name body stop =>
      show GrammarState.starts (GrammarState.hoist _ _) = _
      rw [GrammarState.starts_hoist, GrammarState.starts_setRangeEnd]
      refine (GrammarState.starts_allocTjNode _ kw id name).trans ?_
      rw [starts, ← List.append_assoc]
      exact congrArg (· ++ _) (hall s)
    | symbol kw id name body stop =>
      show GrammarState.starts (GrammarState.finishTjNode _ _ _ _) = _
      rw [GrammarState.starts_finishTjNode, GrammarState.starts_popTask]
      refine (hall _).trans ?_
      rw [GrammarState.starts_pushTask]
      refine (congrArg (· ++ _) (s.starts_allocTjNode kw id name)).trans ?_
      exact List.append_assoc _ _ _
    | declare kw id name body stop =>
      show GrammarState.starts (GrammarState.finishTjNode _ _ _ _) = _
      rw [GrammarState.starts_finishTjNode]
      refine (GrammarState.starts_allocTjNode _ kw id name).trans ?_
      rw [starts, ← List.append_assoc]
      exact congrArg (· ++ _) (hall s)
    | ref bangs segs body => exact (GrammarState.starts_captureDep _ _).trans (hall s)
    | startDate date =>
      exact (s.starts_captureDate date fun _ _ => by rfl).trans (List.append_nil _).symm
    | endDate date =>
      exact (s.starts_captureDate date fun _ _ => by rfl).trans (List.append_nil _).symm
    | pref k value => exact (s.starts_setPendingPrefix k value).trans (List.append_nil _).symm
    | incl file body =>
      exact (GrammarState.starts_pushInclude _ _).trans
        (hall { s with inIncludeDepth := s.inIncludeDepth + 1 })
    | block body => exact hall s
    | opened kw id name =>
      exact (GrammarState.starts_pushTask _ _ _).trans (s.starts_allocTjNode kw id name)
    | _ => exact (List.append_nil _).symm

theorem startsAll_subperm {sts : List Stmt}
    (h : ∀ st ∈ sts, ∀ ts, Spells false st ts → st.starts.Subperm (startKeys ts)) :
    ∀ ts, SpellsAll false sts ts → (startsAll sts).Subperm (startKeys ts) := by
  induction sts with
  | nil => exact fun ts _ => List.nil_subperm
  | cons st sts ih =>
    obtain ⟨hst, hsts⟩ := List.forall_mem_cons.mp h
    intro ts hts
    obtain ⟨gap, own, rest, rfl, hown, hrest⟩ := hts
    rw [startsAll, startKeys_append, startKeys_append]
    refine ((hst own hown).trans ?_).append (ih hsts rest hrest)
    exact (List.sublist_append_right _ _).subperm

/-- **The declarations of a statement** start at tokens of it. -/
theorem starts_subperm (st : Stmt) :
    ∀ ts, Spells false st ts → st.starts.Subperm (startKeys ts) := by
  induction st using Stmt.induct with
  | h st ih =>
    intro ts hts
    have hall := startsAll_subperm ih
    have hbody {stop : LspPos} {us : List Token}
        (h : InBody (SpellsAll false st.body) (st.body = []) stop us) :
        (startsAll st.body).Subperm (startKeys us) := by
      cases h with
      | none hempty _ =>
        rw [hempty]
        exact List.nil_subperm
      | @braces l r inner hl hr hinner hstop =>
        refine (hall inner hinner).trans ?_
        rw [← List.singleton_append, startKeys_append, startKeys_append]
        exact ((List.sublist_append_left _ _).trans (List.sublist_append_right _ _)).subperm
    have hbehind (before tail : List Token) {ks : List ℕ} (h : ks.Subperm (startKeys tail)) :
        ks.Subperm (startKeys (before ++ tail)) := by
      rw [startKeys_append]
      exact h.trans (List.sublist_append_right _ _).subperm
    have hdecl {kw : Token} (hkw : kw.kind ≠ tkRbrace) (mid tail : List Token) {ks : List ℕ}
        (h : ks.Subperm (startKeys tail)) :
        (kw.start.key :: ks).Subperm (startKeys (kw :: (mid ++ tail))) := by
      have hkeys : startKeys (kw :: (mid ++ tail)) = kw.start.key :: startKeys (mid ++ tail) := by
        unfold startKeys
        rw [List.filter_cons, if_pos (bne_iff_ne.mpr hkw)]
        rfl
      rw [hkeys]
      exact (List.subperm_cons _).mpr (hbehind mid tail h)
    cases st with
    | top | block => exact hall ts hts
    | project kw id name body stop =>
      obtain ⟨mid, tail, rfl, hkw, -, h⟩ := hts
      refine List.perm_append_comm.subperm.trans (hdecl ?_ mid tail (hbody h))
      rw [hkw]
      decide
    | symbol kw id name body stop =>
      obtain ⟨mid, tail, rfl, hkw, -, h⟩ := hts
      have hkinds : ∀ k ∈ [kwTask, kwResource, kwAccount], k ≠ tkRbrace := by decide
      exact hdecl (hkinds _ hkw) mid tail (hbody h)
    | declare kw id name body stop =>
      obtain ⟨mid, tail, rfl, hkw, -, h⟩ := hts
      refine List.perm_append_comm.subperm.trans (hdecl (fun hbrace => hkw ?_) mid tail (hbody h))
      rw [hbrace]
      decide
    | ref bangs segs body =>
      obtain ⟨path, tail, stop, rfl, -, -, h⟩ := hts
      exact hbehind _ tail (hbody h)
    | incl file body =>
      obtain ⟨kw, tail, stop, rfl, -, h⟩ := hts
      exact hbehind [kw, file] tail (hbody h)
    | opened =>
      exact absurd hts Bool.false_ne_true
    | _ => exact List.nil_subperm

/-! ### Where references stand -/

/-- **A reference belongs to a task** that starts before it. -/
structure Placed (r : TjInfo × TaskRef) : Prop where
  task : r.1.keyword = kwTask
  start : r.1.startKey ≤ r.2.start.key

/-- The references among some tokens: those of a task that starts there, and those of the task
around. -/
def PlacedIn (task : Option TjInfo) (ts : List Token) (r : TjInfo × TaskRef) : Prop :=
  Placed r ∨ task = some r.1 ∧ ∃ t ∈ ts, r.2.start = t.start

theorem PlacedIn.mono {task : Option TjInfo} {ts us : List Token} {r : TjInfo × TaskRef}
    (h : PlacedIn task ts r) (hsub : ts ⊆ us) : PlacedIn task us r := by
  rcases h with h | ⟨htask, t, ht, hstart⟩
  · exact .inl h
  · exact .inr ⟨htask, t, hsub ht, hstart⟩

theorem refsInAll_placed {sts : List Stmt} (h : ∀ st ∈ sts, ∀ ts, Spells false st ts →
      InSequence ts → ∀ task, ∀ r ∈ st.refsIn task, PlacedIn task ts r) :
    ∀ ts, SpellsAll false sts ts → InSequence ts → ∀ task, ∀ r ∈ refsInAll task sts,
      PlacedIn task ts r := by
  induction sts with
  | nil =>
    intro ts _ _ task r hr
    cases hr
  | cons st sts ih =>
    obtain ⟨hst, hsts⟩ := List.forall_mem_cons.mp h
    intro ts hts hseq task r hr
    obtain ⟨gap, own, rest, rfl, hown, hrest⟩ := hts
    have howner : InSequence own := hseq.sublist <|
      (List.sublist_append_right _ _).trans (List.sublist_append_left _ _)
    have hothers : InSequence rest := hseq.sublist (List.sublist_append_right _ _)
    rcases List.mem_append.mp hr with hr | hr
    · exact (hst own hown howner task r hr).mono (by simp)
    · exact (ih hsts rest hrest hothers task r hr).mono (by simp)

/-- **The references of a statement** stand behind the starts of their tasks. -/
theorem refsIn_placed (st : Stmt) : ∀ ts, Spells false st ts → InSequence ts →
    ∀ task, ∀ r ∈ st.refsIn task, PlacedIn task ts r := by
  induction st using Stmt.induct with
  | h st ih =>
    intro ts hts hseq task r hr
    have hall := refsInAll_placed ih
    have hbody {stop : LspPos} {us : List Token} {task : Option TjInfo}
        (h : InBody (SpellsAll false st.body) (st.body = []) stop us) (hus : InSequence us)
        (hr : r ∈ refsInAll task st.body) : PlacedIn task us r := by
      cases h with
      | none hempty _ =>
        rw [hempty] at hr
        cases hr
      | @braces l r' inner hl hr' hinner hstop =>
        have hsub : inner.Sublist (l :: (inner ++ [r'])) :=
          (List.sublist_append_left _ _).trans (List.sublist_cons_self _ _)
        exact (hall inner hinner (hus.sublist hsub) task r hr).mono hsub.subset
    cases st with
    | top | block => exact hall ts hts hseq task r hr
    | project kw id name body stop =>
      obtain ⟨mid, tail, rfl, -, -, h⟩ := hts
      have htail : tail.Sublist (kw :: (mid ++ tail)) :=
        (List.sublist_append_right _ _).trans (List.sublist_cons_self _ _)
      exact (hbody h (hseq.sublist htail) hr).mono htail.subset
    | declare kw id name body stop =>
      obtain ⟨mid, tail, rfl, -, -, h⟩ := hts
      have htail : tail.Sublist (kw :: (mid ++ tail)) :=
        (List.sublist_append_right _ _).trans (List.sublist_cons_self _ _)
      exact (hbody h (hseq.sublist htail) hr).mono htail.subset
    | symbol kw id name body stop =>
      obtain ⟨mid, tail, rfl, hkw, -, h⟩ := hts
      have htail : tail.Sublist (kw :: (mid ++ tail)) :=
        (List.sublist_append_right _ _).trans (List.sublist_cons_self _ _)
      rcases hbody h (hseq.sublist htail) hr with hplaced | ⟨htask, t, ht, hstart⟩
      · exact .inl hplaced
      · by_cases hkind : kw.kind = kwTask
        · rw [if_pos hkind, Option.some.injEq] at htask
          refine .inl ⟨htask ▸ hkind, ?_⟩
          rw [hstart, ← htask]
          have hle := hseq.le kw List.mem_cons_self
          have hbehind := (List.pairwise_cons.mp hseq.ordered).1 t (List.mem_append_right _ ht)
          exact (show kw.start.key ≤ kw.stop.key from hle).trans hbehind
        · rw [if_neg hkind] at htask
          exact .inr ⟨htask, t, htail.subset ht, hstart⟩
    | ref bangs segs body =>
      obtain ⟨path, tail, stop, rfl, -, hpath, h⟩ := hts
      rcases List.mem_append.mp hr with hr | hr
      · have htail : tail.Sublist (bangs ++ path ++ tail) := List.sublist_append_right _ _
        exact (hbody h (hseq.sublist htail) hr).mono htail.subset
      · cases task with
        | none => cases hr
        | some info =>
          rw [List.mem_singleton.mp hr]
          refine .inr ⟨rfl, ?_⟩
          cases path with
          | nil => exact absurd (List.head?_eq_none_iff.mp hpath.head_eq.symm) hpath.ne_nil
          | cons first more =>
            refine ⟨first, by simp, ?_⟩
            show (segs.head?.getD Token.zero).start = first.start
            rw [← hpath.head_eq]
            rfl
    | incl file body =>
      obtain ⟨kw, tail, stop, rfl, -, h⟩ := hts
      have htail : tail.Sublist (kw :: file :: tail) :=
        (List.sublist_cons_self _ _).trans (List.sublist_cons_self _ _)
      exact (hbody h (hseq.sublist htail) hr).mono htail.subset
    | _ => cases hr

end Stmt

/-! ### The walk of `dependency_at_cursor` -/

/-- The reference that `dependency_at_cursor` finds, and its task. -/
def ParseResult.referenceAt (out : ParseResult) (pos : LspPos) : Option (TjInfo × TaskRef) := do
  let (owner, dep) ← dependencyAtCursor out.root out.tokSpans out.owners pos
  let info ← out.headingAt owner
  some (info, dep.taskRef)

/-- **A position is on the path** of a reference, before the end of its task. -/
structure OnPath (pos : LspPos) (r : TjInfo × TaskRef) : Prop where
  path : posInRange pos ⟨r.2.start, r.2.stop⟩ = true
  task : pos.before r.1.range.stop

/-- What `dependency_at_cursor` looks for. -/
def hasDependencyAt (pos : LspPos) (info : TjInfo) : Bool :=
  info.dependencies.any fun d => posInRange pos d.sourceRange

section Parses

variable {κ : Type*} [DecidableEq κ] {T : Tables κ NonTerm SemAction} {s t : ProgState}
  {text : CStr} {doc : SynTree} {out : ParseResult}

theorem ParsesTo.starts_inj (hT : T.Sound grammar yyError) (hs : ParseHistory T s)
    (h : ParsesTo T s text doc t out) {a b : ℕ} (ha : 0 < a) (hb : 0 < b)
    (halt : a < out.heap.length) (hblt : b < out.heap.length)
    (hstart : (out.label a).startKey = (out.label b).startKey) : a = b := by
  obtain ⟨hspells, hplace⟩ := h.spells hT hs
  obtain ⟨input, -, -, hstate, rfl, -⟩ := h.spec hT
  have hstarts : (parseResult t.front t.grammar).heap.map (fun c => c.info.startKey)
      = NodeCell.new.info.startKey :: Stmt.startsAll (doc.stmts []) := by
    refine (t.grammar.starts_write (fun c => by rfl) 0).trans ?_
    rw [hstate]
    exact Stmt.execAll_starts (fun st _ => st.exec_starts) s.grammar.install
  obtain ⟨keys, hperm, hsub⟩ :=
    Stmt.startsAll_subperm (fun st _ => st.starts_subperm) doc.toks hspells
  have hnodup : (Stmt.startsAll (doc.stmts [])).Nodup :=
    hperm.nodup_iff.mp (hplace.startKeys.sublist hsub).nodup
  have hget {c : ℕ} (hc : 0 < c) (hclt : c < (parseResult t.front t.grammar).heap.length) :
      (Stmt.startsAll (doc.stmts []))[c - 1]? = some ((parseResult t.front t.grammar).label c).startKey := by
    obtain ⟨n, rfl⟩ : ∃ n, c = n + 1 := ⟨c - 1, by omega⟩
    rw [Nat.add_sub_cancel, ← List.getElem?_cons_succ (a := NodeCell.new.info.startKey), ← hstarts,
      List.getElem?_map, List.getElem?_eq_getElem hclt, Option.map_some, ParseResult.label,
      List.getD_eq_getElem _ _ hclt]
    rfl
  have hsame : a - 1 = b - 1 := by
    obtain ⟨hlt, -⟩ := List.getElem?_eq_some_iff.mp (hget ha halt)
    refine (List.getElem?_inj hlt hnodup).mp ?_
    rw [hget ha halt, hget hb hblt, hstart]
  omega

/-- The references of a document stand behind the starts of their tasks. -/
theorem ParsesTo.placed_refs (hT : T.Sound grammar yyError) (hs : ParseHistory T s)
    (h : ParsesTo T s text doc t out) : ∀ r ∈ documentRefs doc, Stmt.Placed r := by
  obtain ⟨hspells, hplace⟩ := h.spells hT hs
  intro r hr
  have hplaced := Stmt.refsInAll_placed (fun st _ => st.refsIn_placed) doc.toks hspells
    hplace.inSequence none r hr
  rcases hplaced with hplaced | ⟨htask, -⟩
  · exact hplaced
  · cases htask

theorem mem_heapRefs {heap : List NodeCell} {c : ℕ} {d : Dependency}
    (hd : d ∈ (heap.getD c .new).info.dependencies) :
    ((heap.getD c .new).info.heading, d.taskRef) ∈ heapRefs heap := by
  by_cases hc : c < heap.length
  · rw [List.getD_eq_getElem _ _ hc] at hd ⊢
    exact List.mem_flatMap.mpr ⟨_, List.getElem_mem hc, List.mem_map_of_mem hd⟩
  · rw [List.getD_eq_default _ _ (Nat.le_of_not_lt hc)] at hd
    cases hd

theorem exists_mem_heapRefs {heap : List NodeCell} {r : TjInfo × TaskRef} (hr : r ∈ heapRefs heap) :
    ∃ c, c < heap.length ∧ (heap.getD c .new).info.heading = r.1 ∧
      ∃ d ∈ (heap.getD c .new).info.dependencies, d.taskRef = r.2 := by
  obtain ⟨cell, hcell, hmem⟩ := List.mem_flatMap.mp hr
  obtain ⟨d, hd, rfl⟩ := List.mem_map.mp hmem
  obtain ⟨c, hc, rfl⟩ := List.getElem_of_mem hcell
  refine ⟨c, hc, ?_, d, ?_, rfl⟩
  · rw [List.getD_eq_getElem _ _ hc]
  · rwa [List.getD_eq_getElem _ _ hc]

/-- The walk of `dependency_at_cursor` ends at the declaration with the dependency. -/
theorem ParseResult.referenceAt_eq (out : ParseResult) (pos : LspPos) : out.referenceAt pos
    = ((tjNodeAt out.root out.tokSpans out.owners pos).bind fun node =>
        firstAbove out.root (hasDependencyAt pos) node.reverse).bind fun owner =>
      (out.root.sub owner).bind fun s =>
        (s.info.dependencies.find? fun d => posInRange pos d.sourceRange).map fun d =>
          (s.info.heading, d.taskRef) := by
  unfold referenceAt dependencyAtCursor headingAt
  cases tjNodeAt out.root out.tokSpans out.owners pos with
  | none => rfl
  | some node =>
    rw [Option.bind_some]
    show ((firstAbove out.root (hasDependencyAt pos) node.reverse).bind _ >>= _) = _
    cases firstAbove out.root (hasDependencyAt pos) node.reverse with
    | none => rfl
    | some owner =>
      rw [Option.bind_some, Option.bind_some]
      cases hsub : out.root.sub owner with
      | none => rfl
      | some s =>
        rw [Option.bind_some]
        cases hfind : s.info.dependencies.find? fun d => posInRange pos d.sourceRange with
        | none => simp [hfind]
        | some d => simp [hfind, hsub]

/-- What is found at a position is a reference whose path has it, and one is found on each path. -/
theorem ParsesTo.referenceAt_spec (hT : T.Sound grammar yyError) (hs : ParseHistory T s)
    (h : ParsesTo T s text doc t out) (hone : OneProject doc)
    (hdepth : Stmt.taskDepthAll (doc.stmts []) ≤ symStackSize) (pos : LspPos) :
    (∀ r, out.referenceAt pos = some r → r ∈ documentRefs doc ∧ OnPath pos r) ∧
    (out.referenceAt pos = none → ∀ r ∈ documentRefs doc, r.1 ∈ documentDecls doc →
      ¬ OnPath pos r) := by
  obtain ⟨tops, body, hscoped⟩ := h.scoped hT hs hone
  have hperm := h.heapRefs_perm hT hs hdepth
  have hplaced := h.placed_refs hT hs
  have hroot {c : ℕ} (htask : (out.label c).keyword = kwTask) : 0 < c := by
    refine Nat.pos_of_ne_zero fun hzero => ?_
    rw [hzero, hscoped.root] at htask
    exact absurd htask (by decide)
  have hdep {c : ℕ} {d : Dependency} (hd : d ∈ (out.heap.getD c .new).info.dependencies) :
      (out.label c, d.taskRef) ∈ documentRefs doc := hperm.mem_iff.mp (mem_heapRefs hd)
  have htest : hasDependencyAt pos (out.heap.getD 0 .new).info = false := by
    refine Bool.eq_false_iff.mpr fun hany => ?_
    obtain ⟨d, hd, -⟩ := List.any_eq_true.mp hany
    exact absurd (hroot (hplaced _ (hdep hd)).task) (Nat.lt_irrefl 0)
  obtain ⟨hsome, hnone⟩ := hscoped.walk htest pos
  rw [out.referenceAt_eq pos]
  generalize ((tjNodeAt out.root out.tokSpans out.owners pos).bind fun node =>
    firstAbove out.root (hasDependencyAt pos) node.reverse) = found at hsome hnone
  cases found with
  | none =>
    refine ⟨fun r hr => (by cases hr), fun _ r hr hdecl hpath => ?_⟩
    obtain ⟨link, hlink, hheading⟩ := List.mem_map.mp hdecl
    obtain ⟨d, a, ha, hlabel⟩ := Rose.HoldsAll.exists_cell TjInfo.startKey TjInfo.stopKey
      _ tops 0 none hscoped.held (fun a ha => .top ha) link hlink
    rw [hheading] at hlabel
    obtain ⟨c, hc, hcell, dep, hmem, href⟩ := exists_mem_heapRefs (hperm.mem_iff.mpr hr)
    have htask := (hplaced r hr).task
    have hsame : c = a := by
      refine h.starts_inj hT hs (hroot ?_) (hroot ?_) hc (hscoped.forest.valid d a ha) ?_
      · rw [ParseResult.label, hcell, htask]
      · rw [hlabel, htask]
      · rw [ParseResult.label, hcell, hlabel]
    rw [hsame] at hmem
    obtain ⟨hon, hbefore⟩ := hpath
    have hcover : (declForest out.heap (cellsBelow out.heap 0) tops body).Covers a pos.key := by
      refine ⟨?_, ?_⟩
      · show (out.label a).startKey ≤ pos.key
        rw [hlabel]
        exact (hplaced r hr).start.trans ((posInRange_iff _ _).mp hon).1
      · show pos.key < (out.label a).stopKey
        rw [hlabel]
        exact (LspPos.before_iff_key _ _).mp hbefore
    have hfalse := hnone rfl d a ha hcover (by rw [hlabel, htask]; decide)
    have htrue : hasDependencyAt pos (out.heap.getD a .new).info = true := by
      refine List.any_eq_true.mpr ⟨dep, hmem, ?_⟩
      rw [← href] at hon
      exact hon
    rw [htrue] at hfalse
    cases hfalse
  | some owner =>
    obtain ⟨d, c, hcell, hlen, hany, ha, hcover⟩ := hsome owner rfl
    obtain ⟨dep, hdepMem, hon⟩ := List.any_eq_true.mp hany
    have hsub : out.root.sub owner = some (nodeOf out.heap (out.heap.length - owner.length) c) := by
      rw [ParseResult.root, sub_nodeOf hlen, hcell, Option.map_some]
    rw [Option.bind_some, hsub, Option.bind_some, info_nodeOf]
    cases hfind : (out.heap.getD c .new).info.dependencies.find? fun d =>
      posInRange pos d.sourceRange with
    | none => exact absurd hon (List.find?_eq_none.mp hfind dep hdepMem)
    | some first =>
      refine ⟨fun r hr => ?_, fun hr => by cases hr⟩
      obtain rfl := Option.some.inj hr
      have honFirst := List.find?_some hfind
      refine ⟨hdep (List.mem_of_find?_eq_some hfind), honFirst, ?_⟩
      exact (LspPos.before_iff_key _ _).mpr hcover.2

/-- **The reference at a position** is that whose path has the position. -/
theorem dependency_at_cursor (hT : T.Sound grammar yyError) (hs : ParseHistory T s)
    (h : ParsesTo T s text doc t out) (hone : OneProject doc)
    (hdepth : Stmt.taskDepthAll (doc.stmts []) ≤ symStackSize) (pos : LspPos) :
    (∀ r, out.referenceAt pos = some r → r ∈ documentRefs doc ∧ OnPath pos r) ∧
    (out.referenceAt pos = none → ∀ r ∈ documentRefs doc, r.1 ∈ documentDecls doc →
      ¬ OnPath pos r) :=
  h.referenceAt_spec hT hs hone hdepth pos

end Parses

/-! ### A task in another one -/

theorem relatedText_project : (treeUpTo coreTables 400 .boot relatedText).map (fun x =>
    decide (OneProject x.2 ∧ Stmt.taskDepthAll (x.2.stmts []) ≤ symStackSize)) = some true := by
  decide +kernel

/-- The references at the positions of this document. -/
theorem dependency_at_cursor_related : ∃ doc t out,
    ParsesTo coreTables .boot relatedText doc t out ∧
      ∀ pos, (∀ r, out.referenceAt pos = some r → r ∈ documentRefs doc ∧ OnPath pos r) ∧
        (out.referenceAt pos = none → ∀ r ∈ documentRefs doc, r.1 ∈ documentDecls doc →
          ¬ OnPath pos r) := by
  obtain ⟨doc, t, out, hp, hall⟩ := exists_parsesTo relatedText_project
  obtain ⟨hone, hdepth⟩ := of_decide_eq_true hall
  exact ⟨doc, t, out, hp, fun pos =>
    dependency_at_cursor coreTables_sound .boot hp hone hdepth pos⟩

end TaskjugglerLsp
