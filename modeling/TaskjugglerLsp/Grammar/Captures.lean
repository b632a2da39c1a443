import TaskjugglerLsp.Grammar.Statements

/-!
# Where references go

The references that a document says are appended to the task on top of the stack of tasks.  What
decides about that is followed apart from the declarations: how many cells there are, which tasks
are on the stack, and the direction that was set last.

* `Stmt.captures`: the references that a statement captures, and where they go.
* `Stmt.exec_captures`: they are what is appended to the declarations.
-/

namespace TaskjugglerLsp

/-! ### Captures -/

/-- The number of cells, the stack of tasks, and the direction if it has been set. -/
structure CaptureVars where
  cells : ℕ
  stack : List ℕ
  kind : Option DepKind

/-- A reference that goes to a task, with the direction that was set last. -/
structure Capture where
  task : ℕ
  kind : Option DepKind
  ref : TaskRef

/-- The dependency of a capture, where `kind` was set before. -/
def Capture.dep (kind : DepKind) (c : Capture) : Dependency :=
  ⟨c.kind.getD kind, c.ref.bangCount, c.ref.path, ⟨c.ref.start, c.ref.stop⟩⟩

namespace CaptureVars

/-- A cell is taken. -/
def alloc (v : CaptureVars) : CaptureVars := { v with cells := v.cells + 1 }

/-- A task, a resource or an account begins. -/
def enter (v : CaptureVars) (kw : Token) : CaptureVars :=
  if kw.kind = kwTask ∧ v.stack.length < symStackSize then
    { v.alloc with stack := v.cells :: v.stack }
  else v.alloc

/-- It ends. -/
def leave (v : CaptureVars) (kw : Token) : CaptureVars :=
  if kw.kind = kwTask then { v with stack := v.stack.tail } else v

/-- A reference ends. -/
def capture (v : CaptureVars) (ref : TaskRef) : List Capture :=
  (v.stack.head?.map fun a => ⟨a, v.kind, ref⟩).toList

end CaptureVars

namespace Stmt

mutual

/-- **The references that a statement captures.** -/
def captures : Stmt → CaptureVars → CaptureVars × List Capture
  | reset, v => ({ v with stack := [] }, [])
  | kind k, v => ({ v with kind := some k }, [])
  | project _ _ _ body _, v | declare _ _ _ body _, v =>
    let out := capturesAll body v
    (out.1.alloc, out.2)
  | symbol kw _ _ body _, v =>
    let out := capturesAll body (v.enter kw)
    (out.1.leave kw, out.2)
  | ref bangs segs body, v =>
    let out := capturesAll body v
    (out.1, out.2 ++ out.1.capture (taskRefOf bangs segs))
  | top body, v | incl _ body, v | block body, v => capturesAll body v
  | opened kw _ _, v => (v.enter kw, [])
  | _, v => (v, [])

def capturesAll : List Stmt → CaptureVars → CaptureVars × List Capture
  | [], v => (v, [])
  | st :: sts, v =>
    let out := captures st v
    let rest := capturesAll sts out.1
    (rest.1, out.2 ++ rest.2)

end

end Stmt

/-! ### What the actions do to the dependencies -/

namespace GrammarState

/-- The dependencies of a cell. -/
def deps (s : GrammarState) (a : ℕ) : List Dependency := (s.cell a).info.dependencies

/-- What captures depend on and what they change. -/
def captureView (s : GrammarState) : (ℕ × List ℕ × DepKind) × (ℕ → List Dependency) :=
  ((s.heap.length, s.symStack, s.pendingDepKind), s.deps)

variable (s : GrammarState)

theorem captureView_write {f : NodeCell → NodeCell}
    (hf : ∀ c, (f c).info.dependencies = c.info.dependencies) (a : ℕ) :
    (s.write a f).captureView = s.captureView := by
  have hdeps : (s.write a f).deps = s.deps := by
    funext b
    unfold deps cell write
    rw [List.getD_eq_getElem?_getD, List.getD_eq_getElem?_getD, List.getElem?_modify]
    cases s.heap[b]? with
    | none => rfl
    | some c =>
      show ((if a = b then f c else c).info).dependencies = _
      split_ifs
      · exact hf c
      · rfl
  unfold captureView
  rw [hdeps]
  show ((List.length _, _), _) = _
  rw [show (s.write a f).heap = s.heap.modify a f from rfl, List.length_modify]
  rfl

@[simp] theorem captureView_setRangeEnd (a : ℕ) (stop : LspPos) :
    (s.setRangeEnd a stop).captureView = s.captureView := by
  unfold setRangeEnd
  exact s.captureView_write (by intro c; rfl) a

@[simp] theorem captureView_finishTjNode (a : ℕ) (kw : Token) (body : BodyResult) :
    (s.finishTjNode a kw body).captureView = s.captureView := by
  unfold finishTjNode
  exact (captureView_write _ (by intro c; rfl) a).trans (s.captureView_setRangeEnd a _)

@[simp] theorem captureView_routeTopLevel (a : ℕ) :
    (s.routeTopLevel a).captureView = s.captureView := by
  unfold routeTopLevel
  split_ifs
  · rfl
  · unfold tjNodeAppendChild
    exact s.captureView_write (by intro c; rfl) 0

@[simp] theorem captureView_hoist (syms : List ℕ) : (s.hoist syms).captureView = s.captureView := by
  unfold hoist
  induction syms generalizing s with
  | nil => rfl
  | cons a syms ih =>
    rw [List.foldl_cons, ih]
    split_ifs
    · rfl
    · exact s.captureView_routeTopLevel a

@[simp] theorem captureView_routeAll (syms : List ℕ) :
    (syms.foldl routeTopLevel s).captureView = s.captureView := by
  induction syms generalizing s with
  | nil => rfl
  | cons a syms ih => rw [List.foldl_cons, ih, captureView_routeTopLevel]

@[simp] theorem captureView_setPendingPrefix (k : PrefixKind) (value : CStr) :
    (s.setPendingPrefix k value).captureView = s.captureView := by
  unfold setPendingPrefix
  split_ifs <;> rfl

@[simp] theorem captureView_pushInclude (quoted : Option CStr) :
    (s.pushInclude quoted).captureView = s.captureView := by
  unfold pushInclude
  split <;> rfl

@[simp] theorem captureView_captureDate (date : Token) {set : ℤ → NodeCell → NodeCell}
    (hset : ∀ t c, (set t c).info.dependencies = c.info.dependencies) :
    (s.captureDate date set).captureView = s.captureView := by
  unfold captureDate
  split
  · rfl
  · split_ifs
    · split
      · rfl
      · exact s.captureView_write (hset _) _
    · rfl

theorem captureView_allocTjNode (kw id name : Token) : (s.allocTjNode kw id name).1.captureView
    = ((s.heap.length + 1, s.symStack, s.pendingDepKind), s.deps) := by
  obtain ⟨c, hheap, hnone⟩ : ∃ c, (s.allocTjNode kw id name).1.heap = s.heap ++ [c] ∧
      c.info.dependencies = [] := ⟨_, rfl, rfl⟩
  have hdeps : (s.allocTjNode kw id name).1.deps = s.deps := by
    funext b
    unfold deps cell
    rw [hheap, List.getD_eq_getElem?_getD, List.getD_eq_getElem?_getD, List.getElem?_append]
    by_cases hb : b < s.heap.length
    · rw [if_pos hb]
    · rw [if_neg hb, List.getElem?_eq_none (Nat.le_of_not_lt hb)]
      cases b - s.heap.length with
      | zero => exact hnone
      | succ n => rfl
  unfold captureView
  rw [hdeps, hheap, List.length_append]
  rfl

/-- A dependency is appended to its task. -/
theorem deps_push (a : ℕ) (ha : a < s.heap.length) (dep : Dependency) (b : ℕ) :
    (s.tjNodePushDependency a dep).deps b = s.deps b ++ if a = b then [dep] else [] := by
  unfold deps cell tjNodePushDependency write
  rw [List.getD_eq_getElem?_getD, List.getD_eq_getElem?_getD, List.getElem?_modify]
  split_ifs with hab
  · subst hab
    rw [List.getElem?_eq_getElem ha]
    simp
  · cases s.heap[b]? <;> simp

end GrammarState

/-! ### The captures are appended -/

/-- The variables agree with a state, where `kind` was set before. -/
structure CaptureVars.Agrees (kind : DepKind) (v : CaptureVars) (s : GrammarState) : Prop where
  cells : s.heap.length = v.cells
  stack : s.symStack = v.stack
  kind : s.pendingDepKind = v.kind.getD kind
  valid : ∀ a ∈ v.stack, a < v.cells

/-- **From one state to another** some references have been captured. -/
structure CapturesFrom (kind : DepKind) (s : GrammarState) (v : CaptureVars) (t : GrammarState)
    (out : CaptureVars × List Capture) : Prop where
  agrees : out.1.Agrees kind t
  deps : ∀ a, t.deps a = s.deps a ++ (out.2.filter fun c => c.task == a).map (Capture.dep kind)
  valid : ∀ c ∈ out.2, c.task < out.1.cells
  grows : v.cells ≤ out.1.cells

namespace CapturesFrom

variable {kind : DepKind} {s t u : GrammarState} {v w : CaptureVars} {log more : List Capture}

theorem of_view (h : w.Agrees kind t) (hdeps : t.deps = s.deps) (hgrows : v.cells ≤ w.cells) :
    CapturesFrom kind s v t (w, []) :=
  ⟨h, fun a => by rw [hdeps]; exact (List.append_nil _).symm, (fun c hc => by cases hc), hgrows⟩

theorem trans {out : CaptureVars × List Capture} (h : CapturesFrom kind s v t (w, log))
    (h' : CapturesFrom kind t w u out) : CapturesFrom kind s v u (out.1, log ++ out.2) := by
  refine ⟨h'.agrees, fun a => ?_, ?_, h.grows.trans h'.grows⟩
  · rw [h'.deps, h.deps, List.filter_append, List.map_append, List.append_assoc]
  · intro c hc
    rcases List.mem_append.mp hc with hc | hc
    · exact (h.valid c hc).trans_le h'.grows
    · exact h'.valid c hc

theorem of_eq {out : CaptureVars × List Capture} (h : CapturesFrom kind s v t out)
    (hview : u.captureView = t.captureView) : CapturesFrom kind s v u out := by
  simp only [GrammarState.captureView, Prod.mk.injEq] at hview
  obtain ⟨⟨hlen, hstack, hkind⟩, hdeps⟩ := hview
  refine ⟨⟨?_, ?_, ?_, h.agrees.valid⟩, ?_, h.valid, h.grows⟩
  · rw [hlen, h.agrees.cells]
  · rw [hstack, h.agrees.stack]
  · rw [hkind, h.agrees.kind]
  · rw [hdeps]
    exact h.deps

end CapturesFrom

namespace CaptureVars

variable {kind : DepKind} {v : CaptureVars} {s : GrammarState}

theorem cells_enter (v : CaptureVars) (kw : Token) : (v.enter kw).cells = v.cells + 1 := by
  unfold enter
  split_ifs <;> rfl

theorem Agrees.enter (h : v.Agrees kind s) (kw id name : Token) :
    (v.enter kw).Agrees kind (if kw.kind = kwTask then
      (s.allocTjNode kw id name).1.symStackPush (s.allocTjNode kw id name).2
      else (s.allocTjNode kw id name).1) := by
  have hview := s.captureView_allocTjNode kw id name
  simp only [GrammarState.captureView, Prod.mk.injEq] at hview
  obtain ⟨⟨hlen, hstack, hkind⟩, -⟩ := hview
  have hcell : (s.allocTjNode kw id name).2 = v.cells := h.cells
  have hvalid : ∀ a ∈ v.stack, a < v.cells + 1 := fun a ha => Nat.lt_succ_of_lt (h.valid a ha)
  have hrest : v.alloc.Agrees kind (s.allocTjNode kw id name).1 :=
    ⟨by rw [hlen, h.cells]; rfl, by rw [hstack, h.stack]; rfl, by rw [hkind, h.kind]; rfl, hvalid⟩
  unfold CaptureVars.enter GrammarState.symStackPush
  by_cases hkw : kw.kind = kwTask
  · rw [if_pos hkw, hstack, h.stack, hcell]
    by_cases hfull : v.stack.length < symStackSize
    · rw [if_pos hfull, if_pos ⟨hkw, hfull⟩]
      refine ⟨hrest.cells, ?_, hrest.kind, ?_⟩
      · rfl
      · intro a ha
        rcases List.mem_cons.mp ha with rfl | ha
        · exact Nat.lt_succ_self _
        · exact hvalid a ha
    · rw [if_neg hfull, if_neg fun h => hfull h.2]
      exact hrest
  · rw [if_neg hkw, if_neg fun h => hkw h.1]
    exact hrest

theorem Agrees.leave (h : v.Agrees kind s) (kw : Token) :
    (v.leave kw).Agrees kind (if kw.kind = kwTask then s.symStackPop else s) := by
  unfold CaptureVars.leave
  split_ifs
  · exact ⟨h.cells, congrArg List.tail h.stack, h.kind, fun a ha => h.valid a (List.mem_of_mem_tail ha)⟩
  · exact h

end CaptureVars

namespace Stmt

variable {kind : DepKind}

theorem execAll_captures {sts : List Stmt}
    (h : ∀ st ∈ sts, ∀ (s : GrammarState) (v : CaptureVars), v.Agrees kind s →
      CapturesFrom kind s v (st.exec s).1 (st.captures v)) :
    ∀ (s : GrammarState) (v : CaptureVars), v.Agrees kind s →
      CapturesFrom kind s v (execAll sts s).1 (capturesAll sts v) := by
  induction sts with
  | nil =>
    intro s v hv
    exact .of_view hv rfl (Nat.le_refl _)
  | cons st sts ih =>
    obtain ⟨hst, hsts⟩ := List.forall_mem_cons.mp h
    intro s v hv
    have hone := hst s v hv
    exact hone.trans (ih hsts _ _ hone.agrees)

theorem alloc_captures {s t : GrammarState} {v : CaptureVars} {out : CaptureVars × List Capture}
    (h : CapturesFrom kind s v t out) (kw id name : Token) :
    CapturesFrom kind s v (t.allocTjNode kw id name).1 (out.1.alloc, out.2) := by
  have hview := t.captureView_allocTjNode kw id name
  simp only [GrammarState.captureView, Prod.mk.injEq] at hview
  obtain ⟨⟨hlen, hstack, hkind⟩, hdeps⟩ := hview
  refine ⟨⟨?_, ?_, ?_, ?_⟩, ?_, ?_, ?_⟩
  · rw [hlen, h.agrees.cells]
    rfl
  · rw [hstack, h.agrees.stack]
    rfl
  · rw [hkind, h.agrees.kind]
    rfl
  · intro a ha
    exact Nat.lt_succ_of_lt (h.agrees.valid a ha)
  · rw [hdeps]
    exact h.deps
  · intro c hc
    exact Nat.lt_succ_of_lt (h.valid c hc)
  · exact Nat.le_succ_of_le h.grows

theorem enter_captures {s : GrammarState} {v : CaptureVars} (h : v.Agrees kind s)
    (kw id name : Token) : CapturesFrom kind s v (if kw.kind = kwTask then
      (s.allocTjNode kw id name).1.symStackPush (s.allocTjNode kw id name).2
      else (s.allocTjNode kw id name).1) (v.enter kw, []) := by
  refine .of_view (h.enter kw id name) ?_ (by rw [CaptureVars.cells_enter]; omega)
  have hview := congrArg Prod.snd (s.captureView_allocTjNode kw id name)
  unfold GrammarState.symStackPush
  split_ifs <;> exact hview

theorem leave_captures {s t : GrammarState} {v : CaptureVars} {out : CaptureVars × List Capture}
    (h : CapturesFrom kind s v t out) (kw : Token) :
    CapturesFrom kind s v (if kw.kind = kwTask then t.symStackPop else t)
      (out.1.leave kw, out.2) := by
  have hcells : (out.1.leave kw).cells = out.1.cells := by
    unfold CaptureVars.leave
    split_ifs <;> rfl
  refine ⟨h.agrees.leave kw, fun a => ?_, ?_, ?_⟩
  · rw [← h.deps a]
    split_ifs <;> rfl
  · intro c hc
    rw [hcells]
    exact h.valid c hc
  · rw [hcells]
    exact h.grows

theorem capture_captures {s t : GrammarState} {v : CaptureVars} {out : CaptureVars × List Capture}
    (h : CapturesFrom kind s v t out) (ref : TaskRef) :
    CapturesFrom kind s v (t.captureDep ref) (out.1, out.2 ++ out.1.capture ref) := by
  unfold GrammarState.captureDep CaptureVars.capture GrammarState.symStackTop
  rw [h.agrees.stack]
  cases hstack : out.1.stack with
  | nil =>
    rw [List.head?_nil, Option.map_none, Option.toList_none, List.append_nil]
    exact h
  | cons a below =>
    have ha : a < out.1.cells := h.agrees.valid a (by rw [hstack]; exact List.mem_cons_self)
    have hcells : t.heap.length = out.1.cells := h.agrees.cells
    refine ⟨⟨?_, h.agrees.stack, h.agrees.kind, h.agrees.valid⟩, fun b => ?_, ?_, h.grows⟩
    · show (List.modify t.heap a _).length = _
      rw [List.length_modify, hcells]
    · show (t.tjNodePushDependency a _).deps b
        = _ ++ (List.filter _ (out.2 ++ [⟨a, out.1.kind, ref⟩])).map _
      rw [GrammarState.deps_push _ _ (by rw [hcells]; exact ha), h.deps, List.filter_append,
        List.map_append, List.append_assoc, h.agrees.kind]
      congr 2
      by_cases hab : a = b
      · rw [if_pos hab]
        simp [hab, Capture.dep]
      · rw [if_neg hab]
        simp [hab]
    · intro c hc
      rcases List.mem_append.mp hc with hc | hc
      · exact h.valid c hc
      · rw [List.mem_singleton.mp hc]
        exact ha

/-- **What a statement captures** is appended to the dependencies of its tasks. -/
theorem exec_captures (st : Stmt) : ∀ (s : GrammarState) (v : CaptureVars), v.Agrees kind s →
    CapturesFrom kind s v (st.exec s).1 (st.captures v) := by
  induction st using Stmt.induct with
  | h st ih =>
    intro s v hv
    have hall := execAll_captures ih
    cases st with
    | reset => exact .of_view ⟨hv.cells, rfl, hv.kind, fun a ha => by cases ha⟩ rfl (Nat.le_refl _)
    | top item => exact (hall s v hv).of_eq (GrammarState.captureView_routeAll _ _)
    | project kw id name body stop =>
      refine (alloc_captures (hall s v hv) kw id name).of_eq ?_
      rw [exec, GrammarState.captureView_hoist, GrammarState.captureView_setRangeEnd]
      rfl
    | symbol kw id name body stop =>
      have hbody := (enter_captures hv kw id name).trans (hall _ _ (hv.enter kw id name))
      refine (leave_captures hbody kw).of_eq ?_
      rw [exec, GrammarState.captureView_finishTjNode]
      rfl
    | declare kw id name body stop =>
      refine (alloc_captures (hall s v hv) kw id name).of_eq ?_
      rw [exec, GrammarState.captureView_finishTjNode]
      rfl
    | kind k => exact .of_view ⟨hv.cells, hv.stack, rfl, hv.valid⟩ rfl (Nat.le_refl _)
    | ref bangs segs body => exact capture_captures (hall s v hv) (taskRefOf bangs segs)
    | startDate date =>
      exact (CapturesFrom.of_view hv rfl (Nat.le_refl _)).of_eq
        (s.captureView_captureDate date fun _ _ => rfl)
    | endDate date =>
      exact (CapturesFrom.of_view hv rfl (Nat.le_refl _)).of_eq
        (s.captureView_captureDate date fun _ _ => rfl)
    | pref k value =>
      exact (CapturesFrom.of_view hv rfl (Nat.le_refl _)).of_eq
        (s.captureView_setPendingPrefix k value)
    | incl file body =>
      have hbody := hall { s with inIncludeDepth := s.inIncludeDepth + 1 } v
        ⟨hv.cells, hv.stack, hv.kind, hv.valid⟩
      have hsame : CapturesFrom kind s v (execAll body
          { s with inIncludeDepth := s.inIncludeDepth + 1 }).1 (capturesAll body v) :=
        ⟨hbody.agrees, hbody.deps, hbody.valid, hbody.grows⟩
      refine hsame.of_eq ?_
      rw [exec]
      exact GrammarState.captureView_pushInclude _ _
    | block body => exact hall s v hv
    | opened kw id name => exact enter_captures hv kw id name
    | included =>
      exact .of_view ⟨hv.cells, hv.stack, hv.kind, hv.valid⟩ rfl (Nat.le_refl _)

end Stmt

end TaskjugglerLsp
