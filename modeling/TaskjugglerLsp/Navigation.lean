import TaskjugglerLsp.Json
import TaskjugglerLsp.ProjectTree.Parsed

/-!
# Go to definition and references

The handlers of `definition.c` and `references.c`, from the position of a request on.  In a project
whose documents have been parsed without an error and whose tasks are all found by their ids, the
one leads back to where the other comes from.

* `ParsesTo.dependencyAtCursor_eq`, `ParsesTo.taskDeclAtCursor_eq`: what is under the cursor.
* `ProjectTask.targetAtCursor_iff`, `ProjectTask.declaredAtCursor_eq`: the task of the project that
  it stands for.
* `definition_round_trip`: from a reference to the task and back.
-/

namespace TaskjugglerLsp

open Lib Lib.Lr

/-! ### The handlers -/

/-- What these handlers read of a `query_doc`. -/
structure DocView where
  uri : CStr
  taskPrefix : Option CStr
  root : TjNode
  tokSpans : List TokenSpan
  tokOwners : List (Option (List ℕ))

/-- The position of a request, if it has one. -/
def requestPosition (params : Option Json) : Option LspPos :=
  (Json.objGet params "position").map fun p => Json.toPos (some p)

/-- The index of the dependency under the cursor among those of its owner. -/
def dependencyOrdinal (cursor : LspPos) (info : TjInfo) : ℕ :=
  info.dependencies.findIdx fun d => posInRange cursor d.sourceRange

section Handlers

variable (project : ProjectNode) (d : DocView) (pos : LspPos)

/-- The task that the dependency under the cursor refers to. -/
def targetAtCursor : Option (List ℕ) := do
  let (owner, _) ← dependencyAtCursor d.root d.tokSpans d.tokOwners pos
  let o ← d.root.sub owner
  projectResolveDepRef project d.taskPrefix (d.root.lineage owner) (dependencyOrdinal pos o.info)

/-- The task of the project that is declared under the cursor. -/
def declaredAtCursor : Option (List ℕ) := do
  let task ← taskDeclAtCursor d.root d.tokSpans d.tokOwners pos
  projectNodeForDocTask project d.taskPrefix (d.root.lineage task)

/-- `build_definition_json`. -/
def buildDefinition (target : List ℕ) : Option Location :=
  (nodeAt project target).map fun node => ⟨node.info.sourceUri, node.info.selectionRange⟩

end Handlers

/-- `handle_definition`, where `none` is a null result. -/
def handleDefinition (params : Option Json) (projectRoot : Option ProjectNode)
    (doc : Option DocView) : Option Location := do
  let pos ← requestPosition params
  let d ← doc
  let project ← projectRoot
  let target ← targetAtCursor project d pos
  buildDefinition project target

/-- `handle_references`. -/
def handleReferences (params : Option Json) (projectRoot : Option ProjectNode)
    (doc : Option DocView) : Option (List Location) := do
  let pos ← requestPosition params
  let d ← doc
  let project ← projectRoot
  let wanted ← declaredAtCursor project d pos
  some (collectRefs project wanted)

/-! ### What is under the cursor -/

theorem firstAbove_eq_some {root : TjNode} {test : TjInfo → Bool} {rev a : List ℕ}
    (h : firstAbove root test rev = some a) : ∃ o, root.sub a = some o ∧ test o.info = true := by
  induction rev with
  | nil =>
    rw [firstAbove] at h
    split_ifs at h with htest
    obtain rfl := Option.some.inj h
    exact ⟨root, rfl, htest⟩
  | cons i rev ih =>
    rw [firstAbove, Option.bind_eq_bind, Option.bind_eq_some_iff] at h
    obtain ⟨o, ho, h⟩ := h
    split_ifs at h with htest
    · obtain rfl := Option.some.inj h
      exact ⟨o, ho, htest⟩
    · exact ih h

theorem dependencyAtCursor_eq_some {root : TjNode} {tokens : List TokenSpan}
    {owners : List (Option (List ℕ))} {pos : LspPos} {a : List ℕ} {dep : Dependency}
    (h : dependencyAtCursor root tokens owners pos = some (a, dep)) :
    ∃ o, root.sub a = some o ∧ o.info.dependencies[dependencyOrdinal pos o.info]? = some dep ∧
      posInRange pos dep.sourceRange = true := by
  simp only [dependencyAtCursor, Option.bind_eq_bind, Option.bind_eq_some_iff, Option.some.injEq,
    Prod.mk.injEq] at h
  obtain ⟨node, -, owner, -, o, ho, d, hd, rfl, rfl⟩ := h
  have hon := List.find?_some hd
  refine ⟨o, ho, ?_, hon⟩
  rw [dependencyOrdinal, ← List.find?_eq_getElem?_findIdx]
  exact hd

theorem taskDeclAtCursor_eq_some {root : TjNode} {tokens : List TokenSpan}
    {owners : List (Option (List ℕ))} {pos : LspPos} {a : List ℕ}
    (h : taskDeclAtCursor root tokens owners pos = some a) :
    ∃ o, root.sub a = some o ∧ o.keyword = kwTask ∧
      posInRange pos o.info.selectionRange = true := by
  rw [taskDeclAtCursor, Option.bind_eq_bind, Option.bind_eq_some_iff] at h
  obtain ⟨node, -, h⟩ := h
  obtain ⟨o, ho, htest⟩ := firstAbove_eq_some h
  rw [Bool.and_eq_true, beq_iff_eq] at htest
  exact ⟨o, ho, htest⟩

section Parses

variable {κ : Type*} [DecidableEq κ] {T : Tables κ NonTerm SemAction} {s t : ProgState}
  {text : CStr} {doc : SynTree} {out : ParseResult}

theorem ParsesTo.heading_mem (hT : T.Sound grammar yyError) (hs : ParseHistory T s)
    (h : ParsesTo T s text doc t out) (hone : OneProject doc) {a : List ℕ} {o : TjNode}
    (ho : out.root.sub a = some o) (ha : a ≠ []) : o.info.heading ∈ documentDecls doc := by
  obtain ⟨tops, body, hscoped⟩ := h.scoped hT hs hone
  obtain ⟨c, hc, hinfo⟩ := exists_cell_of_sub ho
  have hkids : ∀ l us, (∀ p ∈ ((Rose.node l us).links none).map (·.2), p ∈ documentDecls doc) →
      ∀ u ∈ us, ∀ p ∈ (u.links none).map (·.2), p ∈ documentDecls doc := by
    intro l us hall u hu p hp
    exact hall p (List.mem_cons_of_mem _ (Rose.labels_subset hu hp))
  have htrees : ∀ u ∈ documentTrees doc, ∀ p ∈ (u.links none).map (·.2), p ∈ documentDecls doc :=
    fun u hu p hp => Rose.labels_subset hu hp
  obtain ⟨tree, hlabel, hall⟩ := hscoped.exists_tree
    (Q := fun u => ∀ p ∈ (u.links none).map (·.2), p ∈ documentDecls doc) hkids htrees hc ha
  rw [hinfo]
  refine hall _ ?_
  rw [show (out.heap.getD c .new).info.heading = tree.label from hlabel.symm]
  cases tree
  exact List.mem_cons_self

/-- **A task is under the cursor** on its id, before its end. -/
theorem ParsesTo.taskDeclAtCursor_eq (hT : T.Sound grammar yyError) (hs : ParseHistory T s)
    (h : ParsesTo T s text doc t out) (hone : OneProject doc) {a : List ℕ} {o : TjNode}
    (ho : out.root.sub a = some o) (ha : a ≠ []) (htask : o.keyword = kwTask) {pos : LspPos}
    (hpos : posInRange pos o.info.selectionRange = true) (hend : pos.before o.info.range.stop) :
    taskDeclAtCursor out.root out.tokSpans out.owners pos = some a := by
  have hmem := h.heading_mem hT hs hone ho ha
  have hfound := (taskDeclAtCursor_iff hT hs h hone hmem htask hpos).mpr hend
  obtain ⟨b, hb, hinfo⟩ := Option.bind_eq_some_iff.mp hfound
  obtain ⟨o', ho', hheading⟩ := Option.map_eq_some_iff.mp hinfo
  have hne : b ≠ [] := by
    rintro rfl
    obtain ⟨tops, body, hscoped⟩ := h.scoped hT hs hone
    obtain rfl := Option.some.inj ho'
    have hroot : out.root.info.heading = NodeCell.new.info.heading := by
      rw [ParseResult.root, info_nodeOf]
      exact hscoped.root
    rw [hroot] at hheading
    have hzero : o.keyword = 0 := congrArg TjInfo.keyword hheading.symm
    rw [htask] at hzero
    exact absurd hzero (by decide)
  rw [hb, h.address_inj hT hs hone ho ho' ha hne ?_ hheading.symm]
  rw [show o.info.keyword = kwTask from htask]
  decide

/-- **A dependency is under the cursor** on its path, before the end of its task. -/
theorem ParsesTo.dependencyAtCursor_eq (hT : T.Sound grammar yyError) (hs : ParseHistory T s)
    (h : ParsesTo T s text doc t out) (hone : OneProject doc)
    (hdepth : Stmt.taskDepthAll (doc.stmts []) ≤ symStackSize) {a : List ℕ} {o : TjNode} {k : ℕ}
    {dep : Dependency} (ho : out.root.sub a = some o)
    (hdep : o.info.dependencies[k]? = some dep) {pos : LspPos}
    (hpos : posInRange pos dep.sourceRange = true) (hend : pos.before o.info.range.stop) :
    dependencyAtCursor out.root out.tokSpans out.owners pos = some (a, dep) ∧
      dependencyOrdinal pos o.info = k := by
  have hat : out.root.dependencyAt a k = some dep := TjNode.dependencyAt_eq_some.mpr ⟨o, ho, hdep⟩
  obtain ⟨o', c, ho', ha, hinfo, -, -, href⟩ := h.exists_dependency hT hs hone hdepth hat
  obtain rfl := Option.some.inj (ho.symm.trans ho')
  have hlabel : out.label c = o.info.heading := by
    rw [hinfo]
    rfl
  rw [hlabel] at href
  obtain ⟨-, hnone⟩ := h.referenceAt_spec hT hs hone hdepth pos
  have hsome : out.referenceAt pos ≠ none := fun hnot =>
    hnone hnot _ href (h.heading_mem hT hs hone ho ha) ⟨hpos, hend⟩
  obtain ⟨r, hr⟩ := Option.ne_none_iff_exists'.mp hsome
  obtain ⟨⟨b, dep'⟩, hfound, -⟩ := Option.bind_eq_some_iff.mp hr
  obtain ⟨o', ho', hordinal, hpos'⟩ := dependencyAtCursor_eq_some hfound
  have hat' : out.root.dependencyAt b (dependencyOrdinal pos o'.info) = some dep' :=
    TjNode.dependencyAt_eq_some.mpr ⟨o', ho', hordinal⟩
  obtain ⟨rfl, rfl⟩ := h.dependency_inj hT hs hone hdepth hat hat' fun happart => by
    have hin := (posInRange_iff _ _).mp hpos
    have hin' := (posInRange_iff _ _).mp hpos'
    rcases happart with hlt | hlt
    · exact absurd (hlt.trans_le (hin'.1.trans hin.2)) (Nat.lt_irrefl _)
    · exact absurd (hlt.trans_le (hin.1.trans hin'.2)) (Nat.lt_irrefl _)
  obtain rfl := Option.some.inj (ho.symm.trans ho')
  obtain rfl := Option.some.inj (hdep.symm.trans hordinal)
  exact ⟨hfound, rfl⟩

end Parses

/-! ### The tasks of a project -/

/-- **What a query sees of a document** whose text has been parsed without an error. -/
structure ViewOf {κ : Type*} [DecidableEq κ] (T : Tables κ NonTerm SemAction) (d : Document)
    (snap : DocSnapshot) (v : DocView) : Prop where
  uri : v.uri = d.uri
  taskPrefix : v.taskPrefix = d.prefixes .task
  tokSpans : v.tokSpans = snap.tokSpans
  parse : ∃ s t text doc out, ParseHistory T s ∧ ParsesTo T s text doc t out ∧ OneProject doc ∧
    Stmt.taskDepthAll (doc.stmts []) ≤ symStackSize ∧ snap.root = out.root ∧ v.root = out.root ∧
    v.tokSpans = out.tokSpans ∧ v.tokOwners = out.owners

/-- Every document of the store has been parsed without an error. -/
def Viewed {κ : Type*} [DecidableEq κ] (T : Tables κ NonTerm SemAction) (s : Store) : Prop :=
  ∀ i d snap, s i = some d → d.snap = some snap → ∃ v, ViewOf T d snap v

theorem Viewed.parsedDocs {κ : Type*} [DecidableEq κ] {T : Tables κ NonTerm SemAction} {s : Store}
    (h : Viewed T s) (hT : T.Sound grammar yyError) : s.ParsedDocs := by
  intro i d snap hd hsnap
  obtain ⟨v, hview⟩ := h i d snap hd hsnap
  obtain ⟨s', t, text, doc, out, hs, hp, hone, hdepth, hroot, -⟩ := hview.parse
  exact hp.parsedDocument hT hs hone hdepth hroot

/-- A task of a document of a project. -/
structure ProjectTask (s : Store) (order : List Slot) (i : Slot) (d : Document)
    (snap : DocSnapshot) (a : List ℕ) (o : TjNode) : Prop where
  mem : i ∈ order
  doc : s i = some d
  snap_eq : d.snap = some snap
  sub : snap.root.sub a = some o
  task : o.keyword = kwTask

/-- **Every task is found by its ids**: it is the first of its id at each level. -/
def TasksFirst (s : Store) (order : List Slot) : Prop :=
  ∀ i d snap a o, ProjectTask s order i d snap a o → CloneIsFirst s order i a

section Project

variable {κ : Type*} [DecidableEq κ] {T : Tables κ NonTerm SemAction} (hT : T.Sound grammar yyError)
  {s : Store} {order : List Slot} {i : Slot} {d : Document} {snap : DocSnapshot} {v : DocView}
  {a : List ℕ} {o : TjNode} {pos : LspPos}

/-- A task is put into the project once, where its ids lead to. -/
theorem ProjectTask.exists_clone (h : ProjectTask s order i d snap a o) (hdocs : s.ParsedDocs)
    (hfirst : TasksFirst s order) : ∃ c, cloneAt s order i a = some c ∧
      projectNodeForDocTask (assembled s order) (d.prefixes .task) (snap.root.lineage a) = some c ∧
      infoAt (assembled s order) c = some (projectInfoFromTj d.uri o.info) := by
  have hclone := hfirst i d snap a o h
  have hsome : ∃ c, cloneAt s order i a = some c := by
    cases a with
    | nil => exact hclone.elim
    | cons n rest =>
      obtain ⟨place, j, hplace, -⟩ := hclone
      exact ⟨_, by rw [cloneAt, hplace]; rfl⟩
  obtain ⟨c, hc⟩ := hsome
  exact ⟨c, hc, (projectNodeForDocTask_eq_clone hdocs h.mem h.doc h.snap_eq h.sub h.task hc).mpr
    hclone, infoAt_clone h.mem h.doc h.snap_eq h.sub hc⟩

theorem FirstTasks.isTask {t u : ProjectNode} {rel : List ℕ} {segs : List CStr}
    (h : FirstTasks t rel segs) (hne : rel ≠ []) (hu : nodeAt t rel = some u) :
    u.info.keyword = kwTask := by
  have hnames := h.names_along
  rw [nodeAt_eq] at hu
  have hmem : u ∈ Descent.along ProjectNode.children t rel :=
    List.mem_of_getLast? (Descent.getLast?_along hu hne)
  have hname := List.mem_map_of_mem (f := taskName) hmem
  rw [hnames] at hname
  obtain ⟨id, -, hid⟩ := List.mem_map.mp hname
  by_contra hkeyword
  rw [taskName, if_neg hkeyword] at hid
  cases hid

theorem info_of_root {node : ProjectNode} (h : nodeAt (assembled s order) [] = some node) :
    node.info = ProjectNode.empty.info := by
  have hroot : infoAt (assembled s order) [] = some ProjectNode.empty.info := by
    rw [assembled_eq]
    exact extends_foldl _ _ _ _ rfl
  rw [infoAt, h, Option.map_some, Option.some.injEq] at hroot
  exact hroot

/-- **What a dependency refers to** is a task of a document of the project. -/
theorem exists_task_of_refers (horder : order.Nodup) {clone : Option (List ℕ)} {dep : Dependency}
    {t : List ℕ} (h : CloneRefersTo (assembled s order) clone dep t) :
    ∃ j e snap' b u, ProjectTask s order j e snap' b u ∧ cloneAt s order j b = some t ∧
      infoAt (assembled s order) t = some (projectInfoFromTj e.uri u.info) := by
  obtain ⟨c, -, base, ancestor, rel, -, hbase, hne, hrel, rfl⟩ := h
  obtain ⟨node, hnode⟩ := hrel.node
  have hat : nodeAt (assembled s order) (base ++ rel) = some node := by
    rw [nodeAt_eq] at hbase ⊢
    rw [Descent.node_append, hbase, Option.bind_some, hnode]
  have htask := hrel.isTask hne (by rw [nodeAt_eq]; exact hnode)
  obtain ⟨j, e, snap', b, u, hj, he, hsnap', hu, hclone, hinfo⟩ :=
    exists_origin horder (infoAt_eq_some.mpr ⟨node, hat, rfl⟩) (by simp [hne])
  rw [hinfo] at htask
  refine ⟨j, e, snap', b, u, ⟨hj, he, hsnap', hu, htask⟩, hclone, ?_⟩
  rw [← hinfo]
  exact infoAt_eq_some.mpr ⟨node, hat, rfl⟩

section View

variable (hview : ViewOf T d snap v)

include hT hview

/-- **The task under the cursor** stands for its copy. -/
theorem ProjectTask.declaredAtCursor_eq (h : ProjectTask s order i d snap a o)
    (hdocs : s.ParsedDocs) (hfirst : TasksFirst s order)
    (hpos : posInRange pos o.info.selectionRange = true) (hend : pos.before o.info.range.stop) :
    declaredAtCursor (assembled s order) v pos = cloneAt s order i a := by
  obtain ⟨s', t, text, doc, out, hs, hp, hone, -, hsnap, hroot, htokens, howners⟩ := hview.parse
  obtain ⟨c, hc, hnode, -⟩ := h.exists_clone hdocs hfirst
  have hsub := h.sub
  rw [hsnap] at hsub
  have hne : a ≠ [] := by
    rintro rfl
    cases hc
  have hdecl := hp.taskDeclAtCursor_eq hT hs hone hsub hne h.task hpos hend
  rw [← hroot, ← htokens, ← howners] at hdecl
  rw [declaredAtCursor, hdecl, Option.bind_eq_bind, Option.bind_some, hc, hview.taskPrefix, hroot,
    ← hsnap, hnode]

omit hT in
theorem exists_of_declaredAtCursor (hmem : i ∈ order) (hdoc : s i = some d)
    (hsnap : d.snap = some snap) (hdocs : s.ParsedDocs) (hfirst : TasksFirst s order) {c : List ℕ}
    (hc : declaredAtCursor (assembled s order) v pos = some c) :
    ∃ b u, ProjectTask s order i d snap b u ∧ posInRange pos u.info.selectionRange = true ∧
      cloneAt s order i b = some c := by
  obtain ⟨s', t, text, doc, out, -, -, -, -, hroot, hroot', -, -⟩ := hview.parse
  rw [declaredAtCursor, Option.bind_eq_bind, Option.bind_eq_some_iff] at hc
  obtain ⟨b, hb, hnode⟩ := hc
  obtain ⟨u, hu, htask, hpos⟩ := taskDeclAtCursor_eq_some hb
  rw [hroot', ← hroot] at hu hnode
  have h : ProjectTask s order i d snap b u := ⟨hmem, hdoc, hsnap, hu, htask⟩
  obtain ⟨c', hc', hnode', -⟩ := h.exists_clone hdocs hfirst
  rw [hview.taskPrefix, hnode', Option.some.injEq] at hnode
  exact ⟨b, u, h, hpos, hnode ▸ hc'⟩

/-- **The reference under the cursor** refers to what that of the copy does. -/
theorem ProjectTask.targetAtCursor_iff (h : ProjectTask s order i d snap a o)
    (hdocs : s.ParsedDocs) (horder : order.Nodup) (hfirst : TasksFirst s order) {k : ℕ}
    {dep : Dependency} (hdep : o.info.dependencies[k]? = some dep)
    (hpos : posInRange pos dep.sourceRange = true) (hend : pos.before o.info.range.stop)
    {target : List ℕ} : targetAtCursor (assembled s order) v pos = some target ↔
      CloneRefersTo (assembled s order) (cloneAt s order i a) dep target := by
  obtain ⟨s', t, text, doc, out, hs, hp, hone, hdepth, hsnap, hroot, htokens, howners⟩ :=
    hview.parse
  have hsub := h.sub
  rw [hsnap] at hsub
  obtain ⟨hfound, hordinal⟩ := hp.dependencyAtCursor_eq hT hs hone hdepth hsub hdep hpos hend
  rw [← hroot, ← htokens, ← howners] at hfound
  rw [← hroot] at hsub
  have htarget : targetAtCursor (assembled s order) v pos
      = projectResolveDepRef (assembled s order) v.taskPrefix (v.root.lineage a) k := by
    rw [targetAtCursor, hfound]
    show (v.root.sub a).bind _ = _
    rw [hsub, Option.bind_some, hordinal]
  rw [htarget, hview.taskPrefix, hroot, ← hsnap,
    projectResolveDepRef_eq_some (isProjectTree_assembled hdocs horder)
      (hdocs i d snap h.doc h.snap_eq) h.sub h.task]
  exact (hfirst i d snap a o h).refers hdocs horder h.mem h.doc h.snap_eq h.sub h.task hdep target

theorem exists_of_targetAtCursor (hmem : i ∈ order) (hdoc : s i = some d)
    (hsnap : d.snap = some snap) (hdocs : s.ParsedDocs) (horder : order.Nodup)
    (hfirst : TasksFirst s order) {target : List ℕ}
    (htarget : targetAtCursor (assembled s order) v pos = some target) :
    ∃ b u, ∃ k : ℕ, ∃ dep, ProjectTask s order i d snap b u ∧
      u.info.dependencies[k]? = some dep ∧
      posInRange pos dep.sourceRange = true ∧
      CloneRefersTo (assembled s order) (cloneAt s order i b) dep target := by
  obtain ⟨s', t, text, doc, out, hs, hp, hone, hdepth, hroot, hroot', -, -⟩ := hview.parse
  simp only [targetAtCursor, Option.bind_eq_bind, Option.bind_eq_some_iff] at htarget
  obtain ⟨⟨b, dep⟩, hfound, u, hu, hresolve⟩ := htarget
  obtain ⟨u', hu', hordinal, hpos⟩ := dependencyAtCursor_eq_some hfound
  obtain rfl := Option.some.inj (hu.symm.trans hu')
  rw [hroot'] at hu
  obtain ⟨o', _, ho', -, -, htask, -, -⟩ := hp.exists_dependency hT hs hone hdepth
    (TjNode.dependencyAt_eq_some.mpr ⟨u, hu, hordinal⟩)
  obtain rfl := Option.some.inj (hu.symm.trans ho')
  rw [← hroot] at hu
  have h : ProjectTask s order i d snap b u := ⟨hmem, hdoc, hsnap, hu, htask⟩
  refine ⟨b, u, dependencyOrdinal pos u.info, dep, h, hordinal, hpos, ?_⟩
  rw [hview.taskPrefix, hroot', ← hroot, projectResolveDepRef_eq_some
    (isProjectTree_assembled hdocs horder) (hdocs i d snap hdoc hsnap) hu htask] at hresolve
  exact ((hfirst i d snap b u h).refers hdocs horder hmem hdoc hsnap hu htask hordinal
    target).mp hresolve

end View

/-- Where go-to-definition leads to from a position. -/
def DefinesAt (T : Tables κ NonTerm SemAction) (project : ProjectNode) (d : Document)
    (snap : DocSnapshot) (pos : LspPos) (loc : Location) : Prop :=
  ∀ v, ViewOf T d snap v → ∀ params, requestPosition params = some pos →
    handleDefinition params (some project) (some v) = some loc

/-- The references of what is declared at a position. -/
def RefersAt (T : Tables κ NonTerm SemAction) (project : ProjectNode) (d : Document)
    (snap : DocSnapshot) (pos : LspPos) (refs : List Location) : Prop :=
  ∀ v, ViewOf T d snap v → ∀ params, requestPosition params = some pos →
    handleReferences params (some project) (some v) = some refs

/-- **The handlers lead back** from a request in a document: each reference that leads to a task is
among the references of that, and each of the references of a task leads to it. -/
structure LeadsBack (T : Tables κ NonTerm SemAction) (s : Store) (order : List Slot)
    (project : ProjectNode) (i : Slot) (d : Document) (snap : DocSnapshot) (v : DocView)
    (params : Option Json) : Prop where
  there : ∀ loc, handleDefinition params (some project) (some v) = some loc →
    ∃ pos, requestPosition params = some pos ∧
    ∃ b u, ∃ k : ℕ, ∃ dep, ProjectTask s order i d snap b u ∧
      u.info.dependencies[k]? = some dep ∧ posInRange pos dep.sourceRange = true ∧
      ∃ j e snap' c o, ProjectTask s order j e snap' c o ∧
        loc = ⟨some e.uri, o.info.selectionRange⟩ ∧
        ∀ pos', posInRange pos' o.info.selectionRange = true → pos'.before o.info.range.stop →
          ∃ refs, RefersAt T project e snap' pos' refs ∧ ⟨some d.uri, dep.sourceRange⟩ ∈ refs
  back : ∀ refs, handleReferences params (some project) (some v) = some refs →
    ∃ pos, requestPosition params = some pos ∧
    ∃ b u, ProjectTask s order i d snap b u ∧ posInRange pos u.info.selectionRange = true ∧
      ∀ ref ∈ refs, ∃ j e snap' c o, ∃ k : ℕ, ∃ dep, ProjectTask s order j e snap' c o ∧
        o.info.dependencies[k]? = some dep ∧ ref = ⟨some e.uri, dep.sourceRange⟩ ∧
        ∀ pos', posInRange pos' dep.sourceRange = true → pos'.before o.info.range.stop →
          DefinesAt T project e snap' pos' ⟨some d.uri, u.info.selectionRange⟩

theorem handleDefinition_eq {params : Option Json} (hparams : requestPosition params = some pos)
    (project : ProjectNode) (v : DocView) : handleDefinition params (some project) (some v)
      = (targetAtCursor project v pos).bind (buildDefinition project) := by
  rw [handleDefinition, hparams]
  rfl

theorem handleReferences_eq {params : Option Json} (hparams : requestPosition params = some pos)
    (project : ProjectNode) (v : DocView) : handleReferences params (some project) (some v)
      = (declaredAtCursor project v pos).map (collectRefs project) := by
  rw [handleReferences, hparams]
  show (declaredAtCursor project v pos).bind _ = _
  cases declaredAtCursor project v pos <;> rfl

theorem buildDefinition_eq {project : ProjectNode} {target : List ℕ} {info : ProjectInfo}
    (h : infoAt project target = some info) :
    buildDefinition project target = some ⟨info.sourceUri, info.selectionRange⟩ := by
  obtain ⟨node, hnode, rfl⟩ := infoAt_eq_some.mp h
  rw [buildDefinition, hnode, Option.map_some]

section RoundTrip

variable (hviews : Viewed T s) (huris : s.UniqueUris) (horder : order.Nodup)
  (hfirst : TasksFirst s order)

include hT hviews huris horder hfirst

/-- **From a reference to the task**, whose references have it. -/
theorem references_of_definition (hmem : i ∈ order) (hdoc : s i = some d)
    (hsnap : d.snap = some snap) (hview : ViewOf T d snap v) {params : Option Json}
    (hparams : requestPosition params = some pos) {loc : Location}
    (h : handleDefinition params (some (assembled s order)) (some v) = some loc) :
    ∃ b u, ∃ k : ℕ, ∃ dep, ProjectTask s order i d snap b u ∧
      u.info.dependencies[k]? = some dep ∧ posInRange pos dep.sourceRange = true ∧
      ∃ j e snap' c o, ProjectTask s order j e snap' c o ∧
        loc = ⟨some e.uri, o.info.selectionRange⟩ ∧
        ∀ pos', posInRange pos' o.info.selectionRange = true → pos'.before o.info.range.stop →
          ∃ refs, RefersAt T (assembled s order) e snap' pos' refs ∧
            ⟨some d.uri, dep.sourceRange⟩ ∈ refs := by
  have hdocs := hviews.parsedDocs hT
  rw [handleDefinition_eq hparams, Option.bind_eq_some_iff] at h
  obtain ⟨target, htarget, hloc⟩ := h
  obtain ⟨b, u, k, dep, hb, hdep, hpos, hrefers⟩ :=
    exists_of_targetAtCursor hT hview hmem hdoc hsnap hdocs horder hfirst htarget
  refine ⟨b, u, k, dep, hb, hdep, hpos, ?_⟩
  obtain ⟨j, e, snap', c, o, hc, hclone, hinfo⟩ := exists_task_of_refers horder hrefers
  refine ⟨j, e, snap', c, o, hc, ?_, fun pos' hpos' hend => ?_⟩
  · rw [buildDefinition_eq hinfo, Option.some.injEq] at hloc
    exact hloc.symm
  · refine ⟨collectRefs (assembled s order) target, fun w hw params' hparams' => ?_, ?_⟩
    · rw [handleReferences_eq hparams', hc.declaredAtCursor_eq hT hw hdocs hfirst hpos' hend,
        hclone, Option.map_some]
    · exact (mem_collectRefs_iff hdocs huris horder hmem hdoc hsnap hb.sub hdep).mpr hrefers

omit huris in
/-- **From a task to its references**, which lead back to it. -/
theorem definition_of_references (hmem : i ∈ order) (hdoc : s i = some d)
    (hsnap : d.snap = some snap) (hview : ViewOf T d snap v) {params : Option Json}
    (hparams : requestPosition params = some pos) {refs : List Location}
    (h : handleReferences params (some (assembled s order)) (some v) = some refs) :
    ∃ b u, ProjectTask s order i d snap b u ∧ posInRange pos u.info.selectionRange = true ∧
      ∀ ref ∈ refs, ∃ j e snap' c o, ∃ k : ℕ, ∃ dep, ProjectTask s order j e snap' c o ∧
        o.info.dependencies[k]? = some dep ∧ ref = ⟨some e.uri, dep.sourceRange⟩ ∧
        ∀ pos', posInRange pos' dep.sourceRange = true → pos'.before o.info.range.stop →
          DefinesAt T (assembled s order) e snap' pos' ⟨some d.uri, u.info.selectionRange⟩ := by
  have hdocs := hviews.parsedDocs hT
  rw [handleReferences_eq hparams, Option.map_eq_some_iff] at h
  obtain ⟨wanted, hwanted, rfl⟩ := h
  obtain ⟨b, u, hb, hpos, hclone⟩ :=
    exists_of_declaredAtCursor hview hmem hdoc hsnap hdocs hfirst hwanted
  refine ⟨b, u, hb, hpos, fun ref href => ?_⟩
  obtain ⟨x, node, k, dep, hnode, hdep, hresolve, rfl⟩ := mem_collectRefs.mp href
  have hroot := isProjectTree_assembled hdocs horder
  have hleads := (projectDepResolve_eq_some hroot hnode hdep).mp hresolve
  have hx : x ≠ [] := by
    rintro rfl
    rw [info_of_root hnode] at hdep
    cases hdep
  obtain ⟨j, e, snap', c, o, hj, he, hsnap', ho, hcloneAt, hinfo⟩ :=
    exists_origin horder (infoAt_eq_some.mpr ⟨node, hnode, rfl⟩) hx
  rw [hinfo] at hdep ⊢
  obtain ⟨v', hview'⟩ := hviews j e snap' he hsnap'
  obtain ⟨s', t, text, doc, out, hs, hp, hone, hdepth, hsnapRoot, -, -, -⟩ := hview'.parse
  have hat : out.root.dependencyAt c k = some dep := by
    rw [← hsnapRoot]
    exact TjNode.dependencyAt_eq_some.mpr ⟨o, ho, hdep⟩
  obtain ⟨o', _, ho', -, -, htask, -, -⟩ := hp.exists_dependency hT hs hone hdepth hat
  rw [← hsnapRoot] at ho'
  obtain rfl := Option.some.inj (ho.symm.trans ho')
  have hc : ProjectTask s order j e snap' c o := ⟨hj, he, hsnap', ho, htask⟩
  refine ⟨j, e, snap', c, o, k, dep, hc, hdep, rfl, fun pos' hpos' hend w hw params' hparams' => ?_⟩
  rw [handleDefinition_eq hparams', Option.bind_eq_some_iff]
  refine ⟨wanted, ?_, buildDefinition_eq (infoAt_clone hmem hdoc hsnap hb.sub hclone)⟩
  exact (hc.targetAtCursor_iff hT hw hdocs horder hfirst hdep hpos' hend).mpr
    ⟨x, hcloneAt, hleads⟩

end RoundTrip

end Project

def followedText : CStr := cstr "task a \"\" \x7b \x7d task b \"\" \x7b depends a \x7d"

def followedInfos : List TjInfo :=
  [⟨kwTask, some (cstr "a"), some (cstr "\"\""), onLine 0 0 13, onLine 0 5 6, []⟩,
    ⟨kwTask, some (cstr "b"), some (cstr "\"\""), onLine 0 14 37, onLine 0 19 20,
      [⟨.depends, 0, some (cstr "a"), onLine 0 34 35⟩]⟩]

def followedRoot : TjNode :=
  .mk ⟨0, none, none, onLine 0 0 0, onLine 0 0 0, []⟩ (followedInfos.map fun info => .mk info [])

/-- The cells of the document, those at the root in the order of the text. -/
def followedHeap : List NodeCell :=
  { NodeCell.new with children := [1, 2] } ::
    followedInfos.map fun info => { NodeCell.new with info := info }

/-- The state after a parse of at most `n` steps without a syntax error, and the syntax tree. -/
def stateUpTo {κ : Type*} [DecidableEq κ] (T : Tables κ NonTerm SemAction) (n : ℕ)
    (s : ProgState) (text : CStr) : Option (ProgState × SynTree) :=
  (yyScanString text).bind fun input =>
    ((quickParser T).treesUpTo n
      (Parser.init (s.front.install input) s.grammar.install) []).bind fun out =>
        match out with
        | ((d, .accept), [_, doc]) => if d.errors = 0 then some (⟨d.lex, d.vars⟩, doc) else none
        | _ => none

/-- **What is evaluated is the state** after a parse. -/
theorem exists_of_stateUpTo {κ : Type*} [DecidableEq κ] {T : Tables κ NonTerm SemAction} {n : ℕ}
    {s : ProgState} {text : CStr} {β : Type*} {f : ProgState × SynTree → β} {x : β}
    (h : (stateUpTo T n s text).map f = some x) :
    ∃ doc t, ParsesTo T s text doc t (parseResult t.front t.grammar) ∧ f (t, doc) = x := by
  obtain ⟨⟨t, doc⟩, hstate, heq⟩ := Option.map_eq_some_iff.mp h
  obtain ⟨input, hscan, hrun⟩ := Option.bind_eq_some_iff.mp hstate
  obtain ⟨built, hbuilt, hsome⟩ := Option.bind_eq_some_iff.mp hrun
  rw [← yyparser_eq_quick] at hbuilt
  split at hsome
  case h_1 d last doc' =>
    split_ifs at hsome with herrors
    simp only [Option.some.injEq, Prod.mk.injEq] at hsome
    obtain ⟨rfl, rfl⟩ := hsome
    exact ⟨_, _, .intro hscan hbuilt herrors, heq⟩
  case h_2 => cases hsome

/-- The tokens of the document. -/
@[irreducible] def followedTokens : List TokenSpan :=
  ((stateUpTo coreTables 400 .boot followedText).map fun x => x.1.front.lex.vars.tokSpans).getD []

def followedSnap : DocSnapshot :=
  ⟨1, cstr "file:///a.tjp", some followedText, followedRoot, followedTokens, 0⟩

theorem followedText_state : (stateUpTo coreTables 400 .boot followedText).map (fun x =>
    (x.1.grammar.heap, x.1.front.lex.vars.tokSpans, decide (OneProject x.2 ∧
      Stmt.taskDepthAll (x.2.stmts []) ≤ symStackSize)))
      = some (followedHeap, followedTokens, true) := by
  decide +kernel

theorem root_of_followedHeap {front : FrontState} {s : GrammarState} (h : s.heap = followedHeap) :
    (parseResult front s).root = followedRoot := by
  have hsorted : sortByStart followedHeap [1, 2] = [1, 2] :=
    List.mergeSort_of_pairwise (by decide)
  have hheap : (parseResult front s).heap = followedHeap := by
    show (s.write 0 fun c => { c with children := sortByStart s.heap c.children }).heap = _
    rw [GrammarState.write, h]
    show { NodeCell.new with children := sortByStart followedHeap [1, 2] } :: _ = _
    rw [hsorted]
    rfl
  rw [ParseResult.root, hheap]
  rfl

theorem exists_parse_followed : ∃ doc t out, ParsesTo coreTables .boot followedText doc t out ∧
    OneProject doc ∧ Stmt.taskDepthAll (doc.stmts []) ≤ symStackSize ∧
    followedSnap.root = out.root ∧ followedSnap.tokSpans = out.tokSpans := by
  obtain ⟨doc, t, hp, hall⟩ := exists_of_stateUpTo followedText_state
  simp only [Prod.mk.injEq, decide_eq_true_eq] at hall
  obtain ⟨hheap, htokens, hone, hdepth⟩ := hall
  exact ⟨doc, t, _, hp, hone, hdepth, (root_of_followedHeap hheap).symm, htokens.symm⟩

theorem viewed_followed : Viewed coreTables (loneStore followedSnap) := by
  obtain ⟨doc, t, out, hp, hone, hdepth, hroot, htokens⟩ := exists_parse_followed
  intro i d snap hd hsnap
  obtain ⟨-, -, hsnap'⟩ := loneStore_eq_some hd
  rw [hsnap', Option.some.injEq] at hsnap
  subst hsnap
  exact ⟨⟨d.uri, d.prefixes .task, out.root, out.tokSpans, out.owners⟩, rfl, rfl, htokens.symm,
    .boot, t, followedText, doc, out, .boot, hp, hone, hdepth, hroot, rfl, rfl, rfl⟩

theorem copiedDocs_followed : copiedDocs (fun _ => none) (loneStore followedSnap) 0 = [0] := by
  decide +kernel

theorem tasksFirst_followed : TasksFirst (loneStore followedSnap) [0] := by
  have hdocs := viewed_followed.parsedDocs coreTables_sound
  have hfirst : ∀ n < 2, cloneAt (loneStore followedSnap) [0] 0 [n] = some [n] ∧
      projectNodeForDocTask (assembled (loneStore followedSnap) [0]) none
        (followedSnap.root.lineage [n]) = some [n] := by
    decide +kernel
  intro i d snap a o h
  obtain ⟨hmem, hdoc, hsnap, hsub, htask⟩ := h
  obtain ⟨rfl, -, hsome⟩ := loneStore_eq_some hdoc
  rw [hsome, Option.some.injEq] at hsnap
  subst hsnap
  have hprefix : d.prefixes .task = none := by
    rw [loneStore, Store.put, Function.update_self, Option.some.injEq] at hdoc
    rw [← hdoc]
    rfl
  have hflat : ∀ c ∈ followedSnap.root.children, c.children = [] := by
    intro c hc
    obtain ⟨info, -, rfl⟩ := List.mem_map.mp hc
    rfl
  rcases sub_of_flat hflat hsub with ⟨-, rfl⟩ | ⟨n, rfl, hn⟩
  · exact absurd htask (by decide)
  · have hlt : n < 2 := (List.getElem?_eq_some_iff.mp hn).1
    obtain ⟨hclone, hnode⟩ := hfirst n hlt
    rw [← hprefix] at hnode
    exact (projectNodeForDocTask_eq_clone hdocs hmem hdoc hsome hsub htask hclone).mp hnode

end TaskjugglerLsp
