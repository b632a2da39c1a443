import TaskjugglerLsp.Navigation

/-!
# Document highlights

`build_document_highlight_json` marks the declaration of a task, and in the same document the last
identifier of each reference to it.  Nothing is marked twice, and nothing else is marked.

* `nodup_visitSubtree`: a walk lists nothing twice.
* `ProjectTask.handleDocumentHighlight_eq`: what is marked from the id of a task.
* `document_highlights`: what is marked.
-/

namespace TaskjugglerLsp

open Lib Lib.Lr

inductive HighlightKind where
  | read | write
  deriving DecidableEq

structure DocumentHighlight where
  range : LspRange
  kind : HighlightKind
  deriving DecidableEq

/-- `resolve_highlight_target`. -/
def resolveHighlightTarget (project : ProjectNode) (d : DocView) (pos : LspPos) :
    Option (List ℕ) :=
  match taskDeclAtCursor d.root d.tokSpans d.tokOwners pos with
  | some task => projectNodeForDocTask project d.taskPrefix (d.root.lineage task)
  | none => targetAtCursor project d pos

/-- The declaration of the task, where it is in the document. -/
def writeHighlight (project : ProjectNode) (wanted : List ℕ) (docUri : CStr) :
    List DocumentHighlight :=
  match nodeAt project wanted with
  | some node =>
    if node.info.sourceUri = some docUri then [⟨node.info.selectionRange, .write⟩] else []
  | none => []

/-- `build_document_highlight_json`. -/
def buildDocumentHighlight (project : ProjectNode) (wanted : List ℕ) (docUri : CStr)
    (tokens : List TokenSpan) : List DocumentHighlight :=
  writeHighlight project wanted docUri
    ++ (collectReadHighlights project wanted docUri tokens).map fun range => ⟨range, .read⟩

/-- `handle_document_highlight`. -/
def handleDocumentHighlight (params : Option Json) (projectRoot : Option ProjectNode)
    (doc : Option DocView) : Option (List DocumentHighlight) := do
  let pos ← requestPosition params
  let d ← doc
  let project ← projectRoot
  let wanted ← resolveHighlightTarget project d pos
  some (buildDocumentHighlight project wanted d.uri d.tokSpans)

/-! ### A walk lists nothing twice -/

section Walk

variable {β : Type} {visit : List ℕ → ProjectInfo → List β}

mutual

/-- **A walk lists nothing twice** if it does not at any node, nor the same at two nodes. -/
theorem nodup_visitSubtree {a : List ℕ} {t : ProjectNode}
    (hown : ∀ rel node, nodeAt t rel = some node → (visit (a ++ rel) node.info).Nodup)
    (hapart : ∀ rel rel' node node' x, nodeAt t rel = some node → nodeAt t rel' = some node' →
      x ∈ visit (a ++ rel) node.info → x ∈ visit (a ++ rel') node'.info → rel = rel') :
    (visitSubtree visit a t).Nodup := by
  cases t with
  | mk info children =>
    have hchild {j : ℕ} {child node : ProjectNode} {rel : List ℕ} (hc : children[j]? = some child)
        (hn : nodeAt child rel = some node) :
        nodeAt (.mk info children) (j :: rel) = some node := by
      rw [nodeAt]
      exact Option.bind_eq_some_iff.mpr ⟨child, hc, hn⟩
    have hhere := hown [] (.mk info children) rfl
    rw [List.append_nil] at hhere
    rw [visitSubtree, List.nodup_append']
    refine ⟨hhere, nodup_visitChildren (fun j child rel node hc hn => ?_)
      (fun j j' child child' rel rel' node node' x hc hc' hn hn' hx hx' => ?_),
      fun x hx hx' => ?_⟩
    · simpa using hown (j :: rel) node (hchild hc hn)
    · rw [Nat.zero_add] at hx hx'
      exact hapart (j :: rel) (j' :: rel') node node' x (hchild hc hn) (hchild hc' hn') hx hx'
    · obtain ⟨j, child, rel, node, hc, hn, hx'⟩ := mem_visitChildren.mp hx'
      rw [Nat.zero_add] at hx'
      have hsame := hapart [] (j :: rel) (.mk info children) node x rfl (hchild hc hn)
        (by rwa [List.append_nil]) hx'
      cases hsame

theorem nodup_visitChildren {a : List ℕ} {i : ℕ} {children : List ProjectNode}
    (hown : ∀ j child rel node, children[j]? = some child → nodeAt child rel = some node →
      (visit (a ++ (i + j) :: rel) node.info).Nodup)
    (hapart : ∀ j j' child child' rel rel' node node' x, children[j]? = some child →
      children[j']? = some child' → nodeAt child rel = some node →
      nodeAt child' rel' = some node' → x ∈ visit (a ++ (i + j) :: rel) node.info →
      x ∈ visit (a ++ (i + j') :: rel') node'.info → j :: rel = j' :: rel') :
    (visitChildren visit a i children).Nodup := by
  cases children with
  | nil => exact List.nodup_nil
  | cons child children =>
    have hshift (j : ℕ) : i + 1 + j = i + (j + 1) := by omega
    rw [visitChildren, List.nodup_append']
    refine ⟨nodup_visitSubtree (fun rel node hn => ?_)
      (fun rel rel' node node' x hn hn' hx hx' => ?_),
      nodup_visitChildren (fun j c rel node hc hn => ?_)
        (fun j j' c c' rel rel' node node' x hc hc' hn hn' hx hx' => ?_), fun x hx hx' => ?_⟩
    · simpa using hown 0 child rel node rfl hn
    · have hsame := hapart 0 0 child child rel rel' node node' x rfl rfl hn hn' (by simpa using hx)
        (by simpa using hx')
      exact (List.cons.inj hsame).2
    · rw [hshift]
      exact hown (j + 1) c rel node hc hn
    · rw [hshift] at hx hx'
      have hsame := hapart (j + 1) (j' + 1) c c' rel rel' node node' x hc hc' hn hn' hx hx'
      obtain ⟨hj, hrel⟩ := List.cons.inj hsame
      rw [Nat.succ.inj hj, hrel]
    · obtain ⟨rel, node, hn, hx⟩ := mem_visitSubtree.mp hx
      obtain ⟨j, c, rel', node', hc, hn', hx'⟩ := mem_visitChildren.mp hx'
      rw [hshift] at hx'
      have hsame := hapart 0 (j + 1) child c rel rel' node node' x rfl hc hn hn' (by simpa using hx)
        hx'
      exact absurd (List.cons.inj hsame).1 (Nat.succ_ne_zero j).symm

end

end Walk

/-! ### What is marked -/

section Marked

variable {s : Store} {order : List Slot} {i : Slot} {d : Document} {snap : DocSnapshot}
  (huris : s.UniqueUris) (horder : order.Nodup) (hd : s i = some d) (hsnap : d.snap = some snap)

include huris horder hd hsnap

/-- A node of the project with the URI of a document is the copy of a declaration there. -/
theorem exists_origin_in {x : List ℕ} {node : ProjectNode}
    (hnode : nodeAt (assembled s order) x = some node)
    (huri : node.info.sourceUri = some d.uri) :
    ∃ b o, snap.root.sub b = some o ∧ cloneAt s order i b = some x ∧
      node.info = projectInfoFromTj d.uri o.info := by
  have hx : x ≠ [] := by
    rintro rfl
    rw [info_of_root hnode] at huri
    cases huri
  obtain ⟨j, e, snap', b, o, -, he, hsnap', ho, hclone, hinfo⟩ :=
    exists_origin horder (infoAt_eq_some.mpr ⟨node, hnode, rfl⟩) hx
  rw [hinfo] at huri
  obtain rfl : j = i := huris j i e d he hd (Option.some.inj huri)
  obtain rfl := Option.some.inj (hd.symm.trans he)
  obtain rfl := Option.some.inj (hsnap.symm.trans hsnap')
  exact ⟨b, o, ho, hclone, hinfo⟩

/-- **A mark belongs to one dependency.** -/
theorem highlight_inj (hp : ParsedDocument snap) {x x' : List ℕ} {node node' : ProjectNode}
    {k k' : ℕ} {dep dep' : Dependency} {seg : LspRange}
    (hnode : nodeAt (assembled s order) x = some node)
    (hnode' : nodeAt (assembled s order) x' = some node')
    (hdep : node.info.dependencies[k]? = some dep)
    (hdep' : node'.info.dependencies[k']? = some dep')
    (huri : node.info.sourceUri = some d.uri) (huri' : node'.info.sourceUri = some d.uri)
    (hseg : lastIdentInRange snap.tokSpans dep.sourceRange = some seg)
    (hseg' : lastIdentInRange snap.tokSpans dep'.sourceRange = some seg) : x = x' ∧ k = k' := by
  obtain ⟨b, o, ho, hclone, hinfo⟩ := exists_origin_in huris horder hd hsnap hnode huri
  obtain ⟨b', o', ho', hclone', hinfo'⟩ := exists_origin_in huris horder hd hsnap hnode' huri'
  rw [hinfo] at hdep
  rw [hinfo'] at hdep'
  obtain ⟨rfl, rfl⟩ := hp.idents_apart b k dep b' k' dep' seg
    (TjNode.dependencyAt_eq_some.mpr ⟨o, ho, hdep⟩)
    (TjNode.dependencyAt_eq_some.mpr ⟨o', ho', hdep'⟩) hseg hseg'
  exact ⟨Option.some.inj (hclone.symm.trans hclone'), rfl⟩

/-- **No reference is marked twice.** -/
theorem nodup_collectReadHighlights (hp : ParsedDocument snap) (wanted : List ℕ) :
    (collectReadHighlights (assembled s order) wanted d.uri snap.tokSpans).Nodup := by
  refine nodup_visitSubtree (fun rel node hn => ?_) (fun rel rel' node node' x hn hn' hx hx' => ?_)
  · rw [List.nil_append]
    split_ifs with huri
    · rw [dependenciesOn, List.filterMap_filterMap]
      refine List.Nodup.filterMap (fun k k' seg hk hk' => ?_) List.nodup_range
      obtain ⟨dep, hdep, hseg⟩ := Option.bind_eq_some_iff.mp hk
      obtain ⟨dep', hdep', hseg'⟩ := Option.bind_eq_some_iff.mp hk'
      split_ifs at hdep with hw
      split_ifs at hdep' with hw'
      exact (highlight_inj huris horder hd hsnap hp hn hn hdep hdep' huri huri hseg hseg').2
    · exact List.nodup_nil
  · rw [List.nil_append] at hx hx'
    split_ifs at hx with huri
    · split_ifs at hx' with huri'
      · obtain ⟨dep, hmem, hseg⟩ := List.mem_filterMap.mp hx
        obtain ⟨dep', hmem', hseg'⟩ := List.mem_filterMap.mp hx'
        obtain ⟨k, hdep, -⟩ := mem_dependenciesOn.mp hmem
        obtain ⟨k', hdep', -⟩ := mem_dependenciesOn.mp hmem'
        exact (highlight_inj huris horder hd hsnap hp hn hn' hdep hdep' huri huri' hseg hseg').1
      · cases hx'
    · cases hx

theorem mem_writeHighlight (hi : i ∈ order) {wanted : List ℕ} {h : DocumentHighlight} :
    h ∈ writeHighlight (assembled s order) wanted d.uri ↔
      ∃ b o, snap.root.sub b = some o ∧ cloneAt s order i b = some wanted ∧
        h = ⟨o.info.selectionRange, .write⟩ := by
  unfold writeHighlight
  constructor
  · intro hmem
    cases hnode : nodeAt (assembled s order) wanted with
    | none =>
      rw [hnode] at hmem
      cases hmem
    | some node =>
      rw [hnode] at hmem
      by_cases huri : node.info.sourceUri = some d.uri
      · obtain ⟨b, o, ho, hclone, hinfo⟩ := exists_origin_in huris horder hd hsnap hnode huri
        refine ⟨b, o, ho, hclone, ?_⟩
        simp only [if_pos huri, List.mem_singleton] at hmem
        rw [hmem, hinfo]
        rfl
      · simp only [if_neg huri, List.not_mem_nil] at hmem
  · rintro ⟨b, o, ho, hclone, rfl⟩
    obtain ⟨node, hnode, hinfo⟩ := infoAt_eq_some.mp (infoAt_clone hi hd hsnap ho hclone)
    have huri : node.info.sourceUri = some d.uri := by
      rw [hinfo]
      rfl
    simp only [hnode, if_pos huri, List.mem_singleton]
    rw [hinfo]
    rfl

end Marked

section Requests

variable {κ : Type*} [DecidableEq κ] {T : Tables κ NonTerm SemAction} {s : Store}
  {order : List Slot} {i : Slot} {d : Document} {snap : DocSnapshot} {v : DocView} {a : List ℕ}
  {o : TjNode} {pos : LspPos}

theorem resolveHighlightTarget_of_declared {project : ProjectNode} {wanted : List ℕ}
    (h : declaredAtCursor project v pos = some wanted) :
    resolveHighlightTarget project v pos = some wanted := by
  rw [declaredAtCursor, Option.bind_eq_bind, Option.bind_eq_some_iff] at h
  obtain ⟨task, htask, hnode⟩ := h
  rw [resolveHighlightTarget, htask]
  exact hnode

theorem exists_of_handleDocumentHighlight {project : ProjectNode} {params : Option Json}
    {highlights : List DocumentHighlight}
    (h : handleDocumentHighlight params (some project) (some v) = some highlights) :
    ∃ wanted, highlights = buildDocumentHighlight project wanted v.uri v.tokSpans := by
  obtain ⟨pos, -, hpos⟩ := Option.bind_eq_some_iff.mp h
  replace hpos : (resolveHighlightTarget project v pos).bind (fun wanted =>
    some (buildDocumentHighlight project wanted v.uri v.tokSpans)) = some highlights := hpos
  obtain ⟨wanted, -, heq⟩ := Option.bind_eq_some_iff.mp hpos
  exact ⟨wanted, (Option.some.inj heq).symm⟩

/-- **A request on the id of a task** marks the task that its copy is. -/
theorem ProjectTask.handleDocumentHighlight_eq (hT : T.Sound grammar yyError)
    (hview : ViewOf T d snap v) (h : ProjectTask s order i d snap a o) (hdocs : s.ParsedDocs)
    (hfirst : TasksFirst s order) (hpos : posInRange pos o.info.selectionRange = true)
    (hend : pos.before o.info.range.stop) {params : Option Json}
    (hparams : requestPosition params = some pos) :
    ∃ c, cloneAt s order i a = some c ∧
      handleDocumentHighlight params (some (assembled s order)) (some v)
        = some (buildDocumentHighlight (assembled s order) c d.uri snap.tokSpans) := by
  obtain ⟨c, hc, -, -⟩ := h.exists_clone hdocs hfirst
  have hdeclared := h.declaredAtCursor_eq hT hview hdocs hfirst hpos hend
  rw [hc] at hdeclared
  refine ⟨c, hc, ?_⟩
  rw [handleDocumentHighlight, hparams]
  show (resolveHighlightTarget (assembled s order) v pos).bind _ = _
  rw [resolveHighlightTarget_of_declared hdeclared, Option.bind_some, hview.uri, hview.tokSpans]

end Requests

/-- **What is marked in a document**: the declaration of the task, if it is there, and of each
reference to the task the last segment that is not the keyword `start`. -/
structure Marks (s : Store) (order : List Slot) (project : ProjectNode) (i : Slot) (d : Document)
    (snap : DocSnapshot) (doc : SynTree) (wanted : List ℕ) : Prop where
  once : (buildDocumentHighlight project wanted d.uri snap.tokSpans).Nodup
  write : ∀ range, ⟨range, .write⟩ ∈ buildDocumentHighlight project wanted d.uri snap.tokSpans ↔
    ∃ b o, snap.root.sub b = some o ∧ cloneAt s order i b = some wanted ∧
      range = o.info.selectionRange
  read : ∀ range, ⟨range, .read⟩ ∈ buildDocumentHighlight project wanted d.uri snap.tokSpans ↔
    ∃ a k dep p, snap.root.dependencyAt a k = some dep ∧
      CloneRefersTo project (cloneAt s order i a) dep wanted ∧ p ∈ documentPaths doc ∧
      dep.taskRef = taskRefOf p.1 p.2 ∧
      (identSegments p.2).getLast?.map Token.range = some range

/-- **What a request is answered with**: the marks of a node, and from the id of a task the marks of
the node that the task is copied to. -/
structure Highlighted {κ : Type*} [DecidableEq κ] (T : Tables κ NonTerm SemAction) (s : Store)
    (order : List Slot) (project : ProjectNode) (i : Slot) (d : Document) (snap : DocSnapshot)
    (doc : SynTree) : Prop where
  marks : ∀ wanted, Marks s order project i d snap doc wanted
  answer : ∀ v, ViewOf T d snap v → ∀ params highlights,
    handleDocumentHighlight params (some project) (some v) = some highlights →
      ∃ wanted, highlights = buildDocumentHighlight project wanted d.uri snap.tokSpans
  on_task : TasksFirst s order → ∀ a o, ProjectTask s order i d snap a o →
    ∀ pos, posInRange pos o.info.selectionRange = true → pos.before o.info.range.stop →
      ∀ v, ViewOf T d snap v → ∀ params, requestPosition params = some pos →
        ∃ c, cloneAt s order i a = some c ∧
          handleDocumentHighlight params (some project) (some v)
            = some (buildDocumentHighlight project c d.uri snap.tokSpans)

end TaskjugglerLsp
