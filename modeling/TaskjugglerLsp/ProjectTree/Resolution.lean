import TaskjugglerLsp.Lib.Descent
import TaskjugglerLsp.Workspace.Assembly

/-!
# What a dependency refers to

The resolution half of `project_tree.c`, with `sym_qualified_id` of `hover.c`,
and the walks of `references.c` and `document_highlight.c` over the references
to a task.  A node of a document is given with the declarations around it, where
the source follows the pointers to the parents.

`resolveReference_eq_some` says what a reference refers to (`RefersTo`): a path
of tasks, each the first of its id, from the root or from so many levels above
its owner.  `projectNodeForDocTask_eq_some` says where the ids of a task of a
document lead in a project tree (`NamesLead`).
-/

namespace TaskjugglerLsp

open Lib

/-! ### Addresses in a document -/

namespace TjNode

/-- The declaration at an address. -/
def sub (root : TjNode) (a : List ℕ) : Option TjNode := Descent.node children root a

/-- The declarations that an address passes, the outermost first. -/
def path (root : TjNode) (a : List ℕ) : List TjInfo := (Descent.along children root a).map (·.info)

/-- The declaration at an address and those it is written in, up to the root. -/
def lineage (root : TjNode) (a : List ℕ) : List TjInfo := (root.path a).reverse ++ [root.info]

end TjNode

theorem nodeAt_eq (t : ProjectNode) (a : List ℕ) :
    nodeAt t a = Descent.node ProjectNode.children t a := by
  induction a generalizing t with
  | nil => rfl
  | cons i a ih =>
    rw [nodeAt, Descent.node]
    simp only [ih]

theorem nodeAt_append (t : ProjectNode) (a b : List ℕ) :
    nodeAt t (a ++ b) = (nodeAt t a).bind fun u => nodeAt u b := by
  simp only [nodeAt_eq, Descent.node_append]

/-! ### Qualified ids -/

/-- Whether a declaration gives a segment to the qualified id of `sym`. -/
def TjInfo.qualifies (sym s : TjInfo) : Bool :=
  s.keyword == sym.keyword && s.id.any (· != [])

/-- `sym_qualified_id`: the ids of the declarations of its kind around it, of
which there is room for 64, joined by dots. -/
def symQualifiedId : List TjInfo → CStr
  | [] => []
  | sym :: above =>
    match sym.id with
    | none => []
    | some id =>
      let chain := ((sym :: above).filter sym.qualifies).take 64
      if chain = [] then id
      else [46].intercalate (chain.reverse.map fun s => s.id.getD [])

/-! ### Resolution -/

/-- `child_task`. -/
def childTask (parent : ProjectNode) (id : CStr) : Option ℕ :=
  parent.children.findIdx? fun c => c.info.keyword == kwTask && c.info.id == some id

/-- The loop over the segments in `find_task` and `project_node_for_doc_task`. -/
def descendTasks : List CStr → ProjectNode → Option (List ℕ)
  | [], _ => some []
  | seg :: segs, cur => do
    let i ← childTask cur seg
    let next ← cur.children[i]?
    let address ← descendTasks segs next
    some (i :: address)

/-- `find_task`, among the children of the node at an address. -/
def findTask (base : List ℕ) (node : ProjectNode) (segs : List CStr) : Option (List ℕ) :=
  if segs = [] then none else (descendTasks segs node).map (base ++ ·)

/-- `split_dotted_path`. -/
def splitDottedPath : Option CStr → List CStr
  | none => []
  | some path => dottedSegments path

/-- The climb of `project_dep_resolve`, one level for each bang; the synthetic
root is the ceiling. -/
def climb (root : ProjectNode) : ℕ → List ℕ → Option (List ℕ)
  | 0, a => some a
  | _ + 1, [] => none
  | bangs + 1, i :: a => do
    let parent ← nodeAt root (i :: a).dropLast
    if parent.info.keyword = 0 then none else climb root bangs (i :: a).dropLast

/-- What `project_dep_resolve` finds for so many bangs and a path at the node at an address. -/
def resolveReference (root : ProjectNode) (owner : List ℕ) (bangCount : ℕ) (path : Option CStr) :
    Option (List ℕ) :=
  let segs := splitDottedPath path
  if segs = [] then none
  else if bangCount = 0 then findTask [] root segs
  else do
    let base ← climb root bangCount owner
    let ancestor ← nodeAt root base
    findTask base ancestor segs

/-- `project_dep_resolve`, on the node at an address. -/
def projectDepResolve (root : ProjectNode) (owner : List ℕ) (depIndex : ℕ) : Option (List ℕ) := do
  let node ← nodeAt root owner
  let dep ← node.info.dependencies[depIndex]?
  resolveReference root owner dep.bangCount dep.path

/-- `project_node_for_doc_task`. -/
def projectNodeForDocTask (root : ProjectNode) (taskPrefix : Option CStr) (lineage : List TjInfo) :
    Option (List ℕ) :=
  let qualifiedId := symQualifiedId lineage
  if qualifiedId = [] then none
  else do
    let start ← findNodeByDottedPath root taskPrefix .task
    let cur ← nodeAt root start
    let address ← descendTasks (dottedSegments qualifiedId) cur
    some (start ++ address)

/-- `project_resolve_dep_ref`, for the dependency of that ordinal. -/
def projectResolveDepRef (root : ProjectNode) (taskPrefix : Option CStr) (lineage : List TjInfo)
    (ordinal : ℕ) : Option (List ℕ) := do
  let mergedOwner ← projectNodeForDocTask root taskPrefix lineage
  let node ← nodeAt root mergedOwner
  if node.info.dependencies.length ≤ ordinal then none
  else projectDepResolve root mergedOwner ordinal

/-! ### References and highlights -/

section Walk

variable {β : Type} (visit : List ℕ → ProjectInfo → List β)

mutual

/-- A depth-first walk that appends what it finds at each node. -/
def visitSubtree (a : List ℕ) : ProjectNode → List β
  | .mk info children => visit a info ++ visitChildren a 0 children

/-- Its loop over the children. -/
def visitChildren (a : List ℕ) (i : ℕ) : List ProjectNode → List β
  | [] => []
  | child :: children => visitSubtree (a ++ [i]) child ++ visitChildren a (i + 1) children

end

end Walk

/-- A place in a source file. -/
structure Location where
  uri : Option CStr
  range : LspRange
  deriving DecidableEq, Repr

/-- The dependencies of a node that refer to `wanted`, in order. -/
def dependenciesOn (root : ProjectNode) (wanted a : List ℕ) (info : ProjectInfo) :
    List Dependency :=
  (List.range info.dependencies.length).filterMap fun i =>
    if projectDepResolve root a i = some wanted then info.dependencies[i]? else none

/-- `collect_refs_in_subtree`, as `build_references_json` calls it. -/
def collectRefs (root : ProjectNode) (wanted : List ℕ) : List Location :=
  visitSubtree (fun a info =>
    (dependenciesOn root wanted a info).map fun dep => ⟨info.sourceUri, dep.sourceRange⟩) [] root

/-- Whether `pos_cmp` puts the one position before the other. -/
def LspPos.before (a b : LspPos) : Prop :=
  a.line < b.line ∨ a.line = b.line ∧ a.character < b.character

instance (a b : LspPos) : Decidable (a.before b) := inferInstanceAs (Decidable (_ ∨ _))

/-- `last_ident_in_range`. -/
def lastIdentInRange (tokens : List TokenSpan) (range : LspRange) : Option LspRange :=
  ((tokens.filter fun t => t.tokenKind == tkIdent && !decide (t.start.before range.start)
    && !decide (range.stop.before t.start)).getLast?).map fun t => ⟨t.start, t.stop⟩

/-- `collect_read_highlights`, as `build_document_highlight_json` calls it. -/
def collectReadHighlights (root : ProjectNode) (wanted : List ℕ) (docUri : CStr)
    (tokens : List TokenSpan) : List LspRange :=
  visitSubtree (fun a info =>
    if info.sourceUri = some docUri then
      (dependenciesOn root wanted a info).filterMap fun dep =>
        lastIdentInRange tokens dep.sourceRange
    else []) [] root

/-! ### What the resolution finds -/

/-- The id of a task. -/
def taskName (c : ProjectNode) : Option CStr := if c.info.keyword = kwTask then c.info.id else none

/-- An address each step of which goes to the first task of its id. -/
abbrev FirstTasks : ProjectNode → List ℕ → List CStr → Prop :=
  Descent.Follows ProjectNode.children taskName

theorem nodeKindOf_eq_task {keyword : ℕ} : nodeKindOf keyword = .task ↔ keyword = kwTask := by
  unfold nodeKindOf
  split_ifs with htask
  · exact iff_of_true rfl htask
  all_goals exact iff_of_false (by simp) htask

theorem isNamed_task (seg : CStr) (c : ProjectNode) :
    c.isNamed .task seg = decide (taskName c = some seg) := by
  unfold ProjectNode.isNamed taskName
  by_cases h : c.info.keyword = kwTask
  · rw [nodeKindOf_eq_task.mpr h, if_pos h, Bool.eq_iff_iff]
    simp
  · have hk : (nodeKindOf c.info.keyword == NodeKind.task) = false := by
      rw [beq_eq_false_iff_ne]
      exact mt nodeKindOf_eq_task.mp h
    rw [hk, if_neg h]
    simp

theorem descendPath_task (segs : List CStr) (t : ProjectNode) :
    descendPath .task segs t = Descent.descend ProjectNode.children taskName segs t := by
  induction segs generalizing t with
  | nil => rfl
  | cons seg segs ih =>
    have hname : ProjectNode.isNamed .task seg = fun c => decide (taskName c = some seg) :=
      funext (isNamed_task seg)
    rw [descendPath, Descent.descend, hname]
    simp only [ih, Option.map_eq_bind]
    rfl

theorem descendTasks_eq (segs : List CStr) (t : ProjectNode) :
    descendTasks segs t = Descent.descend ProjectNode.children taskName segs t := by
  induction segs generalizing t with
  | nil => rfl
  | cons seg segs ih =>
    have hname : ∀ c : ProjectNode, (c.info.keyword == kwTask && c.info.id == some seg)
        = decide (taskName c = some seg) := by
      intro c
      unfold taskName
      rw [Bool.eq_iff_iff]
      by_cases h : c.info.keyword = kwTask
      · simp [h]
      · simp [h]
    rw [descendTasks, childTask, Descent.descend]
    simp only [hname, ih, Option.map_eq_bind]
    rfl

/-- Only the synthetic root is without a keyword. -/
structure IsProjectTree (root : ProjectNode) : Prop where
  root_keyword : root.info.keyword = 0
  keyword_ne : ∀ a node, nodeAt root a = some node → a ≠ [] → node.info.keyword ≠ 0

/-- **A climb** stops at the declaration so many levels up, and never at the root. -/
theorem climb_eq_some {root : ProjectNode} (hroot : IsProjectTree root) {bangs : ℕ} {a b : List ℕ}
    (ha : (nodeAt root a).isSome) :
    climb root bangs a = some b ↔
      (bangs = 0 ∨ bangs < a.length) ∧ b = a.take (a.length - bangs) := by
  induction bangs generalizing a with
  | zero =>
    rw [climb, Option.some.injEq, Nat.sub_zero, List.take_length]
    simp [eq_comm]
  | succ n ih =>
    cases a with
    | nil => simp [climb]
    | cons i a =>
      have hsplit := List.dropLast_concat_getLast (List.cons_ne_nil i a)
      obtain ⟨node, hnode⟩ := Option.isSome_iff_exists.mp ha
      rw [← hsplit, nodeAt_append, Option.bind_eq_some_iff] at hnode
      obtain ⟨parent, hparent, -⟩ := hnode
      rw [climb, hparent]
      simp only [Option.bind_eq_bind, Option.bind_some]
      cases a with
      | nil =>
        rw [List.dropLast_singleton, nodeAt, Option.some.injEq] at hparent
        subst hparent
        simp [hroot.root_keyword]
      | cons j a =>
        rw [if_neg (hroot.keyword_ne _ parent hparent (by simp)), ih (by rw [hparent]; rfl),
          List.dropLast_eq_take, List.take_take, List.length_take]
        simp only [List.length_cons]
        have hlen : min (a.length + 1 + 1 - 1) (a.length + 1 + 1) = a.length + 1 := by omega
        have hmin : min (a.length + 1 - n) (a.length + 1 + 1 - 1) = a.length + 1 - n := by omega
        have hsub : a.length + 1 + 1 - (n + 1) = a.length + 1 - n := by omega
        rw [hlen, hmin, hsub]
        refine and_congr_left fun _ => ?_
        omega

/-- What so many bangs and a path refer to: a path of tasks, each the first of its
id, from the root if there are no bangs, and from so many levels up if there are. -/
def RefersTo (root : ProjectNode) (owner : List ℕ) (bangCount : ℕ) (path : Option CStr)
    (target : List ℕ) : Prop :=
  ∃ base ancestor rel,
    (bangCount = 0 ∧ base = [] ∨ 0 < bangCount ∧ bangCount < owner.length ∧
      base = owner.take (owner.length - bangCount)) ∧
    nodeAt root base = some ancestor ∧ rel ≠ [] ∧
    FirstTasks ancestor rel (splitDottedPath path) ∧ target = base ++ rel

/-- What a dependency refers to. -/
def LeadsTo (root : ProjectNode) (owner : List ℕ) (dep : Dependency) (target : List ℕ) : Prop :=
  RefersTo root owner dep.bangCount dep.path target

theorem findTask_eq_some {base : List ℕ} {node : ProjectNode} {segs : List CStr}
    {target : List ℕ} :
    findTask base node segs = some target ↔
      ∃ rel, rel ≠ [] ∧ FirstTasks node rel segs ∧ target = base ++ rel := by
  unfold findTask
  by_cases hsegs : segs = []
  · rw [if_pos hsegs]
    subst hsegs
    constructor
    · intro h
      cases h
    · rintro ⟨rel, hrel, h, -⟩
      cases h
      exact absurd rfl hrel
  · rw [if_neg hsegs, descendTasks_eq, Option.map_eq_some_iff]
    constructor
    · rintro ⟨rel, h, rfl⟩
      have hf := Descent.descend_eq_some.mp h
      refine ⟨rel, fun hrel => hsegs ?_, hf, rfl⟩
      rw [← List.length_eq_zero_iff, hf.length, hrel]
      rfl
    · rintro ⟨rel, -, h, rfl⟩
      exact ⟨rel, Descent.descend_eq_some.mpr h, rfl⟩

/-- **A reference is resolved** to what it refers to. -/
theorem resolveReference_eq_some {root : ProjectNode} (hroot : IsProjectTree root)
    {owner target : List ℕ} (howner : (nodeAt root owner).isSome) {bangCount : ℕ}
    {path : Option CStr} :
    resolveReference root owner bangCount path = some target ↔
      RefersTo root owner bangCount path target := by
  unfold resolveReference RefersTo
  simp only [Option.bind_eq_bind]
  by_cases hsegs : splitDottedPath path = []
  · rw [if_pos hsegs, hsegs]
    constructor
    · intro h
      cases h
    · rintro ⟨base, ancestor, rel, -, -, hrel, h, -⟩
      cases h
      exact absurd rfl hrel
  · rw [if_neg hsegs]
    by_cases hbangs : bangCount = 0
    · rw [if_pos hbangs, findTask_eq_some]
      constructor
      · rintro ⟨rel, hrel, h, htarget⟩
        exact ⟨[], root, rel, .inl ⟨hbangs, rfl⟩, rfl, hrel, h, htarget⟩
      · rintro ⟨base, ancestor, rel, hbase, ha, hrel, h, rfl⟩
        rcases hbase with ⟨-, rfl⟩ | ⟨hpos, -⟩
        · obtain rfl := Option.some.inj ha
          exact ⟨rel, hrel, h, rfl⟩
        · omega
    · rw [if_neg hbangs]
      simp only [Option.bind_eq_some_iff, climb_eq_some hroot howner, findTask_eq_some]
      constructor
      · rintro ⟨base, ⟨hle, rfl⟩, ancestor, ha, rel, hrel, h, rfl⟩
        exact ⟨_, ancestor, rel, .inr ⟨by omega, by omega, rfl⟩, ha, hrel, h, rfl⟩
      · rintro ⟨base, ancestor, rel, hbase, ha, hrel, h, rfl⟩
        rcases hbase with ⟨hzero, -⟩ | ⟨hpos, hlt, rfl⟩
        · exact absurd hzero hbangs
        · exact ⟨_, ⟨.inr hlt, rfl⟩, ancestor, ha, rel, hrel, h, rfl⟩

theorem projectDepResolve_eq_some {root node : ProjectNode} (hroot : IsProjectTree root)
    {owner target : List ℕ} {i : ℕ} {dep : Dependency} (hnode : nodeAt root owner = some node)
    (hdep : node.info.dependencies[i]? = some dep) :
    projectDepResolve root owner i = some target ↔ LeadsTo root owner dep target := by
  unfold projectDepResolve LeadsTo
  simp only [hnode, hdep, Option.bind_eq_bind, Option.bind_some]
  exact resolveReference_eq_some hroot (by rw [hnode]; rfl)

/-! ### Where the ids of a task lead -/

/-- What the lexer promises of the id of a task. -/
def TjInfo.HasTaskId (info : TjInfo) : Prop :=
  info.keyword = kwTask → ∃ id, info.id = some id ∧ id ≠ [] ∧ 46 ∉ id

/-- The ids of the innermost 64 tasks of a lineage, the outermost first. -/
def taskIds (lineage : List TjInfo) : List CStr :=
  (((lineage.filter fun s => s.keyword == kwTask).take 64).map fun s => s.id.getD []).reverse

theorem mem_taskIds {lineage : List TjInfo} (hids : ∀ s ∈ lineage, s.HasTaskId) {id : CStr}
    (h : id ∈ taskIds lineage) : id ≠ [] ∧ 46 ∉ id := by
  rw [taskIds, List.mem_reverse, List.mem_map] at h
  obtain ⟨s, hs, rfl⟩ := h
  obtain ⟨hmem, hkw⟩ := List.mem_filter.mp (List.mem_of_mem_take hs)
  obtain ⟨id, hid, hne, hdot⟩ := hids s hmem (by simpa using hkw)
  rw [hid]
  exact ⟨hne, hdot⟩

theorem dottedSegments_intercalate {ids : List CStr} (hids : ∀ id ∈ ids, id ≠ [] ∧ 46 ∉ id)
    (hne : ids ≠ []) : dottedSegments ([46].intercalate ids) = ids := by
  rw [dottedSegments, List.splitOn_intercalate 46 (fun id hid => (hids id hid).2) hne,
    List.filter_eq_self]
  intro id hid
  simpa using (hids id hid).1

/-- The qualified id of a task is made of the ids of the tasks around it. -/
theorem dottedSegments_symQualifiedId {sym : TjInfo} {above : List TjInfo}
    (htask : sym.keyword = kwTask) (hids : ∀ s ∈ sym :: above, s.HasTaskId) :
    symQualifiedId (sym :: above) ≠ [] ∧
      dottedSegments (symQualifiedId (sym :: above)) = taskIds (sym :: above) := by
  have hfilter : (sym :: above).filter sym.qualifies
      = (sym :: above).filter fun s => s.keyword == kwTask := by
    refine List.filter_congr fun s hs => ?_
    unfold TjInfo.qualifies
    rw [htask]
    by_cases hkw : s.keyword = kwTask
    · obtain ⟨id, hid, hne, -⟩ := hids s hs hkw
      simp [hid, hne]
    · simp [hkw]
  have hcons : taskIds (sym :: above) ≠ [] := by
    rw [taskIds, List.filter_cons_of_pos (by simpa using htask)]
    simp
  obtain ⟨id, hid, hne, -⟩ := hids sym List.mem_cons_self htask
  have heq : symQualifiedId (sym :: above) = [46].intercalate (taskIds (sym :: above)) := by
    have hchain : ((sym :: above).filter fun s => s.keyword == kwTask).take 64 ≠ [] := by
      rw [List.filter_cons_of_pos (by simpa using htask)]
      simp
    rw [symQualifiedId, hid]
    simp only
    rw [hfilter, if_neg hchain, taskIds, List.map_reverse]
  have hsegs := dottedSegments_intercalate (fun id hid => mem_taskIds hids hid) hcons
  refine ⟨fun hnil => ?_, by rw [heq, hsegs]⟩
  rw [← heq, hnil] at hsegs
  exact hcons hsegs.symm

/-- The ids of a task of a document lead from the place of its prefix, by the
first task of each id, to a node. -/
def NamesLead (root : ProjectNode) (taskPrefix : Option CStr) (ids : List CStr) (w : List ℕ) :
    Prop :=
  ∃ start cur rel, findNodeByDottedPath root taskPrefix .task = some start ∧
    nodeAt root start = some cur ∧ FirstTasks cur rel ids ∧ w = start ++ rel

/-- **The node for a task of a document** is the one its ids lead to. -/
theorem projectNodeForDocTask_eq_some {root : ProjectNode} {taskPrefix : Option CStr}
    {sym : TjInfo} {above : List TjInfo} (htask : sym.keyword = kwTask)
    (hids : ∀ s ∈ sym :: above, s.HasTaskId) {w : List ℕ} :
    projectNodeForDocTask root taskPrefix (sym :: above) = some w ↔
      NamesLead root taskPrefix (taskIds (sym :: above)) w := by
  obtain ⟨hne, hsegs⟩ := dottedSegments_symQualifiedId htask hids
  unfold projectNodeForDocTask NamesLead
  simp only [if_neg hne, hsegs, descendTasks_eq, Option.bind_eq_bind, Option.bind_eq_some_iff,
    Descent.descend_eq_some, Option.some.injEq]
  constructor
  · rintro ⟨start, hstart, cur, hcur, rel, hrel, rfl⟩
    exact ⟨start, cur, rel, hstart, hcur, hrel, rfl⟩
  · rintro ⟨start, cur, rel, hstart, hcur, hrel, rfl⟩
    exact ⟨start, hstart, cur, hcur, rel, hrel, rfl⟩

/-! ### The walks over the references -/

section Walk

variable {β : Type} {visit : List ℕ → ProjectInfo → List β}

mutual

theorem mem_visitSubtree {x : β} {a : List ℕ} {t : ProjectNode} :
    x ∈ visitSubtree visit a t ↔
      ∃ rel node, nodeAt t rel = some node ∧ x ∈ visit (a ++ rel) node.info := by
  cases t with
  | mk info children =>
    rw [visitSubtree, List.mem_append, mem_visitChildren]
    constructor
    · rintro (h | ⟨j, child, rel, node, hc, hn, h⟩)
      · exact ⟨[], .mk info children, rfl, by rwa [List.append_nil]⟩
      · refine ⟨j :: rel, node, ?_, by simpa using h⟩
        rw [nodeAt]
        exact Option.bind_eq_some_iff.mpr ⟨child, hc, hn⟩
    · rintro ⟨rel, node, hn, h⟩
      cases rel with
      | nil =>
        rw [nodeAt, Option.some.injEq] at hn
        subst hn
        rw [List.append_nil] at h
        exact .inl h
      | cons j rel =>
        rw [nodeAt, Option.bind_eq_some_iff] at hn
        obtain ⟨child, hc, hn⟩ := hn
        exact .inr ⟨j, child, rel, node, hc, hn, by simpa using h⟩

theorem mem_visitChildren {x : β} {a : List ℕ} {i : ℕ} {children : List ProjectNode} :
    x ∈ visitChildren visit a i children ↔
      ∃ j child rel node, children[j]? = some child ∧ nodeAt child rel = some node ∧
        x ∈ visit (a ++ (i + j) :: rel) node.info := by
  cases children with
  | nil => simp [visitChildren]
  | cons child children =>
    rw [visitChildren, List.mem_append, mem_visitSubtree, mem_visitChildren]
    constructor
    · rintro (⟨rel, node, hn, h⟩ | ⟨j, c, rel, node, hc, hn, h⟩)
      · exact ⟨0, child, rel, node, rfl, hn, by simpa using h⟩
      · refine ⟨j + 1, c, rel, node, hc, hn, ?_⟩
        rwa [Nat.add_right_comm] at h
    · rintro ⟨j, c, rel, node, hc, hn, h⟩
      cases j with
      | zero =>
        rw [List.getElem?_cons_zero, Option.some.injEq] at hc
        subst hc
        exact .inl ⟨rel, node, hn, by simpa using h⟩
      | succ j =>
        refine .inr ⟨j, c, rel, node, hc, hn, ?_⟩
        rwa [Nat.add_right_comm]

end

end Walk

theorem mem_dependenciesOn {root : ProjectNode} {wanted a : List ℕ} {info : ProjectInfo}
    {dep : Dependency} :
    dep ∈ dependenciesOn root wanted a info ↔
      ∃ i, info.dependencies[i]? = some dep ∧ projectDepResolve root a i = some wanted := by
  rw [dependenciesOn, List.mem_filterMap]
  constructor
  · rintro ⟨i, -, h⟩
    split_ifs at h with hw
    exact ⟨i, h, hw⟩
  · rintro ⟨i, hi, hw⟩
    exact ⟨i, List.mem_range.mpr (List.getElem?_eq_some_iff.mp hi).1, by rwa [if_pos hw]⟩

/-- **The references to a task** are the places of the dependencies resolved to it. -/
theorem mem_collectRefs {root : ProjectNode} {wanted : List ℕ} {loc : Location} :
    loc ∈ collectRefs root wanted ↔
      ∃ a node i dep, nodeAt root a = some node ∧ node.info.dependencies[i]? = some dep ∧
        projectDepResolve root a i = some wanted ∧
        loc = ⟨node.info.sourceUri, dep.sourceRange⟩ := by
  rw [collectRefs, mem_visitSubtree]
  simp only [List.nil_append, List.mem_map, mem_dependenciesOn]
  constructor
  · rintro ⟨a, node, hn, dep, ⟨i, hi, hw⟩, rfl⟩
    exact ⟨a, node, i, dep, hn, hi, hw, rfl⟩
  · rintro ⟨a, node, i, dep, hn, hi, hw, rfl⟩
    exact ⟨a, node, hn, dep, ⟨i, hi, hw⟩, rfl⟩

/-- **The highlights of a task** are the last identifiers of the dependencies of
the document that are resolved to it. -/
theorem mem_collectReadHighlights {root : ProjectNode} {wanted : List ℕ} {docUri : CStr}
    {tokens : List TokenSpan} {seg : LspRange} :
    seg ∈ collectReadHighlights root wanted docUri tokens ↔
      ∃ a node i dep, nodeAt root a = some node ∧ node.info.dependencies[i]? = some dep ∧
        projectDepResolve root a i = some wanted ∧ node.info.sourceUri = some docUri ∧
        lastIdentInRange tokens dep.sourceRange = some seg := by
  rw [collectReadHighlights, mem_visitSubtree]
  simp only [List.nil_append]
  constructor
  · rintro ⟨a, node, hn, h⟩
    split_ifs at h with huri
    · obtain ⟨dep, hdep, hseg⟩ := List.mem_filterMap.mp h
      obtain ⟨i, hi, hw⟩ := mem_dependenciesOn.mp hdep
      exact ⟨a, node, i, dep, hn, hi, hw, huri, hseg⟩
    · cases h
  · rintro ⟨a, node, i, dep, hn, hi, hw, huri, hseg⟩
    refine ⟨a, node, hn, ?_⟩
    rw [if_pos huri]
    exact List.mem_filterMap.mpr ⟨dep, mem_dependenciesOn.mpr ⟨i, hi, hw⟩, hseg⟩

end TaskjugglerLsp
