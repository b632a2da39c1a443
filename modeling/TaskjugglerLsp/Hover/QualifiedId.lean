import TaskjugglerLsp.ProjectTree.Resolution

/-!
# Where the qualified ids end

`sym_qualified_id` and `project_node_hover_markdown` of `hover.c`, against the
dotted path of a node: the ids of the nodes of its kind around it.

* `symQualifiedId_eq_dottedPath`, `projectQualifiedId_eq_dottedPath`: there is
  room for 64 ids, and the id is the whole path exactly when there are no more;
* `TaskPath.findTask_iff`: the id of a task at the end of a path of tasks leads
  back to it exactly when the path is no longer.
-/

namespace TaskjugglerLsp

open Lib

/-! ### The dotted path of a node -/

section DottedPath

variable {S : Type*} (keyword : S → ℕ) (id : S → Option CStr)

/-- The ids of the nodes of its kind on the way from a node to the root, itself first. -/
def idsOfKind : List S → List CStr
  | [] => []
  | node :: above =>
    ((node :: above).filter fun s => keyword s == keyword node && (id s).any (· != [])).map
      fun s => (id s).getD []

/-- The ids from the outermost ancestor of its kind down to a node that has one. -/
def dottedPath (lineage : List S) : CStr :=
  match lineage.head?.bind id with
  | none => []
  | some _ => [46].intercalate (idsOfKind keyword id lineage).reverse

variable {keyword id}

theorem ne_nil_of_mem_idsOfKind {lineage : List S} {w : CStr}
    (h : w ∈ idsOfKind keyword id lineage) : w ≠ [] := by
  cases lineage with
  | nil => cases h
  | cons node above =>
    rw [idsOfKind, List.mem_map] at h
    obtain ⟨s, hs, rfl⟩ := h
    have hid := (List.mem_filter.mp hs).2
    cases hsid : id s with
    | none => simp [hsid] at hid
    | some w => simpa [hsid] using And.right (by simpa [hsid] using hid)

end DottedPath

section Intercalate

variable {α : Type*}

theorem length_intercalate_lt_cons (sep : α) {w : List α} (hw : w ≠ []) (l : List (List α)) :
    ([sep].intercalate l).length < ([sep].intercalate (w :: l)).length := by
  have hpos : 0 < w.length := List.length_pos_iff.mpr hw
  cases l with
  | nil => simpa [List.intercalate] using hpos
  | cons v l =>
    rw [List.intercalate_cons_cons]
    simp only [List.length_append, List.length_cons, List.length_nil]
    omega

theorem length_intercalate_lt_append (sep : α) {d : List (List α)} (hd : ∀ w ∈ d, w ≠ [])
    (hne : d ≠ []) (l : List (List α)) :
    ([sep].intercalate l).length < ([sep].intercalate (d ++ l)).length := by
  induction d with
  | nil => exact absurd rfl hne
  | cons w d ih =>
    have hcons := length_intercalate_lt_cons sep (hd w List.mem_cons_self) (d ++ l)
    rw [List.cons_append]
    by_cases hnil : d = []
    · subst hnil
      exact hcons
    · exact (ih (fun v hv => hd v (List.mem_cons_of_mem _ hv)) hnil).trans hcons

/-- **The first so many of some words**, joined, are all of them joined only if
there are no others. -/
theorem intercalate_take_reverse_iff {sep : α} {n : ℕ} {l : List (List α)} (hl : ∀ w ∈ l, w ≠ []) :
    [sep].intercalate (l.take n).reverse = [sep].intercalate l.reverse ↔ l.length ≤ n := by
  constructor
  · intro heq
    by_contra hlen
    have hdrop : (l.drop n).reverse ≠ [] := by
      rw [Ne, List.reverse_eq_nil_iff, List.drop_eq_nil_iff]
      exact hlen
    have hwords : ∀ w ∈ (l.drop n).reverse, w ≠ [] :=
      fun w hw => hl w (List.mem_of_mem_drop (List.mem_reverse.mp hw))
    have hlt := length_intercalate_lt_append sep hwords hdrop (l.take n).reverse
    rw [← List.reverse_append, List.take_append_drop, heq] at hlt
    exact lt_irrefl _ hlt
  · intro hlen
    rw [List.take_of_length_le hlen]

end Intercalate

/-! ### The ids in a document -/

/-- The dotted path of a declaration. -/
def TjInfo.dottedPath (lineage : List TjInfo) : CStr :=
  TaskjugglerLsp.dottedPath TjInfo.keyword TjInfo.id lineage

/-- How many ids it has. -/
def TjInfo.pathLength (lineage : List TjInfo) : ℕ :=
  (idsOfKind TjInfo.keyword TjInfo.id lineage).length

theorem symQualifiedId_eq {sym : TjInfo} {above : List TjInfo} {id : CStr} (hid : sym.id = some id) :
    symQualifiedId (sym :: above) =
      [46].intercalate ((idsOfKind TjInfo.keyword TjInfo.id (sym :: above)).take 64).reverse := by
  rw [symQualifiedId, hid]
  simp only
  rw [idsOfKind, ← List.map_take, ← List.map_reverse]
  by_cases hchain : ((sym :: above).filter sym.qualifies).take 64 = []
  · have hnil : id = [] := by
      by_contra hne
      rw [List.filter_cons_of_pos (by simp [TjInfo.qualifies, hid, hne])] at hchain
      cases hchain
    rw [if_pos hchain, hnil]
    show [] = [46].intercalate
      ((((sym :: above).filter sym.qualifies).take 64).reverse.map fun s => s.id.getD [])
    rw [hchain]
    rfl
  · rw [if_neg hchain]
    rfl

/-- **The qualified id** of a declaration is its dotted path exactly when the path
has at most 64 ids. -/
theorem symQualifiedId_eq_dottedPath (sym : TjInfo) (above : List TjInfo) :
    symQualifiedId (sym :: above) = TjInfo.dottedPath (sym :: above) ↔
      sym.id = none ∨ TjInfo.pathLength (sym :: above) ≤ 64 := by
  cases hid : sym.id with
  | none => simp [symQualifiedId, TjInfo.dottedPath, dottedPath, hid]
  | some id =>
    have hpath : TjInfo.dottedPath (sym :: above) =
        [46].intercalate (idsOfKind TjInfo.keyword TjInfo.id (sym :: above)).reverse := by
      simp [TjInfo.dottedPath, dottedPath, hid]
    rw [symQualifiedId_eq hid, hpath,
      intercalate_take_reverse_iff fun w hw => ne_nil_of_mem_idsOfKind hw]
    simp [TjInfo.pathLength]

/-! ### The ids in a project tree -/

/-- The node at an address of a project tree and those it stands in, up to the root. -/
def ProjectNode.lineage (root : ProjectNode) (a : List ℕ) : List ProjectInfo :=
  ((Descent.along ProjectNode.children root a).map (·.info)).reverse ++ [root.info]

/-- Whether a node gives a segment to the qualified id of `node`. -/
def ProjectInfo.qualifies (node n : ProjectInfo) : Bool :=
  n.keyword == node.keyword && n.id.any (· != [])

/-- The qualified id that `project_node_hover_markdown` computes. -/
def projectQualifiedId : List ProjectInfo → CStr
  | [] => []
  | node :: above =>
    match node.id with
    | none => []
    | some _ =>
      let chain := ((node :: above).filter node.qualifies).take 64
      [46].intercalate (chain.reverse.map fun n => n.id.getD [])

/-- `task_markdown`: `snprintf` counts the characters in an `int`. -/
def taskMarkdown (qid name : CStr) : Option CStr :=
  let out := cstr "**Task `" ++ qid ++ cstr "` — " ++ name
  if out.length < 2 ^ 31 then some out else none

/-- `project_node_hover_markdown`. -/
def projectNodeHoverMarkdown (lineage : List ProjectInfo) : Option CStr :=
  taskMarkdown (projectQualifiedId lineage) ((lineage.head?.bind (·.name)).getD [])

/-- The dotted path of a node of a project tree. -/
def ProjectInfo.dottedPath (lineage : List ProjectInfo) : CStr :=
  TaskjugglerLsp.dottedPath ProjectInfo.keyword ProjectInfo.id lineage

/-- How many ids it has. -/
def ProjectInfo.pathLength (lineage : List ProjectInfo) : ℕ :=
  (idsOfKind ProjectInfo.keyword ProjectInfo.id lineage).length

theorem projectQualifiedId_eq {node : ProjectInfo} {above : List ProjectInfo} {id : CStr}
    (hid : node.id = some id) :
    projectQualifiedId (node :: above) = [46].intercalate
      ((idsOfKind ProjectInfo.keyword ProjectInfo.id (node :: above)).take 64).reverse := by
  rw [projectQualifiedId, hid, idsOfKind, ← List.map_take, ← List.map_reverse]
  rfl

/-- **The qualified id** of a node of a project tree is its dotted path exactly when
the path has at most 64 ids. -/
theorem projectQualifiedId_eq_dottedPath (node : ProjectInfo) (above : List ProjectInfo) :
    projectQualifiedId (node :: above) = ProjectInfo.dottedPath (node :: above) ↔
      node.id = none ∨ ProjectInfo.pathLength (node :: above) ≤ 64 := by
  cases hid : node.id with
  | none => simp [projectQualifiedId, ProjectInfo.dottedPath, dottedPath, hid]
  | some id =>
    have hpath : ProjectInfo.dottedPath (node :: above) = [46].intercalate
        (idsOfKind ProjectInfo.keyword ProjectInfo.id (node :: above)).reverse := by
      simp [ProjectInfo.dottedPath, dottedPath, hid]
    rw [projectQualifiedId_eq hid, hpath,
      intercalate_take_reverse_iff fun w hw => ne_nil_of_mem_idsOfKind hw]
    simp [ProjectInfo.pathLength]

/-! ### The way back -/

/-- An address along which every node is a task, and the only one of its id among
its siblings. -/
inductive TaskPath : ProjectNode → List ℕ → Prop
  | here (t : ProjectNode) : TaskPath t []
  | step {t c : ProjectNode} {i : ℕ} {id : CStr} {a : List ℕ} :
    t.children[i]? = some c → taskName c = some id → id ≠ [] → 46 ∉ id →
    (∀ j c', t.children[j]? = some c' → taskName c' = some id → j = i) →
    TaskPath c a → TaskPath t (i :: a)

theorem taskName_eq_some {c : ProjectNode} {id : CStr} :
    taskName c = some id ↔ c.info.keyword = kwTask ∧ c.info.id = some id := by
  unfold taskName
  by_cases h : c.info.keyword = kwTask
  · simp [h]
  · simp [h]

theorem TaskPath.follows {t : ProjectNode} {a : List ℕ} (h : TaskPath t a) :
    ∃ ids, FirstTasks t a ids ∧ (∀ id ∈ ids, id ≠ [] ∧ 46 ∉ id) := by
  induction h with
  | here t => exact ⟨[], .here t, by simp⟩
  | @step t c i id a hc hname hne hdot honly _ ih =>
    obtain ⟨ids, hids, hgood⟩ := ih
    refine ⟨id :: ids, .step hc hname (fun j hj c' hc' hname' => ?_) hids, ?_⟩
    · exact absurd (honly j c' hc' hname') (Nat.ne_of_lt hj)
    · intro w hw
      rcases List.mem_cons.mp hw with rfl | hw
      · exact ⟨hne, hdot⟩
      · exact hgood w hw

theorem filter_tasks {infos : List ProjectInfo} {ids : List CStr}
    (h : infos.map (fun s => if s.keyword = kwTask then s.id else none) = ids.map some)
    (hids : ∀ id ∈ ids, id ≠ []) :
    infos.filter (fun s => s.keyword == kwTask && s.id.any (· != [])) = infos ∧
      infos.map (fun s => s.id.getD []) = ids := by
  induction infos generalizing ids with
  | nil =>
    rw [List.map_nil, eq_comm, List.map_eq_nil_iff] at h
    subst h
    exact ⟨rfl, rfl⟩
  | cons s infos ih =>
    cases ids with
    | nil => cases h
    | cons id ids =>
      rw [List.map_cons, List.map_cons, List.cons.injEq] at h
      obtain ⟨hs, hrest⟩ := h
      obtain ⟨hfilter, hmap⟩ := ih hrest fun w hw => hids w (List.mem_cons_of_mem _ hw)
      have hne := hids id List.mem_cons_self
      by_cases htask : s.keyword = kwTask
      · rw [if_pos htask] at hs
        rw [List.filter_cons_of_pos (by simp [htask, hs, hne]), hfilter, List.map_cons, hmap, hs]
        exact ⟨rfl, rfl⟩
      · rw [if_neg htask] at hs
        cases hs

/-- The ids above a task, where all around it but the root are tasks. -/
theorem idsOfKind_lineage {root : ProjectNode} {a : List ℕ} {ids : List CStr}
    (hroot : root.info.keyword ≠ kwTask) (ha : a ≠ []) (hfollows : FirstTasks root a ids)
    (hids : ∀ id ∈ ids, id ≠ []) :
    (∃ node above id, root.lineage a = node :: above ∧ node.id = some id) ∧
      idsOfKind ProjectInfo.keyword ProjectInfo.id (root.lineage a) = ids.reverse := by
  have hnames := congrArg List.reverse hfollows.names_along
  obtain ⟨u, hu⟩ := hfollows.node
  have hlen := Descent.length_along hu
  rw [ProjectNode.lineage, ← List.map_reverse]
  rw [← List.map_reverse, ← List.map_reverse] at hnames
  rw [← List.length_reverse] at hlen
  generalize (Descent.along ProjectNode.children root a).reverse = nodes at hnames hlen
  have htasks : (nodes.map (·.info)).map (fun s => if s.keyword = kwTask then s.id else none) =
      ids.reverse.map some := by
    rw [List.map_map]
    exact hnames
  obtain ⟨hfilter, hmap⟩ := filter_tasks htasks fun id hid => hids id (List.mem_reverse.mp hid)
  cases nodes with
  | nil => exact absurd (List.length_eq_zero_iff.mp hlen.symm) ha
  | cons c nodes =>
    cases hrev : ids.reverse with
    | nil =>
      rw [hrev] at hnames
      cases hnames
    | cons id rest =>
      rw [hrev, List.map_cons, List.map_cons, List.cons.injEq, taskName_eq_some] at hnames
      obtain ⟨⟨htask, hid⟩, -⟩ := hnames
      refine ⟨⟨c.info, _, id, rfl, hid⟩, ?_⟩
      rw [List.map_cons, List.cons_append, idsOfKind, htask, ← List.cons_append, ← List.map_cons,
        List.filter_append, hfilter, List.filter_cons_of_neg (by simpa using fun h => absurd h hroot),
        List.filter_nil, List.append_nil, hmap, hrev]

/-- **The id of a task** whose ancestors are all tasks leads back to it exactly when
it is at most 64 levels below the root. -/
theorem TaskPath.findTask_iff {root : ProjectNode} {a : List ℕ} (h : TaskPath root a)
    (hroot : root.info.keyword ≠ kwTask) (ha : a ≠ []) :
    findTask [] root (splitDottedPath (some (projectQualifiedId (root.lineage a)))) = some a ↔
      a.length ≤ 64 := by
  obtain ⟨ids, hfollows, hids⟩ := h.follows
  obtain ⟨⟨node, above, id, hlineage, hid⟩, hchain⟩ :=
    idsOfKind_lineage hroot ha hfollows fun id hid => (hids id hid).1
  have hlen := hfollows.length
  have hne : (ids.reverse.take 64).reverse ≠ [] := by
    rw [Ne, List.reverse_eq_nil_iff, List.take_eq_nil_iff, List.reverse_eq_nil_iff,
      ← List.length_eq_zero_iff, hlen, List.length_eq_zero_iff]
    simpa using ha
  have hsegs : splitDottedPath (some (projectQualifiedId (root.lineage a))) =
      (ids.reverse.take 64).reverse := by
    rw [hlineage, projectQualifiedId_eq hid, ← hlineage, hchain, splitDottedPath]
    refine dottedSegments_intercalate (fun w hw => hids w ?_) hne
    exact List.mem_reverse.mp (List.mem_of_mem_take (List.mem_reverse.mp hw))
  rw [hsegs, findTask_eq_some]
  simp only [List.nil_append]
  constructor
  · rintro ⟨rel, -, hrel, rfl⟩
    have hrel := hrel.length
    rw [List.length_reverse, List.length_take, List.length_reverse] at hrel
    omega
  · intro hle
    rw [List.take_of_length_le (by rw [List.length_reverse]; omega), List.reverse_reverse]
    exact ⟨a, ha, hfollows, rfl⟩

/-- A node comes first among those on the way from it to the root. -/
theorem exists_reverse_along {N : Type*} {children : N → List N} {t u : N} {a : List ℕ}
    (h : Descent.node children t a = some u) :
    ∃ above, (Descent.along children t a).reverse ++ [t] = u :: above := by
  by_cases ha : a = []
  · subst ha
    rw [Descent.node, Option.some.injEq] at h
    exact ⟨[], by rw [h]; rfl⟩
  · obtain ⟨front, hfront⟩ := List.getLast?_eq_some_iff.mp (Descent.getLast?_along h ha)
    exact ⟨front.reverse ++ [t], by rw [hfront, List.reverse_append]; rfl⟩

theorem TjNode.exists_lineage {root o : TjNode} {a : List ℕ} (ho : root.sub a = some o) :
    ∃ above, root.lineage a = o.info :: above := by
  obtain ⟨above, habove⟩ := exists_reverse_along ho
  refine ⟨above.map (·.info), ?_⟩
  rw [TjNode.lineage, TjNode.path, ← List.map_reverse, ← List.map_cons, ← habove, List.map_append]
  rfl

theorem ProjectNode.exists_lineage {root n : ProjectNode} {a : List ℕ}
    (hn : nodeAt root a = some n) : ∃ above, root.lineage a = n.info :: above := by
  rw [nodeAt_eq] at hn
  obtain ⟨above, habove⟩ := exists_reverse_along hn
  refine ⟨above.map (·.info), ?_⟩
  rw [ProjectNode.lineage, ← List.map_reverse, ← List.map_cons, ← habove, List.map_append]
  rfl

/-- **Qualified ids are complete to a depth of 64.** -/
theorem qualified_id_depth (document : TjNode) (root : ProjectNode) :
    (∀ a o, document.sub a = some o →
      (symQualifiedId (document.lineage a) = TjInfo.dottedPath (document.lineage a) ↔
        o.info.id = none ∨ TjInfo.pathLength (document.lineage a) ≤ 64)) ∧
    (∀ a n, nodeAt root a = some n →
      (projectQualifiedId (root.lineage a) = ProjectInfo.dottedPath (root.lineage a) ↔
        n.info.id = none ∨ ProjectInfo.pathLength (root.lineage a) ≤ 64)) ∧
    (root.info.keyword = 0 → ∀ a, a ≠ [] → TaskPath root a →
      (findTask [] root (splitDottedPath (some (projectQualifiedId (root.lineage a)))) = some a ↔
        a.length ≤ 64)) := by
  refine ⟨fun a o ho => ?_, fun a n hn => ?_, fun hroot a ha h => ?_⟩
  · obtain ⟨above, habove⟩ := TjNode.exists_lineage ho
    rw [habove]
    exact symQualifiedId_eq_dottedPath o.info above
  · obtain ⟨above, habove⟩ := ProjectNode.exists_lineage hn
    rw [habove]
    exact projectQualifiedId_eq_dottedPath n.info above
  · exact h.findTask_iff (by rw [hroot]; decide) ha

/-- So many tasks of one id, each in the one before. -/
def nestedTasks : ℕ → ProjectNode
  | 0 => .empty
  | n + 1 =>
    let below := nestedTasks n
    .mk below.info
      [.mk ⟨kwTask, some [116], none, ⟨⟨0, 0⟩, ⟨0, 0⟩⟩, ⟨⟨0, 0⟩, ⟨0, 0⟩⟩, none, []⟩ below.children]

/-- The same in a document. -/
def nestedDeclarations : ℕ → TjNode
  | 0 => .mk ⟨0, none, none, ⟨⟨0, 0⟩, ⟨0, 0⟩⟩, ⟨⟨0, 0⟩, ⟨0, 0⟩⟩, []⟩ []
  | n + 1 =>
    let below := nestedDeclarations n
    .mk below.info
      [.mk ⟨kwTask, some [116], none, ⟨⟨0, 0⟩, ⟨0, 0⟩⟩, ⟨⟨0, 0⟩, ⟨0, 0⟩⟩, []⟩ below.children]

theorem taskPath_nestedTasks (n : ℕ) (info : ProjectInfo) :
    TaskPath (.mk info (nestedTasks n).children) (List.replicate n 0) := by
  induction n generalizing info with
  | zero => exact .here _
  | succ n ih =>
    have hname : taskName (.mk ⟨kwTask, some [116], none, ⟨⟨0, 0⟩, ⟨0, 0⟩⟩, ⟨⟨0, 0⟩, ⟨0, 0⟩⟩, none, []⟩
        (nestedTasks n).children) = some [116] := rfl
    refine .step rfl hname (by decide) (by decide) (fun j c' hc' _ => ?_) (ih _)
    obtain ⟨hlt, -⟩ := List.getElem?_eq_some_iff.mp hc'
    exact Nat.lt_one_iff.mp hlt

/-- The innermost of 65 tasks gets the id of the one around it, and leads to that. -/
theorem qualified_id_of_65_tasks :
    symQualifiedId ((nestedDeclarations 65).lineage (List.replicate 65 0)) ≠
      TjInfo.dottedPath ((nestedDeclarations 65).lineage (List.replicate 65 0)) ∧
    projectQualifiedId ((nestedTasks 65).lineage (List.replicate 65 0)) ≠
      ProjectInfo.dottedPath ((nestedTasks 65).lineage (List.replicate 65 0)) ∧
    TaskPath (nestedTasks 65) (List.replicate 65 0) ∧
    findTask [] (nestedTasks 65)
      (splitDottedPath (some (projectQualifiedId ((nestedTasks 65).lineage
        (List.replicate 65 0))))) = some (List.replicate 64 0) :=
  ⟨by decide +kernel, by decide +kernel, taskPath_nestedTasks 65 _, by decide +kernel⟩

end TaskjugglerLsp
