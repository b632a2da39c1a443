import TaskjugglerLsp.ProjectTree.Clones
import TaskjugglerLsp.Workspace.Membership

/-!
# Definition against references and highlights

Go-to-definition finds the owner of a dependency by its ids
(`projectResolveDepRef`), and the walks over the references hold its clone.  The
ids lead to the clone exactly where it is the first task of its id at every level
(`FirstByName`), and there the two agree (`definition_agrees`).
-/

namespace TaskjugglerLsp

open Lib

/-! ### What the parser promises -/

/-- The dependency of that ordinal on the declaration at an address. -/
def TjNode.dependencyAt (root : TjNode) (a : List ℕ) (k : ℕ) : Option Dependency :=
  (root.sub a).bind fun o => o.info.dependencies[k]?

/-- What every parsed document is like: only the root is without a keyword, tasks
have ids without dots, and no two dependencies share a place or an identifier. -/
structure ParsedDocument (snap : DocSnapshot) : Prop where
  root_keyword : snap.root.info.keyword = 0
  keyword_ne : ∀ a o, snap.root.sub a = some o → a ≠ [] → o.info.keyword ≠ 0
  task_id : ∀ a o, snap.root.sub a = some o → o.info.HasTaskId
  ranges_apart : ∀ a k dep a' k' dep', snap.root.dependencyAt a k = some dep →
    snap.root.dependencyAt a' k' = some dep' → dep.sourceRange = dep'.sourceRange →
    a = a' ∧ k = k'
  idents_apart : ∀ a k dep a' k' dep' seg, snap.root.dependencyAt a k = some dep →
    snap.root.dependencyAt a' k' = some dep' →
    lastIdentInRange snap.tokSpans dep.sourceRange = some seg →
    lastIdentInRange snap.tokSpans dep'.sourceRange = some seg → a = a' ∧ k = k'

/-- Every document of the store is a parsed one. -/
def Store.ParsedDocs (s : Store) : Prop :=
  ∀ i d snap, s i = some d → d.snap = some snap → ParsedDocument snap

section Agreement

variable {s : Store} {order : List Slot} {i : Slot} {d : Document} {snap : DocSnapshot}
  {a : List ℕ} {o : TjNode}

theorem isProjectTree_assembled (hdocs : s.ParsedDocs) (horder : order.Nodup) :
    IsProjectTree (assembled s order) := by
  have hroot : infoAt (assembled s order) [] = some ProjectNode.empty.info := by
    rw [assembled_eq]
    exact extends_foldl _ _ _ _ rfl
  refine ⟨?_, fun a node hnode ha => ?_⟩
  · obtain ⟨node, hnode, hinfo⟩ := infoAt_eq_some.mp hroot
    rw [nodeAt, Option.some.injEq] at hnode
    rw [hnode, hinfo]
    decide
  · obtain ⟨i, d, snap, b, o, -, hd, hsnap, ho, hclone, hinfo⟩ :=
      exists_origin horder (infoAt_eq_some.mpr ⟨node, hnode, rfl⟩) ha
    rw [hinfo]
    refine (hdocs i d snap hd hsnap).keyword_ne b o ho ?_
    rintro rfl
    cases hclone

/-! ### The way to a clone -/

theorem infos_along {f : TjInfo → ProjectInfo} {t : ProjectNode} {u : TjNode}
    (h : ∀ b v, u.sub b = some v → infoAt t b = some (f v.info)) {b : List ℕ} {v : TjNode}
    (hv : u.sub b = some v) :
    (Descent.along ProjectNode.children t b).map (·.info) = (u.path b).map f := by
  induction b generalizing t u with
  | nil => rfl
  | cons j b ih =>
    obtain ⟨c, hc, hv⟩ := Descent.node_cons_eq_some.mp hv
    have hchild := h [j] c (Descent.node_cons_eq_some.mpr ⟨c, hc, rfl⟩)
    rw [infoAt_cons, Option.bind_eq_some_iff] at hchild
    obtain ⟨tc, htc, hinfo⟩ := hchild
    rw [infoAt, nodeAt, Option.map_some, Option.some.injEq] at hinfo
    have hih := ih (t := tc) (u := c) (fun b v hbv => by
      have := h (j :: b) v (Descent.node_cons_eq_some.mpr ⟨c, hc, hbv⟩)
      rwa [infoAt_cons, htc, Option.bind_some] at this) hv
    rw [Descent.along, htc, TjNode.path, Descent.along, hc, List.map_cons, List.map_cons,
      List.map_cons, hinfo, hih]
    rfl

theorem lineage_eq {root : TjNode} (ho : root.sub a = some o) (ha : a ≠ []) :
    ∃ above, root.lineage a = o.info :: above := by
  have hlast := Descent.getLast?_along ho ha
  obtain ⟨front, hfront⟩ := List.getLast?_eq_some_iff.mp hlast
  refine ⟨(front.map (·.info)).reverse ++ [root.info], ?_⟩
  rw [TjNode.lineage, TjNode.path, hfront, List.map_append, List.reverse_append]
  rfl

theorem hasTaskId_of_lineage (hp : ParsedDocument snap) {x : TjInfo}
    (hx : x ∈ snap.root.lineage a) : x.HasTaskId := by
  rw [TjNode.lineage, List.mem_append, List.mem_reverse, List.mem_singleton] at hx
  rcases hx with hx | rfl
  · obtain ⟨c, hc, rfl⟩ := List.mem_map.mp hx
    obtain ⟨b, -, hb⟩ := Descent.exists_of_mem_along hc
    exact hp.task_id b c hb
  · exact hp.task_id [] snap.root rfl

theorem length_taskIds_le (lineage : List TjInfo) : (taskIds lineage).length ≤ 64 := by
  rw [taskIds, List.length_reverse, List.length_map, List.length_take]
  omega

theorem taskIds_lineage (hp : ParsedDocument snap) {ids : List CStr}
    (hids : (snap.root.path a).map (fun x => if x.keyword = kwTask then x.id else none)
      = ids.map some) (hle : ids.length ≤ 64) : taskIds (snap.root.lineage a) = ids := by
  have htask : ∀ x ∈ snap.root.path a, x.keyword = kwTask := by
    intro x hx
    have hmem := List.mem_map_of_mem
      (f := fun x : TjInfo => if x.keyword = kwTask then x.id else none) hx
    rw [hids] at hmem
    obtain ⟨id, -, hid⟩ := List.mem_map.mp hmem
    by_contra hne
    rw [if_neg hne] at hid
    cases hid
  have hroot : ¬ snap.root.info.keyword = kwTask := by
    rw [hp.root_keyword]
    decide
  have hlen : (snap.root.path a).length = ids.length := by
    have := congrArg List.length hids
    rwa [List.length_map, List.length_map] at this
  have hfilter : (snap.root.lineage a).filter (fun x => x.keyword == kwTask)
      = (snap.root.path a).reverse := by
    rw [TjNode.lineage, List.filter_append, List.filter_eq_self.mpr (by simpa using htask),
      List.filter_cons_of_neg (by simpa using hroot), List.filter_nil, List.append_nil]
  have hget : (snap.root.path a).map (fun x => x.id.getD []) = ids := by
    have hmap := congrArg (List.map fun x : Option CStr => x.getD []) hids
    rw [List.map_map, List.map_map] at hmap
    have hcongr : (snap.root.path a).map (fun x => x.id.getD [])
        = (snap.root.path a).map ((fun x : Option CStr => x.getD []) ∘
            fun x => if x.keyword = kwTask then x.id else none) := by
      refine List.map_congr_left fun x hx => ?_
      rw [Function.comp_apply, if_pos (htask x hx)]
    rw [hcongr, hmap]
    exact List.map_id _
  rw [taskIds, hfilter, List.take_of_length_le (by rw [List.length_reverse, hlen]; exact hle),
    List.map_reverse, List.reverse_reverse, hget]

/-- Each step of an address below a node goes to the first task of its id, and
there are no more of them than a qualified id has room for. -/
def FirstByName (root : ProjectNode) (place rel : List ℕ) : Prop :=
  rel.length ≤ 64 ∧ ∃ parent ids, nodeAt root place = some parent ∧ FirstTasks parent rel ids

section Clone

variable (hdocs : s.ParsedDocs) (hi : i ∈ order) (hd : s i = some d) (hsnap : d.snap = some snap)
  {n j : ℕ} {rest place : List ℕ} (hplace : placement s order (i, n) = some (place, j))
  (ho : snap.root.sub (n :: rest) = some o)

include hi hd hplace

theorem exists_parent : ∃ parent, nodeAt (assembled s order) place = some parent := by
  obtain ⟨d', decl, parent, hdecl, -, hparent, -⟩ := placement_eq_some.mp hplace
  obtain ⟨hd', snap', hsnap', hchild⟩ := declarationAt_eq_some.mp hdecl
  obtain rfl := Option.some.inj (hd.symm.trans hd')
  obtain ⟨u, hu, -⟩ := infoAt_eq_some.mp (extends_treeBefore
    (mem_copySteps_of hi hd hsnap' hchild) _ _ (infoAt_eq_some.mpr ⟨parent, hparent, rfl⟩))
  exact ⟨u, hu⟩

include hsnap

theorem find_place (htask : ∀ decl, snap.root.children[n]? = some decl → decl.keyword = kwTask) :
    findNodeByDottedPath (assembled s order) (d.prefixes .task) .task = some place := by
  obtain ⟨d', decl, parent, hdecl, hfind, -, -⟩ := placement_eq_some.mp hplace
  obtain ⟨hd', snap', hsnap', hchild⟩ := declarationAt_eq_some.mp hdecl
  obtain rfl := Option.some.inj (hd.symm.trans hd')
  obtain rfl := Option.some.inj (hsnap.symm.trans hsnap')
  have hkind := nodeKindOf_eq_task.mpr (htask decl hchild)
  rw [placeFor, hkind] at hfind
  exact (extends_treeBefore (mem_copySteps_of hi hd hsnap hchild)).find hfind

include ho

theorem infos_along_clone {parent : ProjectNode}
    (hparent : nodeAt (assembled s order) place = some parent) :
    (Descent.along ProjectNode.children parent (j :: rest)).map (·.info)
      = (snap.root.path (n :: rest)).map (projectInfoFromTj d.uri) := by
  have hclone : ∀ b v, snap.root.sub (n :: b) = some v →
      infoAt parent (j :: b) = some (projectInfoFromTj d.uri v.info) := by
    intro b v hv
    have hinfo := infoAt_clone (c := place ++ j :: b) hi hd hsnap hv (by
      rw [cloneAt, hplace]
      rfl)
    rwa [infoAt_append, hparent, Option.bind_some] at hinfo
  obtain ⟨decl, hdecl, hrest⟩ := Descent.node_cons_eq_some.mp ho
  have hfirst := hclone [] decl (Descent.node_cons_eq_some.mpr ⟨decl, hdecl, rfl⟩)
  rw [infoAt_cons, Option.bind_eq_some_iff] at hfirst
  obtain ⟨t, ht, hinfo⟩ := hfirst
  rw [infoAt, nodeAt, Option.map_some, Option.some.injEq] at hinfo
  have hbelow := infos_along (t := t) (u := decl) (fun b v hv => by
    have := hclone b v (Descent.node_cons_eq_some.mpr ⟨decl, hdecl, hv⟩)
    rwa [infoAt_cons, ht, Option.bind_some] at this) hrest
  rw [Descent.along, ht, TjNode.path, Descent.along, hdecl, List.map_cons, List.map_cons,
    List.map_cons, hinfo, hbelow]
  rfl

include hdocs

/-- **A task is mapped to its clone** exactly where each step to the clone goes
to the first task of its id, and there are not too many. -/
theorem projectNodeForDocTask_clone (htask : o.keyword = kwTask) :
    projectNodeForDocTask (assembled s order) (d.prefixes .task) (snap.root.lineage (n :: rest))
      = some (place ++ j :: rest) ↔ FirstByName (assembled s order) place (j :: rest) := by
  have hp := hdocs i d snap hd hsnap
  obtain ⟨above, habove⟩ := lineage_eq ho (List.cons_ne_nil n rest)
  rw [habove, projectNodeForDocTask_eq_some htask
    fun x hx => hasTaskId_of_lineage hp (by rwa [habove]), ← habove]
  obtain ⟨parent, hparent⟩ := exists_parent hi hd hplace
  have hinfos := infos_along_clone hi hd hsnap hplace ho hparent
  obtain ⟨decl, hdecl, hrest⟩ := Descent.node_cons_eq_some.mp ho
  -- the first step of a descent to the clone shows that the declaration is a task
  have hplaced : ∀ {ids}, FirstTasks parent (j :: rest) ids →
      findNodeByDottedPath (assembled s order) (d.prefixes .task) .task = some place := by
    intro ids hids
    refine find_place hi hd hsnap hplace fun decl' hdecl' => ?_
    obtain rfl := Option.some.inj (hdecl.symm.trans hdecl')
    cases hids with
    | @step _ c _ id _ _ hc hname _ _ =>
      rw [Descent.along, hc, TjNode.path, Descent.along, hdecl, List.map_cons, List.map_cons,
        List.map_cons] at hinfos
      have hinfo := (List.cons.inj hinfos).1
      rw [taskName, hinfo] at hname
      split_ifs at hname with hkw
      exact hkw
  constructor
  · rintro ⟨start, cur, rel, hstart, hcur, hrel, heq⟩
    have hwalk : ∃ ids, FirstTasks (assembled s order) (start ++ rel) ids := by
      cases hpath : d.prefixes .task with
      | none =>
        rw [hpath, findNodeByDottedPath, Option.some.injEq] at hstart
        subst hstart
        rw [nodeAt, Option.some.injEq] at hcur
        subst hcur
        exact ⟨_, hrel⟩
      | some path =>
        rw [hpath, findNodeByDottedPath, descendPath_task, Descent.descend_eq_some] at hstart
        exact ⟨_, hstart.append (by rwa [← nodeAt_eq]) hrel⟩
    obtain ⟨ids, hids⟩ := hwalk
    rw [← heq] at hids
    have hdrop : FirstTasks parent (j :: rest) (ids.drop place.length) :=
      hids.drop (by rwa [← nodeAt_eq])
    rw [hplaced hdrop, Option.some.injEq] at hstart
    subst hstart
    have hrest := List.append_cancel_left heq
    subst hrest
    refine ⟨?_, parent, _, hparent, hdrop⟩
    obtain rfl := Option.some.inj (hparent.symm.trans hcur)
    rw [← hrel.length]
    exact length_taskIds_le _
  · rintro ⟨hle, parent', ids, hparent', hids⟩
    obtain rfl := Option.some.inj (hparent.symm.trans hparent')
    refine ⟨place, parent, j :: rest, hplaced hids, hparent, ?_, rfl⟩
    have hpath : (snap.root.path (n :: rest)).map
        (fun x => if x.keyword = kwTask then x.id else none) = ids.map some := by
      have hnames : taskName = (fun x : ProjectInfo =>
          if x.keyword = kwTask then x.id else none) ∘ fun c : ProjectNode => c.info := rfl
      rw [← hids.names_along, hnames, ← List.map_map, hinfos, List.map_map]
      rfl
    rw [taskIds_lineage hp hpath (by rw [hids.length]; exact hle)]
    exact hids

end Clone

/-! ### What go-to-definition and the walks find -/

/-- The dependency of the clone of its owner refers to `t`. -/
def CloneRefersTo (root : ProjectNode) (clone : Option (List ℕ)) (dep : Dependency) (t : List ℕ) :
    Prop :=
  ∃ c, clone = some c ∧ LeadsTo root c dep t

/-- The dependency of that ordinal, on the task that the ids of the owner lead to, refers to `t`. -/
def NamesakeRefersTo (root : ProjectNode) (taskPrefix : Option CStr) (lineage : List TjInfo)
    (k : ℕ) (t : List ℕ) : Prop :=
  ∃ w node dep, NamesLead root taskPrefix (taskIds lineage) w ∧ nodeAt root w = some node ∧
    node.info.dependencies[k]? = some dep ∧ LeadsTo root w dep t

theorem TjNode.dependencyAt_eq_some {root : TjNode} {k : ℕ} {dep : Dependency} :
    root.dependencyAt a k = some dep ↔
      ∃ o, root.sub a = some o ∧ o.info.dependencies[k]? = some dep := Option.bind_eq_some_iff

theorem projectResolveDepRef_eq_some {root : ProjectNode} (hroot : IsProjectTree root)
    (hp : ParsedDocument snap) (ho : snap.root.sub a = some o) (htask : o.keyword = kwTask)
    {taskPrefix : Option CStr} {k : ℕ} {t : List ℕ} :
    projectResolveDepRef root taskPrefix (snap.root.lineage a) k = some t ↔
      NamesakeRefersTo root taskPrefix (snap.root.lineage a) k t := by
  have ha : a ≠ [] := by
    rintro rfl
    obtain rfl := Option.some.inj ho
    rw [TjNode.keyword, hp.root_keyword] at htask
    cases htask
  obtain ⟨above, habove⟩ := lineage_eq ho ha
  have hlead : ∀ {w}, projectNodeForDocTask root taskPrefix (snap.root.lineage a) = some w ↔
      NamesLead root taskPrefix (taskIds (snap.root.lineage a)) w := by
    rw [habove]
    exact projectNodeForDocTask_eq_some htask
      fun x hx => hasTaskId_of_lineage hp (by rwa [habove])
  unfold projectResolveDepRef NamesakeRefersTo
  simp only [Option.bind_eq_bind, Option.bind_eq_some_iff]
  constructor
  · rintro ⟨w, hw, node, hnode, h⟩
    split_ifs at h with hlen
    have hdep := List.getElem?_eq_getElem (Nat.lt_of_not_le hlen)
    exact ⟨w, node, _, hlead.mp hw, hnode, hdep,
      (projectDepResolve_eq_some hroot hnode hdep).mp h⟩
  · rintro ⟨w, node, dep, hw, hnode, hdep, h⟩
    refine ⟨w, hlead.mpr hw, node, hnode, ?_⟩
    rw [if_neg (Nat.not_le.mpr (List.getElem?_eq_some_iff.mp hdep).1)]
    exact (projectDepResolve_eq_some hroot hnode hdep).mpr h

/-- The clone of the declaration is the first task of its id at every level below
the place that its document is put at. -/
def CloneIsFirst (s : Store) (order : List Slot) (i : Slot) : List ℕ → Prop
  | [] => False
  | n :: rest => ∃ place j, placement s order (i, n) = some (place, j) ∧
    FirstByName (assembled s order) place (j :: rest)

/-- For a dependency of a document, go-to-definition finds what `project_dep_resolve`
finds at the clone of the owner, the references to a task list the dependency
exactly if go-to-definition jumps from it to the task, and so do the highlights. -/
structure DefinitionAgrees (root : ProjectNode) (d : Document) (snap : DocSnapshot) (a : List ℕ)
    (clone : Option (List ℕ)) (k : ℕ) (dep : Dependency) : Prop where
  resolved : projectResolveDepRef root (d.prefixes .task) (snap.root.lineage a) k
    = clone.bind fun c => projectDepResolve root c k
  listed : ∀ wanted, ⟨some d.uri, dep.sourceRange⟩ ∈ collectRefs root wanted ↔
    projectResolveDepRef root (d.prefixes .task) (snap.root.lineage a) k = some wanted
  highlighted : ∀ wanted, (∃ seg, lastIdentInRange snap.tokSpans dep.sourceRange = some seg ∧
      seg ∈ collectReadHighlights root wanted d.uri snap.tokSpans) ↔
    projectResolveDepRef root (d.prefixes .task) (snap.root.lineage a) k = some wanted

section Listed

variable (hdocs : s.ParsedDocs) (huris : s.UniqueUris) (horder : order.Nodup) (hi : i ∈ order)
  (hd : s i = some d) (hsnap : d.snap = some snap) (ho : snap.root.sub a = some o)
  {k : ℕ} {dep : Dependency} (hdep : o.info.dependencies[k]? = some dep)

include hdocs horder hi hd hsnap ho hdep

theorem resolve_clone_eq_some {t : List ℕ} :
    ((cloneAt s order i a).bind fun c => projectDepResolve (assembled s order) c k) = some t ↔
      CloneRefersTo (assembled s order) (cloneAt s order i a) dep t := by
  have hroot := isProjectTree_assembled hdocs horder
  rw [Option.bind_eq_some_iff]
  refine exists_congr fun c => and_congr_right fun hc => ?_
  obtain ⟨node, hnode, hinfo⟩ := infoAt_eq_some.mp (infoAt_clone hi hd hsnap ho hc)
  exact projectDepResolve_eq_some hroot hnode (by rw [hinfo]; exact hdep)

include huris

omit hdocs in
/-- A dependency of the tree that is found where the document has a dependency,
by its range or by another mark, is the one of the clone. -/
theorem clone_of_listed {x : List ℕ} {node : ProjectNode} {k' : ℕ} {dep' : Dependency}
    (hnode : nodeAt (assembled s order) x = some node)
    (hdep' : node.info.dependencies[k']? = some dep')
    (huri : node.info.sourceUri = some d.uri)
    (hmark : ∀ b, snap.root.dependencyAt b k' = some dep' → b = a ∧ k' = k) :
    cloneAt s order i a = some x ∧ k' = k ∧ dep' = dep := by
  have hx : x ≠ [] := by
    rintro rfl
    have hroot : infoAt (assembled s order) [] = some ProjectNode.empty.info := by
      rw [assembled_eq]
      exact extends_foldl _ _ _ _ rfl
    rw [infoAt, hnode, Option.map_some, Option.some.injEq] at hroot
    rw [hroot] at huri
    cases huri
  obtain ⟨i', d', snap', b, o', -, hd', hsnap', ho', hclone, hinfo⟩ :=
    exists_origin horder (infoAt_eq_some.mpr ⟨node, hnode, rfl⟩) hx
  rw [hinfo] at huri hdep'
  have hsame : i' = i := huris i' i d' d hd' hd (Option.some.inj huri)
  subst hsame
  obtain rfl := Option.some.inj (hd.symm.trans hd')
  obtain rfl := Option.some.inj (hsnap.symm.trans hsnap')
  obtain ⟨rfl, rfl⟩ := hmark b (TjNode.dependencyAt_eq_some.mpr ⟨o', ho', hdep'⟩)
  obtain rfl := Option.some.inj (ho.symm.trans ho')
  exact ⟨hclone, rfl, Option.some.inj (hdep'.symm.trans hdep)⟩

/-- **References** list the place of a dependency for what its clone refers to. -/
theorem mem_collectRefs_iff {t : List ℕ} :
    ⟨some d.uri, dep.sourceRange⟩ ∈ collectRefs (assembled s order) t ↔
      CloneRefersTo (assembled s order) (cloneAt s order i a) dep t := by
  have hroot := isProjectTree_assembled hdocs horder
  have hown := TjNode.dependencyAt_eq_some.mpr ⟨o, ho, hdep⟩
  rw [mem_collectRefs]
  constructor
  · rintro ⟨x, node, k', dep', hnode, hdep', ht, hloc⟩
    obtain ⟨huri, hrange⟩ := Location.mk.inj hloc
    obtain ⟨hx, rfl, rfl⟩ := clone_of_listed huris horder hi hd hsnap ho hdep hnode hdep'
      huri.symm fun b hb =>
        (hdocs i d snap hd hsnap).ranges_apart b k' dep' a k dep hb hown hrange.symm
    exact ⟨x, hx, (projectDepResolve_eq_some hroot hnode hdep').mp ht⟩
  · rintro ⟨c, hc, ht⟩
    obtain ⟨node, hnode, hinfo⟩ := infoAt_eq_some.mp (infoAt_clone hi hd hsnap ho hc)
    have hdep' : node.info.dependencies[k]? = some dep := by
      rw [hinfo]
      exact hdep
    refine ⟨c, node, k, dep, hnode, hdep', (projectDepResolve_eq_some hroot hnode hdep').mpr ht, ?_⟩
    rw [hinfo]
    rfl

/-- **Highlights** mark the last identifier of a dependency, if it has one, for
what its clone refers to. -/
theorem mem_collectReadHighlights_iff {seg : LspRange}
    (hseg : lastIdentInRange snap.tokSpans dep.sourceRange = some seg) {t : List ℕ} :
    seg ∈ collectReadHighlights (assembled s order) t d.uri snap.tokSpans ↔
      CloneRefersTo (assembled s order) (cloneAt s order i a) dep t := by
  have hroot := isProjectTree_assembled hdocs horder
  have hown := TjNode.dependencyAt_eq_some.mpr ⟨o, ho, hdep⟩
  rw [mem_collectReadHighlights]
  constructor
  · rintro ⟨x, node, k', dep', hnode, hdep', ht, huri, hseg'⟩
    obtain ⟨hx, rfl, rfl⟩ := clone_of_listed huris horder hi hd hsnap ho hdep hnode hdep'
      huri fun b hb =>
        (hdocs i d snap hd hsnap).idents_apart b k' dep' a k dep seg hb hown hseg' hseg
    exact ⟨x, hx, (projectDepResolve_eq_some hroot hnode hdep').mp ht⟩
  · rintro ⟨c, hc, ht⟩
    obtain ⟨node, hnode, hinfo⟩ := infoAt_eq_some.mp (infoAt_clone hi hd hsnap ho hc)
    have hdep' : node.info.dependencies[k]? = some dep := by
      rw [hinfo]
      exact hdep
    refine ⟨c, node, k, dep, hnode, hdep', (projectDepResolve_eq_some hroot hnode hdep').mpr ht, ?_,
      hseg⟩
    rw [hinfo]
    rfl

/-- The two agree on a dependency exactly if the owner's clone and the task that
the owner's ids lead to refer to the same, and highlights have something to mark. -/
theorem definitionAgrees_iff (htask : o.keyword = kwTask) :
    DefinitionAgrees (assembled s order) d snap a (cloneAt s order i a) k dep ↔
      (∀ t, NamesakeRefersTo (assembled s order) (d.prefixes .task) (snap.root.lineage a) k t ↔
        CloneRefersTo (assembled s order) (cloneAt s order i a) dep t) ∧
      ((lastIdentInRange snap.tokSpans dep.sourceRange).isSome ∨
        ∀ t, ¬ CloneRefersTo (assembled s order) (cloneAt s order i a) dep t) := by
  have hdefinition : ∀ t, projectResolveDepRef (assembled s order) (d.prefixes .task)
      (snap.root.lineage a) k = some t ↔ NamesakeRefersTo (assembled s order) (d.prefixes .task)
        (snap.root.lineage a) k t := fun t =>
    projectResolveDepRef_eq_some (isProjectTree_assembled hdocs horder)
      (hdocs i d snap hd hsnap) ho htask
  constructor
  · intro h
    have hsame : ∀ t, NamesakeRefersTo (assembled s order) (d.prefixes .task)
        (snap.root.lineage a) k t ↔ CloneRefersTo (assembled s order) (cloneAt s order i a) dep t := by
      intro t
      rw [← hdefinition, ← resolve_clone_eq_some hdocs horder hi hd hsnap ho hdep, h.resolved]
    refine ⟨hsame, ?_⟩
    by_cases hseg : (lastIdentInRange snap.tokSpans dep.sourceRange).isSome
    · exact .inl hseg
    · refine .inr fun t ht => hseg ?_
      obtain ⟨seg, hseg, -⟩ := (h.highlighted t).mpr ((hdefinition t).mpr ((hsame t).mpr ht))
      rw [hseg]
      rfl
  · rintro ⟨hsame, hident⟩
    refine ⟨Option.ext fun t => ?_, fun t => ?_, fun t => ?_⟩
    · rw [hdefinition, resolve_clone_eq_some hdocs horder hi hd hsnap ho hdep, hsame]
    · rw [mem_collectRefs_iff hdocs huris horder hi hd hsnap ho hdep, hdefinition, hsame]
    · rw [hdefinition, hsame]
      constructor
      · rintro ⟨seg, hseg, hmem⟩
        exact (mem_collectReadHighlights_iff hdocs huris horder hi hd hsnap ho hdep hseg).mp hmem
      · intro ht
        rcases hident with hseg | hnone
        · obtain ⟨seg, hseg⟩ := Option.isSome_iff_exists.mp hseg
          exact ⟨seg, hseg,
            (mem_collectReadHighlights_iff hdocs huris horder hi hd hsnap ho hdep hseg).mpr ht⟩
        · exact absurd ht (hnone t)

end Listed

/-- A task is mapped to its clone exactly where the clone is first. -/
theorem projectNodeForDocTask_eq_clone (hdocs : s.ParsedDocs) (hi : i ∈ order) (hd : s i = some d)
    (hsnap : d.snap = some snap) (ho : snap.root.sub a = some o) (htask : o.keyword = kwTask)
    {c : List ℕ} (hc : cloneAt s order i a = some c) :
    projectNodeForDocTask (assembled s order) (d.prefixes .task) (snap.root.lineage a) = some c ↔
      CloneIsFirst s order i a := by
  cases a with
  | nil => cases hc
  | cons n rest =>
    rw [cloneAt, Option.map_eq_some_iff] at hc
    obtain ⟨⟨place, j⟩, hplace, rfl⟩ := hc
    rw [projectNodeForDocTask_clone hdocs hi hd hsnap hplace ho htask]
    constructor
    · intro h
      exact ⟨place, j, hplace, h⟩
    · rintro ⟨place', j', hplace', h⟩
      obtain ⟨rfl, rfl⟩ := Prod.mk.inj (Option.some.inj (hplace.symm.trans hplace'))
      exact h

/-- Where the ids lead to the clone, the dependency found there is the owner's. -/
theorem CloneIsFirst.refers (hfirst : CloneIsFirst s order i a) (hdocs : s.ParsedDocs)
    (horder : order.Nodup) (hi : i ∈ order) (hd : s i = some d) (hsnap : d.snap = some snap)
    (ho : snap.root.sub a = some o) (htask : o.keyword = kwTask) {k : ℕ} {dep : Dependency}
    (hdep : o.info.dependencies[k]? = some dep) (t : List ℕ) :
    NamesakeRefersTo (assembled s order) (d.prefixes .task) (snap.root.lineage a) k t ↔
      CloneRefersTo (assembled s order) (cloneAt s order i a) dep t := by
  have hsome : ∃ c, cloneAt s order i a = some c := by
    cases a with
    | nil => exact hfirst.elim
    | cons n rest =>
      obtain ⟨place, j, hplace, -⟩ := hfirst
      exact ⟨_, by rw [cloneAt, hplace]; rfl⟩
  obtain ⟨c, hc⟩ := hsome
  obtain ⟨node, hnode, hinfo⟩ := infoAt_eq_some.mp (infoAt_clone hi hd hsnap ho hc)
  have hlen : ¬ node.info.dependencies.length ≤ k := by
    rw [hinfo]
    exact Nat.not_le.mpr (List.getElem?_eq_some_iff.mp hdep).1
  rw [← projectResolveDepRef_eq_some (isProjectTree_assembled hdocs horder)
      (hdocs i d snap hd hsnap) ho htask,
    ← resolve_clone_eq_some hdocs horder hi hd hsnap ho hdep, projectResolveDepRef,
    (projectNodeForDocTask_eq_clone hdocs hi hd hsnap ho htask hc).mpr hfirst, hc]
  simp only [Option.bind_eq_bind, Option.bind_some, hnode, if_neg hlen]

end Agreement

/-- **Definition agrees with references and highlights** where the clone of the
owner is the first task of its id at every level; elsewhere the ids of the owner
lead to another task.  A reference without an identifier is in no highlight. -/
theorem definition_agrees (realpath : CStr → Option CStr) (s : Store) (status : CcStatus)
    (hdocs : s.ParsedDocs) (huris : s.UniqueUris) {ws : WorkspaceSnapshot}
    (hb : buildWorkspaceSnapshot realpath s status = some ws) {p : ℕ} {project : WsProject}
    (hproject : ws.projects[p]? = some project) {i : Slot} {d : Document} {snap : DocSnapshot}
    (hi : i ∈ copiedDocs realpath s p) (hd : s i = some d) (hsnap : d.snap = some snap)
    {a : List ℕ} {o : TjNode} (ho : snap.root.sub a = some o) (htask : o.keyword = kwTask)
    {k : ℕ} {dep : Dependency} (hdep : o.info.dependencies[k]? = some dep) :
    (∀ c, cloneAt s (copiedDocs realpath s p) i a = some c →
      (projectNodeForDocTask project.root (d.prefixes .task) (snap.root.lineage a) = some c ↔
        CloneIsFirst s (copiedDocs realpath s p) i a)) ∧
    (CloneIsFirst s (copiedDocs realpath s p) i a →
      (DefinitionAgrees project.root d snap a (cloneAt s (copiedDocs realpath s p) i a) k dep ↔
        (lastIdentInRange snap.tokSpans dep.sourceRange).isSome ∨
          ∀ t, ¬ CloneRefersTo project.root (cloneAt s (copiedDocs realpath s p) i a) dep t)) := by
  rw [build_eq, Option.some.injEq] at hb
  subst hb
  obtain ⟨r, e, -, rfl, -⟩ := (projects_at status).mp hproject
  have horder : (copiedDocs realpath s p).Nodup := nodup_copiedDocs p
  refine ⟨fun c hc => projectNodeForDocTask_eq_clone hdocs hi hd hsnap ho htask hc, fun hfirst => ?_⟩
  have hrefers := hfirst.refers hdocs horder hi hd hsnap ho htask hdep
  exact (definitionAgrees_iff hdocs huris horder hi hd hsnap ho hdep htask).trans
    (and_iff_right hrefers)

/-! ### Tasks without an id -/

/-- A range on one line. -/
def onLine (line start stop : UInt32) : LspRange := ⟨⟨line, start⟩, ⟨line, stop⟩⟩

/-- A task without a body: its range ends where its keyword does. -/
def taskOnLine (line : UInt32) (id name : String) (selection : LspRange) : TjNode :=
  .mk ⟨kwTask, some (cstr id), some (cstr name), onLine line 0 4, selection, []⟩ []

/-- Two tasks without an id, the second of which depends on the third task. -/
def anonymousSnap : DocSnapshot :=
  ⟨1, cstr "file:///a.tjp",
    some (cstr "task \"A\"\ntask \"B\" \x7b depends b \x7d\ntask b \"C\"\n"),
    .mk ⟨0, none, none, onLine 0 0 0, onLine 0 0 0, []⟩
      [taskOnLine 0 "task" "\"A\"" (onLine 0 0 4),
        .mk ⟨kwTask, some (cstr "task"), some (cstr "\"B\""), onLine 1 0 22, onLine 1 0 4,
          [⟨.depends, 0, some (cstr "b"), onLine 1 19 20⟩]⟩ [],
        taskOnLine 2 "b" "\"C\"" (onLine 2 5 6)],
    [⟨kwTask, ⟨0, 0⟩, ⟨0, 4⟩, some (cstr "task")⟩, ⟨tkStr, ⟨0, 5⟩, ⟨0, 8⟩, some (cstr "\"A\"")⟩,
      ⟨kwTask, ⟨1, 0⟩, ⟨1, 4⟩, some (cstr "task")⟩, ⟨tkStr, ⟨1, 5⟩, ⟨1, 8⟩, some (cstr "\"B\"")⟩,
      ⟨tkLbrace, ⟨1, 9⟩, ⟨1, 10⟩, none⟩, ⟨271, ⟨1, 11⟩, ⟨1, 18⟩, some (cstr "depends")⟩,
      ⟨tkIdent, ⟨1, 19⟩, ⟨1, 20⟩, some (cstr "b")⟩, ⟨tkRbrace, ⟨1, 21⟩, ⟨1, 22⟩, none⟩,
      ⟨kwTask, ⟨2, 0⟩, ⟨2, 4⟩, some (cstr "task")⟩, ⟨tkIdent, ⟨2, 5⟩, ⟨2, 6⟩, some (cstr "b")⟩,
      ⟨tkStr, ⟨2, 7⟩, ⟨2, 10⟩, some (cstr "\"C\"")⟩], 0⟩

/-- The only document of a project. -/
def loneStore (snap : DocSnapshot) : Store :=
  emptyStore.put 0 { freshDocument snap.uri with text := snap.text, snap := some snap }

theorem loneStore_eq_some {snap : DocSnapshot} {i : Slot} {d : Document}
    (h : loneStore snap i = some d) : i = 0 ∧ d.uri = snap.uri ∧ d.snap = some snap := by
  by_cases hi : i = 0
  · subst hi
    rw [loneStore, Store.put, Function.update_self, Option.some.injEq] at h
    subst h
    exact ⟨rfl, rfl, rfl⟩
  · rw [loneStore, Store.put, Function.update_of_ne hi] at h
    cases h

theorem uniqueUris_loneStore (snap : DocSnapshot) : (loneStore snap).UniqueUris := by
  intro i j d e hd he _
  rw [(loneStore_eq_some hd).1, (loneStore_eq_some he).1]

/-- A tree whose top-level declarations are all there is. -/
theorem sub_of_flat {root : TjNode} (hflat : ∀ c ∈ root.children, c.children = []) {a : List ℕ}
    {o : TjNode} (ho : root.sub a = some o) :
    a = [] ∧ o = root ∨ ∃ n, a = [n] ∧ root.children[n]? = some o := by
  cases a with
  | nil => exact .inl ⟨rfl, (Option.some.inj ho).symm⟩
  | cons n rest =>
    obtain ⟨c, hc, hrest⟩ := Descent.node_cons_eq_some.mp ho
    cases rest with
    | nil => exact .inr ⟨n, rfl, by rwa [← Option.some.inj hrest]⟩
    | cons m rest =>
      obtain ⟨c', hc', -⟩ := Descent.node_cons_eq_some.mp hrest
      rw [hflat c (List.mem_of_getElem? hc)] at hc'
      cases hc'

/-- A document of tasks without bodies, with one dependency at most, on the task at `m`. -/
theorem parsedDocument_of_flat {snap : DocSnapshot} (m : ℕ)
    (hroot : snap.root.info.keyword = 0) (hdeps : snap.root.info.dependencies = [])
    (htasks : ∀ c ∈ snap.root.children, c.children = [] ∧ c.info.keyword = kwTask ∧
      ∃ id, c.info.id = some id ∧ id ≠ [] ∧ 46 ∉ id)
    (hone : ∀ (n : ℕ) (c : TjNode) (k : ℕ), snap.root.children[n]? = some c →
      k < c.info.dependencies.length → n = m ∧ k = 0) : ParsedDocument snap := by
  have hsub : ∀ {a o}, snap.root.sub a = some o →
      a = [] ∧ o = snap.root ∨ ∃ n, a = [n] ∧ snap.root.children[n]? = some o :=
    fun ho => sub_of_flat (fun c hc => (htasks c hc).1) ho
  have hdep : ∀ {a k dep}, snap.root.dependencyAt a k = some dep → a = [m] ∧ k = 0 := by
    intro a k dep h
    obtain ⟨o, ho, hk⟩ := TjNode.dependencyAt_eq_some.mp h
    rcases hsub ho with ⟨rfl, rfl⟩ | ⟨n, rfl, hn⟩
    · rw [hdeps] at hk
      cases hk
    · obtain ⟨rfl, rfl⟩ := hone n o k hn (List.getElem?_eq_some_iff.mp hk).1
      exact ⟨rfl, rfl⟩
  refine ⟨hroot, fun a o ho ha => ?_, fun a o ho htask => ?_, fun a k dep a' k' dep' h h' _ => ?_,
    fun a k dep a' k' dep' seg h h' _ _ => ?_⟩
  · rcases hsub ho with ⟨rfl, -⟩ | ⟨n, -, hn⟩
    · exact absurd rfl ha
    · rw [(htasks o (List.mem_of_getElem? hn)).2.1]
      decide
  · rcases hsub ho with ⟨-, rfl⟩ | ⟨n, -, hn⟩
    · rw [hroot] at htask
      cases htask
    · exact (htasks o (List.mem_of_getElem? hn)).2.2
  · rw [(hdep h).1, (hdep h').1, (hdep h).2, (hdep h').2]
    exact ⟨rfl, rfl⟩
  · rw [(hdep h).1, (hdep h').1, (hdep h).2, (hdep h').2]
    exact ⟨rfl, rfl⟩

theorem parsedDocument_anonymous : ParsedDocument anonymousSnap := by
  refine parsedDocument_of_flat 1 rfl rfl (fun c hc => ?_) fun n c k hc hk => ?_
  · simp only [anonymousSnap, TjNode.children, List.mem_cons, List.not_mem_nil, or_false] at hc
    rcases hc with rfl | rfl | rfl <;> exact ⟨rfl, rfl, _, rfl, by decide, by decide⟩
  · rcases n with _ | _ | _ | n
    · cases hc
      cases hk
    · cases hc
      exact ⟨rfl, Nat.lt_one_iff.mp hk⟩
    · cases hc
      cases hk
    · cases hc

theorem parsedDocs_anonymous : (loneStore anonymousSnap).ParsedDocs := by
  intro i d snap hd hsnap
  rw [(loneStore_eq_some hd).2.2, Option.some.injEq] at hsnap
  rw [← hsnap]
  exact parsedDocument_anonymous

/-- The second task is mapped to the first, so that go-to-definition does not
jump from its dependency, which the references to the third task list. -/
theorem anonymous_definition_lost :
    ¬ ∀ (realpath : CStr → Option CStr) (s : Store) (status : CcStatus), s.ParsedDocs →
      s.UniqueUris → ∀ ws, buildWorkspaceSnapshot realpath s status = some ws →
      ∀ (p : ℕ) (project : WsProject), ws.projects[p]? = some project →
      ∀ i d snap, i ∈ copiedDocs realpath s p → s i = some d → d.snap = some snap →
      ∀ a o, snap.root.sub a = some o → o.keyword = kwTask →
      ∀ (k : ℕ) (dep : Dependency), o.info.dependencies[k]? = some dep →
      DefinitionAgrees project.root d snap a (cloneAt s (copiedDocs realpath s p) i a) k dep := by
  intro h
  have hproject : (built (fun _ => none) (loneStore anonymousSnap) .ok).projects[0]?
      = some ⟨anonymousSnap.uri, assembled (loneStore anonymousSnap)
        (copiedDocs (fun _ => none) (loneStore anonymousSnap) 0), false⟩ := by
    refine (projects_at .ok).mpr ⟨0, _, rfl, ?_, .inr ⟨0, ?_, ?_⟩⟩
    · congr 1
    · decide +kernel
    · decide +kernel
  have hcopied : copiedDocs (fun _ => none) (loneStore anonymousSnap) 0 = [0] := by decide +kernel
  have hagrees := h (fun _ => none) (loneStore anonymousSnap) .ok parsedDocs_anonymous
    (uniqueUris_loneStore _) _ (build_eq _ _ _) 0 _ hproject 0 _ anonymousSnap
    (by rw [hcopied]; exact List.mem_singleton_self 0) rfl rfl [1] _ rfl rfl 0 _ rfl
  have hresolved := hagrees.resolved
  rw [hcopied] at hresolved
  revert hresolved
  decide +kernel

/-- Two tasks, the second of which depends on the first. -/
def twoTasksSnap : DocSnapshot :=
  ⟨1, cstr "file:///a.tjp", some (cstr "task a \"A\"\ntask b \"B\" \x7b depends a \x7d\n"),
    .mk ⟨0, none, none, onLine 0 0 0, onLine 0 0 0, []⟩
      [taskOnLine 0 "a" "\"A\"" (onLine 0 5 6),
        .mk ⟨kwTask, some (cstr "b"), some (cstr "\"B\""), onLine 1 0 24, onLine 1 5 6,
          [⟨.depends, 0, some (cstr "a"), onLine 1 21 22⟩]⟩ []],
    [⟨kwTask, ⟨0, 0⟩, ⟨0, 4⟩, some (cstr "task")⟩, ⟨tkIdent, ⟨0, 5⟩, ⟨0, 6⟩, some (cstr "a")⟩,
      ⟨tkStr, ⟨0, 7⟩, ⟨0, 10⟩, some (cstr "\"A\"")⟩, ⟨kwTask, ⟨1, 0⟩, ⟨1, 4⟩, some (cstr "task")⟩,
      ⟨tkIdent, ⟨1, 5⟩, ⟨1, 6⟩, some (cstr "b")⟩, ⟨tkStr, ⟨1, 7⟩, ⟨1, 10⟩, some (cstr "\"B\"")⟩,
      ⟨tkLbrace, ⟨1, 11⟩, ⟨1, 12⟩, none⟩, ⟨271, ⟨1, 13⟩, ⟨1, 20⟩, some (cstr "depends")⟩,
      ⟨tkIdent, ⟨1, 21⟩, ⟨1, 22⟩, some (cstr "a")⟩, ⟨tkRbrace, ⟨1, 23⟩, ⟨1, 24⟩, none⟩], 0⟩

theorem parsedDocs_twoTasks : (loneStore twoTasksSnap).ParsedDocs := by
  intro i d snap hd hsnap
  rw [(loneStore_eq_some hd).2.2, Option.some.injEq] at hsnap
  rw [← hsnap]
  refine parsedDocument_of_flat 1 rfl rfl (fun c hc => ?_) fun n c k hc hk => ?_
  · simp only [twoTasksSnap, TjNode.children, List.mem_cons, List.not_mem_nil, or_false] at hc
    rcases hc with rfl | rfl <;> exact ⟨rfl, rfl, _, rfl, by decide, by decide⟩
  · rcases n with _ | _ | n
    · cases hc
      cases hk
    · cases hc
      exact ⟨rfl, Nat.lt_one_iff.mp hk⟩
    · cases hc

/-- The second task is mapped to its clone, and all agree on what it depends on. -/
theorem definition_agrees_named :
    DefinitionAgrees
      (assembled (loneStore twoTasksSnap) (copiedDocs (fun _ => none) (loneStore twoTasksSnap) 0))
      { freshDocument twoTasksSnap.uri with text := twoTasksSnap.text, snap := some twoTasksSnap }
      twoTasksSnap [1]
      (cloneAt (loneStore twoTasksSnap) (copiedDocs (fun _ => none) (loneStore twoTasksSnap) 0) 0 [1]) 0
      ⟨.depends, 0, some (cstr "a"), onLine 1 21 22⟩ := by
  obtain ⟨hmapped, hagrees⟩ := definition_agrees (fun _ => none) (loneStore twoTasksSnap) .ok
    parsedDocs_twoTasks (uniqueUris_loneStore _) (build_eq _ _ _) ((projects_at .ok).mpr
      ⟨0, _, rfl, rfl, .inr ⟨0, by decide +kernel, by decide +kernel⟩⟩)
    (show (0 : Slot) ∈ copiedDocs (fun _ => none) (loneStore twoTasksSnap) 0 by decide +kernel)
    rfl rfl (a := [1]) rfl rfl (k := 0) rfl
  have hclone : cloneAt (loneStore twoTasksSnap)
      (copiedDocs (fun _ => none) (loneStore twoTasksSnap) 0) 0 [1] = some [1] := by decide +kernel
  have hnode : projectNodeForDocTask (assembled (loneStore twoTasksSnap)
      (copiedDocs (fun _ => none) (loneStore twoTasksSnap) 0)) none (twoTasksSnap.root.lineage [1])
      = some [1] := by decide +kernel
  exact (hagrees ((hmapped [1] hclone).mp hnode)).mpr (.inl (by decide +kernel))

end TaskjugglerLsp
