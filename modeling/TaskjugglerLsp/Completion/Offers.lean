import TaskjugglerLsp.Completion
import TaskjugglerLsp.ProjectTree.Agreement
import TaskjugglerLsp.QueryContext

/-!
# Absolute completion

Which tasks are offered in a dependency list without bangs, and which of the
offers `project_dep_resolve` resolves to the task they are collected from.
`mem_poolIds` says what a document gives: each of its tasks, under the ids of the
tasks it is written in.  The document's own prefix is not in the offer, so it
resolves to its task exactly if the clone is the first task of its id at every
level from the root (`absolute_completion`).
-/

namespace TaskjugglerLsp

open Lib

/-! ### What is collected -/

/-- The id that a declaration gives to the path of an offer. -/
def TjInfo.kindId (kind : ℕ) (info : TjInfo) : Option CStr :=
  if info.keyword = kind then info.id.filter (· != []) else none

theorem kindId_eq_none {kind : ℕ} {info : TjInfo}
    (h : ¬ (info.keyword = kind ∧ info.id.any (· != []))) : info.kindId kind = none := by
  unfold TjInfo.kindId
  split_ifs with hk
  · cases hid : info.id with
    | none => rfl
    | some id =>
      have hne : id = [] := by
        by_contra hne
        exact h ⟨hk, by simp [hid, hne]⟩
      simp [hne]
  · rfl

theorem kindId_eq_some {kind : ℕ} {info : TjInfo}
    (h : info.keyword = kind ∧ info.id.any (· != [])) :
    info.kindId kind = some (info.id.getD []) := by
  obtain ⟨hk, hid⟩ := h
  unfold TjInfo.kindId
  rw [if_pos hk]
  cases hi : info.id with
  | none =>
    rw [hi] at hid
    cases hid
  | some id =>
    rw [hi] at hid
    simpa using hid

/-- **What is collected** among some declarations: each of the kind, with the ids
of those of the kind that it is written in. -/
theorem mem_collectIds {kind : ℕ} {path : CStr} {a : List ℕ} {i : ℕ} {syms : List TjNode}
    {e : IdEntry} :
    e ∈ collectIds kind path a i syms ↔
      ∃ j c rel o, syms[j]? = some c ∧ c.sub rel = some o ∧ (o.info.kindId kind).isSome ∧
        e = ⟨((c.info :: c.path rel).filterMap (·.kindId kind)).foldl qualifiedId path,
          o.info.name.getD [], a ++ (i + j) :: rel⟩ := by
  cases syms with
  | nil => simp [collectIds]
  | cons c syms =>
    obtain ⟨info, children⟩ := c
    have hrest : (∃ j c rel o, syms[j]? = some c ∧ c.sub rel = some o ∧
          (o.info.kindId kind).isSome ∧
          e = ⟨((c.info :: c.path rel).filterMap (·.kindId kind)).foldl qualifiedId path,
            o.info.name.getD [], a ++ (i + 1 + j) :: rel⟩) ↔
        ∃ j c rel o, (TjNode.mk info children :: syms)[j + 1]? = some c ∧ c.sub rel = some o ∧
          (o.info.kindId kind).isSome ∧
          e = ⟨((c.info :: c.path rel).filterMap (·.kindId kind)).foldl qualifiedId path,
            o.info.name.getD [], a ++ (i + (j + 1)) :: rel⟩ := by
      simp only [List.getElem?_cons_succ, Nat.add_assoc, Nat.add_comm 1]
    -- the children of the first declaration, under a path
    have hbelow : ∀ p : CStr, (e ∈ collectIds kind p (a ++ [i]) 0 children) ↔
        ∃ j c rel o, children[j]? = some c ∧ c.sub rel = some o ∧ (o.info.kindId kind).isSome ∧
          e = ⟨((c.info :: c.path rel).filterMap (·.kindId kind)).foldl qualifiedId p,
            o.info.name.getD [], a ++ i :: j :: rel⟩ := by
      intro p
      rw [mem_collectIds]
      simp only [List.append_assoc, List.singleton_append, Nat.zero_add]
    have hpath : ∀ {j : ℕ} {c : TjNode} {rel : List ℕ}, children[j]? = some c →
        (TjNode.mk info children).path (j :: rel) = c.info :: c.path rel := by
      intro j c rel hc
      have hc' : (TjNode.mk info children).children[j]? = some c := hc
      rw [TjNode.path, Descent.along, hc']
      rfl
    rw [collectIds, collectIdsOf, List.mem_append, mem_collectIds, hrest]
    constructor
    · rintro (h | ⟨j, c, rel, o, hc, ho, hk, he⟩)
      · split_ifs at h with hkind
        · rcases List.mem_cons.mp h with rfl | h
          · refine ⟨0, .mk info children, [], .mk info children, rfl, rfl, ?_, ?_⟩
            · rw [TjNode.info, kindId_eq_some hkind]
              rfl
            · rw [TjNode.info, List.filterMap_cons, kindId_eq_some hkind]
              rfl
          · obtain ⟨j, c, rel, o, hc, ho, hk, rfl⟩ := (hbelow _).mp h
            refine ⟨0, .mk info children, j :: rel, o, rfl,
              Descent.node_cons_eq_some.mpr ⟨c, hc, ho⟩, hk, ?_⟩
            rw [hpath hc, TjNode.info, List.filterMap_cons (a := info), kindId_eq_some hkind]
            rfl
        · obtain ⟨j, c, rel, o, hc, ho, hk, rfl⟩ := (hbelow _).mp h
          refine ⟨0, .mk info children, j :: rel, o, rfl,
            Descent.node_cons_eq_some.mpr ⟨c, hc, ho⟩, hk, ?_⟩
          rw [hpath hc, TjNode.info, List.filterMap_cons (a := info), kindId_eq_none hkind]
          rfl
      · exact ⟨j + 1, c, rel, o, hc, ho, hk, he⟩
    · rintro ⟨j, c, rel, o, hc, ho, hk, he⟩
      cases j with
      | succ j => exact .inr ⟨j, c, rel, o, hc, ho, hk, he⟩
      | zero =>
        rw [List.getElem?_cons_zero, Option.some.injEq] at hc
        subst hc
        refine .inl ?_
        cases rel with
        | nil =>
          obtain rfl := Option.some.inj ho
          by_cases hkind : info.keyword = kind ∧ info.id.any (· != [])
          · rw [TjNode.info, List.filterMap_cons, kindId_eq_some hkind] at he
            rw [if_pos hkind, he]
            exact List.mem_cons_self
          · rw [TjNode.info, kindId_eq_none hkind] at hk
            cases hk
        | cons j rel =>
          obtain ⟨c, hc, ho⟩ := Descent.node_cons_eq_some.mp ho
          rw [hpath hc, TjNode.info, List.filterMap_cons (a := info)] at he
          split_ifs with hkind
          · rw [kindId_eq_some hkind] at he
            exact List.mem_cons_of_mem _ ((hbelow _).mpr ⟨j, c, rel, o, hc, ho, hk, he⟩)
          · rw [kindId_eq_none hkind] at he
            exact (hbelow _).mpr ⟨j, c, rel, o, hc, ho, hk, he⟩
termination_by sizeOf syms

/-- The tasks of a document that a path is made of, from some declaration on. -/
def taskPath (x : TjNode) (rel : List ℕ) : List CStr := (x.path rel).filterMap (·.kindId kwTask)

theorem mem_taskPath {x : TjNode} (hids : ∀ rel o, rel ≠ [] → x.sub rel = some o → o.info.HasTaskId)
    {rel : List ℕ} {id : CStr} (h : id ∈ taskPath x rel) : id ≠ [] ∧ 46 ∉ id := by
  obtain ⟨info, hinfo, hid⟩ := List.mem_filterMap.mp h
  obtain ⟨c, hc, rfl⟩ := List.mem_map.mp hinfo
  obtain ⟨b, hb, hsub⟩ := Descent.exists_of_mem_along hc
  unfold TjInfo.kindId at hid
  split_ifs at hid with hk
  obtain ⟨id', hid', hne, hdot⟩ := hids b c hb hsub hk
  rw [hid', Option.filter_some] at hid
  split_ifs at hid
  obtain rfl := Option.some.inj hid
  exact ⟨hne, hdot⟩

theorem foldl_qualifiedId {path : CStr} (hpath : path ≠ []) (ids : List CStr) :
    ids.foldl qualifiedId path = [46].intercalate (path :: ids) := by
  induction ids generalizing path with
  | nil => simp
  | cons id ids ih =>
    rw [List.foldl_cons, qualifiedId, if_neg hpath, ih (by simp)]
    cases ids <;> simp [List.intercalate, List.intersperse]

theorem foldl_qualifiedId_nil {ids : List CStr} (hids : ∀ id ∈ ids, id ≠ []) :
    ids.foldl qualifiedId [] = [46].intercalate ids := by
  cases ids with
  | nil => rfl
  | cons id ids =>
    rw [List.foldl_cons, qualifiedId, if_pos rfl,
      foldl_qualifiedId (hids id List.mem_cons_self)]

/-- What is collected below a declaration: its tasks, under the path of tasks to each. -/
theorem mem_collectIds_children {x : TjNode} {a : List ℕ} {e : IdEntry}
    (hids : ∀ rel o, rel ≠ [] → x.sub rel = some o → o.info.HasTaskId) :
    e ∈ collectIds kwTask [] a 0 x.children ↔
      ∃ rel o, rel ≠ [] ∧ x.sub rel = some o ∧ o.keyword = kwTask ∧
        e = ⟨[46].intercalate (taskPath x rel), o.info.name.getD [], a ++ rel⟩ := by
  have hpath : ∀ {j : ℕ} {c : TjNode} {rel : List ℕ}, x.children[j]? = some c →
      ((c.info :: c.path rel).filterMap (·.kindId kwTask)).foldl qualifiedId []
        = [46].intercalate (taskPath x (j :: rel)) := by
    intro j c rel hc
    have heq : x.path (j :: rel) = c.info :: c.path rel := by
      rw [TjNode.path, Descent.along, hc]
      rfl
    rw [taskPath, ← heq]
    exact foldl_qualifiedId_nil fun id hid => (mem_taskPath hids hid).1
  have htask : ∀ {rel o}, rel ≠ [] → x.sub rel = some o →
      ((o.info.kindId kwTask).isSome ↔ o.keyword = kwTask) := by
    intro rel o hrel ho
    unfold TjInfo.kindId
    by_cases hk : o.info.keyword = kwTask
    · obtain ⟨id, hid, hne, -⟩ := hids rel o hrel ho hk
      simp [hk, hid, hne, TjNode.keyword]
    · simp [hk, TjNode.keyword]
  rw [mem_collectIds]
  constructor
  · rintro ⟨j, c, rel, o, hc, ho, hk, rfl⟩
    have hsub : x.sub (j :: rel) = some o := Descent.node_cons_eq_some.mpr ⟨c, hc, ho⟩
    refine ⟨j :: rel, o, by simp, hsub, (htask (by simp) hsub).mp hk, ?_⟩
    rw [hpath hc, Nat.zero_add]
  · rintro ⟨rel, o, hrel, ho, hk, rfl⟩
    cases rel with
    | nil => exact absurd rfl hrel
    | cons j rel =>
      obtain ⟨c, hc, hsub⟩ := Descent.node_cons_eq_some.mp ho
      refine ⟨j, c, rel, o, hc, hsub, (htask (by simp) ho).mpr hk, ?_⟩
      rw [hpath hc, Nat.zero_add]

/-- **The offers of a document**: each task, under the path of tasks to it. -/
theorem mem_poolIds {root : TjNode} {e : IdEntry}
    (hids : ∀ a o, a ≠ [] → root.sub a = some o → o.info.HasTaskId) :
    e ∈ poolIds kwTask root ↔
      ∃ a o, a ≠ [] ∧ root.sub a = some o ∧ o.keyword = kwTask ∧
        e = ⟨[46].intercalate (taskPath root a), o.info.name.getD [], a⟩ :=
  mem_collectIds_children hids

/-- The path of an offer, split again. -/
theorem splitDottedPath_taskPath {x o : TjNode} {rel : List ℕ}
    (hids : ∀ rel o, rel ≠ [] → x.sub rel = some o → o.info.HasTaskId) (hrel : rel ≠ [])
    (ho : x.sub rel = some o) (htask : o.keyword = kwTask) :
    splitDottedPath (some ([46].intercalate (taskPath x rel))) = taskPath x rel := by
  refine dottedSegments_intercalate (fun id hid => mem_taskPath hids hid) ?_
  have hlast := Descent.getLast?_along ho hrel
  obtain ⟨front, hfront⟩ := List.getLast?_eq_some_iff.mp hlast
  obtain ⟨id, hid, hne, -⟩ := hids rel o hrel ho htask
  have hkind : o.info.kindId kwTask = some id := by
    have hkw : o.info.keyword = kwTask := htask
    rw [TjInfo.kindId, if_pos hkw, hid, Option.filter_some, if_pos (by simpa using hne)]
  rw [taskPath, TjNode.path, hfront, List.map_append, List.filterMap_append, List.map_singleton,
    List.filterMap_cons, hkind]
  simp

/-! ### Which offers resolve -/

theorem resolveReference_zero {root : ProjectNode} {owner target : List ℕ} {path : Option CStr} :
    resolveReference root owner 0 path = some target ↔
      target ≠ [] ∧ FirstTasks root target (splitDottedPath path) := by
  unfold resolveReference
  simp only [if_true]
  by_cases hsegs : splitDottedPath path = []
  · rw [if_pos hsegs, hsegs]
    constructor
    · intro h
      cases h
    · rintro ⟨hne, h⟩
      cases h
      exact absurd rfl hne
  · rw [if_neg hsegs, findTask_eq_some]
    constructor
    · rintro ⟨rel, hrel, h, htarget⟩
      rw [htarget]
      exact ⟨hrel, h⟩
    · rintro ⟨hne, h⟩
      exact ⟨target, hne, h, rfl⟩

/-- The document of the declaration puts it at the root, and its clone is the first task of
its id at every level. -/
def CloneIsFirstFromRoot (s : Store) (order : List Slot) (i : Slot) : List ℕ → Prop
  | [] => False
  | n :: rest => ∃ j, placement s order (i, n) = some ([], j) ∧
    ∃ ids, FirstTasks (assembled s order) (j :: rest) ids

section Resolved

variable {s : Store} {order : List Slot} {i : Slot} {d : Document} {snap : DocSnapshot}
  {a : List ℕ} {o : TjNode}

theorem length_taskPath_le {x : TjNode} {rel : List ℕ} (ho : x.sub rel = some o) :
    (taskPath x rel).length ≤ rel.length := by
  refine (List.length_filterMap_le _ _).trans ?_
  rw [TjNode.path, List.length_map, Descent.length_along ho]

/-- Where all declarations of a path are tasks, their ids are its task path. -/
theorem taskPath_eq {x : TjNode} (hids : ∀ rel o, rel ≠ [] → x.sub rel = some o → o.info.HasTaskId)
    {rel : List ℕ} {ids : List CStr}
    (h : (x.path rel).map (fun y => if y.keyword = kwTask then y.id else none) = ids.map some) :
    taskPath x rel = ids := by
  have hkind : ∀ y ∈ x.path rel, y.kindId kwTask = if y.keyword = kwTask then y.id else none := by
    intro y hy
    obtain ⟨c, hc, rfl⟩ := List.mem_map.mp hy
    obtain ⟨b, hb, hsub⟩ := Descent.exists_of_mem_along hc
    unfold TjInfo.kindId
    split_ifs with hk
    · obtain ⟨id, hid, hne, -⟩ := hids b c hb hsub hk
      simp [hid, hne]
    · rfl
  rw [← List.map_congr_left hkind] at h
  have hfilter : (x.path rel).filterMap (·.kindId kwTask)
      = ((x.path rel).map (·.kindId kwTask)).filterMap id := by
    rw [List.filterMap_map]
    rfl
  rw [taskPath, hfilter, h, List.filterMap_map]
  exact List.filterMap_some

/-- **An offer resolves to its task** exactly if the task is put at the root and
its clone is the first of its id at every level. -/
theorem offer_resolves (hdocs : s.ParsedDocs) (hi : i ∈ order) (hd : s i = some d)
    (hsnap : d.snap = some snap) (ha : a ≠ []) (ho : snap.root.sub a = some o)
    (htask : o.keyword = kwTask) (owner : List ℕ) :
    (∃ c, cloneAt s order i a = some c ∧ resolveReference (assembled s order) owner 0
        (some ([46].intercalate (taskPath snap.root a))) = some c) ↔
      CloneIsFirstFromRoot s order i a := by
  have hids : ∀ rel o, rel ≠ [] → snap.root.sub rel = some o → o.info.HasTaskId :=
    fun rel o _ h => (hdocs i d snap hd hsnap).task_id rel o h
  cases a with
  | nil => exact absurd rfl ha
  | cons n rest =>
    simp only [resolveReference_zero, splitDottedPath_taskPath hids ha ho htask]
    constructor
    · rintro ⟨c, hc, -, hfirst⟩
      rw [cloneAt, Option.map_eq_some_iff] at hc
      obtain ⟨⟨place, j⟩, hplace, rfl⟩ := hc
      replace hfirst : FirstTasks (assembled s order) (place ++ j :: rest) _ := hfirst
      have hlen := length_taskPath_le ho
      rw [hfirst.length, List.length_append, List.length_cons, List.length_cons] at hlen
      have hroot : place = [] := List.length_eq_zero_iff.mp (by omega)
      subst hroot
      exact ⟨j, hplace, _, hfirst⟩
    · rintro ⟨j, hplace, ids, hfirst⟩
      refine ⟨j :: rest, by rw [cloneAt, hplace]; rfl, by simp, ?_⟩
      have hinfos := infos_along_clone hi hd hsnap hplace ho rfl
      have hpath : (snap.root.path (n :: rest)).map
          (fun x => if x.keyword = kwTask then x.id else none) = ids.map some := by
        have hnames : taskName = (fun x : ProjectInfo =>
            if x.keyword = kwTask then x.id else none) ∘ fun c : ProjectNode => c.info := rfl
        rw [← hfirst.names_along, hnames, ← List.map_map, hinfos, List.map_map]
        rfl
      rwa [taskPath_eq hids hpath]

end Resolved

/-! ### The documents of a query -/

section Query

variable {realpath : CStr → Option CStr} {s : Store}

theorem mem_docs_built {status : CcStatus} {w : WsDoc} :
    w ∈ (built realpath s status).docs ↔
      ∃ i d snap, s i = some d ∧ d.snap = some snap ∧
        w = ⟨snap, d.prefixes, finalStamp realpath s i, d.diskOnly⟩ := by
  simp only [built, stampedDocs, List.mem_filterMap, Option.map_eq_some_iff, mem_parsedSlots]
  constructor
  · rintro ⟨i, hi, v, hv, rfl⟩
    obtain ⟨d, snap, hd, hsnap⟩ := parsed_iff.mp hi
    have hv' : v = ⟨snap, d.prefixes, none, d.diskOnly⟩ := by
      simpa [populateWsDoc, hd, hsnap] using hv.symm
    subst hv'
    exact ⟨i, d, snap, hd, hsnap, rfl⟩
  · rintro ⟨i, d, snap, hd, hsnap, rfl⟩
    exact ⟨i, parsed_iff.mpr ⟨d, snap, hd, hsnap⟩, ⟨snap, d.prefixes, none, d.diskOnly⟩,
      by simp [populateWsDoc, hd, hsnap], rfl⟩

/-- Every document of a query is one of the store. -/
theorem exists_slot_of_query {status : CcStatus} {st : ServerState}
    (hws : st.ws = some (built realpath s status)) {resolve : CStr → Option CStr}
    {uri : Option CStr} {qd : QueryDoc} (hqd : qd ∈ (buildQueryContext resolve st uri false).docs) :
    ∃ i d, s i = some d ∧ d.snap = some qd.snap := by
  unfold buildQueryContext at hqd
  rw [hws] at hqd
  obtain ⟨w, hw, hmade⟩ := List.mem_filterMap.mp hqd
  obtain ⟨i, d, snap, hd, hsnap, rfl⟩ := mem_docs_built.mp hw
  unfold makeQueryDoc at hmade
  simp only [Option.ite_none_right_eq_some] at hmade
  obtain rfl := Option.some.inj hmade.2
  exact ⟨i, d, hd, hsnap⟩

/-- **The documents of a query** about a document of a project are copied into it. -/
theorem copied_of_query {status : CcStatus} {st : ServerState}
    (huris : s.UniqueUris) (hsnaps : s.SnapUris)
    (hws : st.ws = some (built realpath s status)) {resolve : CStr → Option CStr}
    {uri : Option CStr} {root : ProjectNode}
    (hroot : (buildQueryContext resolve st uri false).projectRoot = some root) :
    ∃ p, ∃ project : WsProject, (built realpath s status).projects[p]? = some project ∧
      project.root = root ∧ root = assembled s (copiedDocs realpath s p) ∧
      ∀ qd ∈ (buildQueryContext resolve st uri false).docs, ∀ i d snap, s i = some d →
        d.snap = some snap → qd.snap = snap → i ∈ copiedDocs realpath s p := by
  unfold buildQueryContext at hroot ⊢
  rw [hws] at hroot ⊢
  simp only [Option.map_eq_some_iff, Option.bind_eq_some_iff] at hroot
  obtain ⟨project, ⟨p, hp, hproject⟩, rfl⟩ := hroot
  obtain ⟨r, e, -, rfl, -⟩ := (projects_at status).mp hproject
  refine ⟨p, _, hproject, rfl, rfl, fun qd hqd i d snap hd hsnap hq => ?_⟩
  obtain ⟨w, hw, hmade⟩ := List.mem_filterMap.mp hqd
  obtain ⟨canon, hcanon, hfind⟩ := Option.bind_eq_some_iff.mp hp
  obtain ⟨v, hv, hstamp⟩ := Option.bind_eq_some_iff.mp hfind
  have hvmem := List.mem_of_find?_eq_some hv
  have hvuri := List.find?_some hv
  obtain ⟨i', d', snap', hd', hsnap', rfl⟩ := mem_docs_built.mp hw
  obtain ⟨k, f, fsnap, hf, hfsnap, rfl⟩ := mem_docs_built.mp hvmem
  have hstamped : finalStamp realpath s i = some p := by
    unfold makeQueryDoc at hmade
    simp only [Bool.or_false, Option.ite_none_right_eq_some] at hmade
    obtain ⟨hcond, hmade⟩ := hmade
    obtain rfl := Option.some.inj hmade
    -- the slot that the query document comes from is the one with its URI
    have hsame : i' = i := by
      refine huris i' i d' d hd' hd ?_
      rw [← hsnaps i' d' snap' hd' hsnap', ← hsnaps i d snap hd hsnap, ← hq]
    subst hsame
    simp only [Bool.or_eq_true, decide_eq_true_eq, Bool.and_eq_true, beq_iff_eq] at hcond
    rcases hcond with hprimary | ⟨-, hsibling⟩
    · have hk : k = i' := by
        refine huris k i' f d' hf hd' ?_
        rw [← hsnaps k f fsnap hf hfsnap, ← hsnaps i' d' snap' hd' hsnap']
        rw [hcanon, Option.some.injEq] at hprimary
        rw [← hprimary]
        simpa using hvuri
      subst hk
      exact hstamp
    · rw [hsibling, hp]
  exact ((finalStamp_eq_some (parsed_iff.mpr ⟨d, snap, hd, hsnap⟩)).mp hstamped).1

end Query

/-! ### Absolute completion -/

/-- The documents beside the primary one (`collect_sibling_pools`). -/
def QueryContext.siblingRoots (qc : QueryContext) : List TjNode :=
  (qc.docs.filter fun qd => !qd.isPrimary).map (·.snap.root)

theorem buildDepCompletions_absolute {root : TjNode} {extra : List TjNode}
    {tokens : List TokenSpan} {owners : List (Option (List ℕ))} {cursor : LspPos}
    (hbangs : (countLeadingBangs tokens cursor).1 = 0) :
    ∃ items, buildDepCompletions root extra tokens owners cursor kwTask = some (items, false) ∧
      items.map (·.label) = (poolIds kwTask root).map (·.id) ++
        extra.flatMap fun sibling => (poolIds kwTask sibling).map (·.id) := by
  cases h : countLeadingBangs tokens cursor with
  | mk bangCount first =>
    rw [h] at hbangs
    simp only at hbangs
    subst hbangs
    refine ⟨(collectAllIds kwTask root extra).map fun e =>
      emitIdItem e.id e.name kwTask (bangs 0) (first.getD ⟨0, 0⟩) cursor, ?_, ?_⟩
    · rw [buildDepCompletions, h]
      rfl
    · have hlabel : ((fun item : CompletionItem => item.label) ∘ fun e : IdEntry =>
          emitIdItem e.id e.name kwTask (bangs 0) (first.getD ⟨0, 0⟩) cursor) = fun e => e.id := by
        funext e
        rw [Function.comp_apply, emitIdItem, if_neg (fun h => h.1 rfl)]
      rw [List.map_map, hlabel, collectAllIds, List.map_append, List.map_flatMap]

/-- **Absolute completion agrees with absolute resolution** on exactly the offers
whose task its document puts at the root, with a clone that is the first task of
its id at every level. -/
theorem absolute_completion (realpath : CStr → Option CStr) (s : Store) (status : CcStatus)
    (hdocs : s.ParsedDocs) (huris : s.UniqueUris) (hsnaps : s.SnapUris) {st : ServerState}
    (hws : st.ws = buildWorkspaceSnapshot realpath s status) {resolve : CStr → Option CStr}
    {uri : Option CStr} {root : ProjectNode}
    (hroot : (buildQueryContext resolve st uri false).projectRoot = some root) :
    (∀ primary, (buildQueryContext resolve st uri false).primary = some primary →
      ∀ owners cursor, (countLeadingBangs primary.snap.tokSpans cursor).1 = 0 →
      ∃ items, buildDepCompletions primary.snap.root
        (buildQueryContext resolve st uri false).siblingRoots primary.snap.tokSpans owners cursor
        kwTask = some (items, false) ∧
      items.map (·.label) = (poolIds kwTask primary.snap.root).map (·.id) ++
        (buildQueryContext resolve st uri false).siblingRoots.flatMap
          fun sibling => (poolIds kwTask sibling).map (·.id)) ∧
    ∃ p, root = assembled s (copiedDocs realpath s p) ∧
      ∀ qd ∈ (buildQueryContext resolve st uri false).docs, ∀ i d, s i = some d →
        d.snap = some qd.snap → ∀ e ∈ poolIds kwTask qd.snap.root, ∀ owner,
        ((∃ c, cloneAt s (copiedDocs realpath s p) i e.source = some c ∧
            resolveReference root owner 0 (some e.id) = some c) ↔
          CloneIsFirstFromRoot s (copiedDocs realpath s p) i e.source) := by
  refine ⟨fun primary _ owners cursor hbangs => buildDepCompletions_absolute hbangs, ?_⟩
  rw [build_eq] at hws
  obtain ⟨p, project, -, -, rfl, hmem⟩ := copied_of_query huris hsnaps hws hroot
  refine ⟨p, rfl, fun qd hqd i d hd hsnap e he owner => ?_⟩
  have hi := hmem qd hqd i d qd.snap hd hsnap rfl
  obtain ⟨a, o, ha, ho, htask, rfl⟩ := (mem_poolIds fun a o _ h =>
    (hdocs i d qd.snap hd hsnap).task_id a o h).mp he
  exact offer_resolves hdocs hi hd hsnap ha ho htask owner

/-! ### An include under a prefix -/

/-- A document that includes another with the prefix `a`. -/
def prefixedStore : Store :=
  (emptyStore.put 0 (sampleRoot "file:///a.tjp" [sampleDeclaration kwTask "a"]
    ["file:///b.tji"])).put 1
    { sampleRoot "file:///b.tji" [sampleDeclaration kwTask "t"] [] with
      isCcRoot := false
      prefixes := fun | .task => some (cstr "a") | _ => none }

theorem prefixedStore_eq_some {i : Slot} {d : Document} (h : prefixedStore i = some d) :
    i = 0 ∧ d.uri = cstr "file:///a.tjp" ∨ i = 1 ∧ d.uri = cstr "file:///b.tji" := by
  by_cases h1 : i = 1
  · subst h1
    rw [prefixedStore, Store.put, Function.update_self, Option.some.injEq] at h
    subst h
    exact .inr ⟨rfl, rfl⟩
  · rw [prefixedStore, Store.put, Function.update_of_ne h1] at h
    by_cases h0 : i = 0
    · subst h0
      rw [Store.put, Function.update_self, Option.some.injEq] at h
      subst h
      exact .inl ⟨rfl, rfl⟩
    · rw [Store.put, Function.update_of_ne h0] at h
      cases h

theorem prefixedStore_docs :
    prefixedStore.ParsedDocs ∧ prefixedStore.UniqueUris ∧ prefixedStore.SnapUris := by
  have hflat : ∀ id : String, cstr id ≠ [] → 46 ∉ cstr id → ∀ uri,
      ∀ snap, (sampleRoot uri [sampleDeclaration kwTask id] []).snap = some snap →
      ParsedDocument snap := by
    intro id hne hdot uri snap hsnap
    cases hsnap
    refine parsedDocument_of_flat 0 rfl rfl (fun c hc => ?_) fun n c k hc hk => ?_
    · rw [TjNode.children, List.mem_singleton] at hc
      subst hc
      exact ⟨rfl, rfl, _, rfl, hne, hdot⟩
    · cases n with
      | zero =>
        cases hc
        cases hk
      | succ n => cases hc
  refine ⟨fun i d snap hd hsnap => ?_, fun i j d e hd he huri => ?_, fun i d snap hd hsnap => ?_⟩
  · rcases prefixedStore_eq_some hd with ⟨rfl, -⟩ | ⟨rfl, -⟩
    · cases hd
      exact hflat "a" (by decide) (by decide) "file:///a.tjp" snap hsnap
    · cases hd
      exact hflat "t" (by decide) (by decide) "file:///b.tji" snap hsnap
  · rcases prefixedStore_eq_some hd with ⟨rfl, hduri⟩ | ⟨rfl, hduri⟩ <;>
      rcases prefixedStore_eq_some he with ⟨rfl, heuri⟩ | ⟨rfl, heuri⟩
    · rfl
    · rw [hduri, heuri] at huri
      revert huri
      decide
    · rw [hduri, heuri] at huri
      revert huri
      decide
    · rfl
  · rcases prefixedStore_eq_some hd with ⟨rfl, -⟩ | ⟨rfl, -⟩ <;>
    · cases hd
      cases hsnap
      rfl

/-- A server that has published `prefixedStore`. -/
def prefixedState : ServerState :=
  { initialState with
    docs := prefixedStore
    ws := buildWorkspaceSnapshot (fun _ => none) prefixedStore .ok }

/-- The task `t` of the included document is offered as `t`, which resolves to
nothing: in the tree it is `a.t`. -/
theorem prefixed_offer_lost :
    ¬ ∀ (realpath : CStr → Option CStr) (s : Store) (status : CcStatus), s.ParsedDocs →
      s.UniqueUris → s.SnapUris → ∀ st : ServerState,
      st.ws = buildWorkspaceSnapshot realpath s status →
      ∀ uri root, (buildQueryContext realpath st uri false).projectRoot = some root →
      ∀ p, root = assembled s (copiedDocs realpath s p) →
      ∀ qd ∈ (buildQueryContext realpath st uri false).docs, ∀ i d, s i = some d →
        d.snap = some qd.snap → ∀ e ∈ poolIds kwTask qd.snap.root, ∀ owner,
        ∃ c, cloneAt s (copiedDocs realpath s p) i e.source = some c ∧
          resolveReference root owner 0 (some e.id) = some c := by
  intro h
  obtain ⟨hdocs, huris, hsnaps⟩ := prefixedStore_docs
  have hws : prefixedState.ws = some (built (fun _ => none) prefixedStore .ok) := build_eq _ _ _
  obtain ⟨root, hroot⟩ := Option.isSome_iff_exists.mp (show ((buildQueryContext (fun _ => none)
    prefixedState (some (cstr "file:///a.tjp")) false).projectRoot).isSome by decide +kernel)
  obtain ⟨p, project, -, -, hp, -⟩ := copied_of_query huris hsnaps hws hroot
  have hdocuris : (buildQueryContext (fun _ => none) prefixedState (some (cstr "file:///a.tjp"))
      false).docs.map (·.snap.uri) = [cstr "file:///a.tjp", cstr "file:///b.tji"] := by
    decide +kernel
  have hmem : cstr "file:///b.tji" ∈ (buildQueryContext (fun _ => none) prefixedState
      (some (cstr "file:///a.tjp")) false).docs.map (·.snap.uri) := by
    rw [hdocuris]
    simp
  obtain ⟨qd, hqd, huri⟩ := List.mem_map.mp hmem
  obtain ⟨i, d, hd, hsnap⟩ := exists_slot_of_query hws hqd
  have hduri := (hsnaps i d qd.snap hd hsnap).symm.trans huri
  rcases prefixedStore_eq_some hd with ⟨rfl, hd0⟩ | ⟨rfl, -⟩
  · rw [hduri] at hd0
    revert hd0
    decide
  · cases hd
    have hpool : (⟨cstr "t", [], [0]⟩ : IdEntry) ∈ poolIds kwTask qd.snap.root := by
      rw [← Option.some.inj hsnap]
      decide
    obtain ⟨c, -, hc⟩ := h (fun _ => none) prefixedStore .ok hdocs huris hsnaps prefixedState rfl
      _ root hroot p hp qd hqd 1 _ rfl hsnap _ hpool []
    have hnone : ((buildQueryContext (fun _ => none) prefixedState (some (cstr "file:///a.tjp"))
        false).projectRoot).map (fun root => resolveReference root [] 0 (some (cstr "t")))
          = some none := by decide +kernel
    rw [hroot, Option.map_some, Option.some.injEq] at hnone
    rw [hnone] at hc
    cases hc

/-- The theorem, for the project of that store. -/
theorem absolute_completion_prefixed :
    ∃ root, (buildQueryContext (fun _ => none) prefixedState (some (cstr "file:///a.tjp"))
        false).projectRoot = some root ∧
      ∃ p, root = assembled prefixedStore (copiedDocs (fun _ => none) prefixedStore p) ∧
        ∀ qd ∈ (buildQueryContext (fun _ => none) prefixedState (some (cstr "file:///a.tjp"))
            false).docs, ∀ i d, prefixedStore i = some d → d.snap = some qd.snap →
          ∀ e ∈ poolIds kwTask qd.snap.root, ∀ owner,
          ((∃ c, cloneAt prefixedStore (copiedDocs (fun _ => none) prefixedStore p) i e.source
                = some c ∧ resolveReference root owner 0 (some e.id) = some c) ↔
            CloneIsFirstFromRoot prefixedStore (copiedDocs (fun _ => none) prefixedStore p) i
              e.source) := by
  have hquery : ((buildQueryContext (fun _ => none) prefixedState (some (cstr "file:///a.tjp"))
      false).projectRoot).isSome = true := by
    decide +kernel
  obtain ⟨root, hroot⟩ := Option.isSome_iff_exists.mp hquery
  exact ⟨root, hroot, (absolute_completion (fun _ => none) prefixedStore .ok prefixedStore_docs.1
    prefixedStore_docs.2.1 prefixedStore_docs.2.2 rfl hroot).2⟩

end TaskjugglerLsp
