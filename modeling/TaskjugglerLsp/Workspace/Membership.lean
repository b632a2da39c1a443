import TaskjugglerLsp.Tj3
import TaskjugglerLsp.Workspace.Assembly
import TaskjugglerLsp.Workspace.Loading

/-!
# Projects and their members

What a snapshot says about membership, for every store: the stamps partition the
parsed documents among the projects (`build_partition`), and a project's stamped
documents are the ones it copies less those that an earlier project has copied
(`build_members`).
-/

namespace TaskjugglerLsp

section Stamps

variable {realpath : CStr → Option CStr} {s : Store}

/-- The project that the document in a slot is stamped with. -/
def projectOf (s : Store) (ws : WorkspaceSnapshot) (i : Slot) : Option ℕ := do
  let wsd ← slotToWsdoc s i
  let w ← ws.docs[wsd]?
  w.projectIndex

variable (realpath s) in
/-- The snapshot of a store. -/
def built (status : CcStatus) : WorkspaceSnapshot :=
  ⟨stampedDocs s (finalStamp realpath s), (allRoots s).filterMap (rootProject realpath s)
    ++ (allOrphans realpath s).filterMap (orphanProject s), status⟩

theorem projectOf_built (status : CcStatus) {i : Slot} (h : s.parsed i = true) :
    projectOf s (built realpath s status) i = finalStamp realpath s i := by
  obtain ⟨w, hw⟩ := Option.isSome_iff_exists.mp (isSome_populateWsDoc h)
  unfold projectOf built
  simp [slotToWsdoc_of h, stampedDocs_at _ h, hw]

theorem projectOf_of_not_parsed {ws : WorkspaceSnapshot} {i : Slot} (h : s.parsed i ≠ true) :
    projectOf s ws i = none := by
  unfold projectOf slotToWsdoc
  rw [if_neg h]
  rfl

theorem mem_allRoots {i : Slot} : i ∈ allRoots s ↔ isRoot s i = true := by
  simp [allRoots, rootsIn]

theorem parsed_of_isRoot {i : Slot} (h : isRoot s i = true) : s.parsed i = true := by
  obtain ⟨d, hd, -, hs⟩ := isRoot_iff.mp h
  obtain ⟨snap, hsnap⟩ := Option.isSome_iff_exists.mp hs
  exact parsed_iff.mpr ⟨d, snap, hd, hsnap⟩

theorem parsed_of_mem_includedDocs {i j : Slot} (h : j ∈ includedDocs realpath s i) :
    s.parsed j = true := by
  unfold includedDocs at h
  cases hi : s i with
  | none =>
    rw [hi] at h
    cases h
  | some d =>
    rw [hi] at h
    obtain ⟨uri, -, hu⟩ := List.mem_filterMap.mp h
    exact (Option.filter_eq_some_iff.mp hu).2

theorem parsed_of_reaches {r i : Slot} (hr : s.parsed r = true) (h : Reaches realpath s r i) :
    s.parsed i = true := by
  cases h with
  | refl => exact hr
  | tail _ h => exact parsed_of_mem_includedDocs h

/-! ### What each project copies -/

variable (realpath s) in
/-- The documents that the project with that index copies, in order. -/
def copiedDocs (p : ℕ) : List Slot :=
  match (allRoots s)[p]? with
  | some r => includeClosure realpath s r
  | none => (allOrphans realpath s)[p - (allRoots s).length]?.toList

theorem copiedDocs_root {p : ℕ} {r : Slot} (h : (allRoots s)[p]? = some r) :
    copiedDocs realpath s p = includeClosure realpath s r := by rw [copiedDocs, h]

theorem copiedDocs_orphan {n : ℕ} {i : Slot} (h : (allOrphans realpath s)[n]? = some i) :
    copiedDocs realpath s ((allRoots s).length + n) = [i] := by
  rw [copiedDocs, List.getElem?_eq_none (Nat.le_add_right _ _), Nat.add_sub_cancel_left, h]
  rfl

theorem mem_allOrphans {i : Slot} : i ∈ allOrphans realpath s ↔
    s.parsed i = true ∧ ∀ r, isRoot s r = true → ¬ Reaches realpath s r i := by
  simp only [allOrphans, orphansIn, List.mem_filter, List.mem_finRange, true_and, Bool.and_eq_true,
    Option.isNone_iff_eq_none, claimOf, List.findIdx?_eq_none_iff, mem_allRoots,
    mem_includeClosure, decide_eq_false_iff_not]

theorem nodup_allRoots : (allRoots s).Nodup := by
  unfold allRoots rootsIn
  exact (List.nodup_finRange maxDocs).filter _

theorem nodup_allOrphans : (allOrphans realpath s).Nodup := by
  unfold allOrphans orphansIn
  exact (List.nodup_finRange maxDocs).filter _

theorem claimOf_eq_some {p : ℕ} {i : Slot} :
    claimOf realpath s (allRoots s) i = some p ↔
      p < (allRoots s).length ∧ i ∈ copiedDocs realpath s p ∧
        ∀ q < p, i ∉ copiedDocs realpath s q := by
  have hroot : ∀ {q : ℕ} (hq : q < (allRoots s).length),
      copiedDocs realpath s q = includeClosure realpath s (allRoots s)[q] :=
    fun hq => copiedDocs_root (List.getElem?_eq_getElem hq)
  rw [claimOf, List.findIdx?_eq_some_iff_getElem]
  simp only [decide_eq_true_eq]
  constructor
  · rintro ⟨hp, hmem, hfirst⟩
    refine ⟨hp, by rwa [hroot hp], fun q hq => ?_⟩
    have := hfirst q hq
    rwa [hroot (by omega)]
  · rintro ⟨hp, hmem, hfirst⟩
    rw [hroot hp] at hmem
    refine ⟨hp, hmem, fun q hq => ?_⟩
    have := hfirst q hq
    rwa [hroot (by omega)] at this

theorem not_mem_copiedDocs_of_orphan {i : Slot} (h : i ∈ allOrphans realpath s) {q : ℕ}
    (hq : q < (allRoots s).length) : i ∉ copiedDocs realpath s q := by
  rw [copiedDocs_root (List.getElem?_eq_getElem hq), mem_includeClosure]
  exact (mem_allOrphans.mp h).2 _ (mem_allRoots.mp (List.getElem_mem hq))

theorem idxOf?_eq_some {l : List Slot} (hl : l.Nodup) {i : Slot} {n : ℕ} :
    l.idxOf? i = some n ↔ l[n]? = some i := by
  rw [List.idxOf?_eq_some_iff, List.getElem?_eq_some_iff]
  constructor
  · rintro ⟨h, heq, -⟩
    exact ⟨h, by simpa using heq⟩
  · rintro ⟨h, heq⟩
    refine ⟨h, by simpa using heq, fun j hj => ?_⟩
    intro hji
    have hji' : l[j] = i := by simpa using hji
    have := (hl.getElem_inj_iff (i := j) (j := n)).mp (hji'.trans heq.symm)
    omega

/-- **The stamp of a document** is the first project that copies it. -/
theorem finalStamp_eq_some {i : Slot} (hi : s.parsed i = true) {p : ℕ} :
    finalStamp realpath s i = some p ↔
      i ∈ copiedDocs realpath s p ∧ ∀ q < p, i ∉ copiedDocs realpath s q := by
  unfold finalStamp stampOf
  cases hc : claimOf realpath s (allRoots s) i with
  | some q =>
    obtain ⟨hq, hmem, hfirst⟩ := claimOf_eq_some.mp hc
    rw [Option.some_or, Option.some.injEq]
    constructor
    · rintro rfl
      exact ⟨hmem, hfirst⟩
    · rintro ⟨hmem', hfirst'⟩
      by_contra hne
      rcases Nat.lt_or_gt_of_ne hne with h | h
      · exact hfirst' q h hmem
      · exact hfirst p h hmem'
  | none =>
    have horph : i ∈ allOrphans realpath s := by
      rw [allOrphans, orphansIn, List.mem_filter]
      simp [hi, hc]
    rw [Option.none_or, Option.map_eq_some_iff]
    constructor
    · rintro ⟨n, hn, rfl⟩
      rw [idxOf?_eq_some nodup_allOrphans] at hn
      refine ⟨by rw [copiedDocs_orphan hn]; simp, fun q hq hmem => ?_⟩
      by_cases hq' : q < (allRoots s).length
      · exact not_mem_copiedDocs_of_orphan horph hq' hmem
      · rw [copiedDocs, List.getElem?_eq_none (by omega), Option.mem_toList] at hmem
        have := (idxOf?_eq_some nodup_allOrphans).mpr hmem
        rw [(idxOf?_eq_some nodup_allOrphans).mpr hn] at this
        cases this
        omega
    · rintro ⟨hmem, -⟩
      by_cases hp : p < (allRoots s).length
      · exact absurd hmem (not_mem_copiedDocs_of_orphan horph hp)
      · rw [copiedDocs, List.getElem?_eq_none (by omega), Option.mem_toList] at hmem
        exact ⟨_, (idxOf?_eq_some nodup_allOrphans).mpr hmem, by omega⟩

/-! ### The projects -/

theorem length_rootProjects :
    ((allRoots s).filterMap (rootProject realpath s)).length = (allRoots s).length :=
  length_filterMap_of_isSome fun _ => isSome_rootProject

/-- The project at an index belongs to a document in a slot, and its tree is
assembled from the documents it copies. -/
theorem projects_at (status : CcStatus) {p : ℕ} {project : WsProject} :
    (built realpath s status).projects[p]? = some project ↔
      ∃ r d, s r = some d ∧ project = ⟨d.uri, assembled s (copiedDocs realpath s p),
        decide (p < (allRoots s).length)⟩ ∧
        ((allRoots s)[p]? = some r ∨
          ∃ n, p = (allRoots s).length + n ∧ (allOrphans realpath s)[n]? = some r) := by
  have hor : ∀ {n : ℕ}, ((allOrphans realpath s).filterMap (orphanProject s))[n]?
      = (allOrphans realpath s)[n]?.bind (orphanProject s) := fun {n} =>
    getElem?_filterMap_of_isSome (fun _ => isSome_orphanProject) n
  have hrt : ∀ {n : ℕ}, ((allRoots s).filterMap (rootProject realpath s))[n]?
      = (allRoots s)[n]?.bind (rootProject realpath s) := fun {n} =>
    getElem?_filterMap_of_isSome (fun _ => isSome_rootProject) n
  unfold built
  simp only
  by_cases hp : p < (allRoots s).length
  · rw [List.getElem?_append_left (by rwa [length_rootProjects]), hrt, List.getElem?_eq_getElem hp,
      Option.bind_some, decide_eq_true hp]
    simp only [rootProject, projectAt, Option.map_eq_some_iff]
    constructor
    · rintro ⟨d, hd, rfl⟩
      refine ⟨_, d, hd, ?_, Or.inl rfl⟩
      rw [copiedDocs_root (List.getElem?_eq_getElem hp)]
    · rintro ⟨r, d, hd, rfl, hr | ⟨n, hn, -⟩⟩
      · cases hr
        refine ⟨d, hd, ?_⟩
        rw [copiedDocs_root (List.getElem?_eq_getElem hp)]
      · omega
  · rw [List.getElem?_append_right (by rw [length_rootProjects]; omega), length_rootProjects, hor,
      decide_eq_false hp]
    simp only [Option.bind_eq_some_iff, orphanProject, projectAt, Option.map_eq_some_iff]
    constructor
    · rintro ⟨i, hi, d, hd, rfl⟩
      have hpe : p = (allRoots s).length + (p - (allRoots s).length) := by omega
      refine ⟨i, d, hd, ?_, Or.inr ⟨_, hpe, hi⟩⟩
      rw [hpe, copiedDocs_orphan hi]
    · rintro ⟨r, d, hd, rfl, hr | ⟨n, rfl, hn⟩⟩
      · rw [List.getElem?_eq_none (by omega)] at hr
        cases hr
      · refine ⟨r, by rwa [Nat.add_sub_cancel_left], d, hd, ?_⟩
        rw [copiedDocs_orphan hn]

theorem exists_project (status : CcStatus) {p : ℕ} {i : Slot}
    (h : i ∈ copiedDocs realpath s p) :
    ∃ project, (built realpath s status).projects[p]? = some project := by
  have hget : ∀ {r : Slot} {d : Document}, s r = some d →
      ((allRoots s)[p]? = some r ∨
        ∃ n, p = (allRoots s).length + n ∧ (allOrphans realpath s)[n]? = some r) →
      ∃ project, (built realpath s status).projects[p]? = some project :=
    fun hd hr => ⟨_, (projects_at status).mpr ⟨_, _, hd, rfl, hr⟩⟩
  unfold copiedDocs at h
  cases hp : (allRoots s)[p]? with
  | some r =>
    obtain ⟨d, hd, -⟩ := isRoot_iff.mp (mem_allRoots.mp (List.mem_of_getElem? hp))
    exact hget hd (Or.inl hp)
  | none =>
    rw [hp] at h
    have h' := Option.mem_toList.mp h
    obtain ⟨d, -, hd, -⟩ := parsed_iff.mp (mem_allOrphans.mp (List.mem_of_getElem? h')).1
    exact hget hd (Or.inr ⟨_, by have := List.getElem?_eq_none_iff.mp hp; omega, h'⟩)

theorem nodup_copiedDocs (p : ℕ) : (copiedDocs realpath s p).Nodup := by
  unfold copiedDocs
  cases (allRoots s)[p]? with
  | some r => exact (includeClosure_spec realpath s r).2.1
  | none => cases (allOrphans realpath s)[p - (allRoots s).length]? <;> simp

theorem exists_finalStamp {i : Slot} (hi : s.parsed i = true) :
    ∃ p, finalStamp realpath s i = some p := by
  have hex : ∃ p, i ∈ copiedDocs realpath s p := by
    by_cases h : ∃ r, isRoot s r = true ∧ Reaches realpath s r i
    · obtain ⟨r, hr, hreach⟩ := h
      obtain ⟨p, hp⟩ := List.mem_iff_getElem?.mp (mem_allRoots.mpr hr)
      exact ⟨p, by rwa [copiedDocs_root hp, mem_includeClosure]⟩
    · have horph : i ∈ allOrphans realpath s :=
        mem_allOrphans.mpr ⟨hi, fun r hr hreach => h ⟨r, hr, hreach⟩⟩
      obtain ⟨n, hn⟩ := List.mem_iff_getElem?.mp horph
      exact ⟨_, by rw [copiedDocs_orphan hn]; simp⟩
  classical
  exact ⟨Nat.find hex, (finalStamp_eq_some hi).mpr ⟨Nat.find_spec hex, fun q hq => Nat.find_min hex hq⟩⟩

theorem lt_length_projects (status : CcStatus) {p : ℕ} {project : WsProject}
    (h : (built realpath s status).projects[p]? = some project) :
    project.fromCompileCommands = true ↔ p < (allRoots s).length := by
  obtain ⟨r, d, -, rfl, -⟩ := (projects_at status).mp h
  exact decide_eq_true_iff

/-- The documents that a root project copies are those that its root reaches. -/
theorem mem_copiedDocs_root {p : ℕ} {r i : Slot} (h : (allRoots s)[p]? = some r) :
    i ∈ copiedDocs realpath s p ↔ Reaches realpath s r i := by
  rw [copiedDocs_root h, mem_includeClosure]

/-- The stamp is that of a root project where a root reaches the document. -/
theorem lt_length_of_finalStamp {p : ℕ} {i : Slot} (hi : s.parsed i = true)
    (h : finalStamp realpath s i = some p) :
    p < (allRoots s).length ↔ ∃ r, isRoot s r = true ∧ Reaches realpath s r i := by
  obtain ⟨hmem, hfirst⟩ := (finalStamp_eq_some hi).mp h
  constructor
  · intro hp
    refine ⟨(allRoots s)[p], mem_allRoots.mp (List.getElem_mem hp), ?_⟩
    exact (mem_copiedDocs_root (List.getElem?_eq_getElem hp)).mp hmem
  · rintro ⟨r, hr, hreach⟩
    obtain ⟨q, hq⟩ := List.mem_iff_getElem?.mp (mem_allRoots.mpr hr)
    obtain ⟨hlt, -⟩ := List.getElem?_eq_some_iff.mp hq
    by_contra hp
    exact hfirst q (by omega) ((mem_copiedDocs_root hq).mpr hreach)

/-- The project of a document that no root reaches copies this document alone. -/
theorem copiedDocs_of_unreached {p : ℕ} {i : Slot} (hi : s.parsed i = true)
    (hnot : ¬ ∃ r, isRoot s r = true ∧ Reaches realpath s r i)
    (h : finalStamp realpath s i = some p) :
    ¬ p < (allRoots s).length ∧ copiedDocs realpath s p = [i] ∧
      (allOrphans realpath s)[p - (allRoots s).length]? = some i := by
  have hp : ¬ p < (allRoots s).length := fun hp => hnot ((lt_length_of_finalStamp hi h).mp hp)
  have hmem := ((finalStamp_eq_some hi).mp h).1
  have hget : copiedDocs realpath s p
      = (allOrphans realpath s)[p - (allRoots s).length]?.toList := by
    rw [copiedDocs, List.getElem?_eq_none (by omega)]
  rw [hget, Option.mem_toList] at hmem
  refine ⟨hp, ?_, hmem⟩
  rw [hget, hmem]
  rfl

/-- A document is the root of a compile_commands project if and only if it is flagged and parsed. -/
theorem exists_root_project (hu : s.UniqueUris) (status : CcStatus) {i : Slot} {d : Document}
    (hd : s i = some d) :
    (∃ project ∈ (built realpath s status).projects,
      project.id = d.uri ∧ project.fromCompileCommands = true) ↔ isRoot s i = true := by
  constructor
  · rintro ⟨project, hmem, hid, hcc⟩
    obtain ⟨p, hp⟩ := List.mem_iff_getElem?.mp hmem
    have hlt := (lt_length_projects status hp).mp hcc
    obtain ⟨r, e, he, rfl, hr | ⟨n, hn, -⟩⟩ := (projects_at status).mp hp
    · obtain rfl := hu r i e d he hd hid
      exact mem_allRoots.mp (List.mem_of_getElem? hr)
    · omega
  · intro hi
    obtain ⟨p, hp⟩ := List.mem_iff_getElem?.mp (mem_allRoots.mpr hi)
    have hproject := (@projects_at realpath s status p _).mpr ⟨i, d, hd, rfl, Or.inl hp⟩
    refine ⟨_, List.mem_of_getElem? hproject, rfl, ?_⟩
    exact decide_eq_true (List.getElem?_eq_some_iff.mp hp).1

/-! ### The partition -/

/-- What copying the declaration with that position does to a tree: nothing to the project
block, nothing where its prefix names no node, and else it is copied once. -/
def CopiedOnce (s : Store) (t : ProjectNode) (step : Slot × ℕ) : Prop :=
  ∀ d decl, declarationAt s step = some (d, decl) →
    (decl.keyword = kwProject → copyStep s t step = t) ∧
    (decl.keyword ≠ kwProject → ∃ k, (nodeKindOf decl.keyword).prefixKind = some k ∧
      (d.prefixes k = none →
        findNodeByDottedPath t (d.prefixes k) (nodeKindOf decl.keyword) = some []) ∧
      (findNodeByDottedPath t (d.prefixes k) (nodeKindOf decl.keyword) = none →
        copyStep s t step = t) ∧
      ∀ address, findNodeByDottedPath t (d.prefixes k) (nodeKindOf decl.keyword) = some address →
        copyStep s t step = t.appendChild address (projectNodeFromTj d.uri decl) ∧
        (copyStep s t step).nodes.Perm ((projectNodeFromTj d.uri decl).nodes ++ t.nodes))

theorem prefixKind_eq_none {keyword : ℕ} :
    (nodeKindOf keyword).prefixKind = none ↔ keyword = kwProject := by
  unfold nodeKindOf
  split_ifs with h1 h2 h3 h4 h5
  · simp [NodeKind.prefixKind, h1, kwTask, kwProject]
  · simp [NodeKind.prefixKind, h2, kwAccount, kwProject]
  · simp [NodeKind.prefixKind, h3, kwResource, kwProject]
  · simp [NodeKind.prefixKind, h4, kwShift, kwProject]
  · simp [NodeKind.prefixKind, h5]
  · simp [NodeKind.prefixKind, h5]

theorem copiedOnce (s : Store) (t : ProjectNode) (step : Slot × ℕ) : CopiedOnce s t step := by
  intro d decl hdecl
  have hstep : copyStep s t step = copyDeclaration d t decl := by rw [copyStep, hdecl]
  obtain ⟨hout, hin⟩ := copyDeclaration_spec d t decl
  rw [hstep]
  constructor
  · intro hk
    refine hout ?_
    rw [placeFor, prefixKind_eq_none.mpr hk]
    rfl
  · intro hk
    obtain ⟨k, hkind⟩ := Option.ne_none_iff_exists'.mp (mt prefixKind_eq_none.mp hk)
    have hplace : placeFor d t decl
        = findNodeByDottedPath t (d.prefixes k) (nodeKindOf decl.keyword) := by
      rw [placeFor, hkind, Option.bind_some]
    rw [hplace] at hout hin
    refine ⟨k, hkind, ?_, hout, hin⟩
    intro hp
    rw [hp]
    rfl

/-- **A snapshot partitions the parsed documents.**  Each one is stamped with one
project; that project is a compile_commands project if and only if one of the
roots reaches the document, and else it is the document's own.  A project's tree
is assembled from the declarations of distinct documents, each of which has its
turn once. -/
theorem build_partition (realpath : CStr → Option CStr) (s : Store) (status : CcStatus) :
    ∃ ws, buildWorkspaceSnapshot realpath s status = some ws ∧
      ws.docs.length = (parsedSlots s).length ∧
      (∀ i, s.parsed i = true → ∃ p project, projectOf s ws i = some p ∧
        ws.projects[p]? = some project ∧
        (project.fromCompileCommands = true ↔ ∃ r, isRoot s r = true ∧ Reaches realpath s r i) ∧
        ((¬ ∃ r, isRoot s r = true ∧ Reaches realpath s r i) →
          (s i).map (·.uri) = some project.id ∧ ∀ j, projectOf s ws j = some p → j = i)) ∧
      ∀ (p : ℕ) (project : WsProject), ws.projects[p]? = some project →
        ∃ r order, (s r).map (·.uri) = some project.id ∧
          (∀ i, i ∈ order ↔
            if project.fromCompileCommands then Reaches realpath s r i else i = r) ∧
          (∀ i n, (i, n) ∈ copySteps s order ↔ i ∈ order ∧ n < (declarationsOf s i).length) ∧
          (copySteps s order).Nodup ∧
          project.root = (copySteps s order).foldl (copyStep s) .empty ∧
          ∀ t step, CopiedOnce s t step := by
  refine ⟨built realpath s status, build_eq realpath s status, ?_, ?_, ?_⟩
  · exact length_filterMap_of_isSome fun i hi => by
      rw [Option.isSome_map]
      exact isSome_populateWsDoc (mem_parsedSlots.mp hi)
  · intro i hi
    obtain ⟨p, hp⟩ := @exists_finalStamp realpath s i hi
    have hmem := ((finalStamp_eq_some hi).mp hp).1
    obtain ⟨project, hproject⟩ := exists_project status hmem
    have hstamp := @projectOf_built realpath s status i hi
    refine ⟨p, project, hstamp.trans hp, hproject, ?_, ?_⟩
    · rw [lt_length_projects status hproject, lt_length_of_finalStamp hi hp]
    · intro hnot
      obtain ⟨hlt, hone, hget⟩ := copiedDocs_of_unreached hi hnot hp
      obtain ⟨r, d, hd, rfl, hr | ⟨n, rfl, hn⟩⟩ := (projects_at status).mp hproject
      · exact absurd (List.getElem?_eq_some_iff.mp hr).1 hlt
      · rw [Nat.add_sub_cancel_left, hn] at hget
        cases hget
        refine ⟨by rw [hd]; rfl, fun j hj => ?_⟩
        by_cases hparsed : s.parsed j = true
        · rw [projectOf_built status hparsed] at hj
          have hmemj := ((finalStamp_eq_some hparsed).mp hj).1
          rwa [hone, List.mem_singleton] at hmemj
        · rw [projectOf_of_not_parsed hparsed] at hj
          cases hj
  · intro p project hproject
    obtain ⟨r, d, hd, rfl, hr⟩ := (projects_at status).mp hproject
    refine ⟨r, copiedDocs realpath s p, by rw [hd]; rfl, fun i => ?_, fun i n => mem_copySteps,
      nodup_copySteps (nodup_copiedDocs p), assembled_eq _, copiedOnce s⟩
    rcases hr with hr | ⟨n, rfl, hn⟩
    · simp only [(List.getElem?_eq_some_iff.mp hr).1, decide_true, if_true]
      exact mem_copiedDocs_root hr
    · simp [copiedDocs_orphan hn]

theorem nodup_uris_build {status : CcStatus} {ws : WorkspaceSnapshot} (hu : s.UniqueUris)
    (hs : s.SnapUris) (hb : buildWorkspaceSnapshot realpath s status = some ws) :
    (ws.docs.map (·.snap.uri)).Nodup := by
  rw [build_eq, Option.some.injEq] at hb
  subst hb
  rw [stampedDocs, List.map_filterMap]
  have hslot : ∀ i uri, uri ∈ Option.map (·.snap.uri) ((populateWsDoc s i).map
      fun w => { w with projectIndex := finalStamp realpath s i }) →
      ∃ d, s i = some d ∧ d.uri = uri := by
    intro i uri h
    simp only [populateWsDoc, Option.bind_eq_bind, Option.mem_def, Option.map_eq_some_iff,
      Option.bind_eq_some_iff] at h
    obtain ⟨_, ⟨_, ⟨d, hd, snap, hsnap, ⟨⟩⟩, rfl⟩, rfl⟩ := h
    exact ⟨d, hd, (hs i d snap hd hsnap).symm⟩
  refine List.Nodup.filterMap (fun i j uri hi hj => ?_) nodup_parsedSlots
  obtain ⟨d, hd, hdu⟩ := hslot i uri hi
  obtain ⟨e, he, heu⟩ := hslot j uri hj
  exact hu i j d e hd he (hdu.trans heu.symm)

/-! ### Members -/

/-- The members that tj3 is run on are the stamped documents with a path. -/
theorem mem_collectProjectMembers {status : CcStatus} {p : ℕ} {m : Member} :
    m ∈ collectProjectMembers (built realpath s status) p ↔
      ∃ i d snap, s i = some d ∧ d.snap = some snap ∧ finalStamp realpath s i = some p ∧
        m.uri = snap.uri ∧ m.text = snap.text ∧ uriToPath snap.uri = some m.path := by
  simp only [collectProjectMembers, built, stampedDocs, List.mem_filterMap, Option.map_eq_some_iff,
    mem_parsedSlots]
  constructor
  · rintro ⟨wd, ⟨i, hi, w, hw, rfl⟩, hm⟩
    obtain ⟨d, snap, hd, hsnap⟩ := parsed_iff.mp hi
    have hw' : w = ⟨snap, d.prefixes, none, d.diskOnly⟩ := by
      simpa [populateWsDoc, hd, hsnap] using hw.symm
    subst hw'
    by_cases hp : finalStamp realpath s i = some p
    · rw [if_pos hp, Option.map_eq_some_iff] at hm
      obtain ⟨path, hpath, rfl⟩ := hm
      exact ⟨i, d, snap, hd, hsnap, hp, rfl, rfl, hpath⟩
    · rw [if_neg hp] at hm
      cases hm
  · rintro ⟨i, d, snap, hd, hsnap, hp, huri, htext, hpath⟩
    refine ⟨_, ⟨i, parsed_iff.mpr ⟨d, snap, hd, hsnap⟩, ⟨snap, d.prefixes, none, d.diskOnly⟩, ?_,
      rfl⟩, ?_⟩
    · simp [populateWsDoc, hd, hsnap]
    · rw [if_pos hp, hpath, Option.map_some, ← huri, ← htext]

theorem parsed_of_mem_copiedDocs {p : ℕ} {i : Slot} (hi : i ∈ copiedDocs realpath s p) :
    s.parsed i = true := by
  unfold copiedDocs at hi
  cases hp : (allRoots s)[p]? with
  | some r =>
    rw [hp] at hi
    exact parsed_of_reaches (parsed_of_isRoot (mem_allRoots.mp (List.mem_of_getElem? hp)))
      (mem_includeClosure.mp hi)
  | none =>
    rw [hp] at hi
    exact (mem_allOrphans.mp (List.mem_of_getElem? (Option.mem_toList.mp hi))).1

theorem projectOf_eq_some {status : CcStatus} {p : ℕ} {i : Slot} :
    projectOf s (built realpath s status) i = some p ↔
      i ∈ copiedDocs realpath s p ∧ ∀ q < p, i ∉ copiedDocs realpath s q := by
  by_cases hi : s.parsed i = true
  · rw [projectOf_built status hi, finalStamp_eq_some hi]
  · rw [projectOf_of_not_parsed hi]
    constructor
    · intro h
      cases h
    · intro h
      exact absurd (parsed_of_mem_copiedDocs h.1) hi

/-- tj3 finds the root of a project that no earlier one has copied. -/
theorem isSome_rootMember {status : CcStatus} (huris : s.SnapUris) {p : ℕ} {project : WsProject}
    (hproject : (built realpath s status).projects[p]? = some project) {r : Slot} {d : Document}
    (hd : s r = some d) (hid : d.uri = project.id) (hmem : r ∈ copiedDocs realpath s p)
    (hfirst : ∀ q < p, r ∉ copiedDocs realpath s q) (hpath : (uriToPath d.uri).isSome) :
    (rootMember (built realpath s status) p).isSome := by
  obtain ⟨d', snap, hd', hsnap⟩ := parsed_iff.mp (parsed_of_mem_copiedDocs hmem)
  obtain rfl := Option.some.inj (hd.symm.trans hd')
  obtain ⟨path, hpath⟩ := Option.isSome_iff_exists.mp hpath
  have huri := huris r d snap hd hsnap
  have hm : (⟨path, snap.uri, snap.text⟩ : Member) ∈
      collectProjectMembers (built realpath s status) p := by
    refine mem_collectProjectMembers.mpr ⟨r, d, snap, hd, hsnap, ?_, rfl, rfl, by rwa [huri]⟩
    exact (finalStamp_eq_some (parsed_of_mem_copiedDocs hmem)).mpr ⟨hmem, hfirst⟩
  unfold rootMember
  simp only [hproject, Option.bind_eq_bind, Option.bind_some]
  rw [List.find?_isSome]
  exact ⟨_, hm, decide_eq_true (huri.trans hid)⟩

/-- No root reaches what another root reaches. -/
def RootsDisjoint (realpath : CStr → Option CStr) (s : Store) : Prop :=
  ∀ r r' i, isRoot s r = true → isRoot s r' = true → Reaches realpath s r i →
    Reaches realpath s r' i → r = r'

/-- With disjoint roots no document is copied by two projects. -/
theorem RootsDisjoint.copied_once (h : RootsDisjoint realpath s) {p q : ℕ} {i : Slot}
    (hp : i ∈ copiedDocs realpath s p) (hq : i ∈ copiedDocs realpath s q) : p = q := by
  have hroot : ∀ {x : ℕ}, x < (allRoots s).length → i ∈ copiedDocs realpath s x →
      ∃ r, (allRoots s)[x]? = some r ∧ isRoot s r = true ∧ Reaches realpath s r i := by
    intro x hx hmem
    have hget := List.getElem?_eq_getElem hx
    exact ⟨_, hget, mem_allRoots.mp (List.getElem_mem hx), (mem_copiedDocs_root hget).mp hmem⟩
  have horphan : ∀ {x : ℕ}, ¬ x < (allRoots s).length → i ∈ copiedDocs realpath s x →
      (allOrphans realpath s)[x - (allRoots s).length]? = some i := by
    intro x hx hmem
    rw [copiedDocs, List.getElem?_eq_none (by omega), Option.mem_toList] at hmem
    exact hmem
  by_cases hpr : p < (allRoots s).length
  · by_cases hqr : q < (allRoots s).length
    · obtain ⟨r, hr, hroot1, hreach⟩ := hroot hpr hp
      obtain ⟨r', hr', hroot2, hreach'⟩ := hroot hqr hq
      rw [h r r' i hroot1 hroot2 hreach hreach'] at hr
      exact (List.getElem?_inj hpr nodup_allRoots).mp (hr.trans hr'.symm)
    · exact absurd hp (not_mem_copiedDocs_of_orphan (List.mem_of_getElem? (horphan hqr hq)) hpr)
  · by_cases hqr : q < (allRoots s).length
    · exact absurd hq (not_mem_copiedDocs_of_orphan (List.mem_of_getElem? (horphan hpr hp)) hqr)
    · have hp' := horphan hpr hp
      have hlt := (List.getElem?_eq_some_iff.mp hp').1
      have := (List.getElem?_inj hlt nodup_allOrphans).mp (hp'.trans (horphan hqr hq).symm)
      omega

/-- **Stamps and trees agree** in every project if and only if the roots are disjoint. -/
theorem stamped_iff_copied (status : CcStatus) :
    (∀ (p : ℕ) (project : WsProject), (built realpath s status).projects[p]? = some project →
      ∀ i, projectOf s (built realpath s status) i = some p ↔ i ∈ copiedDocs realpath s p) ↔
      RootsDisjoint realpath s := by
  constructor
  · intro h r r' i hr hr' hreach hreach'
    have hle : ∀ {x y : ℕ} {a b : Slot}, (allRoots s)[x]? = some a → (allRoots s)[y]? = some b →
        Reaches realpath s a i → Reaches realpath s b i → x ≤ y := by
      intro x y a b hx hy hxi hyi
      have hmem := (mem_copiedDocs_root hx).mpr hxi
      obtain ⟨project, hproject⟩ := @exists_project realpath s status x i hmem
      have hstamp := projectOf_eq_some.mp ((h x project hproject i).mpr hmem)
      by_contra hlt
      exact hstamp.2 y (by omega) ((mem_copiedDocs_root hy).mpr hyi)
    obtain ⟨x, hx⟩ := List.mem_iff_getElem?.mp (mem_allRoots.mpr hr)
    obtain ⟨y, hy⟩ := List.mem_iff_getElem?.mp (mem_allRoots.mpr hr')
    have hxy := le_antisymm (hle hx hy hreach hreach') (hle hy hx hreach' hreach)
    rw [hxy, hy] at hx
    exact (Option.some.inj hx).symm
  · intro hroots p project hproject i
    rw [projectOf_eq_some]
    constructor
    · intro h
      exact h.1
    · intro hmem
      refine ⟨hmem, fun q hq hmemq => ?_⟩
      have := hroots.copied_once hmem hmemq
      omega

/-- **Tree and members**: the documents stamped with a project are those that its
tree is assembled from and that no earlier project has copied; its root is among
the latter unless an earlier project has copied it, and tj3 then finds it. -/
theorem build_members (realpath : CStr → Option CStr) (s : Store) (status : CcStatus)
    (huris : s.SnapUris) :
    ∃ ws, buildWorkspaceSnapshot realpath s status = some ws ∧
      ∃ copied : ℕ → List Slot,
        (∀ (p : ℕ) (project : WsProject), ws.projects[p]? = some project →
          (copied p).Nodup ∧ project.root = (copySteps s (copied p)).foldl (copyStep s) .empty ∧
          (∀ i, projectOf s ws i = some p ↔ i ∈ copied p ∧ ∀ q < p, i ∉ copied q) ∧
          ∃ r d, s r = some d ∧ d.uri = project.id ∧ r ∈ copied p ∧
            ((uriToPath d.uri).isSome → (∀ q < p, r ∉ copied q) →
              (rootMember ws p).isSome)) ∧
        ((∀ (p : ℕ) (project : WsProject), ws.projects[p]? = some project →
            ∀ i, projectOf s ws i = some p ↔ i ∈ copied p) ↔ RootsDisjoint realpath s) := by
  refine ⟨built realpath s status, build_eq realpath s status, copiedDocs realpath s, ?_,
    stamped_iff_copied status⟩
  intro p project hproject
  obtain ⟨r, d, hd, hid, hr⟩ := (projects_at status).mp hproject
  have hmem : r ∈ copiedDocs realpath s p := by
    rcases hr with hr | ⟨n, rfl, hn⟩
    · exact (mem_copiedDocs_root hr).mpr .refl
    · simp [copiedDocs_orphan hn]
  have huri : d.uri = project.id := by rw [hid]
  refine ⟨nodup_copiedDocs p, ?_, fun i => projectOf_eq_some, r, d, hd, huri, hmem, ?_⟩
  · rw [hid]
    exact assembled_eq _
  · intro hpath hfirst
    exact isSome_rootMember huris hproject hd huri hmem hfirst hpath

end Stamps

/-! ### Two stores -/

/-- A declaration with a keyword and an id. -/
def sampleDeclaration (keyword : ℕ) (id : String) : TjNode :=
  .mk ⟨keyword, some (cstr id), none, ⟨⟨0, 0⟩, ⟨0, 0⟩⟩, ⟨⟨0, 0⟩, ⟨0, 0⟩⟩, []⟩ []

/-- A parsed compile_commands root. -/
def sampleRoot (uri : String) (declarations : List TjNode) (included : List String) : Document :=
  { freshDocument (cstr uri) with
    text := some []
    isCcRoot := true
    snap := some ⟨1, cstr uri, some [],
      .mk ⟨0, none, none, ⟨⟨0, 0⟩, ⟨0, 0⟩⟩, ⟨⟨0, 0⟩, ⟨0, 0⟩⟩, []⟩ declarations, [], 0⟩
    includedUris := included.map cstr }

/-- A root whose only declaration is its project block. -/
def projectBlockStore : Store :=
  emptyStore.put 0 (sampleRoot "file:///a.tjp" [sampleDeclaration kwProject "a"] [])

/-- A project block is in no tree, although its document has no prefix. -/
theorem project_block_not_copied :
    ¬ ∀ ws project d decl,
      buildWorkspaceSnapshot (fun _ => none) projectBlockStore .ok = some ws →
      ws.projects[0]? = some project → projectOf projectBlockStore ws 0 = some 0 →
      declarationAt projectBlockStore (0, 0) = some (d, decl) → d.prefixes = noPrefixes →
      projectInfoFromTj d.uri decl.info ∈ project.root.nodes := by
  intro h
  have hbuild := build_eq (fun _ => none) projectBlockStore .ok
  have hproject : (buildWorkspaceSnapshot (fun _ => none) projectBlockStore .ok).map
      (fun ws => (projectOf projectBlockStore ws 0, ws.projects.map (·.root.nodes)))
      = some (some 0, [[ProjectNode.empty.info]]) := by decide +kernel
  rw [hbuild, Option.map_some, Option.some.injEq, Prod.mk.injEq] at hproject
  obtain ⟨hstamp, htree⟩ := hproject
  obtain ⟨project, hget, hroot⟩ := List.map_eq_singleton_iff.mp htree
  have := h _ project (sampleRoot "file:///a.tjp" [sampleDeclaration kwProject "a"] [])
    (sampleDeclaration kwProject "a") hbuild (by rw [hget]; rfl) hstamp rfl rfl
  rw [hroot] at this
  revert this
  decide

/-- Two roots, the first of which includes the second. -/
def includedRootStore : Store :=
  (emptyStore.put 0 (sampleRoot "file:///a.tjp" [sampleDeclaration kwTask "t"] ["file:///b.tjp"])).put
    1 (sampleRoot "file:///b.tjp" [sampleDeclaration kwTask "u"] [])

/-- The second root is in two trees and stamped with the first project only, so that tj3 does
not find it among the members of its own. -/
theorem included_root_not_member :
    ∃ ws, buildWorkspaceSnapshot (fun _ => none) includedRootStore .ok = some ws ∧
      ws.projects.map (·.id) = [cstr "file:///a.tjp", cstr "file:///b.tjp"] ∧
      ws.projects.map (fun p => p.root.nodes.tail.map (·.sourceUri))
        = [[some (cstr "file:///a.tjp"), some (cstr "file:///b.tjp")],
            [some (cstr "file:///b.tjp")]] ∧
      projectOf includedRootStore ws 0 = some 0 ∧ projectOf includedRootStore ws 1 = some 0 ∧
      rootMember ws 1 = none := by
  refine ⟨_, build_eq _ _ _, ?_, ?_, ?_, ?_, ?_⟩ <;> decide +kernel

/-- The tree and the members of the projects of two roots. -/
theorem build_members_included_root :
    ∃ ws, buildWorkspaceSnapshot (fun _ => none) includedRootStore .ok = some ws ∧
      ∃ copied : ℕ → List Slot,
        ∀ (p : ℕ) (project : WsProject), ws.projects[p]? = some project →
          ∀ i, projectOf includedRootStore ws i = some p ↔ i ∈ copied p ∧ ∀ q < p, i ∉ copied q := by
  have huris : includedRootStore.SnapUris := by
    intro i d snap hd hsnap
    by_cases h1 : i = 1
    · subst h1
      cases hd
      cases hsnap
      rfl
    · by_cases h0 : i = 0
      · subst h0
        cases hd
        cases hsnap
        rfl
      · rw [includedRootStore, Store.put, Function.update_of_ne h1, Store.put,
          Function.update_of_ne h0] at hd
        cases hd
  obtain ⟨ws, hws, copied, h, -⟩ := build_members (fun _ => none) includedRootStore .ok huris
  exact ⟨ws, hws, copied, fun p project hp => (h p project hp).2.2.1⟩

end TaskjugglerLsp
