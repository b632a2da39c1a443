import TaskjugglerLsp.Workspace

/-!
# The snapshot in closed form

`buildWorkspaceSnapshot` in two passes comes to a list of projects, the roots and
then the orphans, and a stamp for each document: the first root whose include
closure it is in, or its place among the orphans (`build_eq`).  Everything that
is said about a snapshot elsewhere is read off this form.
-/

namespace TaskjugglerLsp

open Lib

section Closed

variable (realpath : CStr → Option CStr) (s : Store)

/-! ### The closed form -/

/-- `root` reaches `i` through the includes of parsed documents. -/
def Reaches : Slot → Slot → Prop :=
  Relation.ReflTransGen fun a b => b ∈ includedDocs realpath s a

/-- The include closure of a slot, in the order of the search. -/
def includeClosure (root : Slot) : List Slot :=
  root :: (Worklist.added (includedDocs realpath s) maxDocs [root] [root]).getD []

/-- The slot holds a parsed compile_commands root. -/
def isRoot (i : Slot) : Bool := (s i).any fun d => d.isCcRoot && d.snap.isSome

/-- The declarations of the document in a slot, folded into a tree. -/
def copySlot (tree : ProjectNode) (i : Slot) : ProjectNode :=
  match s i with
  | some d => copyDeclarations d tree
  | none => tree

/-- The tree assembled from some documents in turn. -/
def assembled (order : List Slot) : ProjectNode := order.foldl (copySlot s) .empty

/-- The project of the document in a slot. -/
def projectAt (order : List Slot) (fromCompileCommands : Bool) (i : Slot) : Option WsProject :=
  (s i).map fun d => ⟨d.uri, assembled s order, fromCompileCommands⟩

/-- The compile_commands roots among some slots. -/
def rootsIn (slots : List Slot) : List Slot := slots.filter (isRoot s)

/-- The project of a compile_commands root. -/
def rootProject (i : Slot) : Option WsProject := projectAt s (includeClosure realpath s i) true i

/-- The project of an orphan. -/
def orphanProject (i : Slot) : Option WsProject := projectAt s [i] false i

/-- The index of the first of some roots that reaches a slot. -/
def claimOf (roots : List Slot) (i : Slot) : Option ℕ :=
  roots.findIdx? fun r => i ∈ includeClosure realpath s r

/-- The slots that no root reaches, among some slots. -/
def orphansIn (roots slots : List Slot) : List Slot :=
  slots.filter fun i => s.parsed i && (claimOf realpath s roots i).isNone

/-- The stamp of a document once some orphans have their projects. -/
def stampOf (roots orphans : List Slot) (i : Slot) : Option ℕ :=
  (claimOf realpath s roots i).or ((orphans.idxOf? i).map (roots.length + ·))

/-- The documents of a snapshot with the given stamps. -/
def stampedDocs (stamp : Slot → Option ℕ) : List WsDoc :=
  (parsedSlots s).filterMap fun i =>
    (populateWsDoc s i).map fun w => { w with projectIndex := stamp i }

end Closed

section Proofs

variable {realpath : CStr → Option CStr} {s : Store}

/-! ### Stamping -/

theorem parsed_iff {i : Slot} :
    s.parsed i = true ↔ ∃ d snap, s i = some d ∧ d.snap = some snap := by
  unfold Store.parsed
  rw [Option.any_eq_true]
  constructor
  · rintro ⟨d, hd, hs⟩
    obtain ⟨snap, hsnap⟩ := Option.isSome_iff_exists.mp hs
    exact ⟨d, snap, hd, hsnap⟩
  · rintro ⟨d, snap, hd, hsnap⟩
    exact ⟨d, hd, by rw [hsnap]; rfl⟩

theorem mem_parsedSlots {i : Slot} : i ∈ parsedSlots s ↔ s.parsed i = true := by
  simp [parsedSlots]

theorem nodup_parsedSlots : (parsedSlots s).Nodup := (List.nodup_finRange maxDocs).filter _

theorem isSome_populateWsDoc {i : Slot} (h : s.parsed i = true) : (populateWsDoc s i).isSome := by
  obtain ⟨d, snap, hd, hs⟩ := parsed_iff.mp h
  rw [populateWsDoc, hd]
  simp [hs]

theorem getElem?_filterMap_of_isSome {α β : Type*} {f : α → Option β} {l : List α}
    (h : ∀ x ∈ l, (f x).isSome) (n : ℕ) : (l.filterMap f)[n]? = l[n]?.bind f := by
  induction l generalizing n with
  | nil => simp
  | cons a l ih =>
    obtain ⟨b, hb⟩ := Option.isSome_iff_exists.mp (h a (by simp))
    rw [List.filterMap_cons_some hb]
    cases n with
    | zero => simp [hb]
    | succ n =>
      rw [List.getElem?_cons_succ, List.getElem?_cons_succ]
      exact ih (fun x hx => h x (List.mem_cons_of_mem a hx)) n

theorem getElem?_stampedDocs (stamp : Slot → Option ℕ) (n : ℕ) :
    (stampedDocs s stamp)[n]? = (parsedSlots s)[n]?.bind fun i =>
      (populateWsDoc s i).map fun w => { w with projectIndex := stamp i } := by
  refine getElem?_filterMap_of_isSome (fun i hi => ?_) n
  rw [Option.isSome_map]
  exact isSome_populateWsDoc (mem_parsedSlots.mp hi)

theorem slotToWsdoc_of {i : Slot} (h : s.parsed i = true) :
    slotToWsdoc s i = some ((parsedSlots s).idxOf i) := if_pos h

theorem getElem?_idxOf {i : Slot} (h : s.parsed i = true) :
    (parsedSlots s)[(parsedSlots s).idxOf i]? = some i := by
  have hm := mem_parsedSlots.mpr h
  rw [List.getElem?_eq_getElem (List.idxOf_lt_length_of_mem hm), List.getElem_idxOf]

theorem stampedDocs_at (stamp : Slot → Option ℕ) {i : Slot} (h : s.parsed i = true) :
    (stampedDocs s stamp)[(parsedSlots s).idxOf i]?
      = (populateWsDoc s i).map fun w => { w with projectIndex := stamp i } := by
  rw [getElem?_stampedDocs, getElem?_idxOf h, Option.bind_some]

theorem stampedDocs_congr {stamp stamp' : Slot → Option ℕ}
    (h : ∀ i, s.parsed i = true → stamp i = stamp' i) :
    stampedDocs s stamp = stampedDocs s stamp' := by
  refine List.filterMap_congr fun i hi => ?_
  rw [h i (mem_parsedSlots.mp hi)]

theorem stampedDocs_update {i : Slot} (h : s.parsed i ≠ true) (stamp : Slot → Option ℕ)
    (o : Option ℕ) : stampedDocs s (Function.update stamp i o) = stampedDocs s stamp := by
  refine stampedDocs_congr fun j hj => Function.update_of_ne ?_ _ _
  rintro rfl
  exact h hj

theorem stampedDocs_modify {stamp : Slot → Option ℕ} {i : Slot}
    {f : WsDoc → WsDoc} {g : Option ℕ → Option ℕ}
    (hf : ∀ w, f w = { w with projectIndex := g w.projectIndex }) :
    (stampedDocs s stamp).modify ((parsedSlots s).idxOf i) f
      = stampedDocs s (Function.update stamp i (g (stamp i))) := by
  refine List.ext_getElem? fun n => ?_
  rw [List.getElem?_modify, getElem?_stampedDocs, getElem?_stampedDocs]
  cases hn : (parsedSlots s)[n]? with
  | none => rfl
  | some j =>
    have hidx : (parsedSlots s).idxOf i = n ↔ i = j := by
      obtain ⟨hlt, hj⟩ := List.getElem?_eq_some_iff.mp hn
      constructor
      · rintro rfl
        rw [List.getElem_idxOf] at hj
        exact hj
      · rintro rfl
        rw [← hj]
        exact nodup_parsedSlots.idxOf_getElem n hlt
    simp only [Option.bind_some, Option.map_eq_map, Option.map_map, Function.comp_def]
    by_cases hij : i = j
    · subst hij
      simp [hidx.mpr rfl, hf]
    · rw [Function.update_of_ne (Ne.symm hij)]
      simp [mt hidx.mp hij]

/-! ### Pass 1 -/

theorem modify_append_length {α : Type*} (l : List α) (x : α) (f : α → α) :
    (l ++ [x]).modify l.length f = l ++ [f x] := by
  induction l with
  | nil => rfl
  | cons a l ih =>
    rw [List.cons_append, List.length_cons, List.modify_succ_cons, ih]
    rfl

theorem WsDoc.claim_eq (pidx : ℕ) (w : WsDoc) :
    w.claim pidx = { w with projectIndex := w.projectIndex.or (some pidx) } := by
  unfold WsDoc.claim
  cases h : w.projectIndex with
  | none => simp
  | some p =>
    rw [if_neg (by simp)]
    cases w
    simp only at h
    rw [h]
    rfl

/-- **Assigning documents** to the last project copies them into its tree and
stamps those without a stamp. -/
theorem assign_foldl (status : CcStatus) (projects : List WsProject) (p : WsProject)
    (order : List Slot) (stamp : Slot → Option ℕ) :
    order.foldl (fun ws i => assignDocToProject s projects.length i ws)
        ⟨stampedDocs s stamp, projects ++ [p], status⟩
      = ⟨stampedDocs s fun i => (stamp i).or (if i ∈ order then some projects.length else none),
          projects ++ [{ p with root := order.foldl (copySlot s) p.root }], status⟩ := by
  induction order generalizing p stamp with
  | nil => simp
  | cons i order ih =>
    have hstep : assignDocToProject s projects.length i
          ⟨stampedDocs s stamp, projects ++ [p], status⟩
        = ⟨stampedDocs s (Function.update stamp i ((stamp i).or (some projects.length))),
          projects ++ [{ p with root := copySlot s p.root i }], status⟩ := by
      unfold assignDocToProject copySlot
      cases hi : s i with
      | none =>
        have hp : s.parsed i ≠ true := by
          rw [Store.parsed, hi]
          exact Bool.false_ne_true
        rw [stampedDocs_update hp]
      | some d =>
        simp only [copyDocumentIntoProject, modify_append_length]
        by_cases hp : s.parsed i = true
        · rw [slotToWsdoc_of hp]
          simp only
          rw [stampedDocs_modify (g := fun o => o.or (some projects.length))
            (WsDoc.claim_eq projects.length)]
        · rw [slotToWsdoc, if_neg hp, stampedDocs_update hp]
    rw [List.foldl_cons, hstep, ih]
    congr 1
    refine stampedDocs_congr fun j _ => ?_
    by_cases hji : j = i
    · subst hji
      rw [Function.update_self, if_pos List.mem_cons_self]
      cases stamp j <;> simp
    · rw [Function.update_of_ne hji]
      simp [List.mem_cons, hji]

/-- **The search from a root ends**, having gone through its include closure. -/
theorem includeClosure_spec (realpath : CStr → Option CStr) (s : Store) (root : Slot) :
    Worklist.added (includedDocs realpath s) maxDocs [root] [root]
        = some (includeClosure realpath s root).tail ∧
      (includeClosure realpath s root).Nodup ∧
      ∀ i, i ∈ includeClosure realpath s root ↔ Reaches realpath s root i := by
  obtain ⟨order, h1, h2, h3⟩ := Worklist.exists_order (includedDocs realpath s) root
  rw [Fintype.card_fin] at h1
  unfold includeClosure
  rw [h1, Option.getD_some]
  exact ⟨rfl, h2, h3⟩

theorem mem_includeClosure {root i : Slot} :
    i ∈ includeClosure realpath s root ↔ Reaches realpath s root i :=
  (includeClosure_spec realpath s root).2.2 i

theorem projectPopulateFromRoot_eq (pidx : ℕ) (root : Slot) (ws : WorkspaceSnapshot) :
    projectPopulateFromRoot realpath s pidx root ws
      = some ((includeClosure realpath s root).foldl
          (fun ws i => assignDocToProject s pidx i ws) ws) := by
  rw [projectPopulateFromRoot, Worklist.run_eq, (includeClosure_spec realpath s root).1]
  rfl

/-- The snapshot after pass 1 has gone through some slots. -/
def passOne (realpath : CStr → Option CStr) (s : Store) (status : CcStatus) (slots : List Slot) :
    WorkspaceSnapshot :=
  ⟨stampedDocs s (claimOf realpath s (rootsIn s slots)),
    (rootsIn s slots).filterMap (rootProject realpath s), status⟩

theorem isSome_projectAt {order : List Slot} {b : Bool} {i : Slot} (h : (s i).isSome) :
    (projectAt s order b i).isSome := by rwa [projectAt, Option.isSome_map]

theorem isRoot_iff {i : Slot} :
    isRoot s i = true ↔ ∃ d, s i = some d ∧ d.isCcRoot = true ∧ d.snap.isSome := by
  rw [isRoot, Option.any_eq_true]
  simp

theorem length_filterMap_of_isSome {α β : Type*} {f : α → Option β} {l : List α}
    (h : ∀ x ∈ l, (f x).isSome) : (l.filterMap f).length = l.length := by
  induction l with
  | nil => rfl
  | cons a l ih =>
    obtain ⟨b, hb⟩ := Option.isSome_iff_exists.mp (h a (by simp))
    rw [List.filterMap_cons_some hb, List.length_cons, List.length_cons,
      ih fun x hx => h x (List.mem_cons_of_mem a hx)]

theorem isSome_rootProject {slots : List Slot} {i : Slot} (hi : i ∈ rootsIn s slots) :
    (rootProject realpath s i).isSome := by
  obtain ⟨d, hd, -⟩ := isRoot_iff.mp (List.mem_filter.mp hi).2
  exact isSome_projectAt (by rw [hd]; rfl)

theorem passOne_step (status : CcStatus) (slots : List Slot) (i : Slot) :
    addRootProject realpath s (passOne realpath s status slots) i
      = some (passOne realpath s status (slots ++ [i])) := by
  have hlen : ((rootsIn s slots).filterMap (rootProject realpath s)).length
      = (rootsIn s slots).length :=
    length_filterMap_of_isSome fun _ => isSome_rootProject
  unfold addRootProject
  cases hi : s i with
  | none =>
    have : isRoot s i = false := by rw [isRoot, hi]; rfl
    simp [passOne, rootsIn, List.filter_append, this]
  | some d =>
    by_cases hr : (d.isCcRoot && d.snap.isSome) = true
    · have hroot : isRoot s i = true := by rw [isRoot, hi]; exact hr
      have hroots : rootsIn s (slots ++ [i]) = rootsIn s slots ++ [i] := by
        simp [rootsIn, List.filter_append, hroot]
      simp only [if_pos hr, projectPopulateFromRoot_eq, wsAddProject, passOne]
      rw [assign_foldl, hroots, List.filterMap_append, hlen]
      congr 2
      · refine stampedDocs_congr fun j _ => ?_
        rw [claimOf, claimOf, List.findIdx?_append]
        by_cases hj : j ∈ includeClosure realpath s i
        · simp [hj]
        · simp [hj]
      · simp [rootProject, projectAt, hi, assembled]
    · have : isRoot s i = false := by
        rw [isRoot, hi]
        simpa using hr
      simp [passOne, rootsIn, List.filter_append, this, hr]

theorem passOne_foldlM (status : CcStatus) (slots done : List Slot) :
    slots.foldlM (addRootProject realpath s) (passOne realpath s status done)
      = some (passOne realpath s status (done ++ slots)) := by
  induction slots generalizing done with
  | nil => simp
  | cons i slots ih =>
    rw [List.foldlM_cons, passOne_step]
    simp only [Option.bind_eq_bind, Option.bind_some, ih, List.append_assoc, List.singleton_append]

/-! ### Pass 2 -/

/-- The snapshot after pass 2 has gone through some slots. -/
def passTwo (realpath : CStr → Option CStr) (s : Store) (status : CcStatus)
    (roots slots : List Slot) : WorkspaceSnapshot :=
  ⟨stampedDocs s (stampOf realpath s roots (orphansIn realpath s roots slots)),
    roots.filterMap (rootProject realpath s)
      ++ (orphansIn realpath s roots slots).filterMap (orphanProject s), status⟩

theorem isSome_orphanProject {roots slots : List Slot} {i : Slot}
    (hi : i ∈ orphansIn realpath s roots slots) : (orphanProject s i).isSome := by
  have hp := (List.mem_filter.mp hi).2
  rw [Bool.and_eq_true] at hp
  obtain ⟨d, -, hd, -⟩ := parsed_iff.mp hp.1
  exact isSome_projectAt (by rw [hd]; rfl)

theorem idxOf?_append_self {l : List Slot} {i : Slot} (h : i ∉ l) :
    (l ++ [i]).idxOf? i = some l.length := by
  induction l with
  | nil => simp [List.idxOf?_cons]
  | cons a l ih =>
    rw [List.mem_cons, not_or] at h
    rw [List.cons_append, List.idxOf?_cons, if_neg (by simpa using Ne.symm h.1), ih h.2]
    rfl

theorem idxOf?_append_of_ne {l : List Slot} {i j : Slot} (h : j ≠ i) :
    (l ++ [i]).idxOf? j = l.idxOf? j := by
  induction l with
  | nil => simp [List.idxOf?_cons, Ne.symm h]
  | cons a l ih => rw [List.cons_append, List.idxOf?_cons, List.idxOf?_cons, ih]

theorem passTwo_step (status : CcStatus) {roots : List Slot} (hroots : ∀ r ∈ roots, isRoot s r)
    (slots : List Slot) {i : Slot} (hi : i ∉ slots) :
    addOrphanProject s (passTwo realpath s status roots slots) i
      = passTwo realpath s status roots (slots ++ [i]) := by
  have hlen : (roots.filterMap (rootProject realpath s)
      ++ (orphansIn realpath s roots slots).filterMap (orphanProject s)).length
      = roots.length + (orphansIn realpath s roots slots).length := by
    rw [List.length_append, length_filterMap_of_isSome fun r hr => ?_,
      length_filterMap_of_isSome fun _ => isSome_orphanProject]
    have hm : r ∈ rootsIn s roots := List.mem_filter.mpr ⟨hr, hroots r hr⟩
    exact isSome_rootProject hm
  have hmem : i ∉ orphansIn realpath s roots slots := fun h => hi (List.mem_filter.mp h).1
  unfold addOrphanProject
  by_cases hp : s.parsed i = true
  · obtain ⟨d, snap, hd, hsnap⟩ := parsed_iff.mp hp
    have hpop : populateWsDoc s i = some ⟨snap, d.prefixes, none, d.diskOnly⟩ := by
      simp [populateWsDoc, hd, hsnap]
    have hstamp : stampOf realpath s roots (orphansIn realpath s roots slots) i
        = claimOf realpath s roots i := by
      rw [stampOf, List.idxOf?_eq_none_iff.mpr hmem]
      simp
    simp only [hd, slotToWsdoc_of hp, passTwo, stampedDocs_at _ hp, hpop, Option.map_some,
      Option.any_some, hstamp]
    by_cases hc : (claimOf realpath s roots i).isNone = true
    · have horph : orphansIn realpath s roots (slots ++ [i])
          = orphansIn realpath s roots slots ++ [i] := by
        simp [orphansIn, List.filter_append, hp, hc]
      rw [if_pos hc, horph]
      simp only [wsAddProject, copyDocumentIntoProject, modify_append_length]
      rw [stampedDocs_modify (g := fun _ => some _) (fun _ => rfl), hlen]
      congr 1
      · refine stampedDocs_congr fun j _ => ?_
        by_cases hji : j = i
        · subst hji
          rw [Function.update_self, stampOf, Option.isNone_iff_eq_none.mp hc, idxOf?_append_self hmem]
          rfl
        · rw [Function.update_of_ne hji, stampOf, stampOf, idxOf?_append_of_ne hji]
      · rw [List.filterMap_append]
        simp [orphanProject, projectAt, hd, assembled, copySlot]
    · have horph : orphansIn realpath s roots (slots ++ [i])
          = orphansIn realpath s roots slots := by
        simp [orphansIn, List.filter_append, hc]
      rw [if_neg hc, horph]
  · have horph : orphansIn realpath s roots (slots ++ [i]) = orphansIn realpath s roots slots := by
      simp [orphansIn, List.filter_append, hp]
    have hnone : slotToWsdoc s i = none := if_neg hp
    rw [hnone, passTwo, passTwo, horph]
    cases s i <;> rfl

theorem passTwo_foldl (status : CcStatus) {roots : List Slot} (hroots : ∀ r ∈ roots, isRoot s r)
    (slots done : List Slot) (hnd : (done ++ slots).Nodup) :
    slots.foldl (addOrphanProject s) (passTwo realpath s status roots done)
      = passTwo realpath s status roots (done ++ slots) := by
  induction slots generalizing done with
  | nil => simp
  | cons i slots ih =>
    have hi : i ∉ done := by
      intro hd
      exact List.disjoint_of_nodup_append hnd hd List.mem_cons_self
    rw [List.foldl_cons, passTwo_step status hroots done hi,
      ih (done ++ [i]) (by simpa using hnd), List.append_assoc]
    rfl

/-! ### Both passes -/

variable (realpath s)

/-- All compile_commands roots, in the order of the slots. -/
def allRoots : List Slot := rootsIn s (List.finRange maxDocs)

/-- All orphans, in the order of the slots. -/
def allOrphans : List Slot := orphansIn realpath s (allRoots s) (List.finRange maxDocs)

/-- The stamp that a document ends up with. -/
def finalStamp : Slot → Option ℕ := stampOf realpath s (allRoots s) (allOrphans realpath s)

/-- **The snapshot in closed form**; in particular building it terminates. -/
theorem build_eq (status : CcStatus) :
    buildWorkspaceSnapshot realpath s status
      = some ⟨stampedDocs s (finalStamp realpath s),
          (allRoots s).filterMap (rootProject realpath s)
            ++ (allOrphans realpath s).filterMap (orphanProject s), status⟩ := by
  have hstart : (⟨(parsedSlots s).filterMap (populateWsDoc s), [], status⟩ : WorkspaceSnapshot)
      = passOne realpath s status [] := by
    rw [passOne, stampedDocs]
    congr 1
    refine List.filterMap_congr fun i _ => ?_
    unfold populateWsDoc
    cases s i with
    | none => rfl
    | some d => cases hd : d.snap <;> simp [hd, rootsIn, claimOf]
  have hmid : passOne realpath s status ([] ++ List.finRange maxDocs)
      = passTwo realpath s status (allRoots s) [] := by
    rw [passOne, passTwo, List.nil_append]
    congr 1
    · refine stampedDocs_congr fun i _ => ?_
      simp [stampOf, orphansIn, allRoots]
    · simp [orphansIn, allRoots]
  have htwo : (List.finRange maxDocs).foldl (addOrphanProject s)
        (passTwo realpath s status (allRoots s) [])
      = passTwo realpath s status (allRoots s) ([] ++ List.finRange maxDocs) :=
    passTwo_foldl status (fun r hr => (List.mem_filter.mp hr).2) _ []
      (by simpa using List.nodup_finRange maxDocs)
  unfold buildWorkspaceSnapshot
  simp only [hstart, passOne_foldlM, Option.bind_eq_bind, Option.bind_some, hmid, htwo]
  rfl

end Proofs

end TaskjugglerLsp
