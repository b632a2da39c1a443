import TaskjugglerLsp.Lifecycle.Prefixes
import TaskjugglerLsp.Workspace.Membership

/-!
# The snapshot does not depend on the slots

Stores that hold the same documents, in whatever slots, have the same snapshot up
to the order in which it lists projects and documents (`SameStores.projects_perm`).
Where the prefixes of a document follow from the texts, two runs that end with the
same texts end with the same documents, so what they publish does not depend on
how they came there (`history_independent`).
-/

namespace TaskjugglerLsp

open Lib

/-! ### The same documents in other slots -/

/-- A parse, apart from its version. -/
def DocSnapshot.content (s : DocSnapshot) : DocSnapshot := { s with docVersion := 0 }

/-- Documents that a snapshot cannot tell apart but by their versions. -/
structure Same (r : Resolver) (d d' : Document) : Prop where
  uri : d'.uri = d.uri
  isCcRoot : d'.isCcRoot = d.isCcRoot
  prefixes : d'.prefixes = d.prefixes
  includes : d'.includedUris.map r.canon = d.includedUris.map r.canon
  snap : d'.snap.map DocSnapshot.content = d.snap.map DocSnapshot.content

/-- The two slots hold the same document. -/
def Twin (r : Resolver) (s s' : Store) (i j : Slot) : Prop :=
  ∃ d d', s i = some d ∧ s' j = some d' ∧ Same r d d'

/-- The stores hold the same documents. -/
structure SameStores (r : Resolver) (s s' : Store) : Prop where
  ok : StoreOk r s
  ok' : StoreOk r s'
  left : ∀ i d, s i = some d → ∃ j, Twin r s s' i j
  right : ∀ j d', s' j = some d' → ∃ i, Twin r s s' i j

section Twins

variable {r : Resolver} {s s' : Store} {realpath realpath' : CStr → Option CStr}

theorem SameStores.oneToOne (h : SameStores r s s') : Worklist.OneToOne (Twin r s s') := by
  rintro i i' j j' ⟨d, e, hd, he, hde⟩ ⟨d', e', hd', he', hde'⟩
  constructor
  · rintro rfl
    obtain rfl := Option.some.inj (hd.symm.trans hd')
    exact h.ok'.unique j j' e e' he he' (by rw [hde.uri, hde'.uri])
  · rintro rfl
    obtain rfl := Option.some.inj (he.symm.trans he')
    exact h.ok.unique i i' d d' hd hd' (by rw [← hde.uri, ← hde'.uri])

theorem SameStores.docFind (h : SameStores r s s') {w w' : World} (hw : r.Governs w.realpath)
    (hw' : r.Governs w'.realpath) {uri uri' : CStr} (hn : r.uris uri) (hn' : r.uris uri')
    (hu : r.canon uri = r.canon uri') :
    Option.Rel (Twin r s s') (docFind w.realpath s uri) (docFind w'.realpath s' uri') := by
  cases hf : TaskjugglerLsp.docFind w.realpath s uri with
  | some i =>
    obtain ⟨d, hd, hud⟩ := (h.ok.docFind_iff hw hn).mp hf
    obtain ⟨j, d1, d', hd1, hd', hsame⟩ := h.left i d hd
    obtain rfl := Option.some.inj (hd.symm.trans hd1)
    rw [(h.ok'.docFind_iff hw' hn').mpr ⟨d', hd', by rw [hsame.uri, hud, hu]⟩]
    exact .some ⟨d, d', hd, hd', hsame⟩
  | none =>
    rw [(h.ok'.docFind_eq_none hw' hn').mpr fun j d' hd' hud => ?_]
    · exact .none
    · obtain ⟨i, d, d1, hd, hd1, hsame⟩ := h.right j d' hd'
      obtain rfl := Option.some.inj (hd'.symm.trans hd1)
      exact (h.ok.docFind_eq_none hw hn).mp hf i d hd (by rw [← hsame.uri, hud, hu])

theorem Twin.parsed {i j : Slot} (h : Twin r s s' i j) : s.parsed i = s'.parsed j := by
  obtain ⟨d, d', hd, hd', hsame⟩ := h
  have hsnap := congrArg Option.isSome hsame.snap
  rw [Option.isSome_map, Option.isSome_map] at hsnap
  rw [Store.parsed, Store.parsed, hd, hd', Option.any_some, Option.any_some, hsnap]

theorem Twin.isRoot {i j : Slot} (h : Twin r s s' i j) : isRoot s i = isRoot s' j := by
  have hparsed := h.parsed
  obtain ⟨d, d', hd, hd', hsame⟩ := h
  rw [Store.parsed, Store.parsed, hd, hd', Option.any_some, Option.any_some] at hparsed
  rw [TaskjugglerLsp.isRoot, TaskjugglerLsp.isRoot, hd, hd', Option.any_some, Option.any_some,
    hparsed, hsame.isCcRoot]

theorem SameStores.includedDocs (h : SameStores r s s') {w w' : World} (hw : r.Governs w.realpath)
    (hw' : r.Governs w'.realpath) {i j : Slot} (hij : Twin r s s' i j) :
    List.Forall₂ (Twin r s s') (includedDocs w.realpath s i) (includedDocs w'.realpath s' j) := by
  obtain ⟨d, d', hd, hd', hsame⟩ := hij
  have huris : List.Forall₂ (fun u u' => r.uris u ∧ r.uris u' ∧ r.canon u = r.canon u')
      d.includedUris d'.includedUris := by
    have hmap := hsame.includes.symm
    rw [← List.forall₂_eq_eq_eq, List.forall₂_map_left_iff, List.forall₂_map_right_iff] at hmap
    have hright := (List.forall₂_and_left _ _).mpr ⟨h.ok'.listed j d' hd', hmap.flip⟩
    exact (List.forall₂_and_left _ _).mpr ⟨h.ok.listed i d hd, hright.flip⟩
  rw [TaskjugglerLsp.includedDocs, TaskjugglerLsp.includedDocs, hd, hd']
  refine List.rel_filterMap ?_ huris
  rintro u u' ⟨hn, hn', hu⟩
  beta_reduce
  have hfind := h.docFind hw hw' hn hn' hu
  generalize TaskjugglerLsp.docFind w.realpath s u = o at hfind ⊢
  generalize TaskjugglerLsp.docFind w'.realpath s' u' = o' at hfind ⊢
  cases hfind with
  | none => exact .none
  | @some a b hab =>
    rw [Option.filter_some, Option.filter_some, ← hab.parsed]
    split
    · exact .some hab
    · exact .none

/-- **The include closures** are the same, in the same order. -/
theorem SameStores.includeClosure (h : SameStores r s s') {w w' : World}
    (hw : r.Governs w.realpath) (hw' : r.Governs w'.realpath) {i j : Slot} (hij : Twin r s s' i j) :
    List.Forall₂ (Twin r s s') (includeClosure w.realpath s i) (includeClosure w'.realpath s' j) := by
  have hadded := Worklist.added_rel h.oneToOne (fun _ _ => h.includedDocs hw hw') maxDocs
    (List.Forall₂.cons hij .nil) (List.Forall₂.cons hij .nil)
  rw [(includeClosure_spec w.realpath s i).1, (includeClosure_spec w'.realpath s' j).1] at hadded
  obtain ⟨htail⟩ := hadded
  exact .cons hij htail

/-! ### The projects -/

/-- The declarations of a document that is the same in both fold into a tree alike. -/
theorem Twin.copySlot {i j : Slot} (h : Twin r s s' i j) (t : ProjectNode) :
    copySlot s t i = copySlot s' t j := by
  obtain ⟨d, d', hd, hd', hsame⟩ := h
  have hroot : d'.snap.map (·.root) = d.snap.map (·.root) := by
    have hmap := congrArg (Option.map (·.root)) hsame.snap
    rw [Option.map_map, Option.map_map] at hmap
    exact hmap
  have hdecl : copyDeclaration d' = copyDeclaration d := by
    funext t child
    rw [copyDeclaration, copyDeclaration, hsame.prefixes, hsame.uri]
  rw [TaskjugglerLsp.copySlot, TaskjugglerLsp.copySlot, hd, hd']
  simp only [copyDeclarations, hdecl]
  cases hs : d.snap with
  | none =>
    rw [hs, Option.map_none, Option.map_eq_none_iff] at hroot
    rw [hroot]
  | some snap =>
    rw [hs, Option.map_some, Option.map_eq_some_iff] at hroot
    obtain ⟨snap', hs', hroot⟩ := hroot
    rw [hs']
    simp only [hroot]

theorem assembled_rel {order order' : List Slot} (h : List.Forall₂ (Twin r s s') order order') :
    assembled s order = assembled s' order' := by
  unfold assembled
  generalize ProjectNode.empty = t
  induction h generalizing t with
  | nil => rfl
  | cons hij _ ih =>
    rw [List.foldl_cons, List.foldl_cons, hij.copySlot]
    exact ih _

theorem projectAt_rel {order order' : List Slot} (h : List.Forall₂ (Twin r s s') order order')
    (fromCompileCommands : Bool) {i j : Slot} (hij : Twin r s s' i j) :
    projectAt s order fromCompileCommands i = projectAt s' order' fromCompileCommands j := by
  obtain ⟨d, d', hd, hd', hsame⟩ := hij
  rw [projectAt, projectAt, hd, hd', Option.map_some, Option.map_some, hsame.uri, assembled_rel h]

theorem Twin.symm {i j : Slot} (h : Twin r s s' i j) : Twin r s' s j i := by
  obtain ⟨d, d', hd, hd', hsame⟩ := h
  exact ⟨d', d, hd', hd, hsame.uri.symm, hsame.isCcRoot.symm, hsame.prefixes.symm,
    hsame.includes.symm, hsame.snap.symm⟩

theorem SameStores.symm (h : SameStores r s s') : SameStores r s' s := by
  constructor
  · exact h.ok'
  · exact h.ok
  · intro i d hd
    obtain ⟨j, hj⟩ := h.right i d hd
    exact ⟨j, hj.symm⟩
  · intro j d hd
    obtain ⟨i, hi⟩ := h.left j d hd
    exact ⟨i, hi.symm⟩

theorem SameStores.exists_parsed (h : SameStores r s s') {i : Slot} (hi : s.parsed i = true) :
    ∃ j, s'.parsed j = true ∧ Twin r s s' i j := by
  obtain ⟨d, -, hd, -⟩ := parsed_iff.mp hi
  obtain ⟨j, hij⟩ := h.left i d hd
  exact ⟨j, hij.parsed ▸ hi, hij⟩

theorem SameStores.exists_root (h : SameStores r s s') {i : Slot} (hi : i ∈ allRoots s) :
    ∃ j ∈ allRoots s', Twin r s s' i j := by
  obtain ⟨d, hd, -⟩ := isRoot_iff.mp (mem_allRoots.mp hi)
  obtain ⟨j, hij⟩ := h.left i d hd
  exact ⟨j, mem_allRoots.mpr (hij.isRoot ▸ mem_allRoots.mp hi), hij⟩

theorem SameStores.exists_orphan (h : SameStores r s s') {w w' : World} (hw : r.Governs w.realpath)
    (hw' : r.Governs w'.realpath) {i : Slot} (hi : i ∈ allOrphans w.realpath s) :
    ∃ j ∈ allOrphans w'.realpath s', Twin r s s' i j := by
  rw [mem_allOrphans] at hi
  obtain ⟨j, hj, hij⟩ := h.exists_parsed hi.1
  refine ⟨j, mem_allOrphans.mpr ⟨hj, fun root' hroot' hreach => ?_⟩, hij⟩
  obtain ⟨root, hroot, htwin⟩ := h.symm.exists_root (mem_allRoots.mpr hroot')
  have hmem := (Worklist.mem_iff_of_rel h.oneToOne hij (h.includeClosure hw hw' htwin.symm)).mpr
    (mem_includeClosure.mpr hreach)
  exact hi.2 root (mem_allRoots.mp hroot) (mem_includeClosure.mp hmem)

/-- **The same projects**, listed in some order. -/
theorem SameStores.projects_perm (h : SameStores r s s') {w w' : World} (hw : r.Governs w.realpath)
    (hw' : r.Governs w'.realpath) (status status' : CcStatus) :
    (built w.realpath s status).projects.Perm (built w'.realpath s' status').projects := by
  refine List.Perm.append ?_ ?_
  · refine Worklist.perm_filterMap_of_rel h.oneToOne ?_ nodup_allRoots nodup_allRoots
      (fun i hi => h.exists_root hi) fun j hj => ?_
    · exact fun i j hij => projectAt_rel (h.includeClosure hw hw' hij) true hij
    · obtain ⟨i, hi, hij⟩ := h.symm.exists_root hj
      exact ⟨i, hi, hij.symm⟩
  · refine Worklist.perm_filterMap_of_rel h.oneToOne ?_ nodup_allOrphans nodup_allOrphans
      (fun i hi => h.exists_orphan hw hw' hi) fun j hj => ?_
    · exact fun i j hij => projectAt_rel (.cons hij .nil) false hij
    · obtain ⟨i, hi, hij⟩ := h.symm.exists_orphan hw' hw hj
      exact ⟨i, hi, hij.symm⟩

/-- What a query can see of a document, apart from the version of its parse and its project. -/
def WsDoc.view (d : WsDoc) : DocSnapshot × PrefixSet := (d.snap.content, d.prefixes)

/-- **The same documents**, listed in some order. -/
theorem SameStores.docs_perm (h : SameStores r s s') (realpath realpath' : CStr → Option CStr)
    (status status' : CcStatus) : ((built realpath s status).docs.map WsDoc.view).Perm
      ((built realpath' s' status').docs.map WsDoc.view) := by
  have hview : ∀ (s : Store) (stamp : Slot → Option ℕ), (stampedDocs s stamp).map WsDoc.view
      = (parsedSlots s).filterMap fun i => (populateWsDoc s i).map WsDoc.view := by
    intro s stamp
    rw [stampedDocs, List.map_filterMap]
    refine List.filterMap_congr fun i _ => ?_
    rw [Option.map_map]
    rfl
  rw [built, built, hview, hview]
  refine Worklist.perm_filterMap_of_rel h.oneToOne ?_ nodup_parsedSlots nodup_parsedSlots ?_ ?_
  · rintro i j ⟨d, d', hd, hd', hsame⟩
    have hsnap := hsame.snap
    simp only [populateWsDoc, hd, hd', Option.bind_eq_bind, Option.bind_some]
    cases hs : d.snap with
    | none =>
      rw [hs, Option.map_none, Option.map_eq_none_iff] at hsnap
      rw [hsnap]
      rfl
    | some snap =>
      rw [hs, Option.map_some, Option.map_eq_some_iff] at hsnap
      obtain ⟨snap', hs', hcontent⟩ := hsnap
      simp only [hs', Option.bind_some, Option.map_some, WsDoc.view, hcontent, hsame.prefixes]
  · intro i hi
    obtain ⟨j, hj, hij⟩ := h.exists_parsed (mem_parsedSlots.mp hi)
    exact ⟨j, mem_parsedSlots.mpr hj, hij⟩
  · intro j hj
    obtain ⟨i, hi, hij⟩ := h.symm.exists_parsed (mem_parsedSlots.mp hj)
    exact ⟨i, mem_parsedSlots.mpr hi, hij.symm⟩

end Twins

/-! ### The same texts -/

/-- The stores hold documents with the same URIs, texts and compile_commands flags. -/
def SameTexts (s s' : Store) : Prop :=
  ∀ uri text isCcRoot,
    (∃ i d, s i = some d ∧ d.uri = uri ∧ d.text = some text ∧ d.isCcRoot = isCcRoot) ↔
      ∃ i d, s' i = some d ∧ d.uri = uri ∧ d.text = some text ∧ d.isCcRoot = isCcRoot

section Texts

variable {r : Resolver} {parse : CStr → ParseOutput} {s s' : Store}

theorem SameTexts.directs (h : SameTexts s s')
    (hparsed : ∀ i d, s i = some d → ParsedOk parse d) {uri : CStr} {ps : PrefixSet}
    (hd : Directs r parse s uri ps) : Directs r parse s' uri ps := by
  obtain ⟨i, d, hd, hlast⟩ := hd
  obtain ⟨-, text, -, ht, -⟩ := hparsed i d hd
  obtain ⟨j, e, he, hu, ht', -⟩ := (h d.uri text d.isCcRoot).mp ⟨i, d, hd, rfl, ht, rfl⟩
  exact ⟨j, e, he, by rwa [Document.directives_congr hu (ht'.trans ht.symm)]⟩

/-- **The prefixes follow from the texts.** -/
theorem SameTexts.exists_twin (h : SameTexts s s') (hok : StoreOk r s) (hok' : StoreOk r s')
    (hparsed : ∀ i d, s i = some d → ParsedOk parse d)
    (hparsed' : ∀ i d, s' i = some d → ParsedOk parse d) (hp : PrefixesOk r parse s)
    (hp' : PrefixesOk r parse s') (i : Slot) (d : Document) (hd : s i = some d) :
    ∃ j, Twin r s s' i j := by
  have hback : SameTexts s' s := fun uri text isCcRoot => (h uri text isCcRoot).symm
  obtain ⟨snap, text, hsnap, ht, hst, hroot, hspans, hnum⟩ := hparsed i d hd
  obtain ⟨j, e, he, hu, ht', hflag⟩ := (h d.uri text d.isCcRoot).mp ⟨i, d, hd, rfl, ht, rfl⟩
  obtain ⟨snap', text', hsnap', htext', hst', hroot', hspans', hnum'⟩ := hparsed' j e he
  obtain rfl := Option.some.inj (ht'.symm.trans htext')
  have hdir : e.directives r parse = d.directives r parse :=
    Document.directives_congr hu (ht'.trans ht.symm)
  refine ⟨j, d, e, hd, he, hu, hflag, ?_, ?_, ?_⟩
  · have hlabel := hp.labels i d hd
    have hlabel' := hp'.labels j e he
    rw [hu] at hlabel'
    rcases hlabel with hdirs | ⟨hno, hps⟩
    · rcases hlabel' with hdirs' | ⟨hno', -⟩
      · exact hp.agree i d hd e.prefixes d.prefixes (hback.directs hparsed' hdirs') hdirs
      · exact absurd (h.directs hparsed hdirs) (hno' d.prefixes)
    · rcases hlabel' with hdirs' | ⟨-, hps'⟩
      · exact absurd (hback.directs hparsed' hdirs') (hno e.prefixes)
      · rw [hps, hps']
  · have hincludes := hp.includes i d hd
    have hincludes' := hp'.includes j e he
    rw [IncludesOk] at hincludes hincludes'
    rw [hincludes, hincludes', hdir]
  · rw [hsnap, hsnap', Option.map_some, Option.map_some, Option.some.injEq, DocSnapshot.content,
      DocSnapshot.content, hok.snapUris i d snap hd hsnap, hok'.snapUris j e snap' he hsnap', hu, hst,
      hst', hroot, hroot', hspans, hspans', hnum, hnum']

theorem SameTexts.sameStores (h : SameTexts s s') (hok : StoreOk r s) (hok' : StoreOk r s')
    (hparsed : ∀ i d, s i = some d → ParsedOk parse d)
    (hparsed' : ∀ i d, s' i = some d → ParsedOk parse d) (hp : PrefixesOk r parse s)
    (hp' : PrefixesOk r parse s') : SameStores r s s' := by
  have hback : SameTexts s' s := fun uri text isCcRoot => (h uri text isCcRoot).symm
  constructor
  · exact hok
  · exact hok'
  · exact h.exists_twin hok hok' hparsed hparsed' hp hp'
  · intro j d hd
    obtain ⟨i, hi⟩ := hback.exists_twin hok' hok hparsed' hparsed hp' hp j d hd
    exact ⟨i, hi.symm⟩

end Texts

/-! ### What is published -/

/-- The published projects; none before the first publication. -/
def publishedProjects (st : ServerState) : List WsProject := st.ws.elim [] (·.projects)

/-- The published documents, as far as a query can see them. -/
def publishedDocs (st : ServerState) : List (DocSnapshot × PrefixSet) :=
  st.ws.elim [] fun ws => ws.docs.map WsDoc.view

section History

variable {r : Resolver} {parse : CStr → ParseOutput} {γ : Type}
  {note : ServerState → World → Step → γ → γ} {seen seen' : γ}

theorem built_emptyStore (realpath : CStr → Option CStr) (status : CcStatus) :
    built realpath emptyStore status = ⟨[], [], status⟩ := by
  have hparsed : parsedSlots emptyStore = [] := List.filter_eq_nil_iff.mpr fun i _ => by rintro ⟨⟩
  have hroots : allRoots emptyStore = [] := List.filter_eq_nil_iff.mpr fun i _ => by rintro ⟨⟩
  have horphans : allOrphans realpath emptyStore = [] :=
    List.filter_eq_nil_iff.mpr fun i _ => by rintro ⟨⟩
  rw [built, stampedDocs, hparsed, hroots, horphans]
  rfl

theorem Published.nil {st : ServerState} (h : Published r st) (hd : st.docs = emptyStore) :
    publishedProjects st = [] ∧ publishedDocs st = [] := by
  rw [publishedProjects, publishedDocs]
  rcases h with ⟨realpath, status, -, hws⟩ | ⟨hws, -⟩
  · have hbuilt : st.ws = some (built realpath st.docs status) := hws.trans (build_eq realpath _ status)
    rw [hbuilt, hd, built_emptyStore]
    exact ⟨rfl, rfl⟩
  · rw [hws]
    exact ⟨rfl, rfl⟩

theorem SameTexts.emptyStore {s s' : Store} (h : SameTexts s s')
    (hparsed : ∀ i d, s' i = some d → ParsedOk parse d) (hs : s = emptyStore) : s' = emptyStore := by
  funext i
  cases hd : s' i with
  | none => rfl
  | some d =>
    obtain ⟨-, text, -, ht, -⟩ := hparsed i d hd
    obtain ⟨j, e, he, -⟩ := (h d.uri text d.isCcRoot).mpr ⟨i, d, hd, rfl, ht, rfl⟩
    rw [hs] at he
    cases he

/-- **What is published does not depend on the history.**  Two runs that meet the conditions and end
with documents of the same texts publish the same projects, with the same trees, and the same
prefixes. -/
theorem history_independent {o o' : Observed γ}
    (h : Observed.Run parse note r (KeepsPrefixes r parse) seen o)
    (h' : Observed.Run parse note r (KeepsPrefixes r parse) seen' o')
    (hsame : SameTexts o.st.docs o'.st.docs) :
    (publishedProjects o.st).Perm (publishedProjects o'.st) ∧
      (publishedDocs o.st).Perm (publishedDocs o'.st) := by
  have hparsed := Observed.run_parsedOk h
  have hparsed' := Observed.run_parsedOk h'
  have hpub := Observed.run_published h
  have hpub' := Observed.run_published h'
  have hback : SameTexts o'.st.docs o.st.docs := fun uri text flag => (hsame uri text flag).symm
  have hempty : o.st.docs = emptyStore → o'.st.docs = emptyStore →
      (publishedProjects o.st).Perm (publishedProjects o'.st) ∧
        (publishedDocs o.st).Perm (publishedDocs o'.st) := by
    intro hd hd'
    obtain ⟨hprojects, hdocs⟩ := hpub.nil hd
    obtain ⟨hprojects', hdocs'⟩ := hpub'.nil hd'
    rw [hprojects, hdocs, hprojects', hdocs']
    exact ⟨.nil, .nil⟩
  rcases hpub with ⟨realpath, status, hw, hws⟩ | ⟨-, hd⟩
  · rcases hpub' with ⟨realpath', status', hw', hws'⟩ | ⟨-, hd'⟩
    · have hstores := hsame.sameStores (Observed.run_storeOk h) (Observed.run_storeOk h') hparsed
        hparsed' (Observed.run_prefixesOk h) (Observed.run_prefixesOk h')
      have hbuilt : o.st.ws = some (built realpath o.st.docs status) :=
        hws.trans (build_eq realpath _ status)
      have hbuilt' : o'.st.ws = some (built realpath' o'.st.docs status') :=
        hws'.trans (build_eq realpath' _ status')
      rw [publishedProjects, publishedProjects, publishedDocs, publishedDocs, hbuilt, hbuilt']
      let w : World := ⟨realpath, fun _ => none, fun _ => none, fun _ => none⟩
      let w' : World := ⟨realpath', fun _ => none, fun _ => none, fun _ => none⟩
      have hgoverns : r.Governs w.realpath := hw
      have hgoverns' : r.Governs w'.realpath := hw'
      exact ⟨hstores.projects_perm hgoverns hgoverns' status status',
        hstores.docs_perm realpath realpath' status status'⟩
    · exact hempty (hback.emptyStore hparsed hd') hd'
  · exact hempty hd (hsame.emptyStore hparsed' hd)

end History

/-! ### A prefix that outlives its include -/

/-- The URIs of the file that includes another, and of the other. -/
def includeUris : List CStr := [cstr "file:///a.tjp", cstr "file:///b.tji"]

/-- Some events, one after the other, where the included file is blank. -/
def includeRun (events : List Event) : Observed Unit :=
  Observed.events includeParse (fun _ _ _ => id) ⟨initialState, ()⟩
    (events.map fun e => (fileSystem [("file:///b.tji", "")], e))

theorem suits_blankInclude :
    (lexicalResolver includeUris).Suits includeParse (fileSystem [("file:///b.tji", "")]) :=
  suits_of_suitable (by decide +kernel)

theorem run_includeRun {events : List Event}
    (hnamed : Observed.EventsNamed includeParse (fun _ _ _ => id) (lexicalResolver includeUris)
      (⟨initialState, ()⟩ : Observed Unit)
      (events.map fun e => (fileSystem [("file:///b.tji", "")], e))) :
    Observed.Run includeParse (fun _ _ _ => id) (lexicalResolver includeUris) (fun _ _ _ => True) ()
      (includeRun events) := by
  refine Observed.Run.events .start (fun x hx => ?_) hnamed
  obtain ⟨e, -, rfl⟩ := List.mem_map.mp hx
  exact suits_blankInclude

theorem filesPlain_of_blank {uris : List CStr} {files : List (String × String)}
    (h : ∀ file ∈ files, (includeParse (cstr file.2)).includes = []) :
    FilesPlain (lexicalResolver uris) includeParse (fileSystem files) := by
  intro path text _ hread p _
  obtain ⟨file, hfile, rfl, -⟩ := exists_file hread
  have hnone := h file hfile
  rw [spelledDirectives, spelledDirectives, hnone]
  rfl

/-- A URI that is resolved already names a plain path. -/
theorem plain_of_canonical {uris : List CStr} {uri : CStr}
    (h : uriToPath ((lexicalResolver uris).canon (pathToUri ((uriToPath uri).getD [])))
      = uriToPath uri)
    (path text : CStr) (hpath : uriToPath uri = some path) :
    Plain (lexicalResolver uris) includeParse path text := by
  intro p hp
  rw [hpath, Option.getD_some] at h
  rw [h, Option.some.injEq] at hp
  rw [hp]

/-- The document in a slot has no include directives. -/
def undirected (s : Store) (i : Slot) : Bool :=
  (s i).all fun d => (d.directives (lexicalResolver includeUris) includeParse).isEmpty

theorem directives_of_undirected {s : Store} {i : Slot} (h : undirected s i = true) {d : Document}
    (hd : s i = some d) : d.directives (lexicalResolver includeUris) includeParse = [] := by
  rw [undirected, hd, Option.all_some, List.isEmpty_iff] at h
  exact h

theorem meets_open {o : Observed Unit} {w : World} {uri text : String} (i : Slot)
    (hfree : SpellingFree (lexicalResolver includeUris) w)
    (hfiles : FilesPlain (lexicalResolver includeUris) includeParse w)
    (hcanon : uriToPath ((lexicalResolver includeUris).canon
      (pathToUri ((uriToPath (cutNul (cstr uri))).getD []))) = uriToPath (cutNul (cstr uri)))
    (hnone : ∀ i, undirected o.st.docs i = true)
    (hact : ∀ j, j ≠ i → undirected (Step.apply w includeParse o.st
      (.act (.opened (cutNul (cstr uri)) (cutNul (cstr text))))).docs j = true)
    (hpoll : ∀ i, ((Step.poll.apply w includeParse (Step.apply w includeParse o.st
        (.act (.opened (cutNul (cstr uri)) (cutNul (cstr text)))))).docs i).map
          (fun d => (d.uri, d.text))
      = ((Step.apply w includeParse o.st
        (.act (.opened (cutNul (cstr uri)) (cutNul (cstr text))))).docs i).map fun d => (d.uri, d.text)) :
    Runs.Meets (Observed.step includeParse fun _ _ _ => id)
      (fun o x => KeepsPrefixes (lexicalResolver includeUris) includeParse o x.1 x.2) o
      (Observed.plan includeParse o (w, openMessage uri text)) := by
  have hagree := agree_of_single i fun j hj d hd => directives_of_undirected (hact j hj) hd
  have hagree' : Agree (lexicalResolver includeUris) includeParse (Step.poll.apply w includeParse
      (Step.apply w includeParse o.st
        (.act (.opened (cutNul (cstr uri)) (cutNul (cstr text)))))).docs := by
    refine agree_of_single i fun j hj d hd => ?_
    have hj' := (hpoll j).symm
    rw [hd, Option.map_some, Option.map_eq_some_iff] at hj'
    obtain ⟨e, he, heq⟩ := hj'
    rw [← Document.directives_congr (Prod.mk.inj heq).1 (Prod.mk.inj heq).2]
    exact directives_of_undirected (hact j hj) he
  refine ⟨keepsPrefixes_of_undirected ?_ hfree hfiles ?_ hagree, ?_⟩
  · rintro uri' ps ⟨j, d, hd, hlast⟩
    rw [directives_of_undirected (hnone j) hd] at hlast
    cases hlast
  · rintro a ⟨⟩ path hpath new -
    exact plain_of_canonical hcanon path new hpath
  · cases (applyActions w includeParse o.st.docs (openMessage uri text).actions).2 with
    | false => trivial
    | true =>
      exact ⟨keepsPrefixes_of_same hpoll (by rintro a ⟨⟩) hfree hfiles hagree',
        keepsPrefixes_of_same (fun _ => rfl) (by rintro a ⟨⟩) hfree hfiles hagree', trivial⟩

/-- The documents of a store, slot by slot. -/
def listTexts (s : Store) : List (CStr × Option CStr × Bool) :=
  (List.finRange maxDocs).filterMap fun i => (s i).map fun d => (d.uri, d.text, d.isCcRoot)

theorem sameTexts_of_perm {s s' : Store} (h : (listTexts s).Perm (listTexts s')) : SameTexts s s' := by
  have hmem : ∀ (s : Store) uri text isCcRoot, (uri, some text, isCcRoot) ∈ listTexts s ↔
      ∃ i d, s i = some d ∧ d.uri = uri ∧ d.text = some text ∧ d.isCcRoot = isCcRoot := by
    intro s uri text isCcRoot
    simp [listTexts]
  intro uri text isCcRoot
  rw [← hmem, ← hmem, h.mem_iff]

/-- The include of a file is removed from the text of its includer: the file keeps the prefix. -/
theorem prefix_outlives_include :
    ¬ ∀ (parse : CStr → ParseOutput) (r : Resolver) (o o' : Observed Unit),
      Observed.Run parse (fun _ _ _ => id) r (fun _ _ _ => True) () o →
      Observed.Run parse (fun _ _ _ => id) r (fun _ _ _ => True) () o' →
      SameTexts o.st.docs o'.st.docs →
      (publishedProjects o.st).Perm (publishedProjects o'.st) ∧
        (publishedDocs o.st).Perm (publishedDocs o'.st) := by
  intro h
  let edited := [openMessage "file:///b.tji" "", openMessage "file:///a.tjp" outerText,
    changeMessage "file:///a.tjp" ""]
  let fresh := [openMessage "file:///b.tji" "", openMessage "file:///a.tjp" ""]
  have htexts : listTexts (includeRun edited).st.docs = listTexts (includeRun fresh).st.docs := by
    decide +kernel
  have hrun : Observed.Run includeParse (fun _ _ _ => id) (lexicalResolver includeUris)
      (fun _ _ _ => True) () (includeRun edited) := run_includeRun (by decide +kernel)
  have hrun' : Observed.Run includeParse (fun _ _ _ => id) (lexicalResolver includeUris)
      (fun _ _ _ => True) () (includeRun fresh) := run_includeRun (by decide +kernel)
  have hdocs := (h _ _ _ _ hrun hrun' (sameTexts_of_perm (by rw [htexts]))).2.map fun d => d.2 .task
  have hedited : (publishedDocs (includeRun edited).st).map (fun d => d.2 .task)
      = [some (cstr "x"), none] := by decide +kernel
  have hfresh : (publishedDocs (includeRun fresh).st).map (fun d => d.2 .task) = [none, none] := by
    decide +kernel
  rw [hedited, hfresh] at hdocs
  have hmem := hdocs.mem_iff.mp List.mem_cons_self
  simp at hmem

/-- The file is opened before the one that includes it, or it is loaded with it. -/
theorem history_independent_opened :
    (publishedProjects (includeRun [openMessage "file:///a.tjp" outerText]).st).Perm
      (publishedProjects (includeRun
        [openMessage "file:///b.tji" "", openMessage "file:///a.tjp" outerText]).st) ∧
    (publishedDocs (includeRun [openMessage "file:///a.tjp" outerText]).st).Perm
      (publishedDocs (includeRun
        [openMessage "file:///b.tji" "", openMessage "file:///a.tjp" outerText]).st) := by
  have hfree : SpellingFree (lexicalResolver includeUris) (fileSystem [("file:///b.tji", "")]) :=
    spellingFree_fileSystem (by decide +kernel)
  have hfiles : FilesPlain (lexicalResolver includeUris) includeParse
      (fileSystem [("file:///b.tji", "")]) := filesPlain_of_blank (by decide +kernel)
  have hload : Observed.Run includeParse (fun _ _ _ => id) (lexicalResolver includeUris)
      (KeepsPrefixes (lexicalResolver includeUris) includeParse) ()
      (includeRun [openMessage "file:///a.tjp" outerText]) :=
    Observed.Run.next .start _ suits_blankInclude (by decide +kernel)
      (meets_open 0 hfree hfiles (by decide +kernel) (by decide +kernel) (by decide +kernel)
        (by decide +kernel))
  have hopen : Observed.Run includeParse (fun _ _ _ => id) (lexicalResolver includeUris)
      (KeepsPrefixes (lexicalResolver includeUris) includeParse) ()
      (includeRun [openMessage "file:///b.tji" ""]) :=
    Observed.Run.next .start _ suits_blankInclude (by decide +kernel)
      (meets_open 0 hfree hfiles (by decide +kernel) (by decide +kernel) (by decide +kernel)
        (by decide +kernel))
  have hboth : Observed.Run includeParse (fun _ _ _ => id) (lexicalResolver includeUris)
      (KeepsPrefixes (lexicalResolver includeUris) includeParse) ()
      (includeRun [openMessage "file:///b.tji" "", openMessage "file:///a.tjp" outerText]) :=
    hopen.next _ suits_blankInclude (by decide +kernel)
      (meets_open 1 hfree hfiles (by decide +kernel) (by decide +kernel) (by decide +kernel)
        (by decide +kernel))
  refine history_independent hload hboth (sameTexts_of_perm ?_)
  decide +kernel

end TaskjugglerLsp
