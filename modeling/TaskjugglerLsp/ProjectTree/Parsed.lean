import TaskjugglerLsp.Lib.Places
import TaskjugglerLsp.Grammar.Segments
import TaskjugglerLsp.Grammar.TaskIds
import TaskjugglerLsp.ProjectTree.Agreement

/-!
# What the parser promises of a document

Definition, references and highlights agree for parsed documents (`ParsedDocument`).  The output of
each parse without an error is one.

* `ParsesTo.address_inj`: a declaration is at one address of the tree.
* `heapRefs_inj`: references that are apart are those of different dependencies.
* `parsed_documents`: what the parser promises.
-/

namespace TaskjugglerLsp

open Lib Lib.Lr

/-! ### Addresses -/

theorem exists_cell_of_sub {heap : List NodeCell} {n a : ℕ} {address : List ℕ} {o : TjNode}
    (h : (nodeOf heap n a).sub address = some o) :
    ∃ c, cellAt heap a address = some c ∧ o.info = (heap.getD c .new).info := by
  induction address generalizing n a with
  | nil =>
    obtain rfl := Option.some.inj h
    exact ⟨a, rfl, info_nodeOf n a⟩
  | cons i address ih =>
    obtain ⟨b, hb, ho⟩ := Descent.node_cons_eq_some.mp h
    cases n with
    | zero => cases hb
    | succ n =>
      rw [children_nodeOf, List.getElem?_map, Option.map_eq_some_iff] at hb
      obtain ⟨c, hc, rfl⟩ := hb
      obtain ⟨d, hd, hinfo⟩ := ih ho
      exact ⟨d, Descent.node_cons_eq_some.mpr ⟨c, hc, hd⟩, hinfo⟩

theorem TjNode.label_tree (n : TjNode) : n.tree.label = n.info.heading := by
  cases n
  rfl

theorem TjNode.children_tree (n : TjNode) : n.tree.children = treeAll n.children := by
  cases n
  rfl

/-- The tree of the declaration at an address is at the address of the tree. -/
theorem TjNode.sub_tree {root o : TjNode} {a : List ℕ} (h : root.sub a = some o) :
    Descent.node Rose.children root.tree a = some o.tree := by
  induction a generalizing root with
  | nil => exact congrArg (Option.map TjNode.tree) h
  | cons i a ih =>
    obtain ⟨c, hc, ho⟩ := Descent.node_cons_eq_some.mp h
    refine Descent.node_cons_eq_some.mpr ⟨c.tree, ?_, ih ho⟩
    rw [TjNode.children_tree, TjNode.treeAll_eq, List.getElem?_map, hc, Option.map_some]

/-! ### The dependencies of different cells -/

/-- **Dependencies whose references are not apart** are the same. -/
theorem heapRefs_inj {heap : List NodeCell}
    (h : (heapRefs heap).Pairwise fun a b => a.2.Apart b.2) {a b k m : ℕ} {d e : Dependency}
    (hd : (heap.getD a .new).info.dependencies[k]? = some d)
    (he : (heap.getD b .new).info.dependencies[m]? = some e) (hde : ¬ d.taskRef.Apart e.taskRef) :
    a = b ∧ k = m := by
  have hlt {c j : ℕ} {f : Dependency} (hf : (heap.getD c .new).info.dependencies[j]? = some f) :
      c < heap.length := by
    by_contra hc
    rw [List.getD_eq_default _ _ (Nat.le_of_not_lt hc)] at hf
    cases hf
  have hmem {c j : ℕ} {f : Dependency} (hf : (heap.getD c .new).info.dependencies[j]? = some f) :
      ((heap.getD c .new).info.heading, f.taskRef) ∈ (heap.getD c .new).info.dependencies.map
        fun d => ((heap.getD c .new).info.heading, d.taskRef) :=
    List.mem_map_of_mem (List.mem_of_getElem? hf)
  have hget {c : ℕ} (hc : c < heap.length) : heap.getD c .new = heap[c] :=
    List.getD_eq_getElem _ _ hc
  rw [heapRefs, List.pairwise_flatMap] at h
  obtain ⟨hwithin, hacross⟩ := h
  have hcell {x y j l : ℕ} {f g : Dependency}
      (hf : (heap.getD x .new).info.dependencies[j]? = some f)
      (hg : (heap.getD y .new).info.dependencies[l]? = some g) (hxy : x < y) :
      f.taskRef.Apart g.taskRef := by
    have hx := hlt hf
    have hy := hlt hg
    have hcells := List.pairwise_iff_getElem.mp hacross x y hx hy hxy
    have hf' := hmem hf
    have hg' := hmem hg
    rw [hget hx] at hf'
    rw [hget hy] at hg'
    exact hcells (_, f.taskRef) hf' (_, g.taskRef) hg'
  have hsame : a = b := by
    rcases Nat.lt_trichotomy a b with hab | hab | hab
    · exact absurd (hcell hd he hab) hde
    · exact hab
    · exact absurd (hcell he hd hab).symm hde
  subst hsame
  refine ⟨rfl, ?_⟩
  have hown := hwithin (heap.getD a .new) (by rw [hget (hlt hd)]; exact List.getElem_mem _)
  rw [List.pairwise_map, List.pairwise_iff_getElem] at hown
  have horder {j l : ℕ} {f g : Dependency}
      (hf : (heap.getD a .new).info.dependencies[j]? = some f)
      (hg : (heap.getD a .new).info.dependencies[l]? = some g) (hjl : j < l) :
      f.taskRef.Apart g.taskRef := by
    obtain ⟨hj, rfl⟩ := List.getElem?_eq_some_iff.mp hf
    obtain ⟨hl, rfl⟩ := List.getElem?_eq_some_iff.mp hg
    exact hown j l hj hl hjl
  rcases Nat.lt_trichotomy k m with hkm | hkm | hkm
  · exact absurd (horder hd he hkm) hde
  · exact hkm
  · exact absurd (horder he hd hkm).symm hde

theorem lastIdentInRange_mem {spans : List TokenSpan} {range seg : LspRange}
    (h : lastIdentInRange spans range = some seg) :
    range.start.key ≤ seg.start.key ∧ seg.start.key ≤ range.stop.key := by
  obtain ⟨x, hx, rfl⟩ := Option.map_eq_some_iff.mp h
  have hmem := List.mem_of_getLast? hx
  simp only [List.mem_filter, Bool.and_eq_true, Bool.not_eq_true', decide_eq_false_iff_not,
    LspPos.before_iff_key, Nat.not_lt] at hmem
  exact ⟨hmem.2.1.2, hmem.2.2⟩

/-! ### The declarations of a parse -/

/-- A declaration has the kind of one of its tokens. -/
theorem WrittenIn.exists_kind {ts : List Token} {t : Rose TjInfo} (h : WrittenIn ts t) :
    ∃ kw ∈ ts, kw.kind ≠ tkRbrace ∧ t.label.keyword = kw.kind := by
  cases h with
  | @intro pre mid tail post us kw id name stop children hkw hid hbody hchildren =>
    exact ⟨kw, by simp, hkw, rfl⟩

theorem Scoped.exists_tree {out : ParseResult} {doc : SynTree} {tops body : List ℕ}
    (h : Scoped out doc tops body) {Q : Rose TjInfo → Prop}
    (hQ : ∀ l us, Q (.node l us) → ∀ u ∈ us, Q u) (htrees : ∀ t ∈ documentTrees doc, Q t)
    {address : List ℕ} {c : ℕ} (hc : cellAt out.heap 0 address = some c) (hne : address ≠ []) :
    ∃ t, t.label = out.label c ∧ Q t := by
  obtain ⟨more, hancestry, -⟩ := ancestry_cellsTo h.forest h.hoisted hc hne
  obtain ⟨above, habove, -⟩ := cellsTo_cons hc hne
  rw [habove, List.cons_append] at hancestry
  obtain ⟨t, hheld, ht⟩ := Rose.exists_held TjInfo.startKey TjInfo.stopKey hQ h.held htrees
    hancestry.atDepth
  exact ⟨t, hheld.label_eq.symm, ht⟩

section Parses

variable {κ : Type*} [DecidableEq κ] {T : Tables κ NonTerm SemAction} {s t : ProgState}
  {text : CStr} {doc : SynTree} {out : ParseResult}

theorem ParsesTo.forest_nodup (hT : T.Sound grammar yyError) (hs : ParseHistory T s)
    (h : ParsesTo T s text doc t out) (hone : OneProject doc) :
    ((headings out.root.forest).map TjInfo.startKey).Nodup := by
  have hperm := h.forest_documentLinks hT hone.count
  obtain ⟨hspells, hplace⟩ := h.spells hT hs
  have horder : Stmt.InOrder (documentLinks doc) doc.toks :=
    Stmt.inOrderAll (fun st _ => st.links_inOrder) .lost doc.toks hspells
  have hheadings : (headings out.root.forest).Perm (headings (documentLinks doc)) :=
    (hperm.map _).filter _
  rw [(hheadings.map TjInfo.startKey).nodup_iff]
  exact (hplace.startKeys.sublist horder).imp fun hlt => Nat.ne_of_lt hlt

/-- **A declaration is at one address** of the tree. -/
theorem ParsesTo.address_inj (hT : T.Sound grammar yyError) (hs : ParseHistory T s)
    (h : ParsesTo T s text doc t out) (hone : OneProject doc) {a b : List ℕ} {o o' : TjNode}
    (ho : out.root.sub a = some o) (ho' : out.root.sub b = some o') (ha : a ≠ []) (hb : b ≠ [])
    (hkind : o.info.keyword ≠ tkRbrace) (hsame : o.info.heading = o'.info.heading) : a = b := by
  have hnodup := h.forest_nodup hT hs hone
  rw [headings, TjNode.forest, ← TjNode.children_tree] at hnodup
  have hlabel : o.tree.label = o'.tree.label := by
    rw [TjNode.label_tree, TjNode.label_tree, hsame]
  have hcounts : (o.tree.label.keyword != tkRbrace) = true := by
    rw [TjNode.label_tree]
    exact bne_iff_ne.mpr hkind
  exact Rose.address_inj hnodup (TjNode.sub_tree ho) (TjNode.sub_tree ho') ha hb hcounts
    (hlabel ▸ hcounts) (congrArg TjInfo.startKey hlabel)

theorem ParsesTo.ref_ends (hT : T.Sound grammar yyError) (hs : ParseHistory T s)
    (h : ParsesTo T s text doc t out) {r : TjInfo × TaskRef} (hr : r ∈ documentRefs doc) :
    r.2.start.key ≤ r.2.stop.key := by
  have hmem : r.2 ∈ (documentPaths doc).map fun p => taskRefOf p.1 p.2 :=
    (documentRefs_subperm doc).subset (List.mem_map_of_mem hr)
  obtain ⟨p, hp, heq⟩ := List.mem_map.mp hmem
  obtain ⟨before, path, after, htoks, hpath⟩ := (h.paths_in hT hs).exists_path hp
  obtain ⟨first, last, hends⟩ := hpath.exists_ends
  obtain ⟨-, hplace⟩ := h.spells hT hs
  have hseq : InSequence path := by
    refine hplace.inSequence.sublist ?_
    rw [htoks]
    exact (List.sublist_append_right _ _).trans (List.sublist_append_left _ _)
  have hfirst : first ∈ path := hpath.subset hends.first_mem
  rw [← heq, (hends.ref_eq p.1).1, (hends.ref_eq p.1).2]
  exact (hseq.le first hfirst).trans (hends.within hseq first hfirst).2

theorem ParsesTo.exists_dependency (hT : T.Sound grammar yyError) (hs : ParseHistory T s)
    (h : ParsesTo T s text doc t out) (hone : OneProject doc)
    (hdepth : Stmt.taskDepthAll (doc.stmts []) ≤ symStackSize) {a : List ℕ} {k : ℕ}
    {dep : Dependency} (hdep : out.root.dependencyAt a k = some dep) :
    ∃ o c, out.root.sub a = some o ∧ a ≠ [] ∧ o.info = (out.heap.getD c .new).info ∧
      o.info.keyword = kwTask ∧ (out.heap.getD c .new).info.dependencies[k]? = some dep ∧
      (out.label c, dep.taskRef) ∈ documentRefs doc := by
  obtain ⟨o, ho, hk⟩ := TjNode.dependencyAt_eq_some.mp hdep
  obtain ⟨c, hc, hinfo⟩ := exists_cell_of_sub ho
  rw [hinfo] at hk
  have href : (out.label c, dep.taskRef) ∈ documentRefs doc :=
    (h.heapRefs_perm hT hs hdepth).mem_iff.mp (mem_heapRefs (List.mem_of_getElem? hk))
  have htask : (out.label c).keyword = kwTask := (h.placed_refs hT hs _ href).task
  refine ⟨o, c, ho, ?_, hinfo, ?_, hk, href⟩
  · rintro rfl
    obtain rfl : 0 = c := Option.some.inj hc
    obtain ⟨tops, body, hscoped⟩ := h.scoped hT hs hone
    rw [hscoped.root] at htask
    exact absurd htask (by decide)
  · rw [hinfo]
    exact htask

/-- **Dependencies whose ranges have a place in common** are the same. -/
theorem ParsesTo.dependency_inj (hT : T.Sound grammar yyError) (hs : ParseHistory T s)
    (h : ParsesTo T s text doc t out) (hone : OneProject doc)
    (hdepth : Stmt.taskDepthAll (doc.stmts []) ≤ symStackSize) {a b : List ℕ} {k m : ℕ}
    {d e : Dependency} (hd : out.root.dependencyAt a k = some d)
    (he : out.root.dependencyAt b m = some e) (hde : ¬ d.taskRef.Apart e.taskRef) :
    a = b ∧ k = m := by
  obtain ⟨o, c, ho, ha, hinfo, htask, hk, -⟩ := h.exists_dependency hT hs hone hdepth hd
  obtain ⟨o', c', ho', hb, hinfo', -, hm, -⟩ := h.exists_dependency hT hs hone hdepth he
  have happart : (heapRefs out.heap).Pairwise fun a b => a.2.Apart b.2 :=
    (h.heapRefs_perm hT hs hdepth).symm.pairwise (h.refs_apart hT hs) fun hab => hab.symm
  obtain ⟨rfl, rfl⟩ := heapRefs_inj happart hk hm hde
  refine ⟨h.address_inj hT hs hone ho ho' ha hb ?_ (by rw [hinfo, hinfo']), rfl⟩
  rw [htask]
  decide

/-- **What the parser promises** of its output. -/
theorem ParsesTo.parsedDocument (hT : T.Sound grammar yyError) (hs : ParseHistory T s)
    (h : ParsesTo T s text doc t out) (hone : OneProject doc)
    (hdepth : Stmt.taskDepthAll (doc.stmts []) ≤ symStackSize) {snap : DocSnapshot}
    (hroot : snap.root = out.root) : ParsedDocument snap := by
  obtain ⟨tops, body, hscoped⟩ := h.scoped hT hs hone
  have hrootInfo : out.root.info.heading = NodeCell.new.info.heading := by
    rw [ParseResult.root, info_nodeOf]
    exact hscoped.root
  have hinfo {a : List ℕ} {o : TjNode} (ho : out.root.sub a = some o) (ha : a ≠ [])
      {Q : Rose TjInfo → Prop} (hQ : ∀ l us, Q (.node l us) → ∀ u ∈ us, Q u)
      (htrees : ∀ t ∈ documentTrees doc, Q t) : ∃ t, t.label = o.info.heading ∧ Q t := by
    obtain ⟨c, hc, hinfo⟩ := exists_cell_of_sub ho
    rw [hinfo]
    exact hscoped.exists_tree hQ htrees hc ha
  -- the place of a dependency, or of its last identifier, is in no other one
  have hinj {a b : List ℕ} {k m : ℕ} {d e : Dependency} (hd : out.root.dependencyAt a k = some d)
      (he : out.root.dependencyAt b m = some e) {p : LspPos}
      (hin : d.sourceRange.start.key ≤ p.key ∧ p.key ≤ d.sourceRange.stop.key)
      (hin' : e.sourceRange.start.key ≤ p.key ∧ p.key ≤ e.sourceRange.stop.key) :
      a = b ∧ k = m := by
    refine h.dependency_inj hT hs hone hdepth hd he fun happart => ?_
    rcases happart with hlt | hlt
    · exact absurd (hlt.trans_le (hin'.1.trans hin.2)) (Nat.lt_irrefl _)
    · exact absurd (hlt.trans_le (hin.1.trans hin'.2)) (Nat.lt_irrefl _)
  rw [← hroot] at hinj
  refine ⟨?_, fun a o ho ha => ?_, fun a o ho => ?_, fun a k dep a' k' dep' hd he hsame => ?_,
    fun a k dep a' k' dep' seg hd he hseg hseg' => ?_⟩
  · rw [hroot]
    exact congrArg TjInfo.keyword hrootInfo
  · rw [hroot] at ho
    obtain ⟨tree, htree, hwritten⟩ := hinfo ho ha (fun l us hnode => hnode.child) hscoped.written
    obtain ⟨kw, hkw, hkind, hlabel⟩ := hwritten.exists_kind
    obtain ⟨x, hx, hxkw⟩ := hscoped.place.exists_mark hkw hkind
    have hreal := hscoped.spans.1 x hx
    rw [htree] at hlabel
    intro hzero
    refine hreal ?_
    rw [show x.tokenKind = kw.kind from congrArg Prod.fst hxkw, ← hlabel]
    exact hzero
  · rw [hroot] at ho
    by_cases ha : a = []
    · subst ha
      obtain rfl := Option.some.inj ho
      intro htask
      rw [show out.root.info.keyword = 0 from congrArg TjInfo.keyword hrootInfo] at htask
      exact absurd htask (by decide)
    · obtain ⟨tree, htree, hevery⟩ := hinfo ho ha (fun l us hnode => by cases hnode with
        | node _ hchildren => exact hchildren) (h.task_ids hT hs)
      have hid : o.info.heading.HasTaskId := by
        rw [← htree]
        cases hevery with
        | node hid _ => exact hid
      exact hid
  · have hends : dep.sourceRange.start.key ≤ dep.sourceRange.stop.key := by
      rw [hroot] at hd
      obtain ⟨_, _, -, -, -, -, -, href⟩ := h.exists_dependency hT hs hone hdepth hd
      have hle := h.ref_ends hT hs href
      exact hle
    refine hinj hd he ⟨Nat.le_refl _, hends⟩ ?_
    rw [← hsame]
    exact ⟨Nat.le_refl _, hends⟩
  · exact hinj hd he (lastIdentInRange_mem hseg) (lastIdentInRange_mem hseg')

/-- **A snapshot of a parse** without an error, of a document with one project block at most whose
tasks are nested no deeper than the stack of the parser. -/
def ParsedBy (T : Tables κ NonTerm SemAction) (snap : DocSnapshot) : Prop :=
  ∃ s t text doc out, ParseHistory T s ∧ ParsesTo T s text doc t out ∧ OneProject doc ∧
    Stmt.taskDepthAll (doc.stmts []) ≤ symStackSize ∧ snap.root = out.root ∧
    snap.tokSpans = out.tokSpans

/-- **The documents of a store are parsed ones**, if their snapshots are those of parses. -/
theorem parsed_documents (hT : T.Sound grammar yyError) {store : Store}
    (h : ∀ i d snap, store i = some d → d.snap = some snap → ParsedBy T snap) :
    store.ParsedDocs := by
  intro i d snap hd hsnap
  obtain ⟨s, t, text, doc, out, hs, hp, hone, hdepth, hroot, -⟩ := h i d snap hd hsnap
  exact hp.parsedDocument hT hs hone hdepth hroot

end Parses

/-- A store with a parse of the document of two tasks. -/
theorem parsed_documents_related : ∃ snap, ParsedBy coreTables snap ∧
    snap.text = some relatedText ∧ (loneStore snap).ParsedDocs := by
  obtain ⟨doc, t, out, hp, hall⟩ := exists_parsesTo relatedText_project
  obtain ⟨hone, hdepth⟩ := of_decide_eq_true hall
  obtain ⟨snap, hsnap⟩ : ∃ snap : DocSnapshot,
      snap = ⟨1, cstr "file:///a.tjp", some relatedText, out.root, out.tokSpans, 0⟩ := ⟨_, rfl⟩
  have hparsed : ParsedBy coreTables snap := by
    refine ⟨.boot, t, relatedText, doc, out, .boot, hp, hone, hdepth, ?_, ?_⟩ <;> rw [hsnap]
  refine ⟨snap, hparsed, by rw [hsnap], parsed_documents coreTables_sound ?_⟩
  intro i d snap' hd hsnap'
  rw [(loneStore_eq_some hd).2.2, Option.some.injEq] at hsnap'
  rw [← hsnap']
  exact hparsed

end TaskjugglerLsp
