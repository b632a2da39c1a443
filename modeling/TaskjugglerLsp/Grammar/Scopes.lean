import TaskjugglerLsp.Grammar.Layout

/-!
# The scopes of a document

The cells of a parse hold the declarations of its document, where those of the project block have
been hoisted; put back under it, they are nested intervals.  So the sweep over the tokens finds for
each of them the innermost declaration that is written around it.

* `ParsesTo.scopes`: the cells of a parse are a tree of declarations.
* `owners_innermost`: the owner of each token.
-/

namespace TaskjugglerLsp

open Lib Lib.Lr

namespace ParseResult

variable (out : ParseResult)

/-- What the declaration of a cell says of itself. -/
def label (a : ℕ) : TjInfo := (out.heap.getD a .new).info.heading

/-- The cells below a cell. -/
def below (a : ℕ) : List ℕ := (out.heap.getD a .new).children

/-- A cell of a declaration. -/
def IsDecl (a : ℕ) : Prop := 0 < a ∧ a < out.heap.length

end ParseResult

/-- **The cells of a parse** hold the trees at the root, in the order of their places. -/
theorem Outlined.held {s : GrammarState} {r : List (Rose TjInfo)} (h : Outlined [] s r)
    (front : FrontState) : ∃ cells, Rose.HoldsAll (parseResult front s).label
        (parseResult front s).below (parseResult front s).IsDecl r cells ∧
      (parseResult front s).below 0 = sortByStart (parseResult front s).heap cells ∧
      Rose.heightAll r < (parseResult front s).heap.length := by
  obtain ⟨sorted, hsorted⟩ : ∃ sorted, sorted = s.write 0 fun c =>
      { c with children := sortByStart s.heap c.children } := ⟨_, rfl⟩
  have hheap : (parseResult front s).heap = sorted.heap := by
    rw [hsorted]
    rfl
  have hlen : sorted.heap.length = s.heap.length := by
    rw [hsorted, GrammarState.length_write]
  have hcell (a : ℕ) : (sorted.cell a).info = (s.cell a).info ∧
      (a ≠ 0 → sorted.cell a = s.cell a) := by
    rw [hsorted, GrammarState.cell_write]
    split_ifs with ha
    · exact ⟨rfl, fun hne => absurd ha.1.symm (by simpa using hne)⟩
    · exact ⟨rfl, fun _ => rfl⟩
  have hrange : sortByStart (parseResult front s).heap = sortByStart s.heap := by
    have hnode : nodeRange (parseResult front s).heap = nodeRange s.heap := by
      funext a
      rw [hheap]
      exact congrArg TjInfo.range (hcell a).1
    unfold sortByStart
    rw [hnode]
  refine ⟨s.kids 0, Rose.HoldsAll.frame ?_ r _ h.holds, ?_, ?_⟩
  · rintro a ⟨ha, hlt, -⟩
    have hsame := (hcell a).2 (by omega)
    unfold ParseResult.IsDecl ParseResult.label ParseResult.below
    rw [hheap]
    exact ⟨⟨ha, by omega⟩, congrArg (fun c => c.info.heading) hsame,
      congrArg NodeCell.children hsame⟩
  · rw [hrange]
    unfold ParseResult.below
    rw [hheap]
    show (sorted.cell 0).children = _
    rw [hsorted, GrammarState.cell_write, if_pos ⟨rfl, h.pos⟩]
    rfl
  · rw [hheap, hlen]
    exact h.height

/-! ### The project block -/

section Hoisted

variable {heap : List NodeCell} {label : ℕ → TjInfo} {inner : ℕ → Prop} {children cells : List ℕ}
  {trees part : List (Rose TjInfo)}

/-- A cell is one of those that count, and only the project block is one. -/
def InScope (heap : List NodeCell) (label : ℕ → TjInfo) (inner : ℕ → Prop) (children : List ℕ)
    (a : ℕ) : Prop :=
  inner a ∧ ((label a).keyword = kwProject → projectBlock heap children = some a)

/-- The declarations with those of the project block below it. -/
theorem exists_scopes (hhoists : Hoists trees part)
    (hlabel : ∀ a, label a = (heap.getD a .new).info.heading)
    (hheld : Rose.HoldsAll label (fun a => (heap.getD a .new).children) inner part cells)
    (hmem : ∀ a, a ∈ children ↔ a ∈ cells) :
    ∃ tops body, (∀ a, a ∈ children ↔ a ∈ tops ∨ a ∈ body) ∧
      (∀ p, projectBlock heap children = some p → p ∈ tops ∧ (heap.getD p .new).children = []) ∧
      (projectBlock heap children = none → body = []) ∧
      Rose.HoldsAll label (scopeKids heap children body) (InScope heap label inner children) trees
        tops := by
  have hkeyword (a : ℕ) : ((heap.getD a .new).info.keyword == kwProject) = true ↔
      (label a).keyword = kwProject := by
    rw [hlabel, beq_iff_eq]
    rfl
  cases hhoists with
  | none hnone =>
    have hheld' := hheld.refine _ _ hnone
    have hblock : projectBlock heap children = none := by
      unfold projectBlock
      rw [List.find?_eq_none]
      intro a ha hproject
      obtain ⟨t, -, hta⟩ := hheld'.exists_tree ((hmem a).mp ha)
      exact hta.root_inner.2 ((hkeyword a).mp hproject)
    refine ⟨cells, [], fun a => ?_, fun p hp => ?_, fun _ => rfl, ?_⟩
    · rw [hmem]
      simp
    · rw [hblock] at hp
      cases hp
    · refine Rose.HoldsAll.frame ?_ _ _ hheld'
      rintro a ⟨ha, hne⟩
      refine ⟨⟨ha, fun hproject => absurd hproject hne⟩, rfl, ?_⟩
      unfold scopeKids
      rw [hblock, if_neg (by simp)]
  | @one pre body post p hp hpre hbody hpost =>
    obtain ⟨as, rest, rfl, has, hrest⟩ := hheld.split
    obtain ⟨bs, rest, rfl, hbs, c, cs, rfl, hc, hcs⟩ := hrest.split
    have has' := has.refine _ _ hpre
    have hbs' := hbs.refine _ _ hbody
    have hcs' := hcs.refine _ _ hpost
    have hclabel : (label c).keyword = kwProject := by
      rw [hc.label_eq]
      exact hp
    have honly : ∀ a ∈ children, (label a).keyword = kwProject → a = c := by
      intro a ha hproject
      rw [hmem, List.mem_append, List.mem_append, List.mem_cons] at ha
      rcases ha with ha | ha | ha | ha
      · obtain ⟨t, -, hta⟩ := has'.exists_tree ha
        exact absurd hproject hta.root_inner.2
      · obtain ⟨t, -, hta⟩ := hbs'.exists_tree ha
        exact absurd hproject hta.root_inner.2
      · exact ha
      · obtain ⟨t, -, hta⟩ := hcs'.exists_tree ha
        exact absurd hproject hta.root_inner.2
    have hcmem : c ∈ children := by
      rw [hmem]
      simp
    have hblock : projectBlock heap children = some c := by
      cases hfind : projectBlock heap children with
      | none =>
        unfold projectBlock at hfind
        rw [List.find?_eq_none] at hfind
        exact absurd ((hkeyword c).mpr hclabel) (hfind c hcmem)
      | some a =>
        have ha := List.mem_of_find?_eq_some hfind
        have hproject := List.find?_some hfind
        rw [honly a ha ((hkeyword a).mp hproject)]
    have hother : ∀ a, inner a ∧ (label a).keyword ≠ kwProject →
        InScope heap label inner children a ∧ label a = label a ∧
        scopeKids heap children bs a = (heap.getD a .new).children := by
      rintro a ⟨ha, hne⟩
      refine ⟨⟨ha, fun hproject => absurd hproject hne⟩, rfl, ?_⟩
      unfold scopeKids
      rw [hblock, if_neg]
      intro heq
      rw [Option.some.inj heq] at hne
      exact hne hclabel
    refine ⟨as ++ c :: cs, bs, fun a => ?_, fun q hq => ?_, fun hnone => ?_, ?_⟩
    · rw [hmem]
      simp only [List.mem_append, List.mem_cons]
      tauto
    · rw [hblock] at hq
      rw [← Option.some.inj hq]
      exact ⟨by simp, hc.2.2⟩
    · rw [hblock] at hnone
      cases hnone
    · refine (Rose.HoldsAll.frame hother _ _ has').append ⟨c, cs, rfl, ?_,
        Rose.HoldsAll.frame hother _ _ hcs'⟩
      obtain ⟨hin, hl, -⟩ := hc
      refine ⟨⟨hin, fun _ => hblock⟩, hl, ?_⟩
      have hkids : scopeKids heap children bs c = bs := by
        unfold scopeKids
        rw [hblock, if_pos rfl]
      rw [hkids]
      exact Rose.HoldsAll.frame hother _ _ hbs'

end Hoisted

/-! ### The scopes of a parse -/

/-- **The innermost declaration around a position** of a document. -/
def innermostDecl (doc : SynTree) (pos : LspPos) : Option TjInfo :=
  Rose.innermost TjInfo.startKey TjInfo.stopKey pos.key (documentTrees doc)

section Parses

variable {κ : Type*} [DecidableEq κ] {T : Tables κ NonTerm SemAction} {s t : ProgState}
  {text : CStr} {doc : SynTree} {out : ParseResult}

theorem project_kind {items : List (List Stmt)} {lossy : Bool} {ts : List Token}
    (h : Stmt.SpellsAll lossy (items.map .top) ts) {kw id name : Token} {body : List Stmt}
    {stop : LspPos} (hmem : [Stmt.project kw id name body stop] ∈ items) :
    kw.kind = kwProject := by
  obtain ⟨us, hus⟩ := h.mem (List.mem_map_of_mem (f := Stmt.top) hmem)
  have hinner : Stmt.SpellsAll lossy [.project kw id name body stop] us := hus
  obtain ⟨vs, mid, tail, -, hkw, -⟩ := hinner.mem (List.mem_singleton_self _)
  exact hkw

/-- **The root of a parse** holds the declarations of its document, where those of the project block
have been hoisted. -/
theorem ParsesTo.hoists (hT : T.Sound grammar yyError) (hs : ParseHistory T s)
    (h : ParsesTo T s text doc t out) (hone : OneProject doc) :
    Hoists (documentTrees doc) (Stmt.rootsAll (doc.stmts []) []) := by
  obtain ⟨input, -, hdoc, -⟩ := h.spec hT
  obtain ⟨hspells, -⟩ := h.spells hT hs
  obtain ⟨items, hitems, hinner⟩ := document_items hdoc.valid hdoc.whole hdoc.root
  obtain ⟨hcount, honTop⟩ := hone
  rw [documentTrees, hitems]
  rw [hitems] at hspells hcount honTop
  obtain ⟨gap, own, rest, -, -, hrest⟩ := hspells
  rw [Stmt.projectsAll] at hcount
  obtain ⟨part, hpart, hhoists⟩ := Stmt.rootsAll_hoists hinner
    ((Nat.le_add_left _ _).trans hcount) (fun st hst => honTop st (List.mem_cons_of_mem _ hst))
    (fun kw id name body stop => project_kind hrest) (r := []) (fun t ht => by cases ht)
  show Hoists _ (Stmt.rootsAll (items.map .top) [])
  rw [hpart]
  exact hhoists

/-- **The cells of a parse** are a tree of declarations, which holds those of its document. -/
theorem ParsesTo.scopes (hT : T.Sound grammar yyError) (hs : ParseHistory T s)
    (h : ParsesTo T s text doc t out) (hone : OneProject doc) : ∃ tops body,
      DeclForest out.heap (out.below 0) tops body ∧
      (∀ p, projectBlock out.heap (out.below 0) = some p → out.below p = []) ∧
      Rose.HoldsAll out.label (scopeKids out.heap (out.below 0) body)
        (InScope out.heap out.label out.IsDecl (out.below 0)) (documentTrees doc) tops := by
  have hhoists := h.hoists hT hs hone
  obtain ⟨hspells, hplace⟩ := h.spells hT hs
  obtain ⟨hi, hlaid⟩ := laidOut_documentTrees hspells hplace
  obtain ⟨input, -, -, hstate, rfl, -⟩ := h.spec hT
  have hbuilt : BuiltTrees [] s.grammar.install (Stmt.outlineAll (doc.stmts [])) _ _ _ :=
    Stmt.execAll_built (fun st _ => st.exec_built) [] s.grammar.install []
      (outlined_install s.grammar)
  rw [← hstate] at hbuilt
  obtain ⟨cells, hheld, hbelow, -⟩ := hbuilt.outlined.held t.front
  have hmem (a : ℕ) : a ∈ (parseResult t.front t.grammar).below 0 ↔ a ∈ cells := by
    rw [hbelow]
    exact mem_sortByStart cells a
  obtain ⟨tops, body, hhoisted, hproject, hnone, htops⟩ :=
    exists_scopes hhoists (fun _ => rfl) hheld hmem
  refine ⟨tops, body, ⟨hhoisted, fun p hp => (hproject p hp).1, hnone,
    Rose.nested_cells htops hlaid, ?_, ?_⟩, fun p hp => (hproject p hp).2, htops⟩
  · intro d a ha
    obtain ⟨tree, hheldBy, -⟩ := Rose.exists_nested htops hlaid ha
    exact hheldBy.root_inner.1.2
  · intro d e a hd he
    exact Rose.one_depth htops hlaid hd he

end Parses

/-! ### A task in a project block -/

theorem nestedText_oneProject : (treeUpTo coreTables 400 .boot nestedText).map (fun x =>
    decide (OneProject x.2)) = some true := by
  decide +kernel

end TaskjugglerLsp
