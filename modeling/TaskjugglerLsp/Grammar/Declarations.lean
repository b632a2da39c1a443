import TaskjugglerLsp.Grammar.Evaluation
import TaskjugglerLsp.Grammar.Outline
import TaskjugglerLsp.Grammar.Tokens

/-!
# Every declaration of a document is in its forest

A declaration is below the one that it is written in, or at the root if that is the project block or
none.  What is written in the body of another statement, such as `supplement`, is in no tree: the
grammar has no symbol for these statements.

* `Stmt.linked`: the trees of statements have the declarations that are written there.
* `ParsesTo.forest`: the forest of a parse is that of its statements.
* `declarations_once`: every declaration is there once, in its place.
-/

namespace TaskjugglerLsp

open Lib Lib.Lr

/-! ### Where declarations are written -/

/-- Where a declaration belongs: nowhere in the forest, at the root, or below another one. -/
inductive Place where
  | lost
  | top
  | inside (heading : TjInfo)

namespace Place

/-- The place of what is written in the body of a declaration. -/
def under : Place → TjInfo → Place
  | lost, _ => lost
  | _, h => inside h

/-- Trees in a place, as labels with that of the parent. -/
def linksOf : Place → List (Rose TjInfo) → List (Option TjInfo × TjInfo)
  | lost, _ => []
  | top, ts => Rose.linksAll none ts
  | inside h, ts => Rose.linksAll (some h) ts

/-- A declaration in a place. -/
def link : Place → TjInfo → List (Option TjInfo × TjInfo)
  | lost, _ => []
  | top, h => [(none, h)]
  | inside p, h => [(some p, h)]

theorem linksOf_append (place : Place) (ts us : List (Rose TjInfo)) :
    place.linksOf (ts ++ us) = place.linksOf ts ++ place.linksOf us := by
  cases place with
  | lost => rfl
  | top => exact Rose.linksAll_append none ts us
  | inside h => exact Rose.linksAll_append (some h) ts us

theorem linksOf_node (place : Place) (h : TjInfo) (ts : List (Rose TjInfo)) :
    place.linksOf [.node h ts] = place.link h ++ (place.under h).linksOf ts := by
  cases place with
  | lost => rfl
  | top => exact List.append_nil _
  | inside p => exact List.append_nil _

theorem linksOf_nil (place : Place) : place.linksOf [] = [] := by
  cases place <;> rfl

end Place

namespace Stmt

mutual

/-- **The declarations of a statement** that belong to the forest, each with the one that it is
written in, unless that is a project block. -/
def links (place : Place) : Stmt → List (Option TjInfo × TjInfo)
  | top item => linksAll .top item
  | project kw id name body stop =>
    place.link (headingOf kw id name stop) ++ linksAll .top body
  | symbol kw id name body stop | declare kw id name body stop =>
    place.link (headingOf kw id name stop) ++ linksAll (place.under (headingOf kw id name stop)) body
  | ref _ _ body | incl _ body | block body => linksAll .lost body
  | _ => []

def linksAll (place : Place) : List Stmt → List (Option TjInfo × TjInfo)
  | [] => []
  | st :: sts => links place st ++ linksAll place sts

end

mutual

/-- The number of project blocks in a statement. -/
def projects : Stmt → ℕ
  | project _ _ _ body _ => projectsAll body + 1
  | symbol kw _ _ body _ | declare kw _ _ body _ =>
    projectsAll body + if kw.kind = kwProject then 1 else 0
  | top body | ref _ _ body | incl _ body | block body => projectsAll body
  | _ => 0

def projectsAll : List Stmt → ℕ
  | [] => 0
  | st :: sts => projects st + projectsAll sts

end

end Stmt

/-! ### The trees have them -/

/-- Nothing is dropped where there is one project block at most. -/
theorem foldl_routeTree {ts r : List (Rose TjInfo)}
    (h : r.countP isProject + ts.countP isProject ≤ 1) : ts.foldl routeTree r = r ++ ts := by
  induction ts generalizing r with
  | nil => exact (List.append_nil r).symm
  | cons t ts ih =>
    rw [List.countP_cons] at h
    have hroute : routeTree r t = r ++ [t] := by
      refine if_neg ?_
      rintro ⟨ht, hr⟩
      obtain ⟨x, hx, hproject⟩ := List.any_eq_true.mp hr
      have hpos : 0 < r.countP isProject := List.countP_pos_iff.mpr ⟨x, hx, hproject⟩
      rw [if_pos ht] at h
      omega
    rw [List.foldl_cons, hroute, ih, List.append_assoc]
    · rfl
    · rw [List.countP_append, List.countP_singleton]
      omega

namespace Stmt

/-- What the trees of statements have, and how many project blocks are among them. -/
structure Linked (place : Place) (ts r r' : List (Rose TjInfo))
    (ls : List (Option TjInfo × TjInfo)) (n : ℕ) : Prop where
  perm : (Rose.linksAll none r' ++ place.linksOf ts).Perm (Rose.linksAll none r ++ ls)
  count : r'.countP isProject + ts.countP isProject ≤ r.countP isProject + n

theorem linkedAll {sts : List Stmt}
    (h : ∀ st ∈ sts, ∀ (place : Place) (r : List (Rose TjInfo)),
      r.countP isProject + st.projects ≤ 1 →
        Linked place st.outline r (st.roots r) (st.links place) st.projects) :
    ∀ (place : Place) (r : List (Rose TjInfo)), r.countP isProject + projectsAll sts ≤ 1 →
      Linked place (outlineAll sts) r (rootsAll sts r) (linksAll place sts) (projectsAll sts) := by
  induction sts with
  | nil =>
    intro place r _
    refine ⟨?_, ?_⟩
    · rw [outlineAll, rootsAll, linksAll, place.linksOf_nil]
    · rw [outlineAll, rootsAll, List.countP_nil]
      omega
  | cons st sts ih =>
    obtain ⟨hst, hsts⟩ := List.forall_mem_cons.mp h
    intro place r hone
    rw [projectsAll] at hone
    obtain ⟨hperm, hcount⟩ := hst place r (by omega)
    obtain ⟨hperm', hcount'⟩ := ih hsts place (st.roots r) (by omega)
    refine ⟨?_, ?_⟩
    · rw [outlineAll, rootsAll, linksAll, place.linksOf_append]
      refine (List.perm_append_comm_assoc _ _ _).trans ?_
      refine (hperm'.append_left _).trans ?_
      rw [← List.append_assoc, ← List.append_assoc]
      exact ((List.perm_append_comm).trans hperm).append_right _
    · rw [outlineAll, rootsAll, projectsAll, List.countP_append]
      omega

theorem countP_node (h : TjInfo) (ts : List (Rose TjInfo)) :
    [Rose.node h ts].countP isProject = if h.keyword = kwProject then 1 else 0 := by
  rw [List.countP_singleton]
  simp [isProject, Rose.label]

/-- What is built in the body of another statement is in no tree. -/
theorem Linked.lose {ts r r' : List (Rose TjInfo)} {ls : List (Option TjInfo × TjInfo)} {n : ℕ}
    (h : Linked .lost ts r r' ls n) (place : Place) : Linked place [] r r' ls n := by
  obtain ⟨hperm, hcount⟩ := h
  refine ⟨?_, ?_⟩
  · rw [place.linksOf_nil]
    exact hperm
  · rw [List.countP_nil]
    omega

theorem Linked.decl {place : Place} {ts r r' : List (Rose TjInfo)}
    {ls : List (Option TjInfo × TjInfo)} {n : ℕ} {h : TjInfo} (hl : Linked (place.under h) ts r r' ls n) :
    Linked place [.node h ts] r r' (place.link h ++ ls) (n + if h.keyword = kwProject then 1 else 0) := by
  obtain ⟨hperm, hcount⟩ := hl
  refine ⟨?_, ?_⟩
  · rw [place.linksOf_node]
    refine (List.perm_append_comm_assoc _ _ _).trans ?_
    exact (hperm.append_left _).trans (List.perm_append_comm_assoc _ _ _)
  · rw [countP_node]
    omega

/-- **The trees of a statement** have the declarations that belong to the forest. -/
theorem linked (st : Stmt) : ∀ (place : Place) (r : List (Rose TjInfo)),
    r.countP isProject + st.projects ≤ 1 →
      Linked place st.outline r (st.roots r) (st.links place) st.projects := by
  refine induct (P := fun st => ∀ (place : Place) (r : List (Rose TjInfo)),
    r.countP isProject + st.projects ≤ 1 →
      Linked place st.outline r (st.roots r) (st.links place) st.projects) ?_ st
  intro st ih place r hone
  have hnil (place : Place) : Linked place [] r r [] 0 := by
    refine ⟨?_, ?_⟩
    · rw [place.linksOf_nil]
    · exact Nat.le_refl _
  cases st with
  | top item =>
    obtain ⟨hperm, hcount⟩ := linkedAll ih .top r hone
    have hkept : (outlineAll item).foldl routeTree (rootsAll item r)
        = rootsAll item r ++ outlineAll item := foldl_routeTree (hcount.trans hone)
    refine ⟨?_, ?_⟩
    · show (Rose.linksAll none ((outlineAll item).foldl routeTree (rootsAll item r))
        ++ place.linksOf []).Perm _
      rw [place.linksOf_nil, List.append_nil, hkept, Rose.linksAll_append]
      exact hperm
    · show ((outlineAll item).foldl routeTree (rootsAll item r)).countP isProject + 0 ≤ _
      rw [hkept, List.countP_append]
      exact hcount
  | project kw id name body stop =>
    rw [projects] at hone
    obtain ⟨hperm, hcount⟩ := linkedAll ih .top r (by show _ + projectsAll body ≤ _; omega)
    change (Rose.linksAll none (rootsAll body r) ++ Rose.linksAll none (outlineAll body)).Perm _
      at hperm
    change (rootsAll body r).countP isProject + (outlineAll body).countP isProject
      ≤ r.countP isProject + projectsAll body at hcount
    have hall : (outlineAll body).filter (fun t => !isProject t) = outlineAll body := by
      have hzero : (outlineAll body).countP isProject = 0 := by omega
      rw [List.filter_eq_self]
      intro t ht
      rw [Bool.not_eq_true']
      exact Bool.eq_false_iff.mpr (List.countP_eq_zero.mp hzero t ht)
    have hkept : (project kw id name body stop).roots r = rootsAll body r ++ outlineAll body := by
      rw [roots, hall]
      exact foldl_routeTree (by omega)
    refine ⟨?_, ?_⟩
    · rw [hkept, Rose.linksAll_append]
      show (_ ++ place.linksOf [.node (headingOf kw id name stop) []]).Perm (_ ++
        (place.link (headingOf kw id name stop) ++ linksAll .top body))
      rw [place.linksOf_node, Place.linksOf_nil, List.append_nil]
      refine List.perm_append_comm.trans ?_
      exact (hperm.append_left _).trans (List.perm_append_comm_assoc _ _ _)
    · rw [hkept, List.countP_append]
      show _ + [Rose.node (headingOf kw id name stop) []].countP isProject ≤ _
      rw [countP_node, projects]
      split_ifs <;> omega
  | symbol kw id name body stop =>
    exact (linkedAll ih (place.under (headingOf kw id name stop)) r
      (le_trans (by rw [projects]; show _ + projectsAll body ≤ _; omega) hone)).decl
  | declare kw id name body stop =>
    exact (linkedAll ih (place.under (headingOf kw id name stop)) r
      (le_trans (by rw [projects]; show _ + projectsAll body ≤ _; omega) hone)).decl
  | ref bangs segs body => exact (linkedAll ih .lost r hone).lose place
  | incl file body => exact (linkedAll ih .lost r hone).lose place
  | block body => exact (linkedAll ih .lost r hone).lose place
  | _ => exact hnil place

end Stmt

/-! ### Each in one place -/

/-- The place in the text where a declaration begins. -/
def TjInfo.startKey (info : TjInfo) : ℕ := info.range.start.key

/-- The declarations of these links, apart from such as begin with a closing brace. -/
def headings (links : List (Option TjInfo × TjInfo)) : List TjInfo :=
  (links.map (·.2)).filter fun info => info.keyword != tkRbrace

theorem headings_append (ls more : List (Option TjInfo × TjInfo)) :
    headings (ls ++ more) = headings ls ++ headings more := by
  unfold headings
  rw [List.map_append, List.filter_append]

namespace Stmt

variable {lossy : Bool}

/-- The declarations stand in the text one after the other. -/
def InOrder (ls : List (Option TjInfo × TjInfo)) (ts : List Token) : Prop :=
  ((headings ls).map TjInfo.startKey).Sublist (startKeys ts)

theorem InOrder.append {ls more : List (Option TjInfo × TjInfo)} {ts us : List Token}
    (h : InOrder ls ts) (h' : InOrder more us) : InOrder (ls ++ more) (ts ++ us) := by
  unfold InOrder
  rw [headings_append, List.map_append, startKeys_append]
  exact List.Sublist.append h h'

theorem InOrder.nil (ts : List Token) : InOrder [] ts := List.nil_sublist _

theorem inOrderAll {sts : List Stmt}
    (h : ∀ st ∈ sts, ∀ place ts, Spells lossy st ts → InOrder (st.links place) ts) (place : Place) :
    ∀ ts, SpellsAll lossy sts ts → InOrder (linksAll place sts) ts := by
  induction sts with
  | nil => exact fun ts _ => InOrder.nil ts
  | cons st sts ih =>
    obtain ⟨hst, hsts⟩ := List.forall_mem_cons.mp h
    rintro ts ⟨gap, own, rest, rfl, hown, hrest⟩
    have hgap := (InOrder.nil gap).append (hst place own hown)
    exact hgap.append (ih hsts rest hrest)

theorem inOrder_body {sts : List Stmt} {place : Place} {stop : LspPos} {tail : List Token}
    (h : ∀ ts, SpellsAll lossy sts ts → InOrder (linksAll place sts) ts)
    (hbody : InBody (SpellsAll lossy sts) (sts = []) stop tail) :
    InOrder (linksAll place sts) tail := by
  cases hbody with
  | none hempty =>
    rw [hempty]
    exact InOrder.nil _
  | @braces l r ts hl hr hinner =>
    have hright := (h ts hinner).append (InOrder.nil [r])
    rw [List.append_nil] at hright
    exact (InOrder.nil [l]).append hright

theorem inOrder_decl {place : Place} {kw id name : Token} {stop : LspPos}
    {ls : List (Option TjInfo × TjInfo)} {mid tail : List Token} (h : InOrder ls tail) :
    InOrder (place.link (headingOf kw id name stop) ++ ls) (kw :: (mid ++ tail)) := by
  have hrest := (InOrder.nil mid).append h
  have hone : InOrder (place.link (headingOf kw id name stop)) [kw] := by
    unfold InOrder headings startKeys
    have hkeyword : (headingOf kw id name stop).keyword = kw.kind := rfl
    have hkey : (headingOf kw id name stop).startKey = kw.start.key := rfl
    cases place with
    | lost => exact List.nil_sublist _
    | top | inside =>
      by_cases hbrace : kw.kind = tkRbrace
      · simp [Place.link, hkeyword, hbrace]
      · simp [Place.link, hkeyword, hbrace, hkey]
  exact hone.append hrest

/-- **The declarations of a statement** stand in the text one after the other. -/
theorem links_inOrder (st : Stmt) : ∀ (place : Place) (ts : List Token), Spells lossy st ts →
    InOrder (st.links place) ts := by
  refine induct (P := fun st => ∀ (place : Place) (ts : List Token), Spells lossy st ts →
    InOrder (st.links place) ts) ?_ st
  intro st ih place ts hts
  cases st with
  | top item => exact inOrderAll ih .top ts hts
  | project kw id name body stop =>
    obtain ⟨mid, tail, rfl, -, -, hbody⟩ := hts
    exact inOrder_decl (inOrder_body (inOrderAll ih .top) hbody)
  | symbol kw id name body stop =>
    obtain ⟨mid, tail, rfl, -, -, hbody⟩ := hts
    exact inOrder_decl (inOrder_body (inOrderAll ih _) hbody)
  | declare kw id name body stop =>
    obtain ⟨mid, tail, rfl, -, -, hbody⟩ := hts
    exact inOrder_decl (inOrder_body (inOrderAll ih _) hbody)
  | ref bangs segs body =>
    obtain ⟨path, tail, stop, rfl, -, -, hbody⟩ := hts
    exact (InOrder.nil (bangs ++ path)).append (inOrder_body (inOrderAll ih .lost) hbody)
  | incl file body =>
    obtain ⟨kw, tail, stop, rfl, -, hbody⟩ := hts
    exact (InOrder.nil [kw, file]).append (inOrder_body (inOrderAll ih .lost) hbody)
  | block body => exact inOrderAll ih .lost ts hts
  | _ => exact InOrder.nil ts

end Stmt

/-! ### The forest of a parse -/

namespace TjNode

mutual

/-- The tree of a declaration, as far as its headings go. -/
def tree : TjNode → Rose TjInfo
  | mk info children => .node info.heading (treeAll children)

def treeAll : List TjNode → List (Rose TjInfo)
  | [] => []
  | n :: ns => tree n :: treeAll ns

end

theorem treeAll_eq (ns : List TjNode) : treeAll ns = ns.map tree := by
  induction ns with
  | nil => rfl
  | cons n ns ih => rw [treeAll, ih, List.map_cons]

/-- **The forest below the synthetic root**: its declarations, each with the one that it is below, or
none. -/
def forest (root : TjNode) : List (Option TjInfo × TjInfo) :=
  Rose.linksAll none (treeAll root.children)

end TjNode

theorem tree_nodeOf (s : GrammarState) (n a : ℕ) :
    (nodeOf s.heap n a).tree = Rose.unfold s.heading s.kids n a := by
  induction n generalizing a with
  | zero => rfl
  | succ n ih =>
    rw [nodeOf, TjNode.tree, TjNode.treeAll_eq, List.map_map, Rose.unfold]
    congr 1
    exact List.map_congr_left fun b _ => ih b

theorem perm_sortByStart (heap : List NodeCell) (l : List ℕ) : (sortByStart heap l).Perm l :=
  List.mergeSort_perm _ _

theorem perm_linksAll {ts us : List (Rose TjInfo)} (h : ts.Perm us) (parent : Option TjInfo) :
    (Rose.linksAll parent ts).Perm (Rose.linksAll parent us) := by
  induction h with
  | nil => exact .refl _
  | cons t _ ih => exact ih.append_left _
  | swap t u ts =>
    rw [Rose.linksAll, Rose.linksAll, Rose.linksAll, Rose.linksAll]
    exact List.perm_append_comm_assoc _ _ _
  | trans _ _ ih ih' => exact ih.trans ih'

/-- **The forest of a state** that the actions have left, with the declarations at the root in the
order of their places. -/
theorem Outlined.forest {front : FrontState} {s : GrammarState} {r : List (Rose TjInfo)}
    (h : Outlined [] s r) : (parseResult front s).root.forest.Perm (Rose.linksAll none r) := by
  obtain ⟨sorted, hsorted⟩ : ∃ sorted, sorted = s.write 0 fun c =>
      { c with children := sortByStart s.heap c.children } := ⟨_, rfl⟩
  have hheap : (parseResult front s).heap = sorted.heap := by
    rw [hsorted]
    rfl
  have hlen : sorted.heap.length = s.heap.length := by
    rw [hsorted, GrammarState.length_write]
  have hkids : sorted.kids 0 = sortByStart s.heap (s.kids 0) := by
    unfold GrammarState.kids
    rw [hsorted, GrammarState.cell_write, if_pos ⟨rfl, h.pos⟩]
  have hsame : ∀ a, Ready [] s a → Ready [] sorted a ∧ sorted.heading a = s.heading a ∧
      sorted.kids a = s.kids a := by
    rintro a ⟨ha, hlt, hnot⟩
    have hcell : sorted.cell a = s.cell a := by
      rw [hsorted, GrammarState.cell_write, if_neg fun heq => ha.ne heq.1]
    unfold GrammarState.heading GrammarState.kids
    rw [hcell]
    exact ⟨⟨ha, by omega, hnot⟩, rfl, rfl⟩
  have hholds := Rose.HoldsAll.frame hsame r _ h.holds
  obtain ⟨m, hm⟩ : ∃ m, sorted.heap.length = m + 1 := ⟨s.heap.length - 1, by have := h.pos; omega⟩
  have hheight := h.height
  have htrees := Rose.HoldsAll.unfold_eq r _ m hholds (by omega)
  have hroot : TjNode.treeAll (parseResult front s).root.children
      = (sortByStart s.heap (s.kids 0)).map (Rose.unfold sorted.heading sorted.kids m) := by
    have hchildren : (parseResult front s).root.children
        = (sorted.kids 0).map (nodeOf sorted.heap m) := by
      rw [ParseResult.root, hheap, hm]
      rfl
    rw [hchildren, TjNode.treeAll_eq, List.map_map, hkids]
    exact List.map_congr_left fun b _ => tree_nodeOf sorted m b
  rw [TjNode.forest, hroot]
  refine perm_linksAll ?_ none
  rw [← htrees]
  exact (perm_sortByStart s.heap (s.kids 0)).map _

theorem outlined_install (s : GrammarState) : Outlined [] s.install [] :=
  ⟨Nat.one_pos, (fun a ha => by cases ha), rfl, Nat.one_pos⟩

section Parses

variable {κ : Type*} [DecidableEq κ] {T : Tables κ NonTerm SemAction} {s t : ProgState}
  {text : CStr} {doc : SynTree} {out : ParseResult}

/-- **The forest of a parse** is that of its statements. -/
theorem ParsesTo.forest (hT : T.Sound grammar yyError) (h : ParsesTo T s text doc t out) :
    out.root.forest.Perm (Rose.linksAll none (Stmt.rootsAll (doc.stmts []) [])) := by
  obtain ⟨input, -, -, hstate, rfl, -⟩ := h.spec hT
  have hbuilt : BuiltTrees [] s.grammar.install (Stmt.outlineAll (doc.stmts [])) _ _ _ :=
    Stmt.execAll_built (fun st _ => st.exec_built) [] s.grammar.install []
      (outlined_install s.grammar)
  rw [← hstate] at hbuilt
  exact hbuilt.outlined.forest

/-- **The declarations of a document**: those of its items; nothing else has a place. -/
def documentLinks (doc : SynTree) : List (Option TjInfo × TjInfo) :=
  Stmt.linksAll .lost (doc.stmts [])

theorem ParsesTo.forest_documentLinks (hT : T.Sound grammar yyError)
    (h : ParsesTo T s text doc t out) (hone : Stmt.projectsAll (doc.stmts []) ≤ 1) :
    out.root.forest.Perm (documentLinks doc) := by
  have hlinked : Stmt.Linked .lost (Stmt.outlineAll (doc.stmts [])) [] _ _ _ :=
    Stmt.linkedAll (fun st _ => st.linked) .lost [] (by rw [List.countP_nil]; omega)
  have hroots := hlinked.perm
  rw [show Place.lost.linksOf (Stmt.outlineAll (doc.stmts [])) = [] from rfl, List.append_nil]
    at hroots
  exact (h.forest hT).trans hroots

/-- The keywords of tasks, resources, accounts and shifts. -/
def declarationKinds : List ℕ := [kwTask, kwResource, kwAccount, kw "shift"]

/-- **Every declaration is in the forest once**: below the one that it is written in, or at the root
if that is the project block or none; and nothing else is in the forest. -/
theorem declarations_once (hT : T.Sound grammar yyError) (hs : ParseHistory T s)
    (h : ParsesTo T s text doc t out) (hone : Stmt.projectsAll (doc.stmts []) ≤ 1) :
    out.root.forest.Perm (documentLinks doc) ∧
      ∀ link ∈ documentLinks doc, link.2.keyword ∈ declarationKinds →
        link ∈ out.root.forest ∧ (out.root.forest.map (·.2)).count link.2 = 1 := by
  have hperm := h.forest_documentLinks hT hone
  refine ⟨hperm, ?_⟩
  intro link hlink hkind
  refine ⟨hperm.mem_iff.mpr hlink, ?_⟩
  obtain ⟨hspells, hplace⟩ := h.spells hT hs
  have horder : Stmt.InOrder (documentLinks doc) doc.toks :=
    Stmt.inOrderAll (fun st _ => st.links_inOrder) .lost doc.toks hspells
  have hnodup : (headings (documentLinks doc)).Nodup := by
    have hkeys := hplace.startKeys.sublist horder
    exact List.Nodup.of_map _ (hkeys.imp fun hlt => Nat.ne_of_lt hlt)
  have hbrace : (link.2.keyword != tkRbrace) = true := by
    have hkinds : ∀ k ∈ declarationKinds, (k != tkRbrace) = true := by decide
    exact hkinds _ hkind
  have hmem : link.2 ∈ headings (documentLinks doc) :=
    List.mem_filter.mpr ⟨List.mem_map_of_mem hlink, hbrace⟩
  rw [(hperm.map _).count_eq, ← List.count_filter (p := fun info => info.keyword != tkRbrace) hbrace]
  exact List.count_eq_one_of_mem hnodup hmem

end Parses

/-! ### Two documents -/

/-- A project with a task in another one. -/
def nestedText : CStr :=
  cstr "project p \"\" 2020-01-01 1d \x7b\ntask a \"\" \x7b\ntask b \"\"\n\x7d\n\x7d"

theorem nestedText_parse : (treeUpTo coreTables 400 .boot nestedText).map (fun x =>
    decide (Stmt.projectsAll (x.2.stmts []) ≤ 1)) = some true := by
  decide +kernel

/-- The declarations of this document are in its forest. -/
theorem declarations_once_nested : ∃ doc t out, ParsesTo coreTables .boot nestedText doc t out ∧
    (out.root.forest.Perm (documentLinks doc) ∧
      ∀ link ∈ documentLinks doc, link.2.keyword ∈ declarationKinds →
        link ∈ out.root.forest ∧ (out.root.forest.map (·.2)).count link.2 = 1) := by
  obtain ⟨doc, t, out, hp, hone⟩ := exists_parsesTo nestedText_parse
  exact ⟨doc, t, out, hp, declarations_once coreTables_sound .boot hp (of_decide_eq_true hone)⟩

namespace Lib.Lr.Tree

mutual

/-- The statements of a tree, where those in the body of a `supplement` stand in place of it. -/
def supplemented : SynTree → List Yystype → List Stmt
  | .leaf _ _, _ => []
  | .lost _ _ parts, below => [.block (supplementedEach parts below).flatten]
  | .node p children, below =>
    if p.lhs = .supplementStmt then unblock ((supplementedEach children below).getD 3 [])
    else nodeStmts p.action.code children
      (((staticEach children).reverse ++ below).take p.action.reach).reverse
      (supplementedEach children below)

def supplementedEach : List SynTree → List Yystype → List (List Stmt)
  | [], _ => []
  | t :: ts, below => supplemented t below :: supplementedEach ts (static t :: below)

end

end Lib.Lr.Tree

/-- The productions of supplements as well. -/
def supplementProductions : List (Production NonTerm SemAction) :=
  coreProductions ++
    [rule .plainStmt [.nt .supplementStmt] .default,
      rule .supplementStmt [.tok (kw "supplement"), .nt .supplementTarget, .nt .dottedId,
        .nt .optBody] .default,
      rule .supplementTarget [.tok (kw "task")] .default,
      rule .dottedId [.tok tkIdent] .default]

theorem mem_productions_of_supplement : ∀ p ∈ supplementProductions, p ∈ grammar.productions := by
  decide +kernel

/-- The automaton of these productions. -/
def supplementTables : Tables (List (Item NonTerm)) NonTerm SemAction :=
  itemTables acceptProduction supplementProductions yyError

theorem supplementTables_sound : supplementTables.Sound grammar yyError :=
  itemTables_sound mem_productions_of_supplement

/-- A task in the body of a supplement. -/
def supplementText : CStr := cstr "supplement task a \x7b\ntask b \"\"\n\x7d"

theorem supplementText_parse : (treeUpTo supplementTables 200 .boot supplementText).map (fun x =>
    (decide (Stmt.projectsAll (x.2.stmts []) ≤ 1),
      decide (∀ link ∈ Stmt.linksAll .lost (x.2.supplemented []),
        link.2.keyword ∈ declarationKinds → link ∈ x.1.root.forest))) = some (true, false) := by
  decide +kernel

/-- **A declaration in a supplement is lost.** -/
theorem declarations_once_supplement : supplementTables.Sound grammar yyError ∧
    ¬ ∀ (s t : ProgState) (text : CStr) (doc : SynTree) (out : ParseResult),
      ParseHistory supplementTables s → ParsesTo supplementTables s text doc t out →
        Stmt.projectsAll (doc.stmts []) ≤ 1 →
        ∀ link ∈ Stmt.linksAll .lost (doc.supplemented []), link.2.keyword ∈ declarationKinds →
          link ∈ out.root.forest ∧ (out.root.forest.map (·.2)).count link.2 = 1 := by
  refine ⟨supplementTables_sound, fun h => ?_⟩
  obtain ⟨doc, t, out, hp, heq⟩ := exists_parsesTo supplementText_parse
  simp only [Prod.mk.injEq, decide_eq_true_eq, decide_eq_false_iff_not] at heq
  exact heq.2 fun link hlink hkind => (h .boot t supplementText doc out .boot hp heq.1 link hlink
    hkind).1

end TaskjugglerLsp
