import TaskjugglerLsp.Grammar.Output
import TaskjugglerLsp.Grammar.Statements
import TaskjugglerLsp.Lib.RoseTree

/-!
# The outline of a document

What the actions of the grammar build of the declarations: each has those of its body below it,
those in a project block are hoisted to the root, and those in the body of any other statement are
in no tree.

* `Stmt.outline`, `Stmt.roots`: the trees of a statement, and what it adds to the root.
* `Stmt.exec_built`: the actions build these trees.
-/

namespace TaskjugglerLsp

open Lib

/-! ### Headings -/

/-- What a declaration says of itself: everything but its dependencies. -/
def TjInfo.heading (info : TjInfo) : TjInfo := { info with dependencies := [] }

/-- The heading of a declaration, from its tokens and the end of its body. -/
def headingOf (kw id name : Token) (stop : LspPos) : TjInfo :=
  let idText := if id.text.isSome then id.text else kw.text
  let selection := if id.text.isSome then ⟨id.start, id.stop⟩ else ⟨kw.start, kw.stop⟩
  let nameText := if name.text.isSome then name.text else idText
  ⟨kw.kind, idText, nameText, ⟨kw.start, rangeEnd kw ⟨[], stop⟩⟩, selection, []⟩

/-- The declaration is a project block. -/
def isProject (t : Rose TjInfo) : Bool := t.label.keyword == kwProject

/-! ### The trees of statements -/

/-- `route_top_level`, of a tree. -/
def routeTree (roots : List (Rose TjInfo)) (t : Rose TjInfo) : List (Rose TjInfo) :=
  if isProject t = true ∧ roots.any isProject = true then roots else roots ++ [t]

namespace Stmt

mutual

/-- **The tree of a statement**, if it is a declaration. -/
def outline : Stmt → List (Rose TjInfo)
  | project kw id name _ stop => [.node (headingOf kw id name stop) []]
  | symbol kw id name body stop => [.node (headingOf kw id name stop) (outlineAll body)]
  | declare kw id name body stop => [.node (headingOf kw id name stop) (outlineAll body)]
  | _ => []

def outlineAll : List Stmt → List (Rose TjInfo)
  | [] => []
  | st :: sts => outline st ++ outlineAll sts

end

mutual

/-- **The trees at the root** after a statement: those of the items of the file, and those in a
project block. -/
def roots : Stmt → List (Rose TjInfo) → List (Rose TjInfo)
  | top item, r => (outlineAll item).foldl routeTree (rootsAll item r)
  | project _ _ _ body _, r =>
    ((outlineAll body).filter fun t => !isProject t).foldl routeTree (rootsAll body r)
  | symbol _ _ _ body _, r | declare _ _ _ body _, r | ref _ _ body, r | incl _ body, r
  | block body, r => rootsAll body r
  | _, r => r

def rootsAll : List Stmt → List (Rose TjInfo) → List (Rose TjInfo)
  | [], r => r
  | st :: sts, r => rootsAll sts (roots st r)

end

end Stmt

/-! ### The trees of a state -/

namespace GrammarState

variable (s : GrammarState)

/-- The heading of a cell. -/
def heading (a : ℕ) : TjInfo := (s.cell a).info.heading

/-- The cells below a cell. -/
def kids (a : ℕ) : List ℕ := (s.cell a).children

/-- What trees depend on. -/
def outlineView : ℕ × (ℕ → TjInfo) × (ℕ → List ℕ) := (s.heap.length, s.heading, s.kids)

theorem cell_write (a b : ℕ) (f : NodeCell → NodeCell) :
    (s.write a f).cell b = if a = b ∧ b < s.heap.length then f (s.cell b) else s.cell b := by
  unfold cell write
  rw [List.getD_eq_getElem?_getD, List.getD_eq_getElem?_getD, List.getElem?_modify]
  by_cases hb : b < s.heap.length
  · rw [List.getElem?_eq_getElem hb]
    by_cases hab : a = b <;> simp [hab, hb]
  · rw [List.getElem?_eq_none (Nat.le_of_not_lt hb), if_neg fun h => hb h.2]
    rfl

@[simp] theorem length_write (a : ℕ) (f : NodeCell → NodeCell) :
    (s.write a f).heap.length = s.heap.length := List.length_modify _ _ _

theorem outlineView_write {f : NodeCell → NodeCell}
    (hf : ∀ c, (f c).info.heading = c.info.heading ∧ (f c).children = c.children) (a : ℕ) :
    (s.write a f).outlineView = s.outlineView := by
  have hheading : (s.write a f).heading = s.heading := by
    funext b
    unfold heading
    rw [cell_write]
    split_ifs
    · exact (hf _).1
    · rfl
  have hkids : (s.write a f).kids = s.kids := by
    funext b
    unfold kids
    rw [cell_write]
    split_ifs
    · exact (hf _).2
    · rfl
  unfold outlineView
  rw [length_write, hheading, hkids]

theorem outlineView_setPendingPrefix (k : PrefixKind) (value : CStr) :
    (s.setPendingPrefix k value).outlineView = s.outlineView := by
  unfold setPendingPrefix
  split_ifs <;> rfl

theorem outlineView_pushInclude (quoted : Option CStr) :
    (s.pushInclude quoted).outlineView = s.outlineView := by
  unfold pushInclude
  split <;> rfl

theorem outlineView_captureDate (date : Token) {set : ℤ → NodeCell → NodeCell}
    (hset : ∀ t c, (set t c).info = c.info ∧ (set t c).children = c.children) :
    (s.captureDate date set).outlineView = s.outlineView := by
  unfold captureDate
  split
  · rfl
  · split_ifs
    · split
      · rfl
      · refine s.outlineView_write (fun c => ⟨?_, (hset _ c).2⟩) _
        rw [(hset _ c).1]
    · rfl

theorem outlineView_captureDep (ref : TaskRef) :
    (s.captureDep ref).outlineView = s.outlineView := by
  unfold captureDep
  split
  · rfl
  · unfold tjNodePushDependency
    exact s.outlineView_write (by intro c; exact ⟨rfl, rfl⟩) _

theorem outlineView_symStackPush (a : ℕ) : (s.symStackPush a).outlineView = s.outlineView := by
  unfold symStackPush
  split_ifs <;> rfl

theorem outlineView_pushTask (kw : Token) (a : ℕ) :
    (if kw.kind = kwTask then s.symStackPush a else s).outlineView = s.outlineView := by
  split_ifs
  · exact s.outlineView_symStackPush a
  · rfl

theorem outlineView_popTask (kw : Token) :
    (if kw.kind = kwTask then s.symStackPop else s).outlineView = s.outlineView := by
  split_ifs <;> rfl

theorem cell_allocTjNode (kw id name : Token) (b : ℕ) : (s.allocTjNode kw id name).1.cell b =
    if b = s.heap.length then
      ⟨{ headingOf kw id name ⟨0, 0⟩ with range := ⟨kw.start, ⟨0, 0⟩⟩ }, none, none, []⟩
    else s.cell b := by
  obtain ⟨c, hheap, hc⟩ : ∃ c, (s.allocTjNode kw id name).1.heap = s.heap ++ [c] ∧
      c = ⟨{ headingOf kw id name ⟨0, 0⟩ with range := ⟨kw.start, ⟨0, 0⟩⟩ }, none, none, []⟩ :=
    ⟨_, rfl, rfl⟩
  unfold cell
  rw [hheap, List.getD_eq_getElem?_getD, List.getD_eq_getElem?_getD, List.getElem?_append]
  by_cases hb : b < s.heap.length
  · rw [if_pos hb, if_neg (Nat.ne_of_lt hb)]
  · rw [if_neg hb, List.getElem?_eq_none (Nat.le_of_not_lt hb)]
    by_cases heq : b = s.heap.length
    · rw [if_pos heq, heq, Nat.sub_self, hc]
      rfl
    · obtain ⟨n, hn⟩ : ∃ n, b - s.heap.length = n + 1 := ⟨b - s.heap.length - 1, by omega⟩
      rw [if_neg heq, hn]
      rfl

@[simp] theorem length_allocTjNode (kw id name : Token) :
    (s.allocTjNode kw id name).1.heap.length = s.heap.length + 1 := List.length_append

end GrammarState

/-! ### The actions build the trees -/

/-- A declaration that has been allocated between two states. -/
def NewIn (s t : GrammarState) (a : ℕ) : Prop := s.heap.length ≤ a ∧ a < t.heap.length

/-- A declaration that is not open any more; the root is none. -/
def Ready (opened : List ℕ) (s : GrammarState) (a : ℕ) : Prop :=
  0 < a ∧ a < s.heap.length ∧ a ∉ opened

/-- **The trees at the root** of a state; their cells are not those of the declarations that are
still open. -/
structure Outlined (opened : List ℕ) (s : GrammarState) (r : List (Rose TjInfo)) : Prop where
  pos : 0 < s.heap.length
  opened_lt : ∀ a ∈ opened, a < s.heap.length
  holds : Rose.HoldsAll s.heading s.kids (Ready opened s) r (s.kids 0)
  height : Rose.heightAll r < s.heap.length

/-- Declarations stay as they are, apart from their dependencies and dates. -/
structure KeepsCells (s t : GrammarState) : Prop where
  length : s.heap.length ≤ t.heap.length
  same : ∀ a, 0 < a → a < s.heap.length → t.heading a = s.heading a ∧ t.kids a = s.kids a

/-- **From one state to another** these trees have been built, with those at the root. -/
structure BuiltTrees (opened : List ℕ) (s : GrammarState) (ts r : List (Rose TjInfo))
    (t : GrammarState) (as : List ℕ) : Prop where
  outlined : Outlined opened t r
  grows : KeepsCells s t
  holds : Rose.HoldsAll t.heading t.kids (NewIn s t) ts as
  height : Rose.heightAll ts + s.heap.length ≤ t.heap.length

section Build

variable {opened : List ℕ} {s t u : GrammarState} {ts us r r' : List (Rose TjInfo)}
  {as bs : List ℕ}

theorem KeepsCells.refl (s : GrammarState) : KeepsCells s s := ⟨le_refl _, fun _ _ _ => ⟨rfl, rfl⟩⟩

theorem KeepsCells.trans (h : KeepsCells s t) (h' : KeepsCells t u) : KeepsCells s u := by
  refine ⟨h.length.trans h'.length, fun a ha hlt => ?_⟩
  obtain ⟨hheading, hkids⟩ := h'.same a ha (hlt.trans_le h.length)
  exact ⟨hheading.trans (h.same a ha hlt).1, hkids.trans (h.same a ha hlt).2⟩

theorem grows_of_view (h : t.outlineView = s.outlineView) : KeepsCells s t := by
  simp only [GrammarState.outlineView, Prod.mk.injEq] at h
  obtain ⟨hlen, hheading, hkids⟩ := h
  exact ⟨by rw [hlen], fun a _ _ => ⟨by rw [hheading], by rw [hkids]⟩⟩

theorem Outlined.of_view (h : Outlined opened s r) (hview : t.outlineView = s.outlineView) :
    Outlined opened t r := by
  simp only [GrammarState.outlineView, Prod.mk.injEq] at hview
  obtain ⟨hlen, hheading, hkids⟩ := hview
  obtain ⟨hpos, hopened, hholds, hheight⟩ := h
  have hready : Ready opened s = Ready opened t := by
    funext a
    unfold Ready
    rw [hlen]
  rw [← hlen] at hpos hopened hheight
  rw [← hheading, ← hkids, hready] at hholds
  exact ⟨hpos, hopened, hholds, hheight⟩

theorem Outlined.built_nil (h : Outlined opened s r) (hview : t.outlineView = s.outlineView) :
    BuiltTrees opened s [] r t [] := by
  have hgrows := grows_of_view hview
  refine ⟨h.of_view hview, hgrows, rfl, ?_⟩
  rw [Rose.heightAll, Nat.zero_add]
  exact hgrows.length

theorem BuiltTrees.holds_later (h : BuiltTrees opened s ts r t as) (hs : 0 < s.heap.length)
    (hg : KeepsCells t u) : Rose.HoldsAll u.heading u.kids (NewIn s u) ts as := by
  refine Rose.HoldsAll.frame ?_ ts as h.holds
  rintro a ⟨hle, hlt⟩
  exact ⟨⟨hle, hlt.trans_le hg.length⟩, hg.same a (by omega) hlt⟩

/-- What happens after trees are built does not matter, if it is none of the outline. -/
theorem BuiltTrees.of_view (h : BuiltTrees opened s ts r t as) (hs : 0 < s.heap.length)
    (hview : u.outlineView = t.outlineView) : BuiltTrees opened s ts r u as := by
  have hg := grows_of_view hview
  exact ⟨h.outlined.of_view hview, h.grows.trans hg, h.holds_later hs hg,
    h.height.trans hg.length⟩

theorem BuiltTrees.lose (h : BuiltTrees opened s ts r t as) : BuiltTrees opened s [] r t [] := by
  refine ⟨h.outlined, h.grows, rfl, ?_⟩
  rw [Rose.heightAll, Nat.zero_add]
  exact h.grows.length

theorem BuiltTrees.append (h : BuiltTrees opened s ts r t as) (h' : BuiltTrees opened t us r' u bs)
    (hs : 0 < s.heap.length) : BuiltTrees opened s (ts ++ us) r' u (as ++ bs) := by
  have hlen := h.grows.length
  have hlen' := h'.grows.length
  refine ⟨h'.outlined, h.grows.trans h'.grows, (h.holds_later hs h'.grows).append ?_, ?_⟩
  · refine Rose.HoldsAll.frame ?_ us bs h'.holds
    rintro a ⟨hle, hlt⟩
    exact ⟨⟨by omega, hlt⟩, rfl, rfl⟩
  · have hheight := h.height
    have hheight' := h'.height
    rw [Rose.heightAll_append]
    omega

theorem Ready.grow {a : ℕ} (h : Ready opened s a) (hg : KeepsCells s t) :
    Ready opened t a ∧ t.heading a = s.heading a ∧ t.kids a = s.kids a :=
  ⟨⟨h.1, h.2.1.trans_le hg.length, h.2.2⟩, hg.same a h.1 h.2.1⟩

theorem BuiltTrees.ready (h : BuiltTrees opened s ts r t as) (hs : Outlined opened s r') :
    Rose.HoldsAll t.heading t.kids (Ready opened t) ts as := by
  refine Rose.HoldsAll.frame ?_ ts as h.holds
  rintro a ⟨hle, hlt⟩
  have hpos := hs.pos
  refine ⟨⟨by omega, hlt, fun hmem => ?_⟩, rfl, rfl⟩
  have := hs.opened_lt a hmem
  omega

theorem any_isProject {inner : ℕ → Prop}
    (h : Rose.HoldsAll s.heading s.kids inner ts as) :
    (as.any fun a => (s.cell a).info.keyword == kwProject) = ts.any isProject := by
  induction ts generalizing as with
  | nil =>
    rw [show as = [] from h]
    rfl
  | cons t ts ih =>
    obtain ⟨a, rest, rfl, ht, hrest⟩ := h
    rw [List.any_cons, List.any_cons, ih hrest]
    congr 1
    show ((s.heading a).keyword == kwProject) = isProject t
    rw [ht.label_eq]
    rfl

/-- Only the root is written when a declaration is appended to it. -/
theorem grows_tjNodeAppendChild (s : GrammarState) (a : ℕ) :
    KeepsCells s (s.tjNodeAppendChild 0 a) := by
  refine ⟨by rw [GrammarState.tjNodeAppendChild, GrammarState.length_write], fun b hb _ => ?_⟩
  have hcell : (s.tjNodeAppendChild 0 a).cell b = s.cell b := by
    rw [GrammarState.tjNodeAppendChild, GrammarState.cell_write, if_neg fun h => hb.ne h.1]
  unfold GrammarState.heading GrammarState.kids
  rw [hcell]
  exact ⟨rfl, rfl⟩

/-- **A declaration is routed** to the root. -/
theorem Outlined.routeTopLevel (h : Outlined opened s r) {x : Rose TjInfo} {a : ℕ}
    (hx : Rose.Holds s.heading s.kids (Ready opened s) x a) (hheight : x.height < s.heap.length) :
    Outlined opened (s.routeTopLevel a) (routeTree r x) ∧ KeepsCells s (s.routeTopLevel a) := by
  have hkeyword : ((s.cell a).info.keyword = kwProject) ↔ isProject x = true := by
    unfold isProject
    rw [beq_iff_eq, ← hx.label_eq]
    exact Iff.rfl
  have hany : s.outputHasProject = r.any isProject := any_isProject h.holds
  unfold GrammarState.routeTopLevel routeTree
  by_cases hdrop : isProject x = true ∧ r.any isProject = true
  · rw [if_pos hdrop, if_pos ⟨hkeyword.mpr hdrop.1, hany.trans hdrop.2⟩]
    exact ⟨h, .refl s⟩
  · rw [if_neg hdrop, if_neg fun hnot => hdrop ⟨hkeyword.mp hnot.1, hany.symm.trans hnot.2⟩]
    have hg := grows_tjNodeAppendChild s a
    have hlen : (s.tjNodeAppendChild 0 a).heap.length = s.heap.length := by
      rw [GrammarState.tjNodeAppendChild, GrammarState.length_write]
    have hkids : (s.tjNodeAppendChild 0 a).kids 0 = s.kids 0 ++ [a] := by
      unfold GrammarState.kids
      rw [GrammarState.tjNodeAppendChild, GrammarState.cell_write, if_pos ⟨rfl, h.pos⟩]
    refine ⟨⟨by rw [hlen]; exact h.pos, by rw [hlen]; exact h.opened_lt, ?_, ?_⟩, hg⟩
    · rw [hkids]
      refine Rose.HoldsAll.append ?_ ⟨a, [], rfl, ?_, rfl⟩
      · exact Rose.HoldsAll.frame (fun b hb => hb.grow hg) r _ h.holds
      · exact Rose.Holds.frame (fun b hb => hb.grow hg) x a hx
    · have hroots := h.height
      rw [Rose.heightAll_append, Rose.heightAll, Rose.heightAll, hlen]
      omega

theorem Outlined.routeAll (h : Outlined opened s r)
    (hts : Rose.HoldsAll s.heading s.kids (Ready opened s) ts as)
    (hheight : Rose.heightAll ts < s.heap.length) :
    Outlined opened (as.foldl GrammarState.routeTopLevel s) (ts.foldl routeTree r) ∧
      KeepsCells s (as.foldl GrammarState.routeTopLevel s) := by
  induction ts generalizing s r as with
  | nil =>
    rw [show as = [] from hts]
    exact ⟨h, .refl s⟩
  | cons x ts ih =>
    obtain ⟨a, rest, rfl, hx, hrest⟩ := hts
    rw [Rose.heightAll] at hheight
    obtain ⟨hone, hg⟩ := h.routeTopLevel hx (by omega)
    have hlen := hg.length
    obtain ⟨hall, hg'⟩ := ih hone (Rose.HoldsAll.frame (fun b hb => hb.grow hg) ts rest hrest)
      (by omega)
    exact ⟨hall, hg.trans hg'⟩

/-- **The declarations in a project block** are hoisted. -/
theorem Outlined.hoist (h : Outlined opened s r)
    (hts : Rose.HoldsAll s.heading s.kids (Ready opened s) ts as)
    (hheight : Rose.heightAll ts < s.heap.length) :
    Outlined opened (s.hoist as) ((ts.filter fun x => !isProject x).foldl routeTree r) ∧
      KeepsCells s (s.hoist as) := by
  unfold GrammarState.hoist
  induction ts generalizing s r as with
  | nil =>
    rw [show as = [] from hts]
    exact ⟨h, .refl s⟩
  | cons x ts ih =>
    obtain ⟨a, rest, rfl, hx, hrest⟩ := hts
    rw [Rose.heightAll] at hheight
    have hkeyword : (s.cell a).info.keyword = x.label.keyword := by
      rw [← hx.label_eq]
      rfl
    rw [List.foldl_cons, hkeyword]
    by_cases hproject : x.label.keyword = kwProject
    · have hskip : (!isProject x) = false := by simp [isProject, hproject]
      rw [if_pos hproject, List.filter_cons_of_neg (by simp [hskip])]
      exact ih h hrest (by omega)
    · have hkeep : (!isProject x) = true := by simp [isProject, hproject]
      rw [if_neg hproject, List.filter_cons_of_pos (by simp [hkeep]), List.foldl_cons]
      obtain ⟨hone, hg⟩ := h.routeTopLevel hx (by omega)
      have hlen := hg.length
      obtain ⟨hall, hg'⟩ := ih hone (Rose.HoldsAll.frame (fun b hb => hb.grow hg) ts rest hrest)
        (by omega)
      exact ⟨hall, hg.trans hg'⟩

/-- The trees at the root stay when no declaration is appended to it. -/
theorem Outlined.grow (h : Outlined opened s r) (hg : KeepsCells s t) (hroot : t.kids 0 = s.kids 0) :
    Outlined opened t r := by
  have hlen := hg.length
  refine ⟨h.pos.trans_le hlen, fun a ha => (h.opened_lt a ha).trans_le hlen, ?_,
    h.height.trans_le hlen⟩
  rw [hroot]
  exact Rose.HoldsAll.frame (fun b hb => hb.grow hg) r _ h.holds

theorem grows_allocTjNode (s : GrammarState) (kw id name : Token) :
    KeepsCells s (s.allocTjNode kw id name).1 := by
  refine ⟨by rw [GrammarState.length_allocTjNode]; omega, fun b _ hb => ?_⟩
  unfold GrammarState.heading GrammarState.kids
  rw [GrammarState.cell_allocTjNode, if_neg (Nat.ne_of_lt hb)]
  exact ⟨rfl, rfl⟩

/-- The end of a range is written into one cell. -/
structure Finished (s : GrammarState) (a : ℕ) (kw : Token) (stop : LspPos) (syms : List ℕ)
    (t : GrammarState) : Prop where
  length : t.heap.length = s.heap.length
  other : ∀ b, b ≠ a → t.heading b = s.heading b ∧ t.kids b = s.kids b
  heading : t.heading a = { s.heading a with
    range := ⟨(s.heading a).range.start, rangeEnd kw ⟨[], stop⟩⟩ }
  kids : t.kids a = syms

theorem finished_setRangeEnd (s : GrammarState) {a : ℕ} (ha : a < s.heap.length) (kw : Token)
    (stop : LspPos) (syms : List ℕ) :
    Finished s a kw stop (s.kids a) (s.setRangeEnd a (rangeEnd kw ⟨syms, stop⟩)) := by
  refine ⟨s.length_write _ _, fun b hb => ?_, ?_, ?_⟩
  · unfold GrammarState.heading GrammarState.kids GrammarState.setRangeEnd
    rw [GrammarState.cell_write, if_neg fun h => hb h.1.symm]
    exact ⟨rfl, rfl⟩
  · unfold GrammarState.heading GrammarState.setRangeEnd
    rw [GrammarState.cell_write, if_pos ⟨rfl, ha⟩]
    rfl
  · unfold GrammarState.kids GrammarState.setRangeEnd
    rw [GrammarState.cell_write, if_pos ⟨rfl, ha⟩]

theorem finished_finishTjNode (s : GrammarState) {a : ℕ} (ha : a < s.heap.length) (kw : Token)
    (stop : LspPos) (syms : List ℕ) :
    Finished s a kw stop syms (s.finishTjNode a kw ⟨syms, stop⟩) := by
  have h := finished_setRangeEnd s ha kw stop syms
  unfold GrammarState.finishTjNode
  have hcell : ∀ b, ((s.setRangeEnd a (rangeEnd kw ⟨syms, stop⟩)).write a fun c =>
      { c with children := syms }).cell b = if a = b ∧ b < s.heap.length then
        { (s.setRangeEnd a (rangeEnd kw ⟨syms, stop⟩)).cell b with children := syms }
      else (s.setRangeEnd a (rangeEnd kw ⟨syms, stop⟩)).cell b := by
    intro b
    rw [GrammarState.cell_write, h.length]
  refine ⟨by rw [GrammarState.length_write, h.length], fun b hb => ?_, ?_, ?_⟩
  · obtain ⟨hheading, hkids⟩ := h.other b hb
    unfold GrammarState.heading at hheading ⊢
    unfold GrammarState.kids at hkids ⊢
    rw [hcell, if_neg fun h => hb h.1.symm]
    exact ⟨hheading, hkids⟩
  · have hheading := h.heading
    unfold GrammarState.heading at hheading ⊢
    rw [hcell, if_pos ⟨rfl, ha⟩]
    exact hheading
  · unfold GrammarState.kids
    rw [hcell, if_pos ⟨rfl, ha⟩]

/-- The heading of a new cell, when the end of its range is set. -/
theorem heading_finished {kw id name : Token} {stop : LspPos} {syms : List ℕ} {a : ℕ}
    (h : Finished s a kw stop syms t)
    (ha : s.heading a = { headingOf kw id name ⟨0, 0⟩ with range := ⟨kw.start, ⟨0, 0⟩⟩ }) :
    t.heading a = headingOf kw id name stop := by
  rw [h.heading, ha]
  rfl

theorem heading_allocTjNode (s : GrammarState) (kw id name : Token) :
    (s.allocTjNode kw id name).1.heading s.heap.length
      = { headingOf kw id name ⟨0, 0⟩ with range := ⟨kw.start, ⟨0, 0⟩⟩ } := by
  unfold GrammarState.heading
  rw [GrammarState.cell_allocTjNode, if_pos rfl]
  rfl

/-- **A declaration that is allocated behind its body.** -/
theorem BuiltTrees.declare (h : BuiltTrees opened s ts r t as) (hs : 0 < s.heap.length) (kw id name : Token)
    (stop : LspPos) :
    BuiltTrees opened s [.node (headingOf kw id name stop) ts] r
      ((t.allocTjNode kw id name).1.finishTjNode (t.allocTjNode kw id name).2 kw ⟨as, stop⟩)
      [(t.allocTjNode kw id name).2] := by
  have hga := grows_allocTjNode t kw id name
  have hlen := t.length_allocTjNode kw id name
  have hheading := heading_allocTjNode t kw id name
  have ha : (t.allocTjNode kw id name).2 = t.heap.length := rfl
  have hroot : (t.allocTjNode kw id name).1.kids 0 = t.kids 0 := by
    unfold GrammarState.kids
    rw [GrammarState.cell_allocTjNode, if_neg (Nat.ne_of_lt h.outlined.pos)]
  rw [ha]
  generalize (t.allocTjNode kw id name).1 = t₁ at hga hlen hheading hroot
  have hf := finished_finishTjNode t₁ (show t.heap.length < t₁.heap.length by omega) kw stop as
  generalize t₁.finishTjNode t.heap.length kw ⟨as, stop⟩ = u at hf
  have hlen' := hf.length
  have hpos := h.outlined.pos
  have hg : KeepsCells t u := by
    refine ⟨by omega, fun b hb hlt => ?_⟩
    obtain ⟨hbh, hbk⟩ := hf.other b (Nat.ne_of_lt hlt)
    exact ⟨hbh.trans (hga.same b hb hlt).1, hbk.trans (hga.same b hb hlt).2⟩
  have hstLen := h.grows.length
  have hheight := h.height
  refine ⟨h.outlined.grow hg ?_, h.grows.trans hg, ⟨_, [], rfl, ?_, rfl⟩, ?_⟩
  · rw [(hf.other 0 (Nat.ne_of_lt hpos)).2, hroot]
  · refine ⟨⟨hstLen, by omega⟩, heading_finished hf hheading, ?_⟩
    rw [hf.kids]
    exact h.holds_later hs hg
  · rw [Rose.heightAll, Rose.heightAll, Rose.height]
    omega

/-- **A project block**, whose declarations are hoisted. -/
theorem BuiltTrees.project (h : BuiltTrees opened s ts r t as) (hs : Outlined opened s r')
    (kw id name : Token) (stop : LspPos) :
    BuiltTrees opened s [.node (headingOf kw id name stop) []]
      ((ts.filter fun x => !isProject x).foldl routeTree r)
      (((t.allocTjNode kw id name).1.setRangeEnd (t.allocTjNode kw id name).2
        (rangeEnd kw ⟨as, stop⟩)).hoist as) [(t.allocTjNode kw id name).2] := by
  have hga := grows_allocTjNode t kw id name
  have hlen := t.length_allocTjNode kw id name
  have hheading := heading_allocTjNode t kw id name
  have ha : (t.allocTjNode kw id name).2 = t.heap.length := rfl
  have hcell (b : ℕ) := t.cell_allocTjNode kw id name b
  rw [ha]
  generalize (t.allocTjNode kw id name).1 = t₁ at hga hlen hheading hcell
  have hf := finished_setRangeEnd t₁ (show t.heap.length < t₁.heap.length by omega) kw stop as
  generalize t₁.setRangeEnd t.heap.length (rangeEnd kw ⟨as, stop⟩) = t₂ at hf
  have hlen' := hf.length
  have hpos := h.outlined.pos
  have hkids : t₂.kids t.heap.length = [] := by
    rw [hf.kids]
    unfold GrammarState.kids
    rw [hcell, if_pos rfl]
  have hg : KeepsCells t t₂ := by
    refine ⟨by omega, fun b hb hlt => ?_⟩
    obtain ⟨hbh, hbk⟩ := hf.other b (Nat.ne_of_lt hlt)
    exact ⟨hbh.trans (hga.same b hb hlt).1, hbk.trans (hga.same b hb hlt).2⟩
  have hroot : t₂.kids 0 = t.kids 0 := by
    rw [(hf.other 0 (Nat.ne_of_lt hpos)).2]
    unfold GrammarState.kids
    rw [hcell, if_neg (Nat.ne_of_lt hpos)]
  have hheight := h.height
  have hstLen := h.grows.length
  have hspos := hs.pos
  obtain ⟨hout, hg'⟩ := (h.outlined.grow hg hroot).hoist
    (Rose.HoldsAll.frame (fun b hb => hb.grow hg) ts as (h.ready hs)) (by omega)
  have hlen'' := hg'.length
  obtain ⟨hsameHeading, hsameKids⟩ := hg'.same t.heap.length hpos (by omega)
  refine ⟨hout, (h.grows.trans hg).trans hg', ⟨_, [], rfl, ?_, rfl⟩, ?_⟩
  · refine ⟨⟨hstLen, by omega⟩, ?_, ?_⟩
    · rw [hsameHeading]
      exact heading_finished hf hheading
    · rw [hsameKids, hkids]
      rfl
  · rw [Rose.heightAll, Rose.heightAll, Rose.height, Rose.heightAll]
    omega

/-- A declaration is opened: it is allocated before its body. -/
theorem Outlined.alloc (h : Outlined opened s r) (kw id name : Token) :
    Outlined ((s.allocTjNode kw id name).2 :: opened) (s.allocTjNode kw id name).1 r := by
  have hg := grows_allocTjNode s kw id name
  have hlen := s.length_allocTjNode kw id name
  have hroot : (s.allocTjNode kw id name).1.kids 0 = s.kids 0 := by
    unfold GrammarState.kids
    rw [GrammarState.cell_allocTjNode, if_neg (Nat.ne_of_lt h.pos)]
  have ha : (s.allocTjNode kw id name).2 = s.heap.length := rfl
  rw [ha]
  generalize (s.allocTjNode kw id name).1 = t₁ at hg hlen hroot
  obtain ⟨hpos, hopened, hholds, hheight⟩ := h.grow hg hroot
  refine ⟨hpos, ?_, ?_, hheight⟩
  · intro a ha
    rcases List.mem_cons.mp ha with rfl | ha
    · omega
    · exact hopened a ha
  · rw [hroot] at hholds ⊢
    refine Rose.HoldsAll.frame (fun b hb => ?_) r _ h.holds
    obtain ⟨⟨hb0, hlt, hnot⟩, hsame⟩ := hb.grow hg
    refine ⟨⟨hb0, hlt, fun hmem => ?_⟩, hsame⟩
    rcases List.mem_cons.mp hmem with rfl | hmem
    · exact absurd hb.2.1 (Nat.lt_irrefl _)
    · exact hnot hmem

theorem Outlined.forget {a : ℕ} (h : Outlined (a :: opened) s r) : Outlined opened s r := by
  refine ⟨h.pos, fun b hb => h.opened_lt b (List.mem_cons_of_mem _ hb), ?_, h.height⟩
  refine Rose.HoldsAll.frame ?_ r _ h.holds
  rintro b ⟨hb, hlt, hnot⟩
  exact ⟨⟨hb, hlt, fun hmem => hnot (List.mem_cons_of_mem _ hmem)⟩, rfl, rfl⟩

/-- **A declaration that is allocated before its body**: it is closed. -/
theorem BuiltTrees.symbol {kw id name : Token} {stop : LspPos} (hs : Outlined opened s r')
    (h : BuiltTrees (s.heap.length :: opened) t ts r u as)
    (ht : t.outlineView = (s.allocTjNode kw id name).1.outlineView) :
    BuiltTrees opened s [.node (headingOf kw id name stop) ts] r
      (u.finishTjNode s.heap.length kw ⟨as, stop⟩) [s.heap.length] := by
  have hga := (grows_allocTjNode s kw id name).trans (grows_of_view ht)
  have hheading := heading_allocTjNode s kw id name
  have hlen := s.length_allocTjNode kw id name
  simp only [GrammarState.outlineView, Prod.mk.injEq] at ht
  rw [← ht.2.1] at hheading
  rw [← ht.1] at hlen
  have hpos := hs.pos
  have hsame := h.grows.same s.heap.length hpos (by omega)
  have htLen := h.grows.length
  have hheight := h.height
  have hf := finished_finishTjNode u (show s.heap.length < u.heap.length by omega) kw stop as
  generalize u.finishTjNode s.heap.length kw ⟨as, stop⟩ = w at hf
  have hlen' := hf.length
  have hother : ∀ b, b ≠ s.heap.length → w.heading b = u.heading b ∧ w.kids b = u.kids b := hf.other
  obtain ⟨hupos, hopened, hholds, huheight⟩ := h.outlined
  refine ⟨⟨by omega, ?_, ?_, by omega⟩, ?_, ⟨_, [], rfl, ?_, rfl⟩, ?_⟩
  · intro a ha
    have := hopened a (List.mem_cons_of_mem _ ha)
    omega
  · -- no tree at the root has the cell that is closed here
    rw [(hother 0 (Nat.ne_of_lt hpos)).2]
    refine Rose.HoldsAll.frame ?_ r _ hholds
    rintro b ⟨hb, hlt, hnot⟩
    rw [List.mem_cons, not_or] at hnot
    exact ⟨⟨hb, by omega, hnot.2⟩, hother b hnot.1⟩
  · refine ⟨by omega, fun b hb hlt => ?_⟩
    obtain ⟨hbh, hbk⟩ := hother b (Nat.ne_of_lt hlt)
    obtain ⟨hth, htk⟩ := (hga.trans h.grows).same b hb hlt
    exact ⟨hbh.trans hth, hbk.trans htk⟩
  · refine ⟨⟨le_refl _, by omega⟩, heading_finished hf (hsame.1.trans hheading), ?_⟩
    rw [hf.kids]
    refine Rose.HoldsAll.frame ?_ ts as h.holds
    rintro b ⟨hle, hlt⟩
    exact ⟨⟨by omega, by omega⟩, hother b (by omega)⟩
  · rw [Rose.heightAll, Rose.heightAll, Rose.height]
    omega

end Build

namespace Stmt

theorem execAll_built {sts : List Stmt}
    (h : ∀ st ∈ sts, ∀ (opened : List ℕ) (s : GrammarState) (r : List (Rose TjInfo)),
      Outlined opened s r →
        BuiltTrees opened s st.outline (st.roots r) (st.exec s).1 (st.exec s).2) :
    ∀ (opened : List ℕ) (s : GrammarState) (r : List (Rose TjInfo)), Outlined opened s r →
      BuiltTrees opened s (outlineAll sts) (rootsAll sts r) (execAll sts s).1 (execAll sts s).2 := by
  induction sts with
  | nil =>
    intro opened s r hs
    exact hs.built_nil rfl
  | cons st sts ih =>
    obtain ⟨hst, hsts⟩ := List.forall_mem_cons.mp h
    intro opened s r hs
    have hone := hst opened s r hs
    exact hone.append (ih hsts opened _ _ hone.outlined) hs.pos

/-- **What a statement builds** is its tree, and those at the root. -/
theorem exec_built (st : Stmt) : ∀ (opened : List ℕ) (s : GrammarState) (r : List (Rose TjInfo)),
    Outlined opened s r → BuiltTrees opened s st.outline (st.roots r) (st.exec s).1 (st.exec s).2 := by
  refine induct (P := fun st => ∀ (opened : List ℕ) (s : GrammarState) (r : List (Rose TjInfo)),
    Outlined opened s r → BuiltTrees opened s st.outline (st.roots r) (st.exec s).1 (st.exec s).2) ?_ st
  intro st ih opened s r hs
  cases st with
  | reset => exact hs.built_nil rfl
  | top item =>
    have h := execAll_built ih opened s r hs
    have hheight := h.height
    have hpos := hs.pos
    obtain ⟨hout, hg⟩ := h.outlined.routeAll (h.ready hs) (by omega)
    refine ⟨hout, h.grows.trans hg, rfl, ?_⟩
    show 0 + s.heap.length ≤ _
    rw [Nat.zero_add]
    exact h.grows.length.trans hg.length
  | project kw id name body stop =>
    exact (execAll_built ih opened s r hs).project hs kw id name stop
  | symbol kw id name body stop =>
    have hopen := hs.alloc kw id name
    have hview := (s.allocTjNode kw id name).1.outlineView_pushTask kw (s.allocTjNode kw id name).2
    have hstart := hopen.of_view hview
    have hbody := execAll_built ih _ _ r hstart
    have hpopped := hbody.of_view hstart.pos (GrammarState.outlineView_popTask _ kw)
    exact hpopped.symbol hs hview
  | declare kw id name body stop =>
    exact (execAll_built ih opened s r hs).declare hs.pos kw id name stop
  | kind k => exact hs.built_nil rfl
  | ref bangs segs body =>
    exact (execAll_built ih opened s r hs).lose.of_view hs.pos (GrammarState.outlineView_captureDep _ _)
  | startDate date =>
    exact hs.built_nil (s.outlineView_captureDate date fun t c => ⟨rfl, rfl⟩)
  | endDate date =>
    exact hs.built_nil (s.outlineView_captureDate date fun t c => ⟨rfl, rfl⟩)
  | pref k value => exact hs.built_nil (s.outlineView_setPendingPrefix k value)
  | incl file body =>
    have hinner : Outlined opened { s with inIncludeDepth := s.inIncludeDepth + 1 } r :=
      hs.of_view rfl
    have h := (execAll_built ih opened _ r hinner).lose
    have hbuilt : BuiltTrees opened s [] (rootsAll body r) _ [] :=
      ⟨h.outlined, ⟨h.grows.length, h.grows.same⟩, rfl, h.height⟩
    refine hbuilt.of_view hs.pos ?_
    exact GrammarState.outlineView_pushInclude _ _
  | block body => exact (execAll_built ih opened s r hs).lose
  | opened kw id name =>
    have hopen := hs.alloc kw id name
    have hg := grows_allocTjNode s kw id name
    have hkept := hopen.forget
    have hbuilt : BuiltTrees opened s [] r (s.allocTjNode kw id name).1 [] :=
      ⟨hkept, hg, rfl, by rw [Rose.heightAll, Nat.zero_add]; exact hg.length⟩
    exact hbuilt.of_view hs.pos
      ((s.allocTjNode kw id name).1.outlineView_pushTask kw (s.allocTjNode kw id name).2)
  | included => exact hs.built_nil rfl

end Stmt

end TaskjugglerLsp
