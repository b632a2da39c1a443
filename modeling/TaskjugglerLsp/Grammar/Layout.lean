import TaskjugglerLsp.Grammar.Declarations
import TaskjugglerLsp.Grammar.Dependencies
import TaskjugglerLsp.Lib.Layout

/-!
# Declarations are laid out in the text

The extent of a declaration goes from its keyword to the end of its body, or to the end of the
keyword if it has none.  The declarations of a document, with those of the project block within it,
lie side by side, and what is written in the body of one lies within it.

* `InPlace.inSequence`: the tokens of a parse lie side by side.
* `documentTrees`: the declarations of a document, as they are written.
* `Describes.documentTrees`: what follows from the tokens that they are written with.
* `laidOut_documentTrees`: they are laid out.
-/

namespace TaskjugglerLsp

open Lib Lib.Lr

/-! ### Tokens in sequence -/

/-- **Tokens lie side by side**; only braces that are missing in the text are empty. -/
structure InSequence (ts : List Token) : Prop where
  ordered : ts.Pairwise fun t u => t.stop.key ≤ u.start.key
  le : ∀ t ∈ ts, t.start.key ≤ t.stop.key
  proper : ∀ t ∈ ts, t.kind ≠ tkRbrace → t.start.key < t.stop.key

theorem InPlace.exists_span {tokens : List Token} {spans : List TokenSpan}
    (h : InPlace tokens spans) {t : Token} (ht : t ∈ tokens) (hkind : t.kind ≠ tkRbrace) :
    ∃ x ∈ spans, x.start = t.start ∧ x.stop = t.stop := by
  obtain ⟨real, missing, last, hsub, hmarks, -⟩ := h
  rcases List.mem_append.mp (hsub.subset ht) with ht | ht
  · have hmem : t.mark ∈ spanMarks spans := hmarks ▸ List.mem_map_of_mem ht
    obtain ⟨x, hx, hxt⟩ := List.mem_map.mp hmem
    simp only [TokenSpan.mark, Token.mark, Prod.mk.injEq] at hxt
    exact ⟨x, List.mem_of_mem_filter hx, hxt.2.1, hxt.2.2.1⟩
  · rw [List.eq_of_mem_replicate ht] at hkind
    exact absurd rfl hkind

theorem InPlace.inSequence {tokens : List Token} {spans : List TokenSpan}
    (h : InPlace tokens spans) : InSequence tokens := by
  obtain ⟨real, missing, last, hsub, hmarks, hspans⟩ := h
  have hreal : ∀ t ∈ real, ∃ x ∈ spans, x.start = t.start ∧ x.stop = t.stop := by
    intro t ht
    have hmem : t.mark ∈ spanMarks spans := hmarks ▸ List.mem_map_of_mem ht
    obtain ⟨x, hx, hxt⟩ := List.mem_map.mp hmem
    simp only [TokenSpan.mark, Token.mark, Prod.mk.injEq] at hxt
    exact ⟨x, List.mem_of_mem_filter hx, hxt.2.1, hxt.2.2.1⟩
  have hbrace : ∀ t ∈ List.replicate missing (missingBrace last).val,
      t.kind = tkRbrace ∧ t.start = last ∧ t.stop = last := by
    intro t ht
    rw [List.eq_of_mem_replicate ht]
    exact ⟨rfl, rfl, rfl⟩
  have hordered : real.Pairwise fun t u => t.stop.key ≤ u.start.key := by
    have hmarked : ((spans.filter fun x => !x.isRemark).map TokenSpan.mark).Pairwise
        fun m n => m.2.2.1.key ≤ n.2.1.key :=
      List.pairwise_map.mpr (hspans.ordered.sublist List.filter_sublist)
    rw [show (spans.filter fun x => !x.isRemark).map TokenSpan.mark = spanMarks spans from rfl,
      ← hmarks, List.pairwise_map] at hmarked
    exact hmarked
  have hall : (real ++ List.replicate missing (missingBrace last).val).Pairwise
      fun t u => t.stop.key ≤ u.start.key := by
    refine List.pairwise_append.mpr ⟨hordered, ?_, fun t ht u hu => ?_⟩
    · exact List.pairwise_replicate.mpr (.inr le_rfl)
    · obtain ⟨x, hx, -, hstop⟩ := hreal t ht
      rw [(hbrace u hu).2.1, ← hstop]
      exact hspans.last_le x hx
  refine ⟨hall.sublist hsub, fun t ht => ?_, fun t ht hkind => ?_⟩
  · rcases List.mem_append.mp (hsub.subset ht) with ht | ht
    · obtain ⟨x, hx, hstart, hstop⟩ := hreal t ht
      rw [← hstart, ← hstop]
      exact (hspans.nonempty x hx).le
    · rw [(hbrace t ht).2.1, (hbrace t ht).2.2]
  · rcases List.mem_append.mp (hsub.subset ht) with ht | ht
    · obtain ⟨x, hx, hstart, hstop⟩ := hreal t ht
      rw [← hstart, ← hstop]
      exact hspans.nonempty x hx
    · exact absurd (hbrace t ht).1 hkind

/-- Tokens between two places. -/
structure Bounded (lo hi : ℕ) (ts : List Token) : Prop where
  le : lo ≤ hi
  within : ∀ t ∈ ts, lo ≤ t.start.key ∧ t.stop.key ≤ hi

theorem InSequence.sublist {ts us : List Token} (h : InSequence us) (hsub : ts.Sublist us) :
    InSequence ts :=
  ⟨h.ordered.sublist hsub, fun t ht => h.le t (hsub.subset ht),
    fun t ht => h.proper t (hsub.subset ht)⟩

theorem InSequence.exists_between {ts us : List Token} {lo hi : ℕ} (h : InSequence (ts ++ us))
    (hb : Bounded lo hi (ts ++ us)) : ∃ mid, Bounded lo mid ts ∧ Bounded mid hi us := by
  obtain ⟨-, hus, hcross⟩ := List.pairwise_append.mp h.ordered
  cases us with
  | nil =>
    rw [List.append_nil] at hb
    exact ⟨hi, hb, le_rfl, fun t ht => by cases ht⟩
  | cons u us =>
    have hu := hb.within u (by simp)
    have hule := h.le u (by simp)
    refine ⟨u.start.key, ⟨hu.1, fun t ht => ?_⟩, hule.trans hu.2, fun t ht => ?_⟩
    · exact ⟨(hb.within t (List.mem_append_left _ ht)).1, hcross t ht u List.mem_cons_self⟩
    · refine ⟨?_, (hb.within t (List.mem_append_right _ ht)).2⟩
      rcases List.mem_cons.mp ht with rfl | hmem
      · exact le_rfl
      · exact hule.trans ((List.pairwise_cons.mp hus).1 t hmem)

/-! ### The extent of a declaration -/

/-- The place in the text where a declaration ends. -/
def TjInfo.stopKey (info : TjInfo) : ℕ := info.range.stop.key

/-- Declarations between two places, side by side. -/
abbrev DeclsLaidOut (lo hi : ℕ) (ts : List (Rose TjInfo)) : Prop :=
  Rose.LaidOut TjInfo.startKey TjInfo.stopKey lo hi ts

theorem key_pos {p : LspPos} (h : 0 < p.key) : p ≠ ⟨0, 0⟩ := by
  rintro rfl
  exact absurd h (by decide)

/-! ### The declarations of statements -/

theorem InBody.imp {inner inner' : List Token → Prop} {empty empty' : Prop} {stop : LspPos}
    {ts : List Token} (h : InBody inner empty stop ts) (hinner : ∀ us, inner us → inner' us)
    (hempty : empty → empty') : InBody inner' empty' stop ts := by
  cases h with
  | none he hstop => exact .none (hempty he) hstop
  | braces hl hr hus hstop => exact .braces hl hr (hinner _ hus) hstop

/-- **A property of declarations** and the tokens that they are written with: that of a declaration
follows from that of what is in its body, and that of several ones from that of each. -/
structure Describes (P : List Token → List (Rose TjInfo) → Prop) : Prop where
  nil (ts : List Token) : P ts []
  append {ts us : List Token} {trees more : List (Rose TjInfo)} (gap : List Token) :
    P ts trees → P us more → P (gap ++ ts ++ us) (trees ++ more)
  decl {kw id name : Token} {mid tail : List Token} {stop : LspPos} {trees : List (Rose TjInfo)} :
    kw.kind ≠ tkRbrace → Lists id mid → InBody (fun us => P us trees) (trees = []) stop tail →
      P (kw :: (mid ++ tail)) [.node (headingOf kw id name stop) trees]

namespace Stmt

theorem outlineAll_eq (sts : List Stmt) : outlineAll sts = sts.flatMap outline := by
  induction sts with
  | nil => rfl
  | cons st sts ih => rw [outlineAll, ih, List.flatMap_cons]

end Stmt

namespace Describes

variable {P : List Token → List (Rose TjInfo) → Prop} (hP : Describes P) {lossy : Bool}

include hP

theorem all {sts : List Stmt} {trees : Stmt → List (Rose TjInfo)}
    (h : ∀ st ∈ sts, ∀ ts, Stmt.Spells lossy st ts → P ts (trees st)) :
    ∀ ts, Stmt.SpellsAll lossy sts ts → P ts (sts.flatMap trees) := by
  induction sts with
  | nil => exact fun ts _ => hP.nil ts
  | cons st sts ih =>
    obtain ⟨hst, hsts⟩ := List.forall_mem_cons.mp h
    rintro ts ⟨gap, own, rest, rfl, hown, hrest⟩
    rw [List.flatMap_cons]
    exact hP.append gap (hst own hown) (ih hsts rest hrest)

/-- **The declarations of a statement**. -/
theorem outline (st : Stmt) : ∀ ts, Stmt.Spells lossy st ts → P ts st.outline := by
  refine Stmt.induct (P := fun st => ∀ ts, Stmt.Spells lossy st ts → P ts st.outline) ?_ st
  intro st ih ts hts
  have hinner : ∀ us, Stmt.SpellsAll lossy st.body us → P us (Stmt.outlineAll st.body) := by
    rw [Stmt.outlineAll_eq]
    exact hP.all ih
  cases st with
  | project kw id name body stop =>
    obtain ⟨mid, tail, rfl, hkw, hid, hbody⟩ := hts
    refine hP.decl ?_ hid (hbody.imp (fun us _ => hP.nil us) fun _ => rfl)
    rw [hkw]
    decide
  | symbol kw id name body stop =>
    obtain ⟨mid, tail, rfl, hkw, hid, hbody⟩ := hts
    have hkinds : ∀ k ∈ [kwTask, kwResource, kwAccount], k ≠ tkRbrace := by decide
    exact hP.decl (hkinds _ hkw) hid (hbody.imp hinner fun h => by rw [h]; rfl)
  | declare kw id name body stop =>
    obtain ⟨mid, tail, rfl, hkw, hid, hbody⟩ := hts
    refine hP.decl (fun hbrace => hkw ?_) hid (hbody.imp hinner fun h => by rw [h]; rfl)
    rw [hbrace]
    decide
  | _ => exact hP.nil ts

end Describes

/-! ### The items of a document -/

/-- **A statement of an item**: no item of the file is in it, and nothing that is done once for a
file. -/
inductive Stmt.Inner : Stmt → Prop
  | intro {st : Stmt} (notTop : ∀ item, st ≠ .top item) (notReset : st ≠ .reset)
      (body : ∀ c ∈ st.body, Inner c) : Inner st

/-- The nonterminals of a file. -/
def fileNonTerms : List NonTerm := [.accept, .file, .items, .midFile]

theorem productions_inner : ∀ p ∈ grammar.productions, p.lhs ∉ fileNonTerms →
    (∀ o ∈ p.rhs.map Symbol.nonterm, ∀ n ∈ o, n ∉ fileNonTerms) ∧
      p.action.code ≠ .routeItem ∧ p.action.code ≠ .resetSymStack := by decide +kernel

theorem productions_items : ∀ p ∈ grammar.productions, p.lhs = .items →
    (p.rhs = [] ∧ p.action.code = .default) ∨
    (p.rhs = [.nt .items, .nt .item] ∧ p.action.code = .routeItem) ∨
    (p.rhs = [.nt .items, .tok tkEol] ∧ p.action.code = .default) := by decide +kernel

theorem inner_unblock {parts : List (List Stmt)} (h : ∀ part ∈ parts, ∀ st ∈ part, st.Inner)
    (i : ℕ) : ∀ st ∈ unblock (parts.getD i []), st.Inner := by
  have hpart : ∀ st ∈ parts.getD i [], st.Inner := by
    rcases Nat.lt_or_ge i parts.length with hi | hi
    · rw [List.getD_eq_getElem _ _ hi]
      exact h _ (List.getElem_mem hi)
    · rw [List.getD_eq_default _ _ hi]
      exact fun st hst => by cases hst
  intro st hst
  generalize parts.getD i [] = part at hpart hst
  unfold unblock at hst
  split at hst
  · cases hpart _ (List.mem_singleton_self _) with
    | intro _ _ hbody => exact hbody st hst
  · cases hst

/-- The statements of a production are inner ones if those of its children are. -/
theorem inner_nodeStmts {code : ActionCode} (hcode : code ≠ .routeItem)
    (hreset : code ≠ .resetSymStack) (children : List SynTree)
    (args : List Yystype) {parts : List (List Stmt)}
    (h : ∀ part ∈ parts, ∀ st ∈ part, st.Inner) :
    ∀ st ∈ Tree.nodeStmts code children args parts, st.Inner := by
  have hflat : ∀ st ∈ parts.flatten, st.Inner := by
    intro st hst
    obtain ⟨part, hpart, hmem⟩ := List.mem_flatten.mp hst
    exact h part hpart st hmem
  have hsingle {q : Stmt} (htop : ∀ item, q ≠ .top item) (hq : q ≠ .reset)
      (hbody : ∀ c ∈ q.body, c.Inner) : ∀ st ∈ [q], st.Inner := by
    intro st hst
    rw [List.mem_singleton.mp hst]
    exact .intro htop hq hbody
  cases code with
  | routeItem => exact absurd rfl hcode
  | resetSymStack => exact absurd rfl hreset
  | startDate | endDate | setPrefix | pendingDepKind | openSymbol | openInclude =>
    exact hsingle (fun _ h => by cases h) (fun h => by cases h) fun c hc => by cases hc
  | projectDecl => exact hsingle (fun _ h => by cases h) (fun h => by cases h) (inner_unblock h 5)
  | closeSymbol => exact hsingle (fun _ h => by cases h) (fun h => by cases h) (inner_unblock h 4)
  | declare id name i => exact hsingle (fun _ h => by cases h) (fun h => by cases h) (inner_unblock h (i - 1))
  | closeInclude => exact hsingle (fun _ h => by cases h) (fun h => by cases h) (inner_unblock h 3)
  | depRef =>
    cases children with
    | nil => exact fun st hst => by cases hst
    | cons ref children => exact hsingle (fun _ h => by cases h) (fun h => by cases h) (inner_unblock h 1)
  | closeBody =>
    refine hsingle (fun _ h => by cases h) (fun h => by cases h) fun c hc => ?_
    rcases Nat.lt_or_ge 1 parts.length with hi | hi
    · refine h _ (List.getElem_mem hi) c ?_
      rwa [← List.getD_eq_getElem _ [] hi]
    · have hnil : parts.getD 1 [] = [] := List.getD_eq_default _ _ hi
      rw [show (Stmt.block (parts.getD 1 [])).body = parts.getD 1 [] from rfl, hnil] at hc
      cases hc
  | _ => exact hflat

/-- **The statements below other nonterminals** than those of a file are inner ones. -/
theorem inner_stmts {t : SynTree} (hvalid : t.Valid grammar yyError) (hwhole : t.Whole)
    (hroot : ∀ n ∈ t.root.nonterm, n ∉ fileNonTerms) (below : List Yystype) :
    ∀ st ∈ t.stmts below, st.Inner := by
  induction hvalid generalizing below with
  | leaf k v => exact fun st hst => by cases hst
  | lost => cases hwhole
  | @node p children hp hroots hall ih =>
    obtain ⟨hrhs, hcode, hreset⟩ := productions_inner p hp (hroot p.lhs rfl)
    cases hwhole with
    | node _ hwhole =>
      have hchildren : ∀ t ∈ children, ∀ below, ∀ st ∈ t.stmts below, st.Inner := by
        intro t ht below
        refine ih t ht (hwhole t ht) (hrhs _ ?_) below
        rw [← hroots, List.map_map]
        exact List.mem_map_of_mem (f := fun t => t.root.nonterm) ht
      have heach : ∀ (ts : List SynTree) (below : List Yystype), (∀ t ∈ ts, t ∈ children) →
          ∀ part ∈ Tree.stmtsEach ts below, ∀ st ∈ part, st.Inner := by
        intro ts
        induction ts with
        | nil => exact fun _ _ part hpart => by cases hpart
        | cons t ts ihts =>
          intro below hts part hpart
          rw [Tree.stmtsEach] at hpart
          rcases List.mem_cons.mp hpart with rfl | hpart
          · exact hchildren t (hts t List.mem_cons_self) below
          · exact ihts _ (fun u hu => hts u (List.mem_cons_of_mem t hu)) part hpart
      rw [Tree.stmts]
      exact inner_nodeStmts hcode hreset _ _ (heach children below fun t ht => ht)

theorem items_stmts {t : SynTree} (hvalid : t.Valid grammar yyError) (hwhole : t.Whole)
    (hroot : t.root = .nt .items) (below : List Yystype) :
    ∃ items : List (List Stmt), t.stmts below = items.map .top ∧
      ∀ item ∈ items, ∀ st ∈ item, st.Inner := by
  induction hvalid generalizing below with
  | leaf => cases hroot
  | lost => cases hwhole
  | @node p children hp hroots hall ih =>
    have hwhole : ∀ t ∈ children, t.Whole := by
      cases hwhole with
      | node _ hwhole => exact hwhole
    rcases productions_items p hp (Symbol.nt.inj hroot) with ⟨hrhs, hcode⟩ | ⟨hrhs, hcode⟩ | ⟨hrhs, hcode⟩
    · rw [hrhs] at hroots
      obtain rfl := List.map_eq_nil_iff.mp hroots
      refine ⟨[], ?_, fun item hitem => by cases hitem⟩
      rw [Tree.stmts, hcode]
      rfl
    · rw [hrhs] at hroots
      obtain ⟨before, rest, rfl, hbefore, hrest⟩ := List.map_eq_cons_iff.mp hroots
      obtain ⟨item, rest, rfl, hitem, hnil⟩ := List.map_eq_cons_iff.mp hrest
      obtain rfl := List.map_eq_nil_iff.mp hnil
      obtain ⟨items, hitems, hinner⟩ := ih before (by simp) (hwhole before (by simp)) hbefore below
      refine ⟨items ++ [item.stmts (before.static :: below)], ?_, fun i hi => ?_⟩
      · rw [Tree.stmts, hcode, List.map_append, ← hitems]
        rfl
      · rcases List.mem_append.mp hi with hi | hi
        · exact hinner i hi
        · rw [List.mem_singleton.mp hi]
          refine inner_stmts (hall item (by simp)) (hwhole item (by simp)) ?_ _
          rw [hitem]
          intro n hn
          obtain rfl : NonTerm.item = n := Option.some.inj hn
          decide
    · rw [hrhs] at hroots
      obtain ⟨before, rest, rfl, hbefore, hrest⟩ := List.map_eq_cons_iff.mp hroots
      obtain ⟨eol, rest, rfl, heol, hnil⟩ := List.map_eq_cons_iff.mp hrest
      obtain rfl := List.map_eq_nil_iff.mp hnil
      obtain ⟨v, rfl⟩ := exists_leaf (hall eol (by simp)) heol (by decide)
      obtain ⟨items, hitems, hinner⟩ := ih before (by simp) (hwhole before (by simp)) hbefore below
      refine ⟨items, ?_, hinner⟩
      rw [Tree.stmts, hcode, ← hitems]
      show (before.stmts below ++ ([] ++ [])) = _
      rw [List.append_nil, List.append_nil]

/-- **The statements of a document**: what the actions reset, and its items. -/
theorem document_items {doc : SynTree} (hvalid : doc.Valid grammar yyError) (hwhole : doc.Whole)
    (hroot : doc.root = .nt .file) : ∃ items : List (List Stmt),
      doc.stmts [] = .reset :: items.map .top ∧ ∀ item ∈ items, ∀ st ∈ item, st.Inner := by
  obtain ⟨p, children, rfl, hp, hlhs, hroots, hall⟩ := exists_node hvalid hroot
  obtain ⟨hrhs, hcode⟩ := productions_file p hp hlhs
  rw [hrhs] at hroots
  obtain ⟨m, rest, rfl, hm, hrest⟩ := List.map_eq_cons_iff.mp hroots
  obtain ⟨i, rest, rfl, hi, hnil⟩ := List.map_eq_cons_iff.mp hrest
  obtain rfl := List.map_eq_nil_iff.mp hnil
  obtain ⟨q, kids, rfl, hq, hqlhs, -, -⟩ := exists_node (hall m (by simp)) hm
  have haction := (productions_midCode q hq).1 hqlhs
  have hiwhole : i.Whole := by
    cases hwhole with
    | node _ hwhole => exact hwhole i (by simp)
  obtain ⟨items, hitems, hinner⟩ := items_stmts (hall i (by simp)) hiwhole hi
    [(.node q kids : SynTree).static]
  refine ⟨items, ?_, hinner⟩
  rw [Tree.stmts, hcode, Tree.stmtsEach, Tree.stmtsEach, Tree.stmtsEach, Tree.stmts, haction,
    ← hitems]
  show [Stmt.reset] ++ (_ ++ []) = _
  rw [List.append_nil]
  rfl

/-! ### The declarations of a document -/

namespace Stmt

/-- The declaration that a statement of an item is, with those in a project block below it. -/
def written : Stmt → List (Rose TjInfo)
  | project kw id name body stop => [.node (headingOf kw id name stop) (outlineAll body)]
  | st => st.outline

/-- The declarations of an item. -/
def itemTrees : Stmt → List (Rose TjInfo)
  | top item => item.flatMap written
  | _ => []

/-- The project block is an item of the file. -/
def ProjectOnTop : Stmt → Prop
  | top [project _ _ _ body _] => projectsAll body = 0
  | st => st.projects = 0

instance : DecidablePred ProjectOnTop := fun st => by
  unfold ProjectOnTop
  split <;> infer_instance

theorem projectsAll_eq_zero {sts : List Stmt} :
    projectsAll sts = 0 ↔ ∀ st ∈ sts, st.projects = 0 := by
  induction sts with
  | nil => exact iff_of_true rfl fun st hst => by cases hst
  | cons st sts ih => rw [projectsAll, Nat.add_eq_zero_iff, ih, List.forall_mem_cons]

end Stmt

/-- **The declarations of a document**, as they are written: those of a project block are below
it. -/
def documentTrees (doc : SynTree) : List (Rose TjInfo) := (doc.stmts []).flatMap Stmt.itemTrees

/-- **There is one project block at most**, and it is an item of the file. -/
structure OneProject (doc : SynTree) : Prop where
  count : Stmt.projectsAll (doc.stmts []) ≤ 1
  onTop : ∀ st ∈ doc.stmts [], st.ProjectOnTop

instance (doc : SynTree) : Decidable (OneProject doc) :=
  decidable_of_iff (Stmt.projectsAll (doc.stmts []) ≤ 1 ∧ ∀ st ∈ doc.stmts [], st.ProjectOnTop)
    ⟨fun h => ⟨h.1, h.2⟩, fun h => ⟨h.count, h.onTop⟩⟩

/-- What is no project block. -/
abbrev NoProject (t : Rose TjInfo) : Prop := t.Every fun info => info.keyword ≠ kwProject

/-- **Trees with a project block**, and what is left at the root when the declarations in it have
been hoisted. -/
inductive Hoists : List (Rose TjInfo) → List (Rose TjInfo) → Prop
  | none {ts : List (Rose TjInfo)} (h : ∀ t ∈ ts, NoProject t) : Hoists ts ts
  | one {pre body post : List (Rose TjInfo)} {p : TjInfo} (hp : p.keyword = kwProject)
      (hpre : ∀ t ∈ pre, NoProject t) (hbody : ∀ t ∈ body, NoProject t)
      (hpost : ∀ t ∈ post, NoProject t) :
      Hoists (pre ++ .node p body :: post) (pre ++ (body ++ .node p [] :: post))

theorem NoProject.isProject {t : Rose TjInfo} (h : NoProject t) : isProject t = false := by
  cases h with
  | node hlabel _ => exact beq_eq_false_iff_ne.mpr hlabel

theorem Hoists.prepend {ts us vs : List (Rose TjInfo)} (h : Hoists us vs)
    (hts : ∀ t ∈ ts, NoProject t) : Hoists (ts ++ us) (ts ++ vs) := by
  cases h with
  | none hus =>
    refine .none fun t ht => ?_
    rcases List.mem_append.mp ht with ht | ht
    · exact hts t ht
    · exact hus t ht
  | one hp hpre hbody hpost =>
    rw [← List.append_assoc, ← List.append_assoc]
    refine .one hp (fun t ht => ?_) hbody hpost
    rcases List.mem_append.mp ht with ht | ht
    · exact hts t ht
    · exact hpre t ht

theorem routeAll_noProject {ts r : List (Rose TjInfo)} (h : ∀ t ∈ ts, NoProject t) :
    ts.foldl routeTree r = r ++ ts := by
  induction ts generalizing r with
  | nil => exact (List.append_nil r).symm
  | cons t ts ih =>
    obtain ⟨ht, hts⟩ := List.forall_mem_cons.mp h
    have hroute : routeTree r t = r ++ [t] := by
      refine if_neg ?_
      rw [ht.isProject]
      exact fun h => Bool.false_ne_true h.1
    rw [List.foldl_cons, hroute, ih hts, List.append_assoc]
    rfl

namespace Stmt

theorem noProject_outline (st : Stmt) : st.projects = 0 → ∀ t ∈ st.outline, NoProject t := by
  refine induct (P := fun st => st.projects = 0 → ∀ t ∈ st.outline, NoProject t) ?_ st
  intro st ih hzero t ht
  have hall : projectsAll st.body = 0 → ∀ t ∈ outlineAll st.body, NoProject t := by
    intro hbody t ht
    rw [outlineAll_eq] at ht
    obtain ⟨c, hc, hct⟩ := List.mem_flatMap.mp ht
    exact ih c hc (projectsAll_eq_zero.mp hbody c hc) t hct
  cases st with
  | project kw id name body stop => exact absurd hzero (Nat.succ_ne_zero _)
  | symbol kw id name body stop | declare kw id name body stop =>
    rw [projects, Nat.add_eq_zero_iff] at hzero
    rw [List.mem_singleton.mp ht]
    refine .node (fun hkw => ?_) (hall hzero.1)
    have hone := hzero.2
    rw [if_pos (show kw.kind = kwProject from hkw)] at hone
    cases hone
  | _ => cases ht

theorem noProject_outlineAll {sts : List Stmt} (h : projectsAll sts = 0) :
    ∀ t ∈ outlineAll sts, NoProject t := by
  intro t ht
  rw [outlineAll_eq] at ht
  obtain ⟨st, hst, hmem⟩ := List.mem_flatMap.mp ht
  exact st.noProject_outline (projectsAll_eq_zero.mp h st hst) t hmem

theorem rootsAll_same {sts : List Stmt} {r : List (Rose TjInfo)} (h : ∀ st ∈ sts, st.roots r = r) :
    rootsAll sts r = r := by
  induction sts with
  | nil => rfl
  | cons st sts ih =>
    obtain ⟨hst, hsts⟩ := List.forall_mem_cons.mp h
    rw [rootsAll, hst, ih hsts]

theorem roots_inner (st : Stmt) (hst : st.Inner) : st.projects = 0 →
    ∀ r, st.roots r = r := by
  induction hst with
  | @intro st htop _ hbody ih =>
    intro hzero r
    have hall : projectsAll st.body = 0 → rootsAll st.body r = r := fun h =>
      rootsAll_same fun c hc => ih c hc (projectsAll_eq_zero.mp h c hc) r
    cases st with
    | top item => exact absurd rfl (htop item)
    | project kw id name body stop => exact absurd hzero (Nat.succ_ne_zero _)
    | symbol kw id name body stop | declare kw id name body stop =>
      rw [projects, Nat.add_eq_zero_iff] at hzero
      exact hall hzero.1
    | ref bangs segs body | incl file body | block body => exact hall hzero
    | _ => rfl

theorem written_eq_outline {st : Stmt} (h : st.projects = 0) : st.written = st.outline := by
  cases st with
  | project => exact absurd h (Nat.succ_ne_zero _)
  | _ => rfl

theorem itemTrees_eq_outline {item : List Stmt} (h : projectsAll item = 0) :
    itemTrees (top item) = outlineAll item := by
  rw [outlineAll_eq]
  exact List.flatMap_congr fun st hst => written_eq_outline (projectsAll_eq_zero.mp h st hst)

theorem rootsAll_items {items : List (List Stmt)} (hinner : ∀ item ∈ items, ∀ st ∈ item, st.Inner)
    (hzero : projectsAll (items.map top) = 0) (r : List (Rose TjInfo)) :
    rootsAll (items.map top) r = r ++ (items.map top).flatMap itemTrees ∧
      ∀ t ∈ (items.map top).flatMap itemTrees, NoProject t := by
  induction items generalizing r with
  | nil => exact ⟨(List.append_nil r).symm, fun t ht => by cases ht⟩
  | cons item items ih =>
    obtain ⟨hitem, hitems⟩ := List.forall_mem_cons.mp hinner
    rw [List.map_cons, projectsAll, Nat.add_eq_zero_iff] at hzero
    have htrees := itemTrees_eq_outline hzero.1
    have hnone := noProject_outlineAll hzero.1
    have hroots : roots (top item) r = r ++ outlineAll item := by
      rw [roots, rootsAll_same fun st hst =>
        st.roots_inner (hitem st hst) (projectsAll_eq_zero.mp hzero.1 st hst) r]
      exact routeAll_noProject hnone
    obtain ⟨hrest, hnoRest⟩ := ih hitems hzero.2 (r ++ outlineAll item)
    rw [List.map_cons, rootsAll, hroots, hrest, List.flatMap_cons, htrees, List.append_assoc]
    refine ⟨rfl, fun t ht => ?_⟩
    rcases List.mem_append.mp ht with ht | ht
    · exact hnone t ht
    · exact hnoRest t ht

/-- **The root of a file**: the declarations of its items, where those of the project block have
been hoisted. -/
theorem rootsAll_hoists {items : List (List Stmt)}
    (hinner : ∀ item ∈ items, ∀ st ∈ item, st.Inner) (hcount : projectsAll (items.map top) ≤ 1)
    (honTop : ∀ st ∈ items.map top, st.ProjectOnTop)
    (hkinds : ∀ kw id name body stop, [project kw id name body stop] ∈ items →
      kw.kind = kwProject) {r : List (Rose TjInfo)} (hr : ∀ t ∈ r, NoProject t) :
    ∃ part, rootsAll (items.map top) r = r ++ part ∧
      Hoists ((items.map top).flatMap itemTrees) part := by
  induction items generalizing r with
  | nil => exact ⟨[], (List.append_nil r).symm, .none fun t ht => by cases ht⟩
  | cons item items ih =>
    obtain ⟨hitem, hitems⟩ := List.forall_mem_cons.mp hinner
    obtain ⟨hon, honTop⟩ := List.forall_mem_cons.mp honTop
    rw [List.map_cons, projectsAll] at hcount
    by_cases hzero : projects (top item) = 0
    · have htrees := itemTrees_eq_outline hzero
      have hnone := noProject_outlineAll hzero
      have hroots : roots (top item) r = r ++ outlineAll item := by
        rw [roots, rootsAll_same fun st hst =>
          st.roots_inner (hitem st hst) (projectsAll_eq_zero.mp hzero st hst) r]
        exact routeAll_noProject hnone
      have hr' : ∀ t ∈ r ++ outlineAll item, NoProject t := by
        intro t ht
        rcases List.mem_append.mp ht with ht | ht
        · exact hr t ht
        · exact hnone t ht
      obtain ⟨part, hpart, hhoists⟩ := ih hitems (by omega) honTop
        (fun kw id name body stop hmem => hkinds kw id name body stop (List.mem_cons_of_mem _ hmem))
        hr'
      refine ⟨outlineAll item ++ part, ?_, ?_⟩
      · rw [List.map_cons, rootsAll, hroots, hpart, List.append_assoc]
      · rw [List.map_cons, List.flatMap_cons, htrees]
        exact hhoists.prepend hnone
    · obtain ⟨kw, id, name, body, stop, rfl, hbody⟩ :
          ∃ kw id name body stop, item = [project kw id name body stop] ∧ projectsAll body = 0 := by
        unfold ProjectOnTop at hon
        split at hon
        · rename_i kw id name body stop heq
          exact ⟨kw, id, name, body, stop, Stmt.top.inj heq, hon⟩
        · exact absurd hon hzero
      have hrest : projectsAll (items.map top) = 0 := by
        have hone : projects (top [project kw id name body stop]) = projectsAll body + 1 + 0 := rfl
        omega
      have hkw : kw.kind = kwProject := hkinds kw id name body stop List.mem_cons_self
      have hnone := noProject_outlineAll hbody
      have hplain : ∀ st ∈ body, st.Inner := by
        cases hitem _ List.mem_cons_self with
        | intro _ _ hinner => exact hinner
      have hfilter : (outlineAll body).filter (fun t => !isProject t) = outlineAll body := by
        refine List.filter_eq_self.mpr fun t ht => ?_
        rw [(hnone t ht).isProject]
        rfl
      have hroute : ∀ t ∈ r ++ outlineAll body, isProject t = false := by
        intro t ht
        rcases List.mem_append.mp ht with ht | ht
        · exact (hr t ht).isProject
        · exact (hnone t ht).isProject
      have hroots : roots (top [project kw id name body stop]) r
          = r ++ (outlineAll body ++ [.node (headingOf kw id name stop) []]) := by
        have hinside : rootsAll body r = r := rootsAll_same fun st hst =>
          st.roots_inner (hplain st hst) (projectsAll_eq_zero.mp hbody st hst) r
        show routeTree (((outlineAll body).filter fun t => !isProject t).foldl routeTree
          (rootsAll body r)) (.node (headingOf kw id name stop) []) = _
        rw [hfilter, hinside, routeAll_noProject hnone, routeTree, if_neg, List.append_assoc]
        rintro ⟨-, hany⟩
        obtain ⟨t, ht, hproject⟩ := List.any_eq_true.mp hany
        rw [hroute t ht] at hproject
        cases hproject
      obtain ⟨hmore, hnoMore⟩ := rootsAll_items hitems hrest
        (r ++ (outlineAll body ++ [.node (headingOf kw id name stop) []]))
      refine ⟨outlineAll body ++ .node (headingOf kw id name stop) [] ::
        (items.map top).flatMap itemTrees, ?_, ?_⟩
      · rw [List.map_cons, rootsAll, hroots, hmore]
        simp
      · show Hoists ([] ++ .node _ _ :: _) ([] ++ (_ ++ .node _ [] :: _))
        exact .one hkw (fun t ht => by cases ht) hnone hnoMore

end Stmt

/-! ### Where they are written -/

/-- **The declarations of a document**, with the tokens that they are written with. -/
theorem Describes.documentTrees {P : List Token → List (Rose TjInfo) → Prop} (hP : Describes P)
    {doc : SynTree} {lossy : Bool} (hspells : Stmt.SpellsAll lossy (doc.stmts []) doc.toks) :
    P doc.toks (documentTrees doc) := by
  have hwritten : ∀ st ts, Stmt.Spells lossy st ts → P ts st.written := by
    intro st ts hts
    cases st with
    | project kw id name body stop =>
      have hinner : ∀ us, Stmt.SpellsAll lossy body us → P us (Stmt.outlineAll body) := by
        rw [Stmt.outlineAll_eq]
        exact hP.all fun st _ => hP.outline st
      obtain ⟨mid, tail, rfl, hkw, hid, hbody⟩ := hts
      refine hP.decl ?_ hid (hbody.imp hinner fun h => by rw [h]; rfl)
      rw [hkw]
      decide
    | _ => exact hP.outline _ ts hts
  refine hP.all (fun st _ ts hts => ?_) doc.toks hspells
  cases st with
  | top item => exact hP.all (fun st _ => hwritten st) ts hts
  | _ => exact hP.nil ts

theorem describes_laidOut : Describes fun ts trees => ∀ lo hi, InSequence ts → Bounded lo hi ts →
    DeclsLaidOut lo hi trees where
  nil ts lo hi _ hb := .nil hb.le
  append {ts us trees more} gap hts hus lo hi hseq hb := by
    obtain ⟨mid, hfirst, hsecond⟩ := hseq.exists_between hb
    have hgap : Bounded lo mid ts :=
      ⟨hfirst.le, fun t ht => hfirst.within t (List.mem_append_right gap ht)⟩
    refine (hts lo mid (hseq.sublist ?_) hgap).append
      (hus mid hi (hseq.sublist (List.sublist_append_right _ _)) hsecond)
    exact (List.sublist_append_right gap ts).trans (List.sublist_append_left _ _)
  decl {kw id name mid tail stop trees} hkw _ hbody lo hi hseq hb := by
    have hproper := hseq.proper kw List.mem_cons_self hkw
    obtain ⟨hlo, hhi⟩ := hb.within kw List.mem_cons_self
    cases hbody with
    | none hempty hstop =>
      have hkey : (headingOf kw id name stop).stopKey = kw.stop.key := by
        unfold headingOf TjInfo.stopKey rangeEnd
        rw [hstop, if_pos rfl]
      rw [hempty]
      refine Rose.LaidOut.mono (Rose.LaidOut.node hproper (.nil ?_)) hlo ?_
      · exact hkey.ge
      · exact hkey.le.trans hhi
    | @braces l r us hl hr hus hstop =>
      obtain ⟨hafter, hrest⟩ := List.pairwise_cons.mp hseq.ordered
      obtain ⟨-, htail, -⟩ := List.pairwise_append.mp hrest
      obtain ⟨hleft, hus'⟩ := List.pairwise_cons.mp htail
      obtain ⟨-, -, hright⟩ := List.pairwise_append.mp hus'
      have hlproper := hseq.proper l (by simp) (by rw [hl]; decide)
      have hrle := hseq.le r (by simp)
      have hkwl : kw.stop.key ≤ l.start.key := hafter l (by simp)
      have hlr : l.stop.key ≤ r.start.key := hleft r (by simp)
      have hpos : 0 < r.stop.key := by omega
      have hkey : (headingOf kw id name stop).stopKey = r.stop.key := by
        unfold headingOf TjInfo.stopKey rangeEnd
        rw [hstop, if_neg (key_pos hpos)]
      have hwithin : DeclsLaidOut l.stop.key r.start.key trees := by
        refine hus _ _ (hseq.sublist ?_) ⟨hlr, fun t ht => ?_⟩
        · refine List.Sublist.cons _ (List.Sublist.trans ?_ (List.sublist_append_right _ _))
          exact List.Sublist.cons _ (List.sublist_append_left _ _)
        · exact ⟨hleft t (by simp [ht]), hright t ht r (by simp)⟩
      have hstart : kw.start.key < l.stop.key := by omega
      refine Rose.LaidOut.mono (Rose.LaidOut.node hstart (hwithin.mono le_rfl ?_)) hlo ?_
      · rw [hkey]
        exact hrle
      · rw [hkey]
        exact (hb.within r (by simp)).2

/-- **The declarations of a document are laid out** in its text. -/
theorem laidOut_documentTrees {doc : SynTree} {spans : List TokenSpan} {lossy : Bool}
    (hspells : Stmt.SpellsAll lossy (doc.stmts []) doc.toks) (hplace : InPlace doc.toks spans) :
    ∃ hi, DeclsLaidOut 0 hi (documentTrees doc) := by
  obtain ⟨hi, hhi⟩ : ∃ hi, ∀ t ∈ doc.toks, t.stop.key ≤ hi := by
    refine ⟨(doc.toks.map fun t => t.stop.key).sum, fun t ht => ?_⟩
    exact List.le_sum_of_mem (List.mem_map_of_mem ht)
  exact ⟨hi, describes_laidOut.documentTrees hspells 0 hi hplace.inSequence
    ⟨Nat.zero_le hi, fun t ht => ⟨Nat.zero_le _, hhi t ht⟩⟩⟩

end TaskjugglerLsp
