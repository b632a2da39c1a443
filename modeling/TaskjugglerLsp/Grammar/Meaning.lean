import Mathlib.Data.List.GetD
import TaskjugglerLsp.Grammar.Statements
import TaskjugglerLsp.Lexer.Boundaries

/-!
# What a syntax tree means

The actions of a tree do what its statements do.  The addresses of declarations in the values of
the stack are those of the run; everything else in them is in the tree.

* `erase_run`: the value of an action, up to addresses, is that of the tree.
* `means`: the actions of a tree do what its statements do.
* `Parses.exists_doc`, `ParsesTo.unique`: a parse without a syntax error has one tree.
* `ParsesTo.spec`: a parse has done what the statements of its text do.
-/

namespace TaskjugglerLsp

open Lib.Lr

/-! ### Values without addresses -/

/-- A value without the addresses of declarations in it. -/
def Yystype.erase : Yystype → Yystype
  | sym _ => sym 0
  | body b => body ⟨[], b.stop⟩
  | item _ => item Option.none
  | v => v

section Erase

variable (v : Yystype)

@[simp] theorem asTok_erase : v.erase.asTok = v.asTok := by cases v <;> rfl

@[simp] theorem asText_erase : v.erase.asText = v.asText := by cases v <;> rfl

@[simp] theorem asIval_erase : v.erase.asIval = v.asIval := by cases v <;> rfl

@[simp] theorem asTref_erase : v.erase.asTref = v.asTref := by cases v <;> rfl

@[simp] theorem stop_erase : v.erase.asBody.stop = v.asBody.stop := by cases v <;> rfl

end Erase

section Args

variable {args args' : List Yystype} (h : args.map Yystype.erase = args'.map Yystype.erase)
  (i : ℕ)

include h

theorem dollar_erase : (dollar args i).erase = (dollar args' i).erase := by
  have hmap (l : List Yystype) : (dollar l i).erase = (l.map Yystype.erase).getD (i - 1) .none :=
    (List.getD_map l .none Yystype.erase).symm
  rw [hmap, hmap, h]

theorem dollar_tok : (dollar args i).asTok = (dollar args' i).asTok := by
  rw [← asTok_erase, dollar_erase h, asTok_erase]

theorem dollar_text : (dollar args i).asText = (dollar args' i).asText := by
  rw [← asText_erase, dollar_erase h, asText_erase]

theorem dollar_ival : (dollar args i).asIval = (dollar args' i).asIval := by
  rw [← asIval_erase, dollar_erase h, asIval_erase]

theorem dollar_tref : (dollar args i).asTref = (dollar args' i).asTref := by
  rw [← asTref_erase, dollar_erase h, asTref_erase]

theorem dollar_stop : (dollar args i).asBody.stop = (dollar args' i).asBody.stop := by
  rw [← stop_erase, dollar_erase h, stop_erase]

theorem erase_run (code : ActionCode) (s s' : GrammarState) :
    (code.run args s).2.erase = (code.run args' s').2.erase := by
  have h1 := dollar_erase h 1
  cases code
  case routeItem =>
    cases hx : (dollar args 2).asItem <;> cases hy : (dollar args' 2).asItem <;>
      simp only [ActionCode.run, hx, hy, h1]
  case prefixSegment => exact congrArg Yystype.text (by rw [dollar_tok h])
  case prefixPath => exact congrArg Yystype.text (by rw [dollar_text h, dollar_tok h])
  case countBang => exact congrArg Yystype.ival (by rw [dollar_ival h])
  case depSegment => exact congrArg Yystype.tref (by rw [dollar_tok h])
  case depPath => exact congrArg Yystype.tref (by rw [dollar_tref h, dollar_tok h])
  case taskRef => exact congrArg Yystype.tref (by rw [dollar_tref h, dollar_ival h])
  case closeBody => exact congrArg (fun p => Yystype.body ⟨[], p⟩) (by rw [dollar_tok h])
  case bodyItem =>
    have hstop := dollar_stop h 1
    cases hx : (dollar args 2).asItem <;> cases hy : (dollar args' 2).asItem <;>
      simp only [ActionCode.run, hx, hy, Yystype.erase, hstop]
  all_goals first | rfl | exact h1

end Args

/-! ### What a tree means -/

/-- The declarations in the value of a symbol. -/
def SymsOf (X : Symbol NonTerm) (v : Yystype) (syms : List ℕ) : Prop :=
  match X.nonterm with
  | some .bodyItems => v.asBody.syms = syms
  | some .item => v.asItem.toList = syms
  | some n => if n ∈ declNonTerms then [v.asSym] = syms else syms = []
  | none => syms = []

/-- The actions of a tree do what its statements do. -/
structure Means (t : SynTree) : Prop where
  state {vs below : List Yystype} (s : GrammarState)
    (h : vs.map Yystype.erase = below.map Yystype.erase) :
    (t.eval SemAction.run vs s).1 = (Stmt.execAll (t.stmts below) s).1
  value {vs below : List Yystype} (s : GrammarState)
    (h : vs.map Yystype.erase = below.map Yystype.erase) :
    (t.eval SemAction.run vs s).2.erase = t.static.erase
  syms {vs below : List Yystype} (s : GrammarState)
    (h : vs.map Yystype.erase = below.map Yystype.erase) :
    SymsOf t.root (t.eval SemAction.run vs s).2 (Stmt.execAll (t.stmts below) s).2
  body {vs below : List Yystype} (s : GrammarState)
    (h : vs.map Yystype.erase = below.map Yystype.erase) (hroot : t.root = .nt .optBody) :
    (t.eval SemAction.run vs s).2.asBody.syms
        = (Stmt.execAll (unblock (t.stmts below)) s).2 ∧
      (Stmt.execAll (unblock (t.stmts below)) s).1 = (Stmt.execAll (t.stmts below) s).1

section Lists

variable {ts : List SynTree} (hts : ∀ t ∈ ts, Means t) {vs below : List Yystype}
  (s : GrammarState) (h : vs.map Yystype.erase = below.map Yystype.erase)

include hts h

theorem evalAll_state :
    (Tree.evalAll SemAction.run ts vs s).1 = (Stmt.execAll (Tree.stmtsEach ts below).flatten s).1 := by
  induction ts generalizing vs below s with
  | nil => rfl
  | cons t ts ih =>
    obtain ⟨ht, hts⟩ := List.forall_mem_cons.mp hts
    rw [Tree.evalAll, Tree.stmtsEach, List.flatten_cons, Stmt.execAll_append]
    have hvalues : ((t.eval SemAction.run vs s).2 :: vs).map Yystype.erase
        = (t.static :: below).map Yystype.erase := by
      rw [List.map_cons, List.map_cons, ht.value s h, h]
    rw [ih hts _ hvalues, ht.state s h]

theorem evalAll_values : (Tree.evalAll SemAction.run ts vs s).2.map Yystype.erase
    = ((Tree.staticEach ts).reverse ++ below).map Yystype.erase := by
  induction ts generalizing vs below s with
  | nil => exact h
  | cons t ts ih =>
    obtain ⟨ht, hts⟩ := List.forall_mem_cons.mp hts
    have hvalues : ((t.eval SemAction.run vs s).2 :: vs).map Yystype.erase
        = (t.static :: below).map Yystype.erase := by
      rw [List.map_cons, List.map_cons, ht.value s h, h]
    rw [Tree.evalAll, ih hts _ hvalues, Tree.staticEach, List.reverse_cons, List.append_assoc]
    rfl

theorem execAll_quiet (hquiet : ∀ t ∈ ts, ∀ n ∈ t.root.nonterm, n ∉ loudNonTerms) :
    (Stmt.execAll (Tree.stmtsEach ts below).flatten s).2 = [] := by
  induction ts generalizing vs below s with
  | nil => rfl
  | cons t ts ih =>
    obtain ⟨ht, hts⟩ := List.forall_mem_cons.mp hts
    obtain ⟨hq, hquiet⟩ := List.forall_mem_cons.mp hquiet
    have hvalues : ((t.eval SemAction.run vs s).2 :: vs).map Yystype.erase
        = (t.static :: below).map Yystype.erase := by
      rw [List.map_cons, List.map_cons, ht.value s h, h]
    rw [Tree.stmtsEach, List.flatten_cons, Stmt.execAll_append, ih hts _ hvalues hquiet,
      List.append_nil]
    have hsyms := ht.syms s h
    unfold SymsOf at hsyms
    split at hsyms
    case h_1 hn => exact absurd (by decide) (hq _ hn)
    case h_2 hn => exact absurd (by decide) (hq _ hn)
    case h_3 n _ _ hn =>
      rwa [if_neg fun hdecl => hq n hn (List.mem_append_right _ hdecl)] at hsyms
    case h_4 => exact hsyms

end Lists

theorem flatten_stmtsEach_nil {ts : List SynTree} (hts : ∀ t ∈ ts, ∀ below, t.stmts below = [])
    (below : List Yystype) : (Tree.stmtsEach ts below).flatten = [] := by
  induction ts generalizing below with
  | nil => rfl
  | cons t ts ih =>
    obtain ⟨ht, hts⟩ := List.forall_mem_cons.mp hts
    rw [Tree.stmtsEach, List.flatten_cons, ht, ih hts]
    rfl

theorem stmts_pure {t : SynTree} (ht : t.Valid grammar yyError) (below : List Yystype)
    (hpure : ∀ n ∈ t.root.nonterm, n ∈ pureNonTerms) (herror : t.root ≠ .tok yyError) :
    t.stmts below = [] := by
  induction ht generalizing below with
  | leaf => rfl
  | lost => exact absurd rfl herror
  | @node p children hp hroots _ ih =>
    obtain ⟨hkids, hcode⟩ := productions_pure p hp (hpure p.lhs rfl)
    have hone : ∀ t ∈ children, ∀ below, t.stmts below = [] := by
      intro t ht below
      have hmem : t.root ∈ p.rhs := hroots ▸ List.mem_map_of_mem ht
      refine ih t ht below (hkids _ (List.mem_map_of_mem hmem)) fun heq => ?_
      have hitem := (productions_tok p hp _ hmem).2 heq
      rw [hitem] at hcode
      exact absurd hcode (by decide)
    have hparts := flatten_stmtsEach_nil hone below
    rw [Tree.stmts]
    generalize p.action.code = code at hcode
    simp only [List.mem_cons, List.not_mem_nil, or_false] at hcode
    rcases hcode with rfl | rfl | rfl | rfl | rfl | rfl | rfl | rfl | rfl <;> exact hparts

/-! ### References -/

theorem exists_leaf {t : SynTree} (ht : t.Valid grammar yyError) {k : ℕ} (hroot : t.root = .tok k)
    (hk : k ≠ yyError) : ∃ v, t = .leaf k v := by
  cases ht with
  | leaf k' v =>
    obtain rfl : k' = k := Symbol.tok.inj hroot
    exact ⟨v, rfl⟩
  | lost => exact absurd (Symbol.tok.inj hroot).symm hk
  | node => cases hroot

theorem exists_node {t : SynTree} (ht : t.Valid grammar yyError) {n : NonTerm}
    (hroot : t.root = .nt n) : ∃ p children, t = .node p children ∧ p ∈ grammar.productions ∧
      p.lhs = n ∧ children.map Tree.root = p.rhs ∧
      ∀ c ∈ children, c.Valid grammar yyError := by
  cases ht with
  | leaf => cases hroot
  | lost => cases hroot
  | node hp hroots hall => exact ⟨_, _, rfl, hp, Symbol.nt.inj hroot, hroots, hall⟩

theorem root_of_nonterm {t : SynTree} {n : NonTerm} (h : t.root.nonterm = some n) :
    t.root = .nt n := by
  cases hroot : t.root with
  | tok k =>
    rw [hroot] at h
    cases h
  | nt m =>
    rw [hroot] at h
    exact congrArg Symbol.nt (Option.some.inj h)

theorem static_bangSeq {t : SynTree} (ht : t.Valid grammar yyError) (hroot : t.root = .nt .bangSeq) :
    t.static.asIval = (t.tokensBut tkEol).length := by
  induction ht with
  | leaf => cases hroot
  | lost => cases hroot
  | @node p children hp hroots hall ih =>
    obtain ⟨hbang, -, hcode, -⟩ := productions_ref p hp
    rcases hcode (Symbol.nt.inj hroot) with hnone | hone
    · have hshape := productions_shape p hp
      rw [hnone] at hshape
      obtain rfl : children = [] := by
        rw [List.map_eq_nil_iff.mp hshape.2] at hroots
        exact List.map_eq_nil_iff.mp hroots
      rw [Tree.static, hnone]
      rfl
    · rw [hbang hone] at hroots
      obtain ⟨b, rest, rfl, hb, hrest⟩ := List.map_eq_cons_iff.mp hroots
      obtain ⟨l, rest, rfl, hl, hnil⟩ := List.map_eq_cons_iff.mp hrest
      obtain rfl := List.map_eq_nil_iff.mp hnil
      obtain ⟨v, rfl⟩ := exists_leaf (hall l (by simp)) hl (by decide)
      have hcount := ih b (by simp) hb
      have htokens : (.node p [b, .leaf tkBang v] : SynTree).tokensBut tkEol
          = b.tokensBut tkEol ++ [v.asTok] := by
        unfold Tree.tokensBut
        rw [Tree.yield, Tree.yieldAll, Tree.yieldAll, Tree.yieldAll, Tree.yield, List.append_nil,
          List.filter_append, List.map_append]
        rfl
      rw [htokens, List.length_append, ← hcount, Tree.static, hone]
      rfl

theorem depPathSeg_leaf {t : SynTree} (ht : t.Valid grammar yyError)
    (hroot : t.root = .nt .depPathSeg) : ∃ p k v, t = .node p [.leaf k v] ∧ k ≠ tkDot ∧
      t.static = v ∧ t.tokensBut tkDot = [v.asTok] := by
  obtain ⟨p, children, rfl, hp, hlhs, hroots, hall⟩ := exists_node ht hroot
  obtain ⟨-, -, -, -, -, hseg⟩ := productions_ref p hp
  obtain ⟨hcode, hrhs⟩ := hseg hlhs
  obtain ⟨k, hk, hdot, herror⟩ : ∃ k, p.rhs = [.tok k] ∧ k ≠ tkDot ∧ k ≠ yyError := by
    rcases hrhs with hrhs | hrhs
    · exact ⟨_, hrhs, by decide, by decide⟩
    · exact ⟨_, hrhs, by decide +kernel, by decide +kernel⟩
  rw [hk] at hroots
  obtain ⟨l, rest, rfl, hl, hnil⟩ := List.map_eq_cons_iff.mp hroots
  obtain rfl := List.map_eq_nil_iff.mp hnil
  obtain ⟨v, rfl⟩ := exists_leaf (hall l (by simp)) hl herror
  refine ⟨p, k, v, rfl, hdot, ?_, ?_⟩
  · rw [Tree.static, hcode]
    rfl
  · unfold Tree.tokensBut
    rw [Tree.yield, Tree.yieldAll, Tree.yieldAll, Tree.yield, List.append_nil, List.filter_cons,
      if_pos (by simpa using hdot)]
    rfl

theorem pathText_concat {segs : List Token} (hne : segs ≠ []) (seg : Token) :
    pathText (segs ++ [seg]) = some ((pathText segs).getD [] ++ 46 :: seg.text.getD []) := by
  cases segs with
  | nil => exact absurd rfl hne
  | cons first segs =>
    cases segs with
    | nil => rfl
    | cons second segs =>
      simp only [List.cons_append, pathText, List.foldl_append, List.foldl_cons, List.foldl_nil,
        Option.getD_some]

/-- **The value of a path** is that of its segments. -/
theorem static_depPath {t : SynTree} (ht : t.Valid grammar yyError) (hroot : t.root = .nt .depPath) :
    t.tokensBut tkDot ≠ [] ∧ t.static.asTref = taskRefOf [] (t.tokensBut tkDot) := by
  induction ht with
  | leaf => cases hroot
  | lost => cases hroot
  | @node p children hp hroots hall ih =>
    obtain ⟨-, hpath, -, hcode, -⟩ := productions_ref p hp
    rcases hcode (Symbol.nt.inj hroot) with hone | hmore
    · have hshape := productions_shape p hp
      rw [hone] at hshape
      have hkids := hshape.2
      rw [← hroots, List.map_map] at hkids
      obtain ⟨c, rest, rfl, hc, hnil⟩ := List.map_eq_cons_iff.mp hkids
      obtain rfl := List.map_eq_nil_iff.mp hnil
      have hcroot := root_of_nonterm hc
      obtain ⟨q, k, v, -, -, hstatic, htokens⟩ := depPathSeg_leaf (hall c (by simp)) hcroot
      have htoks : (.node p [c] : SynTree).tokensBut tkDot = [v.asTok] := by
        rw [← htokens]
        unfold Tree.tokensBut
        rw [Tree.yield, Tree.yieldAll, Tree.yieldAll, List.append_nil]
      rw [htoks, Tree.static, hone, Tree.staticEach, Tree.staticEach, hstatic]
      exact ⟨List.cons_ne_nil _ _, rfl⟩
    · rw [hpath hmore] at hroots
      obtain ⟨a, rest, rfl, ha, hrest⟩ := List.map_eq_cons_iff.mp hroots
      obtain ⟨d, rest, rfl, hd, hrest⟩ := List.map_eq_cons_iff.mp hrest
      obtain ⟨c, rest, rfl, hc, hnil⟩ := List.map_eq_cons_iff.mp hrest
      obtain rfl := List.map_eq_nil_iff.mp hnil
      obtain ⟨w, rfl⟩ := exists_leaf (hall d (by simp)) hd (by decide)
      obtain ⟨q, k, v, -, -, hstatic, htokens⟩ := depPathSeg_leaf (hall c (by simp)) hc
      obtain ⟨hne, hvalue⟩ := ih a (by simp) ha
      have htoks : (.node p [a, .leaf tkDot w, c] : SynTree).tokensBut tkDot
          = a.tokensBut tkDot ++ [v.asTok] := by
        rw [← htokens]
        unfold Tree.tokensBut
        rw [Tree.yield, Tree.yieldAll, Tree.yieldAll, Tree.yieldAll, Tree.yieldAll, Tree.yield,
          List.append_nil, List.filter_append, List.map_append]
        rfl
      refine ⟨by rw [htoks]; simp, ?_⟩
      rw [htoks, Tree.static, hmore, Tree.staticEach, Tree.staticEach, Tree.staticEach,
        Tree.staticEach, hstatic]
      show (⟨0, some (_ ++ _), _, _⟩ : TaskRef) = _
      rw [dollar, List.getD_cons_zero, hvalue, taskRefOf, taskRefOf, pathText_concat hne,
        List.getLast?_concat, List.head?_append_of_ne_nil _ hne]
      rfl

/-- **The value of a reference** is that of its bangs and its segments. -/
theorem static_taskRef {t : SynTree} (ht : t.Valid grammar yyError) (hroot : t.root = .nt .taskRef) :
    t.static.asTref = taskRefOf t.refParts.1 t.refParts.2 := by
  obtain ⟨p, children, rfl, hp, hlhs, hroots, hall⟩ := exists_node ht hroot
  have hcode := (productions_ref p hp).2.2.2.2.1 hlhs
  have hshape := productions_shape p hp
  rw [hcode] at hshape
  have hkids := hshape.2
  rw [← hroots, List.map_map] at hkids
  obtain ⟨b, rest, rfl, hb, hrest⟩ := List.map_eq_cons_iff.mp hkids
  obtain ⟨a, rest, rfl, ha, hnil⟩ := List.map_eq_cons_iff.mp hrest
  obtain rfl := List.map_eq_nil_iff.mp hnil
  have hbangs := static_bangSeq (hall b (by simp)) (root_of_nonterm hb)
  obtain ⟨-, hpath⟩ := static_depPath (hall a (by simp)) (root_of_nonterm ha)
  rw [Tree.static, hcode, Tree.staticEach, Tree.staticEach, Tree.staticEach]
  show ({ a.static.asTref with bangCount := b.static.asIval } : TaskRef) = _
  rw [hbangs, hpath]
  rfl

section Nodes

variable {p : Production NonTerm SemAction} {children : List SynTree}
  (hp : p ∈ grammar.productions) (hroots : children.map Tree.root = p.rhs)
  (hmeans : ∀ t ∈ children, Means t) {vs below : List Yystype} (s : GrammarState)
  (h : vs.map Yystype.erase = below.map Yystype.erase)

/-- The values that an action sees. -/
abbrev realArgs (p : Production NonTerm SemAction) (children : List SynTree) (vs : List Yystype)
    (s : GrammarState) : List Yystype :=
  ((Tree.evalAll SemAction.run children vs s).2.take p.action.reach).reverse

/-- The values that a statement is made of. -/
abbrev staticArgs (p : Production NonTerm SemAction) (children : List SynTree)
    (below : List Yystype) : List Yystype :=
  (((Tree.staticEach children).reverse ++ below).take p.action.reach).reverse

theorem eval_node : (.node p children : SynTree).eval SemAction.run vs s
    = p.action.code.run (realArgs p children vs s) (Tree.evalAll SemAction.run children vs s).1 := rfl

include hmeans h in
theorem args_erase : (realArgs p children vs s).map Yystype.erase
    = (staticArgs p children below).map Yystype.erase := by
  rw [realArgs, staticArgs, List.map_reverse, List.map_reverse, List.map_take, List.map_take,
    evalAll_values hmeans s h]

theorem length_staticEach (ts : List SynTree) : (Tree.staticEach ts).length = ts.length := by
  induction ts with
  | nil => rfl
  | cons t ts ih => exact congrArg (· + 1) ih

include hroots in
theorem length_children : children.length = p.rhs.length := by
  rw [← hroots, List.length_map]

include hroots in
theorem staticArgs_of_reach (hreach : p.action.reach = p.rhs.length) :
    staticArgs p children below = Tree.staticEach children := by
  rw [staticArgs, hreach, ← length_children hroots, List.take_left', List.reverse_reverse]
  rw [List.length_reverse, length_staticEach]

include hp hroots hmeans h in
theorem value_node :
    ((.node p children : SynTree).eval SemAction.run vs s).2.erase = (.node p children : SynTree).static.erase := by
  rw [eval_node, Tree.static]
  rcases productions_reach p hp with hreach | ⟨hnil, hmid⟩
  · refine erase_run ?_ _ _ _
    rw [args_erase hmeans s h, staticArgs_of_reach hroots hreach]
  · have hlhs : p.lhs ∈ [NonTerm.midFile, .midSymbol, .midInclude, .midDepends, .midPrecedes] := by
      simp only [midActions, List.mem_cons, Prod.mk.injEq, List.not_mem_nil, or_false] at hmid
      simp only [List.mem_cons, List.not_mem_nil, or_false]
      tauto
    obtain ⟨hfile, hsymbol, hincl, hdep, hprec, -⟩ := productions_midCode p hp
    simp only [List.mem_cons, List.not_mem_nil, or_false] at hlhs
    rcases hlhs with hlhs | hlhs | hlhs | hlhs | hlhs
    · rw [hfile hlhs]
      rfl
    · rw [hsymbol hlhs]
      rfl
    · rw [hincl hlhs]
      rfl
    · rw [hdep hlhs]
      rfl
    · rw [hprec hlhs]
      rfl

/-- The codes of actions that only compute a value. -/
def valueCodes : List ActionCode :=
  [.default, .itemSym, .itemPlain, .emptyToken, .prefixSegment, .prefixPath, .noBangs, .countBang,
    .depSegment, .depPath, .taskRef, .emptyBody, .bodyItem, .keepBody]

theorem run_value {code : ActionCode} (hcode : code ∈ valueCodes) (args : List Yystype) :
    (code.run args s).1 = s := by
  simp only [valueCodes, List.mem_cons, List.not_mem_nil, or_false] at hcode
  rcases hcode with rfl | rfl | rfl | rfl | rfl | rfl | rfl | rfl | rfl | rfl | rfl | rfl | rfl | rfl
  case inr.inr.inr.inr.inr.inr.inr.inr.inr.inr.inr.inr.inl =>
    unfold ActionCode.run
    cases (dollar args 2).asItem <;> rfl
  all_goals rfl

theorem nodeStmts_value {code : ActionCode} (hcode : code ∈ valueCodes) (args : List Yystype)
    (parts : List (List Stmt)) : Tree.nodeStmts code children args parts = parts.flatten := by
  simp only [valueCodes, List.mem_cons, List.not_mem_nil, or_false] at hcode
  rcases hcode with rfl | rfl | rfl | rfl | rfl | rfl | rfl | rfl | rfl | rfl | rfl | rfl | rfl | rfl
    <;> rfl

include hmeans h in
theorem state_value (hcode : p.action.code ∈ valueCodes) :
    ((.node p children : SynTree).eval SemAction.run vs s).1
      = (Stmt.execAll ((.node p children : SynTree).stmts below) s).1 := by
  rw [eval_node, run_value _ hcode, Tree.stmts, nodeStmts_value hcode, evalAll_state hmeans s h]

theorem symsOf_quiet {n : NonTerm} (hn : n ∉ loudNonTerms) (v : Yystype) (syms : List ℕ) :
    SymsOf (.nt n) v syms ↔ syms = [] := by
  unfold SymsOf
  cases n
  all_goals first
    | exact absurd (by decide) hn
    | exact Iff.of_eq (if_neg (by decide))

include hroots in
theorem nonterm_mem {t : SynTree} (ht : t ∈ children) {n : NonTerm} (hn : n ∈ t.root.nonterm) :
    some n ∈ p.rhs.map Symbol.nonterm := by
  rw [← hroots, ← hn]
  exact List.mem_map_of_mem (List.mem_map_of_mem ht)

include hp hroots hmeans h in
theorem flatten_quiet (hloud : p.lhs ∉ loudNonTerms) (hlhs : p.lhs ∉ [NonTerm.items, .optBody]) :
    (Stmt.execAll (Tree.stmtsEach children below).flatten s).2 = [] :=
  execAll_quiet hmeans s h fun _ ht _ hn =>
    productions_quiet p hp hloud hlhs _ (nonterm_mem hroots ht hn) _ rfl

include hp hroots in
theorem stmts_child (hvalid : ∀ t ∈ children, t.Valid grammar yyError)
    (hcode : p.action.code ≠ .itemPlain) {t : SynTree} (ht : t ∈ children)
    (hpure : ∀ n ∈ t.root.nonterm, n ∈ pureNonTerms) (below : List Yystype) :
    t.stmts below = [] := by
  refine stmts_pure (hvalid t ht) below hpure fun heq => ?_
  exact hcode ((productions_tok p hp _ (hroots ▸ List.mem_map_of_mem ht)).2 heq)

include hroots in
theorem roots_nonterm : children.map (fun t => t.root.nonterm) = p.rhs.map Symbol.nonterm := by
  rw [← hroots, List.map_map]
  rfl

include hp in
theorem reach_of_ne_nil (hne : p.rhs ≠ []) : p.action.reach = p.rhs.length :=
  (productions_reach p hp).resolve_right fun hmid => hne hmid.1

theorem Means.idle {t : SynTree} (ht : Means t)
    (h : vs.map Yystype.erase = below.map Yystype.erase) (hnone : t.stmts below = []) :
    (t.eval SemAction.run vs s).1 = s := by
  rw [ht.state s h, hnone]
  rfl

theorem Means.push {t : SynTree} (ht : Means t)
    (h : vs.map Yystype.erase = below.map Yystype.erase) :
    ((t.eval SemAction.run vs s).2 :: vs).map Yystype.erase
      = (t.static :: below).map Yystype.erase := by
  rw [List.map_cons, List.map_cons, ht.value s h, h]

theorem evalAll_idle {ts : List SynTree} (hts : ∀ t ∈ ts, Means t)
    (h : vs.map Yystype.erase = below.map Yystype.erase)
    (hnone : ∀ t ∈ ts, ∀ below, t.stmts below = []) :
    (Tree.evalAll SemAction.run ts vs s).1 = s := by
  rw [evalAll_state hts s h, flatten_stmtsEach_nil hnone]
  rfl

/-- The last child, if it is a body. -/
theorem stmtsEach_concat (ts : List SynTree) (b : SynTree) (below : List Yystype) :
    Tree.stmtsEach (ts ++ [b]) below
      = Tree.stmtsEach ts below ++ [b.stmts ((Tree.staticEach ts).reverse ++ below)] := by
  induction ts generalizing below with
  | nil => rfl
  | cons t ts ih =>
    rw [List.cons_append, Tree.stmtsEach, ih, Tree.stmtsEach, Tree.staticEach, List.reverse_cons,
      List.append_assoc]
    rfl

theorem length_stmtsEach (ts : List SynTree) (below : List Yystype) :
    (Tree.stmtsEach ts below).length = ts.length := by
  induction ts generalizing below with
  | nil => rfl
  | cons t ts ih => exact congrArg (· + 1) (ih _)

theorem getD_stmtsEach_concat (ts : List SynTree) (b : SynTree) (below : List Yystype) :
    (Tree.stmtsEach (ts ++ [b]) below).getD (ts.length + 1 - 1) []
      = b.stmts ((Tree.staticEach ts).reverse ++ below) := by
  rw [stmtsEach_concat, Nat.add_sub_cancel, List.getD_eq_getElem?_getD,
    List.getElem?_append_right (by rw [length_stmtsEach]), length_stmtsEach, Nat.sub_self]
  rfl

theorem evalAll_concat (ts : List SynTree) (b : SynTree) (vs : List Yystype) (s : GrammarState) :
    Tree.evalAll SemAction.run (ts ++ [b]) vs s
      = ((b.eval SemAction.run (Tree.evalAll SemAction.run ts vs s).2
          (Tree.evalAll SemAction.run ts vs s).1).1,
        (b.eval SemAction.run (Tree.evalAll SemAction.run ts vs s).2
          (Tree.evalAll SemAction.run ts vs s).1).2 :: (Tree.evalAll SemAction.run ts vs s).2) := by
  rw [Tree.evalAll_append]
  rfl

/-- **A production that ends in a body**: the body runs first, and the action sees its
declarations. -/
theorem body_concat {ts : List SynTree} {b : SynTree} (hts : ∀ t ∈ ts, Means t) (hb : Means b)
    (hroot : b.root = .nt .optBody) (hnone : ∀ t ∈ ts, ∀ below, t.stmts below = [])
    (hreach : p.action.reach = ts.length + 1)
    (h : vs.map Yystype.erase = below.map Yystype.erase) :
    (dollar (realArgs p (ts ++ [b]) vs s) (ts.length + 1)).asBody.syms
        = (Stmt.execAll (unblock
          ((Tree.stmtsEach (ts ++ [b]) below).getD (ts.length + 1 - 1) [])) s).2 ∧
      (Tree.evalAll SemAction.run (ts ++ [b]) vs s).1
        = (Stmt.execAll (unblock
          ((Tree.stmtsEach (ts ++ [b]) below).getD (ts.length + 1 - 1) [])) s).1 := by
  have hvalues := evalAll_values hts s h
  have hidle := evalAll_idle s hts h hnone
  have hlen : ts.length ≤ (Tree.evalAll SemAction.run ts vs s).2.length := by
    have hmap := congrArg List.length hvalues
    rw [List.length_map, List.length_map, List.length_append, List.length_reverse,
      length_staticEach] at hmap
    omega
  have hargs : dollar (realArgs p (ts ++ [b]) vs s) (ts.length + 1)
      = (b.eval SemAction.run (Tree.evalAll SemAction.run ts vs s).2
          (Tree.evalAll SemAction.run ts vs s).1).2 := by
    have htake : ((Tree.evalAll SemAction.run ts vs s).2.take ts.length).reverse.length
        = ts.length := by
      rw [List.length_reverse, List.length_take, Nat.min_eq_left hlen]
    rw [dollar, realArgs, hreach, evalAll_concat, List.take_succ_cons, List.reverse_cons,
      Nat.add_sub_cancel, List.getD_eq_getElem?_getD,
      List.getElem?_append_right (by rw [htake]), htake, Nat.sub_self]
    rfl
  obtain ⟨hsyms, hstate⟩ := hb.body (Tree.evalAll SemAction.run ts vs s).1 hvalues hroot
  rw [hargs, getD_stmtsEach_concat, evalAll_concat]
  rw [hidle] at hsyms hstate ⊢
  refine ⟨hsyms, ?_⟩
  rw [hstate]
  have := hb.state s hvalues
  exact this

section Cases

variable (hvalid : ∀ t ∈ children, t.Valid grammar yyError)

include hp hroots hmeans

/-- What the codes with no statement of their own mean. -/
theorem means_value (hcode : p.action.code ∈ valueCodes)
    (hsyms : ∀ {vs below : List Yystype} (s : GrammarState),
      vs.map Yystype.erase = below.map Yystype.erase →
      SymsOf (.nt p.lhs) ((.node p children : SynTree).eval SemAction.run vs s).2
        (Stmt.execAll (Tree.stmtsEach children below).flatten s).2)
    (hbody : p.lhs = .optBody → p.action.code = .emptyBody ∧ children = []) :
    Means (.node p children) where
  state s h := state_value hmeans s h hcode
  value s h := value_node hp hroots hmeans s h
  syms s h := by
    rw [Tree.stmts, nodeStmts_value hcode]
    exact hsyms s h
  body {vs below} s h hroot := by
    obtain ⟨hempty, rfl⟩ := hbody (Symbol.nt.inj hroot)
    have hstmts : (.node p [] : SynTree).stmts below = [] := by
      rw [Tree.stmts, nodeStmts_value hcode]
      rfl
    rw [hstmts, eval_node, hempty]
    exact ⟨rfl, rfl⟩

theorem means_quiet {q : List Yystype → Stmt} (hlhs : p.lhs ∉ loudNonTerms ++ [.optBody])
    (hstmts : ∀ below, (.node p children : SynTree).stmts below = [q below])
    (hexec : ∀ {vs below : List Yystype} (s : GrammarState),
      vs.map Yystype.erase = below.map Yystype.erase →
      (q below).exec s = (((.node p children : SynTree).eval SemAction.run vs s).1, [])) :
    Means (.node p children) where
  state s h := by rw [hstmts, Stmt.execAll_singleton, hexec s h]
  value s h := value_node hp hroots hmeans s h
  syms s h := by
    refine (symsOf_quiet (fun hl => hlhs (List.mem_append_left _ hl)) _ _).mpr ?_
    rw [hstmts, Stmt.execAll_singleton, hexec s h]
  body s h hroot :=
    absurd (Symbol.nt.inj hroot) fun heq => hlhs (List.mem_append_right _ (by simp [heq]))

theorem means_decl {q : List Yystype → Stmt} (hlhs : p.lhs ∈ declNonTerms)
    (hstmts : ∀ below, (.node p children : SynTree).stmts below = [q below])
    (hexec : ∀ {vs below : List Yystype} (s : GrammarState),
      vs.map Yystype.erase = below.map Yystype.erase →
      (q below).exec s = (((.node p children : SynTree).eval SemAction.run vs s).1,
        [((.node p children : SynTree).eval SemAction.run vs s).2.asSym])) :
    Means (.node p children) where
  state s h := by rw [hstmts, Stmt.execAll_singleton, hexec s h]
  value s h := value_node hp hroots hmeans s h
  syms s h := by
    rw [hstmts, Stmt.execAll_singleton, hexec s h]
    have hsyms : ∀ n ∈ declNonTerms, ∀ v : Yystype, SymsOf (.nt n) v [v.asSym] := by
      intro n hn v
      simp only [declNonTerms, List.mem_cons, List.not_mem_nil, or_false] at hn
      rcases hn with rfl | rfl | rfl | rfl | rfl | rfl | rfl | rfl <;>
        simp [SymsOf, Symbol.nonterm, declNonTerms]
    exact hsyms _ hlhs _
  body s h hroot := by
    have heq : p.lhs = .optBody := Symbol.nt.inj hroot
    rw [heq] at hlhs
    exact absurd hlhs (by decide)

include hvalid in
theorem means_simple
    (hcode : p.action.code ∈ [.resetSymStack, .startDate, .endDate, .openSymbol, .openInclude] ∨
      (∃ kind, p.action.code = .setPrefix kind) ∨ ∃ kind, p.action.code = .pendingDepKind kind) :
    Means (.node p children) := by
  have hshape := productions_shape p hp
  have hfacts : p.lhs ∉ loudNonTerms ++ [.optBody] ∧ p.action.code ≠ .itemPlain ∧
      ∀ o ∈ p.rhs.map Symbol.nonterm, ∀ n ∈ o, n ∈ pureNonTerms := by
    generalize p.lhs = lhs at hshape
    generalize p.rhs.map Symbol.nonterm = rhs at hshape
    generalize p.action.code = code at hshape hcode
    simp only [List.mem_cons, List.not_mem_nil, or_false] at hcode
    rcases hcode with (rfl | rfl | rfl | rfl | rfl) | ⟨kind, rfl⟩ | ⟨kind, rfl⟩
    case inr.inr =>
      obtain ⟨hlhs, rfl⟩ := hshape
      refine ⟨fun hloud => ?_, nofun, nofun⟩
      simp only [List.mem_cons, List.not_mem_nil, or_false] at hlhs
      rcases hlhs with rfl | rfl <;> exact absurd hloud (by decide)
    all_goals
      obtain ⟨rfl, rfl⟩ := hshape
      exact ⟨by decide, nofun, by decide⟩
  obtain ⟨hlhs, hplain, hpure⟩ := hfacts
  have hnone : ∀ t ∈ children, ∀ below, t.stmts below = [] := fun t ht =>
    stmts_child hp hroots hvalid hplain ht fun n hn => hpure _ (nonterm_mem hroots ht hn) n rfl
  have hidle {vs below : List Yystype} (s : GrammarState)
      (h : vs.map Yystype.erase = below.map Yystype.erase) :
      (Tree.evalAll SemAction.run children vs s).1 = s := evalAll_idle s hmeans h hnone
  simp only [List.mem_cons, List.not_mem_nil, or_false] at hcode
  rcases hcode with (hcode | hcode | hcode | hcode | hcode) | ⟨kind, hcode⟩ | ⟨kind, hcode⟩
  · refine means_quiet hp hroots hmeans (q := fun _ => .reset) hlhs (fun below => ?_) fun s h => ?_
    · rw [Tree.stmts, hcode]
      rfl
    · rw [eval_node, hcode, hidle s h]
      rfl
  · refine means_quiet hp hroots hmeans
      (q := fun below => .startDate (dollar (staticArgs p children below) 2).asTok) hlhs
      (fun below => ?_) fun s h => ?_
    · rw [Tree.stmts, hcode]
      rfl
    · rw [eval_node, hcode, hidle s h, ← dollar_tok (args_erase hmeans s h) 2]
      rfl
  · refine means_quiet hp hroots hmeans
      (q := fun below => .endDate (dollar (staticArgs p children below) 2).asTok) hlhs
      (fun below => ?_) fun s h => ?_
    · rw [Tree.stmts, hcode]
      rfl
    · rw [eval_node, hcode, hidle s h, ← dollar_tok (args_erase hmeans s h) 2]
      rfl
  · refine means_quiet hp hroots hmeans
      (q := fun below => .opened (dollar (staticArgs p children below) 1).asTok
        (dollar (staticArgs p children below) 2).asTok
        (dollar (staticArgs p children below) 3).asTok) hlhs (fun below => ?_) fun s h => ?_
    · rw [Tree.stmts, hcode]
      rfl
    · rw [eval_node, hcode, hidle s h, ← dollar_tok (args_erase hmeans s h) 1,
        ← dollar_tok (args_erase hmeans s h) 2, ← dollar_tok (args_erase hmeans s h) 3]
      rfl
  · refine means_quiet hp hroots hmeans (q := fun _ => .included) hlhs (fun below => ?_)
      fun s h => ?_
    · rw [Tree.stmts, hcode]
      rfl
    · rw [eval_node, hcode, hidle s h]
      rfl
  · refine means_quiet hp hroots hmeans
      (q := fun below => .pref kind (dollar (staticArgs p children below) 2).asText) hlhs
      (fun below => ?_) fun s h => ?_
    · rw [Tree.stmts, hcode]
      rfl
    · rw [eval_node, hcode, hidle s h, ← dollar_text (args_erase hmeans s h) 2]
      rfl
  · refine means_quiet hp hroots hmeans (q := fun _ => .kind kind) hlhs (fun below => ?_)
      fun s h => ?_
    · rw [Tree.stmts, hcode]
      rfl
    · rw [eval_node, hcode, hidle s h]
      rfl

include hvalid in
theorem body_last (hplain : p.action.code ≠ .itemPlain)
    (hlast : (p.rhs.map Symbol.nonterm).getLast? = some (some .optBody))
    (hpure : ∀ o ∈ (p.rhs.map Symbol.nonterm).dropLast, ∀ n ∈ o, n ∈ pureNonTerms)
    {vs below : List Yystype} (s : GrammarState)
    (h : vs.map Yystype.erase = below.map Yystype.erase) :
    (dollar (realArgs p children vs s) p.rhs.length).asBody
        = ⟨(Stmt.execAll (unblock
            ((Tree.stmtsEach children below).getD (p.rhs.length - 1) [])) s).2,
          (dollar (staticArgs p children below) p.rhs.length).asBody.stop⟩ ∧
      (Tree.evalAll SemAction.run children vs s).1
        = (Stmt.execAll (unblock
            ((Tree.stmtsEach children below).getD (p.rhs.length - 1) [])) s).1 := by
  have hne : p.rhs ≠ [] := by
    rintro hnil
    rw [hnil] at hlast
    cases hlast
  have hreach := reach_of_ne_nil hp hne
  have hlen := length_children hroots
  have hstop := dollar_stop (args_erase (p := p) hmeans s h) p.rhs.length
  have hmap := roots_nonterm hroots
  rw [← hmap] at hlast hpure
  rcases List.eq_nil_or_concat children with rfl | ⟨ts, b, rfl⟩
  · cases hlast
  rw [List.concat_eq_append] at *
  rw [List.map_append, List.map_singleton, List.getLast?_concat, Option.some.injEq] at hlast
  rw [List.map_append, List.map_singleton, List.dropLast_concat] at hpure
  have hroot := root_of_nonterm hlast
  have hnone : ∀ t ∈ ts, ∀ below, t.stmts below = [] := fun t ht =>
    stmts_child hp hroots hvalid hplain (List.mem_append_left _ ht) fun n hn =>
      hpure _ (List.mem_map_of_mem ht) n hn
  rw [List.length_append, List.length_singleton] at hlen
  rw [← hlen] at hreach hstop ⊢
  obtain ⟨hsyms, hstate⟩ := body_concat s (fun t ht => hmeans t (List.mem_append_left _ ht))
    (hmeans b (List.mem_append_right _ (List.mem_singleton_self b))) hroot hnone hreach h
  refine ⟨?_, hstate⟩
  rw [← hsyms, ← hstop]

include hvalid in
theorem means_projectDecl (hcode : p.action.code = .projectDecl) : Means (.node p children) := by
  have hshape := productions_shape p hp
  rw [hcode] at hshape
  obtain ⟨hlhs, hrhs⟩ := hshape
  have hlen : p.rhs.length = 6 := by simpa using congrArg List.length hrhs
  refine means_decl hp hroots hmeans (q := fun below =>
    .project (dollar (staticArgs p children below) 1).asTok
      (dollar (staticArgs p children below) 2).asTok
      (dollar (staticArgs p children below) 3).asTok
      (unblock ((Tree.stmtsEach children below).getD (6 - 1) []))
      (dollar (staticArgs p children below) 6).asBody.stop) (by rw [hlhs]; decide)
    (fun below => ?_) fun {vs below} s h => ?_
  · rw [Tree.stmts, hcode]
    rfl
  · obtain ⟨hbody, hstate⟩ := body_last hp hroots hmeans hvalid (by rw [hcode]; nofun)
      (by rw [hrhs]; rfl) (by rw [hrhs]; decide) s h
    rw [hlen] at hbody hstate
    rw [eval_node, hcode, ActionCode.run, hbody, hstate, dollar_tok (args_erase hmeans s h) 1,
      dollar_tok (args_erase hmeans s h) 2, dollar_tok (args_erase hmeans s h) 3]
    rfl

include hvalid in
theorem means_declare {id name : Option ℕ} {body : ℕ}
    (hcode : p.action.code = .declare id name body) : Means (.node p children) := by
  have hshape := productions_shape p hp
  rw [hcode] at hshape
  obtain ⟨hlhs, hlen, hpos, hlast, hpure, -, -⟩ := hshape
  rw [List.length_map] at hlen
  obtain ⟨tok, htok⟩ : ∃ tok : List Yystype → Option ℕ → Token, tok = fun args i =>
    i.elim Token.zero fun i => (dollar args i).asTok := ⟨_, rfl⟩
  refine means_decl hp hroots hmeans (q := fun below =>
    .declare (dollar (staticArgs p children below) 1).asTok
      (tok (staticArgs p children below) id) (tok (staticArgs p children below) name)
      (unblock ((Tree.stmtsEach children below).getD (body - 1) []))
      (dollar (staticArgs p children below) body).asBody.stop) hlhs
    (fun below => ?_) fun {vs below} s h => ?_
  · rw [Tree.stmts, hcode, htok]
    rfl
  · obtain ⟨hbody, hstate⟩ := body_last hp hroots hmeans hvalid (by rw [hcode]; nofun) hlast hpure s h
    rw [← hlen] at hbody hstate
    have harg (i : Option ℕ) : tok (staticArgs p children below) i
        = i.elim Token.zero fun i => (dollar (realArgs p children vs s) i).asTok := by
      rw [htok]
      cases i with
      | none => rfl
      | some i => exact (dollar_tok (args_erase hmeans s h) i).symm
    rw [eval_node, hcode, ActionCode.run, hbody, hstate, dollar_tok (args_erase hmeans s h) 1,
      harg, harg]
    rfl

include hvalid in
theorem means_depRef (hcode : p.action.code = .depRef) : Means (.node p children) := by
  have hshape := productions_shape p hp
  rw [hcode] at hshape
  obtain ⟨hlhs, hrhs⟩ := hshape
  have hlen : p.rhs.length = 2 := by simpa using congrArg List.length hrhs
  have hreach : p.action.reach = 2 := hlen ▸ reach_of_ne_nil hp (by
    rintro hnil
    rw [hnil] at hlen
    cases hlen)
  have hkids := roots_nonterm hroots
  rw [hrhs] at hkids
  obtain ⟨r, rest, hsplit, hr, -⟩ := List.map_eq_cons_iff.mp hkids
  have hmem : r ∈ children := hsplit ▸ List.mem_cons_self
  have href := static_taskRef (hvalid r hmem) (root_of_nonterm hr)
  refine means_quiet hp hroots hmeans (q := fun below => .ref r.refParts.1 r.refParts.2
    (unblock ((Tree.stmtsEach children below).getD (2 - 1) []))) (by rw [hlhs]; decide)
    (fun below => ?_) fun {vs below} s h => ?_
  · rw [Tree.stmts, hcode, hsplit]
    rfl
  · obtain ⟨-, hstate⟩ := body_last hp hroots hmeans hvalid (by rw [hcode]; nofun)
      (by rw [hrhs]; rfl) (by rw [hrhs]; decide) s h
    rw [hlen] at hstate
    have hvalue : (dollar (realArgs p children vs s) 1).asTref
        = taskRefOf r.refParts.1 r.refParts.2 := by
      rw [dollar_tref (args_erase hmeans s h), staticArgs_of_reach hroots (hreach.trans hlen.symm),
        hsplit, Tree.staticEach]
      exact href
    rw [eval_node, hcode, ActionCode.run, hstate, hvalue]
    rfl

include hvalid in
theorem means_closeBody (hcode : p.action.code = .closeBody) : Means (.node p children) := by
  have hshape := productions_shape p hp
  rw [hcode] at hshape
  obtain ⟨hlhs, hrhs⟩ := hshape
  have hlen : p.rhs.length = 3 := by simpa using congrArg List.length hrhs
  have hreach : p.action.reach = 3 := hlen ▸ reach_of_ne_nil hp (by
    rintro hnil
    rw [hnil] at hlen
    cases hlen)
  have hkids := roots_nonterm hroots
  rw [hrhs] at hkids
  obtain ⟨l, rest, rfl, hl, hrest⟩ := List.map_eq_cons_iff.mp hkids
  obtain ⟨b, rest, rfl, hb, hrest⟩ := List.map_eq_cons_iff.mp hrest
  obtain ⟨r, rest, rfl, hr, hnil⟩ := List.map_eq_cons_iff.mp hrest
  obtain rfl := List.map_eq_nil_iff.mp hnil
  have hplain : p.action.code ≠ .itemPlain := by
    rw [hcode]
    nofun
  have hlnone := stmts_child hp hroots hvalid hplain (t := l) (by simp) (by rw [hl]; nofun)
  have hrnone := stmts_child hp hroots hvalid hplain (t := r) (by simp) (by rw [hr]; nofun)
  have hlmeans := hmeans l (by simp)
  have hbmeans := hmeans b (by simp)
  have hstmts (below : List Yystype) : (.node p [l, b, r] : SynTree).stmts below
      = [.block (b.stmts (l.static :: below))] := by
    rw [Tree.stmts, hcode]
    rfl
  have hstate {vs below : List Yystype} (s : GrammarState)
      (h : vs.map Yystype.erase = below.map Yystype.erase) :
      ((.node p [l, b, r] : SynTree).eval SemAction.run vs s).1
        = (Stmt.execAll (b.stmts (l.static :: below)) s).1 := by
    rw [eval_node, hcode]
    show (Tree.evalAll SemAction.run [l, b, r] vs s).1 = _
    rw [evalAll_state hmeans s h, Tree.stmtsEach, Tree.stmtsEach, Tree.stmtsEach, Tree.stmtsEach,
      hlnone, hrnone]
    simp only [List.flatten_cons, List.flatten_nil, List.nil_append, List.append_nil]
  have hsyms {vs below : List Yystype} (s : GrammarState)
      (h : vs.map Yystype.erase = below.map Yystype.erase) :
      ((.node p [l, b, r] : SynTree).eval SemAction.run vs s).2.asBody.syms
        = (Stmt.execAll (b.stmts (l.static :: below)) s).2 := by
    have hbody := hbmeans.syms (l.eval SemAction.run vs s).1 (hlmeans.push s h)
    rw [root_of_nonterm hb, hlmeans.idle s h (hlnone below)] at hbody
    rw [eval_node, hcode, realArgs, hreach]
    have hidle := hlmeans.idle s h (hlnone below)
    show (b.eval SemAction.run ((l.eval SemAction.run vs s).2 :: vs)
      (l.eval SemAction.run vs s).1).2.asBody.syms = _
    rw [hidle]
    exact hbody
  refine ⟨fun s h => ?_, fun s h => value_node hp hroots hmeans s h, fun s h => ?_,
    fun s h _ => ?_⟩
  · rw [hstmts, Stmt.execAll_singleton, Stmt.exec, hstate s h]
  · refine (symsOf_quiet (by rw [hlhs]; decide) _ _).mpr ?_
    rw [hstmts, Stmt.execAll_singleton, Stmt.exec]
  · rw [hstmts, Stmt.execAll_singleton, Stmt.exec]
    exact ⟨hsyms s h, rfl⟩

theorem means_routeItem (hcode : p.action.code = .routeItem) : Means (.node p children) := by
  have hshape := productions_shape p hp
  rw [hcode] at hshape
  obtain ⟨hlhs, hrhs⟩ := hshape
  have hlen : p.rhs.length = 2 := by simpa using congrArg List.length hrhs
  have hreach : p.action.reach = 2 := hlen ▸ reach_of_ne_nil hp (by
    rintro hnil
    rw [hnil] at hlen
    cases hlen)
  have hkids := roots_nonterm hroots
  rw [hrhs] at hkids
  obtain ⟨before, rest, rfl, hbefore, hrest⟩ := List.map_eq_cons_iff.mp hkids
  obtain ⟨item, rest, rfl, hitem, hnil⟩ := List.map_eq_cons_iff.mp hrest
  obtain rfl := List.map_eq_nil_iff.mp hnil
  have hbmeans := hmeans before (by simp)
  have himeans := hmeans item (by simp)
  have hstmts (below : List Yystype) : (.node p [before, item] : SynTree).stmts below
      = before.stmts below ++ [.top (item.stmts (before.static :: below))] := by
    rw [Tree.stmts, hcode]
    rfl
  have hquiet {vs below : List Yystype} (s : GrammarState)
      (h : vs.map Yystype.erase = below.map Yystype.erase) :
      (Stmt.execAll (before.stmts below) s).2 = [] := by
    have hsyms := hbmeans.syms s h
    rwa [root_of_nonterm hbefore, symsOf_quiet (by decide)] at hsyms
  refine ⟨fun {vs below} s h => ?_, fun s h => value_node hp hroots hmeans s h, fun s h => ?_,
    fun s h hroot => ?_⟩
  · have hsyms := himeans.syms (before.eval SemAction.run vs s).1 (hbmeans.push s h)
    rw [root_of_nonterm hitem] at hsyms
    rw [hstmts, Stmt.execAll_append, Stmt.execAll_singleton, Stmt.exec, eval_node, hcode, realArgs,
      hreach]
    rw [run_routeItem]
    show ((item.eval SemAction.run ((before.eval SemAction.run vs s).2 :: vs)
        (before.eval SemAction.run vs s).1).2.asItem.toList.foldl GrammarState.routeTopLevel
      (item.eval SemAction.run ((before.eval SemAction.run vs s).2 :: vs)
        (before.eval SemAction.run vs s).1).1) = _
    rw [himeans.state _ (hbmeans.push s h), ← hbmeans.state s h]
    unfold SymsOf Symbol.nonterm at hsyms
    dsimp only at hsyms ⊢
    rw [hsyms]
  · show SymsOf (.nt p.lhs) _ _
    refine (symsOf_quiet (by rw [hlhs]; decide) _ _).mpr ?_
    rw [hstmts, Stmt.execAll_append, Stmt.execAll_singleton, Stmt.exec, hquiet s h]
    rfl
  · have heq : p.lhs = .optBody := Symbol.nt.inj hroot
    rw [hlhs] at heq
    cases heq

include hvalid in
theorem means_closeSymbol (hcode : p.action.code = .closeSymbol) : Means (.node p children) := by
  have hshape := productions_shape p hp
  rw [hcode] at hshape
  obtain ⟨hlhs, hrhs⟩ := hshape
  have hlen : p.rhs.length = 5 := by simpa using congrArg List.length hrhs
  have hreach : p.action.reach = 5 := hlen ▸ reach_of_ne_nil hp (by
    rintro hnil
    rw [hnil] at hlen
    cases hlen)
  have hplain : p.action.code ≠ .itemPlain := by
    rw [hcode]
    nofun
  have hkids := roots_nonterm hroots
  rw [hrhs] at hkids
  obtain ⟨k, rest, rfl, hk, hrest⟩ := List.map_eq_cons_iff.mp hkids
  obtain ⟨i, rest, rfl, hi, hrest⟩ := List.map_eq_cons_iff.mp hrest
  obtain ⟨n, rest, rfl, hn, hrest⟩ := List.map_eq_cons_iff.mp hrest
  obtain ⟨m, rest, rfl, hm, hrest⟩ := List.map_eq_cons_iff.mp hrest
  obtain ⟨b, rest, rfl, hb, hnil⟩ := List.map_eq_cons_iff.mp hrest
  obtain rfl := List.map_eq_nil_iff.mp hnil
  obtain ⟨q, mkids, rfl, hq, hqlhs, hqroots, -⟩ := exists_node (hvalid m (by simp))
    (root_of_nonterm hm)
  obtain ⟨-, hopen, -, -, -, hqrhs⟩ := productions_midCode q hq
  obtain rfl : mkids = [] := by
    rw [hqrhs (by rw [hqlhs]; decide)] at hqroots
    exact List.map_eq_nil_iff.mp hqroots
  have hkmeans := hmeans k (by simp)
  have himeans := hmeans i (by simp)
  have hnmeans := hmeans n (by simp)
  have hmmeans := hmeans (.node q []) (by simp)
  have hbmeans := hmeans b (by simp)
  have hknone := stmts_child hp hroots hvalid hplain (t := k) (by simp)
    (by rw [hk]; exact fun _ h => Option.some.inj h ▸ by decide)
  have hinone := stmts_child hp hroots hvalid hplain (t := i) (by simp)
    (by rw [hi]; exact fun _ h => Option.some.inj h ▸ by decide)
  have hnnone := stmts_child hp hroots hvalid hplain (t := n) (by simp)
    (by rw [hn]; exact fun _ h => Option.some.inj h ▸ by decide)
  refine means_decl hp hroots hmeans (q := fun below => .symbol k.static.asTok i.static.asTok
    n.static.asTok (unblock (b.stmts ((.node q [] : SynTree).static :: n.static :: i.static
      :: k.static :: below))) b.static.asBody.stop) (by rw [hlhs]; decide) (fun below => ?_)
    fun {vs below} s h => ?_
  · have hargs : staticArgs _ _ below = _ := staticArgs_of_reach hroots (hreach.trans hlen.symm)
    rw [Tree.stmts, ← staticArgs, hargs, hcode]
    rfl
  · obtain ⟨vk, hvk⟩ : ∃ v, (k.eval SemAction.run vs s).2 = v := ⟨_, rfl⟩
    have hpk := hkmeans.push s h
    have hsk := hkmeans.idle s h (hknone below)
    have hek := hkmeans.value s h
    rw [hvk] at hpk hek
    obtain ⟨vi, hvi⟩ : ∃ v, (i.eval SemAction.run (vk :: vs) s).2 = v := ⟨_, rfl⟩
    have hpi := himeans.push s hpk
    have hsi := himeans.idle s hpk (hinone _)
    have hei := himeans.value s hpk
    rw [hvi] at hpi hei
    obtain ⟨vn, hvn⟩ : ∃ v, (n.eval SemAction.run (vi :: vk :: vs) s).2 = v := ⟨_, rfl⟩
    have hpn := hnmeans.push s hpi
    have hsn := hnmeans.idle s hpi (hnnone _)
    have hen := hnmeans.value s hpi
    rw [hvn] at hpn hen
    have htk : vk.asTok = k.static.asTok := by rw [← asTok_erase, hek, asTok_erase]
    have hti : vi.asTok = i.static.asTok := by rw [← asTok_erase, hei, asTok_erase]
    have htn : vn.asTok = n.static.asTok := by rw [← asTok_erase, hen, asTok_erase]
    obtain ⟨out, hout⟩ : ∃ out, (.node q [] : SynTree).eval SemAction.run (vn :: vi :: vk :: vs) s
        = out := ⟨_, rfl⟩
    have hmid : out = (if k.static.asTok.kind = kwTask then
          (s.allocTjNode k.static.asTok i.static.asTok n.static.asTok).1.symStackPush s.heap.length
        else (s.allocTjNode k.static.asTok i.static.asTok n.static.asTok).1,
        .sym s.heap.length) := by
      rw [← hout, eval_node, hopen hqlhs, realArgs, hopen hqlhs, ← htk, ← hti, ← htn]
      rfl
    have hpm := hmmeans.push s hpn
    rw [hout] at hpm
    obtain ⟨hsyms, hstate⟩ := hbmeans.body out.1 hpm (root_of_nonterm hb)
    have hbstate := hbmeans.state out.1 hpm
    have hstop := hbmeans.value out.1 hpm
    obtain ⟨bout, hbout⟩ : ∃ o, b.eval SemAction.run (out.2 :: vn :: vi :: vk :: vs) out.1 = o :=
      ⟨_, rfl⟩
    rw [hbout] at hsyms hbstate hstop
    have hbody : bout.2.asBody = ⟨(Stmt.execAll (unblock (b.stmts ((.node q [] : SynTree).static
        :: n.static :: i.static :: k.static :: below))) out.1).2, b.static.asBody.stop⟩ := by
      rw [← hsyms, ← stop_erase b.static, ← hstop, stop_erase]
    have heval : Tree.evalAll SemAction.run [k, i, n, .node q [], b] vs s
        = (bout.1, bout.2 :: out.2 :: vn :: vi :: vk :: vs) := by
      rw [Tree.evalAll, Tree.evalAll, Tree.evalAll, Tree.evalAll, Tree.evalAll, Tree.evalAll, hvk,
        hsk, hvi, hsi, hvn, hsn, hout, hbout]
    have hargs : realArgs p [k, i, n, .node q [], b] vs s = [vk, vi, vn, out.2, bout.2] := by
      rw [realArgs, heval, hreach]
      rfl
    rw [eval_node, hcode, hargs, heval, ActionCode.run]
    show _ = ((if vk.asTok.kind = kwTask then bout.1.symStackPop else bout.1).finishTjNode
      out.2.asSym vk.asTok bout.2.asBody, [out.2.asSym])
    rw [htk, hbody, hbstate, ← hstate, hmid]
    rfl

include hvalid in
theorem means_closeInclude (hcode : p.action.code = .closeInclude) : Means (.node p children) := by
  have hshape := productions_shape p hp
  rw [hcode] at hshape
  obtain ⟨hlhs, hrhs⟩ := hshape
  have hlen : p.rhs.length = 4 := by simpa using congrArg List.length hrhs
  have hreach : p.action.reach = 4 := hlen ▸ reach_of_ne_nil hp (by
    rintro hnil
    rw [hnil] at hlen
    cases hlen)
  have hplain : p.action.code ≠ .itemPlain := by
    rw [hcode]
    nofun
  have hkids := roots_nonterm hroots
  rw [hrhs] at hkids
  obtain ⟨k, rest, rfl, hk, hrest⟩ := List.map_eq_cons_iff.mp hkids
  obtain ⟨f, rest, rfl, hf, hrest⟩ := List.map_eq_cons_iff.mp hrest
  obtain ⟨m, rest, rfl, hm, hrest⟩ := List.map_eq_cons_iff.mp hrest
  obtain ⟨b, rest, rfl, hb, hnil⟩ := List.map_eq_cons_iff.mp hrest
  obtain rfl := List.map_eq_nil_iff.mp hnil
  obtain ⟨q, mkids, rfl, hq, hqlhs, hqroots, -⟩ := exists_node (hvalid m (by simp))
    (root_of_nonterm hm)
  obtain ⟨-, -, hopen, -, -, hqrhs⟩ := productions_midCode q hq
  obtain rfl : mkids = [] := by
    rw [hqrhs (by rw [hqlhs]; decide)] at hqroots
    exact List.map_eq_nil_iff.mp hqroots
  have hkmeans := hmeans k (by simp)
  have hfmeans := hmeans f (by simp)
  have hmmeans := hmeans (.node q []) (by simp)
  have hbmeans := hmeans b (by simp)
  have hknone := stmts_child hp hroots hvalid hplain (t := k) (by simp) (by rw [hk]; nofun)
  have hfnone := stmts_child hp hroots hvalid hplain (t := f) (by simp)
    (by rw [hf]; exact fun _ h => Option.some.inj h ▸ by decide)
  refine means_quiet hp hroots hmeans (q := fun below => .incl f.static.asTok
    (unblock (b.stmts ((.node q [] : SynTree).static :: f.static :: k.static :: below))))
    (by rw [hlhs]; decide) (fun below => ?_) fun {vs below} s h => ?_
  · have hargs : staticArgs _ _ below = _ := staticArgs_of_reach hroots (hreach.trans hlen.symm)
    rw [Tree.stmts, ← staticArgs, hargs, hcode]
    rfl
  · obtain ⟨vk, hvk⟩ : ∃ v, (k.eval SemAction.run vs s).2 = v := ⟨_, rfl⟩
    have hpk := hkmeans.push s h
    have hsk := hkmeans.idle s h (hknone below)
    rw [hvk] at hpk
    obtain ⟨vf, hvf⟩ : ∃ v, (f.eval SemAction.run (vk :: vs) s).2 = v := ⟨_, rfl⟩
    have hpf := hfmeans.push s hpk
    have hsf := hfmeans.idle s hpk (hfnone _)
    have hef := hfmeans.value s hpk
    rw [hvf] at hpf hef
    have htf : vf.asTok = f.static.asTok := by rw [← asTok_erase, hef, asTok_erase]
    obtain ⟨out, hout⟩ : ∃ out, (.node q [] : SynTree).eval SemAction.run (vf :: vk :: vs) s = out :=
      ⟨_, rfl⟩
    have hmid : out.1 = { s with inIncludeDepth := s.inIncludeDepth + 1 } := by
      rw [← hout, eval_node, hopen hqlhs]
      rfl
    have hpm := hmmeans.push s hpf
    rw [hout] at hpm
    obtain ⟨-, hstate⟩ := hbmeans.body out.1 hpm (root_of_nonterm hb)
    have hbstate := hbmeans.state out.1 hpm
    obtain ⟨bout, hbout⟩ : ∃ o, b.eval SemAction.run (out.2 :: vf :: vk :: vs) out.1 = o := ⟨_, rfl⟩
    rw [hbout] at hbstate
    have heval : Tree.evalAll SemAction.run [k, f, .node q [], b] vs s
        = (bout.1, bout.2 :: out.2 :: vf :: vk :: vs) := by
      rw [Tree.evalAll, Tree.evalAll, Tree.evalAll, Tree.evalAll, Tree.evalAll, hvk, hsk, hvf, hsf,
        hout, hbout]
    have hargs : realArgs p [k, f, .node q [], b] vs s = [vk, vf, out.2, bout.2] := by
      rw [realArgs, heval, hreach]
      rfl
    rw [eval_node, hcode, hargs, heval, ActionCode.run]
    show _ = (({ bout.1 with inIncludeDepth := bout.1.inIncludeDepth - 1 } :
      GrammarState).pushInclude vf.asTok.text |> fun s => { s with pendingPrefixes := noPrefixes },
      [])
    rw [htf, hbstate, ← hstate, hmid]
    rfl

theorem means_itemSym (hcode : p.action.code = .itemSym) : Means (.node p children) := by
  have hshape := productions_shape p hp
  rw [hcode] at hshape
  have hkids := roots_nonterm hroots
  obtain ⟨hlhs, n, hn, hrhs⟩ := hshape
  rw [hrhs] at hkids
  obtain ⟨d, rest, rfl, hd, hnil⟩ := List.map_eq_cons_iff.mp hkids
  obtain rfl := List.map_eq_nil_iff.mp hnil
  have hreach := reach_of_ne_nil hp (fun hnil => by
    rw [hnil] at hrhs
    cases hrhs)
  rw [← length_children hroots] at hreach
  refine means_value hp hroots hmeans (by rw [hcode]; decide) (fun {vs below} s h => ?_) fun heq => ?_
  · have hsyms := (hmeans d (by simp)).syms s h
    unfold SymsOf at hsyms ⊢
    have hdecl : ∀ n ∈ declNonTerms, n ≠ .bodyItems ∧ n ≠ .item := by decide
    rw [hd] at hsyms
    rw [eval_node, hcode, realArgs, hreach, hlhs, Tree.stmtsEach, Tree.stmtsEach,
      List.flatten_cons, List.flatten_nil, List.append_nil]
    have hone : [(d.eval SemAction.run vs s).2.asSym]
        = (Stmt.execAll (d.stmts below) s).2 := by
      split at hsyms
      case h_1 hb => exact absurd (Option.some.inj hb) (hdecl n hn).1
      case h_2 hb => exact absurd (Option.some.inj hb) (hdecl n hn).2
      case h_3 m _ _ hb =>
        obtain rfl := Option.some.inj hb
        rwa [if_pos hn] at hsyms
      case h_4 hb => cases hb
    exact hone
  · rw [hlhs] at heq
    cases heq

theorem means_itemPlain (hcode : p.action.code = .itemPlain) : Means (.node p children) := by
  have hshape := productions_shape p hp
  rw [hcode] at hshape
  have hkids := roots_nonterm hroots
  obtain ⟨hlhs, hrhs⟩ := hshape
  refine means_value hp hroots hmeans (by rw [hcode]; decide) (fun {vs below} s h => ?_) fun heq => ?_
  · have hnone : (Stmt.execAll (Tree.stmtsEach children below).flatten s).2 = [] := by
      refine execAll_quiet hmeans s h fun t ht n hn => ?_
      have hmem := nonterm_mem hroots ht hn
      rcases hrhs with hrhs | hrhs
      · rw [hrhs] at hmem
        obtain rfl := Option.some.inj (List.mem_singleton.mp hmem)
        decide
      · rw [hrhs] at hmem
        cases List.mem_singleton.mp hmem
    rw [hnone, hlhs, eval_node, hcode]
    rfl
  · rw [hlhs] at heq
    cases heq

theorem means_bodyItem (hcode : p.action.code = .bodyItem) : Means (.node p children) := by
  have hshape := productions_shape p hp
  rw [hcode] at hshape
  have hkids := roots_nonterm hroots
  obtain ⟨hlhs, hrhs⟩ := hshape
  rw [hrhs] at hkids
  obtain ⟨b, rest, rfl, hb, hrest⟩ := List.map_eq_cons_iff.mp hkids
  obtain ⟨i, rest, rfl, hi, hnil⟩ := List.map_eq_cons_iff.mp hrest
  obtain rfl := List.map_eq_nil_iff.mp hnil
  have hreach := reach_of_ne_nil hp (fun hnil => by
    rw [hnil] at hrhs
    cases hrhs)
  rw [← length_children hroots] at hreach
  refine means_value hp hroots hmeans (by rw [hcode]; decide) (fun {vs below} s h => ?_) fun heq => ?_
  · have hbmeans := hmeans b (by simp)
    have hbsyms := hbmeans.syms s h
    have hisyms := (hmeans i (by simp)).syms (b.eval SemAction.run vs s).1 (hbmeans.push s h)
    rw [root_of_nonterm hb] at hbsyms
    rw [root_of_nonterm hi, hbmeans.state s h] at hisyms
    rw [eval_node, hcode, realArgs, hreach, hlhs, Tree.stmtsEach, Tree.stmtsEach,
      Tree.stmtsEach, List.flatten_cons, List.flatten_cons, List.flatten_nil, List.append_nil,
      Stmt.execAll_append]
    unfold SymsOf Symbol.nonterm at hbsyms hisyms ⊢
    dsimp only at hbsyms hisyms ⊢
    rw [← hbsyms, ← hisyms, ← hbmeans.state s h]
    exact run_bodyItem _ _
  · rw [hlhs] at heq
    cases heq

include hvalid in
theorem means_keepBody (hcode : p.action.code = .keepBody) : Means (.node p children) := by
  have hshape := productions_shape p hp
  rw [hcode] at hshape
  have hkids := roots_nonterm hroots
  obtain ⟨hlhs, hrhs⟩ := hshape
  rw [hrhs] at hkids
  obtain ⟨b, rest, rfl, hb, hrest⟩ := List.map_eq_cons_iff.mp hkids
  obtain ⟨e, rest, rfl, he, hnil⟩ := List.map_eq_cons_iff.mp hrest
  obtain rfl := List.map_eq_nil_iff.mp hnil
  have hreach := reach_of_ne_nil hp (fun hnil => by
    rw [hnil] at hrhs
    cases hrhs)
  rw [← length_children hroots] at hreach
  have henone := stmts_child hp hroots hvalid (by rw [hcode]; intro h; cases h) (t := e) (by simp)
    (by rw [he]; intro n hn; cases hn)
  refine means_value hp hroots hmeans (by rw [hcode]; decide) (fun {vs below} s h => ?_) fun heq => ?_
  · have hbsyms := (hmeans b (by simp)).syms s h
    rw [root_of_nonterm hb] at hbsyms
    rw [eval_node, hcode, realArgs, hreach, hlhs, Tree.stmtsEach, Tree.stmtsEach,
      Tree.stmtsEach, henone, List.flatten_cons, List.flatten_cons, List.flatten_nil,
      List.append_nil, List.append_nil]
    exact hbsyms
  · rw [hlhs] at heq
    cases heq

end Cases

end Nodes

/-- **The actions of a tree** do what its statements do. -/
theorem means {t : SynTree} (ht : t.Valid grammar yyError) : Means t := by
  induction ht with
  | leaf k v =>
    exact ⟨fun _ _ => rfl, fun _ _ => rfl, fun _ _ => rfl, fun _ _ hroot => by cases hroot⟩
  | lost v hall ih =>
    refine ⟨fun s h => ?_, fun _ _ => rfl, fun s h => ?_, fun _ _ hroot => by cases hroot⟩
    · rw [Tree.eval, Tree.stmts, Stmt.execAll_singleton, Stmt.exec, evalAll_state ih s h]
    · rw [Tree.stmts, Stmt.execAll_singleton, Stmt.exec]
      rfl
  | @node p children hp hroots hall ih =>
    have hshape := productions_shape p hp
    have hkids := roots_nonterm hroots
    have hquiet (hcode : p.action.code ∈ valueCodes) (hloud : p.lhs ∉ loudNonTerms)
        (hlhs : p.lhs ∉ [NonTerm.items, .optBody]) : Means (.node p children) := by
      refine means_value hp hroots ih hcode (fun s h => ?_) fun heq => ?_
      · exact (symsOf_quiet hloud _ _).mpr (flatten_quiet hp hroots ih s h hloud hlhs)
      · exact absurd (by simp [heq]) hlhs
    generalize hcode : p.action.code = code at hshape hquiet
    cases code with
    | default =>
      obtain ⟨hlhs, hnone⟩ := hshape
      refine means_value hp hroots ih (by rw [hcode]; decide) (fun s h => ?_) fun heq => ?_
      · refine (symsOf_quiet (fun hl => hlhs (List.mem_append_left _ hl)) _ _).mpr ?_
        exact execAll_quiet ih s h fun t ht n hn hl => hnone n hl (nonterm_mem hroots ht hn)
      · exact absurd (List.mem_append_right _ (by simp [heq])) hlhs
    | resetSymStack => exact means_simple hp hroots ih hall (.inl (by rw [hcode]; decide))
    | routeItem => exact means_routeItem hp hroots ih hcode
    | itemSym => exact means_itemSym hp hroots ih hcode
    | itemPlain => exact means_itemPlain hp hroots ih hcode
    | startDate => exact means_simple hp hroots ih hall (.inl (by rw [hcode]; decide))
    | endDate => exact means_simple hp hroots ih hall (.inl (by rw [hcode]; decide))
    | setPrefix kind => exact means_simple hp hroots ih hall (.inr (.inl ⟨kind, hcode⟩))
    | pendingDepKind kind => exact means_simple hp hroots ih hall (.inr (.inr ⟨kind, hcode⟩))
    | projectDecl => exact means_projectDecl hp hroots ih hall hcode
    | openSymbol => exact means_simple hp hroots ih hall (.inl (by rw [hcode]; decide))
    | closeSymbol => exact means_closeSymbol hp hroots ih hall hcode
    | declare id name body => exact means_declare hp hroots ih hall hcode
    | openInclude => exact means_simple hp hroots ih hall (.inl (by rw [hcode]; decide))
    | closeInclude => exact means_closeInclude hp hroots ih hall hcode
    | emptyToken =>
      obtain ⟨hlhs, -⟩ := hshape
      simp only [List.mem_cons, List.not_mem_nil, or_false] at hlhs
      rcases hlhs with hlhs | hlhs | hlhs <;>
        exact hquiet (by decide) (by rw [hlhs]; decide) (by rw [hlhs]; decide)
    | prefixSegment =>
      exact hquiet (by decide) (by rw [hshape.1]; decide) (by rw [hshape.1]; decide)
    | prefixPath =>
      exact hquiet (by decide) (by rw [hshape.1]; decide) (by rw [hshape.1]; decide)
    | noBangs => exact hquiet (by decide) (by rw [hshape.1]; decide) (by rw [hshape.1]; decide)
    | countBang => exact hquiet (by decide) (by rw [hshape.1]; decide) (by rw [hshape.1]; decide)
    | depSegment => exact hquiet (by decide) (by rw [hshape.1]; decide) (by rw [hshape.1]; decide)
    | depPath => exact hquiet (by decide) (by rw [hshape.1]; decide) (by rw [hshape.1]; decide)
    | taskRef => exact hquiet (by decide) (by rw [hshape.1]; decide) (by rw [hshape.1]; decide)
    | depRef => exact means_depRef hp hroots ih hall hcode
    | emptyBody =>
      obtain ⟨hlhs, hrhs⟩ := hshape
      obtain rfl : children = [] := by
        rw [hrhs] at hkids
        exact List.map_eq_nil_iff.mp hkids
      refine means_value hp hroots ih (by rw [hcode]; decide) (fun {vs below} s h => ?_)
        fun _ => ⟨hcode, rfl⟩
      rw [eval_node, hcode]
      simp only [List.mem_cons, List.not_mem_nil, or_false] at hlhs
      rcases hlhs with hlhs | hlhs
      · rw [hlhs]
        exact (symsOf_quiet (by decide) _ _).mpr rfl
      · rw [hlhs]
        rfl
    | closeBody => exact means_closeBody hp hroots ih hall hcode
    | bodyItem => exact means_bodyItem hp hroots ih hcode
    | keepBody => exact means_keepBody hp hroots ih hall hcode

/-! ### A parse and its statements -/

/-- A syntax tree of a file, whose tokens are those that the lexer hands to the parser. -/
structure IsTreeOf (front : FrontState) (doc : SynTree) : Prop where
  valid : doc.Valid grammar yyError
  whole : doc.Whole
  root : doc.root = .nt .file
  tokens : ∃ n v, (handed n front).map (fun t => (t.1, Yystype.tok t.2)) = doc.yield ++ [(0, v)]

section Parses

variable {κ : Type*} {T : Tables κ NonTerm SemAction}

/-- What a parser has been fed is what the lexer hands out. -/
theorem handed_of_fed {l m : FrontState} {ts : List (ℕ × Yystype)}
    (h : (yyparser T).Fed l ts m) :
    ∃ n, (handed n l).map (fun t => (t.1, Yystype.tok t.2)) = ts ∧ yylexCalls n l = m := by
  induction h with
  | nil => exact ⟨0, rfl, rfl⟩
  | @next m ts h ih =>
    obtain ⟨n, hts, hm⟩ := ih
    refine ⟨n + 1, ?_, ?_⟩
    · rw [handed_add, List.map_append, hts, hm]
      rfl
    · rw [← hm, yylexCalls_add]
      rfl

theorem isTreeOf_of_fed {l m : FrontState} {doc : SynTree} (hvalid : doc.Valid grammar yyError)
    (hwhole : doc.Whole) (hroot : doc.root = .nt .file) {v : Yystype} {more : List (ℕ × Yystype)}
    (hfed : (yyparser T).Fed l (doc.yield ++ [(0, v)] ++ more) m) : IsTreeOf l doc := by
  obtain ⟨n, hn, -⟩ := handed_of_fed hfed
  have hle : (doc.yield ++ [(0, v)]).length ≤ n := by
    have hlen := congrArg List.length hn
    rw [List.length_map, length_handed, List.length_append] at hlen
    omega
  obtain ⟨k, rfl⟩ := Nat.exists_eq_add_of_le hle
  rw [handed_add, List.map_append] at hn
  refine ⟨hvalid, hwhole, hroot, _, v, (List.append_inj hn ?_).1⟩
  rw [List.length_map, length_handed]

variable [DecidableEq κ]

variable (T) in
/-- **A parse without a syntax error**, with the syntax tree that its reductions build. -/
inductive ParsesTo (s : ProgState) (text : CStr) : SynTree → ProgState → ParseResult → Prop
  | intro {input : CStr} {n : ℕ} {d : Conf κ NonTerm FrontState GrammarState Yystype}
      {last doc : SynTree} (hscan : yyScanString text = some input)
      (hrun : (yyparser T).treesUpTo n
        (Parser.init (s.front.install input) s.grammar.install) []
          = some ((d, .accept), [last, doc])) (herrors : d.errors = 0) :
      ParsesTo s text doc ⟨d.lex, d.vars⟩ (parseResult d.lex d.vars)

variable {s t : ProgState} {text : CStr} {out : ParseResult} {doc : SynTree}

theorem ParsesTo.parses (hT : T.Sound grammar yyError) (h : ParsesTo T s text doc t out) :
    Parses T s text .accept 0 t out := by
  cases h with
  | intro hscan hrun herrors =>
    have hparse := Parses.intro hscan
      (Parser.treesUpTo_built (P := yyparser T) hT hrun herrors (Parser.built_init _ _)).1
    rwa [herrors] at hparse

/-- Every parse without a syntax error that accepts has a tree. -/
theorem Parses.exists_doc (hT : T.Sound grammar yyError) {r : Result} {errors : ℕ}
    (h : Parses T s text r errors t out) (hr : r = .accept) (herrors : errors = 0) :
    ∃ doc, ParsesTo T s text doc t out := by
  cases h with
  | intro hscan hrun =>
    subst hr
    obtain ⟨n, trees, hn⟩ := hrun.treesUpTo []
    obtain ⟨-, hb⟩ := Parser.treesUpTo_built (P := yyparser T) hT hn herrors (Parser.built_init _ _)
    obtain ⟨doc, v, rfl, -⟩ := hb.tree hT (n := .file) rfl (show yyError ≠ 0 by decide)
      (hrun.top_of_accept hT rfl Parser.spelled_nil)
    exact ⟨doc, .intro hscan hn herrors⟩

/-- The tree of a text is unique. -/
theorem ParsesTo.unique (h : ParsesTo T s text doc t out) {doc' : SynTree} {t' : ProgState}
    {out' : ParseResult} (h' : ParsesTo T s text doc' t' out') : doc = doc' ∧ t = t' ∧ out = out' := by
  cases h with
  | intro hscan hrun _ =>
    cases h' with
    | intro hscan' hrun' _ =>
      obtain rfl := Option.some.inj (hscan.symm.trans hscan')
      have heq := Parser.treesUpTo_unique hrun hrun'
      simp only [Prod.mk.injEq, List.cons.injEq, and_true] at heq
      obtain ⟨rfl, -, rfl⟩ := heq
      exact ⟨rfl, rfl, rfl⟩

/-- **A parse without a syntax error** has done what the statements of its syntax tree do. -/
theorem ParsesTo.spec (hT : T.Sound grammar yyError) (h : ParsesTo T s text doc t out) :
    ∃ input, yyScanString text = some input ∧ IsTreeOf (s.front.install input) doc ∧
      t.grammar = (Stmt.execAll (doc.stmts []) s.grammar.install).1 ∧
      out = parseResult t.front t.grammar ∧
      ∃ n more, (handed n (s.front.install input)).map (fun t => (t.1, Yystype.tok t.2))
        = doc.yield ++ more ∧ t.front = yylexCalls n (s.front.install input) := by
  cases h with
  | @intro input n d last doc hscan hrun herrors =>
    obtain ⟨hruns, hb⟩ := Parser.treesUpTo_built (P := yyparser T) hT hrun herrors
      (Parser.built_init _ _)
    obtain ⟨doc', v, htrees, hvalid, hroot, -, hwhole, heval⟩ := hb.tree hT (n := .file) rfl
      (show yyError ≠ 0 by decide) (hruns.top_of_accept hT rfl Parser.spelled_nil)
    obtain rfl : doc = doc' := (List.cons.inj (List.cons.inj htrees).2).1
    obtain ⟨hwhole, hfed⟩ := hwhole herrors
    refine ⟨input, hscan, isTreeOf_of_fed hvalid hwhole hroot hfed, ?_, rfl, ?_⟩
    · rw [← (means hvalid).state (s.grammar.install) rfl]
      exact heval.symm
    · obtain ⟨n, hn, hfront⟩ := handed_of_fed hfed
      exact ⟨n, _, by rw [hn, List.append_assoc], hfront.symm⟩

/-- **Every parse** has done what some statements do, which are those of trees of what it has been
fed. -/
theorem Parses.exists_trees (hT : T.Sound grammar yyError) {r : Result} {errors : ℕ}
    (h : Parses T s text r errors t out) : ∃ input trees, yyScanString text = some input ∧
      (∀ tree ∈ trees, tree.Valid grammar yyError) ∧
      t.grammar = (Stmt.execAll (Tree.stmtsEach trees []).flatten s.grammar.install).1 ∧
      out = parseResult t.front t.grammar ∧
      ∃ n, (Tree.yieldAll trees).Sublist
          ((handed n (s.front.install input)).map fun t => (t.1, Yystype.tok t.2)) ∧
        t.front = yylexCalls n (s.front.install input) := by
  cases h with
  | @intro input d r hscan hrun =>
    obtain ⟨trees, hb⟩ := hrun.built hT (Parser.built_init _ _)
    have hvalid : ∀ tree ∈ trees.reverse, tree.Valid grammar yyError :=
      fun tree htree => hb.valid tree (List.mem_reverse.mp htree)
    refine ⟨input, trees.reverse, hscan, hvalid, ?_, rfl, ?_⟩
    · rw [← evalAll_state (fun tree htree => means (hvalid tree htree)) s.grammar.install rfl]
      exact (congrArg Prod.fst hb.eval).symm
    · obtain ⟨tokens, hfed, hsub⟩ := hb.fed
      obtain ⟨n, hn, hfront⟩ := handed_of_fed hfed
      refine ⟨n, ?_, hfront.symm⟩
      rw [hn]
      exact (List.sublist_append_left _ _).trans hsub

end Parses

end TaskjugglerLsp
