import TaskjugglerLsp.Grammar.Meaning
import TaskjugglerLsp.Lexer.Placement

/-!
# How statements are spelled

The tokens that a statement is made of, in the order of the text: its keyword, its id, the bangs and
the segments of a reference, and the braces around its body.  Between two statements there may be
other tokens.

* `Stmt.Spells`: the tokens of a statement.
* `spelled`: the statements of a syntax tree are spelled by its tokens.
-/

namespace TaskjugglerLsp

open Lib.Lr

/-! ### Tokens of statements -/

/-- A body between braces, or none. -/
inductive InBody (inner : List Token → Prop) (empty : Prop) (stop : LspPos) : List Token → Prop
  | none (hempty : empty) (hstop : stop = ⟨0, 0⟩) : InBody inner empty stop []
  | braces {l r : Token} {ts : List Token} (hl : l.kind = tkLbrace) (hr : r.kind = tkRbrace)
      (hinner : inner ts) (hstop : stop = r.stop) : InBody inner empty stop (l :: (ts ++ [r]))

/-- A token that may be left out, among others. -/
def Lists (tok : Token) (ts : List Token) : Prop :=
  tok = Token.zero ∨ (tok ∈ ts ∧ tok.text.isSome = true ∧ tok.kind ≠ tkRbrace)

/-- The tokens of a path: the segments, with dots between them. -/
structure IsPath (segs path : List Token) : Prop where
  segs_eq : path.filter (fun t => t.kind != tkDot) = segs
  head_eq : path.head? = segs.head?
  last_eq : path.getLast? = segs.getLast?
  ne_nil : segs ≠ []
  kinds : ∀ t ∈ path, t.kind = tkDot ∨ t.kind = tkIdent ∨ t.kind = kw "start"

namespace Stmt

mutual

/-- **The tokens of a statement**; in a `lossy` parse a body may not be closed. -/
def Spells (lossy : Bool) : Stmt → List Token → Prop
  | reset, _ => True
  | top item, ts => SpellsAll lossy item ts
  | project kw id _ body stop, ts => ∃ mid tail, ts = kw :: (mid ++ tail) ∧ kw.kind = kwProject ∧
      Lists id mid ∧ InBody (SpellsAll lossy body) (body = []) stop tail
  | symbol kw id _ body stop, ts => ∃ mid tail, ts = kw :: (mid ++ tail) ∧
      kw.kind ∈ [kwTask, kwResource, kwAccount] ∧ Lists id mid ∧
      InBody (SpellsAll lossy body) (body = []) stop tail
  | declare kw id _ body stop, ts => ∃ mid tail, ts = kw :: (mid ++ tail) ∧
      kw.kind ∉ [kwProject, kwTask, tkRbrace] ∧ Lists id mid ∧
      InBody (SpellsAll lossy body) (body = []) stop tail
  | kind _, _ => True
  | ref bangs segs body, ts => ∃ path tail stop, ts = bangs ++ path ++ tail ∧
      (∀ t ∈ bangs, t.kind = tkBang) ∧ IsPath segs path ∧
      InBody (SpellsAll lossy body) (body = []) stop tail
  | startDate date, ts => ∃ kw, ts = [kw, date]
  | endDate date, ts => ∃ kw, ts = [kw, date]
  | pref _ _, _ => True
  | incl file body, ts => ∃ kw tail stop, ts = kw :: file :: tail ∧ file.text.isSome = true ∧
      InBody (SpellsAll lossy body) (body = []) stop tail
  | block body, ts => SpellsAll lossy body ts
  | opened _ _ _, _ => lossy = true
  | included, _ => lossy = true

/-- The tokens of statements, and others between them. -/
def SpellsAll (lossy : Bool) : List Stmt → List Token → Prop
  | [], _ => True
  | st :: sts, ts => ∃ gap own rest, ts = gap ++ own ++ rest ∧ Spells lossy st own ∧ SpellsAll lossy sts rest

end

variable {lossy : Bool}

theorem SpellsAll.gap {sts : List Stmt} {ts : List Token} (h : SpellsAll lossy sts ts)
    (before after : List Token) : SpellsAll lossy sts (before ++ ts ++ after) := by
  induction sts generalizing before ts with
  | nil => exact trivial
  | cons st sts ih =>
    obtain ⟨gap, own, rest, rfl, hst, hrest⟩ := h
    refine ⟨before ++ gap, own, rest ++ after, by simp, hst, ?_⟩
    exact ih hrest []

theorem SpellsAll.append {sts more : List Stmt} {ts us : List Token} (h : SpellsAll lossy sts ts)
    (h' : SpellsAll lossy more us) : SpellsAll lossy (sts ++ more) (ts ++ us) := by
  induction sts generalizing ts with
  | nil => simpa using h'.gap ts []
  | cons st sts ih =>
    obtain ⟨gap, own, rest, rfl, hst, hrest⟩ := h
    exact ⟨gap, own, rest ++ us, by simp, hst, ih hrest⟩

theorem SpellsAll.mem {sts : List Stmt} {ts : List Token} (h : SpellsAll lossy sts ts) {st : Stmt}
    (hst : st ∈ sts) : ∃ us, Spells lossy st us := by
  induction sts generalizing ts with
  | nil => cases hst
  | cons c sts ih =>
    obtain ⟨gap, own, rest, -, hc, hrest⟩ := h
    rcases List.mem_cons.mp hst with rfl | hst
    · exact ⟨own, hc⟩
    · exact ih hrest hst

theorem Spells.mem {st c : Stmt} {ts : List Token} (h : Spells lossy st ts) (hc : c ∈ st.body) :
    ∃ us, Spells lossy c us := by
  have hbody {sts : List Stmt} {stop : LspPos} {us : List Token}
      (h : InBody (SpellsAll lossy sts) (sts = []) stop us) (hst : c ∈ sts) :
      ∃ us, Spells lossy c us := by
    cases h with
    | none hempty =>
      rw [hempty] at hst
      cases hst
    | braces _ _ hinner => exact hinner.mem hst
  cases st with
  | top => exact SpellsAll.mem h hc
  | project | symbol | declare =>
    obtain ⟨_, _, -, -, -, h⟩ := h
    exact hbody h hc
  | ref =>
    obtain ⟨_, _, _, -, -, -, h⟩ := h
    exact hbody h hc
  | incl =>
    obtain ⟨_, _, _, -, -, h⟩ := h
    exact hbody h hc
  | block => exact SpellsAll.mem h hc
  | _ => cases hc

theorem spellsAll_singleton {st : Stmt} {ts : List Token} (h : Spells lossy st ts) :
    SpellsAll lossy [st] ts := ⟨[], ts, [], by simp, h, trivial⟩

end Stmt

/-! ### Tokens of trees -/

namespace Lib.Lr.Tree

/-- The tokens of a tree that have a span. -/
def toks (t : SynTree) : List Token :=
  (t.yield.filter fun x => hasSpan x.1).map fun x => x.2.asTok

/-- The tokens of some trees. -/
def toksAll (ts : List SynTree) : List Token := ts.flatMap toks

theorem toksAll_eq (ts : List SynTree) :
    ((yieldAll ts).filter fun x => hasSpan x.1).map (fun x => x.2.asTok) = toksAll ts := by
  induction ts with
  | nil => rfl
  | cons t ts ih =>
    rw [yieldAll, List.filter_append, List.map_append, ih]
    rfl

theorem toks_node (p : Production NonTerm SemAction) (children : List SynTree) :
    (.node p children : SynTree).toks = toksAll children := by
  unfold toks
  rw [yield]
  exact toksAll_eq children

theorem toks_lost (k : ℕ) (v : Yystype) (parts : List SynTree) :
    (.lost k v parts : SynTree).toks = toksAll parts := by
  unfold toks
  rw [yield]
  exact toksAll_eq parts

theorem toks_leaf {k : ℕ} (hk : hasSpan k = true) (v : Yystype) :
    (.leaf k v : SynTree).toks = [v.asTok] := by
  unfold toks
  rw [yield, List.filter_singleton, hk]
  rfl

end Lib.Lr.Tree

/-- A token that the lexer hands over. -/
structure TokenOk (x : ℕ × Yystype) : Prop where
  kind : x.2.asTok.kind = x.1
  text : hasText x.1 = true → x.2.asTok.text.isSome = true

/-! ### The productions again -/

/-- The nonterminals of single tokens, with these. -/
def singles : List (NonTerm × List ℕ) :=
  [(.symKw, [kwTask, kwResource, kwAccount]), (.stringVal, [tkStr, tkMultiLineStr]),
    (.reportKw, ["taskreport", "resourcereport", "accountreport", "textreport", "tracereport",
      "export", "statussheetreport", "timesheetreport"].map kw)]

theorem productions_single : ∀ p ∈ grammar.productions, ∀ n ∈ singles, p.lhs = n.1 →
    p.action.code = .default ∧ ∃ k ∈ n.2, p.rhs = [.tok k] ∧ k ≠ yyError ∧ hasText k = true ∧
      (n.1 = .reportKw → k ≠ kwProject ∧ k ≠ kwTask ∧ k ≠ tkRbrace) := by
  decide +kernel

theorem productions_optId : ∀ p ∈ grammar.productions, p.lhs = .optId →
    (p.action.code = .emptyToken ∧ p.rhs = []) ∨ (p.action.code = .default ∧
      ∃ k ∈ [tkIdent, kw "start"], p.rhs = [.tok k] ∧ k ≠ yyError ∧ hasText k = true) := by
  decide +kernel

/-- The terminals of the statements that are looked at. -/
def ActionCode.Terminals : ActionCode → List (Symbol NonTerm) → Prop
  | startDate, rhs => rhs = [.tok (kw "start"), .tok tkDate]
  | endDate, rhs => rhs = [.tok (kw "end"), .tok tkDate]
  | projectDecl, rhs => rhs.head? = some (.tok kwProject)
  | declare id _ body, rhs =>
    (∀ X ∈ rhs.head?, X = .nt .reportKw ∨ ∃ k ∈ ["shift", "icalreport", "nikureport", "navigator",
        "scenario", "timesheet", "statussheet", "tagfile", "journalentry"].map kw, X = .tok k) ∧
      1 < body ∧ ∀ i ∈ id, 1 < i ∧ i < body ∧
        (rhs[i - 1]? = some (.nt .optId) ∨ rhs[i - 1]? = some (.tok tkIdent))
  | closeInclude, rhs => rhs.head? = some (.tok kwInclude)
  | closeBody, rhs => rhs = [.tok tkLbrace, .nt .bodyItems, .tok tkRbrace]
  | _, _ => True

instance : ∀ (code : ActionCode) (rhs : List (Symbol NonTerm)), Decidable (code.Terminals rhs)
  | .startDate, rhs | .endDate, rhs | .closeBody, rhs => inferInstanceAs (Decidable (rhs = _))
  | .projectDecl, rhs | .closeInclude, rhs => inferInstanceAs (Decidable (rhs.head? = _))
  | .declare _ _ _, _ => inferInstanceAs (Decidable ((∀ _ ∈ _, _ ∨ ∃ _ ∈ _, _) ∧ _ ∧ ∀ _ ∈ _, _))
  | .default, _ | .resetSymStack, _ | .routeItem, _ | .itemSym, _ | .itemPlain, _
  | .setPrefix _, _ | .pendingDepKind _, _ | .openSymbol, _ | .closeSymbol, _ | .openInclude, _
  | .emptyToken, _ | .prefixSegment, _ | .prefixPath, _ | .noBangs, _ | .countBang, _
  | .depSegment, _ | .depPath, _ | .taskRef, _ | .depRef, _ | .emptyBody, _ | .bodyItem, _
  | .keepBody, _ => isTrue trivial

theorem productions_terminals : ∀ p ∈ grammar.productions, p.action.code.Terminals p.rhs := by
  decide +kernel

theorem keyword_kinds : ∀ k ∈ ["shift", "icalreport", "nikureport", "navigator", "scenario",
    "timesheet", "statussheet", "tagfile", "journalentry"].map kw,
    k ≠ kwProject ∧ k ≠ kwTask ∧ k ≠ tkRbrace ∧ k ≠ yyError ∧ hasSpan k = true := by
  decide +kernel

theorem productions_open : ∀ p ∈ grammar.productions,
    some .midSymbol ∈ p.rhs.map Symbol.nonterm ∨ some .midInclude ∈ p.rhs.map Symbol.nonterm →
      p.action.code = .closeSymbol ∨ p.action.code = .closeInclude := by decide +kernel

/-! ### Trees of tokens -/

section Trees

variable {t : SynTree} (ht : t.Valid grammar yyError)

include ht

theorem exists_single {n : NonTerm × List ℕ} (hn : n ∈ singles) (hroot : t.root = .nt n.1) :
    ∃ p k v, t = .node p [.leaf k v] ∧ k ∈ n.2 ∧ hasText k = true ∧ t.static = v ∧
      t.toks = [v.asTok] ∧ (n.1 = .reportKw → k ≠ kwProject ∧ k ≠ kwTask ∧ k ≠ tkRbrace) := by
  obtain ⟨p, children, rfl, hp, hlhs, hroots, hall⟩ := exists_node ht hroot
  obtain ⟨hcode, k, hk, hrhs, herror, htext, hreport⟩ := productions_single p hp n hn hlhs
  rw [hrhs] at hroots
  obtain ⟨l, rest, rfl, hl, hnil⟩ := List.map_eq_cons_iff.mp hroots
  obtain rfl := List.map_eq_nil_iff.mp hnil
  obtain ⟨v, rfl⟩ := exists_leaf (hall l (by simp)) hl herror
  refine ⟨p, k, v, rfl, hk, htext, ?_, ?_, hreport⟩
  · rw [Tree.static, hcode]
    rfl
  · rw [Tree.toks_node, Tree.toksAll, List.flatMap_singleton,
      Tree.toks_leaf (hasSpan_of_hasText htext)]

theorem lists_optId (hroot : t.root = .nt .optId)
    (hok : ∀ x ∈ t.yield, hasSpan x.1 = true → TokenOk x) : Lists t.static.asTok t.toks := by
  obtain ⟨p, children, rfl, hp, hlhs, hroots, hall⟩ := exists_node ht hroot
  rcases productions_optId p hp hlhs with ⟨hcode, -⟩ | ⟨hcode, k, hk, hrhs, herror, htext⟩
  · left
    rw [Tree.static, hcode]
    rfl
  · rw [hrhs] at hroots
    obtain ⟨l, rest, rfl, hl, hnil⟩ := List.map_eq_cons_iff.mp hroots
    obtain rfl := List.map_eq_nil_iff.mp hnil
    obtain ⟨v, rfl⟩ := exists_leaf (hall l (by simp)) hl herror
    have hspan := hasSpan_of_hasText htext
    have hstatic : (.node p [.leaf k v] : SynTree).static = v := by
      rw [Tree.static, hcode]
      rfl
    rw [hstatic, Tree.toks_node, Tree.toksAll, List.flatMap_singleton, Tree.toks_leaf hspan]
    have hvok : TokenOk (k, v) := by
      refine hok (k, v) ?_ hspan
      rw [Tree.yield, Tree.yieldAll, Tree.yieldAll, Tree.yield]
      exact List.mem_singleton.mpr rfl
    have hkinds : ∀ k ∈ [tkIdent, kw "start"], k ≠ tkRbrace := by decide
    refine .inr ⟨List.mem_singleton.mpr rfl, hvok.text htext, ?_⟩
    rw [hvok.kind]
    exact hkinds k hk

theorem bangSeq_yield (hroot : t.root = .nt .bangSeq) : ∀ x ∈ t.yield, x.1 = tkBang := by
  induction ht with
  | leaf => cases hroot
  | lost => cases hroot
  | @node p children hp hroots hall ih =>
    obtain ⟨hbang, -, hcode, -⟩ := productions_ref p hp
    rcases hcode (Symbol.nt.inj hroot) with hnone | hone
    · have hshape := productions_shape p hp
      rw [hnone] at hshape
      obtain rfl : children = [] := by
        rw [List.map_eq_nil_iff.mp hshape.2] at hroots
        exact List.map_eq_nil_iff.mp hroots
      exact fun x hx => by cases hx
    · rw [hbang hone] at hroots
      obtain ⟨b, rest, rfl, hb, hrest⟩ := List.map_eq_cons_iff.mp hroots
      obtain ⟨l, rest, rfl, hl, hnil⟩ := List.map_eq_cons_iff.mp hrest
      obtain rfl := List.map_eq_nil_iff.mp hnil
      obtain ⟨v, rfl⟩ := exists_leaf (hall l (by simp)) hl (by decide)
      rw [Tree.yield, Tree.yieldAll, Tree.yieldAll, Tree.yieldAll, Tree.yield, List.append_nil,
        List.forall_mem_append]
      exact ⟨ih b (by simp) hb, fun x hx => by rw [List.mem_singleton.mp hx]⟩

omit ht in
/-- The tokens of a path: dots, and segments at the begin and at the end. -/
structure PathYield (xs : List (ℕ × Yystype)) : Prop where
  kinds : ∀ x ∈ xs, x.1 = tkDot ∨ x.1 = tkIdent ∨ x.1 = kw "start"
  head : ∀ x ∈ xs.head?, x.1 ≠ tkDot
  last : ∀ x ∈ xs.getLast?, x.1 ≠ tkDot
  ne_nil : xs ≠ []

theorem depPathSeg_yield (hroot : t.root = .nt .depPathSeg) : PathYield t.yield := by
  obtain ⟨p, children, rfl, hp, hlhs, hroots, hall⟩ := exists_node ht hroot
  obtain ⟨-, hrhs⟩ := (productions_ref p hp).2.2.2.2.2 hlhs
  obtain ⟨k, hk, hkinds, herror⟩ : ∃ k, p.rhs = [.tok k] ∧ (k = tkIdent ∨ k = kw "start") ∧
      k ≠ yyError := by
    rcases hrhs with hrhs | hrhs
    · exact ⟨_, hrhs, .inl rfl, by decide⟩
    · exact ⟨_, hrhs, .inr rfl, by decide +kernel⟩
  have hdot : k ≠ tkDot := by
    rcases hkinds with rfl | rfl
    · decide
    · decide +kernel
  rw [hk] at hroots
  obtain ⟨l, rest, rfl, hl, hnil⟩ := List.map_eq_cons_iff.mp hroots
  obtain rfl := List.map_eq_nil_iff.mp hnil
  obtain ⟨v, rfl⟩ := exists_leaf (hall l (by simp)) hl herror
  rw [Tree.yield, Tree.yieldAll, Tree.yieldAll, Tree.yield]
  refine ⟨?_, ?_, ?_, by simp⟩
  · intro x hx
    rw [List.mem_singleton.mp hx]
    exact .inr hkinds
  · rintro x ⟨rfl⟩
    exact hdot
  · rintro x ⟨rfl⟩
    exact hdot

theorem depPath_yield (hroot : t.root = .nt .depPath) : PathYield t.yield := by
  induction ht with
  | leaf => cases hroot
  | lost => cases hroot
  | @node p children hp hroots hall ih =>
    obtain ⟨-, hpath, -, hcode, -⟩ := productions_ref p hp
    rcases hcode (Symbol.nt.inj hroot) with hone | hmore
    · have hshape := productions_shape p hp
      rw [hone] at hshape
      have hkids := hshape.2
      rw [← hroots, List.map_map] at hkids
      obtain ⟨c, rest, rfl, hc, hnil⟩ := List.map_eq_cons_iff.mp hkids
      obtain rfl := List.map_eq_nil_iff.mp hnil
      rw [Tree.yield, Tree.yieldAll, Tree.yieldAll, List.append_nil]
      exact depPathSeg_yield (hall c (by simp)) (root_of_nonterm hc)
    · rw [hpath hmore] at hroots
      obtain ⟨a, rest, rfl, ha, hrest⟩ := List.map_eq_cons_iff.mp hroots
      obtain ⟨d, rest, rfl, hd, hrest⟩ := List.map_eq_cons_iff.mp hrest
      obtain ⟨c, rest, rfl, hc, hnil⟩ := List.map_eq_cons_iff.mp hrest
      obtain rfl := List.map_eq_nil_iff.mp hnil
      obtain ⟨w, rfl⟩ := exists_leaf (hall d (by simp)) hd (by decide)
      have hfirst := ih a (by simp) ha
      have hlast := depPathSeg_yield (hall c (by simp)) hc
      rw [Tree.yield, Tree.yieldAll, Tree.yieldAll, Tree.yieldAll, Tree.yieldAll, Tree.yield,
        List.append_nil]
      refine ⟨?_, ?_, ?_, by simp⟩
      · rw [List.forall_mem_append, List.forall_mem_append]
        exact ⟨hfirst.kinds, fun x hx => by rw [List.mem_singleton.mp hx]; exact .inl rfl,
          hlast.kinds⟩
      · rw [List.head?_append_of_ne_nil _ hfirst.ne_nil]
        exact hfirst.head
      · rw [← List.append_assoc, List.getLast?_append_of_ne_nil _ hlast.ne_nil]
        exact hlast.last

omit ht in
theorem PathYield.isPath {xs : List (ℕ × Yystype)} (h : PathYield xs)
    (hok : ∀ x ∈ xs, hasSpan x.1 = true → TokenOk x) :
    IsPath ((xs.filter fun x => x.1 != tkDot).map fun x => x.2.asTok)
      ((xs.filter fun x => hasSpan x.1).map fun x => x.2.asTok) := by
  have hstart : hasSpan (kw "start") = true := by decide +kernel
  have hspan : ∀ x ∈ xs, hasSpan x.1 = true := by
    intro x hx
    rcases h.kinds x hx with hk | hk | hk <;> rw [hk]
    · rfl
    · rfl
    · exact hstart
  have hall : xs.filter (fun x => hasSpan x.1) = xs := List.filter_eq_self.mpr hspan
  have hkind : ∀ x ∈ xs, x.2.asTok.kind = x.1 := fun x hx => (hok x hx (hspan x hx)).kind
  have hsegs : (xs.map fun x => x.2.asTok).filter (fun t => t.kind != tkDot)
      = (xs.filter fun x => x.1 != tkDot).map fun x => x.2.asTok := by
    rw [List.filter_map]
    refine congrArg _ (List.filter_congr fun x hx => ?_)
    show (x.2.asTok.kind != tkDot) = _
    rw [hkind x hx]
  obtain ⟨first, rest, rfl⟩ := List.exists_cons_of_ne_nil h.ne_nil
  have hfirst : (first.1 != tkDot) = true := bne_iff_ne.mpr (h.head first rfl)
  rw [hall]
  refine ⟨hsegs, ?_, ?_, ?_, ?_⟩
  · rw [List.filter_cons, if_pos hfirst]
    rfl
  · obtain ⟨front, last, hlast⟩ : ∃ front last, first :: rest = front ++ [last] :=
      ⟨_, _, (List.dropLast_concat_getLast h.ne_nil).symm⟩
    have hne : (last.1 != tkDot) = true := bne_iff_ne.mpr (h.last last (by rw [hlast]; simp))
    rw [hlast, List.filter_append, List.filter_singleton, hne, List.map_append, List.map_append]
    simp
  · rw [List.filter_cons, if_pos hfirst]
    exact List.cons_ne_nil _ _
  · intro t ht
    obtain ⟨x, hx, rfl⟩ := List.mem_map.mp ht
    rw [hkind x hx]
    exact h.kinds x hx

end Trees

/-! ### The statements of a tree -/

/-- The statements of a tree are spelled by its tokens, and so is a body. -/
structure Spelled (lossy : Bool) (t : SynTree) : Prop where
  all (below : List Yystype) : Stmt.SpellsAll lossy (t.stmts below) t.toks
  body (hroot : t.root = .nt .optBody) (below : List Yystype) :
    InBody (Stmt.SpellsAll lossy (unblock (t.stmts below))) (unblock (t.stmts below) = [])
      t.static.asBody.stop t.toks

variable {lossy : Bool}

theorem spellsAll_flatten {ts : List SynTree} (hts : ∀ t ∈ ts, Spelled lossy t)
    (below : List Yystype) : Stmt.SpellsAll lossy (Tree.stmtsEach ts below).flatten (Tree.toksAll ts) := by
  induction ts generalizing below with
  | nil => exact trivial
  | cons t ts ih =>
    obtain ⟨ht, hts⟩ := List.forall_mem_cons.mp hts
    rw [Tree.stmtsEach, List.flatten_cons, Tree.toksAll, List.flatMap_cons]
    exact (ht.all below).append (ih hts _)

section Nodes

variable {p : Production NonTerm SemAction} {children : List SynTree}
  (hp : p ∈ grammar.productions) (hroots : children.map Tree.root = p.rhs)
  (hvalid : ∀ t ∈ children, t.Valid grammar yyError)
  (hspelled : ∀ t ∈ children,
    (lossy = false → t.root ≠ .nt .midSymbol ∧ t.root ≠ .nt .midInclude) → Spelled lossy t)
  (hok : ∀ x ∈ Tree.yieldAll children, hasSpan x.1 = true → TokenOk x)

include hp hroots hspelled in
theorem spelled_children (hcode : p.action.code ≠ .closeSymbol ∧ p.action.code ≠ .closeInclude) :
    ∀ t ∈ children, Spelled lossy t := by
  intro t ht
  have hmem {n : NonTerm} (hn : t.root = .nt n) : some n ∈ p.rhs.map Symbol.nonterm :=
    nonterm_mem hroots ht (by rw [hn]; rfl)
  refine hspelled t ht fun _ => ⟨fun hroot => ?_, fun hroot => ?_⟩
  · rcases productions_open p hp (.inl (hmem hroot)) with h | h
    · exact hcode.1 h
    · exact hcode.2 h
  · rcases productions_open p hp (.inr (hmem hroot)) with h | h
    · exact hcode.1 h
    · exact hcode.2 h

theorem spelled_node (hlhs : p.lhs ≠ .optBody)
    (hall : ∀ below, Stmt.SpellsAll lossy ((.node p children : SynTree).stmts below)
      (Tree.toksAll children)) : Spelled lossy (.node p children) where
  all below := by
    rw [Tree.toks_node]
    exact hall below
  body hroot := absurd (Symbol.nt.inj hroot) hlhs

theorem toksAll_mem {children : List SynTree} {t : SynTree} (ht : t ∈ children) {x : Token} (hx : x ∈ t.toks) :
    x ∈ Tree.toksAll children := List.mem_flatMap.mpr ⟨t, ht, hx⟩

include hp hroots hspelled in
theorem spelled_value (hcode : p.action.code ∈ valueCodes)
    (hbody : p.lhs = .optBody → p.action.code = .emptyBody ∧ children = []) :
    Spelled lossy (.node p children) := by
  have hchildren := spelled_children hp hroots hspelled ⟨fun h => by
    rw [h] at hcode
    exact absurd hcode (by decide), fun h => by
    rw [h] at hcode
    exact absurd hcode (by decide)⟩
  constructor
  · intro below
    rw [Tree.stmts, nodeStmts_value hcode, Tree.toks_node]
    exact spellsAll_flatten hchildren below
  · intro hroot below
    obtain ⟨hempty, rfl⟩ := hbody (Symbol.nt.inj hroot)
    rw [Tree.stmts, nodeStmts_value hcode, Tree.static, hempty]
    exact .none rfl rfl

theorem toksAll_decl {v : Yystype} {first b : SynTree} (mid : List SynTree)
    (hfirst : first.toks = [v.asTok]) : Tree.toksAll (first :: (mid ++ [b]))
      = v.asTok :: (Tree.toksAll mid ++ b.toks) := by
  rw [Tree.toksAll, List.flatMap_cons, List.flatMap_append, hfirst, List.flatMap_singleton]
  rfl

theorem Lists.mono {tok : Token} {ts us : List Token} (h : Lists tok ts) (hsub : ts ⊆ us) :
    Lists tok us := h.imp_right fun hmem => ⟨hsub hmem.1, hmem.2⟩

include hok in
theorem ok_child {t : SynTree} (ht : t ∈ children) :
    ∀ x ∈ t.yield, hasSpan x.1 = true → TokenOk x := fun x hx => hok x (Tree.mem_yieldAll.mpr ⟨t, ht, hx⟩)

include hok in
theorem ok_leaf {k : ℕ} {v : Yystype} (ht : .leaf k v ∈ children) (hk : hasSpan k = true) :
    TokenOk (k, v) := by
  refine ok_child hok ht (k, v) ?_ hk
  rw [Tree.yield]
  exact List.mem_singleton.mpr rfl

include hok in
theorem ok_single {q : Production NonTerm SemAction} {k : ℕ} {v : Yystype}
    (ht : .node q [.leaf k v] ∈ children) (hk : hasSpan k = true) : TokenOk (k, v) := by
  refine ok_child hok ht (k, v) ?_ hk
  rw [Tree.yield, Tree.yieldAll, Tree.yieldAll, Tree.yield]
  exact List.mem_singleton.mpr rfl

include hp hroots hvalid hspelled hok

theorem spelled_projectDecl (hcode : p.action.code = .projectDecl) :
    Spelled lossy (.node p children) := by
  have hshape := productions_shape p hp
  have hterm := productions_terminals p hp
  rw [hcode] at hshape hterm
  obtain ⟨hlhs, hrhs⟩ := hshape
  have hchildren := spelled_children hp hroots hspelled (by rw [hcode]; exact ⟨nofun, nofun⟩)
  have hkids := roots_nonterm hroots
  rw [hrhs] at hkids
  obtain ⟨c1, rest, rfl, -, hrest⟩ := List.map_eq_cons_iff.mp hkids
  obtain ⟨c2, rest, rfl, h2, hrest⟩ := List.map_eq_cons_iff.mp hrest
  obtain ⟨c3, rest, rfl, -, hrest⟩ := List.map_eq_cons_iff.mp hrest
  obtain ⟨c4, rest, rfl, -, hrest⟩ := List.map_eq_cons_iff.mp hrest
  obtain ⟨c5, rest, rfl, -, hrest⟩ := List.map_eq_cons_iff.mp hrest
  obtain ⟨c6, rest, rfl, h6, hnil⟩ := List.map_eq_cons_iff.mp hrest
  obtain rfl := List.map_eq_nil_iff.mp hnil
  have hterm : p.rhs.head? = some (.tok kwProject) := hterm
  rw [← hroots] at hterm
  obtain ⟨v, rfl⟩ := exists_leaf (hvalid c1 (by simp)) (Option.some.inj hterm) (by decide)
  have hreach := reach_of_ne_nil hp (fun hnil => by rw [hnil] at hrhs; cases hrhs)
  refine spelled_node (by rw [hlhs]; nofun) fun below => ?_
  rw [Tree.stmts, hcode, ← staticArgs, staticArgs_of_reach hroots hreach]
  refine Stmt.spellsAll_singleton ⟨Tree.toksAll [c2, c3, c4, c5], c6.toks, ?_, ?_, ?_, ?_⟩
  · exact toksAll_decl [c2, c3, c4, c5] (Tree.toks_leaf (by decide) v)
  · exact (ok_leaf hok (k := kwProject) (v := v) (by simp) (by decide)).kind
  · refine (lists_optId (hvalid c2 (by simp)) (root_of_nonterm h2)
      (ok_child hok (by simp))).mono fun x hx => ?_
    have hmem : x ∈ Tree.toksAll [c2, c3, c4, c5] := toksAll_mem (by simp) hx
    exact hmem
  · exact (hchildren c6 (by simp)).body (root_of_nonterm h6) _

theorem spelled_closeSymbol (hcode : p.action.code = .closeSymbol) :
    Spelled lossy (.node p children) := by
  have hshape := productions_shape p hp
  rw [hcode] at hshape
  obtain ⟨hlhs, hrhs⟩ := hshape
  have hkids := roots_nonterm hroots
  rw [hrhs] at hkids
  obtain ⟨c1, rest, rfl, h1, hrest⟩ := List.map_eq_cons_iff.mp hkids
  obtain ⟨c2, rest, rfl, h2, hrest⟩ := List.map_eq_cons_iff.mp hrest
  obtain ⟨c3, rest, rfl, -, hrest⟩ := List.map_eq_cons_iff.mp hrest
  obtain ⟨c4, rest, rfl, -, hrest⟩ := List.map_eq_cons_iff.mp hrest
  obtain ⟨c5, rest, rfl, h5, hnil⟩ := List.map_eq_cons_iff.mp hrest
  obtain rfl := List.map_eq_nil_iff.mp hnil
  obtain ⟨q, k, v, rfl, hk, htext, hstatic, htoks, -⟩ :=
    exists_single (hvalid c1 (by simp)) (n := (.symKw, [kwTask, kwResource, kwAccount]))
      (by simp [singles]) (root_of_nonterm h1)
  have hroot5 := root_of_nonterm h5
  have hreach := reach_of_ne_nil hp (fun hnil => by rw [hnil] at hrhs; cases hrhs)
  refine spelled_node (by rw [hlhs]; intro h; cases h) fun below => ?_
  rw [Tree.stmts, hcode, ← staticArgs, staticArgs_of_reach hroots hreach]
  refine Stmt.spellsAll_singleton ⟨Tree.toksAll [c2, c3, c4], c5.toks, ?_, ?_, ?_, ?_⟩
  · rw [Tree.staticEach, hstatic]
    exact toksAll_decl [c2, c3, c4] htoks
  · rw [Tree.staticEach, hstatic]
    show v.asTok.kind ∈ _
    rw [(ok_single hok (q := q) (k := k) (v := v) (by simp) (hasSpan_of_hasText htext)).kind]
    exact hk
  · refine (lists_optId (hvalid c2 (by simp)) (root_of_nonterm h2)
      (ok_child hok (by simp))).mono fun x hx => ?_
    have hmem : x ∈ Tree.toksAll [c2, c3, c4] := toksAll_mem (by simp) hx
    exact hmem
  · exact (hspelled c5 (by simp) fun _ => by rw [hroot5]; constructor <;> intro h <;> cases h).body hroot5 _

theorem spelled_declare {id name : Option ℕ} {body : ℕ}
    (hcode : p.action.code = .declare id name body) : Spelled lossy (.node p children) := by
  have hshape := productions_shape p hp
  have hterm := productions_terminals p hp
  rw [hcode] at hshape hterm
  obtain ⟨hlhs, hlen, hpos, hlast, -, -, -⟩ := hshape
  obtain ⟨hfirst, hone, hid⟩ := hterm
  have hne : p.rhs ≠ [] := by
    rintro hnil
    rw [hnil] at hlast
    cases hlast
  rw [List.length_map] at hlen
  have hreach := reach_of_ne_nil hp hne
  have hchildren := spelled_children hp hroots hspelled (by rw [hcode]; exact ⟨nofun, nofun⟩)
  have hlength := length_children hroots
  rw [← roots_nonterm hroots] at hlast
  -- the keyword, what is behind it, and the body
  obtain ⟨first, mid, b, rfl⟩ : ∃ first mid b, children = first :: (mid ++ [b]) := by
    rcases List.eq_nil_or_concat children with rfl | ⟨ts, b, rfl⟩
    · cases hlast
    · cases ts with
      | nil =>
        rw [List.concat_eq_append, List.nil_append, List.length_singleton] at hlength
        omega
      | cons first mid => exact ⟨first, mid, b, List.concat_eq_append⟩
  have hbroot : b.root = .nt .optBody := by
    rw [← List.cons_append, List.map_append, List.map_singleton, List.getLast?_concat,
      Option.some.injEq] at hlast
    exact root_of_nonterm hlast
  have hmidlen : body = mid.length + 2 := by
    rw [hlen, ← hlength]
    simp
  obtain ⟨v, htoks, hstatic, hkind⟩ : ∃ v, first.toks = [v.asTok] ∧ first.static = v ∧
      v.asTok.kind ∉ [kwProject, kwTask, tkRbrace] := by
    have hroot : p.rhs.head? = some first.root := by rw [← hroots]; rfl
    rcases hfirst first.root hroot with hreport | ⟨k, hk, htok⟩
    · obtain ⟨q, k, v, rfl, -, htext, hstatic, htoks, hkind⟩ :=
        exists_single (hvalid first (by simp)) (n := (.reportKw, ["taskreport", "resourcereport",
          "accountreport", "textreport", "tracereport", "export", "statussheetreport",
          "timesheetreport"].map kw)) (by simp [singles]) hreport
      refine ⟨v, htoks, hstatic, ?_⟩
      rw [(ok_single hok (q := q) (k := k) (v := v) (by simp) (hasSpan_of_hasText htext)).kind]
      simpa using hkind rfl
    · obtain ⟨hproject, htask, hbrace, herror, hspan⟩ := keyword_kinds k hk
      obtain ⟨v, rfl⟩ := exists_leaf (hvalid first (by simp)) htok herror
      refine ⟨v, Tree.toks_leaf hspan v, rfl, ?_⟩
      rw [(ok_leaf hok (k := k) (v := v) (by simp) hspan).kind]
      simpa using ⟨hproject, htask, hbrace⟩
  refine spelled_node (fun hopt => by rw [hopt] at hlhs; exact absurd hlhs (by decide))
    fun below => ?_
  have hparts : (Tree.stmtsEach (first :: (mid ++ [b])) below).getD (body - 1) []
      = b.stmts ((Tree.staticEach (first :: mid)).reverse ++ below) := by
    rw [hmidlen, ← List.cons_append]
    exact getD_stmtsEach_concat (first :: mid) b below
  have hlastArg : dollar (Tree.staticEach (first :: (mid ++ [b]))) body = b.static := by
    rw [hmidlen, dollar, ← List.cons_append]
    have happend (ts : List SynTree) :
        Tree.staticEach (ts ++ [b]) = Tree.staticEach ts ++ [b.static] := by
      induction ts with
      | nil => rfl
      | cons t ts ih => rw [List.cons_append, Tree.staticEach, ih]; rfl
    rw [happend, List.getD_append_right _ _ _ _ (by rw [length_staticEach]; simp), length_staticEach]
    simp
  rw [Tree.stmts, hcode, ← staticArgs, staticArgs_of_reach hroots hreach]
  refine Stmt.spellsAll_singleton ⟨Tree.toksAll mid, b.toks, ?_, ?_, ?_, ?_⟩
  · rw [Tree.staticEach, hstatic]
    exact toksAll_decl _ htoks
  · rw [Tree.staticEach, hstatic]
    exact hkind
  · cases id with
    | none => exact .inl rfl
    | some i =>
      obtain ⟨hlow, hhigh, hsym⟩ := hid i rfl
      obtain ⟨j, rfl⟩ : ∃ j, i = j + 2 := ⟨i - 2, by omega⟩
      have hj : j < mid.length := by omega
      have hget : (first :: (mid ++ [b]))[j + 1]? = some mid[j] := by
        rw [List.getElem?_cons_succ, List.getElem?_append_left hj, List.getElem?_eq_getElem hj]
      have hroot : p.rhs[j + 2 - 1]? = some mid[j].root := by
        rw [← hroots, List.getElem?_map, show j + 2 - 1 = j + 1 by omega, hget]
        rfl
      have harg : dollar (Tree.staticEach (first :: (mid ++ [b]))) (j + 2) = mid[j].static := by
        have hmap : ∀ ts : List SynTree, Tree.staticEach ts = ts.map Tree.static := by
          intro ts
          induction ts with
          | nil => rfl
          | cons t ts ih => rw [Tree.staticEach, ih]; rfl
        rw [dollar, hmap, List.getD_eq_getElem?_getD, List.getElem?_map,
          show j + 2 - 1 = j + 1 by omega, hget]
        rfl
      have hmem : mid[j] ∈ mid := List.getElem_mem hj
      have hin : mid[j] ∈ first :: (mid ++ [b]) := by simp [hmem]
      show Lists (dollar (Tree.staticEach (first :: (mid ++ [b]))) (j + 2)).asTok _
      rw [harg]
      rw [hroot] at hsym
      rcases hsym with hsym | hsym
      · exact (lists_optId (hvalid _ hin) (Option.some.inj hsym) (ok_child hok hin)).mono
          fun x hx => toksAll_mem hmem hx
      · obtain ⟨w, hw⟩ := exists_leaf (hvalid _ hin) (Option.some.inj hsym) (by decide)
        have hspan : hasSpan tkIdent = true := by decide
        have hwok := ok_leaf hok (k := tkIdent) (v := w) (by rw [← hw]; exact hin) hspan
        refine .inr ⟨toksAll_mem hmem ?_, ?_⟩
        · rw [hw, Tree.toks_leaf hspan]
          exact List.mem_singleton.mpr rfl
        · rw [hw]
          refine ⟨hwok.text (show hasText tkIdent = true by decide), ?_⟩
          show w.asTok.kind ≠ tkRbrace
          rw [hwok.kind]
          exact show tkIdent ≠ tkRbrace by decide
  · show InBody (Stmt.SpellsAll lossy (unblock ((Tree.stmtsEach _ below).getD (body - 1) [])))
      (unblock ((Tree.stmtsEach _ below).getD (body - 1) []) = []) (dollar (Tree.staticEach (first :: (mid ++ [b]))) body).asBody.stop b.toks
    rw [hparts, hlastArg]
    exact (hchildren b (by simp)).body hbroot _

theorem spelled_closeInclude (hcode : p.action.code = .closeInclude) :
    Spelled lossy (.node p children) := by
  have hshape := productions_shape p hp
  have hterm := productions_terminals p hp
  rw [hcode] at hshape hterm
  obtain ⟨hlhs, hrhs⟩ := hshape
  have hterm : p.rhs.head? = some (.tok kwInclude) := hterm
  have hkids := roots_nonterm hroots
  rw [hrhs] at hkids
  obtain ⟨c1, rest, rfl, -, hrest⟩ := List.map_eq_cons_iff.mp hkids
  obtain ⟨c2, rest, rfl, h2, hrest⟩ := List.map_eq_cons_iff.mp hrest
  obtain ⟨c3, rest, rfl, h3, hrest⟩ := List.map_eq_cons_iff.mp hrest
  obtain ⟨c4, rest, rfl, h4, hnil⟩ := List.map_eq_cons_iff.mp hrest
  obtain rfl := List.map_eq_nil_iff.mp hnil
  rw [← hroots] at hterm
  obtain ⟨v, rfl⟩ := exists_leaf (hvalid c1 (by simp)) (Option.some.inj hterm) (by decide)
  obtain ⟨q, k, w, rfl, -, htext, hstatic, htoks, -⟩ :=
    exists_single (hvalid c2 (by simp)) (n := (.stringVal, [tkStr, tkMultiLineStr]))
      (by simp [singles]) (root_of_nonterm h2)
  have hmid : c3.toks = [] := by
    obtain ⟨m, cs, rfl, hm, hmlhs, hmroots, -⟩ :=
      exists_node (hvalid c3 (by simp)) (root_of_nonterm h3)
    rw [(productions_midCode m hm).2.2.2.2.2 (by rw [hmlhs]; decide)] at hmroots
    obtain rfl := List.map_eq_nil_iff.mp hmroots
    rfl
  have hroot4 := root_of_nonterm h4
  have hreach := reach_of_ne_nil hp (fun hnil => by rw [hnil] at hrhs; cases hrhs)
  refine spelled_node (by rw [hlhs]; intro h; cases h) fun below => ?_
  rw [Tree.stmts, hcode, ← staticArgs, staticArgs_of_reach hroots hreach]
  refine Stmt.spellsAll_singleton ⟨v.asTok, c4.toks, c4.static.asBody.stop, ?_, ?_, ?_⟩
  · rw [Tree.staticEach, Tree.staticEach, hstatic, Tree.toksAll, List.flatMap_cons,
      List.flatMap_cons, List.flatMap_cons, List.flatMap_singleton, htoks, hmid,
      Tree.toks_leaf (by decide)]
    rfl
  · rw [Tree.staticEach, Tree.staticEach, hstatic]
    exact (ok_single hok (q := q) (k := k) (v := w) (by simp) (hasSpan_of_hasText htext)).text htext
  · exact (hspelled c4 (by simp) fun _ => by rw [hroot4]; constructor <;> intro h <;> cases h).body hroot4 _

theorem spelled_depRef (hcode : p.action.code = .depRef) : Spelled lossy (.node p children) := by
  have hshape := productions_shape p hp
  rw [hcode] at hshape
  obtain ⟨hlhs, hrhs⟩ := hshape
  have hchildren := spelled_children hp hroots hspelled (by rw [hcode]; exact ⟨nofun, nofun⟩)
  have hkids := roots_nonterm hroots
  rw [hrhs] at hkids
  obtain ⟨r, rest, rfl, hr, hrest⟩ := List.map_eq_cons_iff.mp hkids
  obtain ⟨b, rest, rfl, hb, hnil⟩ := List.map_eq_cons_iff.mp hrest
  obtain rfl := List.map_eq_nil_iff.mp hnil
  -- the reference is a list of bangs and a path
  obtain ⟨q, kids, rfl, hq, hqlhs, hqroots, hqvalid⟩ :=
    exists_node (hvalid r (by simp)) (root_of_nonterm hr)
  have hqshape := productions_shape q hq
  rw [(productions_ref q hq).2.2.2.2.1 hqlhs] at hqshape
  have hqkids := hqshape.2
  rw [← hqroots, List.map_map] at hqkids
  obtain ⟨bangs, rest, rfl, hbangs, hqrest⟩ := List.map_eq_cons_iff.mp hqkids
  obtain ⟨path, rest, rfl, hpath, hqnil⟩ := List.map_eq_cons_iff.mp hqrest
  obtain rfl := List.map_eq_nil_iff.mp hqnil
  have hrok := ok_child hok (t := .node q [bangs, path]) (by simp)
  have hbangsok := ok_child hrok (t := bangs) (by simp)
  have hpathok := ok_child hrok (t := path) (by simp)
  have hbangkinds := bangSeq_yield (hqvalid bangs (by simp)) (root_of_nonterm hbangs)
  have hispath := (depPath_yield (hqvalid path (by simp)) (root_of_nonterm hpath)).isPath hpathok
  have hbangtoks : bangs.toks = bangs.tokensBut tkEol := by
    refine congrArg _ (List.filter_congr fun x hx => ?_)
    rw [hbangkinds x hx]
    rfl
  refine spelled_node (by rw [hlhs]; nofun) fun below => ?_
  rw [Tree.stmts, hcode]
  refine Stmt.spellsAll_singleton ⟨path.toks, b.toks, b.static.asBody.stop, ?_, ?_, hispath, ?_⟩
  · rw [Tree.toksAll, List.flatMap_cons, List.flatMap_singleton, Tree.toks_node, Tree.toksAll,
      List.flatMap_cons, List.flatMap_singleton]
    exact congrArg (· ++ path.toks ++ b.toks) hbangtoks
  · intro t ht
    have ht : t ∈ bangs.tokensBut tkEol := ht
    rw [← hbangtoks] at ht
    obtain ⟨x, hx, rfl⟩ := List.mem_map.mp ht
    obtain ⟨hmem, hspan⟩ := List.mem_filter.mp hx
    rw [(hbangsok x hmem hspan).kind, hbangkinds x hmem]
  · exact (hchildren b (by simp)).body (root_of_nonterm hb) _

theorem spelled_closeBody (hcode : p.action.code = .closeBody) : Spelled lossy (.node p children) := by
  have hterm := productions_terminals p hp
  rw [hcode] at hterm
  have hrhs : p.rhs = [.tok tkLbrace, .nt .bodyItems, .tok tkRbrace] := hterm
  have hchildren := spelled_children hp hroots hspelled (by rw [hcode]; exact ⟨nofun, nofun⟩)
  have hreach := reach_of_ne_nil hp (fun hnil => by rw [hnil] at hrhs; cases hrhs)
  have hkids := hroots
  rw [hrhs] at hkids
  obtain ⟨l, rest, rfl, hl, hrest⟩ := List.map_eq_cons_iff.mp hkids
  obtain ⟨i, rest, rfl, -, hrest⟩ := List.map_eq_cons_iff.mp hrest
  obtain ⟨r, rest, rfl, hr, hnil⟩ := List.map_eq_cons_iff.mp hrest
  obtain rfl := List.map_eq_nil_iff.mp hnil
  obtain ⟨v, rfl⟩ := exists_leaf (hvalid l (by simp)) hl (by decide)
  obtain ⟨w, rfl⟩ := exists_leaf (hvalid r (by simp)) hr (by decide)
  have hv := (ok_leaf hok (k := tkLbrace) (v := v) (by simp) (by decide)).kind
  have hw := (ok_leaf hok (k := tkRbrace) (v := w) (by simp) (by decide)).kind
  have htoks : (.node p [.leaf tkLbrace v, i, .leaf tkRbrace w] : SynTree).toks
      = v.asTok :: (i.toks ++ [w.asTok]) := by
    have hlast : (.leaf tkRbrace w : SynTree).toks = [w.asTok] := Tree.toks_leaf (by decide) w
    have hdecl := toksAll_decl [i] (b := .leaf tkRbrace w)
      (Tree.toks_leaf (k := tkLbrace) (by decide) v)
    rw [Tree.toks_node, show [.leaf tkLbrace v, i, .leaf tkRbrace w]
      = .leaf tkLbrace v :: ([i] ++ [.leaf tkRbrace w]) from rfl, hdecl, hlast, Tree.toksAll,
      List.flatMap_singleton]
  constructor
  · intro below
    rw [Tree.stmts, hcode, htoks]
    exact Stmt.spellsAll_singleton (((hchildren i (by simp)).all _).gap [v.asTok] [w.asTok])
  · intro _ below
    rw [Tree.stmts, Tree.static, hcode, htoks]
    exact .braces hv hw ((hchildren i (by simp)).all _) rfl

theorem spelled_date (hcode : p.action.code = .startDate ∨ p.action.code = .endDate) :
    Spelled lossy (.node p children) := by
  have hshape := productions_shape p hp
  have hterm := productions_terminals p hp
  obtain ⟨k, hrhs, herror, hspan⟩ : ∃ k, p.rhs = [.tok k, .tok tkDate] ∧ k ≠ yyError ∧
      hasSpan k = true := by
    rcases hcode with hcode | hcode <;> rw [hcode] at hterm
    · exact ⟨_, hterm, by decide +kernel⟩
    · exact ⟨_, hterm, by decide +kernel⟩
  have hlhs : p.lhs ≠ .optBody := by
    rcases hcode with hcode | hcode <;> rw [hcode] at hshape <;> rw [hshape.1] <;> nofun
  have hreach := reach_of_ne_nil hp (fun hnil => by rw [hnil] at hrhs; cases hrhs)
  have hkids := hroots
  rw [hrhs] at hkids
  obtain ⟨c, rest, rfl, hc, hrest⟩ := List.map_eq_cons_iff.mp hkids
  obtain ⟨d, rest, rfl, hd, hnil⟩ := List.map_eq_cons_iff.mp hrest
  obtain rfl := List.map_eq_nil_iff.mp hnil
  obtain ⟨v, rfl⟩ := exists_leaf (hvalid c (by simp)) hc herror
  obtain ⟨w, rfl⟩ := exists_leaf (hvalid d (by simp)) hd (by decide)
  have htoks : Tree.toksAll [.leaf k v, .leaf tkDate w] = [v.asTok, w.asTok] := by
    rw [Tree.toksAll, List.flatMap_cons, List.flatMap_singleton, Tree.toks_leaf hspan,
      Tree.toks_leaf (by decide)]
    rfl
  refine spelled_node hlhs fun below => ?_
  rw [Tree.stmts, ← staticArgs, staticArgs_of_reach hroots hreach, htoks]
  rcases hcode with hcode | hcode <;> rw [hcode]
  · exact Stmt.spellsAll_singleton ⟨v.asTok, rfl⟩
  · exact Stmt.spellsAll_singleton ⟨v.asTok, rfl⟩

theorem spelled_routeItem (hcode : p.action.code = .routeItem) : Spelled lossy (.node p children) := by
  have hshape := productions_shape p hp
  rw [hcode] at hshape
  obtain ⟨hlhs, hrhs⟩ := hshape
  have hchildren := spelled_children hp hroots hspelled (by rw [hcode]; exact ⟨nofun, nofun⟩)
  have hkids := roots_nonterm hroots
  rw [hrhs] at hkids
  obtain ⟨a, rest, rfl, -, hrest⟩ := List.map_eq_cons_iff.mp hkids
  obtain ⟨i, rest, rfl, -, hnil⟩ := List.map_eq_cons_iff.mp hrest
  obtain rfl := List.map_eq_nil_iff.mp hnil
  refine spelled_node (by rw [hlhs]; nofun) fun below => ?_
  rw [Tree.stmts, hcode, Tree.toksAll, List.flatMap_cons, List.flatMap_singleton]
  exact ((hchildren a (by simp)).all below).append
    (Stmt.spellsAll_singleton ((hchildren i (by simp)).all _))

end Nodes

/-- **The statements of a tree** are spelled by its tokens, and so is a body. -/
theorem spelled {t : SynTree} (ht : t.Valid grammar yyError)
    (hwhole : lossy = false →
      t.Whole ∧ t.root ≠ .nt .midSymbol ∧ t.root ≠ .nt .midInclude)
    (hok : ∀ x ∈ t.yield, hasSpan x.1 = true → TokenOk x) : Spelled lossy t := by
  induction ht with
  | leaf k v => exact ⟨fun _ => trivial, fun hroot => by cases hroot⟩
  | @lost v parts hall ih =>
    have hlossy : lossy = true := by
      cases lossy
      · exact absurd (hwhole rfl).1 nofun
      · rfl
    rw [Tree.yield] at hok
    refine ⟨fun below => ?_, fun hroot => by cases hroot⟩
    rw [Tree.toks_lost, Tree.stmts]
    refine Stmt.spellsAll_singleton ?_
    show Stmt.SpellsAll lossy (Tree.stmtsEach parts below).flatten (Tree.toksAll parts)
    refine spellsAll_flatten (fun t ht => ?_) below
    exact ih t ht (fun h => by rw [hlossy] at h; cases h) (ok_child hok ht)
  | @node p children hp hroots hvalid ih =>
    have hchildren : lossy = false → ∀ t ∈ children, t.Whole := by
      intro h
      cases (hwhole h).1 with
      | node _ hall => exact hall
    rw [Tree.yield] at hok
    have hspelled : ∀ t ∈ children,
        (lossy = false → t.root ≠ .nt .midSymbol ∧ t.root ≠ .nt .midInclude) → Spelled lossy t :=
      fun t ht hmid => ih t ht (fun h => ⟨hchildren h t ht, hmid h⟩) (ok_child hok ht)
    have hshape := productions_shape p hp
    have hvalue (hcode : p.action.code ∈ valueCodes) (hlhs : p.lhs ≠ .optBody) :
        Spelled lossy (.node p children) :=
      spelled_value hp hroots hspelled hcode fun h => absurd h hlhs
    have hsilent (hlhs : p.lhs ≠ .optBody) (h : ∀ below, ∃ st, Stmt.Spells lossy st = (fun _ => True) ∧
        (.node p children : SynTree).stmts below = [st]) : Spelled lossy (.node p children) := by
      refine spelled_node hlhs fun below => ?_
      obtain ⟨st, hst, hstmts⟩ := h below
      rw [hstmts]
      refine Stmt.spellsAll_singleton ?_
      rw [hst]
      exact trivial
    have hopen (hlhs : p.lhs ≠ .optBody) (hmid : (Symbol.nt p.lhs : Symbol NonTerm) = .nt .midSymbol ∨
        (Symbol.nt p.lhs : Symbol NonTerm) = .nt .midInclude) (h : ∀ below, ∃ st,
          Stmt.Spells lossy st = (fun _ => lossy = true) ∧
            (.node p children : SynTree).stmts below = [st]) : Spelled lossy (.node p children) := by
      refine spelled_node hlhs fun below => ?_
      obtain ⟨st, hst, hstmts⟩ := h below
      rw [hstmts]
      refine Stmt.spellsAll_singleton ?_
      rw [hst]
      cases lossy
      · obtain ⟨-, hsymbol, hinclude⟩ := hwhole rfl
        rcases hmid with hmid | hmid
        · exact absurd hmid hsymbol
        · exact absurd hmid hinclude
      · rfl
    generalize hcode : p.action.code = code at hshape hvalue
    cases code with
    | default => exact hvalue (by decide) fun h => hshape.1 (by rw [h]; decide)
    | resetSymStack =>
      exact hsilent (by rw [hshape.1]; decide) fun below =>
        ⟨.reset, rfl, by rw [Tree.stmts, hcode]; rfl⟩
    | routeItem => exact spelled_routeItem hp hroots hvalid hspelled hok hcode
    | itemSym => exact hvalue (by decide) (by rw [hshape.1]; decide)
    | itemPlain => exact hvalue (by decide) (by rw [hshape.1]; decide)
    | startDate => exact spelled_date hp hroots hvalid hspelled hok (.inl hcode)
    | endDate => exact spelled_date hp hroots hvalid hspelled hok (.inr hcode)
    | setPrefix kind =>
      exact hsilent (by rw [hshape.1]; decide) fun below =>
        ⟨.pref kind _, funext fun _ => by rw [Stmt.Spells], by rw [Tree.stmts, hcode]; rfl⟩
    | pendingDepKind kind =>
      exact hsilent (fun h => absurd (h ▸ hshape.1) (by decide)) fun below =>
        ⟨.kind kind, funext fun _ => by rw [Stmt.Spells], by rw [Tree.stmts, hcode]; rfl⟩
    | projectDecl => exact spelled_projectDecl hp hroots hvalid hspelled hok hcode
    | openSymbol =>
      refine hopen (by rw [hshape.1]; decide) (.inl (congrArg Symbol.nt hshape.1)) fun below =>
        ⟨.opened _ _ _, funext fun _ => by rw [Stmt.Spells], by rw [Tree.stmts, hcode]; rfl⟩
    | closeSymbol => exact spelled_closeSymbol hp hroots hvalid hspelled hok hcode
    | declare id name body => exact spelled_declare hp hroots hvalid hspelled hok hcode
    | openInclude =>
      refine hopen (by rw [hshape.1]; decide) (.inr (congrArg Symbol.nt hshape.1)) fun below =>
        ⟨.included, funext fun _ => by rw [Stmt.Spells], by rw [Tree.stmts, hcode]; rfl⟩
    | closeInclude => exact spelled_closeInclude hp hroots hvalid hspelled hok hcode
    | emptyToken => exact hvalue (by decide) fun h => absurd (h ▸ hshape.1) (by decide)
    | prefixSegment => exact hvalue (by decide) (by rw [hshape.1]; decide)
    | prefixPath => exact hvalue (by decide) (by rw [hshape.1]; decide)
    | noBangs => exact hvalue (by decide) (by rw [hshape.1]; decide)
    | countBang => exact hvalue (by decide) (by rw [hshape.1]; decide)
    | depSegment => exact hvalue (by decide) (by rw [hshape.1]; decide)
    | depPath => exact hvalue (by decide) (by rw [hshape.1]; decide)
    | taskRef => exact hvalue (by decide) (by rw [hshape.1]; decide)
    | depRef => exact spelled_depRef hp hroots hvalid hspelled hok hcode
    | emptyBody =>
      refine spelled_value hp hroots hspelled (by rw [hcode]; decide) fun _ => ⟨hcode, ?_⟩
      have hkids := roots_nonterm hroots
      rw [hshape.2] at hkids
      exact List.map_eq_nil_iff.mp hkids
    | closeBody => exact spelled_closeBody hp hroots hvalid hspelled hok hcode
    | bodyItem => exact hvalue (by decide) (by rw [hshape.1]; decide)
    | keepBody => exact hvalue (by decide) (by rw [hshape.1]; decide)

end TaskjugglerLsp
