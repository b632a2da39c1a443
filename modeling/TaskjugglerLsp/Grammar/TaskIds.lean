import TaskjugglerLsp.Grammar.Segments

/-!
# The ids of tasks

The id of a task is a word of the text: an identifier, the word `start`, or the keyword of the task
if there is none.  So it is not empty, and no dot is in it.

* `named_stmts`: the tokens of the ids.
* `ParsesTo.task_ids`: the ids of the tasks of a document.
-/

namespace TaskjugglerLsp

open Lib Lib.Lr

/-- **Statements with words as ids**: a task, a resource or an account has a word, or none. -/
inductive Stmt.Named : Stmt → Prop
  | intro {st : Stmt} (own : ∀ kw id name body stop, st = .symbol kw id name body stop →
      id = Token.zero ∨ id.kind ∈ wordKinds) (body : ∀ c ∈ st.body, Named c) : Named st

theorem Stmt.Named.mem {st c : Stmt} (h : st.Named) (hc : c ∈ st.body) : c.Named := by
  cases h with
  | intro _ body => exact body c hc

theorem optId_kind {t : SynTree} (ht : t.Valid grammar yyError) (hroot : t.root = .nt .optId)
    (hok : ∀ x ∈ t.yield, hasSpan x.1 = true → TokenOk x) :
    t.static.asTok = Token.zero ∨ t.static.asTok.kind ∈ wordKinds := by
  obtain ⟨p, children, rfl, hp, hlhs, hroots, hall⟩ := exists_node ht hroot
  rcases productions_optId p hp hlhs with ⟨hcode, -⟩ | ⟨hcode, k, hk, hrhs, herror, htext⟩
  · left
    rw [Tree.static, hcode]
    rfl
  · rw [hrhs] at hroots
    obtain ⟨l, rest, rfl, hl, hnil⟩ := List.map_eq_cons_iff.mp hroots
    obtain rfl := List.map_eq_nil_iff.mp hnil
    obtain ⟨v, rfl⟩ := exists_leaf (hall l (by simp)) hl herror
    have hstatic : (.node p [.leaf k v] : SynTree).static = v := by
      rw [Tree.static, hcode]
      rfl
    have hvok : TokenOk (k, v) := by
      refine hok (k, v) ?_ (hasSpan_of_hasText htext)
      rw [Tree.yield, Tree.yieldAll, Tree.yieldAll, Tree.yield]
      exact List.mem_singleton.mpr rfl
    have hkinds : ∀ k ∈ [tkIdent, kw "start"], k ∈ wordKinds := by decide +kernel
    right
    rw [hstatic, hvok.kind]
    exact hkinds k hk

theorem named_unblock {parts : List (List Stmt)} (h : ∀ part ∈ parts, ∀ st ∈ part, st.Named)
    (i : ℕ) : ∀ st ∈ unblock (parts.getD i []), st.Named := by
  have hpart : ∀ st ∈ parts.getD i [], st.Named := by
    rcases Nat.lt_or_ge i parts.length with hi | hi
    · rw [List.getD_eq_getElem _ _ hi]
      exact h _ (List.getElem_mem hi)
    · rw [List.getD_eq_default _ _ hi]
      exact fun st hst => by cases hst
  intro st hst
  generalize parts.getD i [] = part at hpart hst
  unfold unblock at hst
  split at hst
  · exact (hpart _ (List.mem_singleton_self _)).mem hst
  · cases hst

theorem named_nodeStmts {code : ActionCode} (children : List SynTree) (args : List Yystype)
    (hid : code = .closeSymbol → (dollar args 2).asTok = Token.zero ∨
      (dollar args 2).asTok.kind ∈ wordKinds)
    {parts : List (List Stmt)} (h : ∀ part ∈ parts, ∀ st ∈ part, st.Named) :
    ∀ st ∈ Tree.nodeStmts code children args parts, st.Named := by
  have hflat : ∀ st ∈ parts.flatten, st.Named := by
    intro st hst
    obtain ⟨part, hpart, hmem⟩ := List.mem_flatten.mp hst
    exact h part hpart st hmem
  have hget (i : ℕ) : ∀ st ∈ parts.getD i [], st.Named := by
    rcases Nat.lt_or_ge i parts.length with hi | hi
    · rw [List.getD_eq_getElem _ _ hi]
      exact h _ (List.getElem_mem hi)
    · rw [List.getD_eq_default _ _ hi]
      exact fun st hst => by cases hst
  have hsingle {q : Stmt} (hq : ∀ kw id name body stop, q ≠ .symbol kw id name body stop)
      (hbody : ∀ c ∈ q.body, c.Named) : ∀ st ∈ [q], st.Named := by
    intro st hst
    rw [List.mem_singleton.mp hst]
    exact .intro (fun kw id name body stop heq => absurd heq (hq kw id name body stop)) hbody
  cases code with
  | closeSymbol =>
    intro st hst
    rw [List.mem_singleton.mp hst]
    refine .intro (fun kw id name body stop heq => ?_) (named_unblock h 4)
    obtain ⟨-, rfl, -⟩ := Stmt.symbol.inj heq
    exact hid rfl
  | routeItem =>
    intro st hst
    rcases List.mem_append.mp hst with hst | hst
    · exact hget 0 st hst
    · have hbody : ∀ c ∈ (Stmt.top (parts.getD 1 [])).body, c.Named := hget 1
      exact hsingle (fun _ _ _ _ _ h => by cases h) hbody st hst
  | resetSymStack | startDate | endDate | setPrefix | pendingDepKind | openSymbol | openInclude =>
    exact hsingle (fun _ _ _ _ _ h => by cases h) fun c hc => by cases hc
  | projectDecl => exact hsingle (fun _ _ _ _ _ h => by cases h) (named_unblock h 5)
  | declare id name i => exact hsingle (fun _ _ _ _ _ h => by cases h) (named_unblock h (i - 1))
  | closeInclude => exact hsingle (fun _ _ _ _ _ h => by cases h) (named_unblock h 3)
  | depRef =>
    cases children with
    | nil => exact fun st hst => by cases hst
    | cons ref children => exact hsingle (fun _ _ _ _ _ h => by cases h) (named_unblock h 1)
  | closeBody =>
    have hbody : ∀ c ∈ (Stmt.block (parts.getD 1 [])).body, c.Named := hget 1
    exact hsingle (fun _ _ _ _ _ h => by cases h) hbody
  | _ => exact hflat

/-- **The statements of a tree** have words as ids. -/
theorem named_stmts {t : SynTree} (hvalid : t.Valid grammar yyError)
    (hok : ∀ x ∈ t.yield, hasSpan x.1 = true → TokenOk x) (below : List Yystype) :
    ∀ st ∈ t.stmts below, st.Named := by
  have heach : ∀ (ts : List SynTree) (below : List Yystype),
      (∀ t ∈ ts, ∀ below, ∀ st ∈ t.stmts below, st.Named) →
      ∀ part ∈ Tree.stmtsEach ts below, ∀ st ∈ part, st.Named := by
    intro ts
    induction ts with
    | nil => exact fun _ _ part hpart => by cases hpart
    | cons t ts ih =>
      intro below hts part hpart
      rw [Tree.stmtsEach] at hpart
      rcases List.mem_cons.mp hpart with rfl | hpart
      · exact hts t List.mem_cons_self below
      · exact ih _ (fun u hu => hts u (List.mem_cons_of_mem t hu)) part hpart
  induction hvalid generalizing below with
  | leaf k v => exact fun st hst => by cases hst
  | @lost v parts hparts ih =>
    intro st hst
    rw [Tree.stmts] at hst
    rw [List.mem_singleton.mp hst]
    refine .intro (fun kw id name body stop heq => by cases heq) fun c hc => ?_
    obtain ⟨part, hpart, hmem⟩ := List.mem_flatten.mp hc
    refine heach parts below (fun t ht => ih t ht fun x hx => hok x ?_) part hpart c hmem
    rw [Tree.yield]
    exact Tree.mem_yieldAll.mpr ⟨t, ht, hx⟩
  | @node p children hp hroots hall ih =>
    have hchild {t : SynTree} (ht : t ∈ children) :
        ∀ x ∈ t.yield, hasSpan x.1 = true → TokenOk x := fun x hx => by
      refine hok x ?_
      rw [Tree.yield]
      exact Tree.mem_yieldAll.mpr ⟨t, ht, hx⟩
    rw [Tree.stmts]
    refine named_nodeStmts _ _ (fun hcode => ?_)
      (heach children below fun t ht => ih t ht (hchild ht))
    have hshape := productions_shape p hp
    rw [hcode] at hshape
    obtain ⟨-, hrhs⟩ := hshape
    have hkids := roots_nonterm hroots
    rw [hrhs] at hkids
    obtain ⟨c1, rest, rfl, -, hrest⟩ := List.map_eq_cons_iff.mp hkids
    obtain ⟨c2, rest, rfl, h2, -⟩ := List.map_eq_cons_iff.mp hrest
    have hreach := reach_of_ne_nil hp (fun hnil => by rw [hnil] at hrhs; cases hrhs)
    rw [← staticArgs, staticArgs_of_reach hroots hreach]
    exact optId_kind (hall c2 (by simp)) (root_of_nonterm h2) (hchild (by simp))

/-! ### The ids of the declarations -/

/-- A word among the tokens has its text. -/
def HasWord (t : Token) : Prop := t.kind ∈ wordKinds → ∃ word, t.text = some word ∧ IsWord word

theorem IsWord.isId {word : CStr} (h : IsWord word) : word ≠ [] ∧ 46 ∉ word := by
  constructor
  · rintro rfl
    exact absurd h (by decide)
  · intro hdot
    exact absurd (h.bytes 46 hdot) (by decide)

theorem hasTaskId_headingOf {kw id name : Token} {stop : LspPos} (hkw : HasWord kw)
    (hid : id = Token.zero ∨ id.kind ∈ wordKinds) (hword : id = Token.zero ∨ HasWord id) :
    (headingOf kw id name stop).HasTaskId := by
  intro htask
  have hkinds : kwTask ∈ wordKinds := by decide +kernel
  have hkeyword : kw.kind ∈ wordKinds := by
    rw [show kw.kind = kwTask from htask]
    exact hkinds
  have hnone (h : id.text = none) : ∃ word, (headingOf kw id name stop).id = some word ∧
      word ≠ [] ∧ 46 ∉ word := by
    obtain ⟨word, hword, hisWord⟩ := hkw hkeyword
    refine ⟨word, ?_, hisWord.isId⟩
    rw [← hword]
    exact if_neg (by rw [h]; exact Bool.false_ne_true)
  rcases hid with rfl | hkind
  · exact hnone rfl
  · rcases hword with rfl | hword
    · exact hnone rfl
    · obtain ⟨word, hword, hisWord⟩ := hword hkind
      refine ⟨word, ?_, hisWord.isId⟩
      rw [← hword]
      exact if_pos (by rw [hword]; rfl)

namespace Stmt

theorem outlineAll_hasTaskId {sts : List Stmt}
    (h : ∀ st ∈ sts, ∀ ts, Spells false st ts → (∀ t ∈ ts, HasWord t) →
      ∀ tree ∈ st.outline, tree.Every TjInfo.HasTaskId) :
    ∀ ts, SpellsAll false sts ts → (∀ t ∈ ts, HasWord t) →
      ∀ tree ∈ outlineAll sts, tree.Every TjInfo.HasTaskId := by
  induction sts with
  | nil =>
    intro ts _ _ tree htree
    cases htree
  | cons st sts ih =>
    obtain ⟨hst, hsts⟩ := List.forall_mem_cons.mp h
    intro ts hts hwords tree htree
    obtain ⟨gap, own, rest, rfl, hown, hrest⟩ := hts
    rw [outlineAll] at htree
    rcases List.mem_append.mp htree with htree | htree
    · exact hst own hown (fun t ht => hwords t (by simp [ht])) tree htree
    · exact ih hsts rest hrest (fun t ht => hwords t (by simp [ht])) tree htree

/-- **The ids of the declarations** of a statement. -/
theorem outline_hasTaskId (st : Stmt) : st.Named → ∀ ts, Spells false st ts →
    (∀ t ∈ ts, HasWord t) →
    (∀ tree ∈ st.outline, tree.Every TjInfo.HasTaskId) ∧
      ∀ tree ∈ st.written, tree.Every TjInfo.HasTaskId := by
  induction st using Stmt.induct with
  | h st ih =>
    intro hnamed ts hts hwords
    have hall := outlineAll_hasTaskId fun c hc us hus hus' =>
      (ih c hc (hnamed.mem hc) us hus hus').1
    have hbody {stop : LspPos} {us : List Token}
        (h : InBody (SpellsAll false st.body) (st.body = []) stop us) (hus : ∀ t ∈ us, HasWord t) :
        ∀ tree ∈ outlineAll st.body, tree.Every TjInfo.HasTaskId := by
      cases h with
      | none hempty _ =>
        rw [hempty]
        exact fun tree htree => by cases htree
      | @braces l r inner hl hr hinner hstop =>
        exact hall inner hinner fun t ht => hus t (by simp [ht])
    have hvacuous {kw id name : Token} {stop : LspPos} (h : kw.kind ≠ kwTask) :
        (headingOf kw id name stop).HasTaskId := fun htask => absurd htask h
    cases st with
    | project kw id name body stop =>
      obtain ⟨mid, tail, rfl, hkw, -, h⟩ := hts
      have hown : (headingOf kw id name stop).HasTaskId := hvacuous (by rw [hkw]; decide)
      refine ⟨fun tree htree => ?_, fun tree htree => ?_⟩
      · rw [List.mem_singleton.mp htree]
        exact .node hown fun t ht => by cases ht
      · rw [List.mem_singleton.mp htree]
        exact .node hown (hbody h fun t ht => hwords t (by simp [ht]))
    | symbol kw id name body stop =>
      obtain ⟨mid, tail, rfl, -, hid, h⟩ := hts
      have hkind : id = Token.zero ∨ id.kind ∈ wordKinds := by
        cases hnamed with
        | intro own _ => exact own kw id name body stop rfl
      have hword : id = Token.zero ∨ HasWord id := by
        rcases hid with hzero | ⟨hmem, -⟩
        · exact .inl hzero
        · exact .inr (hwords id (by simp [hmem]))
      have hown : (headingOf kw id name stop).HasTaskId :=
        hasTaskId_headingOf (hwords kw (by simp)) hkind hword
      have hone : ∀ tree ∈ outline (symbol kw id name body stop), tree.Every TjInfo.HasTaskId := by
        intro tree htree
        rw [List.mem_singleton.mp htree]
        exact .node hown (hbody h fun t ht => hwords t (by simp [ht]))
      exact ⟨hone, hone⟩
    | declare kw id name body stop =>
      obtain ⟨mid, tail, rfl, hkw, -, h⟩ := hts
      have hown : (headingOf kw id name stop).HasTaskId := by
        refine hvacuous fun htask => hkw ?_
        rw [htask]
        decide
      have hone : ∀ tree ∈ outline (declare kw id name body stop), tree.Every TjInfo.HasTaskId := by
        intro tree htree
        rw [List.mem_singleton.mp htree]
        exact .node hown (hbody h fun t ht => hwords t (by simp [ht]))
      exact ⟨hone, hone⟩
    | _ => exact ⟨fun tree htree => (by cases htree), fun tree htree => (by cases htree)⟩

end Stmt

/-- What a statement of several ones is spelled by is among their tokens. -/
theorem Stmt.SpellsAll.exists_subset {lossy : Bool} {sts : List Stmt} {ts : List Token}
    (h : SpellsAll lossy sts ts) {st : Stmt} (hst : st ∈ sts) :
    ∃ us, us ⊆ ts ∧ Spells lossy st us := by
  induction sts generalizing ts with
  | nil => cases hst
  | cons c sts ih =>
    obtain ⟨gap, own, rest, rfl, hc, hrest⟩ := h
    rcases List.mem_cons.mp hst with rfl | hst
    · exact ⟨own, fun t ht => by simp [ht], hc⟩
    · obtain ⟨us, hsub, hus⟩ := ih hrest hst
      exact ⟨us, fun t ht => by simp [hsub ht], hus⟩

section Parses

variable {κ : Type*} [DecidableEq κ] {T : Tables κ NonTerm SemAction} {s t : ProgState}
  {text : CStr} {doc : SynTree} {out : ParseResult}

theorem ParsesTo.hasWord (hT : T.Sound grammar yyError) (hs : ParseHistory T s)
    (h : ParsesTo T s text doc t out) : ∀ t ∈ doc.toks, HasWord t := by
  obtain ⟨-, hplace⟩ := h.spells hT hs
  intro t ht hkind
  have hkinds : ∀ k ∈ wordKinds, k ≠ tkRbrace ∧ hasText k = true := by decide +kernel
  obtain ⟨x, hx, hxt⟩ := hplace.exists_mark ht (hkinds _ hkind).1
  simp only [TokenSpan.mark, Token.mark, Prod.mk.injEq] at hxt
  obtain ⟨hsame, -, -, htext⟩ := hxt
  obtain ⟨⟨word, hword, hisWord⟩, -⟩ := h.words hT hs x hx (hsame ▸ hkind)
  refine ⟨word, ?_, hisWord⟩
  rw [hsame, keptText, keptText, if_pos (hkinds _ hkind).2, if_pos (hkinds _ hkind).2] at htext
  rw [← htext, hword]

/-- **The ids of the tasks of a document** are words. -/
theorem ParsesTo.task_ids (hT : T.Sound grammar yyError) (hs : ParseHistory T s)
    (h : ParsesTo T s text doc t out) :
    ∀ tree ∈ documentTrees doc, tree.Every TjInfo.HasTaskId := by
  obtain ⟨hspells, -⟩ := h.spells hT hs
  obtain ⟨real, missing, rest, last, -, -, -, hok⟩ := h.taken hT hs
  obtain ⟨input, -, hdoc, -⟩ := h.spec hT
  have hnamed := named_stmts hdoc.valid hok []
  have hwords := h.hasWord hT hs
  intro tree htree
  obtain ⟨st, hst, htree⟩ := List.mem_flatMap.mp htree
  cases st with
  | top item =>
    obtain ⟨ts, hsub, hts⟩ := hspells.exists_subset hst
    obtain ⟨c, hc, htree⟩ := List.mem_flatMap.mp htree
    obtain ⟨us, hsub', hus⟩ := Stmt.SpellsAll.exists_subset hts hc
    exact (c.outline_hasTaskId ((hnamed _ hst).mem hc) us hus
      fun t ht => hwords t (hsub (hsub' ht))).2 tree htree
  | _ => cases htree

end Parses

end TaskjugglerLsp
