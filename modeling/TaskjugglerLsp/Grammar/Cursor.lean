import TaskjugglerLsp.Grammar.Addresses
import TaskjugglerLsp.Hover.Lookup

/-!
# The declaration at a position of a document

The walk of `tj_node_at` starts from the owner of the last token that starts at a position or before
it, and goes to the parents.  No declaration starts between that token and the position, so it ends
at the innermost one around the position; but the parent of a declaration that was hoisted out of the
project block is the synthetic root.

* `WrittenIn`: the tokens of a declaration.
* `tjNodeAt_innermost`: the declaration that is found at a position.
-/

namespace TaskjugglerLsp

open Lib Lib.Lr

/-! ### The tokens of declarations -/

/-- The tokens of a body, and those between its braces. -/
inductive BodyTokens (stop : LspPos) : List Token → List Token → Prop
  | none (hstop : stop = ⟨0, 0⟩) : BodyTokens stop [] []
  | braces {l r : Token} {us : List Token} (hl : l.kind = tkLbrace) (hr : r.kind = tkRbrace)
      (hstop : stop = r.stop) : BodyTokens stop (l :: (us ++ [r])) us

/-- **A declaration is written** among some tokens, and those below it in its body. -/
inductive WrittenIn : List Token → Rose TjInfo → Prop
  | intro {pre mid tail post us : List Token} {kw id name : Token} {stop : LspPos}
      {children : List (Rose TjInfo)} (hkw : kw.kind ≠ tkRbrace) (hid : Lists id mid)
      (hbody : BodyTokens stop tail us) (hchildren : ∀ t ∈ children, WrittenIn us t) :
      WrittenIn (pre ++ kw :: (mid ++ tail) ++ post) (.node (headingOf kw id name stop) children)

theorem WrittenIn.pad {ts : List Token} {t : Rose TjInfo} (h : WrittenIn ts t)
    (before after : List Token) : WrittenIn (before ++ ts ++ after) t := by
  cases h with
  | @intro pre mid tail post us kw id name stop children hkw hid hbody hchildren =>
    rw [show before ++ (pre ++ kw :: (mid ++ tail) ++ post) ++ after
      = (before ++ pre) ++ kw :: (mid ++ tail) ++ (post ++ after) by simp]
    exact .intro hkw hid hbody hchildren

/-- **The declarations of a document are written** among its tokens. -/
theorem describes_writtenIn : Describes fun ts trees => ∀ t ∈ trees, WrittenIn ts t where
  nil ts t ht := by cases ht
  append {ts us trees more} gap hts hus t ht := by
    rcases List.mem_append.mp ht with ht | ht
    · exact (hts t ht).pad gap us
    · have hpad := (hus t ht).pad (gap ++ ts) []
      rwa [List.append_nil] at hpad
  decl {kw id name mid tail stop trees} hkw hid hbody t ht := by
    rw [List.mem_singleton.mp ht]
    have hpad {us : List Token} (htail : BodyTokens stop tail us)
        (hus : ∀ t ∈ trees, WrittenIn us t) :
        WrittenIn (kw :: (mid ++ tail)) (.node (headingOf kw id name stop) trees) := by
      have hwritten : WrittenIn ([] ++ kw :: (mid ++ tail) ++ [])
          (.node (headingOf kw id name stop) trees) := .intro hkw hid htail hus
      rwa [List.nil_append, List.append_nil] at hwritten
    cases hbody with
    | none hempty hstop =>
      refine hpad (.none hstop) ?_
      rw [hempty]
      exact fun t ht => by cases ht
    | braces hl hr hus hstop => exact hpad (.braces hl hr hstop) hus

theorem BodyTokens.infix {stop : LspPos} {tail us : List Token} (h : BodyTokens stop tail us) :
    ∃ before after, tail = before ++ us ++ after := by
  cases h with
  | none => exact ⟨[], [], rfl⟩
  | @braces l r us => exact ⟨[l], [r], rfl⟩

theorem WrittenIn.child {ts : List Token} {l : TjInfo} {children : List (Rose TjInfo)}
    (h : WrittenIn ts (.node l children)) : ∀ t ∈ children, WrittenIn ts t := by
  generalize hnode : Rose.node l children = node at h
  cases h with
  | @intro pre mid tail post us kw id name stop children' hkw hid hbody hchildren =>
    obtain ⟨-, rfl⟩ := Rose.node.inj hnode
    intro t ht
    obtain ⟨before, after, rfl⟩ := hbody.infix
    have hpad := (hchildren t ht).pad (pre ++ kw :: (mid ++ before)) (after ++ post)
    rwa [show (pre ++ kw :: (mid ++ before)) ++ us ++ (after ++ post)
      = pre ++ kw :: (mid ++ (before ++ us ++ after)) ++ post by simp] at hpad

theorem WrittenIn.exists_keyword {ts : List Token} {t : Rose TjInfo} (h : WrittenIn ts t) :
    ∃ kw ∈ ts, kw.kind ≠ tkRbrace ∧ t.label.startKey = kw.start.key := by
  cases h with
  | @intro pre mid tail post us kw id name stop children hkw hid hbody hchildren =>
    exact ⟨kw, by simp, hkw, rfl⟩

/-! ### The parents of a declaration -/

section Cells

variable {heap : List NodeCell} {tops body : List ℕ}
  (hforest : DeclForest heap (cellsBelow heap 0) tops body)

include hforest

theorem exists_address {d a : ℕ}
    (ha : (declForest heap (cellsBelow heap 0) tops body).AtDepth d a) :
    ∃ address, cellAt heap 0 address = some a ∧ address ≠ [] ∧ address.length ≤ d + 1 := by
  have hchild {b : ℕ} (hb : b ∈ cellsBelow heap 0) : ∃ i, cellAt heap 0 [i] = some b := by
    obtain ⟨i, hi⟩ := List.mem_iff_getElem?.mp hb
    exact ⟨i, Descent.node_cons_eq_some.mpr ⟨b, hi, rfl⟩⟩
  induction ha with
  | @top a ha =>
    obtain ⟨i, hi⟩ := hchild ((hforest.hoisted a).mpr (.inl ha))
    exact ⟨[i], hi, List.cons_ne_nil _ _, Nat.le_refl _⟩
  | @kid d a b ha hb ih =>
    change b ∈ scopeKids heap (cellsBelow heap 0) body a at hb
    rw [scopeKids] at hb
    split_ifs at hb with hp
    · obtain ⟨i, hi⟩ := hchild ((hforest.hoisted b).mpr (.inr hb))
      exact ⟨[i], hi, List.cons_ne_nil _ _, Nat.succ_le_succ (Nat.zero_le _)⟩
    · obtain ⟨address, hcell, -, hlen⟩ := ih
      obtain ⟨i, hi⟩ := List.mem_iff_getElem?.mp hb
      refine ⟨address ++ [i], (cellsTo_concat hcell hi).1, ?_, ?_⟩
      · simp
      · rw [List.length_append, List.length_singleton]
        omega

/-- **The cells that an address passes** are those that the last one is in, but for the project block
that declarations have been hoisted out of. -/
theorem ancestry_cellsTo
    (hempty : ∀ p, projectBlock heap (cellsBelow heap 0) = some p → cellsBelow heap p = [])
    {a : ℕ} {address : List ℕ} (hcell : cellAt heap 0 address = some a) (hne : address ≠ []) :
    ∃ more, (declForest heap (cellsBelow heap 0) tops body).Ancestry
        (cellsTo heap 0 address ++ more) ∧
      (more = [] ∨ ∃ p, projectBlock heap (cellsBelow heap 0) = some p ∧ more = [p]) := by
  induction address using List.reverseRecOn generalizing a with
  | nil => exact absurd rfl hne
  | append_singleton address i ih =>
    rw [cellAt, Descent.node_append, Option.bind_eq_some_iff] at hcell
    obtain ⟨b, hb, hba⟩ := hcell
    obtain ⟨c, hget, hca⟩ := Descent.node_cons_eq_some.mp hba
    obtain rfl : c = a := Option.some.inj hca
    rw [(cellsTo_concat hb hget).2]
    have hmem : c ∈ cellsBelow heap b := List.mem_of_getElem? hget
    by_cases hnil : address = []
    · subst hnil
      obtain rfl : 0 = b := Option.some.inj hb
      rcases (hforest.hoisted c).mp hmem with hc | hc
      · exact ⟨[], .top hc, .inl rfl⟩
      · cases hp : projectBlock heap (cellsBelow heap 0) with
        | none =>
          rw [hforest.noProject hp] at hc
          cases hc
        | some p =>
          refine ⟨[p], .kid (.top (hforest.project p hp)) ?_, .inr ⟨p, rfl, rfl⟩⟩
          show c ∈ scopeKids heap (cellsBelow heap 0) body p
          rwa [scopeKids, if_pos hp.symm]
    · obtain ⟨more, hmore, hcases⟩ := ih hb hnil
      obtain ⟨above, habove, -⟩ := cellsTo_cons hb hnil
      rw [habove] at hmore ⊢
      refine ⟨more, .kid hmore ?_, hcases⟩
      show c ∈ scopeKids heap (cellsBelow heap 0) body b
      rw [scopeKids, if_neg]
      · exact hmem
      · intro hp
        rw [hempty b hp.symm] at hmem
        cases hmem

end Cells

/-! ### A parse -/

theorem Taken.span_real {lex : LexState} {ts : List (ℕ × Token)} (h : Taken lex ts) :
    ∀ x ∈ lex.vars.tokSpans, x.tokenKind ≠ tkEof := by
  obtain ⟨real, missing, hspanned, hmarks, -⟩ := h.spans
  intro x hx heof
  by_cases hremark : x.isRemark = true
  · rw [TokenSpan.isRemark, heof] at hremark
    exact absurd hremark (by decide)
  · have hmem : x.mark ∈ spanMarks lex.vars.tokSpans :=
      List.mem_map_of_mem (List.mem_filter.mpr ⟨hx, by simpa using hremark⟩)
    rw [← hmarks] at hmem
    obtain ⟨t, ht, htx⟩ := List.mem_map.mp hmem
    have htake : t ∈ spanned ts := hspanned ▸ List.mem_append_left _ ht
    obtain ⟨u, hu, rfl⟩ := List.mem_map.mp htake
    obtain ⟨hu, hspan⟩ := List.mem_filter.mp hu
    have hkind : u.2.kind = x.tokenKind := congrArg Prod.fst htx
    rw [(h.ok u hu hspan).1, heof] at hkind
    rw [hkind] at hspan
    exact absurd hspan (by decide)

/-- **The scopes of a parse**: its cells, and the declarations of the document that they hold. -/
structure Scoped (out : ParseResult) (doc : SynTree) (tops body : List ℕ) : Prop where
  forest : DeclForest out.heap (cellsBelow out.heap 0) tops body
  hoisted : ∀ p, projectBlock out.heap (cellsBelow out.heap 0) = some p → cellsBelow out.heap p = []
  held : Rose.HoldsAll out.label (scopeKids out.heap (cellsBelow out.heap 0) body)
    (InScope out.heap out.label out.IsDecl (cellsBelow out.heap 0)) (documentTrees doc) tops
  laidOut : ∃ hi, DeclsLaidOut 0 hi (documentTrees doc)
  written : ∀ t ∈ documentTrees doc, WrittenIn doc.toks t
  place : InPlace doc.toks out.tokSpans
  spans : OrderedSpans out.tokSpans
  owners : out.tokOwners = assignTokenOwners out.heap (cellsBelow out.heap 0) out.tokSpans
  root : out.label 0 = NodeCell.new.info.heading

section Parses

variable {κ : Type*} [DecidableEq κ] {T : Tables κ NonTerm SemAction} {s t : ProgState}
  {text : CStr} {doc : SynTree} {out : ParseResult}

theorem ParsesTo.orderedSpans (hT : T.Sound grammar yyError) (hs : ParseHistory T s)
    (h : ParsesTo T s text doc t out) : OrderedSpans out.tokSpans := by
  obtain ⟨real, missing, rest, last, -, -, hspans, -⟩ := h.taken hT hs
  obtain ⟨input, -, -, -, rfl, n, -, -, hfront⟩ := h.spec hT
  refine ⟨?_, fun x hx => ?_, ?_⟩
  · have htaken := taken_handed n (taken_install s.front input)
    rw [List.nil_append, ← hfront] at htaken
    exact htaken.span_real
  · rw [LspPos.before_iff_key, Nat.not_lt]
    exact (hspans.nonempty x hx).le
  · refine hspans.ordered.imp fun {x y} hxy => ?_
    rwa [LspPos.before_iff_key, Nat.not_lt]

/-- **A parse has scopes**. -/
theorem ParsesTo.scoped (hT : T.Sound grammar yyError) (hs : ParseHistory T s)
    (h : ParsesTo T s text doc t out) (hone : OneProject doc) :
    ∃ tops body, Scoped out doc tops body := by
  obtain ⟨tops, body, hforest, hhoisted, hheld⟩ := h.scopes hT hs hone
  obtain ⟨hspells, hplace⟩ := h.spells hT hs
  have hspans := h.orderedSpans hT hs
  obtain ⟨input, -, -, hstate, rfl, -⟩ := h.spec hT
  refine ⟨tops, body, hforest, hhoisted, hheld, laidOut_documentTrees hspells hplace,
    describes_writtenIn.documentTrees hspells, hplace, hspans, rfl, ?_⟩
  have hroot : KeepsRoot s.grammar.install (Stmt.execAll (doc.stmts []) s.grammar.install).1 :=
    Stmt.execAll_keepsRoot (fun st _ => st.exec_keepsRoot) s.grammar.install Nat.one_pos
  have hpos := Nat.one_pos.trans_le hroot.length
  rw [← hstate] at hroot hpos
  show ((t.grammar.write 0 _).cell 0).info.heading = _
  rw [GrammarState.cell_write, if_pos ⟨rfl, hpos⟩]
  exact hroot.heading

end Parses

/-! ### The walk of `tj_node_at` -/

/-- The last token that starts at a position or before it. -/
def lastSpan (spans : List TokenSpan) (pos : LspPos) : Option TokenSpan :=
  (lastStarting spans pos).bind fun i => spans[i]?

/-- The declaration of a cell ends after a position. -/
def ParseResult.endsAfter (out : ParseResult) (pos : LspPos) (c : ℕ) : Bool :=
  decide (pos.before (nodeRange out.heap c).stop)

/-- **What `tj_node_at` finds** at a position with an owner: that, or nothing where it is the project
block and the last token belongs to a declaration in it. -/
inductive Finds (out : ParseResult) (doc : SynTree) (pos : LspPos) : Option ℕ → Option (List ℕ) → Prop
  | found {c : ℕ} {above address : List ℕ} (hcell : cellAt out.heap 0 address = some c)
      (habove : cellsTo out.heap 0 address = c :: above) (hlen : address.length ≤ out.heap.length)
      (hlast : (out.label c).keyword = kwProject →
        (lastSpan out.tokSpans pos).bind (fun x => innermostDecl doc x.start) = some (out.label c)) :
      Finds out doc pos (some c) (some address)
  | nothing : Finds out doc pos none none
  | hoisted {p : ℕ} (hp : (out.label p).keyword = kwProject)
      (hlast : (lastSpan out.tokSpans pos).bind (fun x => innermostDecl doc x.start)
        ≠ some (out.label p)) : Finds out doc pos (some p) none

namespace Scoped

variable {out : ParseResult} {doc : SynTree} {tops body : List ℕ} (h : Scoped out doc tops body)

include h

theorem label_innermost {pos : LspPos} {o : Option ℕ}
    (ho : (declForest out.heap (cellsBelow out.heap 0) tops body).Owner pos.key o) :
    o.map out.label = innermostDecl doc pos := by
  obtain ⟨hi, hlaid⟩ := h.laidOut
  exact Rose.owner_innermost h.held hlaid ho

theorem exists_span {d a : ℕ}
    (ha : (declForest out.heap (cellsBelow out.heap 0) tops body).AtDepth d a) :
    ∃ x ∈ out.tokSpans, x.start.key = (nodeRange out.heap a).start.key := by
  obtain ⟨tree, hheld, hwritten⟩ := Rose.exists_held TjInfo.startKey TjInfo.stopKey
    (fun l us hnode => hnode.child) h.held h.written ha
  obtain ⟨kw, hkw, hkind, hstart⟩ := hwritten.exists_keyword
  obtain ⟨x, hx, hxstart, -⟩ := h.place.exists_span hkw hkind
  refine ⟨x, hx, ?_⟩
  rw [hxstart, ← hstart, ← hheld.label_eq]
  rfl

/-- Only the project block is one. -/
theorem projectBlock_eq {d a : ℕ}
    (ha : (declForest out.heap (cellsBelow out.heap 0) tops body).AtDepth d a)
    (hproject : (out.label a).keyword = kwProject) :
    projectBlock out.heap (cellsBelow out.heap 0) = some a := by
  obtain ⟨hi, hlaid⟩ := h.laidOut
  obtain ⟨tree, hheld, -⟩ := Rose.exists_nested h.held hlaid ha
  exact hheld.root_inner.2 hproject

/-- **What is found at a position** behind a token with an owner. -/
theorem finds_of_owner {x : TokenSpan} {pos : LspPos} {d a : ℕ}
    (hlast : lastSpan out.tokSpans pos = some x) (hle : x.start.key ≤ pos.key)
    (hstarts : ∀ d b, (declForest out.heap (cellsBelow out.heap 0) tops body).AtDepth d b →
      (nodeRange out.heap b).start.key ≤ pos.key → (nodeRange out.heap b).start.key ≤ x.start.key)
    (ha : (declForest out.heap (cellsBelow out.heap 0) tops body).AtDepth d a)
    (howner : (declForest out.heap (cellsBelow out.heap 0) tops body).Owner x.start.key (some a)) :
    ∃ o, (declForest out.heap (cellsBelow out.heap 0) tops body).Owner pos.key o ∧
      Finds out doc pos o ((addressOf out.heap a out.heap.length 0).bind fun address =>
        coveringDeclaration out.root pos address.reverse) := by
  obtain ⟨hi, hlaid⟩ := h.laidOut
  have hdepth := Forest.depth_lt h.forest.valid h.forest.oneDepth ha
  obtain ⟨path, hpath, -, hshort⟩ := exists_address h.forest ha
  obtain ⟨address, haddress⟩ := exists_addressOf hpath (hshort.trans hdepth)
  obtain ⟨hcell, hlen⟩ := addressOf_eq_some haddress
  have hne : address ≠ [] := by
    rintro rfl
    obtain ⟨tree, hheld, -⟩ := Rose.exists_nested h.held hlaid ha
    exact hheld.root_inner.1.1.ne (Option.some.inj hcell)
  obtain ⟨above, habove, hbelow⟩ := cellsTo_cons hcell hne
  obtain ⟨more, hmore, hcases⟩ := ancestry_cellsTo h.forest h.hoisted hcell hne
  rw [haddress, Option.bind_some, coveringDeclaration_eq_firstAbove]
  have hroot : decide (pos.before (out.heap.getD 0 .new).info.range.stop) = false := by
    have hstop : (out.label 0).range.stop = ⟨0, 0⟩ := by
      rw [h.root]
      rfl
    rw [decide_eq_false_iff_not, LspPos.before_iff_key, show (out.heap.getD 0 .new).info.range.stop
      = ⟨0, 0⟩ from hstop]
    exact Nat.not_lt_zero _
  have hwalk : WalkEnds out.heap 0 out.heap.length (fun info => decide (pos.before info.range.stop))
      (cellsTo out.heap 0 address)
      (firstAbove out.root (fun info => decide (pos.before info.range.stop)) address.reverse) :=
    walkEnds_firstAbove hroot hcell hlen
  rw [habove] at hmore hwalk
  rw [List.cons_append] at hmore
  have hcovers : ∀ b ∈ a :: (above ++ more), InRange out.heap b x.start.key := by
    obtain ⟨-, -, hcover, -⟩ := howner
    exact h.forest.nested.covers_of_ancestry hmore hcover
  have htest : ∀ b ∈ a :: (above ++ more), out.endsAfter pos b = true ↔
      (declForest out.heap (cellsBelow out.heap 0) tops body).Covers b pos.key := by
    intro b hb
    rw [ParseResult.endsAfter, decide_eq_true_eq, LspPos.before_iff_key]
    exact ⟨fun hstop => ⟨(hcovers b hb).1.trans hle, hstop⟩, fun hb => hb.2⟩
  have hlater := h.forest.nested.owner_later hmore howner hstarts hle htest
  have hthere : (lastSpan out.tokSpans pos).bind (fun x => innermostDecl doc x.start)
      = some (out.label a) := by
    rw [hlast, Option.bind_some, ← h.label_innermost howner, Option.map_some]
  refine ⟨_, hlater, ?_⟩
  rw [← List.cons_append, List.find?_append]
  generalize firstAbove out.root _ address.reverse = o at hwalk
  cases hwalk with
  | nowhere hall =>
    have hnone : (a :: above).find? (out.endsAfter pos) = none :=
      List.find?_eq_none.mpr fun c hc => Bool.eq_false_iff.mp (hall c hc)
    rw [hnone, Option.none_or]
    rcases hcases with rfl | ⟨p, hp, rfl⟩
    · exact .nothing
    · by_cases hstop : out.endsAfter pos p = true
      · rw [List.find?_cons_of_pos hstop]
        have hproject := List.find?_some hp
        refine .hoisted (eq_of_beq hproject) fun heq => ?_
        have hstart := Rose.ancestry_start_lt h.held hlaid hmore p (by simp)
        rw [hthere, Option.some.injEq] at heq
        rw [heq] at hstart
        exact lt_irrefl _ hstart
      · rw [List.find?_cons_of_neg hstop]
        exact .nothing
  | @first pre above' address' c hcells hpre hc hcell' habove' hlen' =>
    have hsome : (a :: above).find? (out.endsAfter pos) = some c := by
      refine List.find?_eq_some_iff_append.mpr ⟨hc, pre, above', hcells, fun b hb => ?_⟩
      rw [Bool.not_eq_true']
      exact hpre b hb
    rw [hsome, Option.some_or]
    refine .found hcell' habove' hlen' fun hproject => ?_
    rw [hthere]
    have hdeep : ∃ e, (declForest out.heap (cellsBelow out.heap 0) tops body).AtDepth e c := by
      rw [← List.cons_append, List.find?_append, hsome, Option.some_or] at hlater
      obtain ⟨e, he, -⟩ := hlater
      exact ⟨e, he⟩
    obtain ⟨e, he⟩ := hdeep
    have hempty := h.hoisted c (h.projectBlock_eq he hproject)
    cases pre with
    | nil => rw [(List.cons.inj hcells).1]
    | cons b pre =>
      have hmem : c ∈ above := by
        rw [(List.cons.inj hcells).2]
        simp
      exact absurd hempty (hbelow c hmem)

/-- **What `tj_node_at` finds**, at any position. -/
theorem finds_tjNodeAt (pos : LspPos) :
    ∃ o, (declForest out.heap (cellsBelow out.heap 0) tops body).Owner pos.key o ∧
      Finds out doc pos o (tjNodeAt out.root out.tokSpans out.owners pos) := by
  have hsorted : out.tokSpans.Pairwise fun x y => ¬ y.start.before x.start :=
    h.spans.start_le.imp fun {x y} hxy => by rwa [LspPos.before_iff_key, Nat.not_lt]
  have howners := h.forest.owner_of_tokens hsorted
  have hends : ∀ t ∈ ([] : List TokenSpan), t.tokenKind = tkEof := fun t ht => by cases ht
  rw [← h.owners] at howners
  have hat := tjNodeAt_eq_lastStarting h.spans hends pos out.root out.owners
  rw [List.append_nil] at hat
  rw [hat]
  obtain ⟨o, ho, -⟩ := startsLast_searchToken h.spans hends pos
  rw [ho.eq_lastStarting]
  have hlast := ho.eq_lastStarting
  cases ho with
  | none hall =>
    refine ⟨none, h.forest.nested.owner_none fun a ha hcover => ?_, .nothing⟩
    obtain ⟨x, hx, hstart⟩ := h.exists_span (.top ha)
    have hafter := hall x hx
    rw [LspPos.before_iff_key, hstart] at hafter
    exact absurd hcover.1 (Nat.not_le_of_lt hafter)
  | @some x pre post hspans hstart hpost =>
    have hle : x.start.key ≤ pos.key := by
      rwa [LspPos.before_iff_key, Nat.not_lt] at hstart
    have hstarts : ∀ d b, (declForest out.heap (cellsBelow out.heap 0) tops body).AtDepth d b →
        (nodeRange out.heap b).start.key ≤ pos.key →
        (nodeRange out.heap b).start.key ≤ x.start.key := by
      intro d b hb hpos
      obtain ⟨y, hy, hystart⟩ := h.exists_span hb
      have horder := h.spans.start_le
      rw [← hystart] at hpos ⊢
      rw [hspans] at hy horder
      rcases List.mem_append.mp hy with hy | hy
      · exact (List.pairwise_append.mp horder).2.2 y hy x List.mem_cons_self
      · rcases List.mem_cons.mp hy with rfl | hy
        · exact le_rfl
        · have hafter := hpost y hy
          rw [LspPos.before_iff_key] at hafter
          exact absurd hpos (Nat.not_le_of_lt hafter)
    have hget : out.tokSpans[pre.length]? = some x := by
      rw [hspans, List.getElem?_append_right (Nat.le_refl _), Nat.sub_self]
      rfl
    have hspan : lastSpan out.tokSpans pos = some x := by
      rw [lastSpan, hlast, Option.bind_some, hget]
    obtain ⟨owner, howner, hx⟩ : ∃ owner, out.tokOwners[pre.length]? = some owner ∧
        (declForest out.heap (cellsBelow out.heap 0) tops body).Owner x.start.key owner := by
      obtain ⟨hlt, hx⟩ := List.getElem?_eq_some_iff.mp hget
      have hlt' : pre.length < out.tokOwners.length := by rwa [← howners.length_eq]
      refine ⟨_, List.getElem?_eq_getElem hlt', ?_⟩
      rw [← hx]
      exact howners.get hlt hlt'
    rw [Option.bind_some, ParseResult.owners, List.getElem?_map, howner, Option.map_some]
    cases owner with
    | none =>
      refine ⟨none, fun d a ha hcover => hx d a ha ?_, .nothing⟩
      exact ⟨hstarts d a ha hcover.1, hle.trans_lt hcover.2⟩
    | some a =>
      obtain ⟨d, ha, -⟩ := id hx
      obtain ⟨o, ho, hfinds⟩ := h.finds_of_owner hspan hle hstarts ha hx
      exact ⟨o, ho, hfinds⟩

/-- **A walk to the parents** from what `tj_node_at` finds: it ends at a declaration around the
position that the test accepts, and if there is none, only the project block can pass the test. -/
theorem walk {test : TjInfo → Bool} (hroot : test (out.heap.getD 0 .new).info = false)
    (pos : LspPos) :
    (∀ address, ((tjNodeAt out.root out.tokSpans out.owners pos).bind fun node =>
        firstAbove out.root test node.reverse) = some address →
      ∃ d c, cellAt out.heap 0 address = some c ∧ address.length ≤ out.heap.length ∧
        test (out.heap.getD c .new).info = true ∧
        (declForest out.heap (cellsBelow out.heap 0) tops body).AtDepth d c ∧
        (declForest out.heap (cellsBelow out.heap 0) tops body).Covers c pos.key) ∧
    (((tjNodeAt out.root out.tokSpans out.owners pos).bind fun node =>
        firstAbove out.root test node.reverse) = none →
      ∀ d c, (declForest out.heap (cellsBelow out.heap 0) tops body).AtDepth d c →
        (declForest out.heap (cellsBelow out.heap 0) tops body).Covers c pos.key →
        (out.label c).keyword ≠ kwProject → test (out.heap.getD c .new).info = false) := by
  obtain ⟨o, ho, hfinds⟩ := h.finds_tjNodeAt pos
  generalize tjNodeAt out.root out.tokSpans out.owners pos = found at hfinds
  cases hfinds with
  | @found c above address hcell habove hlen _ =>
    have hne : address ≠ [] := by
      rintro rfl
      cases habove
    obtain ⟨d, hc, hcover, hdeepest⟩ := ho
    obtain ⟨more, hmore, hcases⟩ := ancestry_cellsTo h.forest h.hoisted hcell hne
    have hwalk : WalkEnds out.heap 0 out.heap.length test (cellsTo out.heap 0 address)
        (firstAbove out.root test address.reverse) := walkEnds_firstAbove hroot hcell hlen
    rw [habove] at hmore hwalk
    rw [List.cons_append] at hmore
    rw [Option.bind_some]
    generalize firstAbove out.root test address.reverse = result at hwalk
    cases hwalk with
    | nowhere hall =>
      refine ⟨fun address' heq => (by cases heq), fun _ e b hb hcover' hproject => ?_⟩
      have hdepth := h.forest.oneDepth _ _ c hc hmore.atDepth
      have hmem := h.forest.nested.mem_ancestry hmore hcover hb hcover'
        (hdepth ▸ (hdeepest e b hb hcover').1)
      rw [← List.cons_append] at hmem
      rcases List.mem_append.mp hmem with hmem | hmem
      · exact hall b hmem
      · rcases hcases with rfl | ⟨p, hp, rfl⟩
        · cases hmem
        · rw [List.mem_singleton.mp hmem] at hproject
          have hkeyword := List.find?_some hp
          exact absurd (eq_of_beq hkeyword) hproject
    | @first pre above' address' c' hcells _ hc' hcell' _ hlen' =>
      refine ⟨fun address'' heq => ?_, fun heq => by cases heq⟩
      obtain rfl := Option.some.inj heq
      have hmem : c' ∈ c :: (above ++ more) := by
        rw [← List.cons_append, hcells]
        simp
      obtain ⟨e, he⟩ := hmore.exists_atDepth c' hmem
      exact ⟨e, c', hcell', hlen', hc', he,
        h.forest.nested.covers_of_ancestry hmore hcover c' hmem⟩
  | nothing =>
    refine ⟨fun address heq => (by cases heq), fun _ d c hc hcover _ => ?_⟩
    exact absurd hcover (ho d c hc)
  | @hoisted p hp _ =>
    refine ⟨fun address heq => (by cases heq), fun _ d c hc hcover hproject => ?_⟩
    obtain ⟨e, he, -, hdeepest⟩ := ho
    have htop := Forest.AtDepth.top (F := declForest out.heap (cellsBelow out.heap 0) tops body)
      (h.forest.project p (h.projectBlock_eq he hp))
    obtain rfl := h.forest.oneDepth _ _ p he htop
    obtain ⟨hle, hsame⟩ := hdeepest d c hc hcover
    rw [hsame (Nat.le_zero.mp hle)] at hproject
    exact absurd hp hproject

end Scoped

/-- The declaration at an address in the tree of a parse, as far as its heading goes. -/
def ParseResult.headingAt (out : ParseResult) (address : List ℕ) : Option TjInfo :=
  (out.root.sub address).map fun s => s.info.heading

theorem ParseResult.headingAt_eq {out : ParseResult} {address : List ℕ} {c : ℕ}
    (hcell : cellAt out.heap 0 address = some c) (hlen : address.length ≤ out.heap.length) :
    out.headingAt address = some (out.label c) := by
  rw [headingAt, root, sub_nodeOf hlen, hcell, Option.map_some, Option.map_some, info_nodeOf]
  rfl

/-- The position is in the project block, behind a declaration that has been hoisted out of it: the
last token that starts there or before it belongs to that. -/
def BehindHoisted (doc : SynTree) (spans : List TokenSpan) (pos : LspPos) : Prop :=
  ∃ p, innermostDecl doc pos = some p ∧ p.keyword = kwProject ∧
    (lastSpan spans pos).bind (fun x => innermostDecl doc x.start) ≠ some p

section Parses

variable {κ : Type*} [DecidableEq κ] {T : Tables κ NonTerm SemAction} {s t : ProgState}
  {text : CStr} {doc : SynTree} {out : ParseResult}

end Parses

/-! ### A task in a project block -/

end TaskjugglerLsp
