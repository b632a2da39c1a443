import TaskjugglerLsp.Grammar.Cursor

/-!
# The ids of declarations

The selection range of a declaration is that of its id, which stands between the keyword and the
body.  The range ends behind the body, and behind the keyword if there is none: then the id is not in
it, and `task_decl_at_cursor` does not find the task there.

* `DeclTokens.Writes`: the tokens of a declaration of a document.
* `selection_within_iff`: whether the id is in the range.
* `task_at_id`: whether the task is found at its id.
-/

namespace TaskjugglerLsp

open Lib Lib.Lr

/-! ### The tokens of a declaration -/

theorem posInRange_iff (p : LspPos) (r : LspRange) :
    posInRange p r = true ↔ r.start.key ≤ p.key ∧ p.key ≤ r.stop.key := by
  have hstart := r.start.character.toNat_lt
  have hp := p.character.toNat_lt
  have hstop := r.stop.character.toNat_lt
  unfold posInRange LspPos.key
  rw [decide_eq_true_eq]
  simp only [UInt32.lt_iff_toNat_lt, UInt32.le_iff_toNat_le, ← UInt32.toNat_inj]
  omega

/-- Tokens of a declaration: its keyword, those in front of its body, its id and its name among them,
and those of the body with its braces. -/
structure DeclTokens where
  keyword : Token
  id : Token
  name : Token
  middle : List Token
  body : List Token
  stop : LspPos

/-- **A declaration is written** by some of the tokens of a document. -/
structure DeclTokens.Writes (d : DeclTokens) (toks : List Token) (info : TjInfo) : Prop where
  place : ∃ pre post, toks = pre ++ d.keyword :: (d.middle ++ d.body) ++ post
  heading : info = headingOf d.keyword d.id d.name d.stop
  keyword : d.keyword.kind ≠ tkRbrace
  id : Lists d.id d.middle
  body : ∃ us, BodyTokens d.stop d.body us

/-- The declarations of a document. -/
def documentDecls (doc : SynTree) : List TjInfo := (Rose.linksAll none (documentTrees doc)).map (·.2)

theorem headingOf_selection (kw id name : Token) (stop : LspPos) :
    (headingOf kw id name stop).selectionRange = if id.text.isSome = true then ⟨id.start, id.stop⟩
      else ⟨kw.start, kw.stop⟩ := rfl

theorem WrittenIn.exists_tokens {ts : List Token} {t : Rose TjInfo} (h : WrittenIn ts t) :
    ∃ d : DeclTokens, d.Writes ts t.label := by
  cases h with
  | @intro pre mid tail post us kw id name stop children hkw hid hbody hchildren =>
    exact ⟨⟨kw, id, name, mid, tail, stop⟩, ⟨pre, post, rfl⟩, rfl, hkw, hid, us, hbody⟩

namespace DeclTokens.Writes

variable {d : DeclTokens} {toks : List Token} {info : TjInfo} (h : d.Writes toks info)
  (hseq : InSequence toks)

include h hseq

theorem inSequence : InSequence (d.keyword :: (d.middle ++ d.body)) := by
  obtain ⟨pre, post, rfl⟩ := h.place
  exact hseq.sublist <| (List.sublist_append_right _ _).trans (List.sublist_append_left _ _)

/-- The id stands behind the keyword, or is that, and before the body. -/
theorem selection : info.startKey ≤ info.selectionRange.start.key ∧
    ∀ t ∈ d.body, info.selectionRange.stop.key ≤ t.start.key := by
  have hown := h.inSequence hseq
  obtain ⟨hafter, hrest⟩ := List.pairwise_cons.mp hown.ordered
  obtain ⟨-, -, hcross⟩ := List.pairwise_append.mp hrest
  rw [h.heading, headingOf_selection]
  rcases h.id with hzero | ⟨hmem, htext, -⟩
  · rw [hzero, if_neg (by decide)]
    exact ⟨le_rfl, fun t ht => hafter t (List.mem_append_right _ ht)⟩
  · rw [if_pos htext]
    refine ⟨?_, hcross d.id hmem⟩
    exact (hown.le d.keyword List.mem_cons_self).trans (hafter d.id (List.mem_append_left _ hmem))

/-- The range ends behind the keyword, or behind the body. -/
theorem stopKey : (d.body = [] ∧ info.stopKey = d.keyword.stop.key) ∨
    (d.body ≠ [] ∧ info.selectionRange.stop.key < info.stopKey) := by
  have hown := h.inSequence hseq
  obtain ⟨-, hbehind⟩ := h.selection hseq
  obtain ⟨us, hbody⟩ := h.body
  have hstop : info.stopKey = (rangeEnd d.keyword ⟨[], d.stop⟩).key := by
    rw [h.heading]
    rfl
  rw [hstop, rangeEnd]
  generalize d.body = body at hbody hbehind hown ⊢
  cases hbody with
  | none hzero =>
    rw [if_pos hzero]
    exact .inl ⟨rfl, rfl⟩
  | @braces l r us hl hr hrstop =>
    have hproper := hown.proper l (by simp) (by rw [hl]; decide)
    have hlr : l.stop.key ≤ r.start.key := by
      obtain ⟨-, hrest⟩ := List.pairwise_cons.mp hown.ordered
      obtain ⟨-, htail, -⟩ := List.pairwise_append.mp hrest
      exact (List.pairwise_cons.mp htail).1 r (by simp)
    have hr := hown.le r (by simp)
    have hl := hbehind l List.mem_cons_self
    have hpos : 0 < r.stop.key := by omega
    rw [hrstop, if_neg (key_pos hpos)]
    refine .inr ⟨List.cons_ne_nil _ _, ?_⟩
    show _ < r.stop.key
    omega

theorem before_stop_iff {pos : LspPos} (hpos : posInRange pos info.selectionRange = true) :
    pos.key < info.stopKey ↔ d.body ≠ [] ∨ pos.before d.keyword.stop := by
  rw [posInRange_iff] at hpos
  rw [LspPos.before_iff_key]
  rcases h.stopKey hseq with ⟨hbody, hstop⟩ | ⟨hbody, hstop⟩
  · rw [hstop]
    exact ⟨.inr, fun h => h.resolve_left (not_not_intro hbody)⟩
  · exact iff_of_true (hpos.2.trans_lt hstop) (.inl hbody)

/-- **The id is in the range** exactly if there is a body, or no id. -/
theorem selection_within_iff :
    (info.startKey ≤ info.selectionRange.start.key ∧ info.selectionRange.stop.key ≤ info.stopKey) ↔
      d.id.text = none ∨ d.body ≠ [] := by
  obtain ⟨hstart, -⟩ := h.selection hseq
  rw [and_iff_right hstart]
  rcases h.stopKey hseq with ⟨hbody, hstop⟩ | ⟨hbody, hstop⟩
  · rw [hstop, h.heading, headingOf_selection]
    refine Iff.trans ?_ (or_iff_left (not_not_intro hbody)).symm
    rcases h.id with hzero | ⟨hmem, htext, hkind⟩
    · rw [hzero, if_neg (by decide)]
      exact iff_of_true le_rfl rfl
    · have hown := h.inSequence hseq
      have hafter := (List.pairwise_cons.mp hown.ordered).1 d.id (List.mem_append_left _ hmem)
      have hproper := hown.proper d.id (by simp [hmem]) hkind
      rw [if_pos htext]
      refine iff_of_false (Nat.not_le_of_lt (hafter.trans_lt hproper)) fun hnone => ?_
      rw [hnone] at htext
      cases htext
  · exact iff_of_true hstop.le (.inr hbody)

end DeclTokens.Writes

theorem WrittenIn.child_start {ts : List Token} {l : TjInfo} {children : List (Rose TjInfo)}
    (h : WrittenIn ts (.node l children)) (hseq : InSequence ts) :
    l.startKey ≤ l.selectionRange.start.key ∧
      ∀ t ∈ children, l.selectionRange.stop.key < t.label.startKey := by
  generalize hnode : Rose.node l children = node at h
  cases h with
  | @intro pre mid tail post us kw id name stop children' hkw hid hbody hchildren =>
    obtain ⟨rfl, rfl⟩ := Rose.node.inj hnode
    have hwrites : DeclTokens.Writes ⟨kw, id, name, mid, tail, stop⟩
        (pre ++ kw :: (mid ++ tail) ++ post) (headingOf kw id name stop) :=
      ⟨⟨pre, post, rfl⟩, rfl, hkw, hid, us, hbody⟩
    have hown := hwrites.inSequence hseq
    obtain ⟨hstart, hbehind⟩ := hwrites.selection hseq
    refine ⟨hstart, fun t ht => ?_⟩
    obtain ⟨kw', hkw', -, hkey⟩ := (hchildren t ht).exists_keyword
    rw [hkey]
    cases hbody with
    | none => cases hkw'
    | @braces l r us hl hr hstop =>
      obtain ⟨-, hrest⟩ := List.pairwise_cons.mp hown.ordered
      obtain ⟨-, htail, -⟩ := List.pairwise_append.mp hrest
      have hproper := hown.proper l (by simp) (by rw [hl]; decide)
      exact ((hbehind l List.mem_cons_self).trans_lt hproper).trans_le
        ((List.pairwise_cons.mp htail).1 kw' (List.mem_append_left _ hkw'))

/-! ### The cell of a declaration -/

/-- A walk from a cell that the test accepts goes nowhere. -/
theorem WalkEnds.here {heap : List NodeCell} {a n c : ℕ} {test : TjInfo → Bool} {above : List ℕ}
    {o : Option (List ℕ)} (h : WalkEnds heap a n test (c :: above) o)
    (hc : test (heap.getD c .new).info = true) :
    ∃ address, o = some address ∧ cellAt heap a address = some c ∧ address.length ≤ n := by
  cases h with
  | nowhere hall =>
    rw [hall c List.mem_cons_self] at hc
    cases hc
  | @first pre above' address c' hcells hpre _ hcell _ hlen =>
    cases pre with
    | nil =>
      rw [(List.cons.inj hcells).1]
      exact ⟨address, rfl, hcell, hlen⟩
    | cons b pre =>
      rw [(List.cons.inj hcells).1, hpre b List.mem_cons_self] at hc
      cases hc

/-- **A position at the id of a declaration** belongs to that, before the end of its range. -/
theorem Scoped.owner_of_selection {out : ParseResult} {doc : SynTree} {tops body : List ℕ}
    (h : Scoped out doc tops body) {info : TjInfo} (hinfo : info ∈ documentDecls doc) {pos : LspPos}
    (hpos : posInRange pos info.selectionRange = true) (hstop : pos.key < info.stopKey) :
    ∃ a, out.label a = info ∧
      (declForest out.heap (cellsBelow out.heap 0) tops body).Owner pos.key (some a) := by
  obtain ⟨link, hlink, rfl⟩ := List.mem_map.mp hinfo
  obtain ⟨d, a, ha, hlabel⟩ := Rose.HoldsAll.exists_cell TjInfo.startKey TjInfo.stopKey
    _ tops 0 none h.held (fun a ha => .top ha) link hlink
  obtain ⟨⟨l, us⟩, hheld, hwritten⟩ := Rose.exists_held TjInfo.startKey TjInfo.stopKey
    (fun l us hnode => hnode.child) h.held h.written ha
  obtain ⟨hstart, hbehind⟩ := hwritten.child_start h.place.inSequence
  obtain ⟨-, hl, hus⟩ := hheld
  rw [posInRange_iff, ← hlabel, hl] at hpos
  have hcover : (declForest out.heap (cellsBelow out.heap 0) tops body).Covers a pos.key := by
    refine ⟨?_, ?_⟩
    · show (out.label a).startKey ≤ pos.key
      rw [hl]
      exact hstart.trans hpos.1
    · show pos.key < (out.label a).stopKey
      rwa [hlabel]
  refine ⟨a, hlabel, h.forest.nested.owner_of_settled ha hcover fun b hb hby => ?_⟩
  obtain ⟨u, hu, hub⟩ := hus.exists_tree hb
  have hafter := hbehind u hu
  rw [← hub.label_eq] at hafter
  exact absurd hby.1 (Nat.not_le_of_lt (hpos.2.trans_lt hafter))

/-- What `task_decl_at_cursor` looks for. -/
def isTaskAt (pos : LspPos) (info : TjInfo) : Bool :=
  info.keyword == kwTask && posInRange pos info.selectionRange

theorem exists_writes {doc : SynTree} {lossy : Bool}
    (hspells : Stmt.SpellsAll lossy (doc.stmts []) doc.toks) {info : TjInfo}
    (hinfo : info ∈ documentDecls doc) : ∃ d : DeclTokens, d.Writes doc.toks info := by
  obtain ⟨link, hlink, rfl⟩ := List.mem_map.mp hinfo
  obtain ⟨us, hwritten⟩ := Rose.exists_node (fun l us hnode => hnode.child) (documentTrees doc)
    none (describes_writtenIn.documentTrees hspells) link hlink
  exact hwritten.exists_tokens

section Parses

variable {κ : Type*} [DecidableEq κ] {T : Tables κ NonTerm SemAction} {s t : ProgState}
  {text : CStr} {doc : SynTree} {out : ParseResult}

/-- **A task is found at its id** exactly before the end of its range: that of a task without a body
ends behind the keyword. -/
theorem taskDeclAtCursor_iff (hT : T.Sound grammar yyError) (hs : ParseHistory T s)
    (h : ParsesTo T s text doc t out) (hone : OneProject doc) {info : TjInfo}
    (hinfo : info ∈ documentDecls doc) (htask : info.keyword = kwTask) {pos : LspPos}
    (hpos : posInRange pos info.selectionRange = true) :
    (taskDeclAtCursor out.root out.tokSpans out.owners pos).bind out.headingAt = some info ↔
      pos.before info.range.stop := by
  obtain ⟨tops, body, hscoped⟩ := h.scoped hT hs hone
  obtain ⟨o, ho, hfinds⟩ := hscoped.finds_tjNodeAt pos
  have hroot : isTaskAt pos (out.heap.getD 0 .new).info = false := by
    have hlabel : isTaskAt pos (out.label 0) = false := by
      rw [hscoped.root]
      rfl
    exact hlabel
  have hwalk {address : List ℕ} {c : ℕ} (hcell : cellAt out.heap 0 address = some c)
      (hlen : address.length ≤ out.heap.length) :
      WalkEnds out.heap 0 out.heap.length (isTaskAt pos) (cellsTo out.heap 0 address)
        (firstAbove out.root (isTaskAt pos) address.reverse) :=
    walkEnds_firstAbove hroot hcell hlen
  unfold taskDeclAtCursor
  rw [LspPos.before_iff_key]
  constructor
  · intro hfound
    generalize tjNodeAt out.root out.tokSpans out.owners pos = found at hfinds hfound
    cases hfinds with
    | nothing | hoisted => cases hfound
    | @found c above address hcell habove hlen _ =>
      have hfrom := hwalk hcell hlen
      change (firstAbove out.root (isTaskAt pos) address.reverse).bind out.headingAt = _ at hfound
      generalize firstAbove out.root (isTaskAt pos) address.reverse = result at hfrom hfound
      cases hfrom with
      | nowhere => cases hfound
      | @first pre above' address' c' hcells _ _ hcell' _ hlen' =>
        rw [Option.bind_some, out.headingAt_eq hcell' hlen', Option.some.injEq] at hfound
        have hne : address ≠ [] := by
          rintro rfl
          cases habove
        obtain ⟨more, hmore, -⟩ := ancestry_cellsTo hscoped.forest hscoped.hoisted hcell hne
        have hmem : c' ∈ cellsTo out.heap 0 address ++ more := by
          rw [hcells]
          simp
        rw [habove, List.cons_append] at hmore hmem
        obtain ⟨-, -, hcover, -⟩ := ho
        rw [← hfound]
        exact (hscoped.forest.nested.covers_of_ancestry hmore hcover c' hmem).2
  · intro hstop
    obtain ⟨a, hlabel, howner⟩ := hscoped.owner_of_selection hinfo hpos hstop
    obtain rfl := ho.unique howner
    generalize tjNodeAt out.root out.tokSpans out.owners pos = found at hfinds
    have htest : isTaskAt pos (out.heap.getD a .new).info = true := by
      have hat : isTaskAt pos (out.label a) = true := by
        rw [hlabel, isTaskAt, hpos, htask]
        rfl
      exact hat
    cases hfinds with
    | @found _ above address hcell habove hlen _ =>
      have hfrom := hwalk hcell hlen
      rw [habove] at hfrom
      obtain ⟨address', hresult, hcell', hlen'⟩ := hfrom.here htest
      show (firstAbove out.root (isTaskAt pos) address.reverse).bind out.headingAt = _
      rw [hresult, Option.bind_some, out.headingAt_eq hcell' hlen', hlabel]
    | hoisted hp =>
      rw [hlabel, htask] at hp
      exact absurd hp (by decide)

end Parses

/-! ### A task in a project block -/

theorem nestedText_tasks : (treeUpTo coreTables 400 .boot nestedText).map (fun (x : ParseResult × SynTree) =>
    decide (OneProject x.2 ∧ ∃ info ∈ documentDecls x.2, info.keyword = kwTask)) = some true := by
  decide +kernel

end TaskjugglerLsp
