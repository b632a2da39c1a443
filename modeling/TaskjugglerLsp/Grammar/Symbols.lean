import TaskjugglerLsp.Grammar.Cursor

/-!
# The outline of a document

What `textDocument/documentSymbol` shows are the declarations below the synthetic root.  Their ranges
are nested and side by side, apart from the project block, whose declarations stand beside it.

* `outline_laidOut`: the ranges of the symbols.
-/

namespace TaskjugglerLsp

open Lib Lib.Lr

/-- One declaration lies in another one, behind its start. -/
def Inside (t u : Rose TjInfo) : Prop :=
  u.label.startKey < t.label.startKey ∧ t.label.stopKey ≤ u.label.stopKey

/-- **The symbols of an outline**: what is below one of them lies in it, and those at the top lie in
the order of the text, side by side or in the project block. -/
structure OutlineLaidOut (ts : List (Rose TjInfo)) : Prop where
  nested : ∀ t ∈ ts, Rose.Nested TjInfo.startKey TjInfo.stopKey t
  siblings : ts.Pairwise fun t u => t.label.startKey ≤ u.label.startKey ∧
    (Rose.Before TjInfo.startKey TjInfo.stopKey t u ∨ isProject t = true ∧ Inside u t)

/-- Where two declarations at the root of a parse lie. -/
def Placed (t u : Rose TjInfo) : Prop :=
  Rose.Before TjInfo.startKey TjInfo.stopKey t u ∨ Rose.Before TjInfo.startKey TjInfo.stopKey u t ∨
    isProject t = true ∧ Inside u t ∨ isProject u = true ∧ Inside t u

theorem Placed.symm {t u : Rose TjInfo} (h : Placed t u) : Placed u t := by
  rcases h with h | h | h | h
  · exact .inr (.inl h)
  · exact .inl h
  · exact .inr (.inr (.inr h))
  · exact .inr (.inr (.inl h))

theorem Hoists.placed {trees part : List (Rose TjInfo)} (h : Hoists trees part) {lo hi : ℕ}
    (hlaid : DeclsLaidOut lo hi trees) :
    (∀ t ∈ part, Rose.Nested TjInfo.startKey TjInfo.stopKey t) ∧ part.Pairwise Placed := by
  cases h with
  | none => exact ⟨hlaid.nested, hlaid.apart.imp fun h => .inl h⟩
  | @one pre body post p hp hpre hbody hpost =>
    obtain ⟨hpreApart, hrest, hcross⟩ := List.pairwise_append.mp hlaid.apart
    obtain ⟨hbehind, hpostApart⟩ := List.pairwise_cons.mp hrest
    have hproject := hlaid.nested (.node p body) (by simp)
    cases hproject with
    | node proper within apart nested =>
      have hempty : Rose.Nested TjInfo.startKey TjInfo.stopKey (.node p []) :=
        .node proper (fun t ht => by cases ht) .nil fun t ht => by cases ht
      refine ⟨fun t ht => ?_, ?_⟩
      · rw [List.mem_append, List.mem_append, List.mem_cons] at ht
        rcases ht with ht | ht | rfl | ht
        · exact hlaid.nested t (by simp [ht])
        · exact nested t ht
        · exact hempty
        · exact hlaid.nested t (by simp [ht])
      · have hends (t : Rose TjInfo) (ht : t ∈ body) : t.label.stopKey ≤ p.stopKey := (within t ht).2
        refine List.pairwise_append.mpr ⟨hpreApart.imp fun h => .inl h,
          List.pairwise_append.mpr ⟨apart.imp fun h => .inl h, ?_, ?_⟩, ?_⟩
        · exact List.pairwise_cons.mpr ⟨fun u hu => .inl (hbehind u hu),
            hpostApart.imp fun h => .inl h⟩
        · intro t ht u hu
          rcases List.mem_cons.mp hu with rfl | hu
          · exact .inr (.inr (.inr ⟨beq_iff_eq.mpr hp, within t ht⟩))
          · exact .inl ((hends t ht).trans (hbehind u hu))
        · intro t ht u hu
          rw [List.mem_append, List.mem_cons] at hu
          rcases hu with hu | rfl | hu
          · have hbefore := hcross t ht (.node p body) (by simp)
            exact .inl ((show t.label.stopKey ≤ p.startKey from hbefore).trans (within u hu).1.le)
          · exact .inl (hcross t ht (.node p body) (by simp))
          · exact .inl (hcross t ht u (by simp [hu]))

theorem outlineLaidOut_of_perm {ts part : List (Rose TjInfo)} (hperm : ts.Perm part)
    (hnested : ∀ t ∈ part, Rose.Nested TjInfo.startKey TjInfo.stopKey t)
    (hplaced : part.Pairwise Placed)
    (hsorted : ts.Pairwise fun t u => t.label.startKey ≤ u.label.startKey) : OutlineLaidOut ts := by
  have hnested' : ∀ t ∈ ts, Rose.Nested TjInfo.startKey TjInfo.stopKey t :=
    fun t ht => hnested t (hperm.mem_iff.mp ht)
  refine ⟨hnested', ?_⟩
  have hplaced' := hperm.symm.pairwise hplaced fun h => h.symm
  refine (hsorted.and hplaced').imp_of_mem ?_
  rintro t u ht hu ⟨hle, hbefore | hbehind | hinside | ⟨-, hinside⟩⟩
  · exact ⟨hle, .inl hbefore⟩
  · have hproper := (hnested' u hu).proper
    exact absurd (hproper.trans_le (hbehind.trans hle)) (lt_irrefl _)
  · exact ⟨hle, .inr hinside⟩
  · exact absurd hinside.1 (Nat.not_lt_of_le hle)

section Parses

variable {κ : Type*} [DecidableEq κ] {T : Tables κ NonTerm SemAction} {s t : ProgState}
  {text : CStr} {doc : SynTree} {out : ParseResult}

theorem ParsesTo.symbols (hT : T.Sound grammar yyError) (h : ParsesTo T s text doc t out) :
    (TjNode.treeAll out.root.children).Perm (Stmt.rootsAll (doc.stmts []) []) ∧
    (TjNode.treeAll out.root.children).Pairwise fun t u => t.label.startKey ≤ u.label.startKey := by
  obtain ⟨input, -, -, hstate, rfl, -⟩ := h.spec hT
  have hbuilt : BuiltTrees [] s.grammar.install (Stmt.outlineAll (doc.stmts [])) _ _ _ :=
    Stmt.execAll_built (fun st _ => st.exec_built) [] s.grammar.install []
      (outlined_install s.grammar)
  rw [← hstate] at hbuilt
  obtain ⟨cells, hheld, hbelow, hheight⟩ := hbuilt.outlined.held t.front
  generalize hout : parseResult t.front t.grammar = out at hheld hbelow hheight ⊢
  obtain ⟨m, hm⟩ : ∃ m, out.heap.length = m + 1 := ⟨out.heap.length - 1, by omega⟩
  have htree : ∀ n a, (nodeOf out.heap n a).tree = Rose.unfold out.label out.below n a :=
    fun n a => tree_nodeOf { t.grammar with heap := out.heap } n a
  have hroot : TjNode.treeAll out.root.children
      = (sortByStart out.heap cells).map (Rose.unfold out.label out.below m) := by
    have hchildren : out.root.children = (out.below 0).map (nodeOf out.heap m) := by
      rw [ParseResult.root, hm]
      rfl
    rw [hchildren, TjNode.treeAll_eq, List.map_map, hbelow]
    exact List.map_congr_left fun a _ => htree m a
  rw [hroot]
  refine ⟨?_, ?_⟩
  · rw [← Rose.HoldsAll.unfold_eq _ cells m hheld (by omega)]
    exact (perm_sortByStart out.heap cells).map _
  · have hlabel (a : ℕ) : (Rose.unfold out.label out.below m a).label = out.label a := by
      cases m <;> rfl
    rw [List.pairwise_map]
    refine (sorted_sortByStart cells).imp fun {a b} hab => ?_
    rw [hlabel, hlabel]
    exact hab

/-- **The ranges of the symbols** are nested and side by side, apart from the project block, whose
range has those of the declarations hoisted out of it. -/
theorem outline_laidOut (hT : T.Sound grammar yyError) (hs : ParseHistory T s)
    (h : ParsesTo T s text doc t out) (hone : OneProject doc) :
    OutlineLaidOut (TjNode.treeAll out.root.children) := by
  obtain ⟨hspells, hplace⟩ := h.spells hT hs
  obtain ⟨hi, hlaid⟩ := laidOut_documentTrees hspells hplace
  obtain ⟨hperm, hsorted⟩ := h.symbols hT
  obtain ⟨hnested, hplaced⟩ := (h.hoists hT hs hone).placed hlaid
  exact outlineLaidOut_of_perm hperm hnested hplaced hsorted

end Parses

/-! ### A task in a project block -/

/-- The ranges of the symbols of this document. -/
theorem outline_laidOut_nested : ∃ doc t out, ParsesTo coreTables .boot nestedText doc t out ∧
    OutlineLaidOut (TjNode.treeAll out.root.children) := by
  obtain ⟨doc, t, out, hp, hone⟩ := exists_parsesTo nestedText_oneProject
  exact ⟨doc, t, out, hp, outline_laidOut coreTables_sound .boot hp (of_decide_eq_true hone)⟩

end TaskjugglerLsp
