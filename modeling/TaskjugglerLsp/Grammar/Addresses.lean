import TaskjugglerLsp.Dependency
import TaskjugglerLsp.Grammar.Declarations
import TaskjugglerLsp.Grammar.Output
import TaskjugglerLsp.Grammar.Scopes

/-!
# Addresses of the declarations of a parse

A pointer to a declaration is a cell of the heap, or an address in the tree of the output.  An
address leads along cells, each of them below the one before it.

* `sub_nodeOf`: the declaration at an address is that of the cell.
* `addressOf_eq_some`: the address of a cell leads there.
* `walkEnds_firstAbove`: the walk to the parents, cell by cell.
* `Stmt.exec_keepsRoot`: the synthetic root has no place in the text.
-/

namespace TaskjugglerLsp

open Lib

section Heap

variable {heap : List NodeCell}

/-- The children of a cell. -/
abbrev cellsBelow (heap : List NodeCell) (a : ℕ) : List ℕ := (heap.getD a .new).children

/-- The cell at an address. -/
abbrev cellAt (heap : List NodeCell) (a : ℕ) (address : List ℕ) : Option ℕ :=
  Descent.node (cellsBelow heap) a address

theorem children_nodeOf (n a : ℕ) :
    (nodeOf heap (n + 1) a).children = (cellsBelow heap a).map (nodeOf heap n) := rfl

theorem info_nodeOf (n a : ℕ) : (nodeOf heap n a).info = (heap.getD a .new).info := by
  cases n <;> rfl

/-- **The declaration at an address** is that of the cell there. -/
theorem sub_nodeOf {n a : ℕ} {address : List ℕ} (h : address.length ≤ n) :
    (nodeOf heap n a).sub address
      = (cellAt heap a address).map (nodeOf heap (n - address.length)) := by
  induction address generalizing n a with
  | nil => rfl
  | cons i address ih =>
    obtain ⟨m, rfl⟩ : ∃ m, n = m + 1 := ⟨n - 1, by rw [List.length_cons] at h; omega⟩
    rw [List.length_cons, Nat.add_le_add_iff_right] at h
    rw [TjNode.sub, Descent.node, children_nodeOf, List.getElem?_map, cellAt, Descent.node,
      List.length_cons, Nat.add_sub_add_right]
    cases (cellsBelow heap a)[i]? with
    | none => rfl
    | some b => exact ih h

/-- **The address of a cell** leads to it. -/
theorem addressOf_eq_some {target n a : ℕ} {address : List ℕ}
    (h : addressOf heap target n a = some address) :
    cellAt heap a address = some target ∧ address.length ≤ n := by
  induction n generalizing a address with
  | zero =>
    rw [addressOf] at h
    split_ifs at h with ha
    obtain rfl := Option.some.inj h
    exact ⟨congrArg some ha, le_refl _⟩
  | succ n ih =>
    rw [addressOf] at h
    split_ifs at h with ha
    · obtain rfl := Option.some.inj h
      exact ⟨congrArg some ha, Nat.zero_le _⟩
    · obtain ⟨⟨b, i⟩, hmem, hb⟩ := List.exists_of_findSome?_eq_some h
      obtain ⟨rest, hrest, rfl⟩ := Option.map_eq_some_iff.mp hb
      obtain ⟨hcell, hlen⟩ := ih hrest
      have hget := List.mem_zipIdx_iff_getElem?.mp hmem
      exact ⟨Descent.node_cons_eq_some.mpr ⟨b, hget, hcell⟩, Nat.succ_le_succ hlen⟩

theorem exists_addressOf {target n a : ℕ} {address : List ℕ}
    (h : cellAt heap a address = some target) (hlen : address.length ≤ n) :
    ∃ found, addressOf heap target n a = some found := by
  induction n generalizing a address with
  | zero =>
    obtain rfl := List.length_eq_zero_iff.mp (Nat.le_zero.mp hlen)
    exact ⟨[], if_pos (Option.some.inj h)⟩
  | succ n ih =>
    by_cases ha : a = target
    · exact ⟨[], if_pos ha⟩
    · cases address with
      | nil => exact absurd (Option.some.inj h) ha
      | cons i address =>
        obtain ⟨b, hb, hcell⟩ := Descent.node_cons_eq_some.mp h
        obtain ⟨found, hfound⟩ := ih hcell (Nat.le_of_succ_le_succ hlen)
        have hsome : ((cellsBelow heap a).zipIdx.findSome? fun c =>
            (addressOf heap target n c.1).map fun rest => c.2 :: rest).isSome := by
          rw [List.findSome?_isSome_iff]
          refine ⟨(b, i), List.mem_zipIdx_iff_getElem?.mpr hb, ?_⟩
          rw [hfound]
          rfl
        obtain ⟨address', haddress⟩ := Option.isSome_iff_exists.mp hsome
        refine ⟨address', ?_⟩
        rw [addressOf, if_neg ha]
        exact haddress

/-- The cells that an address passes, the last one first. -/
def cellsTo (heap : List NodeCell) (a : ℕ) (address : List ℕ) : List ℕ :=
  (Descent.along (cellsBelow heap) a address).reverse

theorem cellsTo_concat {a b c i : ℕ} {address : List ℕ} (hb : cellAt heap a address = some b)
    (hc : (cellsBelow heap b)[i]? = some c) :
    cellAt heap a (address ++ [i]) = some c ∧
      cellsTo heap a (address ++ [i]) = c :: cellsTo heap a address := by
  constructor
  · rw [cellAt, Descent.node_append, show Descent.node _ a address = some b from hb,
      Option.bind_some, Descent.node, hc]
    rfl
  · rw [cellsTo, Descent.along_append hb, Descent.along, hc, List.reverse_append]
    rfl

/-- **The end of a walk** over cells to the parents: the first one that the test accepts, with its
address, or none. -/
inductive WalkEnds (heap : List NodeCell) (a n : ℕ) (test : TjInfo → Bool) (cells : List ℕ) :
    Option (List ℕ) → Prop
  | nowhere (h : ∀ c ∈ cells, test (heap.getD c .new).info = false) : WalkEnds heap a n test cells none
  | first {pre above address : List ℕ} {c : ℕ} (hcells : cells = pre ++ c :: above)
      (hpre : ∀ b ∈ pre, test (heap.getD b .new).info = false)
      (hc : test (heap.getD c .new).info = true) (hcell : cellAt heap a address = some c)
      (habove : cellsTo heap a address = c :: above) (hlen : address.length ≤ n) :
      WalkEnds heap a n test cells (some address)

theorem WalkEnds.cons {a n b : ℕ} {test : TjInfo → Bool} {cells : List ℕ} {o : Option (List ℕ)}
    (h : WalkEnds heap a n test cells o) (hb : test (heap.getD b .new).info = false) :
    WalkEnds heap a n test (b :: cells) o := by
  cases h with
  | nowhere hall => exact .nowhere (List.forall_mem_cons.mpr ⟨hb, hall⟩)
  | @first pre above address c hcells hpre hc hcell habove hlen =>
    exact .first (show b :: cells = (b :: pre) ++ c :: above by rw [hcells]; rfl) (List.forall_mem_cons.mpr ⟨hb, hpre⟩) hc
      hcell habove hlen

/-- **The walk to the parents** goes along the cells of an address. -/
theorem walkEnds_firstAbove {n a : ℕ} {test : TjInfo → Bool} {address : List ℕ}
    (hroot : test (heap.getD a .new).info = false) {b : ℕ}
    (hcell : cellAt heap a address = some b) (hlen : address.length ≤ n) :
    WalkEnds heap a n test (cellsTo heap a address)
      (firstAbove (nodeOf heap n a) test address.reverse) := by
  induction address using List.reverseRecOn generalizing b with
  | nil =>
    rw [List.reverse_nil, firstAbove, info_nodeOf, hroot]
    exact .nowhere fun c hc => by cases hc
  | append_singleton address i ih =>
    rw [cellAt, Descent.node_append, Option.bind_eq_some_iff] at hcell
    obtain ⟨c, hc, hb⟩ := hcell
    obtain ⟨b', hget, hbb⟩ := Descent.node_cons_eq_some.mp hb
    obtain rfl : b' = b := Option.some.inj hbb
    obtain ⟨hat, hcells⟩ := cellsTo_concat hc hget
    have hlen' : address.length ≤ n := by
      rw [List.length_append] at hlen
      exact (Nat.le_add_right _ _).trans hlen
    have hsub : (nodeOf heap n a).sub (address ++ [i])
        = some (nodeOf heap (n - (address ++ [i]).length) b') := by
      rw [sub_nodeOf hlen, hat, Option.map_some]
    have hwalk : firstAbove (nodeOf heap n a) test (address ++ [i]).reverse
        = if test (heap.getD b' .new).info then some (address ++ [i])
          else firstAbove (nodeOf heap n a) test address.reverse := by
      rw [List.reverse_append, List.reverse_singleton, List.singleton_append, firstAbove,
        List.reverse_cons, List.reverse_reverse, hsub, Option.bind_eq_bind, Option.bind_some,
        info_nodeOf]
    rw [hwalk, hcells]
    by_cases htest : test (heap.getD b' .new).info = true
    · rw [if_pos htest]
      exact .first (List.nil_append _).symm (fun c hc => by cases hc) htest hat hcells hlen
    · rw [if_neg htest]
      exact (ih hc hlen').cons (Bool.eq_false_iff.mpr htest)

theorem coveringDeclaration_eq_firstAbove (root : TjNode) (pos : LspPos) (rev : List ℕ) :
    coveringDeclaration root pos rev
      = firstAbove root (fun info => decide (pos.before info.range.stop)) rev := by
  induction rev with
  | nil => simp only [coveringDeclaration, firstAbove, decide_eq_true_eq]
  | cons i rev ih => simp only [coveringDeclaration, firstAbove, decide_eq_true_eq, ih]

theorem cellsTo_cons {a b : ℕ} {address : List ℕ} (hb : cellAt heap a address = some b)
    (hne : address ≠ []) : ∃ above, cellsTo heap a address = b :: above ∧
      ∀ c ∈ above, cellsBelow heap c ≠ [] := by
  induction address using List.reverseRecOn generalizing b with
  | nil => exact absurd rfl hne
  | append_singleton address i ih =>
    rw [cellAt, Descent.node_append, Option.bind_eq_some_iff] at hb
    obtain ⟨c, hc, hcb⟩ := hb
    obtain ⟨b', hget, hbb⟩ := Descent.node_cons_eq_some.mp hcb
    obtain rfl : b' = b := Option.some.inj hbb
    refine ⟨cellsTo heap a address, (cellsTo_concat hc hget).2, fun e he => ?_⟩
    by_cases hnil : address = []
    · rw [hnil] at he
      cases he
    · obtain ⟨above, habove, hbelow⟩ := ih hc hnil
      rw [habove] at he
      rcases List.mem_cons.mp he with rfl | he
      · exact List.ne_nil_of_mem (List.mem_of_getElem? hget)
      · exact hbelow e he

end Heap

/-! ### The synthetic root -/

/-- **The root stays** as it is, apart from its children. -/
structure KeepsRoot (s t : GrammarState) : Prop where
  length : s.heap.length ≤ t.heap.length
  heading : t.heading 0 = s.heading 0

namespace KeepsRoot

variable {s t u : GrammarState}

theorem refl (s : GrammarState) : KeepsRoot s s := ⟨le_refl _, rfl⟩

theorem trans (h : KeepsRoot s t) (h' : KeepsRoot t u) : KeepsRoot s u :=
  ⟨h.length.trans h'.length, h'.heading.trans h.heading⟩

theorem of_view (h : t.outlineView = s.outlineView) : KeepsRoot s t := by
  simp only [GrammarState.outlineView, Prod.mk.injEq] at h
  exact ⟨h.1.ge, congrFun h.2.1 0⟩

theorem alloc (hs : 0 < s.heap.length) (kw id name : Token) :
    KeepsRoot s (s.allocTjNode kw id name).1 := by
  refine ⟨by rw [s.length_allocTjNode]; omega, ?_⟩
  unfold GrammarState.heading
  rw [GrammarState.cell_allocTjNode, if_neg (Nat.ne_of_lt hs)]

theorem setRangeEnd {a : ℕ} (ha : a ≠ 0) (stop : LspPos) : KeepsRoot s (s.setRangeEnd a stop) := by
  refine ⟨(s.length_write _ _).ge, ?_⟩
  unfold GrammarState.heading GrammarState.setRangeEnd
  rw [GrammarState.cell_write, if_neg fun h => ha h.1]

theorem finishTjNode {a : ℕ} (ha : a ≠ 0) (kw : Token) (body : BodyResult) :
    KeepsRoot s (s.finishTjNode a kw body) := by
  refine (KeepsRoot.setRangeEnd ha (rangeEnd kw body)).trans ⟨?_, ?_⟩
  · exact (GrammarState.length_write _ _ _).ge
  · unfold GrammarState.heading GrammarState.finishTjNode
    rw [GrammarState.cell_write, if_neg fun h => ha h.1]

theorem routeTopLevel (s : GrammarState) (a : ℕ) : KeepsRoot s (s.routeTopLevel a) := by
  unfold GrammarState.routeTopLevel
  split_ifs
  · exact .refl s
  · refine ⟨(s.length_write _ _).ge, ?_⟩
    unfold GrammarState.heading GrammarState.tjNodeAppendChild
    rw [GrammarState.cell_write]
    split_ifs <;> rfl

theorem routeAll (s : GrammarState) (syms : List ℕ) :
    KeepsRoot s (syms.foldl GrammarState.routeTopLevel s) := by
  induction syms generalizing s with
  | nil => exact .refl s
  | cons a syms ih => exact (routeTopLevel s a).trans (ih _)

theorem hoist (s : GrammarState) (syms : List ℕ) : KeepsRoot s (s.hoist syms) := by
  unfold GrammarState.hoist
  induction syms generalizing s with
  | nil => exact .refl s
  | cons a syms ih =>
    rw [List.foldl_cons]
    refine KeepsRoot.trans ?_ (ih _)
    split_ifs
    · exact .refl s
    · exact routeTopLevel s a

end KeepsRoot

namespace Stmt

theorem execAll_keepsRoot {sts : List Stmt}
    (h : ∀ st ∈ sts, ∀ s : GrammarState, 0 < s.heap.length → KeepsRoot s (st.exec s).1) :
    ∀ s : GrammarState, 0 < s.heap.length → KeepsRoot s (execAll sts s).1 := by
  induction sts with
  | nil => exact fun s _ => .refl s
  | cons st sts ih =>
    obtain ⟨hst, hsts⟩ := List.forall_mem_cons.mp h
    intro s hs
    have hone := hst s hs
    exact hone.trans (ih hsts _ (hs.trans_le hone.length))

/-- **No statement writes the root**, apart from its children. -/
theorem exec_keepsRoot (st : Stmt) : ∀ s : GrammarState, 0 < s.heap.length →
    KeepsRoot s (st.exec s).1 := by
  refine induct (P := fun st => ∀ s : GrammarState, 0 < s.heap.length →
    KeepsRoot s (st.exec s).1) ?_ st
  intro st ih s hs
  have hbody := execAll_keepsRoot ih
  cases st with
  | top item => exact (hbody s hs).trans (.routeAll _ _)
  | project kw id name body stop =>
    have h := hbody s hs
    have hpos := hs.trans_le h.length
    exact ((h.trans (.alloc hpos kw id name)).trans (.setRangeEnd hpos.ne' _)).trans (.hoist _ _)
  | symbol kw id name body stop =>
    have hopen : KeepsRoot s (s.allocTjNode kw id name).1 := .alloc hs kw id name
    have hpushed := hopen.trans (.of_view
      ((s.allocTjNode kw id name).1.outlineView_pushTask kw (s.allocTjNode kw id name).2))
    have hinner := hpushed.trans (hbody _ (hs.trans_le hpushed.length))
    have hpopped := hinner.trans (.of_view (GrammarState.outlineView_popTask _ kw))
    exact hpopped.trans (.finishTjNode hs.ne' kw _)
  | declare kw id name body stop =>
    have h := hbody s hs
    have hpos := hs.trans_le h.length
    exact (h.trans (.alloc hpos kw id name)).trans (.finishTjNode hpos.ne' kw _)
  | ref bangs segs body => exact (hbody s hs).trans (.of_view (GrammarState.outlineView_captureDep _ _))
  | startDate date => exact .of_view (s.outlineView_captureDate date fun t c => ⟨rfl, rfl⟩)
  | endDate date => exact .of_view (s.outlineView_captureDate date fun t c => ⟨rfl, rfl⟩)
  | pref k value => exact .of_view (s.outlineView_setPendingPrefix k value)
  | incl file body =>
    have h := hbody { s with inIncludeDepth := s.inIncludeDepth + 1 } hs
    have hinner : KeepsRoot s _ := ⟨h.length, h.heading⟩
    exact hinner.trans (.of_view (GrammarState.outlineView_pushInclude _ _))
  | block body => exact hbody s hs
  | opened kw id name =>
    have hopen : KeepsRoot s (s.allocTjNode kw id name).1 := .alloc hs kw id name
    exact hopen.trans (.of_view
      ((s.allocTjNode kw id name).1.outlineView_pushTask kw (s.allocTjNode kw id name).2))
  | _ => exact .of_view rfl

end Stmt

end TaskjugglerLsp
