import TaskjugglerLsp.Grammar.Actions
import TaskjugglerLsp.Lib.Enclosure
import TaskjugglerLsp.Positions

/-!
# The owners of tokens

The sweep of `assign_token_owners` over the tokens and the declarations finds for each token the
innermost declaration around its start, once the declarations that are hoisted out of the project
block are put back under it.

* `popEnded_spec`, `pushStarted_spec`: what the two loops of a round do to the stack.
* `ownerStep_spec`: a round finds the owner of a position.
* `assignTokenOwners_innermost`: the sweep agrees with a search over all declarations.
-/

namespace TaskjugglerLsp

open Lib

/-! ### Positions as numbers -/

theorem LspPos.before_iff_key (p q : LspPos) : p.before q ↔ p.key < q.key := by
  have hp := p.character.toNat_lt
  have hq := q.character.toNat_lt
  unfold LspPos.before LspPos.key
  rw [UInt32.lt_iff_toNat_lt, UInt32.lt_iff_toNat_lt, ← UInt32.toNat_inj]
  constructor
  · rintro (hline | ⟨hline, hchar⟩) <;> omega
  · intro hlt
    rcases Nat.lt_trichotomy p.line.toNat q.line.toNat with hline | hline | hline
    · exact .inl hline
    · exact .inr ⟨hline, by omega⟩
    · omega

/-! ### The sweep -/

section Sweep

variable (heap : List NodeCell)

/-- The declarations of a heap as a forest, with given children. -/
def rangeForest (tops : List ℕ) (kids : ℕ → List ℕ) : Forest ℕ ℕ where
  tops := tops
  kids := kids
  start a := (nodeRange heap a).start.key
  stop a := (nodeRange heap a).stop.key

variable (F : Forest ℕ ℕ)

/-- What is left of a list of siblings: those that are gone have ended. -/
def Remains (x : ℕ) (all rest : List ℕ) : Prop :=
  ∃ gone, all = gone ++ rest ∧ ∀ a ∈ gone, F.stop a ≤ x

/-- **The stack of the sweep** behind a position: each frame but the first one is that of the next
child of the frame below it. -/
inductive SweepStack (x : ℕ) : List OwnerFrame → Prop
  | base {rest : List ℕ} (h : Remains F x F.tops rest) : SweepStack x [⟨rest, none⟩]
  | frame {a : ℕ} {more rest : List ℕ} {scope : Option ℕ} {below : List OwnerFrame}
      (hbelow : SweepStack x (⟨a :: more, scope⟩ :: below)) (hstart : F.start a ≤ x)
      (h : Remains F x (F.kids a) rest) :
      SweepStack x (⟨rest, some a⟩ :: ⟨a :: more, scope⟩ :: below)

variable {heap F} {x : ℕ}

theorem Remains.mono {y : ℕ} {all rest : List ℕ} (h : Remains F x all rest) (hxy : x ≤ y) :
    Remains F y all rest := by
  obtain ⟨gone, hall, hgone⟩ := h
  exact ⟨gone, hall, fun a ha => (hgone a ha).trans hxy⟩

theorem Remains.subset {all rest : List ℕ} (h : Remains F x all rest) : rest ⊆ all := by
  obtain ⟨gone, rfl, -⟩ := h
  exact List.subset_append_right gone rest

theorem SweepStack.mono {y : ℕ} {stack : List OwnerFrame} (h : SweepStack F x stack)
    (hxy : x ≤ y) : SweepStack F y stack := by
  induction h with
  | base h => exact .base (h.mono hxy)
  | frame _ hstart h ih => exact .frame ih (hstart.trans hxy) (h.mono hxy)

theorem SweepStack.atDepth {frame : OwnerFrame} {below : List OwnerFrame} {a : ℕ}
    (h : SweepStack F x (frame :: below)) (ha : frame.scope = some a) :
    below ≠ [] ∧ F.AtDepth (below.length - 1) a := by
  generalize hstack : frame :: below = stack at h
  induction h generalizing frame below a with
  | base h =>
    obtain ⟨rfl, rfl⟩ := List.cons.inj hstack
    cases ha
  | @frame b more rest scope below' hbelow _ _ ih =>
    obtain ⟨rfl, rfl⟩ := List.cons.inj hstack
    obtain rfl : b = a := Option.some.inj ha
    refine ⟨List.cons_ne_nil _ _, ?_⟩
    cases hbelow with
    | base hrest => exact .top (hrest.subset List.mem_cons_self)
    | frame _ _ hrest =>
      obtain ⟨-, hdepth⟩ := ih rfl rfl
      exact .kid hdepth (hrest.subset List.mem_cons_self)

/-- The siblings that a frame visits. -/
def siblingsOf (F : Forest ℕ ℕ) : Option ℕ → List ℕ
  | none => F.tops
  | some a => F.kids a

theorem SweepStack.remains {frame : OwnerFrame} {below : List OwnerFrame}
    (h : SweepStack F x (frame :: below)) : Remains F x (siblingsOf F frame.scope) frame.rest := by
  cases h with
  | base h => exact h
  | frame _ _ h => exact h

theorem SweepStack.siblings (hF : F.Nested) {frame : OwnerFrame} {below : List OwnerFrame}
    (h : SweepStack F x (frame :: below)) : F.Siblings (siblingsOf F frame.scope) := by
  cases hscope : frame.scope with
  | none => exact hF.tops
  | some a => exact hF.kids _ a (h.atDepth hscope).2

variable {heap : List NodeCell} {tops : List ℕ} {kids : ℕ → List ℕ} {pos : LspPos}

/-- The frames that are left are those of declarations that cover the position. -/
theorem popEnded_spec {stack : List OwnerFrame}
    (h : SweepStack (rangeForest heap tops kids) pos.key stack) :
    ∃ frame below, popEnded heap pos stack = frame :: below ∧
      SweepStack (rangeForest heap tops kids) pos.key (frame :: below) ∧
      ∀ a, frame.scope = some a → (rangeForest heap tops kids).Covers a pos.key := by
  induction h with
  | @base rest h =>
    refine ⟨_, _, rfl, .base h, fun a ha => ?_⟩
    cases ha
  | @frame a more rest scope below hbelow hstart h ih =>
    have hround : popEnded heap pos (⟨rest, some a⟩ :: ⟨a :: more, scope⟩ :: below)
        = if pos.before (nodeRange heap a).stop then ⟨rest, some a⟩ :: ⟨a :: more, scope⟩ :: below
          else popEnded heap pos (⟨a :: more, scope⟩ :: below) := by
      rw [popEnded]
      exact List.cons_ne_nil _ _
    rw [hround]
    by_cases hstop : pos.before (nodeRange heap a).stop
    · refine ⟨_, _, if_pos hstop, .frame hbelow hstart h, ?_⟩
      rintro b hb
      obtain rfl : a = b := Option.some.inj hb
      exact ⟨hstart, (pos.before_iff_key _).mp hstop⟩
    · obtain ⟨frame, below', hpop, hrest⟩ := ih
      exact ⟨frame, below', (if_neg hstop).trans hpop, hrest⟩

theorem Remains.skip {all rest : List ℕ}
    (h : Remains (rangeForest heap tops kids) pos.key all rest) :
    Remains (rangeForest heap tops kids) pos.key all
      (rest.dropWhile fun a => !decide (pos.before (nodeRange heap a).stop)) := by
  obtain ⟨gone, rfl, hgone⟩ := h
  refine ⟨gone ++ rest.takeWhile fun a => !decide (pos.before (nodeRange heap a).stop), ?_, ?_⟩
  · rw [List.append_assoc, List.takeWhile_append_dropWhile]
  · intro a ha
    rcases List.mem_append.mp ha with ha | ha
    · exact hgone a ha
    · have hended := List.mem_takeWhile_imp ha
      rw [Bool.not_eq_true', decide_eq_false_iff_not, pos.before_iff_key] at hended
      exact Nat.le_of_not_lt hended

theorem SweepStack.replace {F : Forest ℕ ℕ} {x : ℕ} {frame : OwnerFrame}
    {below : List OwnerFrame} (h : SweepStack F x (frame :: below)) {rest : List ℕ}
    (hrest : Remains F x (siblingsOf F frame.scope) rest) :
    SweepStack F x ({ frame with rest := rest } :: below) := by
  cases h with
  | base _ => exact .base hrest
  | frame hbelow hstart _ => exact .frame hbelow hstart hrest

/-- A stack whose first frame has no child that covers the position. -/
def SweepSettled (F : Forest ℕ ℕ) (x : ℕ) (stack : List OwnerFrame) : Prop :=
  ∃ frame below, stack = frame :: below ∧ SweepStack F x stack ∧
    (∀ a, frame.scope = some a → F.Covers a x) ∧
    ∀ a ∈ siblingsOf F frame.scope, ¬ F.Covers a x

/-- The children that are pushed are those that cover the position. -/
theorem pushStarted_spec (hF : (rangeForest heap tops kids).Nested) {bound : ℕ}
    (hbound : ∀ d a, (rangeForest heap tops kids).AtDepth d a →
      (rangeForest heap tops kids).Covers a pos.key → d < bound) (n : ℕ) {frame : OwnerFrame}
    {below : List OwnerFrame}
    (h : SweepStack (rangeForest heap tops kids) pos.key (frame :: below))
    (hcovers : ∀ a, frame.scope = some a → (rangeForest heap tops kids).Covers a pos.key)
    (hfuel : bound < below.length + n) :
    SweepSettled (rangeForest heap tops kids) pos.key
      (pushStarted heap kids pos n (frame :: below)) := by
  induction n generalizing frame below with
  | zero =>
    cases hscope : frame.scope with
    | none =>
      cases h with
      | base _ => exact absurd hfuel (Nat.not_lt_zero bound)
      | frame _ _ _ => cases hscope
    | some a =>
      obtain ⟨hne, hdepth⟩ := h.atDepth hscope
      have hlt := hbound _ a hdepth (hcovers a hscope)
      have hpos := List.length_pos_of_ne_nil hne
      omega
  | succ n ih =>
    have hskip := h.remains.skip
    have hsiblings := h.siblings hF
    have hsettled {rest : List ℕ}
        (hskip : Remains (rangeForest heap tops kids) pos.key
          (siblingsOf (rangeForest heap tops kids) frame.scope) rest)
        (hnone : ∀ a ∈ rest, ¬ (rangeForest heap tops kids).Covers a pos.key) :
        SweepSettled (rangeForest heap tops kids) pos.key ({ frame with rest := rest } :: below) := by
      refine ⟨_, _, rfl, h.replace hskip, hcovers, fun a ha hcover => ?_⟩
      obtain ⟨gone, hall, hgone⟩ := hskip
      rw [hall] at ha
      rcases List.mem_append.mp ha with ha | ha
      · exact absurd hcover.2 (Nat.not_lt_of_le (hgone a ha))
      · exact hnone a ha hcover
    rw [pushStarted]
    cases hrest : frame.rest.dropWhile fun a => !decide (pos.before (nodeRange heap a).stop) with
    | nil =>
      rw [hrest] at hskip
      exact hsettled hskip fun a ha => absurd ha List.not_mem_nil
    | cons child more =>
      dsimp only
      rw [hrest] at hskip
      have hchild : pos.before (nodeRange heap child).stop := by
        have hhead := List.head_dropWhile_not
          (fun a => !decide (pos.before (nodeRange heap a).stop)) (l := frame.rest)
          (by rw [hrest]; exact List.cons_ne_nil _ _)
        simpa [hrest] using hhead
      by_cases hstart : pos.before (nodeRange heap child).start
      · rw [if_pos hstart]
        refine hsettled hskip fun a ha hcover => ?_
        obtain ⟨gone, hall, -⟩ := hskip
        have hsorted := hsiblings.sorted
        rw [hall, List.pairwise_append, List.pairwise_cons] at hsorted
        rw [pos.before_iff_key] at hstart
        have hlt : pos.key < (rangeForest heap tops kids).start a := by
          rcases List.mem_cons.mp ha with rfl | ha
          · exact hstart
          · exact hstart.trans_le (hsorted.2.1.1 a ha)
        exact absurd hcover.1 (Nat.not_le_of_lt hlt)
      · rw [if_neg hstart]
        have hfrom : (rangeForest heap tops kids).start child ≤ pos.key := by
          rw [pos.before_iff_key] at hstart
          exact Nat.le_of_not_lt hstart
        refine ih (.frame (h.replace hskip) hfrom ⟨[], rfl, fun a ha => absurd ha List.not_mem_nil⟩)
          ?_ ?_
        · rintro a ha
          obtain rfl : child = a := Option.some.inj ha
          exact ⟨hfrom, (pos.before_iff_key _).mp hchild⟩
        · rw [List.length_cons]
          omega

theorem SweepSettled.owner {F : Forest ℕ ℕ} {x : ℕ} (hF : F.Nested) {stack : List OwnerFrame}
    (h : SweepSettled F x stack) : F.Owner x (stack.head?.bind (·.scope)) := by
  obtain ⟨frame, below, rfl, hstack, hcovers, hkids⟩ := h
  rw [List.head?_cons, Option.bind_some]
  cases hscope : frame.scope with
  | none =>
    rw [hscope] at hkids
    exact hF.owner_none hkids
  | some a =>
    rw [hscope] at hkids
    exact hF.owner_of_settled (hstack.atDepth hscope).2 (hcovers a hscope) hkids

/-- **A round of the sweep** settles the stack. -/
theorem ownerStep_spec (hF : (rangeForest heap tops kids).Nested)
    (hbound : ∀ d a, (rangeForest heap tops kids).AtDepth d a →
      (rangeForest heap tops kids).Covers a pos.key → d < heap.length)
    {stack : List OwnerFrame} (h : SweepStack (rangeForest heap tops kids) pos.key stack) :
    SweepSettled (rangeForest heap tops kids) pos.key (ownerStep heap kids stack pos) := by
  obtain ⟨frame, below, hpop, hstack, hcovers⟩ := popEnded_spec h
  rw [ownerStep, hpop]
  exact pushStarted_spec hF hbound _ hstack hcovers (by omega)

/-- **The sweep** finds the owner of each position. -/
theorem sweep_owners (hF : (rangeForest heap tops kids).Nested) (spans : List LspPos)
    (hbound : ∀ pos ∈ spans, ∀ d a, (rangeForest heap tops kids).AtDepth d a →
      (rangeForest heap tops kids).Covers a pos.key → d < heap.length)
    (hsorted : spans.Pairwise fun p q => p.key ≤ q.key) {x : ℕ} {stack : List OwnerFrame}
    (h : SweepStack (rangeForest heap tops kids) x stack) (hx : ∀ pos ∈ spans, x ≤ pos.key) :
    List.Forall₂ (fun pos o => (rangeForest heap tops kids).Owner pos.key o) spans
      ((spans.scanl (ownerStep heap kids) stack).tail.map fun stack =>
        stack.head?.bind (·.scope)) := by
  induction spans generalizing x stack with
  | nil => exact .nil
  | cons pos spans ih =>
    rw [List.pairwise_cons] at hsorted
    have hsettled := ownerStep_spec hF (hbound pos List.mem_cons_self)
      (h.mono (hx pos List.mem_cons_self))
    have hstack : SweepStack (rangeForest heap tops kids) pos.key (ownerStep heap kids stack pos) :=
      by
        obtain ⟨_, _, -, hstack, -⟩ := hsettled
        exact hstack
    have hrest := ih (fun p hp => hbound p (List.mem_cons_of_mem _ hp)) hsorted.2 hstack
      hsorted.1
    have htail : (List.scanl (ownerStep heap kids) stack (pos :: spans)).tail
        = ownerStep heap kids stack pos
          :: (spans.scanl (ownerStep heap kids) (ownerStep heap kids stack pos)).tail := by
      rw [List.scanl_cons, List.tail_cons]
      cases spans with
      | nil => rfl
      | cons p spans => rw [List.scanl_cons, List.tail_cons]
    rw [htail, List.map_cons]
    exact .cons (hsettled.owner hF) hrest

end Sweep

/-! ### Declarations that were hoisted -/

section Hoisted

variable {heap : List NodeCell} {children tops body : List ℕ}

/-- The children of a declaration, with the `body` of the project block under it. -/
def scopeKids (heap : List NodeCell) (children body : List ℕ) (a : ℕ) : List ℕ :=
  if some a = projectBlock heap children then body else (heap.getD a .new).children

/-- The declarations of a heap, with the `body` of the project block under it. -/
abbrev declForest (heap : List NodeCell) (children tops body : List ℕ) : Forest ℕ ℕ :=
  rangeForest heap tops (scopeKids heap children body)

/-- **A tree of declarations**: those at the top are `tops`, and the `body` of the project block
has been hoisted to them. -/
structure DeclForest (heap : List NodeCell) (children tops body : List ℕ) : Prop where
  hoisted : ∀ a, a ∈ children ↔ a ∈ tops ∨ a ∈ body
  project : ∀ p, projectBlock heap children = some p → p ∈ tops
  noProject : projectBlock heap children = none → body = []
  nested : (declForest heap children tops body).Nested
  valid : ∀ d a, (declForest heap children tops body).AtDepth d a → a < heap.length
  oneDepth : ∀ d e a, (declForest heap children tops body).AtDepth d a →
    (declForest heap children tops body).AtDepth e a → d = e

/-- The children that the sweep visits. -/
def sweepKids (heap : List NodeCell) (children : List ℕ) (a : ℕ) : List ℕ :=
  if some a = projectBlock heap children then
    (buildOwnerScope heap children (projectBlock heap children)).2
  else (heap.getD a .new).children

/-- The declarations as the sweep visits them. -/
abbrev sweepForest (heap : List NodeCell) (children : List ℕ) : Forest ℕ ℕ :=
  rangeForest heap (buildOwnerScope heap children (projectBlock heap children)).1
    (sweepKids heap children)

theorem mem_sortByStart (l : List ℕ) (a : ℕ) : a ∈ sortByStart heap l ↔ a ∈ l :=
  List.mem_mergeSort

theorem sorted_sortByStart (l : List ℕ) : (sortByStart heap l).Pairwise fun a b =>
    (nodeRange heap a).start.key ≤ (nodeRange heap b).start.key := by
  have hle : ∀ a b, (!decide ((nodeRange heap b).start.before (nodeRange heap a).start)) = true ↔
      (nodeRange heap a).start.key ≤ (nodeRange heap b).start.key := by
    intro a b
    rw [Bool.not_eq_true', decide_eq_false_iff_not, LspPos.before_iff_key, Nat.not_lt]
  refine (List.pairwise_mergeSort (fun a b c hab hbc => ?_) (fun a b => ?_) l).imp
    fun {a b} hab => (hle a b).mp hab
  · rw [hle] at hab hbc ⊢
    exact hab.trans hbc
  · rw [Bool.or_eq_true, hle, hle]
    exact Nat.le_total _ _

theorem mem_scope_top {a : ℕ} :
    a ∈ (buildOwnerScope heap children (projectBlock heap children)).1 ↔ a ∈ children ∧
      ∀ p, projectBlock heap children = some p →
        a = p ∨ rangeWithin (nodeRange heap a) (nodeRange heap p) = false := by
  unfold buildOwnerScope
  cases hp : projectBlock heap children with
  | none => simp [mem_sortByStart]
  | some p =>
    have hmem : p ∈ children := List.mem_of_find?_eq_some hp
    simp only [mem_sortByStart, List.mem_append, List.mem_filter, List.mem_singleton, bne_iff_ne,
      Bool.not_eq_true', ne_eq, Option.some.injEq]
    constructor
    · rintro (⟨⟨ha, -⟩, hwithin⟩ | rfl)
      · exact ⟨ha, fun q hq => .inr (hq ▸ hwithin)⟩
      · exact ⟨hmem, fun q hq => .inl hq⟩
    · rintro ⟨ha, h⟩
      by_cases hap : a = p
      · exact .inr hap
      · exact .inl ⟨⟨ha, hap⟩, (h p rfl).resolve_left hap⟩

/-- The declarations that the sweep puts under the project block. -/
theorem mem_scope_project {a p : ℕ} (hp : projectBlock heap children = some p) :
    a ∈ (buildOwnerScope heap children (projectBlock heap children)).2 ↔ a ∈ children ∧ a ≠ p ∧
      rangeWithin (nodeRange heap a) (nodeRange heap p) = true := by
  unfold buildOwnerScope
  rw [hp]
  simp only [mem_sortByStart, List.mem_filter, bne_iff_ne, ne_eq, Option.some.injEq, and_assoc]

/-- A position is in the range of a declaration. -/
def InRange (heap : List NodeCell) (a x : ℕ) : Prop :=
  (nodeRange heap a).start.key ≤ x ∧ x < (nodeRange heap a).stop.key

theorem InRange.of_rangeWithin {a b x : ℕ} (hx : InRange heap a x)
    (h : rangeWithin (nodeRange heap a) (nodeRange heap b) = true) : InRange heap b x := by
  unfold rangeWithin at h
  rw [Bool.and_eq_true, Bool.not_eq_true', Bool.not_eq_true', decide_eq_false_iff_not,
    decide_eq_false_iff_not, LspPos.before_iff_key, LspPos.before_iff_key, Nat.not_lt,
    Nat.not_lt] at h
  exact ⟨h.1.trans hx.1, hx.2.trans_le h.2⟩

/-- What covers less, if it covers anything, is within. -/
theorem rangeWithin_of_inRange {a b x : ℕ} (h : ∀ y, InRange heap a y → InRange heap b y)
    (hx : InRange heap a x) : rangeWithin (nodeRange heap a) (nodeRange heap b) = true := by
  unfold InRange at h hx
  have hstart := h _ ⟨le_rfl, hx.1.trans_lt hx.2⟩
  have hstop := h ((nodeRange heap a).stop.key - 1) ⟨by omega, by omega⟩
  unfold rangeWithin
  rw [Bool.and_eq_true, Bool.not_eq_true', Bool.not_eq_true', decide_eq_false_iff_not,
    decide_eq_false_iff_not, LspPos.before_iff_key, LspPos.before_iff_key]
  omega

namespace DeclForest

variable (h : DeclForest heap children tops body)

include h

/-- What covers something at the top is not within the project block. -/
theorem rangeWithin_top {a p x : ℕ} (ha : a ∈ tops) (hp : projectBlock heap children = some p)
    (hne : a ≠ p) (hx : InRange heap a x) :
    rangeWithin (nodeRange heap a) (nodeRange heap p) = false := by
  by_contra hwithin
  rw [Bool.not_eq_false] at hwithin
  exact hne (h.nested.tops.disjoint a ha p (h.project p hp) x hx (hx.of_rangeWithin hwithin))

theorem rangeWithin_body {a p x : ℕ} (ha : a ∈ body) (hp : projectBlock heap children = some p)
    (hx : InRange heap a x) :
    rangeWithin (nodeRange heap a) (nodeRange heap p) = true := by
  have hkid : a ∈ scopeKids heap children body p := by
    rw [scopeKids, if_pos hp.symm]
    exact ha
  exact rangeWithin_of_inRange (h.nested.within 0 p (.top (h.project p hp)) a hkid) hx

theorem project_not_mem_body {p : ℕ} (hp : projectBlock heap children = some p) : p ∉ body := by
  intro hbody
  have hkid : p ∈ scopeKids heap children body p := by
    rw [scopeKids, if_pos hp.symm]
    exact hbody
  have htop : (declForest heap children tops body).AtDepth 0 p := .top (h.project p hp)
  exact absurd (h.oneDepth _ _ p htop (.kid htop hkid)) (by decide)

theorem mem_sweep_top {a x : ℕ} (hx : InRange heap a x) :
    a ∈ (sweepForest heap children).tops ↔ a ∈ tops := by
  have hiff : a ∈ (buildOwnerScope heap children (projectBlock heap children)).1 ↔ _ :=
    mem_scope_top
  rw [h.hoisted] at hiff
  refine hiff.trans ⟨?_, ?_⟩
  · rintro ⟨ha | ha, hp⟩
    · exact ha
    · cases hproject : projectBlock heap children with
      | none => exact absurd ha (by rw [h.noProject hproject]; exact List.not_mem_nil)
      | some p =>
        rcases hp p hproject with rfl | hnot
        · exact h.project a hproject
        · rw [h.rangeWithin_body ha hproject hx] at hnot
          cases hnot
  · intro ha
    refine ⟨.inl ha, fun p hp => ?_⟩
    by_cases hap : a = p
    · exact .inl hap
    · exact .inr (h.rangeWithin_top ha hp hap hx)

/-- The sweep visits the children, as far as these cover something. -/
theorem mem_sweepKids {a b x : ℕ} (hx : InRange heap b x) :
    b ∈ sweepKids heap children a ↔ b ∈ scopeKids heap children body a := by
  unfold sweepKids scopeKids
  by_cases hp : some a = projectBlock heap children
  · rw [if_pos hp, if_pos hp, mem_scope_project hp.symm, h.hoisted]
    constructor
    · rintro ⟨hb | hb, hne, hwithin⟩
      · rw [h.rangeWithin_top hb hp.symm hne hx] at hwithin
        cases hwithin
      · exact hb
    · intro hb
      refine ⟨.inr hb, ?_, h.rangeWithin_body hb hp.symm hx⟩
      rintro rfl
      exact h.project_not_mem_body hp.symm hb
  · rw [if_neg hp, if_neg hp]

/-- What the sweep reaches is a declaration, of that depth if it covers something. -/
theorem exists_atDepth {d a : ℕ} (ha : (sweepForest heap children).AtDepth d a) :
    ∃ e, (declForest heap children tops body).AtDepth e a ∧
      ((∃ x, InRange heap a x) → e = d) := by
  have hchild {b : ℕ} (hb : b ∈ children) :
      ∃ e, (declForest heap children tops body).AtDepth e b := by
    rcases (h.hoisted b).mp hb with hb | hb
    · exact ⟨0, .top hb⟩
    · cases hp : projectBlock heap children with
      | none => exact absurd hb (by rw [h.noProject hp]; exact List.not_mem_nil)
      | some p =>
        refine ⟨1, .kid (.top (h.project p hp)) ?_⟩
        show b ∈ scopeKids heap children body p
        rwa [scopeKids, if_pos hp.symm]
  induction ha with
  | @top a ha =>
    obtain ⟨e, he⟩ := hchild ((mem_scope_top.mp ha).1)
    refine ⟨e, he, ?_⟩
    rintro ⟨x, hx⟩
    exact h.oneDepth _ _ a he (.top ((h.mem_sweep_top hx).mp ha))
  | @kid d a b ha hb ih =>
    obtain ⟨e, he, hsame⟩ := ih
    have hreach : ∃ e', (declForest heap children tops body).AtDepth e' b := by
      by_cases hp : some a = projectBlock heap children
      · refine hchild ?_
        have hb' : b ∈ sweepKids heap children a := hb
        rw [sweepKids, if_pos hp, mem_scope_project hp.symm] at hb'
        exact hb'.1
      · refine ⟨e + 1, .kid he ?_⟩
        have hb' : b ∈ sweepKids heap children a := hb
        rw [sweepKids, if_neg hp] at hb'
        show b ∈ scopeKids heap children body a
        rwa [scopeKids, if_neg hp]
    obtain ⟨e', he'⟩ := hreach
    refine ⟨e', he', ?_⟩
    rintro ⟨x, hx⟩
    have hkid : b ∈ scopeKids heap children body a := (h.mem_sweepKids hx).mp hb
    obtain rfl := hsame ⟨x, h.nested.within e a he b hkid x hx⟩
    exact h.oneDepth _ _ b he' (.kid he hkid)

/-- Declarations that cover something are reached by the sweep. -/
theorem atDepth_sweep {d a x : ℕ} (ha : (declForest heap children tops body).AtDepth d a)
    (hx : InRange heap a x) : (sweepForest heap children).AtDepth d a := by
  induction ha with
  | top ha => exact .top ((h.mem_sweep_top hx).mpr ha)
  | @kid d a b ha hb ih =>
    exact .kid (ih (h.nested.within d a ha b hb x hx)) ((h.mem_sweepKids hx).mpr hb)

theorem nested_sweep : (sweepForest heap children).Nested where
  tops := by
    refine ⟨?_, fun a ha b hb x hax hbx => ?_⟩
    · have hsorted : (sweepForest heap children).tops.Pairwise fun a b =>
          (nodeRange heap a).start.key ≤ (nodeRange heap b).start.key := by
        show (buildOwnerScope heap children (projectBlock heap children)).1.Pairwise _
        unfold buildOwnerScope
        split
        · exact sorted_sortByStart _
        · exact sorted_sortByStart _
      exact hsorted
    · exact h.nested.tops.disjoint a ((h.mem_sweep_top hax).mp ha) b
        ((h.mem_sweep_top hbx).mp hb) x hax hbx
  kids d a ha := by
    obtain ⟨e, he, -⟩ := h.exists_atDepth ha
    refine ⟨?_, fun b hb c hc x hbx hcx => ?_⟩
    · have hsorted : (sweepKids heap children a).Pairwise fun a b =>
          (nodeRange heap a).start.key ≤ (nodeRange heap b).start.key := by
        unfold sweepKids
        by_cases hp : some a = projectBlock heap children
        · rw [if_pos hp, ← hp]
          exact sorted_sortByStart _
        · rw [if_neg hp]
          have hkids : (scopeKids heap children body a).Pairwise fun a b =>
            (nodeRange heap a).start.key ≤ (nodeRange heap b).start.key :=
            (h.nested.kids e a he).sorted
          rwa [scopeKids, if_neg hp] at hkids
      exact hsorted
    · exact (h.nested.kids e a he).disjoint b ((h.mem_sweepKids hbx).mp hb) c
        ((h.mem_sweepKids hcx).mp hc) x hbx hcx
  within d a ha b hb x hx := by
    obtain ⟨e, he, -⟩ := h.exists_atDepth ha
    exact h.nested.within e a he b ((h.mem_sweepKids hx).mp hb) x hx

/-- The sweep and the tree have the same owners. -/
theorem owner_of_sweep {x : ℕ} {o : Option ℕ} (ho : (sweepForest heap children).Owner x o) :
    (declForest heap children tops body).Owner x o := by
  cases o with
  | none => exact fun d a ha hx => ho d a (h.atDepth_sweep ha hx) hx
  | some a =>
    obtain ⟨d, ha, hx, hdeepest⟩ := ho
    obtain ⟨e, he, hsame⟩ := h.exists_atDepth ha
    obtain rfl := hsame ⟨x, hx⟩
    exact ⟨e, he, hx, fun d b hb hbx => hdeepest d b (h.atDepth_sweep hb hbx) hbx⟩

end DeclForest

/-- The owner of each token, declaration by declaration of the sweep. -/
theorem DeclForest.owner_of_tokens (h : DeclForest heap children tops body)
    {spans : List TokenSpan}
    (hspans : spans.Pairwise fun s t => ¬ t.start.before s.start) :
    List.Forall₂ (fun t o => (declForest heap children tops body).Owner t.start.key o) spans
      (assignTokenOwners heap children spans) := by
  have hsorted : (spans.map (·.start)).Pairwise fun p q => p.key ≤ q.key := by
    rw [List.pairwise_map]
    refine hspans.imp fun {s t} hst => ?_
    rwa [LspPos.before_iff_key, Nat.not_lt] at hst
  have hbound : ∀ pos ∈ spans.map (·.start), ∀ d a, (sweepForest heap children).AtDepth d a →
      (sweepForest heap children).Covers a pos.key → d < heap.length := by
    intro pos _ d a ha hx
    obtain ⟨e, he, hsame⟩ := h.exists_atDepth ha
    obtain rfl := hsame ⟨_, hx⟩
    exact Forest.depth_lt h.valid h.oneDepth he
  have hstart : SweepStack (sweepForest heap children) 0
      [⟨(buildOwnerScope heap children (projectBlock heap children)).1, none⟩] :=
    .base ⟨[], rfl, fun a ha => absurd ha List.not_mem_nil⟩
  have howners := sweep_owners h.nested_sweep _ hbound hsorted hstart fun _ _ => Nat.zero_le _
  rw [List.forall₂_map_left_iff] at howners
  exact howners.imp fun _ _ ho => h.owner_of_sweep ho

/-- **Owners are innermost declarations**: for a tree of declarations and tokens in order, the
sweep finds for each token the deepest declaration around its start, or none. -/
theorem assignTokenOwners_innermost (h : DeclForest heap children tops body)
    {spans : List TokenSpan}
    (hspans : spans.Pairwise fun s t => ¬ t.start.before s.start) :
    List.Forall₂ (fun t o => (declForest heap children tops body).Owner t.start.key o) spans
      (assignTokenOwners heap children spans) :=
  h.owner_of_tokens hspans

end Hoisted

/-! ### A project block with a task -/

/-- A declaration of a line and some columns. -/
def NodeCell.between (keyword : ℕ) (start stop : UInt32) : NodeCell :=
  { NodeCell.new with
    info := { NodeCell.new.info with keyword := keyword, range := ⟨⟨0, start⟩, ⟨0, stop⟩⟩ } }

/-- A project block, and a task that was hoisted out of it. -/
def hoistedHeap : List NodeCell :=
  [.new, .between kwProject 0 20, .between kwTask 10 18]

theorem atDepth_hoisted {d a : ℕ} (h : (declForest hoistedHeap [1, 2] [1] [2]).AtDepth d a) :
    (d = 0 ∧ a = 1) ∨ (d = 1 ∧ a = 2) := by
  induction h with
  | top h => exact .inl ⟨rfl, List.mem_singleton.mp h⟩
  | kid h hb ih =>
    rcases ih with ⟨rfl, rfl⟩ | ⟨rfl, rfl⟩
    · exact .inr ⟨rfl, List.mem_singleton.mp hb⟩
    · cases hb

theorem declForest_hoisted : DeclForest hoistedHeap [1, 2] [1] [2] where
  hoisted a := by simp
  project p hp := by
    obtain rfl : 1 = p := Option.some.inj hp
    exact List.mem_singleton_self 1
  noProject hp := by cases hp
  nested :=
    { tops := ⟨List.pairwise_singleton _ _, fun a ha b hb _ _ _ =>
        (List.mem_singleton.mp ha).trans (List.mem_singleton.mp hb).symm⟩
      kids := by
        intro d a ha
        rcases atDepth_hoisted ha with ⟨-, rfl⟩ | ⟨-, rfl⟩
        · exact ⟨List.pairwise_singleton _ _, fun a ha b hb _ _ _ =>
            (List.mem_singleton.mp ha).trans (List.mem_singleton.mp hb).symm⟩
        · exact ⟨.nil, fun a ha => by cases ha⟩
      within := by
        intro d a ha b hb x hx
        rcases atDepth_hoisted ha with ⟨-, rfl⟩ | ⟨-, rfl⟩
        · obtain rfl : b = 2 := List.mem_singleton.mp hb
          have hrange : InRange hoistedHeap 2 x := hx
          exact hrange.of_rangeWithin (by decide)
        · cases hb }
  valid d a ha := by
    rcases atDepth_hoisted ha with ⟨-, rfl⟩ | ⟨-, rfl⟩ <;> decide
  oneDepth d e a hd he := by
    rcases atDepth_hoisted hd with ⟨rfl, rfl⟩ | ⟨rfl, rfl⟩ <;>
      rcases atDepth_hoisted he with ⟨rfl, ha⟩ | ⟨rfl, ha⟩ <;> first | rfl | cases ha

/-- A token of the project block, one of the task, one behind the task, and one behind the
project block. -/
def hoistedSpans : List TokenSpan :=
  [⟨kwProject, ⟨0, 0⟩, ⟨0, 7⟩, none⟩, ⟨kwTask, ⟨0, 10⟩, ⟨0, 14⟩, none⟩,
    ⟨tkRbrace, ⟨0, 19⟩, ⟨0, 20⟩, none⟩, ⟨tkIdent, ⟨0, 21⟩, ⟨0, 22⟩, none⟩]

/-- The owners of the tokens of a project block with a task. -/
theorem assignTokenOwners_hoisted :
    assignTokenOwners hoistedHeap [1, 2] hoistedSpans = [some 1, some 2, some 1, none] ∧
      List.Forall₂ (fun t o => (declForest hoistedHeap [1, 2] [1] [2]).Owner t.start.key o)
        hoistedSpans (assignTokenOwners hoistedHeap [1, 2] hoistedSpans) :=
  ⟨by decide +kernel, assignTokenOwners_innermost declForest_hoisted (by decide)⟩

end TaskjugglerLsp
