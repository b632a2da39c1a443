import Mathlib.Data.List.Perm.Subperm
import TaskjugglerLsp.Grammar.Captures
import TaskjugglerLsp.Grammar.Evaluation
import TaskjugglerLsp.Grammar.Owners
import TaskjugglerLsp.Grammar.Tokens

/-!
# The dependencies of a document

A reference is captured when its option body has ended, with the direction that was set last.  So
what stands in that body decides whether it gets the direction of its own statement, and whether the
dependencies of a task are in the order of the text.

* `keeps_iff`: when the captures of a statement are those that it says, in order.
* `dependencies_iff`: when the dependencies of a document are.
-/

namespace TaskjugglerLsp

open Lib.Lr

/-! ### What a document says -/

/-- A reference of a document, with the direction of the statement that it is an item of. -/
structure SourceRef where
  own : Option DepKind
  ref : TaskRef

/-- The direction of the items behind a statement. -/
def Stmt.direction (own : Option DepKind) : Stmt → Option DepKind
  | kind k => some k
  | _ => own

namespace Stmt

mutual

/-- The references of a statement, in the order of the text. -/
def sourceRefs (own : Option DepKind) : Stmt → List SourceRef
  | ref bangs segs body => ⟨own, taskRefOf bangs segs⟩ :: sourceRefsAll none body
  | top body | project _ _ _ body _ | symbol _ _ _ body _ | declare _ _ _ body _ | incl _ body
  | block body => sourceRefsAll none body
  | _ => []

def sourceRefsAll (own : Option DepKind) : List Stmt → List SourceRef
  | [] => []
  | st :: sts => sourceRefs own st ++ sourceRefsAll (st.direction own) sts

end

end Stmt

/-- The reference that a dependency was captured from. -/
def Dependency.source (d : Dependency) : SourceRef :=
  ⟨some d.kind, ⟨d.bangCount, d.path, d.sourceRange.start, d.sourceRange.stop⟩⟩

/-- **Each reference is captured once**, with its direction, and the dependencies of a declaration
are in the order of the text. -/
def CapturedInOrder (heap : List NodeCell) (refs : List SourceRef) : Prop :=
  (heap.flatMap fun c => c.info.dependencies.map Dependency.source).Perm refs ∧
    ∀ c ∈ heap, c.info.dependencies.Pairwise fun d e =>
      d.sourceRange.start.before e.sourceRange.start

namespace Stmt

mutual

/-- **Nothing disturbs the references** of a statement: when a reference ends, there is a task on
the stack, the direction that was set last is that of its own statement, and no reference in its
option body has gone to the same task. -/
def Keeps (own : Option DepKind) : Stmt → CaptureVars → Prop
  | ref _ _ body, v =>
    KeepsAll none body v ∧ own ≠ none ∧ (capturesAll body v).1.kind = own ∧
      (capturesAll body v).1.stack ≠ [] ∧
      ∀ c ∈ (capturesAll body v).2, some c.task ≠ (capturesAll body v).1.stack.head?
  | symbol kw _ _ body _, v => KeepsAll none body (v.enter kw)
  | top body, v | project _ _ _ body _, v | declare _ _ _ body _, v | incl _ body, v
  | block body, v => KeepsAll none body v
  | _, _ => True

def KeepsAll (own : Option DepKind) : List Stmt → CaptureVars → Prop
  | [], _ => True
  | st :: sts, v => Keeps own st v ∧ KeepsAll (st.direction own) sts (captures st v).1

end

end Stmt

/-- The variables at the start of a document. -/
def CaptureVars.start : CaptureVars := ⟨1, [], none⟩

/-! ### The captures are among the references -/

namespace Stmt

theorem capturesAll_subperm {sts : List Stmt} (h : ∀ st ∈ sts, ∀ own v,
    ((st.captures v).2.map Capture.ref).Subperm ((st.sourceRefs own).map SourceRef.ref)) :
    ∀ own v, ((capturesAll sts v).2.map Capture.ref).Subperm
      ((sourceRefsAll own sts).map SourceRef.ref) := by
  induction sts with
  | nil =>
    intro own v
    exact List.nil_subperm
  | cons st sts ih =>
    obtain ⟨hst, hsts⟩ := List.forall_mem_cons.mp h
    intro own v
    rw [capturesAll, sourceRefsAll, List.map_append, List.map_append]
    exact (hst own v).append (ih hsts _ _)

/-- **A reference is captured** at most once. -/
theorem captures_subperm (st : Stmt) : ∀ own v,
    ((st.captures v).2.map Capture.ref).Subperm ((st.sourceRefs own).map SourceRef.ref) := by
  induction st using Stmt.induct with
  | h st ih =>
    intro own v
    have hall := capturesAll_subperm ih none
    cases st with
    | ref bangs segs body =>
      show ((_ ++ _ : List Capture).map Capture.ref).Subperm (_ :: _)
      rw [List.map_append]
      have hcap : (((capturesAll body v).1.capture (taskRefOf bangs segs)).map
          Capture.ref).Subperm [taskRefOf bangs segs] := by
        unfold CaptureVars.capture
        cases (capturesAll body v).1.stack.head? with
        | none => exact List.nil_subperm
        | some a => exact List.Subperm.refl _
      exact (List.perm_append_comm.subperm).trans (hcap.append (hall v))
    | symbol kw id name body stop => exact hall (v.enter kw)
    | top | project | declare | incl | block => exact hall v
    | _ => exact List.nil_subperm

theorem exists_ref {sts : List Stmt} {own : Option DepKind} {v : CaptureVars} {c : Capture}
    (hc : c ∈ (capturesAll sts v).2) : ∃ r ∈ sourceRefsAll own sts, r.ref = c.ref :=
  List.mem_map.mp ((capturesAll_subperm (fun st _ => captures_subperm st) own v).subset
    (List.mem_map_of_mem hc))

theorem captures_kind (st : Stmt) : ∀ v : CaptureVars, v.kind ≠ none →
    (st.captures v).1.kind ≠ none := by
  induction st using Stmt.induct with
  | h st ih =>
    have hall : ∀ v : CaptureVars, v.kind ≠ none → (capturesAll st.body v).1.kind ≠ none := by
      generalize st.body = sts at ih
      induction sts with
      | nil =>
        intro v hv
        exact hv
      | cons c sts ihs =>
        obtain ⟨hc, hsts⟩ := List.forall_mem_cons.mp ih
        intro v hv
        exact ihs hsts _ (hc v hv)
    intro v hv
    have henter (kw : Token) : (v.enter kw).kind = v.kind := by
      unfold CaptureVars.enter
      split_ifs <;> rfl
    have hleave (kw : Token) (v : CaptureVars) : (v.leave kw).kind = v.kind := by
      unfold CaptureVars.leave
      split_ifs <;> rfl
    cases st with
    | symbol kw id name body stop =>
      show ((capturesAll body (v.enter kw)).1.leave kw).kind ≠ none
      rw [hleave]
      exact hall _ (by rw [henter]; exact hv)
    | opened kw id name =>
      show (v.enter kw).kind ≠ none
      rw [henter]
      exact hv
    | kind k => nofun
    | top | project | declare | ref | incl | block => exact hall v hv
    | _ => exact hv

end Stmt

/-! ### When the references are kept -/

/-- References in the order of the text. -/
def InTextOrder (refs : List SourceRef) : Prop :=
  refs.Pairwise fun r q => r.ref.start.key < q.ref.start.key

/-- What a capture is a capture of, where `kind` was set before. -/
def Capture.source (kind : DepKind) (c : Capture) : SourceRef := ⟨some (c.kind.getD kind), c.ref⟩

/-- All references are captured, each with its direction. -/
def Complete (kind : DepKind) (log : List Capture) (refs : List SourceRef) : Prop :=
  ∀ r ∈ refs, ∃ c ∈ log, c.source kind = r

/-- The captures of a task are in the order of the text. -/
def TaskOrder (log : List Capture) : Prop :=
  log.Pairwise fun c d => c.task = d.task → c.ref.start.key < d.ref.start.key

/-- Two parts of a text, one behind the other. -/
theorem complete_append_iff {kind : DepKind} {log more : List Capture} {refs others : List SourceRef}
    (hlog : ∀ c ∈ log, ∃ r ∈ refs, r.ref = c.ref) (hmore : ∀ c ∈ more, ∃ r ∈ others, r.ref = c.ref)
    (hne : ∀ r ∈ refs, ∀ q ∈ others, r.ref ≠ q.ref) :
    Complete kind (log ++ more) (refs ++ others) ↔
      Complete kind log refs ∧ Complete kind more others := by
  unfold Complete
  rw [List.forall_mem_append]
  refine and_congr ⟨fun h r hr => ?_, fun h r hr => ?_⟩ ⟨fun h r hr => ?_, fun h r hr => ?_⟩
  · obtain ⟨c, hc, rfl⟩ := h r hr
    rcases List.mem_append.mp hc with hc | hc
    · exact ⟨c, hc, rfl⟩
    · obtain ⟨q, hq, heq⟩ := hmore c hc
      exact absurd heq.symm (hne _ hr q hq)
  · obtain ⟨c, hc, heq⟩ := h r hr
    exact ⟨c, List.mem_append_left _ hc, heq⟩
  · obtain ⟨c, hc, rfl⟩ := h r hr
    rcases List.mem_append.mp hc with hc | hc
    · obtain ⟨q, hq, heq⟩ := hlog c hc
      exact absurd heq (hne q hq _ hr)
    · exact ⟨c, hc, rfl⟩
  · obtain ⟨c, hc, heq⟩ := h r hr
    exact ⟨c, List.mem_append_right _ hc, heq⟩

theorem complete_swap {kind : DepKind} {log more : List Capture} {refs : List SourceRef} :
    Complete kind (log ++ more) refs ↔ Complete kind (more ++ log) refs := by
  unfold Complete
  simp only [List.mem_append, or_comm]

theorem ref_of_mem_capture {v : CaptureVars} {ref : TaskRef} {c : Capture}
    (hc : c ∈ v.capture ref) : c.ref = ref := by
  unfold CaptureVars.capture at hc
  cases hstack : v.stack.head? with
  | none =>
    rw [hstack] at hc
    cases hc
  | some a =>
    rw [hstack] at hc
    rw [List.mem_singleton.mp hc]

theorem taskOrder_capture_iff {log : List Capture} {v : CaptureVars} {ref : TaskRef}
    (hlog : ∀ c ∈ log, ref.start.key < c.ref.start.key) :
    TaskOrder (log ++ v.capture ref) ↔
      TaskOrder log ∧ ∀ c ∈ log, some c.task ≠ v.stack.head? := by
  unfold TaskOrder CaptureVars.capture
  cases v.stack.head? with
  | none =>
    rw [Option.map_none, Option.toList_none, List.append_nil]
    simp
  | some a =>
    rw [Option.map_some, Option.toList_some, List.pairwise_append]
    refine and_congr_right fun _ => ?_
    simp only [List.pairwise_singleton, List.mem_singleton, forall_eq, true_and]
    refine forall₂_congr fun c hc => ?_
    constructor
    · intro h heq
      exact absurd (h (Option.some.inj heq)) (Nat.lt_asymm (hlog c hc))
    · intro h heq
      exact absurd (congrArg some heq) h

theorem complete_capture_iff {kind : DepKind} {own : Option DepKind} {v : CaptureVars}
    (hkind : own ≠ none → v.kind ≠ none) (ref : TaskRef) :
    Complete kind (v.capture ref) [⟨own, ref⟩] ↔ own ≠ none ∧ v.kind = own ∧ v.stack ≠ [] := by
  unfold Complete CaptureVars.capture
  rw [List.forall_mem_singleton]
  cases hstack : v.stack with
  | nil => simp
  | cons a below =>
    have hone : (∃ c ∈ ((a :: below).head?.map fun a => (⟨a, v.kind, ref⟩ : Capture)).toList,
        c.source kind = ⟨own, ref⟩) ↔ some (v.kind.getD kind) = own := by
      show (∃ c ∈ [(⟨a, v.kind, ref⟩ : Capture)], _) ↔ _
      simp [Capture.source]
    rw [hone]
    constructor
    · intro h
      have hne : own ≠ none := by
        rw [← h]
        nofun
      refine ⟨hne, ?_, List.cons_ne_nil _ _⟩
      obtain ⟨k, hk⟩ := Option.ne_none_iff_exists'.mp (hkind hne)
      rw [← h, hk]
      rfl
    · rintro ⟨hne, h, -⟩
      obtain ⟨k, hk⟩ := Option.ne_none_iff_exists'.mp hne
      rw [h, hk]
      rfl

namespace Stmt

variable {kind : DepKind}

theorem keepsAll_iff {sts : List Stmt}
    (h : ∀ st ∈ sts, ∀ own (v : CaptureVars), (own ≠ none → v.kind ≠ none) →
      InTextOrder (st.sourceRefs own) → (st.Keeps own v ↔
        Complete kind (st.captures v).2 (st.sourceRefs own) ∧ TaskOrder (st.captures v).2)) :
    ∀ own (v : CaptureVars), (own ≠ none → v.kind ≠ none) → InTextOrder (sourceRefsAll own sts) →
      (KeepsAll own sts v ↔ Complete kind (capturesAll sts v).2 (sourceRefsAll own sts) ∧
        TaskOrder (capturesAll sts v).2) := by
  induction sts with
  | nil =>
    intro own v _ _
    exact iff_of_true trivial ⟨(fun r hr => by cases hr), .nil⟩
  | cons st sts ih =>
    obtain ⟨hst, hsts⟩ := List.forall_mem_cons.mp h
    intro own v hkind horder
    have horder' := List.pairwise_append.mp horder
    have hkind' : st.direction own ≠ none → (st.captures v).1.kind ≠ none := by
      intro hne
      cases st with
      | kind k => nofun
      | _ => exact captures_kind _ v (hkind hne)
    have hlog : ∀ c ∈ (st.captures v).2, ∃ r ∈ st.sourceRefs own, r.ref = c.ref := by
      intro c hc
      exact List.mem_map.mp ((captures_subperm st own v).subset (List.mem_map_of_mem hc))
    rw [KeepsAll, hst own v hkind horder'.1, ih hsts _ _ hkind' horder'.2.1, capturesAll,
      sourceRefsAll, complete_append_iff hlog (fun c hc => exists_ref hc) ?_]
    · have hcross : TaskOrder ((st.captures v).2 ++ (capturesAll sts (st.captures v).1).2) ↔
          TaskOrder (st.captures v).2 ∧ TaskOrder (capturesAll sts (st.captures v).1).2 := by
        unfold TaskOrder
        rw [List.pairwise_append]
        refine and_congr_right fun _ => and_iff_left_of_imp fun _ c hc d hd _ => ?_
        obtain ⟨r, hr, hrc⟩ := hlog c hc
        obtain ⟨q, hq, hqd⟩ : ∃ q ∈ sourceRefsAll (st.direction own) sts, q.ref = d.ref :=
          exists_ref hd
        rw [← hrc, ← hqd]
        exact horder'.2.2 r hr q hq
      rw [hcross]
      tauto
    · intro r hr q hq heq
      have hlt := horder'.2.2 r hr q hq
      rw [heq] at hlt
      exact absurd hlt (Nat.lt_irrefl _)

/-- **The captures of a statement** are its references, in the order of the text for each task, if
and only if nothing disturbs them. -/
theorem keeps_iff (st : Stmt) : ∀ own (v : CaptureVars), (own ≠ none → v.kind ≠ none) →
    InTextOrder (st.sourceRefs own) → (st.Keeps own v ↔
      Complete kind (st.captures v).2 (st.sourceRefs own) ∧ TaskOrder (st.captures v).2) := by
  induction st using Stmt.induct with
  | h st ih =>
    intro own v hkind horder
    have hall (v : CaptureVars) := keepsAll_iff ih none v (fun h => absurd rfl h)
    have hnone : (True ↔ Complete kind [] [] ∧ TaskOrder []) :=
      iff_of_true trivial ⟨(fun r hr => by cases hr), .nil⟩
    cases st with
    | symbol kw id name body stop => exact hall (v.enter kw) horder
    | top | project | declare | incl | block => exact hall v horder
    | ref bangs segs body =>
      obtain ⟨hbefore, hbody⟩ := List.pairwise_cons.mp horder
      have hbefore : ∀ q ∈ sourceRefsAll none body,
          (taskRefOf bangs segs).start.key < q.ref.start.key := hbefore
      have hinner : KeepsAll none body v ↔ _ := hall v hbody
      have hstays : own ≠ none → (capturesAll body v).1.kind ≠ none := by
        intro hne
        exact captures_kind (.block body) v (hkind hne)
      have hlog : ∀ c ∈ (capturesAll body v).2,
          (taskRefOf bangs segs).start.key < c.ref.start.key := by
        intro c hc
        obtain ⟨q, hq, hqc⟩ : ∃ q ∈ sourceRefsAll none body, q.ref = c.ref := exists_ref hc
        rw [← hqc]
        exact hbefore q hq
      rw [Keeps, hinner]
      show _ ↔ Complete kind ((capturesAll body v).2 ++ (capturesAll body v).1.capture _)
        ([⟨own, taskRefOf bangs segs⟩] ++ sourceRefsAll none body) ∧ TaskOrder (_ ++ _)
      rw [complete_swap, complete_append_iff (fun c hc => ⟨_, List.mem_singleton_self _, ?_⟩)
        (fun c hc => exists_ref hc) fun r hr q hq heq => ?_]
      · rw [complete_capture_iff hstays, taskOrder_capture_iff hlog]
        tauto
      · exact (ref_of_mem_capture hc).symm
      · rw [List.mem_singleton.mp hr] at heq
        have hlt := hbefore q hq
        rw [← heq] at hlt
        exact absurd hlt (Nat.lt_irrefl _)
    | _ => exact hnone

end Stmt

/-! ### The dependencies of the cells -/

/-- Entries, sorted into the cells that they belong to. -/
theorem perm_flatMap_filter (log : List Capture) (n : ℕ) :
    ((List.range n).flatMap fun a => log.filter fun c => c.task == a).Perm
      (log.filter fun c => c.task < n) := by
  induction n with
  | zero => simp
  | succ n ih =>
    rw [List.range_succ, List.flatMap_append, List.flatMap_singleton]
    refine (ih.append_right _).trans ?_
    have hsplit := List.filter_append_perm (fun c => decide (c.task < n))
      (log.filter fun c => c.task < n + 1)
    rw [List.filter_filter, List.filter_filter] at hsplit
    refine List.Perm.trans ?_ hsplit
    have hleft : log.filter (fun c => decide (c.task < n))
        = log.filter fun c => decide (c.task < n) && decide (c.task < n + 1) := by
      refine List.filter_congr fun c _ => ?_
      rw [← Bool.decide_and]
      exact decide_eq_decide.mpr (by omega)
    have hright : log.filter (fun c => c.task == n)
        = log.filter fun c => !decide (c.task < n) && decide (c.task < n + 1) := by
      refine List.filter_congr fun c _ => ?_
      rw [← decide_not, ← Bool.decide_and, beq_eq_decide]
      exact decide_eq_decide.mpr (by omega)
    rw [hleft, hright]

theorem taskOrder_iff (log : List Capture) : TaskOrder log ↔ ∀ a,
    (log.filter fun c => c.task == a).Pairwise fun c d => c.ref.start.key < d.ref.start.key := by
  simp only [List.pairwise_filter]
  constructor
  · intro h a
    refine h.imp fun hcd hc hd => hcd ?_
    rw [beq_iff_eq.mp hc, beq_iff_eq.mp hd]
  · intro h
    refine List.pairwise_iff_forall_sublist.mpr fun {c d} hsub htask => ?_
    exact List.pairwise_iff_forall_sublist.mp (h c.task) hsub (beq_self_eq_true _)
      (beq_iff_eq.mpr htask.symm)

/-- **The dependencies of the cells** are all references in order if all are captured, in the order
of each task. -/
theorem capturedInOrder_iff {kind : DepKind} {heap : List NodeCell} {log : List Capture}
    {refs : List SourceRef} (horder : InTextOrder refs)
    (hsub : (log.map Capture.ref).Subperm (refs.map SourceRef.ref))
    (hvalid : ∀ c ∈ log, c.task < heap.length)
    (hdeps : ∀ a, (heap.getD a .new).info.dependencies
      = (log.filter fun c => c.task == a).map (Capture.dep kind)) :
    CapturedInOrder heap refs ↔ Complete kind log refs ∧ TaskOrder log := by
  have hheap : heap = (List.range heap.length).map fun a => heap.getD a .new := by
    refine List.ext_getElem (by simp) fun a ha _ => ?_
    rw [List.getElem_map, List.getElem_range, List.getD_eq_getElem _ _ ha]
  have hall : (heap.flatMap fun c => c.info.dependencies.map Dependency.source).Perm
      (log.map (Capture.source kind)) := by
    rw [hheap, List.flatMap_map]
    simp only [hdeps, List.map_map]
    have hperm := (perm_flatMap_filter log heap.length).map (Capture.source kind)
    rw [List.filter_eq_self.mpr fun c hc => decide_eq_true (hvalid c hc), List.map_flatMap] at hperm
    exact hperm
  have hcells : (∀ c ∈ heap, c.info.dependencies.Pairwise fun d e =>
      d.sourceRange.start.before e.sourceRange.start) ↔ TaskOrder log := by
    rw [taskOrder_iff]
    have hone (a : ℕ) : ((heap.getD a .new).info.dependencies.Pairwise fun d e =>
        d.sourceRange.start.before e.sourceRange.start) ↔
        (log.filter fun c => c.task == a).Pairwise fun c d =>
          c.ref.start.key < d.ref.start.key := by
      rw [hdeps, List.pairwise_map]
      refine List.Pairwise.iff fun c d => ?_
      exact LspPos.before_iff_key _ _
    constructor
    · intro h a
      rw [← hone]
      by_cases ha : a < heap.length
      · rw [List.getD_eq_getElem _ _ ha]
        exact h _ (List.getElem_mem ha)
      · rw [List.getD_eq_default _ _ (Nat.le_of_not_lt ha)]
        exact .nil
    · intro h c hc
      obtain ⟨a, ha, rfl⟩ := List.getElem_of_mem hc
      rw [← List.getD_eq_getElem _ .new ha]
      exact (hone a).mpr (h a)
  unfold CapturedInOrder
  rw [hcells]
  refine and_congr_left fun _ => ⟨fun h r hr => ?_, fun h => ?_⟩
  · exact List.mem_map.mp (hall.subset (h.symm.subset hr))
  · have hnodup : refs.Nodup := horder.imp fun hlt heq => by
      rw [heq] at hlt
      exact Nat.lt_irrefl _ hlt
    have hrefs : refs.Subperm (log.map (Capture.source kind)) :=
      List.subperm_of_subset hnodup fun r hr => List.mem_map.mpr (h r hr)
    have hlen := hsub.length_le
    rw [List.length_map, List.length_map] at hlen
    exact hall.trans (hrefs.perm_of_length_le (by rwa [List.length_map])).symm

/-! ### The order of the references -/

namespace Stmt

variable {lossy : Bool}

theorem spellsAll_refs {sts : List Stmt} (h : ∀ st ∈ sts, ∀ ts, Spells lossy st ts → ∀ own,
    ((st.sourceRefs own).map fun r => r.ref.start.key).Sublist (startKeys ts)) :
    ∀ ts, SpellsAll lossy sts ts → ∀ own,
      ((sourceRefsAll own sts).map fun r => r.ref.start.key).Sublist (startKeys ts) := by
  induction sts with
  | nil =>
    intro ts _ own
    exact List.nil_sublist _
  | cons st sts ih =>
    obtain ⟨hst, hsts⟩ := List.forall_mem_cons.mp h
    rintro ts ⟨gap, mine, rest, rfl, hmine, hrest⟩ own
    rw [sourceRefsAll, List.map_append, startKeys_append, startKeys_append]
    refine List.Sublist.append ?_ (ih hsts rest hrest _)
    exact (hst mine hmine own).trans (List.sublist_append_right _ _)

/-- **The references of a statement** begin at tokens of it, in their order. -/
theorem spells_refs (st : Stmt) : ∀ ts, Spells lossy st ts → ∀ own,
    ((st.sourceRefs own).map fun r => r.ref.start.key).Sublist (startKeys ts) := by
  induction st using Stmt.induct with
  | h st ih =>
    intro ts hts own
    have hall := spellsAll_refs ih
    have hbody {stop : LspPos} {us : List Token}
        (h : InBody (SpellsAll lossy st.body) (st.body = []) stop us) :
        ((sourceRefsAll none st.body).map fun r => r.ref.start.key).Sublist (startKeys us) := by
      cases h with
      | none hempty _ =>
        rw [hempty]
        exact List.nil_sublist _
      | @braces l r inner hl hr hinner hstop =>
        refine (hall inner hinner none).trans ?_
        rw [← List.singleton_append, startKeys_append, startKeys_append]
        exact (List.sublist_append_left _ _).trans (List.sublist_append_right _ _)
    have hbehind (kw : Token) (mid tail : List Token) :
        (startKeys tail).Sublist (startKeys (kw :: (mid ++ tail))) := by
      rw [← List.singleton_append, startKeys_append, startKeys_append]
      exact (List.sublist_append_right _ _).trans (List.sublist_append_right _ _)
    cases st with
    | top | block => exact hall ts hts none
    | project | symbol | declare =>
      obtain ⟨mid, tail, rfl, -, -, h⟩ := hts
      exact (hbody h).trans (hbehind _ _ _)
    | incl file body =>
      obtain ⟨kw, tail, stop, rfl, -, h⟩ := hts
      exact (hbody h).trans (hbehind _ [file] _)
    | ref bangs segs body =>
      obtain ⟨path, tail, stop, rfl, -, hpath, h⟩ := hts
      obtain ⟨first, more, rfl⟩ : ∃ first more, path = first :: more := by
        cases path with
        | nil => exact absurd (List.head?_eq_none_iff.mp hpath.head_eq.symm) hpath.ne_nil
        | cons first more => exact ⟨first, more, rfl⟩
      have hstart : (taskRefOf bangs segs).start = first.start := by
        unfold taskRefOf
        rw [← hpath.head_eq]
        rfl
      have hkind : (first.kind != tkRbrace) = true := by
        rcases hpath.kinds first List.mem_cons_self with hk | hk | hk <;> rw [hk]
        · rfl
        · rfl
        · decide +kernel
      have hfirst : startKeys (first :: more) = first.start.key :: startKeys more := by
        unfold startKeys
        rw [List.filter_cons, if_pos hkind]
        rfl
      show ((taskRefOf bangs segs).start.key :: _).Sublist _
      rw [hstart, startKeys_append, startKeys_append, hfirst]
      refine List.Sublist.trans ?_ ((List.sublist_append_right _ _).append_right _)
      refine List.Sublist.cons_cons _ ?_
      exact (hbody h).trans (List.sublist_append_right _ _)
    | _ => exact List.nil_sublist _

end Stmt

/-! ### A parse -/

theorem productions_file : ∀ p ∈ grammar.productions, p.lhs = .file →
    p.rhs = [.nt .midFile, .nt .items] ∧ p.action.code = .default := by decide +kernel

theorem exists_reset {doc : SynTree} (hdoc : doc.Valid grammar yyError)
    (hroot : doc.root = .nt .file) : ∃ sts, doc.stmts [] = .reset :: sts := by
  obtain ⟨p, children, rfl, hp, hlhs, hroots, hvalid⟩ := exists_node hdoc hroot
  obtain ⟨hrhs, hcode⟩ := productions_file p hp hlhs
  rw [hrhs] at hroots
  obtain ⟨m, rest, rfl, hm, hrest⟩ := List.map_eq_cons_iff.mp hroots
  obtain ⟨i, rest, rfl, -, hnil⟩ := List.map_eq_cons_iff.mp hrest
  obtain rfl := List.map_eq_nil_iff.mp hnil
  obtain ⟨q, kids, rfl, hq, hqlhs, -, -⟩ := exists_node (hvalid m (by simp)) hm
  have haction := (productions_midCode q hq).1 hqlhs
  refine ⟨i.stmts [(.node q kids : SynTree).static], ?_⟩
  rw [Tree.stmts, hcode, Tree.stmtsEach, Tree.stmtsEach, Tree.stmtsEach, Tree.stmts, haction]
  show [Stmt.reset] ++ (_ ++ []) = _
  rw [List.append_nil]
  rfl

section Parses

variable {κ : Type*} [DecidableEq κ] {T : Tables κ NonTerm SemAction} {s t : ProgState}
  {text : CStr} {doc : SynTree} {out : ParseResult}

/-- **The dependencies of a parse** are the references of its text, each with its direction and for
each task in the order of the text, if and only if nothing disturbs them. -/
theorem dependencies_iff (hT : T.Sound grammar yyError) (hs : ParseHistory T s)
    (h : ParsesTo T s text doc t out) :
    CapturedInOrder out.heap (Stmt.sourceRefsAll none (doc.stmts [])) ↔
      Stmt.KeepsAll none (doc.stmts []) .start := by
  obtain ⟨hspells, hplace⟩ := h.spells hT hs
  obtain ⟨input, -, hdoc, hgrammar, rfl, -⟩ := h.spec hT
  obtain ⟨sts, hsts⟩ := exists_reset hdoc.valid hdoc.root
  have horder : InTextOrder (Stmt.sourceRefsAll none (doc.stmts [])) := by
    have hsub := Stmt.spellsAll_refs (fun st _ => st.spells_refs) _ hspells none
    exact List.pairwise_map.mp (hplace.startKeys.sublist hsub)
  have hkind : (none : Option DepKind) ≠ none → CaptureVars.start.kind ≠ none := fun h => absurd rfl h
  have hkeeps : Stmt.KeepsAll none (doc.stmts []) .start ↔
      Complete s.grammar.pendingDepKind _ _ ∧ TaskOrder _ :=
    Stmt.keepsAll_iff (fun st _ => st.keeps_iff) none .start hkind horder
  rw [hkeeps]
  -- what is on the stack of tasks from earlier is dropped at the start
  have hcaptures : CapturesFrom s.grammar.pendingDepKind { s.grammar.install with symStack := [] }
      .start _ (Stmt.capturesAll sts .start) :=
    Stmt.execAll_captures (fun st _ => st.exec_captures) _ .start
      ⟨rfl, rfl, rfl, fun a ha => by cases ha⟩
  have hstate : t.grammar = (Stmt.execAll sts { s.grammar.install with symStack := [] }).1 := by
    rw [hgrammar, hsts]
    rfl
  have hlog : (Stmt.capturesAll (doc.stmts []) .start).2 = (Stmt.capturesAll sts .start).2 := by
    rw [hsts]
    rfl
  rw [← hstate] at hcaptures
  have hview := t.grammar.captureView_write (f := fun c =>
    { c with children := sortByStart t.grammar.heap c.children }) (fun _ => rfl) 0
  simp only [GrammarState.captureView, Prod.mk.injEq] at hview
  refine capturedInOrder_iff horder
    (Stmt.capturesAll_subperm (fun st _ => st.captures_subperm) none .start) ?_ fun a => ?_
  · intro c hc
    rw [hlog] at hc
    have hlen : (parseResult t.front t.grammar).heap.length = (Stmt.capturesAll sts .start).1.cells :=
      hview.1.1.trans hcaptures.agrees.cells
    rw [hlen]
    exact hcaptures.valid c hc
  · have hdeps : ((parseResult t.front t.grammar).heap.getD a .new).info.dependencies
        = t.grammar.deps a := congrFun hview.2 a
    rw [hdeps, hlog, hcaptures.deps]
    show GrammarState.deps _ a ++ _ = _
    have hnone : GrammarState.deps { s.grammar.install with symStack := [] } a = [] := by
      unfold GrammarState.deps GrammarState.cell
      cases a with
      | zero => rfl
      | succ a => rfl
    rw [hnone, List.nil_append]

/-- A reference whose option body has one of the other direction, and another reference. -/
def bodyReference : CStr :=
  cstr "task a \"\" \x7b depends b \x7b precedes c \x7d, d \x7d"

theorem bodyReference_parse : (treeUpTo coreTables 200 .boot bodyReference).map (fun x =>
    ((x.1.heap.flatMap fun c => c.info.dependencies.map Dependency.source).map SourceRef.own,
      (Stmt.sourceRefsAll none (x.2.stmts [])).map SourceRef.own))
    = some ([some .precedes, some .precedes, some .precedes],
      [some .depends, some .precedes, some .depends]) := by
  decide +kernel

/-- Its parse, and whether its references are disturbed. -/
theorem dependencies_bodyReference : ∃ doc t out,
    ParsesTo coreTables .boot bodyReference doc t out ∧
      (CapturedInOrder out.heap (Stmt.sourceRefsAll none (doc.stmts [])) ↔
        Stmt.KeepsAll none (doc.stmts []) .start) := by
  obtain ⟨doc, t, out, hparse, -⟩ := exists_parsesTo bodyReference_parse
  exact ⟨doc, t, out, hparse, dependencies_iff coreTables_sound .boot hparse⟩

/-- **The outer references** get the direction of the one in the option body. -/
theorem dependencies_disturbed : ¬ ∀ (s t : ProgState) (text : CStr) (doc : SynTree)
    (out : ParseResult), ParseHistory coreTables s → ParsesTo coreTables s text doc t out →
      CapturedInOrder out.heap (Stmt.sourceRefsAll none (doc.stmts [])) := by
  intro h
  obtain ⟨doc, t, out, hparse, heq⟩ := exists_parsesTo bodyReference_parse
  have hperm := (h .boot t bodyReference doc out .boot hparse).1.map SourceRef.own
  rw [Prod.mk.injEq] at heq
  rw [heq.1, heq.2] at hperm
  exact absurd hperm (by decide)

end Parses

end TaskjugglerLsp
