import Mathlib.Logic.Function.Basic
import TaskjugglerLsp.Lib.Ledger
import TaskjugglerLsp.ProjectTree.Resolution
import TaskjugglerLsp.SemanticTokens.Encode

/-!
# Results that are shared

`docsnap_sem_tokens` and `docsnap_release` of `query_context.c` and `project_dep_resolve` of
`project_tree.c`, called by any number of query workers that have references to one snapshot.
Every atomic access is a step of its own, and the steps of all workers come in any order.  What is
shared is a buffer of semantic tokens, published by a compare-exchange, and a cell for every
dependency, which is simply stored to.

* `MemoStep.ledger`, `MemoState.Right.step`: what every step keeps;
* `MemoReached.stays`: what is set stays as it is while the snapshot is pinned;
* `memoised_results`: the calls return what they would have computed.
-/

namespace TaskjugglerLsp

open Lib

/-- `ProjectDep.resolved`. -/
inductive ResolvedCell where
  | unresolved
  | resolvedNull
  | node (a : List ℕ)
  deriving DecidableEq

/-- What is published for a result. -/
def ResolvedCell.publish : Option (List ℕ) → ResolvedCell
  | none => .resolvedNull
  | some a => .node a

/-- What a cached value is returned as. -/
def ResolvedCell.cached : ResolvedCell → Option (List ℕ)
  | .node a => some a
  | _ => none

/-- Where the call of a worker is: in `docsnap_sem_tokens` after a load of NULL, with a buffer
without data, with the data, after the compare-exchange that fails, and before the return; or in
`project_dep_resolve` after a load of `PROJECT_DEP_UNRESOLVED`. -/
inductive QueryCall where
  | idle
  | semMissed
  | semFresh (fresh : ℕ)
  | semReady (fresh : ℕ)
  | semLost (fresh expected : ℕ)
  | semHave (memo : ℕ)
  | depMissed (owner : List ℕ) (depIndex : ℕ)
  deriving DecidableEq

/-- What a call has returned: a buffer with the data found in it, or the node of a dependency. -/
inductive QueryAnswer where
  | sem (buf : ℕ) (data : Option (List UInt32))
  | dep (owner : List ℕ) (depIndex : ℕ) (resolved : Option (List ℕ))

/-- A snapshot and its project tree with the results that are shared, and the workers. -/
structure MemoState where
  refcount : ℕ
  semMemo : Option ℕ
  /-- The data of the buffers that there are. -/
  data : ℕ → Option (List UInt32)
  /-- The buffers that have been freed, the last one first. -/
  freed : List ℕ
  /-- The name of the next buffer. -/
  next : ℕ
  resolved : List ℕ → ℕ → ResolvedCell
  /-- The workers with a reference to the snapshot. -/
  pins : List ℕ
  calls : ℕ → QueryCall
  answers : List QueryAnswer

namespace MemoState

/-- The snapshot as `docsnap_new` makes it, with a reference of worker 0. -/
def init : MemoState :=
  ⟨1, none, fun _ => none, [], 0, fun _ _ => .unresolved, [0], fun _ => .idle, []⟩

/-- The call of a worker goes on. -/
def setCall (s : MemoState) (k : ℕ) (c : QueryCall) : MemoState :=
  { s with calls := Function.update s.calls k c }

/-- A call returns. -/
def answer (s : MemoState) (k : ℕ) (a : QueryAnswer) : MemoState :=
  { s.setCall k .idle with answers := a :: s.answers }

/-- `free`. -/
def free (s : MemoState) (b : ℕ) : MemoState :=
  { s with data := Function.update s.data b none, freed := b :: s.freed }

/-- What the last `docsnap_release` does to the memo. -/
def freeMemo (s : MemoState) : MemoState :=
  match s.semMemo with
  | none => s
  | some b => { s.free b with semMemo := none }

theorem freeMemo_eq (s : MemoState) : s.freeMemo.semMemo = none ∧ s.freeMemo.calls = s.calls ∧
    s.freeMemo.resolved = s.resolved ∧ s.freeMemo.answers = s.answers := by
  unfold freeMemo
  split
  case h_1 hmemo => exact ⟨hmemo, rfl, rfl, rfl⟩
  case h_2 => exact ⟨rfl, rfl, rfl, rfl⟩

/-- `atomic_store` to the cell of a dependency. -/
def store (s : MemoState) (owner : List ℕ) (depIndex : ℕ) (cell : ResolvedCell) : MemoState :=
  { s with resolved := fun o i => if o = owner ∧ i = depIndex then cell else s.resolved o i }

end MemoState

/-- One step of one of the workers. -/
inductive MemoStep (spans : List TokenSpan) (root : ProjectNode) (s : MemoState) :
    MemoState → Prop
  /-- `docsnap_acquire`, by one that has a reference. -/
  | acquire (k : ℕ) : s.pins ≠ [] → k ∉ s.pins →
      MemoStep spans root s { s with refcount := s.refcount + 1, pins := k :: s.pins }
  /-- `docsnap_release` of a reference that is not the last. -/
  | release (k : ℕ) : k ∈ s.pins → s.calls k = .idle → s.refcount ≠ 1 →
      MemoStep spans root s { s with refcount := s.refcount - 1, pins := s.pins.erase k }
  /-- `docsnap_release` of the last one. -/
  | releaseLast (k : ℕ) : k ∈ s.pins → s.calls k = .idle → s.refcount = 1 →
      MemoStep spans root s { s.freeMemo with refcount := 0, pins := s.pins.erase k }
  /-- The load of the memo, which is there. -/
  | semHit {x : ℕ} (k : ℕ) : k ∈ s.pins → s.calls k = .idle → s.semMemo = some x →
      MemoStep spans root s (s.setCall k (.semHave x))
  /-- The load of the memo, which is not there. -/
  | semMiss (k : ℕ) : k ∈ s.pins → s.calls k = .idle → s.semMemo = none →
      MemoStep spans root s (s.setCall k .semMissed)
  | semAlloc (k : ℕ) : s.calls k = .semMissed → MemoStep spans root s
      { s.setCall k (.semFresh s.next) with
        data := Function.update s.data s.next (some [])
        next := s.next + 1 }
  | semCompute {b : ℕ} (k : ℕ) : s.calls k = .semFresh b → MemoStep spans root s
      { s.setCall k (.semReady b) with
        data := Function.update s.data b (some (computeSemanticTokensData spans)) }
  /-- The compare-exchange that succeeds. -/
  | semPublish {b : ℕ} (k : ℕ) : s.calls k = .semReady b → s.semMemo = none →
      MemoStep spans root s { s.setCall k (.semHave b) with semMemo := some b }
  /-- The compare-exchange that fails. -/
  | semLose {b x : ℕ} (k : ℕ) : s.calls k = .semReady b → s.semMemo = some x →
      MemoStep spans root s (s.setCall k (.semLost b x))
  | semFree {b x : ℕ} (k : ℕ) : s.calls k = .semLost b x →
      MemoStep spans root s ((s.setCall k (.semHave x)).free b)
  | semReturn {x : ℕ} (k : ℕ) : s.calls k = .semHave x →
      MemoStep spans root s (s.answer k (.sem x (s.data x)))
  /-- The load of a cell that is set. -/
  | depHit (k : ℕ) (owner : List ℕ) (depIndex : ℕ) : k ∈ s.pins → s.calls k = .idle →
      s.resolved owner depIndex ≠ .unresolved →
      MemoStep spans root s
        (s.answer k (.dep owner depIndex (s.resolved owner depIndex).cached))
  /-- The load of a cell that is not set. -/
  | depMiss (k : ℕ) (owner : List ℕ) (depIndex : ℕ) : k ∈ s.pins → s.calls k = .idle →
      s.resolved owner depIndex = .unresolved →
      MemoStep spans root s (s.setCall k (.depMissed owner depIndex))
  /-- The store, and the return. -/
  | depStore {owner : List ℕ} {depIndex : ℕ} (k : ℕ) : s.calls k = .depMissed owner depIndex →
      MemoStep spans root s
        ((s.answer k (.dep owner depIndex (projectDepResolve root owner depIndex))).store owner
          depIndex (.publish (projectDepResolve root owner depIndex)))

/-- The states that the workers reach together. -/
inductive MemoReached (spans : List TokenSpan) (root : ProjectNode) : MemoState → Prop
  | init : MemoReached spans root MemoState.init
  | step {s s' : MemoState} : MemoReached spans root s → MemoStep spans root s s' →
      MemoReached spans root s'

/-! ### The ledger of the token buffers -/

/-- The buffer that only the call knows. -/
def QueryCall.ownBuffer : QueryCall → Option ℕ
  | .semFresh b => some b
  | .semReady b => some b
  | .semLost b _ => some b
  | _ => none

/-- Who may have a buffer. -/
inductive MemoOwner where
  | memo
  | worker (k : ℕ)
  deriving DecidableEq

namespace MemoState

def bufferOf (s : MemoState) : MemoOwner → Option ℕ
  | .memo => s.semMemo
  | .worker k => (s.calls k).ownBuffer

def ledger (s : MemoState) : Ledger MemoOwner := ⟨s.bufferOf, s.freed, s.next⟩

variable {s : MemoState} {k : ℕ} {c : QueryCall}

theorem bufferOf_setCall_self : (s.setCall k c).bufferOf (.worker k) = c.ownBuffer := by
  show (Function.update s.calls k c k).ownBuffer = _
  rw [Function.update_self]

theorem bufferOf_setCall_of_ne {o : MemoOwner} (ho : o ≠ .worker k) :
    (s.setCall k c).bufferOf o = s.bufferOf o := by
  cases o with
  | memo => rfl
  | worker j =>
    have hj : j ≠ k := fun hj => ho (by rw [hj])
    show (Function.update s.calls k c j).ownBuffer = _
    rw [Function.update_of_ne hj]
    rfl

theorem setCall_idle {c' : QueryCall} (hcall : s.calls k = c') (hbuf : c.ownBuffer = c'.ownBuffer) :
    ∀ o, (s.setCall k c).bufferOf o = s.bufferOf o := by
  intro o
  by_cases ho : o = .worker k
  · rw [ho, bufferOf_setCall_self, hbuf, bufferOf, hcall]
  · exact bufferOf_setCall_of_ne ho

end MemoState

open MemoState

variable {spans : List TokenSpan} {root : ProjectNode} {s s' : MemoState}

/-- **Every step** is an operation of the ledger. -/
theorem MemoStep.ledger (h : MemoStep spans root s s') : Ledger.Op s.ledger s'.ledger := by
  cases h with
  | acquire k hpins hk => exact .idle (fun o => by cases o <;> rfl) rfl rfl
  | release k hk hcall hcount => exact .idle (fun o => by cases o <;> rfl) rfl rfl
  | releaseLast k hk hcall hcount =>
    cases hmemo : s.semMemo with
    | none =>
      have heq : s.freeMemo = s := by
        unfold freeMemo
        rw [hmemo]
      rw [heq]
      exact .idle (fun o => by cases o <;> rfl) rfl rfl
    | some b =>
      have heq : s.freeMemo = { s.free b with semMemo := none } := by
        unfold freeMemo
        rw [hmemo]
      rw [heq]
      refine .drop .memo b hmemo rfl (fun o ho => ?_) rfl rfl
      cases o with
      | memo => exact absurd rfl ho
      | worker j => rfl
  | semHit k hk hcall hmemo => exact .idle (setCall_idle hcall rfl) rfl rfl
  | semMiss k hk hcall hmemo => exact .idle (setCall_idle hcall rfl) rfl rfl
  | semAlloc k hcall =>
    refine .create (.worker k) ?_ (bufferOf_setCall_self (s := s)) (fun o ho => ?_) rfl rfl
    · show (s.calls k).ownBuffer = none
      rw [hcall]
      rfl
    · exact bufferOf_setCall_of_ne (s := s) ho
  | semCompute k hcall => exact .idle (setCall_idle (s := s) hcall rfl) rfl rfl
  | @semPublish b k hcall hmemo =>
    refine .move (.worker k) .memo b ?_ hmemo (bufferOf_setCall_self (s := s)) rfl
      (fun o ho ho' => ?_) rfl rfl
    · show (s.calls k).ownBuffer = some b
      rw [hcall]
      rfl
    · cases o with
      | memo => exact absurd rfl ho'
      | worker j => exact bufferOf_setCall_of_ne (s := s) ho
  | semLose k hcall hmemo => exact .idle (setCall_idle hcall rfl) rfl rfl
  | @semFree b x k hcall =>
    refine .drop (.worker k) b ?_ (bufferOf_setCall_self (s := s)) (fun o ho => ?_) rfl rfl
    · show (s.calls k).ownBuffer = some b
      rw [hcall]
      rfl
    · exact bufferOf_setCall_of_ne (s := s) ho
  | semReturn k hcall => exact .idle (setCall_idle (s := s) hcall rfl) rfl rfl
  | depHit k owner i hk hcall hcell => exact .idle (setCall_idle (s := s) hcall rfl) rfl rfl
  | depMiss k owner i hk hcall hcell => exact .idle (setCall_idle hcall rfl) rfl rfl
  | depStore k hcall => exact .idle (setCall_idle (s := s) hcall rfl) rfl rfl

theorem MemoReached.sound (h : MemoReached spans root s) : s.ledger.Sound := by
  induction h with
  | init =>
    refine Ledger.sound_empty.idle (fun o => ?_) rfl rfl
    cases o <;> rfl
  | step _ hstep ih => exact ih.op hstep.ledger

/-! ### The references -/

/-- The count is that of the references, and a call is made under one of them. -/
structure MemoState.Counted (s : MemoState) : Prop where
  count : s.refcount = s.pins.length
  nodup : s.pins.Nodup
  busy : ∀ k, s.calls k ≠ .idle → k ∈ s.pins
  memo : s.pins = [] → s.semMemo = none

theorem MemoState.Counted.setCall {k : ℕ} {c : QueryCall} (h : s.Counted) (hk : k ∈ s.pins)
    (hcount : s'.refcount = s.refcount) (hpins : s'.pins = s.pins)
    (hcalls : s'.calls = Function.update s.calls k c) : s'.Counted := by
  constructor
  case count => rw [hcount, hpins, h.count]
  case nodup => rw [hpins]; exact h.nodup
  case busy =>
    intro j hj
    rw [hpins]
    by_cases hjk : j = k
    · rwa [hjk]
    · rw [hcalls, Function.update_of_ne hjk] at hj
      exact h.busy j hj
  case memo =>
    intro hnil
    rw [← hpins, hnil] at hk
    cases hk

theorem MemoState.Counted.step (h : s.Counted) (hstep : MemoStep spans root s s') :
    s'.Counted := by
  have hbusy : ∀ {k c}, s.calls k = c → c ≠ .idle → k ∈ s.pins :=
    fun hcall hne => h.busy _ (by rwa [hcall])
  cases hstep with
  | acquire k hpins hk =>
    constructor
    case count => exact congrArg (· + 1) h.count
    case nodup => exact List.nodup_cons.mpr ⟨hk, h.nodup⟩
    case busy => exact fun j hj => List.mem_cons_of_mem _ (h.busy j hj)
    case memo => exact fun hnil => by cases hnil
  | release k hk hcall hcount =>
    have hlen := List.length_erase_of_mem hk
    have hpos := List.length_pos_of_mem hk
    constructor
    case count =>
      show s.refcount - 1 = (s.pins.erase k).length
      rw [hlen, h.count]
    case nodup => exact h.nodup.erase k
    case busy =>
      intro j hj
      have hjk : j ≠ k := by
        rintro rfl
        exact hj hcall
      exact (List.mem_erase_of_ne hjk).mpr (h.busy j hj)
    case memo =>
      intro hnil
      have hzero := congrArg List.length hnil
      rw [List.length_nil, show (s.pins.erase k).length = s.pins.length - 1 from hlen,
        ← h.count] at hzero
      have := h.count
      omega
  | releaseLast k hk hcall hcount =>
    have hlen := List.length_erase_of_mem hk
    have hone : s.pins.length = 1 := by rw [← h.count, hcount]
    have hnil : s.pins.erase k = [] := List.length_eq_zero_iff.mp (by rw [hlen, hone])
    constructor
    case count =>
      show 0 = (s.pins.erase k).length
      rw [hnil]
      rfl
    case nodup => exact h.nodup.erase k
    case busy =>
      intro j hj
      have hj' : s.calls j ≠ .idle := by
        rw [← s.freeMemo_eq.2.1]
        exact hj
      have hjk : j ≠ k := by
        rintro rfl
        exact hj' hcall
      exact (List.mem_erase_of_ne hjk).mpr (h.busy j hj')
    case memo => exact fun _ => s.freeMemo_eq.1
  | semHit k hk hcall hmemo => exact h.setCall hk rfl rfl rfl
  | semMiss k hk hcall hmemo => exact h.setCall hk rfl rfl rfl
  | semAlloc k hcall => exact h.setCall (hbusy hcall (by simp)) rfl rfl rfl
  | semCompute k hcall => exact h.setCall (hbusy hcall (by simp)) rfl rfl rfl
  | semPublish k hcall hmemo => exact h.setCall (hbusy hcall (by simp)) rfl rfl rfl
  | semLose k hcall hmemo => exact h.setCall (hbusy hcall (by simp)) rfl rfl rfl
  | semFree k hcall => exact h.setCall (hbusy hcall (by simp)) rfl rfl rfl
  | semReturn k hcall => exact h.setCall (hbusy hcall (by simp)) rfl rfl rfl
  | depHit k owner i hk hcall hcell => exact h.setCall hk rfl rfl rfl
  | depMiss k owner i hk hcall hcell => exact h.setCall hk rfl rfl rfl
  | depStore k hcall => exact h.setCall (hbusy hcall (by simp)) rfl rfl rfl

theorem MemoReached.counted (h : MemoReached spans root s) : s.Counted := by
  induction h with
  | init =>
    constructor
    case count => rfl
    case nodup => exact List.nodup_singleton 0
    case busy => exact fun k hk => absurd rfl hk
    case memo => exact fun hnil => by cases hnil
  | step _ hstep ih => exact ih.step hstep

/-! ### The results -/

/-- What a call has is the result, or the memo. -/
def QueryCall.Right (result : List UInt32) (memo : Option ℕ) (data : ℕ → Option (List UInt32)) :
    QueryCall → Prop
  | .semReady b => data b = some result
  | .semLost _ x => memo = some x
  | .semHave x => memo = some x
  | _ => True

/-- What is shared is the result that a call would compute, and so is what was returned. -/
structure MemoState.Right (spans : List TokenSpan) (root : ProjectNode) (s : MemoState) :
    Prop where
  memo : ∀ b, s.semMemo = some b → s.data b = some (computeSemanticTokensData spans)
  calls : ∀ k, (s.calls k).Right (computeSemanticTokensData spans) s.semMemo s.data
  cells : ∀ o i, s.resolved o i = .unresolved ∨
    s.resolved o i = .publish (projectDepResolve root o i)
  answers_sem : ∀ b d, .sem b d ∈ s.answers → d = some (computeSemanticTokensData spans) ∧
    (s.pins ≠ [] → s.semMemo = some b)
  answers_dep : ∀ o i r, .dep o i r ∈ s.answers → r = projectDepResolve root o i

section Right

variable {k : ℕ} {c : QueryCall} (h : s.Right spans root)

include h

/-- A call goes on that keeps the memo, and the data of what the others have. -/
theorem MemoState.Right.advance
    (hmemo : ∀ x, s.semMemo = some x → s'.semMemo = some x)
    (hdata : ∀ o b, o ≠ .worker k → s.bufferOf o = some b →
      s.data b = some (computeSemanticTokensData spans) →
      s'.data b = some (computeSemanticTokensData spans))
    (hnew : ∀ b, s'.semMemo = some b →
      s.semMemo = some b ∨ s'.data b = some (computeSemanticTokensData spans))
    (hpins : s'.pins = s.pins) (hcalls : s'.calls = Function.update s.calls k c)
    (hc : c.Right (computeSemanticTokensData spans) s'.semMemo s'.data)
    (hresolved : s'.resolved = s.resolved) (hanswers : s'.answers = s.answers) :
    s'.Right spans root := by
  constructor
  case memo =>
    intro b hb
    rcases hnew b hb with hold | hnew
    · exact hdata .memo b (by simp) hold (h.memo b hold)
    · exact hnew
  case calls =>
    intro j
    rw [hcalls]
    by_cases hj : j = k
    · rw [hj, Function.update_self]
      exact hc
    · rw [Function.update_of_ne hj]
      have hright := h.calls j
      cases hcall : s.calls j with
      | semReady b =>
        rw [hcall] at hright
        refine hdata (.worker j) b (by simpa using hj) ?_ hright
        show (s.calls j).ownBuffer = some b
        rw [hcall]
        rfl
      | semLost b x =>
        rw [hcall] at hright
        exact hmemo x hright
      | semHave x =>
        rw [hcall] at hright
        exact hmemo x hright
      | _ => trivial
  case cells => rw [hresolved]; exact h.cells
  case answers_sem =>
    intro b d hmem
    rw [hanswers] at hmem
    rw [hpins]
    exact ⟨(h.answers_sem b d hmem).1, fun hne => hmemo b ((h.answers_sem b d hmem).2 hne)⟩
  case answers_dep => rw [hanswers]; exact h.answers_dep

theorem MemoState.Right.setCall (hc : c.Right (computeSemanticTokensData spans) s.semMemo s.data) :
    (s.setCall k c).Right spans root :=
  h.advance (k := k) (c := c) (fun _ => id) (fun _ _ _ _ => id) (fun _ => .inl) rfl rfl hc rfl rfl

theorem MemoState.Right.answer_sem {x : ℕ} (hmemo : s.semMemo = some x) :
    (s.answer k (.sem x (s.data x))).Right spans root := by
  have hcall := h.setCall (k := k) (c := .idle) trivial
  refine ⟨hcall.memo, hcall.calls, hcall.cells, fun b d hmem => ?_, fun o i r hmem => ?_⟩
  · rcases List.mem_cons.mp hmem with heq | hmem
    · obtain ⟨rfl, rfl⟩ := QueryAnswer.sem.inj heq
      exact ⟨h.memo b hmemo, fun _ => hmemo⟩
    · exact h.answers_sem b d hmem
  · rcases List.mem_cons.mp hmem with heq | hmem
    · cases heq
    · exact h.answers_dep o i r hmem

theorem MemoState.Right.answer_dep {o : List ℕ} {i : ℕ} {r : Option (List ℕ)}
    (hr : r = projectDepResolve root o i) : (s.answer k (.dep o i r)).Right spans root := by
  have hcall := h.setCall (k := k) (c := .idle) trivial
  refine ⟨hcall.memo, hcall.calls, hcall.cells, fun b d hmem => ?_, fun o' i' r' hmem => ?_⟩
  · rcases List.mem_cons.mp hmem with heq | hmem
    · cases heq
    · exact h.answers_sem b d hmem
  · rcases List.mem_cons.mp hmem with heq | hmem
    · obtain ⟨rfl, rfl, rfl⟩ := QueryAnswer.dep.inj heq
      exact hr
    · exact h.answers_dep o' i' r' hmem

end Right

theorem ResolvedCell.cached_publish (r : Option (List ℕ)) : (publish r).cached = r := by
  cases r <;> rfl

theorem MemoState.Right.step (h : s.Right spans root) (hcounted : s.Counted)
    (hsound : s.ledger.Sound) (hstep : MemoStep spans root s s') : s'.Right spans root := by
  have hown : ∀ {k c b}, s.calls k = c → c.ownBuffer = some b →
      s.bufferOf (.worker k) = some b := by
    intro k c b hcall hbuf
    show (s.calls k).ownBuffer = some b
    rwa [hcall]
  have hright : ∀ {k c}, s.calls k = c →
      c.Right (computeSemanticTokensData spans) s.semMemo s.data := by
    intro k c hcall
    rw [← hcall]
    exact h.calls k
  cases hstep with
  | acquire k hpins hk =>
    exact ⟨h.memo, h.calls, h.cells, fun b d hmem =>
      ⟨(h.answers_sem b d hmem).1, fun _ => (h.answers_sem b d hmem).2 hpins⟩, h.answers_dep⟩
  | release k hk hcall hcount =>
    exact ⟨h.memo, h.calls, h.cells, fun b d hmem =>
      ⟨(h.answers_sem b d hmem).1, fun _ => (h.answers_sem b d hmem).2 (List.ne_nil_of_mem hk)⟩,
      h.answers_dep⟩
  | releaseLast k hk hcall hcount =>
    obtain ⟨hmemo, hcalls, hresolved, hanswers⟩ := s.freeMemo_eq
    have hone : s.pins.length = 1 := by rw [← hcounted.count, hcount]
    obtain ⟨k', hpins⟩ := List.length_eq_one_iff.mp hone
    rw [hpins, List.mem_singleton] at hk
    have hidle : ∀ j, s.calls j = .idle := by
      intro j
      by_contra hj
      have hmem := hcounted.busy j hj
      rw [hpins, List.mem_singleton, ← hk] at hmem
      exact hj (hmem ▸ hcall)
    have hnil : s.pins.erase k = [] := by
      rw [hpins, hk, List.erase_cons_head]
    constructor
    case memo =>
      intro b hb
      cases hmemo.symm.trans hb
    case calls =>
      intro j
      show (s.freeMemo.calls j).Right _ _ _
      rw [hcalls, hidle j]
      trivial
    case cells =>
      show ∀ o i, s.freeMemo.resolved o i = _ ∨ _
      rw [hresolved]
      exact h.cells
    case answers_sem =>
      intro b d hmem
      have hmem : QueryAnswer.sem b d ∈ s.answers := hanswers ▸ hmem
      exact ⟨(h.answers_sem b d hmem).1, fun hne => absurd hnil hne⟩
    case answers_dep =>
      intro o i r hmem
      have hmem : QueryAnswer.dep o i r ∈ s.answers := hanswers ▸ hmem
      exact h.answers_dep o i r hmem
  | semHit k hk hcall hmemo => exact h.setCall hmemo
  | semMiss k hk hcall hmemo => exact h.setCall trivial
  | semAlloc k hcall =>
    refine h.advance (k := k) (c := .semFresh s.next) (fun _ => id) (fun o b ho hb hdata => ?_)
      (fun _ => .inl) rfl rfl trivial rfl rfl
    have hlt := (hsound.created o b hb).1
    exact (Function.update_of_ne (Nat.ne_of_lt hlt) _ _).trans hdata
  | @semCompute b k hcall =>
    refine h.advance (k := k) (c := .semReady b) (fun _ => id) (fun o b' ho hb' hdata => ?_)
      (fun _ => .inl) rfl rfl (Function.update_self _ _ _) rfl rfl
    show Function.update s.data b _ b' = _
    by_cases hb : b' = b
    · rw [hb, Function.update_self]
    · rw [Function.update_of_ne hb, hdata]
  | @semPublish b k hcall hmemo =>
    refine h.advance (k := k) (c := .semHave b) (fun x hx => ?_) (fun _ _ _ _ => id)
      (fun b' hb' => ?_) rfl rfl rfl rfl rfl
    · rw [hmemo] at hx
      cases hx
    · obtain rfl := Option.some.inj hb'
      exact .inr (hright hcall)
  | semLose k hcall hmemo => exact h.setCall hmemo
  | @semFree b x k hcall =>
    refine h.advance (k := k) (c := .semHave x) (fun _ => id) (fun o b' ho hb' hdata => ?_)
      (fun _ => .inl) rfl rfl (hright hcall) rfl rfl
    have hne : b' ≠ b := by
      rintro rfl
      exact ho (hsound.owner_unique o (.worker k) b' hb' (hown hcall rfl))
    exact (Function.update_of_ne hne _ _).trans hdata
  | semReturn k hcall => exact h.answer_sem (hright hcall)
  | depHit k owner i hk hcall hcell =>
    refine h.answer_dep ?_
    rw [(h.cells owner i).resolve_left hcell, ResolvedCell.cached_publish]
  | depMiss k owner i hk hcall hcell => exact h.setCall trivial
  | @depStore owner i k hcall =>
    have hanswer := h.answer_dep (k := k) (r := projectDepResolve root owner i) rfl
    refine ⟨hanswer.memo, hanswer.calls, fun o j => ?_, hanswer.answers_sem, hanswer.answers_dep⟩
    show (if o = owner ∧ j = i then _ else s.resolved o j) = _ ∨
      (if o = owner ∧ j = i then _ else s.resolved o j) = _
    by_cases hsame : o = owner ∧ j = i
    · rw [if_pos hsame, hsame.1, hsame.2]
      exact .inr rfl
    · rw [if_neg hsame]
      exact h.cells o j

theorem MemoReached.right (h : MemoReached spans root s) : s.Right spans root := by
  induction h with
  | init =>
    constructor
    case memo => exact fun b hb => by cases hb
    case calls => exact fun k => trivial
    case cells => exact fun o i => .inl rfl
    case answers_sem => exact fun b d hmem => by cases hmem
    case answers_dep => exact fun o i r hmem => by cases hmem
  | step hreached hstep ih => exact ih.step hreached.counted hreached.sound hstep

/-! ### What is set stays -/

theorem MemoState.Counted.pins_ne_nil (h : s.Counted) (hstep : MemoStep spans root s s') :
    s.pins ≠ [] := by
  have hbusy : ∀ {k c}, s.calls k = c → c ≠ .idle → s.pins ≠ [] :=
    fun hcall hne => List.ne_nil_of_mem (h.busy _ (by rwa [hcall]))
  cases hstep with
  | acquire k hpins hk => exact hpins
  | release k hk hcall hcount => exact List.ne_nil_of_mem hk
  | releaseLast k hk hcall hcount => exact List.ne_nil_of_mem hk
  | semHit k hk hcall hmemo => exact List.ne_nil_of_mem hk
  | semMiss k hk hcall hmemo => exact List.ne_nil_of_mem hk
  | semAlloc k hcall => exact hbusy hcall (by simp)
  | semCompute k hcall => exact hbusy hcall (by simp)
  | semPublish k hcall hmemo => exact hbusy hcall (by simp)
  | semLose k hcall hmemo => exact hbusy hcall (by simp)
  | semFree k hcall => exact hbusy hcall (by simp)
  | semReturn k hcall => exact hbusy hcall (by simp)
  | depHit k owner i hk hcall hcell => exact List.ne_nil_of_mem hk
  | depMiss k owner i hk hcall hcell => exact List.ne_nil_of_mem hk
  | depStore k hcall => exact hbusy hcall (by simp)

/-- **A memo that is set** stays as long as there are references. -/
theorem MemoStep.memo_stays (hstep : MemoStep spans root s s') (h' : s'.Counted) {x : ℕ}
    (hmemo : s.semMemo = some x) (hpins : s'.pins ≠ []) : s'.semMemo = some x := by
  cases hstep with
  | releaseLast k hk hcall hcount =>
    have hzero : s.pins.erase k = [] := List.length_eq_zero_iff.mp h'.count.symm
    exact absurd hzero hpins
  | semPublish k hcall hnone =>
    rw [hnone] at hmemo
    cases hmemo
  | _ => exact hmemo

/-- **A cell that is set** keeps its value. -/
theorem MemoState.Right.cell_stays (h : s.Right spans root) (hstep : MemoStep spans root s s')
    {o : List ℕ} {i : ℕ} (hset : s.resolved o i ≠ .unresolved) :
    s'.resolved o i = s.resolved o i := by
  cases hstep with
  | releaseLast k hk hcall hcount => exact congrFun (congrFun s.freeMemo_eq.2.2.1 o) i
  | @depStore owner j k hcall =>
    show (if o = owner ∧ i = j then _ else s.resolved o i) = _
    by_cases hsame : o = owner ∧ i = j
    · rw [if_pos hsame, (h.cells o i).resolve_left hset, hsame.1, hsame.2]
    · rw [if_neg hsame]
  | _ => rfl

theorem MemoReached.stays (h : MemoReached spans root s)
    (hruns : Relation.ReflTransGen (MemoStep spans root) s s') :
    MemoReached spans root s' ∧
    (∀ x, s.semMemo = some x → s'.pins ≠ [] → s'.semMemo = some x) ∧
    ∀ o i, s.resolved o i ≠ .unresolved → s'.resolved o i = s.resolved o i := by
  induction hruns with
  | refl => exact ⟨h, fun x hx _ => hx, fun o i _ => rfl⟩
  | @tail t u _ hstep ih =>
    obtain ⟨hreached, hmemo, hcell⟩ := ih
    refine ⟨hreached.step hstep, fun x hx hpins => ?_, fun o i hset => ?_⟩
    · exact hstep.memo_stays (hreached.step hstep).counted
        (hmemo x hx (hreached.counted.pins_ne_nil hstep)) hpins
    · have hset' : t.resolved o i ≠ .unresolved := by rwa [hcell o i hset]
      rw [hreached.right.cell_stays hstep hset', hcell o i hset]

/-- **Results that are shared** do not depend on the order of the steps: every call returns what it
would have computed, each buffer is the memo, a call's own or freed once, what a call has returned
stays while the snapshot is pinned, and what is set does not change. -/
theorem memoised_results (h : MemoReached spans root s) :
    (∀ b d, .sem b d ∈ s.answers → d = some (computeSemanticTokensData spans)) ∧
    (∀ o i r, .dep o i r ∈ s.answers → r = projectDepResolve root o i) ∧
    (∀ b < s.next, ∃! place, s.ledger.At b place) ∧ s.freed.Nodup ∧
    (s.pins = [] → ∀ b < s.next, b ∈ s.freed) ∧
    (∀ b d, .sem b d ∈ s.answers → s.pins ≠ [] → s.semMemo = some b ∧ b ∉ s.freed ∧
      s.data b = some (computeSemanticTokensData spans)) ∧
    ∀ s', Relation.ReflTransGen (MemoStep spans root) s s' →
      (∀ x y, s.semMemo = some x → s'.semMemo = some y → x = y) ∧
      ∀ o i, s.resolved o i ≠ .unresolved → s'.resolved o i = s.resolved o i := by
  have hright := h.right
  have hsound := h.sound
  have hcounted := h.counted
  refine ⟨fun b d hmem => (hright.answers_sem b d hmem).1, hright.answers_dep,
    fun b => hsound.existsUnique, hsound.dropped_once, fun hnil b hb => ?_,
    fun b d hmem hpins => ?_, fun s' hruns => ?_⟩
  · rcases hsound.kept b hb with hfreed | ⟨o, ho⟩
    · exact hfreed
    · cases o with
      | memo => cases (hcounted.memo hnil).symm.trans ho
      | worker k =>
        have hbusy : s.calls k ≠ .idle := by
          intro hidle
          have hnone : (s.calls k).ownBuffer = some b := ho
          rw [hidle] at hnone
          cases hnone
        have hmem := hcounted.busy k hbusy
        rw [hnil] at hmem
        cases hmem
  · have hmemo := (hright.answers_sem b d hmem).2 hpins
    exact ⟨hmemo, (hsound.created .memo b hmemo).2, hright.memo b hmemo⟩
  · obtain ⟨hreached, hmemo, hcell⟩ := h.stays hruns
    refine ⟨fun x y hx hy => ?_, hcell⟩
    have hpins : s'.pins ≠ [] := by
      intro hnil
      cases (hreached.counted.memo hnil).symm.trans hy
    exact Option.some.inj ((hmemo x hx hpins).symm.trans hy)

/-- The comment of a document `#a`, `task a { depends b }`, `task b` on three lines. -/
def racedSpans : List TokenSpan := [⟨tkLineComment, ⟨0, 0⟩, ⟨0, 2⟩, some [35, 97]⟩]

/-- The project tree of that document. -/
def racedRoot : ProjectNode :=
  .mk ProjectNode.empty.info
    [.mk ⟨kwTask, some [97], none, ⟨⟨1, 0⟩, ⟨1, 20⟩⟩, ⟨⟨1, 5⟩, ⟨1, 6⟩⟩, none,
      [⟨.depends, 0, some [98], ⟨⟨1, 17⟩, ⟨1, 18⟩⟩⟩]⟩ [],
    .mk ⟨kwTask, some [98], none, ⟨⟨2, 0⟩, ⟨2, 6⟩⟩, ⟨⟨2, 5⟩, ⟨2, 6⟩⟩, none, []⟩ []]

/-- Two workers compute the data, one of them loses the race, and both return the same buffer.
Then both find the cell of the dependency unset, both store to it, and the next call reads it. -/
theorem memoised_results_race : ∃ s : MemoState, MemoReached racedSpans racedRoot s ∧
    s.freed = [1] ∧ s.semMemo = some 0 ∧ .sem 0 (some [0, 0, 2, 1, 0]) ∈ s.answers ∧
    s.resolved [0] 0 = .node [1] ∧ .dep [0] 0 (some [1]) ∈ s.answers := by
  have hcomputed : MemoReached racedSpans racedRoot _ :=
    MemoReached.init.step (.acquire 1 (by decide) (by decide))
      |>.step (.semMiss 0 (by decide) rfl rfl)
      |>.step (.semMiss 1 (by decide) rfl rfl)
      |>.step (.semAlloc 0 rfl)
      |>.step (.semAlloc 1 rfl)
      |>.step (.semCompute 0 rfl)
      |>.step (.semCompute 1 rfl)
  have hreturned := hcomputed.step (.semPublish 0 rfl rfl)
    |>.step (.semLose 1 rfl rfl)
    |>.step (.semFree 1 rfl)
    |>.step (.semReturn 0 rfl)
    |>.step (.semReturn 1 rfl)
  have hread := hreturned.step (.depMiss 0 [0] 0 (by decide) rfl rfl)
    |>.step (.depMiss 1 [0] 0 (by decide) rfl rfl)
    |>.step (.depStore 0 rfl)
    |>.step (.depStore 1 rfl)
    |>.step (.depHit 0 [0] 0 (by decide) rfl (by decide))
  have hdata : computeSemanticTokensData racedSpans = [0, 0, 2, 1, 0] := by decide
  have hnode : projectDepResolve racedRoot [0] 0 = some [1] := by decide
  have hsem := (memoised_results hreturned).1 0 _ List.mem_cons_self
  have hdep := (memoised_results hread).2.1 [0] 0 _ List.mem_cons_self
  rw [hdata] at hsem
  rw [hnode] at hdep
  exact ⟨_, hread, rfl, rfl, hsem ▸ .tail _ (.tail _ (.tail _ (.head _))), by decide,
    hdep ▸ .head _⟩

end TaskjugglerLsp
