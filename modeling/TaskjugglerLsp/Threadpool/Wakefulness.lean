import TaskjugglerLsp.Server.Flow
import TaskjugglerLsp.Threadpool.Conservation

/-!
# No thread sleeps on

The coordinator sleeps on the work queue only while it is empty, and when some worker sleeps on the
request queue then there are no more jobs in it than workers that are awake: every signal that was
due has been given.  A thread that has left its loop has left an empty queue behind that is closed.

* `Sane`: where the jobs of a state are, and that.
* `jobs_conserved`: no run loses a job, or dispatches one twice.
* `jobs_dispatched`: threads that are left to themselves come to rest, and have dispatched every job.
* `threads_exit`: when the pool has been stopped, they have all exited then.
-/

namespace TaskjugglerLsp

open Lib Lib.LinkedQueue

/-! ### The coordinator -/

/-- The coordinator sleeps, or has left its loop, only while there is no job for it. -/
structure Attentive (stopped : Bool) (t : ThreadPhase) (ws : List ℕ) : Prop where
  sleeping : t = .waiting → ws = [] ∧ stopped = false
  gone : t = .leaving ∨ t = .exited → ws = [] ∧ stopped = true

section Coordinator

variable {stopped : Bool} {t : ThreadPhase} {ws : List ℕ}

theorem attentive_ready : Attentive stopped .ready ws := by
  constructor
  · intro h
    cases h
  · intro h
    rcases h with h | h <;> cases h

theorem attentive_holding (a : ℕ) : Attentive stopped (.holding a) ws := by
  constructor
  · intro h
    cases h
  · intro h
    rcases h with h | h <;> cases h

theorem Attentive.wake (h : Attentive false t ws) (stopped' : Bool) (ws' : List ℕ) :
    Attentive stopped' t.wake ws' := by
  cases t with
  | ready => exact attentive_ready
  | waiting => exact attentive_ready
  | holding a => exact attentive_holding a
  | leaving => cases (h.gone (.inl rfl)).2
  | exited => cases (h.gone (.inr rfl)).2

theorem attentive_popped (stopped : Bool) :
    Attentive stopped (if stopped then .leaving else .waiting) [] := by
  cases stopped with
  | false => exact ⟨fun _ => ⟨rfl, rfl⟩, fun h => by rcases h with h | h <;> cases h⟩
  | true => exact ⟨(by intro h; cases h), fun _ => ⟨rfl, rfl⟩⟩

end Coordinator

/-! ### The workers -/

/-- Workers sleep only while there are enough others for the jobs in the request queue, and leave
only when it is closed and empty. -/
structure Staffed (closed : Bool) (workers : List ThreadPhase) (rs : List ℕ) : Prop where
  sleeping : .waiting ∈ workers →
    closed = false ∧ rs.length ≤ workers.countP ThreadPhase.isAwake
  gone : ∀ t ∈ workers, t = .leaving ∨ t = .exited → closed = true ∧ rs = []

section Workers

variable {closed : Bool} {workers workers' before after : List ThreadPhase} {t t' : ThreadPhase}
  {rs rs' : List ℕ}

theorem countP_isAwake_set : (before ++ t :: after).countP ThreadPhase.isAwake
    = (before ++ after).countP ThreadPhase.isAwake + if t.isAwake then 1 else 0 := by
  rw [List.countP_append, List.countP_cons, List.countP_append]
  omega

theorem length_phases_set : (before ++ t' :: after).length = (before ++ t :: after).length := by
  rw [List.length_append, List.length_append, List.length_cons, List.length_cons]

theorem mem_set_iff {s : ThreadPhase} :
    s ∈ before ++ t :: after ↔ s = t ∨ s ∈ before ++ after := by
  rw [List.mem_append, List.mem_cons, List.mem_append]
  tauto

theorem Staffed.set (h : Staffed closed (before ++ t :: after) rs) (hlen : rs'.length ≤ rs.length)
    (hawake : t'.isAwake = true ∨ t.isAwake = false ∨ rs' = [])
    (hsleeping : t' = .waiting → closed = false ∧ rs' = [])
    (hgone : t' = .leaving ∨ t' = .exited → closed = true ∧ rs' = []) :
    Staffed closed (before ++ t' :: after) rs' := by
  constructor
  · intro hmem
    rcases mem_set_iff.mp hmem with heq | hrest
    · obtain ⟨hclosed, hnil⟩ := hsleeping heq.symm
      rw [hnil]
      exact ⟨hclosed, Nat.zero_le _⟩
    · obtain ⟨hclosed, hle⟩ := h.sleeping (mem_set_iff.mpr (.inr hrest))
      refine ⟨hclosed, ?_⟩
      rw [countP_isAwake_set] at hle ⊢
      rcases hawake with ht' | ht | hnil
      · rw [if_pos ht']
        split_ifs at hle <;> omega
      · rw [ht] at hle
        simp only [Bool.false_eq_true, if_false] at hle
        omega
      · rw [hnil]
        exact Nat.zero_le _
  · intro s hs hgone'
    rcases mem_set_iff.mp hs with rfl | hrest
    · exact hgone hgone'
    · obtain ⟨hclosed, hnil⟩ := h.gone s (mem_set_iff.mpr (.inr hrest)) hgone'
      rw [hnil, List.length_nil] at hlen
      exact ⟨hclosed, List.eq_nil_of_length_eq_zero (Nat.le_zero.mp hlen)⟩

theorem Staffed.go (h : Staffed closed (before ++ t :: after) rs) (hlen : rs'.length ≤ rs.length)
    (ht' : t'.isAwake = true) : Staffed closed (before ++ t' :: after) rs' := by
  refine h.set hlen (.inl ht') ?_ ?_
  · intro heq
    rw [heq] at ht'
    cases ht'
  · intro heq
    rcases heq with heq | heq <;> (rw [heq] at ht'; cases ht')

theorem Staffed.popped (h : Staffed closed (before ++ t :: after) []) :
    Staffed closed (before ++ (if closed then .leaving else .waiting) :: after) [] := by
  refine h.set (Nat.le_refl _) (.inr (.inr rfl)) ?_ ?_
  · cases closed with
    | false => exact fun _ => ⟨rfl, rfl⟩
    | true => exact fun heq => by cases heq
  · cases closed with
    | false => exact fun heq => by rcases heq with heq | heq <;> cases heq
    | true => exact fun _ => ⟨rfl, rfl⟩

/-- **A signal for each job**: one more job, and one of the sleeping workers, if there is one, is
woken. -/
theorem Staffed.signals (h : Staffed false workers rs) (hsignals : Signals workers workers')
    (a : ℕ) : Staffed false workers' (rs ++ [a]) := by
  cases hsignals with
  | @one before after =>
    constructor
    · intro _
      obtain ⟨-, hle⟩ := h.sleeping (mem_set_iff.mpr (.inl rfl))
      refine ⟨rfl, ?_⟩
      rw [countP_isAwake_set, if_neg (by decide)] at hle
      rw [countP_isAwake_set, if_pos (by decide), List.length_append, List.length_singleton]
      omega
    · intro t ht hgone
      rcases mem_set_iff.mp ht with rfl | hrest
      · rcases hgone with hgone | hgone <;> cases hgone
      · cases (h.gone t (mem_set_iff.mpr (.inr hrest)) hgone).1
  | none hnot =>
    constructor
    · intro hmem
      exact absurd hmem hnot
    · intro t ht hgone
      cases (h.gone t ht hgone).1

theorem Staffed.wakeAll (h : Staffed false workers rs) :
    Staffed true (workers.map ThreadPhase.wake) rs := by
  constructor
  · intro hmem
    obtain ⟨t, -, ht⟩ := List.mem_map.mp hmem
    cases t <;> cases ht
  · intro s hs hgone
    obtain ⟨t, ht, rfl⟩ := List.mem_map.mp hs
    have hphase : t = .leaving ∨ t = .exited := by
      cases t with
      | leaving => exact .inl rfl
      | exited => exact .inr rfl
      | ready | waiting | holding a => rcases hgone with hgone | hgone <;> cases hgone
    cases (h.gone t ht hphase).1

end Workers

/-! ### How long it can go on -/

namespace ThreadPhase

/-- How many steps the coordinator can still take, with so many workers to wake in the end. -/
def coordinatorCost (workers : ℕ) : ThreadPhase → ℕ
  | holding _ => workers + 7
  | ready => workers + 3
  | waiting => workers + 2
  | leaving => workers + 1
  | exited => 0

/-- How many steps a worker can still take. -/
def workerCost : ThreadPhase → ℕ
  | holding _ => 4
  | ready => 3
  | waiting => 2
  | leaving => 1
  | exited => 0

end ThreadPhase

section Costs

variable {workers workers' before after : List ThreadPhase} {t : ThreadPhase}

theorem sum_workerCost_set : ((before ++ t :: after).map ThreadPhase.workerCost).sum
    = ((before ++ after).map ThreadPhase.workerCost).sum + t.workerCost := by
  rw [List.map_append, List.map_cons, List.sum_append, List.sum_cons, List.map_append,
    List.sum_append]
  omega

theorem Signals.length_eq (h : Signals workers workers') : workers'.length = workers.length := by
  cases h with
  | one => rw [List.length_append, List.length_append, List.length_cons, List.length_cons]
  | none => rfl

theorem Signals.cost_le (h : Signals workers workers') :
    (workers'.map ThreadPhase.workerCost).sum
      ≤ (workers.map ThreadPhase.workerCost).sum + 1 := by
  cases h with
  | one =>
    rw [sum_workerCost_set, sum_workerCost_set]
    exact Nat.le_refl _
  | none => exact Nat.le_succ _

theorem wakeAll_cost_le (workers : List ThreadPhase) :
    ((workers.map ThreadPhase.wake).map ThreadPhase.workerCost).sum
      ≤ (workers.map ThreadPhase.workerCost).sum + workers.length := by
  induction workers with
  | nil => exact Nat.le_refl 0
  | cons t workers ih =>
    have ht : t.wake.workerCost ≤ t.workerCost + 1 := by
      cases t <;> simp [ThreadPhase.wake, ThreadPhase.workerCost]
    simp only [List.map_cons, List.sum_cons, List.length_cons]
    omega

end Costs

/-! ### The pool -/

namespace Threadpool

/-- **What holds of every state**: the jobs are somewhere, and the threads are awake that will deal
with them. -/
structure Sane (p : Threadpool) (ws rs : List ℕ) : Prop extends p.Laid ws rs where
  stops : p.workQueue.closed = p.stopped
  ends : p.requestQueue.closed = true ↔ p.coordinator = .exited
  attentive : Attentive p.stopped p.coordinator ws
  staffed : Staffed p.requestQueue.closed p.workers rs

variable {p p' : Threadpool} {ws rs : List ℕ} {a n : ℕ}

theorem sane_start (workers : ℕ) : (start workers).Sane [] [] := by
  have hready : ∀ t ∈ (start workers).workers, t = ThreadPhase.ready :=
    fun t ht => List.eq_of_mem_replicate ht
  refine ⟨laid_start workers, rfl, ?_, attentive_ready, ?_, ?_⟩
  · exact iff_of_false Bool.false_ne_true (fun h => by cases h)
  · intro hmem
    cases hready _ hmem
  · intro t ht hgone
    rw [hready t ht] at hgone
    rcases hgone with hgone | hgone <;> cases hgone

/-- While the coordinator runs, the request queue is open. -/
theorem Sane.isOpen (h : p.Sane ws rs) (hrunning : p.coordinator ≠ .exited) :
    p.requestQueue.closed = false :=
  Bool.eq_false_iff.mpr fun hclosed => hrunning (h.ends.mp hclosed)

theorem ends_of_ne {q : JobQueue} {t : ThreadPhase} (hopen : q.closed = false)
    (ht : t ≠ .exited) : q.closed = true ↔ t = .exited := by
  rw [hopen]
  exact iff_of_false Bool.false_ne_true ht

/-- How many steps the threads can still take on their own. -/
def cost (p : Threadpool) (ws rs : List ℕ) : ℕ :=
  5 * ws.length + p.coordinator.coordinatorCost p.workers.length + 2 * rs.length
    + (p.workers.map ThreadPhase.workerCost).sum

theorem cost_coordinator {ws' rs' : List ℕ} {t t' : ThreadPhase} (ht : p.coordinator = t)
    (ht' : p'.coordinator = t') (hworkers : p'.workers = p.workers)
    (hlt : 5 * ws'.length + t'.coordinatorCost p.workers.length + 2 * rs'.length
      < 5 * ws.length + t.coordinatorCost p.workers.length + 2 * rs.length) :
    p'.cost ws' rs' < p.cost ws rs := by
  unfold cost
  rw [ht, ht', hworkers]
  omega

theorem cost_worker {rs' : List ℕ} {before after : List ThreadPhase} {t t' : ThreadPhase}
    (ht : p.workers = before ++ t :: after) (ht' : p'.workers = before ++ t' :: after)
    (hcoordinator : p'.coordinator = p.coordinator)
    (hlt : 2 * rs'.length + t'.workerCost < 2 * rs.length + t.workerCost) :
    p'.cost ws rs' < p.cost ws rs := by
  have hlen : (before ++ t' :: after).length = (before ++ t :: after).length := length_phases_set
  unfold cost
  rw [ht, ht', hcoordinator, sum_workerCost_set, sum_workerCost_set, hlen]
  omega

/-- **A step of a thread** keeps it, and there are fewer steps left. -/
theorem Sane.acts (h : p.Sane ws rs) (hacts : Acts p p') :
    ∃ ws' rs', p'.Sane ws' rs' ∧ p'.cost ws' rs' < p.cost ws rs := by
  cases hacts with
  | popWork hready =>
    have hopen := h.isOpen (by rw [hready]; decide)
    cases ws with
    | nil =>
      obtain ⟨hlaid, hstate⟩ := h.toLaid.popWork_nil hready
      rw [h.stops] at hstate
      refine ⟨[], rs, ⟨hlaid, ?_, ?_, ?_, ?_⟩, ?_⟩ <;> rw [hstate]
      · exact h.stops
      · refine ends_of_ne hopen ?_
        show (if p.stopped then ThreadPhase.leaving else .waiting) ≠ .exited
        split_ifs <;> decide
      · exact attentive_popped p.stopped
      · exact h.staffed
      · refine cost_coordinator hready rfl rfl ?_
        show 5 * 0 + (if p.stopped then ThreadPhase.leaving else .waiting).coordinatorCost _ + _ < _
        cases p.stopped <;> simp [ThreadPhase.coordinatorCost]
    | cons a ws =>
      obtain ⟨hlaid, hholding, hclosed⟩ := h.toLaid.popWork_cons hready
      refine ⟨ws, rs, ⟨hlaid, hclosed.trans h.stops, ?_, ?_, h.staffed⟩, ?_⟩
      · rw [hholding]
        exact ends_of_ne hopen (fun heq => by cases heq)
      · rw [hholding]
        exact attentive_holding a
      · refine cost_coordinator hready hholding rfl ?_
        simp only [ThreadPhase.coordinatorCost, List.length_cons]
        omega
  | @coordinate a n d hholding =>
    have hopen := h.isOpen (by rw [hholding]; exact fun heq => by cases heq)
    refine ⟨ws, rs, ⟨h.toLaid.coordinate hholding d, h.stops,
      ends_of_ne hopen (fun heq => by cases heq), attentive_ready, h.staffed⟩, ?_⟩
    refine cost_coordinator hholding rfl rfl ?_
    simp only [ThreadPhase.coordinatorCost]
    omega
  | @handOn a n workers hholding _ _ hsignals =>
    have hopen := h.isOpen (by rw [hholding]; exact fun heq => by cases heq)
    refine ⟨ws, rs ++ [a],
      ⟨h.toLaid.handOn hholding hsignals, h.stops, ?_, attentive_ready, ?_⟩, ?_⟩
    · exact ends_of_ne hopen (fun heq => by cases heq)
    · have hstaffed := h.staffed
      rw [hopen] at hstaffed
      show Staffed p.requestQueue.closed workers (rs ++ [a])
      rw [hopen]
      exact hstaffed.signals hsignals a
    · have hcost := hsignals.cost_le
      unfold cost
      rw [hholding, List.length_append, List.length_singleton]
      show _ + (workers.length + 3) + _ + (workers.map _).sum < _ + (p.workers.length + 7) + _ + _
      rw [hsignals.length_eq]
      omega
  | closeRequests hleaving =>
    have hopen := h.isOpen (by rw [hleaving]; decide)
    obtain ⟨hnil, hstopped⟩ := h.attentive.gone (.inl hleaving)
    refine ⟨ws, rs, ⟨h.toLaid.closeRequests hleaving, h.stops, iff_of_true rfl rfl, ?_, ?_⟩, ?_⟩
    · constructor
      · intro heq
        cases heq
      · intro _
        exact ⟨hnil, hstopped⟩
    · have hstaffed := h.staffed
      rw [hopen] at hstaffed
      exact hstaffed.wakeAll
    · have hcost := wakeAll_cost_le p.workers
      unfold cost
      rw [hleaving]
      show _ + 0 + _ + ((p.workers.map ThreadPhase.wake).map _).sum
        < _ + (p.workers.length + 1) + _ + _
      omega
  | @popRequest before after hworkers =>
    have hstaffed := h.staffed
    rw [hworkers] at hstaffed
    cases rs with
    | nil =>
      obtain ⟨hlaid, hstate⟩ := h.toLaid.popRequest_nil hworkers
      refine ⟨ws, [], ⟨hlaid, ?_, ?_, ?_, ?_⟩, ?_⟩ <;> rw [hstate]
      · exact h.stops
      · exact h.ends
      · exact h.attentive
      · exact hstaffed.popped
      · refine cost_worker hworkers rfl rfl ?_
        cases p.requestQueue.closed <;> decide
    | cons a rs =>
      obtain ⟨rest, hstate, hclosed, hlaid⟩ := h.toLaid.popRequest_cons hworkers
      refine ⟨ws, rs, ⟨hlaid, ?_, ?_, ?_, ?_⟩, ?_⟩ <;> rw [hstate]
      · exact h.stops
      · show rest.closed = true ↔ _
        rw [hclosed]
        exact h.ends
      · exact h.attentive
      · show Staffed rest.closed _ rs
        rw [hclosed]
        exact hstaffed.go (Nat.le_succ _) rfl
      · refine cost_worker hworkers rfl rfl ?_
        simp only [ThreadPhase.workerCost, List.length_cons]
        omega
  | @work a n before after hworkers =>
    have hstaffed := h.staffed
    rw [hworkers] at hstaffed
    refine ⟨ws, rs, ⟨h.toLaid.dispatch hworkers _, h.stops, h.ends, h.attentive,
      hstaffed.go (Nat.le_refl _) rfl⟩, ?_⟩
    exact cost_worker hworkers rfl rfl (Nat.lt_succ_self _)
  | @exit before after hworkers =>
    have hstaffed := h.staffed
    rw [hworkers] at hstaffed
    have hgone := hstaffed.gone .leaving (mem_set_iff.mpr (.inl rfl)) (.inl rfl)
    refine ⟨ws, rs, ⟨h.toLaid.worker hworkers rfl, h.stops, h.ends, h.attentive, ?_⟩, ?_⟩
    · exact hstaffed.set (Nat.le_refl _) (.inr (.inl rfl)) (fun heq => by cases heq) fun _ => hgone
    · exact cost_worker hworkers rfl rfl (Nat.lt_succ_self _)

theorem Sane.wakes (h : p.Sane ws rs) (hwakes : Wakes p p') :
    p'.Sane ws rs ∧ p'.cost ws rs = p.cost ws rs + 1 := by
  cases hwakes with
  | coordinator hwaiting =>
    have hopen := h.isOpen (by rw [hwaiting]; decide)
    refine ⟨⟨h.toLaid.threads (by rw [hwaiting]; rfl) (.refl _), h.stops,
      ends_of_ne hopen (fun heq => by cases heq), attentive_ready, h.staffed⟩, ?_⟩
    unfold cost
    rw [hwaiting]
    simp only [ThreadPhase.coordinatorCost]
    omega
  | @worker before after hworkers =>
    have hstaffed := h.staffed
    rw [hworkers] at hstaffed
    refine ⟨⟨h.toLaid.worker hworkers rfl, h.stops, h.ends, h.attentive,
      hstaffed.go (Nat.le_refl _) rfl⟩, ?_⟩
    unfold cost
    rw [hworkers, sum_workerCost_set, sum_workerCost_set]
    simp only [ThreadPhase.workerCost, List.length_append, List.length_cons]
    omega

theorem wake_exited {t : ThreadPhase} : t.wake = .exited ↔ t = .exited := by
  cases t <;> simp [ThreadPhase.wake]

/-- **Every step** keeps it. -/
theorem Sane.step (h : p.Sane ws rs) (hstep : Step p p') : ∃ ws' rs', p'.Sane ws' rs' := by
  cases hstep with
  | acts hacts =>
    obtain ⟨ws', rs', hsane, -⟩ := h.acts hacts
    exact ⟨ws', rs', hsane⟩
  | wakes hwakes => exact ⟨ws, rs, (h.wakes hwakes).1⟩
  | @enqueue a request hrunning _ _ hfree =>
    have hattentive := h.attentive
    rw [hrunning] at hattentive
    refine ⟨ws ++ [a], rs, h.toLaid.enqueue hfree request, h.stops, ?_, ?_, h.staffed⟩
    · exact h.ends.trans wake_exited.symm
    · exact hattentive.wake p.stopped _
  | @cancel request id =>
    refine ⟨ws, rs, ?_, h.stops, h.ends, h.attentive, h.staffed⟩
    exact h.toLaid.mark h.work.chain h.work.nodup h.toLaid.length_work id (some id) (Nat.le_succ _)
  | mark =>
    refine ⟨ws, rs, ?_, h.stops, h.ends, h.attentive, h.staffed⟩
    exact h.toLaid.mark h.request.chain h.request.nodup h.toLaid.length_request _ none (Nat.le_refl _)
  | pass => exact ⟨ws, rs, h.toLaid.pass, h.stops, h.ends, h.attentive, h.staffed⟩
  | stop hrunning =>
    have hattentive := h.attentive
    rw [hrunning] at hattentive
    refine ⟨ws, rs, h.toLaid.stop, rfl, ?_, ?_, h.staffed⟩
    · exact h.ends.trans wake_exited.symm
    · exact hattentive.wake true ws

/-- **Every run** keeps it. -/
theorem Reached.sane {workers : ℕ} (h : Reached workers p) : ∃ ws rs, p.Sane ws rs := by
  induction h with
  | refl => exact ⟨[], [], sane_start workers⟩
  | tail _ hstep ih =>
    obtain ⟨ws, rs, hsane⟩ := ih
    exact hsane.step hstep

/-- **No job is lost**: in every state that a pool can get into, each job that has arrived is in one
of the queues or held by one of the threads, or it has been dispatched once and is freed. -/
theorem jobs_conserved {workers : ℕ} (h : Reached workers p) : ∃ ws rs, p.Laid ws rs := by
  obtain ⟨ws, rs, hsane⟩ := h.sane
  exact ⟨ws, rs, hsane.toLaid⟩

/-- A pool that a request has been sent to. -/
def hovering : Threadpool :=
  (start numQueryWorkers).enqueueJob 0 (Server.hoverRequest 1 "file:///a.tjp")

theorem reached_hovering : Reached numQueryWorkers hovering :=
  .single (.enqueue rfl rfl (by decide) rfl)

theorem jobs_conserved_hovering : hovering.enqueued = [0] ∧ ∃ ws rs, hovering.Laid ws rs :=
  ⟨rfl, jobs_conserved reached_hovering⟩

/-! ### Threads that are left to themselves -/

theorem Acts.length_workers (h : Acts p p') : p'.workers.length = p.workers.length := by
  cases h with
  | popWork => rfl
  | coordinate => rfl
  | handOn _ _ _ hsignals => exact hsignals.length_eq
  | closeRequests => exact List.length_map _
  | popRequest hworkers | work hworkers | exit hworkers =>
    rw [hworkers]
    exact length_phases_set

theorem Step.length_workers (h : Step p p') : p'.workers.length = p.workers.length := by
  cases h with
  | acts hacts => exact hacts.length_workers
  | wakes hwakes =>
    cases hwakes with
    | coordinator => rfl
    | worker hworkers =>
      rw [hworkers]
      exact length_phases_set
  | enqueue | cancel | mark | pass | stop => rfl

theorem Reached.length_workers {workers : ℕ} (h : Reached workers p) :
    p.workers.length = workers := by
  induction h with
  | refl => exact List.length_replicate
  | tail _ hstep ih => rw [hstep.length_workers, ih]

theorem Runs.reached {workers n k : ℕ} (hruns : Runs n k p p') (h : Reached workers p) :
    Reached workers p' := by
  induction hruns with
  | refl => exact h
  | acts _ hacts ih => exact (ih h).tail (.acts hacts)
  | wakes _ hwakes ih => exact (ih h).tail (.wakes hwakes)

/-- Each step of a thread is paid for. -/
theorem Runs.sane {n k : ℕ} (hruns : Runs n k p p') (h : p.Sane ws rs) :
    ∃ ws' rs', p'.Sane ws' rs' ∧ p'.cost ws' rs' + n ≤ p.cost ws rs + k := by
  induction hruns with
  | refl => exact ⟨ws, rs, h, Nat.le_refl _⟩
  | acts _ hacts ih =>
    obtain ⟨ws', rs', hsane, hle⟩ := ih h
    obtain ⟨ws'', rs'', hsane', hlt⟩ := hsane.acts hacts
    exact ⟨ws'', rs'', hsane', by omega⟩
  | wakes _ hwakes ih =>
    obtain ⟨ws', rs', hsane, hle⟩ := ih h
    obtain ⟨hsane', heq⟩ := hsane.wakes hwakes
    exact ⟨ws', rs', hsane', by omega⟩

theorem workerCost_le (t : ThreadPhase) : t.workerCost ≤ 5 * t.held.length + 3 := by
  cases t <;> simp [ThreadPhase.workerCost, ThreadPhase.held]

theorem coordinatorCost_le (t : ThreadPhase) (workers : ℕ) :
    t.coordinatorCost workers ≤ 5 * t.held.length + workers + 3 := by
  cases t <;> simp [ThreadPhase.coordinatorCost, ThreadPhase.held]
  omega

theorem sum_workerCost_le (workers : List ThreadPhase) :
    (workers.map ThreadPhase.workerCost).sum
      ≤ 5 * (workers.flatMap ThreadPhase.held).length + 3 * workers.length := by
  induction workers with
  | nil => exact Nat.le_refl 0
  | cons t workers ih =>
    have ht := workerCost_le t
    simp only [List.map_cons, List.sum_cons, List.flatMap_cons, List.length_append,
      List.length_cons]
    omega

/-- Five steps for every job that is there, and a few for the threads. -/
theorem Laid.cost_le (h : p.Laid ws rs) :
    p.cost ws rs + 5 * p.dispatched.length
      ≤ 5 * p.enqueued.length + 4 * p.workers.length + 3 := by
  have hlive := h.account.length_eq
  rw [List.length_append, List.length_map, List.length_map, places, List.length_append,
    List.length_append, List.length_append] at hlive
  have hcoordinator := coordinatorCost_le p.coordinator p.workers.length
  have hworkers := sum_workerCost_le p.workers
  unfold cost
  omega

theorem exists_signals (workers : List ThreadPhase) : ∃ workers', Signals workers workers' := by
  by_cases h : ThreadPhase.waiting ∈ workers
  · obtain ⟨before, after, rfl⟩ := List.append_of_mem h
    exact ⟨_, .one⟩
  · exact ⟨workers, .none h⟩

theorem Laid.exists_node (h : p.Laid ws rs) (ha : a ∈ p.places ws rs) : ∃ n, p.memory a = some n :=
  Option.isSome_iff_exists.mp ((h.live a).mpr ha)

theorem Sane.coordinator_rests (h : p.Sane ws rs) (hrest : ∀ p', ¬ Acts p p') :
    p.coordinator = .waiting ∨ p.coordinator = .exited := by
  cases hphase : p.coordinator with
  | ready => exact absurd (.popWork hphase) (hrest _)
  | waiting => exact .inl rfl
  | holding a =>
    obtain ⟨n, hn⟩ := h.toLaid.exists_node (a := a) (by
      rw [places, hphase]
      simp [ThreadPhase.held])
    cases hdispatch : coordinates n.value with
    | some d => exact absurd (.coordinate hphase hn hdispatch) (hrest _)
    | none =>
      obtain ⟨workers, hsignals⟩ := exists_signals p.workers
      exact absurd (.handOn hphase hn hdispatch hsignals) (hrest _)
  | leaving => exact absurd (.closeRequests hphase) (hrest _)
  | exited => exact .inr rfl

theorem Sane.worker_rests (h : p.Sane ws rs) (hrest : ∀ p', ¬ Acts p p') {t : ThreadPhase}
    (ht : t ∈ p.workers) : t = .waiting ∨ t = .exited := by
  obtain ⟨before, after, hworkers⟩ := List.append_of_mem ht
  cases t with
  | ready => exact absurd (.popRequest hworkers) (hrest _)
  | waiting => exact .inl rfl
  | holding a =>
    obtain ⟨n, hn⟩ := h.toLaid.exists_node (a := a) (by
      rw [places, hworkers]
      simp [ThreadPhase.held])
    exact absurd (.work hworkers hn) (hrest _)
  | leaving => exact absurd (.exit hworkers) (hrest _)
  | exited => exact .inr rfl

theorem Sane.places_rest (h : p.Sane ws rs) (hrest : ∀ p', ¬ Acts p p') (hpos : p.workers ≠ []) :
    p.places ws rs = [] := by
  have hworkers : ∀ t ∈ p.workers, t = .waiting ∨ t = .exited := fun t => h.worker_rests hrest
  have hasleep : p.workers.countP ThreadPhase.isAwake = 0 := by
    rw [List.countP_eq_zero]
    intro t ht
    rcases hworkers t ht with rfl | rfl <;> decide
  have hheld : p.workers.flatMap ThreadPhase.held = [] := by
    rw [List.flatMap_eq_nil_iff]
    intro t ht
    rcases hworkers t ht with rfl | rfl <;> rfl
  have hrs : rs = [] := by
    obtain ⟨t, ht⟩ := List.exists_mem_of_ne_nil _ hpos
    rcases hworkers t ht with rfl | rfl
    · obtain ⟨-, hle⟩ := h.staffed.sleeping ht
      rw [hasleep] at hle
      exact List.eq_nil_of_length_eq_zero (Nat.le_zero.mp hle)
    · exact (h.staffed.gone _ ht (.inr rfl)).2
  rcases h.coordinator_rests hrest with hphase | hphase
  · rw [places, (h.attentive.sleeping hphase).1, hphase, hrs, hheld]
    rfl
  · rw [places, (h.attentive.gone (.inr hphase)).1, hphase, hrs, hheld]
    rfl

/-- **Every job is dispatched.**  Threads that are left to themselves take five steps for every job
that is there, and a few more; where none of them can take another step, every job that has arrived
has been dispatched once and nothing is left of it. -/
theorem jobs_dispatched {workers n k : ℕ} (h : Reached workers p) (hworkers : 0 < workers)
    (hruns : Runs n k p p') :
    n + 5 * p.dispatched.length ≤ 5 * p.enqueued.length + 4 * workers + 3 + k ∧
      ((∀ p'', ¬ Acts p' p'') →
        (p'.dispatched.map Prod.fst).Perm p'.enqueued ∧ ∀ a, p'.memory a = none) := by
  obtain ⟨ws, rs, hsane⟩ := h.sane
  obtain ⟨ws', rs', hsane', hle⟩ := hruns.sane hsane
  constructor
  · have hcost := hsane.toLaid.cost_le
    rw [h.length_workers] at hcost
    omega
  · intro hrest
    have hpos : p'.workers ≠ [] := by
      rw [← List.length_pos_iff, (hruns.reached h).length_workers]
      exact hworkers
    have hplaces := hsane'.places_rest hrest hpos
    constructor
    · have haccount := hsane'.account
      rwa [hplaces] at haccount
    · intro a
      rw [← Option.not_isSome_iff_eq_none, hsane'.live, hplaces]
      exact List.not_mem_nil

theorem jobs_dispatched_hovering : ∃ p', Runs 1 0 hovering p' ∧
    1 + 5 * 0 ≤ 5 * 1 + 4 * numQueryWorkers + 3 + 0 ∧
      ((∀ p'', ¬ Acts p' p'') →
        (p'.dispatched.map Prod.fst).Perm p'.enqueued ∧ ∀ a, p'.memory a = none) := by
  have hruns : Runs 1 0 hovering hovering.popWork := .acts (.refl _) (.popWork rfl)
  exact ⟨_, hruns, jobs_dispatched reached_hovering (by decide) hruns⟩

/-- **The joins return.**  Where the pool has been stopped and no thread can take another step, all
of them have exited. -/
theorem threads_exit {workers : ℕ} (h : Reached workers p) (hstopped : p.stopped = true)
    (hrest : ∀ p', ¬ Acts p p') :
    p.coordinator = .exited ∧ ∀ t ∈ p.workers, t = .exited := by
  obtain ⟨ws, rs, hsane⟩ := h.sane
  have hexited : p.coordinator = .exited := by
    refine (hsane.coordinator_rests hrest).resolve_left ?_
    intro hwaiting
    obtain ⟨-, hrunning⟩ := hsane.attentive.sleeping hwaiting
    rw [hstopped] at hrunning
    cases hrunning
  refine ⟨hexited, ?_⟩
  intro t ht
  refine (hsane.worker_rests hrest ht).resolve_left ?_
  rintro rfl
  obtain ⟨hopen, -⟩ := hsane.staffed.sleeping ht
  rw [hsane.ends.mpr hexited] at hopen
  cases hopen

theorem not_acts_of_exited (hcoordinator : p.coordinator = .exited)
    (hworkers : ∀ t ∈ p.workers, t = .exited) : ∀ p', ¬ Acts p p' := by
  intro p'
  have hphase {before after : List ThreadPhase} {t : ThreadPhase}
      (h : p.workers = before ++ t :: after) : t = .exited :=
    hworkers t (by rw [h]; exact mem_set_iff.mpr (.inl rfl))
  intro hacts
  cases hacts with
  | popWork h | coordinate h | handOn h | closeRequests h =>
    rw [hcoordinator] at h
    cases h
  | popRequest h | work h | exit h => cases hphase h

theorem threads_exit_idle : ∃ p, Reached 1 p ∧ p.stopped = true ∧ (∀ p', ¬ Acts p p') ∧
    p.coordinator = .exited ∧ ∀ t ∈ p.workers, t = .exited := by
  have hstopped : Reached 1 (start 1).stop := .single (.stop rfl rfl)
  have hleaving : Reached 1 (start 1).stop.popWork := hstopped.tail (.acts (.popWork rfl))
  have hclosed : Reached 1 (start 1).stop.popWork.closeRequests :=
    hleaving.tail (.acts (.closeRequests rfl))
  have hpopped : Reached 1 ((start 1).stop.popWork.closeRequests.popRequest [] []) :=
    hclosed.tail (.acts (.popRequest rfl))
  have hexited : Reached 1 { (start 1).stop.popWork.closeRequests.popRequest [] [] with
      workers := [.exited] } := hpopped.tail (.acts (@Acts.exit _ [] [] rfl))
  refine ⟨_, hexited, rfl, ?_⟩
  have hrest := not_acts_of_exited (p := { (start 1).stop.popWork.closeRequests.popRequest [] [] with
    workers := [.exited] }) rfl fun t ht => List.mem_singleton.mp ht
  exact ⟨hrest, threads_exit hexited rfl hrest⟩

end Threadpool

end TaskjugglerLsp
