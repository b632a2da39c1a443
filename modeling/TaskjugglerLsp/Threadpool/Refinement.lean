import TaskjugglerLsp.Server.Responses
import TaskjugglerLsp.Threadpool.Wakefulness

/-!
# The queues are those of the server

A run of the pool, with its addresses, links and condition variables, is a run of the server, whose
queues are lists of jobs.

* `Represents`: a state of the server that a state of the pool stands for.
* `Represents.acts`, `Represents.wakes`, `Represents.cancelRequests`: what a step of the pool is in
  the server.
* `reads`: what the reader does in both.
* `pool_refines_server`: the same for whole runs.
-/

namespace TaskjugglerLsp

open Lib Lib.LinkedQueue

section Coordinator

variable (parse : CStr → ParseOutput) (write : Json → Option CStr) (handlers : Handlers)

/-- The coordinator of the server hands on what that of the pool does. -/
theorem coordinator_requests (w : World) (b : Address) (j : Job) (s : Server) :
    (coordinator parse write handlers w b j s).requestQueue.map (·.toJob)
      = s.requestQueue.map (·.toJob) ++ if coordinates j = none then [j] else [] := by
  have hcases := coordinator_cases parse write handlers w b j s
  generalize coordinator parse write handlers w b j s = s' at hcases ⊢
  cases hcases with
  | @notified entry hentry hk =>
    have hn : j.isNotification = true := by
      rw [j.isNotification_iff, kindOf, hentry, Option.map_some, hk]
    obtain ⟨heap, current, hhandle⟩ := handle_frame parse w b
      (entry.event (paramsOf j.request)) (s.logged w j)
    rw [hhandle, coordinates, if_pos hn, if_neg (Option.some_ne_none _), List.append_nil]
    rfl
  | cancelled hn hc =>
    obtain ⟨sent, made, hdispatch⟩ := serverDispatchCancelled_frame write j (s.logged w j)
    rw [hdispatch, coordinates, hn, hc, if_neg Bool.false_ne_true, if_pos rfl,
      if_neg (Option.some_ne_none _), List.append_nil]
    rfl
  | @inline entry hentry hk hc =>
    have hkind : kindOf j.request = some .inline := by rw [kindOf, hentry, Option.map_some, hk]
    have hn : j.isNotification = false := by
      rw [j.isNotification_eq, hkind]
      rfl
    obtain ⟨live, heap, current, sent, made, hanswer⟩ := answerInline_frame parse
      write handlers w b entry j (s.logged w j)
    rw [hanswer, coordinates, hn, hc, if_neg Bool.false_ne_true, if_neg Bool.false_ne_true,
      if_pos hkind, if_neg (Option.some_ne_none _), List.append_nil]
    rfl
  | handedOn hn hi hc =>
    rw [coordinates, hn, hc, if_neg Bool.false_ne_true, if_neg Bool.false_ne_true, if_neg hi,
      if_pos rfl]
    exact List.map_append

end Coordinator

namespace Threadpool

/-- The job at an address. -/
def jobAt (p : Threadpool) (a : ℕ) : Option Job := (p.memory a).map LinkedNode.value

/-- **A state of the server** with the same jobs in the same places. -/
structure Represents (p : Threadpool) (s : Server) (ws rs : List ℕ) : Prop where
  laid : p.Laid ws rs
  work : ws.map p.jobAt = s.workQueue.map some
  coordinating : p.coordinator.held.map p.jobAt = s.coordinating.toList.map some
  request : rs.map p.jobAt = s.requestQueue.map fun q => some q.toJob
  running : ((p.workers.flatMap ThreadPhase.held).map p.jobAt).Perm
    (s.running.map fun q => some q.toJob)
  arrived : p.arrived = s.arrived
  marking : p.marking = s.marking
  stopped : p.stopped = s.stopped
  taken : p.taken = s.log.map (·.arrival) ++ s.coordinating.toList.map (·.arrival)

variable {p p' : Threadpool} {s : Server} {ws rs : List ℕ} {a : ℕ} {workers : ℕ}

theorem represents_start (workers : ℕ) (inbound : List (Option Json)) :
    (start workers).Represents (Server.start inbound) [] [] := by
  refine ⟨laid_start workers, rfl, rfl, rfl, ?_, rfl, rfl, rfl, rfl⟩
  have hheld : (start workers).workers.flatMap ThreadPhase.held = [] := by
    rw [List.flatMap_eq_nil_iff]
    intro t ht
    rw [List.eq_of_mem_replicate ht]
    rfl
  rw [hheld]
  exact .refl _

/-! ### Jobs at addresses -/

theorem jobAt_of_memory (h : p'.memory a = p.memory a) : p'.jobAt a = p.jobAt a := by
  rw [jobAt, h, jobAt]

theorem arrivalAt_of_jobAt {j : Job} (h : p.jobAt a = some j) : p.arrivalAt a = j.arrival := by
  obtain ⟨n, hn, rfl⟩ := Option.map_eq_some_iff.mp h
  rw [arrivalAt, hn]
  rfl

theorem map_jobAt_dispatch (d : Dispatch) {as : List ℕ} (ha : a ∉ as) :
    as.map (p.dispatch a d).jobAt = as.map p.jobAt := by
  refine List.map_congr_left fun b hb => jobAt_of_memory ?_
  show Function.update p.memory a none b = p.memory b
  exact Function.update_of_ne (fun hba : b = a => ha (hba ▸ hb)) none p.memory

theorem jobAt_handOn (b : ℕ) : (p.handOn a).jobAt b = p.jobAt b := value_push

theorem jobAt_enqueue {request : Json} (b : ℕ) : (p.enqueueJob a request).jobAt b
    = if b = a then some (newJob p.arrived request) else p.jobAt b := by
  have hpush : (p.enqueueJob a request).jobAt b = (Function.update p.memory a
      (some ⟨newJob p.arrived request, none⟩) b).map LinkedNode.value := value_push
  rw [hpush]
  split_ifs with hba
  · rw [hba, Function.update_self]
    rfl
  · rw [Function.update_of_ne hba]
    rfl

/-- The jobs of a queue after a walk that marks some. -/
theorem value_mark {first : Option ℕ} {as : List ℕ} {n : ℕ} (id : ℤ) {m : Memory Job}
    (hchain : Chain m first as) (hnodup : as.Nodup) (hlen : as.length ≤ n) (b : ℕ) :
    (visit (Job.markCancelledById id) n m first b).map LinkedNode.value
      = if b ∈ as then ((m b).map LinkedNode.value).map (Job.markCancelledById id)
        else (m b).map LinkedNode.value := by
  rw [visit_eq hchain hnodup hlen]
  split_ifs
  · rw [Option.map_map, Option.map_map]
    rfl
  · rfl

/-- What a list of addresses holds, where a mark goes to some others. -/
theorem map_mark_of_notMem {g g' : ℕ → Option Job} {f : Job → Job} {as bs : List ℕ}
    (hg : ∀ b, g' b = if b ∈ as then (g b).map f else g b) (h : ∀ b ∈ bs, b ∉ as) :
    bs.map g' = bs.map g :=
  List.map_congr_left fun b hb => by rw [hg, if_neg (h b hb)]

/-- What a list of addresses holds, where the mark goes to all of them. -/
theorem map_mark_self {g g' : ℕ → Option Job} {f : Job → Job} {as : List ℕ} {jobs : List Job}
    (hg : ∀ b, g' b = if b ∈ as then (g b).map f else g b) (h : as.map g = jobs.map some) :
    as.map g' = (jobs.map f).map some := by
  have hmap : as.map g' = (as.map g).map (Option.map f) := by
    rw [List.map_map]
    exact List.map_congr_left fun b hb => by rw [hg, if_pos hb, Function.comp_apply]
  rw [hmap, h, List.map_map, List.map_map]
  rfl

/-! ### Where jobs are not -/

theorem Laid.disjoint_places (h : p.Laid ws rs) :
    (∀ b ∈ p.coordinator.held, b ∉ ws) ∧ (∀ b ∈ rs, b ∉ ws) ∧
      ∀ b ∈ p.workers.flatMap ThreadPhase.held, b ∉ ws := by
  obtain ⟨-, -, hcross⟩ := List.nodup_append.mp h.nodup
  refine ⟨fun b hb hws => ?_, fun b hb hws => ?_, fun b hb hws => ?_⟩
  · exact hcross b hws b (List.mem_append_left _ hb) rfl
  · exact hcross b hws b (List.mem_append_right _ (List.mem_append_left _ hb)) rfl
  · exact hcross b hws b (List.mem_append_right _ (List.mem_append_right _ hb)) rfl

theorem Laid.disjoint_requests (h : p.Laid ws rs) :
    (∀ b ∈ p.coordinator.held, b ∉ rs) ∧
      ∀ b ∈ p.workers.flatMap ThreadPhase.held, b ∉ rs := by
  obtain ⟨-, hrest, -⟩ := List.nodup_append.mp h.nodup
  obtain ⟨-, hqueue, hcross⟩ := List.nodup_append.mp hrest
  obtain ⟨-, -, hcross'⟩ := List.nodup_append.mp hqueue
  refine ⟨fun b hb hrs => ?_, fun b hb hrs => ?_⟩
  · exact hcross b hb b (List.mem_append_left _ hrs) rfl
  · exact hcross' b hrs b hb rfl

theorem Laid.notMem_of_free (h : p.Laid ws rs) (hfree : p.memory a = none) {as : List ℕ}
    (hsub : ∀ b ∈ as, b ∈ p.places ws rs) : a ∉ as := by
  intro hmem
  have hlive := (h.live a).mpr (hsub a hmem)
  rw [hfree] at hlive
  cases hlive

/-! ### What the coordinator has in hand -/

theorem Represents.coordinating_eq_none (h : p.Represents s ws rs)
    (hheld : p.coordinator.held = []) : s.coordinating = none := by
  have hlist := h.coordinating
  rw [hheld] at hlist
  cases hc : s.coordinating with
  | none => rfl
  | some j =>
    rw [hc] at hlist
    cases hlist

theorem Represents.coordinating_eq_some (h : p.Represents s ws rs)
    (hholding : p.coordinator = .holding a) :
    ∃ j, s.coordinating = some j ∧ p.jobAt a = some j := by
  have hlist := h.coordinating
  rw [hholding] at hlist
  cases hc : s.coordinating with
  | none =>
    rw [hc] at hlist
    cases hlist
  | some j =>
    rw [hc] at hlist
    exact ⟨j, rfl, (List.cons.inj hlist).1⟩

theorem jobAt_eq {n : LinkedNode Job} {j : Job} (hn : p.memory a = some n)
    (hj : p.jobAt a = some j) : n.value = j := by
  rw [jobAt, hn] at hj
  exact Option.some.inj hj

section Server

variable {parse : CStr → ParseOutput} {write : Json → Option CStr} {handlers : Handlers}

/-! ### Steps of the threads -/

/-- A step that the server does not see. -/
theorem Represents.stutter (h : p.Represents s ws rs) (hlaid : p'.Laid ws rs)
    (hmemory : p'.memory = p.memory) (hcoordinator : p'.coordinator.held = p.coordinator.held)
    (hworkers : (p'.workers.flatMap ThreadPhase.held).Perm (p.workers.flatMap ThreadPhase.held))
    (harrived : p'.arrived = p.arrived) (hmarking : p'.marking = p.marking)
    (hstopped : p'.stopped = p.stopped) (htaken : p'.taken = p.taken) : p'.Represents s ws rs := by
  have hjob : p'.jobAt = p.jobAt := funext fun b => jobAt_of_memory (congrFun hmemory b)
  refine ⟨hlaid, ?_, ?_, ?_, ?_, ?_, ?_, ?_, ?_⟩
  · rw [hjob, h.work]
  · rw [hjob, hcoordinator, h.coordinating]
  · rw [hjob, h.request]
  · rw [hjob]
    exact (hworkers.map _).trans h.running
  · rw [harrived, h.arrived]
  · rw [hmarking, h.marking]
  · rw [hstopped, h.stopped]
  · rw [htaken, h.taken]

theorem Represents.popWork (h : p.Represents s (a :: ws) rs) (hready : p.coordinator = .ready) :
    ∃ s', Server.Step parse write handlers workers s s' ∧ s'.inbox = s.inbox ∧
      p.popWork.Represents s' ws rs := by
  obtain ⟨hlaid, hholding, -⟩ := h.laid.popWork_cons hready
  have hnone := h.coordinating_eq_none (by rw [hready]; rfl)
  have hwork := h.work
  obtain ⟨j, q, hqueue⟩ : ∃ j q, s.workQueue = j :: q := by
    cases hq : s.workQueue with
    | nil =>
      rw [hq] at hwork
      cases hwork
    | cons j q => exact ⟨j, q, rfl⟩
  rw [hqueue, List.map_cons, List.map_cons] at hwork
  obtain ⟨hj, hrest⟩ := List.cons.inj hwork
  refine ⟨_, .pop hnone hqueue, rfl, hlaid, hrest, ?_, h.request, h.running, h.arrived, h.marking,
    h.stopped, ?_⟩
  · rw [hholding]
    exact congrArg (· :: []) hj
  · have htaken := h.taken
    rw [hnone, Option.toList_none, List.map_nil, List.append_nil] at htaken
    show p.taken ++ p.popWork.coordinator.held.map p.arrivalAt = s.log.map _ ++ [j.arrival]
    rw [hholding, htaken]
    exact congrArg (_ ++ [·]) (arrivalAt_of_jobAt hj)

theorem Represents.coordinate (h : p.Represents s ws rs) (hholding : p.coordinator = .holding a)
    (w : World) {b : Address} (hfree : s.heap b = none) {j : Job} (hj : p.jobAt a = some j)
    {rs' : List ℕ} (hlaid : p'.Laid ws rs')
    (hready : p'.coordinator = .ready) (hworkers : p'.workers.flatMap ThreadPhase.held
      = p.workers.flatMap ThreadPhase.held)
    (hws : ws.map p'.jobAt = ws.map p.jobAt)
    (hrs : rs'.map p'.jobAt
      = rs.map p.jobAt ++ if coordinates j = none then [some j] else [])
    (hrunning : (p.workers.flatMap ThreadPhase.held).map p'.jobAt
      = (p.workers.flatMap ThreadPhase.held).map p.jobAt)
    (harrived : p'.arrived = p.arrived) (hmarking : p'.marking = p.marking)
    (hstopped : p'.stopped = p.stopped) (htaken : p'.taken = p.taken) :
    ∃ s', Server.Step parse write handlers workers s s' ∧ s'.inbox = s.inbox ∧
      p'.Represents s' ws rs' := by
  obtain ⟨j', hcoordinating, hj'⟩ := h.coordinating_eq_some hholding
  obtain rfl : j = j' := Option.some.inj (hj.symm.trans hj')
  obtain ⟨live, heap, current, requestQueue, sent, made, hframe, -⟩ :=
    coordinator_frame parse write handlers w b j s
  have hrequests := coordinator_requests parse write handlers w b j s
  have hstep : Server.Step parse write handlers workers s
      (TaskjugglerLsp.coordinator parse write handlers w b j s) :=
    .coordinate w b hcoordinating hfree
  rw [hframe] at hrequests hstep
  refine ⟨_, hstep, rfl, hlaid, hws.trans h.work, ?_, ?_, ?_, harrived.trans h.arrived,
    hmarking.trans h.marking, hstopped.trans h.stopped, ?_⟩
  · rw [hready]
    rfl
  · have hmap : requestQueue.map (fun q => some q.toJob)
        = (s.requestQueue.map (fun q => some q.toJob))
          ++ if coordinates j = none then [some j] else [] := by
      have hsome := congrArg (List.map some) hrequests
      rw [List.map_map, List.map_append, List.map_map, apply_ite (List.map some)] at hsome
      exact hsome
    rw [hrs, h.request]
    exact hmap.symm
  · rw [hworkers, hrunning]
    exact h.running
  · rw [htaken, h.taken, hcoordinating]
    show _ = (s.log ++ [j.handled w]).map _ ++ []
    rw [List.append_nil, List.map_append]
    rfl

theorem Represents.popRequest (h : p.Represents s ws (a :: rs)) (hlen : p.workers.length = workers)
    {before after : List ThreadPhase} (hworkers : p.workers = before ++ .ready :: after) :
    ∃ s', Server.Step parse write handlers workers s s' ∧ s'.inbox = s.inbox ∧
      (p.popRequest before after).Represents s' ws rs := by
  obtain ⟨rest, hstate, -, hlaid⟩ := h.laid.popRequest_cons hworkers
  have hrequest := h.request
  obtain ⟨q, queue, hqueue⟩ : ∃ q queue, s.requestQueue = q :: queue := by
    cases hq : s.requestQueue with
    | nil =>
      rw [hq] at hrequest
      cases hrequest
    | cons q queue => exact ⟨q, queue, rfl⟩
  rw [hqueue, List.map_cons, List.map_cons] at hrequest
  obtain ⟨hj, hrest⟩ := List.cons.inj hrequest
  have hroom : s.running.length < workers := by
    have hrunning := h.running.length_eq
    rw [List.length_map, List.length_map, hworkers,
      (flatMap_held_set before after .ready).length_eq] at hrunning
    have hheld (threads : List ThreadPhase) :
        (threads.flatMap ThreadPhase.held).length ≤ threads.length := by
      induction threads with
      | nil => exact Nat.le_refl 0
      | cons t threads ih =>
        have ht : t.held.length ≤ 1 := by cases t <;> simp [ThreadPhase.held]
        rw [List.flatMap_cons, List.length_append, List.length_cons]
        omega
    have hle := hheld (before ++ after)
    rw [hworkers, List.length_append, List.length_cons] at hlen
    rw [List.length_append] at hle
    rw [← hrunning]
    show ((before ++ after).flatMap ThreadPhase.held).length < workers
    omega
  refine ⟨_, .take hqueue hroom, rfl, ?_⟩
  rw [hstate] at hlaid ⊢
  refine ⟨hlaid, h.work, h.coordinating, hrest, ?_, h.arrived, h.marking, h.stopped, h.taken⟩
  have hrunning := h.running
  rw [hworkers] at hrunning
  refine ((flatMap_held_set before after (.holding a)).map _).trans ?_
  show (p.jobAt a :: _).Perm (some q.toJob :: _)
  rw [hj]
  exact (((flatMap_held_set before after .ready).map _).symm.trans hrunning).cons _

theorem Represents.answer (h : p.Represents s ws rs) {before after : List ThreadPhase}
    (hworkers : p.workers = before ++ .holding a :: after) (d : Dispatch) :
    ∃ s', Server.Step parse write handlers workers s s' ∧ s'.inbox = s.inbox ∧
      Represents { p.dispatch a d with workers := before ++ .ready :: after } s' ws rs := by
  have hrunning := h.running
  rw [hworkers] at hrunning
  have hperm := ((flatMap_held_set before after (.holding a)).map p.jobAt).symm.trans hrunning
  obtain ⟨q, hq, hqa⟩ := List.mem_map.mp (hperm.subset List.mem_cons_self)
  obtain ⟨before', after', hsplit⟩ := List.append_of_mem hq
  obtain ⟨heap, sent, made, hframe⟩ := queryWorker_frame write handlers q
    { s with running := before' ++ after' }
  have hstep : Server.Step parse write handlers workers s
      (queryWorker write handlers q { s with running := before' ++ after' }) := .work hsplit
  rw [hframe] at hstep
  have hplaces : (p.places ws rs).Perm (a :: (ws ++ (p.coordinator.held ++ (rs ++
      (before ++ after).flatMap ThreadPhase.held)))) := by
    rw [places, hworkers]
    have hheld := flatMap_held_set before after (.holding a)
    exact ((((hheld.append_left rs).trans List.perm_middle).append_left _).trans
      List.perm_middle).append_left ws |>.trans List.perm_middle
  obtain ⟨hnot, -⟩ := List.nodup_cons.mp (hplaces.nodup_iff.mp h.laid.nodup)
  simp only [List.mem_append, not_or] at hnot
  obtain ⟨hws, hcoordinator, hrs, hother⟩ := hnot
  refine ⟨_, hstep, rfl, h.laid.dispatch hworkers d, ?_, ?_, ?_, ?_, h.arrived, h.marking,
    h.stopped, h.taken⟩
  · exact (map_jobAt_dispatch d hws).trans h.work
  · exact (map_jobAt_dispatch d hcoordinator).trans h.coordinating
  · exact (map_jobAt_dispatch d hrs).trans h.request
  · refine ((flatMap_held_set before after .ready).map _).trans ?_
    rw [hsplit] at hperm
    have hrest := (hperm.trans (List.perm_middle.map _))
    rw [List.map_cons, hqa] at hrest
    refine (List.Perm.of_eq ?_).trans hrest.cons_inv
    exact map_jobAt_dispatch d hother

/-- **A step of a thread** is one of the server, or none. -/
theorem Represents.acts (h : p.Represents s ws rs) (hlen : p.workers.length = workers) (w : World)
    {b : Address} (hfree : s.heap b = none) (hacts : Acts p p') :
    ∃ s' ws' rs', Relation.ReflTransGen (Server.Step parse write handlers workers) s s' ∧
      s'.inbox = s.inbox ∧ p'.Represents s' ws' rs' := by
  cases hacts with
  | popWork hready =>
    cases ws with
    | nil =>
      obtain ⟨hlaid, hstate⟩ := h.laid.popWork_nil hready
      refine ⟨s, [], rs, .refl, rfl, h.stutter hlaid ?_ ?_ ?_ ?_ ?_ ?_ ?_⟩ <;> rw [hstate]
      · rw [hready]
        show (if p.workQueue.closed then ThreadPhase.leaving else .waiting).held = []
        split_ifs <;> rfl
    | cons a ws =>
      obtain ⟨s', hstep, hinbox, hs'⟩ := h.popWork hready
      exact ⟨s', ws, rs, .single hstep, hinbox, hs'⟩
  | @coordinate a n d hholding hn hdispatch =>
    obtain ⟨j, -, hj⟩ := h.coordinating_eq_some hholding
    rw [jobAt_eq hn hj] at hdispatch
    have hnot : a ∉ ws ∧ a ∉ rs ∧ a ∉ p.workers.flatMap ThreadPhase.held := by
      have hnodup : (ws ++ (a :: (rs ++ p.workers.flatMap ThreadPhase.held))).Nodup := by
        have hall := h.laid.nodup
        rwa [places, hholding] at hall
      obtain ⟨hnot, -⟩ := List.nodup_cons.mp (List.perm_middle.nodup_iff.mp hnodup)
      exact ⟨fun hws => hnot (List.mem_append_left _ hws),
        fun hrs => hnot (List.mem_append_right _ (List.mem_append_left _ hrs)),
        fun hheld => hnot (List.mem_append_right _ (List.mem_append_right _ hheld))⟩
    obtain ⟨hws, hrs, hheld⟩ := hnot
    have hlaid := h.laid.coordinate hholding d
    obtain ⟨s', hstep, hinbox, hs'⟩ := h.coordinate hholding w hfree hj hlaid rfl rfl
      (map_jobAt_dispatch d hws)
      (by
        rw [hdispatch, if_neg (Option.some_ne_none d), List.append_nil]
        exact map_jobAt_dispatch d hrs)
      (map_jobAt_dispatch d hheld) rfl rfl rfl rfl
    exact ⟨s', ws, rs, .single hstep, hinbox, hs'⟩
  | @handOn a n threads hholding hn hdispatch hsignals =>
    obtain ⟨j, -, hj⟩ := h.coordinating_eq_some hholding
    rw [jobAt_eq hn hj] at hdispatch
    have hsame (as : List ℕ) : as.map (p.handOn a).jobAt = as.map p.jobAt :=
      List.map_congr_left fun b _ => jobAt_handOn b
    have hlaid := h.laid.handOn hholding hsignals
    obtain ⟨s', hstep, hinbox, hs'⟩ := h.coordinate hholding w hfree hj hlaid rfl hsignals.held
      (hsame ws)
      (by
        rw [hdispatch, if_pos rfl, ← hj, ← List.map_singleton (f := p.jobAt), ← List.map_append]
        exact hsame (rs ++ [a]))
      (hsame _) rfl rfl rfl rfl
    exact ⟨s', ws, rs ++ [a], .single hstep, hinbox, hs'⟩
  | closeRequests hleaving =>
    refine ⟨s, ws, rs, .refl, rfl, ?_⟩
    refine h.stutter (h.laid.closeRequests hleaving) rfl ?_ ?_ rfl rfl rfl rfl
    · rw [hleaving]
      rfl
    · exact .of_eq (ThreadPhase.held_map_wake p.workers)
  | @popRequest before after hworkers =>
    cases rs with
    | nil =>
      obtain ⟨hlaid, hstate⟩ := h.laid.popRequest_nil hworkers
      refine ⟨s, ws, [], .refl, rfl, h.stutter hlaid ?_ ?_ ?_ ?_ ?_ ?_ ?_⟩ <;> rw [hstate]
      · rw [hworkers]
        refine (flatMap_held_set before after _).trans
          (.trans (.of_eq ?_) (flatMap_held_set before after .ready).symm)
        cases p.requestQueue.closed <;> rfl
    | cons a rs =>
      obtain ⟨s', hstep, hinbox, hs'⟩ := h.popRequest hlen hworkers
      exact ⟨s', ws, rs, .single hstep, hinbox, hs'⟩
  | @work a n before after hworkers =>
    obtain ⟨s', hstep, hinbox, hs'⟩ := h.answer hworkers (works n.value)
    exact ⟨s', ws, rs, .single hstep, hinbox, hs'⟩
  | @exit before after hworkers =>
    refine ⟨s, ws, rs, .refl, rfl, ?_⟩
    refine h.stutter (h.laid.worker hworkers rfl) rfl rfl ?_ rfl rfl rfl rfl
    rw [hworkers]
    exact (flatMap_held_set before after .exited).trans
      (flatMap_held_set before after .leaving).symm

/-- The server does not see that a thread wakes. -/
theorem Represents.wakes (h : p.Represents s ws rs) (hwakes : Wakes p p') :
    p'.Represents s ws rs := by
  cases hwakes with
  | coordinator hwaiting =>
    have hheld : p.coordinator.held = [] := by rw [hwaiting]; rfl
    exact h.stutter (h.laid.threads hheld.symm (.refl _)) rfl hheld.symm (.refl _) rfl rfl rfl rfl
  | @worker before after hworkers =>
    refine h.stutter (h.laid.worker hworkers rfl) rfl rfl ?_ rfl rfl rfl rfl
    rw [hworkers]
    exact (flatMap_held_set before after .ready).trans
      (flatMap_held_set before after .waiting).symm

theorem Represents.cancelRequests (h : p.Represents s ws rs) {id : ℤ}
    (hmarking : p.marking = some id) :
    ∃ s', Server.Step parse write handlers workers s s' ∧ s'.inbox = s.inbox ∧
      (p.cancelRequests id).Represents s' ws rs := by
  have hlaid := h.laid.mark h.laid.request.chain h.laid.request.nodup h.laid.length_request
    id none (Nat.le_refl _)
  obtain ⟨-, hrs, -⟩ := h.laid.disjoint_places
  obtain ⟨hcoordinator, hworkers⟩ := h.laid.disjoint_requests
  have hvalue : ∀ b, (p.cancelRequests id).jobAt b
      = if b ∈ rs then (p.jobAt b).map (Job.markCancelledById id) else p.jobAt b :=
    value_mark id h.laid.request.chain h.laid.request.nodup h.laid.length_request
  refine ⟨_, .mark (h.marking ▸ hmarking), rfl, hlaid, ?_, ?_, ?_, ?_, h.arrived, rfl, h.stopped,
    h.taken⟩
  · rw [map_mark_of_notMem hvalue fun b hb hb' => hrs b hb' hb]
    exact h.work
  · exact (map_mark_of_notMem hvalue hcoordinator).trans h.coordinating
  · have hjobs : rs.map p.jobAt = (s.requestQueue.map (·.toJob)).map some := by
      rw [h.request, List.map_map]
      rfl
    rw [map_mark_self hvalue hjobs]
    simp only [List.map_map]
    rfl
  · exact (List.Perm.of_eq (map_mark_of_notMem hvalue hworkers)).trans h.running

/-! ### Steps of the reader -/

variable (parse write handlers workers) in
/-- **What the reader does** with a message is the same in both. -/
theorem reads (hstep : Step p p') :
    (∃ message, ∀ (s : Server) (inbox : List (Option Json)) (ws rs : List ℕ),
      p.Represents s ws rs → s.inbox = message :: inbox →
        ∃ ws', Server.Step parse write handlers workers s (reader message inbox s) ∧
          p'.Represents (reader message inbox s) ws' rs) ∨
    Acts p p' ∨ Wakes p p' ∨ ∃ id, p.marking = some id ∧ p' = p.cancelRequests id := by
  cases hstep with
  | acts hacts => exact .inr (.inl hacts)
  | wakes hwakes => exact .inr (.inr (.inl hwakes))
  | mark hmarking => exact .inr (.inr (.inr ⟨_, hmarking, rfl⟩))
  | @enqueue a request hrunning hmarking henqueues hfree =>
    refine .inl ⟨some request, fun s inbox ws rs h hinbox => ⟨ws ++ [a], ?_, ?_⟩⟩
    · exact .read (h.marking ▸ hmarking) (h.stopped ▸ hrunning) hinbox
    have hreader : reader (some request) inbox s = { s with
        inbox := inbox
        arrived := s.arrived + 1
        workQueue := s.workQueue ++ [newJob s.arrived request] } := by
      obtain ⟨hexit, hcancel⟩ := of_decide_eq_true henqueues
      rw [reader, serverProcess, if_neg hexit, if_neg hcancel]
    have hsame {as : List ℕ} (hsub : ∀ b ∈ as, b ∈ p.places ws rs) :
        as.map (p.enqueueJob a request).jobAt = as.map p.jobAt := by
      have hnot := h.laid.notMem_of_free hfree hsub
      refine List.map_congr_left fun b hb => ?_
      rw [jobAt_enqueue, if_neg fun hba : b = a => hnot (hba ▸ hb)]
    have hheld : (p.enqueueJob a request).coordinator.held = p.coordinator.held :=
      p.coordinator.held_wake
    rw [hreader]
    refine ⟨h.laid.enqueue hfree request, ?_, ?_, ?_, ?_, ?_, h.marking, h.stopped, h.taken⟩
    · rw [List.map_append, hsame fun b hb => List.mem_append_left _ hb, h.work, List.map_append,
        List.map_singleton, jobAt_enqueue, if_pos rfl, h.arrived]
      rfl
    · rw [hheld, hsame fun b hb => List.mem_append_right _ (List.mem_append_left _ hb)]
      exact h.coordinating
    · rw [hsame fun b hb =>
        List.mem_append_right _ (List.mem_append_right _ (List.mem_append_left _ hb))]
      exact h.request
    · refine (List.Perm.of_eq (hsame fun b hb => ?_)).trans h.running
      exact List.mem_append_right _ (List.mem_append_right _ (List.mem_append_right _ hb))
    · exact congrArg (· + 1) h.arrived
  | @cancel request id hrunning hmarking hmethod hid =>
    refine .inl ⟨some request, fun s inbox ws rs h hinbox => ⟨ws, ?_, ?_⟩⟩
    · exact .read (h.marking ▸ hmarking) (h.stopped ▸ hrunning) hinbox
    have hreader : reader (some request) inbox s = { s with
        inbox := inbox
        arrived := s.arrived + 1
        workQueue := s.workQueue.map (Job.markCancelledById id)
        marking := some id } := by
      have hexit : methodOf request ≠ cstr "exit" := by
        rw [hmethod]
        decide
      rw [reader, serverProcess, if_neg hexit, if_pos hmethod, hid]
    have hlaid := h.laid.mark h.laid.work.chain h.laid.work.nodup h.laid.length_work
      id (some id) (Nat.le_succ _)
    obtain ⟨hcoordinator, hrs, hworkers⟩ := h.laid.disjoint_places
    have hvalue : ∀ b, (p.cancelWork id).jobAt b
        = if b ∈ ws then (p.jobAt b).map (Job.markCancelledById id) else p.jobAt b :=
      value_mark id h.laid.work.chain h.laid.work.nodup h.laid.length_work
    rw [hreader]
    refine ⟨hlaid, map_mark_self hvalue h.work, ?_, ?_, ?_, ?_, rfl, h.stopped, h.taken⟩
    · exact (map_mark_of_notMem hvalue hcoordinator).trans h.coordinating
    · exact (map_mark_of_notMem hvalue hrs).trans h.request
    · exact (List.Perm.of_eq (map_mark_of_notMem hvalue hworkers)).trans h.running
    · exact congrArg (· + 1) h.arrived
  | pass hrunning hmarking =>
    refine .inl ⟨none, fun s inbox ws rs h hinbox => ⟨ws, ?_, ?_⟩⟩
    · exact .read (h.marking ▸ hmarking) (h.stopped ▸ hrunning) hinbox
    · exact ⟨h.laid.pass, h.work, h.coordinating, h.request, h.running,
        congrArg (· + 1) h.arrived, h.marking, h.stopped, h.taken⟩
  | stop hrunning hmarking =>
    refine .inl ⟨some (Server.messageOf "exit" none []), fun s inbox ws rs h hinbox => ⟨ws, ?_, ?_⟩⟩
    · exact .read (h.marking ▸ hmarking) (h.stopped ▸ hrunning) hinbox
    have hreader : reader (some (Server.messageOf "exit" none [])) inbox s = { s with
        inbox := inbox
        arrived := s.arrived + 1
        stopped := true } := by
      rw [reader, serverProcess, if_pos (by decide)]
    rw [hreader]
    refine ⟨h.laid.stop, h.work, ?_, h.request, h.running, congrArg (· + 1) h.arrived, h.marking,
      rfl, h.taken⟩
    show p.coordinator.wake.held.map p.jobAt = _
    rw [p.coordinator.held_wake]
    exact h.coordinating

/-- **The pool refines the server**: for every state that a pool can get into there are messages
such that the server, on them and any others after them, gets into a state with the same jobs in the
same places, whatever its queries find. -/
theorem pool_refines_server (w : World) (h : Reached workers p) :
    ∃ inbound, ∀ inbox, ∃ s ws rs,
      Server.Reached parse write handlers workers (inbound ++ inbox) s ∧ s.inbox = inbox ∧
        p.Represents s ws rs := by
  induction h with
  | refl =>
    refine ⟨[], fun inbox => ⟨Server.start inbox, [], [], .refl, rfl, ?_⟩⟩
    exact represents_start workers inbox
  | @tail q q' hq hstep ih =>
    obtain ⟨inbound, ih⟩ := ih
    rcases reads workers parse write handlers hstep
      with ⟨message, hreads⟩ | hacts | hwakes | ⟨id, hmarking, rfl⟩
    · refine ⟨inbound ++ [message], fun inbox => ?_⟩
      obtain ⟨s, ws, rs, hreached, hinbox, hs⟩ := ih (message :: inbox)
      obtain ⟨ws', hstep, hs'⟩ := hreads s inbox ws rs hs hinbox
      obtain ⟨marking, stopped, workQueue, hframe⟩ := Server.reader_frame message inbox s
      refine ⟨_, ws', rs, ?_, ?_, hs'⟩
      · rw [List.append_assoc]
        exact hreached.tail hstep
      · rw [hframe]
    · refine ⟨inbound, fun inbox => ?_⟩
      obtain ⟨s, ws, rs, hreached, hinbox, hs⟩ := ih inbox
      obtain ⟨b, hb⟩ := hreached.refines.1.counts.exists_free
      obtain ⟨s', ws', rs', hrun, hinbox', hs'⟩ := hs.acts (Reached.length_workers hq) w hb hacts
      exact ⟨s', ws', rs', hreached.trans hrun, hinbox'.trans hinbox, hs'⟩
    · refine ⟨inbound, fun inbox => ?_⟩
      obtain ⟨s, ws, rs, hreached, hinbox, hs⟩ := ih inbox
      exact ⟨s, ws, rs, hreached, hinbox, hs.wakes hwakes⟩
    · refine ⟨inbound, fun inbox => ?_⟩
      obtain ⟨s, ws, rs, hreached, hinbox, hs⟩ := ih inbox
      obtain ⟨s', hstep, hinbox', hs'⟩ := hs.cancelRequests hmarking
      exact ⟨s', ws, rs, hreached.tail hstep, hinbox'.trans hinbox, hs'⟩

end Server

theorem pool_refines_server_hovering : ∃ inbound, ∀ inbox, ∃ s ws rs,
    Server.Reached blankParse (fun v => some (Server.plainText v)) Server.nullHandlers
        numQueryWorkers (inbound ++ inbox) s ∧
      s.inbox = inbox ∧ hovering.Represents s ws rs :=
  pool_refines_server ⟨fun _ => none, fun _ => none, fun _ => none, fun _ => none⟩ reached_hovering

end Threadpool

end TaskjugglerLsp
