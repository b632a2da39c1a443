import Mathlib.Data.List.Perm.Basic
import TaskjugglerLsp.Threadpool

/-!
# No job is lost

In every state of the pool a job is in one place: in the work queue, with the coordinator, in the
request queue or with a worker; or it has been dispatched once and is freed.  Nothing refers to a job
that is freed, and the coordinator takes the jobs in the order in which they have arrived.

* `Laid`: where the jobs of a state are.
* `Laid.enqueue`, `Laid.move`, `Laid.free`: jobs arrive, change hands, and are dispatched.
-/

namespace TaskjugglerLsp

open Lib Lib.LinkedQueue

/-! ### Queues -/

section Queues

variable {m : Memory Job} {q : JobQueue} {a : ℕ} {as : List ℕ}

theorem jobQueuePop_cons (h : Holds m q.toLinkedQueue (a :: as)) :
    ∃ rest, jobQueuePop m q = (.holding a, rest) ∧ Holds m rest.toLinkedQueue as ∧
      rest.closed = q.closed := by
  obtain ⟨hfirst, hrest⟩ := h.pop_some
  refine ⟨⟨(LinkedQueue.pop m q.toLinkedQueue).2, q.closed⟩, ?_, hrest, rfl⟩
  unfold jobQueuePop
  generalize LinkedQueue.pop m q.toLinkedQueue = popped at hfirst
  obtain ⟨first, rest⟩ := popped
  obtain rfl := hfirst
  rfl

theorem jobQueuePop_nil (h : Holds m q.toLinkedQueue []) :
    jobQueuePop m q = (if q.closed then .leaving else .waiting, q) := by
  rw [jobQueuePop, h.pop_none]

end Queues

namespace ThreadPhase

theorem held_wake (t : ThreadPhase) : t.wake.held = t.held := by
  cases t <;> rfl

theorem held_map_wake (threads : List ThreadPhase) :
    (threads.map wake).flatMap held = threads.flatMap held := by
  rw [List.flatMap_map]
  exact List.flatMap_congr fun t _ => t.held_wake

end ThreadPhase

theorem Signals.held {threads threads' : List ThreadPhase} (h : Signals threads threads') :
    threads'.flatMap ThreadPhase.held = threads.flatMap ThreadPhase.held := by
  cases h with
  | one => simp [ThreadPhase.held]
  | none => rfl

theorem flatMap_held_set (before after : List ThreadPhase) (t : ThreadPhase) :
    ((before ++ t :: after).flatMap ThreadPhase.held).Perm
      (t.held ++ (before ++ after).flatMap ThreadPhase.held) := by
  rw [List.flatMap_append, List.flatMap_cons, List.flatMap_append]
  exact List.perm_append_comm_assoc _ _ _

/-! ### Where the jobs are -/

namespace Threadpool

/-- The places of the jobs. -/
def places (p : Threadpool) (ws rs : List ℕ) : List ℕ :=
  ws ++ (p.coordinator.held ++ (rs ++ p.workers.flatMap ThreadPhase.held))

/-- **Where the jobs of a state are**: those in the two queues, and those that threads hold. -/
structure Laid (p : Threadpool) (ws rs : List ℕ) : Prop where
  work : Holds p.memory p.workQueue.toLinkedQueue ws
  request : Holds p.memory p.requestQueue.toLinkedQueue rs
  live : ∀ a, (p.memory a).isSome = true ↔ a ∈ p.places ws rs
  nodup : (p.places ws rs).Nodup
  numbers : p.enqueued.Sublist (List.range p.arrived)
  order : p.taken ++ ws.map p.arrivalAt = p.enqueued
  account : ((p.places ws rs).map p.arrivalAt ++ p.dispatched.map Prod.fst).Perm p.enqueued

theorem laid_start (workers : ℕ) : (start workers).Laid [] [] := by
  have hplaces : (start workers).places [] [] = [] := by
    show (List.replicate workers ThreadPhase.ready).flatMap ThreadPhase.held = []
    rw [List.flatMap_eq_nil_iff]
    intro t ht
    rw [List.eq_of_mem_replicate ht]
    rfl
  refine ⟨holds_empty _, holds_empty _, fun a => ?_, ?_, List.nil_sublist _, rfl, ?_⟩
  · rw [hplaces]
    exact iff_of_false Bool.false_ne_true List.not_mem_nil
  · rw [hplaces]
    exact .nil
  · rw [hplaces]
    exact .refl _

variable {p p' : Threadpool} {ws rs ws' rs' : List ℕ} {a : ℕ}

theorem arrivalAt_congr
    (h : (p'.memory a).map (fun n => n.value.arrival) = (p.memory a).map fun n => n.value.arrival) :
    p'.arrivalAt a = p.arrivalAt a := by
  rw [arrivalAt, h, arrivalAt]

theorem arrival_of_value {m m' : Memory Job}
    (h : (m' a).map LinkedNode.value = (m a).map LinkedNode.value) :
    (m' a).map (fun n => n.value.arrival) = (m a).map fun n => n.value.arrival := by
  have hjob := congrArg (Option.map Job.arrival) h
  rwa [Option.map_map, Option.map_map] at hjob

/-- **Jobs that change hands** are where they are. -/
theorem Laid.move (h : p.Laid ws rs) (hwork : Holds p'.memory p'.workQueue.toLinkedQueue ws')
    (hrequest : Holds p'.memory p'.requestQueue.toLinkedQueue rs')
    (hsome : ∀ a, (p'.memory a).isSome = (p.memory a).isSome)
    (harrival : ∀ a, p'.arrivalAt a = p.arrivalAt a)
    (hperm : (p'.places ws' rs').Perm (p.places ws rs))
    (htaken : p'.taken ++ ws'.map p.arrivalAt = p.taken ++ ws.map p.arrivalAt)
    (hdispatched : p'.dispatched = p.dispatched) (henqueued : p'.enqueued = p.enqueued)
    (harrived : p.arrived ≤ p'.arrived) : p'.Laid ws' rs' := by
  have hsame : p'.arrivalAt = p.arrivalAt := funext harrival
  refine ⟨hwork, hrequest, fun a => ?_, hperm.nodup_iff.mpr h.nodup, ?_, ?_, ?_⟩
  · rw [hsome, h.live, hperm.mem_iff]
  · rw [henqueued]
    exact h.numbers.trans (List.range_sublist.mpr harrived)
  · rw [hsame, htaken, henqueued, h.order]
  · rw [hsame, hdispatched, henqueued]
    exact ((hperm.map _).append_right _).trans h.account

theorem Laid.length_places (h : p.Laid ws rs) : (p.places ws rs).length ≤ p.arrived := by
  have hlen := h.account.length_eq
  have hle := h.numbers.length_le
  rw [List.length_append, List.length_map] at hlen
  rw [List.length_range] at hle
  omega

theorem Laid.length_work (h : p.Laid ws rs) : ws.length ≤ p.arrived := by
  have hle := h.length_places
  rw [places, List.length_append] at hle
  omega

theorem Laid.length_request (h : p.Laid ws rs) : rs.length ≤ p.arrived := by
  have hle := h.length_places
  rw [places, List.length_append, List.length_append, List.length_append] at hle
  omega

theorem Laid.disjoint (h : p.Laid ws rs) : ∀ a ∈ ws, a ∉ rs := by
  obtain ⟨-, -, hcross⟩ := List.nodup_append.mp h.nodup
  intro a hws hrs
  exact hcross a hws a (by simp [hrs]) rfl

theorem arrival_mark {m : Memory Job} {first : Option ℕ} {as : List ℕ} {n : ℕ} {id : ℤ}
    (hchain : Chain m first as) (hnodup : as.Nodup) (hlen : as.length ≤ n) (a : ℕ) :
    (visit (Job.markCancelledById id) n m first a).map (fun n => n.value.arrival)
      = (m a).map fun n => n.value.arrival := by
  rw [visit_eq hchain hnodup hlen]
  split_ifs
  · rw [Option.map_map]
    exact congrArg (Option.map · (m a)) (funext fun n => (n.value.markCancelledById_frame id).1)
  · rfl

theorem Laid.mark (h : p.Laid ws rs) {first : Option ℕ} {as : List ℕ}
    (hchain : Chain p.memory first as) (hnodup : as.Nodup) (hlen : as.length ≤ p.arrived)
    (id : ℤ) (marking : Option ℤ) {arrived : ℕ} (harrived : p.arrived ≤ arrived) :
    Laid { p with
      memory := visit (Job.markCancelledById id) p.arrived p.memory first
      marking := marking
      arrived := arrived } ws rs := by
  refine h.move (h.work.visit hchain hnodup hlen) (h.request.visit hchain hnodup hlen)
    (fun a => isSome_visit hchain hnodup hlen a) (fun a => ?_) (.refl _) rfl rfl rfl harrived
  exact arrivalAt_congr (arrival_mark hchain hnodup hlen a)

/-- **A job is dispatched and freed.** -/
theorem Laid.free (h : p.Laid ws rs) (d : Dispatch) (hmemory : p'.memory = (p.dispatch a d).memory)
    (hwork : p'.workQueue = p.workQueue) (hrequest : p'.requestQueue = p.requestQueue)
    (hperm : (p.places ws rs).Perm (a :: p'.places ws rs)) (htaken : p'.taken = p.taken)
    (hdispatched : p'.dispatched = (p.dispatch a d).dispatched)
    (henqueued : p'.enqueued = p.enqueued) (harrived : p'.arrived = p.arrived) :
    p'.Laid ws rs := by
  have hnodup := hperm.nodup_iff.mp h.nodup
  obtain ⟨hnot, hrest⟩ := List.nodup_cons.mp hnodup
  have hother {b : ℕ} (hb : b ≠ a) : p'.memory b = p.memory b := by
    rw [hmemory]
    exact Function.update_of_ne hb _ _
  have harrival {b : ℕ} (hb : b ∈ p'.places ws rs) : p'.arrivalAt b = p.arrivalAt b := by
    refine arrivalAt_congr ?_
    rw [hother fun hba => hnot (hba ▸ hb)]
  have hqueue {q : LinkedQueue} {as : List ℕ} (hq : Holds p.memory q as)
      (hsub : ∀ b ∈ as, b ∈ p'.places ws rs) : Holds p'.memory q as := by
    refine hq.frame fun b hb n hn => ⟨n, ?_, rfl⟩
    rw [hother fun hba => hnot (hba ▸ hsub b hb), hn]
  have hws : ∀ b ∈ ws, b ∈ p'.places ws rs := fun b hb => List.mem_append_left _ hb
  have hrs : ∀ b ∈ rs, b ∈ p'.places ws rs := fun b hb => by
    rw [places]
    simp [hb]
  refine ⟨?_, ?_, fun b => ?_, hrest, ?_, ?_, ?_⟩
  · rw [hwork]
    exact hqueue h.work hws
  · rw [hrequest]
    exact hqueue h.request hrs
  · by_cases hb : b = a
    · have hnone : p'.memory a = none := by
        rw [hmemory]
        exact Function.update_self a none p.memory
      rw [hb, hnone]
      exact iff_of_false Bool.false_ne_true hnot
    · rw [hother hb, h.live, hperm.mem_iff, List.mem_cons, or_iff_right hb]
  · rw [henqueued, harrived]
    exact h.numbers
  · rw [htaken, henqueued, ← h.order]
    exact congrArg _ (List.map_congr_left fun b hb => harrival (hws b hb))
  · rw [List.map_congr_left fun b hb => harrival hb, hdispatched, henqueued]
    refine List.Perm.trans ?_ h.account
    refine List.Perm.trans ?_ ((hperm.map p.arrivalAt).append_right _).symm
    show (_ ++ (p.dispatched ++ [(p.arrivalAt a, d)]).map Prod.fst).Perm _
    rw [List.map_append, ← List.append_assoc]
    exact List.perm_append_comm

/-! ### Every step keeps them -/

theorem Laid.enqueue (h : p.Laid ws rs) (hfree : p.memory a = none) (request : Json) :
    (p.enqueueJob a request).Laid (ws ++ [a]) rs := by
  obtain ⟨m, hm⟩ : ∃ m, m = Function.update p.memory a (some ⟨newJob p.arrived request, none⟩) :=
    ⟨_, rfl⟩
  have hnot : a ∉ p.places ws rs := by
    rw [← h.live, hfree]
    exact Bool.false_ne_true
  have hother {b : ℕ} (hb : b ≠ a) : m b = p.memory b := by
    rw [hm]
    exact Function.update_of_ne hb _ _
  have hself : m a = some ⟨newJob p.arrived request, none⟩ := by
    rw [hm, Function.update_self]
  have hframe {q : LinkedQueue} {as : List ℕ} (hq : Holds p.memory q as)
      (hsub : ∀ b ∈ as, b ∈ p.places ws rs) : Holds m q as := by
    refine hq.frame fun b hb n hn => ⟨n, ?_, rfl⟩
    rw [hother fun hba => hnot (hba ▸ hsub b hb), hn]
  have hws : ∀ b ∈ ws, b ∈ p.places ws rs := fun b hb => List.mem_append_left _ hb
  have hrs : ∀ b ∈ rs, b ∈ p.places ws rs := fun b hb => by
    rw [places]
    simp [hb]
  have hwork := hframe h.work hws
  have hpushed := hwork.push (a := a) (by rw [hself]; rfl) fun hmem => hnot (hws a hmem)
  have hmemory : (p.enqueueJob a request).memory
      = (LinkedQueue.push m p.workQueue.toLinkedQueue a).1 := by
    rw [hm]
    rfl
  have harrival (b : ℕ) : (p.enqueueJob a request).arrivalAt b
      = if b = a then p.arrived else p.arrivalAt b := by
    rw [arrivalAt, hmemory, arrival_of_value value_push]
    split_ifs with hb
    · rw [hb, hself]
      rfl
    · rw [hother hb]
      rfl
  have hmap {as : List ℕ} (hsub : ∀ b ∈ as, b ∈ p.places ws rs) :
      as.map (p.enqueueJob a request).arrivalAt = as.map p.arrivalAt :=
    List.map_congr_left fun b hb => by
      rw [harrival, if_neg fun hba : b = a => hnot (hba ▸ hsub b hb)]
  have hheld : (p.enqueueJob a request).coordinator.held = p.coordinator.held :=
    p.coordinator.held_wake
  have hplaces : ((p.enqueueJob a request).places (ws ++ [a]) rs).Perm (a :: p.places ws rs) := by
    rw [places, hheld, List.append_assoc]
    exact List.perm_middle
  refine ⟨?_, ?_, fun b => ?_, ?_, ?_, ?_, ?_⟩
  · rw [hm] at hpushed
    exact hpushed
  · rw [hmemory]
    exact (hframe h.request hrs).push_other hwork (fun hmem => hnot (hrs a hmem)) h.disjoint
  · rw [hmemory, isSome_push, hplaces.mem_iff, List.mem_cons]
    by_cases hb : b = a
    · rw [hb, hself]
      exact iff_of_true rfl (.inl rfl)
    · rw [hother hb, h.live, or_iff_right hb]
  · exact hplaces.nodup_iff.mpr (List.nodup_cons.mpr ⟨hnot, h.nodup⟩)
  · show (p.enqueued ++ [p.arrived]).Sublist (List.range (p.arrived + 1))
    rw [List.range_succ]
    exact h.numbers.append (.refl _)
  · show p.taken ++ _ = p.enqueued ++ [p.arrived]
    rw [List.map_append, hmap hws, List.map_singleton, harrival, if_pos rfl, ← List.append_assoc,
      h.order]
  · show (_ ++ p.dispatched.map Prod.fst).Perm (p.enqueued ++ [p.arrived])
    refine ((hplaces.map _).append_right _).trans ?_
    rw [List.map_cons, hmap fun b hb => hb, harrival, if_pos rfl, List.cons_append]
    exact (h.account.cons _).trans (List.perm_append_singleton _ _).symm

theorem Laid.threads (h : p.Laid ws rs) {coordinator : ThreadPhase} {workers : List ThreadPhase}
    (hcoordinator : coordinator.held = p.coordinator.held)
    (hworkers : (workers.flatMap ThreadPhase.held).Perm (p.workers.flatMap ThreadPhase.held)) :
    Laid { p with coordinator := coordinator, workers := workers } ws rs := by
  refine h.move h.work h.request (fun _ => rfl) (fun _ => rfl) ?_ rfl rfl rfl (Nat.le_refl _)
  show (ws ++ (coordinator.held ++ (rs ++ workers.flatMap ThreadPhase.held))).Perm _
  rw [hcoordinator]
  exact ((hworkers.append_left rs).append_left _).append_left ws

theorem Laid.popWork_cons (h : p.Laid (a :: ws) rs) (hready : p.coordinator = .ready) :
    p.popWork.Laid ws rs ∧ p.popWork.coordinator = .holding a ∧
      p.popWork.workQueue.closed = p.workQueue.closed := by
  obtain ⟨rest, hpop, hrest, hclosed⟩ := jobQueuePop_cons h.work
  have hstate : p.popWork = { p with
      coordinator := .holding a, workQueue := rest, taken := p.taken ++ [p.arrivalAt a] } := by
    rw [popWork, hpop]
    rfl
  rw [hstate]
  refine ⟨?_, rfl, hclosed⟩
  refine h.move hrest h.request (fun _ => rfl) (fun _ => rfl) ?_ ?_ rfl rfl (Nat.le_refl _)
  · show (ws ++ ([a] ++ (rs ++ _))).Perm (a :: ws ++ (p.coordinator.held ++ (rs ++ _)))
    rw [hready]
    exact List.perm_middle
  · show p.taken ++ [p.arrivalAt a] ++ _ = _
    rw [List.append_assoc]
    rfl

theorem Laid.popWork_nil (h : p.Laid [] rs) (hready : p.coordinator = .ready) :
    p.popWork.Laid [] rs ∧
      p.popWork = { p with
        coordinator := if p.workQueue.closed then .leaving else .waiting } := by
  have hpop := jobQueuePop_nil h.work
  have hheld : (if p.workQueue.closed then ThreadPhase.leaving else .waiting).held = [] := by
    split_ifs <;> rfl
  have hstate : p.popWork = { p with
      coordinator := if p.workQueue.closed then .leaving else .waiting } := by
    rw [popWork, hpop, hheld, List.map_nil, List.append_nil]
  refine ⟨?_, hstate⟩
  rw [hstate]
  exact h.threads (by rw [hheld, hready]; rfl) (.refl _)

theorem Laid.handOn (h : p.Laid ws rs) (hholding : p.coordinator = .holding a)
    {workers : List ThreadPhase} (hsignals : Signals p.workers workers) :
    Laid { p.handOn a with coordinator := .ready, workers := workers } ws (rs ++ [a]) := by
  have hmem : a ∈ p.places ws rs := by
    rw [places, hholding]
    simp [ThreadPhase.held]
  have hnodup : (ws ++ (a :: (rs ++ p.workers.flatMap ThreadPhase.held))).Nodup := by
    have hall := h.nodup
    rwa [places, hholding] at hall
  obtain ⟨hnot, -⟩ := List.nodup_cons.mp (List.perm_middle.nodup_iff.mp hnodup)
  have hws : a ∉ ws := fun hmem => hnot (List.mem_append_left _ hmem)
  have hrs : a ∉ rs := fun hmem => hnot (by simp [hmem])
  have hsome : (p.memory a).isSome = true := (h.live a).mpr hmem
  refine h.move (h.work.push_other h.request hws fun b hb hb' => h.disjoint b hb' hb)
    (h.request.push hsome hrs) (fun _ => isSome_push) (fun b => ?_) ?_ rfl rfl rfl (Nat.le_refl _)
  · exact arrivalAt_congr (arrival_of_value value_push)
  · show (ws ++ ([] ++ (rs ++ [a] ++ workers.flatMap ThreadPhase.held))).Perm _
    rw [hsignals.held, places, hholding, List.append_assoc]
    exact List.perm_middle.append_left ws

theorem Laid.popRequest_cons (h : p.Laid ws (a :: rs)) {before after : List ThreadPhase}
    (hworkers : p.workers = before ++ .ready :: after) :
    ∃ rest, p.popRequest before after = { p with
        workers := before ++ .holding a :: after, requestQueue := rest } ∧
      rest.closed = p.requestQueue.closed ∧ (p.popRequest before after).Laid ws rs := by
  obtain ⟨rest, hpop, hrest, hclosed⟩ := jobQueuePop_cons h.request
  have hstate : p.popRequest before after = { p with
      workers := before ++ .holding a :: after, requestQueue := rest } := by
    rw [popRequest, hpop]
  refine ⟨rest, hstate, hclosed, ?_⟩
  rw [hstate]
  refine h.move h.work hrest (fun _ => rfl) (fun _ => rfl) ?_ rfl rfl rfl (Nat.le_refl _)
  show (ws ++ (p.coordinator.held ++ (rs ++
      (before ++ ThreadPhase.holding a :: after).flatMap ThreadPhase.held))).Perm
    (ws ++ (p.coordinator.held ++ (a :: rs ++ p.workers.flatMap ThreadPhase.held)))
  rw [hworkers]
  refine (List.Perm.append_left _ ?_).append_left ws
  refine ((flatMap_held_set before after (.holding a)).append_left rs).trans ?_
  refine List.perm_middle.trans (List.Perm.cons a ?_)
  exact (flatMap_held_set before after .ready).symm.append_left rs

theorem Laid.popRequest_nil (h : p.Laid ws []) {before after : List ThreadPhase}
    (hworkers : p.workers = before ++ .ready :: after) :
    (p.popRequest before after).Laid ws [] ∧
      p.popRequest before after = { p with
        workers := before ++ (if p.requestQueue.closed then .leaving else .waiting) :: after } := by
  have hpop := jobQueuePop_nil h.request
  have hheld : (if p.requestQueue.closed then ThreadPhase.leaving else .waiting).held = [] := by
    split_ifs <;> rfl
  have hstate : p.popRequest before after = { p with
      workers := before ++ (if p.requestQueue.closed then .leaving else .waiting) :: after } := by
    rw [popRequest, hpop]
  refine ⟨?_, hstate⟩
  rw [hstate]
  refine h.threads rfl ?_
  rw [hworkers]
  refine (flatMap_held_set before after _).trans ?_
  rw [hheld]
  exact (flatMap_held_set before after .ready).symm

theorem Laid.coordinate (h : p.Laid ws rs) (hholding : p.coordinator = .holding a) (d : Dispatch) :
    Laid { p.dispatch a d with coordinator := .ready } ws rs := by
  refine h.free d rfl rfl rfl ?_ rfl rfl rfl rfl
  rw [places, hholding]
  exact List.perm_middle

theorem Laid.dispatch (h : p.Laid ws rs) {before after : List ThreadPhase}
    (hworkers : p.workers = before ++ .holding a :: after) (d : Dispatch) :
    Laid { p.dispatch a d with workers := before ++ .ready :: after } ws rs := by
  refine h.free d rfl rfl rfl ?_ rfl rfl rfl rfl
  show (ws ++ (p.coordinator.held ++ (rs ++ p.workers.flatMap ThreadPhase.held))).Perm
    (a :: (ws ++ (p.coordinator.held ++ (rs ++
      (before ++ ThreadPhase.ready :: after).flatMap ThreadPhase.held))))
  rw [hworkers]
  have hheld := (flatMap_held_set before after (.holding a)).trans
    ((flatMap_held_set before after .ready).symm.cons a)
  refine ((((hheld.append_left rs).trans List.perm_middle).append_left _).trans
    List.perm_middle).append_left ws |>.trans List.perm_middle

theorem Laid.worker (h : p.Laid ws rs) {before after : List ThreadPhase} {t t' : ThreadPhase}
    (hworkers : p.workers = before ++ t :: after) (hheld : t'.held = t.held) :
    Laid { p with workers := before ++ t' :: after } ws rs := by
  refine h.threads rfl ?_
  rw [hworkers]
  refine (flatMap_held_set before after t').trans ?_
  rw [hheld]
  exact (flatMap_held_set before after t).symm

theorem Laid.closeRequests (h : p.Laid ws rs) (hleaving : p.coordinator = .leaving) :
    p.closeRequests.Laid ws rs := by
  refine h.move h.work h.request (fun _ => rfl) (fun _ => rfl) ?_ rfl rfl rfl (Nat.le_refl _)
  show (ws ++ ([] ++ (rs ++ (p.workers.map ThreadPhase.wake).flatMap _))).Perm _
  rw [ThreadPhase.held_map_wake, places, hleaving]
  exact .refl _

theorem Laid.pass (h : p.Laid ws rs) : Laid { p with arrived := p.arrived + 1 } ws rs :=
  h.move h.work h.request (fun _ => rfl) (fun _ => rfl) (.refl _) rfl rfl rfl (Nat.le_succ _)

theorem Laid.stop (h : p.Laid ws rs) : p.stop.Laid ws rs := by
  refine h.move h.work h.request (fun _ => rfl) (fun _ => rfl) ?_ rfl rfl rfl (Nat.le_succ _)
  show (ws ++ (p.coordinator.wake.held ++ _)).Perm _
  rw [p.coordinator.held_wake]
  exact .refl _

end Threadpool

end TaskjugglerLsp
