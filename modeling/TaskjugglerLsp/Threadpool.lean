import TaskjugglerLsp.Lib.LinkedQueue
import TaskjugglerLsp.Server

/-!
# The queues and the threads

`job_queue.c` and `threadpool.c`, with the addresses of the jobs, the links between them and the
condition variables.  A step is what happens under one lock; a thread that sleeps on a condition
variable wakes when it is signalled, and may wake at any time.

Besides what the source has, a state records how many messages there have been, which of them have
become jobs, in which order the coordinator has taken those, and what has been dispatched.
-/

namespace TaskjugglerLsp

open Lib

/-! ### Queues -/

/-- `JobQueue`. -/
structure JobQueue extends LinkedQueue where
  closed : Bool

/-- `job_queue_create`. -/
def jobQueueCreate : JobQueue := ⟨.empty, false⟩

/-- `job_queue_push`, up to the signal. -/
def jobQueuePush (m : Memory Job) (q : JobQueue) (a : ℕ) : Memory Job × JobQueue :=
  let pushed := LinkedQueue.push m q.toLinkedQueue a
  (pushed.1, ⟨pushed.2, q.closed⟩)

/-- `job_queue_close`, up to the broadcast. -/
def jobQueueClose (q : JobQueue) : JobQueue := { q with closed := true }

/-- `job_queue_mark_cancelled_by_id`, over at most so many jobs. -/
def jobQueueMarkCancelledById (n : ℕ) (m : Memory Job) (q : JobQueue) (id : ℤ) : Memory Job :=
  LinkedQueue.visit (Job.markCancelledById id) n m q.head

/-- Where a thread is in its loop: before a queue, asleep on its condition variable, with a job, or
behind the loop. -/
inductive ThreadPhase where
  | ready
  | waiting
  | holding (a : ℕ)
  | leaving
  | exited
  deriving DecidableEq

namespace ThreadPhase

/-- A signal. -/
def wake : ThreadPhase → ThreadPhase
  | waiting => ready
  | p => p

/-- The job of a thread. -/
def held : ThreadPhase → List ℕ
  | holding a => [a]
  | _ => []

/-- The thread will look at its queue again. -/
def isAwake : ThreadPhase → Bool
  | ready | holding _ => true
  | _ => false

end ThreadPhase

/-- One round of the loop in `job_queue_pop`. -/
def jobQueuePop (m : Memory Job) (q : JobQueue) : ThreadPhase × JobQueue :=
  match LinkedQueue.pop m q.toLinkedQueue with
  | (some a, rest) => (.holding a, ⟨rest, q.closed⟩)
  | (none, _) => (if q.closed then .leaving else .waiting, q)

/-- `pthread_cond_signal`: one of the threads that wait wakes up, if there is one. -/
inductive Signals : List ThreadPhase → List ThreadPhase → Prop
  | one {before after : List ThreadPhase} :
      Signals (before ++ .waiting :: after) (before ++ .ready :: after)
  | none {threads : List ThreadPhase} (h : ThreadPhase.waiting ∉ threads) : Signals threads threads

/-! ### The pool -/

/-- What has been done with a job. -/
inductive Dispatch where
  | notification
  | cancelled
  | inline
  | query
  deriving DecidableEq

/-- What `coordinator` does with a job itself; none if it hands it on. -/
def coordinates (j : Job) : Option Dispatch :=
  if j.isNotification then some .notification
  else if j.isCancelled then some .cancelled
  else if kindOf j.request = some .inline then some .inline
  else none

/-- What `query_worker` does with a job. -/
def works (j : Job) : Dispatch := if j.isCancelled then .cancelled else .query

/-- The queues, the threads, and the jobs that there are. -/
structure Threadpool where
  memory : Memory Job
  workQueue : JobQueue
  requestQueue : JobQueue
  coordinator : ThreadPhase
  workers : List ThreadPhase
  marking : Option ℤ
  stopped : Bool
  arrived : ℕ
  enqueued : List ℕ
  taken : List ℕ
  dispatched : List (ℕ × Dispatch)

namespace Threadpool

/-- `threadpool_start`. -/
def start (workers : ℕ) : Threadpool :=
  { memory := fun _ => none, workQueue := jobQueueCreate, requestQueue := jobQueueCreate,
    coordinator := .ready, workers := List.replicate workers .ready, marking := none,
    stopped := false, arrived := 0, enqueued := [], taken := [], dispatched := [] }

variable (p : Threadpool)

/-- The place of a job in the inbound stream. -/
def arrivalAt (a : ℕ) : ℕ := ((p.memory a).map fun n => n.value.arrival).getD 0

/-- `threadpool_enqueue_job`, with a new job. -/
def enqueueJob (a : ℕ) (request : Json) : Threadpool :=
  let m := Function.update p.memory a (some ⟨newJob p.arrived request, none⟩)
  let pushed := jobQueuePush m p.workQueue a
  { p with
    memory := pushed.1
    workQueue := pushed.2
    coordinator := p.coordinator.wake
    arrived := p.arrived + 1
    enqueued := p.enqueued ++ [p.arrived] }

/-- The first half of `threadpool_cancel_by_id`. -/
def cancelWork (id : ℤ) : Threadpool :=
  { p with
    memory := jobQueueMarkCancelledById p.arrived p.memory p.workQueue id
    marking := some id
    arrived := p.arrived + 1 }

/-- The second half. -/
def cancelRequests (id : ℤ) : Threadpool :=
  { p with
    memory := jobQueueMarkCancelledById p.arrived p.memory p.requestQueue id
    marking := none }

/-- `threadpool_stop`, up to the joins. -/
def stop : Threadpool :=
  { p with
    workQueue := jobQueueClose p.workQueue
    coordinator := p.coordinator.wake
    stopped := true
    arrived := p.arrived + 1 }

/-- The coordinator looks at its queue. -/
def popWork : Threadpool :=
  let popped := jobQueuePop p.memory p.workQueue
  { p with
    coordinator := popped.1
    workQueue := popped.2
    taken := p.taken ++ popped.1.held.map p.arrivalAt }

/-- A job is dispatched, and `job_free`. -/
def dispatch (a : ℕ) (d : Dispatch) : Threadpool :=
  { p with
    memory := Function.update p.memory a none
    dispatched := p.dispatched ++ [(p.arrivalAt a, d)] }

/-- The coordinator hands a job on, up to the signal. -/
def handOn (a : ℕ) : Threadpool :=
  let pushed := jobQueuePush p.memory p.requestQueue a
  { p with memory := pushed.1, requestQueue := pushed.2 }

/-- The coordinator ends. -/
def closeRequests : Threadpool :=
  { p with
    requestQueue := jobQueueClose p.requestQueue
    workers := p.workers.map ThreadPhase.wake
    coordinator := .exited }

/-- A worker looks at its queue. -/
def popRequest (before after : List ThreadPhase) : Threadpool :=
  let popped := jobQueuePop p.memory p.requestQueue
  { p with workers := before ++ popped.1 :: after, requestQueue := popped.2 }

end Threadpool

/-- **One step of a thread** of the pool. -/
inductive Threadpool.Acts : Threadpool → Threadpool → Prop
  | popWork {p : Threadpool} : p.coordinator = .ready → Acts p p.popWork
  | coordinate {p : Threadpool} {a : ℕ} {n : LinkedNode Job} {d : Dispatch} :
      p.coordinator = .holding a → p.memory a = some n → coordinates n.value = some d →
      Acts p { p.dispatch a d with coordinator := .ready }
  | handOn {p : Threadpool} {a : ℕ} {n : LinkedNode Job} {workers : List ThreadPhase} :
      p.coordinator = .holding a → p.memory a = some n → coordinates n.value = none →
      Signals p.workers workers → Acts p { p.handOn a with coordinator := .ready, workers := workers }
  | closeRequests {p : Threadpool} : p.coordinator = .leaving → Acts p p.closeRequests
  | popRequest {p : Threadpool} {before after : List ThreadPhase} :
      p.workers = before ++ .ready :: after → Acts p (p.popRequest before after)
  | work {p : Threadpool} {a : ℕ} {n : LinkedNode Job} {before after : List ThreadPhase} :
      p.workers = before ++ .holding a :: after → p.memory a = some n →
      Acts p { p.dispatch a (works n.value) with workers := before ++ .ready :: after }
  | exit {p : Threadpool} {before after : List ThreadPhase} :
      p.workers = before ++ .leaving :: after →
      Acts p { p with workers := before ++ .exited :: after }

/-- A thread wakes without a signal. -/
inductive Threadpool.Wakes : Threadpool → Threadpool → Prop
  | coordinator {p : Threadpool} : p.coordinator = .waiting → Wakes p { p with coordinator := .ready }
  | worker {p : Threadpool} {before after : List ThreadPhase} :
      p.workers = before ++ .waiting :: after →
      Wakes p { p with workers := before ++ .ready :: after }

/-- **One step of the pool**: of one of its threads, or of the reader, which has read a message: one
that it makes a job of, one that cancels a request, in two halves, one that it does nothing about, or
the last one. -/
inductive Threadpool.Step : Threadpool → Threadpool → Prop
  | acts {p p' : Threadpool} (h : Acts p p') : Step p p'
  | wakes {p p' : Threadpool} (h : Wakes p p') : Step p p'
  | enqueue {p : Threadpool} {a : ℕ} {request : Json} : p.stopped = false → p.marking = none →
      enqueues request = true → p.memory a = none → Step p (p.enqueueJob a request)
  | cancel {p : Threadpool} {request : Json} {id : ℤ} : p.stopped = false → p.marking = none →
      methodOf request = cstr "$/cancelRequest" →
      Json.getSint (Json.objGet (paramsOf request) "id") = some id → Step p (p.cancelWork id)
  | mark {p : Threadpool} {id : ℤ} : p.marking = some id → Step p (p.cancelRequests id)
  | pass {p : Threadpool} : p.stopped = false → p.marking = none →
      Step p { p with arrived := p.arrived + 1 }
  | stop {p : Threadpool} : p.stopped = false → p.marking = none → Step p p.stop

/-- The states that a pool can get into. -/
def Threadpool.Reached (workers : ℕ) : Threadpool → Prop :=
  Relation.ReflTransGen Threadpool.Step (Threadpool.start workers)

/-- The threads on their own, with so many steps and so many times that one wakes. -/
inductive Threadpool.Runs : ℕ → ℕ → Threadpool → Threadpool → Prop
  | refl (p : Threadpool) : Runs 0 0 p p
  | acts {n k : ℕ} {p p' p'' : Threadpool} : Runs n k p p' → Acts p' p'' → Runs (n + 1) k p p''
  | wakes {n k : ℕ} {p p' p'' : Threadpool} : Runs n k p p' → Wakes p' p'' → Runs n (k + 1) p p''

end TaskjugglerLsp
