import TaskjugglerLsp.DocumentStore
import TaskjugglerLsp.Lib.Pool

/-!
# The holders of the snapshots

Who refers to which snapshot, from one atomic operation on a reference count to
the next: the coordinator installs and clears parses, builds and publishes
workspace snapshots, pins them for queries and hands them to the diagnostics
workers, while query workers and diagnostics workers run.

Snapshots are names into two pools of counted objects; a workspace snapshot lists
the document snapshots of its documents.  A reference that a running call has
acquired and not yet stored, or has taken out of its place and not yet released, is
on the move.  A release can come at any later time, so there are more
interleavings here than the threads have.
-/

namespace TaskjugglerLsp

open Lib

/-- The references of a slot of `docs[]`. -/
structure DocRefs where
  snap : Option ℕ
  prevSnap : Option ℕ

/-- The references of a `query_context`; they are `none` once it is freed. -/
structure ContextRefs where
  ws : Option ℕ
  prevSnap : Option ℕ

/-- The references of a `diag_worker`, and those of its thread in `run_once`. -/
structure WorkerRefs where
  pending : Option ℕ
  running : Option ℕ
  stop : Bool

/-- What the coordinator is doing to references: nothing, or it is in the middle of
`build_workspace_snapshot` or between that and the swap in `publish_workspace_snapshot`,
in `diag_worker_request` before it has the lock, or in `build_query_context_locked`
after the first of its two acquires. -/
inductive Task
  | idle
  | building (docs : List ℕ) (todo : List Slot)
  | built (ws : ℕ)
  | requesting (k : ℕ) (ws : ℕ)
  | pinning (prevSnap : Option ℕ)

/-- The pools of snapshots, and all the references to them. -/
structure Refs where
  wss : Pool (List ℕ)
  snaps : Pool DocSnapshot
  published : Option ℕ
  docs : Slot → DocRefs
  contexts : List ContextRefs
  workers : List WorkerRefs
  task : Task
  wsLeaving : List ℕ
  docLeaving : List ℕ

namespace Task

/-- The workspace snapshot that the coordinator has in hand. -/
def wsInHand : Task → List ℕ
  | built ws => [ws]
  | requesting _ ws => [ws]
  | _ => []

/-- The document snapshots that the coordinator has in hand. -/
def docsInHand : Task → List ℕ
  | building docs _ => docs
  | pinning prevSnap => prevSnap.toList
  | _ => []

end Task

/-- The references of the documents. -/
def docsHeld (docs : Slot → DocRefs) : List ℕ :=
  (List.finRange maxDocs).flatMap fun i => (docs i).snap.toList ++ (docs i).prevSnap.toList

namespace Refs

/-- The server before its first message. -/
def start : Refs :=
  { wss := .empty, snaps := .empty, published := none, docs := fun _ => ⟨none, none⟩,
    contexts := [], workers := [], task := .idle, wsLeaving := [], docLeaving := [] }

variable (s : Refs)

/-- The holders of workspace snapshots: the published pointer, the query contexts, and
the pending and the running slots of the workers. -/
def wsHolders : List ℕ :=
  s.published.toList ++ s.contexts.flatMap (fun c => c.ws.toList) ++
    s.workers.flatMap fun w => w.pending.toList ++ w.running.toList

/-- The references to workspace snapshots that are on the move. -/
def wsMoving : List ℕ := s.task.wsInHand ++ s.wsLeaving

/-- The holders of document snapshots: the documents, the workspace snapshots that list
them, and the query contexts. -/
def docHolders : List ℕ :=
  docsHeld s.docs ++ s.wss.listed ++ s.contexts.flatMap fun c => c.prevSnap.toList

/-- The references to document snapshots that are on the move. -/
def docMoving : List ℕ := s.task.docsInHand ++ s.docLeaving

/-- All references to workspace snapshots. -/
def wsRefs : List ℕ := s.wsHolders ++ s.wsMoving

/-- All references to document snapshots. -/
def docRefs : List ℕ := s.docHolders ++ s.docMoving

/-- No call is in the middle of something. -/
def AtRest : Prop := s.task = .idle ∧ s.wsLeaving = [] ∧ s.docLeaving = []

/-- `doc_clear_parse_state`, up to its releases; `doc_free` does the same to the references. -/
def docClearParseState (i : Slot) : Refs :=
  { s with
    docs := Function.update s.docs i ⟨none, none⟩
    docLeaving := (s.docs i).snap.toList ++ (s.docs i).prevSnap.toList ++ s.docLeaving }

/-- `doc_install_parse`, up to its release. -/
def docInstallParse (i : Slot) (fresh : Option DocSnapshot) : Refs :=
  { s with
    snaps := fresh.elim s.snaps s.snaps.create
    docs := Function.update s.docs i ⟨fresh.map fun _ => s.snaps.next, (s.docs i).snap⟩
    docLeaving := (s.docs i).prevSnap.toList ++ s.docLeaving }

/-- `populate_ws_doc`, for a slot that holds a parse; another slot has no place in the snapshot. -/
def populateWsDoc (docs : List ℕ) (i : Slot) (todo : List Slot) : Refs :=
  { s with
    snaps := s.snaps.acquireRef (s.docs i).snap
    task := .building (docs ++ (s.docs i).snap.toList) todo }

/-- The end of `build_workspace_snapshot`. -/
def wsAlloc (docs : List ℕ) : Refs :=
  { s with
    wss := s.wss.create docs
    task := .built s.wss.next }

/-- `publish_workspace_snapshot`, up to its release. -/
def publish (ws : ℕ) : Refs :=
  { s with
    published := some ws
    task := .idle
    wsLeaving := s.published.toList ++ s.wsLeaving }

/-- `diag_worker_request`, up to the lock. -/
def diagWorkerRequest (k ws : ℕ) : Refs :=
  { s with
    wss := s.wss.acquire ws
    task := .requesting k ws }

/-- The references of a worker change, and some of them leave. -/
def setWorker (k : ℕ) (w : WorkerRefs) (leaving : Option ℕ) : Refs :=
  { s with
    workers := s.workers.set k w
    wsLeaving := leaving.toList ++ s.wsLeaving }

/-- `build_query_context_locked`, up to its first acquire: the previous parse of the
document of the request, if there is one. -/
def pinPrevSnap (primary : Option Slot) : Refs :=
  let prevSnap := primary.bind fun i => (s.docs i).prevSnap
  { s with
    snaps := s.snaps.acquireRef prevSnap
    task := .pinning prevSnap }

/-- The second acquire: the published snapshot. -/
def pinWs (prevSnap : Option ℕ) : Refs :=
  { s with
    wss := s.wss.acquireRef s.published
    contexts := s.contexts ++ [⟨s.published, prevSnap⟩]
    task := .idle }

/-- `query_context_free`, up to its releases. -/
def queryContextFree (k : ℕ) (c : ContextRefs) : Refs :=
  { s with
    contexts := s.contexts.set k ⟨none, none⟩
    wsLeaving := c.ws.toList ++ s.wsLeaving
    docLeaving := c.prevSnap.toList ++ s.docLeaving }

/-- `ws_release`: the last one frees the snapshot and goes on to its documents. -/
def wsRelease (a : ℕ) : Refs :=
  { s with
    wss := s.wss.release a
    wsLeaving := s.wsLeaving.erase a
    docLeaving := s.wss.dropped a ++ s.docLeaving }

/-- `docsnap_release`. -/
def docsnapRelease (a : ℕ) : Refs :=
  { s with
    snaps := s.snaps.release a
    docLeaving := s.docLeaving.erase a }

/-- One atomic operation on a count, or one thing that a thread does between two of them. -/
inductive Step : Refs → Refs → Prop
  | docClearParseState {s : Refs} (i : Slot) : s.task = .idle → Step s (s.docClearParseState i)
  | docInstallParse {s : Refs} (i : Slot) (fresh : Option DocSnapshot) : s.task = .idle →
      Step s (s.docInstallParse i fresh)
  | build {s : Refs} : s.task = .idle →
      Step s { s with task := .building [] (List.finRange maxDocs) }
  | populateWsDoc {s : Refs} {docs : List ℕ} {i : Slot} {todo : List Slot} :
      s.task = .building docs (i :: todo) → Step s (s.populateWsDoc docs i todo)
  | wsAlloc {s : Refs} {docs : List ℕ} : s.task = .building docs [] → Step s (s.wsAlloc docs)
  | publish {s : Refs} {ws : ℕ} : s.task = .built ws → Step s (s.publish ws)
  | spawn {s : Refs} : s.task = .idle →
      Step s { s with workers := s.workers ++ [⟨none, none, false⟩] }
  | request {s : Refs} {ws : ℕ} (k : ℕ) : s.task = .idle → s.published = some ws →
      k < s.workers.length → Step s (s.diagWorkerRequest k ws)
  | replace {s : Refs} {k ws : ℕ} {w : WorkerRefs} : s.task = .requesting k ws →
      s.workers[k]? = some w →
      Step s { s.setWorker k ⟨some ws, w.running, w.stop⟩ w.pending with task := .idle }
  | take {s : Refs} {k ws : ℕ} : s.workers[k]? = some ⟨some ws, none, false⟩ →
      Step s (s.setWorker k ⟨none, some ws, false⟩ none)
  | finish {s : Refs} {k ws : ℕ} {pending : Option ℕ} {stop : Bool} :
      s.workers[k]? = some ⟨pending, some ws, stop⟩ →
      Step s (s.setWorker k ⟨pending, none, stop⟩ (some ws))
  | stop {s : Refs} {k : ℕ} {w : WorkerRefs} : s.task = .idle → s.workers[k]? = some w →
      Step s (s.setWorker k ⟨w.pending, w.running, true⟩ none)
  | exit {s : Refs} {k : ℕ} {pending : Option ℕ} : s.workers[k]? = some ⟨pending, none, true⟩ →
      Step s (s.setWorker k ⟨none, none, true⟩ pending)
  | pinPrevSnap {s : Refs} (primary : Option Slot) : s.task = .idle → Step s (s.pinPrevSnap primary)
  | pinWs {s : Refs} {prevSnap : Option ℕ} : s.task = .pinning prevSnap → Step s (s.pinWs prevSnap)
  | queryContextFree {s : Refs} {k : ℕ} {c : ContextRefs} : s.contexts[k]? = some c →
      Step s (s.queryContextFree k c)
  | wsRelease {s : Refs} {a : ℕ} : a ∈ s.wsLeaving → Step s (s.wsRelease a)
  | docsnapRelease {s : Refs} {a : ℕ} : a ∈ s.docLeaving → Step s (s.docsnapRelease a)

/-- The states that the interleavings lead to. -/
def Reached : Refs → Prop := Relation.ReflTransGen Step start

end Refs

end TaskjugglerLsp
