import TaskjugglerLsp.DiagWorker.Threads
import TaskjugglerLsp.Lifecycle.Events

/-!
# The registry of diagnostics workers

The second half of `diag_worker.c`, and what the coordinator sends around it:
empty diagnostics for a document that is closed or renamed, then for every
document of the editor once a snapshot is published, then the update of the
registry.  The threads of the workers take their steps in between.

A worker that is retired leaves the registry at once; the coordinator then waits
for its thread to end.  Failing to start a thread is not modelled, nor is the
shutdown.
-/

namespace TaskjugglerLsp

/-- A worker in `g_workers`. -/
structure Registered where
  worker : DiagWorker
  seen : Bool

/-- Where the coordinator is: between two messages; handling one that changes the documents;
sending the empty baseline; in the loop of `diag_registry_update` over the projects, about to find,
to spawn or to request; in the loop over the workers; waiting for a thread to end. -/
inductive CoordinatorPc where
  | idle
  | handling
  | baseline (todo : List CStr)
  | acquiring (todo : List WsProject)
  | spawning (project : WsProject) (todo : List WsProject)
  | requesting (i : ℕ) (project : WsProject) (todo : List WsProject)
  | sweeping (i : ℕ)
  | joining (worker : DiagWorker) (next : CoordinatorPc)

/-- The coordinator, the workers, and every publishDiagnostics message sent so far. -/
structure DiagSystem where
  latest : Option WsRef
  registry : List Registered
  pc : CoordinatorPc
  sent : List Publication

/-- Before the first message. -/
def DiagSystem.initial : DiagSystem := ⟨none, [], .idle, []⟩

/-- `registry_find`: the position of a worker. -/
def registryFind (registry : List Registered) (projectId : CStr) : Option ℕ :=
  registry.findIdx? (·.worker.projectId = projectId)

/-- `registry_remove_at`: the last worker takes the place. -/
def registryRemoveAt (registry : List Registered) (i : ℕ) : List Registered :=
  match registry.getLast? with
  | some e => (registry.set i e).dropLast
  | none => registry

/-- The mode of the worker of a project. -/
def WsProject.mode (p : WsProject) : Tj3Mode := if p.fromCompileCommands then .full else .syntaxOnly

/-- The documents that `republish_all_diagnostics` goes through. -/
def editorUris (s : Store) : List CStr :=
  (List.finRange maxDocs).filterMap fun i =>
    (s i).bind fun d => if d.diskOnly then none else some d.uri

/-- Who takes a step. -/
inductive DiagParty where
  | coordinator
  | member (i : ℕ)
  | leaver
  deriving DecidableEq

section Step

variable (parse : CStr → ParseOutput)

/-- One step of the coordinator or of a thread, with the message that it sends. -/
inductive DiagSystem.Step : DiagSystem → DiagParty → Option Publication → DiagSystem → Prop
  | receive {s : DiagSystem} : s.pc = .idle → Step s .coordinator none { s with pc := .handling }
  | clear {s : DiagSystem} (uri : CStr) : s.pc = .handling →
      Step s .coordinator (some ⟨uri, []⟩) { s with sent := s.sent ++ [⟨uri, []⟩] }
  | publish {s : DiagSystem} {w : World} {st : ServerState} {ws : WorkspaceSnapshot} :
      s.pc = .handling → Visited parse st →
      buildWorkspaceSnapshot w.realpath st.docs st.cc.status = some ws →
      Step s .coordinator none
        { s with
          latest := some ⟨s.latest.elim 0 (·.id + 1), ws⟩
          pc := .baseline (editorUris st.docs) }
  | baseline {s : DiagSystem} {uri : CStr} {todo : List CStr} : s.pc = .baseline (uri :: todo) →
      Step s .coordinator (some ⟨uri, []⟩)
        { s with
          pc := .baseline todo
          sent := s.sent ++ [⟨uri, []⟩] }
  | update {s : DiagSystem} {latest : WsRef} : s.pc = .baseline [] → s.latest = some latest →
      Step s .coordinator none
        { s with
          registry := s.registry.map fun e => { e with seen := false }
          pc := .acquiring latest.ws.projects }
  | found {s : DiagSystem} {p : WsProject} {todo : List WsProject} {i : ℕ} {e : Registered} :
      s.pc = .acquiring (p :: todo) → registryFind s.registry p.id = some i →
      s.registry[i]? = some e → e.worker.mode = p.mode →
      Step s .coordinator none { s with pc := .requesting i p todo }
  | flipped {s : DiagSystem} {p : WsProject} {todo : List WsProject} {i : ℕ} {e : Registered} :
      s.pc = .acquiring (p :: todo) → registryFind s.registry p.id = some i →
      s.registry[i]? = some e → e.worker.mode ≠ p.mode → e.worker.pc ≠ .testing →
      Step s .coordinator none
        { s with
          registry := registryRemoveAt s.registry i
          pc := .joining (diagWorkerStop e.worker true) (.spawning p todo) }
  | missing {s : DiagSystem} {p : WsProject} {todo : List WsProject} :
      s.pc = .acquiring (p :: todo) → registryFind s.registry p.id = none →
      Step s .coordinator none { s with pc := .spawning p todo }
  | spawn {s : DiagSystem} {p : WsProject} {todo : List WsProject} : s.pc = .spawning p todo →
      Step s .coordinator none
        { s with
          registry := s.registry ++ [⟨diagWorkerSpawn p.id p.mode, false⟩]
          pc := .requesting s.registry.length p todo }
  | request {s : DiagSystem} {i : ℕ} {p : WsProject} {todo : List WsProject} {e : Registered}
      {latest : WsRef} : s.pc = .requesting i p todo → s.registry[i]? = some e →
      e.worker.pc ≠ .testing → s.latest = some latest →
      Step s .coordinator none
        { s with
          registry := s.registry.set i ⟨diagWorkerRequest e.worker latest, true⟩
          pc := .acquiring todo }
  | sweep {s : DiagSystem} : s.pc = .acquiring [] →
      Step s .coordinator none { s with pc := .sweeping 0 }
  | keep {s : DiagSystem} {i : ℕ} {e : Registered} : s.pc = .sweeping i →
      s.registry[i]? = some e → e.seen = true →
      Step s .coordinator none { s with pc := .sweeping (i + 1) }
  | drop {s : DiagSystem} {i : ℕ} {e : Registered} : s.pc = .sweeping i →
      s.registry[i]? = some e → e.seen = false → e.worker.pc ≠ .testing →
      Step s .coordinator none
        { s with
          registry := registryRemoveAt s.registry i
          pc := .joining (diagWorkerStop e.worker true) (.sweeping i) }
  | done {s : DiagSystem} {i : ℕ} : s.pc = .sweeping i → s.registry.length ≤ i →
      Step s .coordinator none { s with pc := .idle }
  | join {s : DiagSystem} {w : DiagWorker} {next : CoordinatorPc} : s.pc = .joining w next →
      w.pc = .exited → Step s .coordinator none { s with pc := next }
  | work {s : DiagSystem} {i : ℕ} {e : Registered} {w : DiagWorker} {m : Option Publication} :
      s.registry[i]? = some e → e.worker.Thread m w →
      Step s (.member i) m
        { s with
          registry := s.registry.set i { e with worker := w }
          sent := s.sent ++ m.toList }
  | leave {s : DiagSystem} {w w' : DiagWorker} {next : CoordinatorPc} {m : Option Publication} :
      s.pc = .joining w next → w.Thread m w' →
      Step s .leaver m
        { s with
          pc := .joining w' next
          sent := s.sent ++ m.toList }

/-- The states that some steps lead to, each of which meets a condition. -/
inductive DiagSystem.Reached (ok : DiagSystem → DiagParty → Option Publication → Prop) :
    DiagSystem → Prop
  | initial : Reached ok .initial
  | step {s s' : DiagSystem} {who : DiagParty} {m : Option Publication} : Reached ok s →
      Step parse s who m s' → ok s who m → Reached ok s'

end Step

/-! ### What is to be shown -/

/-- The URI of the project that a document of a snapshot belongs to. -/
def WorkspaceSnapshot.ownerOf (ws : WorkspaceSnapshot) (uri : CStr) : Option CStr := do
  let wd ← ws.docs.find? (·.snap.uri = uri)
  let project ← ws.projects[← wd.projectIndex]?
  some project.id

namespace DiagSystem

/-- The worker of a project. -/
def workerOf (s : DiagSystem) (projectId : CStr) : Option DiagWorker :=
  (s.registry.find? (·.worker.projectId = projectId)).map (·.worker)

/-- What the worker of the project that owns a URI has found in its last run. -/
def expected (s : DiagSystem) (uri : CStr) : List Diagnostic :=
  ((s.latest.bind (·.ws.ownerOf uri)).bind s.workerOf).elim [] (·.lastSet.items uri)

/-- The coordinator is done with the latest snapshot, and every worker sleeps. -/
def Settled (s : DiagSystem) : Prop :=
  s.pc = .idle ∧ ∀ e ∈ s.registry, e.worker.pc = .waiting

/-- The workers are those of the projects of the latest snapshot, each of them has last run on it,
and the client shows what they have found. -/
def Converged (s : DiagSystem) : Prop :=
  (∀ latest, s.latest = some latest →
    (∀ p ∈ latest.ws.projects, (s.workerOf p.id).isSome) ∧
    ∀ e ∈ s.registry, ∃ set, e.worker.ran.getLast? = some (latest, set) ∧
      e.worker.Collects latest set) ∧
  ∀ uri, markers s.sent uri = s.expected uri

end DiagSystem

/-! ### Hand-overs -/

/-- The message is not one that another thread sends about a URI for which a worker has already
sent what it has found in the latest snapshot. -/
def DiagSystem.NotOvertaken (s : DiagSystem) (who : DiagParty) (m : Option Publication) : Prop :=
  who ≠ .coordinator → ∀ latest, s.latest = some latest → ∀ m', m = some m' →
    ∀ i e, s.registry[i]? = some e → who ≠ .member i → ¬ e.worker.HasPublished latest m'.uri

end TaskjugglerLsp
