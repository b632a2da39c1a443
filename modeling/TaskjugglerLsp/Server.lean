import Mathlib.Logic.Relation
import TaskjugglerLsp.Lib.RefCount
import TaskjugglerLsp.Lifecycle.Publication
import TaskjugglerLsp.QueryContext

/-!
# The server

`server.c`, `threadpool.c` and `job_queue.c`.  The reader takes messages in and
turns them into jobs; the coordinator handles the jobs one by one and hands the
queries on; workers answer what it hands on.  `Server.Step` interleaves them.

Besides the queues and what the threads have in hand, a state records what the
source does not: the place of every message in the inbound stream, the log
of what the coordinator has handled and which files there were at the time, and
the responses that were made, written or not.
-/

namespace TaskjugglerLsp

open Lib.RefCount

/-! ### Messages and responses -/

/-- The method of a message, empty where it has none. -/
def methodOf (root : Json) : CStr := (Json.strField (some root) "method").getD []

def paramsOf (root : Json) : Option Json := Json.objGet (some root) "params"

def idOf (root : Json) : Option Json := Json.objGet (some root) "id"

/-- `copy_id`.  A negative integer goes through an `int`. -/
def copyId : Option Json → Json
  | some (.str s) => .str (cutNul s)
  | some (.int n) => .int (if 0 ≤ n then n else n.bmod (2 ^ 32))
  | some (.real q) => .real q
  | _ => .null

/-- `make_response`. -/
def makeResponse (id : Option Json) (result : Json) : Json :=
  .obj [("jsonrpc", .str (cstr "2.0")), ("id", copyId id), ("result", result)]

/-- `make_error_response`. -/
def makeErrorResponse (id : Option Json) (code : ℤ) (message : String) : Json :=
  .obj [("jsonrpc", .str (cstr "2.0")), ("id", copyId id),
    ("error", .obj [("code", .int code), ("message", .str (cstr message))])]

/-! ### The method table -/

/-- How a method is executed (`method_kind`). -/
inductive MethodKind where
  | notification
  | inline
  | query
  deriving DecidableEq

/-- One method that the server understands; the handler is given by the event that it is. -/
structure MethodEntry where
  method : String
  kind : MethodKind
  event : Option Json → Event
  wantAllDocs : Bool

/-- The entry of a query about one document. -/
def documentQuery (method : String) : MethodEntry :=
  ⟨method, .query, .query (cstr method), false⟩

/-- The method table. -/
def methods : List MethodEntry :=
  [⟨"initialized", .notification, fun _ => .initialized, false⟩,
    ⟨"textDocument/didOpen", .notification, .didOpen, false⟩,
    ⟨"textDocument/didChange", .notification, .didChange, false⟩,
    ⟨"textDocument/didClose", .notification, .didClose, false⟩,
    ⟨"workspace/didChangeWatchedFiles", .notification, .didChangeWatchedFiles, false⟩,
    ⟨"workspace/didRenameFiles", .notification, .didRenameFiles, false⟩,
    ⟨"initialize", .inline, .initRequest, false⟩,
    ⟨"shutdown", .inline, .query (cstr "shutdown"), false⟩,
    documentQuery "textDocument/documentSymbol",
    documentQuery "textDocument/foldingRange",
    documentQuery "textDocument/codeLens",
    documentQuery "textDocument/hover",
    documentQuery "textDocument/signatureHelp",
    documentQuery "textDocument/references",
    documentQuery "textDocument/documentHighlight",
    documentQuery "textDocument/definition",
    documentQuery "textDocument/completion",
    documentQuery "textDocument/semanticTokens/full",
    documentQuery "textDocument/semanticTokens/full/delta",
    ⟨"workspace/symbol", .query, .query (cstr "workspace/symbol"), true⟩]

/-- `method_lookup`. -/
def methodLookup (m : CStr) : Option MethodEntry := methods.find? (cstr ·.method = m)

/-- The kind of a message, if its method is in the table. -/
def kindOf (root : Json) : Option MethodKind := (methodLookup (methodOf root)).map (·.kind)

/-- The results that handlers put into their responses: the capabilities, and what a query finds
in its context. -/
structure Handlers where
  capabilities : Json
  query : String → Option Json → QueryContext → Json

/-- The result of an inline request; `handle_shutdown` answers null. -/
def Handlers.inline (handlers : Handlers) (method : String) : Json :=
  if method = "initialize" then handlers.capabilities else .null

/-! ### Jobs -/

/-- `has_id` and `id` of a job: integers only. -/
def jobId (root : Json) : Option ℤ := Json.getSint (idOf root)

/-- One message on its way to the coordinator, with its place in the inbound stream. -/
structure Job where
  arrival : ℕ
  request : Json
  id : Option ℤ
  isNotification : Bool
  isCancelled : Bool
  id_eq : id = jobId request
  isNotification_eq : isNotification = decide (kindOf request = some .notification)
  id_of_cancelled : isCancelled = true → id.isSome = true

/-- The job that the reader makes of a message. -/
def newJob (arrival : ℕ) (request : Json) : Job :=
  ⟨arrival, request, jobId request, decide (kindOf request = some .notification), false, rfl, rfl,
    fun h => Bool.noConfusion h⟩

/-- The address of a published snapshot. -/
abbrev Address := ℕ

/-- A job that the coordinator has handed on, with the query context and the snapshot it holds. -/
structure QueryJob extends Job where
  pin : Option Address
  context : QueryContext
  not_notification : isNotification = false
  not_inline : kindOf request ≠ some .inline

/-- One round of `job_queue_mark_cancelled_by_id`. -/
def Job.markCancelledById (id : ℤ) (j : Job) : Job :=
  if h : j.isNotification = false ∧ j.id = some id then
    { j with
      isCancelled := true
      id_of_cancelled := fun _ => by rw [h.2, Option.isSome_some] }
  else j

theorem Job.markCancelledById_frame (id : ℤ) (j : Job) :
    (j.markCancelledById id).arrival = j.arrival ∧ (j.markCancelledById id).request = j.request := by
  unfold markCancelledById
  split <;> exact ⟨rfl, rfl⟩

theorem Job.isNotification_iff (j : Job) :
    j.isNotification = true ↔ kindOf j.request = some .notification := by
  rw [j.isNotification_eq, decide_eq_true_iff]

def QueryJob.markCancelledById (id : ℤ) (q : QueryJob) : QueryJob :=
  { q with
    toJob := q.toJob.markCancelledById id
    not_notification := by
      rw [(q.toJob.markCancelledById id).isNotification_eq, (q.toJob.markCancelledById_frame id).2,
        ← q.isNotification_eq, q.not_notification]
    not_inline := by
      rw [(q.toJob.markCancelledById_frame id).2]
      exact q.not_inline }

/-! ### The state -/

/-- A response on the wire, and the place of the message that it answers. -/
structure Sent where
  arrival : ℕ
  response : Json
  text : CStr

/-- A job that the coordinator has handled, and the files there were at the time. -/
structure Handled where
  arrival : ℕ
  request : Json
  world : World
  cancelled : Bool

/-- The threads, the queues between them, and what they share. -/
structure Server where
  inbox : List (Option Json)
  arrived : ℕ
  marking : Option ℤ
  stopped : Bool
  workQueue : List Job
  coordinating : Option Job
  requestQueue : List QueryJob
  running : List QueryJob
  live : ServerState
  heap : Heap Address WorkspaceSnapshot
  current : Option Address
  log : List Handled
  made : List (ℕ × Json)
  sent : List Sent

/-- The server before the first message; a message that cannot be parsed is `none`. -/
def Server.start (inbound : List (Option Json)) : Server :=
  { inbox := inbound, arrived := 0, marking := none, stopped := false, workQueue := [],
    coordinating := none, requestQueue := [], running := [], live := initialState,
    heap := fun _ => none, current := none, log := [], made := [], sent := [] }

/-- `ws_acquire`. -/
def wsAcquire (ws : Option Address) (h : Heap Address WorkspaceSnapshot) :
    Heap Address WorkspaceSnapshot :=
  ws.elim h h.acquire

/-- `ws_release`. -/
def wsRelease (ws : Option Address) (h : Heap Address WorkspaceSnapshot) :
    Heap Address WorkspaceSnapshot :=
  ws.elim h h.release

/-! ### The reader -/

/-- Whether `server_process` makes a job of a message. -/
def enqueues (root : Json) : Bool :=
  decide (methodOf root ≠ cstr "exit" ∧ methodOf root ≠ cstr "$/cancelRequest")

/-- `server_process` on a message that can be parsed, up to the second half of
`threadpool_cancel_by_id`. -/
def serverProcess (root : Json) (arrival : ℕ) (s : Server) : Server :=
  if methodOf root = cstr "exit" then { s with stopped := true }
  else if methodOf root = cstr "$/cancelRequest" then
    match Json.getSint (Json.objGet (paramsOf root) "id") with
    | some id =>
      { s with workQueue := s.workQueue.map (Job.markCancelledById id), marking := some id }
    | none => s
  else { s with workQueue := s.workQueue ++ [newJob arrival root] }

/-- One round of the loop in `main`. -/
def reader (message : Option Json) (inbox : List (Option Json)) (s : Server) : Server :=
  let s' := { s with inbox := inbox, arrived := s.arrived + 1 }
  match message with
  | some root => serverProcess root s.arrived s'
  | none => s'

section Threads

variable (parse : CStr → ParseOutput) (write : Json → Option CStr) (handlers : Handlers)

/-! ### The coordinator -/

/-- `send_response`.  Nothing is sent where `yyjson_mut_write` fails. -/
def Server.sendResponse (arrival : ℕ) (resp : Json) (s : Server) : Server :=
  let s' := { s with made := s.made ++ [(arrival, resp)] }
  match write resp with
  | some text => { s' with sent := s.sent ++ [⟨arrival, resp, text⟩] }
  | none => s'

/-- `publish_workspace_snapshot`, as far as `g_ws` goes: the new snapshot goes to a free address. -/
def Server.publish (a : Address) (s : Server) : Server :=
  match s.live.ws with
  | some ws => { s with heap := wsRelease s.current (s.heap.create a ws), current := some a }
  | none => s

/-- A handler of the table runs on the live store. -/
def Server.handle (w : World) (a : Address) (e : Event) (s : Server) : Server :=
  let s' := { s with live := e.apply w parse s.live }
  if e.republishes w parse s.live then s'.publish a else s'

/-- `server_dispatch_notification`. -/
def serverDispatchNotification (w : World) (a : Address) (j : Job) (s : Server) : Server :=
  match methodLookup (methodOf j.request) with
  | some entry =>
    if entry.kind = .notification then s.handle parse w a (entry.event (paramsOf j.request)) else s
  | none => s

/-- `server_dispatch_cancelled`. -/
def serverDispatchCancelled (j : Job) (s : Server) : Server :=
  match idOf j.request with
  | some id =>
    s.sendResponse write j.arrival (makeErrorResponse (some id) (-32800) "Request cancelled")
  | none => s

/-- The second half of `server_coordinate_query`, and the push that follows it: the context is
pinned before anything else can change the store. -/
def Server.handOn (w : World) (j : Job) (wantAllDocs : Bool) (hn : j.isNotification = false)
    (hi : kindOf j.request ≠ some .inline) (s : Server) : Server :=
  { s with
    heap := wsAcquire s.current s.heap
    requestQueue := s.requestQueue ++
      [{ j with
          pin := s.current
          context := buildQueryContext w.realpath s.live (requestPrimaryUri (paramsOf j.request))
            wantAllDocs
          not_notification := hn
          not_inline := hi }] }

/-- The first half: an inline request. -/
def Server.answerInline (w : World) (a : Address) (entry : MethodEntry) (j : Job) (s : Server) :
    Server :=
  (s.handle parse w a (entry.event (paramsOf j.request))).sendResponse write j.arrival
    (makeResponse (idOf j.request) (handlers.inline entry.method))

/-- `server_coordinate_query`. -/
def serverCoordinateQuery (w : World) (a : Address) (j : Job) (hn : j.isNotification = false)
    (s : Server) : Server :=
  match h : methodLookup (methodOf j.request) with
  | some entry =>
    if hk : entry.kind = .inline then s.answerInline parse write handlers w a entry j
    else
      s.handOn w j entry.wantAllDocs hn (by rw [kindOf, h, Option.map_some]; simpa using hk)
  | none => s.handOn w j false hn (by rw [kindOf, h]; exact nofun)

/-- One round of `coordinator`, from when it has popped a job. -/
def coordinator (w : World) (a : Address) (j : Job) (s : Server) : Server :=
  let s' :=
    { s with
      coordinating := none
      log := s.log ++ [⟨j.arrival, j.request, w, j.isCancelled⟩] }
  if hn : j.isNotification = true then serverDispatchNotification parse w a j s'
  else if j.isCancelled then serverDispatchCancelled write j s'
  else serverCoordinateQuery parse write handlers w a j (Bool.not_eq_true _ ▸ hn) s'

/-! ### The workers -/

/-- The response of `server_run_query`; a method that is not a query gets a null result. -/
def queryResponse (q : QueryJob) : Option Json :=
  match (methodLookup (methodOf q.request)).filter (·.kind = .query) with
  | some entry =>
    some (makeResponse (idOf q.request)
      (handlers.query entry.method (paramsOf q.request) q.context))
  | none => (idOf q.request).map fun id => makeResponse (some id) .null

/-- `server_run_query`. -/
def serverRunQuery (q : QueryJob) (s : Server) : Server :=
  match queryResponse handlers q with
  | some resp => s.sendResponse write q.arrival resp
  | none => s

/-- One round of `query_worker`, from when it has popped a job, and `job_free`. -/
def queryWorker (q : QueryJob) (s : Server) : Server :=
  let s' :=
    if q.isCancelled then serverDispatchCancelled write q.toJob s
    else serverRunQuery write handlers q s
  { s' with heap := wsRelease q.pin s'.heap }

/-! ### Steps and runs -/

/-- One step of one of the threads, with some number of workers. -/
inductive Server.Step (workers : ℕ) : Server → Server → Prop
  | read {s : Server} {message : Option Json} {inbox : List (Option Json)} :
      s.marking = none → s.stopped = false → s.inbox = message :: inbox →
      Step workers s (reader message inbox s)
  | mark {s : Server} {id : ℤ} : s.marking = some id →
      Step workers s
        { s with
          marking := none
          requestQueue := s.requestQueue.map (QueryJob.markCancelledById id) }
  | pop {s : Server} {j : Job} {q : List Job} : s.coordinating = none → s.workQueue = j :: q →
      Step workers s { s with workQueue := q, coordinating := some j }
  | coordinate {s : Server} {j : Job} (w : World) (a : Address) : s.coordinating = some j →
      s.heap a = none → Step workers s (coordinator parse write handlers w a j s)
  | take {s : Server} {q : QueryJob} {rest : List QueryJob} : s.requestQueue = q :: rest →
      s.running.length < workers →
      Step workers s { s with requestQueue := rest, running := q :: s.running }
  | work {s : Server} {q : QueryJob} {before after : List QueryJob} :
      s.running = before ++ q :: after →
      Step workers s (queryWorker write handlers q { s with running := before ++ after })

/-- `NUM_QUERY_WORKERS`. -/
def numQueryWorkers : ℕ := 4

/-- The states that the server can get into when it is sent some messages. -/
def Server.Reached (workers : ℕ) (inbound : List (Option Json)) : Server → Prop :=
  Relation.ReflTransGen (Server.Step parse write handlers workers) (Server.start inbound)

end Threads

end TaskjugglerLsp
