import TaskjugglerLsp.Lib.Arrivals
import TaskjugglerLsp.Server

/-!
# How jobs flow through the server

What each thread touches (`coordinator_frame`, `queryWorker_frame`), and the order
of the jobs: what the coordinator has handled, followed by what still waits for it,
is what has arrived, in the order of arrival (`Server.Reached.inOrder`).

Every run comes to an end: a step lowers `Server.work`, and a state without steps
has no jobs left in it (`Server.Reached.ended`).
-/

namespace TaskjugglerLsp

open Lib.Arrivals Lib.RefCount

section Frames

variable (parse : CStr → ParseOutput) (write : Json → Option CStr) (handlers : Handlers)

/-! ### What the threads touch -/

theorem sendResponse_frame (arrival : ℕ) (resp : Json) (s : Server) :
    ∃ sent made, s.sendResponse write arrival resp
      = { s with sent := sent, made := made } := by
  unfold Server.sendResponse
  cases write resp <;> exact ⟨_, _, rfl⟩

theorem serverDispatchCancelled_frame (j : Job) (s : Server) :
    ∃ sent made, serverDispatchCancelled write j s
      = { s with sent := sent, made := made } := by
  unfold serverDispatchCancelled
  cases idOf j.request with
  | none => exact ⟨_, _, rfl⟩
  | some id => exact sendResponse_frame write _ _ s

theorem handle_frame (w : World) (a : Address) (e : Event) (s : Server) :
    ∃ heap current, s.handle parse w a e
      = { s with live := e.apply w parse s.live, heap := heap, current := current } := by
  simp only [Server.handle, Server.publish]
  split
  · cases (e.apply w parse s.live).ws <;> exact ⟨_, _, rfl⟩
  · exact ⟨_, _, rfl⟩

theorem answerInline_frame (w : World) (a : Address) (entry : MethodEntry) (j : Job) (s : Server) :
    ∃ live heap current sent made, s.answerInline parse write handlers w a entry j
      = { s with
          live := live
          heap := heap
          current := current
          sent := sent
          made := made } := by
  obtain ⟨heap, current, h⟩ := handle_frame parse w a (entry.event (paramsOf j.request)) s
  rw [Server.answerInline, h]
  obtain ⟨sent, made, h'⟩ := sendResponse_frame write j.arrival
    (makeResponse (idOf j.request) (handlers.inline entry.method))
    { s with
      live := (entry.event (paramsOf j.request)).apply w parse s.live
      heap := heap
      current := current }
  exact ⟨_, _, _, _, _, h'⟩

theorem serverCoordinateQuery_cases (w : World) (a : Address) (j : Job)
    (hn : j.isNotification = false) (s : Server) :
    (∃ entry, methodLookup (methodOf j.request) = some entry ∧ entry.kind = .inline ∧
      serverCoordinateQuery parse write handlers w a j hn s
        = s.answerInline parse write handlers w a entry j) ∨
    (∃ hi, serverCoordinateQuery parse write handlers w a j hn s
      = s.handOn w j ((methodLookup (methodOf j.request)).any (·.wantAllDocs)) hn hi) := by
  unfold serverCoordinateQuery
  split
  · rename_i entry h
    by_cases hk : entry.kind = .inline
    · rw [dif_pos hk]
      exact Or.inl ⟨entry, h, hk, rfl⟩
    · rw [dif_neg hk]
      have hi : kindOf j.request ≠ some .inline := by
        rw [kindOf, h, Option.map_some, ne_eq, Option.some.injEq]
        exact hk
      have hall : (methodLookup (methodOf j.request)).any (·.wantAllDocs) = entry.wantAllDocs := by
        rw [h, Option.any_some]
      refine Or.inr ⟨hi, ?_⟩
      rw [hall]
  · rename_i h
    have hi : kindOf j.request ≠ some .inline := by
      rw [kindOf, h]
      intro heq
      cases heq
    have hall : (methodLookup (methodOf j.request)).any (·.wantAllDocs) = false := by
      rw [h, Option.any_none]
    refine Or.inr ⟨hi, ?_⟩
    rw [hall]

/-- The log entry of a job. -/
def Job.handled (w : World) (j : Job) : Handled := ⟨j.arrival, j.request, w, j.isCancelled⟩

/-- The coordinator is about to handle the job that it has in hand. -/
def Server.logged (w : World) (j : Job) (s : Server) : Server :=
  { s with coordinating := none, log := s.log ++ [j.handled w] }

/-- The four things that can become of a job. -/
inductive Coordinated (parse : CStr → ParseOutput) (write : Json → Option CStr)
    (handlers : Handlers) (w : World) (a : Address) (j : Job) (s : Server) : Server → Prop
  | notified {entry : MethodEntry} : methodLookup (methodOf j.request) = some entry →
      entry.kind = .notification → Coordinated parse write handlers w a j s
        ((s.logged w j).handle parse w a (entry.event (paramsOf j.request)))
  | cancelled : j.isNotification = false → j.isCancelled = true →
      Coordinated parse write handlers w a j s (serverDispatchCancelled write j (s.logged w j))
  | inline {entry : MethodEntry} : methodLookup (methodOf j.request) = some entry →
      entry.kind = .inline → j.isCancelled = false → Coordinated parse write handlers w a j s
        ((s.logged w j).answerInline parse write handlers w a entry j)
  | handedOn (hn : j.isNotification = false) (hi : kindOf j.request ≠ some .inline) :
      j.isCancelled = false → Coordinated parse write handlers w a j s
        ((s.logged w j).handOn w j ((methodLookup (methodOf j.request)).any (·.wantAllDocs)) hn hi)

theorem coordinator_cases (w : World) (a : Address) (j : Job) (s : Server) :
    Coordinated parse write handlers w a j s (coordinator parse write handlers w a j s) := by
  unfold coordinator
  simp only
  by_cases hn : j.isNotification = true
  · rw [dif_pos hn]
    have hkind := j.isNotification_iff.mp hn
    obtain ⟨entry, hentry, hk⟩ := Option.map_eq_some_iff.mp hkind
    rw [serverDispatchNotification, hentry]
    simp only [hk, if_true]
    exact .notified hentry hk
  · rw [dif_neg hn]
    have hn' : j.isNotification = false := Bool.not_eq_true _ ▸ hn
    by_cases hc : j.isCancelled = true
    · rw [if_pos hc]
      exact .cancelled hn' hc
    · rw [if_neg hc]
      have hc' : j.isCancelled = false := Bool.not_eq_true _ ▸ hc
      rcases serverCoordinateQuery_cases parse write handlers
        w a j hn' (s.logged w j) with ⟨entry, hentry, hk, h⟩ | ⟨hi, h⟩
      · exact h ▸ Coordinated.inline hentry hk hc'
      · exact h ▸ Coordinated.handedOn hn' hi hc'

/-- **What the coordinator touches**; it hands on at most the job that it has in hand. -/
theorem coordinator_frame (w : World) (a : Address) (j : Job) (s : Server) :
    ∃ live heap current requestQueue sent made, coordinator parse write handlers w a j s
      = { s with
          coordinating := none
          log := s.log ++ [j.handled w]
          live := live
          heap := heap
          current := current
          requestQueue := requestQueue
          sent := sent
          made := made } ∧
      (requestQueue = s.requestQueue ∨ ∃ q : QueryJob, q.toJob = j ∧
        requestQueue = s.requestQueue ++ [q]) := by
  have hcases := coordinator_cases parse write handlers w a j s
  generalize coordinator parse write handlers w a j s = s' at hcases ⊢
  cases hcases with
  | @notified entry hentry hk =>
    obtain ⟨heap, current, h⟩ := handle_frame parse w a
      (entry.event (paramsOf j.request)) (s.logged w j)
    exact ⟨_, _, _, _, _, _, h, Or.inl rfl⟩
  | cancelled hn hc =>
    obtain ⟨sent, made, h⟩ := serverDispatchCancelled_frame write j (s.logged w j)
    exact ⟨_, _, _, _, _, _, h, Or.inl rfl⟩
  | @inline entry hentry hk hc =>
    obtain ⟨live, heap, current, sent, made, h⟩ := answerInline_frame parse
      write handlers w a entry j (s.logged w j)
    exact ⟨_, _, _, _, _, _, h, Or.inl rfl⟩
  | handedOn hn hi hc => exact ⟨_, _, _, _, _, _, rfl, Or.inr ⟨_, rfl, rfl⟩⟩

/-- **What a worker touches**. -/
theorem queryWorker_frame (q : QueryJob) (s : Server) :
    ∃ heap sent made, queryWorker write handlers q s
      = { s with heap := heap, sent := sent, made := made } := by
  unfold queryWorker serverRunQuery
  simp only
  split
  · obtain ⟨sent, made, h⟩ := serverDispatchCancelled_frame write q.toJob s
    rw [h]
    exact ⟨_, _, _, rfl⟩
  · cases queryResponse handlers q with
    | none => exact ⟨_, _, _, rfl⟩
    | some resp =>
      obtain ⟨sent, made, h⟩ := sendResponse_frame write q.arrival resp s
      simp only [h]
      exact ⟨_, _, _, rfl⟩

end Frames

/-! ### The order of jobs -/

/-- The message that a job is made of, if one is. -/
def jobOf (message : Option Json) : Option Json := message.filter enqueues

def Job.key (j : Job) : ℕ × Json := (j.arrival, j.request)

def Handled.key (h : Handled) : ℕ × Json := (h.arrival, h.request)

namespace Server

/-- The jobs that the coordinator has not handled yet. -/
def pending (s : Server) : List Job := s.coordinating.toList ++ s.workQueue

/-- The jobs that it has handed on, and that are not answered yet. -/
def handedOn (s : Server) : List QueryJob := s.requestQueue ++ s.running

/-- Jobs are handled in the order of arrival, and only what is handled is handed on. -/
structure InOrder (inbound : List (Option Json)) (s : Server) : Prop where
  inbox_eq : s.inbox = inbound.drop s.arrived
  arrivals : s.log.map Handled.key ++ s.pending.map Job.key
    = numbered jobOf (inbound.take s.arrived)
  logged : ∀ q ∈ s.handedOn, q.toJob.key ∈ s.log.map Handled.key

section Order

variable {parse : CStr → ParseOutput} {write : Json → Option CStr} {handlers : Handlers}
  {workers : ℕ} {inbound : List (Option Json)}

theorem inOrder_start (inbound : List (Option Json)) : InOrder inbound (start inbound) := by
  refine ⟨rfl, rfl, ?_⟩
  intro q hq
  cases hq

theorem map_key_mark (id : ℤ) (jobs : List Job) :
    (jobs.map (Job.markCancelledById id)).map Job.key = jobs.map Job.key := by
  rw [List.map_map]
  refine List.map_congr_left fun j _ => ?_
  obtain ⟨ha, hr⟩ := j.markCancelledById_frame id
  rw [Function.comp_apply, Job.key, ha, hr, Job.key]

theorem key_markCancelledById (id : ℤ) (q : QueryJob) :
    (q.markCancelledById id).toJob.key = q.toJob.key := by
  obtain ⟨ha, hr⟩ := q.toJob.markCancelledById_frame id
  exact Prod.ext ha hr

theorem reader_pending (message : Option Json) (inbox : List (Option Json)) (s : Server) :
    (reader message inbox s).pending.map Job.key
      = s.pending.map Job.key ++ ((jobOf message).map fun root => (s.arrived, root)).toList := by
  cases message with
  | none => exact (List.append_nil _).symm
  | some root =>
    rw [reader, serverProcess, jobOf, Option.filter, enqueues]
    by_cases he : methodOf root = cstr "exit"
    · rw [if_pos he, decide_eq_false (fun h => h.1 he), if_neg Bool.false_ne_true]
      exact (List.append_nil _).symm
    · rw [if_neg he]
      by_cases hc : methodOf root = cstr "$/cancelRequest"
      · rw [if_pos hc, decide_eq_false (fun h => h.2 hc), if_neg Bool.false_ne_true,
          Option.map_none, Option.toList_none, List.append_nil]
        cases Json.getSint (Json.objGet (paramsOf root) "id") with
        | none => rfl
        | some id =>
          simp only [pending, List.map_append, map_key_mark]
      · rw [if_neg hc, decide_eq_true ⟨he, hc⟩, if_pos rfl, pending, pending,
          ← List.append_assoc, List.map_append]
        rfl

theorem reader_frame (message : Option Json) (inbox : List (Option Json)) (s : Server) :
    ∃ marking stopped workQueue, reader message inbox s
      = { s with
          inbox := inbox
          arrived := s.arrived + 1
          marking := marking
          stopped := stopped
          workQueue := workQueue } := by
  cases message with
  | none => exact ⟨_, _, _, rfl⟩
  | some root =>
    simp only [reader, serverProcess]
    split
    · exact ⟨_, _, _, rfl⟩
    · split
      · cases Json.getSint (Json.objGet (paramsOf root) "id") <;> exact ⟨_, _, _, rfl⟩
      · exact ⟨_, _, _, rfl⟩

theorem InOrder.step {s s' : Server} (h : InOrder inbound s)
    (hs : Step parse write handlers workers s s') : InOrder inbound s' := by
  cases hs with
  | @read message inbox hmark hstop hin =>
    have hget : inbound[s.arrived]? = some message := by
      rw [← List.head?_drop, ← h.inbox_eq, hin, List.head?_cons]
    have hinbox : inbox = inbound.drop (s.arrived + 1) := by
      rw [← List.tail_drop, ← h.inbox_eq, hin, List.tail_cons]
    have hpending := reader_pending message inbox s
    obtain ⟨marking, stopped, workQueue, he⟩ := reader_frame message inbox s
    rw [he] at hpending ⊢
    refine ⟨hinbox, ?_, h.logged⟩
    rw [hpending, ← List.append_assoc, h.arrivals, numbered_take_succ jobOf hget]
  | @mark id hmark =>
    refine ⟨h.inbox_eq, h.arrivals, ?_⟩
    intro q hq
    rcases List.mem_append.mp hq with hq | hq
    · obtain ⟨p, hp, rfl⟩ := List.mem_map.mp hq
      rw [key_markCancelledById]
      exact h.logged p (List.mem_append_left _ hp)
    · exact h.logged q (List.mem_append_right _ hq)
  | @pop j q hfree hq =>
    refine ⟨h.inbox_eq, ?_, h.logged⟩
    rw [← h.arrivals, pending, pending, hfree, hq]
    rfl
  | @coordinate j w a hj hfree =>
    obtain ⟨live, heap, current, requestQueue, sent, made, he, hq⟩ :=
      coordinator_frame parse write handlers w a j s
    rw [he]
    refine ⟨h.inbox_eq, ?_, ?_⟩
    · rw [← h.arrivals, pending, pending, hj, List.map_append, List.append_assoc]
      rfl
    · intro q hmem
      rw [List.map_append]
      have hold : ∀ q ∈ s.handedOn, q.toJob.key ∈ s.log.map Handled.key ++ [(j.handled w).key] :=
        fun q hq => List.mem_append_left _ (h.logged q hq)
      rcases hq with rfl | ⟨p, rfl, rfl⟩
      · exact hold q hmem
      · rcases List.mem_append.mp hmem with hmem | hmem
        · rcases List.mem_append.mp hmem with hmem | hmem
          · exact hold q (List.mem_append_left _ hmem)
          · rw [List.mem_singleton.mp hmem]
            exact List.mem_append_right _ (List.mem_singleton_self _)
        · exact hold q (List.mem_append_right _ hmem)
  | @take q rest hq hroom =>
    refine ⟨h.inbox_eq, h.arrivals, ?_⟩
    intro p hp
    refine h.logged p ?_
    rw [handedOn, hq]
    exact List.perm_middle.mem_iff.mp hp
  | @work q before after hq =>
    obtain ⟨heap, sent, made, he⟩ := queryWorker_frame write handlers q
      { s with running := before ++ after }
    rw [he]
    refine ⟨h.inbox_eq, h.arrivals, ?_⟩
    intro p hp
    refine h.logged p ?_
    rw [handedOn, hq]
    rcases List.mem_append.mp hp with hp | hp
    · exact List.mem_append_left _ hp
    · exact List.mem_append_right _ (List.perm_middle.mem_iff.mpr (List.mem_cons_of_mem _ hp))

/-- **Jobs are handled in the order of arrival.** -/
theorem Reached.inOrder {s : Server} (h : Reached parse write handlers workers inbound s) :
    InOrder inbound s := by
  induction h with
  | refl => exact inOrder_start inbound
  | tail _ hs ih => exact ih.step hs

end Order

/-! ### Runs to try things on -/

/-- Which thread goes next. -/
inductive Turn where
  | read
  | mark
  | pop
  | coordinate (w : World) (a : Address)
  | take
  | work

section Turns

variable (parse : CStr → ParseOutput) (write : Json → Option CStr) (handlers : Handlers)
  (workers : ℕ)

/-- The step that a thread takes, if it can go on; a worker answers what was taken last. -/
def next (s : Server) : Turn → Option Server
  | .read =>
    match s.marking, s.stopped, s.inbox with
    | none, false, message :: inbox => some (reader message inbox s)
    | _, _, _ => none
  | .mark => s.marking.map fun id =>
    { s with
      marking := none
      requestQueue := s.requestQueue.map (QueryJob.markCancelledById id) }
  | .pop =>
    match s.coordinating, s.workQueue with
    | none, j :: q => some { s with workQueue := q, coordinating := some j }
    | _, _ => none
  | .coordinate w a =>
    match s.coordinating with
    | some j => if (s.heap a).isNone then some (coordinator parse write handlers w a j s) else none
    | none => none
  | .take =>
    match s.requestQueue with
    | q :: rest =>
      if s.running.length < workers then
        some { s with requestQueue := rest, running := q :: s.running }
      else none
    | [] => none
  | .work =>
    match s.running with
    | q :: rest => some (queryWorker write handlers q { s with running := rest })
    | [] => none

variable {parse write handlers workers}

theorem step_of_next {s s' : Server} {turn : Turn}
    (h : next parse write handlers workers s turn = some s') :
    Step parse write handlers workers s s' := by
  cases turn with
  | read =>
    rw [next] at h
    split at h
    · rename_i hm hs hi
      cases h
      exact .read hm hs hi
    · cases h
  | mark =>
    obtain ⟨id, hm, rfl⟩ := Option.map_eq_some_iff.mp h
    exact .mark hm
  | pop =>
    rw [next] at h
    split at h
    · rename_i hc hw
      cases h
      exact .pop hc hw
    · cases h
  | coordinate w a =>
    rw [next] at h
    split at h
    · rename_i hc
      split at h
      · rename_i ha
        cases h
        exact .coordinate w a hc (Option.isNone_iff_eq_none.mp ha)
      · cases h
    · cases h
  | take =>
    rw [next] at h
    split at h
    · rename_i hr
      split at h
      · rename_i hroom
        cases h
        exact .take hr hroom
      · cases h
    · cases h
  | work =>
    rw [next] at h
    split at h
    · rename_i q rest hr
      cases h
      have hsplit : s.running = [] ++ q :: rest := hr
      exact .work hsplit
    · cases h

/-- The threads take their turns. -/
theorem reached_of_turns {inbound : List (Option Json)} {turns : List Turn} {s : Server}
    (h : turns.foldlM (next parse write handlers workers) (start inbound) = some s) :
    Reached parse write handlers workers inbound s := by
  have hgen : ∀ (turns : List Turn) (s₀ : Server),
      Reached parse write handlers workers inbound s₀ →
      turns.foldlM (next parse write handlers workers) s₀ = some s →
      Reached parse write handlers workers inbound s := by
    intro turns
    induction turns with
    | nil =>
      intro s₀ hr he
      cases he
      exact hr
    | cons turn turns ih =>
      intro s₀ hr he
      rw [List.foldlM_cons] at he
      obtain ⟨s₁, h₁, he⟩ := Option.bind_eq_some_iff.mp he
      exact ih s₁ (hr.tail (step_of_next h₁)) he
  exact hgen turns _ .refl h

end Turns

/-- A message with a method, and with an id if it is to be answered. -/
def messageOf (method : String) (id : Option Json) (params : List (String × Json)) : Json :=
  .obj (("jsonrpc", .str (cstr "2.0")) :: (id.map fun id => ("id", id)).toList ++
    [("method", .str (cstr method)), ("params", .obj params)])

def didOpenNotification (uri text : String) : Json :=
  messageOf "textDocument/didOpen" none
    [("textDocument", .obj [("uri", .str (cstr uri)), ("text", .str (cstr text))])]

def hoverRequest (id : ℤ) (uri : String) : Json :=
  messageOf "textDocument/hover" (some (.int id)) [("textDocument", .obj [("uri", .str (cstr uri))])]

/-- The client's answer to the registration of the file watcher. -/
def registeredResponse : Json :=
  .obj [("jsonrpc", .str (cstr "2.0")), ("id", .str (cstr "watcher-reg")), ("result", .null)]

mutual

/-- A value as text, where no string needs an escape. -/
def plainText : Json → CStr
  | .null => cstr "null"
  | .bool b => cstr (if b then "true" else "false")
  | .int n => cstr (toString n)
  | .real q => cstr (toString q.num) ++ 46 :: cstr (toString q.den)
  | .str s => 34 :: s ++ [34]
  | .arr items => 91 :: plainItems items
  | .obj fields => 123 :: plainFields fields

/-- The elements of an array. -/
def plainItems : List Json → CStr
  | [] => [93]
  | [item] => plainText item ++ [93]
  | item :: items => plainText item ++ 44 :: plainItems items

/-- The fields of an object. -/
def plainFields : List (String × Json) → CStr
  | [] => [125]
  | [(key, value)] => 34 :: cstr key ++ 34 :: 58 :: plainText value ++ [125]
  | (key, value) :: fields => 34 :: cstr key ++ 34 :: 58 :: plainText value ++ 44 :: plainFields fields

end

/-- Handlers that find nothing. -/
def nullHandlers : Handlers := ⟨.obj [], fun _ _ _ => .null⟩

/-- A run on some messages, with one file system throughout. -/
def runOf (inbound : List (Option Json)) (turns : List Turn) : Option Server :=
  turns.foldlM (next blankParse (fun v => some (plainText v)) nullHandlers numQueryWorkers)
    (start inbound)

end Server

end TaskjugglerLsp
