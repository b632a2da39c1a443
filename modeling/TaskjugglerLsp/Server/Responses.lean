import TaskjugglerLsp.Server.Isolation

/-!
# Which messages are answered

A message that the coordinator has handled has either been answered or is still
with the workers (`Server.Reached.settled`), so every message is answered at most
once.  `answered_iff` says which ones are answered as they should be.  The others
include every response of the client: it has an id, and `server_run_query`
answers it (`client_response_answered`).
-/

namespace TaskjugglerLsp

open Lib.Arrivals

/-! ### Kinds of messages -/

/-- The message has a method. -/
def hasMethod (root : Json) : Bool := (Json.strField (some root) "method").isSome

/-- A request: a method, and an id to answer to. -/
def isRequest (root : Json) : Bool := hasMethod root && (idOf root).isSome

/-- A notification: a method and no id. -/
def isNotification (root : Json) : Bool := hasMethod root && (idOf root).isNone

/-- A response: an id and a result or an error, and no method. -/
def isResponse (root : Json) : Bool :=
  (Json.objGet (some root) "method").isNone && (idOf root).isSome &&
    ((Json.objGet (some root) "result").isSome || (Json.objGet (some root) "error").isSome)

/-- The messages that are answered as they should be. -/
structure Ordinary (root : Json) : Prop where
  not_response : isResponse root = false
  request : isRequest root = true → enqueues root = true ∧ kindOf root ≠ some .notification ∧
    some (copyId (idOf root)) = idOf root
  notification : isNotification root = true → kindOf root ≠ some .inline ∧ kindOf root ≠ some .query

/-- Whether a job is answered in the end. -/
def owes (root : Json) : Bool :=
  match kindOf root with
  | some .notification => false
  | some _ => true
  | none => (idOf root).isSome

/-- Where the jobs that are answered in the end stand in the inbound stream. -/
def debts (jobs : List (ℕ × Json)) : List ℕ := (jobs.filter (owes ·.2)).map (·.1)

theorem debts_append (jobs jobs' : List (ℕ × Json)) :
    debts (jobs ++ jobs') = debts jobs ++ debts jobs' := by
  rw [debts, List.filter_append, List.map_append, debts, debts]

theorem debts_singleton (arrival : ℕ) (root : Json) :
    debts [(arrival, root)] = if owes root then [arrival] else [] := by
  cases h : owes root <;> simp [debts, h]

namespace Server

variable {parse : CStr → ParseOutput} {write : Json → Option CStr} {handlers : Handlers}
  {workers : ℕ} {inbound : List (Option Json)}

/-- Where the messages stand to which a response has been made. -/
def done (s : Server) : List ℕ := s.made.map (·.1)

/-- Of some responses, those that are sent. -/
def written (write : Json → Option CStr) (made : List (ℕ × Json)) : List Sent :=
  made.filterMap fun x => (write x.2).map (Sent.mk x.1 x.2)

/-- What the coordinator has handled is answered or with the workers, a response carries the
id of the message that it answers, and is sent if it can be written. -/
structure Settled (write : Json → Option CStr) (s : Server) : Prop where
  balance : (s.done ++ debts (s.handedOn.map fun q => q.toJob.key)).Perm
    (debts (s.log.map Handled.key))
  ids : ∀ x ∈ s.made, ∃ root, (x.1, root) ∈ s.log.map Handled.key ∧
    Json.objGet (some x.2) "id" = some (copyId (idOf root))
  sent_eq : s.sent = written write s.made

theorem settled_start (inbound : List (Option Json)) : (start inbound).Settled write := by
  refine ⟨List.Perm.refl _, ?_, rfl⟩
  intro x hx
  cases hx

/-! ### A response is made -/

/-- One response more, to a message that has been handled. -/
def Answers (write : Json → Option CStr) (arrival : ℕ) (root : Json) (s s' : Server) : Prop :=
  ∃ resp, Json.objGet (some resp) "id" = some (copyId (idOf root)) ∧
    s'.made = s.made ++ [(arrival, resp)] ∧ s'.sent = s.sent ++ written write [(arrival, resp)]

theorem answers_sendResponse {arrival : ℕ} {root resp : Json} (s : Server)
    (hid : Json.objGet (some resp) "id" = some (copyId (idOf root))) :
    Answers write arrival root s (s.sendResponse write arrival resp) := by
  refine ⟨resp, hid, ?_⟩
  unfold sendResponse written
  cases hw : write resp with
  | none => simp [hw]
  | some text => simp [hw]

/-- What a dispatcher does about a response: it sends one where it owes one. -/
def Dispatches (write : Json → Option CStr) (arrival : ℕ) (root : Json) (s s' : Server) : Prop :=
  if owes root then Answers write arrival root s s' else s'.made = s.made ∧ s'.sent = s.sent

theorem owes_of_isSome {root : Json} (hid : (idOf root).isSome = true)
    (hn : kindOf root ≠ some .notification) : owes root = true := by
  unfold owes
  cases hk : kindOf root with
  | none => exact hid
  | some kind =>
    cases kind with
    | notification => exact absurd hk hn
    | inline => rfl
    | query => rfl

/-- A cancelled job has an id. -/
theorem Job.idOf_of_cancelled {j : Job} (hc : j.isCancelled = true) :
    ∃ id, idOf j.request = some id := by
  have hsome := j.id_of_cancelled hc
  rw [j.id_eq, jobId] at hsome
  cases hid : idOf j.request with
  | none =>
    rw [hid] at hsome
    cases hsome
  | some id => exact ⟨id, rfl⟩

theorem dispatches_cancelled {j : Job} (s : Server) (hn : j.isNotification = false)
    (hc : j.isCancelled = true) :
    Dispatches write j.arrival j.request s (serverDispatchCancelled write j s) := by
  obtain ⟨id, hid⟩ := Job.idOf_of_cancelled hc
  have howes : owes j.request = true :=
    owes_of_isSome (by rw [hid, Option.isSome_some]) (kindOf_ne_notification hn)
  rw [Dispatches, if_pos howes, serverDispatchCancelled, hid]
  exact answers_sendResponse s (by rw [hid]; rfl)

theorem dispatches_inline {j : Job} {entry : MethodEntry} (w : World) (a : Address) (s : Server)
    (hentry : methodLookup (methodOf j.request) = some entry) (hk : entry.kind = .inline) :
    Dispatches write j.arrival j.request s (s.answerInline parse write handlers w a entry j) := by
  have howes : owes j.request = true := by
    rw [owes, kindOf, hentry, Option.map_some, hk]
  rw [Dispatches, if_pos howes, answerInline]
  obtain ⟨heap, current, he⟩ := handle_frame parse w a (entry.event (paramsOf j.request)) s
  rw [he]
  have hanswer : ∀ s₀ : Server, Answers write j.arrival j.request s₀ (s₀.sendResponse write j.arrival
      (makeResponse (idOf j.request) (handlers.inline entry.method))) :=
    fun s₀ => answers_sendResponse s₀ rfl
  exact hanswer _

theorem dispatches_query (q : QueryJob) (s : Server) :
    Dispatches write q.arrival q.request s (serverRunQuery write handlers q s) := by
  have hn := kindOf_ne_notification q.not_notification
  have hi := q.not_inline
  rw [Dispatches, serverRunQuery, queryResponse, owes]
  rw [kindOf] at hn hi ⊢
  cases hentry : methodLookup (methodOf q.request) with
  | none =>
    rw [Option.filter_none, Option.map_none]
    cases hid : idOf q.request with
    | none => exact ⟨rfl, rfl⟩
    | some id =>
      exact answers_sendResponse s (by rw [hid]; rfl)
  | some entry =>
    rw [hentry, Option.map_some, ne_eq, Option.some.injEq] at hn hi
    have hk : entry.kind = .query := by
      cases hk : entry.kind with
      | notification => exact absurd hk hn
      | inline => exact absurd hk hi
      | query => rfl
    rw [Option.filter_some, if_pos (decide_eq_true hk), Option.map_some, hk]
    exact answers_sendResponse s rfl

/-! ### The balance -/

theorem debts_perm {jobs jobs' : List (ℕ × Json)} (h : jobs.Perm jobs') :
    (debts jobs).Perm (debts jobs') :=
  (h.filter _).map _

theorem Dispatches.balance {arrival : ℕ} {root : Json} {s s' : Server} {owed : List ℕ}
    (h : Dispatches write arrival root s s') :
    (s'.done ++ owed).Perm (s.done ++ (debts [(arrival, root)] ++ owed)) := by
  rw [Dispatches] at h
  rw [debts_singleton, done, done]
  by_cases howes : owes root = true
  · rw [if_pos howes] at h ⊢
    obtain ⟨resp, -, hmade, -⟩ := h
    rw [hmade, List.map_append, List.append_assoc]
    exact List.Perm.refl _
  · rw [if_neg howes] at h ⊢
    rw [h.1]
    exact List.Perm.refl _

theorem Dispatches.ids {arrival : ℕ} {root : Json} {s s' : Server}
    (h : Dispatches write arrival root s s') {x : ℕ × Json} (hx : x ∈ s'.made) :
    x ∈ s.made ∨ x.1 = arrival ∧ Json.objGet (some x.2) "id" = some (copyId (idOf root)) := by
  rw [Dispatches] at h
  by_cases howes : owes root = true
  · rw [if_pos howes] at h
    obtain ⟨resp, hid, hmade, -⟩ := h
    rw [hmade, List.mem_append] at hx
    rcases hx with hx | hx
    · exact Or.inl hx
    · rw [List.mem_singleton.mp hx]
      exact Or.inr ⟨rfl, hid⟩
  · rw [if_neg howes] at h
    exact Or.inl (h.1 ▸ hx)

theorem Dispatches.sent_eq {arrival : ℕ} {root : Json} {s s' : Server}
    (h : Dispatches write arrival root s s') (hs : s.sent = written write s.made) :
    s'.sent = written write s'.made := by
  rw [Dispatches] at h
  by_cases howes : owes root = true
  · rw [if_pos howes] at h
    obtain ⟨resp, -, hmade, hsent⟩ := h
    rw [hmade, hsent, hs, written, written, written, List.filterMap_append]
  · rw [if_neg howes] at h
    rw [h.1, h.2, hs]

theorem Settled.answered {s s' : Server} (h : s.Settled write) {w : World} {j : Job}
    (hd : Dispatches write j.arrival j.request (s.logged w j) s') (hlog : s'.log = s.log ++ [j.handled w])
    (hq : s'.handedOn = s.handedOn) : s'.Settled write := by
  constructor
  · rw [hlog, hq, List.map_append, debts_append]
    refine hd.balance.trans ?_
    refine (List.perm_append_comm_assoc _ _ _).trans ?_
    exact (h.balance.append_left _).trans List.perm_append_comm
  · intro x hx
    rw [hlog, List.map_append]
    rcases hd.ids hx with hx | ⟨ha, hid⟩
    · obtain ⟨root, hmem, hid⟩ := h.ids x hx
      exact ⟨root, List.mem_append_left _ hmem, hid⟩
    · exact ⟨j.request, List.mem_append_right _ (ha ▸ List.mem_singleton_self _), hid⟩
  · exact hd.sent_eq h.sent_eq

theorem Settled.coordinator {s : Server} (h : s.Settled write) (w : World) (a : Address) (j : Job) :
    (coordinator parse write handlers w a j s).Settled write := by
  have hcases := coordinator_cases parse write handlers w a j s
  generalize TaskjugglerLsp.coordinator parse write handlers w a j s = s' at hcases ⊢
  cases hcases with
  | @notified entry hentry hk =>
    have hidle : owes j.request = false := by rw [owes, kindOf, hentry, Option.map_some, hk]
    obtain ⟨heap, current, he⟩ := handle_frame parse w a (entry.event (paramsOf j.request))
      (s.logged w j)
    rw [he]
    refine h.answered (w := w) (j := j) ?_ rfl rfl
    rw [Dispatches, hidle, if_neg Bool.false_ne_true]
    exact ⟨rfl, rfl⟩
  | cancelled hn hc =>
    have hd : Dispatches write j.arrival j.request (s.logged w j)
      (serverDispatchCancelled write j (s.logged w j)) := dispatches_cancelled _ hn hc
    obtain ⟨sent, made, he⟩ := serverDispatchCancelled_frame write j (s.logged w j)
    rw [he] at hd ⊢
    exact h.answered hd rfl rfl
  | @inline entry hentry hk hc =>
    have hd : Dispatches write j.arrival j.request (s.logged w j)
        ((s.logged w j).answerInline parse write handlers w a entry j) :=
      dispatches_inline w a _ hentry hk
    obtain ⟨live, heap, current, sent, made, he⟩ :=
      answerInline_frame parse write handlers w a entry j (s.logged w j)
    rw [he] at hd ⊢
    exact h.answered hd rfl rfl
  | handedOn hn hi hc =>
    have hkeys : ∀ all, (((s.logged w j).handOn w j all hn hi).handedOn.map
        fun q => q.toJob.key).Perm ((s.handedOn.map fun q => q.toJob.key) ++ [j.key]) := by
      intro all
      simp only [Server.handedOn, handOn, logged, List.map_append, List.append_assoc]
      exact (List.perm_append_comm).append_left _
    constructor
    · have hlog : ((s.logged w j).handOn w j
          ((methodLookup (methodOf j.request)).any (·.wantAllDocs)) hn hi).log.map Handled.key
          = s.log.map Handled.key ++ [j.key] := List.map_append ..
      rw [hlog, debts_append]
      refine ((debts_perm (hkeys _)).append_left _).trans ?_
      rw [debts_append, ← List.append_assoc]
      exact h.balance.append_right _
    · intro x hx
      obtain ⟨root, hmem, hid⟩ := h.ids x hx
      refine ⟨root, ?_, hid⟩
      rw [handOn, logged, List.map_append]
      exact List.mem_append_left _ hmem
    · exact h.sent_eq

theorem Settled.work {s : Server} (h : s.Settled write) (horder : s.InOrder inbound) {q : QueryJob}
    {before after : List QueryJob} (hq : s.running = before ++ q :: after) :
    (queryWorker write handlers q { s with running := before ++ after }).Settled write := by
  have hmem : q ∈ s.handedOn := by
    rw [handedOn, hq]
    exact List.mem_append_right _ (List.perm_middle.mem_iff.mpr List.mem_cons_self)
  have hkeys : (s.handedOn.map fun q => q.toJob.key).Perm ([q.toJob.key] ++
      (s.requestQueue ++ (before ++ after)).map fun q => q.toJob.key) := by
    rw [handedOn, hq, ← List.append_assoc, ← List.append_assoc]
    exact List.perm_middle.map _
  have hd : Dispatches write q.arrival q.request s
      (queryWorker write handlers q { s with running := before ++ after }) := by
    have hsame : ∀ s' : Server, Dispatches write q.arrival q.request { s with running := before ++ after } s' →
        Dispatches write q.arrival q.request s { s' with heap := wsRelease q.pin s'.heap } :=
      fun _ hs => hs
    refine hsame _ ?_
    by_cases hc : q.isCancelled = true
    · rw [if_pos hc]
      exact dispatches_cancelled _ q.not_notification hc
    · rw [if_neg hc]
      exact dispatches_query q _
  obtain ⟨heap, sent, made, he⟩ := queryWorker_frame write handlers q
    { s with running := before ++ after }
  rw [he] at hd ⊢
  constructor
  · refine hd.balance.trans ?_
    rw [← debts_append]
    exact ((debts_perm hkeys.symm).append_left _).trans h.balance
  · intro x hx
    rcases hd.ids hx with hx | ⟨ha, hid⟩
    · exact h.ids x hx
    · exact ⟨q.request, ha ▸ horder.logged q hmem, hid⟩
  · exact hd.sent_eq h.sent_eq

theorem Settled.step {s s' : Server} (h : s.Settled write) (horder : s.InOrder inbound)
    (hs : Step parse write handlers workers s s') : s'.Settled write := by
  cases hs with
  | @read message inbox hmark hstop hin =>
    obtain ⟨marking, stopped, workQueue, he⟩ := reader_frame message inbox s
    rw [he]
    exact ⟨h.balance, h.ids, h.sent_eq⟩
  | @mark id hmark =>
    refine ⟨?_, h.ids, h.sent_eq⟩
    have hkeys : ((s.requestQueue.map (QueryJob.markCancelledById id) ++ s.running).map
        fun q => q.toJob.key) = s.handedOn.map fun q => q.toJob.key := by
      rw [List.map_append, List.map_map, handedOn, List.map_append]
      congr 1
      exact List.map_congr_left fun q _ => key_markCancelledById id q
    have hbalance := h.balance
    rw [← hkeys] at hbalance
    exact hbalance
  | pop hfree hq => exact ⟨h.balance, h.ids, h.sent_eq⟩
  | coordinate w a hj ha => exact h.coordinator w a _
  | @take q rest hq hroom =>
    refine ⟨?_, h.ids, h.sent_eq⟩
    have hperm : (rest ++ q :: s.running).Perm s.handedOn := by
      rw [handedOn, hq]
      exact List.perm_middle
    exact ((debts_perm (hperm.map _)).append_left _).trans h.balance
  | work hq => exact h.work horder hq

/-- **Every message that is handled** is answered, or it is with the workers. -/
theorem Reached.settled {s : Server} (h : Reached parse write handlers workers inbound s) :
    s.Settled write := by
  induction h with
  | refl => exact settled_start inbound
  | tail hr hs ih => exact ih.step (Reached.inOrder hr) hs

/-! ### One message -/

/-- The responses to the message at a place of the inbound stream. -/
def responsesTo (s : Server) (k : ℕ) : List Json :=
  (s.sent.filter (·.arrival = k)).map (·.response)

/-- The jobs that are on their way. -/
def flight (s : Server) : List Job := s.pending ++ s.handedOn.map (·.toJob)

/-- The message at a place has been read, and nothing of it is on its way. -/
def Through (s : Server) (k : ℕ) : Prop := k < s.arrived ∧ ∀ j ∈ s.flight, j.arrival ≠ k

/-- A request has one response, with its id; a notification has none, nor has a response. -/
def AnsweredRight (s : Server) (k : ℕ) (root : Json) : Prop :=
  (isRequest root = true →
    ∃ resp, s.responsesTo k = [resp] ∧ Json.objGet (some resp) "id" = idOf root) ∧
  (isNotification root = true ∨ isResponse root = true → s.responsesTo k = [])

/-- The response to the message at a place cannot be written. -/
def Lost (write : Json → Option CStr) (s : Server) (k : ℕ) : Prop :=
  ∃ resp, (k, resp) ∈ s.made ∧ write resp = none

/-- The message at a place is one that is answered in the end. -/
def due (root : Json) : Bool := enqueues root && owes root

theorem nodup_debts (messages : List (Option Json)) : (debts (numbered jobOf messages)).Nodup :=
  (nodup_numbered messages).sublist (List.filter_sublist.map _)

theorem mem_debts {messages : List (Option Json)} {k : ℕ} {root : Json}
    (hk : messages[k]? = some (some root)) :
    k ∈ debts (numbered jobOf messages) ↔ due root = true := by
  rw [debts, List.mem_map, due, Bool.and_eq_true]
  constructor
  · rintro ⟨⟨i, root'⟩, hmem, rfl⟩
    obtain ⟨hmem, howes⟩ := List.mem_filter.mp hmem
    obtain ⟨message, hget, hjob⟩ := mem_numbered.mp hmem
    obtain ⟨rfl, henq⟩ := Option.filter_eq_some_iff.mp hjob
    rw [hk, Option.some.injEq, Option.some.injEq] at hget
    exact hget ▸ ⟨henq, howes⟩
  · rintro ⟨henq, howes⟩
    refine ⟨(k, root), List.mem_filter.mpr ⟨mem_numbered.mpr ⟨_, hk, ?_⟩, howes⟩, rfl⟩
    exact Option.filter_eq_some_iff.mpr ⟨rfl, henq⟩

/-- Where the messages stand whose responses cannot be written. -/
def losses (write : Json → Option CStr) (s : Server) : List ℕ :=
  (s.made.filter fun x => (write x.2).isNone).map (·.1)

theorem mem_losses {s : Server} {k : ℕ} : k ∈ s.losses write ↔ s.Lost write k := by
  simp [losses, Lost]

theorem Settled.length_responsesTo {s : Server} (h : s.Settled write) (k : ℕ) :
    (s.responsesTo k).length + (s.losses write).count k = s.done.count k := by
  rw [responsesTo, List.length_map, h.sent_eq, losses, done]
  induction s.made with
  | nil => rfl
  | cons x made ih =>
    obtain ⟨arrival, resp⟩ := x
    rw [written] at ih ⊢
    cases hw : write resp with
    | none =>
      simp only [List.filterMap_cons, List.filter_cons, hw, Option.map_none, Option.isNone_none,
        if_true, List.map_cons, List.count_cons, ← ih]
      omega
    | some text =>
      simp only [List.filterMap_cons, List.filter_cons, hw, Option.map_some, Option.isNone_some,
        Bool.false_eq_true, if_false, List.map_cons, List.count_cons, ← ih, beq_iff_eq,
        decide_eq_true_eq]
      split_ifs
      · rw [List.length_cons]
        omega
      · rfl

theorem count_done_le {s : Server} (h : Reached parse write handlers workers inbound s) (k : ℕ) :
    s.done.count k ≤ (debts (numbered jobOf (inbound.take s.arrived))).count k := by
  have hlog : s.done.count k ≤ (debts (s.log.map Handled.key)).count k := by
    rw [← h.settled.balance.count_eq k, List.count_append]
    exact Nat.le_add_right _ _
  refine hlog.trans ?_
  rw [← h.inOrder.arrivals, debts_append, List.count_append]
  exact Nat.le_add_right _ _

/-- Every message is answered at most once. -/
theorem responsesTo_le_one {s : Server} (h : Reached parse write handlers workers inbound s)
    (k : ℕ) : (s.responsesTo k).length ≤ 1 := by
  have hle := count_done_le h k
  have hone := List.nodup_iff_count_le_one.mp (nodup_debts (inbound.take s.arrived)) k
  have hsum := h.settled.length_responsesTo k
  omega

theorem count_debts_of_notMem {jobs : List (ℕ × Json)} {k : ℕ} (h : ∀ x ∈ jobs, x.1 ≠ k) :
    (debts jobs).count k = 0 := by
  refine List.count_eq_zero.mpr fun hmem => ?_
  obtain ⟨x, hx, rfl⟩ := List.mem_map.mp hmem
  exact h x (List.mem_of_mem_filter hx) rfl

theorem count_done_of_through {s : Server} (h : Reached parse write handlers workers inbound s)
    {k : ℕ} {root : Json} (hk : inbound[k]? = some (some root)) (hthrough : s.Through k) :
    s.done.count k = if due root then 1 else 0 := by
  have hpending : (debts (s.pending.map Job.key)).count k = 0 := by
    refine count_debts_of_notMem fun x hx => ?_
    obtain ⟨j, hj, rfl⟩ := List.mem_map.mp hx
    exact hthrough.2 j (List.mem_append_left _ hj)
  have hhanded : (debts (s.handedOn.map fun q => q.toJob.key)).count k = 0 := by
    refine count_debts_of_notMem fun x hx => ?_
    obtain ⟨q, hq, rfl⟩ := List.mem_map.mp hx
    exact hthrough.2 _ (List.mem_append_right _ (List.mem_map_of_mem hq))
  have hbalance := h.settled.balance.count_eq k
  have harrivals := congrArg (fun l => (debts l).count k) h.inOrder.arrivals
  simp only [debts_append, List.count_append] at hbalance harrivals
  have htake : (inbound.take s.arrived)[k]? = some (some root) := by
    rw [List.getElem?_take_of_lt hthrough.1, hk]
  have hmem := mem_debts htake
  by_cases hdue : due root = true
  · rw [if_pos hdue]
    have hone := List.count_eq_one_of_mem (nodup_debts _) (hmem.mpr hdue)
    omega
  · rw [if_neg hdue]
    have hzero := List.count_eq_zero.mpr fun hin => hdue (hmem.mp hin)
    omega

theorem Settled.mem_made {s : Server} (h : s.Settled write) {r : Sent} (hr : r ∈ s.sent) :
    (r.arrival, r.response) ∈ s.made := by
  rw [h.sent_eq, written] at hr
  obtain ⟨x, hx, hwrite⟩ := List.mem_filterMap.mp hr
  obtain ⟨text, -, rfl⟩ := Option.map_eq_some_iff.mp hwrite
  exact hx

theorem id_of_response {s : Server} (h : Reached parse write handlers workers inbound s)
    {k : ℕ} {root resp : Json} (hk : inbound[k]? = some (some root))
    (hresp : resp ∈ s.responsesTo k) :
    Json.objGet (some resp) "id" = some (copyId (idOf root)) := by
  obtain ⟨r, hr, rfl⟩ := List.mem_map.mp hresp
  obtain ⟨hr, harr⟩ := List.mem_filter.mp hr
  obtain ⟨root', hmem, hid⟩ := h.settled.ids _ (h.settled.mem_made hr)
  have hnum : (r.arrival, root') ∈ numbered jobOf inbound := by
    refine (numbered_take_le jobOf inbound s.arrived).subset ?_
    rw [← h.inOrder.arrivals]
    exact List.mem_append_left _ hmem
  obtain ⟨message, hget, hjob⟩ := mem_numbered.mp hnum
  obtain ⟨rfl, -⟩ := Option.filter_eq_some_iff.mp hjob
  rw [of_decide_eq_true harr, hk, Option.some.injEq, Option.some.injEq] at hget
  rw [hid, hget]

/-! ### Which messages are answered right -/

theorem enqueues_of_kindOf {root : Json} {kind : MethodKind} (hk : kindOf root = some kind) :
    enqueues root = true := by
  obtain ⟨entry, hentry, -⟩ := Option.map_eq_some_iff.mp hk
  rw [methodLookup] at hentry
  have hmethod : cstr entry.method = methodOf root := by simpa using List.find?_some hentry
  have htable : ∀ entry ∈ methods,
      cstr entry.method ≠ cstr "exit" ∧ cstr entry.method ≠ cstr "$/cancelRequest" := by
    decide +kernel
  rw [enqueues, ← hmethod]
  exact decide_eq_true (htable entry (List.mem_of_find?_eq_some hentry))

theorem due_of_isResponse {root : Json} (h : isResponse root = true) : due root = true := by
  rw [isResponse, Bool.and_eq_true, Bool.and_eq_true] at h
  obtain ⟨⟨hmethod, hid⟩, -⟩ := h
  have hempty : methodOf root = [] := by
    rw [methodOf, Json.strField, Option.isNone_iff_eq_none.mp hmethod]
    rfl
  have hkind : kindOf root = none := by
    rw [kindOf, hempty]
    decide +kernel
  have henq : enqueues root = true := by
    rw [enqueues, hempty]
    decide +kernel
  rw [due, henq, owes, hkind, Bool.true_and]
  exact hid

/-- What is not to be answered is right to be left alone, but for a request. -/
theorem ordinary_of_not_due {root : Json} (hdue : due root = false)
    (hreq : isRequest root = false) : Ordinary root := by
  constructor
  · cases hresp : isResponse root with
    | false => rfl
    | true =>
      rw [due_of_isResponse hresp] at hdue
      cases hdue
  · intro h
    rw [hreq] at h
    cases h
  · have hkind : ∀ kind, kind ≠ .notification → kindOf root ≠ some kind := by
      intro kind hne hk
      have howes : owes root = true := by
        rw [owes, hk]
        cases kind with
        | notification => exact absurd rfl hne
        | inline => rfl
        | query => rfl
      rw [due, enqueues_of_kindOf hk, howes] at hdue
      cases hdue
    exact fun _ => ⟨hkind _ (by decide), hkind _ (by decide)⟩

theorem due_of_request {root : Json} (h : Ordinary root) (hreq : isRequest root = true) :
    due root = true := by
  obtain ⟨henq, hkind, -⟩ := h.request hreq
  rw [due, henq, Bool.true_and]
  exact owes_of_isSome (Bool.and_eq_true _ _ ▸ hreq).2 hkind

/-- What is to be answered is no notification, unless a notification asks a query. -/
theorem not_isNotification_of_due {root : Json} (h : Ordinary root) (hdue : due root = true) :
    isNotification root = false := by
  cases hn : isNotification root with
  | false => rfl
  | true =>
    obtain ⟨hi, hq⟩ := h.notification hn
    rw [due, Bool.and_eq_true] at hdue
    rw [isNotification, Bool.and_eq_true] at hn
    have howes := hdue.2
    rw [owes] at howes
    cases hk : kindOf root with
    | none =>
      rw [hk] at howes
      rw [Option.isNone_iff_eq_none.mp hn.2] at howes
      cases howes
    | some kind =>
      cases kind with
      | notification =>
        rw [hk] at howes
        cases howes
      | inline => exact absurd hk hi
      | query => exact absurd hk hq

theorem ordinary_of_due {root : Json} (hdue : due root = true)
    (hid : isRequest root = true → some (copyId (idOf root)) = idOf root)
    (hnot : ¬(isNotification root = true ∨ isResponse root = true)) : Ordinary root := by
  rw [not_or, Bool.not_eq_true, Bool.not_eq_true] at hnot
  rw [due, Bool.and_eq_true] at hdue
  constructor
  · exact hnot.2
  · intro hreq
    refine ⟨hdue.1, ?_, hid hreq⟩
    intro hk
    have howes := hdue.2
    rw [owes, hk] at howes
    cases howes
  · intro hn
    rw [hnot.1] at hn
    cases hn

/-- **A message that is through** is answered as it should be if it is an ordinary one and its
response could be written, or if there was none to write. -/
theorem answeredRight_iff {s : Server} (h : Reached parse write handlers workers inbound s)
    {k : ℕ} {root : Json} (hk : inbound[k]? = some (some root)) (hthrough : s.Through k) :
    s.AnsweredRight k root ↔ (¬ s.Lost write k ∧ Ordinary root) ∨
      (s.Lost write k ∧ isRequest root = false) := by
  have hcount := count_done_of_through h hk hthrough
  have hsum := h.settled.length_responsesTo k
  by_cases hlost : s.Lost write k
  · have hpos := List.count_pos_iff.mpr (mem_losses.mpr hlost)
    have hnil : s.responsesTo k = [] := by
      refine List.eq_nil_of_length_eq_zero ?_
      split at hcount <;> omega
    rw [AnsweredRight, hnil]
    constructor
    · rintro ⟨hreq, -⟩
      refine Or.inr ⟨hlost, ?_⟩
      rw [← Bool.not_eq_true]
      intro hr
      obtain ⟨resp, hresp, -⟩ := hreq hr
      cases hresp
    · rintro (⟨hnot, -⟩ | ⟨-, hreq⟩)
      · exact absurd hlost hnot
      · exact ⟨fun hr => absurd (hreq.symm.trans hr) Bool.false_ne_true, fun _ => rfl⟩
  · have hzero := List.count_eq_zero.mpr (mt mem_losses.mp hlost)
    have hiff : s.AnsweredRight k root ↔ Ordinary root := by
      by_cases hdue : due root = true
      · rw [if_pos hdue] at hcount
        have hone : (s.responsesTo k).length = 1 := by omega
        obtain ⟨resp, hresp⟩ := List.length_eq_one_iff.mp hone
        have hid := id_of_response h hk (hresp ▸ List.mem_singleton_self resp)
        rw [AnsweredRight, hresp]
        constructor
        · rintro ⟨hreq, hnot⟩
          refine ordinary_of_due hdue ?_ ?_
          · intro hr
            obtain ⟨resp', he, hid'⟩ := hreq hr
            rw [← List.singleton_inj.mp he, hid] at hid'
            exact hid'
          · exact fun hn => absurd (hnot hn) (List.cons_ne_nil _ _)
        · intro hord
          refine ⟨fun hr => ⟨resp, rfl, hid.trans (hord.request hr).2.2⟩, ?_⟩
          rintro (hn | hr)
          · rw [not_isNotification_of_due hord hdue] at hn
            cases hn
          · rw [hord.not_response] at hr
            cases hr
      · rw [if_neg hdue] at hcount
        have hnil : s.responsesTo k = [] := List.eq_nil_of_length_eq_zero (by omega)
        rw [AnsweredRight, hnil]
        constructor
        · rintro ⟨hreq, -⟩
          refine ordinary_of_not_due (Bool.not_eq_true _ ▸ hdue) ?_
          rw [← Bool.not_eq_true]
          intro hr
          obtain ⟨resp, hresp, -⟩ := hreq hr
          cases hresp
        · exact fun hord => ⟨fun hr => absurd (due_of_request hord hr) hdue, fun _ => rfl⟩
    rw [hiff]
    constructor
    · exact fun hord => Or.inl ⟨hlost, hord⟩
    · rintro (⟨-, hord⟩ | ⟨hin, -⟩)
      · exact hord
      · exact absurd hin hlost

/-! ### Every run comes to an end -/

/-- The most steps that are left, for the messages still to come and the jobs on their way. -/
def work (s : Server) : ℕ :=
  6 * s.inbox.length + s.marking.toList.length + 4 * s.workQueue.length +
    3 * s.coordinating.toList.length + 2 * s.requestQueue.length + s.running.length

theorem reader_work (message : Option Json) (inbox : List (Option Json)) (s : Server)
    (hmark : s.marking = none) : (reader message inbox s).marking.toList.length +
      4 * (reader message inbox s).workQueue.length ≤ 4 * s.workQueue.length + 4 := by
  cases message with
  | none =>
    rw [reader, hmark]
    exact Nat.le_trans (by simp) (Nat.le_add_right _ 4)
  | some root =>
    simp only [reader, serverProcess]
    split
    · simp [hmark]
    · split
      · cases Json.getSint (Json.objGet (paramsOf root) "id") with
        | none => simp [hmark]
        | some id =>
          simp only [Option.toList_some, List.length_singleton, List.length_map]
          omega
      · simp only [hmark, Option.toList_none, List.length_nil, List.length_append,
          List.length_singleton]
        omega

theorem step_work {s s' : Server} (hs : Step parse write handlers workers s s') :
    s'.work < s.work := by
  cases hs with
  | @read message inbox hmark hstop hin =>
    have hle := reader_work message inbox s hmark
    obtain ⟨marking, stopped, workQueue, he⟩ := reader_frame message inbox s
    rw [he] at hle ⊢
    simp only [work, hin, hmark, List.length_cons, Option.toList_none, List.length_nil] at hle ⊢
    omega
  | mark hmark =>
    simp only [work, hmark, Option.toList_none, Option.toList_some, List.length_map, List.length_nil,
      List.length_singleton]
    omega
  | pop hfree hq =>
    simp only [work, hfree, hq, Option.toList_none, Option.toList_some, List.length_nil,
      List.length_cons]
    omega
  | @coordinate j w a hj ha =>
    obtain ⟨live, heap, current, requestQueue, sent, made, he, hqueue⟩ :=
      coordinator_frame parse write handlers w a j s
    have hle : requestQueue.length ≤ s.requestQueue.length + 1 := by
      rcases hqueue with rfl | ⟨q, -, rfl⟩
      · exact Nat.le_succ _
      · exact (List.length_append ..).le
    rw [he]
    simp only [work, hj, Option.toList_none, Option.toList_some, List.length_nil,
      List.length_singleton]
    omega
  | take hq hroom =>
    simp only [work, hq, List.length_cons]
    omega
  | @work q before after hq =>
    obtain ⟨heap, sent, made, he⟩ := queryWorker_frame write handlers q
      { s with running := before ++ after }
    rw [he]
    simp only [work, hq, List.length_append, List.length_cons]
    omega

/-- Where no thread can go on, no job is left, and nothing is left to read but after an exit. -/
theorem Reached.ended (hworkers : 0 < workers) {s : Server}
    (h : Reached parse write handlers workers inbound s)
    (hend : ∀ s', ¬ Step parse write handlers workers s s') :
    s.flight = [] ∧ (s.stopped = true ∨ inbound.length ≤ s.arrived) := by
  have hmark : s.marking = none := by
    cases hm : s.marking with
    | none => rfl
    | some id => exact absurd (.mark hm) (hend _)
  have hcoord : s.coordinating = none := by
    cases hc : s.coordinating with
    | none => rfl
    | some j =>
      obtain ⟨a, ha⟩ := h.refines.1.counts.exists_free
      exact absurd (.coordinate (fileSystem []) a hc ha) (hend _)
  have hwork : s.workQueue = [] := by
    cases hw : s.workQueue with
    | nil => rfl
    | cons j q => exact absurd (.pop hcoord hw) (hend _)
  have hrunning : s.running = [] := by
    cases hr : s.running with
    | nil => rfl
    | cons q rest =>
      have hsplit : s.running = [] ++ q :: rest := hr
      exact absurd (.work hsplit) (hend _)
  have hrequest : s.requestQueue = [] := by
    cases hr : s.requestQueue with
    | nil => rfl
    | cons q rest =>
      refine absurd (.take hr ?_) (hend _)
      rw [hrunning]
      exact hworkers
  refine ⟨?_, ?_⟩
  · rw [flight, pending, handedOn, hcoord, hwork, hrunning, hrequest]
    rfl
  · cases hs : s.stopped with
    | true => exact Or.inl rfl
    | false =>
      cases hi : s.inbox with
      | nil =>
        have hdrop := h.inOrder.inbox_eq
        rw [hi] at hdrop
        exact Or.inr (List.drop_eq_nil_iff.mp hdrop.symm)
      | cons message inbox => exact absurd (.read hmark hs hi) (hend _)

/-- **Which messages are answered.** In every state reached:

* no message has more than one response;
* a message that is through is answered as it should be if it is ordinary and the response to it
  can be written, or if it is no request and the response to it cannot be written;
* every step lowers a bound, and where there is no step left every message is through that was read,
  which is all of them unless the client has sent an exit. -/
theorem answered_iff {s : Server}
    (h : Reached parse write handlers numQueryWorkers inbound s) :
    (∀ k, (s.responsesTo k).length ≤ 1) ∧
    (∀ k root, inbound[k]? = some (some root) → s.Through k →
      (s.AnsweredRight k root ↔ (¬ s.Lost write k ∧ Ordinary root) ∨
        (s.Lost write k ∧ isRequest root = false))) ∧
    (∀ s', Step parse write handlers numQueryWorkers s s' → s'.work < s.work) ∧
    ((∀ s', ¬ Step parse write handlers numQueryWorkers s s') →
      (∀ k, s.Through k ↔ k < s.arrived) ∧ (s.stopped = true ∨ inbound.length ≤ s.arrived)) := by
  refine ⟨responsesTo_le_one h, fun k root => answeredRight_iff h, fun s' => step_work, ?_⟩
  intro hend
  obtain ⟨hflight, hall⟩ := h.ended (by decide) hend
  refine ⟨fun k => ⟨And.left, fun hk => ⟨hk, ?_⟩⟩, hall⟩
  rw [hflight]
  exact fun j hj => absurd hj List.not_mem_nil

/-- A hover request and the client's response to the server, both of them through. -/
theorem answered_iff_hover : ∃ s, Reached blankParse (fun v => some (plainText v)) nullHandlers
      numQueryWorkers [some (hoverRequest 1 "file:///a.tjp"), some registeredResponse] s ∧
    s.AnsweredRight 0 (hoverRequest 1 "file:///a.tjp") ∧ ¬ s.AnsweredRight 1 registeredResponse := by
  let turns : List Turn := [.read, .read, .pop, .coordinate (fileSystem []) 0, .pop,
    .coordinate (fileSystem []) 0, .take, .take, .work, .work]
  let inbound := [some (hoverRequest 1 "file:///a.tjp"), some registeredResponse]
  have hrun : (runOf inbound turns).map
      (fun s => (s.arrived, s.flight.length)) = some (2, 0) := by decide +kernel
  obtain ⟨s, hs, he⟩ := Option.map_eq_some_iff.mp hrun
  rw [Prod.mk.injEq] at he
  obtain ⟨harrived, hflight⟩ := he
  have hreached := reached_of_turns hs
  have hthrough : ∀ k < 2, s.Through k := by
    intro k hk
    refine ⟨harrived ▸ hk, ?_⟩
    rw [List.eq_nil_of_length_eq_zero hflight]
    exact fun j hj => absurd hj List.not_mem_nil
  have hwritten : ∀ k, ¬ s.Lost (fun v => some (plainText v)) k := by
    rintro k ⟨resp, -, hnone⟩
    cases hnone
  obtain ⟨-, hright, -⟩ := answered_iff hreached
  refine ⟨s, hreached, ?_, ?_⟩
  · refine (hright 0 _ rfl (hthrough 0 (by decide))).mpr (Or.inl ⟨hwritten 0, ?_⟩)
    · refine ⟨by decide +kernel, fun _ => ⟨by decide +kernel, by decide +kernel, rfl⟩, ?_⟩
      intro hn
      have hnot : isNotification (hoverRequest 1 "file:///a.tjp") = false := by decide +kernel
      rw [hnot] at hn
      cases hn
  · intro h
    rcases (hright 1 _ rfl (hthrough 1 (by decide))).mp h with ⟨-, hord⟩ | ⟨hlost, -⟩
    · have hresp : isResponse registeredResponse = true := by decide +kernel
      rw [hord.not_response] at hresp
      cases hresp
    · exact absurd hlost (hwritten 1)

/-- The client's response to the registration of the file watcher gets a response of its own. -/
theorem client_response_answered : isResponse registeredResponse = true ∧
    ∃ s, Reached blankParse (fun v => some (plainText v)) nullHandlers numQueryWorkers
        [some registeredResponse] s ∧
      s.Through 0 ∧ (s.responsesTo 0).length = 1 ∧ ¬ s.AnsweredRight 0 registeredResponse := by
  have hresp : isResponse registeredResponse = true := by decide +kernel
  refine ⟨hresp, ?_⟩
  let turns : List Turn := [.read, .pop, .coordinate (fileSystem []) 0, .take, .work]
  have hrun : (runOf [some registeredResponse] turns).map
      (fun s => (s.arrived, s.flight.length, (s.responsesTo 0).length)) = some (1, 0, 1) := by
    decide +kernel
  obtain ⟨s, hs, he⟩ := Option.map_eq_some_iff.mp hrun
  rw [Prod.mk.injEq, Prod.mk.injEq] at he
  obtain ⟨harrived, hflight, hone⟩ := he
  refine ⟨s, reached_of_turns hs, ⟨harrived ▸ Nat.one_pos, ?_⟩, hone, ?_⟩
  · rw [List.eq_nil_of_length_eq_zero hflight]
    exact fun j hj => absurd hj List.not_mem_nil
  · intro h
    rw [h.2 (Or.inr hresp)] at hone
    cases hone

end Server

end TaskjugglerLsp
