import TaskjugglerLsp.Server.Flow
import TaskjugglerLsp.Workspace.Snapshot

/-!
# Queries see what arrived before them

The sequential server applies one message after the other (`serve`).  The
concurrent one refines it: at every moment the live store is the one that the
sequential server has after what the coordinator has handled, and a query that is
handed on holds the context that the sequential server builds after everything
that arrived before the query (`query_isolation`).

The snapshot behind that context is shared and counted; while the query holds it,
it is neither freed nor replaced by another object at its address.
-/

namespace TaskjugglerLsp

open Lib.Arrivals Lib.RefCount

/-! ### The sequential server -/

section Sequential

variable (parse : CStr → ParseOutput)

/-- What a message does to the state: a notification always runs its handler, an inline request
unless it has been cancelled. -/
def Handled.serve (st : ServerState) (h : Handled) : ServerState :=
  match methodLookup (methodOf h.request) with
  | some entry =>
    if entry.kind = .notification ∨ entry.kind = .inline ∧ h.cancelled = false then
      (entry.event (paramsOf h.request)).apply h.world parse st
    else st
  | none => st

/-- The state after some messages, one after the other. -/
def serve (hist : List Handled) : ServerState := hist.foldl (Handled.serve parse) initialState

theorem serve_concat (hist : List Handled) (h : Handled) :
    serve parse (hist ++ [h]) = h.serve parse (serve parse hist) := by
  rw [serve, List.foldl_append, List.foldl_cons, List.foldl_nil, serve]

/-- The documents and the projects that a query can see; there is nothing to see before the first
publication. -/
def visible (ws : Option WorkspaceSnapshot) : List WsDoc × List WsProject :=
  ws.elim ([], []) fun ws => (ws.docs, ws.projects)

/-- What is published is the snapshot of the store, as URIs are resolved in one of these worlds. -/
def UpToDate (worlds : List World) (st : ServerState) : Prop :=
  (∃ w ∈ worlds, ∃ status, st.ws = buildWorkspaceSnapshot w.realpath st.docs status) ∨
    (st.docs = emptyStore ∧ st.ws = none)

variable {parse}

theorem UpToDate.mono {worlds worlds' : List World} {st : ServerState} (h : UpToDate worlds st)
    (hsub : worlds ⊆ worlds') : UpToDate worlds' st := by
  rcases h with ⟨w, hw, hws⟩ | h
  · exact Or.inl ⟨w, hsub hw, hws⟩
  · exact Or.inr h

theorem UpToDate.apply {worlds : List World} {st : ServerState} (h : UpToDate worlds st)
    (w : World) (e : Event) : UpToDate (worlds ++ [w]) (e.apply w parse st) := by
  rcases Event.publishes w parse st e with hp | ⟨hdocs, hws⟩
  · exact Or.inl ⟨w, List.mem_append_right _ (List.mem_singleton_self w), _, hp⟩
  · have h' := h.mono (List.subset_append_left worlds [w])
    rw [UpToDate, hdocs, hws]
    exact h'

/-- **The sequential server** publishes what it leaves in the store. -/
theorem serve_upToDate (hist : List Handled) :
    UpToDate (hist.map (·.world)) (serve parse hist) := by
  induction hist using List.reverseRecOn with
  | nil => exact Or.inr ⟨rfl, rfl⟩
  | append_singleton hist h ih =>
    rw [serve_concat, List.map_append, Handled.serve]
    have hsame := ih.mono (List.subset_append_left _ [h.world])
    cases methodLookup (methodOf h.request) with
    | none => exact hsame
    | some entry =>
      simp only
      split
      · exact ih.apply h.world _
      · exact hsame

theorem build_empty (realpath : CStr → Option CStr) (status : CcStatus) :
    buildWorkspaceSnapshot realpath emptyStore status = some ⟨[], [], status⟩ := by
  have hparsed : parsedSlots emptyStore = [] := by decide
  have hroots : allRoots emptyStore = [] := by decide
  have horphans : allOrphans realpath emptyStore = [] := by
    rw [allOrphans, hroots, orphansIn, List.filter_eq_nil_iff]
    intro i _
    simp [Store.parsed, emptyStore]
  rw [build_eq, hroots, horphans, stampedDocs, hparsed]
  rfl

theorem UpToDate.visible_eq {worlds : List World} {st : ServerState} (h : UpToDate worlds st)
    (w₀ : World) : ∃ w ∈ worlds ++ [w₀], ∃ status,
      visible st.ws = visible (buildWorkspaceSnapshot w.realpath st.docs status) := by
  rcases h with ⟨w, hw, status, hws⟩ | ⟨hdocs, hws⟩
  · exact ⟨w, List.mem_append_left _ hw, status, by rw [hws]⟩
  · refine ⟨w₀, List.mem_append_right _ (List.mem_singleton_self w₀), .ok, ?_⟩
    rw [hws, hdocs, build_empty]
    rfl

end Sequential

/-! ### The references to published snapshots -/

namespace Server

variable {parse : CStr → ParseOutput} {write : Json → Option CStr} {handlers : Handlers}

/-- The references that are held: the published one, and those of the queries. -/
def held (s : Server) : List Address := s.current.toList ++ s.handedOn.filterMap (·.pin)

/-- The heap counts the references, the published snapshot is that of the live store, and every
query still finds the snapshot that was pinned for it. -/
structure Pinned (s : Server) : Prop where
  counts : s.heap.Counts s.held
  published : s.current.bind s.heap.contents = s.live.ws
  pinned : ∀ q ∈ s.handedOn, q.pin.bind s.heap.contents = q.context.ws

theorem pinned_start (inbound : List (Option Json)) : (start inbound).Pinned := by
  refine ⟨Heap.counts_nil, rfl, ?_⟩
  intro q hq
  cases hq

theorem mem_held_of_pin {s : Server} {q : QueryJob} {a : Address} (hq : q ∈ s.handedOn)
    (ha : q.pin = some a) : a ∈ s.held :=
  List.mem_append_right _ (List.mem_filterMap.mpr ⟨q, hq, ha⟩)

/-- What a query holds is the same in a heap that agrees on what is held. -/
theorem pin_congr {s : Server} {h : Heap Address WorkspaceSnapshot} {q : QueryJob}
    (hq : q ∈ s.handedOn) (hsame : ∀ a ∈ s.held, h.contents a = s.heap.contents a) :
    q.pin.bind h.contents = q.pin.bind s.heap.contents := by
  cases ha : q.pin with
  | none => rfl
  | some a => exact hsame a (mem_held_of_pin hq ha)

theorem Pinned.publish {s : Server} {st : ServerState} (h : s.Pinned) {a : Address}
    (ha : s.heap a = none) {ws : WorkspaceSnapshot} (hws : st.ws = some ws) :
    ({ s with live := st } : Server).publish a |>.Pinned := by
  have hlive : ({ s with live := st } : Server).live.ws = some ws := hws
  rw [Server.publish, hlive]
  have hcreate := h.counts.create (v := ws) ha
  have hne : ∀ b ∈ s.held, b ≠ a := fun b hb he => h.counts.notMem ha (he ▸ hb)
  cases hcur : s.current with
  | none =>
    have hheld : s.held = s.handedOn.filterMap (·.pin) := by rw [held, hcur]; rfl
    refine ⟨?_, ?_, ?_⟩
    · rw [hheld] at hcreate
      exact hcreate
    · exact Heap.contents_create_self.trans hws.symm
    · intro q hq
      rw [← h.pinned q hq]
      exact pin_congr hq fun b hb => Heap.contents_create_of_ne (hne b hb)
  | some c =>
    have hheld : s.held = c :: s.handedOn.filterMap (·.pin) := by rw [held, hcur]; rfl
    have hrelease : (s.heap.create a ws).Counts (c :: a :: s.handedOn.filterMap (·.pin)) := by
      refine hcreate.perm ?_
      rw [hheld]
      exact List.Perm.swap _ _ _
    have hsame : ∀ b ∈ a :: s.handedOn.filterMap (·.pin),
        ((s.heap.create a ws).release c).contents b = (s.heap.create a ws).contents b :=
      fun b hb => hrelease.contents_release hb
    refine ⟨hrelease.release, ?_, ?_⟩
    · exact (hsame a List.mem_cons_self).trans (Heap.contents_create_self.trans hws.symm)
    · intro q hq
      rw [← h.pinned q hq]
      cases hpin : q.pin with
      | none => rfl
      | some b =>
        have hb : b ∈ s.handedOn.filterMap (·.pin) := List.mem_filterMap.mpr ⟨q, hq, hpin⟩
        refine (hsame b (List.mem_cons_of_mem _ hb)).trans ?_
        exact Heap.contents_create_of_ne (hne b (mem_held_of_pin hq hpin))

/-- **A handler** replaces the published snapshot and nothing else that is held. -/
theorem Pinned.handle {s : Server} (h : s.Pinned) (w : World) {a : Address}
    (ha : s.heap a = none) (e : Event) : (s.handle parse w a e).Pinned := by
  have hws := Event.ws_eq w parse s.live e
  rw [Server.handle]
  by_cases hr : e.republishes w parse s.live = true
  · rw [if_pos hr] at hws ⊢
    rw [build_eq] at hws
    exact h.publish ha hws
  · rw [if_neg hr] at hws ⊢
    exact ⟨h.counts, h.published.trans hws.symm, h.pinned⟩

theorem filterMap_pin_mark (id : ℤ) (queue : List QueryJob) :
    (queue.map (QueryJob.markCancelledById id)).filterMap (·.pin) = queue.filterMap (·.pin) := by
  rw [List.filterMap_map]
  rfl

theorem Pinned.handOn {s : Server} (h : s.Pinned) (w : World) (j : Job) (wantAllDocs : Bool)
    (hn : j.isNotification = false) (hi : kindOf j.request ≠ some .inline) :
    (s.handOn w j wantAllDocs hn hi).Pinned := by
  have hws : ∀ st primaryUri, (buildQueryContext w.realpath st primaryUri wantAllDocs).ws
      = st.ws := by
    intro st primaryUri
    rw [buildQueryContext]
    cases st.ws <;> rfl
  have hsame : ∀ b, (wsAcquire s.current s.heap).contents b = s.heap.contents b := by
    intro b
    cases s.current with
    | none => rfl
    | some a => exact Heap.contents_acquire
  refine ⟨?_, ?_, ?_⟩
  · cases hcur : s.current with
    | none =>
      have hheld : (s.handOn w j wantAllDocs hn hi).held = s.held := by
        simp [held, handedOn, Server.handOn, hcur]
      rw [hheld, Server.handOn, hcur]
      exact h.counts
    | some a =>
      have hmem : a ∈ s.held := by
        rw [held, hcur]
        exact List.mem_append_left _ (List.mem_singleton_self a)
      have hheld : (a :: s.held).Perm (s.handOn w j wantAllDocs hn hi).held := by
        simp only [held, handedOn, Server.handOn, hcur, List.filterMap_append, List.filterMap_cons,
          Option.toList_some, List.append_assoc, List.singleton_append]
        exact List.Perm.cons a List.perm_middle.symm
      have hcounts : (wsAcquire s.current s.heap).Counts (a :: s.held) := by
        rw [hcur]
        exact h.counts.acquire hmem
      exact hcounts.perm hheld
  · have hbind : s.current.bind (wsAcquire s.current s.heap).contents
        = s.current.bind s.heap.contents := by
      rw [funext hsame]
    exact hbind.trans h.published
  · intro q hq
    have hbind : q.pin.bind (wsAcquire s.current s.heap).contents = q.pin.bind s.heap.contents := by
      rw [funext hsame]
    refine hbind.trans ?_
    have hcases : q ∈ s.handedOn ∨ (q.pin = s.current ∧ q.context.ws = s.live.ws) := by
      rcases List.mem_append.mp hq with hq | hq
      · rcases List.mem_append.mp hq with hq | hq
        · exact Or.inl (List.mem_append_left _ hq)
        · rw [List.mem_singleton.mp hq]
          exact Or.inr ⟨rfl, hws _ _⟩
      · exact Or.inl (List.mem_append_right _ hq)
    rcases hcases with hq | ⟨hpin, hctx⟩
    · exact h.pinned q hq
    · rw [hpin, hctx]
      exact h.published

theorem Pinned.coordinator {s : Server} (h : s.Pinned) (w : World) {a : Address}
    (ha : s.heap a = none) (j : Job) : (coordinator parse write handlers w a j s).Pinned := by
  have hlogged : (s.logged w j).Pinned := ⟨h.counts, h.published, h.pinned⟩
  have hcases := coordinator_cases parse write handlers w a j s
  generalize TaskjugglerLsp.coordinator parse write handlers w a j s = s' at hcases ⊢
  cases hcases with
  | notified hentry hk => exact hlogged.handle w ha _
  | cancelled hn hc =>
    obtain ⟨sent, made, he⟩ := serverDispatchCancelled_frame write j (s.logged w j)
    rw [he]
    exact ⟨hlogged.counts, hlogged.published, hlogged.pinned⟩
  | @inline entry hentry hk hc =>
    have hhandled : ((s.logged w j).handle parse w a (entry.event (paramsOf j.request))).Pinned :=
      hlogged.handle w ha _
    obtain ⟨sent, made, he⟩ := sendResponse_frame write j.arrival
      (makeResponse (idOf j.request) (handlers.inline entry.method))
      ((s.logged w j).handle parse w a (entry.event (paramsOf j.request)))
    rw [answerInline, he]
    exact ⟨hhandled.counts, hhandled.published, hhandled.pinned⟩
  | handedOn hn hi hc => exact hlogged.handOn w j _ hn hi

theorem Pinned.work {s : Server} (h : s.Pinned) {q : QueryJob} {before after : List QueryJob}
    (hq : s.running = before ++ q :: after) :
    (queryWorker write handlers q { s with running := before ++ after }).Pinned := by
  have hmem : ∀ p ∈ s.requestQueue ++ (before ++ after), p ∈ s.handedOn := by
    intro p hp
    rw [handedOn, hq]
    rcases List.mem_append.mp hp with hp | hp
    · exact List.mem_append_left _ hp
    · exact List.mem_append_right _ (List.perm_middle.mem_iff.mpr (List.mem_cons_of_mem _ hp))
  have hheap : (queryWorker write handlers q { s with running := before ++ after }).heap
      = wsRelease q.pin s.heap := by
    rw [queryWorker, serverRunQuery]
    simp only
    split
    · obtain ⟨sent, made, he⟩ := serverDispatchCancelled_frame write q.toJob
        { s with running := before ++ after }
      rw [he]
    · cases queryResponse handlers q with
      | none => rfl
      | some resp =>
        obtain ⟨sent, made, he⟩ := sendResponse_frame write q.arrival resp
          { s with running := before ++ after }
        simp only [he]
  have hperm : s.held.Perm (q.pin.toList ++ (s.current.toList ++
      (s.requestQueue ++ (before ++ after)).filterMap (·.pin))) := by
    rw [held, handedOn, hq]
    cases hpin : q.pin with
    | none => simp [List.filterMap_append, hpin]
    | some a =>
      simp only [List.filterMap_append, List.filterMap_cons, hpin, Option.toList_some,
        List.singleton_append, ← List.append_assoc]
      exact List.perm_middle
  obtain ⟨heap, sent, made, he⟩ := queryWorker_frame write handlers q
    { s with running := before ++ after }
  rw [he] at hheap ⊢
  simp only at hheap
  subst hheap
  cases hpin : q.pin with
  | none =>
    rw [hpin] at hperm
    exact ⟨h.counts.perm hperm, h.published, fun p hp => h.pinned p (hmem p hp)⟩
  | some a =>
    rw [hpin] at hperm
    have hcounts : s.heap.Counts (a :: (s.current.toList ++
        (s.requestQueue ++ (before ++ after)).filterMap (·.pin))) := h.counts.perm hperm
    refine ⟨hcounts.release, ?_, ?_⟩
    · rw [← h.published]
      cases hcur : s.current with
      | none => rfl
      | some c =>
        have hc : c ∈ s.current.toList := by
          rw [hcur]
          exact List.mem_singleton_self c
        exact hcounts.contents_release (List.mem_append_left _ hc)
    · intro p hp
      rw [← h.pinned p (hmem p hp)]
      cases hpin' : p.pin with
      | none => rfl
      | some b =>
        exact hcounts.contents_release
          (List.mem_append_right _ (List.mem_filterMap.mpr ⟨p, hp, hpin'⟩))

theorem Pinned.step {workers : ℕ} {s s' : Server} (h : s.Pinned)
    (hs : Step parse write handlers workers s s') : s'.Pinned := by
  cases hs with
  | @read message inbox hmark hstop hin =>
    obtain ⟨marking, stopped, workQueue, he⟩ := reader_frame message inbox s
    rw [he]
    exact ⟨h.counts, h.published, h.pinned⟩
  | @mark id hmark =>
    refine ⟨?_, h.published, ?_⟩
    · have hheld : s.held = s.current.toList ++
          (s.requestQueue.map (QueryJob.markCancelledById id) ++ s.running).filterMap (·.pin) := by
        rw [List.filterMap_append, filterMap_pin_mark, ← List.filterMap_append]
        rfl
      have hcounts := h.counts
      rw [hheld] at hcounts
      exact hcounts
    · intro q hq
      rcases List.mem_append.mp hq with hq | hq
      · obtain ⟨p, hp, rfl⟩ := List.mem_map.mp hq
        exact h.pinned p (List.mem_append_left _ hp)
      · exact h.pinned q (List.mem_append_right _ hq)
  | pop hfree hq => exact ⟨h.counts, h.published, h.pinned⟩
  | coordinate w a hj ha => exact h.coordinator w ha _
  | @take q rest hq hroom =>
    have hperm : s.handedOn.Perm (rest ++ q :: s.running) := by
      rw [handedOn, hq]
      exact List.perm_middle.symm
    refine ⟨h.counts.perm ((hperm.filterMap _).append_left _), h.published, ?_⟩
    intro p hp
    exact h.pinned p (hperm.mem_iff.mpr hp)
  | work hq => exact h.work hq

/-! ### The refinement -/

/-- The context that the sequential server builds for a query after some messages. -/
def contextAfter (parse : CStr → ParseOutput) (hist : List Handled) (w : World) (request : Json) :
    QueryContext :=
  buildQueryContext w.realpath (serve parse hist) (requestPrimaryUri (paramsOf request))
    ((methodLookup (methodOf request)).any (·.wantAllDocs))

/-- The live store is that of the sequential server, and every query that is handed on holds the
context that it builds. -/
structure Refines (parse : CStr → ParseOutput) (s : Server) : Prop where
  live_eq : s.live = serve parse s.log
  contexts : ∀ q ∈ s.handedOn, ∃ hist w, hist ++ [⟨q.arrival, q.request, w, false⟩] <+: s.log ∧
    q.context = contextAfter parse hist w q.request

theorem refines_start (inbound : List (Option Json)) : (start inbound).Refines parse := by
  refine ⟨rfl, ?_⟩
  intro q hq
  cases hq

theorem serve_of_runs {st : ServerState} {h : Handled} {entry : MethodEntry}
    (hentry : methodLookup (methodOf h.request) = some entry)
    (hk : entry.kind = .notification ∨ entry.kind = .inline ∧ h.cancelled = false) :
    h.serve parse st = (entry.event (paramsOf h.request)).apply h.world parse st := by
  rw [Handled.serve, hentry]
  exact if_pos hk

theorem serve_of_idle {st : ServerState} {h : Handled}
    (hn : kindOf h.request ≠ some .notification)
    (hi : kindOf h.request ≠ some .inline ∨ h.cancelled = true) : h.serve parse st = st := by
  rw [Handled.serve]
  cases hentry : methodLookup (methodOf h.request) with
  | none => rfl
  | some entry =>
    rw [kindOf, hentry, Option.map_some, ne_eq, Option.some.injEq] at hn hi
    refine if_neg ?_
    rintro (hk | ⟨hk, hc⟩)
    · exact hn hk
    · rcases hi with hi | hi
      · exact hi hk
      · rw [hi] at hc
        cases hc

theorem kindOf_ne_notification {j : Job} (hn : j.isNotification = false) :
    kindOf j.request ≠ some .notification := by
  intro hk
  rw [j.isNotification_iff.mpr hk] at hn
  cases hn

theorem Refines.coordinator {s : Server} (h : s.Refines parse) (w : World) (a : Address) (j : Job) :
    (coordinator parse write handlers w a j s).Refines parse := by
  have hold : ∀ q ∈ s.handedOn, ∃ hist w',
      hist ++ [⟨q.arrival, q.request, w', false⟩] <+: s.log ++ [j.handled w] ∧
        q.context = contextAfter parse hist w' q.request := by
    intro q hq
    obtain ⟨hist, w', hp, hctx⟩ := h.contexts q hq
    exact ⟨hist, w', hp.trans (List.prefix_append _ _), hctx⟩
  have hserve : serve parse (s.log ++ [j.handled w]) = (j.handled w).serve parse s.live := by
    rw [serve_concat, ← h.live_eq]
  have hcases := coordinator_cases parse write handlers w a j s
  generalize TaskjugglerLsp.coordinator parse write handlers w a j s = s' at hcases ⊢
  cases hcases with
  | @notified entry hentry hk =>
    obtain ⟨heap, current, he⟩ := handle_frame parse w a (entry.event (paramsOf j.request))
      (s.logged w j)
    rw [he]
    exact ⟨(hserve.trans (serve_of_runs hentry (Or.inl hk))).symm, hold⟩
  | cancelled hn hc =>
    obtain ⟨sent, made, he⟩ := serverDispatchCancelled_frame write j (s.logged w j)
    rw [he]
    have hidle : (j.handled w).serve parse s.live = s.live :=
      serve_of_idle (kindOf_ne_notification hn) (Or.inr hc)
    exact ⟨(hserve.trans hidle).symm, hold⟩
  | @inline entry hentry hk hc =>
    obtain ⟨heap, current, he⟩ := handle_frame parse w a (entry.event (paramsOf j.request))
      (s.logged w j)
    rw [answerInline, he]
    obtain ⟨sent, made, he'⟩ := sendResponse_frame write j.arrival
      (makeResponse (idOf j.request) (handlers.inline entry.method))
      { s.logged w j with
        live := (entry.event (paramsOf j.request)).apply w parse (s.logged w j).live
        heap := heap
        current := current }
    rw [he']
    exact ⟨(hserve.trans (serve_of_runs hentry (Or.inr ⟨hk, hc⟩))).symm, hold⟩
  | handedOn hn hi hc =>
    have hidle : (j.handled w).serve parse s.live = s.live :=
      serve_of_idle (kindOf_ne_notification hn) (Or.inl hi)
    refine ⟨(hserve.trans hidle).symm, ?_⟩
    intro q hq
    rcases List.mem_append.mp hq with hq | hq
    · rcases List.mem_append.mp hq with hq | hq
      · exact hold q (List.mem_append_left _ hq)
      · rw [List.mem_singleton.mp hq]
        refine ⟨s.log, w, ?_, ?_⟩
        · have hentry : j.handled w = ⟨j.arrival, j.request, w, false⟩ := by rw [Job.handled, hc]
          exact hentry ▸ List.prefix_rfl
        · rw [contextAfter, ← h.live_eq]
          rfl
    · exact hold q (List.mem_append_right _ hq)

theorem Refines.step {workers : ℕ} {s s' : Server} (h : s.Refines parse)
    (hs : Step parse write handlers workers s s') : s'.Refines parse := by
  cases hs with
  | @read message inbox hmark hstop hin =>
    obtain ⟨marking, stopped, workQueue, he⟩ := reader_frame message inbox s
    rw [he]
    exact ⟨h.live_eq, h.contexts⟩
  | @mark id hmark =>
    refine ⟨h.live_eq, ?_⟩
    intro q hq
    rcases List.mem_append.mp hq with hq | hq
    · obtain ⟨p, hp, rfl⟩ := List.mem_map.mp hq
      obtain ⟨ha, hr⟩ := p.toJob.markCancelledById_frame id
      obtain ⟨hist, w, hpre, hctx⟩ := h.contexts p (List.mem_append_left _ hp)
      refine ⟨hist, w, ?_, ?_⟩
      · have hentry : (⟨(p.markCancelledById id).arrival, (p.markCancelledById id).request, w,
            false⟩ : Handled) = ⟨p.arrival, p.request, w, false⟩ :=
          congrArg₂ (fun a r => Handled.mk a r w false) ha hr
        rw [hentry]
        exact hpre
      · have hreq : (p.markCancelledById id).request = p.request := hr
        rw [hreq]
        exact hctx
    · exact h.contexts q (List.mem_append_right _ hq)
  | pop hfree hq => exact ⟨h.live_eq, h.contexts⟩
  | coordinate w a hj ha => exact h.coordinator w a _
  | @take q rest hq hroom =>
    refine ⟨h.live_eq, ?_⟩
    intro p hp
    refine h.contexts p ?_
    rw [handedOn, hq]
    exact List.perm_middle.mem_iff.mp hp
  | @work q before after hq =>
    obtain ⟨heap, sent, made, he⟩ := queryWorker_frame write handlers q
      { s with running := before ++ after }
    rw [he]
    refine ⟨h.live_eq, ?_⟩
    intro p hp
    refine h.contexts p ?_
    rw [handedOn, hq]
    rcases List.mem_append.mp hp with hp | hp
    · exact List.mem_append_left _ hp
    · exact List.mem_append_right _ (List.perm_middle.mem_iff.mpr (List.mem_cons_of_mem _ hp))

theorem Reached.refines {workers : ℕ} {inbound : List (Option Json)} {s : Server}
    (h : Reached parse write handlers workers inbound s) : s.Pinned ∧ s.Refines parse := by
  induction h with
  | refl => exact ⟨pinned_start inbound, refines_start inbound⟩
  | tail _ hs ih => exact ⟨ih.1.step hs, ih.2.step hs⟩

/-- From one state to the next a query keeps what it holds, until it is answered from that. -/
def Keeps (write : Json → Option CStr) (handlers : Handlers) (q : QueryJob) (s s' : Server) : Prop :=
  (∃ q' ∈ s'.handedOn, q'.toJob.key = q.toJob.key ∧ q'.pin = q.pin ∧ q'.context = q.context) ∨
    ∃ before after, s.running = before ++ q :: after ∧
      s' = queryWorker write handlers q { s with running := before ++ after }

theorem keeps_step {workers : ℕ} {s s' : Server} {q : QueryJob} (hq : q ∈ s.handedOn)
    (hs : Step parse write handlers workers s s') : Keeps write handlers q s s' := by
  cases hs with
  | @read message inbox hmark hstop hin =>
    obtain ⟨marking, stopped, workQueue, he⟩ := reader_frame message inbox s
    rw [he]
    exact Or.inl ⟨q, hq, rfl, rfl, rfl⟩
  | @mark id hmark =>
    rcases List.mem_append.mp hq with hq | hq
    · exact Or.inl ⟨q.markCancelledById id, List.mem_append_left _ (List.mem_map_of_mem hq),
        key_markCancelledById id q, rfl, rfl⟩
    · exact Or.inl ⟨q, List.mem_append_right _ hq, rfl, rfl, rfl⟩
  | pop hfree hj => exact Or.inl ⟨q, hq, rfl, rfl, rfl⟩
  | @coordinate j w a hj ha =>
    obtain ⟨live, heap, current, requestQueue, sent, made, he, hqueue⟩ :=
      coordinator_frame parse write handlers w a j s
    rw [he]
    refine Or.inl ⟨q, ?_, rfl, rfl, rfl⟩
    rcases hqueue with rfl | ⟨p, -, rfl⟩
    · exact hq
    · rcases List.mem_append.mp hq with hq | hq
      · exact List.mem_append_left _ (List.mem_append_left _ hq)
      · exact List.mem_append_right _ hq
  | @take p rest hp hroom =>
    refine Or.inl ⟨q, ?_, rfl, rfl, rfl⟩
    rw [handedOn, hp] at hq
    exact List.perm_middle.mem_iff.mpr hq
  | @work p before after hp =>
    have hmem : q = p ∨ q ∈ s.requestQueue ++ (before ++ after) := by
      rw [handedOn, hp] at hq
      rcases List.mem_append.mp hq with hq | hq
      · exact Or.inr (List.mem_append_left _ hq)
      · rcases List.mem_cons.mp (List.perm_middle.mem_iff.mp hq) with rfl | hq
        · exact Or.inl rfl
        · exact Or.inr (List.mem_append_right _ hq)
    rcases hmem with rfl | hmem
    · exact Or.inr ⟨before, after, hp, rfl⟩
    · obtain ⟨heap, sent, made, he⟩ := queryWorker_frame write handlers p
        { s with running := before ++ after }
      rw [he]
      exact Or.inl ⟨q, hmem, rfl, rfl, rfl⟩

/-- **Query isolation and freshness.** In every state reached, with any number of workers:

* a query that is handed on holds the context that the sequential server builds after exactly
  what arrived before it, and sees the snapshot of the store of that time;
* the snapshot that it has pinned is still the same object, and the context stays as it is until
  the query is answered from it;
* what is published is the snapshot of the live store. -/
theorem query_isolation {workers : ℕ} {inbound : List (Option Json)} {s : Server}
    (h : Reached parse write handlers workers inbound s) :
    (∀ q ∈ s.handedOn,
      inbound[q.arrival]? = some (some q.request) ∧
      (∃ hist w, hist.map Handled.key = numbered jobOf (inbound.take q.arrival) ∧
        q.context = contextAfter parse hist w q.request ∧
        ∃ w' ∈ hist.map (·.world) ++ [w], ∃ status, visible q.context.ws
          = visible (buildWorkspaceSnapshot w'.realpath (serve parse hist).docs status)) ∧
      q.pin.bind s.heap.contents = q.context.ws ∧
      ∀ s', Step parse write handlers workers s s' → Keeps write handlers q s s') ∧
    s.live = serve parse s.log ∧
    ∀ w₀, ∃ w ∈ s.log.map (·.world) ++ [w₀], ∃ status,
      visible s.live.ws = visible (buildWorkspaceSnapshot w.realpath s.live.docs status) := by
  obtain ⟨hpinned, hrefines⟩ := h.refines
  have horder := h.inOrder
  have harrivals : s.log.map Handled.key <+: numbered jobOf inbound := by
    refine List.IsPrefix.trans ?_ (numbered_take_le jobOf inbound s.arrived)
    rw [← horder.arrivals]
    exact List.prefix_append _ _
  refine ⟨?_, hrefines.live_eq, ?_⟩
  · intro q hq
    obtain ⟨hist, w, hp, hctx⟩ := hrefines.contexts q hq
    have hkeys : hist.map Handled.key ++ [q.toJob.key] <+: numbered jobOf inbound := by
      have hmap := hp.map Handled.key
      rw [List.map_append] at hmap
      exact hmap.trans harrivals
    have hmem : q.toJob.key ∈ numbered jobOf inbound :=
      hkeys.subset (List.mem_append_right _ (List.mem_singleton_self _))
    obtain ⟨message, hget, hjob⟩ := mem_numbered.mp hmem
    obtain ⟨rfl, -⟩ := Option.filter_eq_some_iff.mp hjob
    refine ⟨hget, ⟨hist, w, numbered_ahead hkeys, hctx, ?_⟩, hpinned.pinned q hq, ?_⟩
    · have hws : q.context.ws = (serve parse hist).ws := by
        rw [hctx, contextAfter, buildQueryContext]
        cases (serve parse hist).ws <;> rfl
      rw [hws]
      exact (serve_upToDate hist).visible_eq w
    · exact fun s' hs => keeps_step hq hs
  · intro w₀
    rw [hrefines.live_eq]
    exact (serve_upToDate s.log).visible_eq w₀

/-- A hover request behind a didOpen notification. -/
theorem query_isolation_hover : ∃ s, Reached blankParse (fun v => some (plainText v)) nullHandlers
      numQueryWorkers
      [some (didOpenNotification "file:///a.tjp" ""), some (hoverRequest 1 "file:///a.tjp")] s ∧
    ∃ q ∈ s.handedOn, q.arrival = 1 ∧ ∃ hist w,
      hist.map Handled.key = [(0, didOpenNotification "file:///a.tjp" "")] ∧
      q.context = contextAfter blankParse hist w q.request := by
  let turns : List Turn := [.read, .read, .pop, .coordinate (fileSystem []) 0, .pop,
    .coordinate (fileSystem []) 1]
  let inbound := [some (didOpenNotification "file:///a.tjp" ""),
    some (hoverRequest 1 "file:///a.tjp")]
  have hrun : (runOf inbound turns).map (fun s => s.handedOn.map (·.arrival)) = some [1] := by
    decide +kernel
  obtain ⟨s, hs, he⟩ := Option.map_eq_some_iff.mp hrun
  have hreached := reached_of_turns hs
  obtain ⟨q, hq, hone⟩ := List.mem_map.mp (he ▸ List.mem_singleton_self 1)
  obtain ⟨-, ⟨hist, w, hkeys, hctx, -⟩, -⟩ := (query_isolation hreached).1 q hq
  refine ⟨s, hreached, q, hq, hone, hist, w, ?_, hctx⟩
  rw [hkeys, hone]
  rfl

end Server

end TaskjugglerLsp
