import TaskjugglerLsp.DiagWorker.Convergence

/-!
# A hand-over that is overtaken

A document that was opened alone becomes part of a project.  The worker of the
project has published its diagnostics by the time that the coordinator retires
the old worker, which clears them (`handover_overtaken`).  The run is put
together from threads that are left alone (`Reached.works`, `Reached.leaves`).
-/

namespace TaskjugglerLsp

namespace DiagSystem

variable {parse : CStr → ParseOutput} {s : DiagSystem}
  {ok : DiagSystem → DiagParty → Option Publication → Prop}

theorem Reached.works (h : Reached parse ok s) (hnone : ∀ s who, ok s who none) {i : ℕ}
    {e : Registered} (he : s.registry[i]? = some e) {ms : List Publication} {w : DiagWorker}
    (ht : e.worker.Threads ms w)
    (hsome : ∀ s' m, s'.latest = s.latest → (∀ j, j ≠ i → s'.registry[j]? = s.registry[j]?) →
      ok s' (.member i) (some m)) :
    Reached parse ok { s with
      registry := s.registry.set i { e with worker := w }
      sent := s.sent ++ ms } := by
  induction ht with
  | refl =>
    obtain ⟨hi, hget⟩ := List.getElem?_eq_some_iff.mp he
    have hset : s.registry.set i { e with worker := e.worker } = s.registry :=
      (congrArg (s.registry.set i) hget.symm).trans (List.set_getElem_self hi)
    rw [hset, List.append_nil]
    exact h
  | @step w' w'' ms m _ ht ih =>
    obtain ⟨hi, -⟩ := List.getElem?_eq_some_iff.mp he
    have hstep := ih.step (.work (List.getElem?_set_self hi) ht) ?_
    · rw [List.set_set, List.append_assoc] at hstep
      exact hstep
    · cases m with
      | none => exact hnone _ _
      | some m => exact hsome _ m rfl fun j hj => List.getElem?_set_ne (Ne.symm hj)

theorem Reached.leaves (h : Reached parse ok s) {w w' : DiagWorker} {next : CoordinatorPc}
    (hpc : s.pc = .joining w next) {ms : List Publication} (ht : w.Threads ms w')
    (hok : ∀ s' m, ok s' .leaver m) :
    Reached parse ok { s with
      pc := .joining w' next
      sent := s.sent ++ ms } := by
  induction ht with
  | refl =>
    rw [List.append_nil, ← hpc]
    exact h
  | step _ ht ih =>
    have hstep := ih.step (.leave rfl ht) (hok _ _)
    rwa [List.append_assoc] at hstep

theorem Reached.baselines (h : Reached parse ok s) (hok : ∀ s m, ok s .coordinator m)
    {todo : List CStr} (hpc : s.pc = .baseline todo) :
    Reached parse ok { s with
      pc := .baseline []
      sent := s.sent ++ todo.map fun uri => ⟨uri, []⟩ } := by
  induction todo generalizing s with
  | nil =>
    rw [List.map_nil, List.append_nil, ← hpc]
    exact h
  | cons uri todo ih =>
    have := ih (h.step (.baseline hpc) (hok _ _)) rfl
    rwa [List.append_assoc] at this

/-! ### A document that moves to another project -/

/-- The worker of a project that has run one snapshot and sleeps. -/
def sleeper (p : WsProject) (ref : WsRef) (set : DiagSet) : DiagWorker :=
  ⟨p.id, p.mode, none, false, false, set, .waiting, ⟨[ref], [0], [], []⟩, [(ref, set)]⟩

section Runs

variable {w : World} {st : ServerState} {ws : WorkspaceSnapshot}

/-- The first snapshot, with one project: its worker is started and runs it. -/
theorem Reached.first (hnone : ∀ s who, ok s who none) (hcoord : ∀ s m, ok s .coordinator m)
    (hsome : ∀ s m, (∀ j, j ≠ 0 → s.registry[j]? = none) → ok s (.member 0) m)
    (hst : Visited parse st)
    (hb : buildWorkspaceSnapshot w.realpath st.docs st.cc.status = some ws) {p : WsProject}
    (hp : ws.projects = [p]) {set : DiagSet}
    (hset : (diagWorkerSpawn p.id p.mode).Collects ⟨0, ws⟩ set) :
    Reached parse ok ⟨some ⟨0, ws⟩, [⟨sleeper p ⟨0, ws⟩ set, true⟩], .idle,
      (editorUris st.docs).map (fun uri => ⟨uri, []⟩) ++ diagSetPublish set []⟩ := by
  have h1 : Reached parse ok ⟨none, [], .handling, []⟩ :=
    Reached.initial.step (.receive rfl) (hcoord _ _)
  have h2 := (h1.step (.publish rfl hst hb) (hcoord _ _)).baselines hcoord rfl
  rw [List.nil_append] at h2
  have h3 := h2.step (.update rfl rfl) (hcoord _ _)
  rw [show (WsRef.ws ⟨_, ws⟩).projects = [p] from hp] at h3
  have h4 := (h3.step (.missing rfl rfl) (hcoord _ _)).step (.spawn rfl) (hcoord _ _)
  have h5 := (h4.step (.request rfl rfl nofun rfl) (hcoord _ _)).step (.sweep rfl) (hcoord _ _)
  have h6 := (h5.step (.keep rfl rfl rfl) (hcoord _ _)).step (.done rfl le_rfl) (hcoord _ _)
  refine h6.works hnone (i := 0) rfl (DiagWorker.threads_run rfl rfl rfl hset) fun s' m _ hreg => ?_
  refine hsome s' _ fun j hj => (hreg j hj).trans ?_
  obtain ⟨j, rfl⟩ := Nat.exists_eq_succ_of_ne_zero hj
  rfl

/-- The next snapshot has another project instead: its worker runs it and sleeps before the old
worker is retired. -/
theorem Reached.second {sent : List Publication} {p q : WsProject} {ref : WsRef} {set set' : DiagSet}
    (h : Reached parse (fun _ _ _ => True) ⟨some ref, [⟨sleeper p ref set, true⟩], .idle, sent⟩)
    (hst : Visited parse st)
    (hb : buildWorkspaceSnapshot w.realpath st.docs st.cc.status = some ws)
    (hq : ws.projects = [q]) (hne : p.id ≠ q.id)
    (hset : (diagWorkerSpawn q.id q.mode).Collects ⟨ref.id + 1, ws⟩ set') :
    Reached parse (fun _ _ _ => True)
      ⟨some ⟨ref.id + 1, ws⟩, [⟨sleeper q ⟨ref.id + 1, ws⟩ set', true⟩], .idle,
        sent ++ (editorUris st.docs).map (fun uri => ⟨uri, []⟩) ++ diagSetPublish set' []
          ++ diagSetPublish [] set⟩ := by
  have h1 := (h.step (.receive rfl) trivial).step (.publish rfl hst hb) trivial
  have h2 := h1.baselines (fun _ _ => trivial) rfl
  have h3 := h2.step (.update rfl rfl) trivial
  rw [show (WsRef.ws ⟨_, ws⟩).projects = [q] from hq] at h3
  have hmissing : registryFind [⟨sleeper p ref set, false⟩] q.id = none := by
    simp [registryFind, sleeper, hne]
  have h4 := (h3.step (.missing rfl hmissing) trivial).step (.spawn rfl) trivial
  have h5 := (h4.step (.request (i := 1) rfl rfl nofun rfl) trivial).works (fun _ _ => trivial) (i := 1)
    rfl (DiagWorker.threads_run rfl rfl rfl hset) fun _ _ _ _ => trivial
  have h6 := (h5.step (.sweep rfl) trivial).step (.drop rfl rfl rfl nofun) trivial
  have h7 := h6.leaves rfl (DiagWorker.threads_quit rfl rfl) fun _ _ => trivial
  have h8 := (h7.step (.join rfl rfl) trivial).step (.keep rfl rfl rfl) trivial
  exact h8.step (.done rfl le_rfl) trivial

end Runs

/-- A workspace with a file that includes another, before and after it gets a compile_commands.json
that lists the first. -/
def movingSystem (listed : Bool) : World :=
  let files := fileSystem [("file:///p/a.tjp", outerText), ("file:///p/b.tji", innerText)]
  if listed then
    { files with
      stat := fun path => if path = cstr "/p/compile_commands.json" then some ⟨1, 0, 0⟩ else none
      readJson := fun path => if path = cstr "/p/compile_commands.json" then
        some (.arr [.obj [("file", .str (cstr "/p/a.tjp"))]]) else none }
  else files

/-- The client says where the workspace is, and opens the second file. -/
def movingStart : ServerState :=
  let w := movingSystem false
  let root := Event.initRequest (some (.obj [("rootUri", .str (cstr "file:///p"))]))
  let st := Event.initialized.apply w includeParse (root.apply w includeParse initialState)
  (openMessage "file:///p/b.tji" innerText).apply w includeParse st

/-- It types something, once the file is listed. -/
def movingEnd : ServerState :=
  (changeMessage "file:///p/b.tji" innerText).apply (movingSystem true) includeParse movingStart

theorem visited_movingStart : Visited includeParse movingStart := by
  let w := movingSystem false
  let root := Event.initRequest (some (.obj [("rootUri", .str (cstr "file:///p"))]))
  exact ((Visited.start.event w root).event w .initialized).event w
    (openMessage "file:///p/b.tji" innerText)

theorem visited_movingEnd : Visited includeParse movingEnd :=
  visited_movingStart.event (movingSystem true) (changeMessage "file:///p/b.tji" innerText)

/-- A tj3 that finds an error in the second file. -/
def complainingTj3 : Tj3Env :=
  ⟨true, false, some (cstr "/t"), none, fun _ _ _ => some (cstr "b.tji:1: Error: x\n")⟩

/-- The snapshot of a state has one project, and its worker collects something for one document. -/
def CollectsFor (env : Tj3Env) (w : World) (st : ServerState) (id : CStr) (mode : Tj3Mode)
    (uri : CStr) : Bool :=
  (buildWorkspaceSnapshot w.realpath st.docs st.cc.status).any fun ws =>
    ws.projects.map (fun p => (p.id, p.mode)) = [(id, mode)]
      && (collectDiagnostics env id mode ws).map (·.uri) = [uri]

theorem collectsFor_eq {env : Tj3Env} {w : World} {st : ServerState} {id uri : CStr}
    {mode : Tj3Mode} (h : CollectsFor env w st id mode uri = true) :
    ∃ ws p f, buildWorkspaceSnapshot w.realpath st.docs st.cc.status = some ws ∧
      ws.projects = [p] ∧ p.id = id ∧ collectDiagnostics env p.id p.mode ws = [f] ∧ f.uri = uri := by
  obtain ⟨ws, hws, hand⟩ := Option.any_eq_true _ _ |>.mp h
  rw [Bool.and_eq_true, decide_eq_true_eq, decide_eq_true_eq] at hand
  obtain ⟨hproj, hset⟩ := hand
  obtain ⟨p, hp, hpm⟩ := List.map_eq_singleton_iff.mp hproj
  obtain ⟨f, hf, hfu⟩ := List.map_eq_singleton_iff.mp hset
  obtain ⟨rfl, rfl⟩ := Prod.mk.inj hpm
  exact ⟨ws, p, f, hws, hp, rfl, hf, hfu⟩

theorem collectsFor_start : CollectsFor DiagWorker.noTj3 (movingSystem false) movingStart
    (cstr "file:///p/b.tji") .syntaxOnly (cstr "file:///p/b.tji") = true := by
  decide +kernel

theorem collectsFor_end : CollectsFor complainingTj3 (movingSystem true) movingEnd
    (cstr "file:///p/a.tjp") .full (cstr "file:///p/b.tji") = true := by
  decide +kernel

theorem markers_publish_singleton (sent : List Publication) (f : DiagFile) :
    markers (sent ++ diagSetPublish [f] []) f.uri = f.items :=
  (markers_concat sent ⟨f.uri, f.items⟩ f.uri).trans (if_pos rfl)

theorem markers_clear_singleton (sent : List Publication) (f : DiagFile) :
    markers (sent ++ diagSetPublish [] [f]) f.uri = [] :=
  (markers_concat sent ⟨f.uri, []⟩ f.uri).trans (if_pos rfl)

/-- A document that is opened alone: its diagnostics are shown. -/
theorem converges_start : ∃ s, Reached includeParse NotOvertaken s ∧ s.Converged ∧
    markers s.sent (cstr "file:///p/b.tji") ≠ [] := by
  obtain ⟨ws, p, f, hb, hp, hid, hset, hfu⟩ := collectsFor_eq collectsFor_start
  have hcol : (diagWorkerSpawn p.id p.mode).Collects ⟨0, ws⟩ [f] := ⟨_, hset.symm⟩
  have halone : ∀ (s : DiagSystem) m, (∀ j, j ≠ 0 → s.registry[j]? = none) →
      s.NotOvertaken (.member 0) m := by
    intro s m hreg _ latest _ m' _ j e he hj
    rw [hreg j fun h0 => hj (h0 ▸ rfl)] at he
    cases he
  have hrun : Reached includeParse NotOvertaken _ :=
    Reached.first (fun s who _ _ _ m hm => by cases hm) (fun s m hwho => absurd rfl hwho) halone
      visited_movingStart hb hp hcol
  refine ⟨_, hrun, converges hrun ⟨rfl, fun e he => ?_⟩, ?_⟩
  · rw [List.mem_singleton.mp he]
    rfl
  · rw [← hfu, markers_publish_singleton]
    exact hcol.ok.nonempty f (List.mem_singleton_self f)

/-- **A hand-over that is overtaken**: the document has moved to another project, whose worker has
published its diagnostics by the time that the old worker is retired and clears them. -/
theorem handover_overtaken : ¬ ∀ (parse : CStr → ParseOutput) (s : DiagSystem),
    Reached parse (fun _ _ _ => True) s → s.Settled → s.Converged := by
  intro h
  obtain ⟨ws, p, f, hb, hp, hid, hset, hfu⟩ := collectsFor_eq collectsFor_start
  obtain ⟨ws', q, f', hb', hq, hid', hset', hfu'⟩ := collectsFor_eq collectsFor_end
  have hold : (diagWorkerSpawn p.id p.mode).Collects ⟨0, ws⟩ [f] := ⟨_, hset.symm⟩
  have hnew : (diagWorkerSpawn q.id q.mode).Collects ⟨1, ws'⟩ [f'] := ⟨_, hset'.symm⟩
  have hne : p.id ≠ q.id := by
    rw [hid, hid']
    decide
  have hstart : Reached includeParse (fun _ _ _ => True) _ :=
    Reached.first (fun _ _ => trivial) (fun _ _ => trivial) (fun _ _ _ => trivial)
      visited_movingStart hb hp hold
  have hrun := hstart.second visited_movingEnd hb' hq hne hnew
  have hconv := (h _ _ hrun ⟨rfl, fun e he => by rw [List.mem_singleton.mp he]; rfl⟩).2 f.uri
  -- the old worker has cleared what the owner has found
  have hok := visited_movingEnd.sound
  have howner : ws'.ownerOf f'.uri = some q.id :=
    owner_of_collects hnew (nodup_uris_build hok.unique hok.snapUris hb') (List.mem_singleton_self _)
  rw [markers_clear_singleton, hfu, ← hfu'] at hconv
  refine hnew.ok.nonempty f' (List.mem_singleton_self f') ?_
  simpa [expected, howner, workerOf, sleeper, DiagWorker.lastSet, DiagSet.items] using hconv.symm

end DiagSystem

end TaskjugglerLsp
