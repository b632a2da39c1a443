import TaskjugglerLsp.Lib.Mailbox
import TaskjugglerLsp.Tj3

/-!
# A diagnostics worker

The first half of `diag_worker.c`: the thread of one project and the two calls
that the coordinator makes on it.  The thread sends its messages one at a time.
It is assumed that each of them can be written: where `yyjson_mut_write` fails,
`publish_diagnostics_list` sends nothing.

* `Step.box`: the worker is a mailbox (`Lib.Mailbox`) whose items are snapshots;
* `Shown`: what the client shows of this worker's messages, once those that are
  due are sent;
* `coalesces`: no snapshot is lost, they are run in order, and a worker that
  sleeps has run the last one and shows its set.
-/

namespace TaskjugglerLsp

open Lib

/-- A pointer to a workspace snapshot: its identity and its contents. -/
structure WsRef where
  id : ℕ
  ws : WorkspaceSnapshot

/-- Where the thread of a worker is: at the top of its loop, testing under the lock, asleep, with
a snapshot to run, with the messages of a run to send, with the last messages to send, or gone. -/
inductive WorkerPc where
  | ready
  | testing
  | waiting
  | running (ws : WsRef)
  | publishing (ws : WsRef) (set : DiagSet) (todo : List Publication)
  | clearing (todo : List Publication)
  | exited

/-- `diag_worker`, with what has become of its requests and what its runs have found. -/
structure DiagWorker where
  projectId : CStr
  mode : Tj3Mode
  pending : Option WsRef
  stop : Bool
  clearOnStop : Bool
  lastPublished : DiagSet
  pc : WorkerPc
  fates : Mailbox.Fates WsRef
  ran : List (WsRef × DiagSet)

/-- `diag_worker_spawn`. -/
def diagWorkerSpawn (projectId : CStr) (mode : Tj3Mode) : DiagWorker :=
  ⟨projectId, mode, none, false, false, [], .ready, .none, []⟩

/-- `pthread_cond_signal`, as the thread sees it. -/
def WorkerPc.wake : WorkerPc → WorkerPc
  | waiting => ready
  | pc => pc

/-- `diag_worker_request`, under the lock. -/
def diagWorkerRequest (w : DiagWorker) (ws : WsRef) : DiagWorker :=
  { w with
    pending := some ws
    pc := w.pc.wake
    fates := w.fates.submit w.pending ws }

/-- The half of `diag_worker_retire` before the join, under the lock. -/
def diagWorkerStop (w : DiagWorker) (clearOnStop : Bool) : DiagWorker :=
  { w with
    clearOnStop := clearOnStop
    stop := true
    pc := w.pc.wake }

/-- The set that `run_once` collects; the project is looked up by its id. -/
def collectDiagnostics (env : Tj3Env) (projectId : CStr) (mode : Tj3Mode) (ws : WorkspaceSnapshot) :
    DiagSet :=
  match ws.projects.findIdx? (·.id = projectId) with
  | none => []
  | some pindex => tj3CollectProject env ws pindex mode (diagCollectCcMissing ws pindex [])

/-- `clear_published`, if the worker is to clear at the stop. -/
def clearPublished (w : DiagWorker) : List Publication :=
  if w.clearOnStop then diagSetPublish [] w.lastPublished else []

/-- A step of `diag_worker_main`, with the message that it sends, if it sends one; a message can
always be written. -/
inductive DiagWorker.Thread : DiagWorker → Option Publication → DiagWorker → Prop
  | lock {w : DiagWorker} : w.pc = .ready → Thread w none { w with pc := .testing }
  | sleep {w : DiagWorker} : w.pc = .testing → w.stop = false → w.pending = none →
      Thread w none { w with pc := .waiting }
  | wake {w : DiagWorker} : w.pc = .waiting → Thread w none { w with pc := .ready }
  | take {w : DiagWorker} {ws : WsRef} : w.pc = .testing → w.stop = false → w.pending = some ws →
      Thread w none
        { w with
          pending := none
          pc := .running ws
          fates := w.fates.take }
  | collect {w : DiagWorker} {ws : WsRef} {set : DiagSet} (env : Tj3Env) : w.pc = .running ws →
      set = collectDiagnostics env w.projectId w.mode ws.ws →
      Thread w none { w with pc := .publishing ws set (diagSetPublish set w.lastPublished) }
  | send {w : DiagWorker} {ws : WsRef} {set : DiagSet} {m : Publication} {todo : List Publication} :
      w.pc = .publishing ws set (m :: todo) →
      Thread w (some m) { w with pc := .publishing ws set todo }
  | finish {w : DiagWorker} {ws : WsRef} {set : DiagSet} : w.pc = .publishing ws set [] →
      Thread w none
        { w with
          lastPublished := set
          pc := .ready
          ran := w.ran ++ [(ws, set)] }
  | quit {w : DiagWorker} : w.pc = .testing → w.stop = true →
      Thread w none
        { w with
          pending := none
          pc := .clearing (clearPublished w)
          fates := w.fates.release w.pending }
  | clear {w : DiagWorker} {m : Publication} {todo : List Publication} :
      w.pc = .clearing (m :: todo) → Thread w (some m) { w with pc := .clearing todo }
  | exit {w : DiagWorker} : w.pc = .clearing [] →
      Thread w none
        { w with
          lastPublished := []
          pc := .exited }

/-- A step of the worker: a call of the coordinator, which takes the lock and makes none after the
stop, or a step of the thread. -/
inductive DiagWorker.Step : DiagWorker → Option Publication → DiagWorker → Prop
  | request {w : DiagWorker} (ws : WsRef) : w.pc ≠ .testing → w.stop = false →
      Step w none (diagWorkerRequest w ws)
  | stop {w : DiagWorker} (clearOnStop : Bool) : w.pc ≠ .testing → w.stop = false →
      Step w none (diagWorkerStop w clearOnStop)
  | thread {w w' : DiagWorker} {m : Option Publication} : Thread w m w' → Step w m w'

/-- The states of a worker and the messages that it has sent on the way there. -/
inductive DiagWorker.Reached (projectId : CStr) (mode : Tj3Mode) :
    DiagWorker → List Publication → Prop
  | spawn : Reached projectId mode (diagWorkerSpawn projectId mode) []
  | step {w w' : DiagWorker} {m : Option Publication} {sent : List Publication} :
      Reached projectId mode w sent → Step w m w' → Reached projectId mode w' (sent ++ m.toList)

namespace DiagWorker

variable {w w' : DiagWorker} {m : Option Publication} {sent : List Publication}

/-! ### The mailbox of a worker -/

/-- What the thread is doing, seen from the mailbox. -/
def phase (w : DiagWorker) : Mailbox.Phase WsRef :=
  match w.pc with
  | .ready => .ready
  | .testing => .testing
  | .waiting => .waiting
  | .running ws => .working ws
  | .publishing ws _ _ => .working ws
  | .clearing _ => .closed
  | .exited => .closed

/-- The mailbox of a worker. -/
def box (w : DiagWorker) : Mailbox.Box WsRef := ⟨w.pending, w.stop, w.phase, w.fates⟩

theorem phase_testing : w.phase = .testing ↔ w.pc = .testing := by
  unfold phase
  cases w.pc <;> simp

theorem phase_waiting : w.phase = .waiting ↔ w.pc = .waiting := by
  unfold phase
  cases w.pc <;> simp

theorem phase_wake (p : Option WsRef) (s c : Bool) (f : Mailbox.Fates WsRef) :
    phase ⟨w.projectId, w.mode, p, s, c, w.lastPublished, w.pc.wake, f, w.ran⟩ = w.phase.wake := by
  unfold phase
  cases w.pc <;> rfl

/-- **The worker is a mailbox**: each step is a step of it, or none of its business. -/
theorem Step.box (h : Step w m w') : Mailbox.Step w.box w'.box ∨ w'.box = w.box := by
  have hphase : ∀ {pc : WorkerPc}, w.pc = pc → w.box.phase = ({ w with pc := pc } : DiagWorker).phase := by
    rintro pc rfl
    rfl
  cases h with
  | request ws hpc hstop =>
    have hnew : (diagWorkerRequest w ws).box
        = ⟨some ws, false, w.box.phase.wake, w.box.fates.submit w.box.slot ws⟩ := by
      rw [DiagWorker.box, Mailbox.Box.mk.injEq]
      exact ⟨rfl, hstop, phase_wake _ _ _ _, rfl⟩
    rw [hnew]
    exact Or.inl (.submit ws (mt phase_testing.mp hpc) hstop)
  | stop clearOnStop hpc hstop =>
    have hnew : (diagWorkerStop w clearOnStop).box
        = { w.box with stop := true, phase := w.box.phase.wake } := by
      rw [DiagWorker.box, Mailbox.Box.mk.injEq]
      exact ⟨rfl, rfl, phase_wake _ _ _ _, rfl⟩
    rw [hnew]
    exact Or.inl (.stop (mt phase_testing.mp hpc) hstop)
  | thread ht =>
    cases ht with
    | lock hpc => exact Or.inl (.lock (hphase hpc))
    | sleep hpc hstop hp => exact Or.inl (.sleep (hphase hpc) hstop hp)
    | wake hpc => exact Or.inl (.wake (hphase hpc))
    | take hpc hstop hp => exact Or.inl (.take (hphase hpc) hstop hp)
    | finish hpc => exact Or.inl (.finish (hphase hpc))
    | quit hpc hstop => exact Or.inl (.close (hphase hpc) hstop)
    | collect env hpc _ =>
      refine Or.inr ?_
      rw [DiagWorker.box, DiagWorker.box, Mailbox.Box.mk.injEq]
      exact ⟨rfl, rfl, (hphase hpc).symm, rfl⟩
    | send hpc =>
      refine Or.inr ?_
      rw [DiagWorker.box, DiagWorker.box, Mailbox.Box.mk.injEq]
      exact ⟨rfl, rfl, (hphase hpc).symm, rfl⟩
    | clear hpc =>
      refine Or.inr ?_
      rw [DiagWorker.box, DiagWorker.box, Mailbox.Box.mk.injEq]
      exact ⟨rfl, rfl, (hphase hpc).symm, rfl⟩
    | exit hpc =>
      refine Or.inr ?_
      rw [DiagWorker.box, DiagWorker.box, Mailbox.Box.mk.injEq]
      exact ⟨rfl, rfl, (hphase hpc).symm, rfl⟩

theorem Step.accounted (h : Step w m w') (ha : Mailbox.Accounted w.box) :
    Mailbox.Accounted w'.box := by
  rcases h.box with hb | hb
  · exact hb.accounted ha
  · rwa [hb]

/-! ### The runs of a worker -/

/-- The snapshot that is being run. -/
def current (w : DiagWorker) : Option WsRef :=
  match w.pc with
  | .running ws => some ws
  | .publishing ws _ _ => some ws
  | _ => none

/-- The set of the last run. -/
def lastSet (w : DiagWorker) : DiagSet := (w.ran.getLast?.map Prod.snd).getD []

/-- A set as the worker collects it from a snapshot. -/
def Collects (w : DiagWorker) (ws : WsRef) (set : DiagSet) : Prop :=
  ∃ env, set = collectDiagnostics env w.projectId w.mode ws.ws

/-- What the runs of a worker have done. -/
structure RunsOk (w : DiagWorker) : Prop where
  last : w.pc ≠ .exited → w.lastPublished = w.lastSet
  taken : (w.ran.map Prod.fst ++ w.current.toList).map some
    = w.fates.taken.map fun n => w.fates.submitted[n]?
  ran : ∀ p ∈ w.ran, w.Collects p.1 p.2
  set : ∀ ws set todo, w.pc = .publishing ws set todo → w.Collects ws set

theorem Collects.ok {ws : WsRef} {set : DiagSet} (h : w.Collects ws set) : set.Ok := by
  obtain ⟨env, rfl⟩ := h
  unfold collectDiagnostics
  split
  · exact DiagSet.ok_nil
  · rename_i pindex _
    have hnil : DiagSet.OkFor ws.ws pindex [] := ⟨DiagSet.ok_nil, fun u hu => by cases hu⟩
    exact (okFor_tj3CollectProject env w.mode (okFor_diagCollectCcMissing hnil)).1

theorem RunsOk.lastSet_ok (h : RunsOk w) : w.lastSet.Ok := by
  unfold lastSet
  cases hl : w.ran.getLast? with
  | none => exact DiagSet.ok_nil
  | some p => exact (h.ran p (List.mem_of_getLast? hl)).ok

theorem runsOk_spawn (projectId : CStr) (mode : Tj3Mode) : RunsOk (diagWorkerSpawn projectId mode) := by
  refine ⟨fun _ => rfl, rfl, ?_, ?_⟩
  · intro p hp
    cases hp
  · intro ws set todo h
    cases h

theorem current_wake (p : Option WsRef) (s c : Bool) (f : Mailbox.Fates WsRef) :
    current ⟨w.projectId, w.mode, p, s, c, w.lastPublished, w.pc.wake, f, w.ran⟩ = w.current := by
  unfold current
  cases w.pc <;> rfl

theorem wake_eq_publishing {pc : WorkerPc} {ws : WsRef} {set : DiagSet} {todo : List Publication} :
    pc.wake = .publishing ws set todo ↔ pc = .publishing ws set todo := by
  cases pc <;> simp [WorkerPc.wake]

theorem wake_eq_exited {pc : WorkerPc} : pc.wake = .exited ↔ pc = .exited := by
  cases pc <;> simp [WorkerPc.wake]

/-- A snapshot submitted later is none of those taken. -/
theorem taken_submit (ha : Mailbox.Accounted w.box) (ws : WsRef) :
    (w.fates.taken.map fun n => (w.fates.submitted ++ [ws])[n]?)
      = w.fates.taken.map fun n => w.fates.submitted[n]? := by
  refine List.map_congr_left fun n hn => ?_
  exact List.getElem?_append_left (ha.taken_lt hn).1

theorem Step.runsOk (h : Step w m w') (ha : Mailbox.Accounted w.box) (ho : RunsOk w) :
    RunsOk w' := by
  have hcur : ∀ {pc : WorkerPc} {cur : Option WsRef}, w.pc = pc →
      ({ w with pc := pc } : DiagWorker).current = cur → w.current = cur := by
    rintro pc cur rfl hc
    exact hc
  have hlast : w.lastPublished = w.lastSet ∨ w.pc = .exited := by
    by_cases he : w.pc = .exited
    · exact Or.inr he
    · exact Or.inl (ho.last he)
  cases h with
  | request ws hpc hstop =>
    refine ⟨fun he => ho.last (mt wake_eq_exited.mpr he), ?_, ho.ran,
      fun ws' set todo hp => ho.set ws' set todo (wake_eq_publishing.mp hp)⟩
    rw [diagWorkerRequest, current_wake]
    exact ho.taken.trans (taken_submit ha ws).symm
  | stop clearOnStop hpc hstop =>
    refine ⟨fun he => ho.last (mt wake_eq_exited.mpr he), ?_, ho.ran,
      fun ws' set todo hp => ho.set ws' set todo (wake_eq_publishing.mp hp)⟩
    rw [diagWorkerStop, current_wake]
    exact ho.taken
  | thread ht =>
    have ht' := ho.taken
    cases ht with
    | lock hpc =>
      rw [hcur hpc rfl] at ht'
      exact ⟨fun _ => ho.last (by simp [hpc]), ht', ho.ran, fun _ _ _ h => by cases h⟩
    | sleep hpc =>
      rw [hcur hpc rfl] at ht'
      exact ⟨fun _ => ho.last (by simp [hpc]), ht', ho.ran, fun _ _ _ h => by cases h⟩
    | wake hpc =>
      rw [hcur hpc rfl] at ht'
      exact ⟨fun _ => ho.last (by simp [hpc]), ht', ho.ran, fun _ _ _ h => by cases h⟩
    | @take ws hpc _ hp =>
      rw [hcur hpc rfl] at ht'
      refine ⟨fun _ => ho.last (by simp [hpc]), ?_, ho.ran, fun _ _ _ h => by cases h⟩
      have hnew : w.fates.submitted[w.fates.lastNumber]? = some ws := by
        rw [← ha.last ws hp, List.getLast?_eq_getElem?]
        rfl
      have hran : (w.ran.map Prod.fst).map some = w.fates.taken.map fun n => w.fates.submitted[n]? := by
        rwa [← List.append_nil (w.ran.map Prod.fst)]
      rw [Mailbox.Fates.take, List.map_append, List.map_append, hran]
      simp [current, hnew]
    | collect env hpc hset =>
      rw [hcur hpc rfl] at ht'
      refine ⟨fun _ => ho.last (by simp [hpc]), ht', ho.ran, fun ws' set' todo' h => ?_⟩
      cases h
      exact ⟨env, hset⟩
    | send hpc =>
      rw [hcur hpc rfl] at ht'
      refine ⟨fun _ => ho.last (by simp [hpc]), ht', ho.ran, fun ws' set' todo' h => ?_⟩
      cases h
      exact ho.set _ _ _ hpc
    | finish hpc =>
      rw [hcur hpc rfl] at ht'
      refine ⟨fun _ => by simp [lastSet], ?_, ?_, fun _ _ _ h => by cases h⟩
      · rw [← ht']
        simp [current]
      · intro p hp
        rcases List.mem_append.mp hp with hp | hp
        · exact ho.ran p hp
        · rw [List.mem_singleton.mp hp]
          exact ho.set _ _ _ hpc
    | quit hpc =>
      rw [hcur hpc rfl] at ht'
      refine ⟨fun _ => ho.last (by simp [hpc]), ?_, ho.ran, fun _ _ _ h => by cases h⟩
      have hfates : (w.fates.release w.pending).taken = w.fates.taken ∧
          (w.fates.release w.pending).submitted = w.fates.submitted := by
        unfold Mailbox.Fates.release
        split <;> exact ⟨rfl, rfl⟩
      simp only [hfates.1, hfates.2]
      exact ht'
    | clear hpc =>
      rw [hcur hpc rfl] at ht'
      exact ⟨fun _ => ho.last (by simp [hpc]), ht', ho.ran, fun _ _ _ h => by cases h⟩
    | exit hpc =>
      rw [hcur hpc rfl] at ht'
      exact ⟨fun he => absurd rfl he, ht', ho.ran, fun _ _ _ h => by cases h⟩

theorem Reached.ok {projectId : CStr} {mode : Tj3Mode} (h : Reached projectId mode w sent) :
    Mailbox.Accounted w.box ∧ RunsOk w := by
  induction h with
  | spawn => exact ⟨Mailbox.accounted_new, runsOk_spawn projectId mode⟩
  | step _ hs ih => exact ⟨hs.accounted ih.1, hs.runsOk ih.1 ih.2⟩

/-! ### What a worker shows -/

/-- The messages that the worker is about to send. -/
def due (w : DiagWorker) : List Publication :=
  match w.pc with
  | .publishing _ _ todo => todo
  | .clearing todo => todo
  | _ => []

/-- What the worker is to show once they are sent. -/
def target (w : DiagWorker) : DiagSet :=
  match w.pc with
  | .publishing _ set _ => set
  | .clearing _ => if w.clearOnStop then [] else w.lastSet
  | .exited => if w.clearOnStop then [] else w.lastSet
  | _ => w.lastSet

/-- A client that is shown nothing but the messages of this worker shows what the worker means it
to, once the messages that are due have come. -/
def Shown (w : DiagWorker) (sent : List Publication) : Prop :=
  ∀ uri, markers (sent ++ w.due) uri = w.target.items uri

/-- A step without a message that keeps what is due and what is meant. -/
theorem Shown.congr (hsh : Shown w sent) (hdue : w'.due = w.due) (htarget : w'.target = w.target) :
    Shown w' (sent ++ []) := by
  intro uri
  rw [List.append_nil, hdue, htarget]
  exact hsh uri

/-- A step that sends the first of the messages that are due. -/
theorem Shown.send (hsh : Shown w sent) {m : Publication} (hdue : w.due = m :: w'.due)
    (htarget : w'.target = w.target) : Shown w' (sent ++ [m]) := by
  intro uri
  rw [List.append_assoc, List.singleton_append, ← hdue, htarget]
  exact hsh uri

theorem Shown.publish (hsh : Shown w sent) {set : DiagSet} (hset : set.Ok) (hdue : w.due = [])
    (htarget : w.target = w.lastPublished) (hlast : w.lastPublished.Ok)
    (hdue' : w'.due = diagSetPublish set w.lastPublished) (htarget' : w'.target = set) :
    Shown w' (sent ++ []) := by
  intro uri
  rw [List.append_nil, hdue', htarget']
  refine markers_publish hset fun hne => ?_
  have hshown := hsh uri
  rw [hdue, List.append_nil, htarget] at hshown
  rw [hshown] at hne
  exact hlast.items_ne_nil.mp hne

theorem due_wake (p : Option WsRef) (s c : Bool) (f : Mailbox.Fates WsRef) :
    due ⟨w.projectId, w.mode, p, s, c, w.lastPublished, w.pc.wake, f, w.ran⟩ = w.due := by
  unfold due
  cases w.pc <;> rfl

theorem target_wake (p : Option WsRef) (s c : Bool) (f : Mailbox.Fates WsRef)
    (hopen : w.phase ≠ .closed) :
    target ⟨w.projectId, w.mode, p, s, c, w.lastPublished, w.pc.wake, f, w.ran⟩ = w.target := by
  unfold phase at hopen
  unfold target
  cases hpc : w.pc with
  | clearing todo =>
    rw [hpc] at hopen
    exact absurd rfl hopen
  | exited =>
    rw [hpc] at hopen
    exact absurd rfl hopen
  | _ => rfl

theorem Step.shown (h : Step w m w') (ha : Mailbox.Accounted w.box) (ho : RunsOk w)
    (hsh : Shown w sent) : Shown w' (sent ++ m.toList) := by
  have hopen : w.stop = false → w.phase ≠ .closed := by
    intro hstop hc
    have : w.stop = true := (ha.closed hc).2
    rw [hstop] at this
    cases this
  have hdue : ∀ {pc : WorkerPc}, w.pc = pc → w.due = ({ w with pc := pc } : DiagWorker).due := by
    rintro pc rfl
    rfl
  have htarget : ∀ {pc : WorkerPc}, w.pc = pc →
      w.target = ({ w with pc := pc } : DiagWorker).target := by
    rintro pc rfl
    rfl
  cases h with
  | request ws hpc hstop => exact hsh.congr (due_wake _ _ _ _) (target_wake _ _ _ _ (hopen hstop))
  | stop clearOnStop hpc hstop =>
    exact hsh.congr (due_wake _ _ _ _) (target_wake _ _ _ _ (hopen hstop))
  | thread ht =>
    cases ht with
    | lock hpc => exact hsh.congr (hdue hpc).symm (htarget hpc).symm
    | sleep hpc => exact hsh.congr (hdue hpc).symm (htarget hpc).symm
    | wake hpc => exact hsh.congr (hdue hpc).symm (htarget hpc).symm
    | take hpc => exact hsh.congr (hdue hpc).symm (htarget hpc).symm
    | collect env hpc hset =>
      have hlast := ho.last (by simp [hpc])
      exact hsh.publish (Collects.ok ⟨env, hset⟩) (hdue hpc) ((htarget hpc).trans hlast.symm)
        (hlast ▸ ho.lastSet_ok) rfl rfl
    | send hpc => exact hsh.send (hdue hpc) (htarget hpc).symm
    | finish hpc =>
      refine hsh.congr (hdue hpc).symm ?_
      rw [htarget hpc]
      simp [target, lastSet]
    | quit hpc hstop =>
      have hlast := ho.last (by simp [hpc])
      have hok : w.lastPublished.Ok := hlast ▸ ho.lastSet_ok
      cases hc : w.clearOnStop with
      | true =>
        refine hsh.publish DiagSet.ok_nil (hdue hpc) ((htarget hpc).trans hlast.symm) hok ?_ ?_
        · simp [due, clearPublished, hc]
        · simp only [target, if_true]
      | false =>
        refine hsh.congr ?_ ?_
        · rw [hdue hpc]
          simp [due, clearPublished, hc]
        · rw [htarget hpc]
          simp only [target, hc]
          rfl
    | clear hpc => exact hsh.send (hdue hpc) (htarget hpc).symm
    | exit hpc => exact hsh.congr (hdue hpc).symm (htarget hpc).symm

theorem Reached.shown {projectId : CStr} {mode : Tj3Mode} (h : Reached projectId mode w sent) :
    Shown w sent := by
  induction h with
  | spawn => exact fun _ => rfl
  | step hr hs ih => exact hs.shown hr.ok.1 hr.ok.2 ih

/-- The last snapshot that a sleeping worker has run is the last one submitted. -/
theorem RunsOk.last_ran (ho : RunsOk w) (ha : Mailbox.Accounted w.box) (hpc : w.pc = .waiting)
    (hne : w.fates.submitted ≠ []) : w.fates.taken.getLast? = some w.fates.lastNumber ∧
      (w.ran.map Prod.fst).getLast? = w.fates.submitted.getLast? := by
  have hlast : w.fates.taken.getLast? = some w.fates.lastNumber :=
    ha.last_taken (phase_waiting.mpr hpc) hne
  refine ⟨hlast, ?_⟩
  have ht := congrArg List.getLast? ho.taken
  have hcur : w.current = none := by rw [current, hpc]
  rw [hcur, Option.toList_none, List.append_nil, List.getLast?_map,
    List.getLast?_map (l := w.fates.taken), hlast] at ht
  rw [List.getLast?_eq_getElem? (l := w.fates.submitted)]
  cases hr : (w.ran.map Prod.fst).getLast? with
  | none =>
    rw [hr] at ht
    cases ht
  | some ws =>
    rw [hr] at ht
    exact Option.some.inj ht

/-- **No last update is lost.**  Of every snapshot submitted exactly one thing has become: it has
been taken to be run, or a later one has replaced it before that, or it has been released at the
stop, or it waits to be taken.  The snapshots are run in the order of submission; and a worker
that sleeps has not been stopped, the last snapshot it has run is the last one submitted, and the
client shows of its messages the set of that run and nothing else. -/
theorem coalesces {projectId : CStr} {mode : Tj3Mode} (h : Reached projectId mode w sent) :
    (∀ n < w.fates.submitted.length, w.box.fatesOf n = 1 ∧
      (n ∈ w.fates.taken ∨
        (∃ k, n < k ∧ k < w.fates.submitted.length ∧ (n, k) ∈ w.fates.replaced) ∨
        (n ∈ w.fates.released ∧ w.stop = true) ∨
        (w.pending.isSome ∧ n + 1 = w.fates.submitted.length))) ∧
    (w.fates.taken.Pairwise (· < ·) ∧
      (w.ran.map Prod.fst ++ w.current.toList).map some
        = w.fates.taken.map fun n => w.fates.submitted[n]?) ∧
    (w.pc = .exited → w.pending = none) ∧
    (w.pc = .waiting → w.stop = false ∧
      (w.fates.submitted ≠ [] → w.fates.taken.getLast? = some w.fates.lastNumber ∧
        (w.ran.map Prod.fst).getLast? = w.fates.submitted.getLast?) ∧
      ∀ uri, markers sent uri = w.lastSet.items uri) := by
  obtain ⟨ha, ho⟩ := h.ok
  refine ⟨fun n hn => ?_, ⟨ha.ordered, ho.taken⟩, fun hpc => ?_, fun hpc => ?_⟩
  · refine ⟨(ha.once n).trans (if_pos hn), ?_⟩
    rcases ha.fate hn with ht | hr | hl | hp
    · exact Or.inl ht
    · exact Or.inr (Or.inl hr)
    · refine Or.inr (Or.inr (Or.inl ⟨hl, ?_⟩))
      by_contra hstop
      rw [ha.kept fun hc => hstop (ha.closed hc).2] at hl
      cases hl
    · exact Or.inr (Or.inr (Or.inr hp))
  · exact (ha.closed (by simp [box, phase, hpc])).1
  · refine ⟨(ha.asleep (phase_waiting.mpr hpc)).2, fun hne => ?_, fun uri => ?_⟩
    · exact ho.last_ran ha hpc hne
    · have hs := h.shown uri
      rw [due, target, hpc] at hs
      rwa [List.append_nil] at hs

/-- Without tj3. -/
def noTj3 : Tj3Env := ⟨false, false, none, none, fun _ _ _ => none⟩

/-- A fragment that is opened where there is no compile_commands.json. -/
def fragmentSnapshot (version : UInt64) : WorkspaceSnapshot :=
  let uri := cstr "f.tji"
  let range := ⟨⟨0, 0⟩, ⟨0, 0⟩⟩
  ⟨[⟨⟨version, uri, some [], .mk ⟨0, none, none, range, range, []⟩ [], [], 0⟩, noPrefixes, some 0, false⟩],
    [⟨uri, .empty, false⟩], .missing⟩

/-- Two requests before the worker gets to run: the second one is run. -/
theorem coalesces_two : ∃ w sent, Reached (cstr "f.tji") .syntaxOnly w sent ∧
    w.fates.submitted.length = 2 ∧ w.fates.taken.getLast? = some 1 ∧
    markers sent (cstr "f.tji") = w.lastSet.items (cstr "f.tji") ∧ markers sent (cstr "f.tji") ≠ [] := by
  have h0 : Reached (cstr "f.tji") .syntaxOnly _ _ := .spawn
  have h1 := h0.step (.request ⟨0, fragmentSnapshot 1⟩ nofun rfl)
  have h2 := h1.step (.request ⟨1, fragmentSnapshot 2⟩ nofun rfl)
  have h3 := (h2.step (.thread (.lock rfl))).step (.thread (.take rfl rfl rfl))
  have h4 := h3.step (.thread (.collect noTj3 rfl rfl))
  have h5 := (h4.step (.thread (.send rfl))).step (.thread (.finish rfl))
  have h6 := (h5.step (.thread (.lock rfl))).step (.thread (.sleep rfl rfl rfl))
  obtain ⟨-, -, -, hwait⟩ := coalesces h6
  obtain ⟨-, hlast, hshown⟩ := hwait rfl
  refine ⟨_, _, h6, rfl, (hlast (List.cons_ne_nil _ _)).1, hshown _, ?_⟩
  rw [hshown]
  decide +kernel

end DiagWorker

end TaskjugglerLsp
