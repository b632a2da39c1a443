import TaskjugglerLsp.DiagWorker

/-!
# The thread of a worker, seen from outside

What the messages of a worker say about it, for the registry: the messages that
are due say what it means to show (`DueOk`), whatever it shows it answers for
until it clears it (`Thread.answers`), and what it has published from a snapshot
is what it means to show (`Thread.hasPublished`).  A thread that is left alone
finishes its run or ends (`threads_run`, `threads_quit`).
-/

namespace TaskjugglerLsp

open Lib

/-! ### What a thread keeps -/

namespace DiagWorker

variable {w w' : DiagWorker} {m : Option Publication}

/-- The messages that are due say what the worker means to show. -/
def DueOk (w : DiagWorker) : Prop := ∀ m ∈ w.due, m.diagnostics = w.target.items m.uri

/-- What holds of every worker. -/
structure Sound (w : DiagWorker) : Prop where
  account : Mailbox.Accounted w.box
  runs : w.RunsOk
  due : w.DueOk

theorem sound_spawn (projectId : CStr) (mode : Tj3Mode) : Sound (diagWorkerSpawn projectId mode) :=
  ⟨Mailbox.accounted_new, runsOk_spawn projectId mode, fun m hm => by cases hm⟩

theorem dueOk_publish {set previous : DiagSet} (hset : set.Ok) {m : Publication}
    (hm : m ∈ diagSetPublish set previous) : m.diagnostics = set.items m.uri := by
  rcases mem_diagSetPublish.mp hm with ⟨f, hf, rfl⟩ | ⟨⟨f, -, rfl⟩, hn⟩
  · exact (hset.items_eq hf).symm
  · exact (DiagSet.items_of_notMem hn).symm

/-- A step leaves nothing due, or what was due, or the rest of it. -/
theorem DueOk.of_subset (h : DueOk w) (hdue : ∀ m ∈ w'.due, m ∈ w.due)
    (htarget : w'.target = w.target) : DueOk w' := by
  intro m hm
  rw [htarget]
  exact h m (hdue m hm)

theorem Thread.dueOk (h : Thread w m w') (hd : DueOk w) : DueOk w' := by
  cases h with
  | lock => exact fun m hm => by cases hm
  | sleep => exact fun m hm => by cases hm
  | wake => exact fun m hm => by cases hm
  | take => exact fun m hm => by cases hm
  | finish => exact fun m hm => by cases hm
  | exit => exact fun m hm => by cases hm
  | collect env hpc hset => exact fun m hm => dueOk_publish (Collects.ok ⟨env, hset⟩) hm
  | send hpc =>
    intro m hm
    have hmem : m ∈ w.due := by
      rw [due, hpc]
      exact List.mem_cons_of_mem _ hm
    have := hd m hmem
    rwa [target, hpc] at this
  | quit hpc hstop =>
    intro m hm
    cases hc : w.clearOnStop with
    | true =>
      have hm' : m ∈ diagSetPublish [] w.lastPublished := by
        simpa [due, clearPublished, hc] using hm
      simpa [target, hc] using dueOk_publish DiagSet.ok_nil hm'
    | false => simp [due, clearPublished, hc] at hm
  | clear hpc =>
    intro m hm
    have hmem : m ∈ w.due := by
      rw [due, hpc]
      exact List.mem_cons_of_mem _ hm
    have := hd m hmem
    rwa [target, hpc] at this

theorem Accounted.phase_ne_closed (h : Mailbox.Accounted w.box) (hstop : w.stop = false) :
    w.phase ≠ .closed := by
  intro hc
  have : w.stop = true := (h.closed hc).2
  rw [hstop] at this
  cases this

theorem Sound.step (h : Sound w) (hs : Step w m w') : Sound w' := by
  refine ⟨hs.accounted h.account, hs.runsOk h.account h.runs, ?_⟩
  cases hs with
  | request ws hpc hstop =>
    refine h.due.of_subset (fun m hm => ?_) (target_wake _ _ _ _ (Accounted.phase_ne_closed h.account hstop))
    rwa [diagWorkerRequest, due_wake] at hm
  | stop clearOnStop hpc hstop =>
    refine h.due.of_subset (fun m hm => ?_) (target_wake _ _ _ _ (Accounted.phase_ne_closed h.account hstop))
    rwa [diagWorkerStop, due_wake] at hm
  | thread ht => exact ht.dueOk h.due

theorem Thread.fields (h : Thread w m w') : w'.projectId = w.projectId ∧ w'.stop = w.stop ∧
    w'.clearOnStop = w.clearOnStop ∧ w'.fates.submitted = w.fates.submitted := by
  cases h with
  | quit =>
    refine ⟨rfl, rfl, rfl, ?_⟩
    show (w.fates.release w.pending).submitted = _
    unfold Mailbox.Fates.release
    split <;> rfl
  | _ => exact ⟨rfl, rfl, rfl, rfl⟩

/-! ### Who answers for what is shown -/

/-- The worker means to show something for the URI, or is about to send a message for it. -/
def Answers (w : DiagWorker) (uri : CStr) : Prop :=
  uri ∈ w.due.map Publication.uri ∨ uri ∈ w.target.map DiagFile.uri

/-- A worker that answers for a URI goes on to, unless it sends the message that clears it. -/
theorem Thread.answers (h : Thread w m w') (ho : RunsOk w)
    (hclear : w.stop = true → w.clearOnStop = true) {uri : CStr} (ha : Answers w uri) :
    Answers w' uri ∨ ∃ m', m = some m' ∧ m'.uri = uri := by
  have hpc' : ∀ {pc : WorkerPc}, w.pc = pc →
      Answers ({ w with pc := pc } : DiagWorker) uri := by
    rintro pc rfl
    exact ha
  cases h with
  | lock hpc =>
    have hready := hpc' hpc
    exact Or.inl hready
  | sleep hpc =>
    have htesting := hpc' hpc
    exact Or.inl htesting
  | wake hpc =>
    have hwaiting := hpc' hpc
    exact Or.inl hwaiting
  | take hpc =>
    have htesting := hpc' hpc
    exact Or.inl htesting
  | @collect ws set env hpc hset =>
    have hlast : uri ∈ w.lastPublished.map DiagFile.uri := by
      rw [ho.last (by simp [hpc])]
      rcases hpc' hpc with h | h
      · cases h
      · exact h
    refine Or.inl ?_
    by_cases hu : uri ∈ set.map DiagFile.uri
    · exact Or.inr hu
    · obtain ⟨f, hf, rfl⟩ := List.mem_map.mp hlast
      exact Or.inl (List.mem_map.mpr ⟨⟨f.uri, []⟩, mem_diagSetPublish.mpr (Or.inr ⟨⟨f, hf, rfl⟩, hu⟩), rfl⟩)
  | @send ws set m todo hpc =>
    rcases hpc' hpc with h | h
    · rcases List.mem_cons.mp h with h | h
      · exact Or.inr ⟨m, rfl, h.symm⟩
      · exact Or.inl (Or.inl h)
    · exact Or.inl (Or.inr h)
  | @finish ws set hpc =>
    rcases hpc' hpc with h | h
    · cases h
    · refine Or.inl (Or.inr ?_)
      simpa [target, lastSet] using h
  | quit hpc hstop =>
    have hlast : uri ∈ w.lastPublished.map DiagFile.uri := by
      rw [ho.last (by simp [hpc])]
      rcases hpc' hpc with h | h
      · cases h
      · exact h
    obtain ⟨f, hf, rfl⟩ := List.mem_map.mp hlast
    refine Or.inl (Or.inl (List.mem_map.mpr ⟨⟨f.uri, []⟩, ?_, rfl⟩))
    simp only [due, clearPublished, hclear hstop, if_true]
    exact mem_diagSetPublish.mpr (Or.inr ⟨⟨f, hf, rfl⟩, by simp⟩)
  | @clear m todo hpc =>
    rcases hpc' hpc with h | h
    · rcases List.mem_cons.mp h with h | h
      · exact Or.inr ⟨m, rfl, h.symm⟩
      · exact Or.inl (Or.inl h)
    · exact Or.inl (Or.inr h)
  | exit hpc =>
    rcases hpc' hpc with h | h
    · cases h
    · exact Or.inl (Or.inr h)

theorem Thread.answers_sent {m : Publication} (h : Thread w (some m) w') (hd : DueOk w)
    (hne : m.diagnostics ≠ []) : Answers w' m.uri := by
  have hmem : m ∈ w.due ∧ w'.target = w.target := by
    cases h with
    | send hpc => exact ⟨by simp [due, hpc], by simp [target, hpc]⟩
    | clear hpc => exact ⟨by simp [due, hpc], by simp [target, hpc, lastSet]⟩
  refine Or.inr ?_
  by_contra hn
  rw [hmem.2] at hn
  rw [hd m hmem.1] at hne
  exact hne (DiagSet.items_of_notMem hn)

/-! ### What has been published -/

/-- The worker has sent what a run on that snapshot has found for the URI. -/
def HasPublished (w : DiagWorker) (ws : WsRef) (uri : CStr) : Prop :=
  match w.pc with
  | .publishing ws' set todo =>
    ws' = ws ∧ uri ∈ set.map DiagFile.uri ∧ uri ∉ todo.map Publication.uri
  | _ => ∃ set, w.ran.getLast? = some (ws, set) ∧ uri ∈ set.map DiagFile.uri

/-- What is published comes from a snapshot that was submitted. -/
theorem HasPublished.mem_submitted {ws : WsRef} {uri : CStr} (h : HasPublished w ws uri)
    (ho : RunsOk w) : ws ∈ w.fates.submitted := by
  have hmem : ws ∈ w.ran.map Prod.fst ++ w.current.toList := by
    unfold HasPublished at h
    split at h
    · rename_i ws' set todo hpc
      rw [← h.1]
      exact List.mem_append_right _ (by simp [current, hpc])
    · obtain ⟨set, hlast, -⟩ := h
      exact List.mem_append_left _ (List.mem_map.mpr ⟨_, List.mem_of_getLast? hlast, rfl⟩)
  have hsome := List.mem_map_of_mem (f := some) hmem
  rw [ho.taken] at hsome
  obtain ⟨n, -, hn⟩ := List.mem_map.mp hsome
  exact List.mem_of_getElem? hn

/-- Until the stop, a step that makes something published sends it, and one that does not send
about it keeps what is meant. -/
theorem Thread.hasPublished {ws : WsRef} {uri : CStr} (h : Thread w m w') (hs : Sound w)
    (hstop : w.stop = false) (hp : HasPublished w' ws uri) :
    (HasPublished w ws uri ∧ w'.target.items uri = w.target.items uri ∧
        ∀ m', m = some m' → m'.uri ≠ uri) ∨
      ∃ m', m = some m' ∧ m'.uri = uri ∧ m'.diagnostics = w'.target.items uri := by
  have hopen := Accounted.phase_ne_closed hs.account hstop
  have hbefore : ∀ {pc : WorkerPc}, w.pc = pc →
      HasPublished ({ w with pc := pc } : DiagWorker) ws uri → HasPublished w ws uri := by
    rintro pc rfl hp
    exact hp
  have htarget : ∀ {pc : WorkerPc}, w.pc = pc →
      w.target = ({ w with pc := pc } : DiagWorker).target := by
    rintro pc rfl
    rfl
  cases h with
  | lock hpc => exact Or.inl ⟨hbefore hpc hp, by rw [htarget hpc]; rfl, by rintro _ ⟨⟩⟩
  | sleep hpc => exact Or.inl ⟨hbefore hpc hp, by rw [htarget hpc]; rfl, by rintro _ ⟨⟩⟩
  | wake hpc => exact Or.inl ⟨hbefore hpc hp, by rw [htarget hpc]; rfl, by rintro _ ⟨⟩⟩
  | take hpc => exact Or.inl ⟨hbefore hpc hp, by rw [htarget hpc]; rfl, by rintro _ ⟨⟩⟩
  | @collect ws' set env hpc hset =>
    obtain ⟨-, hu, hn⟩ := hp
    obtain ⟨f, hf, rfl⟩ := List.mem_map.mp hu
    exact absurd (List.mem_map.mpr ⟨_, mem_diagSetPublish.mpr (Or.inl ⟨f, hf, rfl⟩), rfl⟩) hn
  | @send ws' set m todo hpc =>
    obtain ⟨hws, hu, hn⟩ := hp
    by_cases hm : m.uri = uri
    · have hdue := hs.due m (by simp [due, hpc])
      rw [hm, htarget hpc] at hdue
      exact Or.inr ⟨m, rfl, hm, hdue⟩
    · have hn' : uri ∉ (m :: todo).map Publication.uri := by
        rw [List.map_cons, List.mem_cons]
        exact fun hor => hor.elim (fun h => hm h.symm) hn
      refine Or.inl ⟨hbefore hpc ⟨hws, hu, hn'⟩, by rw [htarget hpc]; rfl, ?_⟩
      rintro m' ⟨⟩
      exact hm
  | @finish ws' set hpc =>
    obtain ⟨set', hlast, hu⟩ := hp
    have heq : (ws', set) = (ws, set') := by simpa using hlast
    obtain ⟨rfl, rfl⟩ := Prod.mk.inj heq
    refine Or.inl ⟨hbefore hpc ⟨rfl, hu, by simp⟩, ?_, by rintro _ ⟨⟩⟩
    rw [htarget hpc]
    simp [target, lastSet]
  | quit hpc hstop' =>
    rw [hstop] at hstop'
    cases hstop'
  | clear hpc => exact absurd (by simp [phase, hpc]) hopen
  | exit hpc => exact absurd (by simp [phase, hpc]) hopen

end DiagWorker

/-! ### A thread that is left alone -/

/-- Some steps of a thread, with the messages that they send. -/
inductive DiagWorker.Threads : DiagWorker → List Publication → DiagWorker → Prop
  | refl (w : DiagWorker) : Threads w [] w
  | step {w w' w'' : DiagWorker} {ms : List Publication} {m : Option Publication} :
      Threads w ms w' → Thread w' m w'' → Threads w (ms ++ m.toList) w''

namespace DiagWorker

variable {w : DiagWorker}

theorem Threads.quiet {w w' w'' : DiagWorker} {ms : List Publication} (h : Threads w ms w')
    (ht : Thread w' none w'') : Threads w ms w'' := by
  have := h.step ht
  rwa [Option.toList_none, List.append_nil] at this

theorem Threads.sends {w w' : DiagWorker} {ms todo : List Publication} {ws : WsRef} {set : DiagSet}
    (h : Threads w ms w') (hpc : w'.pc = .publishing ws set todo) :
    Threads w (ms ++ todo) { w' with pc := .publishing ws set [] } := by
  induction todo generalizing w' ms with
  | nil =>
    rw [List.append_nil, ← hpc]
    exact h
  | cons m todo ih =>
    have := ih (h.step (.send hpc)) rfl
    rwa [Option.toList_some, List.append_assoc] at this

theorem Threads.clears {w w' : DiagWorker} {ms todo : List Publication}
    (h : Threads w ms w') (hpc : w'.pc = .clearing todo) :
    Threads w (ms ++ todo) { w' with pc := .clearing [] } := by
  induction todo generalizing w' ms with
  | nil =>
    rw [List.append_nil, ← hpc]
    exact h
  | cons m todo ih =>
    have := ih (h.step (.clear hpc)) rfl
    rwa [Option.toList_some, List.append_assoc] at this

theorem threads_run (hpc : w.pc = .ready) (hstop : w.stop = false) {ref : WsRef}
    (hp : w.pending = some ref) {set : DiagSet} (hset : w.Collects ref set) :
    w.Threads (diagSetPublish set w.lastPublished)
      { w with
        pending := none
        lastPublished := set
        pc := .waiting
        fates := w.fates.take
        ran := w.ran ++ [(ref, set)] } := by
  obtain ⟨env, hset⟩ := hset
  have htaken := ((Threads.refl w).quiet (.lock hpc)).quiet (.take rfl hstop hp)
  have hsent := (htaken.quiet (.collect env rfl hset)).sends rfl
  rw [List.nil_append] at hsent
  exact ((hsent.quiet (.finish rfl)).quiet (.lock rfl)).quiet (.sleep rfl hstop rfl)

theorem threads_quit (hpc : w.pc = .ready) (hstop : w.stop = true) :
    w.Threads (clearPublished w)
      { w with
        pending := none
        lastPublished := []
        pc := .exited
        fates := w.fates.release w.pending } := by
  have hquit := ((Threads.refl w).quiet (.lock hpc)).quiet (.quit rfl hstop)
  have hsent := hquit.clears rfl
  rw [List.nil_append] at hsent
  exact hsent.quiet (.exit rfl)

end DiagWorker

end TaskjugglerLsp
