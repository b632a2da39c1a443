import TaskjugglerLsp.DiagWorker.Coordinator
import TaskjugglerLsp.Workspace.Membership

/-!
# Diagnostics converge unless a hand-over is overtaken

Whatever the client shows, some worker answers for it (`Answered`), in every run.
What a worker has published from the latest snapshot is shown (`Claims`), as long
as no other thread sends a message about the same URI after it.  Together they
give `converges`.
-/

namespace TaskjugglerLsp

namespace DiagSystem

variable {parse : CStr → ParseOutput} {s s' : DiagSystem} {who : DiagParty}
  {m : Option Publication}

/-! ### What is shown -/

/-- What a worker has published from the latest snapshot is what is shown. -/
def Claims (s : DiagSystem) : Prop :=
  ∀ latest, s.latest = some latest → s.pc ≠ .handling → ∀ e ∈ s.registry, ∀ uri,
    e.worker.HasPublished latest uri → markers s.sent uri = e.worker.target.items uri

/-- A worker of the registry, or the one that is on its way out. -/
def Live (s : DiagSystem) (w : DiagWorker) : Prop :=
  (∃ e ∈ s.registry, e.worker = w) ∨ s.pc.leaver = some w

/-- Somebody answers for all that is shown. -/
def Answered (s : DiagSystem) : Prop :=
  ∀ uri, markers s.sent uri ≠ [] → ∃ w, s.Live w ∧ w.Answers uri

theorem markers_append_toList {sent : List Publication} {uri : CStr}
    (h : ∀ m', m = some m' → m'.uri ≠ uri) :
    markers (sent ++ m.toList) uri = markers sent uri := by
  cases m with
  | none => rw [Option.toList_none, List.append_nil]
  | some m' => rw [Option.toList_some, markers_concat, if_neg (h m' rfl)]

theorem hasPublished_request {w : DiagWorker} {ref latest : WsRef} {uri : CStr}
    (h : (diagWorkerRequest w ref).HasPublished latest uri) : w.HasPublished latest uri := by
  unfold DiagWorker.HasPublished diagWorkerRequest at h
  unfold DiagWorker.HasPublished
  cases hpc : w.pc <;> rw [hpc] at h <;> exact h

/-- The claims stay true where the workers and the messages stay. -/
theorem Claims.congr (h : Claims s) (hpc : s.pc ≠ .handling) (hlatest : s'.latest = s.latest)
    (hreg : ∀ e ∈ s'.registry, ∃ e' ∈ s.registry, e'.worker = e.worker)
    (hsent : s'.sent = s.sent) : Claims s' := by
  intro latest hl _ e he uri hp
  obtain ⟨e', he', hw⟩ := hreg e he
  rw [hsent, ← hw]
  exact h latest (hlatest ▸ hl) hpc e' he' uri (hw ▸ hp)

theorem Claims.step (h : Claims s) (hsane : Sane s) (hs : Step parse s who m s')
    (hok : s.NotOvertaken who m) : Claims s' := by
  have hne : ∀ {pc : CoordinatorPc}, s.pc = pc → pc ≠ .handling → s.pc ≠ .handling := by
    rintro pc rfl hne
    exact hne
  have hsame : ∀ e ∈ s.registry, ∃ e' ∈ s.registry, e'.worker = e.worker := fun e he =>
    ⟨e, he, rfl⟩
  -- a message that is not overtaken is not about what another worker has published
  have hother : ∀ {latest : WsRef}, s.latest = some latest → who ≠ .coordinator →
      ∀ {j e uri}, s.registry[j]? = some e → who ≠ .member j →
        e.worker.HasPublished latest uri → ∀ m', m = some m' → m'.uri ≠ uri := by
    rintro latest hl hwho j e uri he hj hp m' hm rfl
    exact hok hwho latest hl m' hm j e he hj hp
  cases hs with
  | receive => exact fun _ _ hpc => absurd rfl hpc
  | clear uri hpc => exact fun _ _ hpc' => absurd hpc hpc'
  | @publish w st ws hpc =>
    rintro latest ⟨⟩ - e he uri hp
    have hsub := hp.mem_submitted (hsane.members e he).1.runs
    obtain ⟨l, hl, hor⟩ := hsane.known e.entry (List.mem_map_of_mem he) _ hsub
    rw [hl] at hor
    exfalso
    rcases hor with heq | hlt
    · have hid := congrArg WsRef.id heq
      exact absurd hid (Nat.succ_ne_self l.id)
    · exact absurd hlt (by show ¬ l.id + 1 < l.id; omega)
  | baseline hpc =>
    intro latest hl _ e he uri hp
    have hsub := hp.mem_submitted (hsane.members e he).1.runs
    have hphase := hsane.phase
    rw [hpc] at hphase
    obtain ⟨l, hl', hold⟩ := hphase
    have hlt := hold e.entry (List.mem_map_of_mem he) latest hsub
    have hl'' : s.latest = some latest := hl
    rw [hl''] at hl'
    obtain rfl := Option.some.inj hl'
    exact absurd hlt (lt_irrefl _)
  | update hpc =>
    refine h.congr (hne hpc (by rintro ⟨⟩)) rfl (fun e' he' => ?_) rfl
    obtain ⟨e, he, rfl⟩ := List.mem_map.mp he'
    exact ⟨e, he, rfl⟩
  | found hpc => exact h.congr (hne hpc (by rintro ⟨⟩)) rfl hsame rfl
  | missing hpc => exact h.congr (hne hpc (by rintro ⟨⟩)) rfl hsame rfl
  | sweep hpc => exact h.congr (hne hpc (by rintro ⟨⟩)) rfl hsame rfl
  | keep hpc => exact h.congr (hne hpc (by rintro ⟨⟩)) rfl hsame rfl
  | done hpc => exact h.congr (hne hpc (by rintro ⟨⟩)) rfl hsame rfl
  | join hpc => exact h.congr (hne hpc (by rintro ⟨⟩)) rfl hsame rfl
  | flipped hpc _ he =>
    exact h.congr (hne hpc (by rintro ⟨⟩)) rfl
      (fun e' he' => ⟨e', mem_registryRemoveAt he he', rfl⟩) rfl
  | drop hpc he =>
    exact h.congr (hne hpc (by rintro ⟨⟩)) rfl
      (fun e' he' => ⟨e', mem_registryRemoveAt he he', rfl⟩) rfl
  | spawn hpc =>
    intro latest hl _ e he uri hp
    rcases List.mem_append.mp he with he | he
    · exact h latest hl (hne hpc (by rintro ⟨⟩)) e he uri hp
    · rw [List.mem_singleton.mp he] at hp
      obtain ⟨set, hlast, -⟩ := hp
      cases hlast
  | @request i p todo e latest' hpc he htest =>
    intro latest hl _ e' he' uri hp
    rcases List.mem_or_eq_of_mem_set he' with he' | rfl
    · exact h latest hl (hne hpc (by rintro ⟨⟩)) e' he' uri hp
    · have hmem := List.mem_of_getElem? he
      obtain ⟨hsound, hopen⟩ := hsane.members e hmem
      have htarget := e.worker.target_wake (some latest') e.worker.stop e.worker.clearOnStop
        (e.worker.fates.submit e.worker.pending latest')
        (DiagWorker.Accounted.phase_ne_closed hsound.account hopen)
      have hold := h latest hl (hne hpc (by rintro ⟨⟩)) e hmem uri (hasPublished_request hp)
      exact hold.trans (congrArg (DiagSet.items · uri) htarget).symm
  | @work i e w _ he ht =>
    intro latest hl hpc e' he' uri hp
    obtain ⟨j, hj⟩ := List.getElem?_of_mem he'
    by_cases hji : j = i
    · subst hji
      rw [List.getElem?_set_self (List.getElem?_eq_some_iff.mp he).1] at hj
      obtain rfl := Option.some.inj hj
      have hmem := List.mem_of_getElem? he
      obtain ⟨hsound, hopen⟩ := hsane.members e hmem
      rcases ht.hasPublished hsound hopen hp with ⟨hp, htarget, hm⟩ | ⟨m', rfl, rfl, hd⟩
      · rw [htarget, markers_append_toList hm]
        exact h latest hl hpc e hmem uri hp
      · rw [Option.toList_some, markers_concat, if_pos rfl, hd]
    · rw [List.getElem?_set_ne (Ne.symm hji)] at hj
      rw [markers_append_toList (hother hl (by rintro ⟨⟩) hj (by rintro ⟨⟩; exact hji rfl) hp)]
      exact h latest hl hpc e' (List.mem_of_getElem? hj) uri hp
  | leave hpc ht =>
    intro latest hl _ e' he' uri hp
    obtain ⟨j, hj⟩ := List.getElem?_of_mem he'
    rw [markers_append_toList (hother hl (by rintro ⟨⟩) hj (by rintro ⟨⟩) hp)]
    exact h latest hl (hne hpc (by rintro ⟨⟩)) e' he' uri hp

/-- Somebody goes on answering where the messages stay. -/
theorem Answered.congr (h : Answered s) (hsent : s'.sent = s.sent)
    (hlive : ∀ w uri, s.Live w → w.Answers uri → ∃ w', s'.Live w' ∧ w'.Answers uri) :
    Answered s' := by
  intro uri hne
  rw [hsent] at hne
  obtain ⟨w, hw, ha⟩ := h uri hne
  exact hlive w uri hw ha

theorem Answered.clear (h : Answered s) {uri : CStr} {pc : CoordinatorPc}
    (hpc : pc.leaver = s.pc.leaver) :
    Answered ⟨s.latest, s.registry, pc, s.sent ++ [⟨uri, []⟩]⟩ := by
  intro u hne
  rw [markers_concat] at hne
  by_cases hu : uri = u
  · rw [if_pos hu] at hne
    exact absurd rfl hne
  · rw [if_neg hu] at hne
    obtain ⟨w, hw | hw, ha⟩ := h u hne
    · exact ⟨w, Or.inl hw, ha⟩
    · exact ⟨w, Or.inr (hpc.trans hw), ha⟩

theorem Answered.thread (h : Answered s) {w w' : DiagWorker} (ht : w.Thread m w') (hw : w.Sound)
    (hclear : w.stop = true → w.clearOnStop = true)
    (hother : ∀ x, s.Live x → x = w ∨ s'.Live x) (hnew : s'.Live w')
    (hsent : s'.sent = s.sent ++ m.toList) : Answered s' := by
  intro uri hne
  rw [hsent] at hne
  by_cases hm : ∃ m', m = some m' ∧ m'.uri = uri
  · obtain ⟨m', rfl, rfl⟩ := hm
    rw [Option.toList_some, markers_concat, if_pos rfl] at hne
    exact ⟨w', hnew, ht.answers_sent hw.due hne⟩
  · rw [markers_append_toList fun m' hm' hu => hm ⟨m', hm', hu⟩] at hne
    obtain ⟨x, hx, ha⟩ := h uri hne
    rcases hother x hx with rfl | hx'
    · exact ⟨w', hnew, (ht.answers hw.runs hclear ha).resolve_right hm⟩
    · exact ⟨x, hx', ha⟩

theorem answers_stop {w : DiagWorker} (hw : w.Sound) (hopen : w.stop = false) {uri : CStr}
    (h : w.Answers uri) : (diagWorkerStop w true).Answers uri := by
  unfold DiagWorker.Answers at h ⊢
  rw [diagWorkerStop, DiagWorker.due_wake,
    DiagWorker.target_wake _ _ _ _ (DiagWorker.Accounted.phase_ne_closed hw.account hopen)]
  exact h

theorem answers_request {w : DiagWorker} (hw : w.Sound) (hopen : w.stop = false) {uri : CStr}
    (ref : WsRef) (h : w.Answers uri) : (diagWorkerRequest w ref).Answers uri := by
  unfold DiagWorker.Answers at h ⊢
  rw [diagWorkerRequest, DiagWorker.due_wake,
    DiagWorker.target_wake _ _ _ _ (DiagWorker.Accounted.phase_ne_closed hw.account hopen)]
  exact h

theorem not_answers_exited {w : DiagWorker} (hpc : w.pc = .exited) (hclear : w.clearOnStop = true)
    (uri : CStr) : ¬ w.Answers uri := by
  simp [DiagWorker.Answers, DiagWorker.due, DiagWorker.target, hpc, hclear]

theorem Answered.step (h : Answered s) (hsane : Sane s) (hs : Step parse s who m s') :
    Answered s' := by
  have hstay : ∀ {pc pc' : CoordinatorPc} {l : Option WsRef}, s.pc = pc → pc.leaver = none →
      Answered ⟨l, s.registry, pc', s.sent⟩ := by
    rintro pc pc' l rfl hpc
    refine h.congr rfl fun w uri hw ha => ?_
    rcases hw with hw | hw
    · exact ⟨w, Or.inl hw, ha⟩
    · rw [hpc] at hw
      cases hw
  have hretire : ∀ {pc next : CoordinatorPc} {i : ℕ} {e : Registered}, s.pc = pc →
      pc.leaver = none → s.registry[i]? = some e → Answered ⟨s.latest, registryRemoveAt s.registry i,
        .joining (diagWorkerStop e.worker true) next, s.sent⟩ := by
    rintro pc next i e rfl hpc he
    refine h.congr rfl fun w uri hw ha => ?_
    rcases hw with ⟨e', he', rfl⟩ | hw
    · rcases List.mem_cons.mp ((registryRemoveAt_perm he).subset he') with rfl | hmem
      · obtain ⟨hsound, hopen⟩ := hsane.members e' he'
        exact ⟨_, Or.inr rfl, answers_stop hsound hopen ha⟩
      · exact ⟨_, Or.inl ⟨e', hmem, rfl⟩, ha⟩
    · rw [hpc] at hw
      cases hw
  cases hs with
  | receive hpc => exact hstay hpc rfl
  | publish hpc => exact hstay hpc rfl
  | found hpc => exact hstay hpc rfl
  | missing hpc => exact hstay hpc rfl
  | sweep hpc => exact hstay hpc rfl
  | keep hpc => exact hstay hpc rfl
  | done hpc => exact hstay hpc rfl
  | clear uri hpc => exact h.clear rfl
  | baseline hpc => exact h.clear (by rw [hpc]; rfl)
  | flipped hpc _ he => exact hretire hpc rfl he
  | drop hpc he => exact hretire hpc rfl he
  | update hpc =>
    refine h.congr rfl fun w uri hw ha => ?_
    rcases hw with ⟨e, he, rfl⟩ | hw
    · exact ⟨e.worker, Or.inl ⟨_, List.mem_map_of_mem he, rfl⟩, ha⟩
    · rw [hpc] at hw
      cases hw
  | spawn hpc =>
    refine h.congr rfl fun w uri hw ha => ?_
    rcases hw with ⟨e, he, rfl⟩ | hw
    · exact ⟨e.worker, Or.inl ⟨e, List.mem_append_left _ he, rfl⟩, ha⟩
    · rw [hpc] at hw
      cases hw
  | @request i p todo e latest hpc he =>
    refine h.congr rfl fun w uri hw ha => ?_
    obtain ⟨hi, -⟩ := List.getElem?_eq_some_iff.mp he
    rcases hw with ⟨e', he', rfl⟩ | hw
    · obtain ⟨j, hj⟩ := List.getElem?_of_mem he'
      by_cases hji : j = i
      · subst hji
        rw [he] at hj
        obtain rfl := Option.some.inj hj
        obtain ⟨hsound, hopen⟩ := hsane.members e he'
        exact ⟨_, Or.inl ⟨_, List.mem_set hi _, rfl⟩, answers_request hsound hopen latest ha⟩
      · refine ⟨e'.worker, Or.inl ⟨e', List.mem_of_getElem? (i := j) ?_, rfl⟩, ha⟩
        rw [List.getElem?_set_ne (Ne.symm hji)]
        exact hj
    · rw [hpc] at hw
      cases hw
  | join hpc hexit =>
    refine h.congr rfl fun w uri hw ha => ?_
    rcases hw with hw | hw
    · exact ⟨w, Or.inl hw, ha⟩
    · obtain ⟨-, -, hclear⟩ := hsane.leaver w hw
      rw [hpc] at hw
      obtain rfl := Option.some.inj hw
      exact absurd ha (not_answers_exited hexit hclear uri)
  | @work i e w _ he ht =>
    obtain ⟨hi, -⟩ := List.getElem?_eq_some_iff.mp he
    obtain ⟨hsound, hopen⟩ := hsane.members e (List.mem_of_getElem? he)
    refine h.thread ht hsound (fun hstop => ?_) (fun x hx => ?_)
      (Or.inl ⟨{ e with worker := w }, List.mem_set hi _, rfl⟩) rfl
    · rw [hopen] at hstop
      cases hstop
    · rcases hx with ⟨e', he', rfl⟩ | hx
      · obtain ⟨j, hj⟩ := List.getElem?_of_mem he'
        by_cases hji : j = i
        · subst hji
          rw [he] at hj
          obtain rfl := Option.some.inj hj
          exact Or.inl rfl
        · refine Or.inr (Or.inl ⟨e', List.mem_of_getElem? (i := j) ?_, rfl⟩)
          rw [List.getElem?_set_ne (Ne.symm hji)]
          exact hj
      · exact Or.inr (Or.inr hx)
  | @leave w w' next _ hpc ht =>
    obtain ⟨hsound, -, hclear⟩ := hsane.leaver w (by rw [hpc]; rfl)
    refine h.thread ht hsound (fun _ => hclear) (fun x hx => ?_) (Or.inr rfl) rfl
    rcases hx with hx | hx
    · exact Or.inr (Or.inl hx)
    · rw [hpc] at hx
      exact Or.inl (Option.some.inj hx).symm

/-! ### Ownership -/

/-- What a run finds is about documents that its project owns. -/
theorem owner_of_collects {w : DiagWorker} {ref : WsRef} {set : DiagSet}
    (h : w.Collects ref set) (hdocs : (ref.ws.docs.map (·.snap.uri)).Nodup) {uri : CStr}
    (hu : uri ∈ set.map DiagFile.uri) : ref.ws.ownerOf uri = some w.projectId := by
  obtain ⟨env, rfl⟩ := h
  unfold collectDiagnostics at hu
  split at hu
  · cases hu
  · rename_i pindex hfind
    have hnil : DiagSet.OkFor ref.ws pindex [] := ⟨DiagSet.ok_nil, fun u hu => by cases hu⟩
    obtain ⟨wd, hwd, hindex, rfl⟩ :=
      (okFor_tj3CollectProject env w.mode (okFor_diagCollectCcMissing hnil)).2 uri hu
    obtain ⟨hlt, hid, -⟩ := List.findIdx?_eq_some_iff_getElem.mp hfind
    have hex : ∃ v, ref.ws.docs.find? (fun v => v.snap.uri = wd.snap.uri) = some v := by
      rw [← Option.isSome_iff_exists, List.find?_isSome]
      exact ⟨wd, hwd, by simp⟩
    obtain ⟨v, hv⟩ := hex
    obtain rfl : v = wd :=
      List.inj_on_of_nodup_map hdocs (List.mem_of_find?_eq_some hv) hwd (by simpa using List.find?_some hv)
    simp [WorkspaceSnapshot.ownerOf, hv, hindex, List.getElem?_eq_getElem hlt, of_decide_eq_true hid]

/-- The documents of the latest snapshot have different URIs. -/
def Distinct (s : DiagSystem) : Prop :=
  ∀ latest, s.latest = some latest → (latest.ws.docs.map (·.snap.uri)).Nodup

theorem Distinct.step (h : Distinct s) (hs : Step parse s who m s') : Distinct s' := by
  cases hs with
  | publish _ hst hb =>
    rintro latest ⟨⟩
    exact nodup_uris_build hst.sound.unique hst.sound.snapUris hb
  | _ => exact h

theorem Sane.workerOf (h : Sane s) {e : Registered} (he : e ∈ s.registry) :
    s.workerOf e.worker.projectId = some e.worker := by
  have hex : ∃ x, s.registry.find? (fun x => x.worker.projectId = e.worker.projectId) = some x := by
    rw [← Option.isSome_iff_exists, List.find?_isSome]
    exact ⟨e, he, by simp⟩
  obtain ⟨x, hx⟩ := hex
  obtain rfl : x = e :=
    List.inj_on_of_nodup_map h.ids (List.mem_of_find?_eq_some hx) he (by simpa using List.find?_some hx)
  rw [DiagSystem.workerOf, hx]
  rfl

/-! ### Convergence -/

theorem Reached.invariants (h : Reached parse NotOvertaken s) :
    Sane s ∧ Claims s ∧ Answered s ∧ Distinct s := by
  induction h with
  | initial =>
    refine ⟨sane_initial, ?_, ?_, ?_⟩
    · rintro latest ⟨⟩
    · exact fun uri hne => absurd rfl hne
    · rintro latest ⟨⟩
  | step _ hs hok ih =>
    obtain ⟨hsane, hclaims, hanswered, hdistinct⟩ := ih
    exact ⟨hs.sane hsane, hclaims.step hsane hs hok, hanswered.step hsane hs, hdistinct.step hs⟩

/-- A worker that sleeps once the update is done has last run on the latest snapshot. -/
theorem Sane.last_run (h : Sane s) (hs : s.Settled) {latest : WsRef} (hl : s.latest = some latest)
    {e : Registered} (he : e ∈ s.registry) :
    ∃ set, e.worker.ran.getLast? = some (latest, set) ∧ e.worker.Collects latest set := by
  obtain ⟨hsound, -⟩ := h.members e he
  have hphase := h.phase
  rw [hs.1] at hphase
  obtain ⟨hseen, hup, -⟩ := hphase
  have hlast : e.worker.fates.submitted.getLast? = s.latest :=
    hup e.entry (List.mem_map_of_mem he) (hseen e.entry (List.mem_map_of_mem he))
  have hne : e.worker.fates.submitted ≠ [] := by
    intro hnil
    rw [hnil, hl] at hlast
    cases hlast
  obtain ⟨-, hran⟩ := hsound.runs.last_ran hsound.account (hs.2 e he) hne
  rw [hlast, hl, List.getLast?_map, Option.map_eq_some_iff] at hran
  obtain ⟨⟨ref, set⟩, hran, rfl⟩ := hran
  exact ⟨set, hran, hsound.runs.ran _ (List.mem_of_getLast? hran)⟩

theorem hasPublished_waiting {w : DiagWorker} (hpc : w.pc = .waiting) {ref : WsRef} {set : DiagSet}
    (hran : w.ran.getLast? = some (ref, set)) {uri : CStr} (hu : uri ∈ set.map DiagFile.uri) :
    w.HasPublished ref uri := by
  unfold DiagWorker.HasPublished
  rw [hpc]
  exact ⟨set, hran, hu⟩

/-- **Diagnostics converge** in every run in which no thread sends a message about a URI for which
another worker has already sent what it has found in the latest snapshot: once the coordinator is
done with the latest snapshot and all workers sleep, the client shows for each URI what the worker
of the project that owns it has found, and nothing where there is no such worker. -/
theorem converges (h : Reached parse NotOvertaken s) (hs : s.Settled) : s.Converged := by
  obtain ⟨hsane, hclaims, hanswered, hdistinct⟩ := h.invariants
  have hpc : s.pc ≠ .handling := by
    rw [hs.1]
    rintro ⟨⟩
  refine ⟨fun latest hl => ⟨fun p hp => ?_, fun e he => hsane.last_run hs hl he⟩, fun uri => ?_⟩
  · have hphase := hsane.phase
    rw [hs.1] at hphase
    obtain ⟨-, -, hcov⟩ := hphase
    rcases hcov latest hl p hp with hnil | ⟨x, hx, -, hid⟩
    · cases hnil
    · obtain ⟨e, he, rfl⟩ := List.mem_map.mp hx
      rw [← hid]
      exact Option.isSome_iff_exists.mpr ⟨_, hsane.workerOf he⟩
  · -- what the workers have found is shown, since they have published it
    have hshown : ∀ e ∈ s.registry, uri ∈ e.worker.lastSet.map DiagFile.uri →
        ∃ latest set, s.latest = some latest ∧ e.worker.Collects latest set ∧
          uri ∈ set.map DiagFile.uri ∧ markers s.sent uri = e.worker.lastSet.items uri := by
      intro e he hu
      obtain ⟨hsound, -⟩ := hsane.members e he
      cases hl : s.latest with
      | none =>
        exfalso
        cases hran : e.worker.ran.getLast? with
        | none =>
          rw [DiagWorker.lastSet, hran] at hu
          cases hu
        | some p =>
          have hpub : e.worker.HasPublished p.1 uri := by
            rw [DiagWorker.lastSet, hran] at hu
            exact hasPublished_waiting (hs.2 e he) hran hu
          obtain ⟨l, hl', -⟩ := hsane.known e.entry (List.mem_map_of_mem he) _
            (hpub.mem_submitted hsound.runs)
          rw [hl] at hl'
          cases hl'
      | some latest =>
        obtain ⟨set, hran, hcol⟩ := hsane.last_run hs hl he
        have hset : e.worker.lastSet = set := by rw [DiagWorker.lastSet, hran]; rfl
        have htarget : e.worker.target = e.worker.lastSet := by
          rw [DiagWorker.target, hs.2 e he]
        have hpub := hasPublished_waiting (hs.2 e he) hran (hset ▸ hu)
        exact ⟨latest, set, rfl, hcol, hset ▸ hu, htarget ▸ hclaims latest hl hpc e he uri hpub⟩
    by_cases hne : markers s.sent uri = []
    · rw [hne]
      unfold expected
      cases how : (s.latest.bind (·.ws.ownerOf uri)).bind s.workerOf with
      | none => rfl
      | some w =>
        obtain ⟨id, -, hw⟩ := Option.bind_eq_some_iff.mp how
        obtain ⟨e, hfind, rfl⟩ := Option.map_eq_some_iff.mp hw
        have he := List.mem_of_find?_eq_some hfind
        by_contra hitems
        have hok := (hsane.members e he).1.runs.lastSet_ok
        obtain ⟨latest, set, -, -, -, hm⟩ := hshown e he (hok.items_ne_nil.mp (Ne.symm hitems))
        exact hitems (hne.symm.trans hm)
    · obtain ⟨w, hlive, hans⟩ := hanswered uri hne
      rcases hlive with ⟨e, he, rfl⟩ | hleaver
      · have hu : uri ∈ e.worker.lastSet.map DiagFile.uri := by
          simpa [DiagWorker.Answers, DiagWorker.due, DiagWorker.target, hs.2 e he] using hans
        obtain ⟨latest, set, hl, hcol, hmem, hm⟩ := hshown e he hu
        have howner := owner_of_collects hcol (hdistinct latest hl) hmem
        rw [hm, expected, hl, Option.bind_some, howner, Option.bind_some, hsane.workerOf he]
        rfl
      · rw [hs.1] at hleaver
        cases hleaver

end DiagSystem

end TaskjugglerLsp
