import TaskjugglerLsp.Lib.Runs
import TaskjugglerLsp.Lifecycle.Actions
import TaskjugglerLsp.Pathutil.Canonical
import TaskjugglerLsp.QueryContext

/-!
# Runs of the server

An event is a message that changes the state.  Its handler takes a list of steps
(`Event.apply_eq`): the actions of the message, a look at compile_commands.json,
a publication.  Runs of events with an observer are defined over these steps, so
that an invariant is proved step by step (`Observed.run_storeOk` is the first).
-/

namespace TaskjugglerLsp

open Lib

/-! ### Events and steps -/

/-- A message: one whose handler changes the state, or a query, which leaves it alone. -/
inductive Event where
  | initRequest (params : Option Json)
  | initialized
  | didOpen (params : Option Json)
  | didChange (params : Option Json)
  | didClose (params : Option Json)
  | didChangeWatchedFiles (params : Option Json)
  | didRenameFiles (params : Option Json)
  | query (method : CStr) (params : Option Json)

/-- What a handler does, one thing at a time. -/
inductive Step where
  | root (params : Option Json)
  | act (a : Action)
  | reload
  | poll
  | publish
  | ask (method : CStr) (params : Option Json)

section Steps

variable (w : World) (parse : CStr → ParseOutput)

/-- The handler of an event. -/
def Event.apply (st : ServerState) : Event → ServerState
  | initRequest params => handleInitialize params st
  | initialized => handleInitialized w parse st
  | didOpen params => handleDidopen w parse params st
  | didChange params => handleDidchange w parse params st
  | didClose params => handleDidclose w parse params st
  | didChangeWatchedFiles params => handleDidChangeWatchedFiles w parse params st
  | didRenameFiles params => handleDidRenameFiles w parse params st
  | query _ _ => st

/-- The actions that a message asks for. -/
def Event.actions : Event → List Action
  | initRequest _ => []
  | initialized => []
  | didOpen params => didopenActions params
  | didChange params => didchangeActions params
  | didClose params => didcloseActions params
  | didChangeWatchedFiles params =>
    ((Json.getArr (Json.objGet params "changes")).getD []).flatMap watchedFileActions
  | didRenameFiles params =>
    ((Json.getArr (Json.objGet params "files")).getD []).flatMap renameActions
  | query _ _ => []

/-- One step. -/
def Step.apply (st : ServerState) : Step → ServerState
  | root params => handleInitialize params st
  | act a => { st with docs := (a.apply w parse st.docs).1 }
  | reload => reloadCompileCommands w parse st
  | poll => maybeReloadCompileCommands w parse st
  | publish => publishWorkspaceSnapshot w st
  | ask _ _ => st

/-- Revalidation, if it is called for. -/
def revalidation (called : Bool) : List Step := if called then [.poll, .publish] else []

/-- The steps that the handler of an event takes. -/
def Event.steps (st : ServerState) : Event → List Step
  | initRequest params => [.root params]
  | initialized =>
    .reload :: revalidation (reloadCompileCommands w parse st).cc.workspaceRoot.isSome
  | query method params => [.ask method params]
  | e => e.actions.map .act ++ revalidation (applyActions w parse st.docs e.actions).2

end Steps

section Decomposed

variable {w : World} {parse : CStr → ParseOutput}

theorem applyActions_fst (s : Store) (actions : List Action) (b : Bool) :
    (actions.foldl (fun acc a =>
      ((a.apply w parse acc.1).1, acc.2 || (a.apply w parse acc.1).2)) (s, b)).1
      = actions.foldl (fun s a => (a.apply w parse s).1) s := by
  induction actions generalizing s b with
  | nil => rfl
  | cons a actions ih => rw [List.foldl_cons, ih, List.foldl_cons]

theorem foldl_act (st : ServerState) (actions : List Action) :
    (actions.map Step.act).foldl (fun st m => m.apply w parse st) st
      = { st with docs := (applyActions w parse st.docs actions).1 } := by
  rw [applyActions, applyActions_fst]
  induction actions generalizing st with
  | nil => rfl
  | cons a actions ih => rw [List.map_cons, List.foldl_cons, ih, List.foldl_cons, Step.apply]

theorem foldl_revalidation (st : ServerState) (called : Bool) :
    (revalidation called).foldl (fun st m => m.apply w parse st) st
      = if called then revalidateAllDocs w parse st else st := by
  cases called <;> rfl

theorem handleActions_eq (st : ServerState) (actions : List Action) :
    handleActions w parse actions st
      = (actions.map Step.act ++ revalidation (applyActions w parse st.docs actions).2).foldl
          (fun st m => m.apply w parse st) st := by
  rw [List.foldl_append, foldl_act, foldl_revalidation]
  rfl

/-- **A handler is its steps.** -/
theorem Event.apply_eq (st : ServerState) (e : Event) :
    e.apply w parse st = (e.steps w parse st).foldl (fun st m => m.apply w parse st) st := by
  cases e with
  | initRequest params => rfl
  | initialized =>
    rw [Event.steps, List.foldl_cons, foldl_revalidation]
    rfl
  | didOpen params => exact handleActions_eq st _
  | didChange params => exact handleActions_eq st _
  | didClose params => exact handleActions_eq st _
  | didChangeWatchedFiles params =>
    refine Eq.trans ?_ (handleActions_eq st (Event.actions (.didChangeWatchedFiles params)))
    rw [Event.apply, handleDidChangeWatchedFiles, Event.actions]
    cases Json.getArr (Json.objGet params "changes") <;> rfl
  | didRenameFiles params =>
    refine Eq.trans ?_ (handleActions_eq st (Event.actions (.didRenameFiles params)))
    rw [Event.apply, handleDidRenameFiles, Event.actions]
    cases Json.getArr (Json.objGet params "files") <;> rfl
  | query method params => rfl

theorem act_notMem_revalidation {a : Action} {called : Bool} : .act a ∉ revalidation called := by
  cases called <;> simp [revalidation]

/-- The actions among the steps of an event are those that its message asks for. -/
theorem Event.mem_actions {st : ServerState} {e : Event} {a : Action}
    (h : .act a ∈ e.steps w parse st) : a ∈ e.actions := by
  have hacts : ∀ {actions : List Action} {called : Bool},
      .act a ∈ actions.map Step.act ++ revalidation called → a ∈ actions := by
    intro actions called h
    rcases List.mem_append.mp h with h | h
    · simpa using h
    · exact absurd h act_notMem_revalidation
  cases e with
  | initRequest params => simp [Event.steps] at h
  | initialized =>
    rcases List.mem_cons.mp h with h | h
    · cases h
    · exact absurd h act_notMem_revalidation
  | didOpen params => exact hacts h
  | didChange params => exact hacts h
  | didClose params => exact hacts h
  | didChangeWatchedFiles params => exact hacts h
  | didRenameFiles params => exact hacts h
  | query method params => simp [Event.steps] at h

end Decomposed

/-! ### What a reload does to the store -/

section Reloads

variable (w : World) (parse : CStr → ParseOutput)

/-- `d'` is `d` but for the prefixes, the include list, and a root flag that may have been set. -/
def Marked (d d' : Document) : Prop :=
  ∃ b prefixes uris, d' =
    { d with isCcRoot := d.isCcRoot || b, prefixes := prefixes, includedUris := uris }

/-- Loading compile_commands.json leads from one store to the other. -/
structure Reloads (s s' : Store) : Prop where
  keeps : ∀ {i d}, s i = some d → ∃ d', s' i = some d' ∧ Marked d d'
  adds : ∀ {i d'}, s i = none → s' i = some d' → ∃ d, Loaded w parse d ∧ Marked d d'
  unique : s.UniqueUris → s'.UniqueUris

variable {w parse}

theorem Marked.refl (d : Document) : Marked d d :=
  ⟨false, d.prefixes, d.includedUris, by rw [Bool.or_false]⟩

theorem Marked.trans {d d' d'' : Document} (h : Marked d d') (h' : Marked d' d'') :
    Marked d d'' := by
  obtain ⟨b, _, _, rfl⟩ := h
  obtain ⟨b', ps, us, rfl⟩ := h'
  exact ⟨b || b', ps, us, by rw [Bool.or_assoc]⟩

theorem Relabelled.marked {d d' : Document} (h : Relabelled d d') : Marked d d' := by
  obtain ⟨ps, us, rfl⟩ := h
  exact ⟨false, ps, us, by rw [Bool.or_false]⟩

theorem Reloads.refl (s : Store) : Reloads w parse s s := by
  constructor
  · intro i d h
    exact ⟨d, h, .refl d⟩
  · intro i d' h h'
    rw [h] at h'
    cases h'
  · exact id

theorem Reloads.trans {s s' s'' : Store} (h : Reloads w parse s s') (h' : Reloads w parse s' s'') :
    Reloads w parse s s'' := by
  constructor
  · intro i d hd
    obtain ⟨d', hd', hm⟩ := h.keeps hd
    obtain ⟨d'', hd'', hm'⟩ := h'.keeps hd'
    exact ⟨d'', hd'', hm.trans hm'⟩
  · intro i d'' hd hd''
    cases hs : s' i with
    | none => exact h'.adds hs hd''
    | some d' =>
      obtain ⟨e, he, hm⟩ := h'.keeps hs
      rw [hd'', Option.some.injEq] at he
      obtain ⟨d, hl, hm'⟩ := h.adds hd hs
      exact ⟨d, hl, hm'.trans (he ▸ hm)⟩
  · intro hu
    exact h'.unique (h.unique hu)

theorem Loads.reloads {s s' : Store} (h : Loads w parse s s') : Reloads w parse s s' := by
  constructor
  · intro i d hd
    obtain ⟨d', hd', hr⟩ := h.keeps hd
    exact ⟨d', hd', hr.marked⟩
  · intro i d' hd hd'
    exact ⟨d', h.adds hd hd', .refl d'⟩
  · exact h.unique

theorem reloads_mark (s : Store) (o : Option Slot) :
    Reloads w parse s (s.modifyFound o fun d => { d with isCcRoot := true }) := by
  cases o with
  | none => exact .refl s
  | some i =>
    constructor
    · intro j d hd
      by_cases hj : j = i
      · subst hj
        refine ⟨_, by rw [Store.modifyFound, Store.modify_self, hd, Option.map_some],
          true, d.prefixes, d.includedUris, ?_⟩
        rw [Bool.or_true]
      · exact ⟨d, by rw [Store.modifyFound, Store.modify_of_ne hj, hd], .refl d⟩
    · intro j d' hd hd'
      by_cases hj : j = i
      · subst hj
        rw [Store.modifyFound, Store.modify_self, hd] at hd'
        cases hd'
      · rw [Store.modifyFound, Store.modify_of_ne hj, hd] at hd'
        cases hd'
    · intro hu
      exact Store.UniqueUris.modify hu fun _ => rfl

theorem reloads_loadCompileEntry (s : Store) (file : CStr) :
    Reloads w parse s (loadCompileEntry w parse s file) :=
  (loads_loadFileFromDisk file s).reloads.trans (reloads_mark _ _)

theorem reloads_loadCompileEntries (s : Store) (entries : List CStr) :
    Reloads w parse s (loadCompileEntries w parse s entries) := by
  induction entries generalizing s with
  | nil => exact .refl s
  | cons file entries ih => exact (reloads_loadCompileEntry s file).trans (ih _)

/-- The entries of compile_commands.json, if the file is loaded with success. -/
def loadedEntries (w : World) (st : ServerState) : Option (List CStr) :=
  match st.cc.ccPath with
  | none => none
  | some _ =>
    match compileCommandsLoad w st.cc.workspaceRoot with
    | .ok entries => some entries
    | _ => none

/-- Whether a look at compile_commands.json goes on to load it. -/
def pollDue (w : World) (st : ServerState) : Bool :=
  ((st.cc.ccPath.bind w.stat).any fun file =>
    decide (file ≠ ⟨st.cc.mtimeSec, st.cc.mtimeNsec, st.cc.size⟩ ∨ st.cc.attempted = false))

theorem reload_docs (st : ServerState) : (reloadCompileCommands w parse st).docs
    = (loadedEntries w st).elim st.docs (loadCompileEntries w parse st.docs) := by
  unfold reloadCompileCommands loadedEntries
  cases st.cc.ccPath with
  | none => rfl
  | some ccPath =>
    simp only
    cases compileCommandsLoad w st.cc.workspaceRoot <;> rfl

theorem poll_docs (st : ServerState) : (maybeReloadCompileCommands w parse st).docs
    = if pollDue w st then (reloadCompileCommands w parse st).docs else st.docs := by
  unfold maybeReloadCompileCommands pollDue
  cases st.cc.ccPath with
  | none => rfl
  | some ccPath =>
    simp only [Option.bind_some]
    split
    · rename_i hs
      simp [hs]
    · rename_i file hs
      simp only [hs, Option.any_some, decide_eq_true_eq]
      split <;> rfl

/-- The entries that a step loads. -/
def Step.entries (w : World) (st : ServerState) : Step → Option (List CStr)
  | reload => loadedEntries w st
  | poll => if pollDue w st then loadedEntries w st else none
  | _ => none

/-- **What a step does to the store**: an action, or loading some entries, or nothing. -/
theorem Step.docs_eq (st : ServerState) (m : Step) : (m.apply w parse st).docs =
    match m with
    | .act a => (a.apply w parse st.docs).1
    | m => (m.entries w st).elim st.docs (loadCompileEntries w parse st.docs) := by
  cases m with
  | root params => rfl
  | act a => rfl
  | reload => exact reload_docs st
  | poll =>
    refine (poll_docs st).trans ?_
    simp only [Step.entries]
    by_cases hp : pollDue w st = true
    · rw [if_pos hp, if_pos hp, reload_docs]
    · rw [if_neg hp, if_neg hp]
      rfl
  | publish => rfl
  | ask method params => rfl

theorem Step.reloads (st : ServerState) {m : Step} (hm : ∀ a, m ≠ .act a) :
    Reloads w parse st.docs (m.apply w parse st).docs := by
  have hel : Reloads w parse st.docs
      ((m.entries w st).elim st.docs (loadCompileEntries w parse st.docs)) := by
    cases m.entries w st with
    | none => exact .refl _
    | some entries => exact reloads_loadCompileEntries _ entries
  rw [Step.docs_eq]
  cases m with
  | act a => exact absurd rfl (hm a)
  | _ => exact hel

end Reloads

/-- The run has the URIs that a step looks up: that of its action or request, and those of the
entries that it loads. -/
def Step.Named (r : Resolver) (parse : CStr → ParseOutput) (w : World) (st : ServerState) :
    Step → Prop
  | act a => a.Named r parse w st.docs
  | ask _ params => ∀ uri ∈ requestPrimaryUri params, r.uris uri
  | m => ∀ entries ∈ m.entries w st, ∀ file ∈ entries, r.uris (pathToUri file)

/-! ### Runs with an observer -/

/-- The state, and what an observer has noted of the run so far. -/
structure Observed (γ : Type) where
  st : ServerState
  seen : γ

section Runs

variable (parse : CStr → ParseOutput) {γ : Type} (note : ServerState → World → Step → γ → γ)

/-- A step, and the observer's note of it. -/
def Observed.step (o : Observed γ) (x : World × Step) : Observed γ :=
  ⟨x.2.apply x.1 parse o.st, note o.st x.1 x.2 o.seen⟩

/-- The steps that an event takes, in the file system of its message. -/
def Observed.plan (o : Observed γ) (x : World × Event) : List (World × Step) :=
  (x.2.steps x.1 parse o.st).map fun m => (x.1, m)

/-- Every step is taken while the URIs of the run are resolved as `r` does, it looks up no others,
and it meets the condition. -/
structure Observed.Allowed (r : Resolver) (ok : Observed γ → World → Step → Prop) (o : Observed γ)
    (x : World × Step) : Prop where
  suits : r.Suits parse x.1
  named : x.2.Named r parse x.1 o.st
  meets : ok o x.1 x.2

/-- The states between two events of a run. -/
def Observed.Run (r : Resolver) (ok : Observed γ → World → Step → Prop) (seen : γ) :
    Observed γ → Prop :=
  Runs.Reached (Observed.step parse note) (Observed.Allowed parse r ok) (Observed.plan parse)
    ⟨initialState, seen⟩

variable {parse note}

theorem Observed.foldl_plan_st (o : Observed γ) (x : World × Event) :
    ((Observed.plan parse o x).foldl (Observed.step parse note) o).st
      = x.2.apply x.1 parse o.st := by
  have hfold : ∀ (steps : List Step) (o : Observed γ),
      ((steps.map fun m => (x.1, m)).foldl (Observed.step parse note) o).st
        = steps.foldl (fun st m => m.apply x.1 parse st) o.st := by
    intro steps
    induction steps with
    | nil => exact fun _ => rfl
    | cons m steps ih =>
      intro o
      rw [List.map_cons, List.foldl_cons, ih, List.foldl_cons]
      rfl
  rw [Observed.plan, hfold, Event.apply_eq]

theorem Observed.Run.next {r : Resolver} {ok : Observed γ → World → Step → Prop} {seen : γ}
    {o : Observed γ} (h : Observed.Run parse note r ok seen o) {w : World} (e : Event)
    (hw : r.Suits parse w)
    (hnamed : Runs.Meets (Observed.step parse note) (fun o x => x.2.Named r parse x.1 o.st) o
      (Observed.plan parse o (w, e)))
    (hok : Runs.Meets (Observed.step parse note) (fun o x => ok o x.1 x.2) o
      (Observed.plan parse o (w, e))) :
    Observed.Run parse note r ok seen
      ((Observed.plan parse o (w, e)).foldl (Observed.step parse note) o) := by
  refine Runs.Reached.input (w, e) h ?_
  have hsuits : Runs.Meets (Observed.step parse note) (fun _ x => r.Suits parse x.1) o
      (Observed.plan parse o (w, e)) := by
    refine Runs.meets_of_forall fun x hx _ => ?_
    obtain ⟨m, -, rfl⟩ := List.mem_map.mp hx
    exact hw
  exact (hsuits.and (hnamed.and hok)).imp (I := fun _ => True) (fun _ _ _ _ => trivial)
    (fun _ _ _ hx => ⟨hx.1, hx.2.1, hx.2.2⟩) trivial

theorem Observed.Run.input {r : Resolver} {ok : Observed γ → World → Step → Prop} {seen : γ}
    {o : Observed γ} (h : Observed.Run parse note r ok seen o) {w : World} (e : Event)
    (hw : r.Suits parse w)
    (hnamed : Runs.Meets (Observed.step parse note) (fun o x => x.2.Named r parse x.1 o.st) o
      (Observed.plan parse o (w, e)))
    (hok : ∀ m ∈ e.steps w parse o.st, ∀ o, ok o w m) :
    Observed.Run parse note r ok seen
      ((Observed.plan parse o (w, e)).foldl (Observed.step parse note) o) := by
  refine h.next e hw hnamed (Runs.meets_of_forall fun x hx o' => ?_)
  obtain ⟨m, hm, rfl⟩ := List.mem_map.mp hx
  exact hok m hm o'

variable (parse note) in
/-- Some events, one after the other, each with the files there are at its time. -/
def Observed.events (o : Observed γ) (events : List (World × Event)) : Observed γ :=
  events.foldl (fun o x => (Observed.plan parse o x).foldl (Observed.step parse note) o) o

variable (parse note) in
/-- The events look up no other URIs than those of the run. -/
def Observed.EventsNamed (r : Resolver) : Observed γ → List (World × Event) → Prop
  | _, [] => True
  | o, x :: events =>
    Runs.Meets (Observed.step parse note) (fun o y => y.2.Named r parse y.1 o.st) o
      (Observed.plan parse o x) ∧ EventsNamed r (Observed.events parse note o [x]) events

/-- Events go on with a run, if nothing else is asked of their steps. -/
theorem Observed.Run.events {r : Resolver} {seen : γ} {o : Observed γ}
    (h : Observed.Run parse note r (fun _ _ _ => True) seen o) {events : List (World × Event)}
    (hw : ∀ x ∈ events, r.Suits parse x.1)
    (hnamed : Observed.EventsNamed parse note r o events) :
    Observed.Run parse note r (fun _ _ _ => True) seen (Observed.events parse note o events) := by
  induction events generalizing o with
  | nil => exact h
  | cons x events ih =>
    refine ih (h.input x.2 (hw x List.mem_cons_self) hnamed.1 fun _ _ _ => trivial)
      (fun y hy => hw y (List.mem_cons_of_mem _ hy)) hnamed.2

theorem Marked.uri_eq {d d' : Document} (h : Marked d d') : d'.uri = d.uri := by
  obtain ⟨b, ps, us, rfl⟩ := h
  rfl

theorem Marked.snap_eq {d d' : Document} (h : Marked d d') : d'.snap = d.snap := by
  obtain ⟨b, ps, us, rfl⟩ := h
  rfl

theorem Store.Sound.reloads {w : World} {s s' : Store} (h : s.Sound) (hl : Reloads w parse s s') :
    s'.Sound := by
  refine ⟨hl.unique h.unique, fun i d' snap hd' hsnap => ?_⟩
  cases hs : s i with
  | none =>
    obtain ⟨d, hload, hm⟩ := hl.adds hs hd'
    rw [hm.uri_eq]
    exact hload.snap_uri (by rwa [← hm.snap_eq])
  | some d =>
    obtain ⟨e, he, hm⟩ := hl.keeps hs
    rw [he, Option.some.injEq] at hd'
    subst hd'
    rw [hm.uri_eq]
    exact h.snapUris i d snap hs (by rwa [← hm.snap_eq])

theorem Store.Sound.step {w : World} {st : ServerState} (h : st.docs.Sound) (m : Step) :
    (m.apply w parse st).docs.Sound := by
  cases m with
  | act a => exact (carries w parse _ a).sound h
  | root params => exact h
  | publish => exact h
  | ask method params => exact h
  | reload => exact h.reloads (Step.reloads st fun a => by rintro ⟨⟩)
  | poll => exact h.reloads (Step.reloads st fun a => by rintro ⟨⟩)

theorem StoreOk.loadCompileEntry {r : Resolver} {w : World} {s : Store} (h : StoreOk r s)
    (hw : r.Suits parse w) {file : CStr} (hn : r.uris (pathToUri file)) :
    StoreOk r (loadCompileEntry w parse s file) :=
  (h.loadFileFromDisk hw hn).modifyFound _ (fun _ => rfl) (fun _ => rfl) fun _ _ => Or.inl

theorem StoreOk.loadCompileEntries {r : Resolver} {w : World} {s : Store} (h : StoreOk r s)
    (hw : r.Suits parse w) {entries : List CStr} (hn : ∀ file ∈ entries, r.uris (pathToUri file)) :
    StoreOk r (loadCompileEntries w parse s entries) := by
  induction entries generalizing s with
  | nil => exact h
  | cons file entries ih =>
    exact ih (h.loadCompileEntry hw (hn file List.mem_cons_self))
      fun f hf => hn f (List.mem_cons_of_mem _ hf)

theorem StoreOk.step {r : Resolver} {w : World} {st : ServerState} (hw : r.Suits parse w)
    (h : StoreOk r st.docs) {m : Step} (hn : m.Named r parse w st) :
    StoreOk r (m.apply w parse st).docs := by
  have hload : (∀ entries ∈ m.entries w st, ∀ file ∈ entries, r.uris (pathToUri file)) →
      StoreOk r ((m.entries w st).elim st.docs
        (TaskjugglerLsp.loadCompileEntries w parse st.docs)) := by
    intro hn
    cases hent : m.entries w st with
    | none => exact h
    | some entries => exact h.loadCompileEntries hw (hn entries hent)
  rw [Step.docs_eq]
  cases m with
  | act a => exact (carries w parse _ a).storeOk h hw hn
  | ask method params => exact h
  | _ => exact hload hn

/-- **The invariant of the store** holds throughout a run. -/
theorem Observed.run_storeOk {r : Resolver} {ok : Observed γ → World → Step → Prop} {seen : γ}
    {o : Observed γ} (h : Observed.Run parse note r ok seen o) : StoreOk r o.st.docs := by
  refine Runs.Reached.invariant (I := fun o => StoreOk r o.st.docs) (storeOk_empty r) ?_ h
  intro o x ho hx
  exact ho.step hx.suits hx.named

end Runs

/-! ### Messages and file systems to try things on -/

/-- A didOpen message. -/
def openMessage (uri text : String) : Event :=
  .didOpen (some (.obj [("textDocument",
    .obj [("uri", .str (cstr uri)), ("text", .str (cstr text))])]))

/-- A didChange message with the whole text. -/
def changeMessage (uri text : String) : Event :=
  .didChange (some (.obj [("textDocument", .obj [("uri", .str (cstr uri))]),
    ("contentChanges", .arr [.obj [("text", .str (cstr text))]])]))

/-- A didClose message. -/
def closeMessage (uri : String) : Event :=
  .didClose (some (.obj [("textDocument", .obj [("uri", .str (cstr uri))])]))

/-- A didRenameFiles message with one entry. -/
def renameMessage (oldUri newUri : String) : Event :=
  .didRenameFiles (some (.obj [("files",
    .arr [.obj [("oldUri", .str (cstr oldUri)), ("newUri", .str (cstr newUri))]])]))

/-- A didChangeWatchedFiles message with one event; type 3 is a deletion. -/
def watchMessage (uri : String) (type : ℤ) : Event :=
  .didChangeWatchedFiles (some (.obj [("changes",
    .arr [.obj [("uri", .str (cstr uri)), ("type", .int type)]])]))

/-- What the parser makes of a blank text. -/
def blankParse : CStr → ParseOutput := fun _ =>
  ⟨.mk ⟨0, none, none, ⟨⟨0, 0⟩, ⟨0, 0⟩⟩, ⟨⟨0, 0⟩, ⟨0, 0⟩⟩, []⟩ [], [], 0, []⟩

/-- A token within one line. -/
def sampleToken (kind : ℕ) (line start stop : UInt32) (text : Option String) : TokenSpan :=
  ⟨kind, ⟨line, start⟩, ⟨line, stop⟩, text.map cstr⟩

/-- A task without a body in the first line of a text. -/
def sampleTask (id name : String) : TjNode :=
  .mk ⟨kwTask, some (cstr id), some (cstr name), ⟨⟨0, 0⟩, ⟨0, 4⟩⟩, ⟨⟨0, 5⟩, ⟨0, 6⟩⟩, []⟩ []

/-- The text of a file that includes another one under a task. -/
def outerText : String := "task x \"X\"\ninclude \"b.tji\" \x7b taskprefix x \x7d"

/-- The text of a file that includes a third one. -/
def middleText : String := "include \"c.tji\""

/-- The text of a file with a task. -/
def innerText : String := "task t \"T\""

/-- A prefix for tasks and for nothing else. -/
def taskPrefix (path : String) : PrefixSet := fun k => if k = .task then some (cstr path) else none

/-- What the parser makes of these texts, and of a blank one. -/
def includeParse (text : CStr) : ParseOutput :=
  let blank := blankParse text
  if text = cstr outerText then
    ⟨.mk blank.root.info [sampleTask "x" "\"X\""],
      [sampleToken kwTask 0 0 4 "task", sampleToken tkIdent 0 5 6 "x",
        sampleToken tkStr 0 7 10 "\"X\"", sampleToken kwInclude 1 0 7 "include",
        sampleToken tkStr 1 8 15 "\"b.tji\"", sampleToken tkLbrace 1 16 17 none,
        sampleToken kwTaskprefix 1 18 28 "taskprefix", sampleToken tkIdent 1 29 30 "x",
        sampleToken tkRbrace 1 31 32 none],
      7, [⟨cstr "b.tji", taskPrefix "x"⟩]⟩
  else if text = cstr middleText then
    ⟨blank.root, [sampleToken kwInclude 0 0 7 "include", sampleToken tkStr 0 8 15 "\"c.tji\""], 2,
      [⟨cstr "c.tji", noPrefixes⟩]⟩
  else if text = cstr innerText then
    ⟨.mk blank.root.info [sampleTask "t" "\"T\""],
      [sampleToken kwTask 0 0 4 "task", sampleToken tkIdent 0 5 6 "t",
        sampleToken tkStr 0 7 10 "\"T\""], 3, []⟩
  else blank

/-- The names that lead to a file or a directory, from a directory on, where some files are named
from the root. -/
def walkTo (files : List (List CStr)) : List CStr → List CStr → Option (List CStr)
  | place, [] => some place
  | place, name :: names =>
    -- there is nothing behind a file, not even a last separator
    if place ∈ files then none
    else if name = [] ∨ name = cstr "." then walkTo files place names
    else if name = cstr ".." then walkTo files place.dropLast names
    else if files.any (place ++ [name]).isPrefixOf then walkTo files (place ++ [name]) names
    else none

/-- The names that a path is made of. -/
def namesOf (path : CStr) : List CStr := (path.splitOn 47).filter (· ≠ [])

/-- What `realpath` answers for an absolute path where there are some files and no links. -/
def realpathIn (files : List CStr) (path : CStr) : Option CStr :=
  if path.head? = some 47 then
    (walkTo (files.map namesOf) [] (path.splitOn 47)).map fun names => 47 :: List.intercalate [47] names
  else none

/-- A file system that holds some files by URI. -/
def fileSystem (files : List (String × String)) : World where
  realpath := realpathIn (files.filterMap fun file => uriToPath (cstr file.1))
  readFile path :=
    if 0 ∈ path then none
    else (realpathIn (files.filterMap fun file => uriToPath (cstr file.1)) path).bind fun real =>
      (files.find? fun file => cstr file.1 == pathToUri real).map fun file => cstr file.2
  stat _ := none
  readJson _ := none

theorem exists_file {files : List (String × String)} {path text : CStr}
    (h : (fileSystem files).readFile path = some text) : ∃ file ∈ files, text = cstr file.2 ∧
      normalizeUri (fileSystem files).realpath (pathToUri path) = cstr file.1 := by
  have hnul : ¬ 0 ∈ path := fun h0 => by simp [fileSystem, h0] at h
  obtain ⟨real, hreal, hfile⟩ := Option.bind_eq_some_iff.mp ((if_neg hnul).symm.trans h)
  obtain ⟨file, hfind, rfl⟩ := Option.map_eq_some_iff.mp hfile
  refine ⟨file, List.mem_of_find?_eq_some hfind, rfl, ?_⟩
  have huri := List.find?_some hfind
  have hpath : (fileSystem files).realpath path = some real := hreal
  rw [normalizeUri, uriToPath_pathToUri hnul]
  simp only [hpath, Option.getD_some]
  exact (beq_iff_eq.mp huri).symm

/-- The file system suits a run with some URIs that it resolves lexically, if the run has all that
its files include. -/
def suitable (uris : List CStr) (parse : CStr → ParseOutput) (w : World) : Bool :=
  uris.all fun uri =>
    decide (normalizeUri w.realpath uri = normalizeUri (fun _ => none) uri) &&
      let path := percentDecodeBytes (uri.drop 7)
      (w.readFile path).all fun text => (parse text).includes.all fun inc =>
        decide (pathToUri (resolveIncludePath path inc.filename) ∈ uris)

theorem suits_of_suitable {uris : List CStr} {parse : CStr → ParseOutput} {w : World}
    (h : suitable uris parse w = true) : (lexicalResolver uris).Suits parse w := by
  have hall := List.all_eq_true.mp h
  constructor
  · intro uri hn
    have huri := hall uri hn
    rw [Bool.and_eq_true, decide_eq_true_eq] at huri
    exact huri.1
  · intro path hn text hread inc hinc
    have huri := (Bool.and_eq_true _ _ ▸ hall _ hn).2
    have hpath : percentDecodeBytes ((pathToUri path).drop 7) = path :=
      percentDecodeBytes_percentEncodePath path
    simp only [hpath, Option.mem_def.mp hread, Option.all_some, List.all_eq_true,
      decide_eq_true_eq] at huri
    exact huri inc hinc

instance (uris : List CStr) (parse : CStr → ParseOutput) (path text : CStr) :
    Decidable ((lexicalResolver uris).CoversText parse path text) :=
  inferInstanceAs (Decidable (∀ inc ∈ (parse text).includes,
    (lexicalResolver uris).uris (pathToUri (resolveIncludePath path inc.filename))))

instance (uris : List CStr) (parse : CStr → ParseOutput) (w : World) (s : Store) (a : Action) :
    Decidable (a.Named (lexicalResolver uris) parse w s) :=
  inferInstanceAs (Decidable ((lexicalResolver uris).uris a.uri ∧ ∀ path ∈ uriToPath a.uri,
    (lexicalResolver uris).uris (pathToUri path) ∧
      ∀ text ∈ a.newText w s, (lexicalResolver uris).CoversText parse path text))

instance (uris : List CStr) (parse : CStr → ParseOutput) (w : World) (st : ServerState) :
    ∀ m : Step, Decidable (m.Named (lexicalResolver uris) parse w st)
  | .act a => inferInstanceAs (Decidable (a.Named (lexicalResolver uris) parse w st.docs))
  | .ask _ params => inferInstanceAs (Decidable (∀ uri ∈ requestPrimaryUri params,
      (lexicalResolver uris).uris uri))
  | .root params => inferInstanceAs (Decidable (∀ entries ∈ (Step.root params).entries w st,
      ∀ file ∈ entries, (lexicalResolver uris).uris (pathToUri file)))
  | .reload => inferInstanceAs (Decidable (∀ entries ∈ Step.reload.entries w st,
      ∀ file ∈ entries, (lexicalResolver uris).uris (pathToUri file)))
  | .poll => inferInstanceAs (Decidable (∀ entries ∈ Step.poll.entries w st,
      ∀ file ∈ entries, (lexicalResolver uris).uris (pathToUri file)))
  | .publish => inferInstanceAs (Decidable (∀ entries ∈ Step.publish.entries w st,
      ∀ file ∈ entries, (lexicalResolver uris).uris (pathToUri file)))

instance Observed.EventsNamed.decidable {γ : Type} (uris : List CStr) (parse : CStr → ParseOutput)
    (note : ServerState → World → Step → γ → γ) : ∀ (o : Observed γ) (events : List (World × Event)),
    Decidable (Observed.EventsNamed parse note (lexicalResolver uris) o events)
  | _, [] => isTrue trivial
  | o, x :: events =>
    have := EventsNamed.decidable uris parse note (Observed.events parse note o [x]) events
    inferInstanceAs (Decidable (Runs.Meets (Observed.step parse note)
      (fun o y => y.2.Named (lexicalResolver uris) parse y.1 o.st) o (Observed.plan parse o x) ∧
        Observed.EventsNamed parse note (lexicalResolver uris)
          (Observed.events parse note o [x]) events))

/-! ### One slot for a URI -/

section Slots

variable (parse : CStr → ParseOutput) (r : Resolver)

/-- The states that a sequence of operations reaches, each of them with the files there are at
its time: steps of the handlers, loading a file, following the includes of a text. -/
inductive Operated : ServerState → Prop
  | start : Operated initialState
  | step {st : ServerState} (w : World) (m : Step) : Operated st → r.Suits parse w →
      m.Named r parse w st → Operated (m.apply w parse st)
  | load {st : ServerState} (w : World) (path : CStr) : Operated st → r.Suits parse w →
      r.uris (pathToUri path) →
      Operated { st with docs := loadFileFromDisk w parse path st.docs }
  | follow {st : ServerState} (w : World) (path text : CStr) : Operated st → r.Suits parse w →
      r.CoversText parse path text →
      Operated { st with
        docs := followIncludes w (loadFileFromDisk w parse) path (parse text) st.docs }

variable {parse r}

theorem Operated.storeOk {st : ServerState} (h : Operated parse r st) : StoreOk r st.docs := by
  induction h with
  | start => exact storeOk_empty r
  | step w m _ hw hn ih => exact ih.step hw hn
  | load w path _ hw hn ih => exact ih.loadFileFromDisk hw hn
  | follow w path text _ hw hc ih =>
    exact ih.followIncludes (fun _ _ hn hok => hok.loadFileFromDisk hw hn) hc

theorem Operated.steps {st : ServerState} (h : Operated parse r st) {w : World}
    (hw : r.Suits parse w) {steps : List Step}
    (hn : Runs.Meets (fun st m => m.apply w parse st) (fun st m => m.Named r parse w st) st steps) :
    Operated parse r (steps.foldl (fun st m => m.apply w parse st) st) := by
  induction steps generalizing st with
  | nil => exact h
  | cons m steps ih => exact ih (h.step w m hw hn.1) hn.2

/-- **No two slots hold the same canonical URI**, and a lookup by any spelling finds the slot
that holds the canonical form of it, if there is one. -/
theorem docs_unique {st : ServerState} (h : Operated parse r st) :
    (∀ i j d e, st.docs i = some d → st.docs j = some e → r.canon d.uri = r.canon e.uri → i = j) ∧
    ∀ realpath, r.Governs realpath → ∀ uri, r.uris uri → ∀ i, docFind realpath st.docs uri = some i ↔
      ∃ d, st.docs i = some d ∧ d.uri = normalizeUri realpath uri := by
  have hok := h.storeOk
  refine ⟨fun i j d e hd he hu => ?_, fun realpath hr uri hn i => ?_⟩
  · rw [hok.canonical i d hd, hok.canonical j e he] at hu
    exact hok.unique i j d e hd he hu
  · rw [hr uri hn]
    exact hok.docFind_iff (w := ⟨realpath, fun _ => none, fun _ => none, fun _ => none⟩) hr hn

/-- The spellings of one file. -/
def spelledUris : List CStr :=
  [cstr "file:///p/a.tjp", cstr "file:///p/./a.tjp", cstr "file:///p//a.tjp"]

/-- The file system with that file. -/
def spelledFile : World := fileSystem [("file:///p/a.tjp", "")]

/-- The file is opened under one of them. -/
def spelledOpen : ServerState :=
  (openMessage "file:///p/./a.tjp" "").apply spelledFile blankParse initialState

/-- A file opened under one spelling and loaded under another has one slot. -/
theorem docs_unique_spellings :
    ∃ st, Operated blankParse (lexicalResolver spelledUris) st ∧
      docFind spelledFile.realpath st.docs (cstr "file:///p//a.tjp") = some 0 ∧
      ∀ j d, st.docs j = some d → d.uri = cstr "file:///p/a.tjp" → j = 0 := by
  have hw : (lexicalResolver spelledUris).Suits blankParse spelledFile :=
    suits_of_suitable (by decide +kernel)
  have hopen : Operated blankParse (lexicalResolver spelledUris) spelledOpen := by
    rw [spelledOpen, Event.apply_eq]
    exact Operated.start.steps hw (by decide +kernel)
  have hrun := hopen.load spelledFile (cstr "/p/a.tjp") hw (by decide +kernel)
  obtain ⟨huniq, hfind⟩ := docs_unique hrun
  have hslot : (loadFileFromDisk spelledFile blankParse (cstr "/p/a.tjp") spelledOpen.docs 0).map
      (·.uri) = some (cstr "file:///p/a.tjp") := by decide +kernel
  obtain ⟨e, he, hu⟩ := Option.map_eq_some_iff.mp hslot
  refine ⟨_, hrun, ?_, fun j d hd hu' => ?_⟩
  · refine (hfind spelledFile.realpath hw.governs _ (by decide +kernel) 0).mpr ⟨e, he, ?_⟩
    rw [hu]
    decide +kernel
  · exact huniq j 0 d e hd he (by rw [hu, hu'])

end Slots

/-! ### Runs over any files -/

section Visited

variable (parse : CStr → ParseOutput)

/-- The states that the handlers lead to, whatever files there are at the time of each message. -/
inductive Visited : ServerState → Prop
  | start : Visited initialState
  | event {st : ServerState} (w : World) (e : Event) : Visited st → Visited (e.apply w parse st)

variable {parse}

/-- **The documents stay apart**, whatever files there are. -/
theorem Visited.sound {st : ServerState} (h : Visited parse st) : st.docs.Sound := by
  induction h with
  | start => exact sound_empty
  | @event st w e _ ih =>
    have hsteps : ∀ (steps : List Step) (st : ServerState), st.docs.Sound →
        (steps.foldl (fun st m => m.apply w parse st) st).docs.Sound := by
      intro steps
      induction steps with
      | nil => exact fun _ h => h
      | cons m steps ihs => exact fun st h => ihs _ (h.step m)
    rw [Event.apply_eq]
    exact hsteps _ st ih

end Visited

end TaskjugglerLsp
