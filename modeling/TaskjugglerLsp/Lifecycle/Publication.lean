import TaskjugglerLsp.Lifecycle.Events

/-!
# Every handler publishes what it leaves in the store

A handler that has changed the store ends with a publication, and one that has
not leaves both the store and the published snapshot alone (`Event.publishes`).
So between two events of a run the snapshot is the one built from the store
(`Observed.run_published`).
-/

namespace TaskjugglerLsp

open Lib

section Handlers

variable {w : World} {parse : CStr → ParseOutput}

theorem applyActions_of_false {s : Store} {actions : List Action}
    (h : (applyActions w parse s actions).2 = false) :
    (applyActions w parse s actions).1 = s := by
  have hgen : ∀ (actions : List Action) (s : Store) (b : Bool),
      (actions.foldl (fun acc a =>
        ((a.apply w parse acc.1).1, acc.2 || (a.apply w parse acc.1).2)) (s, b)).2 = false →
      b = false ∧ (actions.foldl (fun acc a =>
        ((a.apply w parse acc.1).1, acc.2 || (a.apply w parse acc.1).2)) (s, b)).1 = s := by
    intro actions
    induction actions with
    | nil => exact fun s b hb => ⟨hb, rfl⟩
    | cons a actions ih =>
      intro s b hb
      rw [List.foldl_cons] at hb ⊢
      obtain ⟨hor, hfold⟩ := ih _ _ hb
      rw [Bool.or_eq_false_iff] at hor
      have hc := carries w parse s a
      rw [hor.2] at hc
      exact ⟨hor.1, hfold.trans hc.eq_of_false⟩
  exact (hgen actions s false h).2

/-- The handler of an event either publishes the store that it leaves, or changes nothing that a
query can see. -/
def Publishes (w : World) (st st' : ServerState) : Prop :=
  st'.ws = buildWorkspaceSnapshot w.realpath st'.docs st'.cc.status ∨
    (st'.docs = st.docs ∧ st'.ws = st.ws)

theorem publishes_revalidate (st st0 : ServerState) :
    Publishes w st0 (revalidateAllDocs w parse st) := Or.inl rfl

theorem publishes_handleActions (st : ServerState) (actions : List Action) :
    Publishes w st (handleActions w parse actions st) := by
  unfold handleActions
  cases hres : applyActions w parse st.docs actions with
  | mk s changed =>
    cases changed with
    | true => exact publishes_revalidate _ _
    | false =>
      have hs : s = st.docs := by
        have := applyActions_of_false (congrArg Prod.snd hres)
        rwa [hres] at this
      exact Or.inr ⟨hs, rfl⟩

theorem reload_cc (w : World) (parse : CStr → ParseOutput) (st : ServerState) :
    (reloadCompileCommands w parse st).cc.workspaceRoot = st.cc.workspaceRoot ∧
      (reloadCompileCommands w parse st).ws = st.ws := by
  unfold reloadCompileCommands
  cases st.cc.ccPath with
  | none => exact ⟨rfl, rfl⟩
  | some ccPath =>
    have hremember : ∀ o, (st.cc.remember o).workspaceRoot = st.cc.workspaceRoot := by
      intro o
      cases o <;> rfl
    simp only
    cases compileCommandsLoad w st.cc.workspaceRoot <;> exact ⟨hremember _, rfl⟩

theorem loadedEntries_of_no_root {st : ServerState} (h : st.cc.workspaceRoot = none) :
    loadedEntries w st = none := by
  unfold loadedEntries
  cases st.cc.ccPath with
  | none => rfl
  | some ccPath => rw [h]; rfl

theorem publishes_handleInitialized (st : ServerState) :
    Publishes w st (handleInitialized w parse st) := by
  unfold handleInitialized
  simp only
  split
  · exact publishes_revalidate _ _
  · rename_i hroot
    obtain ⟨hcc, hws⟩ := reload_cc w parse st
    rw [hcc, Bool.not_eq_true, Option.isSome_eq_false_iff, Option.isNone_iff_eq_none] at hroot
    refine Or.inr ⟨?_, hws⟩
    rw [reload_docs, loadedEntries_of_no_root hroot]
    rfl

/-- **Every handler** publishes what it leaves in the store. -/
theorem Event.publishes (w : World) (parse : CStr → ParseOutput) (st : ServerState) (e : Event) :
    Publishes w st (e.apply w parse st) := by
  cases e with
  | initRequest params => exact Or.inr ⟨rfl, rfl⟩
  | initialized => exact publishes_handleInitialized st
  | didOpen params => exact publishes_handleActions st _
  | didChange params => exact publishes_handleActions st _
  | didClose params => exact publishes_handleActions st _
  | didChangeWatchedFiles params =>
    rw [Event.apply, handleDidChangeWatchedFiles]
    cases Json.getArr (Json.objGet params "changes") with
    | none => exact Or.inr ⟨rfl, rfl⟩
    | some changes => exact publishes_handleActions st _
  | didRenameFiles params =>
    rw [Event.apply, handleDidRenameFiles]
    cases Json.getArr (Json.objGet params "files") with
    | none => exact Or.inr ⟨rfl, rfl⟩
    | some files => exact publishes_handleActions st _
  | query method params => exact Or.inr ⟨rfl, rfl⟩

/-- Whether the handler of an event goes through `revalidate_all_docs`. -/
def Event.republishes (w : World) (parse : CStr → ParseOutput) (st : ServerState) : Event → Bool
  | initRequest _ => false
  | initialized => (reloadCompileCommands w parse st).cc.workspaceRoot.isSome
  | query _ _ => false
  | e => (applyActions w parse st.docs e.actions).2

theorem handleActions_ws (st : ServerState) (actions : List Action) :
    (handleActions w parse actions st).ws
      = if (applyActions w parse st.docs actions).2 then
          buildWorkspaceSnapshot w.realpath (handleActions w parse actions st).docs
            (handleActions w parse actions st).cc.status
        else st.ws := by
  unfold handleActions
  cases applyActions w parse st.docs actions with
  | mk s changed =>
    cases changed with
    | true => rfl
    | false => rfl

/-- **What is published** after an event. -/
theorem Event.ws_eq (w : World) (parse : CStr → ParseOutput) (st : ServerState) (e : Event) :
    (e.apply w parse st).ws = if e.republishes w parse st then
        buildWorkspaceSnapshot w.realpath (e.apply w parse st).docs (e.apply w parse st).cc.status
      else st.ws := by
  cases e with
  | initRequest params => rfl
  | initialized =>
    rw [Event.apply, Event.republishes, handleInitialized]
    by_cases hroot : (reloadCompileCommands w parse st).cc.workspaceRoot.isSome = true
    · rw [if_pos hroot, if_pos hroot]
      rfl
    · rw [if_neg hroot, if_neg hroot]
      exact (reload_cc w parse st).2
  | didOpen params => exact handleActions_ws st _
  | didChange params => exact handleActions_ws st _
  | didClose params => exact handleActions_ws st _
  | didChangeWatchedFiles params =>
    have hrep : Event.republishes w parse st (.didChangeWatchedFiles params)
        = (applyActions w parse st.docs (Event.actions (.didChangeWatchedFiles params))).2 := rfl
    rw [hrep, Event.apply, handleDidChangeWatchedFiles, Event.actions]
    cases Json.getArr (Json.objGet params "changes") with
    | none => rfl
    | some changes => exact handleActions_ws st _
  | didRenameFiles params =>
    have hrep : Event.republishes w parse st (.didRenameFiles params)
        = (applyActions w parse st.docs (Event.actions (.didRenameFiles params))).2 := rfl
    rw [hrep, Event.apply, handleDidRenameFiles, Event.actions]
    cases Json.getArr (Json.objGet params "files") with
    | none => rfl
    | some files => exact handleActions_ws st _
  | query method params => rfl

end Handlers

section Runs

variable {parse : CStr → ParseOutput} {γ : Type} {note : ServerState → World → Step → γ → γ}
  {r : Resolver}

/-- The published snapshot is the one built from the store; nothing is published before the store
is first changed. -/
def Published (r : Resolver) (st : ServerState) : Prop :=
  (∃ realpath status, r.Governs realpath ∧ st.ws = buildWorkspaceSnapshot realpath st.docs status) ∨
    (st.ws = none ∧ st.docs = emptyStore)

/-- **Between two events** the published snapshot is up to date. -/
theorem Observed.run_published {ok : Observed γ → World → Step → Prop} {seen : γ} {o : Observed γ}
    (h : Observed.Run parse note r ok seen o) : Published r o.st := by
  induction h with
  | start => exact Or.inr ⟨rfl, rfl⟩
  | @input o x hr hm ih =>
    rw [Published, Observed.foldl_plan_st]
    obtain ⟨w, e⟩ := x
    rcases Event.publishes w parse o.st e with hp | ⟨hdocs, hws⟩
    · by_cases hsteps : e.steps w parse o.st = []
      · have happly : e.apply w parse o.st = o.st := by
          rw [Event.apply_eq, hsteps]
          rfl
        rwa [happly]
      · obtain ⟨m, hmem⟩ := List.exists_mem_of_ne_nil _ hsteps
        have hw : r.Governs w.realpath := by
          cases hplan : e.steps w parse o.st with
          | nil => exact absurd hplan hsteps
          | cons m steps =>
            rw [Observed.plan, hplan, List.map_cons] at hm
            exact hm.1.suits.governs
        exact Or.inl ⟨_, _, hw, hp⟩
    · rw [hdocs, hws]
      exact ih

end Runs

end TaskjugglerLsp
