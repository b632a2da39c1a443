import Mathlib.Data.List.Perm.Basic
import TaskjugglerLsp.DiagWorker.Registry

/-!
# The invariant of the registry

At each point of `diag_registry_update` the workers that are seen have been given
the latest snapshot, and the projects that are not left to do have such a worker
(`Phase`).  With what holds of each worker, that is kept by every step of the
coordinator and of the threads (`Step.sane`).
-/

namespace TaskjugglerLsp

open Lib

/-! ### The registry -/

section Remove

variable {l : List Registered} {i : ℕ} {e : Registered}

theorem registryRemoveAt_perm (h : l[i]? = some e) : l.Perm (e :: registryRemoveAt l i) := by
  obtain ⟨hi, hget⟩ := List.getElem?_eq_some_iff.mp h
  have hne : l ≠ [] := by
    rintro rfl
    cases hi
  obtain ⟨init, last, rfl⟩ : ∃ init last, l = init ++ [last] :=
    ⟨l.dropLast, l.getLast hne, (List.dropLast_append_getLast hne).symm⟩
  rw [registryRemoveAt, List.getLast?_append, List.getLast?_singleton, Option.some_or]
  simp only
  by_cases hlt : i < init.length
  · obtain ⟨pre, post, rfl, rfl⟩ : ∃ pre post, init = pre ++ e :: post ∧ i = pre.length := by
      refine ⟨init.take i, init.drop (i + 1), ?_, by simp; omega⟩
      rw [List.getElem_append_left hlt] at hget
      rw [← hget, List.cons_getElem_drop_succ, List.take_append_drop]
    have hset : ((pre ++ e :: post) ++ [last]).set pre.length last = (pre ++ last :: post) ++ [last] := by
      simp
    rw [hset, List.dropLast_concat]
    refine ((List.perm_append_singleton last (pre ++ e :: post)).trans ?_).trans
      (List.Perm.cons e List.perm_middle.symm)
    exact (List.Perm.cons last List.perm_middle).trans (List.Perm.swap e last _)
  · have hi' : i = init.length := by
      rw [List.length_append, List.length_singleton] at hi
      omega
    subst hi'
    have hlast : last = e := by simpa using hget
    rw [hlast]
    simp

theorem mem_registryRemoveAt (h : l[i]? = some e) {e' : Registered}
    (he : e' ∈ registryRemoveAt l i) : e' ∈ l :=
  (registryRemoveAt_perm h).symm.subset (List.mem_cons_of_mem e he)

theorem registryRemoveAt_take (h : l[i]? = some e) :
    (registryRemoveAt l i).take i = l.take i := by
  obtain ⟨hi, -⟩ := List.getElem?_eq_some_iff.mp h
  have hne : l ≠ [] := by
    rintro rfl
    cases hi
  rw [registryRemoveAt, List.getLast?_eq_some_getLast hne]
  simp only
  rw [List.dropLast_eq_take, List.take_take, List.length_set, List.take_set_of_le (by omega),
    Nat.min_eq_left (by omega)]

theorem registryFind_some {id : CStr} (h : registryFind l id = some i) (he : l[i]? = some e) :
    e.worker.projectId = id := by
  obtain ⟨hi, hp, -⟩ := List.findIdx?_eq_some_iff_getElem.mp h
  obtain ⟨hi', hget⟩ := List.getElem?_eq_some_iff.mp he
  rw [hget] at hp
  exact of_decide_eq_true hp

theorem registryFind_none {id : CStr} (h : registryFind l id = none) {e : Registered}
    (he : e ∈ l) : e.worker.projectId ≠ id := by
  have := List.findIdx?_eq_none_iff.mp h e he
  exact of_decide_eq_false this

end Remove

/-! ### The coordinator -/

/-- What the loops of the coordinator go by. -/
structure Entry where
  id : CStr
  seen : Bool
  submitted : List WsRef

def Registered.entry (e : Registered) : Entry :=
  ⟨e.worker.projectId, e.seen, e.worker.fates.submitted⟩

section Phase

variable (latest : Option WsRef) (entries : List Entry)

/-- The workers that are seen have been given the latest snapshot. -/
def Updated : Prop := ∀ e ∈ entries, e.seen = true → e.submitted.getLast? = latest

/-- The projects that are not left to do have a worker that is seen. -/
def Covered (todo : List WsProject) : Prop :=
  ∀ l, latest = some l → ∀ q ∈ l.ws.projects,
    q.id ∈ todo.map (·.id) ∨ ∃ e ∈ entries, e.seen = true ∧ e.id = q.id

/-- What holds at each point of the coordinator. -/
def Phase : CoordinatorPc → Prop
  | .idle => (∀ e ∈ entries, e.seen = true) ∧ Updated latest entries ∧ Covered latest entries []
  | .handling => True
  | .baseline _ => ∃ l, latest = some l ∧ ∀ e ∈ entries, ∀ ref ∈ e.submitted, ref.id < l.id
  | .acquiring todo => Updated latest entries ∧ Covered latest entries todo
  | .spawning p todo => Updated latest entries ∧ Covered latest entries (p :: todo) ∧
      ∀ e ∈ entries, e.id ≠ p.id
  | .requesting i p todo => Updated latest entries ∧ Covered latest entries (p :: todo) ∧
      ∃ e, entries[i]? = some e ∧ e.id = p.id
  | .sweeping i => Updated latest entries ∧ Covered latest entries [] ∧
      ∀ e ∈ entries.take i, e.seen = true
  | .joining _ next => Phase next

/-- No snapshot but the latest has its number. -/
def Known : Prop :=
  ∀ e ∈ entries, ∀ ref ∈ e.submitted, ∃ l, latest = some l ∧ (ref = l ∨ ref.id < l.id)

end Phase

section Entries

variable {latest : Option WsRef} {entries entries' : List Entry}

theorem Updated.subset (h : Updated latest entries) (hs : ∀ e ∈ entries', e ∈ entries) :
    Updated latest entries' := fun e he => h e (hs e he)

theorem Known.subset (h : Known latest entries) (hs : ∀ e ∈ entries', e ∈ entries) :
    Known latest entries' := fun e he => h e (hs e he)

/-- A worker that is dropped leaves the projects covered, if it was not seen or if its project is
among those left to do. -/
theorem Covered.remove {todo : List WsProject} {x : Entry} (h : Covered latest entries todo)
    (hperm : entries.Perm (x :: entries')) (hx : x.seen = true → x.id ∈ todo.map (·.id)) :
    Covered latest entries' todo := by
  intro l hl q hq
  rcases h l hl q hq with hq | ⟨e, he, hseen, hid⟩
  · exact Or.inl hq
  · rcases List.mem_cons.mp (hperm.subset he) with rfl | he
    · exact Or.inl (hid ▸ hx hseen)
    · exact Or.inr ⟨e, he, hseen, hid⟩

end Entries

/-- The worker that the coordinator waits for. -/
def CoordinatorPc.leaver : CoordinatorPc → Option DiagWorker
  | joining w _ => some w
  | _ => none

namespace DiagSystem

def entries (s : DiagSystem) : List Entry := s.registry.map Registered.entry

/-- What holds of the coordinator and its workers throughout. -/
structure Sane (s : DiagSystem) : Prop where
  ids : (s.registry.map fun e => e.worker.projectId).Nodup
  members : ∀ e ∈ s.registry, e.worker.Sound ∧ e.worker.stop = false
  leaver : ∀ w, s.pc.leaver = some w → w.Sound ∧ w.stop = true ∧ w.clearOnStop = true
  next : ∀ w next, s.pc = .joining w next → next.leaver = none ∧ next ≠ .handling
  known : Known s.latest s.entries
  phase : Phase s.latest s.entries s.pc

theorem sane_initial : Sane .initial := by
  refine ⟨List.nodup_nil, ?_, ?_, ?_, ?_, ?_, ?_, ?_⟩
  · intro e he
    cases he
  · intro w h
    cases h
  · intro w next h
    cases h
  · intro e he
    cases he
  · intro e he
    cases he
  · intro e he
    cases he
  · intro l h
    cases h

variable {parse : CStr → ParseOutput} {s s' : DiagSystem} {who : DiagParty}
  {m : Option Publication}

/-- A step that touches no worker. -/
theorem Sane.move (h : Sane s) {pc : CoordinatorPc} {sent : List Publication}
    (hpc : pc.leaver = none) (hphase : Phase s.latest s.entries pc) :
    Sane ⟨s.latest, s.registry, pc, sent⟩ := by
  refine ⟨h.ids, h.members, fun w hw => ?_, fun w next hw => ?_, h.known, hphase⟩
  · have hw' : pc.leaver = some w := hw
    rw [hpc] at hw'
    cases hw'
  · have hw' : pc = .joining w next := hw
    rw [hw'] at hpc
    cases hpc

theorem ids_set {i : ℕ} {e e' : Registered} (h : (s.registry.map fun e => e.worker.projectId).Nodup)
    (he : s.registry[i]? = some e) (hid : e'.worker.projectId = e.worker.projectId) :
    ((s.registry.set i e').map fun e => e.worker.projectId).Nodup := by
  obtain ⟨hi, hget⟩ := List.getElem?_eq_some_iff.mp he
  have hi' : i < (s.registry.map fun e => e.worker.projectId).length := by simpa using hi
  have hat : (s.registry.map fun e => e.worker.projectId)[i] = e.worker.projectId := by
    rw [List.getElem_map, hget]
  rw [List.map_set, hid, ← hat, List.set_getElem_self]
  exact h

theorem Sane.work (h : Sane s) {i : ℕ} {e : Registered} {w : DiagWorker}
    (he : s.registry[i]? = some e) (ht : e.worker.Thread m w) {sent : List Publication} :
    Sane ⟨s.latest, s.registry.set i { e with worker := w }, s.pc, sent⟩ := by
  obtain ⟨hid, hstop, -, hsub⟩ := ht.fields
  obtain ⟨hi, hget⟩ := List.getElem?_eq_some_iff.mp he
  have hentries : (s.registry.set i { e with worker := w }).map Registered.entry = s.entries := by
    rw [List.map_set]
    refine List.ext_getElem (by simp [entries]) fun n hn hn' => ?_
    rw [List.getElem_set]
    split
    · rename_i hin
      subst hin
      simp only [entries, List.getElem_map, hget, Registered.entry, hid, hsub]
    · simp [entries]
  refine ⟨ids_set h.ids he hid, fun e' he' => ?_, h.leaver, h.next, ?_, ?_⟩
  · rcases List.mem_or_eq_of_mem_set he' with he' | rfl
    · exact h.members e' he'
    · obtain ⟨hsound, hopen⟩ := h.members e (List.mem_of_getElem? he)
      exact ⟨hsound.step (.thread ht), hstop.trans hopen⟩
  · rw [entries, hentries]
    exact h.known
  · rw [entries, hentries]
    exact h.phase

theorem Sane.retire (h : Sane s) {i : ℕ} {e : Registered} {next : CoordinatorPc}
    (he : s.registry[i]? = some e) (hpc : e.worker.pc ≠ .testing) (hnext : next.leaver = none)
    (hne : next ≠ .handling)
    (hphase : Phase s.latest ((registryRemoveAt s.registry i).map Registered.entry) next) :
    Sane ⟨s.latest, registryRemoveAt s.registry i, .joining (diagWorkerStop e.worker true) next,
      s.sent⟩ := by
  obtain ⟨hsound, hopen⟩ := h.members e (List.mem_of_getElem? he)
  have hperm := registryRemoveAt_perm he
  refine ⟨?_, fun e' he' => h.members e' (mem_registryRemoveAt he he'), fun w hw => ?_,
    fun w next' hw => ?_, ?_, hphase⟩
  · have hnodup := (hperm.map fun e => e.worker.projectId).nodup_iff.mp h.ids
    exact (List.nodup_cons.mp hnodup).2
  · obtain rfl := Option.some.inj hw
    exact ⟨hsound.step (.stop true hpc hopen), rfl, rfl⟩
  · cases hw
    exact ⟨hnext, hne⟩
  · refine h.known.subset fun x hx => ?_
    obtain ⟨e', he', rfl⟩ := List.mem_map.mp hx
    exact List.mem_map_of_mem (mem_registryRemoveAt he he')

theorem map_registryRemoveAt {i : ℕ} {e : Registered} (he : s.registry[i]? = some e) :
    s.entries.Perm (e.entry :: (registryRemoveAt s.registry i).map Registered.entry) :=
  (registryRemoveAt_perm he).map Registered.entry

theorem Sane.spawn (h : Sane s) {p : WsProject} {todo : List WsProject}
    (hpc : s.pc = .spawning p todo) :
    Sane { s with
      registry := s.registry ++ [⟨diagWorkerSpawn p.id p.mode, false⟩]
      pc := .requesting s.registry.length p todo } := by
  have hentries : (s.registry ++ [(⟨diagWorkerSpawn p.id p.mode, false⟩ : Registered)]).map
      Registered.entry = s.entries ++ [⟨p.id, false, []⟩] := List.map_append
  have hphase := h.phase
  rw [hpc] at hphase
  obtain ⟨hup, hcov, hnew⟩ := hphase
  refine ⟨?_, fun e he => ?_, by rintro w ⟨⟩, by rintro w next ⟨⟩, ?_, ?_⟩
  · rw [List.map_append, List.nodup_append]
    refine ⟨h.ids, List.nodup_singleton _, ?_⟩
    intro a ha b hb
    obtain ⟨e, he, rfl⟩ := List.mem_map.mp ha
    rw [List.mem_singleton.mp hb]
    exact hnew e.entry (List.mem_map_of_mem he)
  · rcases List.mem_append.mp he with he | he
    · exact h.members e he
    · rw [List.mem_singleton.mp he]
      exact ⟨DiagWorker.sound_spawn p.id p.mode, rfl⟩
  · rw [entries, hentries]
    intro x hx ref href
    rcases List.mem_append.mp hx with hx | hx
    · exact h.known x hx ref href
    · rw [List.mem_singleton.mp hx] at href
      cases href
  · rw [entries, hentries]
    refine ⟨fun x hx hseen => ?_, fun l hl q hq => ?_, ⟨p.id, false, []⟩, ?_, rfl⟩
    · rcases List.mem_append.mp hx with hx | hx
      · exact hup x hx hseen
      · rw [List.mem_singleton.mp hx] at hseen
        cases hseen
    · rcases hcov l hl q hq with hq | ⟨x, hx, hseen, hid⟩
      · exact Or.inl hq
      · exact Or.inr ⟨x, List.mem_append_left _ hx, hseen, hid⟩
    · rw [List.getElem?_append_right (by simp [entries]), entries, List.length_map, Nat.sub_self]
      rfl

theorem Sane.request (h : Sane s) {i : ℕ} {p : WsProject} {todo : List WsProject} {e : Registered}
    {latest : WsRef} (hpc : s.pc = .requesting i p todo) (he : s.registry[i]? = some e)
    (htest : e.worker.pc ≠ .testing) (hlatest : s.latest = some latest) :
    Sane { s with
      registry := s.registry.set i ⟨diagWorkerRequest e.worker latest, true⟩
      pc := .acquiring todo } := by
  obtain ⟨hsound, hopen⟩ := h.members e (List.mem_of_getElem? he)
  have hphase := h.phase
  rw [hpc] at hphase
  obtain ⟨hup, hcov, x, hx, hid⟩ := hphase
  obtain rfl : e.entry = x := by
    rw [entries, List.getElem?_map, he] at hx
    exact Option.some.inj hx
  have hentries : (s.registry.set i ⟨diagWorkerRequest e.worker latest, true⟩).map Registered.entry
      = s.entries.set i ⟨p.id, true, e.worker.fates.submitted ++ [latest]⟩ := by
    rw [List.map_set, entries, ← hid]
    rfl
  have hset : ∀ x ∈ s.entries.set i ⟨p.id, true, e.worker.fates.submitted ++ [latest]⟩,
      x ∈ s.entries ∨ x = ⟨p.id, true, e.worker.fates.submitted ++ [latest]⟩ := fun x hx =>
    List.mem_or_eq_of_mem_set hx
  refine ⟨ids_set h.ids he rfl, fun e' he' => ?_, by rintro w ⟨⟩, by rintro w next ⟨⟩, ?_, ?_⟩
  · rcases List.mem_or_eq_of_mem_set he' with he' | rfl
    · exact h.members e' he'
    · exact ⟨hsound.step (.request latest htest hopen), hopen⟩
  · rw [entries, hentries]
    intro y hy ref href
    rcases hset y hy with hy | rfl
    · exact h.known y hy ref href
    · rcases List.mem_append.mp href with href | href
      · exact h.known e.entry (List.mem_of_getElem? hx) ref href
      · exact ⟨latest, hlatest, Or.inl (List.mem_singleton.mp href)⟩
  · rw [entries, hentries]
    have hi : i < s.entries.length := (List.getElem?_eq_some_iff.mp hx).1
    refine ⟨fun y hy hseen => ?_, fun l hl q hq => ?_⟩
    · rcases hset y hy with hy | rfl
      · exact hup y hy hseen
      · rw [hlatest, List.getLast?_append]
        rfl
    · have hmem : (⟨p.id, true, e.worker.fates.submitted ++ [latest]⟩ : Entry) ∈
          s.entries.set i ⟨p.id, true, e.worker.fates.submitted ++ [latest]⟩ :=
        List.mem_set hi _
      have hp : q.id = p.id → ∃ y, y ∈ s.entries.set i
          ⟨p.id, true, e.worker.fates.submitted ++ [latest]⟩ ∧ y.seen = true ∧ y.id = q.id :=
        fun hq => ⟨_, hmem, rfl, hq.symm⟩
      rcases hcov l hl q hq with hq | ⟨y, hy, hseen, hyid⟩
      · rcases List.mem_cons.mp hq with hq | hq
        · exact Or.inr (hp hq)
        · exact Or.inl hq
      · obtain ⟨n, hn⟩ := List.getElem?_of_mem hy
        by_cases hni : n = i
        · subst hni
          rw [hx] at hn
          obtain rfl := Option.some.inj hn
          exact Or.inr (hp (hyid.symm.trans hid))
        · refine Or.inr ⟨y, List.mem_of_getElem? (i := n) ?_, hseen, hyid⟩
          rw [List.getElem?_set_ne (Ne.symm hni)]
          exact hn

/-- **Every step keeps it.** -/
theorem Step.sane (h : Sane s) (hs : Step parse s who m s') : Sane s' := by
  have hphase : ∀ {pc : CoordinatorPc}, s.pc = pc → Phase s.latest s.entries pc := by
    rintro pc rfl
    exact h.phase
  cases hs with
  | receive hpc => exact h.move rfl trivial
  | clear uri hpc => exact ⟨h.ids, h.members, h.leaver, h.next, h.known, h.phase⟩
  | @publish w st ws hpc =>
    have hnew : ∀ x ∈ s.entries, ∀ ref ∈ x.submitted, ref.id < s.latest.elim 0 (·.id + 1) := by
      intro x hx ref href
      obtain ⟨l, hl, hor⟩ := h.known x hx ref href
      rw [hl]
      show ref.id < l.id + 1
      rcases hor with rfl | hlt <;> omega
    exact ⟨h.ids, h.members, by rintro w ⟨⟩, by rintro w next ⟨⟩,
      fun x hx ref href => ⟨_, rfl, Or.inr (hnew x hx ref href)⟩, ⟨_, rfl, hnew⟩⟩
  | baseline hpc =>
    have hbase := hphase hpc
    exact h.move rfl hbase
  | @update latest hpc hlatest =>
    have hmem : ∀ x ∈ (s.registry.map fun e => ({ e with seen := false } : Registered)).map
        Registered.entry, x.seen = false ∧ ∃ y ∈ s.entries, x.submitted = y.submitted := by
      intro x hx
      obtain ⟨e', he', rfl⟩ := List.mem_map.mp hx
      obtain ⟨e, he, rfl⟩ := List.mem_map.mp he'
      exact ⟨rfl, e.entry, List.mem_map_of_mem he, rfl⟩
    refine ⟨?_, fun e' he' => ?_, by rintro w ⟨⟩, by rintro w next ⟨⟩, fun x hx ref href => ?_,
      fun x hx hseen => ?_, fun l hl q hq => ?_⟩
    · rw [List.map_map]
      exact h.ids
    · obtain ⟨e, he, rfl⟩ := List.mem_map.mp he'
      exact h.members e he
    · obtain ⟨-, y, hy, hsub⟩ := hmem x hx
      exact h.known y hy ref (hsub ▸ href)
    · rw [(hmem x hx).1] at hseen
      cases hseen
    · have hl' : s.latest = some l := hl
      rw [hlatest] at hl'
      obtain rfl := Option.some.inj hl'
      exact Or.inl (List.mem_map_of_mem hq)
  | @found p todo i e hpc hfind he =>
    obtain ⟨hup, hcov⟩ := hphase hpc
    refine h.move rfl ⟨hup, hcov, e.entry, ?_, registryFind_some hfind he⟩
    rw [entries, List.getElem?_map, he]
    rfl
  | @flipped p todo i e hpc hfind he _ htest =>
    obtain ⟨hup, hcov⟩ := hphase hpc
    have hid : e.entry.id = p.id := registryFind_some hfind he
    have hperm := map_registryRemoveAt he
    refine h.retire he htest rfl (by rintro ⟨⟩) ⟨hup.subset fun x hx => ?_, ?_, fun x hx hx' => ?_⟩
    · exact hperm.symm.subset (List.mem_cons_of_mem _ hx)
    · exact hcov.remove hperm fun _ => by rw [hid]; exact List.mem_cons_self
    · have hnodup := ((registryRemoveAt_perm he).map fun e => e.worker.projectId).nodup_iff.mp h.ids
      obtain ⟨e', he', rfl⟩ := List.mem_map.mp hx
      refine (List.nodup_cons.mp hnodup).1 (List.mem_map.mpr ⟨e', he', ?_⟩)
      exact hx'.trans hid.symm
  | missing hpc hfind =>
    obtain ⟨hup, hcov⟩ := hphase hpc
    refine h.move rfl ⟨hup, hcov, fun x hx => ?_⟩
    obtain ⟨e, he, rfl⟩ := List.mem_map.mp hx
    exact registryFind_none hfind he
  | spawn hpc => exact h.spawn hpc
  | request hpc he htest hlatest => exact h.request hpc he htest hlatest
  | sweep hpc =>
    obtain ⟨hup, hcov⟩ := hphase hpc
    exact h.move rfl ⟨hup, hcov, fun x hx => by cases hx⟩
  | @keep i e hpc he hseen =>
    obtain ⟨hup, hcov, hdone⟩ := hphase hpc
    refine h.move rfl ⟨hup, hcov, fun x hx => ?_⟩
    rw [List.take_add_one] at hx
    rcases List.mem_append.mp hx with hx | hx
    · exact hdone x hx
    · rw [entries, List.getElem?_map, he, Option.map_some, Option.toList_some,
        List.mem_singleton] at hx
      rw [hx]
      exact hseen
  | @drop i e hpc he hseen htest =>
    obtain ⟨hup, hcov, hdone⟩ := hphase hpc
    have hperm := map_registryRemoveAt he
    refine h.retire he htest rfl (by rintro ⟨⟩) ⟨hup.subset fun x hx => ?_, ?_, fun x hx => ?_⟩
    · exact hperm.symm.subset (List.mem_cons_of_mem _ hx)
    · refine hcov.remove hperm fun hs => ?_
      rw [show e.entry.seen = false from hseen] at hs
      cases hs
    · rw [← List.map_take, registryRemoveAt_take he, List.map_take] at hx
      exact hdone x hx
  | @done i hpc hlen =>
    obtain ⟨hup, hcov, hdone⟩ := hphase hpc
    refine h.move rfl ⟨fun x hx => hdone x ?_, hup, hcov⟩
    rwa [List.take_of_length_le (by rwa [entries, List.length_map])]
  | join hpc _ =>
    have hjoin := hphase hpc
    exact h.move (h.next _ _ hpc).1 hjoin
  | work he ht => exact h.work he ht
  | @leave w w' next _ hpc ht =>
    obtain ⟨-, hstop, hclear, -⟩ := ht.fields
    have hjoin := hphase hpc
    refine ⟨h.ids, h.members, fun x hx => ?_, fun x next' hx => ?_, h.known, hjoin⟩
    · obtain rfl := Option.some.inj hx
      obtain ⟨hsound, hs, hc⟩ := h.leaver w (by rw [hpc]; rfl)
      exact ⟨hsound.step (.thread ht), hstop.trans hs, hclear.trans hc⟩
    · cases hx
      exact h.next w next hpc

end DiagSystem

end TaskjugglerLsp
