import TaskjugglerLsp.QueryContext.Holders

/-!
# The counts are those of the holders

* `Refs.Counted.ops`: what a step does to references, it does to the counts;
* `Refs.Reached.counted`: the counts are those of the references, in every state;
* `Refs.freed_by_last_holder`: so a snapshot is freed once, by its last holder.
-/

namespace TaskjugglerLsp

open Lib

namespace Refs

variable {s s' : Refs}

/-! ### Counting references -/

theorem count_wsRefs (b : ℕ) :
    s.wsRefs.count b =
      s.published.toList.count b + (s.contexts.flatMap fun c => c.ws.toList).count b +
        (s.workers.flatMap fun w => w.pending.toList ++ w.running.toList).count b +
        s.task.wsInHand.count b + s.wsLeaving.count b := by
  simp only [wsRefs, wsHolders, wsMoving, List.count_append]
  omega

theorem count_docRefs (b : ℕ) :
    s.docRefs.count b =
      (docsHeld s.docs).count b + s.wss.listed.count b +
        (s.contexts.flatMap fun c => c.prevSnap.toList).count b +
        s.task.docsInHand.count b + s.docLeaving.count b := by
  simp only [docRefs, docHolders, docMoving, List.count_append]
  omega

theorem count_docsHeld_update (docs : Slot → DocRefs) (i : Slot) (y : DocRefs) (b : ℕ) :
    (docsHeld (Function.update docs i y)).count b +
        ((docs i).snap.toList ++ (docs i).prevSnap.toList).count b =
      (docsHeld docs).count b + (y.snap.toList ++ y.prevSnap.toList).count b :=
  count_flatMap_update (g := fun d : DocRefs => d.snap.toList ++ d.prevSnap.toList)
    (List.nodup_finRange maxDocs) (List.mem_finRange i) y b

theorem mem_docRefs_of_docs {i : Slot} {a : ℕ}
    (ha : a ∈ (s.docs i).snap.toList ++ (s.docs i).prevSnap.toList) : a ∈ s.docRefs := by
  have h1 : a ∈ docsHeld s.docs := List.mem_flatMap.mpr ⟨i, List.mem_finRange i, ha⟩
  have h2 := count_docRefs (s := s) a
  have h3 := List.count_pos_iff.mpr h1
  exact List.count_pos_iff.mp (by omega)

theorem mem_wsRefs_of_published {a : ℕ} (ha : s.published = some a) : a ∈ s.wsRefs := by
  rw [wsRefs, wsHolders, ha]
  simp

/-! ### What a step does to the references -/

/-- The counts are those of the references. -/
structure Counted (s : Refs) : Prop where
  wss : s.wss.Sound s.wsRefs
  snaps : s.snaps.Sound s.docRefs

theorem counted_start : Counted start := by
  refine ⟨?_, ?_⟩
  · exact Pool.sound_empty
  · refine Pool.sound_empty.of_count fun b => ?_
    rw [count_docRefs]
    simp [start, docsHeld, Pool.listed, Pool.empty, Task.docsInHand, List.count_eq_zero]

theorem count_setWorker {k : ℕ} {w : WorkerRefs} (hk : s.workers[k]? = some w) (w' : WorkerRefs)
    (leaving : Option ℕ) (b : ℕ) :
    (s.setWorker k w' leaving).wsRefs.count b +
        (w.pending.toList ++ w.running.toList).count b =
      s.wsRefs.count b + (w'.pending.toList ++ w'.running.toList).count b +
        leaving.toList.count b := by
  have h := count_flatMap_set (g := fun w : WorkerRefs => w.pending.toList ++ w.running.toList)
    hk w' b
  rw [count_wsRefs, count_wsRefs]
  simp only [setWorker, List.count_append] at h ⊢
  omega

/-- What a step does to the two pools, and to the references to them. -/
def Ops (s s' : Refs) : Prop :=
  Pool.Op s.wss s.wsRefs s'.wss s'.wsRefs ∧ Pool.Op s.snaps s.docRefs s'.snaps s'.docRefs

theorem count_wsRefs_keep (hpublished : s'.published = s.published)
    (hcontexts : s'.contexts = s.contexts) (hworkers : s'.workers = s.workers)
    (hhand : s'.task.wsInHand = s.task.wsInHand) (hleaving : s'.wsLeaving = s.wsLeaving) (b : ℕ) :
    s'.wsRefs.count b = s.wsRefs.count b := by
  rw [count_wsRefs, count_wsRefs, hpublished, hcontexts, hworkers, hhand, hleaving]

theorem count_docRefs_keep (hdocs : s'.docs = s.docs) (hlisted : s'.wss.listed = s.wss.listed)
    (hcontexts : s'.contexts = s.contexts) (hhand : s'.task.docsInHand = s.task.docsInHand)
    (hleaving : s'.docLeaving = s.docLeaving) (b : ℕ) :
    s'.docRefs.count b = s.docRefs.count b := by
  rw [count_docRefs, count_docRefs, hdocs, hlisted, hcontexts, hhand, hleaving]

/-! ### Parses come and go -/

theorem ops_docClearParseState (i : Slot) : Ops s (s.docClearParseState i) := by
  refine ⟨.keep fun b => rfl, .keep fun b => ?_⟩
  have := count_docsHeld_update s.docs i ⟨none, none⟩ b
  rw [count_docRefs, count_docRefs]
  simp only [docClearParseState, List.count_append, Option.toList_none, List.count_nil] at this ⊢
  omega

theorem ops_docInstallParse (i : Slot) (fresh : Option DocSnapshot) :
    Ops s (s.docInstallParse i fresh) := by
  refine ⟨.keep fun b => rfl, ?_⟩
  have h := count_docsHeld_update s.docs i ⟨fresh.map fun _ => s.snaps.next, (s.docs i).snap⟩
  cases fresh with
  | none =>
    refine .keep fun b => ?_
    have := h b
    rw [count_docRefs, count_docRefs]
    simp only [docInstallParse, List.count_append, Option.map_none, Option.toList_none,
      List.count_nil] at this ⊢
    omega
  | some v =>
    refine .create v fun b => ?_
    have := h b
    rw [List.count_cons, count_docRefs, count_docRefs]
    simp only [docInstallParse, List.count_append, Option.map_some, Option.toList_some,
      List.count_cons, List.count_nil] at this ⊢
    omega

/-! ### A snapshot is built and published -/

theorem ops_build (ht : s.task = .idle) (todo : List Slot) :
    Ops s { s with task := .building [] todo } :=
  ⟨.keep (count_wsRefs_keep rfl rfl rfl (by rw [ht]; rfl) rfl),
    .keep (count_docRefs_keep rfl rfl rfl (by rw [ht]; rfl) rfl)⟩

theorem ops_populateWsDoc {docs : List ℕ} {i : Slot} {todo : List Slot}
    (ht : s.task = .building docs (i :: todo)) : Ops s (s.populateWsDoc docs i todo) := by
  refine ⟨.keep (count_wsRefs_keep rfl rfl rfl (by rw [ht]; rfl) rfl),
    .acquireRef (fun a ha => ?_) fun b => ?_⟩
  · refine mem_docRefs_of_docs (i := i) (List.mem_append_left _ ?_)
    rwa [Option.mem_toList]
  · rw [List.count_append, count_docRefs, count_docRefs, ht]
    simp only [populateWsDoc, Task.docsInHand, List.count_append]
    omega

theorem ops_wsAlloc {docs : List ℕ} (ht : s.task = .building docs []) : Ops s (s.wsAlloc docs) := by
  refine ⟨.create docs fun b => ?_, .keep fun b => ?_⟩
  · rw [List.count_cons, count_wsRefs, count_wsRefs, ht]
    simp only [wsAlloc, Task.wsInHand, List.count_cons, List.count_nil]
    omega
  · rw [count_docRefs, count_docRefs, ht]
    simp only [wsAlloc, Pool.listed_create, Task.docsInHand, List.count_append, docsHeld,
      List.count_nil]
    omega

theorem ops_publish {ws : ℕ} (ht : s.task = .built ws) : Ops s (s.publish ws) := by
  refine ⟨.keep fun b => ?_, .keep (count_docRefs_keep rfl rfl rfl (by rw [ht]; rfl) rfl)⟩
  rw [count_wsRefs, count_wsRefs, ht]
  simp only [publish, Task.wsInHand, List.count_append, Option.toList_some, List.count_nil]
  omega

/-! ### The diagnostics workers -/

theorem ops_spawn : Ops s { s with workers := s.workers ++ [⟨none, none, false⟩] } := by
  refine ⟨.keep fun b => ?_, .keep fun b => rfl⟩
  rw [count_wsRefs, count_wsRefs]
  simp only [List.flatMap_append, List.count_append, List.flatMap_singleton, Option.toList_none,
    List.count_nil]
  omega

theorem ops_diagWorkerRequest {ws : ℕ} (k : ℕ) (ht : s.task = .idle)
    (hp : s.published = some ws) : Ops s (s.diagWorkerRequest k ws) := by
  refine ⟨.acquire (mem_wsRefs_of_published hp) fun b => ?_,
    .keep (count_docRefs_keep rfl Pool.listed_acquire rfl (by rw [ht]; rfl) rfl)⟩
  rw [List.count_cons, count_wsRefs, count_wsRefs, ht]
  simp only [diagWorkerRequest, Task.wsInHand, List.count_cons, List.count_nil]
  omega

theorem ops_replace {k ws : ℕ} {w : WorkerRefs} (ht : s.task = .requesting k ws)
    (hk : s.workers[k]? = some w) :
    Ops s { s.setWorker k ⟨some ws, w.running, w.stop⟩ w.pending with task := .idle } := by
  refine ⟨.keep fun b => ?_, .keep (count_docRefs_keep rfl rfl rfl (by rw [ht]; rfl) rfl)⟩
  have := count_setWorker hk ⟨some ws, w.running, w.stop⟩ w.pending b
  rw [count_wsRefs] at this ⊢
  simp only [setWorker, Task.wsInHand, List.count_append, Option.toList_some, ht,
    List.count_nil, List.count_cons] at this ⊢
  omega

theorem ops_setWorker {k : ℕ} {w w' : WorkerRefs} {leaving : Option ℕ}
    (hk : s.workers[k]? = some w)
    (hbal : ∀ b, (w'.pending.toList ++ w'.running.toList).count b + leaving.toList.count b
      = (w.pending.toList ++ w.running.toList).count b) : Ops s (s.setWorker k w' leaving) := by
  refine ⟨.keep fun b => ?_, .keep fun b => rfl⟩
  have h := count_setWorker hk w' leaving b
  have hb := hbal b
  omega

/-! ### The query contexts -/

theorem ops_pinPrevSnap (primary : Option Slot) (ht : s.task = .idle) :
    Ops s (s.pinPrevSnap primary) := by
  refine ⟨.keep (count_wsRefs_keep rfl rfl rfl (by rw [ht]; rfl) rfl),
    .acquireRef (fun a ha => ?_) fun b => ?_⟩
  · obtain ⟨i, -, hi⟩ := Option.bind_eq_some_iff.mp ha
    refine mem_docRefs_of_docs (i := i) (List.mem_append_right _ ?_)
    rwa [Option.mem_toList]
  · rw [List.count_append, count_docRefs, count_docRefs, ht]
    simp only [pinPrevSnap, Task.docsInHand, List.count_nil]
    omega

theorem ops_pinWs {prevSnap : Option ℕ} (ht : s.task = .pinning prevSnap) :
    Ops s (s.pinWs prevSnap) := by
  refine ⟨.acquireRef (fun a ha => mem_wsRefs_of_published ha) fun b => ?_, .keep fun b => ?_⟩
  · rw [List.count_append, count_wsRefs, count_wsRefs, ht]
    simp only [pinWs, Task.wsInHand, List.flatMap_append, List.flatMap_singleton,
      List.count_append, List.count_nil]
    omega
  · rw [count_docRefs, count_docRefs, ht]
    simp only [pinWs, Pool.listed_acquireRef, Task.docsInHand, List.flatMap_append,
      List.flatMap_singleton, List.count_append, List.count_nil]
    omega

theorem ops_queryContextFree {k : ℕ} {c : ContextRefs} (hk : s.contexts[k]? = some c) :
    Ops s (s.queryContextFree k c) := by
  refine ⟨.keep fun b => ?_, .keep fun b => ?_⟩
  · have := count_flatMap_set (g := fun c : ContextRefs => c.ws.toList) hk ⟨none, none⟩ b
    rw [count_wsRefs, count_wsRefs]
    simp only [queryContextFree, List.count_append, Option.toList_none, List.count_nil] at this ⊢
    omega
  · have := count_flatMap_set (g := fun c : ContextRefs => c.prevSnap.toList) hk ⟨none, none⟩ b
    rw [count_docRefs, count_docRefs]
    simp only [queryContextFree, List.count_append, Option.toList_none, List.count_nil] at this ⊢
    omega

/-! ### The releases -/

/-- The last release of a workspace snapshot lets go what it lists. -/
theorem Counted.ops_wsRelease (hs : Counted s) {a : ℕ} (ha : a ∈ s.wsLeaving) :
    Ops s (s.wsRelease a) := by
  have hws : ∀ b, (a :: (s.wsRelease a).wsRefs).count b = s.wsRefs.count b := by
    intro b
    have := (List.perm_cons_erase ha).count_eq b
    rw [List.count_cons] at this
    rw [List.count_cons, count_wsRefs, count_wsRefs]
    simp only [wsRelease]
    omega
  refine ⟨.release hws, .keep fun b => ?_⟩
  have := Pool.count_listed_release (hs.wss.of_count hws) b
  rw [count_docRefs, count_docRefs]
  simp only [wsRelease, List.count_append]
  omega

theorem ops_docsnapRelease {a : ℕ} (ha : a ∈ s.docLeaving) : Ops s (s.docsnapRelease a) := by
  refine ⟨.keep fun b => rfl, .release fun b => ?_⟩
  have := (List.perm_cons_erase ha).count_eq b
  rw [List.count_cons] at this
  rw [List.count_cons, count_docRefs, count_docRefs]
  simp only [docsnapRelease]
  omega

/-! ### Every step -/

/-- **What a step does** to references, it does to the counts. -/
theorem Counted.ops (hs : Counted s) (h : Step s s') : Ops s s' := by
  cases h with
  | docClearParseState i ht => exact ops_docClearParseState i
  | docInstallParse i fresh ht => exact ops_docInstallParse i fresh
  | build ht => exact ops_build ht _
  | populateWsDoc ht => exact ops_populateWsDoc ht
  | wsAlloc ht => exact ops_wsAlloc ht
  | publish ht => exact ops_publish ht
  | spawn ht => exact ops_spawn
  | request k ht hp hk => exact ops_diagWorkerRequest k ht hp
  | replace ht hk => exact ops_replace ht hk
  | take hk => exact ops_setWorker hk fun b => by simp
  | finish hk => exact ops_setWorker hk fun b => by simp
  | stop ht hk => exact ops_setWorker hk fun b => by simp
  | exit hk => exact ops_setWorker hk fun b => by simp
  | pinPrevSnap primary ht => exact ops_pinPrevSnap primary ht
  | pinWs ht => exact ops_pinWs ht
  | queryContextFree hk => exact ops_queryContextFree hk
  | wsRelease ha => exact hs.ops_wsRelease ha
  | docsnapRelease ha => exact ops_docsnapRelease ha

theorem Counted.step (hs : Counted s) (h : Step s s') : Counted s' :=
  ⟨(hs.ops h).1.sound hs.wss, (hs.ops h).2.sound hs.snaps⟩

theorem Reached.counted (h : Reached s) : Counted s := by
  induction h with
  | refl => exact counted_start
  | tail _ hstep ih => exact ih.step hstep

/-! ### What the counts say -/

theorem Counted.freed (hs : Counted s) (h : Step s s') (a : ℕ) :
    s'.wss.freed.count a =
        s.wss.freed.count a + (if s.wsRefs.count a = 1 ∧ s'.wsRefs.count a = 0 then 1 else 0) ∧
      s'.snaps.freed.count a =
        s.snaps.freed.count a +
          (if s.docRefs.count a = 1 ∧ s'.docRefs.count a = 0 then 1 else 0) :=
  ⟨(hs.ops h).1.freed hs.wss a, (hs.ops h).2.freed hs.snaps a⟩

/-- What has been freed stays so, and nothing refers to it again. -/
theorem Counted.freed_stays (hs : Counted s) (hrun : Relation.ReflTransGen Step s s') (a : ℕ) :
    (a ∈ s.wss.freed → a ∈ s'.wss.freed ∧ a ∉ s'.wsRefs) ∧
      (a ∈ s.snaps.freed → a ∈ s'.snaps.freed ∧ a ∉ s'.docRefs) := by
  suffices h : Counted s' ∧ (a ∈ s.wss.freed → a ∈ s'.wss.freed) ∧
      (a ∈ s.snaps.freed → a ∈ s'.snaps.freed) from
    ⟨fun ha => ⟨h.2.1 ha, h.1.wss.notMem_of_freed (h.2.1 ha)⟩,
      fun ha => ⟨h.2.2 ha, h.1.snaps.notMem_of_freed (h.2.2 ha)⟩⟩
  induction hrun with
  | refl => exact ⟨hs, id, id⟩
  | tail _ hstep ih =>
    obtain ⟨hmid, hws, hdocs⟩ := ih
    obtain ⟨h1, h2⟩ := hmid.freed hstep a
    simp only [← List.count_pos_iff] at hws hdocs ⊢
    exact ⟨hmid.step hstep, fun ha => by have := hws ha; omega, fun ha => by have := hdocs ha; omega⟩

theorem mem_docRefs_of_listing {a d : ℕ} (ha : a < s.wss.next) (hd : d ∈ s.wss.listing a) :
    d ∈ s.docRefs := by
  have h1 : d ∈ s.wss.listed := List.mem_flatMap.mpr ⟨a, List.mem_range.mpr ha, hd⟩
  rw [docRefs, docHolders]
  simp [h1]

theorem wsMoving_of_atRest (h : s.AtRest) : s.wsMoving = [] := by
  rw [wsMoving, h.1, h.2.1]
  rfl

theorem docMoving_of_atRest (h : s.AtRest) : s.docMoving = [] := by
  rw [docMoving, h.1, h.2.2]
  rfl

/-! ### A publication that runs to its end -/

theorem populate_run {docs : List ℕ} {todo : List Slot} (ht : s.task = .building docs todo) :
    ∃ s', Relation.ReflTransGen Step s s' ∧
      s'.task = .building (docs ++ todo.flatMap fun i => (s.docs i).snap.toList) [] ∧
      s'.docs = s.docs ∧ s'.wss = s.wss := by
  induction todo generalizing s docs with
  | nil => exact ⟨s, .refl, by rw [ht, List.flatMap_nil, List.append_nil], rfl, rfl⟩
  | cons i todo ih =>
    obtain ⟨s', hrun, htask, hdocs, hwss⟩ := ih (s := s.populateWsDoc docs i todo) rfl
    refine ⟨s', .head (.populateWsDoc ht) hrun, ?_, hdocs, hwss⟩
    rw [htask, List.flatMap_cons, List.append_assoc]
    rfl

/-- From any state in which the coordinator is free, it can publish a snapshot that lists
the parses of the documents, in the order of their slots. -/
theorem publish_run (ht : s.task = .idle) :
    ∃ s', Relation.ReflTransGen Step s s' ∧ s'.task = .idle ∧ s'.docs = s.docs ∧
      s'.published = some s.wss.next ∧
      s'.wss.contents s.wss.next =
        some ((List.finRange maxDocs).flatMap fun i => (s.docs i).snap.toList) := by
  obtain ⟨s', hrun, htask, hdocs, hwss⟩ := populate_run
    (s := { s with task := .building [] (List.finRange maxDocs) }) rfl
  refine ⟨_, .tail (.tail (.head (.build ht) hrun) (.wsAlloc htask)) (.publish rfl), rfl, hdocs,
    ?_, ?_⟩
  · change some s'.wss.next = _
    rw [hwss]
  · change (s'.wss.create _).contents _ = _
    rw [hwss]
    exact RefCount.Heap.contents_create_self

/-- **The counts are those of the holders**, in every state of every interleaving: the
count of a snapshot is the number of its holders and of the references to it that a
running call has in hand.  So what is referred to is there, and so are the documents
that it lists; a snapshot that was created is freed once if nothing refers to it any
more and not at all otherwise; it is freed in the step that takes the last
reference away, and nothing ever refers to it again. -/
theorem freed_by_last_holder (h : Reached s) :
    (∀ a, s.wss.refcount a = s.wsHolders.count a + s.wsMoving.count a) ∧
    (∀ d, s.snaps.refcount d = s.docHolders.count d + s.docMoving.count d) ∧
    (s.AtRest →
      (∀ a, s.wss.refcount a = s.wsHolders.count a) ∧
      ∀ d, s.snaps.refcount d = s.docHolders.count d) ∧
    (∀ a ∈ s.wsRefs, ∃ docs, s.wss.contents a = some docs ∧
      ∀ d ∈ docs, (s.snaps.contents d).isSome = true) ∧
    (∀ d ∈ s.docRefs, (s.snaps.contents d).isSome = true) ∧
    (∀ a, s.wss.freed.count a = if a < s.wss.next ∧ s.wsRefs.count a = 0 then 1 else 0) ∧
    (∀ d, s.snaps.freed.count d = if d < s.snaps.next ∧ s.docRefs.count d = 0 then 1 else 0) ∧
    (∀ s', Step s s' → ∀ a,
      s'.wss.freed.count a =
          s.wss.freed.count a + (if s.wsRefs.count a = 1 ∧ s'.wsRefs.count a = 0 then 1 else 0) ∧
        s'.snaps.freed.count a =
          s.snaps.freed.count a +
            (if s.docRefs.count a = 1 ∧ s'.docRefs.count a = 0 then 1 else 0)) ∧
    ∀ s', Relation.ReflTransGen Step s s' → ∀ a,
      (a ∈ s.wss.freed → a ∈ s'.wss.freed ∧ a ∉ s'.wsRefs) ∧
        (a ∈ s.snaps.freed → a ∈ s'.snaps.freed ∧ a ∉ s'.docRefs) := by
  have hs := h.counted
  have hws (a : ℕ) : s.wss.refcount a = s.wsHolders.count a + s.wsMoving.count a := by
    rw [hs.wss.refcount_eq, wsRefs, List.count_append]
  have hdocs (d : ℕ) : s.snaps.refcount d = s.docHolders.count d + s.docMoving.count d := by
    rw [hs.snaps.refcount_eq, docRefs, List.count_append]
  refine ⟨hws, hdocs, fun hrest => ⟨fun a => ?_, fun d => ?_⟩, fun a ha => ?_,
    fun d hd => hs.snaps.isSome_contents hd, hs.wss.count_freed, hs.snaps.count_freed,
    fun s' hstep a => hs.freed hstep a, fun s' hrun a => hs.freed_stays hrun a⟩
  · rw [hws, wsMoving_of_atRest hrest, List.count_nil, Nat.add_zero]
  · rw [hdocs, docMoving_of_atRest hrest, List.count_nil, Nat.add_zero]
  · obtain ⟨docs, hc⟩ := Option.isSome_iff_exists.mp (hs.wss.isSome_contents ha)
    refine ⟨docs, hc, fun d hd => hs.snaps.isSome_contents ?_⟩
    refine mem_docRefs_of_listing (hs.wss.lt_next ha) ?_
    rwa [Pool.listing, hc, Option.getD_some]

/-- A parse is installed and a snapshot of it published: the count of the one snapshot is
that of its holders. -/
theorem freed_by_last_holder_publish :
    ∃ s, Reached s ∧ s.published = some 0 ∧ s.wss.contents 0 = some [0] ∧
      s.wss.refcount 0 = s.wsHolders.count 0 + s.wsMoving.count 0 := by
  let nowhere : LspRange := ⟨⟨0, 0⟩, ⟨0, 0⟩⟩
  let v : DocSnapshot := ⟨1, [], none, .mk ⟨0, none, none, nowhere, nowhere, []⟩ [], [], 0⟩
  obtain ⟨s, hrun, -, -, hp, hc⟩ := publish_run (s := start.docInstallParse 0 (some v)) rfl
  have hreached : Reached s := .head (.docInstallParse 0 (some v) rfl) hrun
  refine ⟨s, hreached, hp, ?_, (freed_by_last_holder hreached).1 0⟩
  rw [show (0 : ℕ) = (start.docInstallParse 0 (some v)).wss.next from rfl, hc]
  rfl

end Refs

end TaskjugglerLsp
