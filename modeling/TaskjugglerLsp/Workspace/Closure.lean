import Mathlib.Data.Set.Card
import TaskjugglerLsp.Pathutil.Canonical
import TaskjugglerLsp.Workspace.Loading

/-!
# What loading a file loads

`LoadCall path s log s'`: a call of `load_file_from_disk` on a store `s` returns, it
leaves `s'`, and the texts it has parsed on the way are those of the paths in
`log`, in that order.  Every call returns (`exists_loadCall`), by induction on the
free slots, and `Grows` says what is there afterwards: each path of the log in a slot
of its own, with its includes in source order, every include of every one of
them answered.

* `loads_closure`: from an empty store with room enough the store is the closure of
  the first file under the includes, each file with the path under which it was
  loaded first;
* `include_of_second_path_missed`: so a file that two paths lead to may hide files.
-/

namespace TaskjugglerLsp

section Calls

variable (w : World) (parse : CStr → ParseOutput)

/-- What `follow_includes` does after the load of an include: it hands over the prefixes and
records the URI. -/
def recordInclude (filePath : CStr) (includer : Option Slot) (inc : IncludeRef) (s : Store) :
    Store :=
  let targetUri := pathToUri (resolveIncludePath filePath inc.filename)
  (s.modifyFound (docFind w.realpath s targetUri) fun d =>
    { d with prefixes := inc.prefixes }).modifyFound includer fun d =>
      { d with includedUris := d.includedUris ++ [targetUri] }

mutual

/-- A call of `load_file_from_disk` that returns, with the paths whose texts are parsed. -/
inductive LoadCall : CStr → Store → List CStr → Store → Prop
  | found {path : CStr} {s : Store} : (docFind w.realpath s (pathToUri path)).isSome →
      LoadCall path s [] s
  | unreadable {path : CStr} {s : Store} : docFind w.realpath s (pathToUri path) = none →
      w.readFile path = none → LoadCall path s [] s
  | full {path text : CStr} {s : Store} : docFind w.realpath s (pathToUri path) = none →
      w.readFile path = some text → docAlloc w.realpath s (pathToUri path) = none →
      LoadCall path s [] s
  | load {path text : CStr} {s s1 s2 : Store} {i : Slot} {includer : Option Slot}
      {log : List CStr} : docFind w.realpath s (pathToUri path) = none →
      w.readFile path = some text → docAlloc w.realpath s (pathToUri path) = some (i, s1) →
      includer = docFind w.realpath
        (s1.modify i fun d => { d with text := some text, diskOnly := true }) (pathToUri path) →
      IncludeLoop path includer (parse text).includes
        ((s1.modify i fun d => { d with text := some text, diskOnly := true }).modifyFound includer
          fun d => { d with includedUris := [] }) log s2 →
      LoadCall path s (path :: log) (s2.modify i fun d => d.installParse (parse text))

/-- The loop of `follow_includes`, when it comes to its end. -/
inductive IncludeLoop : CStr → Option Slot → List IncludeRef → Store → List CStr → Store → Prop
  | nil {filePath : CStr} {includer : Option Slot} {s : Store} :
      IncludeLoop filePath includer [] s [] s
  | cons {filePath : CStr} {includer : Option Slot} {inc : IncludeRef} {includes : List IncludeRef}
      {s s1 s' : Store} {log log' : List CStr} :
      LoadCall (resolveIncludePath filePath inc.filename) s log s1 →
      IncludeLoop filePath includer includes (recordInclude w filePath includer inc s1) log' s' →
      IncludeLoop filePath includer (inc :: includes) s (log ++ log') s'

end

/-- A call of `follow_includes` that returns. -/
def FollowCall (filePath : CStr) (po : ParseOutput) (s : Store) (log : List CStr) (s' : Store) :
    Prop :=
  IncludeLoop w parse filePath (docFind w.realpath s (pathToUri filePath)) po.includes
    (s.modifyFound (docFind w.realpath s (pathToUri filePath)) fun d =>
      { d with includedUris := [] }) log s'

/-! ### Where files lead -/

/-- The canonical URI of a path. -/
def canonUri (path : CStr) : CStr := normalizeUri w.realpath (pathToUri path)

/-- The paths that the file at a path includes, in source order. -/
def includePaths (path : CStr) : List CStr :=
  match w.readFile path with
  | none => []
  | some text => (parse text).includes.map fun inc => resolveIncludePath path inc.filename

/-- The paths that includes lead to, from some paths on: where `via` is given, only the files at
these paths are followed. -/
inductive Leads (via : CStr → Prop) (roots : List CStr) : CStr → Prop
  | root {path : CStr} : path ∈ roots → Leads via roots path
  | step {path path' : CStr} : Leads via roots path → via path → path' ∈ includePaths w parse path →
      Leads via roots path'

/-- A file that has been read and not parsed yet. -/
def diskDocument (path text : CStr) : Document :=
  { freshDocument (canonUri w path) with
    text := some text
    diskOnly := true }

/-- A file as it is loaded from a path. -/
def loadedDocument (path text : CStr) (prefixes : PrefixSet) : Document :=
  { (diskDocument w path text).installParse (parse text) with
    prefixes := prefixes
    includedUris := (includePaths w parse path).map pathToUri }

/-- A path has been dealt with: there is no such file, or it is in the store, or there is no room
for it. -/
def Answered (s : Store) (path : CStr) : Prop :=
  w.readFile path = none ∨ (docFind w.realpath s (pathToUri path)).isSome ∨ ∀ i, (s i).isSome

/-- Some paths have been loaded one after another, for the slot of an includer if there is one,
and the texts of the paths in the log have been parsed. -/
structure Grows (o : Option Slot) (roots log : List CStr) (s s' : Store) : Prop where
  keeps : ∀ {i d}, s i = some d → ∃ prefixes, s' i = some { d with
    prefixes := prefixes
    includedUris := if o = some i then d.includedUris ++ roots.map pathToUri else d.includedUris }
  adds : ∀ {i d'}, s i = none → s' i = some d' → ∃ path ∈ log, ∃ text prefixes,
    w.readFile path = some text ∧ d' = loadedDocument w parse path text prefixes
  logged : ∀ path ∈ log, ∃ i d', s i = none ∧ s' i = some d' ∧ d'.uri = canonUri w path
  nodup : (log.map (canonUri w)).Nodup
  apart : ∀ {i d'}, s i = none → s' i = some d' → ∀ j e, j ≠ i → s' j = some e → e.uri ≠ d'.uri
  leads : ∀ path ∈ log, Leads w parse (· ∈ log) roots path
  answered : ∀ path ∈ roots, Answered w s' path
  closed : ∀ path ∈ log, ∀ path' ∈ includePaths w parse path, Answered w s' path'

end Calls

section Calls

variable {w : World} {parse : CStr → ParseOutput} {s s' s'' : Store} {o : Option Slot}
  {roots roots' log log' : List CStr} {path : CStr}

/-! ### What is answered stays so -/

theorem isSome_docFind {uri : CStr} : (docFind w.realpath s uri).isSome ↔
    ∃ i d, s i = some d ∧ (d.uri = uri ∨ d.uri = normalizeUri w.realpath uri) := by
  constructor
  · intro h
    obtain ⟨i, hi⟩ := Option.isSome_iff_exists.mp h
    obtain ⟨d, hd, hu⟩ := docFind_some hi
    exact ⟨i, d, hd, hu⟩
  · rintro ⟨i, d, hd, hu⟩
    cases hf : docFind w.realpath s uri with
    | none =>
      obtain ⟨h1, h2⟩ := docFind_none hf hd
      exact absurd hu (not_or.mpr ⟨h1, h2⟩)
    | some j => rfl

theorem Answered.mono (h : Answered w s path)
    (hk : ∀ {i d}, s i = some d → ∃ d', s' i = some d' ∧ d'.uri = d.uri) : Answered w s' path := by
  rcases h with h | h | h
  · exact Or.inl h
  · obtain ⟨i, d, hd, hu⟩ := isSome_docFind.mp h
    obtain ⟨d', hd', hu'⟩ := hk hd
    exact Or.inr (Or.inl (isSome_docFind.mpr ⟨i, d', hd', hu' ▸ hu⟩))
  · refine Or.inr (Or.inr fun i => ?_)
    obtain ⟨d, hd⟩ := Option.isSome_iff_exists.mp (h i)
    obtain ⟨d', hd', -⟩ := hk hd
    rw [hd']
    rfl

theorem Leads.mono {via via' : CStr → Prop} (h : Leads w parse via roots path)
    (hv : ∀ path, via path → via' path) (hr : ∀ path ∈ roots, Leads w parse via' roots' path) :
    Leads w parse via' roots' path := by
  induction h with
  | root hp => exact hr _ hp
  | step _ hvia hp ih => exact .step ih (hv _ hvia) hp

/-! ### One load after another -/

theorem Grows.uri (h : Grows w parse o roots log s s') {i : Slot} {d : Document}
    (hd : s i = some d) : ∃ d', s' i = some d' ∧ d'.uri = d.uri := by
  obtain ⟨prefixes, hd'⟩ := h.keeps hd
  exact ⟨_, hd', rfl⟩

theorem Grows.isSome (h : Grows w parse o roots log s s') {i : Slot} (hi : (s i).isSome) :
    (s' i).isSome := by
  obtain ⟨d, hd⟩ := Option.isSome_iff_exists.mp hi
  obtain ⟨d', hd', -⟩ := h.uri hd
  rw [hd']
  rfl

theorem Grows.freeCount_le (h : Grows w parse o roots log s s') :
    s'.freeCount ≤ s.freeCount := by
  refine List.countP_mono_left fun i _ hi => ?_
  cases hs : s i with
  | none => rfl
  | some d =>
    have := h.isSome (i := i) (by rw [hs]; rfl)
    rw [Option.isNone_iff_eq_none.mp hi] at this
    cases this

theorem Grows.refl (o : Option Slot) (s : Store) : Grows w parse o [] [] s s where
  keeps {i d} hd := ⟨d.prefixes, by simpa using hd⟩
  adds hd hd' := by
    rw [hd] at hd'
    cases hd'
  logged path hp := by cases hp
  nodup := List.nodup_nil
  apart hd hd' := by
    rw [hd] at hd'
    cases hd'
  leads path hp := by cases hp
  answered path hp := by cases hp
  closed path hp := by cases hp

theorem Grows.stop (h : Answered w s path) : Grows w parse none [path] [] s s where
  keeps {i d} hd := ⟨d.prefixes, by simpa using hd⟩
  adds hd hd' := by
    rw [hd] at hd'
    cases hd'
  logged path hp := by cases hp
  nodup := List.nodup_nil
  apart hd hd' := by
    rw [hd] at hd'
    cases hd'
  leads path hp := by cases hp
  answered path' hp := by
    rw [List.mem_singleton.mp hp]
    exact h
  closed path hp := by cases hp

theorem Grows.trans (h : Grows w parse o roots log s s') (h' : Grows w parse o roots' log' s' s'')
    (ho : ∀ i ∈ o, (s i).isSome) : Grows w parse o (roots ++ roots') (log ++ log') s s'' where
  keeps {i d} hd := by
    obtain ⟨ps, hd'⟩ := h.keeps hd
    obtain ⟨ps', hd''⟩ := h'.keeps hd'
    refine ⟨ps', ?_⟩
    rw [hd'']
    by_cases hi : o = some i
    · simp only [if_pos hi, List.map_append, List.append_assoc]
    · simp only [if_neg hi]
  adds {i d''} hd hd'' := by
    cases hs : s' i with
    | none =>
      obtain ⟨p, hp, hrest⟩ := h'.adds hs hd''
      exact ⟨p, List.mem_append_right _ hp, hrest⟩
    | some d' =>
      obtain ⟨p, hp, text, ps, hread, rfl⟩ := h.adds hd hs
      obtain ⟨ps', he⟩ := h'.keeps hs
      have hi : o ≠ some i := by
        rintro rfl
        have := ho i rfl
        rw [hd] at this
        cases this
      rw [hd'', if_neg hi, Option.some.injEq] at he
      exact ⟨p, List.mem_append_left _ hp, text, ps', hread, he⟩
  logged p hp := by
    rcases List.mem_append.mp hp with hp | hp
    · obtain ⟨i, d', hs, hd', hu⟩ := h.logged p hp
      obtain ⟨d'', hd'', hu'⟩ := h'.uri hd'
      exact ⟨i, d'', hs, hd'', hu'.trans hu⟩
    · obtain ⟨i, d'', hs', hd'', hu⟩ := h'.logged p hp
      refine ⟨i, d'', ?_, hd'', hu⟩
      cases hs : s i with
      | none => rfl
      | some d =>
        obtain ⟨d', hd', -⟩ := h.uri hs
        rw [hs'] at hd'
        cases hd'
  nodup := by
    rw [List.map_append]
    refine h.nodup.append h'.nodup ?_
    intro u hu hu'
    obtain ⟨p, hp, rfl⟩ := List.mem_map.mp hu
    obtain ⟨p', hp', hpp⟩ := List.mem_map.mp hu'
    obtain ⟨i, d', -, hd', hud⟩ := h.logged p hp
    obtain ⟨i', e'', hs', he'', hue⟩ := h'.logged p' hp'
    obtain ⟨d'', hd'', hud'⟩ := h'.uri hd'
    have hi : i ≠ i' := by
      rintro rfl
      rw [hs'] at hd'
      cases hd'
    exact h'.apart hs' he'' i d'' hi hd'' (by rw [hud', hud, hue, hpp])
  apart {i d''} hd hd'' := by
    intro j e'' hj he''
    cases hs : s' i with
    | none => exact h'.apart hs hd'' j e'' hj he''
    | some d' =>
      obtain ⟨d2, hd2, hu⟩ := h'.uri hs
      rw [hd'', Option.some.injEq] at hd2
      subst hd2
      cases hj' : s' j with
      | none => exact (h'.apart hj' he'' i d'' (Ne.symm hj) hd'').symm
      | some e' =>
        obtain ⟨e2, he2, hue⟩ := h'.uri hj'
        rw [he'', Option.some.injEq] at he2
        subst he2
        rw [hue, hu]
        exact h.apart hd hs j e' hj hj'
  leads p hp := by
    rcases List.mem_append.mp hp with hp | hp
    · exact (h.leads p hp).mono (fun _ => List.mem_append_left _)
        fun q hq => .root (List.mem_append_left _ hq)
    · exact (h'.leads p hp).mono (fun _ => List.mem_append_right _)
        fun q hq => .root (List.mem_append_right _ hq)
  answered p hp := by
    rcases List.mem_append.mp hp with hp | hp
    · exact (h.answered p hp).mono h'.uri
    · exact h'.answered p hp
  closed p hp q hq := by
    rcases List.mem_append.mp hp with hp | hp
    · exact (h.closed p hp q hq).mono h'.uri
    · exact h'.closed p hp q hq

/-! ### One include -/

theorem recordInclude_some (o : Option Slot) (filePath : CStr) (inc : IncludeRef) {i : Slot}
    {d : Document} (hd : s i = some d) : ∃ prefixes, recordInclude w filePath o inc s i = some { d with
      prefixes := prefixes
      includedUris :=
        if o = some i then d.includedUris ++ [pathToUri (resolveIncludePath filePath inc.filename)]
        else d.includedUris } := by
  rw [recordInclude, Store.recorded_apply, hd]
  exact ⟨_, rfl⟩

/-- The document after a record comes from one before it. -/
theorem of_recordInclude {filePath : CStr} {inc : IncludeRef} {i : Slot} {d' : Document}
    (hd' : recordInclude w filePath o inc s i = some d') : ∃ d, s i = some d ∧ d'.uri = d.uri := by
  rw [recordInclude, Store.recorded_apply, Option.map_eq_some_iff] at hd'
  obtain ⟨d, hd, rfl⟩ := hd'
  exact ⟨d, hd, rfl⟩

theorem Grows.record {filePath : CStr} {inc : IncludeRef}
    (h : Grows w parse none [resolveIncludePath filePath inc.filename] log s s')
    (ho : ∀ i ∈ o, (s i).isSome) :
    Grows w parse o [resolveIncludePath filePath inc.filename] log s
      (recordInclude w filePath o inc s') := by
  have huri : ∀ {i d}, s' i = some d →
      ∃ d', recordInclude w filePath o inc s' i = some d' ∧ d'.uri = d.uri := by
    intro i d hd
    obtain ⟨ps, hd'⟩ := recordInclude_some (w := w) o filePath inc hd
    exact ⟨_, hd', rfl⟩
  constructor
  · intro i d hd
    obtain ⟨ps, hd'⟩ := h.keeps hd
    obtain ⟨ps', hd''⟩ := recordInclude_some (w := w) o filePath inc hd'
    exact ⟨ps', hd''⟩
  · intro i d'' hd hd''
    obtain ⟨d', hd', -⟩ := of_recordInclude hd''
    obtain ⟨p, hp, text, ps, hread, rfl⟩ := h.adds hd hd'
    obtain ⟨ps', he⟩ := recordInclude_some (w := w) o filePath inc hd'
    have hi : o ≠ some i := by
      rintro rfl
      have := ho i rfl
      rw [hd] at this
      cases this
    rw [hd'', if_neg hi, Option.some.injEq] at he
    exact ⟨p, hp, text, ps', hread, he⟩
  · intro p hp
    obtain ⟨i, d', hs, hd', hu⟩ := h.logged p hp
    obtain ⟨d'', hd'', hu'⟩ := huri hd'
    exact ⟨i, d'', hs, hd'', hu'.trans hu⟩
  · exact h.nodup
  · intro i d'' hd hd'' j e'' hj he''
    obtain ⟨d', hd', hu⟩ := of_recordInclude hd''
    obtain ⟨e', he', hue⟩ := of_recordInclude he''
    rw [hu, hue]
    exact h.apart hd hd' j e' hj he'
  · exact h.leads
  · exact fun p hp => (h.answered p hp).mono huri
  · exact fun p hp q hq => (h.closed p hp q hq).mono huri

/-! ### The loop over the includes, and a load -/

variable {load : CStr → Store → Store} {n : ℕ}

/-- What is to be shown of the loads with some bound on the free slots. -/
def Loadable (w : World) (parse : CStr → ParseOutput) (load : CStr → Store → Store) (n : ℕ) : Prop :=
  ∀ path s, s.freeCount ≤ n → ∃ log, LoadCall w parse path s log (load path s) ∧
    Grows w parse none [path] log s (load path s)

theorem Loadable.loop (hload : Loadable w parse load n) (filePath : CStr)
    (includes : List IncludeRef) (s : Store) (hs : s.freeCount ≤ n) (ho : ∀ i ∈ o, (s i).isSome) :
    ∃ log, IncludeLoop w parse filePath o includes s log
        (includes.foldl (followInclude w load filePath o) s) ∧
      Grows w parse o (includes.map fun inc => resolveIncludePath filePath inc.filename) log s
        (includes.foldl (followInclude w load filePath o) s) := by
  induction includes generalizing s with
  | nil => exact ⟨[], .nil, .refl o s⟩
  | cons inc includes ih =>
    obtain ⟨log, hcall, hgrows⟩ := hload (resolveIncludePath filePath inc.filename) s hs
    have hrec := hgrows.record (o := o) ho
    obtain ⟨log', hloop, hrest⟩ := ih (recordInclude w filePath o inc
      (load (resolveIncludePath filePath inc.filename) s)) (hrec.freeCount_le.trans hs)
      fun i hi => hrec.isSome (ho i hi)
    exact ⟨log ++ log', .cons hcall hloop, hrec.trans hrest ho⟩

theorem docFind_put {uri : CStr} {i : Slot} {d : Document}
    (hf : docFind w.realpath s uri = none) (hd : d.uri = normalizeUri w.realpath uri) :
    docFind w.realpath (s.put i d) uri = some i := by
  have hother : ∀ {j e}, s.put i d j = some e → j ≠ i →
      e.uri ≠ uri ∧ e.uri ≠ normalizeUri w.realpath uri := by
    intro j e he hj
    rw [Store.put_of_ne hj] at he
    exact docFind_none hf he
  cases hg : docFind w.realpath (s.put i d) uri with
  | none =>
    obtain ⟨-, h2⟩ := docFind_none hg (Store.put_self (s := s) (i := i) (d := d))
    exact absurd hd h2
  | some j =>
    obtain ⟨e, he, hu⟩ := docFind_some hg
    by_contra hne
    have hj : j ≠ i := fun hji => hne (by rw [hji])
    obtain ⟨h1, h2⟩ := hother he hj
    exact hu.elim h1 h2

/-- A file is put into a free slot, its includes are followed, and its parse is installed. -/
theorem Grows.install {text : CStr} {i : Slot} (hf : docFind w.realpath s (pathToUri path) = none)
    (hr : w.readFile path = some text) (hi : s i = none)
    (h : Grows w parse (some i) (includePaths w parse path) log
      (s.put i (diskDocument w path text)) s') :
    Grows w parse none [path] (path :: log) s
      (s'.modify i fun d => d.installParse (parse text)) := by
  obtain ⟨ps, hself⟩ := h.keeps (i := i) Store.put_self
  have hne : ∀ {j : Slot}, (s j).isSome → j ≠ i := by
    rintro j hj rfl
    rw [hi] at hj
    cases hj
  have huri : ∀ {j e}, s' j = some e →
      ∃ e', (s'.modify i fun d => d.installParse (parse text)) j = some e' ∧ e'.uri = e.uri := by
    intro j e he
    by_cases hj : j = i
    · subst hj
      exact ⟨e.installParse (parse text), by rw [Store.modify_self, he, Option.map_some], rfl⟩
    · exact ⟨e, by rw [Store.modify_of_ne hj, he], rfl⟩
  have hfrom : ∀ {j e'}, (s'.modify i fun d => d.installParse (parse text)) j = some e' →
      ∃ e, s' j = some e ∧ e'.uri = e.uri := by
    intro j e' he'
    by_cases hj : j = i
    · subst hj
      rw [Store.modify_self, hself, Option.map_some, Option.some.injEq] at he'
      exact ⟨_, hself, by rw [← he']; rfl⟩
    · rw [Store.modify_of_ne hj] at he'
      exact ⟨e', he', rfl⟩
  constructor
  · intro j d hd
    have hj : j ≠ i := hne (by rw [hd]; rfl)
    obtain ⟨ps', hd'⟩ := h.keeps (i := j) (by rwa [Store.put_of_ne hj])
    refine ⟨ps', ?_⟩
    rw [Store.modify_of_ne hj, hd', if_neg fun hij => hj (Option.some.inj hij).symm,
      if_neg (by simp)]
  · intro j d' hd hd'
    by_cases hj : j = i
    · subst hj
      rw [Store.modify_self, hself, Option.map_some, Option.some.injEq] at hd'
      refine ⟨path, List.mem_cons_self, text, ps, hr, ?_⟩
      rw [← hd', if_pos rfl]
      rfl
    · rw [Store.modify_of_ne hj] at hd'
      obtain ⟨p, hp, hrest⟩ := h.adds (i := j) (by rwa [Store.put_of_ne hj]) hd'
      exact ⟨p, List.mem_cons_of_mem _ hp, hrest⟩
  · intro p hp
    rcases List.mem_cons.mp hp with rfl | hp
    · obtain ⟨e', he', hu⟩ := huri hself
      exact ⟨i, e', hi, he', hu⟩
    · obtain ⟨j, d', hs, hd', hu⟩ := h.logged p hp
      have hj : j ≠ i := by
        rintro rfl
        rw [Store.put_self] at hs
        cases hs
      obtain ⟨e', he', hu'⟩ := huri hd'
      exact ⟨j, e', by rwa [Store.put_of_ne hj] at hs, he', hu'.trans hu⟩
  · rw [List.map_cons, List.nodup_cons]
    refine ⟨fun hmem => ?_, h.nodup⟩
    obtain ⟨p, hp, hpp⟩ := List.mem_map.mp hmem
    obtain ⟨j, d', hs, hd', hu⟩ := h.logged p hp
    have hj : i ≠ j := by
      rintro rfl
      rw [Store.put_self] at hs
      cases hs
    exact h.apart hs hd' i _ hj hself (hpp.symm.trans hu.symm)
  · intro j d' hd hd' k e' hk he'
    obtain ⟨d, hd1, hu⟩ := hfrom hd'
    obtain ⟨e, he1, hue⟩ := hfrom he'
    rw [hu, hue]
    by_cases hj : j = i
    · subst hj
      rw [hself, Option.some.injEq] at hd1
      subst hd1
      cases hs : s k with
      | none => exact (h.apart (by rwa [Store.put_of_ne hk]) he1 j _ (Ne.symm hk) hself).symm
      | some d0 =>
        obtain ⟨e2, he2, hu2⟩ := h.uri (i := k) (by rwa [Store.put_of_ne hk])
        rw [he1, Option.some.injEq] at he2
        subst he2
        rw [hu2]
        exact (docFind_none hf hs).2
    · exact h.apart (by rwa [Store.put_of_ne hj]) hd1 k e hk he1
  · intro p hp
    have hroot : Leads w parse (· ∈ path :: log) [path] path := .root (List.mem_singleton_self _)
    rcases List.mem_cons.mp hp with rfl | hp
    · exact hroot
    · exact (h.leads p hp).mono (fun _ => List.mem_cons_of_mem _)
        fun q hq => .step hroot List.mem_cons_self hq
  · intro p hp
    rw [List.mem_singleton] at hp
    subst hp
    obtain ⟨e', he', hu⟩ := huri hself
    exact Or.inr (Or.inl (isSome_docFind.mpr ⟨i, e', he', Or.inr hu⟩))
  · intro p hp q hq
    rcases List.mem_cons.mp hp with rfl | hp
    · exact (h.answered q hq).mono huri
    · exact (h.closed p hp q hq).mono huri

theorem put_diskDocument (text : CStr) (i : Slot) :
    (s.put i (freshDocument (normalizeUri w.realpath (pathToUri path)))).modify i
      (fun d => { d with text := some text, diskOnly := true }) =
      s.put i (diskDocument w path text) := by
  rw [Store.modify, Store.put_self, Store.put, Store.put, Function.update_idem]
  rfl

theorem clear_diskDocument (text : CStr) (i : Slot) :
    (s.put i (diskDocument w path text)).modifyFound (some i)
      (fun d => { d with includedUris := [] }) = s.put i (diskDocument w path text) := by
  rw [Store.modifyFound, Store.modify, Store.put_self, Store.put, Function.update_idem]
  rfl

/-- `install_disk_text` on a slot just allocated: a loop over the includes for this slot. -/
theorem installDiskText_fresh {text : CStr} {i : Slot}
    (hf : docFind w.realpath s (pathToUri path) = none) :
    installDiskText w parse load
        (s.put i (freshDocument (normalizeUri w.realpath (pathToUri path)))) i text path =
      ((parse text).includes.foldl (followInclude w load path (some i))
        (s.put i (diskDocument w path text))).modify i fun d => d.installParse (parse text) := by
  rw [installDiskText, parseInto]
  simp only [followIncludes]
  rw [put_diskDocument, docFind_put hf rfl, clear_diskDocument]

theorem Loadable.install (hload : Loadable w parse load n) {text : CStr} {i : Slot}
    (hf : docFind w.realpath s (pathToUri path) = none) (hr : w.readFile path = some text)
    (hal : docAlloc w.realpath s (pathToUri path) =
      some (i, s.put i (freshDocument (normalizeUri w.realpath (pathToUri path)))))
    (hs : s.freeCount ≤ n + 1) :
    ∃ log, LoadCall w parse path s log (installDiskText w parse load
        (s.put i (freshDocument (normalizeUri w.realpath (pathToUri path)))) i text path) ∧
      Grows w parse none [path] log s (installDiskText w parse load
        (s.put i (freshDocument (normalizeUri w.realpath (pathToUri path)))) i text path) := by
  have hi : s i = none := (docAlloc_some hal).1
  have hle : (s.put i (diskDocument w path text)).freeCount ≤ n := by
    have := freeCount_put_lt hi (diskDocument w path text)
    omega
  have hslot : ∀ j ∈ some i, (s.put i (diskDocument w path text) j).isSome := by
    rintro j ⟨⟩
    rw [Store.put_self]
    rfl
  obtain ⟨log, hloop, hgrows⟩ := hload.loop path (parse text).includes _ hle hslot
  have hpaths : includePaths w parse path =
      (parse text).includes.map fun inc => resolveIncludePath path inc.filename := by
    rw [includePaths, hr]
  rw [← hpaths] at hgrows
  rw [installDiskText_fresh hf]
  refine ⟨path :: log, ?_, hgrows.install hf hr hi⟩
  refine @LoadCall.load w parse path text s _ _ i (some i) log hf hr hal ?_ ?_
  · rw [put_diskDocument, docFind_put hf rfl]
  · rw [put_diskDocument, clear_diskDocument]
    exact hloop

/-- **Every call returns**, for any number of free slots. -/
theorem loadable_loadFile (w : World) (parse : CStr → ParseOutput) (n : ℕ) :
    Loadable w parse (loadFile w parse n) n := by
  induction n with
  | zero =>
    intro path s hs
    have hfirst := firstFree_of_freeCount (Nat.le_zero.mp hs)
    refine ⟨[], ?_, .stop (Or.inr (Or.inr (Store.firstFree_none hfirst)))⟩
    cases hf : docFind w.realpath s (pathToUri path) with
    | some i => exact .found (by rw [hf]; rfl)
    | none =>
      cases hr : w.readFile path with
      | none => exact .unreadable hf hr
      | some text => exact .full hf hr (by rw [docAlloc, hfirst]; rfl)
  | succ n ih =>
    intro path s hs
    unfold loadFile
    simp only
    cases hf : docFind w.realpath s (pathToUri path) with
    | some i =>
      have hfound : (docFind w.realpath s (pathToUri path)).isSome := by
        rw [hf]
        rfl
      rw [if_pos (by rfl)]
      exact ⟨[], .found hfound, .stop (Or.inr (Or.inl hfound))⟩
    | none =>
      rw [if_neg (by simp)]
      cases hr : w.readFile path with
      | none => exact ⟨[], .unreadable hf hr, .stop (Or.inl hr)⟩
      | some text =>
        cases hal : docAlloc w.realpath s (pathToUri path) with
        | none => exact ⟨[], .full hf hr hal, .stop (Or.inr (Or.inr (docAlloc_none hal)))⟩
        | some p =>
          obtain ⟨i, s1⟩ := p
          obtain ⟨-, rfl⟩ := docAlloc_some hal
          exact ih.install hf hr hal hs

theorem exists_loadCall (w : World) (parse : CStr → ParseOutput) (path : CStr) (s : Store) :
    ∃ log, LoadCall w parse path s log (loadFileFromDisk w parse path s) ∧
      Grows w parse none [path] log s (loadFileFromDisk w parse path s) :=
  loadable_loadFile w parse s.freeCount path s le_rfl

theorem exists_followCall (w : World) (parse : CStr → ParseOutput) (filePath : CStr)
    (po : ParseOutput) (s : Store) :
    ∃ log, FollowCall w parse filePath po s log
        (followIncludes w (loadFileFromDisk w parse) filePath po s) ∧
      Grows w parse (docFind w.realpath s (pathToUri filePath))
        (po.includes.map fun inc => resolveIncludePath filePath inc.filename) log
        (s.modifyFound (docFind w.realpath s (pathToUri filePath)) fun d =>
          { d with includedUris := [] })
        (followIncludes w (loadFileFromDisk w parse) filePath po s) := by
  have hload : Loadable w parse (loadFileFromDisk w parse) (s.modifyFound
      (docFind w.realpath s (pathToUri filePath)) fun d => { d with includedUris := [] }).freeCount :=
    fun path s' _ => exists_loadCall w parse path s'
  refine hload.loop filePath po.includes _ le_rfl fun i hi => ?_
  obtain ⟨d, hd, -⟩ := docFind_some hi
  rw [Store.modifyFound_apply, hd]
  rfl

/-! ### From an empty store -/

/-- What a store keeps of another one: the documents, up to their prefixes and includes; and each
document it has besides is in a slot of its own. -/
structure Undisturbed (s s' : Store) : Prop where
  keeps : ∀ {i d}, s i = some d → ∃ d', s' i = some d' ∧ d'.uri = d.uri ∧ d'.text = d.text ∧
    d'.snap = d.snap ∧ d'.prevSnap = d.prevSnap
  apart : ∀ {i d'}, s i = none → s' i = some d' → ∀ j e, j ≠ i → s' j = some e → e.uri ≠ d'.uri

theorem Grows.undisturbed (h : Grows w parse o roots log s s') : Undisturbed s s' where
  keeps hd := by
    obtain ⟨ps, hd'⟩ := h.keeps hd
    exact ⟨_, hd', rfl, rfl, rfl, rfl⟩
  apart := h.apart

/-- The includes of a file are the same files, whichever of its paths it is read from. -/
def SameIncludes (w : World) (parse : CStr → ParseOutput) : Prop :=
  ∀ path path', (w.readFile path).isSome → (w.readFile path').isSome →
    canonUri w path = canonUri w path' →
    ∀ q ∈ includePaths w parse path, (w.readFile q).isSome →
      ∃ q' ∈ includePaths w parse path', (w.readFile q').isSome ∧ canonUri w q' = canonUri w q

/-- The canonical URIs of the readable files that the includes lead to. -/
def reachableFiles (w : World) (parse : CStr → ParseOutput) (via : CStr → Prop) (start : CStr) :
    Set CStr :=
  {uri | ∃ path, Leads w parse via [start] path ∧ (w.readFile path).isSome ∧ canonUri w path = uri}

theorem Leads.weaken {via : CStr → Prop} (h : Leads w parse via roots path) :
    Leads w parse (fun _ => True) roots path :=
  h.mono (fun _ _ => trivial) fun _ => .root

/-- What `realpath` is documented to do: its answer is a path without a NUL, and the answer for
itself; and it has one for the path of a file that can be read. -/
structure RealpathOk (w : World) : Prop where
  resolved : ∀ path real, w.realpath path = some real → w.realpath real = some real ∧ 0 ∉ real
  readable : ∀ path text, w.readFile path = some text → 0 ∉ path ∧ (w.realpath path).isSome

/-- The canonical URI of a file that can be read is canonical. -/
theorem RealpathOk.canonUri_idem (hw : RealpathOk w) (hread : (w.readFile path).isSome) :
    normalizeUri w.realpath (canonUri w path) = canonUri w path := by
  obtain ⟨text, hread⟩ := Option.isSome_iff_exists.mp hread
  obtain ⟨h0, hreal⟩ := hw.readable path text hread
  obtain ⟨real, hreal⟩ := Option.isSome_iff_exists.mp hreal
  obtain ⟨hfix, hnul⟩ := hw.resolved path real hreal
  exact normalizeUri_idem_of_resolved (uriToPath_pathToUri h0) hreal hfix hnul

/-- What was found under a spelling of its URI has that canonical URI. -/
theorem uri_of_found (hw : RealpathOk w) {d : Document} {q : CStr} (hq : (w.readFile q).isSome)
    (hd : d.uri = canonUri w q)
    (hu : d.uri = pathToUri path ∨ d.uri = normalizeUri w.realpath (pathToUri path)) :
    d.uri = canonUri w path := by
  rcases hu with hu | hu
  · have hcanon : canonUri w path = normalizeUri w.realpath (canonUri w q) := by
      rw [← hd, hu, canonUri]
    rw [hcanon, hd, hw.canonUri_idem hq]
  · exact hu

section Empty

variable {start : CStr} (h : Grows w parse none [start] log emptyStore s)

include h

theorem Grows.document {i : Slot} {d : Document} (hd : s i = some d) : ∃ path ∈ log,
    ∃ text prefixes, w.readFile path = some text ∧ d = loadedDocument w parse path text prefixes :=
  h.adds rfl hd

theorem Grows.uri_mem {i : Slot} {d : Document} (hd : s i = some d) :
    ∃ path ∈ log, canonUri w path = d.uri := by
  obtain ⟨path, hp, text, ps, -, rfl⟩ := h.document hd
  exact ⟨path, hp, rfl⟩

theorem Grows.readable (hp : path ∈ log) : (w.readFile path).isSome := by
  obtain ⟨i, d, -, hd, hu⟩ := h.logged path hp
  obtain ⟨path', hp', text, ps, hread, rfl⟩ := h.document hd
  have : path' = path := List.inj_on_of_nodup_map h.nodup hp' hp hu
  rw [← this, hread]
  rfl

theorem Grows.uri_reachable {i : Slot} {d : Document} (hd : s i = some d) :
    d.uri ∈ reachableFiles w parse (fun _ => True) start := by
  obtain ⟨path, hp, hu⟩ := h.uri_mem hd
  exact ⟨path, (h.leads path hp).weaken, h.readable hp, hu⟩

/-- With room enough, what is answered and readable is in the store. -/
theorem Grows.mem_of_answered (hw : RealpathOk w)
    (hroom : (reachableFiles w parse (fun _ => True) start).encard ≤ maxDocs)
    (hpath : Leads w parse (fun _ => True) [start] path) (hread : (w.readFile path).isSome)
    (ha : Answered w s path) : ∃ i d, s i = some d ∧ d.uri = canonUri w path := by
  rcases ha with ha | ha | ha
  · rw [ha] at hread
    cases hread
  · obtain ⟨i, d, hd, hu⟩ := isSome_docFind.mp ha
    obtain ⟨q, hlog, hq⟩ := h.uri_mem hd
    exact ⟨i, d, hd, uri_of_found hw (h.readable hlog) hq.symm hu⟩
  · -- a full store and the file would be one reachable file too many
    by_contra hno
    choose d hd using fun i => Option.isSome_iff_exists.mp (ha i)
    let files : Option Slot → CStr := fun o => o.elim (canonUri w path) fun i => (d i).uri
    have hinj : Function.Injective files := by
      rintro (_ | i) (_ | j) hij
      · rfl
      · exact absurd ⟨j, d j, hd j, hij.symm⟩ hno
      · exact absurd ⟨i, d i, hd i, hij⟩ hno
      · by_contra hne
        exact h.apart rfl (hd i) j (d j) (fun hji => hne (by rw [hji])) (hd j) hij.symm
    have hsub : Set.range files ⊆ reachableFiles w parse (fun _ => True) start := by
      rintro _ ⟨_ | i, rfl⟩
      · exact ⟨path, hpath, hread, rfl⟩
      · exact h.uri_reachable (hd i)
    have hcard := hinj.encard_range.trans ((Set.encard_le_encard hsub).trans hroom)
    rw [ENat.card_eq_coe_fintype_card, Fintype.card_option, Fintype.card_fin] at hcard
    exact absurd (by exact_mod_cast hcard) (Nat.not_succ_le_self maxDocs)

/-- The store is closed under the includes of the files as they were loaded. -/
theorem Grows.complete (hw : RealpathOk w)
    (hroom : (reachableFiles w parse (fun _ => True) start).encard ≤ maxDocs)
    (hpath : Leads w parse (· ∈ log) [start] path) (hread : (w.readFile path).isSome) :
    ∃ i d, s i = some d ∧ d.uri = canonUri w path := by
  refine h.mem_of_answered hw hroom hpath.weaken hread ?_
  cases hpath with
  | root hp => exact h.answered path hp
  | step _ hq hp => exact h.closed _ hq path hp

/-- Where spellings do not matter, it is closed under all includes. -/
theorem Grows.complete_of_sameIncludes (hw : RealpathOk w) (hsame : SameIncludes w parse)
    (hroom : (reachableFiles w parse (fun _ => True) start).encard ≤ maxDocs)
    (hpath : Leads w parse (fun _ => True) [start] path) (hread : (w.readFile path).isSome) :
    ∃ i d, s i = some d ∧ d.uri = canonUri w path := by
  induction hpath with
  | root hp => exact h.complete hw hroom (.root hp) hread
  | @step q path _ _ hp ih =>
    have hq : (w.readFile q).isSome := by
      cases hr : w.readFile q with
      | some text => rfl
      | none =>
        rw [includePaths, hr] at hp
        cases hp
    obtain ⟨i, d, hd, hu⟩ := ih hq
    obtain ⟨q', hq', hqq⟩ := h.uri_mem hd
    obtain ⟨path', hp', hread', hcanon⟩ :=
      hsame q q' hq (h.readable hq') (by rw [hqq, hu]) path hp hread
    rw [← hcanon]
    exact h.complete hw hroom (.step (h.leads q' hq') hq' hp') hread'

end Empty

end Calls

/-! ### Loading a workspace -/

section Results

variable (w : World) (parse : CStr → ParseOutput)

theorem followIncludes_undisturbed (filePath : CStr) (po : ParseOutput) (s : Store) :
    Undisturbed s (followIncludes w (loadFileFromDisk w parse) filePath po s) := by
  obtain ⟨log, -, h⟩ := exists_followCall w parse filePath po s
  have hfree : ∀ {i}, s i = none → (s.modifyFound (docFind w.realpath s (pathToUri filePath))
      fun d => { d with includedUris := [] }) i = none := fun hd => by
    rw [Store.modifyFound_apply, hd, Option.map_none]
  refine ⟨fun {i d} hd => ?_, fun hd => h.undisturbed.apart (hfree hd)⟩
  have hfound := s.modifyFound_apply (docFind w.realpath s (pathToUri filePath))
    (fun d => { d with includedUris := [] }) i
  rw [hd, Option.map_some] at hfound
  obtain ⟨d', hd', hu, ht, hs, hp⟩ := h.undisturbed.keeps hfound
  refine ⟨d', hd', hu.trans ?_, ht.trans ?_, hs.trans ?_, hp.trans ?_⟩ <;> split_ifs <;> rfl

/-- **Loading terminates**: both functions return from every store, with the documents of the
store undisturbed and each new one in a slot of its own.  **It is complete**: from an empty store
with room for every reachable file, the paths that are parsed have one canonical URI
each; these are the URIs in the store, and they are those of the readable files that the
includes lead to, when a file is followed under the path by which it was loaded; each
document is the file as loaded from that path, with its includes in source order.
Where the includes of a file do not depend on its path these are all reachable files. -/
theorem loads_closure :
    (∀ path s, (∃ log, LoadCall w parse path s log (loadFileFromDisk w parse path s)) ∧
      Undisturbed s (loadFileFromDisk w parse path s)) ∧
    (∀ filePath po s,
      (∃ log, FollowCall w parse filePath po s log
        (followIncludes w (loadFileFromDisk w parse) filePath po s)) ∧
      Undisturbed s (followIncludes w (loadFileFromDisk w parse) filePath po s)) ∧
    ∀ start, RealpathOk w →
      (reachableFiles w parse (fun _ => True) start).encard ≤ maxDocs →
      ∃ log, LoadCall w parse start emptyStore log (loadFileFromDisk w parse start emptyStore) ∧
        (log.map (canonUri w)).Nodup ∧
        (∀ uri, uri ∈ log.map (canonUri w) ↔
          ∃ i d, loadFileFromDisk w parse start emptyStore i = some d ∧ d.uri = uri) ∧
        (∀ uri, (∃ i d, loadFileFromDisk w parse start emptyStore i = some d ∧ d.uri = uri) ↔
          uri ∈ reachableFiles w parse (· ∈ log) start) ∧
        (∀ i d, loadFileFromDisk w parse start emptyStore i = some d →
          ∃ path ∈ log, ∃ text prefixes, w.readFile path = some text ∧
            d = loadedDocument w parse path text prefixes) ∧
        (SameIncludes w parse →
          ∀ uri, (∃ i d, loadFileFromDisk w parse start emptyStore i = some d ∧ d.uri = uri) ↔
            uri ∈ reachableFiles w parse (fun _ => True) start) := by
  refine ⟨fun path s => ?_, fun filePath po s => ?_, fun start hw hroom => ?_⟩
  · obtain ⟨log, hcall, h⟩ := exists_loadCall w parse path s
    exact ⟨⟨log, hcall⟩, h.undisturbed⟩
  · obtain ⟨log, hcall, -⟩ := exists_followCall w parse filePath po s
    exact ⟨⟨log, hcall⟩, followIncludes_undisturbed w parse filePath po s⟩
  · obtain ⟨log, hcall, h⟩ := exists_loadCall w parse start emptyStore
    refine ⟨log, hcall, h.nodup, fun uri => ⟨fun hu => ?_, ?_⟩, fun uri => ⟨?_, ?_⟩,
      fun i d hd => h.document hd, fun hsame uri => ⟨?_, ?_⟩⟩
    · obtain ⟨path, hp, rfl⟩ := List.mem_map.mp hu
      obtain ⟨i, d, -, hd, hu⟩ := h.logged path hp
      exact ⟨i, d, hd, hu⟩
    · rintro ⟨i, d, hd, rfl⟩
      exact List.mem_map.mpr (h.uri_mem hd)
    · rintro ⟨i, d, hd, rfl⟩
      obtain ⟨path, hp, hu⟩ := h.uri_mem hd
      exact ⟨path, h.leads path hp, h.readable hp, hu⟩
    · rintro ⟨path, hpath, hread, rfl⟩
      exact h.complete hw hroom hpath hread
    · rintro ⟨i, d, hd, rfl⟩
      exact h.uri_reachable hd
    · rintro ⟨path, hpath, hread, rfl⟩
      exact h.complete_of_sameIncludes hw hsame hroom hpath hread

end Results

/-! ### A file with two paths -/

/-- The paths of a file system in which `/d2/m.tji` is a link, with what `realpath` makes of them. -/
def linkedPaths : List (CStr × CStr) :=
  [(cstr "/d1/a.tjp", cstr "/d1/a.tjp"), (cstr "/d1/m.tji", cstr "/d1/m.tji"),
    (cstr "/d2/m.tji", cstr "/d1/m.tji"), (cstr "/d1/x.tji", cstr "/d1/x.tji"),
    (cstr "/d2/x.tji", cstr "/d2/x.tji")]

/-- Any other path has no answer here. -/
def linkedRealpath (path : CStr) : Option CStr :=
  (linkedPaths.find? fun p => p.1 == path).map (·.2)

/-- The first file includes the link and then what it links to. -/
def linkedText : CStr := cstr "include \"/d2/m.tji\"\ninclude \"m.tji\"\n"

def innerLinkedText : CStr := cstr "include \"x.tji\"\n"

def linkedFiles : World where
  realpath := linkedRealpath
  readFile path :=
    if 0 ∈ path then none
    else (linkedRealpath path).map fun real =>
      if real = cstr "/d1/a.tjp" then linkedText
      else if real = cstr "/d1/m.tji" then innerLinkedText
      else []
  stat _ := none
  readJson _ := none

/-- The tokens of an include directive. -/
def includeTokens (line : UInt32) (file : String) (stop : UInt32) : List TokenSpan :=
  [⟨kwInclude, ⟨line, 0⟩, ⟨line, 7⟩, some (cstr "include")⟩,
    ⟨tkStr, ⟨line, 8⟩, ⟨line, stop⟩, some (cstr file)⟩]

/-- What the parser makes of the two texts; any other text stands for an empty one here. -/
def linkedParse (text : CStr) : ParseOutput :=
  let root : TjNode := .mk ⟨0, none, none, ⟨⟨0, 0⟩, ⟨0, 0⟩⟩, ⟨⟨0, 0⟩, ⟨0, 0⟩⟩, []⟩ []
  if text = linkedText then
    ⟨root, includeTokens 0 "\"/d2/m.tji\"" 19 ++ includeTokens 1 "\"m.tji\"" 15, 4,
      [⟨cstr "/d2/m.tji", noPrefixes⟩, ⟨cstr "m.tji", noPrefixes⟩]⟩
  else if text = innerLinkedText then
    ⟨root, includeTokens 0 "\"x.tji\"" 15, 2, [⟨cstr "x.tji", noPrefixes⟩]⟩
  else ⟨root, [], 0, []⟩

theorem linkedRealpath_some {path real : CStr} (h : linkedRealpath path = some real) :
    real ∈ linkedPaths.map (·.2) := by
  obtain ⟨p, hp, rfl⟩ := Option.map_eq_some_iff.mp h
  exact List.mem_map_of_mem (List.mem_of_find?_eq_some hp)

theorem realpathOk_linked : RealpathOk linkedFiles := by
  constructor
  · intro path real h
    have hall : ∀ real ∈ linkedPaths.map (·.2),
        linkedRealpath real = some real ∧ (0 : UInt8) ∉ real := by decide +kernel
    exact hall real (linkedRealpath_some h)
  · intro path text h
    have hread : ¬ 0 ∈ path ∧ (linkedRealpath path).isSome := by
      by_cases h0 : 0 ∈ path
      · simp [linkedFiles, h0] at h
      · obtain ⟨real, hreal, -⟩ := Option.map_eq_some_iff.mp ((if_neg h0).symm.trans h)
        exact ⟨h0, by rw [hreal]; rfl⟩
    exact hread

theorem room_linked (start : CStr) :
    (reachableFiles linkedFiles linkedParse (fun _ => True) start).encard ≤ maxDocs := by
  have hsub : reachableFiles linkedFiles linkedParse (fun _ => True) start
      ⊆ ((linkedPaths.map fun p => pathToUri p.2).toFinset : Set CStr) := by
    rintro _ ⟨path, -, hread, rfl⟩
    have hnul : (0 : UInt8) ∉ path := by
      intro h0
      simp [linkedFiles, h0] at hread
    obtain ⟨real, hreal⟩ : ∃ real, linkedRealpath path = some real := by
      rw [← Option.isSome_iff_exists]
      simpa [linkedFiles, hnul] using hread
    have huri : canonUri linkedFiles path = pathToUri real := by
      rw [canonUri, normalizeUri, uriToPath_pathToUri hnul]
      simp only [linkedFiles, hreal, Option.getD_some]
    rw [huri, Finset.mem_coe, List.mem_toFinset]
    obtain ⟨p, hp, rfl⟩ := List.mem_map.mp (linkedRealpath_some hreal)
    exact List.mem_map_of_mem hp
  refine (Set.encard_le_encard hsub).trans ?_
  rw [Set.encard_coe_eq_coe_finsetCard]
  exact_mod_cast (List.toFinset_card_le _).trans (by decide)

theorem loaded_linked :
    ((List.finRange maxDocs).filterMap fun i =>
      (loadFileFromDisk linkedFiles linkedParse (cstr "/d1/a.tjp") emptyStore i).map (·.uri)) =
      [cstr "file:///d1/a.tjp", cstr "file:///d1/m.tji", cstr "file:///d2/x.tji"] := by
  decide +kernel

/-- The file that the second path leads to is not loaded: its includes were followed under the
first. -/
theorem include_of_second_path_missed :
    ¬ ∀ (w : World) (parse : CStr → ParseOutput) (start : CStr), RealpathOk w →
      (reachableFiles w parse (fun _ => True) start).encard ≤ maxDocs →
      ∀ uri, (∃ i d, loadFileFromDisk w parse start emptyStore i = some d ∧ d.uri = uri) ↔
        uri ∈ reachableFiles w parse (fun _ => True) start := by
  intro h
  have hreach : cstr "file:///d1/x.tji" ∈
      reachableFiles linkedFiles linkedParse (fun _ => True) (cstr "/d1/a.tjp") := by
    have hfirst : cstr "/d1/m.tji" ∈ includePaths linkedFiles linkedParse (cstr "/d1/a.tjp") := by
      decide +kernel
    have hsecond : cstr "/d1/x.tji" ∈ includePaths linkedFiles linkedParse (cstr "/d1/m.tji") := by
      decide +kernel
    exact ⟨cstr "/d1/x.tji",
      .step (.step (.root (List.mem_singleton_self _)) trivial hfirst) trivial hsecond,
      by decide +kernel, by decide +kernel⟩
  obtain ⟨i, d, hd, hu⟩ := (h linkedFiles linkedParse (cstr "/d1/a.tjp") realpathOk_linked
    (room_linked _) (cstr "file:///d1/x.tji")).mpr hreach
  have hmem : cstr "file:///d1/x.tji" ∈ (List.finRange maxDocs).filterMap fun i =>
      (loadFileFromDisk linkedFiles linkedParse (cstr "/d1/a.tjp") emptyStore i).map (·.uri) :=
    List.mem_filterMap.mpr ⟨i, List.mem_finRange i, by rw [hd, Option.map_some, hu]⟩
  rw [loaded_linked] at hmem
  revert hmem
  decide +kernel

/-- The files that are loaded are those that the includes lead to under the paths by which they
were loaded. -/
theorem loads_closure_linked : ∃ log, LoadCall linkedFiles linkedParse (cstr "/d1/a.tjp") emptyStore
      log (loadFileFromDisk linkedFiles linkedParse (cstr "/d1/a.tjp") emptyStore) ∧
    ∀ uri, (∃ i d, loadFileFromDisk linkedFiles linkedParse (cstr "/d1/a.tjp") emptyStore i = some d ∧
      d.uri = uri) ↔ uri ∈ reachableFiles linkedFiles linkedParse (· ∈ log) (cstr "/d1/a.tjp") := by
  obtain ⟨log, hcall, -, -, hfiles, -⟩ := (loads_closure linkedFiles linkedParse).2.2
    (cstr "/d1/a.tjp") realpathOk_linked (room_linked _)
  exact ⟨log, hcall, hfiles⟩

end TaskjugglerLsp
