import TaskjugglerLsp.Workspace

/-!
# Diagnostics

`diagnostics.c`.  A set of diagnostics has one file for each URI, in the order in
which they were first added; publishing it clears what the set before it had and
it has not.  A client shows, for each URI, what the last message for it carried
(`markers`), and after a publication that is the set (`markers_publish`).
-/

namespace TaskjugglerLsp

/-- `DIAG_ERROR` and `DIAG_WARNING`. -/
inductive Severity where
  | error
  | warning
  deriving DecidableEq, Repr

/-- The LSP code of a severity. -/
def Severity.code : Severity → ℕ
  | error => 1
  | warning => 2

structure Diagnostic where
  range : LspRange
  severity : Severity
  source : CStr
  message : CStr
  deriving DecidableEq, Repr

/-- The diagnostics of one URI. -/
structure DiagFile where
  uri : CStr
  items : List Diagnostic
  deriving DecidableEq, Repr

/-- `diag_set`. -/
abbrev DiagSet := List DiagFile

/-- The parameters of a publishDiagnostics notification. -/
structure Publication where
  uri : CStr
  diagnostics : List Diagnostic
  deriving DecidableEq, Repr

/-! ### Sets -/

/-- `diag_set_add`. -/
def diagSetAdd : DiagSet → CStr → Diagnostic → DiagSet
  | [], uri, d => [⟨uri, [d]⟩]
  | f :: s, uri, d =>
    if f.uri = uri then { f with items := f.items ++ [d] } :: s else f :: diagSetAdd s uri d

/-- `diag_set_has`. -/
def diagSetHas (s : DiagSet) (uri : CStr) : Bool := s.any (·.uri = uri)

/-- `diag_set_publish`: the messages that it sends. -/
def diagSetPublish (current previous : DiagSet) : List Publication :=
  (current.map fun f => ⟨f.uri, f.items⟩)
    ++ (previous.filter fun f => !diagSetHas current f.uri).map fun f => ⟨f.uri, []⟩

/-- The diagnostics that a set has for a URI. -/
def DiagSet.items (s : DiagSet) (uri : CStr) : List Diagnostic :=
  ((s.find? (·.uri = uri)).map (·.items)).getD []

/-! ### Warnings about compile_commands.json -/

/-- `INT_MAX`, as a column. -/
def intMax : UInt32 := 2147483647

/-- `add_warning`. -/
def addWarning (out : DiagSet) (uri : CStr) (range : LspRange) (message : String) : DiagSet :=
  diagSetAdd out uri ⟨range, .warning, cstr "taskjuggler-lsp", cstr message⟩

/-- `collect_doc_cc_warnings`. -/
def collectDocCcWarnings (s : DocSnapshot) (status : CcStatus) (out : DiagSet) : DiagSet :=
  if 4 ≤ s.uri.length ∧ s.uri.drop (s.uri.length - 4) = cstr ".tji" then
    addWarning out s.uri ⟨⟨0, 0⟩, ⟨0, intMax⟩⟩
      (if status = .malformed then
        "Malformed compile_commands.json, this file will be parsed stand-alone, not as part of any other loaded .tjp file that includes it."
      else
        "Missing compile_commands.json, this file will be parsed stand-alone, not as part of any other loaded .tjp file that includes it.")
  else
    (s.tokSpans.filter (·.tokenKind = kwInclude)).foldl (fun out t =>
      addWarning out s.uri ⟨t.start, t.stop⟩
        (if status = .malformed then
          "Malformed compile_commands.json, cross-file LSP features are disabled."
        else "Missing compile_commands.json, cross-file LSP features are disabled.")) out

/-- `diag_collect_cc_missing`, for the project with an index. -/
def diagCollectCcMissing (ws : WorkspaceSnapshot) (pindex : ℕ) (out : DiagSet) : DiagSet :=
  if ws.ccStatus = .ok then out
  else
    (ws.docs.filter fun w => w.projectIndex = some pindex && !w.diskOnly).foldl
      (fun out w => collectDocCcWarnings w.snap ws.ccStatus out) out

/-! ### What a set is about -/

namespace DiagSet

/-- Each file has a URI of its own, and something to say. -/
structure Ok (s : DiagSet) : Prop where
  nodup : (s.map DiagFile.uri).Nodup
  nonempty : ∀ f ∈ s, f.items ≠ []

theorem ok_nil : Ok [] := ⟨List.nodup_nil, fun f hf => by cases hf⟩

theorem mem_uris_diagSetAdd {s : DiagSet} {uri u : CStr} {d : Diagnostic} :
    u ∈ (diagSetAdd s uri d).map DiagFile.uri ↔ u ∈ s.map DiagFile.uri ∨ u = uri := by
  induction s with
  | nil => simp [diagSetAdd]
  | cons f s ih =>
    rw [diagSetAdd]
    split
    · rename_i hf
      simp only [List.map_cons, List.mem_cons]
      constructor
      · exact Or.inl
      · rintro (h | rfl)
        · exact h
        · exact Or.inl hf.symm
    · rw [List.map_cons, List.mem_cons, ih, List.map_cons, List.mem_cons, or_assoc]

theorem Ok.add {s : DiagSet} (h : Ok s) (uri : CStr) (d : Diagnostic) : Ok (diagSetAdd s uri d) := by
  induction s with
  | nil => exact ⟨List.nodup_singleton _, fun f hf => by rw [List.mem_singleton.mp hf]; simp⟩
  | cons f s ih =>
    have hs : Ok s := ⟨(List.nodup_cons.mp h.nodup).2, fun g hg => h.nonempty g (.tail _ hg)⟩
    have hf := (List.nodup_cons.mp h.nodup).1
    rw [diagSetAdd]
    split
    · refine ⟨h.nodup, fun g hg => ?_⟩
      rcases List.mem_cons.mp hg with rfl | hg
      · simp
      · exact hs.nonempty g hg
    · rename_i hne
      refine ⟨List.nodup_cons.mpr ⟨?_, (ih hs).nodup⟩, fun g hg => ?_⟩
      · rw [mem_uris_diagSetAdd]
        exact fun hor => hor.elim hf hne
      · rcases List.mem_cons.mp hg with rfl | hg
        · exact h.nonempty g (.head _)
        · exact (ih hs).nonempty g hg

/-- A set whose files all satisfy `P` by their URI. -/
def About (P : CStr → Prop) (s : DiagSet) : Prop := ∀ u ∈ s.map DiagFile.uri, P u

theorem About.add {P : CStr → Prop} {s : DiagSet} (h : About P s) {uri : CStr} (hu : P uri)
    (d : Diagnostic) : About P (diagSetAdd s uri d) := by
  intro u hmem
  rcases mem_uris_diagSetAdd.mp hmem with hm | rfl
  · exact h u hm
  · exact hu

end DiagSet

/-! ### What a client shows -/

/-- What the client shows for a URI: what the last message for it carried. -/
def markers (sent : List Publication) (uri : CStr) : List Diagnostic :=
  sent.foldl (fun shown m => if m.uri = uri then m.diagnostics else shown) []

section Markers

variable {sent : List Publication} {uri : CStr}

theorem markers_concat (sent : List Publication) (m : Publication) (uri : CStr) :
    markers (sent ++ [m]) uri = if m.uri = uri then m.diagnostics else markers sent uri := by
  rw [markers, List.foldl_append]
  rfl

theorem markers_append_of_ne {l : List Publication} (h : ∀ m ∈ l, m.uri ≠ uri) :
    markers (sent ++ l) uri = markers sent uri := by
  induction l using List.reverseRecOn with
  | nil => rw [List.append_nil]
  | append_singleton l m ih =>
    rw [← List.append_assoc, markers_concat, if_neg (h m (by simp))]
    exact ih fun m' hm' => h m' (List.mem_append_left _ hm')

/-- Messages that agree about the URI, one of which is for it. -/
theorem markers_append_of_mem {l : List Publication} {ds : List Diagnostic}
    (hall : ∀ m ∈ l, m.uri = uri → m.diagnostics = ds) (hex : ∃ m ∈ l, m.uri = uri) :
    markers (sent ++ l) uri = ds := by
  induction l using List.reverseRecOn with
  | nil =>
    obtain ⟨m, hm, -⟩ := hex
    cases hm
  | append_singleton l m ih =>
    rw [← List.append_assoc, markers_concat]
    by_cases hu : m.uri = uri
    · rw [if_pos hu]
      exact hall m (by simp) hu
    · rw [if_neg hu]
      refine ih (fun m' hm' => hall m' (List.mem_append_left _ hm')) ?_
      obtain ⟨m', hm', hu'⟩ := hex
      rcases List.mem_append.mp hm' with hl | hr
      · exact ⟨m', hl, hu'⟩
      · rw [List.mem_singleton.mp hr] at hu'
        exact absurd hu' hu

theorem mem_diagSetPublish {current previous : DiagSet} {m : Publication} :
    m ∈ diagSetPublish current previous ↔
      (∃ f ∈ current, m = ⟨f.uri, f.items⟩) ∨
        ((∃ f ∈ previous, m = ⟨f.uri, []⟩) ∧ m.uri ∉ current.map DiagFile.uri) := by
  have hhas : ∀ u, (!diagSetHas current u) = true ↔ u ∉ current.map DiagFile.uri := by
    intro u
    simp [diagSetHas]
  simp only [diagSetPublish, List.mem_append, List.mem_map, List.mem_filter, hhas, eq_comm (b := m)]
  refine or_congr Iff.rfl ⟨?_, ?_⟩
  · rintro ⟨f, ⟨hf, hu⟩, rfl⟩
    exact ⟨⟨f, hf, rfl⟩, by simpa using hu⟩
  · rintro ⟨⟨f, hf, rfl⟩, hu⟩
    exact ⟨f, ⟨hf, by simpa using hu⟩, rfl⟩

theorem DiagSet.Ok.items_eq {s : DiagSet} (h : s.Ok) {f : DiagFile} (hf : f ∈ s) :
    s.items f.uri = f.items := by
  have hex : ∃ g, s.find? (fun g => g.uri = f.uri) = some g := by
    rw [← Option.isSome_iff_exists, List.find?_isSome]
    exact ⟨f, hf, by simp⟩
  obtain ⟨g, hg⟩ := hex
  have hu : g.uri = f.uri := by simpa using List.find?_some hg
  have hgf : g = f := List.inj_on_of_nodup_map h.nodup (List.mem_of_find?_eq_some hg) hf hu
  rw [DiagSet.items, hg, hgf]
  rfl

theorem DiagSet.items_of_notMem {s : DiagSet} (h : uri ∉ s.map DiagFile.uri) : s.items uri = [] := by
  have hnone : s.find? (fun g => g.uri = uri) = none := by
    rw [List.find?_eq_none]
    intro g hg hu
    exact h (List.mem_map.mpr ⟨g, hg, by simpa using hu⟩)
  rw [DiagSet.items, hnone]
  rfl

theorem DiagSet.Ok.items_ne_nil {s : DiagSet} (h : s.Ok) :
    s.items uri ≠ [] ↔ uri ∈ s.map DiagFile.uri := by
  constructor
  · intro hne
    by_contra hmem
    exact hne (items_of_notMem hmem)
  · intro hmem
    obtain ⟨f, hf, rfl⟩ := List.mem_map.mp hmem
    rw [h.items_eq hf]
    exact h.nonempty f hf

/-- **After a publication the client shows the set**, if it showed nothing but what the set
before had. -/
theorem markers_publish {current previous : DiagSet} (hc : current.Ok)
    (hp : markers sent uri ≠ [] → uri ∈ previous.map DiagFile.uri) :
    markers (sent ++ diagSetPublish current previous) uri = current.items uri := by
  by_cases hu : uri ∈ current.map DiagFile.uri
  · obtain ⟨f, hf, rfl⟩ := List.mem_map.mp hu
    rw [hc.items_eq hf]
    refine markers_append_of_mem (fun m hm hmu => ?_) ⟨_, mem_diagSetPublish.mpr (Or.inl ⟨f, hf, rfl⟩), rfl⟩
    rcases mem_diagSetPublish.mp hm with ⟨g, hg, rfl⟩ | ⟨-, hn⟩
    · rw [← hc.items_eq hg, ← hc.items_eq hf]
      exact congrArg current.items hmu
    · exact absurd (hmu ▸ hu) hn
  · rw [DiagSet.items_of_notMem hu]
    by_cases hpm : uri ∈ previous.map DiagFile.uri
    · obtain ⟨g, hg, rfl⟩ := List.mem_map.mp hpm
      refine markers_append_of_mem (fun m hm hmu => ?_)
        ⟨⟨g.uri, []⟩, mem_diagSetPublish.mpr (Or.inr ⟨⟨g, hg, rfl⟩, hu⟩), rfl⟩
      rcases mem_diagSetPublish.mp hm with ⟨f, hf, rfl⟩ | ⟨⟨f, -, rfl⟩, -⟩
      · exact absurd (hmu ▸ List.mem_map_of_mem hf) hu
      · rfl
    · have hshown : markers sent uri = [] := by
        by_contra hne
        exact hpm (hp hne)
      rw [← hshown]
      refine markers_append_of_ne fun m hm hmu => ?_
      rcases mem_diagSetPublish.mp hm with ⟨f, hf, rfl⟩ | ⟨⟨f, hf, rfl⟩, -⟩
      · exact hu (hmu ▸ List.mem_map_of_mem hf)
      · exact hpm (hmu ▸ List.mem_map_of_mem hf)

end Markers

end TaskjugglerLsp
