import TaskjugglerLsp.Diagnostics

/-!
# Running tj3

`tj3.c`.  The files of a project are staged under one directory, tj3 is run on
the root among them, and the lines that it reports become diagnostics of the
files.  tj3 itself and the directory are outside the program (`Tj3Env`).
Whatever tj3 prints, the diagnostics are about members of the project
(`okFor_tj3CollectProject`).
-/

namespace TaskjugglerLsp

/-- One member document of a project. -/
structure Member where
  path : CStr
  uri : CStr
  text : Option CStr
  deriving DecidableEq, Repr

/-- `collect_project_members`: a URI without a path is skipped. -/
def collectProjectMembers (ws : WorkspaceSnapshot) (pindex : ℕ) : List Member :=
  ws.docs.filterMap fun wd =>
    if wd.projectIndex = some pindex then
      (uriToPath wd.snap.uri).map fun path => ⟨path, wd.snap.uri, wd.snap.text⟩
    else none

/-- The root document that `tj3_collect_project` looks for among the members. -/
def rootMember (ws : WorkspaceSnapshot) (pindex : ℕ) : Option Member := do
  let proj ← ws.projects[pindex]?
  (collectProjectMembers ws pindex).find? (·.uri = proj.id)

/-! ### Staging -/

/-- How many bytes two strings agree on. -/
def commonLen : CStr → CStr → ℕ
  | a :: as, b :: bs => if a = b then commonLen as bs + 1 else 0
  | _, _ => 0

/-- `common_dir_len`. -/
def commonDirLen : List CStr → ℕ
  | [] => 0
  | path :: paths =>
    let len := paths.foldl (fun len p => commonLen (path.take len) p) path.length
    ((path.take len).reverse.dropWhile (· != 47)).length

/-- What follows the last separator of a path, or all of it. -/
def baseName (path : CStr) : CStr := (path.reverse.takeWhile (· != 47)).reverse

/-- `assign_member_relpaths`. -/
def assignMemberRelpaths (members : List Member) : List (Member × CStr) :=
  let commonLen := commonDirLen (members.map (·.path))
  members.map fun m =>
    let rel := m.path.drop commonLen
    (m, if rel = [] then baseName m.path else rel)

/-- `stage_members_to_tmpdir`: the files that it writes, by their path in the directory. -/
def stageMembers (members : List (Member × CStr)) : List (CStr × CStr) :=
  members.map fun m => (m.2, m.1.text.getD [])

/-! ### Reading what tj3 reports -/

/-- Skip any number of `./`. -/
def skipDotSlash : CStr → CStr
  | 46 :: 47 :: p => skipDotSlash p
  | p => p

/-- The path below a directory, if it is below it. -/
def belowDir (dir path : CStr) : Option CStr :=
  if path.take dir.length = dir ∧ path[dir.length]? = some 47 then some (path.drop (dir.length + 1))
  else none

/-- `map_reported_path`. -/
def mapReportedPath (path tmpdir : CStr) (realTmp : Option CStr)
    (members : List (Member × CStr)) : Option CStr :=
  let p := skipDotSlash path
  let p :=
    if p.head? = some 47 then
      ((belowDir tmpdir p).or (realTmp.bind fun dir => belowDir dir p)).getD p
    else p
  let p := skipDotSlash p
  (members.find? (·.2 = p)).map (·.1.uri)

/-- What stands before and after the first occurrence of a marker. -/
def splitAtMarker (marker : CStr) : CStr → Option (CStr × CStr)
  | [] => none
  | c :: s =>
    if marker.isPrefixOf (c :: s) then some ([], (c :: s).drop marker.length)
    else (splitAtMarker marker s).map fun p => (c :: p.1, p.2)

/-- What stands before and after the last colon. -/
def splitLastColon (s : CStr) : Option (CStr × CStr) :=
  if 58 ∈ s then
    some ((s.reverse.dropWhile (· != 58)).tail.reverse, (s.reverse.takeWhile (· != 58)).reverse)
  else none

/-- The number that a string of digits stands for; one that overflows an `int` is not modelled. -/
def lineNumber (digits : CStr) : Option ℕ :=
  if digits ≠ [] ∧ digits.all (fun c => 48 ≤ c ∧ c ≤ 57) then
    some (digits.foldl (fun n c => n * 10 + (c.toNat - 48)) 0)
  else none

/-- `parse_diagnostic_line`. -/
def parseDiagnosticLine (tmpdir : CStr) (realTmp : Option CStr) (members : List (Member × CStr))
    (out : DiagSet) (line : CStr) : DiagSet :=
  let found :=
    ((splitAtMarker (cstr ": Error: ") line).map fun p => (Severity.error, p)).or
      ((splitAtMarker (cstr ": Warning: ") line).map fun p => (Severity.warning, p))
  match found with
  | none => out
  | some (severity, location, message) =>
    match splitLastColon location with
    | none => out
    | some (path, digits) =>
      match lineNumber digits, mapReportedPath path tmpdir realTmp members with
      | some lineno, some uri =>
        let l := UInt32.ofNat (lineno - 1)
        diagSetAdd out uri ⟨⟨⟨l, 0⟩, ⟨l, intMax⟩⟩, severity, cstr "tj3", message⟩
      | _, _ => out

/-- `parse_diagnostics`. -/
def parseDiagnostics (stderrBuf : Option CStr) (tmpdir : CStr) (realTmp : Option CStr)
    (members : List (Member × CStr)) (out : DiagSet) : DiagSet :=
  match stderrBuf with
  | none => out
  | some buf =>
    (((cutNul buf).splitOn 10).filter (· ≠ [])).foldl (parseDiagnosticLine tmpdir realTmp members) out

/-! ### A run -/

/-- `tj3_mode`. -/
inductive Tj3Mode where
  | full
  | syntaxOnly
  deriving DecidableEq, Repr

/-- What a run of tj3 depends on outside the program: whether tj3 is on the path, whether it can
be confined, the staging directory, and what tj3 prints when it is given arguments, confined or
not, over the staged files. -/
structure Tj3Env where
  available : Bool
  sandbox : Bool
  tmpdir : Option CStr
  realTmp : Option CStr
  run : List CStr → Bool → List (CStr × CStr) → Option CStr

/-- The arguments of tj3, and whether it is confined. -/
def Tj3Mode.invocation (mode : Tj3Mode) (sandbox : Bool) (rootRel : CStr) : List CStr × Bool :=
  match mode with
  | syntaxOnly => ([cstr "tj3", cstr "--check-syntax", rootRel], false)
  | full =>
    if sandbox then ([cstr "tj3", rootRel], true)
    else ([cstr "tj3", cstr "--no-reports", rootRel], false)

/-- `tj3_collect_project`, for the project with an index. -/
def tj3CollectProject (env : Tj3Env) (ws : WorkspaceSnapshot) (pindex : ℕ) (mode : Tj3Mode)
    (out : DiagSet) : DiagSet :=
  if !env.available then out
  else
    let members := assignMemberRelpaths (collectProjectMembers ws pindex)
    match ws.projects[pindex]? with
    | none => out
    | some proj =>
      match members.find? (·.1.uri = proj.id), env.tmpdir with
      | some root, some tmpdir =>
        let (argv, confine) := mode.invocation env.sandbox root.2
        parseDiagnostics (env.run argv confine (stageMembers members)) tmpdir env.realTmp members out
      | _, _ => out

/-! ### What the diagnostics are about -/

/-- The URI is one of a document of the project. -/
def WorkspaceSnapshot.Owns (ws : WorkspaceSnapshot) (pindex : ℕ) (uri : CStr) : Prop :=
  ∃ wd ∈ ws.docs, wd.projectIndex = some pindex ∧ wd.snap.uri = uri

section About

variable {ws : WorkspaceSnapshot} {pindex : ℕ} {out : DiagSet}

/-- A set is well formed and about documents of the project. -/
def DiagSet.OkFor (ws : WorkspaceSnapshot) (pindex : ℕ) (s : DiagSet) : Prop :=
  s.Ok ∧ s.About (ws.Owns pindex)

theorem DiagSet.OkFor.add {s : DiagSet} (h : s.OkFor ws pindex) {uri : CStr}
    (hu : ws.Owns pindex uri) (d : Diagnostic) : (diagSetAdd s uri d).OkFor ws pindex :=
  ⟨h.1.add uri d, h.2.add hu d⟩

theorem mapReportedPath_mem {path tmpdir uri : CStr} {realTmp : Option CStr}
    {members : List (Member × CStr)}
    (h : mapReportedPath path tmpdir realTmp members = some uri) : ∃ m ∈ members, m.1.uri = uri := by
  obtain ⟨m, hm, rfl⟩ := Option.map_eq_some_iff.mp h
  exact ⟨m, List.mem_of_find?_eq_some hm, rfl⟩

theorem owns_of_mem_members {m : Member × CStr}
    (h : m ∈ assignMemberRelpaths (collectProjectMembers ws pindex)) : ws.Owns pindex m.1.uri := by
  obtain ⟨m', hm', rfl⟩ := List.mem_map.mp h
  obtain ⟨wd, hwd, hsome⟩ := List.mem_filterMap.mp hm'
  split at hsome
  · rename_i hp
    obtain ⟨path, -, rfl⟩ := Option.map_eq_some_iff.mp hsome
    exact ⟨wd, hwd, hp, rfl⟩
  · cases hsome

theorem okFor_parseDiagnosticLine {tmpdir : CStr} {realTmp : Option CStr}
    {members : List (Member × CStr)} (hm : ∀ m ∈ members, ws.Owns pindex m.1.uri)
    (h : out.OkFor ws pindex) (line : CStr) :
    (parseDiagnosticLine tmpdir realTmp members out line).OkFor ws pindex := by
  unfold parseDiagnosticLine
  simp only
  split
  · exact h
  · split
    · exact h
    · split
      · rename_i uri _ huri
        obtain ⟨m, hmem, rfl⟩ := mapReportedPath_mem huri
        exact h.add (hm m hmem) _
      · exact h

/-- Whatever tj3 prints, it is about members of the project. -/
theorem okFor_tj3CollectProject (env : Tj3Env) (mode : Tj3Mode) (h : out.OkFor ws pindex) :
    (tj3CollectProject env ws pindex mode out).OkFor ws pindex := by
  unfold tj3CollectProject
  simp only
  split
  · exact h
  · split
    · exact h
    · split
      · unfold parseDiagnostics
        split
        · exact h
        · exact List.foldlRecOn _ _ h fun out hout line _ =>
            okFor_parseDiagnosticLine (fun m hm => owns_of_mem_members hm) hout line
      · exact h

theorem okFor_collectDocCcWarnings {wd : WsDoc} (hu : ws.Owns pindex wd.snap.uri) (status : CcStatus)
    (h : out.OkFor ws pindex) : (collectDocCcWarnings wd.snap status out).OkFor ws pindex := by
  unfold collectDocCcWarnings
  split
  · exact h.add hu _
  · exact List.foldlRecOn _ _ h fun out hout t _ => hout.add hu _

theorem okFor_diagCollectCcMissing (h : out.OkFor ws pindex) :
    (diagCollectCcMissing ws pindex out).OkFor ws pindex := by
  unfold diagCollectCcMissing
  split
  · exact h
  · refine List.foldlRecOn _ _ h fun out hout wd hwd => ?_
    rw [List.mem_filter, Bool.and_eq_true, decide_eq_true_eq] at hwd
    exact okFor_collectDocCcWarnings ⟨wd, hwd.1, hwd.2.1, rfl⟩ _ hout

end About

end TaskjugglerLsp
