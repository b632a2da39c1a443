import TaskjugglerLsp.CompileCommands
import TaskjugglerLsp.DocumentStore
import TaskjugglerLsp.Lib.Worklist
import TaskjugglerLsp.ProjectTree

/-!
# Loading the workspace and publishing snapshots

`workspace.c`.  Loading a file and following its includes call each other; each
load takes a free slot before it goes on, so the recursion is on a bound for the
number of free slots (`loadFileFromDisk_eq` is the equation of the source).

`buildWorkspaceSnapshot` is `none` only where the search of the include graph
runs out of pops, and it never does (`build_eq`).
-/

namespace TaskjugglerLsp

open Lib

/-! ### Loading files -/

/-- The directory part of a path, without the last separator. -/
def directoryOf (path : CStr) : Option CStr :=
  if 47 ∈ path then some (path.reverse.dropWhile (· != 47)).tail.reverse else none

/-- `resolve_include_path`. -/
def resolveIncludePath (includerPath filename : CStr) : CStr :=
  if filename.head? = some 47 then filename
  else
    match directoryOf includerPath with
    | none => filename
    | some dir => dir ++ 47 :: filename

section Loading

variable (w : World) (parse : CStr → ParseOutput)

/-- One include directive: load the file, hand it the prefixes, record its URI. -/
def followInclude (load : CStr → Store → Store) (filePath : CStr) (includer : Option Slot)
    (s : Store) (inc : IncludeRef) : Store :=
  let fullPath := resolveIncludePath filePath inc.filename
  let s := load fullPath s
  let targetUri := pathToUri fullPath
  let s := s.modifyFound (docFind w.realpath s targetUri) fun d => { d with prefixes := inc.prefixes }
  s.modifyFound includer fun d => { d with includedUris := d.includedUris ++ [targetUri] }

/-- `follow_includes`. -/
def followIncludes (load : CStr → Store → Store) (filePath : CStr) (po : ParseOutput) (s : Store) :
    Store :=
  let includer := docFind w.realpath s (pathToUri filePath)
  let s := s.modifyFound includer fun d => { d with includedUris := [] }
  po.includes.foldl (followInclude w load filePath includer) s

/-- Parse the text of a slot, follow its includes, and install the parse.  A URI
without a path has no includes to follow. -/
def parseInto (load : CStr → Store → Store) (s : Store) (i : Slot) (text : CStr)
    (path : Option CStr) : Store :=
  let po := parse text
  let s :=
    match path with
    | some path => followIncludes w load path po s
    | none => s
  s.modify i fun d => d.installParse po

/-- `install_disk_text`, which is also the second half of `load_file_from_disk`. -/
def installDiskText (load : CStr → Store → Store) (s : Store) (i : Slot) (text path : CStr) :
    Store :=
  parseInto w parse load (s.modify i fun d => { d with text := some text, diskOnly := true })
    i text (some path)

/-- `load_file_from_disk`, in a store with at most `n` free slots. -/
def loadFile : ℕ → CStr → Store → Store
  | 0, _, s => s
  | n + 1, path, s =>
    let uri := pathToUri path
    if (docFind w.realpath s uri).isSome then s
    else
      match w.readFile path with
      | none => s
      | some text =>
        match docAlloc w.realpath s uri with
        | none => s
        | some (i, s) => installDiskText w parse (loadFile n) s i text path

/-- `load_file_from_disk`. -/
def loadFileFromDisk (path : CStr) (s : Store) : Store := loadFile w parse s.freeCount path s

end Loading

/-! ### The state of the server -/

/-- The degradation status of compile_commands.json. -/
inductive CcStatus where
  | ok
  | missing
  | malformed
  deriving DecidableEq, Repr

/-- The workspace root and the compile_commands.json cache. -/
structure CcCache where
  workspaceRoot : Option CStr
  ccPath : Option CStr
  mtimeSec : ℤ
  mtimeNsec : ℤ
  size : ℤ
  attempted : Bool
  status : CcStatus

/-- One document's place in a workspace snapshot. -/
structure WsDoc where
  snap : DocSnapshot
  prefixes : PrefixSet
  projectIndex : Option ℕ
  diskOnly : Bool

/-- One assembled project. -/
structure WsProject where
  id : CStr
  root : ProjectNode
  fromCompileCommands : Bool

/-- The immutable view of the workspace that queries read. -/
structure WorkspaceSnapshot where
  docs : List WsDoc
  projects : List WsProject
  ccStatus : CcStatus

/-- Everything that notifications change. -/
structure ServerState where
  docs : Store
  cc : CcCache
  ws : Option WorkspaceSnapshot

/-- The state before the first message. -/
def initialState : ServerState :=
  ⟨emptyStore, ⟨none, none, 0, 0, 0, false, .ok⟩, none⟩

/-! ### compile_commands.json -/

/-- `workspace_set_root_from_uri`. -/
def workspaceSetRootFromUri (rootUri : Option CStr) (cc : CcCache) : CcCache :=
  let root := cc.workspaceRoot.or (rootUri.bind uriToPath)
  { cc with
    workspaceRoot := root
    ccPath := cc.ccPath.or (root.map fun root => pathJoin root (cstr "compile_commands.json")) }

section Reload

variable (w : World) (parse : CStr → ParseOutput)

/-- One round of `load_compile_entries`. -/
def loadCompileEntry (s : Store) (fileAbs : CStr) : Store :=
  let s := loadFileFromDisk w parse fileAbs s
  s.modifyFound (docFind w.realpath s (pathToUri fileAbs)) fun d => { d with isCcRoot := true }

/-- `load_compile_entries`. -/
def loadCompileEntries (s : Store) (entries : List CStr) : Store :=
  entries.foldl (loadCompileEntry w parse) s

/-- The cache entry that `reload_compile_commands` makes of a `stat`. -/
def CcCache.remember (cc : CcCache) : Option FileStat → CcCache
  | some st => { cc with mtimeSec := st.mtimeSec, mtimeNsec := st.mtimeNsec, size := st.size }
  | none => { cc with mtimeSec := 0, mtimeNsec := 0, size := 0 }

/-- `reload_compile_commands`. -/
def reloadCompileCommands (st : ServerState) : ServerState :=
  match st.cc.ccPath with
  | none => { st with cc := { st.cc with attempted := true, status := .missing } }
  | some ccPath =>
    let cc := { st.cc.remember (w.stat ccPath) with attempted := true }
    match compileCommandsLoad w st.cc.workspaceRoot with
    | .ok entries =>
      { st with docs := loadCompileEntries w parse st.docs entries, cc := { cc with status := .ok } }
    | .notFound => { st with cc := { cc with status := .missing } }
    | .parseError => { st with cc := { cc with status := .malformed } }
    | .schemaError => { st with cc := { cc with status := .malformed } }
    | .noRoot => { st with cc := { cc with status := .ok } }

/-- `maybe_reload_compile_commands`. -/
def maybeReloadCompileCommands (st : ServerState) : ServerState :=
  match st.cc.ccPath with
  | none => st
  | some ccPath =>
    match w.stat ccPath with
    | none => { st with cc := { st.cc with mtimeSec := 0, mtimeNsec := 0, size := 0 } }
    | some file =>
      if file ≠ ⟨st.cc.mtimeSec, st.cc.mtimeNsec, st.cc.size⟩ ∨ st.cc.attempted = false then
        reloadCompileCommands w parse st
      else st

end Reload

/-! ### Building a snapshot -/

section Build

variable (realpath : CStr → Option CStr) (s : Store)

/-- The slot holds a document with a parse. -/
def Store.parsed (i : Slot) : Bool := (s i).any (·.snap.isSome)

/-- The slots that get a place in the snapshot, in order. -/
def parsedSlots : List Slot := (List.finRange maxDocs).filter s.parsed

/-- `slot_to_wsdoc`. -/
def slotToWsdoc (i : Slot) : Option ℕ :=
  if s.parsed i then some ((parsedSlots s).idxOf i) else none

/-- The loop body of `copy_document_into_project`: one top-level declaration. -/
def copyDeclaration (d : Document) (proot : ProjectNode) (child : TjNode) : ProjectNode :=
  match (nodeKindOf child.keyword).prefixKind with
  | none => proot
  | some k =>
    match findNodeByDottedPath proot (d.prefixes k) (nodeKindOf child.keyword) with
    | none => proot
    | some target => proot.appendChild target (projectNodeFromTj d.uri child)

/-- The declarations of a document, folded into a tree. -/
def copyDeclarations (d : Document) (proot : ProjectNode) : ProjectNode :=
  match d.snap with
  | none => proot
  | some snap => snap.root.children.foldl (copyDeclaration d) proot

/-- `copy_document_into_project`. -/
def copyDocumentIntoProject (ws : WorkspaceSnapshot) (pidx : ℕ) (d : Document) :
    WorkspaceSnapshot :=
  { ws with
    projects := ws.projects.modify pidx fun p => { p with root := copyDeclarations d p.root } }

/-- Stamp a document with a project, unless an earlier one has claimed it. -/
def WsDoc.claim (pidx : ℕ) (w : WsDoc) : WsDoc :=
  if w.projectIndex.isNone then { w with projectIndex := some pidx } else w

/-- `assign_doc_to_project`. -/
def assignDocToProject (pidx : ℕ) (i : Slot) (ws : WorkspaceSnapshot) : WorkspaceSnapshot :=
  match s i with
  | none => ws
  | some d =>
    let ws := copyDocumentIntoProject ws pidx d
    match slotToWsdoc s i with
    | none => ws
    | some wsd => { ws with docs := ws.docs.modify wsd (WsDoc.claim pidx) }

/-- The parsed documents that a document includes. -/
def includedDocs (i : Slot) : List Slot :=
  match s i with
  | none => []
  | some d => d.includedUris.filterMap fun uri =>
    (docFind realpath s uri).filter fun child => s.parsed child

/-- `project_populate_from_root`. -/
def projectPopulateFromRoot (pidx : ℕ) (root : Slot) (ws : WorkspaceSnapshot) :
    Option WorkspaceSnapshot :=
  Worklist.run (includedDocs realpath s) (assignDocToProject s pidx) maxDocs [root] [root]
    (assignDocToProject s pidx root ws)

/-- `ws_add_project`; the index of the new project is the old length. -/
def wsAddProject (ws : WorkspaceSnapshot) (id : CStr) (fromCompileCommands : Bool) :
    WorkspaceSnapshot :=
  { ws with projects := ws.projects ++ [⟨id, .empty, fromCompileCommands⟩] }

/-- A round of pass 1: the slot may be a compile_commands root. -/
def addRootProject (ws : WorkspaceSnapshot) (i : Slot) : Option WorkspaceSnapshot :=
  match s i with
  | none => some ws
  | some d =>
    if d.isCcRoot && d.snap.isSome then
      projectPopulateFromRoot realpath s ws.projects.length i (wsAddProject ws d.uri true)
    else some ws

/-- A round of pass 2: the slot may be unclaimed. -/
def addOrphanProject (ws : WorkspaceSnapshot) (i : Slot) : WorkspaceSnapshot :=
  match s i, slotToWsdoc s i with
  | some d, some wsd =>
    if (ws.docs[wsd]?).any (·.projectIndex.isNone) then
      let pidx := ws.projects.length
      let ws := copyDocumentIntoProject (wsAddProject ws d.uri false) pidx d
      { ws with docs := ws.docs.modify wsd fun w => { w with projectIndex := some pidx } }
    else ws
  | _, _ => ws

/-- `populate_ws_doc`. -/
def populateWsDoc (i : Slot) : Option WsDoc := do
  let d ← s i
  let snap ← d.snap
  some ⟨snap, d.prefixes, none, d.diskOnly⟩

/-- `build_workspace_snapshot`. -/
def buildWorkspaceSnapshot (status : CcStatus) : Option WorkspaceSnapshot := do
  let ws := ⟨(parsedSlots s).filterMap (populateWsDoc s), [], status⟩
  let ws ← (List.finRange maxDocs).foldlM (addRootProject realpath s) ws
  some ((List.finRange maxDocs).foldl (addOrphanProject s) ws)

end Build

/-! ### Revalidation -/

section Revalidate

variable (w : World) (parse : CStr → ParseOutput)

/-- `publish_workspace_snapshot`. -/
def publishWorkspaceSnapshot (st : ServerState) : ServerState :=
  { st with ws := buildWorkspaceSnapshot w.realpath st.docs st.cc.status }

/-- `revalidate_all_docs`. -/
def revalidateAllDocs (st : ServerState) : ServerState :=
  publishWorkspaceSnapshot w (maybeReloadCompileCommands w parse st)

end Revalidate

end TaskjugglerLsp
