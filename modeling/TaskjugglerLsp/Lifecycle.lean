import TaskjugglerLsp.Workspace

/-!
# The notification handlers

`lifecycle.c`.  A handler takes the `params` of its message, which may be
missing, and the state; the messages that it sends on the way (watcher
registration, cleared diagnostics) are left out.
-/

namespace TaskjugglerLsp

/-! ### Content changes -/

/-- The two scanning loops of `apply_incremental_change`: how many bytes of `src`
precede the position, where the first byte stands at `cur`. -/
def scanTo (goal : LspPos) : CStr → LspPos → ℕ
  | [], _ => 0
  | c :: src, cur =>
    if cur = goal then 0
    else scanTo goal src (if c = 10 then ⟨cur.line + 1, 0⟩ else ⟨cur.line, cur.character + 1⟩) + 1

/-- `apply_incremental_change`.  The second scan starts where the first stopped,
and counts from the start position of the range wherever that is. -/
def applyIncrementalChange (src : CStr) (range : LspRange) (newText : CStr) : CStr :=
  let startByte := scanTo range.start src ⟨0, 0⟩
  let endByte := startByte + scanTo range.stop (src.drop startByte) range.start
  src.take startByte ++ newText ++ src.drop endByte

/-- One round of `apply_content_changes`. -/
def applyContentChange (base : CStr) (change : Json) : Option CStr := do
  let newText ← Json.strField (some change) "text"
  match Json.objGet (some change) "range" with
  | some range =>
    some (applyIncrementalChange base
      ⟨Json.toPos (Json.objGet (some range) "start"), Json.toPos (Json.objGet (some range) "end")⟩
      newText)
  | none => some newText

/-- `apply_content_changes`: nothing is applied when one of the changes is unusable. -/
def applyContentChanges (base : CStr) (changes : List Json) : Option CStr :=
  if changes.isEmpty then none else changes.foldlM applyContentChange base

section Handlers

variable (w : World) (parse : CStr → ParseOutput)

/-! ### What a notification does to the store

Each of these returns the store and whether it has changed, which is whether the
handler goes on to revalidate. -/

/-- `handle_didopen` on a URI and a text. -/
def openDocument (s : Store) (uri text : CStr) : Store × Bool :=
  let install := fun (i : Slot) (s : Store) =>
    let s := s.modify i fun d => { d with diskOnly := false, text := some text }
    (parseInto w parse (loadFileFromDisk w parse) s i text (uriToPath uri), true)
  match docFind w.realpath s uri with
  | some i =>
    -- an open of an open document is a client error
    if (s i).any (!·.diskOnly) then (s, false)
    else if (s i).any (·.text = some text) then
      (s.modify i fun d => { d with diskOnly := false }, true)
    else install i (s.modify i Document.clearParseState)
  | none =>
    match docAlloc w.realpath s uri with
    | none => (s, false)
    | some (i, s) => install i s

/-- `handle_didchange` on a URI and its changes. -/
def changeDocument (s : Store) (uri : CStr) (changes : List Json) : Store × Bool :=
  match docFind w.realpath s uri with
  | none => (s, false)
  | some i =>
    match applyContentChanges (((s i).bind (·.text)).getD []) changes with
    | none => (s, false)
    | some current =>
      let s := s.modify i fun d => { d with text := some current }
      (parseInto w parse (loadFileFromDisk w parse) s i current (uriToPath uri), true)

/-- The path that a URI names and the text there, if both exist. -/
def readUri (uri : CStr) : Option (CStr × CStr) := do
  let path ← uriToPath uri
  let text ← w.readFile path
  some (path, text)

/-- `handle_didclose` on a URI. -/
def closeDocument (s : Store) (uri : CStr) : Store × Bool :=
  match docFind w.realpath s uri with
  | none => (s, false)
  | some i =>
    match readUri w uri with
    | some (path, text) =>
      (installDiskText w parse (loadFileFromDisk w parse) s i text path, true)
    | none => (docFree s i, true)

/-- Load a file into the slot of its URI, or into a new one. -/
def loadUri (s : Store) (uri : CStr) : Store × Bool :=
  match readUri w uri with
  | none => (s, false)
  | some (path, text) =>
    match docFind w.realpath s uri with
    | some i => (installDiskText w parse (loadFileFromDisk w parse) s i text path, true)
    | none =>
      match docAlloc w.realpath s uri with
      | none => (s, false)
      | some (i, s) => (installDiskText w parse (loadFileFromDisk w parse) s i text path, true)

/-- `forget_watched_file`. -/
def forgetWatchedFile (s : Store) (uri : CStr) : Store × Bool :=
  match docFind w.realpath s uri with
  | none => (s, false)
  | some i => if (s i).any (·.diskOnly) then (docFree s i, true) else (s, false)

/-- `admit_watched_file`. -/
def admitWatchedFile (s : Store) (uri : CStr) : Store × Bool :=
  if (docFind w.realpath s uri).any fun i => (s i).any (!·.diskOnly) then (s, false)
  else loadUri w parse s uri

/-- The first half of a round of `handle_did_rename_files`: free the old name. -/
def renameFrom (s : Store) (oldUri : CStr) : Store × Bool :=
  match docFind w.realpath s oldUri with
  | some i => (docFree s i, true)
  | none => (s, false)

/-- The second half: load the new name. -/
def renameTo (s : Store) (newUri : CStr) : Store × Bool := loadUri w parse s newUri

/-! ### The notifications -/

/-- A change of the store that a notification asks for. -/
inductive Action where
  | opened (uri text : CStr)
  | changed (uri : CStr) (changes : List Json)
  | closed (uri : CStr)
  | fileDeleted (uri : CStr)
  | fileTouched (uri : CStr)
  | renamedFrom (uri : CStr)
  | renamedTo (uri : CStr)

/-- Carry out one action. -/
def Action.apply (s : Store) : Action → Store × Bool
  | opened uri text => openDocument w parse s uri text
  | changed uri changes => changeDocument w parse s uri changes
  | closed uri => closeDocument w parse s uri
  | fileDeleted uri => forgetWatchedFile w s uri
  | fileTouched uri => admitWatchedFile w parse s uri
  | renamedFrom uri => renameFrom w s uri
  | renamedTo uri => renameTo w parse s uri

/-- Carry out the actions of a notification; `changed |= …`. -/
def applyActions (s : Store) (actions : List Action) : Store × Bool :=
  actions.foldl (fun acc a => ((a.apply w parse acc.1).1, acc.2 || (a.apply w parse acc.1).2))
    (s, false)

/-- The end of every handler: revalidate if the store has changed. -/
def handleActions (actions : List Action) (st : ServerState) : ServerState :=
  let (s, changed) := applyActions w parse st.docs actions
  let st := { st with docs := s }
  if changed then revalidateAllDocs w parse st else st

/-- What `handle_didopen` reads of its parameters. -/
def didopenActions (params : Option Json) : List Action :=
  let tdi := Json.objGet params "textDocument"
  match Json.strField tdi "uri", Json.strField tdi "text" with
  | some uri, some text => [.opened uri text]
  | _, _ => []

/-- What `handle_didchange` reads of its parameters. -/
def didchangeActions (params : Option Json) : List Action :=
  match Json.strField (Json.objGet params "textDocument") "uri",
    Json.getArr (Json.objGet params "contentChanges") with
  | some uri, some changes => [.changed uri changes]
  | _, _ => []

/-- What `handle_didclose` reads of its parameters. -/
def didcloseActions (params : Option Json) : List Action :=
  match Json.strField (Json.objGet params "textDocument") "uri" with
  | some uri => [.closed uri]
  | none => []

/-- One event of `handle_did_change_watched_files`; type 3 is a deletion. -/
def watchedFileActions (event : Json) : List Action :=
  match Json.strField (some event) "uri", Json.getNum (Json.objGet (some event) "type") with
  | some uri, some type => if type = 3 then [.fileDeleted uri] else [.fileTouched uri]
  | _, _ => []

/-- One entry of `handle_did_rename_files`. -/
def renameActions (item : Json) : List Action :=
  match Json.strField (some item) "oldUri", Json.strField (some item) "newUri" with
  | some oldUri, some newUri => [.renamedFrom oldUri, .renamedTo newUri]
  | _, _ => []

def handleDidopen (params : Option Json) (st : ServerState) : ServerState :=
  handleActions w parse (didopenActions params) st

def handleDidchange (params : Option Json) (st : ServerState) : ServerState :=
  handleActions w parse (didchangeActions params) st

def handleDidclose (params : Option Json) (st : ServerState) : ServerState :=
  handleActions w parse (didcloseActions params) st

def handleDidChangeWatchedFiles (params : Option Json) (st : ServerState) : ServerState :=
  match Json.getArr (Json.objGet params "changes") with
  | none => st
  | some changes => handleActions w parse (changes.flatMap watchedFileActions) st

def handleDidRenameFiles (params : Option Json) (st : ServerState) : ServerState :=
  match Json.getArr (Json.objGet params "files") with
  | none => st
  | some files => handleActions w parse (files.flatMap renameActions) st

/-! ### Starting up -/

/-- `handle_initialize`, as far as the state goes. -/
def handleInitialize (params : Option Json) (st : ServerState) : ServerState :=
  { st with cc := workspaceSetRootFromUri (Json.strField params "rootUri") st.cc }

def handleInitialized (st : ServerState) : ServerState :=
  let st := reloadCompileCommands w parse st
  if st.cc.workspaceRoot.isSome then revalidateAllDocs w parse st else st

end Handlers

end TaskjugglerLsp
