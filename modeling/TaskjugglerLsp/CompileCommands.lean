import TaskjugglerLsp.Json

/-!
# Reading compile_commands.json

`compile_commands.c`.  Of an entry only the resolved file is used.  The file
system is a record of what each call answers.
-/

namespace TaskjugglerLsp

/-- What the file system answers while one message is handled. -/
structure World where
  realpath : CStr → Option CStr
  readFile : CStr → Option CStr
  stat : CStr → Option FileStat
  readJson : CStr → Option Json

/-- `path_join`. -/
def pathJoin (a b : CStr) : CStr :=
  if a ≠ [] ∧ a.getLast? ≠ some 47 then a ++ 47 :: b else a ++ b

/-- `resolve_entry_path`. -/
def resolveEntryPath (workspaceRoot : CStr) (directory : Option CStr) (file : CStr) : CStr :=
  if file.head? = some 47 then file
  else
    match directory with
    | some (c :: cs) => pathJoin (c :: cs) file
    | _ => pathJoin workspaceRoot file

/-- `parse_compile_entry`: the file of an entry, if the element is one. -/
def parseCompileEntry (workspaceRoot : CStr) (item : Json) : Option CStr :=
  (Json.strField (some item) "file").map fun file =>
    resolveEntryPath workspaceRoot (Json.strField (some item) "directory") file

/-- `CompileCommandsResult`. -/
inductive CompileCommandsResult where
  | ok (entries : List CStr)
  | notFound
  | parseError
  | schemaError
  | noRoot

/-- `compile_commands_load`. -/
def compileCommandsLoad (w : World) (workspaceRoot : Option CStr) : CompileCommandsResult :=
  match workspaceRoot with
  | none => .noRoot
  | some workspaceRoot =>
    let ccPath := pathJoin workspaceRoot (cstr "compile_commands.json")
    if (w.stat ccPath).isNone then .notFound
    else
      match w.readJson ccPath with
      | none => .parseError
      | some root =>
        match Json.getArr (some root) with
        | none => .schemaError
        | some items => .ok (items.filterMap (parseCompileEntry workspaceRoot))

end TaskjugglerLsp
