import TaskjugglerLsp.Json
import TaskjugglerLsp.Workspace

/-!
# Query contexts

What the coordinator pins for a query (`build_query_context_locked` in
`server.c`): the published snapshot, the documents of it that the query may look
at, and the previous parse of the document it is about.
-/

namespace TaskjugglerLsp

/-- `query_doc`: the view of one document. -/
structure QueryDoc where
  snap : DocSnapshot
  prefixes : PrefixSet
  isPrimary : Bool

/-- `query_context`. -/
structure QueryContext where
  ws : Option WorkspaceSnapshot
  prevSnap : Option DocSnapshot
  docs : List QueryDoc
  projectRoot : Option ProjectNode
  projectId : Option CStr

/-- `request_primary_uri`. -/
def requestPrimaryUri (params : Option Json) : Option CStr :=
  (Json.strField (Json.objGet params "textDocument") "uri").or
    (Json.strField (Json.objGet (Json.objGet params "textDocumentPosition") "textDocument") "uri")

/-- The project of the first document of a snapshot with a URI. -/
def primaryProject (ws : WorkspaceSnapshot) (primaryCanon : Option CStr) : Option ℕ :=
  primaryCanon.bind fun canon => (ws.docs.find? (·.snap.uri = canon)).bind (·.projectIndex)

/-- `make_query_doc`, for a document that the query may look at: the primary one, its
same-project siblings, or all of them. -/
def makeQueryDoc (primaryCanon : Option CStr) (primaryProj : Option ℕ) (wantAllDocs : Bool)
    (w : WsDoc) : Option QueryDoc :=
  let isPrimary := decide (primaryCanon = some w.snap.uri)
  if isPrimary || wantAllDocs || (primaryProj.isSome && w.projectIndex == primaryProj) then
    some ⟨w.snap, w.prefixes, isPrimary⟩
  else none

/-- `build_query_context_locked`. -/
def buildQueryContext (realpath : CStr → Option CStr) (st : ServerState) (primaryUri : Option CStr)
    (wantAllDocs : Bool) : QueryContext :=
  let primaryDoc := (primaryUri.bind (docFind realpath st.docs)).bind st.docs
  let prevSnap := primaryDoc.bind (·.prevSnap)
  let primaryCanon := primaryDoc.map (·.uri)
  match st.ws with
  | none => ⟨none, prevSnap, [], none, none⟩
  | some ws =>
    let primaryProj := primaryProject ws primaryCanon
    let project := primaryProj.bind (ws.projects[·]?)
    ⟨some ws, prevSnap, ws.docs.filterMap (makeQueryDoc primaryCanon primaryProj wantAllDocs),
      project.map (·.root), project.map (·.id)⟩

/-- `query_context_primary`: the last document that is marked. -/
def QueryContext.primary (qc : QueryContext) : Option QueryDoc :=
  qc.docs.reverse.find? (·.isPrimary)

end TaskjugglerLsp
