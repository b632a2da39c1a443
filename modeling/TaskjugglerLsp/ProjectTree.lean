import TaskjugglerLsp.Parser

/-!
# The assembled project tree

`project_tree.c`: the nodes that a project's declarations are copied into, and
the dotted paths by which a prefix names one of them.  A node is addressed by
the child indices on the way to it from the root, where the source has a
pointer.  The memo cells of the dependencies are left out.
-/

namespace TaskjugglerLsp

/-- The coarse kind of a node: one of the four id namespaces, or none. -/
inductive NodeKind where
  | task
  | account
  | resource
  | report
  | other
  deriving DecidableEq, Repr

def nodeKindOf (keyword : ℕ) : NodeKind :=
  if keyword = kwTask then .task
  else if keyword = kwAccount then .account
  else if keyword = kwResource then .resource
  else if keyword = kwShift then .resource
  else if keyword = kwProject then .other
  else .report

/-- The cast to `prefix_kind`, which the two enumerations make sound. -/
def NodeKind.prefixKind : NodeKind → Option PrefixKind
  | task => some .task
  | account => some .account
  | resource => some .resource
  | report => some .report
  | other => none

/-- The fields of a node, apart from the nodes under it. -/
structure ProjectInfo where
  keyword : ℕ
  id : Option CStr
  name : Option CStr
  range : LspRange
  selectionRange : LspRange
  sourceUri : Option CStr
  dependencies : List Dependency
  deriving DecidableEq, Repr

/-- A node of a project tree. -/
inductive ProjectNode where
  | mk (info : ProjectInfo) (children : List ProjectNode)

namespace ProjectNode

def info : ProjectNode → ProjectInfo
  | mk info _ => info

def children : ProjectNode → List ProjectNode
  | mk _ children => children

/-- The synthetic root before anything is copied into it. -/
def empty : ProjectNode := mk ⟨0, none, none, ⟨⟨0, 0⟩, ⟨0, 0⟩⟩, ⟨⟨0, 0⟩, ⟨0, 0⟩⟩, none, []⟩ []

/-- `project_node_append_child`, on the node at an address. -/
def appendChild : ProjectNode → List ℕ → ProjectNode → ProjectNode
  | node, [], child => mk node.info (node.children ++ [child])
  | node, i :: address, child =>
    mk node.info (node.children.modify i fun next => appendChild next address child)

end ProjectNode

/-- What `project_node_from_tj` copies of one declaration. -/
def projectInfoFromTj (sourceUri : CStr) (src : TjInfo) : ProjectInfo :=
  ⟨src.keyword, src.id, src.name, src.range, src.selectionRange, some sourceUri, src.dependencies⟩

mutual

/-- `project_node_from_tj`. -/
def projectNodeFromTj (sourceUri : CStr) : TjNode → ProjectNode
  | .mk info children => .mk (projectInfoFromTj sourceUri info) (projectNodesFromTj sourceUri children)

/-- Its loop over the children. -/
def projectNodesFromTj (sourceUri : CStr) : List TjNode → List ProjectNode
  | [] => []
  | child :: children => projectNodeFromTj sourceUri child :: projectNodesFromTj sourceUri children

end

/-- The segments that `strtok_r` finds between dots: the empty ones are skipped. -/
def dottedSegments (path : CStr) : List CStr := (path.splitOn 46).filter (· != [])

/-- Whether a child carries the id `seg` in the namespace `kind`. -/
def ProjectNode.isNamed (kind : NodeKind) (seg : CStr) (child : ProjectNode) : Bool :=
  nodeKindOf child.info.keyword == kind && child.info.id == some seg

/-- The descent of `find_node_by_dotted_path`. -/
def descendPath (kind : NodeKind) : List CStr → ProjectNode → Option (List ℕ)
  | [], _ => some []
  | seg :: segs, cur => do
    let i ← cur.children.findIdx? (ProjectNode.isNamed kind seg)
    let next ← cur.children[i]?
    let address ← descendPath kind segs next
    some (i :: address)

/-- `find_node_by_dotted_path`: no path, and the empty one, name the start. -/
def findNodeByDottedPath (start : ProjectNode) (path : Option CStr) (kind : NodeKind) :
    Option (List ℕ) :=
  match path with
  | none => some []
  | some path => descendPath kind (dottedSegments path) start

end TaskjugglerLsp
