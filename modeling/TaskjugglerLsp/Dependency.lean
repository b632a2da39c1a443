import TaskjugglerLsp.Completion

/-!
# What is under the cursor

The walks of `dependency.c`, from the declaration that `tj_node_at` finds to the parents: the first
dependency that the cursor is on, and the first task whose id it is on.
-/

namespace TaskjugglerLsp

/-- `pos_in_range`: both ends are in the range. -/
def posInRange (p : LspPos) (r : LspRange) : Bool :=
  let after := r.start.line < p.line ∨ p.line = r.start.line ∧ r.start.character ≤ p.character
  let before := p.line < r.stop.line ∨ p.line = r.stop.line ∧ p.character ≤ r.stop.character
  decide (after ∧ before)

section Walk

variable (root : TjNode)

/-- The walk over `parent_node`, from the declaration at a reversed address on: the first one that
the test accepts. -/
def firstAbove (test : TjInfo → Bool) : List ℕ → Option (List ℕ)
  | [] => if test root.info then some [] else none
  | i :: rev => do
    let s ← root.sub (i :: rev).reverse
    if test s.info then some (i :: rev).reverse else firstAbove test rev

variable (tokens : List TokenSpan) (owners : List (Option (List ℕ))) (cursor : LspPos)

/-- `dependency_at_cursor`: the declaration that has the dependency, and that. -/
def dependencyAtCursor : Option (List ℕ × Dependency) := do
  let onRef := fun d : Dependency => posInRange cursor d.sourceRange
  let node ← tjNodeAt root tokens owners cursor
  let owner ← firstAbove root (fun info => info.dependencies.any onRef) node.reverse
  let s ← root.sub owner
  let dep ← s.info.dependencies.find? onRef
  some (owner, dep)

/-- `task_decl_at_cursor`. -/
def taskDeclAtCursor : Option (List ℕ) := do
  let node ← tjNodeAt root tokens owners cursor
  firstAbove root (fun info => info.keyword == kwTask && posInRange cursor info.selectionRange)
    node.reverse

end Walk

end TaskjugglerLsp
