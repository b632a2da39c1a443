import TaskjugglerLsp.Grammar.Actions

/-!
# The output of a parse, as a tree

The declarations of a parse are cells that point to each other.  Followed from the synthetic root
they are the tree of a `ParseOutput`, and the owner of a token has an address in it.
-/

namespace TaskjugglerLsp

section Heap

variable (heap : List NodeCell)

/-- The declaration at a cell, with so many levels below it. -/
def nodeOf : ℕ → ℕ → TjNode
  | 0, a => .mk (heap.getD a .new).info []
  | n + 1, a => .mk (heap.getD a .new).info ((heap.getD a .new).children.map (nodeOf n))

/-- The address of a cell below another one, in so many levels. -/
def addressOf (target : ℕ) : ℕ → ℕ → Option (List ℕ)
  | 0, a => if a = target then some [] else none
  | n + 1, a =>
    if a = target then some []
    else (heap.getD a .new).children.zipIdx.findSome? fun c =>
      (addressOf target n c.1).map fun rest => c.2 :: rest

end Heap

/-- The synthetic root over the declarations; no cell is below another one in more levels than
there are cells. -/
def ParseResult.root (out : ParseResult) : TjNode := nodeOf out.heap out.heap.length 0

/-- The owners of the tokens, as addresses. -/
def ParseResult.owners (out : ParseResult) : List (Option (List ℕ)) :=
  out.tokOwners.map fun owner => owner.bind fun a => addressOf out.heap a out.heap.length 0

/-- What `parse` returns. -/
def ParseResult.output (out : ParseResult) : ParseOutput :=
  ⟨out.root, out.tokSpans, out.numSemEntries, out.includes⟩

end TaskjugglerLsp
