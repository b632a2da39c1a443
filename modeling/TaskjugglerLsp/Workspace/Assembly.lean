import TaskjugglerLsp.Workspace.Snapshot

/-!
# What assembling a tree copies

A tree is assembled declaration by declaration.  `copyDeclaration_spec` says what
one of them does to it: the project block is left out, a declaration whose
prefix names no node is left out, and every other one becomes the last child of
the node that its prefix names, so that the nodes of the tree grow by its nodes.
-/

namespace TaskjugglerLsp

/-! ### The nodes of a tree -/

mutual

/-- All nodes of a tree, the root first. -/
def ProjectNode.nodes : ProjectNode → List ProjectInfo
  | .mk info children => info :: nodesOf children

/-- All nodes of some trees. -/
def nodesOf : List ProjectNode → List ProjectInfo
  | [] => []
  | child :: children => child.nodes ++ nodesOf children

end

/-- The node at an address. -/
def nodeAt : ProjectNode → List ℕ → Option ProjectNode
  | node, [] => some node
  | node, i :: address => node.children[i]?.bind fun next => nodeAt next address

theorem ProjectNode.nodes_eq (t : ProjectNode) : t.nodes = t.info :: nodesOf t.children := by
  cases t
  rw [nodes]
  rfl

theorem nodesOf_append (l l' : List ProjectNode) : nodesOf (l ++ l') = nodesOf l ++ nodesOf l' := by
  induction l with
  | nil => rw [nodesOf, List.nil_append, List.nil_append]
  | cons t l ih => rw [List.cons_append, nodesOf, nodesOf, ih, List.append_assoc]

theorem nodesOf_modify {l : List ProjectNode} {i : ℕ} {t : ProjectNode} {extra : List ProjectInfo}
    {f : ProjectNode → ProjectNode} (h : l[i]? = some t)
    (hf : (f t).nodes.Perm (extra ++ t.nodes)) :
    (nodesOf (l.modify i f)).Perm (extra ++ nodesOf l) := by
  induction l generalizing i with
  | nil => cases h
  | cons u l ih =>
    cases i with
    | zero =>
      rw [List.getElem?_cons_zero, Option.some.injEq] at h
      subst h
      rw [List.modify_zero_cons, nodesOf, nodesOf, ← List.append_assoc]
      exact hf.append_right _
    | succ i =>
      rw [List.modify_succ_cons, nodesOf, nodesOf]
      refine ((ih h).append_left _).trans ?_
      rw [← List.append_assoc, ← List.append_assoc]
      exact List.perm_append_comm.append_right _

theorem nodes_appendChild (t child : ProjectNode) (address : List ℕ)
    (h : (nodeAt t address).isSome) :
    (t.appendChild address child).nodes.Perm (child.nodes ++ t.nodes) := by
  induction address generalizing t with
  | nil =>
    rw [ProjectNode.appendChild, ProjectNode.nodes, nodesOf_append, nodesOf, nodesOf, List.append_nil,
      t.nodes_eq]
    exact (List.perm_append_comm.cons _).trans List.perm_middle.symm
  | cons i address ih =>
    rw [nodeAt] at h
    cases hi : t.children[i]? with
    | none =>
      rw [hi] at h
      cases h
    | some next =>
      rw [hi, Option.bind_some] at h
      rw [ProjectNode.appendChild, ProjectNode.nodes, t.nodes_eq]
      exact ((nodesOf_modify hi (ih next h)).cons _).trans List.perm_middle.symm

theorem isSome_nodeAt_descendPath {kind : NodeKind} {segs : List CStr} {t : ProjectNode}
    {address : List ℕ} (h : descendPath kind segs t = some address) :
    (nodeAt t address).isSome := by
  induction segs generalizing t address with
  | nil =>
    rw [descendPath, Option.some.injEq] at h
    subst h
    rfl
  | cons seg segs ih =>
    rw [descendPath] at h
    simp only [Option.bind_eq_bind, Option.bind_eq_some_iff] at h
    obtain ⟨i, -, next, hnext, rest, hrest, heq⟩ := h
    cases heq
    rw [nodeAt, hnext]
    exact ih hrest

theorem isSome_nodeAt_find {t : ProjectNode} {path : Option CStr} {kind : NodeKind}
    {address : List ℕ} (h : findNodeByDottedPath t path kind = some address) :
    (nodeAt t address).isSome := by
  cases path with
  | none =>
    rw [findNodeByDottedPath, Option.some.injEq] at h
    subst h
    rfl
  | some path => exact isSome_nodeAt_descendPath h

/-! ### One declaration -/

/-- Where a declaration of `d` goes in a tree: the node that the prefix of its
kind names, if it is of a kind that is copied at all. -/
def placeFor (d : Document) (t : ProjectNode) (decl : TjNode) : Option (List ℕ) :=
  (nodeKindOf decl.keyword).prefixKind.bind fun k =>
    findNodeByDottedPath t (d.prefixes k) (nodeKindOf decl.keyword)

/-- **Copying one declaration**: once if it has a place in the tree, and not at all if not. -/
theorem copyDeclaration_spec (d : Document) (t : ProjectNode) (decl : TjNode) :
    (placeFor d t decl = none → copyDeclaration d t decl = t) ∧
      ∀ address, placeFor d t decl = some address →
        copyDeclaration d t decl = t.appendChild address (projectNodeFromTj d.uri decl) ∧
        (copyDeclaration d t decl).nodes.Perm ((projectNodeFromTj d.uri decl).nodes ++ t.nodes) := by
  unfold placeFor copyDeclaration
  cases (nodeKindOf decl.keyword).prefixKind with
  | none => exact ⟨fun _ => rfl, fun address h => by cases h⟩
  | some k =>
    simp only [Option.bind_some]
    cases hf : findNodeByDottedPath t (d.prefixes k) (nodeKindOf decl.keyword) with
    | none => exact ⟨fun _ => rfl, fun address h => by cases h⟩
    | some target =>
      refine ⟨(fun h => by cases h), fun address h => ?_⟩
      cases h
      exact ⟨rfl, nodes_appendChild t _ target (isSome_nodeAt_find hf)⟩

/-! ### All declarations -/

section Assembled

variable (s : Store)

/-- The top-level declarations of the document in a slot. -/
def declarationsOf (i : Slot) : List TjNode :=
  (((s i).bind (·.snap)).map (·.root.children)).getD []

/-- The document in a slot and its `n`-th top-level declaration. -/
def declarationAt (p : Slot × ℕ) : Option (Document × TjNode) := do
  let d ← s p.1
  let decl ← (declarationsOf s p.1)[p.2]?
  some (d, decl)

/-- The declarations of some documents, in the order in which they are copied. -/
def copySteps (order : List Slot) : List (Slot × ℕ) :=
  order.flatMap fun i => (List.range (declarationsOf s i).length).map fun n => (i, n)

/-- One step: copy the declaration with that position. -/
def copyStep (t : ProjectNode) (p : Slot × ℕ) : ProjectNode :=
  match declarationAt s p with
  | some (d, decl) => copyDeclaration d t decl
  | none => t

variable {s}

theorem mem_copySteps {order : List Slot} {i : Slot} {n : ℕ} :
    (i, n) ∈ copySteps s order ↔ i ∈ order ∧ n < (declarationsOf s i).length := by
  simp only [copySteps, List.mem_flatMap, List.mem_map, List.mem_range, Prod.mk.injEq]
  constructor
  · rintro ⟨j, hj, m, hm, rfl, rfl⟩
    exact ⟨hj, hm⟩
  · rintro ⟨hi, hn⟩
    exact ⟨i, hi, n, hn, rfl, rfl⟩

theorem nodup_copySteps {order : List Slot} (h : order.Nodup) : (copySteps s order).Nodup := by
  refine List.nodup_flatMap.mpr ⟨fun i _ => ?_, h.imp fun hij => ?_⟩
  · exact List.nodup_range.map fun a b hab => (Prod.mk.inj hab).2
  · intro p hp hq
    obtain ⟨n, -, rfl⟩ := List.mem_map.mp hp
    obtain ⟨m, -, hm⟩ := List.mem_map.mp hq
    exact hij (Prod.mk.inj hm).1.symm

theorem foldl_range_getElem? {α β : Type*} (f : β → α → β) (l : List α) (b : β) :
    (List.range l.length).foldl (fun t n => l[n]?.elim t (f t)) b = l.foldl f b := by
  induction l using List.reverseRecOn with
  | nil => rfl
  | append_singleton l a ih =>
    have hcongr : (List.range l.length).foldl (fun t n => (l ++ [a])[n]?.elim t (f t)) b
        = (List.range l.length).foldl (fun t n => l[n]?.elim t (f t)) b := by
      refine List.foldl_ext _ _ b fun t n hn => ?_
      rw [List.getElem?_append_left (List.mem_range.mp hn)]
    rw [List.length_append, List.length_singleton, List.range_succ, List.foldl_append,
      List.foldl_append, hcongr, ih]
    simp

/-- Assembling a tree document by document is assembling it declaration by declaration. -/
theorem assembled_eq (order : List Slot) :
    assembled s order = (copySteps s order).foldl (copyStep s) .empty := by
  unfold assembled copySteps
  rw [List.foldl_flatMap]
  congr 1
  funext t i
  rw [List.foldl_map]
  unfold copySlot
  cases hi : s i with
  | none => simp [declarationsOf, hi]
  | some d =>
    have hstep : ∀ t n, copyStep s t (i, n)
        = (declarationsOf s i)[n]?.elim t (copyDeclaration d t) := by
      intro t n
      unfold copyStep declarationAt
      simp only [hi, Option.bind_eq_bind, Option.bind_some]
      cases (declarationsOf s i)[n]? <;> rfl
    simp only [hstep]
    rw [foldl_range_getElem? (copyDeclaration d), copyDeclarations, declarationsOf, hi, Option.bind_some]
    cases d.snap <;> rfl

end Assembled

end TaskjugglerLsp
