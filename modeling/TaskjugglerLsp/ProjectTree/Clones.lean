import Mathlib.Data.List.TakeWhile
import TaskjugglerLsp.ProjectTree.Resolution

/-!
# Clones

Where the declarations of the documents of a project are in its tree.  A tree
only grows while it is assembled (`Extends`): each declaration that has a place
becomes the last child of its node and keeps its address from then on.

`infoAt_clone` says that the clone of a declaration (`cloneAt`) is at its address,
`exists_origin` that every node but the root is a clone, and `cloneAt_inj` that no
two declarations share one.
-/

namespace TaskjugglerLsp

open Lib

/-! ### Growing -/

/-- The fields of the node at an address. -/
def infoAt (t : ProjectNode) (a : List ℕ) : Option ProjectInfo := (nodeAt t a).map (·.info)

theorem infoAt_cons {t : ProjectNode} {i : ℕ} {a : List ℕ} :
    infoAt t (i :: a) = t.children[i]?.bind fun c => infoAt c a := by
  rw [infoAt, nodeAt, Option.map_bind]
  rfl

theorem infoAt_append (t : ProjectNode) (a b : List ℕ) :
    infoAt t (a ++ b) = (nodeAt t a).bind fun u => infoAt u b := by
  rw [infoAt, nodeAt_append, Option.map_bind]
  rfl

theorem infoAt_eq_some {t : ProjectNode} {a : List ℕ} {info : ProjectInfo} :
    infoAt t a = some info ↔ ∃ node, nodeAt t a = some node ∧ node.info = info := by
  rw [infoAt, Option.map_eq_some_iff]

/-- Every node of the first tree is in the second, at the same address. -/
def Extends (t t' : ProjectNode) : Prop :=
  ∀ a info, infoAt t a = some info → infoAt t' a = some info

theorem Extends.refl (t : ProjectNode) : Extends t t := fun _ _ h => h

theorem Extends.trans {t t' t'' : ProjectNode} (h : Extends t t') (h' : Extends t' t'') :
    Extends t t'' := fun a info ha => h' a info (h a info ha)

theorem Extends.grows {t t' : ProjectNode} (h : Extends t t') :
    Descent.Grows ProjectNode.children taskName t t' := by
  intro a u hu
  rw [← nodeAt_eq] at hu
  obtain ⟨u', hu', hinfo⟩ := infoAt_eq_some.mp (h a u.info (infoAt_eq_some.mpr ⟨u, hu, rfl⟩))
  refine ⟨u', by rw [← nodeAt_eq]; exact hu', ?_⟩
  unfold taskName
  rw [hinfo]

theorem Extends.find {t t' : ProjectNode} (h : Extends t t') {path : Option CStr}
    {a : List ℕ} (ha : findNodeByDottedPath t path .task = some a) :
    findNodeByDottedPath t' path .task = some a := by
  cases path with
  | none => exact ha
  | some path =>
    rw [findNodeByDottedPath, descendPath_task, Descent.descend_eq_some] at ha ⊢
    exact ha.grow h.grows

/-! ### Appending a child -/

section Append

variable {t parent child : ProjectNode} {b : List ℕ}

theorem appendChild_cons (i : ℕ) (b : List ℕ) :
    (t.appendChild (i :: b) child).children
      = t.children.modify i fun next => next.appendChild b child := by
  rw [ProjectNode.appendChild]
  rfl

theorem infoAt_appendChild (hb : nodeAt t b = some parent) (rest : List ℕ) :
    infoAt (t.appendChild b child) (b ++ parent.children.length :: rest) = infoAt child rest := by
  induction b generalizing t with
  | nil =>
    rw [nodeAt, Option.some.injEq] at hb
    subst hb
    rw [List.nil_append, infoAt_cons, ProjectNode.appendChild, ProjectNode.children,
      List.getElem?_append_right le_rfl, Nat.sub_self]
    rfl
  | cons i b ih =>
    rw [nodeAt, Option.bind_eq_some_iff] at hb
    obtain ⟨next, hnext, hb⟩ := hb
    rw [List.cons_append, infoAt_cons, appendChild_cons, List.getElem?_modify_eq, hnext,
      Option.map_eq_map, Option.map_some, Option.bind_some]
    exact ih hb

theorem infoAt_appendChild_cases (hb : nodeAt t b = some parent) {a : List ℕ}
    {info : ProjectInfo} (h : infoAt (t.appendChild b child) a = some info) :
    infoAt t a = some info ∨
      ∃ rest, a = b ++ parent.children.length :: rest ∧ infoAt child rest = some info := by
  induction b generalizing t a with
  | nil =>
    rw [nodeAt, Option.some.injEq] at hb
    subst hb
    cases a with
    | nil => exact .inl h
    | cons j a =>
      rw [infoAt_cons, ProjectNode.appendChild, ProjectNode.children] at h
      rcases Nat.lt_trichotomy j t.children.length with hlt | rfl | hgt
      · rw [List.getElem?_append_left hlt] at h
        exact .inl (by rwa [infoAt_cons])
      · rw [List.getElem?_append_right le_rfl, Nat.sub_self] at h
        exact .inr ⟨a, rfl, h⟩
      · rw [List.getElem?_eq_none (by simp; omega)] at h
        cases h
  | cons i b ih =>
    rw [nodeAt, Option.bind_eq_some_iff] at hb
    obtain ⟨next, hnext, hb⟩ := hb
    cases a with
    | nil => exact .inl h
    | cons j a =>
      rw [infoAt_cons, appendChild_cons] at h
      rw [infoAt_cons]
      by_cases hij : i = j
      · subst hij
        rw [List.getElem?_modify_eq, hnext, Option.map_eq_map, Option.map_some,
          Option.bind_some] at h
        rw [hnext, Option.bind_some]
        rcases ih hb h with hold | ⟨rest, rfl, hnew⟩
        · exact .inl hold
        · exact .inr ⟨rest, rfl, hnew⟩
      · rw [List.getElem?_modify_ne _ _ hij] at h
        exact .inl h

theorem extends_appendChild (hb : nodeAt t b = some parent) :
    Extends t (t.appendChild b child) := by
  intro a info ha
  induction b generalizing t a with
  | nil =>
    cases a with
    | nil => exact ha
    | cons j a =>
      rw [infoAt_cons, Option.bind_eq_some_iff] at ha
      obtain ⟨c, hc, ha⟩ := ha
      rw [infoAt_cons, ProjectNode.appendChild, ProjectNode.children,
        List.getElem?_append_left (List.getElem?_eq_some_iff.mp hc).1, hc]
      exact ha
  | cons i b ih =>
    rw [nodeAt, Option.bind_eq_some_iff] at hb
    obtain ⟨next, hnext, hb⟩ := hb
    cases a with
    | nil => exact ha
    | cons j a =>
      rw [infoAt_cons, Option.bind_eq_some_iff] at ha
      obtain ⟨c, hc, ha⟩ := ha
      rw [infoAt_cons, appendChild_cons]
      by_cases hij : i = j
      · subst hij
        obtain rfl := Option.some.inj (hnext.symm.trans hc)
        rw [List.getElem?_modify_eq, hc, Option.map_eq_map, Option.map_some, Option.bind_some]
        exact ih hb _ ha
      · rw [List.getElem?_modify_ne _ _ hij, hc]
        exact ha

end Append

theorem projectNodesFromTj_eq (uri : CStr) (children : List TjNode) :
    projectNodesFromTj uri children = children.map (projectNodeFromTj uri) := by
  induction children with
  | nil => rfl
  | cons c children ih => rw [projectNodesFromTj, List.map_cons, ih]

theorem projectNodeFromTj_info (uri : CStr) (decl : TjNode) :
    (projectNodeFromTj uri decl).info = projectInfoFromTj uri decl.info := by
  cases decl
  rfl

theorem projectNodeFromTj_children (uri : CStr) (decl : TjNode) :
    (projectNodeFromTj uri decl).children = decl.children.map (projectNodeFromTj uri) := by
  cases decl
  exact projectNodesFromTj_eq _ _

theorem infoAt_projectNodeFromTj (uri : CStr) (decl : TjNode) (a : List ℕ) :
    infoAt (projectNodeFromTj uri decl) a
      = (decl.sub a).map fun o => projectInfoFromTj uri o.info := by
  induction a generalizing decl with
  | nil => rw [infoAt, nodeAt, TjNode.sub, Descent.node, Option.map_some, Option.map_some,
      projectNodeFromTj_info]
  | cons i a ih =>
    rw [infoAt_cons, projectNodeFromTj_children, List.getElem?_map, TjNode.sub, Descent.node]
    cases decl.children[i]? with
    | none => rfl
    | some c => exact ih c

/-! ### Where the declarations go -/

section Assembled

variable (s : Store) (order : List Slot)

/-- The tree when the turn of a declaration comes. -/
def treeBefore (p : Slot × ℕ) : ProjectNode :=
  ((copySteps s order).takeWhile (· != p)).foldl (copyStep s) .empty

/-- The node that a declaration is put under, and its index there. -/
def placement (p : Slot × ℕ) : Option (List ℕ × ℕ) := do
  let (d, decl) ← declarationAt s p
  let place ← placeFor d (treeBefore s order p) decl
  let parent ← nodeAt (treeBefore s order p) place
  some (place, parent.children.length)

/-- The address in the project tree of the clone of a declaration. -/
def cloneAt (i : Slot) : List ℕ → Option (List ℕ)
  | [] => none
  | n :: rest => (placement s order (i, n)).map fun q => q.1 ++ q.2 :: rest

variable {s order}

theorem declarationAt_eq_some {i : Slot} {n : ℕ} {d : Document} {decl : TjNode} :
    declarationAt s (i, n) = some (d, decl) ↔
      s i = some d ∧ ∃ snap, d.snap = some snap ∧ snap.root.children[n]? = some decl := by
  unfold declarationAt declarationsOf
  cases hi : s i with
  | none => simp
  | some e =>
    cases hsnap : e.snap with
    | none =>
      simp only [Option.bind_eq_bind, Option.bind_some, hsnap, Option.map_none, Option.getD_none,
        List.getElem?_nil, Option.bind_none]
      constructor
      · intro h
        cases h
      · rintro ⟨⟨⟩, snap, hs, -⟩
        rw [hsnap] at hs
        cases hs
    | some snap =>
      simp only [Option.bind_eq_bind, Option.bind_some, hsnap, Option.map_some, Option.getD_some,
        Option.bind_eq_some_iff, Option.some.injEq, Prod.mk.injEq]
      constructor
      · rintro ⟨decl', hdecl, rfl, rfl⟩
        exact ⟨rfl, snap, hsnap, hdecl⟩
      · rintro ⟨rfl, snap', hs, hdecl⟩
        rw [hsnap, Option.some.injEq] at hs
        subst hs
        exact ⟨decl, hdecl, rfl, rfl⟩

/-- A step leaves a tree alone, or appends the copy of a declaration at its place. -/
theorem copyStep_cases (t : ProjectNode) (p : Slot × ℕ) :
    copyStep s t p = t ∨
      ∃ d decl place parent, declarationAt s p = some (d, decl) ∧
        placeFor d t decl = some place ∧ nodeAt t place = some parent ∧
        copyStep s t p = t.appendChild place (projectNodeFromTj d.uri decl) := by
  unfold copyStep
  cases hp : declarationAt s p with
  | none => exact .inl rfl
  | some q =>
    obtain ⟨d, decl⟩ := q
    obtain ⟨hnone, hsome⟩ := copyDeclaration_spec d t decl
    cases hplace : placeFor d t decl with
    | none => exact .inl (hnone hplace)
    | some place =>
      obtain ⟨k, -, hfind⟩ := Option.bind_eq_some_iff.mp hplace
      obtain ⟨parent, hparent⟩ := Option.isSome_iff_exists.mp (isSome_nodeAt_find hfind)
      exact .inr ⟨d, decl, place, parent, rfl, hplace, hparent, (hsome place hplace).1⟩

theorem extends_copyStep (t : ProjectNode) (p : Slot × ℕ) : Extends t (copyStep s t p) := by
  rcases copyStep_cases (s := s) t p with h | ⟨d, decl, place, parent, -, -, hparent, h⟩
  · rw [h]
    exact .refl t
  · rw [h]
    exact extends_appendChild hparent

theorem extends_foldl (steps : List (Slot × ℕ)) (t : ProjectNode) :
    Extends t (steps.foldl (copyStep s) t) := by
  induction steps generalizing t with
  | nil => exact .refl t
  | cons p steps ih => exact (extends_copyStep t p).trans (ih _)

theorem copySteps_split {p : Slot × ℕ} (hp : p ∈ copySteps s order) :
    ∃ post, copySteps s order = (copySteps s order).takeWhile (· != p) ++ p :: post := by
  have hdrop := List.takeWhile_append_dropWhile (p := (· != p)) (l := copySteps s order)
  cases hd : (copySteps s order).dropWhile (· != p) with
  | nil =>
    rw [hd, List.append_nil] at hdrop
    rw [← hdrop] at hp
    have := List.mem_takeWhile_imp hp
    simp at this
  | cons q post =>
    have hq := List.head?_dropWhile_not (· != p) (copySteps s order)
    rw [hd] at hq
    simp only [List.head?_cons, bne_eq_false_iff_eq] at hq
    subst hq
    exact ⟨post, by rw [← hd]; exact hdrop.symm⟩

theorem extends_assembled {p : Slot × ℕ} (hp : p ∈ copySteps s order) :
    Extends (copyStep s (treeBefore s order p) p) (assembled s order) := by
  obtain ⟨post, hsplit⟩ := copySteps_split hp
  rw [assembled_eq, hsplit, List.foldl_append, List.foldl_cons]
  exact extends_foldl post _

theorem extends_treeBefore {p : Slot × ℕ} (hp : p ∈ copySteps s order) :
    Extends (treeBefore s order p) (assembled s order) :=
  (extends_copyStep _ p).trans (extends_assembled hp)

theorem placement_eq_some {p : Slot × ℕ} {place : List ℕ} {j : ℕ} :
    placement s order p = some (place, j) ↔
      ∃ d decl parent, declarationAt s p = some (d, decl) ∧
        placeFor d (treeBefore s order p) decl = some place ∧
        nodeAt (treeBefore s order p) place = some parent ∧ parent.children.length = j := by
  unfold placement
  simp only [Option.bind_eq_bind, Option.bind_eq_some_iff, Option.some.injEq, Prod.mk.injEq,
    Prod.exists]
  constructor
  · rintro ⟨d, decl, hd, place, hplace, parent, hparent, rfl, rfl⟩
    exact ⟨d, decl, parent, hd, hplace, hparent, rfl⟩
  · rintro ⟨d, decl, parent, hd, hplace, hparent, rfl⟩
    exact ⟨d, decl, hd, place, hplace, parent, hparent, rfl, rfl⟩

variable {i : Slot} {d : Document} {snap : DocSnapshot} {o : TjNode}

theorem mem_copySteps_of {n : ℕ} {decl : TjNode} (hi : i ∈ order) (hd : s i = some d)
    (hsnap : d.snap = some snap) (hdecl : snap.root.children[n]? = some decl) :
    (i, n) ∈ copySteps s order := by
  rw [mem_copySteps]
  refine ⟨hi, ?_⟩
  rw [declarationsOf, hd, Option.bind_some, hsnap]
  exact (List.getElem?_eq_some_iff.mp hdecl).1

/-- **The clone of a declaration** is at its address, with the fields of the declaration. -/
theorem infoAt_clone (hi : i ∈ order) (hd : s i = some d) (hsnap : d.snap = some snap)
    {a c : List ℕ} (ho : snap.root.sub a = some o) (hc : cloneAt s order i a = some c) :
    infoAt (assembled s order) c = some (projectInfoFromTj d.uri o.info) := by
  cases a with
  | nil => cases hc
  | cons n rest =>
    rw [cloneAt, Option.map_eq_some_iff] at hc
    obtain ⟨⟨place, j⟩, hplacement, rfl⟩ := hc
    obtain ⟨d', decl, parent, hdecl, hplace, hparent, rfl⟩ := placement_eq_some.mp hplacement
    obtain ⟨hd', snap', hsnap', hchild⟩ := declarationAt_eq_some.mp hdecl
    obtain rfl := Option.some.inj (hd.symm.trans hd')
    obtain rfl := Option.some.inj (hsnap.symm.trans hsnap')
    obtain ⟨decl', hchild', hsub⟩ := Descent.node_cons_eq_some.mp ho
    obtain rfl := Option.some.inj (hchild.symm.trans hchild')
    refine extends_assembled (mem_copySteps_of hi hd hsnap hchild) _ _ ?_
    have hstep : copyStep s (treeBefore s order (i, n)) (i, n)
        = (treeBefore s order (i, n)).appendChild place (projectNodeFromTj d.uri decl) := by
      rw [copyStep, hdecl]
      exact ((copyDeclaration_spec d _ decl).2 place hplace).1
    rw [hstep, infoAt_appendChild hparent, infoAt_projectNodeFromTj, TjNode.sub, hsub]
    rfl

theorem takeWhile_ne_of_nodup {α : Type*} [BEq α] [LawfulBEq α] {pre post : List α} {p : α}
    (h : (pre ++ p :: post).Nodup) : (pre ++ p :: post).takeWhile (· != p) = pre := by
  rw [List.takeWhile_append_of_pos, List.takeWhile_cons_of_neg (by simp), List.append_nil]
  intro q hq
  have hne : q ≠ p := by
    rintro rfl
    exact (List.nodup_append.mp h).2.2 q hq q List.mem_cons_self rfl
  simpa using hne

/-- **Every node of a project tree** but the root is the clone of a declaration. -/
theorem exists_origin (horder : order.Nodup) {a : List ℕ} {info : ProjectInfo}
    (h : infoAt (assembled s order) a = some info) (ha : a ≠ []) :
    ∃ i d snap b o, i ∈ order ∧ s i = some d ∧ d.snap = some snap ∧ snap.root.sub b = some o ∧
      cloneAt s order i b = some a ∧ info = projectInfoFromTj d.uri o.info := by
  rw [assembled_eq] at h
  have hsteps : ∀ pre post, pre ++ post = copySteps s order →
      infoAt (pre.foldl (copyStep s) .empty) a = some info →
      ∃ i d snap b o, i ∈ order ∧ s i = some d ∧ d.snap = some snap ∧ snap.root.sub b = some o ∧
        cloneAt s order i b = some a ∧ info = projectInfoFromTj d.uri o.info := by
    intro pre
    induction pre using List.reverseRecOn with
    | nil =>
      intro _ _ h
      cases a with
      | nil => exact absurd rfl ha
      | cons j a =>
        rw [List.foldl_nil, infoAt_cons] at h
        cases h
    | append_singleton pre p ih =>
      intro post hpost h
      rw [List.foldl_append, List.foldl_cons, List.foldl_nil] at h
      have hold := ih (p :: post) (by rw [← hpost, List.append_assoc]; rfl)
      rcases copyStep_cases (pre.foldl (copyStep s) .empty) p with
        heq | ⟨d, decl, place, parent, hdecl, hplace, hparent, heq⟩
      · rw [heq] at h
        exact hold h
      · rw [heq] at h
        rcases infoAt_appendChild_cases hparent h with hprev | ⟨rest, rfl, hnew⟩
        · exact hold hprev
        · obtain ⟨i, n⟩ := p
          obtain ⟨hd, snap, hsnap, hchild⟩ := declarationAt_eq_some.mp hdecl
          rw [infoAt_projectNodeFromTj, Option.map_eq_some_iff] at hnew
          obtain ⟨o, ho, rfl⟩ := hnew
          have hmem : (i, n) ∈ copySteps s order := by
            rw [← hpost]
            simp
          have hbefore : treeBefore s order (i, n) = pre.foldl (copyStep s) .empty := by
            have hnodup := nodup_copySteps (s := s) horder
            rw [← hpost, List.append_assoc, List.singleton_append] at hnodup
            rw [treeBefore, ← hpost, List.append_assoc, List.singleton_append,
              takeWhile_ne_of_nodup hnodup]
          refine ⟨i, d, snap, n :: rest, o, (mem_copySteps.mp hmem).1, hd, hsnap,
            Descent.node_cons_eq_some.mpr ⟨decl, hchild, ho⟩, ?_, rfl⟩
          rw [cloneAt, Option.map_eq_some_iff]
          refine ⟨(place, parent.children.length), placement_eq_some.mpr ?_, rfl⟩
          exact ⟨d, decl, parent, hdecl, by rwa [hbefore], by rwa [hbefore], rfl⟩
  exact hsteps _ [] (List.append_nil _) h

/-! ### Clones are apart -/

/-- The place of a declaration is free until its turn comes. -/
theorem infoAt_treeBefore {p : Slot × ℕ} {place : List ℕ} {j : ℕ}
    (hp : placement s order p = some (place, j)) (rest : List ℕ) :
    infoAt (treeBefore s order p) (place ++ j :: rest) = none := by
  obtain ⟨d, decl, parent, -, -, hparent, rfl⟩ := placement_eq_some.mp hp
  rw [infoAt_append, hparent, Option.bind_some, infoAt_cons, List.getElem?_eq_none le_rfl]
  rfl

/-- What has been put into the tree by the turn of a later declaration. -/
theorem infoAt_treeBefore_of_before (horder : order.Nodup) {p q : Slot × ℕ}
    {pre mid post : List (Slot × ℕ)} (hsplit : copySteps s order = pre ++ p :: mid ++ q :: post)
    {c : List ℕ} {info : ProjectInfo}
    (h : infoAt (copyStep s (treeBefore s order p) p) c = some info) :
    infoAt (treeBefore s order q) c = some info := by
  have hnodup := nodup_copySteps (s := s) horder
  rw [hsplit] at hnodup
  have hp : treeBefore s order p = pre.foldl (copyStep s) .empty := by
    rw [treeBefore, hsplit, List.append_assoc, List.cons_append, takeWhile_ne_of_nodup]
    rwa [List.append_assoc, List.cons_append] at hnodup
  rw [treeBefore, hsplit, takeWhile_ne_of_nodup hnodup, List.foldl_append, List.foldl_cons, ← hp]
  exact extends_foldl mid _ _ _ h

/-- **Two declarations** never have the same clone. -/
theorem cloneAt_inj (horder : order.Nodup) {i' : Slot} {d' : Document} {snap' : DocSnapshot}
    {o' : TjNode} (hi : i ∈ order) (hd : s i = some d) (hsnap : d.snap = some snap)
    (hi' : i' ∈ order) (hd' : s i' = some d') (hsnap' : d'.snap = some snap') {a a' c : List ℕ}
    (ho : snap.root.sub a = some o) (ho' : snap'.root.sub a' = some o')
    (hc : cloneAt s order i a = some c) (hc' : cloneAt s order i' a' = some c) :
    i = i' ∧ a = a' := by
  have hstep : ∀ {i : Slot} {d : Document} {snap : DocSnapshot} {o : TjNode} {n : ℕ}
      {rest place : List ℕ} {j : ℕ}, s i = some d → d.snap = some snap →
      snap.root.sub (n :: rest) = some o → placement s order (i, n) = some (place, j) →
      ∃ decl, snap.root.children[n]? = some decl ∧
        ∃ info, infoAt (copyStep s (treeBefore s order (i, n)) (i, n)) (place ++ j :: rest)
          = some info := by
    intro i d snap o n rest place j hd hsnap ho hplacement
    obtain ⟨e, decl, parent, hdecl, hplace, hparent, rfl⟩ := placement_eq_some.mp hplacement
    obtain ⟨he, snap', hsnap', hchild⟩ := declarationAt_eq_some.mp hdecl
    obtain rfl := Option.some.inj (hd.symm.trans he)
    obtain rfl := Option.some.inj (hsnap.symm.trans hsnap')
    obtain ⟨decl', hchild', hsub⟩ := Descent.node_cons_eq_some.mp ho
    obtain rfl := Option.some.inj (hchild.symm.trans hchild')
    refine ⟨decl, hchild, projectInfoFromTj d.uri o.info, ?_⟩
    rw [copyStep, hdecl]
    simp only
    rw [((copyDeclaration_spec d _ decl).2 place hplace).1, infoAt_appendChild hparent,
      infoAt_projectNodeFromTj, TjNode.sub, hsub]
    rfl
  cases a with
  | nil => cases hc
  | cons n rest =>
    cases a' with
    | nil => cases hc'
    | cons n' rest' =>
      rw [cloneAt, Option.map_eq_some_iff] at hc hc'
      obtain ⟨⟨place, j⟩, hplace, rfl⟩ := hc
      obtain ⟨⟨place', j'⟩, hplace', heq⟩ := hc'
      obtain ⟨decl, hdecl, info, hinfo⟩ := hstep hd hsnap ho hplace
      obtain ⟨decl', hdecl', info', hinfo'⟩ := hstep hd' hsnap' ho' hplace'
      have hmem := mem_copySteps_of hi hd hsnap hdecl
      have hmem' := mem_copySteps_of hi' hd' hsnap' hdecl'
      by_cases hsame : (i, n) = (i', n')
      · obtain ⟨rfl, rfl⟩ := Prod.mk.inj hsame
        obtain ⟨rfl, rfl⟩ := Prod.mk.inj (Option.some.inj (hplace.symm.trans hplace'))
        have hrest := List.append_cancel_left heq
        rw [List.cons.injEq] at hrest
        exact ⟨rfl, by rw [hrest.2]⟩
      · -- the later of the two finds the address of its clone taken
        exfalso
        replace heq : place' ++ j' :: rest' = place ++ j :: rest := heq
        obtain ⟨pre, post, hsplit⟩ := List.append_of_mem hmem
        rw [hsplit, List.mem_append, List.mem_cons] at hmem'
        rcases hmem' with hbefore | heq' | hafter
        · obtain ⟨pre', mid, rfl⟩ := List.append_of_mem hbefore
          have htaken := infoAt_treeBefore_of_before horder hsplit hinfo'
          rw [heq, infoAt_treeBefore hplace] at htaken
          cases htaken
        · exact hsame heq'.symm
        · obtain ⟨mid, post', rfl⟩ := List.append_of_mem hafter
          have hsplit' : copySteps s order = pre ++ (i, n) :: mid ++ (i', n') :: post' := by
            rw [hsplit, List.append_assoc]
            rfl
          have htaken := infoAt_treeBefore_of_before horder hsplit' hinfo
          rw [← heq, infoAt_treeBefore hplace'] at htaken
          cases htaken

end Assembled

end TaskjugglerLsp
