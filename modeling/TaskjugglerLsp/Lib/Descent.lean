import Mathlib.Data.List.Basic

/-!
# Addresses in a tree and descents by name

A tree is given by the function that lists the children of a node, and a node is
addressed by the child indices on the way to it.  Nodes may carry names, and a
descent follows a list of names from node to node, each time to the first child
with the name.

* `node_append`, `along_append`: addresses are read piece by piece;
* `descend_eq_some`: a descent succeeds exactly along an address every step of
  which goes to the first child of its name (`Follows`);
* `Follows.grow`: a tree that has the nodes of another, under the same names,
  keeps its descents (`Grows`).
-/

namespace TaskjugglerLsp.Lib.Descent

variable {N L : Type*}

section Addresses

variable (children : N → List N)

/-- The node at an address. -/
def node : N → List ℕ → Option N
  | t, [] => some t
  | t, i :: a => (children t)[i]?.bind fun c => node c a

/-- The nodes that an address passes, without the one it starts at. -/
def along : N → List ℕ → List N
  | _, [] => []
  | t, i :: a =>
    match (children t)[i]? with
    | some c => c :: along c a
    | none => []

variable {children}

theorem node_append (t : N) (a b : List ℕ) :
    node children t (a ++ b) = (node children t a).bind fun u => node children u b := by
  induction a generalizing t with
  | nil => rfl
  | cons i a ih =>
    rw [List.cons_append, node, node]
    cases (children t)[i]? with
    | none => rfl
    | some c => exact ih c

theorem node_cons_eq_some {t u : N} {i : ℕ} {a : List ℕ} :
    node children t (i :: a) = some u ↔
      ∃ c, (children t)[i]? = some c ∧ node children c a = some u := by
  rw [node, Option.bind_eq_some_iff]

theorem along_append {t u : N} {a : List ℕ} (h : node children t a = some u) (b : List ℕ) :
    along children t (a ++ b) = along children t a ++ along children u b := by
  induction a generalizing t with
  | nil =>
    rw [node, Option.some.injEq] at h
    rw [h]
    rfl
  | cons i a ih =>
    obtain ⟨c, hc, hu⟩ := node_cons_eq_some.mp h
    rw [List.cons_append, along, along, hc]
    exact congrArg (c :: ·) (ih hu)

theorem length_along {t u : N} {a : List ℕ} (h : node children t a = some u) :
    (along children t a).length = a.length := by
  induction a generalizing t with
  | nil => rfl
  | cons i a ih =>
    obtain ⟨c, hc, hu⟩ := node_cons_eq_some.mp h
    rw [along, hc, List.length_cons, List.length_cons, ih hu]

theorem exists_of_mem_along {t c : N} {a : List ℕ} (h : c ∈ along children t a) :
    ∃ b, b ≠ [] ∧ node children t b = some c := by
  induction a generalizing t with
  | nil => cases h
  | cons i a ih =>
    rw [along] at h
    cases hi : (children t)[i]? with
    | none =>
      rw [hi] at h
      cases h
    | some u =>
      rw [hi] at h
      rcases List.mem_cons.mp h with rfl | h
      · exact ⟨[i], by simp, node_cons_eq_some.mpr ⟨c, hi, rfl⟩⟩
      · obtain ⟨b, -, hb⟩ := ih h
        exact ⟨i :: b, by simp, node_cons_eq_some.mpr ⟨u, hi, hb⟩⟩

theorem getLast?_along {t u : N} {a : List ℕ} (h : node children t a = some u) (ha : a ≠ []) :
    (along children t a).getLast? = some u := by
  induction a generalizing t with
  | nil => exact absurd rfl ha
  | cons i a ih =>
    obtain ⟨c, hc, hu⟩ := node_cons_eq_some.mp h
    have hcons : along children t (i :: a) = c :: along children c a := by rw [along, hc]
    rw [hcons, List.getLast?_cons]
    cases a with
    | nil =>
      rw [node, Option.some.injEq] at hu
      rw [hu]
      rfl
    | cons j a =>
      rw [ih hu (by simp)]
      rfl

end Addresses

/-! ### Descents -/

section Names

variable [DecidableEq L] (children : N → List N) (name : N → Option L)

/-- The descent along some names, by the first child of each. -/
def descend : List L → N → Option (List ℕ)
  | [], _ => some []
  | n :: names, t =>
    ((children t).findIdx? fun c => decide (name c = some n)).bind fun i =>
      (children t)[i]?.bind fun c => (descend names c).map (i :: ·)

omit [DecidableEq L] in
/-- An address every step of which goes to the first child of its name. -/
inductive Follows : N → List ℕ → List L → Prop
  | here (t : N) : Follows t [] []
  | step {t c : N} {i : ℕ} {n : L} {a : List ℕ} {names : List L} :
    (children t)[i]? = some c → name c = some n →
    (∀ j < i, ∀ c', (children t)[j]? = some c' → name c' ≠ some n) →
    Follows c a names → Follows t (i :: a) (n :: names)

variable {children name}

/-- **A descent succeeds** exactly along the addresses whose steps are firsts. -/
theorem descend_eq_some {names : List L} {t : N} {a : List ℕ} :
    descend children name names t = some a ↔ Follows children name t a names := by
  induction names generalizing t a with
  | nil =>
    rw [descend, Option.some.injEq]
    constructor
    · rintro rfl
      exact .here t
    · intro h
      cases h
      rfl
  | cons n names ih =>
    simp only [descend, Option.bind_eq_some_iff, Option.map_eq_some_iff]
    constructor
    · rintro ⟨i, hi, c, hc, b, hb, rfl⟩
      obtain ⟨hlt, hname, hfirst⟩ := List.findIdx?_eq_some_iff_getElem.mp hi
      have hci := hc
      rw [List.getElem?_eq_getElem hlt, Option.some.injEq] at hci
      subst hci
      refine .step hc (by simpa using hname) (fun j hj c' hc' => ?_) (ih.mp hb)
      have hj' := hfirst j hj
      rw [List.getElem?_eq_getElem (Nat.lt_trans hj hlt), Option.some.injEq] at hc'
      subst hc'
      simpa using hj'
    · intro h
      cases h with
      | @step _ c i _ b _ hc hn hfirst hb =>
        obtain ⟨hlt, hci⟩ := List.getElem?_eq_some_iff.mp hc
        refine ⟨i, List.findIdx?_eq_some_iff_getElem.mpr ⟨hlt, by simp [hci, hn], ?_⟩, c, hc, b,
          ih.mpr hb, rfl⟩
        intro j hj
        have := hfirst j hj _ (List.getElem?_eq_getElem (Nat.lt_trans hj hlt))
        simpa using this

omit [DecidableEq L] in
theorem Follows.node {t : N} {a : List ℕ} {names : List L} (h : Follows children name t a names) :
    ∃ u, Descent.node children t a = some u := by
  induction h with
  | here t => exact ⟨t, rfl⟩
  | step hc _ _ _ ih =>
    obtain ⟨u, hu⟩ := ih
    exact ⟨u, node_cons_eq_some.mpr ⟨_, hc, hu⟩⟩

omit [DecidableEq L] in
theorem Follows.names_along {t : N} {a : List ℕ} {names : List L}
    (h : Follows children name t a names) :
    (along children t a).map name = names.map some := by
  induction h with
  | here t => rfl
  | step hc hn _ _ ih => rw [along, hc, List.map_cons, List.map_cons, hn, ih]

omit [DecidableEq L] in
theorem Follows.length {t : N} {a : List ℕ} {names : List L}
    (h : Follows children name t a names) : names.length = a.length := by
  induction h with
  | here t => rfl
  | step _ _ _ _ ih => rw [List.length_cons, List.length_cons, ih]

omit [DecidableEq L] in
theorem Follows.append {t u : N} {a b : List ℕ} {names names' : List L}
    (h : Follows children name t a names) (hu : Descent.node children t a = some u)
    (h' : Follows children name u b names') :
    Follows children name t (a ++ b) (names ++ names') := by
  induction h with
  | here t =>
    rw [Descent.node, Option.some.injEq] at hu
    subst hu
    exact h'
  | step hc hn hfirst _ ih =>
    obtain ⟨c', hc', hu'⟩ := node_cons_eq_some.mp hu
    obtain rfl := Option.some.inj (hc.symm.trans hc')
    exact .step hc hn hfirst (ih hu')

omit [DecidableEq L] in
/-- A descent along a longer address is one along the rest of it. -/
theorem Follows.drop {t u : N} {a b : List ℕ} {names : List L}
    (h : Follows children name t (a ++ b) names) (hu : Descent.node children t a = some u) :
    Follows children name u b (names.drop a.length) := by
  induction a generalizing t names with
  | nil =>
    rw [Descent.node, Option.some.injEq] at hu
    subst hu
    exact h
  | cons i a ih =>
    obtain ⟨c', hc', hu'⟩ := node_cons_eq_some.mp hu
    cases h with
    | step hc _ _ h =>
      obtain rfl := Option.some.inj (hc.symm.trans hc')
      exact ih h hu'

omit [DecidableEq L] in
variable (children name) in
/-- Every node of the first tree is at its address in the second, with its name. -/
def Grows (t t' : N) : Prop :=
  ∀ a u, Descent.node children t a = some u →
    ∃ u', Descent.node children t' a = some u' ∧ name u' = name u

omit [DecidableEq L] in
theorem Grows.child {t t' c : N} {i : ℕ} (h : Grows children name t t')
    (hc : (children t)[i]? = some c) :
    ∃ c', (children t')[i]? = some c' ∧ name c' = name c ∧ Grows children name c c' := by
  obtain ⟨_, hu, hn⟩ := h [i] c (node_cons_eq_some.mpr ⟨c, hc, rfl⟩)
  obtain ⟨c', hc', hnode⟩ := node_cons_eq_some.mp hu
  obtain rfl := Option.some.inj hnode
  refine ⟨_, hc', hn, fun a v hv => ?_⟩
  obtain ⟨v', hv', hnv⟩ := h (i :: a) v (node_cons_eq_some.mpr ⟨c, hc, hv⟩)
  obtain ⟨d, hd, hv''⟩ := node_cons_eq_some.mp hv'
  obtain rfl := Option.some.inj (hc'.symm.trans hd)
  exact ⟨v', hv'', hnv⟩

omit [DecidableEq L] in
/-- **A grown tree keeps its descents**: the new children come behind the old. -/
theorem Follows.grow {t t' : N} {a : List ℕ} {names : List L}
    (h : Follows children name t a names) (hg : Grows children name t t') :
    Follows children name t' a names := by
  induction h generalizing t' with
  | here t => exact .here t'
  | @step t c i n a names hc hn hfirst _ ih =>
    obtain ⟨c', hc', hname, hgc⟩ := hg.child hc
    refine .step hc' (hname.trans hn) (fun j hj d hd => ?_) (ih hgc)
    have hlt := (List.getElem?_eq_some_iff.mp hc).1
    obtain ⟨d', hd', hname', -⟩ := hg.child (List.getElem?_eq_getElem (Nat.lt_trans hj hlt))
    obtain rfl := Option.some.inj (hd.symm.trans hd')
    rw [hname']
    exact hfirst j hj _ (List.getElem?_eq_getElem (Nat.lt_trans hj hlt))

end Names

end TaskjugglerLsp.Lib.Descent
