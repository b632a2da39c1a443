import Mathlib.Data.List.Perm.Basic

/-!
# Rose trees in a store

Cells have labels and point to other cells.  `Holds` says that a cell is the root of a given tree;
what is not reached from it does not matter.

* `Holds.frame`: a tree stays when its cells stay as they are.
* `Holds.unfold_eq`: followed from its root, a store gives the tree.
-/

namespace TaskjugglerLsp.Lib

/-- A tree with labels at its nodes, and any number of children. -/
inductive Rose (L : Type*) where
  | node (label : L) (children : List (Rose L))

namespace Rose

variable {L : Type*}

def label : Rose L → L
  | node l _ => l

def children : Rose L → List (Rose L)
  | node _ ts => ts

/-- Something holds of every label of a tree. -/
inductive Every (P : L → Prop) : Rose L → Prop
  | node {l : L} {ts : List (Rose L)} (label : P l) (children : ∀ t ∈ ts, Every P t) :
      Every P (node l ts)

mutual

/-- The labels of a tree, each with that of its parent. -/
def links (parent : Option L) : Rose L → List (Option L × L)
  | node l ts => (parent, l) :: linksAll (some l) ts

/-- The labels of some trees, each with that of its parent. -/
def linksAll (parent : Option L) : List (Rose L) → List (Option L × L)
  | [] => []
  | t :: ts => links parent t ++ linksAll parent ts

end

mutual

def height : Rose L → ℕ
  | node _ ts => heightAll ts + 1

def heightAll : List (Rose L) → ℕ
  | [] => 0
  | t :: ts => max (height t) (heightAll ts)

end

theorem linksAll_append (parent : Option L) (ts us : List (Rose L)) :
    linksAll parent (ts ++ us) = linksAll parent ts ++ linksAll parent us := by
  induction ts with
  | nil => rfl
  | cons t ts ih => rw [List.cons_append, linksAll, linksAll, ih, List.append_assoc]

theorem heightAll_append (ts us : List (Rose L)) :
    heightAll (ts ++ us) = max (heightAll ts) (heightAll us) := by
  induction ts with
  | nil => exact (Nat.zero_max _).symm
  | cons t ts ih => rw [List.cons_append, heightAll, heightAll, ih, Nat.max_assoc]

mutual

theorem exists_node_of_links {Q : Rose L → Prop} (hQ : ∀ l us, Q (node l us) → ∀ u ∈ us, Q u) :
    ∀ (t : Rose L) (parent : Option L), Q t → ∀ link ∈ links parent t, ∃ us, Q (node link.2 us)
  | node l ts, parent, ht => by
    intro link hlink
    rw [links] at hlink
    rcases List.mem_cons.mp hlink with rfl | hlink
    · exact ⟨ts, ht⟩
    · exact exists_node hQ ts (some l) (hQ l ts ht) link hlink

theorem exists_node {Q : Rose L → Prop} (hQ : ∀ l us, Q (node l us) → ∀ u ∈ us, Q u) :
    ∀ (ts : List (Rose L)) (parent : Option L), (∀ t ∈ ts, Q t) →
      ∀ link ∈ linksAll parent ts, ∃ us, Q (node link.2 us)
  | [], _, _ => fun link hlink => by cases hlink
  | t :: ts, parent, hall => by
    intro link hlink
    rw [linksAll] at hlink
    rcases List.mem_append.mp hlink with hlink | hlink
    · exact exists_node_of_links hQ t parent (hall t List.mem_cons_self) link hlink
    · exact exists_node hQ ts parent (fun u hu => hall u (List.mem_cons_of_mem t hu)) link hlink

end

section Store

variable (label : ℕ → L) (kids : ℕ → List ℕ) (inner : ℕ → Prop)

mutual

/-- **A tree is held** by a cell; its cells are inner ones. -/
def Holds : Rose L → ℕ → Prop
  | node l ts, a => inner a ∧ label a = l ∧ HoldsAll ts (kids a)

/-- Trees are held by some cells, one by each. -/
def HoldsAll : List (Rose L) → List ℕ → Prop
  | [], as => as = []
  | t :: ts, as => ∃ a rest, as = a :: rest ∧ Holds t a ∧ HoldsAll ts rest

end

/-- The tree that is found from a cell on, in so many steps. -/
def unfold : ℕ → ℕ → Rose L
  | 0, a => node (label a) []
  | n + 1, a => node (label a) ((kids a).map (unfold n))

variable {label kids inner}

theorem HoldsAll.append {ts us : List (Rose L)} {as bs : List ℕ}
    (h : HoldsAll label kids inner ts as) (h' : HoldsAll label kids inner us bs) :
    HoldsAll label kids inner (ts ++ us) (as ++ bs) := by
  induction ts generalizing as with
  | nil =>
    rw [show as = [] from h]
    exact h'
  | cons t ts ih =>
    obtain ⟨a, rest, rfl, ht, hrest⟩ := h
    exact ⟨a, rest ++ bs, rfl, ht, ih hrest⟩

theorem HoldsAll.split {ts us : List (Rose L)} {cs : List ℕ}
    (h : HoldsAll label kids inner (ts ++ us) cs) :
    ∃ as bs, cs = as ++ bs ∧ HoldsAll label kids inner ts as ∧ HoldsAll label kids inner us bs := by
  induction ts generalizing cs with
  | nil => exact ⟨[], cs, rfl, rfl, h⟩
  | cons t ts ih =>
    obtain ⟨a, rest, rfl, ht, hrest⟩ := h
    obtain ⟨as, bs, rfl, has, hbs⟩ := ih hrest
    exact ⟨a :: as, bs, rfl, ⟨a, as, rfl, ht, has⟩, hbs⟩

theorem Holds.label_eq {t : Rose L} {a : ℕ} (h : Holds label kids inner t a) :
    label a = t.label := by
  cases t
  exact h.2.1

theorem Holds.root_inner {t : Rose L} {a : ℕ} (h : Holds label kids inner t a) : inner a := by
  cases t
  exact h.1

mutual

/-- What holds of every label of a tree, holds of its cells. -/
theorem Holds.refine {P : L → Prop} : ∀ (t : Rose L) (a : ℕ), Holds label kids inner t a →
    Every P t → Holds label kids (fun a => inner a ∧ P (label a)) t a
  | node l ts, a, ⟨ha, hl, hts⟩, .node hlabel hchildren =>
    ⟨⟨ha, by rw [hl]; exact hlabel⟩, hl, HoldsAll.refine ts _ hts hchildren⟩

theorem HoldsAll.refine {P : L → Prop} : ∀ (ts : List (Rose L)) (as : List ℕ),
    HoldsAll label kids inner ts as → (∀ t ∈ ts, Every P t) →
    HoldsAll label kids (fun a => inner a ∧ P (label a)) ts as
  | [], _, h, _ => h
  | t :: ts, _, ⟨a, rest, has, ht, hrest⟩, hall =>
    ⟨a, rest, has, Holds.refine t a ht (hall t List.mem_cons_self),
      HoldsAll.refine ts rest hrest fun u hu => hall u (List.mem_cons_of_mem t hu)⟩

end

variable {label' : ℕ → L} {kids' : ℕ → List ℕ} {inner' : ℕ → Prop}

mutual

/-- **A tree stays** when its cells stay as they are. -/
theorem Holds.frame
    (hsame : ∀ a, inner a → inner' a ∧ label' a = label a ∧ kids' a = kids a) :
    ∀ (t : Rose L) (a : ℕ), Holds label kids inner t a → Holds label' kids' inner' t a
  | node l ts, a, ⟨ha, hl, hts⟩ => by
    obtain ⟨hin, hlabel, hkids⟩ := hsame a ha
    refine ⟨hin, hlabel.trans hl, ?_⟩
    rw [hkids]
    exact HoldsAll.frame hsame ts _ hts

theorem HoldsAll.frame
    (hsame : ∀ a, inner a → inner' a ∧ label' a = label a ∧ kids' a = kids a) :
    ∀ (ts : List (Rose L)) (as : List ℕ), HoldsAll label kids inner ts as →
      HoldsAll label' kids' inner' ts as
  | [], _, h => h
  | t :: ts, _, ⟨a, rest, has, ht, hrest⟩ =>
    ⟨a, rest, has, Holds.frame hsame t a ht, HoldsAll.frame hsame ts rest hrest⟩

end

mutual

/-- **What is found** from the root of a tree on is the tree. -/
theorem Holds.unfold_eq : ∀ (t : Rose L) (a n : ℕ), Holds label kids inner t a →
    t.height ≤ n + 1 → unfold label kids n a = t
  | node l ts, a, 0, ⟨_, hl, hts⟩, hn => by
    have hnil : ts = [] := by
      cases ts with
      | nil => rfl
      | cons t ts =>
        cases t
        simp only [height, heightAll] at hn
        omega
    rw [unfold, hl, hnil]
  | node l ts, a, n + 1, ⟨_, hl, hts⟩, hn => by
    rw [unfold, hl]
    congr 1
    rw [height] at hn
    exact HoldsAll.unfold_eq ts _ n hts (by omega)

theorem HoldsAll.unfold_eq : ∀ (ts : List (Rose L)) (as : List ℕ) (n : ℕ),
    HoldsAll label kids inner ts as → heightAll ts ≤ n + 1 → as.map (unfold label kids n) = ts
  | [], as, n, h, _ => by
    rw [show as = [] from h]
    rfl
  | t :: ts, _, n, ⟨a, rest, has, ht, hrest⟩, hn => by
    rw [heightAll, Nat.max_le] at hn
    rw [has, List.map_cons, Holds.unfold_eq t a n ht hn.1, HoldsAll.unfold_eq ts rest n hrest hn.2]

end

end Store

end Rose

end TaskjugglerLsp.Lib
