import Mathlib.Data.List.Nodup
import TaskjugglerLsp.Lib.RoseTree
import TaskjugglerLsp.Lib.Descent

/-!
# The places of labels in a tree

Every label of a tree has an address, and the labels with their addresses can be listed in the order
of the tree.  Labels whose keys are all different are thus found at one address each.

* `mem_placesAll`: the label at an address is in the list.
* `address_inj`: a key is at one address.
-/

namespace TaskjugglerLsp.Lib.Rose

variable {L K : Type*}

mutual

/-- The labels of a tree with their addresses. -/
def places : Rose L → List (List ℕ × L)
  | node l ts => ([], l) :: placesAll 0 ts

/-- The labels of some trees with their addresses, the first of which is at this index. -/
def placesAll (i : ℕ) : List (Rose L) → List (List ℕ × L)
  | [] => []
  | t :: ts => (places t).map (fun p => (i :: p.1, p.2)) ++ placesAll (i + 1) ts

end

mutual

theorem map_places (parent : Option L) : ∀ t : Rose L,
    t.places.map (·.2) = (t.links parent).map (·.2)
  | node l ts => congrArg (l :: ·) (map_placesAll (some l) 0 ts)

/-- **The places of some trees** are those of their labels, in their order. -/
theorem map_placesAll (parent : Option L) : ∀ (i : ℕ) (ts : List (Rose L)),
    (placesAll i ts).map (·.2) = (linksAll parent ts).map (·.2)
  | _, [] => rfl
  | i, t :: ts => by
    rw [placesAll, linksAll, List.map_append, List.map_append, List.map_map]
    exact congrArg₂ (· ++ ·) (map_places parent t) (map_placesAll parent (i + 1) ts)

end

theorem mem_placesAll_of_tree {ts : List (Rose L)} {t : Rose L} {p : List ℕ × L} (hp : p ∈ t.places)
    {i j : ℕ} (ht : ts[j]? = some t) : ((i + j) :: p.1, p.2) ∈ placesAll i ts := by
  induction ts generalizing i j with
  | nil => cases ht
  | cons u ts ih =>
    rw [placesAll]
    cases j with
    | zero =>
      obtain rfl : u = t := Option.some.inj ht
      exact List.mem_append_left _ (List.mem_map_of_mem hp)
    | succ j =>
      have htail := ih (i := i + 1) (j := j) ht
      rw [Nat.add_right_comm] at htail
      exact List.mem_append_right _ htail

theorem mem_places {t u : Rose L} {a : List ℕ} (h : Descent.node children t a = some u) :
    (a, u.label) ∈ t.places := by
  induction a generalizing t with
  | nil =>
    obtain rfl : t = u := Option.some.inj h
    cases t
    exact List.mem_cons_self
  | cons i a ih =>
    obtain ⟨c, hc, hu⟩ := Descent.node_cons_eq_some.mp h
    obtain ⟨l, ts⟩ := t
    have hmem := mem_placesAll_of_tree (ih hu) (i := 0) hc
    rw [Nat.zero_add] at hmem
    exact List.mem_cons_of_mem _ hmem

theorem mem_placesAll {t u : Rose L} {a : List ℕ} (h : Descent.node children t a = some u)
    (ha : a ≠ []) : (a, u.label) ∈ placesAll 0 t.children := by
  obtain ⟨l, ts⟩ := t
  have hmem := mem_places h
  rw [places] at hmem
  rcases List.mem_cons.mp hmem with heq | hmem
  · exact absurd (congrArg Prod.fst heq) ha
  · exact hmem

/-- **A key is at one address** where no two of the labels that count have the same one. -/
theorem address_inj {key : L → K} {p : L → Bool} {parent : Option L} {t u v : Rose L}
    (h : (((linksAll parent t.children).map (·.2)).filter p |>.map key).Nodup) {a b : List ℕ}
    (hu : Descent.node children t a = some u) (hv : Descent.node children t b = some v)
    (ha : a ≠ []) (hb : b ≠ []) (hpu : p u.label = true) (hpv : p v.label = true)
    (hkey : key u.label = key v.label) : a = b := by
  rw [← map_placesAll parent 0, List.filter_map, List.map_map] at h
  have hmem {c : List ℕ} {w : Rose L} (hw : Descent.node children t c = some w) (hc : c ≠ [])
      (hpw : p w.label = true) :
      (c, w.label) ∈ (placesAll 0 t.children).filter (p ∘ fun x => x.2) :=
    List.mem_filter.mpr ⟨mem_placesAll hw hc, hpw⟩
  exact congrArg Prod.fst (List.inj_on_of_nodup_map h (hmem hu ha hpu) (hmem hv hb hpv) hkey)

theorem labels_subset {parent more : Option L} {t : Rose L} {ts : List (Rose L)} (ht : t ∈ ts) :
    (t.links parent).map (·.2) ⊆ (linksAll more ts).map (·.2) := by
  rw [← map_places parent t, map_places more t]
  induction ts with
  | nil => cases ht
  | cons u ts ih =>
    rw [linksAll, List.map_append]
    rcases List.mem_cons.mp ht with rfl | ht
    · exact List.subset_append_left _ _
    · exact List.Subset.trans (ih ht) (List.subset_append_right _ _)

end TaskjugglerLsp.Lib.Rose
