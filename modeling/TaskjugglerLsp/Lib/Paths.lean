import Mathlib.Data.List.Basic
import Mathlib.Data.List.Induction

/-!
# Paths of names

A path is a list of names, and one of the names, `up`, leads to the directory above.  A path that
never climbs above the directory where it starts (`StaysBelow`) leads from every directory to the
same place in it (`StaysBelow.resolve_eq`), so it may be moved to another directory
(`position_append`).
-/

namespace TaskjugglerLsp.Lib.Paths

variable {α : Type*} [DecidableEq α] (up : α)

/-- The directory after a name, from the root down. -/
def enter (dir : List α) (name : α) : List α := if name = up then dir.dropLast else dir ++ [name]

/-- Where a path leads from a directory; there is nothing above the root. -/
def resolve (dir path : List α) : List α := path.foldl (enter up) dir

/-- From so many levels down, a path never climbs above its start. -/
def Keeps : ℕ → List α → Prop
  | _, [] => True
  | 0, name :: path => name ≠ up ∧ Keeps 1 path
  | n + 1, name :: path => Keeps (if name = up then n else n + 2) path

instance : ∀ n path, Decidable (Keeps up n path)
  | _, [] => isTrue trivial
  | 0, _ :: path => @instDecidableAnd _ _ _ (instDecidableKeeps 1 path)
  | n + 1, name :: path => instDecidableKeeps (if name = up then n else n + 2) path

/-- A path stays below the directory where it starts. -/
def StaysBelow (path : List α) : Prop := Keeps up 0 path

instance (path : List α) : Decidable (StaysBelow up path) := instDecidableKeeps up 0 path

/-- The way from one place to another: so many levels up, and then down. -/
def position : List α → List α → ℕ × List α
  | x :: a, y :: b => if x = y then position a b else (a.length + 1, y :: b)
  | a, b => (a.length, b)

variable {up}

theorem resolve_concat (dir a b : List α) :
    resolve up dir (a ++ b) = resolve up (resolve up dir a) b := List.foldl_append

/-- A path that does not climb above its start leads to the same place in every directory. -/
theorem resolve_append_of_keeps {path : List α} (dir : List α) {x : List α}
    (h : Keeps up x.length path) : resolve up (dir ++ x) path = dir ++ resolve up x path := by
  induction path generalizing x with
  | nil => rfl
  | cons name path ih =>
    have hstep : enter up (dir ++ x) name = dir ++ enter up x name ∧
        Keeps up (enter up x name).length path := by
      unfold enter
      cases x using List.reverseRecOn with
      | nil =>
        obtain ⟨hne, hrest⟩ := h
        rw [if_neg hne, if_neg hne]
        exact ⟨by simp, hrest⟩
      | append_singleton x last =>
        rw [List.length_append, List.length_singleton, Keeps] at h
        split_ifs at h ⊢ with hup
        · rw [← List.append_assoc, List.dropLast_concat, List.dropLast_concat]
          exact ⟨rfl, h⟩
        · exact ⟨by simp, by simpa using h⟩
    show resolve up (enter up (dir ++ x) name) path = dir ++ resolve up (enter up x name) path
    rw [hstep.1]
    exact ih hstep.2

/-- **A path that stays below** leads to the same place in every directory. -/
theorem StaysBelow.resolve_eq {path : List α} (h : StaysBelow up path) (dir : List α) :
    resolve up dir path = dir ++ resolve up [] path := by
  have := resolve_append_of_keeps dir (x := []) h
  rwa [List.append_nil] at this

/-- **The way between two places** of a directory does not depend on the directory. -/
theorem position_append (dir a b : List α) : position (dir ++ a) (dir ++ b) = position a b := by
  induction dir with
  | nil => rfl
  | cons name dir ih => rw [List.cons_append, List.cons_append, position, if_pos rfl, ih]

end TaskjugglerLsp.Lib.Paths
