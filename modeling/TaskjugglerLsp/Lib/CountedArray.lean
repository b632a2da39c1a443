import Mathlib.Algebra.GroupWithZero.Nat
import Mathlib.Data.List.TakeWhile
import Mathlib.Tactic.Common

/-!
# Arrays that are written at a counter

An array with a fixed number of cells is filled from its begin, each store at a counter that is a
signed integer of 32 bits and goes up by one.  A store outside the array has no result, and so
has one at a counter that has wrapped around.

`storeAll_spec`: what is stored stands at the begin of the array, as long as there is room and the
counter has not wrapped around; further stores have no result.
-/

namespace TaskjugglerLsp.Lib

/-- The cells of an array, and the counter of what is stored. -/
structure CountedArray (α : Type*) where
  cells : List α
  count : ℤ

namespace CountedArray

variable {α : Type*}

/-- `cells[count++] = x`. -/
def store (a : CountedArray α) (x : α) : Option (CountedArray α) :=
  if 0 ≤ a.count ∧ a.count.toNat < a.cells.length then
    some ⟨a.cells.set a.count.toNat x, (a.count + 1).bmod (2 ^ 32)⟩
  else none

/-- One store after the other. -/
def storeAll (a : CountedArray α) (xs : List α) : Option (CountedArray α) := xs.foldlM store a

/-- An array of `cap` cells holds `l`. -/
structure Holds (a : CountedArray α) (cap : ℕ) (l : List α) : Prop where
  length_cells : a.cells.length = cap
  count_eq : a.count = l.length
  take_cells : a.cells.take l.length = l

variable {a : CountedArray α} {cap : ℕ} {l : List α}

theorem holds_new (x : α) (cap : ℕ) : Holds ⟨List.replicate cap x, 0⟩ cap [] where
  length_cells := List.length_replicate
  count_eq := rfl
  take_cells := rfl

/-- A store inside the array; the counter may wrap around. -/
theorem Holds.store (h : a.Holds cap l) (hcap : l.length < cap) (x : α) :
    ∃ b, a.store x = some b ∧ b.cells.length = cap ∧
      b.count = ((l.length : ℤ) + 1).bmod (2 ^ 32) ∧ b.cells.take (l ++ [x]).length = l ++ [x] := by
  have hin : l.length < a.cells.length := by rw [h.length_cells]; exact hcap
  have hstore : a.store x = some ⟨a.cells.set l.length x, ((l.length : ℤ) + 1).bmod (2 ^ 32)⟩ := by
    rw [CountedArray.store, h.count_eq, Int.toNat_natCast, if_pos ⟨Int.natCast_nonneg _, hin⟩]
  refine ⟨_, hstore, ?_, by simp only, ?_⟩
  · rw [List.length_set, h.length_cells]
  · have htake : (a.cells.set l.length x).take l.length = l := by
      rw [List.take_set_of_le (Nat.le_refl _), h.take_cells]
    rw [List.length_append, List.length_singleton, List.take_add_one, htake,
      List.getElem?_set_self hin]
    rfl

theorem Holds.length_le (h : a.Holds cap l) : l.length ≤ cap := by
  have hlen := congrArg List.length h.take_cells
  rw [List.length_take, h.length_cells] at hlen
  omega

/-- **What is stored stands in the array** as long as there is room and the counter has not wrapped
around; behind that, there is no result. -/
theorem storeAll_spec (h : a.Holds cap l) (hlt : l.length < 2 ^ 31) (xs : List α) :
    (l.length + xs.length ≤ cap → l.length + xs.length < 2 ^ 31 →
      ∃ b, a.storeAll xs = some b ∧ b.Holds cap (l ++ xs)) ∧
    (cap < l.length + xs.length ∨ 2 ^ 31 < l.length + xs.length → a.storeAll xs = none) := by
  induction xs generalizing a l with
  | nil =>
    have hle := h.length_le
    rw [List.append_nil]
    exact ⟨fun _ _ => ⟨a, rfl, h⟩, fun hover => absurd hover (by rw [List.length_nil]; omega)⟩
  | cons x xs ih =>
    rw [List.length_cons]
    by_cases hroom : l.length < cap
    case neg =>
      -- the array is full
      refine ⟨fun hfits => by omega, fun _ => ?_⟩
      have hfull : ¬ (0 ≤ a.count ∧ a.count.toNat < a.cells.length) := by
        rw [h.count_eq, Int.toNat_natCast, h.length_cells]
        exact fun hin => hroom hin.2
      rw [storeAll, List.foldlM_cons, CountedArray.store, if_neg hfull]
      rfl
    obtain ⟨b, hb, hsize, hcount, htake⟩ := h.store hroom x
    have hrun : a.storeAll (x :: xs) = b.storeAll xs := by
      rw [storeAll, List.foldlM_cons, hb]
      rfl
    rw [hrun]
    by_cases hnext : l.length + 1 < 2 ^ 31
    · have hholds : b.Holds cap (l ++ [x]) := by
        refine ⟨hsize, ?_, htake⟩
        rw [hcount, List.length_append, List.length_singleton]
        exact Int.bmod_eq_of_le (by omega) (by omega)
      have hlen : (l ++ [x]).length = l.length + 1 := by simp
      have hrest := ih hholds (by omega)
      rw [hlen, List.append_assoc, List.singleton_append] at hrest
      rw [← Nat.succ_add_eq_add_succ]
      exact hrest
    · refine ⟨fun _ hfits => by omega, fun hover => ?_⟩
      have hmax : (l.length : ℤ) + 1 = 2 ^ 31 := by omega
      -- the counter is negative now, and another store follows
      have hneg : b.count < 0 := by
        rw [hcount, hmax]
        decide
      obtain ⟨y, ys, rfl⟩ : ∃ y ys, xs = y :: ys := by
        cases xs with
        | nil => rw [List.length_nil] at hover; omega
        | cons y ys => exact ⟨y, ys, rfl⟩
      rw [storeAll, List.foldlM_cons, CountedArray.store, if_neg fun hin => by omega]
      rfl

end CountedArray

end TaskjugglerLsp.Lib
