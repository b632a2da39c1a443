import Mathlib.Data.Finset.Basic
import Mathlib.Data.Fintype.EquivFin
import Mathlib.Data.List.Count
import Mathlib.Logic.Function.Basic

/-!
# Reference counting

Shared objects in a heap, each with a count of the references to it.  An object
is stored once, when it is created; it goes when its last reference is released.

* `Counts.contents_release`: what is still referred to outlives a release;
* `Counts.contents_isSome`: what is referred to is there.
-/

namespace TaskjugglerLsp.Lib.RefCount

variable {ι α : Type*} [DecidableEq ι]

/-- The objects there are, each with the count of its references. -/
abbrev Heap (ι α : Type*) := ι → Option (ℕ × α)

namespace Heap

variable (h : Heap ι α)

/-- What is stored in an object. -/
def contents (a : ι) : Option α := (h a).map (·.2)

/-- A new object, with one reference to it. -/
def create (a : ι) (v : α) : Heap ι α := Function.update h a (some (1, v))

/-- One more reference. -/
def acquire (a : ι) : Heap ι α := Function.update h a ((h a).map fun c => (c.1 + 1, c.2))

/-- One reference less; the last one takes the object with it. -/
def release (a : ι) : Heap ι α :=
  Function.update h a ((h a).bind fun c => if c.1 ≤ 1 then none else some (c.1 - 1, c.2))

/-- The counts are those of a list of references. -/
def Counts (held : List ι) : Prop :=
  ∀ a, (h a).map (·.1) = if held.count a = 0 then none else some (held.count a)

variable {h} {held held' : List ι} {a b : ι} {v : α}

theorem counts_nil : Counts (fun _ => none : Heap ι α) [] := fun _ => rfl

theorem Counts.perm (hc : h.Counts held) (hp : held.Perm held') : h.Counts held' := by
  intro a
  rw [← hp.count_eq a]
  exact hc a

/-! ### What each operation does to the contents -/

theorem contents_create_self : (h.create a v).contents a = some v := by
  rw [contents, create, Function.update_self, Option.map_some]

theorem contents_create_of_ne (hb : b ≠ a) : (h.create a v).contents b = h.contents b := by
  rw [contents, create, Function.update_of_ne hb, contents]

theorem contents_acquire : (h.acquire a).contents b = h.contents b := by
  by_cases hb : b = a
  · subst hb
    rw [contents, acquire, Function.update_self, Option.map_map, contents]
    rfl
  · rw [contents, acquire, Function.update_of_ne hb, contents]

theorem contents_release_of_ne (hb : b ≠ a) : (h.release a).contents b = h.contents b := by
  rw [contents, release, Function.update_of_ne hb, contents]

/-! ### What each operation does to the counts -/

theorem Counts.count_eq (hc : h.Counts held) {n : ℕ} (ha : h a = some (n, v)) :
    held.count a = n := by
  have h1 := hc a
  rw [ha, Option.map_some] at h1
  by_cases h0 : held.count a = 0
  · rw [if_pos h0] at h1
    cases h1
  · rw [if_neg h0, Option.some.injEq] at h1
    exact h1.symm

theorem Counts.contents_isSome (hc : h.Counts held) (ha : a ∈ held) :
    (h.contents a).isSome = true := by
  have h1 := hc a
  rw [if_neg (List.count_pos_iff.mpr ha).ne'] at h1
  rw [contents, Option.isSome_map, ← Option.isSome_map (f := fun c : ℕ × α => c.1), h1]
  rfl

theorem Counts.notMem (hc : h.Counts held) (ha : h a = none) : a ∉ held := by
  intro hmem
  have h1 := hc.contents_isSome hmem
  rw [contents, ha] at h1
  cases h1

/-- There is room for another object. -/
theorem Counts.exists_free [Infinite ι] (hc : h.Counts held) : ∃ a, h a = none := by
  obtain ⟨a, ha⟩ := Infinite.exists_notMem_finset held.toFinset
  refine ⟨a, ?_⟩
  have h1 := hc a
  rw [if_pos (List.count_eq_zero.mpr fun hm => ha (List.mem_toFinset.mpr hm)),
    Option.map_eq_none_iff] at h1
  exact h1

theorem Counts.create (hc : h.Counts held) (ha : h a = none) :
    (h.create a v).Counts (a :: held) := by
  intro b
  by_cases hb : b = a
  · subst hb
    rw [Heap.create, Function.update_self, List.count_cons_self,
      List.count_eq_zero.mpr (hc.notMem ha)]
    rfl
  · rw [Heap.create, Function.update_of_ne hb, List.count_cons_of_ne (Ne.symm hb)]
    exact hc b

theorem Counts.acquire (hc : h.Counts held) (ha : a ∈ held) :
    (h.acquire a).Counts (a :: held) := by
  intro b
  by_cases hb : b = a
  · subst hb
    have h1 := hc b
    rw [if_neg (List.count_pos_iff.mpr ha).ne'] at h1
    obtain ⟨⟨n, v⟩, hv, rfl⟩ := Option.map_eq_some_iff.mp h1
    rw [Heap.acquire, Function.update_self, hv, List.count_cons_self, if_neg (Nat.succ_ne_zero _)]
    exact congrArg (fun n => some (n + 1)) (hc.count_eq hv).symm
  · rw [Heap.acquire, Function.update_of_ne hb, List.count_cons_of_ne (Ne.symm hb)]
    exact hc b

theorem Counts.release (hc : h.Counts (a :: held)) : (h.release a).Counts held := by
  intro b
  by_cases hb : b = a
  · subst hb
    have h1 := hc b
    rw [List.count_cons_self, if_neg (Nat.succ_ne_zero _)] at h1
    obtain ⟨⟨n, v⟩, hv, hn⟩ := Option.map_eq_some_iff.mp h1
    simp only at hn
    subst hn
    rw [Heap.release, Function.update_self, hv, Option.bind_some]
    by_cases h0 : held.count b = 0
    · rw [if_pos h0, if_pos (by rw [h0]), Option.map_none]
    · rw [if_neg h0, if_neg (by omega)]
      rfl
  · rw [Heap.release, Function.update_of_ne hb, ← List.count_cons_of_ne (Ne.symm hb)]
    exact hc b

/-- **What is still referred to** outlives a release. -/
theorem Counts.contents_release (hc : h.Counts (a :: held)) (hb : b ∈ held) :
    (h.release a).contents b = h.contents b := by
  by_cases hba : b = a
  · subst hba
    have hlive := hc.contents_isSome List.mem_cons_self
    obtain ⟨v, hv⟩ := Option.isSome_iff_exists.mp hlive
    obtain ⟨⟨n, w⟩, hn, rfl⟩ := Option.map_eq_some_iff.mp hv
    have hcount := hc.count_eq hn
    rw [List.count_cons_self] at hcount
    have hpos := List.count_pos_iff.mpr hb
    rw [contents, Heap.release, Function.update_self, hn, Option.bind_some, if_neg (by omega), hv]
    rfl
  · exact contents_release_of_ne hba

end Heap

end TaskjugglerLsp.Lib.RefCount
