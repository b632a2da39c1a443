import Mathlib.Data.List.Induction

/-!
# Arrivals

A stream of messages, some of which carry an item.  `numbered` lists the items,
each with its place in the stream, so that items that look alike stay apart.

* `mem_numbered`: an item of the list is that of the message at its place;
* `numbered_ahead`: what is listed ahead of an item arrived ahead of it.
-/

namespace TaskjugglerLsp.Lib.Arrivals

variable {α β : Type*} (f : α → Option β)

/-- The items of a stream, each with its place in the stream. -/
def numbered (xs : List α) : List (ℕ × β) :=
  xs.zipIdx.filterMap fun x => (f x.1).map fun b => (x.2, b)

theorem numbered_nil : numbered f [] = [] := rfl

theorem numbered_concat (xs : List α) (x : α) :
    numbered f (xs ++ [x]) = numbered f xs ++ ((f x).map fun b => (xs.length, b)).toList := by
  rw [numbered, List.zipIdx_append, List.filterMap_append, ← numbered]
  cases h : f x <;> simp [h]

theorem numbered_take_succ {xs : List α} {n : ℕ} {x : α} (h : xs[n]? = some x) :
    numbered f (xs.take (n + 1))
      = numbered f (xs.take n) ++ ((f x).map fun b => (n, b)).toList := by
  obtain ⟨hn, -⟩ := List.getElem?_eq_some_iff.mp h
  rw [List.take_add_one, h, Option.toList_some, numbered_concat, List.length_take,
    Nat.min_eq_left (Nat.le_of_lt hn)]

theorem numbered_take_le (xs : List α) (n : ℕ) : numbered f (xs.take n) <+: numbered f xs := by
  have happend : ∀ ys zs : List α, numbered f ys <+: numbered f (ys ++ zs) := by
    intro ys zs
    rw [numbered, numbered, List.zipIdx_append, List.filterMap_append]
    exact List.prefix_append _ _
  have hle := happend (xs.take n) (xs.drop n)
  rwa [List.take_append_drop] at hle

variable {f}

theorem mem_numbered {xs : List α} {k : ℕ} {b : β} :
    (k, b) ∈ numbered f xs ↔ ∃ x, xs[k]? = some x ∧ f x = some b := by
  rw [numbered, List.mem_filterMap]
  constructor
  · rintro ⟨⟨x, i⟩, hx, hb⟩
    obtain ⟨b', hf, he⟩ := Option.map_eq_some_iff.mp hb
    obtain ⟨rfl, rfl⟩ := Prod.mk.injEq .. ▸ he
    exact ⟨x, List.mem_zipIdx_iff_getElem?.mp hx, hf⟩
  · rintro ⟨x, hx, hf⟩
    exact ⟨(x, k), List.mem_zipIdx_iff_getElem?.mpr hx, by rw [hf, Option.map_some]⟩

theorem lt_length_of_mem {xs : List α} {x : ℕ × β} (h : x ∈ numbered f xs) : x.1 < xs.length := by
  obtain ⟨y, hy, -⟩ := mem_numbered.mp h
  exact (List.getElem?_eq_some_iff.mp hy).1

theorem nodup_numbered (xs : List α) : ((numbered f xs).map Prod.fst).Nodup := by
  induction xs using List.reverseRecOn with
  | nil => exact List.nodup_nil
  | append_singleton xs x ih =>
    rw [numbered_concat, List.map_append]
    cases f x with
    | none => rwa [Option.map_none, Option.toList_none, List.map_nil, List.append_nil]
    | some b =>
      refine List.nodup_append.mpr ⟨ih, List.nodup_cons.mpr ⟨List.not_mem_nil, List.nodup_nil⟩, ?_⟩
      rintro _ hk _ hk' rfl
      obtain ⟨y, hy, he⟩ := List.mem_map.mp hk
      rw [List.mem_singleton.mp hk'] at he
      exact Nat.ne_of_lt (lt_length_of_mem hy) he

/-- **What is listed ahead of an item** is what arrived ahead of it. -/
theorem numbered_ahead {xs : List α} {l : List (ℕ × β)} {x : ℕ × β}
    (h : l ++ [x] <+: numbered f xs) : l = numbered f (xs.take x.1) := by
  induction xs using List.reverseRecOn with
  | nil =>
    rw [numbered_nil, List.prefix_nil] at h
    exact absurd h (List.append_ne_nil_of_right_ne_nil _ (List.cons_ne_nil _ _))
  | append_singleton xs y ih =>
    have hearlier : l ++ [x] <+: numbered f xs → l = numbered f ((xs ++ [y]).take x.1) := by
      intro hp
      have hx := lt_length_of_mem (hp.subset (List.mem_append_right _ (List.mem_singleton_self x)))
      rw [List.take_append_of_le_length (Nat.le_of_lt hx)]
      exact ih hp
    rw [numbered_concat] at h
    cases hy : f y with
    | none =>
      rw [hy, Option.map_none, Option.toList_none, List.append_nil] at h
      exact hearlier h
    | some b =>
      rw [hy, Option.map_some, Option.toList_some, List.prefix_concat_iff] at h
      rcases h with h | h
      · obtain ⟨rfl, hx⟩ := List.append_inj' h rfl
        obtain rfl := List.singleton_inj.mp hx
        rw [List.take_left]
      · exact hearlier h

end TaskjugglerLsp.Lib.Arrivals
