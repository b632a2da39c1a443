import Mathlib.Algebra.Order.Group.Nat
import Mathlib.Data.List.Basic

/-!
# Patches

A patch is a list of edits whose positions all refer to the same original list.
Applying it works from the last edit to the first, so that no edit moves the
positions of the ones still to come; `Fits` says that this is well defined: the
starts ascend, the edited stretches do not overlap, and none leaves the list.

`patch_flatten` moves a patch of a list of equally long chunks to the flat list.
-/

namespace TaskjugglerLsp.Lib

/-- Replace `del` elements from position `start` on by `ins`. -/
structure Edit (α : Type*) where
  start : ℕ
  del : ℕ
  ins : List α
  deriving DecidableEq, Repr

namespace Edit

variable {α : Type*}

/-- The first position after the replaced stretch. -/
def stop (e : Edit α) : ℕ := e.start + e.del

/-- `e` ends before `f` begins, and begins strictly before it. -/
def Before (e f : Edit α) : Prop := e.start < f.start ∧ e.stop ≤ f.start

/-- The edit of a chunked list as an edit of the flat list. -/
def scale (c : ℕ) (e : Edit (List α)) : Edit α := ⟨e.start * c, e.del * c, e.ins.flatten⟩

theorem stop_scale (c : ℕ) (e : Edit (List α)) : (e.scale c).stop = e.stop * c :=
  (Nat.add_mul _ _ _).symm

theorem Before.scale {c : ℕ} (hc : 0 < c) {e f : Edit (List α)} (h : e.Before f) :
    (e.scale c).Before (f.scale c) :=
  ⟨Nat.mul_lt_mul_of_pos_right h.1 hc, by rw [stop_scale]; exact Nat.mul_le_mul_right c h.2⟩

end Edit

section Patch

variable {α : Type*}

/-- One edit, applied. -/
def splice (l : List α) (e : Edit α) : List α := l.take e.start ++ e.ins ++ l.drop e.stop

/-- All edits, applied; every position refers to `l`. -/
def patch (l : List α) (es : List (Edit α)) : List α := es.foldr (fun e acc => splice acc e) l

@[simp] theorem patch_cons (l : List α) (e : Edit α) (es : List (Edit α)) :
    patch l (e :: es) = splice (patch l es) e := rfl

/-- The edits ascend strictly, do not overlap, and stay within a list of length `n`. -/
def Fits (n : ℕ) (es : List (Edit α)) : Prop :=
  es.Pairwise Edit.Before ∧ ∀ e ∈ es, e.stop ≤ n

theorem fits_nil (n : ℕ) : Fits n ([] : List (Edit α)) := ⟨.nil, by simp⟩

theorem fits_cons {n : ℕ} {e : Edit α} {es : List (Edit α)} (h : Fits n es) (he : e.stop ≤ n)
    (hb : ∀ f ∈ es, e.Before f) : Fits n (e :: es) := by
  refine ⟨List.pairwise_cons.mpr ⟨hb, h.1⟩, fun f hf => ?_⟩
  rcases List.mem_cons.mp hf with rfl | hf
  · exact he
  · exact h.2 f hf

theorem Fits.scale {c n : ℕ} (hc : 0 < c) {es : List (Edit (List α))} (h : Fits n es) :
    Fits (n * c) (es.map (Edit.scale c)) := by
  refine ⟨List.pairwise_map.mpr (h.1.imp (fun hb => hb.scale hc)), fun e he => ?_⟩
  obtain ⟨f, hf, rfl⟩ := List.mem_map.mp he
  rw [Edit.stop_scale]
  exact Nat.mul_le_mul_right c (h.2 f hf)

/-! ### Chunked lists -/

/-- Every chunk has length `c`. -/
def Chunked (c : ℕ) (l : List (List α)) : Prop := ∀ t ∈ l, t.length = c

theorem Chunked.take_flatten {c : ℕ} {l : List (List α)} (h : Chunked c l) (n : ℕ) :
    l.flatten.take (n * c) = (l.take n).flatten := by
  induction l generalizing n with
  | nil => simp
  | cons t l ih =>
    cases n with
    | zero => simp
    | succ n =>
      rw [List.flatten_cons, List.take_succ_cons, List.flatten_cons, Nat.succ_mul, Nat.add_comm,
        ← h t (by simp), List.take_length_add_append, h t (by simp),
        ih (fun s hs => h s (List.mem_cons_of_mem t hs))]

theorem Chunked.drop_flatten {c : ℕ} {l : List (List α)} (h : Chunked c l) (n : ℕ) :
    l.flatten.drop (n * c) = (l.drop n).flatten := by
  induction l generalizing n with
  | nil => simp
  | cons t l ih =>
    cases n with
    | zero => simp
    | succ n =>
      rw [List.flatten_cons, List.drop_succ_cons, Nat.succ_mul, Nat.add_comm,
        ← h t (by simp), List.drop_length_add_append, h t (by simp),
        ih (fun s hs => h s (List.mem_cons_of_mem t hs))]

theorem Chunked.splice {c : ℕ} {l : List (List α)} (h : Chunked c l) {e : Edit (List α)}
    (he : Chunked c e.ins) : Chunked c (splice l e) := by
  intro t ht
  simp only [Lib.splice, List.mem_append] at ht
  rcases ht with (ht | ht) | ht
  · exact h t (List.mem_of_mem_take ht)
  · exact he t ht
  · exact h t (List.mem_of_mem_drop ht)

theorem Chunked.patch {c : ℕ} {l : List (List α)} (h : Chunked c l) {es : List (Edit (List α))}
    (he : ∀ e ∈ es, Chunked c e.ins) : Chunked c (patch l es) := by
  induction es with
  | nil => exact h
  | cons e es ih =>
    exact (ih (fun f hf => he f (List.mem_cons_of_mem e hf))).splice (he e (by simp))

/-- **A patch of the chunks is a patch of the flat list.** -/
theorem patch_flatten {c : ℕ} {l : List (List α)} (h : Chunked c l) {es : List (Edit (List α))}
    (he : ∀ e ∈ es, Chunked c e.ins) :
    patch l.flatten (es.map (Edit.scale c)) = (patch l es).flatten := by
  induction es with
  | nil => rfl
  | cons e es ih =>
    have he' : ∀ f ∈ es, Chunked c f.ins := fun f hf => he f (List.mem_cons_of_mem e hf)
    have hc := h.patch he'
    rw [List.map_cons, patch_cons, patch_cons, ih he', splice, splice, Edit.stop_scale]
    simp only [Edit.scale, List.flatten_append, hc.take_flatten, hc.drop_flatten]

end Patch

end TaskjugglerLsp.Lib
