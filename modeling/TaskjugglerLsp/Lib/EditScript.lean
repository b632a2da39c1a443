import Mathlib.Order.Bounds.Basic
import TaskjugglerLsp.Lib.EditGraph

/-!
# Edit scripts and common subsequences

A script deletes, inserts and keeps elements in order.  It has two edits fewer for
each element it keeps, so the shortest scripts are those that keep a longest common
subsequence (`exists_isLcs_of_isLeast`, `isLeast_of_isLcs`).  Cutting off a common
beginning and a common end loses nothing (`IsLcs.surround`), and the scripts of two
lists are the walks of their edit graph (`script_iff_walk`).
-/

namespace TaskjugglerLsp.Lib.EditGraph

variable {α : Type*}

/-- `Script s t l`: the moves `l` turn `s` into `t`. -/
inductive Script : List α → List α → List Move → Prop
  | nil : Script [] [] []
  | keep (a : α) {s t : List α} {l : List Move} : Script s t l →
      Script (a :: s) (a :: t) (.keep :: l)
  | del (a : α) {s t : List α} {l : List Move} : Script s t l → Script (a :: s) t (.del :: l)
  | ins (b : α) {s t : List α} {l : List Move} : Script s t l → Script s (b :: t) (.ins :: l)

/-- The numbers of edits of the scripts from `s` to `t`. -/
def scriptCosts (s t : List α) : Set ℕ := {n | ∃ l, Script s t l ∧ edits l = n}

/-- The lengths of the common subsequences of `s` and `t`. -/
def commonLengths (s t : List α) : Set ℕ := {n | ∃ c : List α, c.Sublist s ∧ c.Sublist t ∧ c.length = n}

/-- `n` is the length of a longest common subsequence. -/
def IsLcs (s t : List α) (n : ℕ) : Prop := IsGreatest (commonLengths s t) n

/-! ### Scripts and what they keep -/

/-- The elements that a script keeps are common to both lists. -/
theorem Script.exists_common {s t : List α} {l : List Move} (h : Script s t l) :
    ∃ c : List α, c.Sublist s ∧ c.Sublist t ∧ edits l + 2 * c.length = s.length + t.length := by
  induction h with
  | nil => exact ⟨[], .slnil, .slnil, rfl⟩
  | keep a _ ih =>
    obtain ⟨c, hs, ht, hlen⟩ := ih
    refine ⟨a :: c, hs.cons_cons a, ht.cons_cons a, ?_⟩
    simp only [edits_keep, List.length_cons]
    omega
  | del a _ ih =>
    obtain ⟨c, hs, ht, hlen⟩ := ih
    refine ⟨c, hs.cons a, ht, ?_⟩
    simp only [edits_del, List.length_cons]
    omega
  | ins b _ ih =>
    obtain ⟨c, hs, ht, hlen⟩ := ih
    refine ⟨c, hs, ht.cons b, ?_⟩
    simp only [edits_ins, List.length_cons]
    omega

theorem script_replicate_ins (t : List α) : Script [] t (List.replicate t.length .ins) := by
  induction t with
  | nil => exact .nil
  | cons b t ih => exact .ins b ih

/-- A common subsequence is kept by some script. -/
theorem exists_script {c s t : List α} (hs : c.Sublist s) (ht : c.Sublist t) :
    ∃ l, Script s t l ∧ edits l + 2 * c.length = s.length + t.length := by
  induction hs generalizing t with
  | slnil =>
    refine ⟨_, script_replicate_ins t, ?_⟩
    rw [edits_replicate_ins, List.length_nil]
    omega
  | cons a _ ih =>
    obtain ⟨l, hl, hlen⟩ := ih ht
    refine ⟨.del :: l, hl.del a, ?_⟩
    simp only [edits_del, List.length_cons]
    omega
  | cons_cons a _ ih =>
    -- the kept element `a` is found in `t` after some insertions
    induction t with
    | nil => cases ht
    | cons b t iht =>
      cases ht with
      | cons _ ht =>
        obtain ⟨l, hl, hlen⟩ := iht ht
        refine ⟨.ins :: l, hl.ins b, ?_⟩
        simp only [edits_ins, List.length_cons] at hlen ⊢
        omega
      | cons_cons _ ht =>
        obtain ⟨l, hl, hlen⟩ := ih ht
        refine ⟨.keep :: l, hl.keep a, ?_⟩
        simp only [edits_keep, List.length_cons]
        omega

/-- **A shortest script keeps a longest common subsequence.** -/
theorem exists_isLcs_of_isLeast {s t : List α} {m : ℕ} (h : IsLeast (scriptCosts s t) m) :
    ∃ n, IsLcs s t n ∧ m + 2 * n = s.length + t.length := by
  obtain ⟨⟨l, hl, rfl⟩, hmin⟩ := h
  obtain ⟨c, hs, ht, hlen⟩ := hl.exists_common
  refine ⟨c.length, ⟨⟨c, hs, ht, rfl⟩, ?_⟩, hlen⟩
  rintro n ⟨c', hs', ht', rfl⟩
  obtain ⟨l', hl', hlen'⟩ := exists_script hs' ht'
  have : edits l ≤ edits l' := hmin ⟨l', hl', rfl⟩
  omega

/-- **A script that keeps a longest common subsequence is a shortest one.** -/
theorem isLeast_of_isLcs {s t : List α} {m n : ℕ} (h : IsLcs s t n)
    (hm : m + 2 * n = s.length + t.length) : IsLeast (scriptCosts s t) m := by
  obtain ⟨⟨c, hs, ht, rfl⟩, hmax⟩ := h
  constructor
  · obtain ⟨l, hl, hlen⟩ := exists_script hs ht
    exact ⟨l, hl, by omega⟩
  · rintro k ⟨l, hl, rfl⟩
    obtain ⟨c', hs', ht', hlen'⟩ := hl.exists_common
    have : c'.length ≤ c.length := hmax ⟨c', hs', ht', rfl⟩
    omega

/-! ### Common ends -/

theorem IsLcs.cons {s t : List α} {n : ℕ} (h : IsLcs s t n) (a : α) :
    IsLcs (a :: s) (a :: t) (n + 1) := by
  obtain ⟨⟨c, hs, ht, rfl⟩, hmax⟩ := h
  refine ⟨⟨a :: c, hs.cons_cons a, ht.cons_cons a, rfl⟩, ?_⟩
  rintro k ⟨c', hs', ht', rfl⟩
  have : c'.tail.length ≤ c.length := hmax ⟨c'.tail, hs'.tail, ht'.tail, rfl⟩
  rw [List.length_tail] at this
  omega

theorem IsLcs.append_left {s t : List α} {n : ℕ} (h : IsLcs s t n) (p : List α) :
    IsLcs (p ++ s) (p ++ t) (p.length + n) := by
  induction p with
  | nil => simpa using h
  | cons a p ih =>
    rw [List.length_cons, show p.length + 1 + n = p.length + n + 1 by omega]
    exact ih.cons a

theorem IsLcs.reverse {s t : List α} {n : ℕ} (h : IsLcs s t n) :
    IsLcs s.reverse t.reverse n := by
  obtain ⟨⟨c, hs, ht, rfl⟩, hmax⟩ := h
  refine ⟨⟨c.reverse, hs.reverse, ht.reverse, List.length_reverse⟩, ?_⟩
  rintro k ⟨c', hs', ht', rfl⟩
  refine hmax ⟨c'.reverse, ?_, ?_, List.length_reverse⟩
  · simpa using hs'.reverse
  · simpa using ht'.reverse

/-- **Trimming a common beginning and a common end** loses nothing. -/
theorem IsLcs.surround {s t : List α} {n : ℕ} (h : IsLcs s t n) (p q : List α) :
    IsLcs (p ++ s ++ q) (p ++ t ++ q) (p.length + n + q.length) := by
  have hq := ((h.append_left p).reverse.append_left q.reverse).reverse
  simp only [List.reverse_append, List.reverse_reverse, List.length_reverse] at hq
  rwa [Nat.add_comm q.length] at hq

/-! ### Scripts are walks -/

/-- `m` tells which elements of the two lists are equal. -/
def Compares (s t : List α) (m : ℤ → ℤ → Bool) : Prop :=
  ∀ x y : ℕ, x < s.length → y < t.length → (m x y = true ↔ s[x]? = t[y]?)

section Walks

variable {s t : List α} {m : ℤ → ℤ → Bool}

theorem Script.walk (hm : Compares s t m) {s' t' : List α} {l : List Move}
    (h : Script s' t' l) : ∀ {x y : ℕ}, x ≤ s.length → y ≤ t.length → s.drop x = s' →
      t.drop y = t' → Walk m s.length t.length x y l s.length t.length := by
  induction h with
  | nil =>
    intro x y hx hy hs ht
    rw [List.drop_eq_nil_iff] at hs ht
    rw [show x = s.length by omega, show y = t.length by omega]
    exact .nil _ _
  | keep a _ ih =>
    intro x y _ _ hs ht
    have hxs := congrArg (·[0]?) hs
    have hyt := congrArg (·[0]?) ht
    simp only [List.getElem?_drop, Nat.add_zero, List.getElem?_cons_zero] at hxs hyt
    obtain ⟨hx, -⟩ := List.getElem?_eq_some_iff.mp hxs
    obtain ⟨hy, -⟩ := List.getElem?_eq_some_iff.mp hyt
    refine .keep (by exact_mod_cast hx) (by exact_mod_cast hy) ?_ ?_
    · exact (hm x y hx hy).mpr (hxs.trans hyt.symm)
    · refine ih (x := x + 1) (y := y + 1) hx hy ?_ ?_
      · rw [← List.drop_drop, hs]
        rfl
      · rw [← List.drop_drop, ht]
        rfl
  | del a _ ih =>
    intro x y _ hy hs ht
    have hxs := congrArg (·[0]?) hs
    simp only [List.getElem?_drop, Nat.add_zero, List.getElem?_cons_zero] at hxs
    obtain ⟨hx, -⟩ := List.getElem?_eq_some_iff.mp hxs
    refine .del (ih (x := x + 1) hx hy ?_ ht)
    rw [← List.drop_drop, hs]
    rfl
  | ins b _ ih =>
    intro x y hx _ hs ht
    have hyt := congrArg (·[0]?) ht
    simp only [List.getElem?_drop, Nat.add_zero, List.getElem?_cons_zero] at hyt
    obtain ⟨hy, -⟩ := List.getElem?_eq_some_iff.mp hyt
    refine .ins (ih (y := y + 1) hx hy hs ?_)
    rw [← List.drop_drop, ht]
    rfl

theorem Walk.script (hm : Compares s t m) {l : List Move} :
    ∀ {x y : ℕ}, Walk m s.length t.length x y l s.length t.length →
      Script (s.drop x) (t.drop y) l := by
  induction l with
  | nil =>
    intro x y h
    obtain ⟨hx, hy⟩ : x = s.length ∧ y = t.length := by
      cases h
      exact ⟨rfl, rfl⟩
    rw [hx, hy, List.drop_length, List.drop_length]
    exact .nil
  | cons kind l ih =>
    intro x y h
    have hle := h.le
    cases h with
    | keep hx hy hmatch h =>
      have hx' : x < s.length := by exact_mod_cast hx
      have hy' : y < t.length := by exact_mod_cast hy
      have heq := (hm x y hx' hy').mp hmatch
      rw [List.getElem?_eq_getElem hx', List.getElem?_eq_getElem hy', Option.some.injEq] at heq
      rw [List.drop_eq_getElem_cons hx', List.drop_eq_getElem_cons hy', heq]
      exact .keep _ (ih (by exact_mod_cast h))
    | del h =>
      have hx' : x < s.length := by
        have := h.le.1
        omega
      rw [List.drop_eq_getElem_cons hx']
      exact .del _ (ih (by exact_mod_cast h))
    | ins h =>
      have hy' : y < t.length := by
        have := h.le.2
        omega
      rw [List.drop_eq_getElem_cons hy']
      exact .ins _ (ih (by exact_mod_cast h))

/-- **The scripts of two lists** are the walks through their edit graph. -/
theorem script_iff_walk (hm : Compares s t m) {l : List Move} :
    Script s t l ↔ Walk m s.length t.length 0 0 l s.length t.length := by
  constructor
  · intro h
    exact h.walk hm (x := 0) (y := 0) (Nat.zero_le _) (Nat.zero_le _) rfl rfl
  · intro h
    exact Walk.script hm (x := 0) (y := 0) h

end Walks

end TaskjugglerLsp.Lib.EditGraph
