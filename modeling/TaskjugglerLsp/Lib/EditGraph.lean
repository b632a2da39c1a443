import Mathlib.Algebra.Order.Ring.Int
import Mathlib.Algebra.Order.Group.MinMax
import Mathlib.Data.List.Basic

/-!
# The edit graph and its furthest-reaching frontier

Two sequences of lengths `p` and `q` span a grid.  A move to the right deletes
an element of the first, a move down inserts one of the second, and a diagonal
move keeps a matching pair; only the diagonal moves are confined to the grid.

`frontier d k` is the greedy recurrence for "how far right do `d` edits get on
the diagonal `k = x - y`".  Three facts about it are enough for a diff:

* `exists_walk_frontier`: the frontier point is the end of a walk with `d` edits;
* `le_frontier_of_walk`: no walk with `d` edits gets further on its diagonal;
* `Walk.clip`: a walk that leaves the grid can be pulled back into it, and loses
  one edit for each step it was outside.

Together they say that the first row that reaches the corner reaches it exactly
(`frontier_eq_of_first`), and that some row up to `p + q` does
(`reached_total`).
-/

namespace TaskjugglerLsp.Lib.EditGraph

/-- One move in the edit graph. -/
inductive Move where
  | keep
  | del
  | ins
  deriving DecidableEq, Repr

/-- The number of moves that are not diagonal. -/
def edits (l : List Move) : ℕ := l.countP (· ≠ .keep)

@[simp] theorem edits_nil : edits [] = 0 := rfl
@[simp] theorem edits_keep (l : List Move) : edits (.keep :: l) = edits l := by simp [edits]
@[simp] theorem edits_del (l : List Move) : edits (.del :: l) = edits l + 1 := by simp [edits]
@[simp] theorem edits_ins (l : List Move) : edits (.ins :: l) = edits l + 1 := by simp [edits]

@[simp] theorem edits_append (l l' : List Move) : edits (l ++ l') = edits l + edits l' := by
  simp [edits]

@[simp] theorem edits_replicate_keep (n : ℕ) : edits (List.replicate n .keep) = 0 := by
  simp [edits]

@[simp] theorem edits_replicate_del (n : ℕ) : edits (List.replicate n .del) = n := by
  rw [edits, List.countP_replicate]
  rfl

@[simp] theorem edits_replicate_ins (n : ℕ) : edits (List.replicate n .ins) = n := by
  rw [edits, List.countP_replicate]
  rfl

section Graph

variable (m : ℤ → ℤ → Bool) (p q : ℤ)

/-- `Walk m p q x y l X Y`: the moves `l` lead from `(x, y)` to `(X, Y)`. -/
inductive Walk : ℤ → ℤ → List Move → ℤ → ℤ → Prop
  | nil (x y : ℤ) : Walk x y [] x y
  | keep {x y X Y : ℤ} {l : List Move} : x < p → y < q → m x y →
      Walk (x + 1) (y + 1) l X Y → Walk x y (.keep :: l) X Y
  | del {x y X Y : ℤ} {l : List Move} : Walk (x + 1) y l X Y → Walk x y (.del :: l) X Y
  | ins {x y X Y : ℤ} {l : List Move} : Walk x (y + 1) l X Y → Walk x y (.ins :: l) X Y

variable {m p q}

theorem Walk.append {x y X Y X' Y' : ℤ} {l l' : List Move} (h : Walk m p q x y l X Y)
    (h' : Walk m p q X Y l' X' Y') : Walk m p q x y (l ++ l') X' Y' := by
  induction h with
  | nil => exact h'
  | keep hx hy hm _ ih => exact .keep hx hy hm (ih h')
  | del _ ih => exact .del (ih h')
  | ins _ ih => exact .ins (ih h')

theorem Walk.le {x y X Y : ℤ} {l : List Move} (h : Walk m p q x y l X Y) : x ≤ X ∧ y ≤ Y := by
  induction h <;> omega

theorem Walk.length_le {x y X Y : ℤ} {l : List Move} (h : Walk m p q x y l X Y) :
    (l.length : ℤ) ≤ (X - x) + (Y - y) := by
  induction h with
  | nil => simp
  | keep _ _ _ _ ih => simp only [List.length_cons]; omega
  | del _ ih => simp only [List.length_cons]; omega
  | ins _ ih => simp only [List.length_cons]; omega

/-- The number of moves to the right. -/
def columns (l : List Move) : ℕ := l.countP (· ≠ .ins)

/-- The number of moves down. -/
def rows (l : List Move) : ℕ := l.countP (· ≠ .del)

theorem Walk.displacement {x y X Y : ℤ} {l : List Move} (h : Walk m p q x y l X Y) :
    X = x + columns l ∧ Y = y + rows l := by
  induction h with
  | nil => simp [columns, rows]
  | keep _ _ _ _ ih => simp [columns, rows] at ih ⊢; omega
  | del _ ih => simp [columns, rows] at ih ⊢; omega
  | ins _ ih => simp [columns, rows] at ih ⊢; omega

/-- Deleting everything up to a column is a walk. -/
theorem walk_replicate_del (x y : ℤ) (n : ℕ) :
    Walk m p q x y (List.replicate n .del) (x + n) y := by
  induction n generalizing x with
  | zero => simpa using Walk.nil x y
  | succ n ih =>
    have := ih (x + 1)
    rw [show x + 1 + (n : ℤ) = x + ((n + 1 : ℕ) : ℤ) by omega] at this
    exact .del this

theorem walk_replicate_ins (x y : ℤ) (n : ℕ) :
    Walk m p q x y (List.replicate n .ins) x (y + n) := by
  induction n generalizing y with
  | zero => simpa using Walk.nil x y
  | succ n ih =>
    have := ih (y + 1)
    rw [show y + 1 + (n : ℤ) = y + ((n + 1 : ℕ) : ℤ) by omega] at this
    exact .ins this

/-! ### Pulling a walk back into the grid -/

/-- How far a point lies outside the grid. -/
def excess (p q x y : ℤ) : ℤ := max (x - p) 0 + max (y - q) 0

/-- **A walk past the corner contains a walk to the corner**, with one edit less
for each step it takes outside. -/
theorem Walk.clip {x y X Y : ℤ} {l : List Move} (h : Walk m p q x y l X Y)
    (hX : p ≤ X) (hY : q ≤ Y) :
    ∃ l', Walk m p q (min x p) (min y q) l' p q ∧
      (edits l' : ℤ) + excess p q X Y = edits l + excess p q x y := by
  induction h with
  | nil x y =>
    refine ⟨[], ?_, rfl⟩
    rw [min_eq_right hX, min_eq_right hY]
    exact .nil p q
  | @keep x y X Y l hx hy hm _ ih =>
    obtain ⟨l', hw, he⟩ := ih hX hY
    rw [min_eq_left (by omega : x + 1 ≤ p), min_eq_left (by omega : y + 1 ≤ q)] at hw
    refine ⟨.keep :: l', ?_, ?_⟩
    · rw [min_eq_left hx.le, min_eq_left hy.le]
      exact .keep hx hy hm hw
    · simp only [edits_keep, excess] at he ⊢
      omega
  | @del x y X Y l _ ih =>
    obtain ⟨l', hw, he⟩ := ih hX hY
    by_cases hx : x < p
    · rw [min_eq_left (by omega : x + 1 ≤ p)] at hw
      refine ⟨.del :: l', ?_, ?_⟩
      · rw [min_eq_left hx.le]
        exact .del hw
      · simp only [edits_del, excess] at he ⊢
        omega
    · rw [min_eq_right (by omega : p ≤ x + 1)] at hw
      refine ⟨l', ?_, ?_⟩
      · rw [min_eq_right (by omega : p ≤ x)]
        exact hw
      · simp only [edits_del, excess] at he ⊢
        omega
  | @ins x y X Y l _ ih =>
    obtain ⟨l', hw, he⟩ := ih hX hY
    by_cases hy : y < q
    · rw [min_eq_left (by omega : y + 1 ≤ q)] at hw
      refine ⟨.ins :: l', ?_, ?_⟩
      · rw [min_eq_left hy.le]
        exact .ins hw
      · simp only [edits_ins, excess] at he ⊢
        omega
    · rw [min_eq_right (by omega : q ≤ y + 1)] at hw
      refine ⟨l', ?_, ?_⟩
      · rw [min_eq_right (by omega : q ≤ y)]
        exact hw
      · simp only [edits_ins, excess] at he ⊢
        omega

/-! ### Snakes -/

variable (m p q)

/-- Follow the diagonal from `(x, y)` while the elements match, for at most `n`
moves, and return the column where it stops. -/
def slide : ℕ → ℤ → ℤ → ℤ
  | 0, x, _ => x
  | n + 1, x, y => if x < p ∧ y < q ∧ m x y then slide n (x + 1) (y + 1) else x

/-- The end of the snake that starts in column `x` of the diagonal `k`. -/
def snakeEnd (x k : ℤ) : ℤ := slide m p q (p - x).toNat x (x - k)

variable {m p q}

theorem le_slide (n : ℕ) (x y : ℤ) : x ≤ slide m p q n x y := by
  induction n generalizing x y with
  | zero => exact le_rfl
  | succ n ih =>
    rw [slide]
    split
    · have := ih (x + 1) (y + 1)
      omega
    · exact le_rfl

theorem walk_slide (n : ℕ) (x y : ℤ) :
    Walk m p q x y (List.replicate (slide m p q n x y - x).toNat .keep)
      (slide m p q n x y) (y + (slide m p q n x y - x)) := by
  induction n generalizing x y with
  | zero => simpa [slide] using Walk.nil x y
  | succ n ih =>
    rw [slide]
    split
    · rename_i h
      have hle := le_slide (m := m) (p := p) (q := q) n (x + 1) (y + 1)
      have hw := ih (x + 1) (y + 1)
      generalize slide m p q n (x + 1) (y + 1) = s at hw hle ⊢
      rw [show (s - x).toNat = (s - (x + 1)).toNat + 1 by omega, List.replicate_succ]
      refine .keep h.1 h.2.1 h.2.2 ?_
      rwa [show y + (s - x) = y + 1 + (s - (x + 1)) by omega]
    · simpa using Walk.nil x y

/-- With fuel for the rest of the row, the slide stops only where it has to. -/
theorem slide_maximal (n : ℕ) (x y : ℤ) (hn : p - x ≤ n) :
    ¬ (slide m p q n x y < p ∧ y + (slide m p q n x y - x) < q ∧
      m (slide m p q n x y) (y + (slide m p q n x y - x))) := by
  induction n generalizing x y with
  | zero =>
    rintro ⟨h, -⟩
    simp only [slide] at h
    omega
  | succ n ih =>
    rw [slide]
    split
    · have := ih (x + 1) (y + 1) (by omega)
      rwa [show y + 1 + (slide m p q n (x + 1) (y + 1) - (x + 1))
        = y + (slide m p q n (x + 1) (y + 1) - x) by omega] at this
    · rename_i h
      simpa using h

theorem le_snakeEnd (x k : ℤ) : x ≤ snakeEnd m p q x k := le_slide _ _ _

theorem walk_snakeEnd (x k : ℤ) :
    Walk m p q x (x - k) (List.replicate (snakeEnd m p q x k - x).toNat .keep)
      (snakeEnd m p q x k) (snakeEnd m p q x k - k) := by
  have h := walk_slide (m := m) (p := p) (q := q) (p - x).toNat x (x - k)
  rwa [show x - k + (slide m p q (p - x).toNat x (x - k) - x)
    = snakeEnd m p q x k - k by rw [snakeEnd]; omega] at h

theorem snakeEnd_maximal (x k : ℤ) :
    ¬ (snakeEnd m p q x k < p ∧ snakeEnd m p q x k - k < q ∧
      m (snakeEnd m p q x k) (snakeEnd m p q x k - k)) := by
  have h := slide_maximal (m := m) (p := p) (q := q) (p - x).toNat x (x - k) (by omega)
  rwa [show x - k + (slide m p q (p - x).toNat x (x - k) - x)
    = snakeEnd m p q x k - k by rw [snakeEnd]; omega] at h

/-! ### The frontier -/

/-- The diagonals that `d` edits can end on. -/
def OnRow (d : ℕ) (k : ℤ) : Prop := -d ≤ k ∧ k ≤ d ∧ (k + d) % 2 = 0

/-- Whether row `d` reaches diagonal `k` by a move down, given the row before. -/
def goesDown (f : ℤ → ℤ) (d : ℕ) (k : ℤ) : Prop := k = -d ∨ (k ≠ d ∧ f (k - 1) < f (k + 1))

instance (f : ℤ → ℤ) (d : ℕ) (k : ℤ) : Decidable (goesDown f d k) :=
  inferInstanceAs (Decidable (_ ∨ _))

theorem goesDown_low (f : ℤ → ℤ) (d : ℕ) : goesDown f d (-d) := Or.inl rfl

theorem goesDown_zero (f : ℤ → ℤ) : goesDown f 0 0 := Or.inl rfl

theorem goesDown_inner {f : ℤ → ℤ} {d : ℕ} {k : ℤ} (h1 : k ≠ -d) (h2 : k ≠ d) :
    goesDown f d k ↔ f (k - 1) < f (k + 1) := by
  simp [goesDown, h1, h2]

/-- Where row `d` enters diagonal `k`, given the row before. -/
def entry (f : ℤ → ℤ) (d : ℕ) (k : ℤ) : ℤ := if goesDown f d k then f (k + 1) else f (k - 1) + 1

variable (m p q)

/-- The furthest column that `d` edits reach on diagonal `k`. -/
def frontier : ℕ → ℤ → ℤ
  | 0, k => snakeEnd m p q 0 k
  | d + 1, k => snakeEnd m p q (entry (frontier d) (d + 1) k) k

/-- Row `d` reaches the corner of the grid, or passes it, on some diagonal. -/
def Reached (d : ℕ) : Prop :=
  ∃ k, OnRow d k ∧ p ≤ frontier m p q d k ∧ q ≤ frontier m p q d k - k

variable {m p q}

theorem onRow_zero {k : ℤ} (h : OnRow 0 k) : k = 0 := by
  obtain ⟨h1, h2, -⟩ := h
  omega

theorem onRow_prev {f : ℤ → ℤ} {d : ℕ} {k : ℤ} (h : OnRow (d + 1) k) :
    if goesDown f (d + 1) k then OnRow d (k + 1) else OnRow d (k - 1) := by
  obtain ⟨h1, h2, h3⟩ := h
  split
  · rename_i hd
    refine ⟨by omega, ?_, by omega⟩
    rcases hd with hd | ⟨hd, -⟩ <;> omega
  · rename_i hd
    have : k ≠ -((d + 1 : ℕ) : ℤ) := fun he => hd (Or.inl he)
    exact ⟨by omega, by omega, by omega⟩

theorem le_entry_down {f : ℤ → ℤ} {d : ℕ} {k : ℤ} (h : k < d) : f (k + 1) ≤ entry f d k := by
  unfold entry
  split
  · exact le_rfl
  · rename_i hd
    simp only [goesDown, not_or, not_and, not_lt] at hd
    have := hd.2 (by omega)
    omega

theorem le_entry_right {f : ℤ → ℤ} {d : ℕ} {k : ℤ} (h : -(d : ℤ) < k) :
    f (k - 1) + 1 ≤ entry f d k := by
  unfold entry
  split
  · rename_i hd
    rcases hd with hd | ⟨-, hd⟩ <;> omega
  · exact le_rfl

theorem entry_le_frontier (d : ℕ) (k : ℤ) :
    entry (frontier m p q d) (d + 1) k ≤ frontier m p q (d + 1) k := le_snakeEnd _ _

theorem frontier_nonneg {d : ℕ} {k : ℤ} (h : OnRow d k) :
    0 ≤ frontier m p q d k ∧ k ≤ frontier m p q d k := by
  induction d generalizing k with
  | zero =>
    have h0 : (0 : ℤ) ≤ frontier m p q 0 k := le_snakeEnd 0 k
    rw [onRow_zero h] at h0 ⊢
    exact ⟨h0, h0⟩
  | succ d ih =>
    have hle := entry_le_frontier (m := m) (p := p) (q := q) d k
    have hp := onRow_prev (f := frontier m p q d) h
    unfold entry at hle
    split at hp
    · rename_i hd
      rw [if_pos hd] at hle
      have := ih hp
      omega
    · rename_i hd
      rw [if_neg hd] at hle
      have := ih hp
      omega

/-- **The frontier is reached**: its point on row `d` ends a walk with `d` edits. -/
theorem exists_walk_frontier {d : ℕ} {k : ℤ} (h : OnRow d k) :
    ∃ l, Walk m p q 0 0 l (frontier m p q d k) (frontier m p q d k - k) ∧ edits l = d := by
  induction d generalizing k with
  | zero =>
    have hw := walk_snakeEnd (m := m) (p := p) (q := q) 0 k
    rw [onRow_zero h] at hw ⊢
    exact ⟨_, hw, edits_replicate_keep _⟩
  | succ d ih =>
    have hp := onRow_prev (f := frontier m p q d) h
    have hs := walk_snakeEnd (m := m) (p := p) (q := q)
      (entry (frontier m p q d) (d + 1) k) k
    split at hp
    · rename_i hd
      obtain ⟨l, hw, he⟩ := ih hp
      rw [entry, if_pos hd] at hs
      rw [show frontier m p q d (k + 1) - k = frontier m p q d (k + 1) - (k + 1) + 1 by omega]
        at hs
      rw [frontier, entry, if_pos hd]
      exact ⟨l ++ .ins :: _, hw.append (.ins hs), by simp [he]⟩
    · rename_i hd
      obtain ⟨l, hw, he⟩ := ih hp
      rw [entry, if_neg hd] at hs
      rw [show frontier m p q d (k - 1) + 1 - k = frontier m p q d (k - 1) - (k - 1) by omega]
        at hs
      rw [frontier, entry, if_neg hd]
      exact ⟨l ++ .del :: _, hw.append (.del hs), by simp [he]⟩

theorem lt_frontier_of_match {d : ℕ} {x y : ℤ} (hle : x ≤ frontier m p q d (x - y)) (hx : x < p)
    (hy : y < q) (hm : m x y) : x < frontier m p q d (x - y) := by
  refine lt_of_le_of_ne hle fun he => ?_
  have hmax : ¬ (frontier m p q d (x - y) < p ∧ frontier m p q d (x - y) - (x - y) < q ∧
      m (frontier m p q d (x - y)) (frontier m p q d (x - y) - (x - y))) := by
    cases d <;> exact snakeEnd_maximal _ _
  rw [← he, show x - (x - y) = y by omega] at hmax
  exact hmax ⟨hx, hy, hm⟩

/-- **Nothing gets further than the frontier**: from a point within row `d`'s
reach, a walk with `e` more edits ends within row `d + e`'s. -/
theorem le_frontier_of_walk {x y X Y : ℤ} {l : List Move} (h : Walk m p q x y l X Y) {d : ℕ}
    (hrow : OnRow d (x - y)) (hle : x ≤ frontier m p q d (x - y)) :
    OnRow (d + edits l) (X - Y) ∧ X ≤ frontier m p q (d + edits l) (X - Y) := by
  induction h generalizing d with
  | nil => exact ⟨hrow, hle⟩
  | @keep x y X Y l hx hy hm _ ih =>
    have hlt := lt_frontier_of_match hle hx hy hm
    rw [edits_keep]
    refine ih ?_ ?_ <;> rw [show x + 1 - (y + 1) = x - y by omega]
    · exact hrow
    · omega
  | @del x y X Y l _ ih =>
    obtain ⟨h1, h2, h3⟩ := hrow
    have hr := le_entry_right (f := frontier m p q d) (d := d + 1) (k := x + 1 - y) (by omega)
    have hf := entry_le_frontier (m := m) (p := p) (q := q) d (x + 1 - y)
    rw [show x + 1 - y - 1 = x - y by omega] at hr
    have := ih (d := d + 1) ⟨by omega, by omega, by omega⟩ (by omega)
    rwa [edits_del, show d + (edits l + 1) = d + 1 + edits l by omega]
  | @ins x y X Y l _ ih =>
    obtain ⟨h1, h2, h3⟩ := hrow
    have hr := le_entry_down (f := frontier m p q d) (d := d + 1) (k := x - (y + 1)) (by omega)
    have hf := entry_le_frontier (m := m) (p := p) (q := q) d (x - (y + 1))
    rw [show x - (y + 1) + 1 = x - y by omega] at hr
    have := ih (d := d + 1) ⟨by omega, by omega, by omega⟩ (by omega)
    rwa [edits_ins, show d + (edits l + 1) = d + 1 + edits l by omega]

/-! ### The corner -/

theorem reached_of_walk {l : List Move} (h : Walk m p q 0 0 l p q) :
    Reached m p q (edits l) := by
  have h0 : OnRow 0 (0 - 0 : ℤ) := ⟨by simp, by simp, by simp⟩
  obtain ⟨hr, hle⟩ := le_frontier_of_walk h h0 (le_snakeEnd _ _)
  rw [Nat.zero_add] at hr hle
  exact ⟨p - q, hr, hle, by omega⟩

theorem reached_total (hp : 0 ≤ p) (hq : 0 ≤ q) : Reached m p q (p + q).toNat := by
  have hw := (walk_replicate_del (m := m) (p := p) (q := q) 0 0 p.toNat).append
    (walk_replicate_ins _ 0 q.toNat)
  rw [show (0 : ℤ) + p.toNat = p by omega, show (0 : ℤ) + q.toNat = q by omega] at hw
  have he : edits (List.replicate p.toNat Move.del ++ List.replicate q.toNat Move.ins)
      = (p + q).toNat := by
    simp only [edits_append, edits_replicate_del, edits_replicate_ins]
    omega
  rw [← he]
  exact reached_of_walk hw

/-- **The first row to reach the corner reaches it exactly.** -/
theorem frontier_eq_of_first (hp : 0 ≤ p) (hq : 0 ≤ q) {d : ℕ} {k : ℤ}
    (hfirst : ∀ e < d, ¬ Reached m p q e) (hrow : OnRow d k)
    (hx : p ≤ frontier m p q d k) (hy : q ≤ frontier m p q d k - k) :
    frontier m p q d k = p ∧ frontier m p q d k - k = q := by
  obtain ⟨l, hw, he⟩ := exists_walk_frontier (m := m) (p := p) (q := q) hrow
  obtain ⟨l', hw', he'⟩ := hw.clip hx hy
  rw [min_eq_left hp, min_eq_left hq] at hw'
  have hge : d ≤ edits l' := by
    by_contra hlt
    exact hfirst _ (by omega) (reached_of_walk hw')
  simp only [excess] at he'
  omega

end Graph

end TaskjugglerLsp.Lib.EditGraph
