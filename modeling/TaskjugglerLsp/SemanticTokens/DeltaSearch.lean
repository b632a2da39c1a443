import Mathlib.Tactic.Ring
import TaskjugglerLsp.SemanticTokens.Delta

/-!
# Myers' search inside its arrays

The forward search fills its rows with the furthest-reaching frontier of the
edit graph (`forwardRow_spec`, `forward_spec`), and the backtrace turns the
saved rows into a walk from the origin to the corner (`backtrace_spec`).
Neither leaves its arrays, and no walk has fewer edits (`search_spec`).
-/

namespace TaskjugglerLsp.Delta

open Lib Lib.EditGraph

/-! ### Array cells -/

theorem readInt_of {v : List ℤ} {i x : ℤ} (hi : 0 ≤ i) (h : v[i.toNat]? = some x) :
    readInt v i = some x := by rw [readInt, if_pos hi, h]

theorem readInt_write_self {v v' : List ℤ} {i x : ℤ} (h : writeInt v i x = some v') :
    readInt v' i = some x := by
  unfold writeInt at h
  split at h
  · rename_i hi
    obtain rfl := Option.some.inj h
    exact readInt_of hi.1 (List.getElem?_set_self hi.2)
  · cases h

theorem readInt_write_ne {v v' : List ℤ} {i j x : ℤ} (h : writeInt v i x = some v') (hj : j ≠ i) :
    readInt v' j = readInt v j := by
  unfold writeInt at h
  split at h
  · rename_i hi
    obtain rfl := Option.some.inj h
    unfold readInt
    split
    · exact List.getElem?_set_ne (by omega)
    · rfl
  · cases h

theorem length_write {v v' : List ℤ} {i x : ℤ} (h : writeInt v i x = some v') :
    v'.length = v.length := by
  unfold writeInt at h
  split at h
  · obtain rfl := Option.some.inj h
    exact List.length_set
  · cases h

theorem exists_write {v : List ℤ} {i : ℤ} (x : ℤ) (h0 : 0 ≤ i) (hi : i < v.length) :
    ∃ v', writeInt v i x = some v' := ⟨_, if_pos ⟨h0, by omega⟩⟩

theorem pushKind_of {cap : ℕ} {raw : List Move} (kind : Move) (h : raw.length < cap) :
    pushKind cap raw kind = some (kind :: raw) := if_pos h

/-! ### The forward search -/

/-- Do the tokens at `x` and `y` match? -/
def matching (a b : List UInt32) (x y : ℤ) : Bool := tuple a x.toNat == tuple b y.toNat

theorem tokensEqual_of {a b : List UInt32} {x y : ℤ} {na nb : ℕ} (ha : na * tupleLen ≤ a.length)
    (hb : nb * tupleLen ≤ b.length) (hx : 0 ≤ x) (hy : 0 ≤ y) (hxa : x < na) (hyb : y < nb) :
    tokensEqual a b x y = some (matching a b x y) := by
  have h1 : (x.toNat + 1) * tupleLen ≤ na * tupleLen := Nat.mul_le_mul_right _ (by omega)
  have h2 : (y.toNat + 1) * tupleLen ≤ nb * tupleLen := Nat.mul_le_mul_right _ (by omega)
  exact if_pos ⟨hx, hy, h1.trans ha, h2.trans hb⟩

section Search

variable {a b : List UInt32} {na nb : ℕ}

theorem slideSnake_eq (ha : na * tupleLen ≤ a.length) (hb : nb * tupleLen ≤ b.length) (n : ℕ)
    {x y : ℤ} (hx : 0 ≤ x) (hy : 0 ≤ y) :
    slideSnake a b na nb n x y = some (slide (matching a b) na nb n x y,
      y + (slide (matching a b) na nb n x y - x)) := by
  induction n generalizing x y with
  | zero => simp [slideSnake, slide]
  | succ n ih =>
    rw [slideSnake, slide]
    by_cases hin : x < na ∧ y < nb
    · rw [if_pos hin, tokensEqual_of ha hb hx hy hin.1 hin.2]
      simp only [Option.bind_eq_bind, Option.bind_some, hin.1, hin.2, true_and]
      split
      · rw [ih (by omega) (by omega)]
        congr 2
        omega
      · simp
    · rw [if_neg hin, if_neg (fun h => hin ⟨h.1, h.2.1⟩)]
      simp

/-- The row before row `d`, as the loop finds it in `v`: before row 0 that is the
zero that `calloc` left on diagonal 1. -/
def prevRow (a b : List UInt32) (na nb : ℕ) : ℕ → ℤ → ℤ
  | 0 => fun _ => 0
  | d + 1 => frontier (matching a b) na nb d

/-- The diagonals of the row before row `d`. -/
def OnPrev : ℕ → ℤ → Prop
  | 0 => fun k => k = 1
  | d + 1 => OnRow d

theorem frontier_eq_snakeEnd {d : ℕ} {k : ℤ} (h : OnRow d k) :
    frontier (matching a b) na nb d k
      = snakeEnd (matching a b) na nb (entry (prevRow a b na nb d) d k) k := by
  cases d with
  | zero =>
    rw [onRow_zero h, EditGraph.frontier, entry, if_pos (goesDown_zero _)]
    rfl
  | succ d => rfl

theorem onPrev_down {f : ℤ → ℤ} {d : ℕ} {k : ℤ} (h : OnRow d k) (hd : goesDown f d k) :
    OnPrev d (k + 1) := by
  cases d with
  | zero => rw [onRow_zero h]; rfl
  | succ d =>
    have hp := onRow_prev (f := f) h
    rwa [if_pos hd] at hp

theorem onPrev_right {f : ℤ → ℤ} {d : ℕ} {k : ℤ} (h : OnRow d k) (hd : ¬ goesDown f d k) :
    OnPrev d (k - 1) := by
  cases d with
  | zero =>
    rw [onRow_zero h] at hd
    exact absurd (goesDown_zero f) hd
  | succ d =>
    have hp := onRow_prev (f := f) h
    rwa [if_neg hd] at hp

theorem onPrev_ne {d : ℕ} {j k : ℤ} (hj : OnPrev d j) (hk : OnRow d k) : j ≠ k := by
  rintro rfl
  cases d with
  | zero =>
    have h0 := onRow_zero hk
    rw [show j = 1 from hj] at h0
    omega
  | succ d =>
    obtain ⟨-, -, h1⟩ := hj
    obtain ⟨-, -, h2⟩ := hk
    omega

theorem entry_nonneg {d : ℕ} {k : ℤ} (h : OnRow d k) :
    0 ≤ entry (prevRow a b na nb d) d k ∧ k ≤ entry (prevRow a b na nb d) d k := by
  cases d with
  | zero =>
    rw [onRow_zero h, entry, if_pos (goesDown_zero _)]
    exact ⟨le_rfl, le_rfl⟩
  | succ d =>
    unfold entry
    split
    · rename_i hd
      have := frontier_nonneg (m := matching a b) (p := na) (q := nb) (onPrev_down h hd)
      simp only [prevRow]
      omega
    · rename_i hd
      have := frontier_nonneg (m := matching a b) (p := na) (q := nb) (onPrev_right h hd)
      simp only [prevRow]
      omega

/-- Cells `k + max` of `v` hold `f k`, for the diagonals in `P`. -/
def Holds (na nb : ℕ) (v : List ℤ) (P : ℤ → Prop) (f : ℤ → ℤ) : Prop :=
  ∀ k, P k → readInt v (k + (na + nb : ℕ)) = some (f k)

theorem movesDown_eq {v : List ℤ} {f : ℤ → ℤ} {d : ℕ} {k : ℤ} (hv : Holds na nb v (OnPrev d) f)
    (h : OnRow d k) : movesDown na nb v d k = some (decide (goesDown f d k)) := by
  unfold movesDown
  by_cases h1 : k = -d
  · rw [if_pos h1, h1, decide_eq_true (goesDown_low f d)]
  rw [if_neg h1]
  by_cases h2 : k = d
  · have hd : ¬ goesDown f d k := by
      rintro (hd | ⟨hd, -⟩)
      · exact h1 hd
      · exact hd h2
    rw [if_pos h2, decide_eq_false hd]
  rw [if_neg h2, decide_eq_decide.mpr (goesDown_inner h1 h2)]
  cases d with
  | zero => exact absurd (onRow_zero h) h2
  | succ d =>
    obtain ⟨h3, h4, h5⟩ := h
    rw [hv (k - 1) ⟨by omega, by omega, by omega⟩, hv (k + 1) ⟨by omega, by omega, by omega⟩]
    rfl

theorem enterDiagonal_eq {v : List ℤ} {f : ℤ → ℤ} {d : ℕ} {k : ℤ}
    (hv : Holds na nb v (OnPrev d) f) (h : OnRow d k) :
    enterDiagonal na nb v d k = some (entry f d k) := by
  rw [enterDiagonal, movesDown_eq hv h, entry]
  simp only [Option.bind_eq_bind, Option.bind_some, decide_eq_true_eq]
  split
  · rename_i hd
    rw [hv _ (onPrev_down h hd)]
  · rename_i hd
    rw [hv _ (onPrev_right h hd)]
    rfl

/-- What the rest of row `d` from diagonal `k` on computes. -/
def RowDone (a b : List UInt32) (na nb d : ℕ) (k : ℤ) : (ℤ × ℤ) ⊕ List ℤ → Prop
  | .inl (x, y) => ∃ j, OnRow d j ∧ x = frontier (matching a b) na nb d j ∧ y = x - j ∧
      (na : ℤ) ≤ x ∧ (nb : ℤ) ≤ y
  | .inr v => v.length = 2 * (na + nb) + 1 ∧
      Holds na nb v (OnRow d) (frontier (matching a b) na nb d) ∧
      ∀ j, OnRow d j → k ≤ j → ¬ ((na : ℤ) ≤ frontier (matching a b) na nb d j ∧
        (nb : ℤ) ≤ frontier (matching a b) na nb d j - j)

/-- **One row of the forward search** computes the frontier's row, inside the arrays. -/
theorem forwardRow_spec (ha : na * tupleLen ≤ a.length) (hb : nb * tupleLen ≤ b.length) {d : ℕ}
    (hd : d ≤ na + nb) : ∀ (n : ℕ) (k : ℤ) (v : List ℤ), k + 2 * n = d + 2 → -d ≤ k →
      v.length = 2 * (na + nb) + 1 → Holds na nb v (OnPrev d) (prevRow a b na nb d) →
      Holds na nb v (fun j => OnRow d j ∧ j < k) (frontier (matching a b) na nb d) →
      ∃ r, forwardRow a b na nb d n k v = some r ∧ RowDone a b na nb d k r := by
  intro n
  induction n with
  | zero =>
    intro k v hk _ hlen _ hrow
    refine ⟨.inr v, rfl, hlen, fun j hj => hrow j ⟨hj, ?_⟩, fun j hj hkj => ?_⟩
    · have := hj.2.1
      omega
    · have := hj.2.1
      omega
  | succ n ih =>
    intro k v hk hlo hlen hprev hrow
    have hon : OnRow d k := ⟨hlo, by omega, by omega⟩
    obtain ⟨hx0, hxk⟩ : 0 ≤ entry (prevRow a b na nb d) d k ∧
        k ≤ entry (prevRow a b na nb d) d k := entry_nonneg hon
    have hend : frontier (matching a b) na nb d k
        = snakeEnd (matching a b) na nb (entry (prevRow a b na nb d) d k) k :=
      frontier_eq_snakeEnd hon
    have hslide := slideSnake_eq ha hb (na - entry (prevRow a b na nb d) d k).toNat hx0
      (show 0 ≤ entry (prevRow a b na nb d) d k - k by omega)
    rw [show slide (matching a b) na nb (na - entry (prevRow a b na nb d) d k).toNat
      (entry (prevRow a b na nb d) d k) (entry (prevRow a b na nb d) d k - k)
      = frontier (matching a b) na nb d k from hend.symm] at hslide
    obtain ⟨v', hw⟩ := exists_write (v := v) (i := k + (na + nb : ℕ))
      (frontier (matching a b) na nb d k) (by omega) (by omega)
    rw [forwardRow, enterDiagonal_eq hprev hon]
    simp only [Option.bind_eq_bind, Option.bind_some, hslide, hw]
    rw [show entry (prevRow a b na nb d) d k - k
      + (frontier (matching a b) na nb d k - entry (prevRow a b na nb d) d k)
      = frontier (matching a b) na nb d k - k by omega]
    split
    · rename_i hf
      exact ⟨_, rfl, k, hon, rfl, rfl, hf⟩
    · rename_i hf
      have hother : ∀ j, j ≠ k → readInt v' (j + (na + nb : ℕ)) = readInt v (j + (na + nb : ℕ)) :=
        fun j hj => readInt_write_ne hw (by omega)
      obtain ⟨r, hr, hdone⟩ := ih (k + 2) v' (by omega) (by omega) (by rw [length_write hw, hlen])
        (fun j hj => by rw [hother j (onPrev_ne hj hon), hprev j hj])
        (fun j hj => by
          by_cases hjk : j = k
          · rw [hjk]
            exact readInt_write_self hw
          · rw [hother j hjk]
            obtain ⟨⟨h1, h2, h3⟩, h4⟩ := hj
            obtain ⟨-, -, h5⟩ := hon
            exact hrow j ⟨⟨h1, h2, h3⟩, by omega⟩)
      refine ⟨r, hr, ?_⟩
      cases r with
      | inl p => exact hdone
      | inr v'' =>
        refine ⟨hdone.1, hdone.2.1, fun j hj hkj => ?_⟩
        by_cases hjk : j = k
        · rw [hjk]
          exact hf
        · have h1 := hj.2.2
          have h2 := hon.2.2
          exact hdone.2.2 j hj (by omega)

/-! ### The saved rows -/

theorem snapOff_succ (d : ℕ) : snapOff (d + 1) = snapOff d + (d + 1) := by
  unfold snapOff
  rw [show (d + 1) * (d + 1 + 1) = d * (d + 1) + (d + 1) * 2 by ring,
    Nat.add_mul_div_right _ _ two_pos]

theorem snapOff_mono {d e : ℕ} (h : d ≤ e) : snapOff d ≤ snapOff e := by
  induction h with
  | refl => exact le_rfl
  | step _ ih =>
    rw [snapOff_succ]
    omega

/-- The snapshot of row `d` holds `f`. -/
def SavedRow (snap : List ℤ) (d : ℕ) (f : ℤ → ℤ) : Prop :=
  ∀ i ≤ d, readInt snap (snapOff d + i : ℕ) = some (f (-d + 2 * i))

/-- The rows before `d` are saved. -/
def Saved (a b : List UInt32) (na nb : ℕ) (snap : List ℤ) (d : ℕ) : Prop :=
  ∀ e < d, SavedRow snap e (frontier (matching a b) na nb e)

/-- A saved row is read back at the index the backtrace computes. -/
theorem SavedRow.read {snap : List ℤ} {d : ℕ} {f : ℤ → ℤ} {k : ℤ} (h : SavedRow snap d f)
    (hk : OnRow d k) : readInt snap (snapOff d + (k + d).tdiv 2) = some (f k) := by
  obtain ⟨h1, h2, h3⟩ := hk
  obtain ⟨i, hi⟩ : ∃ i : ℕ, k + d = 2 * i := ⟨((k + d) / 2).toNat, by omega⟩
  rw [hi, Int.mul_tdiv_cancel_left _ two_ne_zero, show k = -d + 2 * i by omega]
  exact_mod_cast h i (by omega)

theorem saveSnapshot_spec {v : List ℤ} {d : ℕ} {f : ℤ → ℤ} (hv : Holds na nb v (OnRow d) f)
    (hd : d < na + nb) : ∀ (n i : ℕ) (snap : List ℤ), i + n = d + 1 →
      snap.length = snapOff (na + nb) →
      (∀ j < i, readInt snap (snapOff d + j : ℕ) = some (f (-d + 2 * j))) →
      ∃ snap', saveSnapshot na nb v d n i snap = some snap' ∧
        snap'.length = snapOff (na + nb) ∧ SavedRow snap' d f ∧
        ∀ c < snapOff d, readInt snap' (c : ℕ) = readInt snap (c : ℕ) := by
  intro n
  induction n with
  | zero =>
    intro i snap hi hlen hrow
    exact ⟨snap, rfl, hlen, fun j hj => hrow j (by omega), fun c _ => rfl⟩
  | succ n ih =>
    intro i snap hi hlen hrow
    have hroom : snapOff (d + 1) ≤ snapOff (na + nb) := snapOff_mono hd
    rw [snapOff_succ] at hroom
    have hread := hv (-d + 2 * i) ⟨by omega, by omega, by omega⟩
    obtain ⟨snap', hw⟩ := exists_write (v := snap) (i := (snapOff d + i : ℕ)) (f (-d + 2 * i))
      (by omega) (by omega)
    have hother : ∀ c : ℕ, c ≠ snapOff d + i → readInt snap' c = readInt snap c :=
      fun c hc => readInt_write_ne hw (by omega)
    obtain ⟨snap'', h1, h2, h3, h4⟩ := ih (i + 1) snap' (by omega) (by rw [length_write hw, hlen])
      (fun j hj => by
        by_cases hji : j = i
        · rw [hji]
          exact readInt_write_self hw
        · rw [hother _ (by omega), hrow j (by omega)])
    refine ⟨snap'', ?_, h2, h3, fun c hc => by rw [h4 c hc, hother c (by omega)]⟩
    rw [saveSnapshot, hread]
    simp only [Option.bind_eq_bind, Option.bind_some, hw, h1]

/-- **The forward search** stops at the corner of the grid, on the first row that
reaches it, and the rows before it are saved. -/
theorem forward_spec (ha : na * tupleLen ≤ a.length) (hb : nb * tupleLen ≤ b.length) :
    ∀ (n d : ℕ) (v snap : List ℤ), d + n = na + nb + 1 →
      (∀ e < d, ¬ Reached (matching a b) na nb e) →
      v.length = 2 * (na + nb) + 1 → Holds na nb v (OnPrev d) (prevRow a b na nb d) →
      snap.length = snapOff (na + nb) → Saved a b na nb snap d →
      ∃ (D : ℕ) (snap' : List ℤ), forward a b na nb n d v snap = some (some (D, (na : ℤ), (nb : ℤ)), snap') ∧
        OnRow D ((na : ℤ) - nb) ∧ frontier (matching a b) na nb D (na - nb) = na ∧
        (∀ e < D, ¬ Reached (matching a b) na nb e) ∧ Saved a b na nb snap' D := by
  intro n
  induction n with
  | zero =>
    intro d v snap hd hfirst
    have htot := reached_total (m := matching a b) (p := na) (q := nb) (by omega) (by omega)
    exact absurd htot (hfirst _ (by omega))
  | succ n ih =>
    intro d v snap hd hfirst hv hprev hsnap hsaved
    obtain ⟨r, hr, hdone⟩ := forwardRow_spec ha hb (d := d) (by omega) (d + 1) (-d) v (by omega)
      le_rfl hv hprev (fun j hj => by
        obtain ⟨⟨h1, -, -⟩, h2⟩ := hj
        omega)
    unfold forward
    rw [hr]
    cases r with
    | inl p =>
      obtain ⟨x, y⟩ := p
      obtain ⟨k, hk, rfl, rfl, hx, hy⟩ := hdone
      obtain ⟨h1, h2⟩ := frontier_eq_of_first (by omega) (by omega) hfirst hk hx hy
      have hkk : k = na - nb := by omega
      refine ⟨d, snap, ?_, hkk ▸ hk, hkk ▸ h1, hfirst, hsaved⟩
      simp only [Option.bind_eq_bind, Option.bind_some]
      rw [h2, h1]
    | inr v' =>
      obtain ⟨hv', hrow, hnot⟩ := hdone
      have hnr : ¬ Reached (matching a b) na nb d := by
        rintro ⟨k, hk, hx, hy⟩
        exact hnot k hk hk.1 ⟨hx, hy⟩
      have hlt : d < na + nb := by
        by_contra hge
        refine hnr ?_
        have htot := reached_total (m := matching a b) (p := na) (q := nb) (by omega) (by omega)
        rwa [show ((na : ℤ) + nb).toNat = d by omega] at htot
      obtain ⟨snap', h1, h2, h3, h4⟩ := saveSnapshot_spec hrow hlt (d + 1) 0 snap (by omega) hsnap
        (fun j hj => absurd hj (Nat.not_lt_zero j))
      obtain ⟨D, snap'', h⟩ := ih (d + 1) v' snap' (by omega)
        (fun e he => by
          by_cases hed : e = d
          · rwa [hed]
          · exact hfirst e (by omega))
        hv' hrow h2
        (fun e he => by
          by_cases hed : e = d
          · rwa [hed]
          · intro i hi
            have hoff : snapOff (e + 1) ≤ snapOff d := snapOff_mono (by omega)
            rw [snapOff_succ] at hoff
            rw [h4 _ (by omega), hsaved e (by omega) i hi])
      refine ⟨D, snap'', ?_, h.2⟩
      simp only [Option.bind_eq_bind, Option.bind_some, h1, h.1]

/-! ### The backtrace -/

variable (na nb) in
theorem slideBack_eq (n : ℕ) (xEdge yEdge : ℤ) (raw : List Move)
    (hraw : raw.length + n ≤ na + nb) :
    slideBack na nb xEdge yEdge n (xEdge + n) (yEdge + n) raw
      = some (xEdge, yEdge, List.replicate n .keep ++ raw) := by
  induction n generalizing raw with
  | zero => simp [slideBack]
  | succ n ih =>
    rw [slideBack, if_pos ⟨by omega, by omega⟩, pushKind_of .keep (by omega)]
    simp only [Option.bind_eq_bind, Option.bind_some]
    rw [show xEdge + ((n + 1 : ℕ) : ℤ) - 1 = xEdge + n by omega,
      show yEdge + ((n + 1 : ℕ) : ℤ) - 1 = yEdge + n by omega,
      ih _ (by rw [List.length_cons]; omega), List.replicate_succ', List.append_assoc]
    rfl

theorem cameDown_eq {snap : List ℤ} {d : ℕ} {f : ℤ → ℤ} {k : ℤ} (h : SavedRow snap d f)
    (hk : OnRow (d + 1) k) : cameDown snap (d + 1) k = some (decide (goesDown f (d + 1) k)) := by
  unfold cameDown
  by_cases h1 : k = -((d + 1 : ℕ) : ℤ)
  · rw [if_pos h1, h1, decide_eq_true (goesDown_low f (d + 1))]
  rw [if_neg h1]
  by_cases h2 : k = ((d + 1 : ℕ) : ℤ)
  · have hd : ¬ goesDown f (d + 1) k := by
      rintro (hd | ⟨hd, -⟩)
      · exact h1 hd
      · exact hd h2
    rw [if_pos h2, decide_eq_false hd]
  obtain ⟨h3, h4, h5⟩ := hk
  have hm := h.read (k := k - 1) ⟨by omega, by omega, by omega⟩
  have hp := h.read (k := k + 1) ⟨by omega, by omega, by omega⟩
  rw [if_neg h2, decide_eq_decide.mpr (goesDown_inner h1 h2), Nat.add_sub_cancel,
    show ((d + 1 : ℕ) : ℤ) - 1 = d by omega, hm, hp]
  rfl

/-- **The backtrace** extends a walk to the corner back to the origin, with one
edit for each row, and stays within the `na + nb` steps it has room for. -/
theorem backtrace_spec {snap : List ℤ} {D : ℕ} (hsaved : Saved a b na nb snap D) :
    ∀ (d : ℕ) (x y : ℤ) (raw : List Move), d ≤ D → OnRow d (x - y) →
      frontier (matching a b) na nb d (x - y) = x → Walk (matching a b) na nb x y raw na nb →
      ∃ raw', backtrace na nb snap d x y raw = some raw' ∧
        Walk (matching a b) na nb 0 0 raw' na nb ∧ edits raw' = d + edits raw := by
  intro d
  induction d with
  | zero =>
    intro x y raw _ hk hx hw
    have hxy : y = x := by
      have := onRow_zero hk
      omega
    subst hxy
    have h0 := (frontier_nonneg (m := matching a b) (p := na) (q := nb) hk).1
    have hsn := walk_snakeEnd (m := matching a b) (p := na) (q := nb) 0 (y - y)
    rw [show snakeEnd (matching a b) na nb 0 (y - y) = y from hx, sub_self, sub_self, sub_zero]
      at hsn
    have hlen := (hsn.append hw).length_le
    rw [List.length_append, List.length_replicate] at hlen
    have hsb := slideBack_eq na nb y.toNat 0 0 raw (by omega)
    rw [show (0 : ℤ) + y.toNat = y by omega] at hsb
    refine ⟨_, ?_, hsn.append hw, by simp⟩
    rw [backtrace, hsb]
    rfl
  | succ d ih =>
    intro x y raw hd hk hx hw
    have hrow := hsaved d (by omega)
    have hsn := walk_snakeEnd (m := matching a b) (p := na) (q := nb)
      (entry (frontier (matching a b) na nb d) (d + 1) (x - y)) (x - y)
    rw [show snakeEnd (matching a b) na nb (entry (frontier (matching a b) na nb d) (d + 1) (x - y))
      (x - y) = x from hx, show x - (x - y) = y by omega] at hsn
    have hle := hsn.le
    have hp := onRow_prev (f := frontier (matching a b) na nb d) hk
    rw [backtrace, cameDown_eq hrow hk]
    simp only [Option.bind_eq_bind, Option.bind_some, decide_eq_true_eq]
    by_cases hdn : goesDown (frontier (matching a b) na nb d) (d + 1) (x - y)
    · rw [if_pos hdn] at hp
      have h0 := frontier_nonneg (m := matching a b) (p := na) (q := nb) hp
      simp only [if_pos hdn, hrow.read hp, Option.bind_some]
      rw [entry, if_pos hdn] at hsn hle
      generalize hxp : frontier (matching a b) na nb d (x - y + 1) = xPrev at hsn hle h0 ⊢
      have hw' := (Walk.ins (m := matching a b) (p := na) (q := nb) (y := xPrev - (x - y + 1))
        (by rwa [show xPrev - (x - y + 1) + 1 = xPrev - (x - y) by omega])).append hw
      have hlen := hw'.length_le
      simp only [List.length_append, List.length_cons, List.length_replicate] at hlen
      have hsb := slideBack_eq na nb (x - xPrev).toNat xPrev (xPrev - (x - y)) raw
        (by omega)
      rw [show xPrev + ((x - xPrev).toNat : ℤ) = x by omega,
        show xPrev - (x - y) + ((x - xPrev).toNat : ℤ) = y by omega] at hsb
      obtain ⟨raw', h1, h2, h3⟩ := ih xPrev (xPrev - (x - y + 1)) _ (by omega)
        (by rwa [show xPrev - (xPrev - (x - y + 1)) = x - y + 1 by omega])
        (by rwa [show xPrev - (xPrev - (x - y + 1)) = x - y + 1 by omega]) hw'
      refine ⟨raw', ?_, h2, by simp at h3; omega⟩
      rw [show xPrev - (x - y + 1) + 1 = xPrev - (x - y) by omega, hsb]
      simp only [Option.bind_some]
      rw [pushKind_of .ins (by simp only [List.length_append, List.length_replicate]; omega)]
      simp only [Option.bind_some]
      rw [show xPrev - (x - y) - 1 = xPrev - (x - y + 1) by omega]
      exact h1
    · rw [if_neg hdn] at hp
      have h0 := frontier_nonneg (m := matching a b) (p := na) (q := nb) hp
      simp only [if_neg hdn, hrow.read hp, Option.bind_some]
      rw [entry, if_neg hdn] at hsn hle
      generalize hxp : frontier (matching a b) na nb d (x - y - 1) = xPrev at hsn hle h0 ⊢
      have hw' := (Walk.del (m := matching a b) (p := na) (q := nb) (x := xPrev)
        (y := xPrev - (x - y - 1))
        (by rwa [show xPrev - (x - y - 1) = xPrev + 1 - (x - y) by omega])).append hw
      have hlen := hw'.length_le
      simp only [List.length_append, List.length_cons, List.length_replicate] at hlen
      have hsb := slideBack_eq na nb (x - (xPrev + 1)).toNat (xPrev + 1)
        (xPrev + 1 - (x - y)) raw (by omega)
      rw [show xPrev + 1 + ((x - (xPrev + 1)).toNat : ℤ) = x by omega,
        show xPrev + 1 - (x - y) + ((x - (xPrev + 1)).toNat : ℤ) = y by omega] at hsb
      obtain ⟨raw', h1, h2, h3⟩ := ih xPrev (xPrev - (x - y - 1)) _ (by omega)
        (by rwa [show xPrev - (xPrev - (x - y - 1)) = x - y - 1 by omega])
        (by rwa [show xPrev - (xPrev - (x - y - 1)) = x - y - 1 by omega]) hw'
      refine ⟨raw', ?_, h2, by simp at h3; omega⟩
      rw [show xPrev - (x - y - 1) = xPrev + 1 - (x - y) by omega, hsb]
      simp only [Option.bind_some]
      rw [pushKind_of .del (by simp only [List.length_append, List.length_replicate]; omega)]
      simp only [Option.bind_some]
      rw [show xPrev + 1 - 1 = xPrev by omega,
        show xPrev + 1 - (x - y) = xPrev - (x - y - 1) by omega]
      exact h1

/-- **Search and backtrace together**: the raw script is a walk from the origin to the
corner with as few edits as any. -/
theorem search_spec (ha : na * tupleLen ≤ a.length) (hb : nb * tupleLen ≤ b.length)
    (hpos : 0 < na + nb) :
    ∃ (D : ℕ) (snap : List ℤ) (raw : List Move),
      forward a b na nb (na + nb + 1) 0 (List.replicate (2 * (na + nb) + 1) 0)
        (List.replicate ((na + nb) * (na + nb + 1) / 2) 0) = some (some (D, (na : ℤ), (nb : ℤ)), snap) ∧
      backtrace na nb snap D na nb [] = some raw ∧
      Walk (matching a b) na nb 0 0 raw na nb ∧ edits raw = D ∧
      ∀ l, Walk (matching a b) na nb 0 0 l na nb → D ≤ edits l := by
  obtain ⟨D, snap, hf, hrow, hD, hfirst, hsaved⟩ := forward_spec ha hb (na + nb + 1) 0
    (List.replicate (2 * (na + nb) + 1) 0) (List.replicate (snapOff (na + nb)) 0) (by omega)
    (fun e he => absurd he (Nat.not_lt_zero e)) (List.length_replicate)
    (fun k hk => by
      rw [show k = 1 from hk]
      refine readInt_of (by omega) ?_
      rw [List.getElem?_replicate, if_pos (by omega)]
      rfl)
    (List.length_replicate) (fun e he => absurd he (Nat.not_lt_zero e))
  obtain ⟨raw, hraw, hw, he⟩ := backtrace_spec hsaved D na nb [] le_rfl hrow hD (.nil _ _)
  rw [edits_nil, Nat.add_zero] at he
  refine ⟨D, snap, raw, hf, hraw, hw, he, fun l hl => ?_⟩
  by_contra hlt
  exact hfirst _ (by omega) (reached_of_walk hl)

end Search

end TaskjugglerLsp.Delta
