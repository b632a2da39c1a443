import Mathlib.Data.Int.Notation
import Mathlib.Order.Basic

/-!
# Bisection

The search for the last index with a property, by halving a closed interval of
integers.

* `Bisects.last`: where the property holds up to some index and not from there on,
  the search finds that index.
-/

namespace TaskjugglerLsp.Lib

variable {good : ℕ → Prop} {n : ℕ}

/-- **A run of the search** from `lo` to `hi`, with what has been found before, the indices below
`n` that it looks at, and what it finds. -/
inductive Bisects (good : ℕ → Prop) (n : ℕ) : ℤ → ℤ → ℤ → List ℕ → ℤ → Prop
  | done {lo hi found : ℤ} : hi < lo → Bisects good n lo hi found [] found
  | up {lo hi found r : ℤ} {mid : ℕ} {probes : List ℕ} : lo ≤ hi →
      (mid : ℤ) = lo + (hi - lo) / 2 → mid < n → good mid →
      Bisects good n (mid + 1) hi mid probes r → Bisects good n lo hi found (mid :: probes) r
  | down {lo hi found r : ℤ} {mid : ℕ} {probes : List ℕ} : lo ≤ hi →
      (mid : ℤ) = lo + (hi - lo) / 2 → mid < n → ¬ good mid →
      Bisects good n lo (mid - 1) found probes r → Bisects good n lo hi found (mid :: probes) r

/-- Every index that the search looks at is in range. -/
theorem Bisects.lt {lo hi found r : ℤ} {probes : List ℕ} (h : Bisects good n lo hi found probes r) :
    ∀ i ∈ probes, i < n := by
  induction h with
  | done => exact fun i hi => by cases hi
  | up _ _ hmid _ _ ih => exact List.forall_mem_cons.mpr ⟨hmid, ih⟩
  | down _ _ hmid _ _ ih => exact List.forall_mem_cons.mpr ⟨hmid, ih⟩

/-- **The search finds the last index** with the property, if the property holds only up to some
index: below `lo` it holds, above `hi` it does not, and `found` is the index before `lo`. -/
theorem Bisects.last {lo hi found r : ℤ} {probes : List ℕ} (h : Bisects good n lo hi found probes r)
    (hmono : ∀ i j, i ≤ j → j < n → good j → good i) (hfound : found = lo - 1) (hlo : 0 ≤ lo)
    (hle : lo ≤ hi + 1) (hhi : hi < n) (hbelow : ∀ i : ℕ, (i : ℤ) < lo → good i)
    (habove : ∀ i : ℕ, hi < i → i < n → ¬ good i) :
    -1 ≤ r ∧ r < n ∧ ∀ i : ℕ, i < n → (good i ↔ (i : ℤ) ≤ r) := by
  induction h with
  | done hend =>
    refine ⟨by omega, by omega, fun i hi => ⟨fun hgood => ?_, fun hir => hbelow i (by omega)⟩⟩
    by_contra hlt
    exact habove i (by omega) hi hgood
  | up hlohi hmid hlt hgood _ ih =>
    refine ih (by omega) (by omega) (by omega) hhi (fun i hi => ?_) habove
    exact hmono i _ (by omega) hlt hgood
  | @down lo hi found r mid probes hlohi hmid hlt hbad _ ih =>
    refine ih hfound hlo (by omega) (by omega) hbelow (fun i hi hin hgood => ?_)
    exact hbad (hmono mid i (by omega) hin hgood)

end TaskjugglerLsp.Lib
