import Mathlib

/-!
# Regions carved out of blocks

Byte ranges in a family of blocks, of which each is handed out from the bottom
up: `top` is where the part of a block ends that has been handed out.

* `pairwise_carve`: a range from the top of its block on meets none of the ranges
  below the tops.
-/

namespace TaskjugglerLsp.Lib.Regions

/-- A range of bytes in one of several blocks. -/
structure Region where
  block : ℕ
  off : ℕ
  len : ℕ
  deriving DecidableEq, Repr

namespace Region

/-- The bytes of a region: a block and an offset in it. -/
def bytes (r : Region) : Set (ℕ × ℕ) := {p | p.1 = r.block ∧ r.off ≤ p.2 ∧ p.2 < r.off + r.len}

/-- No byte belongs to both. -/
def Apart (r r' : Region) : Prop := Disjoint r.bytes r'.bytes

/-- A region ends where the part of its block that has been handed out ends, or before. -/
def Below (top : ℕ → ℕ) (r : Region) : Prop := r.off + r.len ≤ top r.block

end Region

open Region

variable {r r' : Region} {top top' : ℕ → ℕ}

theorem Region.Apart.symm (h : Apart r r') : Apart r' r := Disjoint.symm h

theorem apart_of_block_ne (h : r.block ≠ r'.block) : Apart r r' := by
  refine Set.disjoint_left.mpr ?_
  intro p hp hp'
  exact h (hp.1.symm.trans hp'.1)

theorem apart_of_le (h : r.off + r.len ≤ r'.off) : Apart r r' := by
  refine Set.disjoint_left.mpr ?_
  intro p hp hp'
  exact absurd (hp.2.2.trans_le h) (not_lt.mpr hp'.2.1)

theorem Region.Below.mono (h : Below top r) (htop : top r.block ≤ top' r.block) : Below top' r :=
  h.trans htop

/-- **Carving from the top** keeps what has been handed out apart. -/
theorem pairwise_carve {regions : List Region} (hbelow : ∀ r ∈ regions, Below top r)
    (hapart : regions.Pairwise Apart) (hfrom : top r.block ≤ r.off) :
    (r :: regions).Pairwise Apart := by
  refine List.pairwise_cons.mpr ⟨?_, hapart⟩
  intro r' hr'
  by_cases hb : r.block = r'.block
  · have hend : r'.off + r'.len ≤ top r'.block := hbelow r' hr'
    refine (apart_of_le (hend.trans ?_)).symm
    rwa [← hb]
  · exact apart_of_block_ne hb

end TaskjugglerLsp.Lib.Regions
