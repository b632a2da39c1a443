import Mathlib.Data.Nat.Notation
import Mathlib.Order.Basic

/-!
# Loops

A `while` loop with its state.  `Visits` are the states at its head, and `loopUpTo` runs it.

* `visits_of_loopUpTo`: the state behind a loop is one at its head.
* `Visits.invariant`: what holds at the begin and is kept by the body holds at the head.
* `loopUpTo_of_measure`: a loop ends whose body decreases a measure.
-/

namespace TaskjugglerLsp.Lib

section Loop

variable {σ : Type*} (cond : σ → Bool) (body : σ → σ)

/-- **The states at the head** of a loop that starts in `s`. -/
inductive Visits (s : σ) : σ → Prop
  | start : Visits s s
  | next {t : σ} (h : Visits s t) (hc : cond t = true) : Visits s (body t)

/-- At most so many rounds: the state behind the loop, if it is reached. -/
def loopUpTo : ℕ → σ → Option σ
  | 0, _ => none
  | n + 1, s => if cond s then loopUpTo n (body s) else some s

variable {cond body} {s t : σ}

theorem Visits.head (hc : cond s = true) (h : Visits cond body (body s) t) :
    Visits cond body s t := by
  induction h with
  | start => exact .next .start hc
  | next h hc' ih => exact .next ih hc'

/-- **An invariant** holds at the head of a loop. -/
theorem Visits.invariant {I : σ → Prop} (h : Visits cond body s t) (hs : I s)
    (hstep : ∀ u, I u → cond u = true → I (body u)) : I t := by
  induction h with
  | start => exact hs
  | next h hc ih => exact hstep _ ih hc

/-- The state behind a loop is one at its head. -/
theorem visits_of_loopUpTo {n : ℕ} (h : loopUpTo cond body n s = some t) :
    Visits cond body s t ∧ cond t = false := by
  induction n generalizing s with
  | zero => cases h
  | succ n ih =>
    rw [loopUpTo] at h
    split_ifs at h with hc
    · obtain ⟨hvisits, hend⟩ := ih h
      exact ⟨hvisits.head hc, hend⟩
    · obtain rfl := Option.some.inj h
      exact ⟨.start, Bool.eq_false_iff.mpr hc⟩

/-- **A loop ends** whose body keeps an invariant and decreases a measure. -/
theorem loopUpTo_of_measure {I : σ → Prop} (μ : σ → ℕ) (hs : I s)
    (hstep : ∀ u, I u → cond u = true → I (body u) ∧ μ (body u) < μ u) {n : ℕ} (hn : μ s < n) :
    ∃ t, loopUpTo cond body n s = some t ∧ I t ∧ cond t = false := by
  induction n generalizing s with
  | zero => exact absurd hn (Nat.not_lt_zero _)
  | succ n ih =>
    rw [loopUpTo]
    by_cases hc : cond s = true
    · obtain ⟨hbody, hlt⟩ := hstep s hs hc
      rw [if_pos hc]
      exact ih hbody (by omega)
    · rw [if_neg hc]
      exact ⟨s, rfl, hs, Bool.eq_false_iff.mpr hc⟩

end Loop

end TaskjugglerLsp.Lib
