import Mathlib.Data.List.Basic

/-!
# Runs whose steps meet a condition

A machine takes inputs; each of them is carried out as a list of steps, which
may depend on the state it comes in.  `Reached` are the states between two
inputs, in runs every step of which meets a condition on the state before it.

* `Meets.invariant`: what each step keeps, a list of steps keeps;
* `Reached.invariant`: and it holds of every state reached.
-/

namespace TaskjugglerLsp.Lib.Runs

variable {σ ι κ : Type*}

section Steps

variable (step : σ → ι → σ) (ok : σ → ι → Prop)

/-- Each of these steps, in turn, is taken in a state where it meets the condition. -/
def Meets : σ → List ι → Prop
  | _, [] => True
  | s, i :: steps => ok s i ∧ Meets (step s i) steps

variable (plan : σ → κ → List ι) (start : σ)

/-- The states between two inputs. -/
inductive Reached : σ → Prop
  | start : Reached start
  | input {s : σ} (k : κ) : Reached s → Meets step ok s (plan s k) →
      Reached ((plan s k).foldl step s)

end Steps

variable {step : σ → ι → σ} {ok ok' : σ → ι → Prop} {plan : σ → κ → List ι} {start : σ}

instance Meets.decidable [∀ s i, Decidable (ok s i)] :
    ∀ (s : σ) (steps : List ι), Decidable (Meets step ok s steps)
  | _, [] => isTrue trivial
  | s, i :: steps =>
    have := Meets.decidable (step s i) steps
    inferInstanceAs (Decidable (ok s i ∧ Meets step ok (step s i) steps))

theorem meets_append {s : σ} {steps steps' : List ι} :
    Meets step ok s (steps ++ steps') ↔
      Meets step ok s steps ∧ Meets step ok (steps.foldl step s) steps' := by
  induction steps generalizing s with
  | nil => simp [Meets]
  | cons i steps ih => rw [List.cons_append, Meets, Meets, ih, List.foldl_cons, and_assoc]

theorem meets_of_forall {s : σ} {steps : List ι} (h : ∀ i ∈ steps, ∀ s, ok s i) :
    Meets step ok s steps := by
  induction steps generalizing s with
  | nil => trivial
  | cons i steps ih =>
    exact ⟨h i List.mem_cons_self s, ih fun j hj => h j (List.mem_cons_of_mem _ hj)⟩

theorem Meets.invariant {I : σ → Prop} (hstep : ∀ s i, I s → ok s i → I (step s i)) {s : σ}
    {steps : List ι} (h : Meets step ok s steps) (hI : I s) : I (steps.foldl step s) := by
  induction steps generalizing s with
  | nil => exact hI
  | cons i steps ih => exact ih h.2 (hstep s i hI h.1)

theorem Meets.imp {I : σ → Prop} (hstep : ∀ s i, I s → ok s i → I (step s i))
    (himp : ∀ s i, I s → ok s i → ok' s i) {s : σ} {steps : List ι}
    (h : Meets step ok s steps) (hI : I s) : Meets step ok' s steps := by
  induction steps generalizing s with
  | nil => trivial
  | cons i steps ih => exact ⟨himp s i hI h.1, ih h.2 (hstep s i hI h.1)⟩

theorem Meets.and {s : σ} {steps : List ι} (h : Meets step ok s steps)
    (h' : Meets step ok' s steps) : Meets step (fun s i => ok s i ∧ ok' s i) s steps := by
  induction steps generalizing s with
  | nil => trivial
  | cons i steps ih => exact ⟨⟨h.1, h'.1⟩, ih h.2 h'.2⟩

/-- **What each step keeps** holds of every state reached. -/
theorem Reached.invariant {I : σ → Prop} (hstart : I start)
    (hstep : ∀ s i, I s → ok s i → I (step s i)) {s : σ}
    (h : Reached step ok plan start s) : I s := by
  induction h with
  | start => exact hstart
  | input k _ hm ih => exact hm.invariant hstep ih

end TaskjugglerLsp.Lib.Runs
