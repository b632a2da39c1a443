import TaskjugglerLsp.Lib.Scanner

/-!
# Scanners on given texts

A longest match is searched from the whole rest of the input downwards.  Where every rule goes on
only in a class of elements that the first one determines, the search can begin at the end of that
class, and the calls of the scanner on a given text can be evaluated.

* `longestMatch_within`: the match is the same.
* `Scanner.next_within`: a call is the same.
-/

namespace TaskjugglerLsp.Lib

section Within

variable {α β : Type*}

/-- A match goes on only in the class of its first element. -/
def GoesOn (follow : α → α → Bool) (P : Pattern α) : Prop :=
  ∀ a rest, P (a :: rest) = true → ∀ b ∈ rest, follow a b = true

variable {follow : α → α → Bool} {P : Pattern α}

theorem goesOn_of_over {p q : α → Bool} (hbegins : Pattern.Begins p P) (hover : Pattern.Over q P)
    (h : ∀ a b, p a = true → q b = true → follow a b = true) : GoesOn follow P :=
  fun a rest hP b hb => h a b (hbegins a rest hP) (hover _ hP b (List.mem_cons_of_mem a hb))

theorem goesOn_lit [BEq α] [LawfulBEq α] {w : List α}
    (h : ∀ a ∈ w.head?, ∀ b ∈ w.tail, follow a b = true) : GoesOn follow (Pattern.lit w) := by
  intro a rest hP b hb
  obtain rfl := eq_of_beq hP
  exact h a rfl b hb

theorem goesOn_one {p : α → Bool} : GoesOn follow (Pattern.one p) := by
  intro a rest hP b hb
  rw [Pattern.one, Bool.and_eq_true, beq_iff_eq, List.length_cons, Nat.add_eq_right,
    List.length_eq_zero_iff] at hP
  rw [hP.1] at hb
  cases hb

/-- The longest match that goes on in the class of the first element. -/
def longestWithin (follow : α → α → Bool) (rules : List (Rule α β)) (input : List α) :
    Option (Rule α β × ℕ) :=
  match input with
  | [] => none
  | a :: rest => longestUpTo rules (a :: rest) ((rest.takeWhile (follow a)).length + 1)

theorem longestUpTo_of_le {rules : List (Rule α β)} {input : List α} {n m : ℕ} (hnm : n ≤ m)
    (h : ∀ k, n < k → k ≤ m → rules.find? (·.pattern (input.take k)) = none) :
    longestUpTo rules input m = longestUpTo rules input n := by
  induction m with
  | zero =>
    obtain rfl : n = 0 := by omega
    rfl
  | succ m ih =>
    rcases Nat.lt_or_ge n (m + 1) with hlt | hge
    · rw [longestUpTo, h (m + 1) hlt (Nat.le_refl _)]
      exact ih (by omega) fun k hk hkm => h k hk (by omega)
    · obtain rfl : n = m + 1 := by omega
      rfl

theorem le_length_takeWhile {p : α → Bool} {xs : List α} {k : ℕ} (hk : k ≤ xs.length)
    (h : ∀ b ∈ xs.take k, p b = true) : k ≤ (xs.takeWhile p).length := by
  induction xs generalizing k with
  | nil => exact hk
  | cons a xs ih =>
    cases k with
    | zero => exact Nat.zero_le _
    | succ k =>
      rw [List.take_succ_cons, List.forall_mem_cons] at h
      rw [List.takeWhile_cons_of_pos h.1, List.length_cons]
      exact Nat.succ_le_succ (ih (Nat.le_of_succ_le_succ hk) h.2)

/-- **The longest match** is found in the class of the first element. -/
theorem longestMatch_within {rules : List (Rule α β)}
    (h : ∀ r ∈ rules, GoesOn follow r.pattern) (input : List α) :
    longestMatch rules input = longestWithin follow rules input := by
  cases input with
  | nil => rfl
  | cons a rest =>
    refine longestUpTo_of_le ?_ fun k hk hle => ?_
    · rw [List.length_cons]
      exact Nat.succ_le_succ (List.takeWhile_prefix _).length_le
    · obtain ⟨k, rfl⟩ : ∃ j, k = j + 1 := ⟨k - 1, by omega⟩
      rw [List.take_succ_cons, List.find?_eq_none]
      intro r hr hP
      have hlong := le_length_takeWhile (by simpa using hle) (h r hr a _ hP)
      omega

namespace Scanner

variable {κ σ τ : Type*} (S : Scanner α κ β σ τ) (within : κ → α → α → Bool)

/-- One match, in the class of the first element. -/
def stepWithin (c : Scan α κ σ) : Scan α κ σ × Option τ :=
  match c.rest with
  | [] =>
    let out := S.eof c.cond c.vars
    (⟨out.1.1, out.1.2, []⟩, some out.2)
  | a :: rest =>
    match longestWithin (within c.cond) (S.rules c.cond) (a :: rest) with
    | some (r, n) =>
      let out := S.act c.cond c.vars r.action ((a :: rest).take n)
      (⟨out.1.1, out.1.2, (a :: rest).drop n⟩, out.2)
    | none => (⟨c.cond, S.echo c.vars [a], rest⟩, none)

/-- At most so many of these matches, up to a token. -/
def nextWithin : ℕ → Scan α κ σ → Scan α κ σ × Option τ
  | 0, c => (c, none)
  | n + 1, c =>
    match S.stepWithin within c with
    | (c, some t) => (c, some t)
    | (c, none) => nextWithin n c

variable {S within}

theorem step_within (h : ∀ k, ∀ r ∈ S.rules k, GoesOn (within k) r.pattern) (c : Scan α κ σ) :
    S.step c = S.stepWithin within c := by
  unfold step stepWithin
  cases c.rest with
  | nil => rfl
  | cons a rest =>
    have hmatch := longestMatch_within (h c.cond) (a :: rest)
    cases hfound : longestWithin (within c.cond) (S.rules c.cond) (a :: rest) with
    | none =>
      rw [hfound] at hmatch
      simp only [hmatch, hfound]
    | some found =>
      obtain ⟨r, n⟩ := found
      rw [hfound] at hmatch
      simp only [hmatch, hfound]

/-- **A call** is evaluated by matches in the class of their first element. -/
theorem next_within (h : ∀ k, ∀ r ∈ S.rules k, GoesOn (within k) r.pattern) (c : Scan α κ σ) :
    S.next c = S.nextWithin within (c.rest.length + 1) c := by
  unfold next
  generalize c.rest.length + 1 = n
  induction n generalizing c with
  | zero => rfl
  | succ n ih =>
    rw [nextUpTo, nextWithin, step_within h]
    obtain ⟨d, t⟩ := S.stepWithin within c
    cases t with
    | none => exact ih d
    | some t => rfl

end Scanner

end Within

end TaskjugglerLsp.Lib
