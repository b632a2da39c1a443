import Mathlib.Data.List.Nodup
import Mathlib.Logic.ExistsUnique
import Mathlib.Logic.Relation

/-!
# Ledgers of owned resources

Owners that hold at most one resource each.  A resource is created once, goes from owner to owner,
and is dropped for good.

* `Ledger.Sound.op`: every operation keeps that a resource has one owner, or has been dropped once;
* `Ledger.Sound.existsUnique`: each resource has one place.
-/

namespace TaskjugglerLsp.Lib

/-- What each owner holds, what has been dropped, and the name of the next resource. -/
structure Ledger (O : Type*) where
  holds : O → Option ℕ
  dropped : List ℕ
  next : ℕ

namespace Ledger

variable {O : Type*}

/-- The ledger before anything is created. -/
def empty : Ledger O := ⟨fun _ => none, [], 0⟩

/-- One operation of an owner. -/
inductive Op (l l' : Ledger O) : Prop
  | idle : (∀ o, l'.holds o = l.holds o) → l'.dropped = l.dropped → l'.next = l.next → Op l l'
  | create (o : O) : l.holds o = none → l'.holds o = some l.next →
    (∀ x, x ≠ o → l'.holds x = l.holds x) → l'.dropped = l.dropped → l'.next = l.next + 1 → Op l l'
  | move (o o' : O) (r : ℕ) : l.holds o = some r → l.holds o' = none → l'.holds o = none →
    l'.holds o' = some r → (∀ x, x ≠ o → x ≠ o' → l'.holds x = l.holds x) →
    l'.dropped = l.dropped → l'.next = l.next → Op l l'
  | drop (o : O) (r : ℕ) : l.holds o = some r → l'.holds o = none →
    (∀ x, x ≠ o → l'.holds x = l.holds x) → l'.dropped = r :: l.dropped → l'.next = l.next → Op l l'

/-- No resource has two owners, is dropped twice or is lost. -/
structure Sound (l : Ledger O) : Prop where
  owner_unique : ∀ o o' r, l.holds o = some r → l.holds o' = some r → o = o'
  created : ∀ o r, l.holds o = some r → r < l.next ∧ r ∉ l.dropped
  dropped_once : l.dropped.Nodup
  dropped_lt : ∀ r ∈ l.dropped, r < l.next
  kept : ∀ r < l.next, r ∈ l.dropped ∨ ∃ o, l.holds o = some r

theorem sound_empty : Sound (empty : Ledger O) := by
  constructor
  case owner_unique => exact fun o o' r h => by cases h
  case created => exact fun o r h => by cases h
  case dropped_once => exact List.nodup_nil
  case dropped_lt => exact fun r h => by cases h
  case kept => exact fun r h => absurd h (Nat.not_lt_zero r)

variable {l l' : Ledger O}

theorem Op.pass (o o' : O) (hto : l.holds o' = none) (hfrom' : l'.holds o = none)
    (hto' : l'.holds o' = l.holds o) (hother : ∀ x, x ≠ o → x ≠ o' → l'.holds x = l.holds x)
    (hdropped : l'.dropped = l.dropped) (hnext : l'.next = l.next) : Op l l' := by
  cases hfrom : l.holds o with
  | some r => exact .move o o' r hfrom hto hfrom' (hto'.trans hfrom) hother hdropped hnext
  | none =>
    refine .idle (fun x => ?_) hdropped hnext
    by_cases hx : x = o
    · rw [hx, hfrom', hfrom]
    · by_cases hx' : x = o'
      · rw [hx', hto', hfrom, hto]
      · exact hother x hx hx'

theorem Sound.idle (h : l.Sound) (hholds : ∀ o, l'.holds o = l.holds o)
    (hdropped : l'.dropped = l.dropped) (hnext : l'.next = l.next) : l'.Sound := by
  have heq : l' = l := by
    cases l
    cases l'
    simp only at hholds hdropped hnext
    rw [funext hholds, hdropped, hnext]
  rwa [heq]

theorem Sound.create (h : l.Sound) {o : O} (hnew : l'.holds o = some l.next)
    (hother : ∀ x, x ≠ o → l'.holds x = l.holds x) (hdropped : l'.dropped = l.dropped)
    (hnone : l.holds o = none) (hnext : l'.next = l.next + 1) : l'.Sound := by
  have hcases : ∀ x r, l'.holds x = some r → x = o ∧ r = l.next ∨ x ≠ o ∧ l.holds x = some r := by
    intro x r hx
    by_cases hxo : x = o
    · rw [hxo, hnew, Option.some.injEq] at hx
      exact .inl ⟨hxo, hx.symm⟩
    · rw [hother x hxo] at hx
      exact .inr ⟨hxo, hx⟩
  constructor
  case owner_unique =>
    intro x y r hx hy
    rcases hcases x r hx with ⟨rfl, rfl⟩ | ⟨-, hx⟩
    · rcases hcases y _ hy with ⟨rfl, -⟩ | ⟨-, hy⟩
      · rfl
      · exact absurd (h.created _ _ hy).1 (Nat.lt_irrefl _)
    · rcases hcases y r hy with ⟨-, rfl⟩ | ⟨-, hy⟩
      · exact absurd (h.created _ _ hx).1 (Nat.lt_irrefl _)
      · exact h.owner_unique _ _ _ hx hy
  case created =>
    intro x r hx
    rw [hnext, hdropped]
    rcases hcases x r hx with ⟨-, rfl⟩ | ⟨-, hx⟩
    · exact ⟨Nat.lt_succ_self _, fun hmem => Nat.lt_irrefl _ (h.dropped_lt _ hmem)⟩
    · exact ⟨Nat.lt_succ_of_lt (h.created _ _ hx).1, (h.created _ _ hx).2⟩
  case dropped_once => rw [hdropped]; exact h.dropped_once
  case dropped_lt =>
    intro r hr
    rw [hdropped] at hr
    rw [hnext]
    exact Nat.lt_succ_of_lt (h.dropped_lt r hr)
  case kept =>
    intro r hr
    rw [hnext] at hr
    rw [hdropped]
    rcases Nat.lt_succ_iff_lt_or_eq.mp hr with hr | rfl
    · refine (h.kept r hr).imp_right ?_
      rintro ⟨x, hx⟩
      have hxo : x ≠ o := by
        rintro rfl
        rw [hnone] at hx
        cases hx
      exact ⟨x, by rw [hother x hxo, hx]⟩
    · exact .inr ⟨o, hnew⟩

theorem Sound.move (h : l.Sound) {o o' : O} {r : ℕ} (hfrom : l.holds o = some r)
    (hto : l.holds o' = none) (hfrom' : l'.holds o = none) (hto' : l'.holds o' = some r)
    (hother : ∀ x, x ≠ o → x ≠ o' → l'.holds x = l.holds x) (hdropped : l'.dropped = l.dropped)
    (hnext : l'.next = l.next) : l'.Sound := by
  have hcases : ∀ x q, l'.holds x = some q →
      x = o' ∧ q = r ∨ x ≠ o ∧ x ≠ o' ∧ l.holds x = some q := by
    intro x q hx
    by_cases hxo' : x = o'
    · rw [hxo', hto', Option.some.injEq] at hx
      exact .inl ⟨hxo', hx.symm⟩
    · have hxo : x ≠ o := by
        rintro rfl
        rw [hfrom'] at hx
        cases hx
      rw [hother x hxo hxo'] at hx
      exact .inr ⟨hxo, hxo', hx⟩
  constructor
  case owner_unique =>
    intro x y q hx hy
    rcases hcases x q hx with ⟨rfl, rfl⟩ | ⟨hxo, -, hx⟩
    · rcases hcases y _ hy with ⟨rfl, -⟩ | ⟨hyo, -, hy⟩
      · rfl
      · exact absurd (h.owner_unique _ _ _ hy hfrom) hyo
    · rcases hcases y q hy with ⟨-, rfl⟩ | ⟨-, -, hy⟩
      · exact absurd (h.owner_unique _ _ _ hx hfrom) hxo
      · exact h.owner_unique _ _ _ hx hy
  case created =>
    intro x q hx
    rw [hnext, hdropped]
    rcases hcases x q hx with ⟨-, rfl⟩ | ⟨-, -, hx⟩
    · exact h.created _ _ hfrom
    · exact h.created _ _ hx
  case dropped_once => rw [hdropped]; exact h.dropped_once
  case dropped_lt => rw [hdropped, hnext]; exact h.dropped_lt
  case kept =>
    intro q hq
    rw [hnext] at hq
    rw [hdropped]
    refine (h.kept q hq).imp_right ?_
    rintro ⟨x, hx⟩
    by_cases hxo : x = o
    · rw [hxo, hfrom] at hx
      exact ⟨o', hto'.trans hx⟩
    · have hxo' : x ≠ o' := by
        rintro rfl
        rw [hto] at hx
        cases hx
      exact ⟨x, by rw [hother x hxo hxo', hx]⟩

theorem Sound.drop (h : l.Sound) {o : O} {r : ℕ} (hfrom : l.holds o = some r)
    (hfrom' : l'.holds o = none) (hother : ∀ x, x ≠ o → l'.holds x = l.holds x)
    (hdropped : l'.dropped = r :: l.dropped) (hnext : l'.next = l.next) : l'.Sound := by
  have hcases : ∀ x q, l'.holds x = some q → x ≠ o ∧ l.holds x = some q := by
    intro x q hx
    have hxo : x ≠ o := by
      rintro rfl
      rw [hfrom'] at hx
      cases hx
    rw [hother x hxo] at hx
    exact ⟨hxo, hx⟩
  constructor
  case owner_unique =>
    exact fun x y q hx hy => h.owner_unique _ _ _ (hcases x q hx).2 (hcases y q hy).2
  case created =>
    intro x q hx
    obtain ⟨hxo, hx⟩ := hcases x q hx
    rw [hnext, hdropped, List.mem_cons, not_or]
    refine ⟨(h.created _ _ hx).1, ?_, (h.created _ _ hx).2⟩
    rintro rfl
    exact hxo (h.owner_unique _ _ _ hx hfrom)
  case dropped_once =>
    rw [hdropped]
    exact List.nodup_cons.mpr ⟨(h.created _ _ hfrom).2, h.dropped_once⟩
  case dropped_lt =>
    rw [hdropped, hnext, List.forall_mem_cons]
    exact ⟨(h.created _ _ hfrom).1, h.dropped_lt⟩
  case kept =>
    intro q hq
    rw [hnext] at hq
    rw [hdropped]
    rcases h.kept q hq with hmem | ⟨x, hx⟩
    · exact .inl (List.mem_cons_of_mem _ hmem)
    · by_cases hxo : x = o
      · rw [hxo, hfrom, Option.some.injEq] at hx
        exact .inl (hx ▸ List.mem_cons_self)
      · exact .inr ⟨x, by rw [hother x hxo, hx]⟩

/-- **Every operation** keeps the ledger sound. -/
theorem Sound.op (h : l.Sound) (hop : Op l l') : l'.Sound := by
  cases hop with
  | idle hholds hdropped hnext => exact h.idle hholds hdropped hnext
  | create o hnone hnew hother hdropped hnext => exact h.create hnew hother hdropped hnone hnext
  | move o o' r hfrom hto hfrom' hto' hother hdropped hnext =>
    exact h.move hfrom hto hfrom' hto' hother hdropped hnext
  | drop o r hfrom hfrom' hother hdropped hnext => exact h.drop hfrom hfrom' hother hdropped hnext

theorem Sound.ops (h : l.Sound) (hops : Relation.ReflTransGen Op l l') : l'.Sound := by
  induction hops with
  | refl => exact h
  | tail _ hop ih => exact ih.op hop

/-- Where a resource is: with an owner, or nowhere any more. -/
def At (l : Ledger O) (r : ℕ) : Option O → Prop
  | some o => l.holds o = some r
  | none => r ∈ l.dropped

/-- **A resource that has been created is in one place.** -/
theorem Sound.existsUnique (h : l.Sound) {r : ℕ} (hr : r < l.next) : ∃! place, l.At r place := by
  have hunique : ∀ o, l.holds o = some r → ∀ place, l.At r place → place = some o := by
    intro o ho place hplace
    cases place with
    | none => exact absurd hplace (h.created o r ho).2
    | some o' => rw [h.owner_unique o' o r hplace ho]
  rcases h.kept r hr with hmem | ⟨o, ho⟩
  · refine ⟨none, hmem, fun place hplace => ?_⟩
    cases place with
    | none => rfl
    | some o => exact absurd hmem (h.created o r hplace).2
  · exact ⟨some o, ho, hunique o ho⟩

/-- A resource that has not been created is nowhere. -/
theorem Sound.not_at (h : l.Sound) {r : ℕ} (hr : l.next ≤ r) (place : Option O) :
    ¬ l.At r place := by
  intro hplace
  cases place with
  | none => exact absurd (h.dropped_lt r hplace) (Nat.not_lt.mpr hr)
  | some o => exact absurd (h.created o r hplace).1 (Nat.not_lt.mpr hr)

end Ledger

end TaskjugglerLsp.Lib
