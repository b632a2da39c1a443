import Mathlib.Data.List.Basic
import Mathlib.Data.Option.Basic

/-!
# A mailbox with one slot

A producer puts items into a slot, over the item that is there; a consumer takes
the item and works on it, and sleeps on a condition variable where there is none.
A lock protects the slot and the order to stop; the consumer holds it while it
tests them, and gives it back as it falls asleep.

* `Accounted`: every item submitted meets exactly one fate, the fates are in the
  order of submission, and nobody sleeps over an item;
* `Accounted.last_taken`: what a sleeping consumer has taken last is the last item
  submitted.
-/

namespace TaskjugglerLsp.Lib.Mailbox

variable {α : Type*}

/-- Where the consumer is. -/
inductive Phase (α : Type*) where
  | ready
  | testing
  | waiting
  | working (a : α)
  | closed

/-- What has become of the items, which are numbered as they are submitted. -/
structure Fates (α : Type*) where
  submitted : List α
  taken : List ℕ
  replaced : List (ℕ × ℕ)
  released : List ℕ

/-- No item has been submitted. -/
def Fates.none : Fates α := ⟨[], [], [], []⟩

structure Box (α : Type*) where
  slot : Option α
  stop : Bool
  phase : Phase α
  fates : Fates α

/-- The signal of the condition variable. -/
def Phase.wake : Phase α → Phase α
  | waiting => ready
  | p => p

namespace Fates

variable (f : Fates α)

/-- The number of the item in the slot: only the last one submitted is ever there. -/
def lastNumber : ℕ := f.submitted.length - 1

/-- An item goes into the slot, over the one that is there. -/
def submit (slot : Option α) (a : α) : Fates α :=
  { f with
    submitted := f.submitted ++ [a]
    replaced := if slot.isSome then f.replaced ++ [(f.lastNumber, f.submitted.length)] else f.replaced }

/-- The item in the slot is taken. -/
def take : Fates α := { f with taken := f.taken ++ [f.lastNumber] }

/-- The item in the slot, if there is one, is given up. -/
def release (slot : Option α) : Fates α :=
  if slot.isSome then { f with released := f.released ++ [f.lastNumber] } else f

end Fates

/-- The box before the consumer starts. -/
def Box.new : Box α := ⟨none, false, .ready, .none⟩

/-- One step of the producer or of the consumer.  A step under the lock is a step of its own
unless the consumer holds the lock. -/
inductive Step : Box α → Box α → Prop
  | submit {b : Box α} (a : α) : b.phase ≠ .testing → b.stop = false →
      Step b ⟨some a, false, b.phase.wake, b.fates.submit b.slot a⟩
  | stop {b : Box α} : b.phase ≠ .testing → b.stop = false →
      Step b { b with stop := true, phase := b.phase.wake }
  | wake {b : Box α} : b.phase = .waiting → Step b { b with phase := .ready }
  | lock {b : Box α} : b.phase = .ready → Step b { b with phase := .testing }
  | sleep {b : Box α} : b.phase = .testing → b.stop = false → b.slot = none →
      Step b { b with phase := .waiting }
  | take {b : Box α} {a : α} : b.phase = .testing → b.stop = false → b.slot = some a →
      Step b { b with slot := none, phase := .working a, fates := b.fates.take }
  | finish {b : Box α} {a : α} : b.phase = .working a → Step b { b with phase := .ready }
  | close {b : Box α} : b.phase = .testing → b.stop = true →
      Step b { b with slot := none, phase := .closed, fates := b.fates.release b.slot }

/-! ### The account -/

/-- How often the item with a number has been taken, replaced, released or left in the slot. -/
def Box.fatesOf (b : Box α) (n : ℕ) : ℕ :=
  b.fates.taken.count n + (b.fates.replaced.map Prod.fst).count n + b.fates.released.count n
    + if b.slot.isSome ∧ n = b.fates.lastNumber then 1 else 0

/-- What holds of the box throughout. -/
structure Accounted (b : Box α) : Prop where
  once : ∀ n, b.fatesOf n = if n < b.fates.submitted.length then 1 else 0
  ordered : b.fates.taken.Pairwise (· < ·)
  later : ∀ p ∈ b.fates.replaced, p.1 < p.2 ∧ p.2 < b.fates.submitted.length
  last : ∀ a, b.slot = some a → b.fates.submitted.getLast? = some a
  kept : b.phase ≠ .closed → b.fates.released = []
  asleep : b.phase = .waiting → b.slot = none ∧ b.stop = false
  working : ∀ a, b.phase = .working a →
    ∃ n, b.fates.taken.getLast? = some n ∧ b.fates.submitted[n]? = some a
  closed : b.phase = .closed → b.slot = none ∧ b.stop = true

theorem accounted_new : Accounted (Box.new : Box α) := by
  refine ⟨fun n => ?_, List.Pairwise.nil, ?_, ?_, fun _ => rfl, ?_, ?_, ?_⟩
  · simp [Box.fatesOf, Box.new, Fates.none]
  · intro p hp
    cases hp
  · intro a ha
    cases ha
  · intro h
    cases h
  · intro a h
    cases h
  · intro h
    cases h

section Facts

variable {b b' : Box α}

theorem Accounted.submitted_pos (h : Accounted b) (hs : b.slot.isSome) :
    0 < b.fates.submitted.length := by
  obtain ⟨a, ha⟩ := Option.isSome_iff_exists.mp hs
  have hl := h.last a ha
  rw [List.getLast?_eq_some_iff] at hl
  obtain ⟨l, hl⟩ := hl
  rw [hl, List.length_append, List.length_singleton]
  omega

/-- What has been taken was submitted, and before the item in the slot. -/
theorem Accounted.taken_lt (h : Accounted b) {n : ℕ} (hn : n ∈ b.fates.taken) :
    n < b.fates.submitted.length ∧ (b.slot.isSome → n < b.fates.lastNumber) := by
  have hpos : 0 < b.fates.taken.count n := List.count_pos_iff.mpr hn
  have honce := h.once n
  rw [Box.fatesOf] at honce
  have hlt : n < b.fates.submitted.length := by
    by_contra hge
    rw [if_neg hge] at honce
    omega
  refine ⟨hlt, fun hs => ?_⟩
  rw [if_pos hlt] at honce
  have hne : n ≠ b.fates.lastNumber := by
    intro he
    rw [if_pos ⟨hs, he⟩] at honce
    omega
  rw [Fates.lastNumber] at hne ⊢
  omega

theorem fatesOf_submit (a : α) (p : Phase α) (s : Bool) (n : ℕ) :
    (Box.mk (some a) s p (b.fates.submit b.slot a)).fatesOf n
      = b.fatesOf n + if n = b.fates.submitted.length then 1 else 0 := by
  have hlen : (b.fates.submit b.slot a).lastNumber = b.fates.submitted.length := by
    simp [Fates.lastNumber, Fates.submit]
  simp only [Box.fatesOf, hlen, Option.isSome_some, true_and]
  cases hs : b.slot with
  | none => simp [Fates.submit]
  | some c =>
    simp only [Fates.submit, Option.isSome_some, if_true, true_and, List.map_append, List.map_cons,
      List.map_nil, List.count_append, List.count_singleton, beq_iff_eq]
    simp only [eq_comm (a := b.fates.lastNumber)]
    omega

theorem fatesOf_take {a : α} (ha : b.slot = some a) (p : Phase α) (n : ℕ) :
    (Box.mk none b.stop p b.fates.take).fatesOf n = b.fatesOf n := by
  simp only [Box.fatesOf, Fates.take, ha, Option.isSome_some, Option.isSome_none, true_and,
    List.count_append, List.count_singleton, beq_iff_eq]
  simp only [eq_comm (a := b.fates.lastNumber)]
  simp
  omega

theorem fatesOf_release (p : Phase α) (n : ℕ) :
    (Box.mk none b.stop p (b.fates.release b.slot)).fatesOf n = b.fatesOf n := by
  cases hs : b.slot with
  | none => simp [Box.fatesOf, Fates.release, hs]
  | some a =>
    simp only [Box.fatesOf, Fates.release, hs, Option.isSome_some, if_true, Option.isSome_none,
      true_and, List.count_append, List.count_singleton, beq_iff_eq]
    simp only [eq_comm (a := b.fates.lastNumber)]
    simp
    omega

theorem Phase.wake_eq_working {p : Phase α} {a : α} : p.wake = .working a ↔ p = .working a := by
  cases p <;> simp [Phase.wake]

theorem Phase.wake_eq_closed {p : Phase α} : p.wake = .closed ↔ p = .closed := by
  cases p <;> simp [Phase.wake]

theorem Phase.wake_ne_waiting {p : Phase α} : p.wake ≠ .waiting := by
  cases p <;> simp [Phase.wake]

theorem Accounted.submit (h : Accounted b) (a : α) (hstop : b.stop = false) :
    Accounted ⟨some a, false, b.phase.wake, b.fates.submit b.slot a⟩ := by
  have hlen : (b.fates.submit b.slot a).submitted = b.fates.submitted ++ [a] := rfl
  have hopen : b.phase ≠ .closed := by
    intro hc
    rw [(h.closed hc).2] at hstop
    cases hstop
  refine ⟨fun n => ?_, h.ordered, ?_, ?_, fun _ => h.kept hopen, ?_, ?_, ?_⟩
  · rw [fatesOf_submit, h.once, hlen, List.length_append, List.length_singleton]
    split <;> split <;> split <;> omega
  · intro p hp
    rw [hlen, List.length_append, List.length_singleton]
    have hold : p ∈ b.fates.replaced →
        p.1 < p.2 ∧ p.2 < b.fates.submitted.length + 1 := fun hp =>
      ⟨(h.later p hp).1, Nat.lt_succ_of_lt (h.later p hp).2⟩
    simp only [Fates.submit] at hp
    split at hp
    · rename_i hs
      rcases List.mem_append.mp hp with hp | hp
      · exact hold hp
      · have hpos := h.submitted_pos hs
        rw [List.mem_singleton.mp hp]
        simp only [Fates.lastNumber]
        omega
    · exact hold hp
  · intro c hc
    rw [← Option.some.inj hc, hlen, List.getLast?_append]
    rfl
  · intro hp
    exact absurd hp Phase.wake_ne_waiting
  · intro c hc
    obtain ⟨n, hn, hget⟩ := h.working c (Phase.wake_eq_working.mp hc)
    refine ⟨n, hn, ?_⟩
    rw [hlen, List.getElem?_append_left]
    · exact hget
    · exact (List.getElem?_eq_some_iff.mp hget).1
  · intro hc
    exact absurd (Phase.wake_eq_closed.mp hc) hopen

theorem Accounted.take (h : Accounted b) {a : α} (ha : b.slot = some a)
    (hopen : b.phase ≠ .closed) :
    Accounted { b with slot := none, phase := .working a, fates := b.fates.take } := by
  refine ⟨fun n => ?_, ?_, h.later, ?_, fun _ => h.kept hopen, ?_, ?_, ?_⟩
  · exact (fatesOf_take ha _ n).trans (h.once n)
  · refine List.pairwise_append.mpr ⟨h.ordered, List.pairwise_singleton _ _, ?_⟩
    intro m hm n hn
    rw [List.mem_singleton.mp hn]
    exact (h.taken_lt hm).2 (by rw [ha]; rfl)
  · intro c hc
    cases hc
  · intro hp
    cases hp
  · intro c hc
    cases hc
    refine ⟨b.fates.lastNumber, ?_, ?_⟩
    · simp [Fates.take]
    · rw [← h.last a ha, List.getLast?_eq_getElem?]
      rfl
  · intro hc
    cases hc

theorem Accounted.close (h : Accounted b) (hstop : b.stop = true) :
    Accounted { b with slot := none, phase := .closed, fates := b.fates.release b.slot } := by
  have hfates : (b.fates.release b.slot).submitted = b.fates.submitted ∧
      (b.fates.release b.slot).taken = b.fates.taken ∧
      (b.fates.release b.slot).replaced = b.fates.replaced := by
    unfold Fates.release
    split <;> exact ⟨rfl, rfl, rfl⟩
  obtain ⟨hsub, htaken, hrepl⟩ := hfates
  refine ⟨fun n => ?_, ?_, ?_, ?_, ?_, ?_, ?_, fun _ => ⟨rfl, hstop⟩⟩
  · rw [fatesOf_release, h.once, hsub]
  · rw [htaken]
    exact h.ordered
  · rw [hrepl, hsub]
    exact h.later
  · intro c hc
    cases hc
  · intro hne
    exact absurd rfl hne
  · intro hp
    cases hp
  · intro c hc
    cases hc

/-- **Every step keeps the account.** -/
theorem Step.accounted (hs : Step b b') (h : Accounted b) : Accounted b' := by
  cases hs with
  | submit a _ hstop => exact h.submit a hstop
  | stop _ hstop =>
    have hopen : b.phase ≠ .closed := by
      intro hc
      rw [(h.closed hc).2] at hstop
      cases hstop
    exact ⟨h.once, h.ordered, h.later, h.last, fun _ => h.kept hopen,
      fun hp => absurd hp Phase.wake_ne_waiting,
      fun a ha => h.working a (Phase.wake_eq_working.mp ha),
      fun hc => absurd (Phase.wake_eq_closed.mp hc) hopen⟩
  | wake hp => exact ⟨h.once, h.ordered, h.later, h.last, fun _ => h.kept (by simp [hp]),
      by simp, by simp, by simp⟩
  | lock hp => exact ⟨h.once, h.ordered, h.later, h.last, fun _ => h.kept (by simp [hp]),
      by simp, by simp, by simp⟩
  | sleep hp hstop hslot => exact ⟨h.once, h.ordered, h.later, h.last, fun _ => h.kept (by simp [hp]),
      fun _ => ⟨hslot, hstop⟩, by simp, by simp⟩
  | take hp _ ha => exact h.take ha (by simp [hp])
  | finish hp => exact ⟨h.once, h.ordered, h.later, h.last, fun _ => h.kept (by simp [hp]),
      by simp, by simp, by simp⟩
  | close _ hstop => exact h.close hstop

theorem Accounted.fate (h : Accounted b) {n : ℕ} (hn : n < b.fates.submitted.length) :
    n ∈ b.fates.taken ∨ (∃ m, n < m ∧ m < b.fates.submitted.length ∧ (n, m) ∈ b.fates.replaced) ∨
      n ∈ b.fates.released ∨ (b.slot.isSome ∧ n + 1 = b.fates.submitted.length) := by
  have honce := h.once n
  rw [if_pos hn, Box.fatesOf] at honce
  by_cases ht : n ∈ b.fates.taken
  · exact Or.inl ht
  by_cases hr : n ∈ b.fates.replaced.map Prod.fst
  · obtain ⟨p, hp, rfl⟩ := List.mem_map.mp hr
    exact Or.inr (Or.inl ⟨p.2, (h.later p hp).1, (h.later p hp).2, hp⟩)
  by_cases hl : n ∈ b.fates.released
  · exact Or.inr (Or.inr (Or.inl hl))
  · rw [List.count_eq_zero_of_not_mem ht, List.count_eq_zero_of_not_mem hr,
      List.count_eq_zero_of_not_mem hl] at honce
    split at honce
    · rename_i hs
      refine Or.inr (Or.inr (Or.inr ⟨hs.1, ?_⟩))
      rw [hs.2, Fates.lastNumber]
      omega
    · omega

/-- **What a sleeping consumer has taken last** is the last item submitted. -/
theorem Accounted.last_taken (h : Accounted b) (hw : b.phase = .waiting)
    (hpos : b.fates.submitted ≠ []) : b.fates.taken.getLast? = some b.fates.lastNumber := by
  have hlen := List.length_pos_iff.mpr hpos
  have hlast : b.fates.lastNumber < b.fates.submitted.length := by
    rw [Fates.lastNumber]
    omega
  have hmem : b.fates.lastNumber ∈ b.fates.taken := by
    rcases h.fate hlast with ht | ⟨m, hm, hm', -⟩ | hr | ⟨hs, -⟩
    · exact ht
    · rw [Fates.lastNumber] at hm
      omega
    · rw [h.kept (by simp [hw])] at hr
      cases hr
    · rw [(h.asleep hw).1] at hs
      cases hs
  obtain ⟨l, r, hlr⟩ := List.append_of_mem hmem
  cases r with
  | nil => rw [hlr, List.getLast?_append, List.getLast?_singleton, Option.some_or]
  | cons n r =>
    have hn : n ∈ b.fates.taken := by
      rw [hlr]
      simp
    have hlt := (h.taken_lt hn).1
    have hord := h.ordered
    rw [hlr, List.pairwise_append, List.pairwise_cons] at hord
    have := hord.2.1.1 n List.mem_cons_self
    rw [Fates.lastNumber] at this
    omega

end Facts

end TaskjugglerLsp.Lib.Mailbox
