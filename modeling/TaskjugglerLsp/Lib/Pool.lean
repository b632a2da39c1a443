import TaskjugglerLsp.Lib.RefCount
import Mathlib.Data.List.Range

/-!
# Pools of shared objects

A heap of counted objects with a log of those that have been freed.  A new object
gets a name that no object has had before.

* `Pool.Sound.refcount_eq`: a count is the number of the references;
* `Pool.Sound.count_freed`: what is gone has been freed once, the rest never;
* `Pool.Sound.freed_release`: it is the last reference that frees an object;
* `Pool.count_listed_release`: the references that the objects of a pool hold
  themselves, when one of them is released.
-/

namespace TaskjugglerLsp.Lib

open RefCount

/-- The objects there are, the name of the next one, and the names of those that were freed. -/
structure Pool (α : Type*) where
  heap : Heap ℕ α
  next : ℕ
  freed : List ℕ

namespace Pool

variable {α : Type*} (p : Pool α)

def empty : Pool α := ⟨fun _ => none, 0, []⟩

/-- The count of an object; an object that is not there has no references. -/
def refcount (a : ℕ) : ℕ := ((p.heap a).map (·.1)).getD 0

def contents (a : ℕ) : Option α := p.heap.contents a

/-- A new object, with one reference to it. -/
def create (v : α) : Pool α := ⟨p.heap.create p.next v, p.next + 1, p.freed⟩

def acquire (a : ℕ) : Pool α := ⟨p.heap.acquire a, p.next, p.freed⟩

/-- One reference less, and the object is freed if that was the last one. -/
def release (a : ℕ) : Pool α :=
  ⟨p.heap.release a, p.next, if p.refcount a = 1 then a :: p.freed else p.freed⟩

/-- The counts are those of a list of references, the names to come are free, and
what is gone has been freed once. -/
structure Sound (held : List ℕ) : Prop where
  counts : p.heap.Counts held
  fresh : ∀ a, p.next ≤ a → p.heap a = none
  freed : ∀ a, p.freed.count a = if a < p.next ∧ p.heap a = none then 1 else 0

variable {p} {held held' : List ℕ} {a b : ℕ} {v : α}

theorem sound_empty : Sound (empty : Pool α) [] :=
  ⟨Heap.counts_nil, fun _ _ => rfl, fun a => by simp [empty]⟩

theorem Sound.perm (h : p.Sound held) (hp : held.Perm held') : p.Sound held' :=
  ⟨h.counts.perm hp, h.fresh, h.freed⟩

theorem Sound.of_count (h : p.Sound held) (hc : ∀ b, held'.count b = held.count b) :
    p.Sound held' :=
  h.perm (List.perm_iff_count.mpr fun b => (hc b).symm)

/-! ### What a sound pool says -/

theorem Sound.refcount_eq (h : p.Sound held) (a : ℕ) : p.refcount a = held.count a := by
  rw [refcount, h.counts a]
  split_ifs with h0
  · exact h0.symm
  · rfl

theorem Sound.isSome_heap (h : p.Sound held) (ha : a ∈ held) : (p.heap a).isSome = true := by
  have h1 := h.counts.contents_isSome ha
  rwa [Heap.contents, Option.isSome_map] at h1

/-- What is referred to is there. -/
theorem Sound.isSome_contents (h : p.Sound held) (ha : a ∈ held) :
    (p.contents a).isSome = true :=
  h.counts.contents_isSome ha

theorem Sound.lt_next (h : p.Sound held) (ha : a ∈ held) : a < p.next := by
  by_contra hn
  have h1 := h.isSome_heap ha
  rw [h.fresh a (Nat.not_lt.mp hn)] at h1
  cases h1

theorem Sound.heap_eq_none (h : p.Sound held) : p.heap a = none ↔ held.count a = 0 := by
  have h1 := h.counts a
  constructor
  · intro hn
    exact List.count_eq_zero.mpr (h.counts.notMem hn)
  · intro h0
    rw [if_pos h0, Option.map_eq_none_iff] at h1
    exact h1

/-- **Freed once**: what is gone has been freed once, and what is there has not been. -/
theorem Sound.count_freed (h : p.Sound held) (a : ℕ) :
    p.freed.count a = if a < p.next ∧ held.count a = 0 then 1 else 0 := by
  rw [h.freed a]
  simp only [h.heap_eq_none]

theorem Sound.notMem_of_freed (h : p.Sound held) (ha : a ∈ p.freed) : a ∉ held := by
  have h1 := List.count_pos_iff.mpr ha
  rw [h.count_freed] at h1
  split_ifs at h1 with h2
  · exact List.count_eq_zero.mp h2.2
  · cases h1

/-! ### What each operation keeps -/

theorem heap_create_of_ne (hb : b ≠ p.next) : (p.create v).heap b = p.heap b :=
  Function.update_of_ne hb ..

theorem heap_acquire_of_ne (hb : b ≠ a) : (p.acquire a).heap b = p.heap b :=
  Function.update_of_ne hb ..

theorem heap_release_of_ne (hb : b ≠ a) : (p.release a).heap b = p.heap b :=
  Function.update_of_ne hb ..

theorem heap_acquire_eq_none : (p.acquire a).heap b = none ↔ p.heap b = none := by
  by_cases hb : b = a
  · subst hb
    rw [acquire, Heap.acquire]
    simp only [Function.update_self, Option.map_eq_none_iff]
  · rw [heap_acquire_of_ne hb]

theorem Sound.create (h : p.Sound held) (v : α) : (p.create v).Sound (p.next :: held) where
  counts := h.counts.create (h.fresh _ le_rfl)
  fresh a ha := by
    rw [heap_create_of_ne (Nat.lt_of_succ_le ha).ne']
    exact h.fresh a (Nat.le_of_succ_le ha)
  freed a := by
    refine (h.freed a).trans ?_
    by_cases ha : a = p.next
    · subst ha
      simp [Pool.create, Heap.create]
    · have hlt : a < (p.create v).next ↔ a < p.next := by
        rw [Pool.create, Nat.lt_succ_iff]
        omega
      simp only [heap_create_of_ne ha, hlt]

theorem Sound.acquire (h : p.Sound held) (ha : a ∈ held) : (p.acquire a).Sound (a :: held) where
  counts := h.counts.acquire ha
  fresh b hb := heap_acquire_eq_none.mpr (h.fresh b hb)
  freed b := by
    simp only [heap_acquire_eq_none]
    exact h.freed b

theorem heap_release_self (h : p.Sound (a :: held)) :
    (p.release a).heap a = none ↔ p.refcount a = 1 := by
  have h1 := h.counts.release.notMem (a := a)
  have h2 := h.counts.release a
  rw [h.refcount_eq, List.count_cons_self, Pool.release]
  constructor
  · intro hn
    rw [List.count_eq_zero.mpr (h1 hn)]
  · intro h0
    rw [if_pos (by omega), Option.map_eq_none_iff] at h2
    exact h2

theorem Sound.release (h : p.Sound (a :: held)) : (p.release a).Sound held where
  counts := h.counts.release
  fresh b hb := by
    have hne : b ≠ a := fun hba =>
      absurd (h.lt_next List.mem_cons_self) (Nat.not_lt.mpr (hba ▸ hb))
    rw [heap_release_of_ne hne]
    exact h.fresh b hb
  freed b := by
    by_cases hb : b = a
    · subst hb
      have hlt := h.lt_next List.mem_cons_self
      have h0 : p.freed.count b = 0 := by
        rw [h.count_freed, List.count_cons_self, if_neg (by omega)]
      simp only [heap_release_self h]
      rw [Pool.release]
      by_cases h1 : p.refcount b = 1
      · simp [h1, hlt, h0]
      · simp [h1, h0]
    · have hcount : (p.release a).freed.count b = p.freed.count b := by
        rw [Pool.release]
        split_ifs
        · exact List.count_cons_of_ne (Ne.symm hb)
        · rfl
      simp only [hcount, heap_release_of_ne hb]
      exact h.freed b

/-- **The last reference** frees an object, and no other does. -/
theorem Sound.freed_release (h : p.Sound (a :: held)) (b : ℕ) :
    (p.release a).freed.count b =
      p.freed.count b + if b = a ∧ (a :: held).count a = 1 then 1 else 0 := by
  rw [Pool.release, h.refcount_eq]
  by_cases h1 : (a :: held).count a = 1
  · simp only [h1, and_true, if_true, List.count_cons, beq_iff_eq, eq_comm (a := b)]
  · simp only [h1, and_false, if_false, Nat.add_zero]

/-! ### Optional references -/

/-- Acquire a reference, if there is one. -/
def acquireRef (p : Pool α) (o : Option ℕ) : Pool α := o.elim p p.acquire

theorem contents_acquire : (p.acquire a).contents b = p.contents b := Heap.contents_acquire

/-! ### One operation at a time -/

/-- What one operation does to a pool and to the references to it: nothing to the pool,
when references only change hands, or it creates, acquires or releases. -/
inductive Op : Pool α → List ℕ → Pool α → List ℕ → Prop
  | keep {p : Pool α} {held held' : List ℕ} : (∀ b, held'.count b = held.count b) →
      Op p held p held'
  | create {p : Pool α} {held held' : List ℕ} (v : α) :
      (∀ b, held'.count b = (p.next :: held).count b) → Op p held (p.create v) held'
  | acquire {p : Pool α} {held held' : List ℕ} {a : ℕ} : a ∈ held →
      (∀ b, held'.count b = (a :: held).count b) → Op p held (p.acquire a) held'
  | release {p : Pool α} {held held' : List ℕ} {a : ℕ} :
      (∀ b, (a :: held').count b = held.count b) → Op p held (p.release a) held'

theorem Op.acquireRef {o : Option ℕ} (ho : ∀ a ∈ o, a ∈ held)
    (hc : ∀ b, held'.count b = (o.toList ++ held).count b) :
    Op p held (p.acquireRef o) held' := by
  cases o with
  | none => exact .keep hc
  | some a => exact .acquire (ho a rfl) hc

theorem Op.sound {p' : Pool α} (ho : Op p held p' held') (h : p.Sound held) : p'.Sound held' := by
  cases ho with
  | keep hc => exact h.of_count hc
  | create v hc => exact (h.create v).of_count hc
  | acquire ha hc => exact (h.acquire ha).of_count hc
  | release hc => exact (h.of_count hc).release

/-- **An object is freed** by the operation that takes the last reference to it away. -/
theorem Op.freed {p' : Pool α} (ho : Op p held p' held') (h : p.Sound held) (b : ℕ) :
    p'.freed.count b =
      p.freed.count b + if held.count b = 1 ∧ held'.count b = 0 then 1 else 0 := by
  cases ho with
  | keep hc => rw [hc b, if_neg (by omega), Nat.add_zero]
  | create v hc =>
    have := hc b
    rw [List.count_cons] at this
    rw [if_neg (by omega), Nat.add_zero, Pool.create]
  | acquire ha hc =>
    have := hc b
    rw [List.count_cons] at this
    rw [if_neg (by omega), Nat.add_zero, Pool.acquire]
  | @release _ a hc =>
    rw [(h.of_count hc).freed_release b, ← hc b]
    congr 1
    by_cases hb : b = a
    · subst hb
      rw [List.count_cons_self]
      exact if_congr (by simp) rfl rfl
    · rw [List.count_cons_of_ne (Ne.symm hb), if_neg fun hc => hb hc.1, if_neg (by omega)]

end Pool

/-! ### References gathered from parts -/

section Gather

variable {ι β : Type*} [DecidableEq ι] {l : List ι} {i : ι} {f : ι → β} {g : β → List ℕ}

theorem count_flatMap_update (hl : l.Nodup) (hi : i ∈ l) (y : β) (b : ℕ) :
    (l.flatMap fun j => g (Function.update f i y j)).count b + (g (f i)).count b =
      (l.flatMap fun j => g (f j)).count b + (g y).count b := by
  induction l with
  | nil => cases hi
  | cons j l ih =>
    obtain ⟨hj, hl⟩ := List.nodup_cons.mp hl
    rw [List.flatMap_cons, List.flatMap_cons, List.count_append, List.count_append]
    rcases List.mem_cons.mp hi with rfl | hi
    · have hrest : (l.flatMap fun j => g (Function.update f i y j)) = l.flatMap fun j => g (f j) :=
        List.flatMap_congr fun k hk => by
          have hki : k ≠ i := fun hki => hj (hki ▸ hk)
          rw [Function.update_of_ne hki]
      rw [Function.update_self, hrest]
      omega
    · have hji : j ≠ i := fun hji => hj (hji ▸ hi)
      rw [Function.update_of_ne hji]
      have := ih hl hi
      omega

theorem count_flatMap_set {l : List β} {k : ℕ} {x : β} (hk : l[k]? = some x) (y : β) (b : ℕ) :
    ((l.set k y).flatMap g).count b + (g x).count b = (l.flatMap g).count b + (g y).count b := by
  induction l generalizing k with
  | nil => cases hk
  | cons z l ih =>
    cases k with
    | zero =>
      cases hk
      simp only [List.set_cons_zero, List.flatMap_cons, List.count_append]
      omega
    | succ k =>
      have := ih (k := k) hk
      simp only [List.set_cons_succ, List.flatMap_cons, List.count_append]
      omega

end Gather

namespace Pool

/-! ### Objects that hold references themselves -/

/-- What an object lists. -/
def listing (p : Pool (List ℕ)) (a : ℕ) : List ℕ := (p.contents a).getD []

/-- The references that the objects of a pool hold. -/
def listed (p : Pool (List ℕ)) : List ℕ := (List.range p.next).flatMap p.listing

variable {p : Pool (List ℕ)} {held : List ℕ} {a : ℕ}

theorem listed_acquire : (p.acquire a).listed = p.listed := by
  refine List.flatMap_congr fun b _ => ?_
  rw [listing, listing, contents_acquire]

theorem listed_acquireRef {o : Option ℕ} : (p.acquireRef o).listed = p.listed := by
  cases o with
  | none => rfl
  | some a => exact listed_acquire

theorem listed_create (l : List ℕ) : (p.create l).listed = p.listed ++ l := by
  rw [listed, create, List.range_succ, List.flatMap_append, List.flatMap_singleton]
  congr 1
  · refine List.flatMap_congr fun b hb => ?_
    rw [listing, contents, Heap.contents_create_of_ne (List.mem_range.mp hb).ne]
    rfl
  · rw [listing, contents, Heap.contents_create_self]
    rfl

/-- What the release of a reference leaves to be released: all that the object lists,
if it is freed. -/
def dropped (p : Pool (List ℕ)) (a : ℕ) : List ℕ := if p.refcount a = 1 then p.listing a else []

theorem count_listed_release (h : p.Sound (a :: held)) (b : ℕ) :
    p.listed.count b = (p.release a).listed.count b + (p.dropped a).count b := by
  have hlt := List.mem_range.mpr (h.lt_next List.mem_cons_self)
  have hmove := count_flatMap_update (f := p.heap) (g := fun c => (c.map (·.2)).getD [])
    List.nodup_range hlt ((p.release a).heap a) b
  have hupd : Function.update p.heap a ((p.release a).heap a) = (p.release a).heap := by
    funext c
    by_cases hc : c = a
    · rw [hc, Function.update_self]
    · rw [Function.update_of_ne hc, heap_release_of_ne hc]
  rw [hupd] at hmove
  have hself : (p.listing a).count b = (((p.release a).listing a)).count b + (p.dropped a).count b := by
    rw [dropped]
    split_ifs with h1
    · rw [listing, listing, contents, contents, Heap.contents, Heap.contents,
        (heap_release_self h).mpr h1]
      simp
    · have hmem : a ∈ held := by
        rw [h.refcount_eq, List.count_cons_self] at h1
        exact List.count_pos_iff.mp (by omega)
      rw [listing, listing, contents, contents, release, h.counts.contents_release hmem]
      simp
  have hlisted : p.listed.count b + ((p.release a).listing a).count b =
      (p.release a).listed.count b + (p.listing a).count b := hmove.symm
  omega

end Pool

end TaskjugglerLsp.Lib
