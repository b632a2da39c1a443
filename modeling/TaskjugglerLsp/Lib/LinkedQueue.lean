import Mathlib.Data.List.Nodup
import Mathlib.Data.Option.Basic
import Mathlib.Logic.Function.Basic

/-!
# Queues of linked nodes

A queue is the address of its first node and that of its last one, and every node has the address of
the next one.  Several queues share one memory.

* `Holds`: the addresses that a queue has.
* `Holds.push`, `Holds.pop_some`: the ends of a queue.
* `Holds.visit`: a walk over a queue that changes the values of its nodes.
* `Holds.frame`: a queue whose nodes stay.
-/

namespace TaskjugglerLsp.Lib

/-- A value, and the address of the next node. -/
structure LinkedNode (α : Type*) where
  value : α
  next : Option ℕ

/-- The nodes that there are. -/
abbrev Memory (α : Type*) := ℕ → Option (LinkedNode α)

/-- The ends of a queue. -/
structure LinkedQueue where
  head : Option ℕ
  tail : Option ℕ
  deriving DecidableEq

namespace LinkedQueue

variable {α : Type*}

def empty : LinkedQueue := ⟨none, none⟩

/-- A node gets another successor. -/
def link (m : Memory α) (a : ℕ) (next : Option ℕ) : Memory α :=
  Function.update m a ((m a).map fun n => { n with next := next })

/-- A node goes to the end. -/
def push (m : Memory α) (q : LinkedQueue) (a : ℕ) : Memory α × LinkedQueue :=
  let m := link m a none
  match q.tail with
  | some last => (link m last (some a), { q with tail := some a })
  | none => (m, ⟨some a, some a⟩)

/-- The first node is taken. -/
def pop (m : Memory α) (q : LinkedQueue) : Option ℕ × LinkedQueue :=
  match q.head with
  | some a =>
    let next := (m a).bind (·.next)
    (some a, ⟨next, if next = none then none else q.tail⟩)
  | none => (none, q)

/-- A walk from a node on, over at most so many of them. -/
def visit (f : α → α) : ℕ → Memory α → Option ℕ → Memory α
  | n + 1, m, some a =>
    visit f n (Function.update m a ((m a).map fun n => { n with value := f n.value }))
      ((m a).bind (·.next))
  | _, m, _ => m

/-! ### What a queue holds -/

/-- The nodes from one on. -/
def Chain (m : Memory α) : Option ℕ → List ℕ → Prop
  | first, [] => first = none
  | first, a :: as => first = some a ∧ ∃ n, m a = some n ∧ Chain m n.next as

/-- **A queue holds** the nodes at these addresses. -/
structure Holds (m : Memory α) (q : LinkedQueue) (as : List ℕ) : Prop where
  chain : Chain m q.head as
  tail : q.tail = as.getLast?
  nodup : as.Nodup

variable {m m' : Memory α} {q : LinkedQueue} {as : List ℕ} {a b : ℕ} {first : Option ℕ}

theorem holds_empty (m : Memory α) : Holds m empty [] := ⟨rfl, rfl, .nil⟩

theorem Chain.frame (h : Chain m first as)
    (hsame : ∀ a ∈ as, ∀ n, m a = some n → ∃ n', m' a = some n' ∧ n'.next = n.next) :
    Chain m' first as := by
  induction as generalizing first with
  | nil => exact h
  | cons a as ih =>
    obtain ⟨rfl, n, hn, hrest⟩ := h
    obtain ⟨ha, has⟩ := List.forall_mem_cons.mp hsame
    obtain ⟨n', hn', hnext⟩ := ha n hn
    refine ⟨rfl, n', hn', ?_⟩
    rw [hnext]
    exact ih hrest has

/-- **A queue stays** where its nodes keep their successors. -/
theorem Holds.frame (h : Holds m q as)
    (hsame : ∀ a ∈ as, ∀ n, m a = some n → ∃ n', m' a = some n' ∧ n'.next = n.next) :
    Holds m' q as :=
  ⟨h.chain.frame hsame, h.tail, h.nodup⟩

theorem Chain.head (h : Chain m first as) : first = as.head? := by
  cases as with
  | nil => exact h
  | cons a as => exact h.1

theorem link_of_ne (h : b ≠ a) (next : Option ℕ) : link m a next b = m b := by
  rw [link, Function.update_of_ne h]

theorem link_self (next : Option ℕ) :
    link m a next a = (m a).map fun n => { n with next := next } := by
  rw [link, Function.update_self]

theorem isSome_link (next : Option ℕ) : (link m a next b).isSome = (m b).isSome := by
  by_cases h : b = a
  · rw [h, link_self, Option.isSome_map]
  · rw [link_of_ne h]

theorem value_link (next : Option ℕ) :
    (link m a next b).map LinkedNode.value = (m b).map LinkedNode.value := by
  by_cases h : b = a
  · rw [h, link_self, Option.map_map]
    rfl
  · rw [link_of_ne h]

theorem Chain.concat {n : LinkedNode α} (h : Chain m first (as ++ [b])) (ha : m a = some n)
    (hnext : n.next = none) (hnodup : (as ++ [b]).Nodup) (hnot : a ∉ as ++ [b]) :
    Chain (link m b (some a)) first (as ++ [b] ++ [a]) := by
  induction as generalizing first with
  | nil =>
    obtain ⟨rfl, n', hn', -⟩ := h
    have hab : a ≠ b := fun hab => hnot (by rw [hab]; simp)
    refine ⟨rfl, { n' with next := some a }, ?_, rfl, n, ?_, hnext⟩
    · rw [link_self, hn']
      rfl
    · rw [link_of_ne hab, ha]
  | cons c as ih =>
    obtain ⟨rfl, n', hn', hrest⟩ := h
    obtain ⟨hc, hnodup⟩ := List.nodup_cons.mp hnodup
    have hcb : c ≠ b := fun hcb => hc (by rw [hcb]; simp)
    refine ⟨rfl, n', ?_, ih hrest hnodup fun hmem => hnot (List.mem_cons_of_mem c hmem)⟩
    rw [link_of_ne hcb, hn']

/-! ### The operations -/

/-- **A node goes to the end** of a queue. -/
theorem Holds.push (h : Holds m q as) (ha : (m a).isSome = true) (hnot : a ∉ as) :
    Holds (push m q a).1 (push m q a).2 (as ++ [a]) := by
  obtain ⟨n, hn⟩ := Option.isSome_iff_exists.mp ha
  have hlink : link m a none a = some { n with next := none } := by
    rw [link_self, hn]
    rfl
  have hnodup : (as ++ [a]).Nodup := by
    refine List.nodup_append.mpr ⟨h.nodup, List.nodup_singleton a, fun c hc d hd => ?_⟩
    rw [List.mem_singleton.mp hd]
    exact fun hca => hnot (hca ▸ hc)
  obtain ⟨hchain, htail, hold⟩ := h
  rcases List.eq_nil_or_concat' as with rfl | ⟨front, b, rfl⟩
  · have hpush : LinkedQueue.push m q a = (link m a none, ⟨some a, some a⟩) := by
      rw [LinkedQueue.push, htail]
      rfl
    rw [hpush]
    exact ⟨⟨rfl, _, hlink, rfl⟩, rfl, hnodup⟩
  · rw [List.getLast?_concat] at htail
    have hpush : LinkedQueue.push m q a
        = (link (link m a none) b (some a), { q with tail := some a }) := by
      rw [LinkedQueue.push, htail]
    rw [hpush]
    refine ⟨?_, List.getLast?_concat.symm, hnodup⟩
    refine (hchain.frame fun c hc n' hn' => ⟨n', ?_, rfl⟩).concat hlink rfl hold hnot
    rw [link_of_ne (fun hca : c = a => hnot (hca ▸ hc)), hn']

/-- What is pushed and what is not in the queue stay, and so do all values. -/
theorem push_of_ne (hne : b ≠ a) (hb : q.tail ≠ some b) : (push m q a).1 b = m b := by
  unfold push
  cases htail : q.tail with
  | none => exact link_of_ne hne none
  | some last =>
    have hlast : b ≠ last := fun hbl => hb (by rw [htail, hbl])
    show link (link m a none) last (some a) b = m b
    rw [link_of_ne hlast, link_of_ne hne]

/-- A queue stays where a node goes to the end of another one. -/
theorem Holds.push_other {other : LinkedQueue} {bs : List ℕ} (h : Holds m other bs)
    (hq : Holds m q as) (ha : a ∉ bs) (hdisjoint : ∀ b ∈ as, b ∉ bs) :
    Holds (LinkedQueue.push m q a).1 other bs := by
  refine h.frame fun b hb n hn => ⟨n, ?_, rfl⟩
  rw [push_of_ne (fun hba : b = a => ha (hba ▸ hb)), hn]
  intro htail
  rw [hq.tail] at htail
  exact hdisjoint b (List.mem_of_getLast? htail) hb

theorem isSome_push : ((push m q a).1 b).isSome = (m b).isSome := by
  unfold push
  cases q.tail with
  | none => exact isSome_link none
  | some last => exact (isSome_link (some a)).trans (isSome_link none)

theorem value_push : ((push m q a).1 b).map LinkedNode.value = (m b).map LinkedNode.value := by
  unfold push
  cases q.tail with
  | none => exact value_link none
  | some last => exact (value_link (some a)).trans (value_link none)

/-- **The first node is taken** from a queue. -/
theorem Holds.pop_some (h : Holds m q (a :: as)) :
    (pop m q).1 = some a ∧ Holds m (pop m q).2 as := by
  obtain ⟨⟨hhead, n, hn, hrest⟩, htail, hnodup⟩ := h
  have hpop : pop m q = (some a, ⟨n.next, if n.next = none then none else q.tail⟩) := by
    rw [pop, hhead]
    show (some a, _) = _
    rw [hn]
    rfl
  rw [hpop]
  refine ⟨rfl, hrest, ?_, (List.nodup_cons.mp hnodup).2⟩
  show (if n.next = none then none else q.tail) = _
  cases as with
  | nil =>
    rw [show n.next = none from hrest, if_pos rfl]
    rfl
  | cons b as =>
    rw [hrest.head, List.head?_cons, if_neg (Option.some_ne_none b), htail]
    exact List.getLast?_cons_cons

theorem Holds.pop_none (h : Holds m q []) : pop m q = (none, q) := by
  rw [pop, show q.head = none from h.chain]

/-- **A walk over a queue** changes the values of its nodes. -/
theorem visit_eq {f : α → α} {n : ℕ} (h : Chain m first as) (hnodup : as.Nodup)
    (hlen : as.length ≤ n) (b : ℕ) : visit f n m first b
      = if b ∈ as then (m b).map fun n => { n with value := f n.value } else m b := by
  induction as generalizing m first n with
  | nil =>
    rw [show first = none from h, if_neg List.not_mem_nil]
    cases n <;> rfl
  | cons a as ih =>
    obtain ⟨rfl, node, hnode, hrest⟩ := h
    obtain ⟨k, rfl⟩ : ∃ k, n = k + 1 := ⟨n - 1, by rw [List.length_cons] at hlen; omega⟩
    obtain ⟨ha, hnodup⟩ := List.nodup_cons.mp hnodup
    have hsame {c : ℕ} (hc : c ≠ a) : Function.update m a
        ((m a).map fun n => { n with value := f n.value }) c = m c := Function.update_of_ne hc _ _
    have hchain : Chain (Function.update m a ((m a).map fun n => { n with value := f n.value }))
        node.next as := by
      refine hrest.frame fun c hc n hn => ⟨n, ?_, rfl⟩
      rw [hsame fun hca => ha (hca ▸ hc), hn]
    rw [visit, hnode, Option.bind_some, ← hnode, ih hchain hnodup (Nat.le_of_succ_le_succ hlen)]
    by_cases hba : b = a
    · subst hba
      rw [if_neg ha, if_pos List.mem_cons_self, Function.update_self]
    · rw [hsame hba]
      simp only [List.mem_cons, hba, false_or]

theorem isSome_visit {f : α → α} {n : ℕ} (h : Chain m first as) (hnodup : as.Nodup)
    (hlen : as.length ≤ n) (b : ℕ) : (visit f n m first b).isSome = (m b).isSome := by
  rw [visit_eq h hnodup hlen]
  split_ifs
  · exact Option.isSome_map
  · rfl

theorem Holds.visit (h : Holds m q as) {f : α → α} {n : ℕ} {others : List ℕ}
    (hothers : Chain m first others) (hnodup : others.Nodup) (hlen : others.length ≤ n) :
    Holds (LinkedQueue.visit f n m first) q as := by
  refine h.frame fun a _ node hnode => ?_
  rw [visit_eq hothers hnodup hlen, hnode]
  split_ifs
  · exact ⟨_, rfl, rfl⟩
  · exact ⟨node, rfl, rfl⟩

end LinkedQueue

end TaskjugglerLsp.Lib
