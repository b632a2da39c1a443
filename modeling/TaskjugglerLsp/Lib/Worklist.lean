import Mathlib.Data.Fintype.Card
import Mathlib.Data.List.Nodup
import Mathlib.Data.List.Forall2
import Mathlib.Data.Fintype.Basic
import Mathlib.Logic.Relation

/-!
# Breadth-first search with a queue

`run next act n queue visited st` pops the head of the queue, goes through its
successors, and appends each one not seen before to both lists; `act` is applied
to it on the way.  The search is a recursion on the number of pops it may take.

* `exists_order`: on a finite type that number is enough, and the search visits
  each vertex reachable from the root once;
* `run_eq`: what `act` does along the way is a fold over that order;
* `added_rel`: two searches whose successor lists correspond visit corresponding
  vertices in the same order.
-/

namespace TaskjugglerLsp.Lib.Worklist

section Search

variable {α σ : Type*} [DecidableEq α]

/-- The candidates that have not been seen before, each once. -/
def fresh : List α → List α → List α
  | [], _ => []
  | c :: cands, visited =>
    if c ∈ visited then fresh cands visited else c :: fresh cands (visited ++ [c])

/-- Go through the successors of one vertex. -/
def discover (act : α → σ → σ) :
    List α → List α → List α → σ → List α × List α × σ
  | [], queue, visited, st => (queue, visited, st)
  | c :: cands, queue, visited, st =>
    if c ∈ visited then discover act cands queue visited st
    else discover act cands (queue ++ [c]) (visited ++ [c]) (act c st)

/-- The search, for at most `n` pops; `none` when they are not enough. -/
def run (next : α → List α) (act : α → σ → σ) : ℕ → List α → List α → σ → Option σ
  | _, [], _, st => some st
  | 0, _ :: _, _, _ => none
  | n + 1, cur :: queue, visited, st =>
    match discover act (next cur) queue visited st with
    | (queue, visited, st) => run next act n queue visited st

/-- The vertices that the search adds, in order. -/
def added (next : α → List α) : ℕ → List α → List α → Option (List α)
  | _, [], _ => some []
  | 0, _ :: _, _ => none
  | n + 1, cur :: queue, visited =>
    (fresh (next cur) visited ++ ·) <$>
      added next n (queue ++ fresh (next cur) visited) (visited ++ fresh (next cur) visited)

theorem discover_eq (act : α → σ → σ) (cands queue visited : List α) (st : σ) :
    discover act cands queue visited st = (queue ++ fresh cands visited,
      visited ++ fresh cands visited, (fresh cands visited).foldl (fun st c => act c st) st) := by
  induction cands generalizing queue visited st with
  | nil => simp [discover, fresh]
  | cons c cands ih =>
    rw [discover, fresh]
    split
    · exact ih queue visited st
    · rw [ih]
      simp

/-- What the search does is a fold over the vertices it adds. -/
theorem run_eq (next : α → List α) (act : α → σ → σ) (n : ℕ) (queue visited : List α) (st : σ) :
    run next act n queue visited st
      = (added next n queue visited).map fun order => order.foldl (fun st c => act c st) st := by
  induction n generalizing queue visited st with
  | zero => cases queue <;> rfl
  | succ n ih =>
    cases queue with
    | nil => rfl
    | cons cur queue =>
      rw [run, added, discover_eq]
      simp only [ih, Option.map_eq_map, Option.map_map, Function.comp_def, List.foldl_append]

/-! ### What is visited -/

theorem mem_fresh {c : α} {cands visited : List α} :
    c ∈ fresh cands visited ↔ c ∈ cands ∧ c ∉ visited := by
  induction cands generalizing visited with
  | nil => simp [fresh]
  | cons d cands ih =>
    rw [fresh]
    split
    · rename_i hd
      rw [ih, List.mem_cons]
      constructor
      · rintro ⟨h1, h2⟩
        exact ⟨Or.inr h1, h2⟩
      · rintro ⟨rfl | h1, h2⟩
        · exact absurd hd h2
        · exact ⟨h1, h2⟩
    · rename_i hd
      rw [List.mem_cons, ih, List.mem_cons, List.mem_append, List.mem_singleton]
      constructor
      · rintro (rfl | ⟨h1, h2⟩)
        · exact ⟨Or.inl rfl, hd⟩
        · exact ⟨Or.inr h1, fun h => h2 (Or.inl h)⟩
      · rintro ⟨rfl | h1, h2⟩
        · exact Or.inl rfl
        · by_cases hcd : c = d
          · exact Or.inl hcd
          · exact Or.inr ⟨h1, fun h => h.elim h2 hcd⟩

theorem nodup_append_fresh (cands : List α) {visited : List α} (h : visited.Nodup) :
    (visited ++ fresh cands visited).Nodup := by
  induction cands generalizing visited with
  | nil => simpa [fresh] using h
  | cons c cands ih =>
    rw [fresh]
    split
    · exact ih h
    · rename_i hc
      have hv : (visited ++ [c]).Nodup :=
        List.Nodup.append h (List.nodup_singleton c) (by simpa using hc)
      have := ih hv
      rwa [List.append_assoc, List.singleton_append] at this

/-- What holds between two pops: the vertices popped so far are `done`. -/
structure Inv (next : α → List α) (root : α) (done queue : List α) : Prop where
  nodup : (done ++ queue).Nodup
  root_mem : root ∈ done ++ queue
  closed : ∀ x ∈ done, ∀ y ∈ next x, y ∈ done ++ queue
  reachable : ∀ x ∈ done ++ queue, Relation.ReflTransGen (fun a b => b ∈ next a) root x

omit [DecidableEq α] in
theorem inv_start (next : α → List α) (root : α) : Inv next root [] [root] := by
  constructor
  · exact List.nodup_singleton root
  · simp
  · simp
  · intro x hx
    rw [List.nil_append, List.mem_singleton] at hx
    rw [hx]

theorem Inv.pop {next : α → List α} {root cur : α} {done queue : List α}
    (h : Inv next root done (cur :: queue)) :
    Inv next root (done ++ [cur]) (queue ++ fresh (next cur) (done ++ cur :: queue)) := by
  have hshift : done ++ [cur] ++ (queue ++ fresh (next cur) (done ++ cur :: queue))
      = done ++ cur :: queue ++ fresh (next cur) (done ++ cur :: queue) := by simp
  constructor
  · rw [hshift]
    exact nodup_append_fresh _ h.nodup
  · rw [hshift]
    exact List.mem_append_left _ h.root_mem
  · intro x hx y hy
    rw [hshift, List.mem_append, mem_fresh]
    rcases List.mem_append.mp hx with hx | hx
    · exact Or.inl (h.closed x hx y hy)
    · rw [List.mem_singleton] at hx
      subst hx
      by_cases hmem : y ∈ done ++ x :: queue
      · exact Or.inl hmem
      · exact Or.inr ⟨hy, hmem⟩
  · intro x hx
    rw [hshift, List.mem_append, mem_fresh] at hx
    rcases hx with hx | ⟨hx, -⟩
    · exact h.reachable x hx
    · exact (h.reachable cur (by simp)).tail hx

omit [DecidableEq α] in
/-- With nothing left to pop, everything reachable is visited. -/
theorem Inv.complete {next : α → List α} {root : α} {done : List α} (h : Inv next root done [])
    (x : α) : x ∈ done ↔ Relation.ReflTransGen (fun a b => b ∈ next a) root x := by
  constructor
  · intro hx
    exact h.reachable x (List.mem_append_left _ hx)
  · intro hx
    induction hx with
    | refl => simpa using h.root_mem
    | tail _ hy ih => simpa using h.closed _ ih _ hy

/-- A search with enough pops left adds what it has not visited yet, and no more. -/
theorem exists_added [Fintype α] {next : α → List α} {root : α} (n : ℕ) (done queue : List α)
    (h : Inv next root done queue) (hn : Fintype.card α ≤ n + done.length) :
    ∃ order, added next n queue (done ++ queue) = some order ∧
      (done ++ queue ++ order).Nodup ∧
      ∀ x, x ∈ done ++ queue ++ order ↔ Relation.ReflTransGen (fun a b => b ∈ next a) root x := by
  induction n generalizing done queue with
  | zero =>
    cases queue with
    | nil =>
      refine ⟨[], rfl, by simpa using h.nodup, fun x => ?_⟩
      rw [List.append_nil, List.append_nil]
      exact h.complete x
    | cons cur queue =>
      have hcard := h.nodup.length_le_card
      rw [List.length_append, List.length_cons] at hcard
      omega
  | succ n ih =>
    cases queue with
    | nil =>
      refine ⟨[], rfl, by simpa using h.nodup, fun x => ?_⟩
      rw [List.append_nil, List.append_nil]
      exact h.complete x
    | cons cur queue =>
      have hshift : done ++ [cur] ++ (queue ++ fresh (next cur) (done ++ cur :: queue))
          = done ++ cur :: queue ++ fresh (next cur) (done ++ cur :: queue) := by simp
      obtain ⟨order, h1, h2, h3⟩ := ih _ _ h.pop (by
        rw [List.length_append, List.length_singleton]
        omega)
      rw [hshift] at h1 h2 h3
      refine ⟨fresh (next cur) (done ++ cur :: queue) ++ order, ?_, ?_, fun x => ?_⟩
      · rw [added, h1]
        rfl
      · rwa [← List.append_assoc]
      · rw [← List.append_assoc, h3 x]

/-- **The search ends** on a finite type, and visits what the root reaches once. -/
theorem exists_order [Fintype α] (next : α → List α) (root : α) :
    ∃ order, added next (Fintype.card α) [root] [root] = some order ∧ (root :: order).Nodup ∧
      ∀ x, x ∈ root :: order ↔ Relation.ReflTransGen (fun a b => b ∈ next a) root x :=
  exists_added (Fintype.card α) [] [root] (inv_start next root) (by simp)

end Search

/-! ### Corresponding searches -/

section Relabel

variable {α β : Type*} [DecidableEq α] [DecidableEq β] {R : α → β → Prop}

/-- `R` relates each element to at most one on the other side. -/
def OneToOne (R : α → β → Prop) : Prop :=
  ∀ {a a' : α} {b b' : β}, R a b → R a' b' → (a = a' ↔ b = b')

omit [DecidableEq α] [DecidableEq β] in
theorem mem_iff_of_rel (hR : OneToOne R) {a : α} {b : β} {l : List α} {l' : List β}
    (h : R a b) (hl : List.Forall₂ R l l') : a ∈ l ↔ b ∈ l' := by
  induction hl with
  | nil => simp
  | cons hcd _ ih => rw [List.mem_cons, List.mem_cons, hR h hcd, ih]

theorem fresh_rel (hR : OneToOne R) {cands visited : List α} {cands' visited' : List β}
    (hc : List.Forall₂ R cands cands') (hv : List.Forall₂ R visited visited') :
    List.Forall₂ R (fresh cands visited) (fresh cands' visited') := by
  induction hc generalizing visited visited' with
  | nil => exact .nil
  | @cons c d _ _ hcd _ ih =>
    rw [fresh, fresh]
    by_cases hmem : c ∈ visited
    · rw [if_pos hmem, if_pos ((mem_iff_of_rel hR hcd hv).mp hmem)]
      exact ih hv
    · rw [if_neg hmem, if_neg (fun h => hmem ((mem_iff_of_rel hR hcd hv).mpr h))]
      exact .cons hcd (ih (List.rel_append hv (.cons hcd .nil)))

omit [DecidableEq α] in
/-- Lists without repetitions of corresponding elements, in whatever order each, have the same
images. -/
theorem perm_filterMap_of_rel {γ : Type*} (hR : OneToOne R) {f : α → Option γ} {f' : β → Option γ}
    (hf : ∀ a b, R a b → f a = f' b) {l : List α} {l' : List β} (hl : l.Nodup) (hl' : l'.Nodup)
    (hleft : ∀ a ∈ l, ∃ b ∈ l', R a b) (hright : ∀ b ∈ l', ∃ a ∈ l, R a b) :
    (l.filterMap f).Perm (l'.filterMap f') := by
  induction l generalizing l' with
  | nil =>
    cases l' with
    | nil => exact .nil
    | cons b l' =>
      obtain ⟨a, ha, -⟩ := hright b List.mem_cons_self
      cases ha
  | cons a l ih =>
    obtain ⟨b, hb, hab⟩ := hleft a List.mem_cons_self
    obtain ⟨ha, hl⟩ := List.nodup_cons.mp hl
    have hrest : (l.filterMap f).Perm ((l'.erase b).filterMap f') := by
      refine ih hl (hl'.erase b) ?_ ?_
      · intro c hc
        obtain ⟨d, hd, hcd⟩ := hleft c (List.mem_cons_of_mem a hc)
        refine ⟨d, hl'.mem_erase_iff.mpr ⟨?_, hd⟩, hcd⟩
        rintro rfl
        exact ha ((hR hab hcd).mpr rfl ▸ hc)
      · intro d hd
        obtain ⟨hdb, hd⟩ := hl'.mem_erase_iff.mp hd
        obtain ⟨c, hc, hcd⟩ := hright d hd
        rcases List.mem_cons.mp hc with rfl | hc
        · exact absurd ((hR hcd hab).mp rfl) hdb
        · exact ⟨c, hc, hcd⟩
    refine List.Perm.trans ?_ ((List.perm_cons_erase hb).filterMap f').symm
    rw [List.filterMap_cons, List.filterMap_cons, hf a b hab]
    cases f' b with
    | none => exact hrest
    | some c => exact hrest.cons c

/-- **Corresponding searches** add corresponding vertices, in the same order. -/
theorem added_rel (hR : OneToOne R) {next : α → List α} {next' : β → List β}
    (hnext : ∀ a b, R a b → List.Forall₂ R (next a) (next' b)) (n : ℕ) {queue visited : List α}
    {queue' visited' : List β} (hq : List.Forall₂ R queue queue')
    (hv : List.Forall₂ R visited visited') :
    Option.Rel (List.Forall₂ R) (added next n queue visited) (added next' n queue' visited') := by
  induction n generalizing queue visited queue' visited' with
  | zero =>
    cases hq with
    | nil => exact .some .nil
    | cons _ _ => exact .none
  | succ n ih =>
    cases hq with
    | nil => exact .some .nil
    | @cons a b _ _ hab hq =>
      have hf := fresh_rel hR (hnext a b hab) hv
      have hrest := ih (List.rel_append hq hf) (List.rel_append hv hf)
      rw [added, added]
      generalize added next n _ _ = o at hrest ⊢
      generalize added next' n _ _ = o' at hrest ⊢
      cases hrest with
      | none => exact .none
      | some h => exact .some (List.rel_append hf h)

end Relabel

end TaskjugglerLsp.Lib.Worklist
