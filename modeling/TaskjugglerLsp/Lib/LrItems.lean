import TaskjugglerLsp.Lib.Lr

/-!
# The automaton of a grammar

The tables that a generator makes of some productions of a grammar, without lookaheads: a state is
the list of its items.  A token is shifted where it is behind the dot of an item; otherwise the
first production whose item is at its end is reduced.

* `itemTables_sound`: these tables belong to the grammar.
-/

namespace TaskjugglerLsp.Lib.Lr

/-- An item: the production, and what is behind the dot. -/
structure Item (ν : Type*) where
  rule : ℕ
  rest : List (Symbol ν)
  deriving DecidableEq

section Items

variable {ν α : Type*} [DecidableEq ν]

/-- The dot of an item is before a symbol. -/
def Item.expects (X : Symbol ν) (item : Item ν) : Bool :=
  match item.rest with
  | [] => false
  | Y :: _ => decide (X = Y)

/-- The productions of what is expected are added, one after the other. -/
def closeItems (prods : List (Production ν α)) (items : List (Item ν)) : List (Item ν) :=
  prods.zipIdx.foldl (fun items p =>
    if items.any (Item.expects (.nt p.1.lhs)) then ⟨p.2, p.1.rhs⟩ :: items else items) items

/-- The items behind a symbol. -/
def gotoItems (prods : List (Production ν α)) (items : List (Item ν)) (X : Symbol ν) :
    List (Item ν) :=
  closeItems prods ((items.filter (Item.expects X)).map fun item => ⟨item.rule, item.rest.tail⟩)

/-- The first production that is at its end. -/
def completeItem (prods : List (Production ν α)) (items : List (Item ν)) :
    Option (Production ν α) :=
  (items.find? fun item => item.rest.isEmpty).bind fun item => prods[item.rule]?

/-- The state behind a token, if it is expected. -/
def shiftItems (prods : List (Production ν α)) (items : List (Item ν)) (k : ℕ) :
    Option (List (Item ν)) :=
  if items.any (Item.expects (.tok k)) then some (gotoItems prods items (.tok k)) else none

end Items

/-- **The automaton** of some productions. -/
def itemTables {ν α : Type*} [DecidableEq ν] (accept : Production ν α)
    (prods : List (Production ν α)) (errorToken : ℕ) : Tables (List (Item ν)) ν α :=
  let start := closeItems prods [⟨prods.length, accept.rhs⟩]
  { start := start
    final := accept.rhs.foldl (gotoItems prods) start
    consistent := fun items => items.all fun item =>
      match item.rest with
      | .tok _ :: _ => false
      | _ => true
    entry := fun items k => (shiftItems prods items k).map .shift
    dflt := completeItem prods
    goto := fun items n => gotoItems prods items (.nt n)
    shiftError := fun items => shiftItems prods items errorToken }

/-! ### The automaton belongs to the grammar -/

section Sound

variable {ν α : Type*} {G : Grammar ν α} {prods : List (Production ν α)} {γ : List (Symbol ν)}

theorem Viable.le {p : Production ν α} {i : ℕ} (h : Viable G p i γ) : i ≤ p.rhs.length := by
  induction h with
  | start => exact Nat.zero_le _
  | advance h hX ih => exact (List.getElem?_eq_some_iff.mp hX).1
  | closure h hX hq ih => exact Nat.zero_le _

/-- What an item says is valid for the symbols on the stack. -/
def Item.Holds (G : Grammar ν α) (prods : List (Production ν α)) (γ : List (Symbol ν))
    (item : Item ν) : Prop :=
  ∃ p i, (prods ++ [G.accept])[item.rule]? = some p ∧ item.rest = p.rhs.drop i ∧ Viable G p i γ

variable [DecidableEq ν] {items : List (Item ν)} {item : Item ν} {X : Symbol ν}

theorem Item.expects_iff : item.expects X = true ↔ ∃ rest, item.rest = X :: rest := by
  unfold Item.expects
  split
  case h_1 h => simp [h]
  case h_2 Y rest h =>
    rw [decide_eq_true_iff, h]
    refine ⟨fun hX => ⟨rest, by rw [hX]⟩, fun ⟨rest', hrest⟩ => ?_⟩
    exact (List.cons.inj hrest).1.symm

theorem mem_closeItems (h : item ∈ items) : item ∈ closeItems prods items := by
  unfold closeItems
  generalize prods.zipIdx = numbered
  induction numbered generalizing items with
  | nil => exact h
  | cons p numbered ih =>
    rw [List.foldl_cons]
    refine ih ?_
    split_ifs
    · exact List.mem_cons_of_mem _ h
    · exact h

theorem holds_closeItems (hprods : ∀ p ∈ prods, p ∈ G.productions)
    (h : ∀ item ∈ items, item.Holds G prods γ) :
    ∀ item ∈ closeItems prods items, item.Holds G prods γ := by
  have hnumbered : ∀ p ∈ prods.zipIdx, prods[p.2]? = some p.1 := by
    rintro ⟨p, n⟩ hp
    exact List.mem_zipIdx_iff_getElem?.mp hp
  unfold closeItems
  generalize prods.zipIdx = numbered at hnumbered
  induction numbered generalizing items with
  | nil => exact h
  | cons p numbered ih =>
    rw [List.foldl_cons]
    refine ih ?_ fun q hq => hnumbered q (List.mem_cons_of_mem _ hq)
    split_ifs with hany
    · refine List.forall_mem_cons.mpr ⟨?_, h⟩
      have hp := hnumbered p List.mem_cons_self
      obtain ⟨item, hitem, hexpects⟩ := List.any_eq_true.mp hany
      obtain ⟨q, i, -, hrest, hviable⟩ := h item hitem
      obtain ⟨rest, hcons⟩ := Item.expects_iff.mp hexpects
      have hnext : q.rhs[i]? = some (.nt p.1.lhs) := by
        rw [← List.head?_drop, ← hrest, hcons, List.head?_cons]
      refine ⟨p.1, 0, ?_, rfl, .closure hviable hnext ?_⟩
      · rw [List.getElem?_append_left (List.getElem?_eq_some_iff.mp hp).1, hp]
      · exact hprods _ (List.mem_of_getElem? hp)
    · exact h

theorem holds_gotoItems (hprods : ∀ p ∈ prods, p ∈ G.productions)
    (h : ∀ item ∈ items, item.Holds G prods γ) (X : Symbol ν) :
    ∀ item ∈ gotoItems prods items X, item.Holds G prods (X :: γ) := by
  refine holds_closeItems hprods fun item hitem => ?_
  obtain ⟨before, hbefore, rfl⟩ := List.mem_map.mp hitem
  obtain ⟨hmem, hexpects⟩ := List.mem_filter.mp hbefore
  obtain ⟨p, i, hp, hrest, hviable⟩ := h before hmem
  obtain ⟨rest, hcons⟩ := Item.expects_iff.mp hexpects
  have hnext : p.rhs[i]? = some X := by
    rw [← List.head?_drop, ← hrest, hcons, List.head?_cons]
  exact ⟨p, i + 1, hp, by rw [hrest, List.tail_drop], .advance hviable hnext⟩

theorem eq_of_shiftItems {k : ℕ} {q : List (Item ν)} (h : shiftItems prods items k = some q) :
    q = gotoItems prods items (.tok k) := by
  unfold shiftItems at h
  split_ifs at h
  exact (Option.some.inj h).symm

variable {errorToken : ℕ}

theorem itemTables_spelled (hprods : ∀ p ∈ prods, p ∈ G.productions)
    (h : (itemTables G.accept prods errorToken).Spelled G errorToken γ items) :
    ∀ item ∈ items, item.Holds G prods γ := by
  induction h with
  | start =>
    refine holds_closeItems hprods fun item hitem => ?_
    obtain rfl := List.mem_singleton.mp hitem
    exact ⟨G.accept, 0, List.getElem?_concat_length, rfl, .start⟩
  | shift h hshift ih =>
    obtain ⟨q, hq, hentry⟩ := Option.map_eq_some_iff.mp hshift
    obtain rfl := Entry.shift.inj hentry
    rw [eq_of_shiftItems hq]
    exact holds_gotoItems hprods ih _
  | shiftError h hshift ih =>
    rw [eq_of_shiftItems hshift]
    exact holds_gotoItems hprods ih _
  | goto h hp hn ih => exact holds_gotoItems hprods ih _

/-- **The automaton belongs to the grammar.** -/
theorem itemTables_sound (hprods : ∀ p ∈ prods, p ∈ G.productions) :
    (itemTables G.accept prods errorToken).Sound G errorToken where
  entry h hp := by
    obtain ⟨q, -, hentry⟩ := Option.map_eq_some_iff.mp hp
    cases hentry
  dflt {γ q p} h hp := by
    obtain ⟨item, hfind, hrule⟩ := Option.bind_eq_some_iff.mp hp
    obtain ⟨p', i, hp', hrest, hviable⟩ :=
      itemTables_spelled hprods h item (List.mem_of_find?_eq_some hfind)
    rw [List.getElem?_append_left (List.getElem?_eq_some_iff.mp hrule).1, hrule,
      Option.some.injEq] at hp'
    subst hp'
    have hempty : item.rest = [] := by simpa using List.find?_some hfind
    have hlength : p.rhs.length ≤ i := by
      rw [← List.drop_eq_nil_iff, ← hrest, hempty]
    rw [Nat.le_antisymm hviable.le hlength] at hviable
    exact ⟨hprods p (List.mem_of_getElem? hrule), hviable⟩
  final {γ} h := by
    have hfold : ∀ (rest : List (Symbol ν)) (items : List (Item ν)),
        ⟨prods.length, rest⟩ ∈ items →
          ⟨prods.length, []⟩ ∈ rest.foldl (gotoItems prods) items := by
      intro rest
      induction rest with
      | nil => exact fun _ h => h
      | cons X rest ih =>
        intro items hmem
        refine ih _ (mem_closeItems (List.mem_map.mpr ⟨_, List.mem_filter.mpr ⟨hmem, ?_⟩, rfl⟩))
        exact Item.expects_iff.mpr ⟨rest, rfl⟩
    have hmem : ⟨prods.length, []⟩ ∈ (itemTables G.accept prods errorToken).final :=
      hfold _ _ (mem_closeItems List.mem_cons_self)
    obtain ⟨p, i, hp, hrest, hviable⟩ := itemTables_spelled hprods h _ hmem
    rw [List.getElem?_concat_length, Option.some.injEq] at hp
    subst hp
    have hlength : G.accept.rhs.length ≤ i := List.drop_eq_nil_iff.mp hrest.symm
    rwa [Nat.le_antisymm hviable.le hlength] at hviable

end Sound

end TaskjugglerLsp.Lib.Lr
