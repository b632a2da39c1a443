import Mathlib.Algebra.Order.Group.Nat
import TaskjugglerLsp.Lib.Lr

/-!
# Syntax trees and their evaluation

A parser builds syntax trees of its input, and its actions run in the order in which the trees
are completed.  `Tree.eval` runs them on a tree; an action sees the values of the whole stack, so
that an action in the middle of a production can look at the symbols before it.  A tree that error
recovery has taken off the stack is part of the `error` token that stands in its place.

* `Parser.Runs.built`: at every end of a run, the stack is that of the evaluation of some trees.
* `Parser.Built.tree`: what a parser that accepts has done is the evaluation of a tree.
-/

namespace TaskjugglerLsp.Lib.Lr

/-- A syntax tree; its leaves are tokens with their values, and what has been lost to `error`. -/
inductive Tree (ν α V : Type*) where
  | leaf (kind : ℕ) (value : V)
  | lost (kind : ℕ) (value : V) (parts : List (Tree ν α V))
  | node (p : Production ν α) (children : List (Tree ν α V))

namespace Tree

variable {ν α σ V : Type*}

/-- The symbol of a tree. -/
def root : Tree ν α V → Symbol ν
  | leaf k _ => .tok k
  | lost k _ _ => .tok k
  | node p _ => .nt p.lhs

mutual

/-- The tokens of a tree. -/
def yield : Tree ν α V → List (ℕ × V)
  | leaf k v => [(k, v)]
  | lost _ _ parts => yieldAll parts
  | node _ children => yieldAll children

def yieldAll : List (Tree ν α V) → List (ℕ × V)
  | [] => []
  | t :: ts => yield t ++ yieldAll ts

end

/-- The tree is one of the grammar; nothing else is lost than what stands for `error`. -/
inductive Valid (G : Grammar ν α) (errorToken : ℕ) : Tree ν α V → Prop
  | leaf (k : ℕ) (v : V) : Valid G errorToken (leaf k v)
  | lost (v : V) {parts : List (Tree ν α V)} (hall : ∀ t ∈ parts, Valid G errorToken t) :
      Valid G errorToken (lost errorToken v parts)
  | node {p : Production ν α} {children : List (Tree ν α V)} (hp : p ∈ G.productions)
      (hroots : children.map root = p.rhs) (hall : ∀ t ∈ children, Valid G errorToken t) :
      Valid G errorToken (node p children)

/-- Nothing is lost in the tree. -/
inductive Whole : Tree ν α V → Prop
  | leaf (k : ℕ) (v : V) : Whole (leaf k v)
  | node (p : Production ν α) {children : List (Tree ν α V)} (hall : ∀ t ∈ children, Whole t) :
      Whole (node p children)

section Eval

variable (run : α → List V → σ → σ × V)

mutual

/-- The actions of a tree, on the values below it. -/
def eval : Tree ν α V → List V → σ → σ × V
  | leaf _ v, _, s => (s, v)
  | lost _ v parts, vs, s => ((evalAll parts vs s).1, v)
  | node p children, vs, s =>
    let out := evalAll children vs s
    run p.action out.2 out.1

/-- The actions of some trees, whose values are pushed. -/
def evalAll : List (Tree ν α V) → List V → σ → σ × List V
  | [], vs, s => (s, vs)
  | t :: ts, vs, s =>
    let out := eval t vs s
    evalAll ts (out.2 :: vs) out.1

end

theorem evalAll_append (ts us : List (Tree ν α V)) (vs : List V) (s : σ) :
    evalAll run (ts ++ us) vs s
      = evalAll run us (evalAll run ts vs s).2 (evalAll run ts vs s).1 := by
  induction ts generalizing vs s with
  | nil => rfl
  | cons t ts ih => exact ih _ _

theorem drop_evalAll (ts : List (Tree ν α V)) (vs : List V) (s : σ) :
    (evalAll run ts vs s).2.drop ts.length = vs := by
  induction ts generalizing vs s with
  | nil => rfl
  | cons t ts ih =>
    have h := ih ((eval run t vs s).2 :: vs) (eval run t vs s).1
    rw [evalAll, List.length_cons, ← List.drop_drop, h]
    rfl

end Eval

theorem yieldAll_append (ts us : List (Tree ν α V)) :
    yieldAll (ts ++ us) = yieldAll ts ++ yieldAll us := by
  induction ts with
  | nil => rfl
  | cons t ts ih => rw [List.cons_append, yieldAll, yieldAll, ih, List.append_assoc]

theorem mem_yieldAll {ts : List (Tree ν α V)} {x : ℕ × V} :
    x ∈ yieldAll ts ↔ ∃ t ∈ ts, x ∈ t.yield := by
  induction ts with
  | nil => simp [yieldAll]
  | cons t ts ih => rw [yieldAll, List.mem_append, ih, List.exists_mem_cons_iff]

end Tree

/-! ### What a parser has built -/

section Runs

variable {κ ν α L σ V : Type*} {P : Parser κ ν α L σ V} {G : Grammar ν α}

/-- The lexer yields some tokens. -/
inductive Parser.Fed (P : Parser κ ν α L σ V) : L → List (ℕ × V) → L → Prop
  | nil (l : L) : Fed P l [] l
  | next {l m : L} {ts : List (ℕ × V)} (h : Fed P l ts m) :
      Fed P l (ts ++ [((P.next m).2, P.lval (P.next m).1)]) (P.next m).1

/-- The lookahead, with its value. -/
def Parser.pending (P : Parser κ ν α L σ V) (c : Conf κ ν L σ V) : List (ℕ × V) :=
  match c.lookahead with
  | none => []
  | some k => [(k, P.lval c.lex)]

/-- **What a parser has done**: the trees on its stack, the last one first.  Tokens are passed
over by error recovery only. -/
structure Parser.Built (P : Parser κ ν α L σ V) (G : Grammar ν α) (l : L) (s : σ)
    (c : Conf κ ν L σ V) (trees : List (Tree ν α V)) : Prop where
  spelled : P.Spelled G c.stack
  valid : ∀ t ∈ trees, t.Valid G P.errorToken
  roots : symbols c.stack = trees.map Tree.root
  eval : Tree.evalAll P.run trees.reverse [] s = (c.vars, c.stack.map (·.value))
  fed : ∃ tokens, P.Fed l tokens c.lex ∧
    (Tree.yieldAll trees.reverse ++ P.pending c).Sublist tokens
  whole : c.errors = 0 → c.errStatus = 0 ∧ (∀ t ∈ trees, t.Whole) ∧
    P.Fed l (Tree.yieldAll trees.reverse ++ P.pending c) c.lex

variable {l : L} {s : σ} {c : Conf κ ν L σ V} {trees : List (Tree ν α V)}

theorem Parser.built_init (l : L) (s : σ) : P.Built G l s (Parser.init l s) [] where
  spelled := Parser.spelled_nil
  valid := fun t ht => by cases ht
  roots := rfl
  eval := rfl
  fed := ⟨[], .nil l, .slnil⟩
  whole := fun _ => ⟨rfl, (fun t ht => by cases ht), .nil l⟩

theorem Parser.Built.fetch (h : P.Built G l s c trees) :
    P.Built G l s (P.fetch c).1 trees := by
  unfold Parser.fetch
  split
  case h_1 => exact h
  case h_2 hk =>
    obtain ⟨tokens, hfed, hsub⟩ := h.fed
    refine ⟨h.spelled, h.valid, h.roots, h.eval, ⟨_, hfed.next, ?_⟩, fun herrors => ?_⟩
    · rw [Parser.pending, hk, List.append_nil] at hsub
      exact hsub.append (.refl _)
    · obtain ⟨hstatus, hwhole, hexact⟩ := h.whole herrors
      rw [Parser.pending, hk, List.append_nil] at hexact
      exact ⟨hstatus, hwhole, hexact.next⟩

theorem Parser.Built.shift (h : P.Built G l s c trees) {k : ℕ} {q : κ}
    (hk : c.lookahead = some k) (hq : P.entry (P.top c.stack) k = some (.shift q)) :
    P.Built G l s { c with
      stack := ⟨q, .tok k, P.lval c.lex⟩ :: c.stack
      lookahead := none
      errStatus := c.errStatus - 1 } (.leaf k (P.lval c.lex) :: trees) := by
  have hyield : Tree.yieldAll (Tree.leaf k (P.lval c.lex) :: trees).reverse ++ []
      = Tree.yieldAll trees.reverse ++ P.pending c := by
    rw [List.reverse_cons, Tree.yieldAll_append, Parser.pending, hk, List.append_nil]
    rfl
  obtain ⟨tokens, hfed, hsub⟩ := h.fed
  refine ⟨h.spelled.push (.shift h.spelled.top hq), ?_, ?_, ?_, ⟨tokens, hfed, ?_⟩,
    fun herrors => ?_⟩
  · exact List.forall_mem_cons.mpr ⟨.leaf _ _, h.valid⟩
  · exact congrArg₂ List.cons rfl h.roots
  · rw [List.reverse_cons, Tree.evalAll_append, h.eval]
    rfl
  · exact hyield ▸ hsub
  · obtain ⟨hstatus, hwhole, hexact⟩ := h.whole herrors
    refine ⟨?_, List.forall_mem_cons.mpr ⟨.leaf _ _, hwhole⟩, ?_⟩
    · simp only [hstatus]
    · exact hyield ▸ hexact

/-- The trees below and above a place of the stack. -/
theorem Parser.Built.split (h : P.Built G l s c trees) (n : ℕ) :
    Tree.evalAll P.run (trees.take n).reverse
        (Tree.evalAll P.run (trees.drop n).reverse [] s).2
        (Tree.evalAll P.run (trees.drop n).reverse [] s).1
      = (c.vars, c.stack.map (·.value)) ∧
    (Tree.evalAll P.run (trees.drop n).reverse [] s).2 = (c.stack.drop n).map (·.value) := by
  have hsplit : trees.reverse = (trees.drop n).reverse ++ (trees.take n).reverse := by
    rw [← List.reverse_append, List.take_append_drop]
  have heval := h.eval
  rw [hsplit, Tree.evalAll_append] at heval
  refine ⟨heval, ?_⟩
  have hdrop := Tree.drop_evalAll P.run (trees.take n).reverse
    (Tree.evalAll P.run (trees.drop n).reverse [] s).2
    (Tree.evalAll P.run (trees.drop n).reverse [] s).1
  have hlen : trees.length = c.stack.length := by
    have hroots := congrArg List.length h.roots
    rw [List.length_map, symbols, List.length_map] at hroots
    exact hroots.symm
  rw [heval, List.length_reverse, List.length_take, hlen] at hdrop
  rw [← hdrop, List.map_drop]
  rcases Nat.le_total n c.stack.length with hle | hle
  · rw [Nat.min_eq_left hle]
  · rw [Nat.min_eq_right hle, List.drop_of_length_le (by rw [List.length_map]),
      List.drop_of_length_le (by rw [List.length_map]; exact hle)]

theorem yieldAll_split (n : ℕ) (trees : List (Tree ν α V)) :
    Tree.yieldAll (trees.drop n).reverse ++ Tree.yieldAll (trees.take n).reverse
      = Tree.yieldAll trees.reverse := by
  rw [← Tree.yieldAll_append, ← List.reverse_append, List.take_append_drop]

theorem Parser.Built.reduce (h : P.Built G l s c trees) {p : Production ν α}
    (hp : p ∈ G.productions) (hviable : Viable G p p.rhs.length (symbols c.stack)) :
    P.Built G l s (P.reduce p c)
      (.node p (trees.take p.rhs.length).reverse :: trees.drop p.rhs.length) := by
  obtain ⟨below, hγ, -⟩ := hviable.all
  have hroots : ((trees.take p.rhs.length).reverse).map Tree.root = p.rhs := by
    rw [List.map_reverse, List.map_take, ← h.roots, hγ,
      List.take_left' (by rw [List.length_reverse]), List.reverse_reverse]
  obtain ⟨heval, hbelow⟩ := h.split p.rhs.length
  have hyield : Tree.yieldAll
      (Tree.node p (trees.take p.rhs.length).reverse :: trees.drop p.rhs.length).reverse
      = Tree.yieldAll trees.reverse := by
    rw [List.reverse_cons, Tree.yieldAll_append, ← yieldAll_split p.rhs.length trees]
    exact congrArg _ (List.append_nil _)
  obtain ⟨tokens, hfed, hsub⟩ := h.fed
  refine ⟨h.spelled.reduce hp hviable _, ?_, ?_, ?_, ⟨tokens, hfed, ?_⟩, fun herrors => ?_⟩
  · refine List.forall_mem_cons.mpr ⟨.node hp hroots fun t ht => ?_, fun t ht => ?_⟩
    · exact h.valid t (List.mem_of_mem_take (List.mem_reverse.mp ht))
    · exact h.valid t (List.mem_of_mem_drop ht)
  · rw [List.map_cons, List.map_drop, ← h.roots, ← symbols_drop]
    rfl
  · rw [List.reverse_cons, Tree.evalAll_append, Tree.evalAll, Tree.evalAll, Tree.eval, heval,
      hbelow]
    rfl
  · rw [hyield]
    exact hsub
  · obtain ⟨hstatus, hwhole, hexact⟩ := h.whole herrors
    refine ⟨hstatus, List.forall_mem_cons.mpr ⟨.node p fun t ht => ?_, fun t ht => ?_⟩, ?_⟩
    · exact hwhole t (List.mem_of_mem_take (List.mem_reverse.mp ht))
    · exact hwhole t (List.mem_of_mem_drop ht)
    · rw [hyield]
      exact hexact

theorem Parser.Built.disturb (h : P.Built G l s c trees) {e : ℕ} (he : e ≠ 0)
    {k : Option ℕ} (hk : k = c.lookahead ∨ k = none) :
    P.Built G l s { c with errors := e, lookahead := k } trees := by
  obtain ⟨tokens, hfed, hsub⟩ := h.fed
  refine ⟨h.spelled, h.valid, h.roots, h.eval, ⟨tokens, hfed, ?_⟩, fun h0 => absurd h0 he⟩
  rcases hk with rfl | rfl
  · exact hsub
  · exact (List.Sublist.append (.refl _) (List.nil_sublist _)).trans hsub

theorem Parser.Built.recover (h : P.Built G l s c trees) (herrors : c.errors ≠ 0) :
    ∃ trees', P.Built G l s (P.recover c).1 trees' := by
  unfold Parser.recover
  split
  case h_1 => exact ⟨trees, h⟩
  case h_2 q below hbelow =>
    obtain ⟨hin, hq⟩ := Parser.unwind_eq_some hbelow
    obtain ⟨popped, hpopped⟩ := hin
    obtain rfl : c.stack.drop popped.length = below := by
      rw [← hpopped, List.drop_left]
    obtain ⟨heval, hvalues⟩ := h.split popped.length
    have hyield : Tree.yieldAll (Tree.lost P.errorToken (P.lval c.lex)
        (trees.take popped.length).reverse :: trees.drop popped.length).reverse
        = Tree.yieldAll trees.reverse := by
      rw [List.reverse_cons, Tree.yieldAll_append, ← yieldAll_split popped.length trees]
      exact congrArg _ (List.append_nil _)
    obtain ⟨tokens, hfed, hsub⟩ := h.fed
    have hspelled := h.spelled.suffix (List.drop_suffix popped.length c.stack)
    refine ⟨.lost P.errorToken (P.lval c.lex) (trees.take popped.length).reverse
      :: trees.drop popped.length, hspelled.push (.shiftError hspelled.top hq), ?_, ?_, ?_,
      ⟨tokens, hfed, ?_⟩, fun h0 => absurd h0 herrors⟩
    · refine List.forall_mem_cons.mpr ⟨.lost _ fun t ht => ?_, fun t ht => ?_⟩
      · exact h.valid t (List.mem_of_mem_take (List.mem_reverse.mp ht))
      · exact h.valid t (List.mem_of_mem_drop ht)
    · rw [List.map_cons, List.map_drop, ← h.roots, ← symbols_drop]
      rfl
    · rw [List.reverse_cons, Tree.evalAll_append, Tree.evalAll, Tree.evalAll, Tree.eval, heval,
        hvalues]
      rfl
    · rw [hyield]
      exact hsub

theorem Parser.Built.syntaxError (h : P.Built G l s c trees) :
    ∃ trees', P.Built G l s (P.syntaxError c).1 trees' := by
  unfold Parser.syntaxError
  split_ifs with h0 h3 hend
  · exact (h.disturb (Nat.succ_ne_zero c.errors) (.inl rfl)).recover (Nat.succ_ne_zero _)
  · exact ⟨trees, h⟩
  · have herrors : c.errors ≠ 0 := fun he => h0 (h.whole he).1
    exact (h.disturb herrors (.inr rfl)).recover herrors
  · exact h.recover fun he => h0 (h.whole he).1

variable [DecidableEq κ]

/-- **A step** builds trees. -/
theorem Parser.Built.step (hT : P.toTables.Sound G P.errorToken) (h : P.Built G l s c trees) :
    ∃ trees', P.Built G l s (P.step c).1 trees' := by
  obtain ⟨c', hc', hs⟩ := Parser.steps_step hT h.spelled
  have h' : P.Built G l s c' trees := by
    rcases hc' with rfl | rfl
    · exact h
    · exact h.fetch
  generalize P.step c = out at hs
  cases hs with
  | exhausted => exact ⟨trees, h'⟩
  | accept => exact ⟨trees, h'⟩
  | error => exact h'.syntaxError
  | reduce hp hviable => exact ⟨_, h'.reduce hp hviable⟩
  | shift hk hq => exact ⟨_, h'.shift hk hq⟩

/-- **A run** builds trees. -/
theorem Parser.Runs.built (hT : P.toTables.Sound G P.errorToken) {d : Conf κ ν L σ V} {r : Result}
    (hrun : P.Runs c d r) (h : P.Built G l s c trees) : ∃ trees', P.Built G l s d trees' := by
  induction hrun generalizing trees with
  | stop hstep =>
    have := h.step hT
    rwa [hstep] at this
  | step hstep _ ih =>
    obtain ⟨trees', h'⟩ := h.step hT
    rw [hstep] at h'
    exact ih h'

omit [DecidableEq κ] in
theorem Parser.syntaxError_ne_accept (c : Conf κ ν L σ V) :
    (P.syntaxError c).2 ≠ some .accept := by
  have hrecover (c : Conf κ ν L σ V) : (P.recover c).2 ≠ some .accept := by
    unfold Parser.recover
    split <;> simp
  unfold Parser.syntaxError
  split_ifs
  · exact hrecover _
  · simp
  · exact hrecover _
  · exact hrecover _

theorem Parser.Runs.top_of_accept (hT : P.toTables.Sound G P.errorToken) {d : Conf κ ν L σ V}
    {r : Result} (hrun : P.Runs c d r) (hr : r = .accept) (h : P.Spelled G c.stack) :
    P.top d.stack = P.final := by
  induction hrun with
  | stop hstep =>
    obtain ⟨c', -, hs⟩ := Parser.steps_step hT h
    rw [hstep, hr] at hs
    generalize hout : ((_, some Result.accept) : Conf κ ν L σ V × Option Result) = out at hs
    cases hs with
    | exhausted => cases hout
    | accept hfinal =>
      obtain rfl := congrArg Prod.fst hout
      exact hfinal
    | error => exact absurd (congrArg Prod.snd hout).symm (P.syntaxError_ne_accept c')
    | reduce => cases hout
    | shift => cases hout
  | step hstep _ ih =>
    have hnext := h.step hT
    rw [hstep] at hnext
    exact ih hr hnext

omit [DecidableEq κ] in
/-- In the final state, there is the tree of the input and the end of it. -/
theorem Parser.Built.tree (hT : P.toTables.Sound G P.errorToken) {n : ν}
    (haccept : G.accept.rhs = [.nt n, .tok 0]) (herror : P.errorToken ≠ 0)
    (hb : P.Built G l s c trees) (hfinal : P.top c.stack = P.final) :
    ∃ t v, trees = [.leaf 0 v, t] ∧ t.Valid G P.errorToken ∧ t.root = .nt n ∧
      (∃ tokens, P.Fed l tokens c.lex ∧ t.yield.Sublist tokens) ∧
      (c.errors = 0 → t.Whole ∧ P.Fed l (t.yield ++ [(0, v)] ++ P.pending c) c.lex) ∧
      (t.eval P.run [] s).1 = c.vars := by
  have hspelled := hb.spelled.top
  rw [hfinal] at hspelled
  obtain ⟨below, hγ, h0⟩ := (hT.final hspelled).all
  obtain rfl : below = [] := by
    cases h0 with
    | start => rfl
    | closure h hX hq => exact absurd rfl (G.fresh _ hq)
  rw [haccept, hb.roots] at hγ
  obtain ⟨last, rest, rfl, hlast, hrest⟩ := List.map_eq_cons_iff.mp hγ
  obtain ⟨t, rest, rfl, ht, hnil⟩ := List.map_eq_cons_iff.mp hrest
  obtain rfl := List.map_eq_nil_iff.mp hnil
  cases last with
  | node p children => cases hlast
  | lost k v parts =>
    obtain rfl : k = 0 := Symbol.tok.inj hlast
    have hvalid := hb.valid _ List.mem_cons_self
    generalize P.errorToken = e at hvalid herror
    cases hvalid with
    | lost => exact absurd rfl herror
  | leaf k v =>
    obtain rfl : k = 0 := Symbol.tok.inj hlast
    obtain ⟨tokens, hfed, hsub⟩ := hb.fed
    refine ⟨t, v, rfl, hb.valid t (by simp), ht, ⟨tokens, hfed, ?_⟩, fun herrors => ?_, ?_⟩
    · refine List.Sublist.trans ?_ hsub
      simp [Tree.yieldAll, Tree.yield]
    · obtain ⟨-, hwhole, hexact⟩ := hb.whole herrors
      exact ⟨hwhole t (by simp), by simpa [Tree.yieldAll, Tree.yield] using hexact⟩
    · exact congrArg Prod.fst hb.eval

/-! ### The tree of a given run -/

variable (P) in
omit [DecidableEq κ] in
/-- The production that a step reduces, if it reduces one. -/
def Parser.reduction (c : Conf κ ν L σ V) : Option (Production ν α) :=
  if P.consistent (P.top c.stack) then P.dflt (P.top c.stack)
  else
    match P.entry (P.top c.stack) (P.fetch c).2 with
    | none => P.dflt (P.top c.stack)
    | some (.reduce p) => some p
    | some _ => none

variable (P) in
/-- The trees after a step that reduces or takes a token. -/
def Parser.grow (c : Conf κ ν L σ V) (trees : List (Tree ν α V)) : List (Tree ν α V) :=
  match P.reduction c with
  | some p => .node p (trees.take p.rhs.length).reverse :: trees.drop p.rhs.length
  | none => .leaf (P.fetch c).2 (P.lval (P.fetch c).1.lex) :: trees

variable (P) in
/-- At most so many steps: the end of the parse and the trees, if it is reached. -/
def Parser.treesUpTo : ℕ → Conf κ ν L σ V → List (Tree ν α V) →
    Option ((Conf κ ν L σ V × Result) × List (Tree ν α V))
  | 0, _, _ => none
  | n + 1, c, trees =>
    match P.step c with
    | (d, some r) => some ((d, r), trees)
    | (d, none) => treesUpTo n d (P.grow c trees)

omit [DecidableEq κ] in
theorem Parser.errors_recover (c : Conf κ ν L σ V) : (P.recover c).1.errors = c.errors := by
  unfold Parser.recover
  split <;> rfl

omit [DecidableEq κ] in
/-- After a syntax error, some have been counted. -/
theorem Parser.Built.errors_syntaxError (h : P.Built G l s c trees) :
    (P.syntaxError c).1.errors ≠ 0 := by
  unfold Parser.syntaxError
  split_ifs with h0 h3 hend
  · rw [Parser.errors_recover]
    exact Nat.succ_ne_zero _
  · exact fun he => h0 (h.whole he).1
  · rw [Parser.errors_recover]
    exact fun he => h0 (h.whole he).1
  · rw [Parser.errors_recover]
    exact fun he => h0 (h.whole he).1

omit [DecidableEq κ] in
theorem Parser.Built.applyDefault (hT : P.toTables.Sound G P.errorToken)
    (h : P.Built G l s c trees) {d : Conf κ ν L σ V} (hstep : P.applyDefault c = (d, none))
    (herrors : d.errors = 0) : ∃ p, P.dflt (P.top c.stack) = some p ∧
      P.Built G l s d
        (.node p (trees.take p.rhs.length).reverse :: trees.drop p.rhs.length) := by
  unfold Parser.applyDefault at hstep
  split at hstep
  case h_1 =>
    have := h.errors_syntaxError
    rw [hstep] at this
    exact absurd herrors this
  case h_2 p hp =>
    obtain ⟨hmem, hviable⟩ := hT.dflt h.spelled.top hp
    obtain rfl := congrArg Prod.fst hstep
    exact ⟨p, hp, h.reduce hmem hviable⟩

/-- **A step without a syntax error** grows the trees. -/
theorem Parser.Built.grow (hT : P.toTables.Sound G P.errorToken) (h : P.Built G l s c trees)
    {d : Conf κ ν L σ V} (hstep : P.step c = (d, none)) (herrors : d.errors = 0) :
    P.Built G l s d (P.grow c trees) := by
  unfold Parser.step at hstep
  unfold Parser.grow Parser.reduction
  split_ifs at hstep with hdepth hfinal hconsistent
  · cases hstep
  · cases hstep
  · obtain ⟨p, hp, hb⟩ := h.applyDefault hT hstep herrors
    rwa [if_pos hconsistent, hp]
  · obtain ⟨hstack, hlook⟩ := P.fetch_spec c
    have h' := h.fetch
    simp only [hstack] at hstep
    rw [if_neg hconsistent]
    split at hstep
    case h_1 hnone =>
      obtain ⟨p, hp, hb⟩ := h'.applyDefault hT hstep herrors
      rw [hstack] at hp
      rwa [hnone, hp]
    case h_2 herror =>
      have := h'.errors_syntaxError
      rw [hstep] at this
      exact absurd herrors this
    case h_3 p hp =>
      obtain ⟨hmem, hviable⟩ := hT.entry h.spelled.top hp
      obtain rfl := congrArg Prod.fst hstep
      rw [hp]
      rw [← hstack] at hviable
      exact h'.reduce hmem hviable
    case h_4 q hq =>
      obtain rfl := congrArg Prod.fst hstep
      have hq' := hq
      rw [← hstack] at hq'
      rw [hq]
      have hshift := h'.shift hlook hq'
      rwa [hstack] at hshift

/-- Syntax errors are not forgotten. -/
theorem Parser.errors_step (c : Conf κ ν L σ V) : c.errors ≤ (P.step c).1.errors := by
  have hsyntax (c : Conf κ ν L σ V) : c.errors ≤ (P.syntaxError c).1.errors := by
    unfold Parser.syntaxError
    split_ifs
    · rw [Parser.errors_recover]
      exact Nat.le_succ _
    · exact Nat.le_refl _
    · rw [Parser.errors_recover]
    · rw [Parser.errors_recover]
  have hdflt (c : Conf κ ν L σ V) : c.errors ≤ (P.applyDefault c).1.errors := by
    unfold Parser.applyDefault
    split
    · exact hsyntax c
    · exact Nat.le_refl _
  have hfetch : (P.fetch c).1.errors = c.errors := by
    unfold Parser.fetch
    split <;> rfl
  unfold Parser.step
  split_ifs
  · exact Nat.le_refl _
  · exact Nat.le_refl _
  · exact hdflt c
  · rw [← hfetch]
    simp only
    split
    · exact hdflt _
    · exact hsyntax _
    · exact Nat.le_refl _
    · exact Nat.le_refl _

theorem Parser.errors_treesUpTo {n : ℕ} {out : (Conf κ ν L σ V × Result) × List (Tree ν α V)}
    (h : P.treesUpTo n c trees = some out) : c.errors ≤ out.1.1.errors := by
  induction n generalizing c trees with
  | zero => cases h
  | succ n ih =>
    have hle := P.errors_step c
    rw [Parser.treesUpTo] at h
    split at h
    case h_1 d r hstep =>
      rw [hstep] at hle
      obtain rfl := Option.some.inj h
      exact hle
    case h_2 d hstep =>
      rw [hstep] at hle
      exact hle.trans (ih h)

theorem Parser.Runs.treesUpTo {d : Conf κ ν L σ V} {r : Result} (h : P.Runs c d r)
    (trees : List (Tree ν α V)) : ∃ n out, P.treesUpTo n c trees = some ((d, r), out) := by
  induction h generalizing trees with
  | stop hstep => exact ⟨1, trees, by rw [Parser.treesUpTo, hstep]⟩
  | @step c c' d r hstep _ ih =>
    obtain ⟨n, out, hout⟩ := ih (P.grow c trees)
    exact ⟨n + 1, out, by rw [Parser.treesUpTo, hstep]; exact hout⟩

/-- The trees do not depend on the number of steps that are allowed. -/
theorem Parser.treesUpTo_unique {n m : ℕ} {out out' : (Conf κ ν L σ V × Result) × List (Tree ν α V)}
    (h : P.treesUpTo n c trees = some out) (h' : P.treesUpTo m c trees = some out') :
    out = out' := by
  induction n generalizing m c trees with
  | zero => cases h
  | succ n ih =>
    cases m with
    | zero => cases h'
    | succ m =>
      rw [Parser.treesUpTo] at h h'
      split at h
      case h_1 d r hstep =>
        rw [hstep] at h'
        exact (Option.some.inj h).symm.trans (Option.some.inj h')
      case h_2 d hstep =>
        rw [hstep] at h'
        exact ih h h'

/-- **The trees of a run** without a syntax error that accepts. -/
theorem Parser.treesUpTo_built (hT : P.toTables.Sound G P.errorToken) {n : ℕ}
    {d : Conf κ ν L σ V} {out : List (Tree ν α V)}
    (h : P.treesUpTo n c trees = some ((d, .accept), out)) (herrors : d.errors = 0)
    (hb : P.Built G l s c trees) : P.Runs c d .accept ∧ P.Built G l s d out := by
  induction n generalizing c trees with
  | zero => cases h
  | succ n ih =>
    rw [Parser.treesUpTo] at h
    split at h
    case h_1 e r hstep =>
      simp only [Option.some.injEq, Prod.mk.injEq] at h
      obtain ⟨⟨rfl, rfl⟩, rfl⟩ := h
      have hb' : P.Built G l s e trees := by
        obtain ⟨c', hc', hs⟩ := Parser.steps_step hT hb.spelled
        rw [hstep] at hs
        generalize hout : ((e, some Result.accept) : Conf κ ν L σ V × Option Result) = out at hs
        cases hs with
        | exhausted => cases hout
        | accept hfinal =>
          obtain rfl := congrArg Prod.fst hout
          rcases hc' with rfl | rfl
          · exact hb
          · exact hb.fetch
        | error => exact absurd (congrArg Prod.snd hout).symm (P.syntaxError_ne_accept c')
        | reduce => cases hout
        | shift => cases hout
      exact ⟨.stop hstep, hb'⟩
    case h_2 e hstep =>
      have he : e.errors = 0 := Nat.le_zero.mp (herrors ▸ Parser.errors_treesUpTo h)
      obtain ⟨hrun, hbuilt⟩ := ih h (hb.grow hT hstep he)
      exact ⟨.step hstep hrun, hbuilt⟩

end Runs

end TaskjugglerLsp.Lib.Lr
