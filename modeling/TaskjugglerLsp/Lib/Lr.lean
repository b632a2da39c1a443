import Mathlib.Data.List.Basic
import Mathlib.Order.Basic
import Mathlib.Data.List.Forall2

/-!
# Table-driven parsers with semantic actions

The parser that an LALR generator puts around its tables: a stack of states with the
symbols and the values that led to them, default reductions that do not read a lookahead,
recovery from syntax errors by the `error` token, and a limit of the stack.  The tables are
a parameter; all that is asked of them is that a production is reduced where its item is
valid for the symbols on the stack (`Tables.Sound`).

* `Viable.marked`: what must have been pushed below an item.
* `Rel.Confs.runs`: two runs that start on related states take the same steps.
* `Parser.steps_step`: what one step of the parser does.
-/

namespace TaskjugglerLsp.Lib.Lr

/-! ### Grammars -/

/-- A symbol of a grammar. -/
inductive Symbol (ν : Type*) where
  | tok (kind : ℕ)
  | nt (n : ν)
  deriving DecidableEq

/-- The nonterminal that a symbol is. -/
def Symbol.nonterm {ν : Type*} : Symbol ν → Option ν
  | tok _ => none
  | nt n => some n

/-- A production with its action. -/
structure Production (ν α : Type*) where
  lhs : ν
  rhs : List (Symbol ν)
  action : α

/-- A grammar; `accept` is the production that the generator adds. -/
structure Grammar (ν α : Type*) where
  accept : Production ν α
  productions : List (Production ν α)
  fresh : ∀ p ∈ productions, p.lhs ≠ accept.lhs

section Viable

variable {ν α : Type*}

/-- **The items that are valid** for the symbols on the stack, the top first. -/
inductive Viable (G : Grammar ν α) : Production ν α → ℕ → List (Symbol ν) → Prop
  | start : Viable G G.accept 0 []
  | advance {p : Production ν α} {i : ℕ} {γ : List (Symbol ν)} {X : Symbol ν}
      (h : Viable G p i γ) (hX : p.rhs[i]? = some X) : Viable G p (i + 1) (X :: γ)
  | closure {p q : Production ν α} {i : ℕ} {γ : List (Symbol ν)} (h : Viable G p i γ)
      (hX : p.rhs[i]? = some (.nt q.lhs)) (hq : q ∈ G.productions) : Viable G q 0 γ

variable {G : Grammar ν α}

/-- The part of an item before its dot is on the stack. -/
theorem Viable.split {p : Production ν α} {i : ℕ} {γ : List (Symbol ν)} (h : Viable G p i γ) :
    ∃ below, γ = (p.rhs.take i).reverse ++ below ∧ Viable G p 0 below := by
  induction h with
  | start => exact ⟨[], rfl, .start⟩
  | @advance p i γ X h hX ih =>
    obtain ⟨below, rfl, hbelow⟩ := ih
    refine ⟨below, ?_, hbelow⟩
    rw [List.take_add_one, hX, Option.toList_some, List.reverse_append, List.reverse_singleton]
    rfl
  | closure h hX hq ih => exact ⟨_, rfl, .closure h hX hq⟩

theorem Viable.all {p : Production ν α} {γ : List (Symbol ν)} (h : Viable G p p.rhs.length γ) :
    ∃ below, γ = p.rhs.reverse ++ below ∧ Viable G p 0 below := by
  obtain ⟨below, hγ, hbelow⟩ := h.split
  rw [List.take_length] at hγ
  exact ⟨below, hγ, hbelow⟩

/-- An item at the begin of a production is expected by another one. -/
theorem Viable.expected {p : Production ν α} {γ : List (Symbol ν)} (h : Viable G p 0 γ) :
    (p = G.accept ∧ γ = []) ∨ ∃ q i, Viable G q i γ ∧ q.rhs[i]? = some (.nt p.lhs) := by
  cases h with
  | start => exact Or.inl ⟨rfl, rfl⟩
  | closure h hX hq => exact Or.inr ⟨_, _, h, hX⟩

theorem Viable.mem {p : Production ν α} {i : ℕ} {γ : List (Symbol ν)} (h : Viable G p i γ) :
    p = G.accept ∨ p ∈ G.productions := by
  induction h with
  | start => exact Or.inl rfl
  | advance h hX ih => exact ih
  | closure h hX hq ih => exact Or.inr hq

/-- The nonterminals `D` occur only behind one of the symbols `M`, or in one another. -/
def Guarded (G : Grammar ν α) (D : ν → Prop) (M : Symbol ν → Prop) : Prop :=
  ¬ D G.accept.lhs ∧ ∀ p, p = G.accept ∨ p ∈ G.productions → ∀ i n, p.rhs[i]? = some (.nt n) →
    D n → D p.lhs ∨ ∃ j X, i = j + 1 ∧ p.rhs[j]? = some X ∧ M X

/-- What is guarded can be checked one production after the other. -/
theorem guarded_of_forall {D : ν → Prop} {M : Symbol ν → Prop} (haccept : ¬ D G.accept.lhs)
    (h : ∀ p ∈ G.accept :: G.productions, ∀ i < p.rhs.length,
      ∀ n ∈ (p.rhs[i]?).bind Symbol.nonterm, D n →
        D p.lhs ∨ (0 < i ∧ ∃ X ∈ p.rhs[i - 1]?, M X)) : Guarded G D M := by
  refine ⟨haccept, fun p hp i n hn hD => ?_⟩
  obtain ⟨hlt, -⟩ := List.getElem?_eq_some_iff.mp hn
  have hbind : (p.rhs[i]?).bind Symbol.nonterm = some n := by rw [hn]; rfl
  rcases h p (List.mem_cons.mpr hp) i hlt n hbind hD with hp | ⟨hpos, X, hX, hM⟩
  · exact Or.inl hp
  · exact Or.inr ⟨i - 1, X, by omega, hX, hM⟩

/-- **What has been pushed below** an item of a guarded nonterminal. -/
theorem Viable.marked {D : ν → Prop} {M : Symbol ν → Prop} (hD : Guarded G D M)
    {p : Production ν α} {i : ℕ} {γ : List (Symbol ν)} (h : Viable G p i γ) (hp : D p.lhs) :
    ∃ X ∈ γ, M X := by
  induction h with
  | start => exact absurd hp hD.1
  | advance h hX ih =>
    obtain ⟨X, hmem, hM⟩ := ih hp
    exact ⟨X, List.mem_cons_of_mem _ hmem, hM⟩
  | @closure p q i γ h hX hq ih =>
    rcases hD.2 p h.mem i q.lhs hX hp with hp | ⟨j, X, rfl, hm, hM⟩
    · exact ih hp
    · cases h with
      | advance h hX' =>
        rw [hm, Option.some.injEq] at hX'
        exact ⟨X, hX' ▸ List.mem_cons_self, hM⟩

end Viable

/-! ### The parser -/

/-- What the table has for a state and a lookahead. -/
inductive Entry (κ π : Type*) where
  | shift (q : κ)
  | reduce (p : π)
  | error

/-- The tables: the default of a state is for the lookaheads without an entry. -/
structure Tables (κ ν α : Type*) where
  start : κ
  final : κ
  consistent : κ → Bool
  entry : κ → ℕ → Option (Entry κ (Production ν α))
  dflt : κ → Option (Production ν α)
  goto : κ → ν → κ
  shiftError : κ → Option κ

/-- A parser: its tables, the lexer `next` with the value of its last token, and what the
actions do with the values on the stack and the variables. -/
structure Parser (κ ν α L σ V : Type*) extends Tables κ ν α where
  errorToken : ℕ
  maxDepth : ℕ
  next : L → L × ℕ
  lval : L → V
  run : α → List V → σ → σ × V

/-- One level of the stack. -/
structure Frame (κ ν V : Type*) where
  state : κ
  symbol : Symbol ν
  value : V

/-- What a parser works on. -/
structure Conf (κ ν L σ V : Type*) where
  stack : List (Frame κ ν V)
  lookahead : Option ℕ
  errStatus : ℕ
  errors : ℕ
  lex : L
  vars : σ

/-- How a parse ends. -/
inductive Result where
  | accept
  | abort
  | exhausted
  deriving DecidableEq

section Parser

variable {κ ν α L σ V : Type*} (P : Parser κ ν α L σ V)

namespace Parser

/-- The state on top of a stack. -/
def top : List (Frame κ ν V) → κ
  | [] => P.start
  | f :: _ => f.state

/-- The action of a production runs on the values, and its symbol replaces them. -/
def reduce (p : Production ν α) (c : Conf κ ν L σ V) : Conf κ ν L σ V :=
  let out := P.run p.action (c.stack.map (·.value)) c.vars
  let below := c.stack.drop p.rhs.length
  { c with stack := ⟨P.goto (P.top below) p.lhs, .nt p.lhs, out.2⟩ :: below, vars := out.1 }

/-- Levels are popped until `error` can be shifted. -/
def unwind : List (Frame κ ν V) → Option (κ × List (Frame κ ν V))
  | [] => (P.shiftError P.start).map (·, [])
  | f :: below =>
    match P.shiftError f.state with
    | some q => some (q, f :: below)
    | none => unwind below

/-- The `error` token is shifted. -/
def recover (c : Conf κ ν L σ V) : Conf κ ν L σ V × Option Result :=
  match P.unwind c.stack with
  | none => (c, some .abort)
  | some (q, below) =>
    ({ c with stack := ⟨q, .tok P.errorToken, P.lval c.lex⟩ :: below, errStatus := 3 }, none)

/-- A syntax error is reported, unless one was just before; then the lookahead is dropped. -/
def syntaxError (c : Conf κ ν L σ V) : Conf κ ν L σ V × Option Result :=
  if c.errStatus = 0 then P.recover { c with errors := c.errors + 1 }
  else if c.errStatus = 3 then
    if c.lookahead = some 0 then (c, some .abort) else P.recover { c with lookahead := none }
  else P.recover c

def applyDefault (c : Conf κ ν L σ V) : Conf κ ν L σ V × Option Result :=
  match P.dflt (P.top c.stack) with
  | none => P.syntaxError c
  | some p => (P.reduce p c, none)

/-- The lookahead is read, if there is none. -/
def fetch (c : Conf κ ν L σ V) : Conf κ ν L σ V × ℕ :=
  match c.lookahead with
  | some k => (c, k)
  | none => ({ c with lex := (P.next c.lex).1, lookahead := some (P.next c.lex).2 }, (P.next c.lex).2)

/-- **A step of the parser**, and the result if it ends the parse. -/
def step [DecidableEq κ] (c : Conf κ ν L σ V) : Conf κ ν L σ V × Option Result :=
  if P.maxDepth ≤ c.stack.length + 1 then (c, some .exhausted)
  else if P.top c.stack = P.final then (c, some .accept)
  else if P.consistent (P.top c.stack) then P.applyDefault c
  else
    let c := P.fetch c
    match P.entry (P.top c.1.stack) c.2 with
    | none => P.applyDefault c.1
    | some .error => P.syntaxError c.1
    | some (.reduce p) => (P.reduce p c.1, none)
    | some (.shift q) =>
      ({ c.1 with
        stack := ⟨q, .tok c.2, P.lval c.1.lex⟩ :: c.1.stack
        lookahead := none
        errStatus := c.1.errStatus - 1 }, none)

/-- A parse from `c` ends in `d`. -/
inductive Runs [DecidableEq κ] : Conf κ ν L σ V → Conf κ ν L σ V → Result → Prop
  | stop {c d : Conf κ ν L σ V} {r : Result} (h : P.step c = (d, some r)) : Runs c d r
  | step {c c' d : Conf κ ν L σ V} {r : Result} (h : P.step c = (c', none)) (hrest : Runs c' d r) :
      Runs c d r

/-- At most so many steps: the end of the parse, if it is reached. -/
def runUpTo [DecidableEq κ] : ℕ → Conf κ ν L σ V → Option (Conf κ ν L σ V × Result)
  | 0, _ => none
  | n + 1, c =>
    match P.step c with
    | (d, some r) => some (d, r)
    | (d, none) => runUpTo n d

/-- The start of a parse. -/
def init (l : L) (s : σ) : Conf κ ν L σ V := ⟨[], none, 0, 0, l, s⟩

variable {P} [DecidableEq κ] {c d : Conf κ ν L σ V} {r : Result}

theorem Runs.unique (h : P.Runs c d r) {d' : Conf κ ν L σ V} {r' : Result}
    (h' : P.Runs c d' r') : d = d' ∧ r = r' := by
  induction h with
  | stop hstep =>
    cases h' with
    | stop hstep' =>
      rw [hstep, Prod.mk.injEq, Option.some.injEq] at hstep'
      exact hstep'
    | step hstep' _ =>
      rw [hstep] at hstep'
      cases hstep'
  | step hstep _ ih =>
    cases h' with
    | stop hstep' =>
      rw [hstep] at hstep'
      cases hstep'
    | step hstep' hrest =>
      rw [hstep, Prod.mk.injEq] at hstep'
      obtain ⟨rfl, -⟩ := hstep'
      exact ih hrest

theorem runs_of_runUpTo {n : ℕ} (h : P.runUpTo n c = some (d, r)) : P.Runs c d r := by
  induction n generalizing c with
  | zero => cases h
  | succ n ih =>
    rw [runUpTo] at h
    split at h
    case h_1 e r' hstep =>
      rw [Option.some.injEq, Prod.mk.injEq] at h
      obtain ⟨rfl, rfl⟩ := h
      exact .stop hstep
    case h_2 e hstep => exact .step hstep (ih h)

end Parser

/-! ### Sound tables -/

/-- The symbols that lead to a state. -/
inductive Tables.Spelled (G : Grammar ν α) (T : Tables κ ν α) (errorToken : ℕ) :
    List (Symbol ν) → κ → Prop
  | start : Spelled G T errorToken [] T.start
  | shift {γ : List (Symbol ν)} {q q' : κ} {k : ℕ} (h : Spelled G T errorToken γ q)
      (hshift : T.entry q k = some (.shift q')) : Spelled G T errorToken (.tok k :: γ) q'
  | shiftError {γ : List (Symbol ν)} {q q' : κ} (h : Spelled G T errorToken γ q)
      (hshift : T.shiftError q = some q') : Spelled G T errorToken (.tok errorToken :: γ) q'
  | goto {γ : List (Symbol ν)} {q : κ} {n : ν} (h : Spelled G T errorToken γ q)
      {p : Production ν α} {i : ℕ} (hp : Viable G p i γ) (hn : p.rhs[i]? = some (.nt n)) :
      Spelled G T errorToken (.nt n :: γ) (T.goto q n)

/-- **The tables belong to the grammar**: they reduce a production only where its item is valid,
and the last state is behind the whole input. -/
structure Tables.Sound (G : Grammar ν α) (T : Tables κ ν α) (errorToken : ℕ) : Prop where
  entry {γ : List (Symbol ν)} {q : κ} {k : ℕ} {p : Production ν α}
    (h : T.Spelled G errorToken γ q) (hp : T.entry q k = some (.reduce p)) :
    p ∈ G.productions ∧ Viable G p p.rhs.length γ
  dflt {γ : List (Symbol ν)} {q : κ} {p : Production ν α} (h : T.Spelled G errorToken γ q)
    (hp : T.dflt q = some p) : p ∈ G.productions ∧ Viable G p p.rhs.length γ
  final {γ : List (Symbol ν)} (h : T.Spelled G errorToken γ T.final) :
    Viable G G.accept G.accept.rhs.length γ

end Parser

/-! ### Two runs -/

section Rel

variable {κ ν α L σ V : Type*}

/-- How two runs are related: the lexers with the same lookahead, the values of a symbol, and
the variables under the symbols on the stack. -/
structure Rel (ν L σ V : Type*) where
  lex : Option ℕ → L → L → Prop
  value : Symbol ν → V → V → Prop
  vars : List (Symbol ν) → σ → σ → Prop

/-- Two stacks with the same states and symbols. -/
def Rel.Stacks (R : Rel ν L σ V) : List (Frame κ ν V) → List (Frame κ ν V) → Prop :=
  List.Forall₂ fun f g =>
    f.state = g.state ∧ f.symbol = g.symbol ∧ R.value f.symbol f.value g.value

/-- The symbols on a stack. -/
def symbols (stack : List (Frame κ ν V)) : List (Symbol ν) := stack.map (·.symbol)

/-- The lexer and the actions respect the relation. -/
structure Rel.Respected (R : Rel ν L σ V) (G : Grammar ν α) (P : Parser κ ν α L σ V) : Prop where
  next {l m : L} (h : R.lex none l m) : (P.next l).2 = (P.next m).2 ∧
    R.lex (some (P.next l).2) (P.next l).1 (P.next m).1
  drop {k : Option ℕ} {l m : L} (h : R.lex k l m) : R.lex none l m
  lval {k : ℕ} {l m : L} (h : R.lex (some k) l m) : R.value (.tok k) (P.lval l) (P.lval m)
  error (v w : V) : R.value (.tok P.errorToken) v w
  shift {γ : List (Symbol ν)} {k : ℕ} {s t : σ} (h : R.vars γ s t) : R.vars (.tok k :: γ) s t
  pop {γ : List (Symbol ν)} {X : Symbol ν} {s t : σ} (h : R.vars (X :: γ) s t) : R.vars γ s t
  run {p : Production ν α} (hp : p ∈ G.productions) {F H : List (Frame κ ν V)} {s t : σ}
    (hviable : Viable G p p.rhs.length (symbols F)) (hstacks : R.Stacks F H)
    (hvars : R.vars (symbols F) s t) :
    R.value (.nt p.lhs) (P.run p.action (F.map (·.value)) s).2
        (P.run p.action (H.map (·.value)) t).2 ∧
      R.vars (.nt p.lhs :: symbols (F.drop p.rhs.length)) (P.run p.action (F.map (·.value)) s).1
        (P.run p.action (H.map (·.value)) t).1

/-- Two parsers in the same place. -/
structure Rel.Confs (R : Rel ν L σ V) (c d : Conf κ ν L σ V) : Prop where
  stack : R.Stacks c.stack d.stack
  lookahead : c.lookahead = d.lookahead
  errStatus : c.errStatus = d.errStatus
  errors : c.errors = d.errors
  lex : R.lex c.lookahead c.lex d.lex
  vars : R.vars (symbols c.stack) c.vars d.vars

/-- Every level of a stack is spelled by the symbols up to it. -/
def Parser.Spelled (P : Parser κ ν α L σ V) (G : Grammar ν α) (stack : List (Frame κ ν V)) : Prop :=
  ∀ below, below <:+ stack → P.toTables.Spelled G P.errorToken (symbols below) (P.top below)

/-! ### Stacks that are spelled -/

section Spelled

variable {P : Parser κ ν α L σ V} {G : Grammar ν α} {stack : List (Frame κ ν V)}

theorem Parser.Spelled.top (h : P.Spelled G stack) :
    P.toTables.Spelled G P.errorToken (symbols stack) (P.top stack) := h stack List.suffix_rfl

theorem Parser.Spelled.suffix (h : P.Spelled G stack) {below : List (Frame κ ν V)}
    (hin : below <:+ stack) : P.Spelled G below := fun _ hle => h _ (hle.trans hin)

theorem Parser.spelled_nil : P.Spelled G [] := by
  intro below hin
  rw [List.suffix_nil.mp hin]
  exact .start

theorem Parser.Spelled.push (h : P.Spelled G stack) {f : Frame κ ν V}
    (hf : P.toTables.Spelled G P.errorToken (f.symbol :: symbols stack) f.state) :
    P.Spelled G (f :: stack) := by
  intro below hin
  rcases List.suffix_cons_iff.mp hin with rfl | hin
  · exact hf
  · exact h below hin

theorem symbols_drop (n : ℕ) (stack : List (Frame κ ν V)) :
    symbols (stack.drop n) = (symbols stack).drop n := List.map_drop

theorem Parser.Spelled.reduce (h : P.Spelled G stack) {p : Production ν α}
    (hp : p ∈ G.productions) (hviable : Viable G p p.rhs.length (symbols stack)) (v : V) :
    P.Spelled G (⟨P.goto (P.top (stack.drop p.rhs.length)) p.lhs, .nt p.lhs, v⟩ ::
      stack.drop p.rhs.length) := by
  have hbelow := h.suffix (List.drop_suffix p.rhs.length stack)
  obtain ⟨below, hγ, h0⟩ := hviable.all
  have hdrop : symbols (stack.drop p.rhs.length) = below := by
    rw [symbols_drop, hγ, List.drop_left' (by rw [List.length_reverse])]
  rcases h0.expected with ⟨rfl, -⟩ | ⟨q, i, hq, hX⟩
  · exact absurd rfl (G.fresh _ hp)
  · refine hbelow.push (.goto hbelow.top ?_ hX)
    rw [hdrop]
    exact hq

theorem Parser.unwind_eq_some {F : List (Frame κ ν V)} {q : κ}
    (h : P.unwind stack = some (q, F)) : F <:+ stack ∧ P.shiftError (P.top F) = some q := by
  induction stack with
  | nil =>
    obtain ⟨q', hq, heq⟩ := Option.map_eq_some_iff.mp h
    rw [Prod.mk.injEq] at heq
    obtain ⟨rfl, rfl⟩ := heq
    exact ⟨List.suffix_rfl, hq⟩
  | cons f below ih =>
    rw [unwind] at h
    split at h
    case h_1 q' hq =>
      rw [Option.some.injEq, Prod.mk.injEq] at h
      obtain ⟨rfl, rfl⟩ := h
      exact ⟨List.suffix_rfl, hq⟩
    case h_2 =>
      obtain ⟨hin, hq⟩ := ih h
      exact ⟨hin.trans (List.suffix_cons f below), hq⟩

theorem Parser.Spelled.recover {c : Conf κ ν L σ V} (h : P.Spelled G c.stack) :
    P.Spelled G (P.recover c).1.stack := by
  unfold Parser.recover
  split
  case h_1 => exact h
  case h_2 q F hF =>
    obtain ⟨hin, hq⟩ := Parser.unwind_eq_some hF
    exact (h.suffix hin).push (.shiftError (h.suffix hin).top hq)

theorem Parser.Spelled.syntaxError {c : Conf κ ν L σ V} (h : P.Spelled G c.stack) :
    P.Spelled G (P.syntaxError c).1.stack := by
  unfold Parser.syntaxError
  split_ifs
  · exact Parser.Spelled.recover h
  · exact h
  · exact Parser.Spelled.recover h
  · exact h.recover

/-- **What a step does**, once the lookahead is read. -/
inductive Parser.Steps (P : Parser κ ν α L σ V) (G : Grammar ν α) :
    Conf κ ν L σ V → Conf κ ν L σ V × Option Result → Prop
  | exhausted {c : Conf κ ν L σ V} : Steps P G c (c, some .exhausted)
  | accept {c : Conf κ ν L σ V} (h : P.top c.stack = P.final) : Steps P G c (c, some .accept)
  | error {c : Conf κ ν L σ V} : Steps P G c (P.syntaxError c)
  | reduce {c : Conf κ ν L σ V} {p : Production ν α} (hp : p ∈ G.productions)
      (hviable : Viable G p p.rhs.length (symbols c.stack)) : Steps P G c (P.reduce p c, none)
  | shift {c : Conf κ ν L σ V} {k : ℕ} {q : κ} (hk : c.lookahead = some k)
      (hq : P.entry (P.top c.stack) k = some (.shift q)) :
      Steps P G c ({ c with
        stack := ⟨q, .tok k, P.lval c.lex⟩ :: c.stack
        lookahead := none
        errStatus := c.errStatus - 1 }, none)

variable {c : Conf κ ν L σ V}

theorem Parser.steps_applyDefault (hT : P.toTables.Sound G P.errorToken)
    (h : P.Spelled G c.stack) : P.Steps G c (P.applyDefault c) := by
  unfold Parser.applyDefault
  split
  case h_1 => exact .error
  case h_2 p hp =>
    obtain ⟨hmem, hviable⟩ := hT.dflt h.top hp
    exact .reduce hmem hviable

theorem Parser.fetch_spec (c : Conf κ ν L σ V) :
    (P.fetch c).1.stack = c.stack ∧ (P.fetch c).1.lookahead = some (P.fetch c).2 := by
  unfold Parser.fetch
  split
  case h_1 k hk => exact ⟨rfl, hk⟩
  case h_2 => exact ⟨rfl, rfl⟩

variable [DecidableEq κ]

theorem Parser.steps_step (hT : P.toTables.Sound G P.errorToken) (h : P.Spelled G c.stack) :
    ∃ c', (c' = c ∨ c' = (P.fetch c).1) ∧ P.Steps G c' (P.step c) := by
  unfold Parser.step
  split_ifs with hdepth hfinal hconsistent
  · exact ⟨c, Or.inl rfl, .exhausted⟩
  · exact ⟨c, Or.inl rfl, .accept hfinal⟩
  · exact ⟨c, Or.inl rfl, Parser.steps_applyDefault hT h⟩
  · obtain ⟨hstack, hlook⟩ := P.fetch_spec c
    have h' : P.Spelled G (P.fetch c).1.stack := by rwa [hstack]
    refine ⟨(P.fetch c).1, Or.inr rfl, ?_⟩
    simp only
    split
    case h_1 => exact Parser.steps_applyDefault hT h'
    case h_2 => exact .error
    case h_3 p hp =>
      obtain ⟨hmem, hviable⟩ := hT.entry h'.top hp
      exact .reduce hmem hviable
    case h_4 q hq => exact .shift hlook hq

/-- **Every step** keeps the stack spelled. -/
theorem Parser.Spelled.step (hT : P.toTables.Sound G P.errorToken) (h : P.Spelled G c.stack) :
    P.Spelled G (P.step c).1.stack := by
  obtain ⟨c', hc', hs⟩ := Parser.steps_step hT h
  have h' : P.Spelled G c'.stack := by
    rcases hc' with rfl | rfl
    · exact h
    · rwa [(P.fetch_spec c).1]
  generalize P.step c = out at hs
  cases hs with
  | exhausted => exact h'
  | accept => exact h'
  | error => exact Parser.Spelled.syntaxError h'
  | reduce hp hviable => exact h'.reduce hp hviable _
  | shift hk hq => exact h'.push (.shift h'.top hq)

end Spelled

/-! ### Related runs -/

section Related

variable {R : Rel ν L σ V} {G : Grammar ν α} {P : Parser κ ν α L σ V} {c d : Conf κ ν L σ V}

theorem Rel.Stacks.top {F H : List (Frame κ ν V)} (h : R.Stacks F H) : P.top F = P.top H := by
  cases h with
  | nil => rfl
  | cons hf _ => exact hf.1

theorem Rel.Stacks.unwind {F H : List (Frame κ ν V)} (h : R.Stacks F H) :
    (P.unwind F = none ∧ P.unwind H = none) ∨
      ∃ q F' H', P.unwind F = some (q, F') ∧ P.unwind H = some (q, H') ∧ R.Stacks F' H' := by
  induction h with
  | nil =>
    cases hq : P.shiftError P.start with
    | none => exact Or.inl ⟨by simp [Parser.unwind, hq], by simp [Parser.unwind, hq]⟩
    | some q =>
      exact Or.inr ⟨q, [], [], by simp [Parser.unwind, hq], by simp [Parser.unwind, hq], .nil⟩
  | @cons f g F H hf hrest ih =>
    rw [Parser.unwind, Parser.unwind, ← hf.1]
    cases hq : P.shiftError f.state with
    | none => exact ih
    | some q => exact Or.inr ⟨q, f :: F, g :: H, rfl, rfl, .cons hf hrest⟩

theorem Rel.Respected.suffix (hR : R.Respected G P) {γ δ : List (Symbol ν)} {s t : σ}
    (h : R.vars γ s t) (hin : δ <:+ γ) : R.vars δ s t := by
  obtain ⟨popped, rfl⟩ := hin
  induction popped with
  | nil => exact h
  | cons X popped ih => exact ih (hR.pop h)

theorem Rel.Confs.recover (hR : R.Respected G P) (h : R.Confs c d) :
    (P.recover c).2 = (P.recover d).2 ∧ R.Confs (P.recover c).1 (P.recover d).1 := by
  unfold Parser.recover
  rcases h.stack.unwind (P := P) with ⟨hc, hd⟩ | ⟨q, F, H, hc, hd, hFH⟩
  · rw [hc, hd]
    exact ⟨rfl, h⟩
  · rw [hc, hd]
    have hin := (Parser.unwind_eq_some hc).1
    refine ⟨rfl, ?_, h.lookahead, rfl, h.errors, h.lex, ?_⟩
    · exact .cons ⟨rfl, rfl, hR.error _ _⟩ hFH
    · exact hR.shift (hR.suffix h.vars (hin.map _))

theorem Rel.Confs.syntaxError (hR : R.Respected G P) (h : R.Confs c d) :
    (P.syntaxError c).2 = (P.syntaxError d).2 ∧
      R.Confs (P.syntaxError c).1 (P.syntaxError d).1 := by
  unfold Parser.syntaxError
  by_cases h0 : c.errStatus = 0
  · have h0' : d.errStatus = 0 := h.errStatus ▸ h0
    rw [if_pos h0, if_pos h0']
    exact Rel.Confs.recover hR
      ⟨h.stack, h.lookahead, h.errStatus, congrArg (· + 1) h.errors, h.lex, h.vars⟩
  · have h0' : ¬ d.errStatus = 0 := h.errStatus ▸ h0
    rw [if_neg h0, if_neg h0']
    by_cases h3 : c.errStatus = 3
    · have h3' : d.errStatus = 3 := h.errStatus ▸ h3
      rw [if_pos h3, if_pos h3']
      by_cases hk : c.lookahead = some 0
      · rw [if_pos hk, if_pos (h.lookahead ▸ hk)]
        exact ⟨rfl, h⟩
      · rw [if_neg hk, if_neg (h.lookahead ▸ hk)]
        exact Rel.Confs.recover hR
          ⟨h.stack, rfl, h.errStatus, h.errors, hR.drop h.lex, h.vars⟩
    · have h3' : ¬ d.errStatus = 3 := h.errStatus ▸ h3
      rw [if_neg h3, if_neg h3']
      exact h.recover hR

theorem Rel.Confs.reduce (hR : R.Respected G P) (h : R.Confs c d) {p : Production ν α}
    (hp : p ∈ G.productions) (hviable : Viable G p p.rhs.length (symbols c.stack)) :
    R.Confs (P.reduce p c) (P.reduce p d) := by
  obtain ⟨hvalue, hvars⟩ := hR.run hp hviable h.stack h.vars
  have hdrop : R.Stacks (c.stack.drop p.rhs.length) (d.stack.drop p.rhs.length) :=
    List.forall₂_drop _ h.stack
  refine ⟨.cons ⟨?_, rfl, hvalue⟩ hdrop, h.lookahead, h.errStatus, h.errors, h.lex, hvars⟩
  rw [hdrop.top]

theorem Rel.Confs.applyDefault (hR : R.Respected G P) (hT : P.toTables.Sound G P.errorToken)
    (h : R.Confs c d) (hs : P.Spelled G c.stack) :
    (P.applyDefault c).2 = (P.applyDefault d).2 ∧
      R.Confs (P.applyDefault c).1 (P.applyDefault d).1 := by
  unfold Parser.applyDefault
  rw [← h.stack.top]
  cases hp : P.dflt (P.top c.stack) with
  | none => exact h.syntaxError hR
  | some p =>
    obtain ⟨hmem, hviable⟩ := hT.dflt hs.top hp
    exact ⟨rfl, h.reduce hR hmem hviable⟩

theorem Rel.Confs.fetch (hR : R.Respected G P) (h : R.Confs c d) :
    (P.fetch c).2 = (P.fetch d).2 ∧ R.Confs (P.fetch c).1 (P.fetch d).1 := by
  unfold Parser.fetch
  rw [← h.lookahead]
  cases hk : c.lookahead with
  | some k => exact ⟨rfl, h⟩
  | none =>
    have hlex := h.lex
    rw [hk] at hlex
    obtain ⟨hsame, hnext⟩ := hR.next hlex
    exact ⟨hsame, h.stack, congrArg some hsame, h.errStatus, h.errors, hnext, h.vars⟩

variable [DecidableEq κ]

/-- **A step keeps two parsers in the same place.** -/
theorem Rel.Confs.step (hR : R.Respected G P) (hT : P.toTables.Sound G P.errorToken)
    (h : R.Confs c d) (hs : P.Spelled G c.stack) :
    (P.step c).2 = (P.step d).2 ∧ R.Confs (P.step c).1 (P.step d).1 := by
  unfold Parser.step
  rw [← h.stack.length_eq, ← h.stack.top]
  split_ifs
  · exact ⟨rfl, h⟩
  · exact ⟨rfl, h⟩
  · exact h.applyDefault hR hT hs
  · obtain ⟨hsame, hfetch⟩ := h.fetch hR
    obtain ⟨hstack, hlook⟩ := P.fetch_spec c
    have hs' : P.Spelled G (P.fetch c).1.stack := by rwa [hstack]
    simp only
    rw [← hsame, ← hfetch.stack.top]
    cases hentry : P.entry (P.top (P.fetch c).1.stack) (P.fetch c).2 with
    | none => exact hfetch.applyDefault hR hT hs'
    | some entry =>
      cases entry with
      | error => exact hfetch.syntaxError hR
      | reduce p =>
        obtain ⟨hmem, hviable⟩ := hT.entry hs'.top hentry
        exact ⟨rfl, hfetch.reduce hR hmem hviable⟩
      | shift q =>
        have hlex := hfetch.lex
        rw [hlook] at hlex
        refine ⟨rfl, .cons ⟨rfl, rfl, hR.lval hlex⟩ hfetch.stack, rfl, ?_, hfetch.errors,
          hR.drop hlex, hR.shift hfetch.vars⟩
        exact congrArg (· - 1) hfetch.errStatus

/-- **Two runs end alike** if they start in the same place. -/
theorem Rel.Confs.runs (hR : R.Respected G P) (hT : P.toTables.Sound G P.errorToken)
    (h : R.Confs c d) (hs : P.Spelled G c.stack) {c' : Conf κ ν L σ V} {r : Result}
    (hrun : P.Runs c c' r) : ∃ d', P.Runs d d' r ∧ R.Confs c' d' := by
  induction hrun generalizing d with
  | @stop c c' r hstep =>
    obtain ⟨hsame, hnext⟩ := h.step hR hT hs
    rw [hstep] at hsame hnext
    exact ⟨(P.step d).1, .stop (Prod.ext rfl hsame.symm), hnext⟩
  | @step c mid c' r hstep _ ih =>
    obtain ⟨hsame, hnext⟩ := h.step hR hT hs
    have hs' := hs.step hT
    rw [hstep] at hsame hnext hs'
    obtain ⟨d', hrun, hconfs⟩ := ih hnext hs'
    exact ⟨d', .step (Prod.ext rfl hsame.symm) hrun, hconfs⟩

end Related

end Rel

end TaskjugglerLsp.Lib.Lr
