import Mathlib.Data.List.Basic
import Mathlib.Logic.Relation

/-!
# Scanners

What a scanner generator makes of a list of rules: in each start condition the rule with
the longest match is taken, the first one of several, and its action runs.  Where no
rule matches, the default rule takes one element; at the end of the input, the end rule
of the start condition runs.

* `longestMatch_eq_some`, `longestMatch_eq_none_iff`: what a longest match is.
* `Scanner.steps_step`: what one match can do.
* `Scanner.next_spec`: a call runs matches until one of them returns a token, and it
  always does.
-/

namespace TaskjugglerLsp.Lib

/-! ### Patterns -/

/-- A pattern is the set of the texts that it matches. -/
abbrev Pattern (α : Type*) := List α → Bool

namespace Pattern

variable {α : Type*}

/-- One text. -/
def lit [BEq α] (w : List α) : Pattern α := fun xs => xs == w

/-- One element of a class. -/
def one (p : α → Bool) : Pattern α := fun xs => xs.length == 1 && xs.all p

/-- Any number of elements of a class. -/
def many (p : α → Bool) : Pattern α := fun xs => xs.all p

/-- One or more elements of a class. -/
def many1 (p : α → Bool) : Pattern α := fun xs => !xs.isEmpty && xs.all p

/-- So many elements of a class. -/
def rep (n : ℕ) (p : α → Bool) : Pattern α := fun xs => xs.length == n && xs.all p

/-- One pattern after the other. -/
def seq (P Q : Pattern α) : Pattern α := fun xs =>
  (List.range (xs.length + 1)).any fun i => P (xs.take i) && Q (xs.drop i)

/-- Some patterns, one after the other. -/
def seqs (Ps : List (Pattern α)) : Pattern α := Ps.foldr seq List.isEmpty

/-- A pattern or nothing. -/
def opt (P : Pattern α) : Pattern α := fun xs => xs.isEmpty || P xs

/-- One of some patterns. -/
def alts (Ps : List (Pattern α)) : Pattern α := fun xs => Ps.any fun P => P xs

theorem seq_eq_true {P Q : Pattern α} {xs : List α} :
    seq P Q xs = true ↔ ∃ ys zs, xs = ys ++ zs ∧ P ys = true ∧ Q zs = true := by
  simp only [seq, List.any_eq_true, List.mem_range, Bool.and_eq_true]
  constructor
  · rintro ⟨i, -, hP, hQ⟩
    exact ⟨_, _, (List.take_append_drop i xs).symm, hP, hQ⟩
  · rintro ⟨ys, zs, rfl, hP, hQ⟩
    refine ⟨ys.length, by rw [List.length_append]; omega, ?_, ?_⟩
    · rwa [List.take_left]
    · rwa [List.drop_left]

/-- The pattern matches only texts over a class. -/
def Over (p : α → Bool) (P : Pattern α) : Prop := ∀ xs, P xs = true → ∀ a ∈ xs, p a = true

section Over

variable {p q : α → Bool} {P Q : Pattern α}

theorem Over.mono (hP : Over q P) (h : ∀ a, q a = true → p a = true) : Over p P :=
  fun xs hxs a ha => h a (hP xs hxs a ha)

theorem over_lit [BEq α] [LawfulBEq α] {w : List α} (h : ∀ a ∈ w, p a = true) :
    Over p (lit w) := by
  intro xs hxs
  rw [eq_of_beq hxs]
  exact h

theorem over_many (h : ∀ a, q a = true → p a = true) : Over p (many q) :=
  fun _ hxs a ha => h a (List.all_eq_true.mp hxs a ha)

theorem over_one (h : ∀ a, q a = true → p a = true) : Over p (one q) :=
  fun xs hxs => over_many h xs (Bool.and_eq_true_iff.mp hxs).2

theorem over_many1 (h : ∀ a, q a = true → p a = true) : Over p (many1 q) :=
  fun xs hxs => over_many h xs (Bool.and_eq_true_iff.mp hxs).2

theorem over_rep {n : ℕ} (h : ∀ a, q a = true → p a = true) : Over p (rep n q) :=
  fun xs hxs => over_many h xs (Bool.and_eq_true_iff.mp hxs).2

theorem over_seq (hP : Over p P) (hQ : Over p Q) : Over p (seq P Q) := by
  intro xs hxs a ha
  obtain ⟨ys, zs, rfl, hys, hzs⟩ := seq_eq_true.mp hxs
  rcases List.mem_append.mp ha with ha | ha
  · exact hP ys hys a ha
  · exact hQ zs hzs a ha

theorem over_seqs {Ps : List (Pattern α)} (h : ∀ P ∈ Ps, Over p P) : Over p (seqs Ps) := by
  induction Ps with
  | nil =>
    intro xs hxs a ha
    rw [List.isEmpty_iff.mp hxs] at ha
    cases ha
  | cons P Ps ih =>
    exact over_seq (h P List.mem_cons_self) (ih fun Q hQ => h Q (List.mem_cons_of_mem P hQ))

theorem over_opt (hP : Over p P) : Over p (opt P) := by
  intro xs hxs a ha
  rcases Bool.or_eq_true_iff.mp hxs with hnil | hP'
  · rw [List.isEmpty_iff.mp hnil] at ha
    cases ha
  · exact hP xs hP' a ha

theorem over_alts {Ps : List (Pattern α)} (h : ∀ P ∈ Ps, Over p P) : Over p (alts Ps) := by
  intro xs hxs
  obtain ⟨P, hP, hPxs⟩ := List.any_eq_true.mp hxs
  exact h P hP xs hPxs

end Over

/-- The pattern matches only texts that begin in a class. -/
def Begins (p : α → Bool) (P : Pattern α) : Prop := ∀ a rest, P (a :: rest) = true → p a = true

section Begins

variable {p : α → Bool} {P Q : Pattern α}

theorem begins_of_over (h : Over p P) : Begins p P := fun a _ hP => h _ hP a List.mem_cons_self

theorem begins_opt (h : Begins p P) : Begins p (opt P) := by
  intro a rest hP
  rcases Bool.or_eq_true_iff.mp hP with hnil | hP
  · cases hnil
  · exact h a rest hP

theorem begins_seq (hP : Begins p P) (hQ : P [] = true → Begins p Q) : Begins p (seq P Q) := by
  intro a rest h
  obtain ⟨ys, zs, heq, hys, hzs⟩ := seq_eq_true.mp h
  cases ys with
  | nil =>
    rw [List.nil_append] at heq
    exact hQ hys a rest (heq ▸ hzs)
  | cons b ys =>
    rw [List.cons_append, List.cons.injEq] at heq
    exact heq.1 ▸ hP b ys hys

end Begins

end Pattern

/-! ### Longest matches -/

/-- A rule: a pattern and what to do with a match. -/
structure Rule (α β : Type*) where
  pattern : Pattern α
  action : β

section Longest

variable {α β : Type*} {rules : List (Rule α β)} {input : List α}

/-- The longest match of at most `n` elements: the rule and the length. -/
def longestUpTo (rules : List (Rule α β)) (input : List α) : ℕ → Option (Rule α β × ℕ)
  | 0 => none
  | n + 1 =>
    match rules.find? (·.pattern (input.take (n + 1))) with
    | some r => some (r, n + 1)
    | none => longestUpTo rules input n

/-- The longest match at the beginning of a text. -/
def longestMatch (rules : List (Rule α β)) (input : List α) : Option (Rule α β × ℕ) :=
  longestUpTo rules input input.length

/-- `text` is the longest match of the rules at the beginning of `text ++ rest`, and `r` the
first rule that has it. -/
structure IsLongest (rules : List (Rule α β)) (r : Rule α β) (text rest : List α) : Prop where
  ne_nil : text ≠ []
  first : rules.find? (·.pattern text) = some r
  longest : ∀ more, more ≠ [] → more <+: rest → rules.find? (·.pattern (text ++ more)) = none

theorem IsLongest.mem {r : Rule α β} {text rest : List α} (h : IsLongest rules r text rest) :
    r ∈ rules := List.mem_of_find?_eq_some h.first

theorem IsLongest.matches {r : Rule α β} {text rest : List α} (h : IsLongest rules r text rest) :
    r.pattern text = true := by
  have hfound := h.first
  rw [List.find?_eq_some_iff_append] at hfound
  exact hfound.1

theorem longestUpTo_eq_some {r : Rule α β} {n k : ℕ}
    (h : longestUpTo rules input n = some (r, k)) :
    0 < k ∧ k ≤ n ∧ rules.find? (·.pattern (input.take k)) = some r ∧
      ∀ m, k < m → m ≤ n → rules.find? (·.pattern (input.take m)) = none := by
  induction n with
  | zero => cases h
  | succ n ih =>
    rw [longestUpTo] at h
    split at h
    case h_1 r' hr' =>
      rw [Option.some.injEq, Prod.mk.injEq] at h
      obtain ⟨rfl, rfl⟩ := h
      exact ⟨Nat.succ_pos n, Nat.le_refl _, hr', fun m hm hle => absurd hle (by omega)⟩
    case h_2 hnone =>
      obtain ⟨hpos, hle, hfirst, hlongest⟩ := ih h
      refine ⟨hpos, by omega, hfirst, fun m hm hle' => ?_⟩
      rcases Nat.lt_or_ge n m with hlt | hge
      · obtain rfl : m = n + 1 := by omega
        exact hnone
      · exact hlongest m hm hge

theorem longestUpTo_eq_none {n : ℕ} (h : longestUpTo rules input n = none) :
    ∀ m, 0 < m → m ≤ n → rules.find? (·.pattern (input.take m)) = none := by
  induction n with
  | zero => exact fun m hpos hle => absurd hle (by omega)
  | succ n ih =>
    rw [longestUpTo] at h
    split at h
    case h_1 => cases h
    case h_2 hnone =>
      intro m hpos hle
      rcases Nat.lt_or_ge n m with hlt | hge
      · obtain rfl : m = n + 1 := by omega
        exact hnone
      · exact ih h m hpos hge

/-- **A longest match** is one. -/
theorem longestMatch_eq_some {r : Rule α β} {k : ℕ} (h : longestMatch rules input = some (r, k)) :
    k ≤ input.length ∧ IsLongest rules r (input.take k) (input.drop k) := by
  obtain ⟨hpos, hle, hfirst, hlongest⟩ := longestUpTo_eq_some h
  refine ⟨hle, ?_, hfirst, fun more hne hmore => ?_⟩
  · intro hnil
    have hlen := congrArg List.length hnil
    rw [List.length_take, List.length_nil] at hlen
    omega
  · have hpos' := List.length_pos_iff.mpr hne
    have hle' := hmore.length_le
    rw [List.length_drop] at hle'
    have htake : input.take k ++ more = input.take (k + more.length) := by
      rw [List.take_add, ← List.prefix_iff_eq_take.mp hmore]
    rw [htake]
    exact hlongest _ (by omega) (by omega)

theorem longestUpTo_of_longest {r : Rule α β} {n k : ℕ} (hpos : 0 < k) (hle : k ≤ n)
    (hfirst : rules.find? (·.pattern (input.take k)) = some r)
    (hlongest : ∀ m, k < m → m ≤ n → rules.find? (·.pattern (input.take m)) = none) :
    longestUpTo rules input n = some (r, k) := by
  induction n with
  | zero => omega
  | succ n ih =>
    rw [longestUpTo]
    rcases Nat.lt_or_ge n k with hlt | hge
    · obtain rfl : k = n + 1 := by omega
      rw [hfirst]
    · rw [hlongest (n + 1) (by omega) (Nat.le_refl _)]
      exact ih hge fun m hm hle' => hlongest m hm (by omega)

theorem IsLongest.longestMatch {r : Rule α β} {text rest : List α}
    (h : IsLongest rules r text rest) :
    Lib.longestMatch rules (text ++ rest) = some (r, text.length) := by
  refine longestUpTo_of_longest (List.length_pos_iff.mpr h.ne_nil) ?_ ?_ ?_
  · rw [List.length_append]
    omega
  · rw [List.take_left]
    exact h.first
  · intro m hm hle
    obtain ⟨k, rfl⟩ := Nat.exists_eq_add_of_lt hm
    rw [List.length_append] at hle
    rw [Nat.add_assoc, List.take_length_add_append]
    refine h.longest _ ?_ (List.take_prefix _ _)
    rw [Ne, List.take_eq_nil_iff]
    rintro (hk | hnil)
    · omega
    · rw [hnil, List.length_nil] at hle
      omega

/-- **There is no match** if no rule matches a beginning of the text. -/
theorem longestMatch_eq_none_iff :
    longestMatch rules input = none ↔
      ∀ text, text ≠ [] → text <+: input → ∀ r ∈ rules, r.pattern text = false := by
  constructor
  · intro h text hne htext r hr
    have hnone := longestUpTo_eq_none h text.length (List.length_pos_iff.mpr hne) htext.length_le
    rw [← List.prefix_iff_eq_take.mp htext, List.find?_eq_none] at hnone
    exact Bool.eq_false_iff.mpr (hnone r hr)
  · intro h
    cases hm : longestMatch rules input with
    | none => rfl
    | some found =>
      obtain ⟨r, k⟩ := found
      obtain ⟨-, hlongest⟩ := longestMatch_eq_some hm
      have hfalse := h _ hlongest.ne_nil (List.take_prefix k input) r hlongest.mem
      rw [hlongest.matches] at hfalse
      cases hfalse

end Longest

/-! ### Scanners -/

/-- A scanner: the rules of each start condition, what an action does with its match, the
default rule, and the end rules.  `σ` are the variables of the actions, `τ` the tokens. -/
structure Scanner (α κ β σ τ : Type*) where
  rules : κ → List (Rule α β)
  act : κ → σ → β → List α → (κ × σ) × Option τ
  echo : σ → List α → σ
  eof : κ → σ → (κ × σ) × τ

/-- The state of a scanner: the start condition, the variables, and the rest of the input. -/
structure Scan (α κ σ : Type*) where
  cond : κ
  vars : σ
  rest : List α

namespace Scanner

variable {α κ β σ τ : Type*} (S : Scanner α κ β σ τ)

/-- One match: the state after it, and the token if its action returns one. -/
def step (c : Scan α κ σ) : Scan α κ σ × Option τ :=
  match c.rest with
  | [] =>
    let out := S.eof c.cond c.vars
    (⟨out.1.1, out.1.2, []⟩, some out.2)
  | a :: rest =>
    match longestMatch (S.rules c.cond) (a :: rest) with
    | some (r, n) =>
      let out := S.act c.cond c.vars r.action ((a :: rest).take n)
      (⟨out.1.1, out.1.2, (a :: rest).drop n⟩, out.2)
    | none => (⟨c.cond, S.echo c.vars [a], rest⟩, none)

/-- At most so many matches, up to a token. -/
def nextUpTo : ℕ → Scan α κ σ → Scan α κ σ × Option τ
  | 0, c => (c, none)
  | n + 1, c =>
    match S.step c with
    | (c, some t) => (c, some t)
    | (c, none) => nextUpTo n c

/-- A call: matches up to a token. -/
def next (c : Scan α κ σ) : Scan α κ σ × Option τ := S.nextUpTo (c.rest.length + 1) c

/-- **What one match can do**: run the end rule, a rule with the longest match, or the
default rule. -/
inductive Steps (c : Scan α κ σ) : Scan α κ σ × Option τ → Prop
  | eof {k : κ} {s : σ} {t : τ} (hrest : c.rest = []) (h : S.eof c.cond c.vars = ((k, s), t)) :
      Steps c (⟨k, s, []⟩, some t)
  | rule {r : Rule α β} {text rest : List α} {k : κ} {s : σ} {t : Option τ}
      (hrest : c.rest = text ++ rest) (hlongest : IsLongest (S.rules c.cond) r text rest)
      (h : S.act c.cond c.vars r.action text = ((k, s), t)) : Steps c (⟨k, s, rest⟩, t)
  | echo {a : α} {rest : List α} (hrest : c.rest = a :: rest)
      (hnone : longestMatch (S.rules c.cond) c.rest = none) :
      Steps c (⟨c.cond, S.echo c.vars [a], rest⟩, none)

theorem steps_step (c : Scan α κ σ) : S.Steps c (S.step c) := by
  unfold step
  split
  case h_1 hrest => exact .eof hrest rfl
  case h_2 a rest hrest =>
    split
    case h_1 r n hm =>
      obtain ⟨-, hlongest⟩ := longestMatch_eq_some hm
      exact .rule (by rw [hrest, List.take_append_drop]) hlongest rfl
    case h_2 hnone => exact .echo hrest (hrest ▸ hnone)

theorem step_of_isLongest {c : Scan α κ σ} {r : Rule α β} {text rest : List α}
    (hrest : c.rest = text ++ rest) (h : IsLongest (S.rules c.cond) r text rest) :
    S.step c = (⟨(S.act c.cond c.vars r.action text).1.1, (S.act c.cond c.vars r.action text).1.2,
      rest⟩, (S.act c.cond c.vars r.action text).2) := by
  have hm := h.longestMatch
  obtain ⟨a, more, hmore⟩ := List.exists_cons_of_ne_nil (List.append_ne_nil_of_left_ne_nil h.ne_nil
    rest)
  unfold step
  rw [hrest, hmore]
  simp only
  rw [← hmore, hm]
  simp only [List.take_left, List.drop_left]

variable {S}

/-- Without a token, a match takes something of the input. -/
theorem length_step {c : Scan α κ σ} (h : (S.step c).2 = none) :
    (S.step c).1.rest.length < c.rest.length := by
  obtain ⟨out, hout⟩ : ∃ out, S.step c = out := ⟨_, rfl⟩
  have hs := S.steps_step c
  rw [hout] at hs h ⊢
  cases hs with
  | eof => cases h
  | rule hrest hlongest =>
    have := List.length_pos_iff.mpr hlongest.ne_nil
    simp only [hrest, List.length_append]
    omega
  | echo hrest => simp [hrest]

/-- A state that some matches without a token lead to. -/
inductive Silent (S : Scanner α κ β σ τ) : Scan α κ σ → Scan α κ σ → Prop
  | refl (c : Scan α κ σ) : Silent S c c
  | head {c d : Scan α κ σ} (h : (S.step c).2 = none) (hd : Silent S (S.step c).1 d) :
      Silent S c d

theorem nextUpTo_spec {n : ℕ} {c : Scan α κ σ} (h : c.rest.length < n) :
    ∃ d t, Silent S c d ∧ S.step d = ((S.nextUpTo n c).1, some t) ∧
      (S.nextUpTo n c).2 = some t := by
  induction n generalizing c with
  | zero => exact absurd h (Nat.not_lt_zero _)
  | succ n ih =>
    cases hs : S.step c with
    | mk c' t =>
      cases t with
      | some t =>
        rw [nextUpTo, hs]
        exact ⟨c, t, .refl c, hs, rfl⟩
      | none =>
        have hsilent : (S.step c).2 = none := by rw [hs]
        have hlen := length_step hsilent
        rw [hs] at hlen
        obtain ⟨d, t, hd, hstep, ht⟩ := ih (c := c') (by simp only at hlen; omega)
        rw [nextUpTo, hs]
        refine ⟨d, t, .head hsilent ?_, hstep, ht⟩
        rwa [hs]

/-- **A call returns a token**: it runs matches without one, and then one with a token. -/
theorem next_spec (c : Scan α κ σ) :
    ∃ d t, Silent S c d ∧ S.step d = ((S.next c).1, some t) ∧ (S.next c).2 = some t :=
  nextUpTo_spec (Nat.lt_succ_self _)

/-- What each match keeps, matches without a token keep. -/
theorem Silent.invariant {I : Scan α κ σ → Prop} (hstep : ∀ c, I c → I (S.step c).1)
    {c d : Scan α κ σ} (h : Silent S c d) (hI : I c) : I d := by
  induction h with
  | refl => exact hI
  | head _ _ ih => exact ih (hstep _ hI)

/-- **What each match keeps, a call keeps.** -/
theorem next_invariant {I : Scan α κ σ → Prop} (hstep : ∀ c, I c → I (S.step c).1)
    {c : Scan α κ σ} (hI : I c) : I (S.next c).1 := by
  obtain ⟨d, t, hd, hs, -⟩ := S.next_spec c
  have h := hstep d (hd.invariant hstep hI)
  rwa [hs] at h

/-- **Two calls** on related states return the same token. -/
theorem next_related {R : Scan α κ σ → Scan α κ σ → Prop} {Q : τ → Scan α κ σ → Scan α κ σ → Prop}
    (hrest : ∀ {c d}, R c d → c.rest = d.rest)
    (hstep : ∀ {c d}, R c d → (S.step c).2 = (S.step d).2 ∧
      ((S.step c).2 = none → R (S.step c).1 (S.step d).1) ∧
      ∀ t, (S.step c).2 = some t → Q t (S.step c).1 (S.step d).1)
    {c d : Scan α κ σ} (h : R c d) :
    ∃ t, (S.next c).2 = some t ∧ (S.next d).2 = some t ∧ Q t (S.next c).1 (S.next d).1 := by
  have hgo : ∀ n c d, R c d → c.rest.length < n → ∃ t, (S.nextUpTo n c).2 = some t ∧
      (S.nextUpTo n d).2 = some t ∧ Q t (S.nextUpTo n c).1 (S.nextUpTo n d).1 := by
    intro n
    induction n with
    | zero => exact fun c d _ hlen => absurd hlen (Nat.not_lt_zero _)
    | succ n ih =>
      intro c d h hlen
      obtain ⟨hsame, hnone, hsome⟩ := hstep h
      have hshorter := length_step (S := S) (c := c)
      rw [nextUpTo, nextUpTo]
      obtain ⟨⟨c', t⟩, hc⟩ : ∃ out, S.step c = out := ⟨_, rfl⟩
      obtain ⟨⟨d', t'⟩, hd⟩ : ∃ out, S.step d = out := ⟨_, rfl⟩
      rw [hc, hd] at hsame hnone hsome
      rw [hc] at hshorter
      rw [hc, hd]
      obtain rfl : t = t' := hsame
      cases t with
      | some t => exact ⟨t, rfl, rfl, hsome t rfl⟩
      | none =>
        have hlen' := hshorter rfl
        exact ih c' d' (hnone rfl) (by simp only at hlen'; omega)
  have hlen := congrArg List.length (hrest h)
  unfold next
  rw [← hlen]
  exact hgo _ c d h (Nat.lt_succ_self _)

end Scanner

end TaskjugglerLsp.Lib
