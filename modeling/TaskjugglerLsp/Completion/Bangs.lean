import TaskjugglerLsp.Completion.Declarations
import TaskjugglerLsp.Grammar.Tokens

/-!
# Bangs before the cursor

`bang_prefix` has room for the bangs that are counted unless the tasks of a dependency are completed
behind 64 of them (`bang_prefix_fits_iff`).
-/

namespace TaskjugglerLsp

open Lib

/-! ### The count -/

/-- The tokens that start at the cursor or before it, without the comments. -/
def tokensBefore (tokens : List TokenSpan) (cursor : LspPos) : List TokenSpan :=
  (tokensUpTo tokens cursor).filter fun t => !t.isComment

/-- The tokens end in so many bangs, and perhaps an identifier behind them. -/
def EndsInBangs (n : ℕ) (tokens : List TokenSpan) : Prop :=
  ∃ front run tail, tokens = front ++ run ++ tail ∧ run.length = n ∧
    (∀ t ∈ run, t.tokenKind = tkBang) ∧ (tail = [] ∨ ∃ t, tail = [t] ∧ t.tokenKind = tkIdent)

theorem le_length_takeWhile_iff {α : Type*} {p : α → Bool} {l : List α} {n : ℕ} :
    n ≤ (l.takeWhile p).length ↔ ∃ run rest, l = run ++ rest ∧ run.length = n ∧ ∀ x ∈ run, p x := by
  constructor
  · intro h
    refine ⟨(l.takeWhile p).take n, (l.takeWhile p).drop n ++ l.dropWhile p, ?_,
      List.length_take_of_le h, fun x hx => List.mem_takeWhile_imp (List.mem_of_mem_take hx)⟩
    rw [← List.append_assoc, List.take_append_drop, List.takeWhile_append_dropWhile]
  · rintro ⟨run, rest, rfl, rfl, hrun⟩
    rw [List.takeWhile_append_of_pos hrun, List.length_append]
    exact Nat.le_add_right _ _

/-- The tokens behind an identifier, if they start with one. -/
def behindIdent : List TokenSpan → List TokenSpan
  | [] => []
  | t :: rest => if t.tokenKind = tkIdent then rest else t :: rest

theorem le_countLeadingBangs_iff {tokens : List TokenSpan} {cursor : LspPos} {n : ℕ} (hn : 0 < n) :
    n ≤ (countLeadingBangs tokens cursor).1 ↔ EndsInBangs n (tokensBefore tokens cursor) := by
  have hcount : (countLeadingBangs tokens cursor).1 =
      ((behindIdent (tokensBefore tokens cursor).reverse).takeWhile
      fun (t : TokenSpan) => t.tokenKind == tkBang).length := rfl
  rw [hcount]
  generalize tokensBefore tokens cursor = ts
  induction ts using List.reverseRecOn with
  | nil =>
    rw [List.reverse_nil, behindIdent, List.takeWhile_nil, List.length_nil]
    refine ⟨fun h => absurd h (by omega), ?_⟩
    rintro ⟨front, run, tail, heq, hlen, -⟩
    have := congrArg List.length heq
    simp only [List.length_nil, List.length_append] at this
    omega
  | append_singleton ts t =>
    rw [List.reverse_append, List.reverse_singleton, List.singleton_append, behindIdent,
      le_length_takeWhile_iff]
    constructor
    · rintro ⟨run, rest, heq, hlen, hrun⟩
      have hbangs : ∀ x ∈ run.reverse, x.tokenKind = tkBang :=
        fun x hx => eq_of_beq (hrun x (List.mem_reverse.mp hx))
      split_ifs at heq with hident
      · refine ⟨rest.reverse, run.reverse, [t], ?_, by simpa using hlen, hbangs,
          Or.inr ⟨t, rfl, hident⟩⟩
        rw [← List.reverse_append, ← heq, List.reverse_reverse]
      · refine ⟨rest.reverse, run.reverse, [], ?_, by simpa using hlen, hbangs, Or.inl rfl⟩
        rw [List.append_nil, ← List.reverse_append, ← heq, List.reverse_cons, List.reverse_reverse]
    · rintro ⟨front, run, tail, heq, hlen, hrun, htail⟩
      have hbangs : ∀ x ∈ run.reverse, (x.tokenKind == tkBang) = true :=
        fun x hx => beq_iff_eq.mpr (hrun x (List.mem_reverse.mp hx))
      refine ⟨run.reverse, front.reverse, ?_, by simpa using hlen, hbangs⟩
      rcases htail with rfl | ⟨u, rfl, hident⟩
      · -- the last token is one of the bangs
        obtain ⟨run, last, rfl⟩ : ∃ run' last, run = run' ++ [last] := by
          rcases List.eq_nil_or_concat run with rfl | ⟨run', last, h⟩
          · exact absurd hlen (by simp; omega)
          · exact ⟨run', last, by rw [h, List.concat_eq_append]⟩
        rw [List.append_nil, ← List.append_assoc] at heq
        obtain ⟨rfl, hlast⟩ := List.append_inj' heq rfl
        obtain rfl := List.singleton_inj.mp hlast
        have hkind := hrun t (by simp)
        rw [if_neg (by rw [hkind]; decide)]
        simp
      · obtain ⟨rfl, hlast⟩ := List.append_inj' heq rfl
        obtain rfl := List.singleton_inj.mp hlast
        rw [if_pos hident, List.reverse_append]

/-! ### The buffer -/

/-- Tasks are completed at the cursor: it is in the arguments of `depends` or `precedes`, and not on
the identifier that begins a line. -/
def CompletesTasks (tokens : List TokenSpan) (cursor : LspPos) : Prop :=
  (∃ word ∈ ["depends", "precedes"], (activeContext tokens cursor).map (·.1) = some (cstr word)) ∧
    (partialWord tokens cursor = [] ∨ lineFirstWord tokens cursor ≠ some (partialWord tokens cursor))

theorem idKindForKeyword_eq_task {keyword : Option CStr} :
    idKindForKeyword keyword = some kwTask ↔
      ∃ word ∈ ["depends", "precedes"], keyword = some (cstr word) := by
  have hother : kwResource ≠ kwTask ∧ kwAccount ≠ kwTask := by decide
  cases keyword with
  | none => simp [idKindForKeyword]
  | some word =>
    simp only [idKindForKeyword, Option.bind_eq_bind, Option.bind_some]
    split_ifs with htask hresource haccount
    · simpa using htask
    · simpa [hother.1] using htask
    · simpa [hother.2] using htask
    · simpa using htask

theorem offeredKind_eq_task {tokens : List TokenSpan} {cursor : LspPos} :
    offeredKind tokens cursor = some kwTask ↔ CompletesTasks tokens cursor := by
  unfold offeredKind CompletesTasks
  dsimp only
  rw [← idKindForKeyword_eq_task]
  split_ifs with h
  · rcases h with hnone | hword | hne
    · simp [hnone]
    · simp [hword]
    · simp [hne]
  · push Not at h
    simp [h.2.1, h.2.2]

theorem buildIdCompletions_eq_none {root : TjNode} {extra : List TjNode} {tokens : List TokenSpan}
    {owners : List (Option (List ℕ))} {cursor : LspPos} {idKind : ℕ} :
    buildIdCompletions root extra tokens owners cursor idKind = none ↔
      idKind = kwTask ∧ EndsInBangs 64 (tokensBefore tokens cursor) := by
  rw [← le_countLeadingBangs_iff (by decide)]
  unfold buildIdCompletions buildDepCompletions
  dsimp only
  split_ifs with htask hmany
  · exact iff_of_true rfl ⟨htask, hmany⟩
  · exact iff_of_false nofun fun h => hmany h.2
  · exact iff_of_false nofun fun h => htask h.1

/-- **The bangs fit their buffer**, in every text, unless the cursor is in the arguments of a
dependency, behind 64 of them, and in no string. -/
theorem bang_prefix_fits_iff {input : CStr} {s : LexState} (h : LexReached input s) (root : TjNode)
    (extra : List TjNode) (owners : List (Option (List ℕ))) (cursor : LspPos) (text : CStr) :
    (buildCompletionsJson root extra s.vars.tokSpans owners cursor text).isSome ↔
      cursorInDquote text cursor s.vars.tokSpans = true ∨
        cursorInScissors text cursor s.vars.tokSpans = true ∨
        ¬ CompletesTasks s.vars.tokSpans cursor ∨
        ¬ EndsInBangs 64 (tokensBefore s.vars.tokSpans cursor) := by
  unfold buildCompletionsJson
  rw [isDeclKeyword_lineFirstWord h]
  by_cases hsuppressed : (cursorInDquote text cursor s.vars.tokSpans ||
    cursorInScissors text cursor s.vars.tokSpans) = true
  · rw [if_pos hsuppressed]
    rw [Bool.or_eq_true] at hsuppressed
    exact iff_of_true rfl (hsuppressed.elim Or.inl fun h => Or.inr (Or.inl h))
  · rw [if_neg hsuppressed, if_neg Bool.false_ne_true]
    rw [Bool.or_eq_true, not_or] at hsuppressed
    rw [or_iff_right hsuppressed.1, or_iff_right hsuppressed.2, ← not_and_or,
      ← offeredKind_eq_task]
    cases offeredKind s.vars.tokSpans cursor with
    | none => exact iff_of_true rfl fun h => nomatch h.1
    | some idKind =>
      dsimp only
      rw [Option.isSome_map, ← Option.ne_none_iff_isSome, ne_eq, buildIdCompletions_eq_none,
        Option.some.injEq]

/-- A reference with 64 bangs. -/
def manyBangs : CStr := cstr "task a \"\" \x7b depends " ++ bangs 64 ++ cstr "b \x7d"

theorem manyBangs_parse : (treeUpTo coreTables 400 .boot manyBangs).map (fun x =>
    (buildCompletionsJson x.1.root [] x.1.tokSpans x.1.owners ⟨0, 83⟩ manyBangs).isSome)
      = some false := by
  decide +kernel

/-- What the theorem says of it. -/
theorem bang_prefix_fits_many : ∃ doc t out, ParsesTo coreTables .boot manyBangs doc t out ∧
    ((buildCompletionsJson out.root [] out.tokSpans out.owners ⟨0, 83⟩ manyBangs).isSome ↔
      cursorInDquote manyBangs ⟨0, 83⟩ out.tokSpans = true ∨
        cursorInScissors manyBangs ⟨0, 83⟩ out.tokSpans = true ∨
        ¬ CompletesTasks out.tokSpans ⟨0, 83⟩ ∨
        ¬ EndsInBangs 64 (tokensBefore out.tokSpans ⟨0, 83⟩)) := by
  obtain ⟨doc, t, out, hparse, -⟩ := exists_parsesTo manyBangs_parse
  obtain ⟨input, -, hreached, htokens⟩ := hparse.reached coreTables_sound .boot
  refine ⟨doc, t, out, hparse, ?_⟩
  rw [htokens]
  exact bang_prefix_fits_iff hreached out.root [] out.owners ⟨0, 83⟩ manyBangs

/-- **They do not fit** behind such a reference. -/
theorem bang_prefix_overflow : ¬ ∀ (s t : ProgState) (text : CStr) (r : Lib.Lr.Result) (errors : ℕ)
    (out : ParseResult), Parses coreTables s text r errors t out → ∀ extra cursor,
      (buildCompletionsJson out.root extra out.tokSpans out.owners cursor text).isSome := by
  intro h
  obtain ⟨doc, t, out, hparse, heq⟩ := exists_parsesTo manyBangs_parse
  have hfits := h .boot t manyBangs .accept 0 out (hparse.parses coreTables_sound) [] ⟨0, 83⟩
  rw [heq] at hfits
  cases hfits

end TaskjugglerLsp
