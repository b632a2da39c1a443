import TaskjugglerLsp.Grammar.Owners
import TaskjugglerLsp.Hover
import TaskjugglerLsp.Lib.Bisect

/-!
# The token at a position

The bisections of `tok_span_at` and `tj_node_at`, on spans in order.  Two spans may share a
boundary: the later one is the one that is found there.

* `searchToken_bisects`: the search ends, and looks at tokens that are there.
* `position_lookup`: what it finds.
-/

namespace TaskjugglerLsp

open Lib

/-- `pos_in`, the closed range of a span. -/
def TokenSpan.Covers (t : TokenSpan) (pos : LspPos) : Prop :=
  ¬ pos.before t.start ∧ ¬ t.stop.before pos

instance (t : TokenSpan) (pos : LspPos) : Decidable (t.Covers pos) :=
  inferInstanceAs (Decidable (_ ∧ _))

/-- Spans in order that do not overlap; none of them is the end of the file. -/
structure OrderedSpans (spans : List TokenSpan) : Prop where
  real : ∀ t ∈ spans, t.tokenKind ≠ tkEof
  forward : ∀ t ∈ spans, ¬ t.stop.before t.start
  ordered : spans.Pairwise fun t u => ¬ u.start.before t.stop

/-- A token is one of the file and starts at a position or before it. -/
def StartsBy (tokens : List TokenSpan) (pos : LspPos) (i : ℕ) : Prop :=
  ∃ t, tokens[i]? = some t ∧ t.tokenKind ≠ tkEof ∧ ¬ pos.before t.start

/-- **The search ends**, and the tokens that it looks at are there. -/
theorem searchToken_bisects (tokens : List TokenSpan) (pos : LspPos) (rounds : ℕ)
    (lo hi found : ℤ) (hlo : 0 ≤ lo) (hhi : hi < tokens.length) (hrounds : hi - lo + 1 < rounds) :
    ∃ probes, Bisects (StartsBy tokens pos) tokens.length lo hi found probes
      (searchToken tokens pos rounds lo hi found) := by
  induction rounds generalizing lo hi found with
  | zero => exact ⟨[], .done (by omega)⟩
  | succ rounds ih =>
    rw [searchToken]
    by_cases hle : lo ≤ hi
    · rw [if_pos hle]
      obtain ⟨mid, hmid⟩ : ∃ mid : ℕ, (mid : ℤ) = lo + (hi - lo) / 2 :=
        ⟨(lo + (hi - lo) / 2).toNat, by omega⟩
      have hlt : mid < tokens.length := by omega
      simp only [← hmid, Int.toNat_natCast, List.getElem?_eq_getElem hlt]
      have hdown : ¬ StartsBy tokens pos mid → ∃ probes,
          Bisects (StartsBy tokens pos) tokens.length lo hi found probes
            (searchToken tokens pos rounds lo (mid - 1) found) := by
        intro hbad
        obtain ⟨probes, hrun⟩ := ih lo (mid - 1) found hlo (by omega) (by omega)
        exact ⟨mid :: probes, .down hle hmid hlt hbad hrun⟩
      split_ifs with heof hbefore
      · refine hdown ?_
        rintro ⟨t, ht, hreal, -⟩
        rw [List.getElem?_eq_getElem hlt, Option.some.injEq] at ht
        exact hreal (ht ▸ heof)
      · refine hdown ?_
        rintro ⟨t, ht, -, hstart⟩
        rw [List.getElem?_eq_getElem hlt, Option.some.injEq] at ht
        exact hstart (ht ▸ hbefore)
      · obtain ⟨probes, hrun⟩ := ih (mid + 1) hi mid (by omega) hhi (by omega)
        have hgood : StartsBy tokens pos mid :=
          ⟨tokens[mid], List.getElem?_eq_getElem hlt, heof, hbefore⟩
        exact ⟨mid :: probes, .up hle hmid hlt hgood hrun⟩
    · rw [if_neg hle]
      exact ⟨[], .done (not_le.mp hle)⟩

/-! ### Spans in order -/

section Ordered

variable {spans : List TokenSpan} {pos : LspPos}

theorem OrderedSpans.start_le (h : OrderedSpans spans) :
    spans.Pairwise fun t u => t.start.key ≤ u.start.key := by
  refine h.ordered.imp_of_mem ?_
  intro t u ht _ hafter
  have hforward := h.forward t ht
  rw [LspPos.before_iff_key, Nat.not_lt] at hafter hforward
  exact hforward.trans hafter

/-- Before a span that starts at a position or before it and does not cover it, none does. -/
theorem OrderedSpans.not_covers (h : OrderedSpans spans) {t : TokenSpan} {pre post : List TokenSpan}
    (hspans : spans = pre ++ t :: post) (hstart : ¬ pos.before t.start) (hcover : ¬ t.Covers pos)
    {u : TokenSpan} (hu : u ∈ pre) : ¬ u.Covers pos := by
  rintro ⟨-, hustop⟩
  have hpair := h.ordered
  rw [hspans, List.pairwise_append] at hpair
  have hafter := hpair.2.2 u hu t List.mem_cons_self
  have hforward := h.forward t (by rw [hspans]; simp)
  refine hcover ⟨hstart, fun hstop => ?_⟩
  rw [LspPos.before_iff_key] at *
  omega

/-- The last of some spans that starts at a position or before it, by its index. -/
def lastStarting (spans : List TokenSpan) (pos : LspPos) : Option ℕ :=
  (List.range spans.length).reverse.find? fun i => spans[i]?.any fun t => !decide (pos.before t.start)

/-- There is no such span, or the spans behind it start after the position. -/
inductive StartsLast (spans : List TokenSpan) (pos : LspPos) : Option ℕ → Prop
  | none : (∀ t ∈ spans, pos.before t.start) → StartsLast spans pos none
  | some {t : TokenSpan} {pre post : List TokenSpan} : spans = pre ++ t :: post →
      ¬ pos.before t.start → (∀ u ∈ post, pos.before u.start) → StartsLast spans pos (some pre.length)

theorem StartsLast.eq_lastStarting {o : Option ℕ} (h : StartsLast spans pos o) :
    lastStarting spans pos = o := by
  unfold lastStarting
  cases h with
  | none hall =>
    rw [List.find?_eq_none]
    intro i hi
    rw [List.mem_reverse, List.mem_range] at hi
    rw [List.getElem?_eq_getElem hi]
    simpa using hall _ (List.getElem_mem hi)
  | @some t pre post hspans hstart hpost =>
    subst hspans
    have hsplit : List.range (pre ++ t :: post).length
        = List.range pre.length ++ pre.length :: (List.range post.length).map (pre.length + 1 + ·) := by
      rw [List.length_append, List.length_cons, Nat.add_comm post.length, ← Nat.add_assoc,
        List.range_add, List.range_succ, List.append_assoc, List.singleton_append]
    have hnone : (((List.range post.length).map (pre.length + 1 + ·)).reverse.find? fun i =>
        (pre ++ t :: post)[i]?.any fun t => !decide (pos.before t.start)) = Option.none := by
      rw [List.find?_eq_none]
      intro i hi
      rw [List.mem_reverse, List.mem_map] at hi
      obtain ⟨j, hj, rfl⟩ := hi
      rw [List.mem_range] at hj
      rw [List.getElem?_append_right (by omega), show pre.length + 1 + j - pre.length = j + 1 by omega,
        List.getElem?_cons_succ, List.getElem?_eq_getElem hj]
      simpa using hpost _ (List.getElem_mem hj)
    rw [hsplit, List.reverse_append, List.reverse_cons, List.find?_append, List.find?_append, hnone,
      Option.none_or, List.find?_cons_of_pos]
    · rfl
    · simpa using hstart

variable {ends : List TokenSpan}

/-- What the search of `tok_span_at` and `tj_node_at` finds. -/
theorem startsLast_searchToken (h : OrderedSpans spans) (hends : ∀ t ∈ ends, t.tokenKind = tkEof)
    (pos : LspPos) : ∃ o, StartsLast spans pos o ∧
      searchToken (spans ++ ends) pos ((spans ++ ends).length + 1) 0 ((spans ++ ends).length - 1) (-1)
        = (o.map fun i : ℕ => (i : ℤ)).getD (-1) := by
  have hstarts : ∀ i, StartsBy (spans ++ ends) pos i ↔
      ∃ t, spans[i]? = some t ∧ ¬ pos.before t.start := by
    intro i
    constructor
    · rintro ⟨t, ht, hreal, hstart⟩
      by_cases hi : i < spans.length
      · exact ⟨t, by rwa [List.getElem?_append_left hi] at ht, hstart⟩
      · rw [List.getElem?_append_right (not_lt.mp hi)] at ht
        exact absurd (hends t (List.mem_of_getElem? ht)) hreal
    · rintro ⟨t, ht, hstart⟩
      have hi := (List.getElem?_eq_some_iff.mp ht).1
      exact ⟨t, by rwa [List.getElem?_append_left hi], h.real t (List.mem_of_getElem? ht), hstart⟩
  have hmono : ∀ i j, i ≤ j → j < (spans ++ ends).length → StartsBy (spans ++ ends) pos j →
      StartsBy (spans ++ ends) pos i := by
    intro i j hij _ hj
    rw [hstarts] at hj ⊢
    obtain ⟨u, hu, hstart⟩ := hj
    obtain ⟨hlt, rfl⟩ := List.getElem?_eq_some_iff.mp hu
    refine ⟨spans[i], List.getElem?_eq_getElem (by omega), ?_⟩
    rcases Nat.lt_or_eq_of_le hij with hlt' | rfl
    · have hle := List.pairwise_iff_getElem.mp h.start_le i j (by omega) hlt hlt'
      rw [LspPos.before_iff_key] at hstart ⊢
      omega
    · exact hstart
  obtain ⟨probes, hrun⟩ := searchToken_bisects (spans ++ ends) pos ((spans ++ ends).length + 1)
    0 ((spans ++ ends).length - 1) (-1) (by omega) (by omega) (by omega)
  generalize searchToken (spans ++ ends) pos _ 0 _ (-1) = r at hrun
  obtain ⟨hlow, hhigh, hr⟩ := hrun.last hmono rfl (by omega) (by omega) (by omega)
    (fun i hi => by omega) (fun i hi hin => by omega)
  obtain rfl | ⟨k, rfl⟩ : r = -1 ∨ ∃ k : ℕ, r = k := by
    by_cases hneg : r < 0
    · exact .inl (by omega)
    · exact .inr ⟨r.toNat, by omega⟩
  · refine ⟨none, .none fun t ht => ?_, rfl⟩
    obtain ⟨i, hi, rfl⟩ := List.getElem_of_mem ht
    have hbad := (hr i (by rw [List.length_append]; omega)).not.mpr (by omega)
    rw [hstarts] at hbad
    by_contra hstart
    exact hbad ⟨_, List.getElem?_eq_getElem hi, hstart⟩
  · obtain ⟨t, ht, hstart⟩ := (hstarts k).mp ((hr k (by omega)).mpr (Int.le_refl _))
    obtain ⟨hk, rfl⟩ := List.getElem?_eq_some_iff.mp ht
    have hsplit : spans = spans.take k ++ spans[k] :: spans.drop (k + 1) := by
      rw [← List.drop_eq_getElem_cons hk, List.take_append_drop]
    have hlength : (spans.take k).length = k := by
      rw [List.length_take]
      omega
    refine ⟨some (spans.take k).length, .some hsplit hstart fun u hu => ?_, by rw [hlength]; rfl⟩
    obtain ⟨i, hi, rfl⟩ := List.getElem_of_mem hu
    rw [List.length_drop] at hi
    have hbad := (hr (k + 1 + i) (by rw [List.length_append]; omega)).not.mpr (by omega)
    rw [hstarts] at hbad
    by_contra hstart'
    rw [List.getElem_drop] at hstart'
    exact hbad ⟨_, List.getElem?_eq_getElem (by omega), hstart'⟩

/-- `tok_span_at` returns the last span that covers the position. -/
theorem tokSpanAt_eq_find (h : OrderedSpans spans) (hends : ∀ t ∈ ends, t.tokenKind = tkEof)
    (pos : LspPos) :
    tokSpanAt (spans ++ ends) pos = spans.reverse.find? (fun t => decide (t.Covers pos)) := by
  obtain ⟨o, ho, hfound⟩ := startsLast_searchToken h hends pos
  unfold tokSpanAt
  rw [hfound]
  cases ho with
  | none hall =>
    symm
    rw [Option.map_none, Option.getD_none]
    refine List.find?_eq_none.mpr fun t ht => ?_
    rw [decide_eq_true_eq]
    exact fun hcover => hcover.1 (hall t (List.mem_reverse.mp ht))
  | @some t pre post hspans hstart hpost =>
    have hget : (spans ++ ends)[pre.length]? = Option.some t := by
      rw [hspans, List.append_assoc, List.getElem?_append_right (Nat.le_refl _), Nat.sub_self]
      rfl
    have hafter : post.reverse.find? (fun t => decide (t.Covers pos)) = Option.none := by
      refine List.find?_eq_none.mpr fun u hu => ?_
      rw [decide_eq_true_eq]
      exact fun hcover => hcover.1 (hpost u (List.mem_reverse.mp hu))
    have hfind : spans.reverse.find? (fun t => decide (t.Covers pos))
        = if t.Covers pos then Option.some t else Option.none := by
      have hbefore : ¬ t.Covers pos →
          pre.reverse.find? (fun t => decide (t.Covers pos)) = Option.none := by
        intro hcover
        refine List.find?_eq_none.mpr fun u hu => ?_
        rw [decide_eq_true_eq]
        exact h.not_covers hspans hstart hcover (List.mem_reverse.mp hu)
      rw [hspans, List.reverse_append, List.reverse_cons, List.find?_append, List.find?_append,
        hafter, Option.none_or]
      split_ifs with hcover
      · simp [hcover]
      · simp [hcover, hbefore hcover]
    rw [hfind]
    have hnonneg : (guard ((0 : ℤ) ≤ (pre.length : ℤ)) : Option Unit) = some () :=
      if_pos (Int.natCast_nonneg _)
    simp only [Option.map_some, Option.getD_some, Int.toNat_natCast, hget, hnonneg]
    show (if t.Covers pos then pure () else failure : Option Unit).bind _ = _
    by_cases hcover : t.Covers pos
    · rw [if_pos hcover, if_pos hcover]
      rfl
    · rw [if_neg hcover, if_neg hcover]
      rfl

theorem tjNodeAt_eq_lastStarting (h : OrderedSpans spans)
    (hends : ∀ t ∈ ends, t.tokenKind = tkEof) (pos : LspPos) (root : TjNode)
    (owners : List (Option (List ℕ))) : tjNodeAt root (spans ++ ends) owners pos =
      (lastStarting spans pos).bind fun i => (owners[i]?).join.bind fun a =>
        coveringDeclaration root pos a.reverse := by
  obtain ⟨o, ho, hfound⟩ := startsLast_searchToken h hends pos
  rw [ho.eq_lastStarting]
  unfold tjNodeAt
  simp only [hfound]
  cases ho with
  | none hall => rfl
  | @some t pre post hspans hstart hpost =>
    simp only [Option.map_some, Option.getD_some, Option.bind_some]
    rw [if_neg (by omega), Int.toNat_natCast]
    cases owners[pre.length]? with
    | none => rfl
    | some owner => cases owner <;> rfl

/-- **Position lookup**: the search ends and looks at no token that is not there; `tok_span_at`
returns the last span that covers the position, and nothing where none does; `tj_node_at` starts
from the owner of the last span that starts at the position or before it. -/
theorem position_lookup (h : OrderedSpans spans) (hends : ∀ t ∈ ends, t.tokenKind = tkEof)
    (pos : LspPos) :
    (∃ probes, Bisects (StartsBy (spans ++ ends) pos) (spans ++ ends).length 0
      ((spans ++ ends).length - 1) (-1) probes (searchToken (spans ++ ends) pos
        ((spans ++ ends).length + 1) 0 ((spans ++ ends).length - 1) (-1)) ∧
      ∀ i ∈ probes, i < (spans ++ ends).length) ∧
    tokSpanAt (spans ++ ends) pos = spans.reverse.find? (fun t => decide (t.Covers pos)) ∧
    (tokSpanAt (spans ++ ends) pos = none ↔ ∀ t ∈ spans, ¬ t.Covers pos) ∧
    ∀ root owners, tjNodeAt root (spans ++ ends) owners pos =
      (lastStarting spans pos).bind fun i => (owners[i]?).join.bind fun a =>
        coveringDeclaration root pos a.reverse := by
  have hlookup := tokSpanAt_eq_find h hends pos
  obtain ⟨probes, hrun⟩ := searchToken_bisects (spans ++ ends) pos ((spans ++ ends).length + 1) 0
    ((spans ++ ends).length - 1) (-1) (by omega) (by omega) (by omega)
  refine ⟨⟨probes, hrun, hrun.lt⟩, hlookup, ?_, tjNodeAt_eq_lastStarting h hends pos⟩
  rw [hlookup, List.find?_eq_none]
  simp

end Ordered

/-- Two spans that touch: the boundary belongs to the later one. -/
theorem position_lookup_touching :
    tokSpanAt [⟨tkIdent, ⟨0, 0⟩, ⟨0, 2⟩, some [97, 98]⟩, ⟨tkBang, ⟨0, 2⟩, ⟨0, 3⟩, none⟩] ⟨0, 2⟩
      = some ⟨tkBang, ⟨0, 2⟩, ⟨0, 3⟩, none⟩ := by
  have h : OrderedSpans [⟨tkIdent, ⟨0, 0⟩, ⟨0, 2⟩, some [97, 98]⟩, ⟨tkBang, ⟨0, 2⟩, ⟨0, 3⟩, none⟩] := by
    constructor <;> decide
  have hends : ∀ t ∈ ([] : List TokenSpan), t.tokenKind = tkEof := by
    intro t ht
    cases ht
  exact (position_lookup h hends ⟨0, 2⟩).2.1.trans (by decide)

end TaskjugglerLsp
