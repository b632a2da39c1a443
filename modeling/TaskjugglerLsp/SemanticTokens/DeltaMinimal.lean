import TaskjugglerLsp.Lib.EditScript
import TaskjugglerLsp.SemanticTokens.DeltaValid

/-!
# The delta is minimal, and the search stays in its arrays

Coalescing keeps the number of tokens deleted and inserted (`coalesceLoop_cost`), and
the raw script has as few edits as any walk of the edit graph, so the response costs as
little as any insert/delete script between the two token lists
(`buildSemanticTokensDeltaJson_minimal`).

`myersDiffRun_safe` follows one call of `myers_diff_run` through its three stages:
every array access is checked in the model, so that each stage returns a value says
that none of them left its array.
-/

namespace TaskjugglerLsp.Delta

open Lib Lib.EditGraph

/-! ### What coalescing costs -/

/-- The number of tokens that an operation deletes and inserts. -/
def EditOp.cost (op : EditOp) : ℕ := op.deleteTok + op.insertTok

/-- **Coalescing** keeps the number of edits and needs at most one operation for each,
and every operation stays within the two sequences. -/
theorem coalesceLoop_cost {m : ℤ → ℤ → Bool} {na nb : ℕ} (aOffset bOffset maxOps : ℕ) :
    ∀ (n : ℕ) (raw : List Move) (x y : ℕ) (ops : List EditOp), raw.length ≤ n →
      Walk m na nb x y raw na nb → ops.length + edits raw ≤ maxOps →
      ∃ rest, coalesceLoop aOffset bOffset maxOps n raw x y ops = some (ops ++ rest) ∧
        rest.length ≤ edits raw ∧ (rest.map EditOp.cost).sum = edits raw ∧
        ∀ op ∈ rest, op.startTok + op.deleteTok ≤ aOffset + na ∧
          op.insertBStart + op.insertTok ≤ bOffset + nb := by
  intro n
  induction n using Nat.strong_induction_on with
  | _ n ih =>
    intro raw x y ops hlen hw hops
    cases raw with
    | nil =>
      refine ⟨[], ?_, le_rfl, rfl, by simp⟩
      rw [List.append_nil]
      cases n <;> rfl
    | cons kind raw =>
      obtain ⟨n, rfl⟩ : ∃ k, n = k + 1 := ⟨n - 1, by rw [List.length_cons] at hlen; omega⟩
      rw [List.length_cons] at hlen
      by_cases hk : kind = .keep
      · subst hk
        cases hw with
        | keep _ _ _ hw =>
          obtain ⟨rest, h1, h2⟩ := ih n (by omega) raw (x + 1) (y + 1) ops (by omega)
            (by exact_mod_cast hw) (by rwa [edits_keep] at hops)
          rw [edits_keep]
          exact ⟨rest, h1, h2⟩
      · obtain ⟨run, raw', i, j, h1, h2, h3, h4, h5, h6⟩ := editRun_spec (kind :: raw) x y 0 0 hw
        have hlen' := congrArg List.length h3
        have hedits := congrArg edits h3
        rw [List.length_cons, List.length_append] at hlen'
        rw [edits_append, h5] at hedits
        have hij : 0 < i + j := by
          by_contra h0
          obtain rfl : run = [] := List.length_eq_zero_iff.mp (by omega)
          rcases h6 with rfl | ⟨t, rfl⟩
          · cases h3
          · cases h3
            exact hk rfl
        have hle := h2.le
        obtain ⟨rest, g1, g2, g3, g4⟩ := ih n (by omega) raw' (x + i) (y + j)
          (ops ++ [⟨aOffset + x, i, bOffset + y, j⟩]) (by omega) h2
          (by rw [List.length_append, List.length_singleton]; omega)
        refine ⟨⟨aOffset + x, i, bOffset + y, j⟩ :: rest, ?_, ?_, ?_, fun op hop => ?_⟩
        · rw [coalesceLoop_edit hk h1 (by omega), g1, List.append_assoc]
          rfl
        · rw [List.length_cons]
          omega
        · rw [List.map_cons, List.sum_cons, g3, hedits]
          rfl
        · rcases List.mem_cons.mp hop with rfl | hop
          · dsimp only
            omega
          · exact g4 op hop

/-! ### The tokens between the common ends -/

/-- The `n` tokens of a buffer from token `i` on. -/
def slice (buf : List UInt32) (i n : ℕ) : List (List UInt32) := ((tokens buf).drop i).take n

theorem length_slice {buf : List UInt32} {i n : ℕ} (h : i + n ≤ buf.length / tupleLen) :
    (slice buf i n).length = n := by
  rw [slice, List.length_take, List.length_drop, length_tokens]
  omega

theorem getElem?_slice {buf : List UInt32} {i n x : ℕ} (h : i + n ≤ buf.length / tupleLen)
    (hx : x < n) : (slice buf i n)[x]? = some (tuple buf (i + x)) := by
  rw [slice, List.getElem?_take, if_pos hx, List.getElem?_drop, getElem?_tokens (by omega)]

/-- The comparison that the search makes is the comparison of the two slices. -/
theorem compares_slice {prev new : List UInt32} {pre na nb : ℕ}
    (hp : pre + na ≤ prev.length / tupleLen) (hn : pre + nb ≤ new.length / tupleLen) :
    Compares (slice prev pre na) (slice new pre nb)
      (matching (prev.drop (pre * tupleLen)) (new.drop (pre * tupleLen))) := by
  intro x y hx hy
  rw [length_slice hp] at hx
  rw [length_slice hn] at hy
  rw [getElem?_slice hp hx, getElem?_slice hn hy, matching, Int.toNat_natCast, Int.toNat_natCast,
    tuple_drop, tuple_drop, beq_iff_eq, Option.some.injEq]

/-- **Myers' diff** costs as little as any script between the two slices. -/
theorem myersDiffRun_cost {prev new : List UInt32} {pre na nb : ℕ}
    (hp : pre + na ≤ prev.length / tupleLen) (hn : pre + nb ≤ new.length / tupleLen)
    (hbound : na + nb ≤ dBound) :
    ∃ ops, myersDiffRun (prev.drop (pre * tupleLen)) (new.drop (pre * tupleLen)) na nb pre pre
        = some ops ∧
      IsLeast (scriptCosts (slice prev pre na) (slice new pre nb)) (ops.map EditOp.cost).sum ∧
      ∀ op ∈ ops, op.insertBStart + op.insertTok ≤ pre + nb := by
  have hlenA := length_slice hp
  have hlenB := length_slice hn
  have hcmp := compares_slice hp hn
  have hroom : ∀ (buf : List UInt32) (n : ℕ), pre + n ≤ buf.length / tupleLen →
      n * tupleLen ≤ (buf.drop (pre * tupleLen)).length := by
    intro buf n h
    have hmul := (Nat.mul_le_mul_right tupleLen h).trans (Nat.div_mul_le_self buf.length tupleLen)
    rw [Nat.add_mul] at hmul
    rw [List.length_drop]
    omega
  unfold myersDiffRun
  by_cases h0 : na = 0 ∧ nb = 0
  · rw [if_pos h0]
    obtain ⟨rfl, rfl⟩ := h0
    refine ⟨[], rfl, ⟨⟨[], ?_, rfl⟩, fun n _ => Nat.zero_le n⟩, by simp⟩
    rw [slice, slice, List.take_zero, List.take_zero]
    exact .nil
  rw [if_neg h0]
  by_cases h1 : na = 0 ∨ nb = 0 ∨ dBound < na + nb
  · -- with one side empty, nothing can be kept
    rw [if_pos h1]
    refine ⟨_, rfl, ?_, by simp⟩
    refine isLeast_of_isLcs (n := 0) ⟨⟨[], List.nil_sublist _, List.nil_sublist _, rfl⟩, ?_⟩ ?_
    · rintro n ⟨c, hs, ht, rfl⟩
      have hs' := hs.length_le
      have ht' := ht.length_le
      omega
    · simp only [List.map_cons, List.map_nil, List.sum_cons, List.sum_nil, EditOp.cost]
      omega
  rw [if_neg h1]
  obtain ⟨D, snap, raw, hf, hraw, hw, he, hmin⟩ := search_spec (hroom prev na hp) (hroom new nb hn)
    (show 0 < na + nb by omega)
  obtain ⟨ops, hops, -, hcost, hins⟩ := coalesceLoop_cost pre pre D raw.length raw 0 0 []
    le_rfl hw (by rw [List.length_nil]; omega)
  have hleast : IsLeast (scriptCosts (slice prev pre na) (slice new pre nb)) (edits raw) := by
    constructor
    · refine ⟨raw, (script_iff_walk hcmp).mpr ?_, rfl⟩
      rwa [hlenA, hlenB]
    · rintro n ⟨l, hl, rfl⟩
      have hl' := (script_iff_walk hcmp).mp hl
      rw [hlenA, hlenB] at hl'
      rw [he]
      exact hmin l hl'
  simp only [Option.bind_eq_bind, hf, Option.bind_some]
  cases D with
  | zero =>
    rw [he] at hleast
    exact ⟨[], rfl, hleast, by simp⟩
  | succ D =>
    refine ⟨ops, ?_, hcost ▸ hleast, fun op hop => (hins op hop).2⟩
    simp only [hraw, Option.bind_some]
    exact hops

/-! ### The response -/

/-- The lengths of the common ends that are trimmed. -/
def trimmed (prev new : List UInt32) : Option (ℕ × ℕ) := do
  let prevTok := prev.length / tupleLen
  let newTok := new.length / tupleLen
  let pre ← trimPrefix prev new (min prevTok newTok) 0
  let suf ← trimSuffix prev new prevTok newTok (min (prevTok - pre) (newTok - pre)) 0
  some (pre, suf)

theorem trimmed_spec {prev new : List UInt32} {pre suf : ℕ}
    (h : trimmed prev new = some (pre, suf)) :
    pre + suf ≤ prev.length / tupleLen ∧ pre + suf ≤ new.length / tupleLen ∧
      (∀ i < pre, tuple prev i = tuple new i) ∧
      ∀ i < suf, tuple prev (prev.length / tupleLen - 1 - i)
        = tuple new (new.length / tupleLen - 1 - i) := by
  obtain ⟨p, h1, -, h2, h3⟩ := trimPrefix_spec prev new
    (min (prev.length / tupleLen) (new.length / tupleLen)) 0 (by omega) (by omega)
  obtain ⟨q, h4, -, h5, h6⟩ := trimSuffix_spec prev new
    (min (prev.length / tupleLen - p) (new.length / tupleLen - p)) 0 (by omega) (by omega)
  simp only [trimmed, Option.bind_eq_bind, h1, h4, Option.bind_some, Option.some.injEq,
    Prod.mk.injEq] at h
  obtain ⟨rfl, rfl⟩ := h
  exact ⟨by omega, by omega, fun i hi => h3 i (Nat.zero_le i) hi,
    fun i hi => h6 i (Nat.zero_le i) hi⟩

/-- A buffer is its common beginning, the slice between, and its common end. -/
theorem tokens_eq {buf : List UInt32} {pre suf : ℕ} (h : pre + suf ≤ buf.length / tupleLen) :
    tokens buf = (tokens buf).take pre ++ slice buf pre (buf.length / tupleLen - pre - suf)
      ++ (tokens buf).drop (buf.length / tupleLen - suf) := by
  rw [slice, List.append_assoc]
  have hdrop : (tokens buf).drop (buf.length / tupleLen - suf)
      = ((tokens buf).drop pre).drop (buf.length / tupleLen - pre - suf) := by
    rw [List.drop_drop]
    congr 1
    omega
  rw [hdrop, List.take_append_drop, List.take_append_drop]

theorem ends_eq {prev new : List UInt32} {pre suf : ℕ}
    (h : trimmed prev new = some (pre, suf)) :
    (tokens prev).take pre = (tokens new).take pre ∧
      (tokens prev).drop (prev.length / tupleLen - suf)
        = (tokens new).drop (new.length / tupleLen - suf) := by
  obtain ⟨hp, hn, hpre, hsuf⟩ := trimmed_spec h
  have hwin := window_trim hp hn hpre hsuf
  refine ⟨hwin.before, ?_⟩
  have hafter := hwin.after
  rwa [show pre + (prev.length / tupleLen - pre - suf) = prev.length / tupleLen - suf by omega,
    show pre + (new.length / tupleLen - pre - suf) = new.length / tupleLen - suf by omega]
    at hafter

/-- The number of tokens that an edit deletes and inserts. -/
def SemanticTokensEdit.cost (e : SemanticTokensEdit) : ℕ :=
  e.deleteCount / tupleLen + (e.data.getD []).length / tupleLen

/-- The number of tokens that all edits together delete and insert. -/
def SemanticTokensDelta.cost (d : SemanticTokensDelta) : ℕ :=
  (d.edits.map SemanticTokensEdit.cost).sum

theorem cost_buildEditJson {new : List UInt32} {op : EditOp}
    (h : op.insertBStart + op.insertTok ≤ new.length / tupleLen) :
    (buildEditJson op new).cost = op.cost := by
  have hlen : ((new.drop (op.insertBStart * tupleLen)).take (op.insertTok * tupleLen)).length
      = op.insertTok * tupleLen := by
    have hmul := (Nat.mul_le_mul_right tupleLen h).trans (Nat.div_mul_le_self new.length tupleLen)
    rw [Nat.add_mul] at hmul
    rw [List.length_take, List.length_drop]
    omega
  have hpos : 0 < tupleLen := by decide
  unfold buildEditJson SemanticTokensEdit.cost EditOp.cost
  by_cases hi : 0 < op.insertTok
  · rw [if_pos hi]
    simp only [Option.getD_some, hlen, Nat.mul_div_cancel _ hpos]
  · rw [if_neg hi, show op.insertTok = 0 by omega]
    simp [Nat.mul_div_cancel _ hpos]

/-- **The delta is minimal**: it deletes and inserts as few tokens as any script from the
old tokens to the new ones, which is what a longest common subsequence leaves over, of
the slices between the common ends as of the whole sequences. -/
theorem buildSemanticTokensDeltaJson_minimal (prev new : List UInt32) (resultId : Option CStr)
    {pre suf na nb : ℕ} (htrim : trimmed prev new = some (pre, suf))
    (hna : na = prev.length / tupleLen - pre - suf) (hnb : nb = new.length / tupleLen - pre - suf)
    (hbound : na + nb ≤ dBound) :
    ∃ delta, buildSemanticTokensDeltaJson prev new resultId = some delta ∧
      IsLeast (scriptCosts (tokens prev) (tokens new)) delta.cost ∧
      ∃ lcs, IsLcs (slice prev pre na) (slice new pre nb) lcs ∧ delta.cost + 2 * lcs = na + nb ∧
        IsLcs (tokens prev) (tokens new) (pre + lcs + suf) ∧
        delta.cost + 2 * (pre + lcs + suf) = (tokens prev).length + (tokens new).length := by
  obtain ⟨hp, hn, -, -⟩ := trimmed_spec htrim
  obtain ⟨hbefore, hafter⟩ := ends_eq htrim
  have hroomA : pre + na ≤ prev.length / tupleLen := by omega
  have hroomB : pre + nb ≤ new.length / tupleLen := by omega
  obtain ⟨ops, hops, hleast, hins⟩ := myersDiffRun_cost hroomA hroomB hbound
  obtain ⟨lcs, hlcs, hsum⟩ := exists_isLcs_of_isLeast hleast
  have hcost : ((ops.map (buildEditJson · new)).map SemanticTokensEdit.cost).sum
      = (ops.map EditOp.cost).sum := by
    rw [List.map_map]
    refine congrArg List.sum (List.map_congr_left fun op hop => ?_)
    have := hins op hop
    exact cost_buildEditJson (by omega)
  rw [length_slice (by omega), length_slice (by omega)] at hsum
  have hwhole : IsLcs (tokens prev) (tokens new) (pre + lcs + suf) := by
    have hsur := hlcs.surround ((tokens prev).take pre)
      ((tokens prev).drop (prev.length / tupleLen - suf))
    rw [hna, ← tokens_eq hp, hbefore, hafter, hnb, ← tokens_eq hn, List.length_take,
      List.length_drop, length_tokens] at hsur
    rwa [show min pre (new.length / tupleLen) + lcs
      + (new.length / tupleLen - (new.length / tupleLen - suf)) = pre + lcs + suf by omega] at hsur
  have htotal : (ops.map EditOp.cost).sum + 2 * (pre + lcs + suf)
      = (tokens prev).length + (tokens new).length := by
    rw [length_tokens, length_tokens]
    omega
  refine ⟨⟨resultId, ops.map (buildEditJson · new)⟩, ?_, ?_, lcs, hlcs, ?_, hwhole, ?_⟩
  · simp only [trimmed, Option.bind_eq_bind] at htrim
    obtain ⟨p, h1, h2⟩ := Option.bind_eq_some_iff.mp htrim
    obtain ⟨q, h3, h4⟩ := Option.bind_eq_some_iff.mp h2
    simp only [Option.some.injEq, Prod.mk.injEq] at h4
    obtain ⟨rfl, rfl⟩ := h4
    unfold buildSemanticTokensDeltaJson
    simp only [Option.bind_eq_bind, h1, h3, Option.bind_some, ← hna, ← hnb, hops]
  · rw [SemanticTokensDelta.cost, hcost]
    exact isLeast_of_isLcs hwhole htotal
  · rw [SemanticTokensDelta.cost, hcost]
    exact hsum
  · rw [SemanticTokensDelta.cost, hcost]
    exact htotal

/-- Of two tokens between the common ends the first goes, and a new one comes after the second. -/
theorem buildSemanticTokensDeltaJson_minimal_inserted :
    let prev := [0, 0, 2, 1, 0, 1, 0, 4, 0, 0, 0, 5, 3, 2, 0, 1, 0, 7, 1, 0]
    let new := [0, 0, 2, 1, 0, 0, 5, 3, 2, 0, 0, 4, 1, 3, 0, 1, 0, 7, 1, 0]
    ∃ delta, buildSemanticTokensDeltaJson prev new none = some delta ∧
      IsLeast (scriptCosts (tokens prev) (tokens new)) delta.cost ∧
      ∃ lcs, IsLcs (slice prev 1 2) (slice new 1 2) lcs ∧ delta.cost + 2 * lcs = 2 + 2 ∧
        IsLcs (tokens prev) (tokens new) (1 + lcs + 1) ∧
        delta.cost + 2 * (1 + lcs + 1) = (tokens prev).length + (tokens new).length :=
  buildSemanticTokensDeltaJson_minimal _ _ none (by decide) (by decide) (by decide) (by decide)

/-! ### The stages of one diff -/

/-- `backtrace`, with the point at which it ends. -/
def backtraceEnd (na nb : ℕ) (snap : List ℤ) :
    ℕ → ℤ → ℤ → List Move → Option (ℤ × ℤ × List Move)
  | 0, x, y, raw => slideBack na nb 0 0 x.toNat x y raw
  | d + 1, x, y, raw => do
    let k := x - y
    let down ← cameDown snap (d + 1) k
    let kPrev := if down then k + 1 else k - 1
    let xPrev ← readInt snap (snapOff d + (kPrev + d).tdiv 2)
    let yPrev := xPrev - kPrev
    let xEdge := if down then xPrev else xPrev + 1
    let yEdge := if down then yPrev + 1 else yPrev
    let (x, y, raw) ← slideBack na nb xEdge yEdge (x - xEdge).toNat x y raw
    if down then do
      let raw ← pushKind (na + nb) raw .ins
      backtraceEnd na nb snap d x (y - 1) raw
    else do
      let raw ← pushKind (na + nb) raw .del
      backtraceEnd na nb snap d (x - 1) y raw

theorem backtrace_eq (na nb : ℕ) (snap : List ℤ) (d : ℕ) (x y : ℤ) (raw : List Move) :
    backtrace na nb snap d x y raw = (backtraceEnd na nb snap d x y raw).map (·.2.2) := by
  induction d generalizing x y raw with
  | zero =>
    rw [backtrace, backtraceEnd]
    cases slideBack na nb 0 0 x.toNat x y raw <;> rfl
  | succ d ih =>
    rw [backtrace, backtraceEnd]
    cases cameDown snap (d + 1) (x - y) with
    | none => rfl
    | some down =>
      simp only [Option.bind_eq_bind, Option.bind_some]
      cases readInt snap _ with
      | none => rfl
      | some xPrev =>
        simp only [Option.bind_some]
        cases slideBack na nb _ _ _ x y raw with
        | none => rfl
        | some r =>
          simp only [Option.bind_some]
          cases down <;> cases pushKind (na + nb) r.2.2 _ <;> simp [ih]

theorem pushKind_eq {cap : ℕ} {raw raw' : List Move} {kind : Move}
    (h : pushKind cap raw kind = some raw') : raw' = kind :: raw := by
  unfold pushKind at h
  split at h
  · exact (Option.some.inj h).symm
  · cases h

/-- Sliding back moves the point as far as the steps it records. -/
theorem slideBack_moves {na nb : ℕ} {xEdge yEdge : ℤ} (n : ℕ) :
    ∀ {x y x' y' : ℤ} {raw raw' : List Move},
      slideBack na nb xEdge yEdge n x y raw = some (x', y', raw') →
      x + columns raw = x' + columns raw' ∧ y + rows raw = y' + rows raw' := by
  induction n with
  | zero =>
    intro x y x' y' raw raw' h
    simp only [slideBack, Option.some.injEq, Prod.mk.injEq] at h
    obtain ⟨rfl, rfl, rfl⟩ := h
    exact ⟨rfl, rfl⟩
  | succ n ih =>
    intro x y x' y' raw raw' h
    rw [slideBack] at h
    split at h
    · obtain ⟨raw1, h1, h2⟩ := Option.bind_eq_some_iff.mp h
      have := ih h2
      rw [pushKind_eq h1] at this
      simp [columns, rows] at this ⊢
      omega
    · simp only [Option.some.injEq, Prod.mk.injEq] at h
      obtain ⟨rfl, rfl, rfl⟩ := h
      exact ⟨rfl, rfl⟩

/-- **The backtrace** moves the point as far as the steps it records. -/
theorem backtraceEnd_moves {na nb : ℕ} {snap : List ℤ} (d : ℕ) :
    ∀ {x y x' y' : ℤ} {raw raw' : List Move},
      backtraceEnd na nb snap d x y raw = some (x', y', raw') →
      x + columns raw = x' + columns raw' ∧ y + rows raw = y' + rows raw' := by
  induction d with
  | zero =>
    intro x y x' y' raw raw' h
    exact slideBack_moves _ h
  | succ d ih =>
    intro x y x' y' raw raw' h
    rw [backtraceEnd] at h
    obtain ⟨down, -, h⟩ := Option.bind_eq_some_iff.mp h
    obtain ⟨xPrev, -, h⟩ := Option.bind_eq_some_iff.mp h
    obtain ⟨⟨x1, y1, raw1⟩, h1, h⟩ := Option.bind_eq_some_iff.mp h
    have hslide := slideBack_moves _ h1
    cases down
    all_goals simp only [Bool.false_eq_true, if_true, if_false] at h
    · obtain ⟨raw2, h2, h3⟩ := Option.bind_eq_some_iff.mp h
      have := ih h3
      rw [pushKind_eq h2] at this
      simp [columns, rows] at this hslide ⊢
      omega
    · obtain ⟨raw2, h2, h3⟩ := Option.bind_eq_some_iff.mp h
      have := ih h3
      rw [pushKind_eq h2] at this
      simp [columns, rows] at this hslide ⊢
      omega

/-- **Myers' diff stays within its arrays**: the search reaches the corner in a row
`D ≤ na + nb`, the backtrace ends at the origin after exactly `D` edits, and coalescing
them needs no more than `D` operations. -/
theorem myersDiffRun_safe (a b : List UInt32) {na nb : ℕ} (aOffset bOffset : ℕ)
    (ha : na * tupleLen ≤ a.length) (hb : nb * tupleLen ≤ b.length) (hna : 1 ≤ na) (hnb : 1 ≤ nb)
    (hbound : na + nb ≤ dBound) :
    ∃ (D : ℕ) (snap : List ℤ) (raw : List Move) (ops : List EditOp),
      forward a b na nb (na + nb + 1) 0 (List.replicate (2 * (na + nb) + 1) 0)
        (List.replicate ((na + nb) * (na + nb + 1) / 2) 0) = some (some (D, (na : ℤ), (nb : ℤ)), snap) ∧
      D ≤ na + nb ∧
      backtraceEnd na nb snap D na nb [] = some (0, 0, raw) ∧
      edits raw = D ∧ raw.length ≤ na + nb ∧
      coalesceEditOps raw aOffset bOffset D = some ops ∧ ops.length ≤ D ∧
      myersDiffRun a b na nb aOffset bOffset = some ops := by
  obtain ⟨D, snap, raw, hf, hraw, hw, he, -⟩ := search_spec ha hb (show 0 < na + nb by omega)
  obtain ⟨ops, hops, hlen, -, -⟩ := coalesceLoop_cost aOffset bOffset D raw.length raw 0 0 []
    le_rfl hw (by rw [List.length_nil]; omega)
  have hrawLen : (raw.length : ℤ) ≤ (na - 0) + (nb - 0) := hw.length_le
  have hle : edits raw ≤ raw.length := List.countP_le_length
  have hend : backtraceEnd na nb snap D na nb [] = some (0, 0, raw) := by
    rw [backtrace_eq] at hraw
    obtain ⟨⟨x, y, raw'⟩, h1, h2⟩ := Option.map_eq_some_iff.mp hraw
    obtain rfl : raw' = raw := h2
    have hmoves := backtraceEnd_moves D h1
    have hdisp := hw.displacement
    simp only [columns, rows, List.countP_nil] at hmoves hdisp
    rw [h1, show x = 0 by omega, show y = 0 by omega]
  refine ⟨D, snap, raw, ops, hf, by omega, hend, he, by omega, hops, by omega, ?_⟩
  unfold myersDiffRun
  rw [if_neg (by omega), if_neg (by omega)]
  simp only [Option.bind_eq_bind, hf, Option.bind_some]
  cases D with
  | zero =>
    obtain rfl : ops = [] := List.length_eq_zero_iff.mp (by omega)
    rfl
  | succ D =>
    simp only [hraw, Option.bind_some]
    exact hops

theorem myersDiffRun_safe_replaced :
    ∃ (D : ℕ) (snap : List ℤ) (raw : List Move) (ops : List EditOp),
      forward [0, 0, 4, 0, 0] [0, 0, 5, 0, 0] 1 1 (1 + 1 + 1) 0 (List.replicate (2 * (1 + 1) + 1) 0)
        (List.replicate ((1 + 1) * (1 + 1 + 1) / 2) 0)
          = some (some (D, ((1 : ℕ) : ℤ), ((1 : ℕ) : ℤ)), snap) ∧
      D ≤ 1 + 1 ∧
      backtraceEnd 1 1 snap D ((1 : ℕ) : ℤ) ((1 : ℕ) : ℤ) [] = some (0, 0, raw) ∧
      edits raw = D ∧ raw.length ≤ 1 + 1 ∧
      coalesceEditOps raw 3 3 D = some ops ∧ ops.length ≤ D ∧
      myersDiffRun [0, 0, 4, 0, 0] [0, 0, 5, 0, 0] 1 1 3 3 = some ops :=
  myersDiffRun_safe _ _ 3 3 (by decide) (by decide) (by decide) (by decide) (by decide)

end TaskjugglerLsp.Delta
