import TaskjugglerLsp.SemanticTokens.DeltaSearch

/-!
# The delta is a valid edit list

Coalescing turns a walk of the edit graph into a patch (`coalesceLoop_spec`), so
Myers' diff yields a patch of the middle part (`myersDiffRun_spec`), and with the
common ends trimmed the response is a valid delta of the whole buffers
(`buildSemanticTokensDeltaJson_valid`).
-/

namespace TaskjugglerLsp.Delta

open Lib Lib.EditGraph

/-! ### The tokens of a buffer -/

/-- The tokens of a buffer. -/
def tokens (buf : List UInt32) : List (List UInt32) :=
  (List.range (buf.length / tupleLen)).map (tuple buf)

@[simp] theorem length_tokens (buf : List UInt32) :
    (tokens buf).length = buf.length / tupleLen := by simp [tokens]

theorem getElem?_tokens {buf : List UInt32} {i : ℕ} (hi : i < buf.length / tupleLen) :
    (tokens buf)[i]? = some (tuple buf i) := by
  rw [tokens, List.getElem?_map, List.getElem?_range hi]
  rfl

theorem length_tuple {buf : List UInt32} {i : ℕ} (hi : i < buf.length / tupleLen) :
    (tuple buf i).length = tupleLen := by
  simp only [tuple, List.length_take, List.length_drop, tupleLen] at hi ⊢
  omega

theorem chunked_tokens (buf : List UInt32) : Chunked tupleLen (tokens buf) := by
  intro t ht
  obtain ⟨i, hi, rfl⟩ := List.mem_map.mp ht
  exact length_tuple (List.mem_range.mp hi)

theorem flatten_tuples (buf : List UInt32) (n : ℕ) :
    ((List.range n).map (tuple buf)).flatten = buf.take (n * tupleLen) := by
  induction n with
  | zero => simp
  | succ n ih =>
    rw [List.range_succ, List.map_append, List.flatten_append, ih, Nat.succ_mul, List.take_add]
    simp [tuple]

theorem flatten_tokens {buf : List UInt32} (h : tupleLen ∣ buf.length) :
    (tokens buf).flatten = buf := by
  rw [tokens, flatten_tuples, Nat.div_mul_cancel h, List.take_length]

theorem tuple_drop (buf : List UInt32) (n i : ℕ) :
    tuple (buf.drop (n * tupleLen)) i = tuple buf (n + i) := by
  rw [tuple, tuple, List.drop_drop, ← Nat.add_mul]

/-! ### Coalescing -/

/-- The edit of the tokens that an operation stands for. -/
def EditOp.toEdit (new : List (List UInt32)) (op : EditOp) : Edit (List UInt32) :=
  ⟨op.startTok, op.deleteTok, (new.drop op.insertBStart).take op.insertTok⟩

theorem editRun_spec {m : ℤ → ℤ → Bool} {p q X Y : ℤ} (raw : List Move) :
    ∀ (x y del ins : ℕ), Walk m p q x y raw X Y →
      ∃ (run raw' : List Move) (i j : ℕ),
        editRun raw x y del ins = (raw', x + i, y + j, del + i, ins + j) ∧
        Walk m p q ((x + i : ℕ) : ℤ) ((y + j : ℕ) : ℤ) raw' X Y ∧
        raw = run ++ raw' ∧ run.length = i + j ∧ edits run = i + j ∧
        (raw' = [] ∨ ∃ t, raw' = .keep :: t) := by
  induction raw with
  | nil =>
    intro x y del ins h
    exact ⟨[], [], 0, 0, rfl, h, rfl, rfl, rfl, Or.inl rfl⟩
  | cons kind raw ih =>
    intro x y del ins h
    cases h with
    | keep hx hy hm h =>
      exact ⟨[], .keep :: raw, 0, 0, rfl, .keep hx hy hm h, rfl, rfl, rfl, Or.inr ⟨raw, rfl⟩⟩
    | del h =>
      obtain ⟨run, raw', i, j, h1, h2, rfl, h3, h4, h5⟩ :=
        ih (x + 1) y (del + 1) ins (by exact_mod_cast h)
      refine ⟨.del :: run, raw', i + 1, j, ?_, ?_, rfl, ?_, ?_, h5⟩
      · rw [editRun, h1]
        congr 2
        · omega
        · congr 2
          omega
      · rwa [show x + (i + 1) = x + 1 + i by omega]
      · rw [List.length_cons]
        omega
      · rw [edits_del]
        omega
    | ins h =>
      obtain ⟨run, raw', i, j, h1, h2, rfl, h3, h4, h5⟩ :=
        ih x (y + 1) del (ins + 1) (by exact_mod_cast h)
      refine ⟨.ins :: run, raw', i, j + 1, ?_, ?_, rfl, ?_, ?_, h5⟩
      · rw [editRun, h1]
        congr 3
        · omega
        · congr 1
          omega
      · rwa [show y + (j + 1) = y + 1 + j by omega]
      · rw [List.length_cons]
        omega
      · rw [edits_ins]
        omega

theorem coalesceLoop_edit {aOffset bOffset maxOps n x y x' y' i j : ℕ} {kind : Move}
    {raw raw' : List Move} {ops : List EditOp} (hk : kind ≠ .keep)
    (hrun : editRun (kind :: raw) x y 0 0 = (raw', x', y', 0 + i, 0 + j))
    (hroom : ops.length < maxOps) :
    coalesceLoop aOffset bOffset maxOps (n + 1) (kind :: raw) x y ops
      = coalesceLoop aOffset bOffset maxOps n raw' x' y'
        (ops ++ [⟨aOffset + x, i, bOffset + y, j⟩]) := by
  cases kind with
  | keep => exact absurd rfl hk
  | del => rw [coalesceLoop, hrun]; simp only [Nat.zero_add, if_pos hroom]; simp
  | ins => rw [coalesceLoop, hrun]; simp only [Nat.zero_add, if_pos hroom]; simp

section Coalesce

variable {prev new : List (List UInt32)} {m : ℤ → ℤ → Bool} {off na nb : ℕ}

/-- The grid lies inside both token lists at offset `off`: what is behind it is
common, and matching points carry the same token. -/
structure Window (prev new : List (List UInt32)) (m : ℤ → ℤ → Bool) (off na nb : ℕ) : Prop where
  le_prev : off + na ≤ prev.length
  le_new : off + nb ≤ new.length
  before : prev.take off = new.take off
  after : prev.drop (off + na) = new.drop (off + nb)
  same : ∀ x y : ℕ, x < na → y < nb → m x y → prev[off + x]? = new[off + y]?

/-- Replacing a stretch of a list whose tail is already patched. -/
theorem splice_tail {x y del ins : ℕ} (hx : x + del ≤ prev.length) :
    splice (prev.take (x + del) ++ new.drop (y + ins)) ⟨x, del, (new.drop y).take ins⟩
      = prev.take x ++ new.drop y := by
  have hl : (prev.take (x + del)).length = x + del := by
    rw [List.length_take]
    omega
  change (prev.take (x + del) ++ new.drop (y + ins)).take x ++ (new.drop y).take ins
    ++ (prev.take (x + del) ++ new.drop (y + ins)).drop (x + del) = _
  rw [List.drop_append_of_le_length hl.ge, List.drop_of_length_le hl.le, List.nil_append,
    List.take_append_of_le_length (by omega), List.take_take, Nat.min_eq_left (by omega),
    List.append_assoc, ← List.drop_drop, List.take_append_drop]

/-- A token kept is a token both lists have. -/
theorem Window.take_keep (h : Window prev new m off na nb) {x y : ℕ} (hx : x < na) (hy : y < nb)
    (hm : m x y) :
    prev.take (off + (x + 1)) ++ new.drop (off + (y + 1))
      = prev.take (off + x) ++ new.drop (off + y) := by
  have hp := h.le_prev
  have hn := h.le_new
  have hsame := h.same x y hx hy hm
  rw [List.getElem?_eq_getElem (by omega), List.getElem?_eq_getElem (by omega)] at hsame
  rw [← Nat.add_assoc, ← Nat.add_assoc, List.take_succ_eq_append_getElem (by omega),
    List.drop_eq_getElem_cons (by omega : off + y < new.length), Option.some.inj hsame,
    List.append_assoc]
  rfl

theorem Window.eq_of_keep (h : Window prev new m off na nb) {l : List Move} :
    ∀ {x y : ℕ}, Walk m na nb x y l na nb → edits l = 0 →
      prev.take (off + x) ++ new.drop (off + y) = prev := by
  induction l with
  | nil =>
    intro x y hw _
    obtain ⟨rfl, rfl⟩ : x = na ∧ y = nb := by
      cases hw
      exact ⟨rfl, rfl⟩
    rw [← h.after, List.take_append_drop]
  | cons kind l ih =>
    intro x y hw he
    cases hw with
    | keep hx hy hm hw =>
      rw [← h.take_keep (by exact_mod_cast hx) (by exact_mod_cast hy) hm]
      exact ih (by exact_mod_cast hw) (by rwa [edits_keep] at he)
    | del => simp at he
    | ins => simp at he

/-- **Coalescing** turns the rest of a walk into a patch of the rest of the list,
with at most one operation for each edit. -/
theorem coalesceLoop_spec (hwin : Window prev new m off na nb) (maxOps : ℕ) :
    ∀ (n : ℕ) (raw : List Move) (x y : ℕ) (ops : List EditOp), raw.length ≤ n →
      Walk m na nb x y raw na nb → ops.length + edits raw ≤ maxOps →
      ∃ rest, coalesceLoop off off maxOps n raw x y ops = some (ops ++ rest) ∧
        Fits prev.length (rest.map (EditOp.toEdit new)) ∧
        (∀ op ∈ rest, off + x ≤ op.startTok ∧
          ((raw = [] ∨ ∃ t, raw = .keep :: t) → off + x < op.startTok)) ∧
        patch prev (rest.map (EditOp.toEdit new)) = prev.take (off + x) ++ new.drop (off + y) := by
  intro n
  induction n using Nat.strong_induction_on with
  | _ n ih =>
    intro raw x y ops hlen hw hops
    cases raw with
    | nil =>
      refine ⟨[], ?_, fits_nil _, by simp, (hwin.eq_of_keep hw rfl).symm⟩
      rw [List.append_nil]
      cases n <;> rfl
    | cons kind raw =>
      obtain ⟨n, rfl⟩ : ∃ k, n = k + 1 := ⟨n - 1, by rw [List.length_cons] at hlen; omega⟩
      rw [List.length_cons] at hlen
      by_cases hk : kind = .keep
      · subst hk
        cases hw with
        | keep hx hy hm hw =>
          obtain ⟨rest, h1, h2, h3, h4⟩ := ih n (by omega) raw (x + 1) (y + 1) ops (by omega)
            (by exact_mod_cast hw) (by rwa [edits_keep] at hops)
          refine ⟨rest, h1, h2, fun op hop => ?_, ?_⟩
          · have := (h3 op hop).1
            exact ⟨by omega, fun _ => by omega⟩
          · rw [h4, hwin.take_keep (by exact_mod_cast hx) (by exact_mod_cast hy) hm]
      · obtain ⟨run, raw', i, j, h1, h2, h3, h4, h6, h5⟩ := editRun_spec (kind :: raw) x y 0 0 hw
        have hlen' := congrArg List.length h3
        rw [List.length_cons, List.length_append] at hlen'
        have hij : 0 < i + j := by
          by_contra h0
          obtain rfl : run = [] := List.length_eq_zero_iff.mp (by omega)
          rcases h5 with rfl | ⟨t, rfl⟩
          · cases h3
          · cases h3
            exact hk rfl
        have hle := h2.le
        rw [h3, edits_append] at hops
        obtain ⟨rest, g1, g2, g3, g4⟩ := ih n (by omega) raw' (x + i) (y + j)
          (ops ++ [⟨off + x, i, off + y, j⟩]) (by omega) h2
          (by rw [List.length_append, List.length_singleton]; omega)
        have hp := hwin.le_prev
        refine ⟨⟨off + x, i, off + y, j⟩ :: rest, ?_, ?_, fun op hop => ?_, ?_⟩
        · have hroom : ops.length < maxOps := by omega
          rw [coalesceLoop_edit hk h1 hroom, g1, List.append_assoc]
          rfl
        · rw [List.map_cons]
          refine fits_cons g2 (by simp only [EditOp.toEdit, Edit.stop]; omega) fun f hf => ?_
          obtain ⟨op, hop, rfl⟩ := List.mem_map.mp hf
          have hlt := (g3 op hop).2 h5
          constructor
          · simp only [EditOp.toEdit]
            omega
          · simp only [EditOp.toEdit, Edit.stop]
            omega
        · rcases List.mem_cons.mp hop with rfl | hop
          · refine ⟨le_rfl, ?_⟩
            rintro (h | ⟨t, h⟩)
            · cases h
            · cases h
              exact absurd rfl hk
          · have := (g3 op hop).2 h5
            exact ⟨by omega, fun _ => by omega⟩
        · rw [List.map_cons, patch_cons, g4, ← Nat.add_assoc, ← Nat.add_assoc]
          exact splice_tail (by omega)

theorem Window.replace (h : Window prev new m off na nb) :
    Fits prev.length [EditOp.toEdit new ⟨off, na, off, nb⟩] ∧
      patch prev [EditOp.toEdit new ⟨off, na, off, nb⟩] = new := by
  refine ⟨fits_cons (fits_nil _) h.le_prev (by simp), ?_⟩
  have hs : splice (prev.take (off + na) ++ new.drop (off + nb)) ⟨off, na, (new.drop off).take nb⟩
      = prev.take off ++ new.drop off := splice_tail h.le_prev
  rw [← h.after, List.take_append_drop, h.before, List.take_append_drop] at hs
  exact hs

/-- **Myers' diff** of the window is a patch from one list to the other. -/
theorem myersDiffRun_spec {a b : List UInt32} (ha : na * tupleLen ≤ a.length)
    (hb : nb * tupleLen ≤ b.length) (hwin : Window prev new (matching a b) off na nb) :
    ∃ ops, myersDiffRun a b na nb off off = some ops ∧
      Fits prev.length (ops.map (EditOp.toEdit new)) ∧
      patch prev (ops.map (EditOp.toEdit new)) = new := by
  have hstart : prev.take (off + 0) ++ new.drop (off + 0) = new := by
    rw [Nat.add_zero, hwin.before, List.take_append_drop]
  unfold myersDiffRun
  by_cases h0 : na = 0 ∧ nb = 0
  · rw [if_pos h0]
    refine ⟨[], rfl, fits_nil _, ?_⟩
    have hw : Walk (matching a b) na nb (0 : ℕ) (0 : ℕ) [] na nb := by
      rw [h0.1, h0.2]
      exact .nil _ _
    exact (hwin.eq_of_keep hw rfl).symm.trans hstart
  rw [if_neg h0]
  by_cases h1 : na = 0 ∨ nb = 0 ∨ dBound < na + nb
  · rw [if_pos h1]
    exact ⟨_, rfl, hwin.replace⟩
  rw [if_neg h1]
  obtain ⟨D, snap, raw, hf, hraw, hw, he, -⟩ := search_spec ha hb (show 0 < na + nb by omega)
  simp only [Option.bind_eq_bind, hf, Option.bind_some]
  cases D with
  | zero => exact ⟨[], rfl, fits_nil _, (hwin.eq_of_keep hw he).symm.trans hstart⟩
  | succ D =>
    obtain ⟨rest, g1, g2, -, g4⟩ := coalesceLoop_spec hwin (D + 1) raw.length raw 0 0 []
      le_rfl hw (by rw [List.length_nil]; omega)
    refine ⟨rest, ?_, g2, g4.trans hstart⟩
    simp only [hraw, Option.bind_some]
    exact g1

end Coalesce

/-! ### Trimming -/

section Trim

variable {prev new : List UInt32}

variable (prev new) in
theorem trimPrefix_spec (n : ℕ) : ∀ pre, pre + n ≤ prev.length / tupleLen →
    pre + n ≤ new.length / tupleLen →
    ∃ r, trimPrefix prev new n pre = some r ∧ pre ≤ r ∧ r ≤ pre + n ∧
      ∀ i, pre ≤ i → i < r → tuple prev i = tuple new i := by
  induction n with
  | zero =>
    intro pre _ _
    exact ⟨pre, rfl, le_rfl, le_rfl, fun i h1 h2 => absurd h2 (by omega)⟩
  | succ n ih =>
    intro pre hp hn
    rw [trimPrefix, tokensEqual_of (Nat.div_mul_le_self _ _) (Nat.div_mul_le_self _ _)
      (by omega) (by omega) (by omega) (by omega)]
    simp only [Option.bind_eq_bind, Option.bind_some, matching, Int.toNat_natCast, beq_iff_eq]
    split
    · rename_i heq
      obtain ⟨r, h1, h2, h3, h4⟩ := ih (pre + 1) (by omega) (by omega)
      refine ⟨r, h1, by omega, by omega, fun i hi hr => ?_⟩
      by_cases hip : i = pre
      · rw [hip]
        exact heq
      · exact h4 i (by omega) hr
    · exact ⟨pre, rfl, le_rfl, by omega, fun i h1 h2 => absurd h2 (by omega)⟩

variable (prev new) in
theorem trimSuffix_spec (n : ℕ) : ∀ suf, suf + n ≤ prev.length / tupleLen →
    suf + n ≤ new.length / tupleLen →
    ∃ r, trimSuffix prev new (prev.length / tupleLen) (new.length / tupleLen) n suf = some r ∧
      suf ≤ r ∧ r ≤ suf + n ∧ ∀ i, suf ≤ i → i < r →
        tuple prev (prev.length / tupleLen - 1 - i) = tuple new (new.length / tupleLen - 1 - i) := by
  induction n with
  | zero =>
    intro suf _ _
    exact ⟨suf, rfl, le_rfl, le_rfl, fun i h1 h2 => absurd h2 (by omega)⟩
  | succ n ih =>
    intro suf hp hn
    rw [trimSuffix, tokensEqual_of (Nat.div_mul_le_self _ _) (Nat.div_mul_le_self _ _)
      (by omega) (by omega) (by omega) (by omega)]
    simp only [Option.bind_eq_bind, Option.bind_some, matching, beq_iff_eq]
    rw [show (((prev.length / tupleLen : ℕ) : ℤ) - 1 - suf).toNat
        = prev.length / tupleLen - 1 - suf by omega,
      show (((new.length / tupleLen : ℕ) : ℤ) - 1 - suf).toNat
        = new.length / tupleLen - 1 - suf by omega]
    split
    · rename_i heq
      obtain ⟨r, h1, h2, h3, h4⟩ := ih (suf + 1) (by omega) (by omega)
      refine ⟨r, h1, by omega, by omega, fun i hi hr => ?_⟩
      by_cases his : i = suf
      · rw [his]
        exact heq
      · exact h4 i (by omega) hr
    · exact ⟨suf, rfl, le_rfl, by omega, fun i h1 h2 => absurd h2 (by omega)⟩

/-- What is left between the common ends is a window. -/
theorem window_trim {pre suf : ℕ} (hp : pre + suf ≤ prev.length / tupleLen)
    (hn : pre + suf ≤ new.length / tupleLen)
    (hpre : ∀ i < pre, tuple prev i = tuple new i)
    (hsuf : ∀ i < suf, tuple prev (prev.length / tupleLen - 1 - i)
      = tuple new (new.length / tupleLen - 1 - i)) :
    Window (tokens prev) (tokens new)
      (matching (prev.drop (pre * tupleLen)) (new.drop (pre * tupleLen))) pre
      (prev.length / tupleLen - pre - suf) (new.length / tupleLen - pre - suf) := by
  constructor
  · rw [length_tokens]
    omega
  · rw [length_tokens]
    omega
  · refine List.ext_getElem? fun i => ?_
    rw [List.getElem?_take, List.getElem?_take]
    split
    · rw [getElem?_tokens (by omega), getElem?_tokens (by omega), hpre i (by assumption)]
    · rfl
  · refine List.ext_getElem? fun i => ?_
    rw [List.getElem?_drop, List.getElem?_drop]
    by_cases hi : i < suf
    · have h := hsuf (suf - 1 - i) (by omega)
      rw [show prev.length / tupleLen - 1 - (suf - 1 - i)
          = pre + (prev.length / tupleLen - pre - suf) + i by omega,
        show new.length / tupleLen - 1 - (suf - 1 - i)
          = pre + (new.length / tupleLen - pre - suf) + i by omega] at h
      rw [getElem?_tokens (by omega), getElem?_tokens (by omega), h]
    · rw [List.getElem?_eq_none (by rw [length_tokens]; omega),
        List.getElem?_eq_none (by rw [length_tokens]; omega)]
  · intro x y hx hy hm
    rw [matching, Int.toNat_natCast, Int.toNat_natCast, tuple_drop, tuple_drop, beq_iff_eq] at hm
    rw [getElem?_tokens (by omega), getElem?_tokens (by omega), hm]

end Trim

/-! ### The response -/

/-- The edit an LSP client makes of a `SemanticTokensEdit`. -/
def SemanticTokensEdit.toEdit (e : SemanticTokensEdit) : Edit UInt32 :=
  ⟨e.start, e.deleteCount, e.data.getD []⟩

/-- The edits are a valid delta from `prev` to `new`: every position refers to `prev`. -/
structure ValidDelta (prev new : List UInt32) (edits : List SemanticTokensEdit) : Prop where
  ascending : edits.Pairwise fun e f => e.start < f.start
  disjoint : edits.Pairwise fun e f => e.start + e.deleteCount ≤ f.start
  aligned : ∀ e ∈ edits, 5 ∣ e.start ∧ 5 ∣ e.deleteCount
  within : ∀ e ∈ edits, e.start + e.deleteCount ≤ prev.length
  applies : patch prev (edits.map SemanticTokensEdit.toEdit) = new

theorem toEdit_buildEditJson {new : List UInt32} (h : tupleLen ∣ new.length) (op : EditOp) :
    (buildEditJson op new).toEdit = (op.toEdit (tokens new)).scale tupleLen := by
  have hins : (new.drop (op.insertBStart * tupleLen)).take (op.insertTok * tupleLen)
      = ((tokens new).drop op.insertBStart |>.take op.insertTok).flatten := by
    have hdrop := (chunked_tokens new).drop_flatten op.insertBStart
    rw [flatten_tokens h] at hdrop
    have hc : Chunked tupleLen ((tokens new).drop op.insertBStart) :=
      fun t ht => chunked_tokens new t (List.mem_of_mem_drop ht)
    rw [hdrop, hc.take_flatten]
  unfold buildEditJson SemanticTokensEdit.toEdit EditOp.toEdit Edit.scale
  rw [← hins]
  by_cases hi : 0 < op.insertTok
  · rw [if_pos hi]
    rfl
  · rw [if_neg hi, show op.insertTok = 0 by omega]
    simp

/-- The edits of the response, and what they do. -/
theorem exists_validDelta (prev new : List UInt32) (resultId : Option CStr)
    (hp : 5 ∣ prev.length) (hn : 5 ∣ new.length) :
    ∃ delta, buildSemanticTokensDeltaJson prev new resultId = some delta ∧
      delta.resultId = resultId ∧ ValidDelta prev new delta.edits := by
  obtain ⟨pre, h1, -, h2, h3⟩ := trimPrefix_spec prev new
    (min (prev.length / tupleLen) (new.length / tupleLen)) 0 (by omega) (by omega)
  obtain ⟨suf, h4, -, h5, h6⟩ := trimSuffix_spec prev new
    (min (prev.length / tupleLen - pre) (new.length / tupleLen - pre)) 0 (by omega) (by omega)
  have hwin := window_trim (show pre + suf ≤ prev.length / tupleLen by omega)
    (show pre + suf ≤ new.length / tupleLen by omega) (fun i hi => h3 i (Nat.zero_le i) hi) (fun i hi => h6 i (Nat.zero_le i) hi)
  have hroom : ∀ buf : List UInt32, (buf.length / tupleLen - pre - suf) * tupleLen
      ≤ (buf.drop (pre * tupleLen)).length := by
    intro buf
    have := Nat.div_mul_le_self buf.length tupleLen
    rw [List.length_drop, Nat.sub_mul, Nat.sub_mul]
    omega
  obtain ⟨ops, h7, hfit, hpatch⟩ := myersDiffRun_spec (hroom prev) (hroom new) hwin
  refine ⟨⟨resultId, ops.map (buildEditJson · new)⟩, ?_, rfl, ?_⟩
  · unfold buildSemanticTokensDeltaJson
    simp only [Option.bind_eq_bind, h1, h4, h7, Option.bind_some]
  have hmap : (ops.map (buildEditJson · new)).map SemanticTokensEdit.toEdit
      = (ops.map (EditOp.toEdit (tokens new))).map (Edit.scale tupleLen) := by
    rw [List.map_map, List.map_map]
    exact List.map_congr_left fun op _ => toEdit_buildEditJson hn op
  have hscale := hfit.scale (c := tupleLen) (by decide)
  rw [← hmap, length_tokens, Nat.div_mul_cancel (show tupleLen ∣ prev.length from hp)] at hscale
  obtain ⟨hpair, hle⟩ := hscale
  rw [List.pairwise_map] at hpair
  constructor
  · exact hpair.imp fun h => h.1
  · exact hpair.imp fun h => h.2
  · intro e he
    obtain ⟨op, -, rfl⟩ := List.mem_map.mp he
    exact ⟨Dvd.intro_left _ rfl, Dvd.intro_left _ rfl⟩
  · intro e he
    exact hle e.toEdit (List.mem_map_of_mem he)
  · have hins : ∀ e ∈ ops.map (EditOp.toEdit (tokens new)), Chunked tupleLen e.ins := by
      intro e he t ht
      obtain ⟨op, -, rfl⟩ := List.mem_map.mp he
      exact chunked_tokens new t (List.mem_of_mem_drop (List.mem_of_mem_take ht))
    have hflat := patch_flatten (chunked_tokens prev) hins
    rw [flatten_tokens hp, hpatch, flatten_tokens hn] at hflat
    rw [hmap]
    exact hflat

/-- **The response is a valid delta**, on every path through the builder. -/
theorem buildSemanticTokensDeltaJson_valid (prev new : List UInt32) (resultId : Option CStr)
    (hp : 5 ∣ prev.length) (hn : 5 ∣ new.length) :
    ∃ delta, buildSemanticTokensDeltaJson prev new resultId = some delta ∧
      delta.resultId = resultId ∧ ValidDelta prev new delta.edits :=
  exists_validDelta prev new resultId hp hn

theorem buildSemanticTokensDeltaJson_valid_repeated :
    ∃ delta, buildSemanticTokensDeltaJson [0, 0, 4, 0, 0, 1, 0, 3, 5, 0, 1, 0, 3, 5, 0]
        [0, 0, 4, 0, 0, 1, 0, 3, 5, 0, 2, 0, 3, 5, 0, 1, 0, 3, 5, 0] (some (cstr "2")) = some delta ∧
      delta.resultId = some (cstr "2") ∧
      ValidDelta [0, 0, 4, 0, 0, 1, 0, 3, 5, 0, 1, 0, 3, 5, 0]
        [0, 0, 4, 0, 0, 1, 0, 3, 5, 0, 2, 0, 3, 5, 0, 1, 0, 3, 5, 0] delta.edits :=
  buildSemanticTokensDeltaJson_valid _ _ _ (by decide) (by decide)

end TaskjugglerLsp.Delta
