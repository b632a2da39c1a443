import TaskjugglerLsp.Lib.LineBuffer
import TaskjugglerLsp.SemanticTokens.Buffer

/-!
# What the entries cover

Decoding the integers of `compute_semantic_tokens_data` gives entries with a line, a column
and a length.  The positions of the entries never depend on the texts of the spans, so the
encoding relative to the entry before is always right (`decode_computeSemanticTokensData`).
The lengths of the lines of a token are measured in its text, which the lexer puts together
in a buffer.

`semantic_tokens_cover_iff`: the entries are the extents of the highlighted tokens, line by
line, exactly if that buffer renders the lines of every token (`Measured`) and the counter of
the array has room for all of them.
-/

namespace TaskjugglerLsp

open Lib

/-! ### Entries -/

/-- An entry with its position. -/
structure SemEntry where
  line : ℕ
  column : ℕ
  length : ℕ
  tokenType : UInt32
  deriving DecidableEq

namespace SemEntry

/-- Where an entry begins. -/
def start (e : SemEntry) : ℕ × ℕ := (e.line, e.column)

/-- Where it ends, on its line. -/
def stop (e : SemEntry) : ℕ × ℕ := (e.line, e.column + e.length)

end SemEntry

/-- The entries of an array of integers; a position counts from the entry before, which began
at `p`. -/
def decodeEntries : ℕ × ℕ → List UInt32 → List SemEntry
  | p, deltaLine :: deltaStart :: length :: tokenType :: _ :: rest =>
    let column := if deltaLine = 0 then p.2 + deltaStart.toNat else deltaStart.toNat
    ⟨p.1 + deltaLine.toNat, column, length.toNat, tokenType⟩ ::
      decodeEntries (p.1 + deltaLine.toNat, column) rest
  | _, _ => []

/-- One entry for each line that has a character; the first line begins at `p`. -/
def lineEntries (tokenType : UInt32) : ℕ × ℕ → List ℕ → List SemEntry
  | _, [] => []
  | p, l :: ls =>
    if l = 0 then lineEntries tokenType (p.1 + 1, 0) ls
    else ⟨p.1, p.2, l, tokenType⟩ :: lineEntries tokenType (p.1 + 1, 0) ls

/-- The lengths of the lines of a text. -/
def sourceLengths (mid : CStr) : List ℕ := (mid.splitOn 10).map List.length

/-- The real extents of a token that has the source `mid`. -/
def TokenSpan.extents (s : TokenSpan) (mid : CStr) : List SemEntry :=
  match classify s.tokenKind with
  | some (tokenType, _) => lineEntries tokenType s.start.nat (sourceLengths mid)
  | none => []

/-- The first entry is on an earlier line, or ends before the second begins. -/
def EntryBefore (x y : SemEntry) : Prop := Before x.start y.start ∧ ¬ Before y.start x.stop

/-- **The entries cover the source**: in order and disjoint, they are the extents of the
highlighted tokens. -/
structure Covers (src : CStr) (spans : List TokenSpan) (entries : List SemEntry) : Prop where
  ordered : entries.Pairwise EntryBefore
  extents : ∃ source : TokenSpan → CStr, (∀ span ∈ spans, SpanSource src span (source span)) ∧
    entries = spans.flatMap fun span => span.extents (source span)

/-! ### Entries of one token -/

theorem mem_lineEntries {tokenType : UInt32} {p : ℕ × ℕ} {ls : List ℕ} {last : ℕ} {e : SemEntry}
    (h : e ∈ lineEntries tokenType p (ls ++ [last])) :
    (e.start = p ∨ (p.1 < e.line ∧ e.column = 0)) ∧ 0 < e.length ∧
      (e.line < p.1 + ls.length ∨
        e.stop = (p.1 + ls.length, (if ls = [] then p.2 else 0) + last)) := by
  induction ls generalizing p with
  | nil =>
    rw [List.nil_append, lineEntries] at h
    split at h
    case isTrue => cases h
    case isFalse hne =>
      rw [List.mem_singleton.mp h]
      exact ⟨Or.inl rfl, Nat.pos_of_ne_zero hne, Or.inr rfl⟩
  | cons l ls ih =>
    have hrest : e ∈ lineEntries tokenType (p.1 + 1, 0) (ls ++ [last]) →
        (e.start = p ∨ (p.1 < e.line ∧ e.column = 0)) ∧ 0 < e.length ∧
          (e.line < p.1 + (l :: ls).length ∨
            e.stop = (p.1 + (l :: ls).length, (if l :: ls = [] then p.2 else 0) + last)) := by
      intro h
      obtain ⟨hstart, hlen, hstop⟩ := ih h
      simp only [SemEntry.start, SemEntry.stop, Prod.mk.injEq, List.length_cons, ite_self,
        if_neg (List.cons_ne_nil l ls)] at hstart hstop ⊢
      refine ⟨Or.inr ?_, hlen, ?_⟩ <;> omega
    rw [List.cons_append, lineEntries] at h
    split at h
    case isTrue => exact hrest h
    case isFalse hne =>
      rcases List.mem_cons.mp h with rfl | h
      · exact ⟨Or.inl rfl, Nat.pos_of_ne_zero hne, Or.inl (by simp)⟩
      · exact hrest h

theorem lineEntries_concat (tokenType : UInt32) (p : ℕ × ℕ) (ls : List ℕ) {last : ℕ}
    (hlast : last ≠ 0) : lineEntries tokenType p (ls ++ [last])
      = lineEntries tokenType p ls ++
        [⟨p.1 + ls.length, if ls = [] then p.2 else 0, last, tokenType⟩] := by
  induction ls generalizing p with
  | nil => simp [lineEntries, hlast]
  | cons l ls ih =>
    rw [List.cons_append, lineEntries, lineEntries, ih, ite_self, if_neg (List.cons_ne_nil l ls),
      List.length_cons, Nat.add_assoc, Nat.add_comm 1]
    split_ifs <;> rfl

theorem le_line_of_mem {tokenType : UInt32} {p : ℕ × ℕ} {ls : List ℕ} {e : SemEntry}
    (h : e ∈ lineEntries tokenType p ls) : p.1 ≤ e.line := by
  induction ls generalizing p with
  | nil => cases h
  | cons l ls ih =>
    rw [lineEntries] at h
    split at h
    case isTrue => exact Nat.le_of_succ_le (ih h)
    case isFalse =>
      rcases List.mem_cons.mp h with rfl | h
      · exact le_rfl
      · exact Nat.le_of_succ_le (ih h)

/-- The entries of a token tell the lengths of its lines. -/
theorem lineEntries_inj {tokenType : UInt32} {p : ℕ × ℕ} {ls ls' : List ℕ}
    (hlen : ls.length = ls'.length)
    (h : lineEntries tokenType p ls = lineEntries tokenType p ls') : ls = ls' := by
  induction ls generalizing p ls' with
  | nil => exact (List.length_eq_zero_iff.mp hlen.symm).symm
  | cons l ls ih =>
    obtain ⟨l', ls', rfl⟩ := List.exists_cons_of_length_eq_add_one hlen.symm
    have hrest := Nat.succ.inj hlen
    -- an entry of this line is none of a later one
    have hne {n : ℕ} {x y : List ℕ} : ⟨p.1, p.2, n, tokenType⟩ :: lineEntries tokenType (p.1 + 1, 0) x
        ≠ lineEntries tokenType (p.1 + 1, 0) y := by
      intro heq
      have hmem := le_line_of_mem (heq ▸ List.mem_cons_self)
      exact absurd hmem (Nat.not_succ_le_self p.1)
    rw [lineEntries, lineEntries] at h
    split_ifs at h with h0 h0'
    · rw [h0, h0', ih hrest h]
    · exact absurd h.symm hne
    · exact absurd h hne
    · rw [List.cons.injEq, SemEntry.mk.injEq] at h
      rw [h.1.2.2.1, ih hrest h.2]

theorem lineEntries_pairwise (tokenType : UInt32) (p : ℕ × ℕ) (ls : List ℕ) :
    (lineEntries tokenType p ls).Pairwise EntryBefore := by
  induction ls generalizing p with
  | nil => exact .nil
  | cons l ls ih =>
    rw [lineEntries]
    split
    case isTrue => exact ih _
    case isFalse =>
      refine List.pairwise_cons.mpr ⟨fun e he => ?_, ih _⟩
      have hline := le_line_of_mem he
      refine ⟨Or.inl hline, ?_⟩
      unfold Before SemEntry.start SemEntry.stop
      simp only at hline ⊢
      omega

/-! ### Decoding -/

/-- Where the entry before began. -/
def Emitted.origin (e : Emitted) : ℕ × ℕ := (e.prevLine.toNat, e.prevChar.toNat)

/-- The buffer decodes to the entries, whatever follows. -/
def Encodes (e : Emitted) (entries : List SemEntry) : Prop :=
  ∀ more, decodeEntries (0, 0) (e.buf ++ more) = entries ++ decodeEntries e.origin more

/-- **One entry is encoded** if it does not begin before the last one. -/
theorem Encodes.push {e : Emitted} {entries : List SemEntry} (h : Encodes e entries)
    (tokenType modifiers : UInt32) {line character length : UInt32}
    (hle : ¬ Before (line.toNat, character.toNat) e.origin) (hlen : length ≠ 0) :
    Encodes (pushRelativeEntry tokenType modifiers e line character length)
      (entries ++ [⟨line.toNat, character.toNat, length.toNat, tokenType⟩]) := by
  intro more
  unfold Before Emitted.origin at hle
  simp only at hle
  have hline : (line - e.prevLine).toNat = line.toNat - e.prevLine.toNat :=
    UInt32.toNat_sub_of_le _ _ (UInt32.le_iff_toNat_le.mpr (by omega))
  have hsame : line - e.prevLine = 0 ↔ line.toNat = e.prevLine.toNat := by
    rw [← UInt32.toNat_inj, hline, UInt32.toNat_zero]
    omega
  have hcolumn : (if line - e.prevLine = 0 then e.prevChar.toNat
      + (if line - e.prevLine = 0 then character - e.prevChar else character).toNat
      else (if line - e.prevLine = 0 then character - e.prevChar else character).toNat)
      = character.toNat := by
    split_ifs with h0
    · rw [UInt32.toNat_sub_of_le _ _ (UInt32.le_iff_toNat_le.mpr ?_)] <;>
        have := hsame.mp h0 <;> omega
    · rfl
  simp only [pushRelativeEntry, pushEntry, if_neg hlen, List.append_assoc]
  rw [h, List.cons_append, List.cons_append, List.cons_append, List.cons_append, List.cons_append,
    List.nil_append, decodeEntries]
  simp only [Emitted.origin, hcolumn, hline]
  rw [Nat.add_sub_cancel' (by omega)]
  rfl

/-- The lines of a token but the last: they are measured in what is left of its text. -/
theorem Encodes.lines (tokenType modifiers : UInt32) {n : ℕ} {line character : UInt32} {p : CStr}
    {e : Emitted} {entries : List SemEntry} (h : Encodes e entries)
    (hle : ¬ Before (line.toNat, character.toNat) e.origin) (hline : line.toNat + n < 2 ^ 32)
    (hp : p.length < 2 ^ 32) :
    Encodes (emitLines tokenType modifiers n line character p e)
        (entries ++ lineEntries tokenType (line.toNat, character.toNat) (lineLengths 10 n p)) ∧
      ¬ Before (line.toNat + n, if n = 0 then character.toNat else 0)
        (emitLines tokenType modifiers n line character p e).origin := by
  induction n generalizing line character p e entries with
  | zero =>
    refine ⟨?_, hle⟩
    rw [lineLengths, lineEntries, List.append_nil]
    exact h
  | succ n ih =>
    have hnext : (line + 1).toNat = line.toNat + 1 := by
      rw [UInt32.toNat_add, UInt32.toNat_one, Nat.mod_eq_of_lt (by omega)]
    have hrest : (if 10 ∈ p then (p.dropWhile (· != 10)).tail else p).length < 2 ^ 32 := by
      split
      · have hdrop := (List.dropWhile_sublist (l := p) (· != 10)).length_le
        rw [List.length_tail]
        omega
      · exact hp
    have hseg : (UInt32.ofNat (p.takeWhile (· != 10)).length).toNat
        = (p.takeWhile (· != 10)).length := by
      have htake := (List.takeWhile_prefix (l := p) (· != 10)).length_le
      rw [UInt32.toNat_ofNat', Nat.mod_eq_of_lt (by omega)]
    have hzero : UInt32.ofNat (p.takeWhile (· != 10)).length = 0
        ↔ (p.takeWhile (· != 10)).length = 0 := by
      rw [← UInt32.toNat_inj, hseg, UInt32.toNat_zero]
    -- the other lines begin in column 0
    have hgo {e : Emitted} {entries : List SemEntry} (h : Encodes e entries)
        (hle : e.origin.1 ≤ line.toNat) := by
      have hle' : ¬ Before ((line + 1).toNat, (0 : UInt32).toNat) e.origin := by
        unfold Before
        omega
      have := ih h hle' (by omega) hrest
      rwa [hnext, UInt32.toNat_zero, ite_self, Nat.add_assoc, Nat.add_comm 1 n] at this
    have horigin : e.origin.1 ≤ line.toNat := by
      unfold Before at hle
      omega
    rw [emitLines, lineLengths, lineEntries, if_neg (Nat.succ_ne_zero n)]
    by_cases h0 : (p.takeWhile (· != 10)).length = 0
    · simp only [if_pos (hzero.mpr h0), if_pos h0]
      exact hgo h horigin
    · have hpush := h.push tokenType modifiers hle (mt hzero.mp h0)
      rw [hseg] at hpush
      simp only [if_neg (mt hzero.mp h0), if_neg h0]
      rw [List.append_cons]
      exact hgo hpush le_rfl

/-- The lengths that the entries of a span have. -/
def TokenSpan.codeLengths (s : TokenSpan) : List ℕ :=
  if s.start.line = s.stop.line then [s.stop.character.toNat - s.start.character.toNat]
  else lineLengths 10 (s.stop.line.toNat - s.start.line.toNat) (s.text.getD []) ++
    [s.stop.character.toNat]

/-- The entries of a span. -/
def TokenSpan.codeEntries (s : TokenSpan) : List SemEntry :=
  match classify s.tokenKind with
  | some (tokenType, _) => lineEntries tokenType s.start.nat s.codeLengths
  | none => []

/-- A span as the lexer records it. -/
structure TokenSpan.Proper (s : TokenSpan) : Prop where
  before : Before s.start.nat s.stop.nat
  stop_pos : s.stop.character ≠ 0
  text_lt : (s.text.getD []).length < 2 ^ 32

theorem Encodes.token (tokenType modifiers : UInt32) {s : TokenSpan} (hs : s.Proper) {e : Emitted}
    {entries : List SemEntry} (h : Encodes e entries) (hle : ¬ Before s.start.nat e.origin) :
    Encodes (emitToken tokenType modifiers e s)
        (entries ++ lineEntries tokenType s.start.nat s.codeLengths) ∧
      Before (emitToken tokenType modifiers e s).origin s.stop.nat := by
  have hbefore := hs.before
  unfold Before LspPos.nat at hbefore
  simp only at hbefore
  rw [emitToken, TokenSpan.codeLengths]
  split
  case isTrue hsame =>
    have hline := congrArg UInt32.toNat hsame
    have hlen : (s.stop.character - s.start.character).toNat
        = s.stop.character.toNat - s.start.character.toNat :=
      UInt32.toNat_sub_of_le _ _ (UInt32.le_iff_toNat_le.mpr (by omega))
    have hne : s.stop.character - s.start.character ≠ 0 := by
      rw [ne_eq, ← UInt32.toNat_inj, hlen, UInt32.toNat_zero]
      omega
    have hpush := h.push tokenType modifiers hle hne
    rw [hlen] at hpush
    rw [lineEntries, if_neg (by omega)]
    exact ⟨hpush, hs.before⟩
  case isFalse hmulti =>
    have hlt : s.start.line.toNat < s.stop.line.toNat := by
      have := mt UInt32.toNat_inj.mp hmulti
      omega
    obtain ⟨hlines, horigin⟩ := h.lines tokenType modifiers (n := s.stop.line.toNat
      - s.start.line.toNat) (p := s.text.getD []) hle (by have := s.stop.line.toNat_lt; omega)
      hs.text_lt
    rw [Nat.add_sub_cancel' hlt.le, if_neg (by omega)] at horigin
    have horigin : ¬ Before (s.stop.line.toNat, (0 : UInt32).toNat) _ := horigin
    have hpush := hlines.push tokenType modifiers horigin hs.stop_pos
    have hlast : s.stop.character.toNat ≠ 0 := by
      rw [← UInt32.toNat_zero, ne_eq, UInt32.toNat_inj]
      exact hs.stop_pos
    have hne : lineLengths 10 (s.stop.line.toNat - s.start.line.toNat) (s.text.getD []) ≠ [] := by
      rw [← List.length_pos_iff, length_lineLengths]
      omega
    rw [lineEntries_concat _ _ _ hlast, if_neg hne, length_lineLengths, ← List.append_assoc]
    simp only [if_neg (Nat.sub_ne_zero_of_lt hlt)]
    rw [LspPos.nat, Nat.add_sub_cancel' hlt.le]
    exact ⟨hpush, Or.inr ⟨rfl, Nat.pos_of_ne_zero hlast⟩⟩

/-- **Decoding undoes the encoding**: the entries are those of the spans. -/
theorem decode_computeSemanticTokensData {spans : List TokenSpan}
    (hproper : ∀ s ∈ spans, s.Proper) (hsorted : spans.Pairwise SpanBefore) :
    decodeEntries (0, 0) (computeSemanticTokensData spans)
      = spans.flatMap TokenSpan.codeEntries := by
  have hfold : ∀ (spans : List TokenSpan) (e : Emitted) (entries : List SemEntry),
      (∀ s ∈ spans, s.Proper) → spans.Pairwise SpanBefore → Encodes e entries →
      (∀ s ∈ spans, ¬ Before s.start.nat e.origin) →
      Encodes (spans.foldl emitSpan e) (entries ++ spans.flatMap TokenSpan.codeEntries) := by
    intro spans
    induction spans with
    | nil =>
      intro e entries _ _ h _
      rwa [List.flatMap_nil, List.append_nil]
    | cons s spans ih =>
      intro e entries hproper hsorted h hle
      obtain ⟨hs, hsorted⟩ := List.pairwise_cons.mp hsorted
      have hrest := fun x hx => hproper x (List.mem_cons_of_mem s hx)
      rw [List.foldl_cons, List.flatMap_cons, ← List.append_assoc, emitSpan, TokenSpan.codeEntries]
      cases hc : classify s.tokenKind with
      | none =>
        refine ih _ _ hrest hsorted ?_ fun x hx => hle x (List.mem_cons_of_mem s hx)
        rwa [List.append_nil]
      | some c =>
        obtain ⟨htoken, horigin⟩ := h.token c.1 c.2 (hproper s List.mem_cons_self)
          (hle s List.mem_cons_self)
        refine ih _ _ hrest hsorted htoken fun x hx hb => (hs x hx).1 (hb.trans horigin)
  have hempty : Encodes ⟨[], 0, 0⟩ [] := fun more => rfl
  have h := hfold spans _ _ hproper hsorted hempty
    (fun s _ hb => by unfold Before Emitted.origin at hb; simp at hb) []
  rwa [List.append_nil, List.nil_append, decodeEntries.eq_def _ [], List.append_nil] at h

/-! ### Entries of a whole scan -/

theorem flatMap_eq_iff {α β : Type*} {l : List α} {region : α → β → Prop} {f g : α → List β}
    (hl : l.Pairwise fun x y => ∀ b, ¬ (region x b ∧ region y b))
    (hf : ∀ x ∈ l, ∀ b ∈ f x, region x b) (hg : ∀ x ∈ l, ∀ b ∈ g x, region x b) :
    l.flatMap f = l.flatMap g ↔ ∀ x ∈ l, f x = g x := by
  classical
  refine ⟨fun h => ?_, fun h => List.flatMap_congr h⟩
  induction l with
  | nil => exact fun x hx => by cases hx
  | cons x l ih =>
    obtain ⟨hx, hl⟩ := List.pairwise_cons.mp hl
    have hfilter (k : α → List β) (hk : ∀ y ∈ x :: l, ∀ b ∈ k y, region y b) :
        ((x :: l).flatMap k).filter (region x ·) = k x := by
      have hrest : (l.flatMap k).filter (region x ·) = [] := by
        rw [List.filter_eq_nil_iff]
        intro b hb
        obtain ⟨y, hy, hby⟩ := List.mem_flatMap.mp hb
        rw [decide_eq_true_eq]
        exact fun hbx => hx y hy b ⟨hbx, hk y (List.mem_cons_of_mem x hy) b hby⟩
      rw [List.flatMap_cons, List.filter_append, hrest, List.append_nil, List.filter_eq_self]
      intro b hb
      rw [decide_eq_true_eq]
      exact hk x List.mem_cons_self b hb
    have hhead : f x = g x := by rw [← hfilter f hf, h, hfilter g hg]
    rw [List.flatMap_cons, List.flatMap_cons, hhead, List.append_cancel_left_eq] at h
    have hrest := ih hl (fun y hy => hf y (List.mem_cons_of_mem x hy))
      (fun y hy => hg y (List.mem_cons_of_mem x hy)) h
    exact List.forall_mem_cons.mpr ⟨hhead, hrest⟩

/-- The entry lies in the range of the span. -/
def TokenSpan.Holds (s : TokenSpan) (e : SemEntry) : Prop :=
  ¬ Before e.start s.start.nat ∧ 0 < e.length ∧ ¬ Before s.stop.nat e.stop

/-! ### The text of a token -/

theorem bufferAll_eq_keep (pieces : List CStr) :
    bufferAll pieces = (keep (strBufSize - 2) pieces).flatten := by
  have hfold : ∀ (pieces : List CStr) (buf : CStr), buf.length ≤ strBufSize - 2 →
      pieces.foldl (fun buf piece =>
        if buf.length + piece.length < strBufSize - 1 then buf ++ piece else buf) buf
        = buf ++ (keep (strBufSize - 2 - buf.length) pieces).flatten := by
    intro pieces
    induction pieces with
    | nil => exact fun buf _ => (List.append_nil buf).symm
    | cons piece pieces ih =>
      intro buf hbuf
      have hsize : strBufSize = 4096 := rfl
      rw [List.foldl_cons, keep]
      by_cases hfits : buf.length + piece.length < strBufSize - 1
      · rw [if_pos hfits, if_pos (by omega), ih _ (by rw [List.length_append]; omega),
          List.flatten_cons, List.append_assoc, List.length_append, Nat.sub_sub _ buf.length]
      · rw [if_neg hfits, if_neg (by omega), ih _ hbuf]
  exact hfold pieces [] (Nat.zero_le _)

section Token

variable {input pre mid : CStr} {span : TokenSpan}

theorem Pushed.lengths (h : Pushed input span pre mid) :
    ∃ last, sourceLengths mid = lineLengths 10 (mid.count 10) mid ++ [last] ∧
      span.codeLengths = lineLengths 10 (mid.count 10) (span.text.getD []) ++ [last] ∧
      span.stop.nat = (span.start.nat.1 + mid.count 10,
        (if mid.count 10 = 0 then span.start.nat.2 else 0) + last) := by
  obtain ⟨hlines, hline⟩ : (mid.splitOn (10 : UInt8)).map List.length = _ ∧ _ :=
    map_length_splitOn span.start.nat mid
  have hcursor : cursor (· == 10) (fun _ => 1) span.start.nat mid = span.stop.nat := by
    rw [← h.start_eq, ← h.stop_eq, bytePos, bytePos, cursor_append]
    rfl
  have hbefore := before_cursor isNewline one_pos_width span.start.nat h.ne_nil
  rw [show cursor isNewline (fun _ => 1) span.start.nat mid = span.stop.nat from hcursor] at hbefore
  unfold Before at hbefore
  rw [hcursor] at hlines hline
  have hmem : (10 ∈ mid) ↔ mid.count 10 ≠ 0 := by rw [← List.count_pos_iff, Nat.pos_iff_ne_zero]
  simp only [hmem, ite_not] at hlines
  refine ⟨_, hlines, ?_, Prod.ext hline ?_⟩
  · rw [TokenSpan.codeLengths]
    by_cases hzero : mid.count 10 = 0
    · have hsame : span.start.line = span.stop.line := by
        rw [hzero, Nat.add_zero] at hline
        exact UInt32.toNat_inj.mp hline.symm
      rw [if_pos hsame, hzero, if_pos rfl, lineLengths, List.nil_append]
      rfl
    · have hmulti : span.start.line ≠ span.stop.line := by
        intro hsame
        rw [LspPos.nat, LspPos.nat, hsame] at hline
        exact hzero (Nat.left_eq_add.mp hline)
      have hcount : span.stop.line.toNat - span.start.line.toNat = mid.count 10 :=
        Nat.sub_eq_of_eq_add' hline
      rw [if_neg hmulti, hcount, if_neg hzero]
      rfl
  · by_cases hzero : mid.count 10 = 0
    · simp only [if_pos hzero]
      omega
    · simp only [if_neg hzero]
      omega

theorem Pushed.holds {ls : List ℕ} {last : ℕ} {tokenType : UInt32} {e : SemEntry}
    (hlen : ls.length = mid.count 10)
    (hstop : span.stop.nat = (span.start.nat.1 + mid.count 10,
      (if mid.count 10 = 0 then span.start.nat.2 else 0) + last))
    (h : e ∈ lineEntries tokenType span.start.nat (ls ++ [last])) : span.Holds e := by
  obtain ⟨hstart, hpos, hend⟩ := mem_lineEntries h
  have hnil : ls = [] ↔ mid.count 10 = 0 := by rw [← List.length_eq_zero_iff, hlen]
  simp only [hnil, hlen] at hend
  rw [← hstop] at hend
  refine ⟨?_, hpos, ?_⟩
  · unfold Before
    rcases hstart with hstart | ⟨hline, -⟩
    · rw [hstart]
      omega
    · exact fun hb => by
        simp only [SemEntry.start] at hb
        omega
  · unfold Before
    rcases hend with hline | hend
    · have hfst := congrArg Prod.fst hstop
      simp only [SemEntry.stop] at hfst ⊢
      omega
    · rw [hend]
      omega

/-- **The entries of a token** are its extents exactly if its lines are measured. -/
theorem Pushed.codeEntries_iff (h : Pushed input span pre mid) :
    span.codeEntries = span.extents mid ↔
      Measured (strBufSize - 2) (sourceLengths mid).dropLast := by
  obtain ⟨last, hsource, hcode, -⟩ := h.lengths
  rw [TokenSpan.codeEntries, TokenSpan.extents, hcode, hsource, List.dropLast_concat]
  cases h.text with
  | single hline hkind ht =>
    rw [List.count_eq_zero.mpr hline]
    exact ⟨fun _ => trivial, fun _ => rfl⟩
  | @pieces pieces hkind hmid hpieces ht =>
    obtain ⟨c, hc⟩ : ∃ c, classify span.tokenKind = some c := by
      rcases hkind with hkind | hkind | hkind <;> rw [hkind] <;> exact ⟨_, rfl⟩
    have hiff := lineLengths_keep_iff hpieces (a := []) List.not_mem_nil
      (show ([] : CStr).length ≤ strBufSize - 2 from Nat.zero_le _)
    rw [List.nil_append, List.nil_append, List.length_nil, Nat.sub_zero, ← bufferAll_eq_keep,
      ← hmid] at hiff
    rw [hc, ht, Option.getD_some, ← hiff]
    refine ⟨fun heq => ?_, fun heq => by rw [heq]⟩
    have hlen : (lineLengths 10 (mid.count 10) (bufferAll pieces) ++ [last]).length
        = (lineLengths 10 (mid.count 10) mid ++ [last]).length := by
      simp only [List.length_append, length_lineLengths]
    exact List.append_cancel_right (lineEntries_inj hlen heq)

end Token

/-! ### A whole scan -/

theorem LexAction.run_tokSpans {c : StartCondition} {a : LexAction} {text : CStr}
    (hfits : a.Fits c text) (g : LexGlobals) :
    (a.run c g text).1.2.tokSpans = g.tokSpans ∨ (10 ∉ text ∧ ∃ span : TokenSpan,
      span.stop = g.pos ∧ (a.run c g text).1.2.tokSpans = g.tokSpans ++ [span]) := by
  cases a with
  | skip | newline => exact Or.inl rfl
  | openFragment next => exact Or.inl (by simp [LexAction.run, strAppend_eq])
  | append | appendNewline => exact Or.inl (by simp [LexAction.run, strAppend_eq])
  | badNewline => exact Or.inl rfl
  | lineComment => exact Or.inr ⟨hfits.2, _, rfl, rfl⟩
  | closeComment =>
    refine Or.inr ⟨hfits.2, ⟨tkBlockComment, g.mfragStart, g.pos,
      some (g.strAppend text).strBuf⟩, rfl, ?_⟩
    simp [LexAction.run, LexGlobals.pushTokSpan, LexGlobals.pos, strAppend_eq]
  | closeString code =>
    refine Or.inr ⟨hfits.2.1, ⟨code, g.mfragStart, g.pos,
      some (g.strAppend text).strBuf⟩, rfl, ?_⟩
    simp [LexAction.run, LexGlobals.emitKwMfragText, LexGlobals.pushTokSpan, LexGlobals.pos,
      strAppend_eq]
  | emitKw code => exact Or.inr ⟨hfits.2.1, _, rfl, rfl⟩
  | emitPlain code =>
    obtain ⟨-, -, hspans⟩ := emitPlain_spec g code text
    rcases hspans with hspans | ⟨spanText, -, hspans⟩
    · exact Or.inl hspans
    · exact Or.inr ⟨hfits.2.1, _, rfl, hspans⟩

theorem lexReached_stop_pos {input : CStr} (hlen : input.length < 2 ^ 32) {s : LexState}
    (h : LexReached input s) : ∀ span ∈ s.vars.tokSpans, span.stop.character ≠ 0 := by
  induction h with
  | start vars => exact fun span hspan => by cases hspan
  | wrapper b t _ ih => exact ih
  | @step s hr ih =>
    obtain ⟨before, since, hinv⟩ := lexReached_inv hr
    obtain ⟨out, hout⟩ : ∃ out, lexer.step s = out := ⟨_, rfl⟩
    have hs := lexer.steps_step s
    rw [hout] at hs ⊢
    cases hs with
    | @eof k g t hrest heof =>
      have hspans : g.tokSpans = s.vars.tokSpans := by
        have := congrArg (·.1.2.tokSpans) heof
        rw [← this]
        cases s.cond <;> rfl
      rw [hspans]
      exact ih
    | echo hrest hnone => exact ih
    | @rule r text rest k g t hrest hlongest hact =>
      have hfits := lexRules_fit s.cond r hlongest.mem text hlongest.matches
      have hg : g = (r.action.run s.cond (s.vars.userAction text) text).1.2 :=
        (congrArg (·.1.2) hact).symm
      intro span hspan
      rcases LexAction.run_tokSpans hfits (s.vars.userAction text) with hsame | ⟨hline, new, hstop, hnew⟩
      · rw [hg, hsame] at hspan
        exact ih span hspan
      · rw [hg, hnew] at hspan
        rcases List.mem_append.mp hspan with hspan | hspan
        · exact ih span hspan
        · obtain ⟨hat, -⟩ := hinv.at_pos.userAction hline
          have hcolumn : (s.vars.userAction text).yycolumn < 2 ^ 32 := by
            have hin : (before ++ since ++ text).length ≤ input.length := by
              rw [hinv.eq, hrest]
              simp only [List.length_append]
              omega
            have hle := (cursor_le (0, 0) (before ++ since ++ text)).2
            rw [← bytePos, ← hat.pos_eq] at hle
            exact (hle.trans (by omega)).trans_lt hlen
          have hpos : 0 < (s.vars.userAction text).yycolumn :=
            Nat.lt_of_lt_of_le (List.length_pos_iff.mpr hlongest.ne_nil) (Nat.le_add_left _ _)
          rw [List.mem_singleton.mp hspan, hstop, LexGlobals.pos, ne_eq, ← UInt32.toNat_inj,
            UInt32.toNat_ofNat', Nat.mod_eq_of_lt hcolumn, UInt32.toNat_zero]
          exact hpos.ne'

theorem Pushed.source {src input pre mid : CStr} {span : TokenSpan} (hin : input <+: src)
    (h : Pushed input span pre mid) : SpanSource src span mid := by
  obtain ⟨post, hpost⟩ := h.stop'.isPrefix.trans hin
  exact ⟨pre, post, hpost.symm, h.start_eq, h.stop_eq⟩

theorem Pushed.text_lt {input pre mid : CStr} {span : TokenSpan} (h : Pushed input span pre mid)
    (hlen : input.length < 2 ^ 32) : (span.text.getD []).length < 2 ^ 32 := by
  cases h.text with
  | single _ _ ht =>
    rcases ht with ht | ht
    · rw [ht]
      exact Nat.two_pow_pos 32
    · have hle := h.stop'.isPrefix.length_le
      rw [List.length_append] at hle
      rw [ht, Option.getD_some]
      omega
  | @pieces pieces _ _ _ ht =>
    rw [ht, Option.getD_some]
    exact (length_bufferAll_lt pieces).trans (by decide)

/-- The ranges of two spans share no entry. -/
theorem SpanBefore.not_holds {x y : TokenSpan} (h : SpanBefore x y) (e : SemEntry) :
    ¬ (x.Holds e ∧ y.Holds e) := by
  rintro ⟨⟨-, hpos, hstop⟩, ⟨hstart, -, -⟩⟩
  have hle := h.1
  unfold Before SemEntry.start SemEntry.stop at *
  simp only at *
  omega

theorem SpanBefore.entryBefore {x y : TokenSpan} (h : SpanBefore x y) {a b : SemEntry}
    (ha : x.Holds a) (hb : y.Holds b) : EntryBefore a b := by
  obtain ⟨-, hpos, hstop⟩ := ha
  obtain ⟨hstart, -, -⟩ := hb
  have hle := h.1
  unfold EntryBefore Before SemEntry.start SemEntry.stop at *
  simp only at *
  omega

theorem LexReached.proper {src input : CStr} (hscan : yyScanString src = some input) {s : LexState}
    (h : LexReached input s) : ∀ span ∈ s.vars.tokSpans, span.Proper := by
  intro span hspan
  have hsize := (yyScanString_spec hscan).2
  have hlen : input.length < 2 ^ 32 := by omega
  obtain ⟨before, since, hinv⟩ := lexReached_inv h
  obtain ⟨pre, mid, -, hpushed⟩ := hinv.laid.pushed hlen span hspan
  exact ⟨(h.laid_spans hscan).1 span hspan, lexReached_stop_pos hlen h span hspan,
    hpushed.text_lt hlen⟩

/-! ### How many entries there are -/

/-- How many lines of a highlighted token have a character, on the last line up to its end and on
the others in its text. -/
def TokenSpan.highlightedLines (s : TokenSpan) : ℕ :=
  if (classify s.tokenKind).isSome then s.codeLengths.countP (· ≠ 0) else 0

/-- How many lines of highlighted tokens have a character. -/
def highlightedLines (spans : List TokenSpan) : ℕ := (spans.map (·.highlightedLines)).sum

/-- So many entries of five integers are counted by an `int`. -/
def maxEntries : ℕ := 429496729

theorem length_lineEntries (tokenType : UInt32) (p : ℕ × ℕ) (ls : List ℕ) :
    (lineEntries tokenType p ls).length = ls.countP (· ≠ 0) := by
  induction ls generalizing p with
  | nil => rfl
  | cons l ls ih =>
    rw [lineEntries, List.countP_cons]
    by_cases hl : l = 0
    · simp [hl, ih]
    · simp [hl, ih]

theorem TokenSpan.length_codeEntries (s : TokenSpan) :
    s.codeEntries.length = s.highlightedLines := by
  unfold TokenSpan.codeEntries TokenSpan.highlightedLines
  cases classify s.tokenKind with
  | none => rfl
  | some x => exact length_lineEntries x.1 s.start.nat s.codeLengths

theorem length_decodeEntries : ∀ (p : ℕ × ℕ) (l : List UInt32),
    (decodeEntries p l).length = l.length / 5
  | p, deltaLine :: deltaStart :: length :: tokenType :: modifiers :: rest => by
    rw [decodeEntries, List.length_cons, length_decodeEntries]
    exact (Nat.add_div_right _ (by decide)).symm
  | _, [] | _, [_] | _, [_, _] | _, [_, _, _] | _, [_, _, _, _] => by simp [decodeEntries]

/-- **The number of integers** that are emitted. -/
theorem LexReached.length_computeSemanticTokensData {src input : CStr}
    (hscan : yyScanString src = some input) {s : LexState} (h : LexReached input s) :
    (computeSemanticTokensData s.vars.tokSpans).length = 5 * highlightedLines s.vars.tokSpans := by
  have hentries := length_decodeEntries (0, 0) (computeSemanticTokensData s.vars.tokSpans)
  rw [decode_computeSemanticTokensData (h.proper hscan) (h.laid_spans hscan).2,
    List.length_flatMap] at hentries
  simp only [TokenSpan.length_codeEntries] at hentries
  rw [highlightedLines, hentries,
    Nat.mul_div_cancel' (five_dvd_computeSemanticTokensData s.vars.tokSpans)]

/-- The array of a scan has its integers exactly if the counter has room for all. -/
theorem LexReached.computeSemanticTokensBuf_iff {src input : CStr}
    (hscan : yyScanString src = some input) {s : LexState} (h : LexReached input s)
    {data : List UInt32} :
    computeSemanticTokensBuf s.vars.tokSpans s.vars.numSemEntries = some data ↔
      highlightedLines s.vars.tokSpans ≤ maxEntries ∧
        data = computeSemanticTokensData s.vars.tokSpans := by
  rw [h.computeSemanticTokensBuf_eq hscan, h.length_computeSemanticTokensData hscan]
  have hroom : 5 * highlightedLines s.vars.tokSpans < 2 ^ 31 ↔
      highlightedLines s.vars.tokSpans ≤ maxEntries := by
    unfold maxEntries
    omega
  simp only [hroom]
  by_cases hle : highlightedLines s.vars.tokSpans ≤ maxEntries
  · rw [if_pos hle, Option.some.injEq]
    exact ⟨fun heq => ⟨hle, heq.symm⟩, fun heq => heq.2.symm⟩
  · rw [if_neg hle]
    exact ⟨fun heq => (by cases heq), fun heq => absurd heq.1 hle⟩

/-! ### What they cover -/

/-- The entries are the extents of the tokens exactly if the buffer of the lexer renders the
lines of every token. -/
theorem LexReached.covers_iff {src input : CStr} {s : LexState}
    (hscan : yyScanString src = some input) (h : LexReached input s) :
    Covers src s.vars.tokSpans
        (decodeEntries (0, 0) (computeSemanticTokensData s.vars.tokSpans)) ↔
      ∀ span ∈ s.vars.tokSpans, ∀ mid, SpanSource src span mid →
        Measured (strBufSize - 2) (sourceLengths mid).dropLast := by
  obtain ⟨hin, hsize⟩ := yyScanString_spec hscan
  have hlen : input.length < 2 ^ 32 := by omega
  have hsorted := (h.laid_spans hscan).2
  obtain ⟨before, since, hinv⟩ := lexReached_inv h
  have hpushed : ∀ span ∈ s.vars.tokSpans, ∃ mid pre, Pushed input span pre mid := by
    intro span hspan
    obtain ⟨pre, mid, -, hp⟩ := hinv.laid.pushed hlen span hspan
    exact ⟨mid, pre, hp⟩
  choose! source pre hsource using hpushed
  have hcode : ∀ span ∈ s.vars.tokSpans, ∀ e ∈ span.codeEntries, span.Holds e := by
    intro span hspan e he
    obtain ⟨last, -, hlengths, hstop⟩ := (hsource span hspan).lengths
    rw [TokenSpan.codeEntries, hlengths] at he
    split at he
    · exact Pushed.holds (length_lineLengths _ _) hstop he
    · cases he
  have hextent : ∀ span ∈ s.vars.tokSpans, ∀ e ∈ span.extents (source span), span.Holds e := by
    intro span hspan e he
    obtain ⟨last, hlengths, -, hstop⟩ := (hsource span hspan).lengths
    rw [TokenSpan.extents, hlengths] at he
    split at he
    · exact Pushed.holds (length_lineLengths _ _) hstop he
    · cases he
  have hregion := hsorted.imp fun hxy => hxy.not_holds
  have heach := flatMap_eq_iff hregion hcode hextent
  rw [decode_computeSemanticTokensData (h.proper hscan) hsorted]
  constructor
  · rintro ⟨-, source', hsource', heq⟩ span hspan mid hmid
    have hsame : ∀ span ∈ s.vars.tokSpans, source' span = source span := fun span hspan =>
      (hsource' span hspan).unique ((hsource span hspan).source hin)
    have heq' : s.vars.tokSpans.flatMap (fun span => span.extents (source' span))
        = s.vars.tokSpans.flatMap fun span => span.extents (source span) :=
      List.flatMap_congr fun span hspan => by rw [hsame span hspan]
    rw [hmid.unique ((hsource span hspan).source hin)]
    exact (hsource span hspan).codeEntries_iff.mp (heach.mp (heq.trans heq') span hspan)
  · intro hmeasured
    have heq := heach.mpr fun span hspan => (hsource span hspan).codeEntries_iff.mpr
      (hmeasured span hspan _ ((hsource span hspan).source hin))
    refine ⟨?_, source, fun span hspan => (hsource span hspan).source hin, heq⟩
    rw [List.pairwise_flatMap]
    refine ⟨fun span _ => ?_, ?_⟩
    · rw [TokenSpan.codeEntries]
      split
      · exact lineEntries_pairwise _ _ _
      · exact .nil
    · refine hsorted.imp_of_mem fun {x y} hx hy hxy a ha b hb => ?_
      exact hxy.entryBefore (hcode x hx a ha) (hcode y hy b hb)

/-- **The entries cover the source** exactly if the buffer of the lexer renders the lines of
every token (the lines but the last, with their line feeds, are at most 4094 bytes, or the
first of them are exactly 4094 bytes and the others as long as the one before) and at most
429496729 lines of tokens have a character. -/
theorem semantic_tokens_cover_iff {src input : CStr} {s : LexState}
    (hscan : yyScanString src = some input) (h : LexReached input s) :
    (∃ data, computeSemanticTokensBuf s.vars.tokSpans s.vars.numSemEntries = some data ∧
        Covers src s.vars.tokSpans (decodeEntries (0, 0) data)) ↔
      (∀ span ∈ s.vars.tokSpans, ∀ mid, SpanSource src span mid →
        Measured (strBufSize - 2) (sourceLengths mid).dropLast) ∧
      highlightedLines s.vars.tokSpans ≤ maxEntries := by
  rw [← h.covers_iff hscan]
  constructor
  · rintro ⟨data, hdata, hcovers⟩
    obtain ⟨hroom, rfl⟩ := (h.computeSemanticTokensBuf_iff hscan).mp hdata
    exact ⟨hcovers, hroom⟩
  · rintro ⟨hcovers, hroom⟩
    exact ⟨_, (h.computeSemanticTokensBuf_iff hscan).mpr ⟨hroom, rfl⟩, hcovers⟩

/-- The tokens of a task header, and a comment. -/
def headerScan : LexState := (yylexCalls 3 (FrontState.boot.install (cstr "task a /*\n*/"))).lex

/-- The entries of a task header cover it exactly if its tokens are rendered, and are few. -/
theorem semantic_tokens_cover_header :
    (∃ data, computeSemanticTokensBuf headerScan.vars.tokSpans headerScan.vars.numSemEntries
          = some data ∧
        Covers (cstr "task a /*\n*/") headerScan.vars.tokSpans (decodeEntries (0, 0) data)) ↔
      (∀ span ∈ headerScan.vars.tokSpans, ∀ mid, SpanSource (cstr "task a /*\n*/") span mid →
        Measured (strBufSize - 2) (sourceLengths mid).dropLast) ∧
      highlightedLines headerScan.vars.tokSpans ≤ maxEntries := by
  have hscan : yyScanString (cstr "task a /*\n*/") = some (cstr "task a /*\n*/") := by decide
  exact semantic_tokens_cover_iff hscan (LexReached.yylexCalls 3 (.start FrontState.boot.lex.vars))

/-! ### A long comment -/

/-- A comment with so many letters on its first line. -/
def longComment (n : ℕ) : CStr := [47, 42] ++ (List.replicate n 97 ++ [10, 42, 47])

theorem isLongest_openComment (rest : CStr) :
    IsLongest (lexRules .initial) ⟨.lit (cstr "/*"), .openFragment .blockComment⟩ [47, 42] rest := by
  refine ⟨by simp, rfl, fun more hne _ => ?_⟩
  rw [List.find?_eq_none]
  intro r hr h
  rcases initialRules_mark rfl rfl rfl rfl r hr _ h with hnil | hb | ⟨-, hhead | hone⟩
  · cases hnil
  · cases hb
  · cases hhead
  · exact hne (List.cons.inj hone).2

theorem isLongest_commentLetters {n : ℕ} (hn : 0 < n) :
    IsLongest (lexRules .blockComment) ⟨.many1 (lineClassBut 42), .append⟩ (List.replicate n 97)
      [10, 42, 47] := by
  obtain ⟨m, rfl⟩ := Nat.exists_eq_add_one.mpr hn
  have hclass : lineClassBut 42 97 = true := by decide
  have hline : lineClassBut 42 10 = false := by decide
  have hstop (rest : CStr) : ¬ 97 :: rest = cstr "*/" := fun h =>
    absurd (List.cons.inj h).1 (by decide)
  refine ⟨by simp, ?_, fun more hne hmore => ?_⟩
  · simp [lexRules, fragmentRules, Pattern.lit, Pattern.many1, List.replicate_succ, hclass, hstop]
  · obtain ⟨more, rfl⟩ : ∃ more', more = 10 :: more' := by
      obtain ⟨b, more, rfl⟩ := List.exists_cons_of_ne_nil hne
      exact ⟨more, by rw [(List.cons_prefix_cons.mp hmore).1]⟩
    simp [lexRules, fragmentRules, Pattern.lit, Pattern.many1, List.replicate_succ, hline, hstop]

theorem isLongest_commentNewline :
    IsLongest (lexRules .blockComment) ⟨.lit [10], .appendNewline⟩ [10] [42, 47] := by
  refine ⟨by simp, rfl, fun more hne hmore => ?_⟩
  obtain ⟨more, rfl⟩ : ∃ more', more = 42 :: more' := by
    obtain ⟨b, more, rfl⟩ := List.exists_cons_of_ne_nil hne
    exact ⟨more, by rw [(List.cons_prefix_cons.mp hmore).1]⟩
  rfl

theorem isLongest_closeComment :
    IsLongest (lexRules .blockComment) ⟨.lit (cstr "*/"), .closeComment⟩ [42, 47] [] :=
  ⟨by simp, rfl, fun _ hne hmore => absurd (List.prefix_nil.mp hmore) hne⟩

theorem longComment_span {n : ℕ} (hn : 0 < n) :
    ∃ s span, LexReached (longComment n) s ∧ span ∈ s.vars.tokSpans ∧
      span.start = .wrap (bytePos []) ∧ span.stop = .wrap (bytePos (longComment n)) := by
  have hletters : 10 ∉ (List.replicate n 97 : CStr) := fun h => by
    cases List.eq_of_mem_replicate h
  have hat0 : FrontState.boot.lex.vars.install.At [] := ⟨Nat.one_pos, rfl⟩
  have h0 : LexReached (longComment n)
      ⟨.initial, FrontState.boot.lex.vars.install, longComment n⟩ :=
    .start FrontState.boot.lex.vars
  obtain ⟨g1, h1, hat1, hstart1⟩ : ∃ g1, LexReached (longComment n)
      ⟨.blockComment, g1, List.replicate n 97 ++ [10, 42, 47]⟩ ∧ g1.At [47, 42] ∧
      g1.mfragStart = ⟨0, 0⟩ :=
    ⟨_, h0.rule (isLongest_openComment (List.replicate n 97 ++ [10, 42, 47])),
      (hat0.userAction (by decide)).1.congr rfl rfl, rfl⟩
  obtain ⟨g2, h2, hat2, hstart2⟩ : ∃ g2, LexReached (longComment n)
      ⟨.blockComment, g2, [10] ++ [42, 47]⟩ ∧ g2.At ([47, 42] ++ List.replicate n 97) ∧
      g2.mfragStart = ⟨0, 0⟩ := by
    refine ⟨_, h1.rule (isLongest_commentLetters hn),
      (hat1.userAction hletters).1.congr ?_ ?_, ?_⟩ <;> rw [LexAction.run, strAppend_eq]
    exact hstart1
  obtain ⟨g3, h3, hat3, hstart3⟩ : ∃ g3, LexReached (longComment n)
      ⟨.blockComment, g3, [42, 47] ++ []⟩ ∧
      g3.At ([47, 42] ++ List.replicate n 97 ++ [10]) ∧ g3.mfragStart = ⟨0, 0⟩ := by
    refine ⟨_, h2.rule isLongest_commentNewline, hat2.newline.congr ?_ ?_, ?_⟩ <;>
      rw [LexAction.run, strAppend_eq]
    exact hstart2
  have hat4 := (hat3.userAction (show 10 ∉ ([42, 47] : CStr) by decide)).1
  have hall : [47, 42] ++ List.replicate n 97 ++ [10] ++ [42, 47] = longComment n := by
    simp [longComment]
  rw [hall] at hat4
  refine ⟨_, ⟨tkBlockComment, ⟨0, 0⟩, .wrap (bytePos (longComment n)),
    some ((g3.userAction [42, 47]).strAppend [42, 47]).strBuf⟩,
    h3.rule isLongest_closeComment, ?_, rfl, rfl⟩
  rw [← hat4.pos, ← hstart3]
  simp only [LexAction.run, strAppend_eq, LexGlobals.pushTokSpan]
  exact List.mem_append_right _ (List.mem_singleton.mpr rfl)

/-- The lines of a comment with more than 4094 bytes on its first line are not rendered. -/
theorem semantic_tokens_not_cover :
    ¬ ∀ (src input : CStr) (s : LexState), yyScanString src = some input → LexReached input s →
      ∃ data, computeSemanticTokensBuf s.vars.tokSpans s.vars.numSemEntries = some data ∧
        Covers src s.vars.tokSpans (decodeEntries (0, 0) data) := by
  intro h
  obtain ⟨n, hn⟩ : ∃ n, n = 4094 := ⟨_, rfl⟩
  have hlen : (longComment n).length = n + 5 := by simp [longComment]
  obtain ⟨s, span, hs, hspan, hstart, hstop⟩ := longComment_span (n := n) (by omega)
  have hscan : yyScanString (longComment n) = some (longComment n) :=
    yyScanString_of_lt (by omega)
  have hfits : Fits32 (bytePos (longComment n)) := fits32_bytePos (by omega)
  have hsource : SpanSource (longComment n) span (longComment n) :=
    ⟨[], [], by simp, by rw [hstart]; rfl, (LspPos.wrap_eq_iff hfits _).mp hstop.symm⟩
  obtain ⟨data, hdata, hcovers⟩ := h _ _ s hscan hs
  obtain ⟨-, rfl⟩ := (hs.computeSemanticTokensBuf_iff hscan).mp hdata
  have hmeasured := (hs.covers_iff hscan).mp hcovers span hspan _ hsource
  have hletters : 10 ∉ ([47, 42] ++ List.replicate n 97 : CStr) := by
    rw [List.mem_append, not_or]
    exact ⟨by decide, fun h => by cases List.eq_of_mem_replicate h⟩
  have hlines : sourceLengths (longComment n) = [n + 2, 2] := by
    rw [sourceLengths, longComment, ← List.append_assoc,
      List.splitOn_append_cons_self_of_not_mem hletters]
    simp [List.splitOn_eq_singleton]
  rw [hlines] at hmeasured
  have hle : n + 2 ≤ strBufSize - 2 := hmeasured.1
  rw [hn] at hle
  exact absurd hle (by decide)

end TaskjugglerLsp
