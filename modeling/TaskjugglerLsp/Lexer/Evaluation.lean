import TaskjugglerLsp.Lexer.Statements
import TaskjugglerLsp.Lib.ScanWithin

/-!
# The lexer on a given text

What a match of the lexer begins with determines a class of bytes that it goes on in.  So `yylex`
can be evaluated with matches that are searched only there.

* `yylex_eq_quick`: this is `yylex`.
-/

namespace TaskjugglerLsp

open Lib

/-- The class of the bytes that follow in a match, by its first byte. -/
def lexFollow : StartCondition → UInt8 → UInt8 → Bool
  | .initial, a, b =>
    if identStartClass a then identClass b
    else if digitClass a || (a == 43 || a == 45) then byteIn 43 122 b
    else if blankClass a then blankClass b
    else if a == 35 || a == 47 then lineClass b
    else false
  | .dquote, a, b => a != 34 && (a == 92 || quotedClass 34 b)
  | .squote, a, b => a != 39 && (a == 92 || quotedClass 39 b)
  | _, _, _ => true

theorem keywords_follow : ∀ kw ∈ keywords, ∀ a ∈ (cstr kw.1).head?, ∀ b ∈ (cstr kw.1).tail,
    lexFollow .initial a b = true := by decide +kernel

theorem lexFollow_digit {a b : UInt8} (ha : (digitClass a || (a == 43 || a == 45)) = true)
    (hb : byteIn 43 122 b = true) : lexFollow .initial a b = true := by
  have hstart : identStartClass a = false := by
    rw [Bool.or_eq_true, Bool.or_eq_true, beq_iff_eq, beq_iff_eq] at ha
    rcases ha with ha | rfl | rfl
    · simp only [digitClass, byteIn, Bool.and_eq_true, decide_eq_true_eq, UInt8.le_iff_toNat_le]
        at ha
      have h57 : a.toNat ≤ 57 := ha.2
      simp only [identStartClass, byteIn, Bool.or_eq_false_iff, Bool.and_eq_false_iff,
        decide_eq_false_iff_not, UInt8.le_iff_toNat_le, beq_eq_false_iff_ne, Ne,
        UInt8.toNat_inj.symm]
      refine ⟨⟨⟨?_, ?_⟩, ?_⟩, ?_⟩
      · left
        show ¬ 97 ≤ a.toNat
        omega
      · left
        show ¬ 65 ≤ a.toNat
        omega
      · show ¬ a.toNat = 95
        omega
      · left
        show ¬ 128 ≤ a.toNat
        omega
    · rfl
    · rfl
  rw [lexFollow, hstart, if_neg Bool.false_ne_true, if_pos ha, hb]

open Pattern in
/-- **Every match between two tokens** goes on in the class of its first byte. -/
theorem initialRules_follow : ∀ r ∈ initialRules, GoesOn (lexFollow .initial) r.pattern := by
  have hblank : GoesOn (lexFollow .initial) (many1 blankClass) := by
    refine goesOn_of_over (begins_of_over (over_many1 fun _ h => h)) (over_many1 fun _ h => h) ?_
    intro a b ha hb
    simp only [blankClass, Bool.or_eq_true, beq_iff_eq] at ha
    rcases ha with (((rfl | rfl) | rfl) | rfl) | rfl <;> exact hb
  have hcomment {x : UInt8} {w : CStr} (hx : x = 35 ∨ x = 47) (hw : ∀ b ∈ w, lineClass b = true) :
      GoesOn (lexFollow .initial) (seq (lit (x :: w)) (many lineClass)) := by
    refine goesOn_of_over (p := (· == x)) (q := lineClass) (begins_seq ?_ fun h => by cases h)
      (over_seq (over_lit ?_) (over_many fun _ h => h)) ?_
    · exact fun a rest h => beq_iff_eq.mpr (List.cons.inj (eq_of_beq h)).1
    · refine List.forall_mem_cons.mpr ⟨?_, hw⟩
      rcases hx with rfl | rfl <;> rfl
    · intro a b ha hb
      obtain rfl := eq_of_beq ha
      rcases hx with rfl | rfl <;> exact hb
  have hdigits (n : ℕ) : Begins digitClass (rep n digitClass) :=
    begins_of_over (over_rep fun _ h => h)
  have hdate : GoesOn (lexFollow .initial) datePattern :=
    goesOn_of_over (begins_seq (hdigits 4) fun h => by cases h)
      (over_datePattern.mono (byteIn_of_le (by decide) (by decide))) fun a b ha hb =>
        lexFollow_digit (by rw [ha]; rfl) hb
  have hsigned : Begins (fun b => digitClass b || (b == 43 || b == 45))
      (opt (one fun b => b == 43 || b == 45)) :=
    begins_opt (begins_of_over (over_one fun b h => by simp [h]))
  have hnumber {P : Pattern UInt8} : Begins (fun b => digitClass b || (b == 43 || b == 45))
      (seq (many1 digitClass) P) :=
    begins_seq (begins_of_over (over_many1 fun b h => by simp [h])) fun h => by cases h
  have hduration : GoesOn (lexFollow .initial) durationPattern :=
    goesOn_of_over (begins_seq hsigned fun _ => hnumber) over_durationPattern
      fun a b ha hb => lexFollow_digit ha hb
  have hclass : Over (byteIn 43 122) (many1 digitClass) :=
    over_many1 (byteIn_of_le (by decide) (by decide))
  have hfloat : GoesOn (lexFollow .initial)
      (seqs [many1 digitClass, lit (cstr "."), many1 digitClass]) := by
    refine goesOn_of_over (q := byteIn 43 122) hnumber (over_seqs ?_)
      fun a b ha hb => lexFollow_digit ha hb
    simp only [List.forall_mem_cons]
    exact ⟨hclass, over_lit (by decide), hclass, fun _ h => by cases h⟩
  have hinteger : GoesOn (lexFollow .initial) (many1 digitClass) :=
    goesOn_of_over (begins_of_over (over_many1 fun _ h => h)) hclass fun a b ha hb =>
      lexFollow_digit (by rw [ha]; rfl) hb
  have hident : GoesOn (lexFollow .initial) (seq (one identStartClass) (many identClass)) := by
    refine goesOn_of_over (p := identStartClass) (q := identClass)
      (begins_seq (begins_of_over (over_one fun _ h => h)) fun h => by cases h)
      (over_seq (over_one fun b hb => ?_) (over_many fun _ h => h)) fun a b ha hb => ?_
    · simp [identClass, hb]
    · rw [lexFollow, if_pos ha, hb]
  have hnil : ∀ r ∈ ([] : List (Rule UInt8 LexAction)), GoesOn (lexFollow .initial) r.pattern :=
    fun _ h => by cases h
  unfold initialRules
  rw [List.forall_mem_append, List.forall_mem_append]
  refine ⟨⟨?_, ?_⟩, ?_⟩
  · simp only [List.forall_mem_cons]
    exact ⟨hblank, goesOn_lit (by decide), hcomment (.inl rfl) (by decide),
      hcomment (.inr rfl) (by decide), goesOn_lit (by decide), goesOn_lit (by decide),
      goesOn_lit (by decide), goesOn_lit (by decide), hdate, hduration, hfloat, hinteger, hnil⟩
  · rw [List.forall_mem_map]
    exact fun kw hkw => goesOn_lit (keywords_follow kw hkw)
  · simp only [List.forall_mem_cons]
    exact ⟨hident, goesOn_lit (by decide), goesOn_lit (by decide), goesOn_lit (by decide),
      goesOn_lit (by decide), goesOn_lit (by decide), goesOn_lit (by decide),
      goesOn_lit (by decide), goesOn_lit (by decide), goesOn_lit (by decide),
      goesOn_lit (by decide), goesOn_lit (by decide), goesOn_lit (by decide), goesOn_one, hnil⟩

open Pattern in
theorem quoteRules_follow {q : UInt8} (hq : q ≠ 92) : ∀ r ∈ quoteRules q,
    GoesOn (fun a b => a != q && (a == 92 || quotedClass q b)) r.pattern := by
  unfold quoteRules
  simp only [List.forall_mem_cons]
  refine ⟨goesOn_lit (by simp), goesOn_lit (by simp), ?_, ?_, fun _ h => by cases h⟩
  · refine goesOn_of_over (p := (· == 92)) (q := fun _ => true)
      (begins_seq ?_ fun h => by cases h) (fun _ _ _ _ => rfl) fun a b ha _ => ?_
    · exact fun a rest h => beq_iff_eq.mpr (List.cons.inj (eq_of_beq h)).1
    · obtain rfl := eq_of_beq ha
      simpa using hq.symm
  · refine goesOn_of_over (begins_of_over (over_many1 fun _ h => h)) (over_many1 fun _ h => h) ?_
    intro a b ha hb
    rw [hb, Bool.or_true, Bool.and_true]
    simp only [quotedClass, Bool.and_eq_true] at ha
    exact ha.2

theorem lexRules_follow (c : StartCondition) : ∀ r ∈ lexRules c, GoesOn (lexFollow c) r.pattern := by
  cases c with
  | initial => exact initialRules_follow
  | blockComment => exact fun _ _ _ _ _ _ _ => rfl
  | scissors => exact fun _ _ _ _ _ _ _ => rfl
  | dquote => exact quoteRules_follow (by decide)
  | squote => exact quoteRules_follow (by decide)

/-! ### Calls -/

/-- `raw_yylex`, by matches within their classes. -/
def quickRawYylex (s : LexState) : LexState × ℕ :=
  let out := lexer.nextWithin lexFollow (s.rest.length + 1) s
  (out.1, out.2.getD 0)

theorem rawYylex_eq_quick (s : LexState) : rawYylex s = quickRawYylex s := by
  unfold rawYylex quickRawYylex
  rw [Scanner.next_within lexRules_follow]

/-- The next real token, by matches within their classes. -/
def quickNextToken (s : FrontState) : FrontState × ℕ × Bool :=
  if s.eol.haveBuffered then
    let vars := { s.lex.vars with yylval := s.eol.bufferedVal }
    (⟨{ s.lex with vars := vars }, { s.eol with haveBuffered := false }⟩, s.eol.bufferedKind, false)
  else
    let (lex, kind) :=
      quickRawYylex { s.lex with vars := { s.lex.vars with pendingNewline := false } }
    if kind = 0 ∧ 0 < s.eol.braceDepth then
      let here := lex.vars.pos
      let vars := { lex.vars with yylval := ⟨tkRbrace, here, here, some (cstr "\x7d")⟩ }
      (⟨{ lex with vars := vars }, s.eol⟩, tkRbrace, lex.vars.pendingNewline)
    else (⟨lex, s.eol⟩, kind, lex.vars.pendingNewline)

/-- `yylex`, by matches within their classes. -/
def quickYylex (s : FrontState) : FrontState × ℕ :=
  let (s, kind, newline) := quickNextToken s
  if s.eol.Due kind newline then
    (⟨{ s.lex with vars := { s.lex.vars with yylval := eolToken } },
      s.eol.hold kind s.lex.vars.yylval⟩, tkEol)
  else (⟨s.lex, s.eol.push kind⟩, kind)

/-- **`yylex`** is evaluated by matches within their classes. -/
theorem yylex_eq_quick (s : FrontState) : yylex s = quickYylex s := by
  have hnext : nextToken s = quickNextToken s := by
    unfold nextToken quickNextToken
    rw [rawYylex_eq_quick]
  unfold quickYylex
  rw [← hnext]
  obtain ⟨⟨s', kind, newline⟩, hout⟩ : ∃ out, nextToken s = out := ⟨_, rfl⟩
  rw [hout]
  by_cases hdue : s'.eol.Due kind newline
  · rw [yylex_of_due hout hdue]
    exact (if_pos hdue).symm
  · rw [yylex_of_not_due hout hdue]
    exact (if_neg hdue).symm

/-- What is handed over, by matches within their classes. -/
def quickHanded : ℕ → FrontState → List (ℕ × Token)
  | 0, _ => []
  | n + 1, s => ((quickYylex s).2, (quickYylex s).1.lex.vars.yylval) :: quickHanded n (quickYylex s).1

theorem handed_eq_quick (n : ℕ) (s : FrontState) : handed n s = quickHanded n s := by
  induction n generalizing s with
  | zero => rfl
  | succ n ih => rw [handed, quickHanded, yylex_eq_quick, ih]

end TaskjugglerLsp
