import TaskjugglerLsp.Lexer.Columns
import TaskjugglerLsp.Lexer.Placement

/-!
# Words

Identifiers and keywords are matched as far as the text goes on with bytes of an identifier.  So the
byte behind a word is none of these, and no word starts where another one ends.

* `wordSpan_of_reached`: the words of a text.
* `kind_of_word`: the kind of a word is that of the first rule for its text.
* `words_apart`: no two of them touch.
-/

namespace TaskjugglerLsp

open Lib

/-- The kinds of words: identifiers and keywords. -/
def wordKinds : List ℕ := tkIdent :: keywords.map (·.2)

/-- The text of a word. -/
abbrev IsWord (text : CStr) : Prop := identRule.pattern text = true

theorem keywords_isWord : ∀ kw ∈ keywords, IsWord (cstr kw.1) := by
  decide +kernel

theorem isWord_iff {text : CStr} : IsWord text ↔
    ∃ b more, text = b :: more ∧ identStartClass b = true ∧ ∀ c ∈ more, identClass c = true := by
  constructor
  · intro h
    obtain ⟨ys, zs, rfl, hys, hzs⟩ := Pattern.seq_eq_true.mp h
    rw [Pattern.one, Bool.and_eq_true, beq_iff_eq, List.length_eq_one_iff] at hys
    obtain ⟨⟨b, rfl⟩, hb⟩ := hys
    exact ⟨b, zs, rfl, by simpa using hb, List.all_eq_true.mp hzs⟩
  · rintro ⟨b, more, rfl, hb, hmore⟩
    refine Pattern.seq_eq_true.mpr ⟨[b], more, rfl, ?_, List.all_eq_true.mpr hmore⟩
    simpa [Pattern.one] using hb

theorem IsWord.bytes {text : CStr} (h : IsWord text) : ∀ b ∈ text, identClass b = true := by
  obtain ⟨b, more, rfl, hb, hmore⟩ := isWord_iff.mp h
  refine List.forall_mem_cons.mpr ⟨?_, hmore⟩
  rw [identClass, hb]
  rfl

/-! ### Matches of words -/

theorem initialRules_words : ∀ r ∈ initialRules, ∀ k ∈ r.action.code, k ∈ wordKinds →
    (∀ text, r.pattern text = true → IsWord text) ∧
      (r.action = .emitKw k ∨ r.action = .emitPlain tkIdent) := by
  have hother {rules : List (Rule UInt8 LexAction)}
      (h : ∀ r ∈ rules, ∀ k ∈ r.action.code, k ∉ wordKinds) :
      ∀ r ∈ rules, ∀ k ∈ r.action.code, k ∈ wordKinds →
        (∀ text, r.pattern text = true → IsWord text) ∧
          (r.action = .emitKw k ∨ r.action = .emitPlain tkIdent) :=
    fun r hr k hk hword => absurd hword (h r hr k hk)
  unfold initialRules
  rw [List.forall_mem_append, List.forall_mem_append]
  refine ⟨⟨hother (by decide +kernel), ?_⟩, ?_⟩
  · rw [List.forall_mem_map]
    intro kw hkw k hk _
    obtain rfl : kw.2 = k := Option.some.inj hk
    refine ⟨fun text htext => ?_, .inl rfl⟩
    rw [eq_of_beq htext]
    exact keywords_isWord kw hkw
  · rw [List.forall_mem_cons]
    exact ⟨fun k _ _ => ⟨fun _ h => h, .inr rfl⟩, hother (by decide +kernel)⟩

/-- Only between two tokens a word is matched. -/
theorem lexRules_words {c : StartCondition} (hc : c ≠ .initial) :
    ∀ r ∈ lexRules c, ∀ k ∈ r.action.code, k ∉ wordKinds := by
  cases c with
  | initial => exact absurd rfl hc
  | blockComment | scissors | dquote | squote => decide

/-- **The longest match of a word** takes all bytes of an identifier. -/
theorem next_of_isWord {r : Rule UInt8 LexAction} {text rest : CStr}
    (h : IsLongest initialRules r text rest) (hword : IsWord text) :
    ∀ b ∈ rest.head?, identClass b = false := by
  intro b hb
  obtain ⟨more, rfl⟩ := List.head?_eq_some_iff.mp hb
  by_contra hclass
  have hlonger : IsWord (text ++ [b]) := seq_many_concat hword (by simpa using hclass)
  have hnone := h.longest [b] (List.cons_ne_nil _ _) ⟨more, rfl⟩
  rw [List.find?_eq_none] at hnone
  obtain ⟨early, late, hsplit, -⟩ := initialRules_split
  refine hnone identRule ?_ hlonger
  rw [hsplit]
  simp

/-! ### The words of a text -/

/-- **A word in a text**: what is before it, its bytes, and what is behind it. -/
structure WordSpan (input : CStr) (x : TokenSpan) (pre word post : CStr) : Prop where
  eq : input = pre ++ word ++ post
  start : x.start = .wrap (bytePos pre)
  stop : x.stop = .wrap (bytePos (pre ++ word))
  text : x.text = some word
  isWord : IsWord word
  kind : (initialRules.find? fun r => r.pattern word).bind (·.action.code) = some x.tokenKind
  next : ∀ b ∈ post.head?, identClass b = false

/-- A match of a word pushes its span. -/
theorem wordSpan_of_match {input before since : CStr} {s : LexState}
    (h : LexInv input before since s) (hc : s.cond = .initial) {r : Rule UInt8 LexAction}
    {text rest : CStr} (hrest : s.rest = text ++ rest)
    (hlongest : IsLongest initialRules r text rest) {k : ℕ} (hk : k ∈ r.action.code)
    (hword : k ∈ wordKinds) :
    ∃ x, (r.action.run s.cond (s.vars.userAction text) text).1.2.tokSpans = s.vars.tokSpans ++ [x] ∧
      WordSpan input x before text rest := by
  obtain ⟨hpattern, haction⟩ := initialRules_words r hlongest.mem k hk hword
  have htext := hpattern text hlongest.matches
  have hsince : since = [] := (hc ▸ h.pending).since_nil
  subst hsince
  have hline : 10 ∉ text := fun hmem => absurd (htext.bytes 10 hmem) (by decide)
  have hat := h.at_pos
  rw [List.append_nil] at hat
  obtain ⟨hat', hstart⟩ := hat.userAction hline
  refine ⟨⟨k, (s.vars.userAction text).tokStart, (s.vars.userAction text).pos, some text⟩, ?_, ?_⟩
  · rcases haction with haction | haction
    · rw [haction]
      rfl
    · have hident : k = tkIdent := by
        rw [haction] at hk
        exact (Option.some.inj hk).symm
      rw [haction, hident]
      rfl
  · refine ⟨?_, hstart, hat'.pos, rfl, htext, ?_, next_of_isWord hlongest htext⟩
    · rw [h.eq, hrest, List.append_nil, List.append_assoc]
    · rw [hlongest.first]
      exact hk

/-- **The words of a text** are matched whole. -/
theorem wordSpan_of_reached {input : CStr} {s : LexState} (h : LexReached input s) :
    ∀ x ∈ s.vars.tokSpans, x.tokenKind ∈ wordKinds → ∃ pre word post,
      WordSpan input x pre word post := by
  induction h with
  | start vars =>
    intro x hx
    cases hx
  | wrapper b t _ ih => exact ih
  | @step s hr ih =>
    obtain ⟨before, since, hinv⟩ := lexReached_inv hr
    obtain ⟨out, hout⟩ : ∃ out, lexer.step s = out := ⟨_, rfl⟩
    have hs := lexer.steps_step s
    rw [hout] at hs ⊢
    intro x hx hword
    cases hs with
    | eof hrest heof =>
      refine ih x ?_ hword
      have hsame : (lexer.eof s.cond s.vars).1.2.tokSpans = s.vars.tokSpans := by
        cases s.cond <;> rfl
      rw [← hsame, heof]
      exact hx
    | echo => exact ih x hx hword
    | @rule r text rest k g t hrest hlongest hact =>
      have hg : g = (r.action.run s.cond (s.vars.userAction text) text).1.2 :=
        (congrArg (fun o => o.1.2) hact).symm
      rw [show (⟨k, g, rest⟩ : LexState).vars = g from rfl, hg] at hx
      cases hcode : r.action.code with
      | none =>
        obtain ⟨more, hmore, hremarks⟩ :=
          LexAction.run_silent hcode s.cond (s.vars.userAction text) text
        rw [hmore] at hx
        rcases List.mem_append.mp hx with hx | hx
        · exact ih x hx hword
        · have hkinds : ∀ k ∈ wordKinds, ¬ (k == tkLineComment || k == tkBlockComment) = true := by
            decide +kernel
          exact absurd (hremarks x hx) (hkinds _ hword)
      | some code =>
        by_cases hcodeWord : code ∈ wordKinds
        · have hc : s.cond = .initial := by
            by_contra hc
            exact lexRules_words hc r hlongest.mem code hcode hcodeWord
          have hinitial : IsLongest initialRules r text rest := by
            rw [hc] at hlongest
            exact hlongest
          obtain ⟨y, hspans, hy⟩ := wordSpan_of_match hinv hc hrest hinitial hcode hcodeWord
          rw [hspans] at hx
          rcases List.mem_append.mp hx with hx | hx
          · exact ih x hx hword
          · rw [List.mem_singleton.mp hx]
            exact ⟨_, _, _, hy⟩
        · obtain ⟨-, -, u, -, hspans⟩ := LexAction.run_emitted hcode
            (lexRules_spans s.cond r hlongest.mem) s.cond (s.vars.userAction text) text
          rw [hspans] at hx
          rcases List.mem_append.mp hx with hx | hx
          · exact ih x hx hword
          · split_ifs at hx
            · rw [List.mem_singleton.mp hx] at hword
              exact absurd hword hcodeWord
            · cases hx

/-- **The kind of a word** is that of the first rule for its text. -/
theorem kind_of_word {input : CStr} {s : LexState} (h : LexReached input s) {x : TokenSpan}
    (hx : x ∈ s.vars.tokSpans) (hword : x.tokenKind ∈ wordKinds) {text : CStr}
    (htext : x.text = some text) :
    (initialRules.find? fun r => r.pattern text).bind (·.action.code) = some x.tokenKind := by
  obtain ⟨pre, word, post, hspan⟩ := wordSpan_of_reached h x hx hword
  obtain rfl := Option.some.inj (hspan.text.symm.trans htext)
  exact hspan.kind

/-- **No word starts where another one ends.** -/
theorem words_apart {src input : CStr} {s : LexState} (hscan : yyScanString src = some input)
    (h : LexReached input s) {x y : TokenSpan} (hx : x ∈ s.vars.tokSpans) (hy : y ∈ s.vars.tokSpans)
    (hxword : x.tokenKind ∈ wordKinds) (hyword : y.tokenKind ∈ wordKinds) : x.stop ≠ y.start := by
  obtain ⟨pre, word, post, hleft⟩ := wordSpan_of_reached h x hx hxword
  obtain ⟨pre', word', post', hright⟩ := wordSpan_of_reached h y hy hyword
  have hlen : input.length < 2 ^ 32 := by
    have := (yyScanString_spec hscan).2
    omega
  intro hsame
  have hin : pre ++ word <+: input := ⟨post, hleft.eq.symm⟩
  have hin' : pre' <+: input := ⟨word' ++ post', by rw [hright.eq, List.append_assoc]⟩
  have hplace : bytePos (pre ++ word) = bytePos pre' := by
    rw [wrap_eq_bytePos hlen hin hleft.stop, wrap_eq_bytePos hlen hin' hright.start, hsame]
  obtain rfl := cursor_inj one_pos_width hin hin' hplace
  have hpost : post = word' ++ post' := by
    have hsplit : (pre ++ word) ++ post = (pre ++ word) ++ (word' ++ post') := by
      rw [← hleft.eq, ← List.append_assoc, ← hright.eq]
    exact List.append_cancel_left hsplit
  obtain ⟨b, more, rfl, hb, -⟩ := isWord_iff.mp hright.isWord
  have hnext := hleft.next b (by rw [hpost]; rfl)
  rw [identClass, hb] at hnext
  cases hnext

end TaskjugglerLsp
