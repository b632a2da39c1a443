import Mathlib.Data.List.DropRight
import TaskjugglerLsp.Pathutil.Canonical
import TaskjugglerLsp.SemanticTokens.Encode

/-!
# Messages on the wire

`read_message` of `main.c` and `lsp_send_message` of `rpc.c`.  A stream is the list of the bytes
that are still to come; `fread` on it falls short only at its end, where the loop around it ends.

* `readMessage_framed`: a message is read, and nothing behind it.
* `messages_read_back`: all the messages of a stream.
-/

namespace TaskjugglerLsp

/-- `CONTENT_LENGTH_MAX`. -/
def contentLengthMax : ℤ := 16 * 1024 * 1024

/-- `atoi`: what `strtol` reads, cast to an `int`. -/
def atoi (s : CStr) : ℤ :=
  let s := s.dropWhile isSpace
  let value := fun (digits : CStr) => (digitsValue (digits.takeWhile isDigit) : ℤ)
  let strtol : ℤ :=
    match s with
    | 45 :: s => if value s ≤ 2 ^ 63 then -value s else -2 ^ 63
    | 43 :: s => if value s < 2 ^ 63 then value s else 2 ^ 63 - 1
    | s => if value s < 2 ^ 63 then value s else 2 ^ 63 - 1
  strtol.bmod (2 ^ 32)

/-- At most so many bytes, up to a line feed, and the rest. -/
def takeLine : ℕ → List UInt8 → List UInt8 × List UInt8
  | 0, stream => ([], stream)
  | _ + 1, [] => ([], [])
  | room + 1, c :: stream =>
    if c = 10 then ([10], stream)
    else
      let (line, rest) := takeLine room stream
      (c :: line, rest)

/-- `fgets`, into a buffer of so many bytes. -/
def fgets (size : ℕ) (stream : List UInt8) : Option (List UInt8 × List UInt8) :=
  if stream = [] then none else some (takeLine (size - 1) stream)

/-- A line without the carriage returns and line feeds at its end. -/
def stripEol (line : CStr) : CStr := line.rdropWhile fun c => c == 13 || c == 10

/-- `"Content-Length: "`. -/
def contentLengthKey : CStr := cstr "Content-Length: "

/-- The header loop of `read_message`, for so many lines: the length, and the stream behind. -/
def readHeaders : ℕ → ℤ → List UInt8 → ℤ × List UInt8
  | 0, contentLength, stream => (contentLength, stream)
  | rounds + 1, contentLength, stream =>
    match fgets 256 stream with
    | none => (contentLength, stream)
    | some (line, rest) =>
      let line := stripEol (cutNul line)
      if line = [] then (contentLength, rest)
      else if line.take 16 = contentLengthKey then readHeaders rounds (atoi (line.drop 16)) rest
      else readHeaders rounds contentLength rest

/-- `read_message`: there are not more lines than bytes. -/
def readMessage (stream : List UInt8) : Option CStr × List UInt8 :=
  let (contentLength, stream) := readHeaders stream.length (-1) stream
  if contentLength ≤ 0 ∨ contentLengthMax ≤ contentLength then (none, stream)
  else (some (cutNul (stream.take contentLength.toNat)), stream.drop contentLength.toNat)

/-- What so many calls of `read_message` return. -/
def readMessages : ℕ → List UInt8 → List (Option CStr)
  | 0, _ => []
  | calls + 1, stream => (readMessage stream).1 :: readMessages calls (readMessage stream).2

/-- What `lsp_send_message` writes. -/
def lspSendMessage (msg : CStr) : List UInt8 :=
  contentLengthKey ++ decimal msg.length ++ [13, 10, 13, 10] ++ msg

/-! ### Lines -/

/-- The end of a line. -/
def Eol (e : List UInt8) : Prop := e = [10] ∨ e = [13, 10]

/-- Nothing but carriage returns, as a string. -/
def Blank (text : List UInt8) : Prop := ∀ c ∈ cutNul text, c = 13

/-- **A header line** that does not state the length: it is not blank, and fits the buffer. -/
structure OtherHeader (line : List UInt8) : Prop where
  line_eq : ∃ text e, line = text ++ e ∧ Eol e ∧ 10 ∉ text ∧ ¬ Blank text ∧
    ¬ contentLengthKey <+: text
  fits : line.length < 256

theorem takeLine_eq {room : ℕ} {text : List UInt8} (h : 10 ∉ text) (hroom : text.length < room)
    (stream : List UInt8) : takeLine room (text ++ 10 :: stream) = (text ++ [10], stream) := by
  induction text generalizing room with
  | nil =>
    obtain ⟨room, rfl⟩ := Nat.exists_eq_succ_of_ne_zero (Nat.ne_of_gt hroom)
    rw [List.nil_append, takeLine, if_pos rfl, List.nil_append]
  | cons c text ih =>
    obtain ⟨room, rfl⟩ := Nat.exists_eq_succ_of_ne_zero (Nat.ne_of_gt (Nat.zero_lt_of_lt hroom))
    rw [List.mem_cons, not_or] at h
    rw [List.length_cons] at hroom
    rw [List.cons_append, takeLine, if_neg (Ne.symm h.1), ih h.2 (Nat.lt_of_succ_lt_succ hroom)]
    rfl

theorem fgets_line (text : List UInt8) {e : List UInt8} (he : Eol e) (h : 10 ∉ text)
    (hfits : (text ++ e).length < 256) (stream : List UInt8) : fgets 256 (text ++ e ++ stream) = some (text ++ e, stream) := by
  rw [List.length_append] at hfits
  rcases he with rfl | rfl
  · have hline : text ++ [10] ++ stream = text ++ 10 :: stream := by simp
    rw [hline, fgets, if_neg (by simp), takeLine_eq h (by simp at hfits; omega)]
  · have hline : text ++ [13, 10] ++ stream = text ++ [13] ++ 10 :: stream := by simp
    have hcr : (10 : UInt8) ∉ text ++ [13] := by
      rw [List.mem_append, not_or]
      exact ⟨h, by decide⟩
    rw [hline, fgets, if_neg (by simp), takeLine_eq hcr (by simp at hfits ⊢; omega)]
    simp

theorem zero_notMem_eol {e : List UInt8} (he : Eol e) : 0 ∉ e := by
  rcases he with rfl | rfl <;> decide

theorem stripEol_eol {e : List UInt8} (he : Eol e) : stripEol (cutNul e) = [] := by
  rcases he with rfl | rfl <;> decide

/-- What stands before the end of a line does not go with it. -/
theorem stripEol_append {text e : List UInt8} (he : Eol e)
    (hlast : ∀ c ∈ text.getLast?, c ≠ 13 ∧ c ≠ 10) : stripEol (text ++ e) = text := by
  have htext : stripEol text = text := by
    unfold stripEol
    rw [List.rdropWhile_eq_self_iff]
    intro hne
    have hc := hlast _ (List.getLast?_eq_some_getLast hne)
    simpa using hc
  have hdrop : ∀ e : List UInt8, (∀ c ∈ e, (c == 13 || c == 10) = true) →
      stripEol (text ++ e) = stripEol text := by
    intro e
    induction e using List.reverseRecOn with
    | nil => exact fun _ => by rw [List.append_nil]
    | append_singleton e c ih =>
      intro hall
      have hc := hall c (List.mem_append_right _ (List.mem_singleton_self c))
      rw [← List.append_assoc, stripEol]
      refine (List.rdropWhile_concat_pos (fun c => c == 13 || c == 10) _ _ hc).trans ?_
      exact ih fun x hx => hall x (List.mem_append_left _ hx)
  rw [hdrop e (by rcases he with rfl | rfl <;> decide), htext]

/-! ### Headers -/

section Headers

variable {line stream : List UInt8} {rounds : ℕ} {len : ℤ}

theorem readHeaders_other (h : OtherHeader line) :
    readHeaders (rounds + 1) len (line ++ stream) = readHeaders rounds len stream := by
  obtain ⟨text, e, rfl, he, hline, hblank, hkey⟩ := h.line_eq
  have hcut : ∃ c ∈ cutNul (text ++ e), c ≠ 13 ∧ c ≠ 10 := by
    unfold Blank at hblank
    push Not at hblank
    obtain ⟨c, hc, hne⟩ := hblank
    have hmem : c ∈ text := (List.takeWhile_prefix _).subset hc
    refine ⟨c, ?_, hne, fun h10 => hline (h10 ▸ hmem)⟩
    unfold cutNul at hc ⊢
    rw [List.takeWhile_append]
    split_ifs
    · exact List.mem_append_left _ hmem
    · exact hc
  have hne : stripEol (cutNul (text ++ e)) ≠ [] := by
    obtain ⟨c, hc, hc13, hc10⟩ := hcut
    intro hnil
    have hall := List.rdropWhile_eq_nil_iff.mp hnil c hc
    simp [hc13, hc10] at hall
  have hother : (stripEol (cutNul (text ++ e))).take 16 ≠ contentLengthKey := by
    intro htake
    have hprefix : contentLengthKey <+: text ++ e := by
      rw [← htake]
      exact (List.take_prefix _ _).trans
        ((List.rdropWhile_prefix _ _).trans (List.takeWhile_prefix _))
    rcases List.prefix_or_prefix_of_prefix hprefix (List.prefix_append text e) with hin | ⟨r, hr⟩
    · exact hkey hin
    · rw [← hr, List.prefix_append_right_inj] at hprefix
      cases r with
      | nil => exact hkey ⟨[], by rw [List.append_nil, ← hr, List.append_nil]⟩
      | cons c r =>
        have hc : c ∈ e := hprefix.subset List.mem_cons_self
        have hmem : c ∈ contentLengthKey := by
          rw [← hr]
          exact List.mem_append_right _ List.mem_cons_self
        have hprint : ∀ c ∈ contentLengthKey, c ≠ 10 ∧ c ≠ 13 := by decide
        rcases he with rfl | rfl
        · exact (hprint c hmem).1 (List.mem_singleton.mp hc)
        · rcases List.mem_cons.mp hc with rfl | hc
          · exact (hprint _ hmem).2 rfl
          · exact (hprint c hmem).1 (List.mem_singleton.mp hc)
  rw [readHeaders, fgets_line _ he hline h.fits]
  simp only [if_neg hne, if_neg hother]

theorem readHeaders_others {lines : List (List UInt8)} (h : ∀ line ∈ lines, OtherHeader line) :
    readHeaders (lines.length + rounds) len (lines.flatten ++ stream)
      = readHeaders rounds len stream := by
  induction lines with
  | nil => rw [List.length_nil, Nat.zero_add, List.flatten_nil, List.nil_append]
  | cons line lines ih =>
    rw [List.forall_mem_cons] at h
    have hrounds : (line :: lines).length + rounds = lines.length + rounds + 1 := by
      rw [List.length_cons]
      omega
    rw [hrounds, List.flatten_cons, List.append_assoc, readHeaders_other h.1, ih h.2]

theorem readHeaders_blank {e : List UInt8} (he : Eol e) :
    readHeaders (rounds + 1) len (e ++ stream) = (len, stream) := by
  have hline : fgets 256 (e ++ stream) = some (e, stream) := by
    refine fgets_line [] he (by decide) ?_ stream
    rcases he with rfl | rfl <;> decide
  rw [readHeaders, hline]
  simp only [stripEol_eol he, if_true]

theorem atoi_decimal {n : ℕ} (h : (n : ℤ) < contentLengthMax) : atoi (decimal n) = n := by
  have hmax : contentLengthMax = 16777216 := by decide
  have hdigits : ∀ c ∈ decimal n, isDigit c = true := fun c hc => isDigit_of_mem_decimal hc
  have hvalue : digitsValue ((decimal n).takeWhile isDigit) = n := by
    rw [List.takeWhile_eq_self_iff.mpr hdigits, digitsValue_decimal]
  cases hs : decimal n with
  | nil => exact absurd hs (decimal_ne_nil n)
  | cons c rest =>
    obtain ⟨d, hc⟩ := exists_of_mem_decimal (c := c) (by rw [hs]; exact List.mem_cons_self)
    obtain ⟨-, -, hspace, h45, h43⟩ := digitByte_spec d
    rw [← hc] at hspace h45 h43
    rw [hs] at hvalue
    unfold atoi
    rw [List.dropWhile_cons_of_neg (by rw [hspace]; exact Bool.false_ne_true)]
    simp only
    split
    · rename_i heq
      exact absurd (List.cons.inj heq).1 h45
    · rename_i heq
      exact absurd (List.cons.inj heq).1 h43
    · rw [hvalue, if_pos (by omega)]
      exact Int.bmod_eq_of_le (by omega) (by omega)

theorem length_decimal_le {n : ℕ} (h : n < 10 ^ 8) : (decimal n).length ≤ 8 :=
  Lib.Decimal.length_text_le (by decide) h

theorem readHeaders_length {n : ℕ} (h : (n : ℤ) < contentLengthMax) {e : List UInt8} (he : Eol e) :
    readHeaders (rounds + 1) len (contentLengthKey ++ decimal n ++ e ++ stream)
      = readHeaders rounds n stream := by
  have hmax : contentLengthMax = 16777216 := by decide
  have hdigit : ∀ c, isDigit c = true → c ≠ 0 ∧ c ≠ 10 ∧ c ≠ 13 := by
    intro c hc
    refine ⟨?_, ?_, ?_⟩ <;> rintro rfl <;> exact absurd hc (by decide)
  have htext : ∀ c ∈ contentLengthKey ++ decimal n, c ≠ 0 ∧ c ≠ 10 ∧ c ≠ 13 := by
    intro c hc
    rcases List.mem_append.mp hc with hc | hc
    · have hprint : ∀ c ∈ contentLengthKey, c ≠ 0 ∧ c ≠ 10 ∧ c ≠ 13 := by decide
      exact hprint c hc
    · exact hdigit c (isDigit_of_mem_decimal hc)
  have hfits : (contentLengthKey ++ decimal n ++ e).length < 256 := by
    have hdecimal := length_decimal_le (n := n) (by omega)
    have hkey : contentLengthKey.length = 16 := by decide
    have hend : e.length ≤ 2 := by
      rcases he with rfl | rfl <;> decide
    rw [List.length_append, List.length_append]
    omega
  have hcut : cutNul (contentLengthKey ++ decimal n ++ e) = contentLengthKey ++ decimal n ++ e := by
    refine cutNul_eq fun hzero => ?_
    rcases List.mem_append.mp hzero with hzero | hzero
    · exact (htext 0 hzero).1 rfl
    · exact zero_notMem_eol he hzero
  have hstrip : stripEol (contentLengthKey ++ decimal n ++ e) = contentLengthKey ++ decimal n := by
    refine stripEol_append he fun c hc => ?_
    have hmem := htext c (List.mem_of_getLast? hc)
    exact ⟨hmem.2.2, hmem.2.1⟩
  have hkey : (contentLengthKey ++ decimal n).take 16 = contentLengthKey := rfl
  have hvalue : (contentLengthKey ++ decimal n).drop 16 = decimal n := rfl
  rw [readHeaders, fgets_line _ he (fun h10 => (htext 10 h10).2.1 rfl) hfits]
  simp only [hcut, hstrip]
  rw [if_neg (by simp [decimal_ne_nil]), hkey, if_pos rfl, hvalue, atoi_decimal h]

end Headers

/-! ### Streams -/

/-- **A framed message**: the header with its length and other headers, in some order, a blank line,
and the body. -/
inductive Framed : CStr → List UInt8 → Prop
  | intro {body : CStr} {before behind : List (List UInt8)} {e e' : List UInt8} : body ≠ [] →
      0 ∉ body → (body.length : ℤ) < contentLengthMax → (∀ line ∈ before, OtherHeader line) →
      (∀ line ∈ behind, OtherHeader line) → Eol e → Eol e' →
      Framed body (before.flatten ++ (contentLengthKey ++ decimal body.length ++ e) ++
        behind.flatten ++ e' ++ body)

theorem length_le_length_flatten {lines : List (List UInt8)} (h : ∀ line ∈ lines, line ≠ []) :
    lines.length ≤ lines.flatten.length := by
  induction lines with
  | nil => exact Nat.le_refl _
  | cons line lines ih =>
    rw [List.forall_mem_cons] at h
    have hpos := List.length_pos_iff.mpr h.1
    have hrest := ih h.2
    rw [List.length_cons, List.flatten_cons, List.length_append]
    omega

theorem OtherHeader.ne_nil {line : List UInt8} (h : OtherHeader line) : line ≠ [] := by
  obtain ⟨text, e, rfl, he, -⟩ := h.line_eq
  rcases he with rfl | rfl <;> simp

/-- **A framed message is read**, and nothing of what is behind it. -/
theorem readMessage_framed {body : CStr} {frame : List UInt8} (h : Framed body frame)
    (stream : List UInt8) : readMessage (frame ++ stream) = (some body, stream) := by
  obtain @⟨before, behind, e, e', hne, hzero, hmax, hbefore, hbehind, he, he'⟩ := h
  have hheaders : readHeaders (before.flatten ++ (contentLengthKey ++ decimal body.length ++ e) ++
      behind.flatten ++ e' ++ body ++ stream).length (-1) (before.flatten ++
        (contentLengthKey ++ decimal body.length ++ e) ++ behind.flatten ++ e' ++ body ++ stream)
      = (↑body.length, body ++ stream) := by
    have hbeforeLen := length_le_length_flatten fun line hline => (hbefore line hline).ne_nil
    have hbehindLen := length_le_length_flatten fun line hline => (hbehind line hline).ne_nil
    obtain ⟨rounds, hrounds⟩ : ∃ rounds, (before.flatten ++ (contentLengthKey ++
        decimal body.length ++ e) ++ behind.flatten ++ e' ++ body ++ stream).length
        = before.length + (behind.length + (rounds + 1) + 1) := by
      have hkey : contentLengthKey.length = 16 := by decide
      have hle : before.length + behind.length + 2 ≤ (before.flatten ++ (contentLengthKey ++
          decimal body.length ++ e) ++ behind.flatten ++ e' ++ body ++ stream).length := by
        simp only [List.length_append, hkey]
        omega
      obtain ⟨rounds, hrounds⟩ := Nat.exists_eq_add_of_le hle
      exact ⟨rounds, by omega⟩
    have hassoc : before.flatten ++ (contentLengthKey ++ decimal body.length ++ e) ++
        behind.flatten ++ e' ++ body ++ stream = before.flatten ++ (contentLengthKey ++
          decimal body.length ++ e ++ (behind.flatten ++ (e' ++ (body ++ stream)))) := by
      simp only [List.append_assoc]
    rw [hrounds, hassoc, readHeaders_others hbefore, readHeaders_length hmax he,
      readHeaders_others hbehind, readHeaders_blank he']
  have hpos : ¬ ((body.length : ℤ) ≤ 0 ∨ contentLengthMax ≤ (body.length : ℤ)) := by
    have := List.length_pos_iff.mpr hne
    omega
  unfold readMessage
  rw [hheaders]
  simp only [if_neg hpos, Int.toNat_natCast, List.take_left, List.drop_left, cutNul_eq hzero]

theorem readMessage_nil : readMessage [] = (none, []) := by decide

theorem framed_lspSendMessage {msg : CStr} (hne : msg ≠ []) (hzero : 0 ∉ msg)
    (hmax : (msg.length : ℤ) < contentLengthMax) : Framed msg (lspSendMessage msg) := by
  have hnone : ∀ line ∈ ([] : List (List UInt8)), OtherHeader line := by
    intro line hline
    cases hline
  have hframe := Framed.intro hne hzero hmax hnone hnone (.inr rfl) (.inr rfl)
  have heq : lspSendMessage msg = [].flatten ++ (contentLengthKey ++ decimal msg.length ++ [13, 10]) ++
      [].flatten ++ [13, 10] ++ msg := by
    simp [lspSendMessage]
  rw [heq]
  exact hframe

/-- **The messages of a stream are read back**, in order, and then its end is reported; and what
`lsp_send_message` writes is such a message. -/
theorem messages_read_back {bodies : List CStr} {frames : List (List UInt8)}
    (h : List.Forall₂ Framed bodies frames) :
    (∀ more, readMessages (bodies.length + more) frames.flatten
      = bodies.map some ++ List.replicate more none) ∧
    ∀ msg : CStr, msg ≠ [] → 0 ∉ msg → (msg.length : ℤ) < contentLengthMax →
      Framed msg (lspSendMessage msg) := by
  refine ⟨fun more => ?_, fun msg => framed_lspSendMessage⟩
  induction h with
  | nil =>
    rw [List.length_nil, Nat.zero_add, List.flatten_nil, List.map_nil, List.nil_append]
    induction more with
    | zero => rfl
    | succ more ih => rw [readMessages, readMessage_nil, ih, List.replicate_succ]
  | @cons body frame bodies frames hframe _ ih =>
    have hcalls : (body :: bodies).length + more = bodies.length + more + 1 := by
      rw [List.length_cons]
      omega
    rw [hcalls, List.flatten_cons, readMessages, readMessage_framed hframe, ih]
    rfl

/-- A message with another header before the one with its length, and one without. -/
theorem messages_read_back_two :
    readMessages 3 (cstr "Content-Type: json\r\nContent-Length: 2\r\n\r\n42" ++ lspSendMessage (cstr "7"))
      = [some (cstr "42"), some (cstr "7"), none] := by
  have hother : OtherHeader (cstr "Content-Type: json" ++ [13, 10]) := by
    refine ⟨⟨_, _, rfl, .inr rfl, by decide, ?_, by decide⟩, by decide⟩
    intro hblank
    exact absurd (hblank 67 (by decide)) (by decide)
  have hbefore : ∀ line ∈ [cstr "Content-Type: json" ++ [13, 10]], OtherHeader line := by
    intro line hline
    rw [List.mem_singleton.mp hline]
    exact hother
  have hbehind : ∀ line ∈ ([] : List (List UInt8)), OtherHeader line := by
    intro line hline
    cases hline
  have hne : cstr "42" ≠ [] := by decide
  have hframe := Framed.intro hne (by decide) (by decide) hbefore hbehind (.inr rfl) (.inr rfl)
  have hfirst : Framed (cstr "42")
      (cstr "Content-Type: json\r\nContent-Length: 2\r\n\r\n42") := by
    convert hframe using 1
    decide +kernel
  have hne' : cstr "7" ≠ [] := by decide
  have hsecond := framed_lspSendMessage hne' (by decide) (by decide)
  have hread := (messages_read_back (.cons hfirst (.cons hsecond .nil))).1 1
  simpa using hread

end TaskjugglerLsp
