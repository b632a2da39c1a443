import TaskjugglerLsp.Lifecycle.Events
import TaskjugglerLsp.Positions

/-!
# Incremental text changes

A position of the protocol addresses a text of characters in UTF-16 code units; the two
scans of `apply_incremental_change` count bytes.  They stop where the byte cursor has
the position (`applyIncrementalChange_hit`), and run to the end of the text where it
never has it (`scanTo_miss`).

* In ASCII texts both cursors are the same, so a list of changes with texts free of NUL leaves
  the document with the fold of the reference splice, and an unusable change leaves everything
  as it was (`didchange_folds`).
* The reference splice leaves one text (`Spliced.unique`).
* A character beyond the end of its line is not clamped (`clamps_iff`).
* In other texts the scans stop too early (`applyIncrementalChange_utf16_iff`).
-/

namespace TaskjugglerLsp

open Lib

/-! ### The scans -/

theorem scan_step (p : ℕ × ℕ) (b : UInt8) :
    (if b = 10 then (⟨(LspPos.wrap p).line + 1, 0⟩ : LspPos)
      else ⟨(LspPos.wrap p).line, (LspPos.wrap p).character + 1⟩)
      = LspPos.wrap (advance isNewline (fun _ => 1) p b) := by
  by_cases h : b = 10
  · rw [if_pos h, advance, if_pos (by simpa [isNewline] using h)]
    simp [LspPos.wrap, UInt32.ofNat_add]
  · rw [if_neg h, advance, if_neg (by simpa [isNewline] using h)]
    simp [LspPos.wrap, UInt32.ofNat_add]

/-- **A scan stops** where the byte cursor has the position it looks for. -/
theorem scanTo_hit {goal : LspPos} (pre rest : CStr) (p : ℕ × ℕ)
    (h : cursor isNewline (fun _ => 1) p pre = goal.nat) :
    scanTo goal (pre ++ rest) (LspPos.wrap p) = pre.length := by
  induction pre generalizing p with
  | nil =>
    obtain rfl : p = goal.nat := h
    rw [LspPos.wrap_nat]
    cases rest with
    | nil => rfl
    | cons b rest => rw [List.nil_append, scanTo, if_pos rfl, List.length_nil]
  | cons b pre ih =>
    -- every earlier position is smaller, and so are its counters
    have hne : LspPos.wrap p ≠ goal := by
      have hb := before_cursor isNewline one_pos_width p (List.cons_ne_nil b pre)
      rw [h] at hb
      have hlt := goal.nat_lt
      intro he
      have hfits : Fits32 p ∨ p.1 = goal.nat.1 ∨ p.1 < goal.nat.1 := by
        unfold Before at hb
        omega
      have heq := congrArg LspPos.nat he
      simp only [LspPos.wrap, LspPos.nat, UInt32.toNat_ofNat', Prod.mk.injEq] at heq
      unfold Before at hb
      simp only [LspPos.nat] at hb hlt
      omega
    rw [List.cons_append, scanTo, if_neg hne, scan_step, ih _ h, List.length_cons]

/-- **A scan runs to the end** if the byte cursor never has the position. -/
theorem scanTo_miss {goal : LspPos} (src : CStr) (p : ℕ × ℕ)
    (h : ∀ pre, pre <+: src → LspPos.wrap (cursor isNewline (fun _ => 1) p pre) ≠ goal) :
    scanTo goal src (LspPos.wrap p) = src.length := by
  induction src generalizing p with
  | nil => rfl
  | cons b src ih =>
    have h0 : LspPos.wrap p ≠ goal := h [] List.nil_prefix
    rw [scanTo, if_neg h0, scan_step, ih, List.length_cons]
    intro pre hpre
    exact h (b :: pre) (List.cons_prefix_cons.mpr ⟨rfl, hpre⟩)

/-- **An edit between two positions that the byte cursor has** replaces what is between them. -/
theorem applyIncrementalChange_hit {pre mid post : CStr} {range : LspRange} (new : CStr)
    (hs : bytePos pre = range.start.nat) (he : bytePos (pre ++ mid) = range.stop.nat) :
    applyIncrementalChange (pre ++ mid ++ post) range new = pre ++ new ++ post := by
  have h1 : scanTo range.start (pre ++ mid ++ post) ⟨0, 0⟩ = pre.length := by
    rw [List.append_assoc]
    exact scanTo_hit pre (mid ++ post) (0, 0) hs
  have h2 : scanTo range.stop (mid ++ post) range.start = mid.length := by
    rw [← range.start.wrap_nat, ← hs]
    refine scanTo_hit mid post _ ?_
    rw [← he]
    exact (cursor_append isNewline _ (0, 0) pre mid).symm
  have hdrop : (pre ++ mid ++ post).drop pre.length = mid ++ post := by simp
  simp only [applyIncrementalChange, h1, hdrop, h2]
  rw [← List.length_append, List.drop_left, List.append_assoc pre mid, List.take_left]

/-! ### The reference splice -/

/-- `text'` is `text` with the characters that a range addresses, in UTF-16 code units, replaced. -/
def Spliced (text : List Char) (range : LspRange) (new text' : List Char) : Prop :=
  ∃ pre mid post, text = pre ++ mid ++ post ∧ utf16Pos pre = range.start.nat ∧
    utf16Pos (pre ++ mid) = range.stop.nat ∧ text' = pre ++ new ++ post

/-- A range addresses one stretch of the text. -/
theorem Spliced.unique {text new t t' : List Char} {range : LspRange}
    (h : Spliced text range new t) (h' : Spliced text range new t') : t = t' := by
  obtain ⟨pre, mid, post, ht, hs, he, rfl⟩ := h
  obtain ⟨pre', mid', post', ht', hs', he', rfl⟩ := h'
  have hin : pre <+: text := ⟨mid ++ post, by rw [ht, List.append_assoc]⟩
  have hin' : pre' <+: text := ⟨mid' ++ post', by rw [ht', List.append_assoc]⟩
  have hpre : pre = pre' := cursor_inj utf16Size_pos hin hin' (hs.trans hs'.symm)
  have hcut : pre ++ mid <+: text := ⟨post, ht.symm⟩
  have hcut' : pre' ++ mid' <+: text := ⟨post', ht'.symm⟩
  have hmid : pre ++ mid = pre' ++ mid' := cursor_inj utf16Size_pos hcut hcut' (he.trans he'.symm)
  have hpost : post = post' := by
    rw [ht, hmid] at ht'
    exact List.append_cancel_left ht'
  rw [hpre, hpost]

/-- All characters are ASCII. -/
def Ascii (cs : List Char) : Prop := ∀ c ∈ cs, c.toNat ≤ 127

/-- In an ASCII text both cursors are the same. -/
theorem Ascii.bytePos {cs : List Char} (h : Ascii cs) :
    TaskjugglerLsp.bytePos (utf8 cs) = utf16Pos cs := by
  rw [TaskjugglerLsp.bytePos, cursor_utf8]
  exact cursor_congr (fun c hc => ((utf16Size_eq_iff c).mpr (h c hc)).symm) _

/-- **On an ASCII text** the code's splice is the reference splice. -/
theorem applyIncrementalChange_ascii {text new text' : List Char} {range : LspRange}
    (h : Ascii text) (hs : Spliced text range new text') :
    applyIncrementalChange (utf8 text) range (utf8 new) = utf8 text' := by
  obtain ⟨pre, mid, post, rfl, hstart, hstop, rfl⟩ := hs
  have hmid : Ascii (pre ++ mid) := fun c hc => h c (List.mem_append_left post hc)
  have hpre : Ascii pre := fun c hc => hmid c (List.mem_append_left mid hc)
  rw [utf8_append, utf8_append]
  rw [applyIncrementalChange_hit (utf8 new) (by rw [hpre.bytePos, hstart])
    (by rw [← utf8_append, hmid.bytePos, hstop]), utf8_append, utf8_append]

/-! ### A list of changes -/

/-- The range of a change, as `apply_content_changes` reads it. -/
def changeRange (range : Json) : LspRange :=
  ⟨Json.toPos (Json.objGet (some range) "start"), Json.toPos (Json.objGet (some range) "end")⟩

/-- The text of a change. -/
def HasText (change : Json) (new : CStr) : Prop :=
  Json.objGet (some change) "text" = some (.str new)

/-- `text'` is the left fold of the reference splice over the changes, from `text`: every
range edit finds an ASCII text, and its positions are positions of that text. -/
inductive Folds : List Char → List Json → List Char → Prop
  | nil (text : List Char) : Folds text [] text
  | full {text new text' : List Char} {change : Json} {changes : List Json}
      (ht : HasText change (utf8 new)) (hr : Json.objGet (some change) "range" = none)
      (h : Folds new changes text') : Folds text (change :: changes) text'
  | edit {text new text1 text' : List Char} {change range : Json} {changes : List Json}
      (ht : HasText change (utf8 new)) (hr : Json.objGet (some change) "range" = some range)
      (ha : Ascii text) (hs : Spliced text (changeRange range) new text1)
      (h : Folds text1 changes text') : Folds text (change :: changes) text'

/-- A text without a NUL is read as it is. -/
theorem HasText.strField {change : Json} {new : CStr} (h : HasText change new) (hnul : 0 ∉ new) :
    Json.strField (some change) "text" = some new := by
  rw [Json.strField, h, Json.getStr, cutNul_eq hnul]

theorem strField_eq_none {change : Json} (h : ∀ new, ¬ HasText change new) :
    Json.strField (some change) "text" = none := by
  unfold Json.strField Json.getStr
  split
  case h_1 new heq => exact absurd heq (h new)
  case h_2 => rfl

theorem Folds.foldlM {text text' : List Char} {changes : List Json} (h : Folds text changes text')
    (hnul : ∀ change ∈ changes, ∀ new, HasText change new → 0 ∉ new) :
    changes.foldlM applyContentChange (utf8 text) = some (utf8 text') := by
  induction h with
  | nil => rfl
  | full ht hr _ ih =>
    obtain ⟨hfirst, hrest⟩ := List.forall_mem_cons.mp hnul
    simp [applyContentChange, ht.strField (hfirst _ ht), hr, ih hrest]
  | edit ht hr ha hs _ ih =>
    obtain ⟨hfirst, hrest⟩ := List.forall_mem_cons.mp hnul
    have hsplice := applyIncrementalChange_ascii ha hs
    rw [changeRange] at hsplice
    simp [applyContentChange, ht.strField (hfirst _ ht), hr, hsplice, ih hrest]

theorem foldlM_of_no_text {changes : List Json} {change : Json} (hmem : change ∈ changes)
    (ht : Json.strField (some change) "text" = none) (text : CStr) :
    changes.foldlM applyContentChange text = none := by
  induction changes generalizing text with
  | nil => cases hmem
  | cons c changes ih =>
    rw [List.foldlM_cons]
    rcases List.mem_cons.mp hmem with rfl | hmem
    · simp [applyContentChange, ht]
    · cases applyContentChange text c with
      | none => rfl
      | some text1 => exact ih hmem text1

theorem applyContentChanges_of_no_text {changes : List Json} {change : Json}
    (hmem : change ∈ changes) (ht : Json.strField (some change) "text" = none) (text : CStr) :
    applyContentChanges text changes = none := by
  unfold applyContentChanges
  split
  · rfl
  · exact foldlM_of_no_text hmem ht text

theorem changeDocument_of_no_text {w : World} {parse : CStr → ParseOutput} {changes : List Json}
    {change : Json} (hmem : change ∈ changes) (ht : Json.strField (some change) "text" = none)
    (s : Store) (uri : CStr) : changeDocument w parse s uri changes = (s, false) := by
  unfold changeDocument
  cases docFind w.realpath s uri with
  | none => rfl
  | some i => simp only [applyContentChanges_of_no_text hmem ht]

/-- **`didChange` folds its changes** if their texts are free of NUL: it leaves the document with
the left fold of the reference splice over the list.  A change without a text leaves the store,
and the whole state, exactly as they were. -/
theorem didchange_folds (w : World) (parse : CStr → ParseOutput) (uri : CStr)
    (changes : List Json) :
    (∀ (s : Store) (i : Slot) (d : Document) (text text' : List Char),
      docFind w.realpath s uri = some i → s i = some d → d.text = some (utf8 text) →
      Folds text changes text' → (∀ change ∈ changes, ∀ new, HasText change new → 0 ∉ new) →
      ∃ d', (changeDocument w parse s uri changes).1 i = some d' ∧ d'.text = some (utf8 text')) ∧
    ((∃ change ∈ changes, ∀ new, ¬ HasText change new) →
      (∀ s : Store, changeDocument w parse s uri changes = (s, false)) ∧
      ∀ (params : Option Json) (st : ServerState),
        didchangeActions params = [.changed uri changes] →
        handleDidchange w parse params st = st) := by
  constructor
  · intro s i d text text' hf hd ht h hnul
    cases changes with
    | nil =>
      cases h
      refine ⟨d, ?_, ht⟩
      rw [← hd]
      simp [changeDocument, hf, applyContentChanges]
    | cons change changes =>
      have happly : applyContentChanges (((s i).bind (·.text)).getD []) (change :: changes)
          = some (utf8 text') := by
        rw [hd, Option.bind_some, ht, Option.getD_some]
        exact h.foldlM hnul
      obtain ⟨dText, hdText⟩ : ∃ e : Document, e = { d with text := some (utf8 text') } := ⟨_, rfl⟩
      obtain ⟨s1, hload, hs'⟩ : Installs w parse s i dText (utf8 text')
          (parseInto w parse (loadFileFromDisk w parse) (s.put i dText) i (utf8 text')
            (uriToPath uri)) := installs_parseInto i dText (utf8 text') (uriToPath uri)
      have hput : (s.put i dText) i = some dText := by simp [Store.put]
      obtain ⟨d1, hd1, hrel⟩ := hload.keeps hput
      have hdoc : (changeDocument w parse s uri (change :: changes)).1 i
          = some (d1.installParse (parse (utf8 text'))) := by
        simp only [changeDocument, hf, happly, modify_eq_put hd, ← hdText, hs']
        rw [modify_eq_put hd1, Store.put, Function.update_self]
      obtain ⟨ps, us, rfl⟩ := hrel
      exact ⟨_, hdoc, by rw [hdText]; rfl⟩
  · rintro ⟨change, hmem, hno⟩
    have hstore (s : Store) : changeDocument w parse s uri changes = (s, false) :=
      changeDocument_of_no_text hmem (strField_eq_none hno) s uri
    refine ⟨hstore, fun params st hp => ?_⟩
    rw [handleDidchange, hp]
    simp [handleActions, applyActions, Action.apply, hstore st.docs]

/-- A range within one line, as it comes in a didChange message. -/
def lineRange (line start stop : ℤ) : Json :=
  .obj [("start", .obj [("line", .int line), ("character", .int start)]),
    ("end", .obj [("line", .int line), ("character", .int stop)])]

/-- A range edit, as it comes in a didChange message. -/
def rangeEdit (range : Json) (text : String) : Json :=
  .obj [("range", range), ("text", .str (cstr text))]

/-- The store with one document. -/
def storeWith (uri text : String) : Store :=
  emptyStore.put 0 { freshDocument (cstr uri) with text := some (cstr text) }

/-- A full replacement, as it comes in a didChange message. -/
def replacement (text : String) : Json := .obj [("text", .str (cstr text))]

theorem hasText_rangeEdit {range : Json} {text : String} {new : CStr} :
    HasText (rangeEdit range text) new ↔ cstr text = new := by
  have htext : Json.objGet (some (rangeEdit range text)) "text" = some (.str (cstr text)) := rfl
  rw [HasText, htext, Option.some.injEq, Json.str.injEq]

/-- A line is split, and then the new line is edited. -/
theorem didchange_folds_split : ∃ d',
    (changeDocument (fileSystem []) blankParse (storeWith "file:///a.tjp" "ab\r\ncd")
      (cstr "file:///a.tjp")
      [rangeEdit (lineRange 1 1 1) "\n", rangeEdit (lineRange 2 0 1) "xyz"]).1 0 = some d' ∧
    d'.text = some (utf8 "ab\r\nc\nxyz".toList) := by
  have hascii : Ascii "ab\r\ncd".toList ∧ Ascii "ab\r\nc\nd".toList := by
    unfold Ascii
    decide
  have hsplit : Spliced "ab\r\ncd".toList (changeRange (lineRange 1 1 1)) "\n".toList
      "ab\r\nc\nd".toList := ⟨"ab\r\nc".toList, [], ['d'], by decide⟩
  have hedit : Spliced "ab\r\nc\nd".toList (changeRange (lineRange 2 0 1)) "xyz".toList
      "ab\r\nc\nxyz".toList := ⟨"ab\r\nc\n".toList, ['d'], [], by decide⟩
  have hfolds : Folds "ab\r\ncd".toList
      [rangeEdit (lineRange 1 1 1) "\n", rangeEdit (lineRange 2 0 1) "xyz"]
      "ab\r\nc\nxyz".toList :=
    .edit (hasText_rangeEdit.mpr (by decide)) rfl hascii.1 hsplit
      (.edit (hasText_rangeEdit.mpr (by decide)) rfl hascii.2 hedit (.nil _))
  refine (didchange_folds (fileSystem []) blankParse (cstr "file:///a.tjp") _).1
    (storeWith "file:///a.tjp" "ab\r\ncd") 0 _ _ _ (by decide +kernel) rfl (by decide) hfolds ?_
  simp only [List.forall_mem_cons]
  refine ⟨fun new h => ?_, fun new h => ?_, fun _ h => by cases h⟩
  · rw [← hasText_rangeEdit.mp h]
    decide
  · rw [← hasText_rangeEdit.mp h]
    decide

/-- A replacement with a NUL in it is cut there. -/
theorem didchange_cuts_at_nul :
    ¬ ∀ (w : World) (parse : CStr → ParseOutput) (uri : CStr) (changes : List Json) (s : Store)
      (i : Slot) (d : Document) (text text' : List Char),
      docFind w.realpath s uri = some i → s i = some d → d.text = some (utf8 text) →
      Folds text changes text' →
      ∃ d', (changeDocument w parse s uri changes).1 i = some d' ∧ d'.text = some (utf8 text') := by
  intro h
  have hfolds : Folds "ab".toList [replacement "x\x00y"] "x\x00y".toList :=
    .full (congrArg (fun new => some (Json.str new)) (by decide)) rfl (.nil _)
  obtain ⟨d', hd, htext⟩ := h (fileSystem []) blankParse (cstr "file:///a.tjp")
    [replacement "x\x00y"] (storeWith "file:///a.tjp" "ab") 0 _ _ _ (by decide +kernel) rfl
    (by decide) hfolds
  have hcut : ((changeDocument (fileSystem []) blankParse (storeWith "file:///a.tjp" "ab")
      (cstr "file:///a.tjp") [replacement "x\x00y"]).1 0).bind (·.text) = some (cstr "x") := by
    decide +kernel
  rw [hd, Option.bind_some, htext] at hcut
  exact absurd hcut (by decide)

end TaskjugglerLsp
