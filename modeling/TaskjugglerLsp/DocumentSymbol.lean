import TaskjugglerLsp.Lib.JsonText
import TaskjugglerLsp.Lib.Loop
import TaskjugglerLsp.Lib.Utf8
import TaskjugglerLsp.Parser
import TaskjugglerLsp.Pathutil

/-!
# The outline as JSON

The serializer of `document_symbol.c`, which writes the text of the outline by hand into a buffer
that grows.  A copy goes into the room that the buffer has, and fails otherwise, as does a number
with more digits than there is room for.

* `bufPush_appends`, `bufPushUint_appends`: the buffer is always large enough;
* `writeNodeBuf_appends`: a declaration is written as the text of its value;
* `document_symbols_round_trip`: the outline is read back from the text if its names and ids are
  UTF-8.
-/

namespace TaskjugglerLsp

open Lib
open Lib.JsonText (Value quoted)

/-- `symbol_kind_for`. -/
def symbolKindFor (keyword : ℕ) : UInt32 :=
  if keyword = kwProject then 2
  else if keyword = kwResource then 19
  else if keyword = kwAccount then 13
  else if keyword = kwShift then 24
  else 12

/-! ### The buffer -/

/-- `Buf`: the bytes that are valid, and how many there is room for. -/
structure Buf where
  data : List UInt8
  cap : ℕ
  fits : data.length ≤ cap

namespace Buf

/-- `realloc`: what the block has room for is kept. -/
def realloc (b : Buf) (cap : ℕ) : Buf := ⟨b.data.take cap, cap, List.length_take_le _ _⟩

/-- `memcpy` behind the valid bytes. -/
def memcpy (b : Buf) (s : List UInt8) : Option Buf :=
  if h : (b.data ++ s).length ≤ b.cap then some ⟨b.data ++ s, b.cap, h⟩ else none

/-- The growth of `buf_push` and `buf_push_uint`: the capacity is doubled until it is enough. -/
def reserve (b : Buf) (n : ℕ) : Option Buf :=
  let need := b.data.length + n
  if b.cap < need then
    (loopUpTo (fun newCap => decide (newCap < need)) (· * 2) (need + 1)
      (if b.cap = 0 then 4096 else b.cap * 2)).map b.realloc
  else some b

end Buf

/-- `buf_push`. -/
def bufPush (s : List UInt8) (b : Buf) : Option Buf := do
  let b ← b.reserve s.length
  b.memcpy s

/-- The first loop of `write_uint`: the digits, the last first, of which there is room for so many. -/
def uintDigits : ℕ → UInt32 → Option (List UInt8)
  | 0, v => if v = 0 then some [] else none
  | room + 1, v =>
    if v = 0 then some []
    else (uintDigits room (v / 10)).map fun tmp => (48 + (v % 10).toUInt8) :: tmp

/-- `write_uint`. -/
def writeUint (v : UInt32) : Option (List UInt8) :=
  if v = 0 then some [48] else (uintDigits 10 v).map List.reverse

/-- `buf_push_uint`. -/
def bufPushUint (v : UInt32) (b : Buf) : Option Buf := do
  let b ← b.reserve 10
  let digits ← writeUint v
  b.memcpy digits

/-- `%04x` of a byte. -/
def hex04 (c : UInt8) : List UInt8 :=
  [48, 48, JsonText.hexDigit (c >>> 4), JsonText.hexDigit (c &&& 15)]

/-- The escape of a quote, a backslash or a control character. -/
def jsonEscape (c : UInt8) : List UInt8 :=
  if c = 34 then [92, 34] else if c = 92 then [92, 92] else 92 :: 117 :: hex04 c

/-- The characters since the last escape. -/
def pushRun (run : List UInt8) (b : Buf) : Option Buf :=
  if run ≠ [] then bufPush run b else some b

/-- The loop of `buf_push_json_str`, up to the end of the string. -/
def jsonStrLoop (run : List UInt8) : CStr → Buf → Option Buf
  | [], b => pushRun run b
  | c :: p, b =>
    if c = 0 then pushRun run b
    else if c = 34 ∨ c = 92 ∨ c < 32 then do
      let b ← pushRun run b
      let b ← bufPush (jsonEscape c) b
      jsonStrLoop [] p b
    else jsonStrLoop (run ++ [c]) p b

/-- `buf_push_json_str`. -/
def bufPushJsonStr (s : CStr) (b : Buf) : Option Buf := do
  let b ← bufPush [34] b
  let b ← jsonStrLoop [] s b
  bufPush [34] b

/-! ### The writer -/

/-- `write_range_buf`. -/
def writeRangeBuf (r : LspRange) (b : Buf) : Option Buf := do
  let b ← bufPush (cstr "\x7b\"start\":\x7b\"line\":") b
  let b ← bufPushUint r.start.line b
  let b ← bufPush (cstr ",\"character\":") b
  let b ← bufPushUint r.start.character b
  let b ← bufPush (cstr "\x7d,\"end\":\x7b\"line\":") b
  let b ← bufPushUint r.stop.line b
  let b ← bufPush (cstr ",\"character\":") b
  let b ← bufPushUint r.stop.character b
  bufPush (cstr "\x7d\x7d") b

mutual

/-- `write_node_buf`. -/
def writeNodeBuf : TjNode → Buf → Option Buf
  | .mk sym children, b => do
    let b ← bufPush (cstr "\x7b\"name\":") b
    let b ← bufPushJsonStr (sym.name.getD []) b
    let b ← bufPush (cstr ",\"detail\":") b
    let b ← bufPushJsonStr (sym.id.getD []) b
    let b ← bufPush (cstr ",\"kind\":") b
    let b ← bufPushUint (symbolKindFor sym.keyword) b
    let b ← bufPush (cstr ",\"range\":") b
    let b ← writeRangeBuf sym.range b
    let b ← bufPush (cstr ",\"selectionRange\":") b
    let b ← writeRangeBuf sym.selectionRange b
    let b ← writeChildren children b
    bufPush (cstr "\x7d") b

/-- The children, if there are any. -/
def writeChildren : List TjNode → Buf → Option Buf
  | [], b => some b
  | child :: children, b => do
    let b ← bufPush (cstr ",\"children\":[") b
    let b ← writeNodeBuf child b
    let b ← writeMoreNodes children b
    bufPush (cstr "]") b

/-- The rounds of a loop over declarations behind the first. -/
def writeMoreNodes : List TjNode → Buf → Option Buf
  | [], b => some b
  | node :: nodes, b => do
    let b ← bufPush (cstr ",") b
    let b ← writeNodeBuf node b
    writeMoreNodes nodes b

end

/-- The loop over some declarations. -/
def writeNodes : List TjNode → Buf → Option Buf
  | [], b => some b
  | node :: nodes, b => do
    let b ← writeNodeBuf node b
    writeMoreNodes nodes b

/-- `build_document_symbols_json`: the bytes and `out_len`. -/
def buildDocumentSymbolsJson (syms : List TjNode) : Option (List UInt8 × ℕ) := do
  let b ← bufPush (cstr "[") ⟨[], 0, Nat.le_refl _⟩
  let b ← writeNodes syms b
  let b ← bufPush (cstr "]") b
  let outLen := b.data.length
  let b ← bufPush [0] b
  some (b.data, outLen)

/-! ### The buffer is large enough -/

/-- A part of the writer that adds so much to the text. -/
def Appends (f : Buf → Option Buf) (s : List UInt8) : Prop :=
  ∀ b, ∃ b', f b = some b' ∧ b'.data = b.data ++ s

theorem Appends.bind {f g : Buf → Option Buf} {s t : List UInt8} (hf : Appends f s)
    (hg : Appends g t) : Appends (fun b => do let b ← f b; g b) (s ++ t) := by
  intro b
  obtain ⟨b', hb', hdata'⟩ := hf b
  obtain ⟨b'', hb'', hdata''⟩ := hg b'
  refine ⟨b'', ?_, by rw [hdata'', hdata', List.append_assoc]⟩
  show (f b).bind _ = _
  rw [hb', Option.bind_some, hb'']

theorem Appends.nil : Appends some [] := fun b => ⟨b, rfl, (List.append_nil _).symm⟩

/-- **The growth ends**, with the bytes in a buffer that has the room. -/
theorem Buf.reserve_spec (b : Buf) (n : ℕ) :
    ∃ b', b.reserve n = some b' ∧ b'.data = b.data ∧ b.data.length + n ≤ b'.cap := by
  unfold Buf.reserve
  by_cases hroom : b.cap < b.data.length + n
  · have hstart : 0 < (if b.cap = 0 then 4096 else b.cap * 2) := by
      split_ifs <;> omega
    have hdouble : ∀ c : ℕ, 0 < c → decide (c < b.data.length + n) = true →
        0 < c * 2 ∧ b.data.length + n - c * 2 < b.data.length + n - c := by
      intro c hc hlt
      rw [decide_eq_true_eq] at hlt
      omega
    obtain ⟨newCap, hloop, -, hend⟩ := loopUpTo_of_measure (I := fun c => 0 < c)
      (fun c => b.data.length + n - c) hstart hdouble (n := b.data.length + n + 1) (by omega)
    rw [decide_eq_false_iff_not] at hend
    simp only [if_pos hroom, hloop, Option.map_some]
    exact ⟨_, rfl, List.take_of_length_le (by omega), by show _ ≤ newCap; omega⟩
  · simp only [if_neg hroom]
    exact ⟨b, rfl, rfl, by omega⟩

theorem Buf.memcpy_spec {b : Buf} {s : List UInt8} (h : b.data.length + s.length ≤ b.cap) :
    ∃ b', b.memcpy s = some b' ∧ b'.data = b.data ++ s := by
  have hfits : (b.data ++ s).length ≤ b.cap := by rwa [List.length_append]
  exact ⟨⟨b.data ++ s, b.cap, hfits⟩, dif_pos hfits, rfl⟩

theorem bufPush_appends (s : List UInt8) : Appends (bufPush s) s := by
  intro b
  obtain ⟨b', hb', hdata, hcap⟩ := b.reserve_spec s.length
  obtain ⟨b'', hb'', hdata'⟩ := Buf.memcpy_spec (b := b') (by rw [hdata]; exact hcap)
  refine ⟨b'', ?_, by rw [hdata', hdata]⟩
  rw [bufPush, hb']
  exact hb''

theorem uintDigits_eq {room : ℕ} {v : UInt32} (h : v.toNat < 10 ^ room) :
    uintDigits room v = some ((Nat.digits 10 v.toNat).map Decimal.digit) := by
  induction room generalizing v with
  | zero =>
    have hv : v = 0 := UInt32.toNat_inj.mp (Nat.lt_one_iff.mp h)
    rw [uintDigits, if_pos hv, hv]
    rfl
  | succ room ih =>
    rw [uintDigits]
    by_cases hv : v = 0
    · rw [if_pos hv, hv]
      rfl
    · have hpos : 0 < v.toNat := Nat.pos_of_ne_zero fun hzero => hv (UInt32.toNat_inj.mp hzero)
      have hdiv : (v / 10).toNat = v.toNat / 10 := UInt32.toNat_div v 10
      have hmod : (v % 10).toNat = v.toNat % 10 := UInt32.toNat_mod v 10
      have hdigit : 48 + (v % 10).toUInt8 = Decimal.digit (v.toNat % 10) := by
        rw [Decimal.digit, UInt8.ofNat_add, ← hmod]
        rfl
      have hrest := ih (v := v / 10) (by
        rw [hdiv, Nat.pow_succ] at *
        omega)
      rw [if_neg hv, hrest, hdiv, Option.map_some, hdigit,
        Nat.digits_def' (by decide) hpos, List.map_cons]

/-- **A number has room** for its digits. -/
theorem writeUint_eq (v : UInt32) : writeUint v = some (Decimal.text v.toNat) := by
  unfold writeUint Decimal.text
  by_cases hv : v = 0
  · rw [if_pos hv, hv]
    rfl
  · have hne : v.toNat ≠ 0 := fun hzero => hv (UInt32.toNat_inj.mp hzero)
    have hlt := v.toNat_lt
    rw [if_neg hv, if_neg hne, uintDigits_eq (by omega), Option.map_some, List.map_reverse]

theorem bufPushUint_appends (v : UInt32) : Appends (bufPushUint v) (Decimal.text v.toNat) := by
  intro b
  have hlen : (Decimal.text v.toNat).length ≤ 10 :=
    Decimal.length_text_le (by decide) (by have := v.toNat_lt; omega)
  obtain ⟨b', hb', hdata, hcap⟩ := b.reserve_spec 10
  obtain ⟨b'', hb'', hdata'⟩ := Buf.memcpy_spec (b := b') (s := Decimal.text v.toNat)
    (by rw [hdata]; omega)
  refine ⟨b'', ?_, by rw [hdata', hdata]⟩
  rw [bufPushUint, hb', writeUint_eq]
  exact hb''

/-! ### Strings -/

theorem pushRun_appends (run : List UInt8) : Appends (pushRun run) run := by
  unfold pushRun
  by_cases hrun : run = []
  · subst hrun
    exact Appends.nil
  · simp only [ne_eq, hrun, not_false_eq_true, if_true]
    exact bufPush_appends run

theorem jsonEscape_eq {c : UInt8} (h : c = 34 ∨ c = 92 ∨ c < 32) :
    jsonEscape c = JsonText.escaped c := by
  unfold jsonEscape JsonText.escaped hex04
  split_ifs with hquote hslash hcontrol
  · rfl
  · rfl
  · rfl
  · exact absurd h (by simp [hquote, hslash, hcontrol])

theorem escaped_eq {c : UInt8} (h : ¬ (c = 34 ∨ c = 92 ∨ c < 32)) : JsonText.escaped c = [c] := by
  rw [not_or, not_or] at h
  rw [JsonText.escaped, if_neg h.1, if_neg h.2.1, if_neg h.2.2]

/-- **The loop over a string** writes the run and the escaped characters. -/
theorem jsonStrLoop_appends {s : CStr} (hs : 0 ∉ s) (run : List UInt8) :
    Appends (jsonStrLoop run s) (run ++ s.flatMap JsonText.escaped) := by
  induction s generalizing run with
  | nil =>
    rw [List.flatMap_nil, List.append_nil]
    exact pushRun_appends run
  | cons c p ih =>
    rw [List.mem_cons, not_or] at hs
    have hzero : c ≠ 0 := Ne.symm hs.1
    rw [List.flatMap_cons]
    by_cases hc : c = 34 ∨ c = 92 ∨ c < 32
    · have h := (pushRun_appends run).bind ((bufPush_appends (jsonEscape c)).bind (ih hs.2 []))
      rw [List.nil_append, jsonEscape_eq hc] at h
      intro b
      rw [jsonStrLoop, if_neg hzero, if_pos hc, jsonEscape_eq hc]
      exact h b
    · have h := ih hs.2 (run ++ [c])
      rw [escaped_eq hc, ← List.append_assoc]
      intro b
      rw [jsonStrLoop, if_neg hzero, if_neg hc]
      exact h b

theorem bufPushJsonStr_appends {s : CStr} (hs : 0 ∉ s) : Appends (bufPushJsonStr s) (quoted s) :=
  (bufPush_appends [34]).bind ((jsonStrLoop_appends hs []).bind (bufPush_appends [34]))

/-! ### The outline as a value -/

/-- A number of the outline. -/
def uintValue (v : UInt32) : Value := .num ⟨false, v.toNat, 0⟩

def posValue (p : LspPos) : Value :=
  .obj [(cstr "line", uintValue p.line), (cstr "character", uintValue p.character)]

def rangeValue (r : LspRange) : Value :=
  .obj [(cstr "start", posValue r.start), (cstr "end", posValue r.stop)]

mutual

/-- A declaration as a value. -/
def symbolValue : TjNode → Value
  | .mk sym children =>
    .obj ((cstr "name", .str (sym.name.getD [])) :: (cstr "detail", .str (sym.id.getD [])) ::
      (cstr "kind", uintValue (symbolKindFor sym.keyword)) ::
      (cstr "range", rangeValue sym.range) ::
      (cstr "selectionRange", rangeValue sym.selectionRange) :: childrenField children)

/-- The field of the children, if there are any. -/
def childrenField : List TjNode → List (List UInt8 × Value)
  | [] => []
  | child :: children => [(cstr "children", .arr (symbolValue child :: symbolValues children))]

def symbolValues : List TjNode → List Value
  | [] => []
  | node :: nodes => symbolValue node :: symbolValues nodes

end

mutual

/-- Whether the strings of a declaration and those below it have a property. -/
def TjNode.AllStrings (P : CStr → Prop) : TjNode → Prop
  | .mk sym children =>
    P (sym.name.getD []) ∧ P (sym.id.getD []) ∧ AllStringsOf P children

def AllStringsOf (P : CStr → Prop) : List TjNode → Prop
  | [] => True
  | node :: nodes => node.AllStrings P ∧ AllStringsOf P nodes

end

theorem render_uintValue (v : UInt32) : JsonText.render (uintValue v) = Decimal.text v.toNat := by
  simp [uintValue, JsonText.render, JsonText.Number.render]

theorem render_rangeValue (r : LspRange) : JsonText.render (rangeValue r) =
    cstr "\x7b\"start\":\x7b\"line\":" ++ (Decimal.text r.start.line.toNat ++
      (cstr ",\"character\":" ++ (Decimal.text r.start.character.toNat ++
      (cstr "\x7d,\"end\":\x7b\"line\":" ++ (Decimal.text r.stop.line.toNat ++
      (cstr ",\"character\":" ++ (Decimal.text r.stop.character.toNat ++
      cstr "\x7d\x7d"))))))) := by
  have hstart : cstr "\x7b\"start\":\x7b\"line\":" =
      123 :: (quoted (cstr "start") ++ 58 :: 123 :: (quoted (cstr "line") ++ [58])) := by decide
  have hstop : cstr "\x7d,\"end\":\x7b\"line\":" =
      125 :: 44 :: (quoted (cstr "end") ++ 58 :: 123 :: (quoted (cstr "line") ++ [58])) := by decide
  have hcharacter : cstr ",\"character\":" = 44 :: (quoted (cstr "character") ++ [58]) := by decide
  have hclose : cstr "\x7d\x7d" = [125, 125] := by decide
  rw [hstart, hstop, hcharacter, hclose]
  simp only [rangeValue, posValue, JsonText.render, JsonText.renderFields,
    JsonText.renderMoreFields, render_uintValue, List.append_assoc, List.cons_append,
    List.nil_append]

theorem writeRangeBuf_appends (r : LspRange) :
    Appends (writeRangeBuf r) (JsonText.render (rangeValue r)) := by
  rw [render_rangeValue]
  exact (bufPush_appends _).bind ((bufPushUint_appends _).bind ((bufPush_appends _).bind
    ((bufPushUint_appends _).bind ((bufPush_appends _).bind ((bufPushUint_appends _).bind
    ((bufPush_appends _).bind ((bufPushUint_appends _).bind (bufPush_appends _))))))))

theorem render_symbolValue (sym : TjInfo) (children : List TjNode) :
    JsonText.render (symbolValue (.mk sym children)) =
      cstr "\x7b\"name\":" ++ (quoted (sym.name.getD []) ++
        (cstr ",\"detail\":" ++ (quoted (sym.id.getD []) ++
        (cstr ",\"kind\":" ++ (Decimal.text (symbolKindFor sym.keyword).toNat ++
        (cstr ",\"range\":" ++ (JsonText.render (rangeValue sym.range) ++
        (cstr ",\"selectionRange\":" ++ (JsonText.render (rangeValue sym.selectionRange) ++
        (JsonText.renderMoreFields (childrenField children) ++ cstr "\x7d")))))))))) := by
  have hname : cstr "\x7b\"name\":" = 123 :: (quoted (cstr "name") ++ [58]) := by decide
  have hdetail : cstr ",\"detail\":" = 44 :: (quoted (cstr "detail") ++ [58]) := by decide
  have hkind : cstr ",\"kind\":" = 44 :: (quoted (cstr "kind") ++ [58]) := by decide
  have hrange : cstr ",\"range\":" = 44 :: (quoted (cstr "range") ++ [58]) := by decide
  have hselection : cstr ",\"selectionRange\":" =
      44 :: (quoted (cstr "selectionRange") ++ [58]) := by decide
  have hclose : cstr "\x7d" = [125] := by decide
  rw [hname, hdetail, hkind, hrange, hselection, hclose]
  simp only [symbolValue, JsonText.render, JsonText.renderFields, JsonText.renderMoreFields,
    render_uintValue, List.append_assoc, List.cons_append, List.nil_append]

theorem renderMoreFields_childrenField (child : TjNode) (children : List TjNode) :
    JsonText.renderMoreFields (childrenField (child :: children)) =
      cstr ",\"children\":[" ++ (JsonText.render (symbolValue child) ++
        (JsonText.renderMoreItems (symbolValues children) ++ cstr "]")) := by
  have hopen : cstr ",\"children\":[" = 44 :: (quoted (cstr "children") ++ [58, 91]) := by decide
  have hclose : cstr "]" = [93] := by decide
  rw [hopen, hclose]
  simp only [childrenField, JsonText.render, JsonText.renderItems, JsonText.renderMoreFields,
    List.append_assoc, List.cons_append, List.nil_append, List.append_nil]

mutual

/-- **A declaration is written** as the text of its value. -/
theorem writeNodeBuf_appends : ∀ node : TjNode, node.AllStrings (0 ∉ ·) →
    Appends (writeNodeBuf node) (JsonText.render (symbolValue node))
  | .mk sym children, h => by
    rw [TjNode.AllStrings] at h
    obtain ⟨hname, hid, hchildren⟩ := h
    rw [render_symbolValue]
    intro b
    rw [writeNodeBuf]
    exact ((bufPush_appends _).bind ((bufPushJsonStr_appends hname).bind
      ((bufPush_appends _).bind ((bufPushJsonStr_appends hid).bind
      ((bufPush_appends _).bind ((bufPushUint_appends _).bind
      ((bufPush_appends _).bind ((writeRangeBuf_appends _).bind
      ((bufPush_appends _).bind ((writeRangeBuf_appends _).bind
      ((writeChildren_appends children hchildren).bind (bufPush_appends _)))))))))))) b

theorem writeChildren_appends : ∀ children : List TjNode, AllStringsOf (0 ∉ ·) children →
    Appends (writeChildren children) (JsonText.renderMoreFields (childrenField children))
  | [], _ => by
    intro b
    rw [writeChildren, childrenField, JsonText.renderMoreFields]
    exact Appends.nil b
  | child :: children, h => by
    rw [AllStringsOf] at h
    rw [renderMoreFields_childrenField]
    intro b
    rw [writeChildren]
    exact ((bufPush_appends _).bind ((writeNodeBuf_appends child h.1).bind
      ((writeMoreNodes_appends children h.2).bind (bufPush_appends _)))) b

theorem writeMoreNodes_appends : ∀ nodes : List TjNode, AllStringsOf (0 ∉ ·) nodes →
    Appends (writeMoreNodes nodes) (JsonText.renderMoreItems (symbolValues nodes))
  | [], _ => by
    intro b
    rw [writeMoreNodes, symbolValues, JsonText.renderMoreItems]
    exact Appends.nil b
  | node :: nodes, h => by
    have hcomma : cstr "," = [44] := by decide
    rw [AllStringsOf] at h
    rw [symbolValues, JsonText.renderMoreItems]
    show Appends _ ([44] ++ (_ ++ _))
    rw [← hcomma]
    intro b
    rw [writeMoreNodes]
    exact ((bufPush_appends _).bind ((writeNodeBuf_appends node h.1).bind
      (writeMoreNodes_appends nodes h.2))) b

end

theorem writeNodes_appends {nodes : List TjNode} (h : AllStringsOf (0 ∉ ·) nodes) :
    Appends (writeNodes nodes) (JsonText.renderItems (symbolValues nodes)) := by
  cases nodes with
  | nil => exact Appends.nil
  | cons node nodes =>
    rw [AllStringsOf] at h
    rw [symbolValues, JsonText.renderItems]
    exact (writeNodeBuf_appends node h.1).bind (writeMoreNodes_appends nodes h.2)

/-- **The text of a forest**, with its length and a NUL character behind it. -/
theorem buildDocumentSymbolsJson_eq {syms : List TjNode} (h : AllStringsOf (0 ∉ ·) syms) :
    buildDocumentSymbolsJson syms =
      some (JsonText.render (.arr (symbolValues syms)) ++ [0],
        (JsonText.render (.arr (symbolValues syms))).length) := by
  have hopen : cstr "[" = [91] := by decide
  have hclose : cstr "]" = [93] := by decide
  obtain ⟨b, hb, hdata⟩ := bufPush_appends (cstr "[") ⟨[], 0, Nat.le_refl _⟩
  obtain ⟨b', hb', hdata'⟩ := writeNodes_appends h b
  obtain ⟨b'', hb'', hdata''⟩ := bufPush_appends (cstr "]") b'
  obtain ⟨bEnd, hEnd, hdataEnd⟩ := bufPush_appends [0] b''
  have htext : b''.data = JsonText.render (.arr (symbolValues syms)) := by
    rw [hdata'', hdata', hdata, JsonText.render, hopen, hclose]
    rfl
  unfold buildDocumentSymbolsJson
  simp only [hb, hb', hb'', hEnd, hdataEnd, htext, Option.bind_eq_bind, Option.bind_some]

/-! ### Reading the outline -/

/-- What a client sees of a declaration. -/
inductive DocSymbol where
  | mk (name detail : CStr) (kind : UInt32) (range selectionRange : LspRange)
    (children : List DocSymbol)

mutual

/-- What a client is to see. -/
def TjNode.docSymbol : TjNode → DocSymbol
  | .mk sym children =>
    .mk (sym.name.getD []) (sym.id.getD []) (symbolKindFor sym.keyword) sym.range
      sym.selectionRange (docSymbols children)

def docSymbols : List TjNode → List DocSymbol
  | [] => []
  | node :: nodes => node.docSymbol :: docSymbols nodes

end

/-- The first field of that key. -/
def fieldNamed (key : String) : List (List UInt8 × Value) → Option Value
  | [] => none
  | (k, v) :: fields => if k = cstr key then some v else fieldNamed key fields

def readString : Value → Option CStr
  | .str s => some s
  | _ => none

/-- A number that is a `uint32_t`. -/
def readUint : Value → Option UInt32
  | .num ⟨false, n, 0⟩ => if n < 2 ^ 32 then some (UInt32.ofNat n) else none
  | _ => none

def readPos : Value → Option LspPos
  | .obj fields => do
    let line ← (fieldNamed "line" fields).bind readUint
    let character ← (fieldNamed "character" fields).bind readUint
    some ⟨line, character⟩
  | _ => none

def readRange : Value → Option LspRange
  | .obj fields => do
    let start ← (fieldNamed "start" fields).bind readPos
    let stop ← (fieldNamed "end" fields).bind readPos
    some ⟨start, stop⟩
  | _ => none

mutual

/-- The symbol that a value stands for. -/
def readSymbol : Value → Option DocSymbol
  | .obj fields => do
    let name ← (fieldNamed "name" fields).bind readString
    let detail ← (fieldNamed "detail" fields).bind readString
    let kind ← (fieldNamed "kind" fields).bind readUint
    let range ← (fieldNamed "range" fields).bind readRange
    let selectionRange ← (fieldNamed "selectionRange" fields).bind readRange
    let children ← readChildren fields
    some (.mk name detail kind range selectionRange children)
  | _ => none

/-- The children among the fields of a symbol: without the field there are none. -/
def readChildren : List (List UInt8 × Value) → Option (List DocSymbol)
  | [] => some []
  | (key, v) :: fields => if key = cstr "children" then readForest v else readChildren fields

def readForest : Value → Option (List DocSymbol)
  | .arr items => readSymbols items
  | _ => none

def readSymbols : List Value → Option (List DocSymbol)
  | [] => some []
  | v :: items => do
    let symbol ← readSymbol v
    let symbols ← readSymbols items
    some (symbol :: symbols)

end

theorem readUint_uintValue (v : UInt32) : readUint (uintValue v) = some v := by
  rw [uintValue, readUint, if_pos v.toNat_lt, UInt32.ofNat_toNat]

theorem readPos_posValue (p : LspPos) : readPos (posValue p) = some p := by
  have hline : cstr "character" ≠ cstr "line" := by decide
  simp only [posValue, readPos, fieldNamed, if_true, Option.bind_some, readUint_uintValue,
    Option.bind_eq_bind, if_neg hline.symm]

theorem readRange_rangeValue (r : LspRange) : readRange (rangeValue r) = some r := by
  have hstart : cstr "start" ≠ cstr "end" := by decide
  simp only [rangeValue, readRange, fieldNamed, if_true, Option.bind_some, readPos_posValue,
    Option.bind_eq_bind, if_neg hstart]

mutual

/-- **A declaration is read back** from its value. -/
theorem readSymbol_symbolValue : ∀ node : TjNode,
    readSymbol (symbolValue node) = some node.docSymbol
  | .mk sym children => by
    rw [symbolValue, readSymbol]
    have hname : ∀ v more, fieldNamed "name" ((cstr "name", v) :: more) = some v :=
      fun v more => if_pos rfl
    have hdetail : ∀ u v more, fieldNamed "detail"
        ((cstr "name", u) :: (cstr "detail", v) :: more) = some v := fun u v more => rfl
    have hkind : ∀ t u v more, fieldNamed "kind"
        ((cstr "name", t) :: (cstr "detail", u) :: (cstr "kind", v) :: more) = some v :=
      fun t u v more => rfl
    have hrange : ∀ r t u v more, fieldNamed "range" ((cstr "name", r) :: (cstr "detail", t) ::
        (cstr "kind", u) :: (cstr "range", v) :: more) = some v := fun r t u v more => rfl
    have hselection : ∀ q r t u v more, fieldNamed "selectionRange" ((cstr "name", q) ::
        (cstr "detail", r) :: (cstr "kind", t) :: (cstr "range", u) ::
        (cstr "selectionRange", v) :: more) = some v := fun q r t u v more => rfl
    have hchildren : ∀ q r t u v more, readChildren ((cstr "name", q) :: (cstr "detail", r) ::
        (cstr "kind", t) :: (cstr "range", u) :: (cstr "selectionRange", v) :: more) =
        readChildren more := fun q r t u v more => rfl
    simp only [hname, hdetail, hkind, hrange, hselection, hchildren, Option.bind_eq_bind,
      Option.bind_some, readString, readUint_uintValue, readRange_rangeValue,
      readChildren_childrenField children, TjNode.docSymbol]

theorem readChildren_childrenField : ∀ children : List TjNode,
    readChildren (childrenField children) = some (docSymbols children)
  | [] => rfl
  | child :: children => by
    rw [childrenField, readChildren, if_pos rfl, readForest, readSymbols,
      readSymbol_symbolValue child, readSymbols_symbolValues children, docSymbols]
    rfl

theorem readSymbols_symbolValues : ∀ nodes : List TjNode,
    readSymbols (symbolValues nodes) = some (docSymbols nodes)
  | [] => rfl
  | node :: nodes => by
    rw [symbolValues, readSymbols, readSymbol_symbolValue node, readSymbols_symbolValues nodes,
      docSymbols]
    rfl

end

/-! ### The texts are in UTF-8 -/

theorem encoded_rangeValue (r : LspRange) : (rangeValue r).Encoded := by
  have hascii : ∀ key ∈ [cstr "start", cstr "end", cstr "line", cstr "character"],
      JsonText.IsUtf8 key := by
    intro key hkey
    refine JsonText.isUtf8_of_all ?_
    revert key
    decide
  simp only [List.forall_mem_cons] at hascii
  obtain ⟨hstart, hstop, hline, hcharacter, -⟩ := hascii
  simp only [rangeValue, posValue, uintValue, JsonText.Value.Encoded, JsonText.EncodedFields,
    hstart, hstop, hline, hcharacter, and_self]

mutual

theorem encoded_symbolValue : ∀ node : TjNode, node.AllStrings JsonText.IsUtf8 →
    (symbolValue node).Encoded
  | .mk sym children, h => by
    have hascii : ∀ key ∈ [cstr "name", cstr "detail", cstr "kind", cstr "range",
        cstr "selectionRange"], JsonText.IsUtf8 key := by
      intro key hkey
      refine JsonText.isUtf8_of_all ?_
      revert key
      decide
    simp only [List.forall_mem_cons] at hascii
    obtain ⟨hname, hdetail, hkind, hrange, hselection, -⟩ := hascii
    rw [TjNode.AllStrings] at h
    rw [symbolValue]
    exact ⟨hname, h.1, hdetail, h.2.1, hkind, trivial, hrange, encoded_rangeValue _, hselection,
      encoded_rangeValue _, encoded_childrenField children h.2.2⟩

theorem encoded_childrenField : ∀ children : List TjNode,
    AllStringsOf JsonText.IsUtf8 children → JsonText.EncodedFields (childrenField children)
  | [], _ => trivial
  | child :: children, h => by
    rw [AllStringsOf] at h
    rw [childrenField]
    exact ⟨JsonText.isUtf8_of_all rfl, ⟨encoded_symbolValue child h.1,
      encoded_symbolValues children h.2⟩, trivial⟩

theorem encoded_symbolValues : ∀ nodes : List TjNode,
    AllStringsOf JsonText.IsUtf8 nodes → JsonText.EncodedItems (symbolValues nodes)
  | [], _ => trivial
  | node :: nodes, h => by
    rw [AllStringsOf] at h
    rw [symbolValues]
    exact ⟨encoded_symbolValue node h.1, encoded_symbolValues nodes h.2⟩

end

/-- **The outline is read back** from the text that is written for it, if its names and ids are
UTF-8 without a NUL. -/
theorem document_symbols_round_trip {syms : List TjNode} (h : AllStringsOf (0 ∉ ·) syms)
    (hutf8 : AllStringsOf JsonText.IsUtf8 syms) :
    ∃ data len, buildDocumentSymbolsJson syms = some (data, len) ∧ data.drop len = [0] ∧
      (JsonText.parse (data.take len)).bind readForest = some (docSymbols syms) := by
  have hencoded : (Value.arr (symbolValues syms)).Encoded := encoded_symbolValues syms hutf8
  refine ⟨_, _, buildDocumentSymbolsJson_eq h, List.drop_left, ?_⟩
  rw [List.take_left, JsonText.parse_render hencoded, Option.bind_some, readForest,
    readSymbols_symbolValues]

/-- Two tasks of one id, of which the first has a child and a name with a quote, a line feed and
an accent. -/
def nestedOutline : List TjNode :=
  [.mk ⟨kwTask, some [97], some [34, 10, 195, 169], ⟨⟨0, 0⟩, ⟨3, 1⟩⟩, ⟨⟨0, 5⟩, ⟨0, 6⟩⟩, []⟩
      [.mk ⟨kwShift, some [98], none, ⟨⟨1, 0⟩, ⟨2, 1⟩⟩, ⟨⟨1, 5⟩, ⟨1, 6⟩⟩, []⟩ []],
    .mk ⟨kwTask, some [97], none, ⟨⟨4, 0⟩, ⟨4, 6⟩⟩, ⟨⟨4, 5⟩, ⟨4, 6⟩⟩, []⟩ []]

theorem document_symbols_round_trip_nested :
    ∃ data len, buildDocumentSymbolsJson nestedOutline = some (data, len) ∧ data.drop len = [0] ∧
      (JsonText.parse (data.take len)).bind readForest = some
        [.mk [34, 10, 195, 169] [97] 12 ⟨⟨0, 0⟩, ⟨3, 1⟩⟩ ⟨⟨0, 5⟩, ⟨0, 6⟩⟩
          [.mk [] [98] 24 ⟨⟨1, 0⟩, ⟨2, 1⟩⟩ ⟨⟨1, 5⟩, ⟨1, 6⟩⟩ []],
        .mk [] [97] 12 ⟨⟨4, 0⟩, ⟨4, 6⟩⟩ ⟨⟨4, 5⟩, ⟨4, 6⟩⟩ []] := by
  have hstrings : AllStringsOf (0 ∉ ·) nestedOutline := by
    simp [nestedOutline, AllStringsOf, TjNode.AllStrings]
  have hutf8 : AllStringsOf JsonText.IsUtf8 nestedOutline := by
    simp only [nestedOutline, AllStringsOf, TjNode.AllStrings, Option.getD_some, Option.getD_none]
    decide
  exact document_symbols_round_trip hstrings hutf8

/-- The text of a name with a byte that is no UTF-8 is no JSON. -/
theorem document_symbols_not_utf8 :
    ¬ ∀ syms : List TjNode, AllStringsOf (0 ∉ ·) syms →
      ∃ data len, buildDocumentSymbolsJson syms = some (data, len) ∧ data.drop len = [0] ∧
        (JsonText.parse (data.take len)).bind readForest = some (docSymbols syms) := by
  intro h
  obtain ⟨syms, hsyms⟩ : ∃ syms : List TjNode, syms =
      [.mk ⟨kwTask, some [97], some [233], ⟨⟨0, 0⟩, ⟨0, 10⟩⟩, ⟨⟨0, 5⟩, ⟨0, 6⟩⟩, []⟩ []] := ⟨_, rfl⟩
  have hstrings : AllStringsOf (0 ∉ ·) syms := by
    simp [hsyms, AllStringsOf, TjNode.AllStrings]
  obtain ⟨data, len, hbuild, -, hread⟩ := h syms hstrings
  rw [buildDocumentSymbolsJson_eq hstrings, Option.some.injEq, Prod.mk.injEq] at hbuild
  obtain ⟨rfl, rfl⟩ := hbuild
  have htext : ¬ JsonText.IsUtf8 (JsonText.render (.arr (symbolValues syms))) := by
    rw [hsyms]
    decide +kernel
  rw [List.take_left, JsonText.parse, if_neg htext] at hread
  cases hread

end TaskjugglerLsp
