import TaskjugglerLsp.Completion

/-!
# The token and the keyword at a position

`tok_span_at` and `scan_kw_stack` of `hover.c`, and `active_context` of `signature.c`.  A stack has
its top first; `KW_SIG_END` is the code that bison gives to the sentinel.
-/

namespace TaskjugglerLsp

def kwSigEnd : ℕ := 297

/-- `tok_span_at`: the end of a token belongs to it. -/
def tokSpanAt (tokens : List TokenSpan) (pos : LspPos) : Option TokenSpan := do
  let found := searchToken tokens pos (tokens.length + 1) 0 (tokens.length - 1) (-1)
  guard (0 ≤ found)
  let t ← tokens[found.toNat]?
  guard (¬ pos.before t.start ∧ ¬ t.stop.before pos)
  return t

/-! ### The stack of keywords -/

/-- `KwStackEntry`. -/
structure KwStackEntry where
  kw : CStr
  range : LspRange
  depth : ℕ
  argc : ℕ
  deriving DecidableEq

/-- `push_keyword_entry`: the keywords beside it and below it go. -/
def pushKeywordEntry (stackCap braceDepth : ℕ) (tok : TokenSpan) (stack : List KwStackEntry) :
    List KwStackEntry :=
  let stack := stack.dropWhile fun e => decide (braceDepth ≤ e.depth)
  if stack.length < stackCap then
    ⟨tok.text.getD [], ⟨tok.start, tok.stop⟩, braceDepth, 0⟩ :: stack
  else stack

/-- The first entry of a depth counts one more argument. -/
def bumpDepth (braceDepth : ℕ) : List KwStackEntry → List KwStackEntry
  | [] => []
  | e :: stack =>
    if e.depth = braceDepth then { e with argc := e.argc + 1 } :: stack
    else e :: bumpDepth braceDepth stack

/-- `bump_active_argc`. -/
def bumpActiveArgc (braceDepth : ℕ) (tok : TokenSpan) (cursor : LspPos)
    (stack : List KwStackEntry) : List KwStackEntry :=
  if cursor.before tok.stop then stack else bumpDepth braceDepth stack

/-- A round of `scan_kw_stack`: the stack and the depth after a token. -/
def scanKwToken (cursor : LspPos) (kindMax : ℕ) (trackArgc : Bool) (stackCap : ℕ)
    (s : List KwStackEntry × ℕ) (tok : TokenSpan) : List KwStackEntry × ℕ :=
  if tok.isComment then s
  else if tok.tokenKind = tkLbrace then (s.1, s.2 + 1)
  else if tok.tokenKind = tkRbrace then
    (s.1.dropWhile fun e => decide (s.2 - 1 < e.depth), s.2 - 1)
  else if tok.tokenKind < kindMax ∧ tok.text.isSome then
    (pushKeywordEntry stackCap s.2 tok s.1, s.2)
  else if trackArgc then (bumpActiveArgc s.2 tok cursor s.1, s.2)
  else s

/-- The tokens that start at the cursor or before it. -/
def tokensUpTo (tokens : List TokenSpan) (cursor : LspPos) : List TokenSpan :=
  tokens.takeWhile fun t => t.tokenKind != tkEof && !decide (cursor.before t.start)

/-- `scan_kw_stack`. -/
def scanKwStack (tokens : List TokenSpan) (cursor : LspPos) (kindMax : ℕ) (trackArgc : Bool)
    (stackCap : ℕ) : List KwStackEntry × ℕ :=
  (tokensUpTo tokens cursor).foldl (scanKwToken cursor kindMax trackArgc stackCap) ([], 0)

/-- The entry that `active_context` takes. -/
def activeEntry (tokens : List TokenSpan) (cursor : LspPos) : Option KwStackEntry :=
  let (stack, braceDepth) := scanKwStack tokens cursor kwSigEnd true 512
  stack.find? fun e => e.depth = braceDepth

/-- `active_context`: the keyword and the number of its arguments. -/
def activeContext (tokens : List TokenSpan) (cursor : LspPos) : Option (CStr × ℕ) :=
  (activeEntry tokens cursor).map fun e => (e.kw, e.argc)

end TaskjugglerLsp
