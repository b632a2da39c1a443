import TaskjugglerLsp.Lib.EditGraph
import TaskjugglerLsp.Lib.Patch
import TaskjugglerLsp.Pathutil

/-!
# The semantic-tokens delta

`semantic_tokens_delta.c` turns two encoded token buffers into an edit list: it
trims the common prefix and suffix in units of five integers, runs Myers' diff
on what is left, walks the saved rows back to a raw script, and merges each run
of insertions and deletions into one edit.

Every array access is checked here: a read or a write outside the array, and a
comparison of a token outside its buffer, gives `none`.  A C `while` loop is a
recursion on its own variant, so no fuel is left over to talk about.
-/

namespace TaskjugglerLsp.Delta

open Lib Lib.EditGraph

/-- Entries per token in the data array (`TUPLE_LEN`). -/
def tupleLen : ℕ := 5

/-- The largest `na + nb` that Myers' diff is run on (`D_BOUND`). -/
def dBound : ℕ := 1024

/-- A coalesced edit operation, in token units. -/
structure EditOp where
  startTok : ℕ
  deleteTok : ℕ
  insertBStart : ℕ
  insertTok : ℕ
  deriving DecidableEq, Repr

/-- The five-tuple at token offset `i`. -/
def tuple (buf : List UInt32) (i : ℕ) : List UInt32 := (buf.drop (i * tupleLen)).take tupleLen

/-- `tokens_equal(&a[x * TUPLE_LEN], &b[y * TUPLE_LEN])`. -/
def tokensEqual (a b : List UInt32) (x y : ℤ) : Option Bool :=
  if 0 ≤ x ∧ 0 ≤ y ∧ (x.toNat + 1) * tupleLen ≤ a.length ∧ (y.toNat + 1) * tupleLen ≤ b.length then
    some (tuple a x.toNat == tuple b y.toNat)
  else none

/-- `v[i]`. -/
def readInt (v : List ℤ) (i : ℤ) : Option ℤ := if 0 ≤ i then v[i.toNat]? else none

/-- `v[i] = x`. -/
def writeInt (v : List ℤ) (i x : ℤ) : Option (List ℤ) :=
  if 0 ≤ i ∧ i.toNat < v.length then some (v.set i.toNat x) else none

/-- `raw_kinds[n_raw++] = kind`, on an array of `cap` entries.  The step recorded
last is the head, so the list reads in chronological order. -/
def pushKind (cap : ℕ) (raw : List Move) (kind : Move) : Option (List Move) :=
  if raw.length < cap then some (kind :: raw) else none

/-! ### Coalescing -/

/-- The inner loop of `coalesce_edit_ops`: consume one run of edits. -/
def editRun : List Move → ℕ → ℕ → ℕ → ℕ → List Move × ℕ × ℕ × ℕ × ℕ
  | .del :: raw, curX, curY, del, ins => editRun raw (curX + 1) curY (del + 1) ins
  | .ins :: raw, curX, curY, del, ins => editRun raw curX (curY + 1) del (ins + 1)
  | raw, curX, curY, del, ins => (raw, curX, curY, del, ins)

/-- The outer loop of `coalesce_edit_ops`, on its variant `idx`. -/
def coalesceLoop (aOffset bOffset maxOps : ℕ) :
    ℕ → List Move → ℕ → ℕ → List EditOp → Option (List EditOp)
  | idx + 1, .keep :: raw, curX, curY, ops =>
    coalesceLoop aOffset bOffset maxOps idx raw (curX + 1) (curY + 1) ops
  | idx + 1, kind :: raw, curX, curY, ops =>
    match editRun (kind :: raw) curX curY 0 0 with
    | (raw', curX', curY', del, ins) =>
      if ops.length < maxOps then
        coalesceLoop aOffset bOffset maxOps idx raw' curX' curY'
          (ops ++ [⟨aOffset + curX, del, bOffset + curY, ins⟩])
      else none
  | _, _, _, _, ops => some ops

def coalesceEditOps (rawKinds : List Move) (aOffset bOffset maxOps : ℕ) : Option (List EditOp) :=
  coalesceLoop aOffset bOffset maxOps rawKinds.length rawKinds 0 0 []

/-! ### Myers' diff -/

section Myers

variable (a b : List UInt32) (na nb : ℕ)

/-- The sliding loop of the forward search, on its variant `na - x`. -/
def slideSnake : ℕ → ℤ → ℤ → Option (ℤ × ℤ)
  | 0, x, y => some (x, y)
  | n + 1, x, y =>
    if x < na ∧ y < nb then do
      if ← tokensEqual a b x y then slideSnake n (x + 1) (y + 1) else some (x, y)
    else some (x, y)

/-- `k == -d || (k != d && v[k - 1 + max] < v[k + 1 + max])`. -/
def movesDown (v : List ℤ) (d : ℕ) (k : ℤ) : Option Bool :=
  if k = -d then some true
  else if k = d then some false
  else do
    let vkm1 ← readInt v (k - 1 + (na + nb : ℕ))
    let vkp1 ← readInt v (k + 1 + (na + nb : ℕ))
    some (decide (vkm1 < vkp1))

/-- The column in which row `d` enters diagonal `k`: a move down inserts from `b`,
a move right deletes from `a`. -/
def enterDiagonal (v : List ℤ) (d : ℕ) (k : ℤ) : Option ℤ := do
  if ← movesDown na nb v d k then readInt v (k + 1 + (na + nb : ℕ))
  else (· + 1) <$> readInt v (k - 1 + (na + nb : ℕ))

/-- The inner loop of the forward search: the rest of row `d` from diagonal `k`,
`n` diagonals.  `inl` is the jump to `found`. -/
def forwardRow (d : ℕ) : ℕ → ℤ → List ℤ → Option ((ℤ × ℤ) ⊕ List ℤ)
  | 0, _, v => some (.inr v)
  | n + 1, k, v => do
    let x ← enterDiagonal na nb v d k
    let (x, y) ← slideSnake a b na nb (na - x).toNat x (x - k)
    let v ← writeInt v (k + (na + nb : ℕ)) x
    if na ≤ x ∧ nb ≤ y then some (.inl (x, y)) else forwardRow d n (k + 2) v

/-- Where the snapshot of row `d` starts. -/
def snapOff (d : ℕ) : ℕ := d * (d + 1) / 2

/-- Copy row `d` of `v` into the snapshots, `n` entries from the `i`-th on. -/
def saveSnapshot (v : List ℤ) (d : ℕ) : ℕ → ℕ → List ℤ → Option (List ℤ)
  | 0, _, snap => some snap
  | n + 1, i, snap => do
    let x ← readInt v (-d + 2 * i + (na + nb : ℕ))
    let snap ← writeInt snap (snapOff d + i : ℕ) x
    saveSnapshot v d n (i + 1) snap

/-- The outer loop of the forward search, `n` rows from row `d` on. -/
def forward : ℕ → ℕ → List ℤ → List ℤ → Option (Option (ℕ × ℤ × ℤ) × List ℤ)
  | 0, _, _, snap => some (none, snap)
  | n + 1, d, v, snap => do
    match ← forwardRow a b na nb d (d + 1) (-d) v with
    | .inl (x, y) => some (some (d, x, y), snap)
    | .inr v => do
      let snap ← saveSnapshot na nb v d (d + 1) 0 snap
      forward n (d + 1) v snap

/-- The loop `while (x > x_edge && y > y_edge)`, on its variant `x - x_edge`. -/
def slideBack (xEdge yEdge : ℤ) : ℕ → ℤ → ℤ → List Move → Option (ℤ × ℤ × List Move)
  | 0, x, y, raw => some (x, y, raw)
  | n + 1, x, y, raw =>
    if xEdge < x ∧ yEdge < y then do
      let raw ← pushKind (na + nb) raw .keep
      slideBack xEdge yEdge n (x - 1) (y - 1) raw
    else some (x, y, raw)

/-- The decision of `movesDown`, read back from the snapshot of row `d - 1`. -/
def cameDown (snap : List ℤ) (d : ℕ) (k : ℤ) : Option Bool :=
  if k = -d then some true
  else if k = d then some false
  else do
    let vkm1 ← readInt snap (snapOff (d - 1) + (k - 1 + (d - 1)).tdiv 2)
    let vkp1 ← readInt snap (snapOff (d - 1) + (k + 1 + (d - 1)).tdiv 2)
    some (decide (vkm1 < vkp1))

/-- The backtrace from the point `(x, y)` of row `d`. -/
def backtrace (snap : List ℤ) : ℕ → ℤ → ℤ → List Move → Option (List Move)
  | 0, x, y, raw => do
    let (_, _, raw) ← slideBack na nb 0 0 x.toNat x y raw
    some raw
  | d + 1, x, y, raw => do
    let k := x - y
    let down ← cameDown snap (d + 1) k
    let kPrev := if down then k + 1 else k - 1
    let xPrev ← readInt snap (snapOff d + (kPrev + d).tdiv 2)
    let yPrev := xPrev - kPrev
    let xEdge := if down then xPrev else xPrev + 1
    let yEdge := if down then yPrev + 1 else yPrev
    let (x, y, raw) ← slideBack na nb xEdge yEdge (x - xEdge).toNat x y raw
    if down then do
      let raw ← pushKind (na + nb) raw .ins
      backtrace snap d x (y - 1) raw
    else do
      let raw ← pushKind (na + nb) raw .del
      backtrace snap d (x - 1) y raw

/-- `myers_diff_run`. -/
def myersDiffRun (aOffset bOffset : ℕ) : Option (List EditOp) :=
  if na = 0 ∧ nb = 0 then some []
  else if na = 0 ∨ nb = 0 ∨ dBound < na + nb then some [⟨aOffset, na, bOffset, nb⟩]
  else do
    let v := List.replicate (2 * (na + nb) + 1) 0
    let snap := List.replicate ((na + nb) * (na + nb + 1) / 2) 0
    match ← forward a b na nb (na + nb + 1) 0 v snap with
    | (none, _) => some []
    | (some (0, _, _), _) => some []
    | (some (dFound, xFinal, yFinal), snap) => do
      let rawKinds ← backtrace na nb snap dFound xFinal yFinal []
      coalesceEditOps rawKinds aOffset bOffset dFound

end Myers

/-! ### The edit list -/

/-- The common-prefix loop, on its variant `min_tok - prefix`. -/
def trimPrefix (prev new : List UInt32) : ℕ → ℕ → Option ℕ
  | 0, pre => some pre
  | n + 1, pre => do
    if ← tokensEqual prev new pre pre then trimPrefix prev new n (pre + 1) else some pre

/-- The common-suffix loop, on its variant. -/
def trimSuffix (prev new : List UInt32) (prevTok newTok : ℕ) : ℕ → ℕ → Option ℕ
  | 0, suf => some suf
  | n + 1, suf => do
    if ← tokensEqual prev new ((prevTok : ℤ) - 1 - suf) ((newTok : ℤ) - 1 - suf) then
      trimSuffix prev new prevTok newTok n (suf + 1)
    else some suf

/-- An LSP `SemanticTokensEdit`; `data` is left out when nothing is inserted. -/
structure SemanticTokensEdit where
  start : ℕ
  deleteCount : ℕ
  data : Option (List UInt32)
  deriving DecidableEq, Repr

/-- An LSP `SemanticTokensDelta`. -/
structure SemanticTokensDelta where
  resultId : Option CStr
  edits : List SemanticTokensEdit
  deriving DecidableEq, Repr

/-- `build_edit_json`. -/
def buildEditJson (op : EditOp) (newBuf : List UInt32) : SemanticTokensEdit :=
  ⟨op.startTok * tupleLen, op.deleteTok * tupleLen,
    if 0 < op.insertTok then
      some ((newBuf.drop (op.insertBStart * tupleLen)).take (op.insertTok * tupleLen))
    else none⟩

/-- `build_semantic_tokens_delta_json`. -/
def buildSemanticTokensDeltaJson (prevBuf newBuf : List UInt32) (resultId : Option CStr) :
    Option SemanticTokensDelta := do
  let prevTok := prevBuf.length / tupleLen
  let newTok := newBuf.length / tupleLen
  let pre ← trimPrefix prevBuf newBuf (min prevTok newTok) 0
  let suf ← trimSuffix prevBuf newBuf prevTok newTok (min (prevTok - pre) (newTok - pre)) 0
  let ops ← myersDiffRun (prevBuf.drop (pre * tupleLen)) (newBuf.drop (pre * tupleLen))
    (prevTok - pre - suf) (newTok - pre - suf) pre pre
  some ⟨resultId, ops.map (buildEditJson · newBuf)⟩

example : buildSemanticTokensDeltaJson [0, 0, 4, 0, 0, 1, 0, 3, 5, 0, 1, 0, 3, 5, 0]
    [0, 0, 4, 0, 0, 1, 2, 3, 5, 0, 1, 0, 3, 5, 0] (some (cstr "2"))
    = some ⟨some (cstr "2"), [⟨5, 5, some [1, 2, 3, 5, 0]⟩]⟩ := by decide

end TaskjugglerLsp.Delta
