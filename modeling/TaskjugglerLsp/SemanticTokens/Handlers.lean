import TaskjugglerLsp.QueryContext
import TaskjugglerLsp.SemanticTokens.Buffer
import TaskjugglerLsp.SemanticTokens.DeltaValid

/-!
# The semantic-token requests

`handle_semantic_tokens_full` and `handle_semantic_tokens_full_delta`, and what
the client makes of their results.
-/

namespace TaskjugglerLsp

open Delta

/-- The result of a semantic-token request. -/
inductive TokensResult where
  | null
  | full (resultId : CStr) (data : List UInt32)
  | delta (d : SemanticTokensDelta)

/-- `docsnap_sem_tokens`; `none` is a write outside the array. -/
def docsnapSemTokens (s : DocSnapshot) : Option (List UInt32) :=
  computeSemanticTokensBuf s.tokSpans s.numSemEntries

/-- `sem_tokens_result_id`. -/
def semTokensResultId (s : DocSnapshot) : CStr := decimal s.docVersion.toNat

/-- `handle_semantic_tokens_full`. -/
def handleSemanticTokensFull (qc : QueryContext) : Option TokensResult :=
  match qc.primary with
  | none => some .null
  | some d => (docsnapSemTokens d.snap).map (.full (semTokensResultId d.snap))

/-- The parse that the client's result id names: the current one or the one before. -/
def deltaBase (qc : QueryContext) (current : DocSnapshot) (previousResultId : CStr) :
    Option DocSnapshot :=
  let prevVersion := strtoull previousResultId
  if prevVersion = current.docVersion then some current
  else qc.prevSnap.filter fun prev => decide (prevVersion = prev.docVersion)

/-- `handle_semantic_tokens_full_delta`; `none` would be an access outside an array. -/
def handleSemanticTokensFullDelta (params : Option Json) (qc : QueryContext) :
    Option TokensResult :=
  match qc.primary with
  | none => some .null
  | some d =>
    (docsnapSemTokens d.snap).bind fun new =>
      match (Json.strField params "previousResultId").bind (deltaBase qc d.snap) with
      | some base =>
        (docsnapSemTokens base).bind fun old =>
          (buildSemanticTokensDeltaJson old new (some (semTokensResultId d.snap))).map .delta
      | none => some (.full (semTokensResultId d.snap) new)

/-- What the client makes of a result, given the data that it holds. -/
def TokensResult.applyTo (data : List UInt32) : TokensResult → Option (List UInt32)
  | null => none
  | full _ new => some new
  | delta d => some (Lib.patch data (d.edits.map SemanticTokensEdit.toEdit))

/-- The id under which the client keeps a result. -/
def TokensResult.resultId : TokensResult → Option CStr
  | null => none
  | full id _ => some id
  | delta d => d.resultId

theorem five_dvd_docsnapSemTokens {s : DocSnapshot} {data : List UInt32}
    (h : docsnapSemTokens s = some data) : 5 ∣ data.length := by
  rw [docsnapSemTokens, computeSemanticTokensBuf_eq] at h
  split_ifs at h
  cases h
  exact five_dvd_computeSemanticTokensData _

/-- **A delta on the right base** gives the current data. -/
theorem handleSemanticTokensFullDelta_applyTo {params : Option Json} {qc : QueryContext}
    {d : QueryDoc} (hd : qc.primary = some d) {new data : List UInt32}
    (hnew : docsnapSemTokens d.snap = some new)
    (hbase : ∀ base, (Json.strField params "previousResultId").bind (deltaBase qc d.snap)
      = some base → docsnapSemTokens base = some data) :
    ∃ result, handleSemanticTokensFullDelta params qc = some result ∧
      result.resultId = some (semTokensResultId d.snap) ∧ result.applyTo data = some new := by
  unfold handleSemanticTokensFullDelta
  rw [hd]
  simp only [hnew, Option.bind_some]
  cases hb : (Json.strField params "previousResultId").bind (deltaBase qc d.snap) with
  | none => exact ⟨_, rfl, rfl, rfl⟩
  | some base =>
    have hold := hbase base hb
    obtain ⟨delta, hdelta, hid, hvalid⟩ := exists_validDelta data new
      (some (semTokensResultId d.snap)) (five_dvd_docsnapSemTokens hold)
      (five_dvd_docsnapSemTokens hnew)
    refine ⟨.delta delta, by simp only [hold, Option.bind_some, hdelta, Option.map_some], hid, ?_⟩
    rw [TokensResult.applyTo, hvalid.applies]

end TaskjugglerLsp
