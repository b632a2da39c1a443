import TaskjugglerLsp.Lifecycle.Documents
import TaskjugglerLsp.SemanticTokens.Handlers
import TaskjugglerLsp.Workspace.Membership

/-!
# Result ids over a run

The client keeps the token data of each result id that it has been given.  While
a document keeps its slot its versions go up, so an id names one array only, and
a delta against it leads to the tokens of the current text
(`delta_gives_current`).  A slot that is freed and taken again starts over with
version 1, and then an old id may name the wrong array (`reused_result_id`).
-/

namespace TaskjugglerLsp

open Lib

/-! ### The primary document of a query -/

section Primary

variable {r : Resolver} {w : World} {realpath : CStr → Option CStr} {st : ServerState}

/-- **The primary document** of a query is the current parse of the slot of its URI. -/
theorem primary_buildQueryContext (h : StoreOk r st.docs) {status : CcStatus}
    (hws : st.ws = some (built realpath st.docs status)) {uri : CStr} {i : Slot} {d : Document}
    {snap : DocSnapshot} (hf : docFind w.realpath st.docs uri = some i) (hd : st.docs i = some d)
    (hs : d.snap = some snap) (wantAllDocs : Bool) :
    (buildQueryContext w.realpath st (some uri) wantAllDocs).primary
      = some ⟨snap, d.prefixes, true⟩ := by
  have hdoc : ((some uri).bind (docFind w.realpath st.docs)).bind st.docs = some d := by
    rw [Option.bind_some, hf, Option.bind_some, hd]
  unfold QueryContext.primary buildQueryContext
  rw [hdoc, hws]
  simp only [Option.map_some]
  generalize primaryProject _ _ = proj
  -- a document of the snapshot that carries the URI is the one of the slot
  have honly : ∀ q, q ∈ ((built realpath st.docs status).docs.filterMap
      (makeQueryDoc (some d.uri) proj wantAllDocs)).reverse → q.isPrimary = true →
      q = ⟨snap, d.prefixes, true⟩ := by
    intro q hq hprimary
    rw [List.mem_reverse, List.mem_filterMap] at hq
    obtain ⟨wd, hwd, hq⟩ := hq
    obtain ⟨j, hj, hwd⟩ := List.mem_filterMap.mp hwd
    obtain ⟨e, snap', he, hs'⟩ := parsed_iff.mp (mem_parsedSlots.mp hj)
    have hwd' : wd = ⟨snap', e.prefixes, finalStamp realpath st.docs j, e.diskOnly⟩ := by
      simpa [populateWsDoc, he, hs'] using hwd.symm
    subst hwd'
    unfold makeQueryDoc at hq
    simp only at hq
    split at hq
    · cases hq
      have huri : some d.uri = some snap'.uri := of_decide_eq_true hprimary
      rw [Option.some.injEq, h.snapUris j e snap' he hs'] at huri
      obtain rfl := h.unique i j d e hd he huri
      rw [hd, Option.some.injEq] at he
      subst he
      rw [hs, Option.some.injEq] at hs'
      have hmark : decide (some d.uri = some snap'.uri) = true := hprimary
      rw [hs', hmark]
    · cases hq
  have hmem : (⟨snap, d.prefixes, true⟩ : QueryDoc) ∈ ((built realpath st.docs status).docs.filterMap
      (makeQueryDoc (some d.uri) proj wantAllDocs)).reverse := by
    rw [List.mem_reverse, List.mem_filterMap]
    refine ⟨⟨snap, d.prefixes, finalStamp realpath st.docs i, d.diskOnly⟩, ?_, ?_⟩
    · refine List.mem_filterMap.mpr ⟨i, mem_parsedSlots.mpr (parsed_iff.mpr ⟨d, snap, hd, hs⟩), ?_⟩
      simp [populateWsDoc, hd, hs]
    · have huri := h.snapUris i d snap hd hs
      simp [makeQueryDoc, huri]
  cases hfind : List.find? (·.isPrimary) ((built realpath st.docs status).docs.filterMap
      (makeQueryDoc (some d.uri) proj wantAllDocs)).reverse with
  | none => exact absurd rfl (List.find?_eq_none.mp hfind _ hmem)
  | some q => rw [honly q (List.mem_of_find?_eq_some hfind) (List.find?_some hfind)]

theorem prevSnap_buildQueryContext {uri : CStr} {i : Slot} {d : Document}
    (hf : docFind w.realpath st.docs uri = some i) (hd : st.docs i = some d) (wantAllDocs : Bool) :
    (buildQueryContext w.realpath st (some uri) wantAllDocs).prevSnap = d.prevSnap := by
  unfold buildQueryContext
  rw [Option.bind_some, hf, Option.bind_some, hd]
  cases st.ws <;> rfl

end Primary

/-! ### What the client keeps -/

/-- Token data that the client holds for a URI under a result id. -/
structure TokenData where
  uri : CStr
  resultId : CStr
  data : List UInt32

section Client

variable (keep : Store → CStr → Bool) (parse : CStr → ParseOutput) (r : Resolver)

/-- `"textDocument/semanticTokens/full"`. -/
def fullMethod : CStr := cstr "textDocument/semanticTokens/full"

/-- `"textDocument/semanticTokens/full/delta"`. -/
def deltaMethod : CStr := cstr "textDocument/semanticTokens/full/delta"

/-- The server's result for a semantic-token request. -/
def answerTokens (w : World) (st : ServerState) (method : CStr) (params : Option Json) :
    Option TokensResult :=
  let qc := buildQueryContext w.realpath st (requestPrimaryUri params) false
  if method = fullMethod then handleSemanticTokensFull qc
  else if method = deltaMethod then handleSemanticTokensFullDelta params qc
  else none

/-- The new data that a result gives the client: whole, or from the data under the id that it has
sent. -/
def newTokenData (uri : CStr) (previousResultId : Option CStr) (held : List TokenData) :
    TokensResult → List TokenData
  | .null => []
  | .full resultId data => [⟨uri, resultId, data⟩]
  | .delta d =>
    (held.filter fun e => e.uri = uri ∧ some e.resultId = previousResultId).filterMap fun e =>
      d.resultId.bind fun resultId =>
        (TokensResult.applyTo e.data (.delta d)).map fun data => ⟨uri, resultId, data⟩

/-- The client's note of a step.  Data of a URI is dropped once `keep` says so. -/
def noteTokens (st : ServerState) (w : World) (m : Step) (held : List TokenData) : List TokenData :=
  match m with
  | .ask method params =>
    match requestPrimaryUri params, answerTokens w st method params with
    | some uri, some result =>
      held ++ newTokenData (r.canon uri) (Json.strField params "previousResultId") held result
    | _, _ => held
  | m => held.filter fun e => keep (m.apply w parse st).docs e.uri

/-- The URI has a slot. -/
def hasSlot (s : Store) (uri : CStr) : Bool := (s.findExact uri).isSome

/-- No counter wraps around: neither the version of a document, nor the `int` at which its tokens are
written. -/
def NoWrap (o : Observed (List TokenData)) (_ : World) (_ : Step) : Prop :=
  ∀ i d, o.st.docs i = some d → d.docVersion ≠ 18446744073709551615 ∧
    ∀ snap, d.snap = some snap → (docsnapSemTokens snap).isSome

end Client

section Versions

variable {parse : CStr → ParseOutput} {r : Resolver} {w : World} {st : ServerState}

/-- The versions of a document go up from its previous parse to its next one. -/
structure VersionsOk (d : Document) : Prop where
  snap_lt : ∀ s, d.snap = some s → s.docVersion.toNat < d.docVersion.toNat
  prev_lt : ∀ s p, d.snap = some s → d.prevSnap = some p → p.docVersion.toNat < s.docVersion.toNat

theorem toNat_add_one {v : UInt64} (h : v ≠ 18446744073709551615) :
    (v + 1).toNat = v.toNat + 1 := by
  have hlt := v.toNat_lt
  have hne : v.toNat ≠ 18446744073709551615 := fun hv => h (UInt64.toNat_inj.mp hv)
  rw [UInt64.toNat_add]
  have : UInt64.toNat 1 = 1 := rfl
  omega

theorem documentLaw_versionsOk (parse : CStr → ParseOutput) :
    DocumentLaw parse (fun d => d.docVersion ≠ 18446744073709551615) VersionsOk := by
  constructor
  · rintro d d' h ⟨b, ps, us, rfl⟩
    exact ⟨h.snap_lt, h.prev_lt⟩
  · exact fun d h => ⟨h.snap_lt, h.prev_lt⟩
  · intro d d' text hd _ hv hsnap
    have hne : d'.docVersion ≠ 18446744073709551615 := by
      rw [hv]
      rcases hd with hd | ⟨uri, rfl⟩
      · exact hd.1
      · show (1 : UInt64) ≠ 18446744073709551615
        decide
    constructor
    · intro s hs
      cases hs
      show d'.docVersion.toNat < (d'.docVersion + 1).toNat
      rw [toNat_add_one hne]
      omega
    · intro s p hs hp
      cases hs
      have hp' : d'.snap = some p := hp
      show p.docVersion.toNat < d'.docVersion.toNat
      rcases hsnap with hold | hnone
      · rw [hold] at hp'
        rw [hv]
        rcases hd with hd | ⟨uri, rfl⟩
        · exact hd.2.snap_lt p hp'
        · cases hp'
      · rw [hnone] at hp'
        cases hp'

/-- The data that the client holds is that of the parse which its result id names, if this is the
current parse of the document or the one before. -/
def HeldOk (s : Store) (e : TokenData) : Prop :=
  ∃ i d, s i = some d ∧ d.uri = e.uri ∧ ∃ v : UInt64, e.resultId = decimal v.toNat ∧
    v.toNat < d.docVersion.toNat ∧
    (∀ snap, d.snap = some snap → snap.docVersion = v → docsnapSemTokens snap = some e.data) ∧
    ∀ prev, d.prevSnap = some prev → prev.docVersion = v → docsnapSemTokens prev = some e.data

/-- Held data stays right while its document keeps its slot. -/
theorem HeldOk.evolves {s' : Store} {e : TokenData} {i : Slot} {d d' : Document}
    (hd' : s' i = some d') (he : Evolves d d') (hwrap : d.docVersion ≠ 18446744073709551615)
    (huri : d.uri = e.uri) {v : UInt64} (hv : e.resultId = decimal v.toNat)
    (hlt : v.toNat < d.docVersion.toNat)
    (hsnap : ∀ snap, d.snap = some snap → snap.docVersion = v → docsnapSemTokens snap = some e.data)
    (hprev : ∀ prev, d.prevSnap = some prev → prev.docVersion = v →
      docsnapSemTokens prev = some e.data) : HeldOk s' e := by
  cases he with
  | same hu hv' hs hp =>
    refine ⟨i, d', hd', by rw [hu, huri], v, hv, by rwa [hv'], ?_, ?_⟩
    · rwa [hs]
    · rwa [hp]
  | parsed hu hv' hs hp =>
    obtain ⟨fresh, hfresh, hversion⟩ := hs
    refine ⟨i, d', hd', by rw [hu, huri], v, hv, ?_, ?_, ?_⟩
    · rw [hv', toNat_add_one hwrap]
      omega
    · intro snap hs' heq
      rw [hfresh, Option.some.injEq] at hs'
      rw [← hs', hversion] at heq
      rw [heq] at hlt
      omega
    · intro prev hprev' heq
      rcases hp with hold | hnone
      · exact hsnap prev (hold ▸ hprev') heq
      · rw [hnone] at hprev'
        cases hprev'

/-! ### Runs -/

/-- What holds of the store and of the client's data between two steps. -/
structure TokensOk (parse : CStr → ParseOutput) (r : Resolver) (o : Observed (List TokenData)) :
    Prop where
  store : StoreOk r o.st.docs
  parsed : ∀ i d, o.st.docs i = some d → ParsedOk parse d
  versions : ∀ i d, o.st.docs i = some d → VersionsOk d
  held : ∀ e ∈ o.seen, HeldOk o.st.docs e

/-- The conditions on a step other than a query. -/
def QuietStep (parse : CStr → ParseOutput) (r : Resolver) (o : Observed (List TokenData))
    (x : World × Step) : Prop :=
  Observed.Allowed parse r NoWrap o x ∧ ∀ method params, x.2 ≠ .ask method params

theorem findExact_isSome {s : Store} {uri : CStr} (h : (s.findExact uri).isSome) :
    ∃ i d, s i = some d ∧ d.uri = uri := by
  obtain ⟨i, hi⟩ := Option.isSome_iff_exists.mp h
  obtain ⟨d, hd, hu⟩ := Store.findExact_some hi
  exact ⟨i, d, hd, hu⟩

/-- **A step that is no query** keeps the client's data right. -/
theorem TokensOk.step {o : Observed (List TokenData)} (h : TokensOk parse r o) {x : World × Step}
    (hx : QuietStep parse r o x) :
    TokensOk parse r (Observed.step parse (noteTokens hasSlot parse r) o x) := by
  obtain ⟨w, m⟩ := x
  obtain ⟨⟨hw, hn, hwrap⟩, hquiet⟩ := hx
  constructor
  · exact h.store.step hw hn
  · intro i d hd
    exact (documentLaw_parsedOk parse).step m (fun i d h' => ⟨trivial, h.parsed i d h'⟩) hd
  · intro i d hd
    exact (documentLaw_versionsOk parse).step m
      (fun i d h' => ⟨(hwrap i d h').1, h.versions i d h'⟩) hd
  · intro e he
    have hmem : e ∈ o.seen ∧ hasSlot (m.apply w parse o.st).docs e.uri = true := by
      cases m with
      | ask method params => exact absurd rfl (hquiet method params)
      | _ => exact List.mem_filter.mp he
    obtain ⟨hold, hslot⟩ := hmem
    obtain ⟨i, d, hd, hu, v, hv, hlt, hsnap, hprev⟩ := h.held e hold
    have hev : (m.apply w parse o.st).docs = docFree o.st.docs i ∨
        ∃ d', (m.apply w parse o.st).docs i = some d' ∧ Evolves d d' := m.evolves hd
    rcases hev with hfree | ⟨d', hd', hev⟩
    · -- the slot has been freed, and no other document carries the URI
      obtain ⟨j, e', he', hu'⟩ := findExact_isSome hslot
      rw [hfree] at he'
      obtain ⟨hji, he'⟩ := docFree_some he'
      exact absurd (h.store.unique j i e' d he' hd (by rw [hu', hu])) hji
    · exact HeldOk.evolves hd' hev (hwrap i d hd).1 hu hv hlt hsnap hprev

/-- The steps of a message that is no query have no query among them. -/
theorem Event.ask_notMem {st : ServerState} {e : Event} (he : ∀ method params, e ≠ .query method params)
    {method : CStr} {params : Option Json} : .ask method params ∉ e.steps w parse st := by
  have hacts : ∀ (actions : List Action) (called : Bool),
      Step.ask method params ∉ actions.map Step.act ++ revalidation called := by
    intro actions called h
    rcases List.mem_append.mp h with h | h
    · simp at h
    · cases called <;> simp [revalidation] at h
  cases e with
  | initRequest params => simp [Event.steps]
  | initialized =>
    intro h
    rcases List.mem_cons.mp h with h | h
    · cases h
    · exact hacts [] _ h
  | didOpen params => exact hacts _ _
  | didChange params => exact hacts _ _
  | didClose params => exact hacts _ _
  | didChangeWatchedFiles params => exact hacts _ _
  | didRenameFiles params => exact hacts _ _
  | query method params => exact absurd rfl (he method params)

theorem exists_primary (h : StoreOk r st.docs) (hpub : Published r st) {i : Slot} {d : Document}
    (hd : st.docs i = some d) {uri : CStr} (hf : docFind w.realpath st.docs uri = some i)
    (hp : ParsedOk parse d) (wantAllDocs : Bool) :
    ∃ snap text, d.snap = some snap ∧ d.text = some text ∧
      docsnapSemTokens snap
        = computeSemanticTokensBuf (parse text).tokSpans (parse text).numSemEntries ∧
      (buildQueryContext w.realpath st (some uri) wantAllDocs).primary
        = some ⟨snap, d.prefixes, true⟩ := by
  obtain ⟨snap, text, hsnap, htext, -, -, hspans, hcount⟩ := hp
  rcases hpub with ⟨realpath, status, -, hws⟩ | ⟨-, hempty⟩
  · rw [build_eq] at hws
    exact ⟨snap, text, hsnap, htext, by rw [docsnapSemTokens, hspans, hcount],
      primary_buildQueryContext h hws hf hd hsnap _⟩
  · rw [hempty] at hd
    cases hd

/-- **A delta against held data** gives the tokens of the current parse. -/
theorem TokensOk.delta {o : Observed (List TokenData)} (h : TokensOk parse r o)
    (hw : r.Governs w.realpath) {e : TokenData} (he : HeldOk o.st.docs e) {params : Option Json}
    {uri : CStr} (huri : requestPrimaryUri params = some uri) (hn : r.uris uri)
    (hcanon : r.canon uri = e.uri)
    (hprev : Json.strField params "previousResultId" = some e.resultId) {i : Slot} {d : Document}
    (hf : docFind w.realpath o.st.docs uri = some i) (hd : o.st.docs i = some d)
    {snap : DocSnapshot} (hsnap : d.snap = some snap)
    (hprimary : (buildQueryContext w.realpath o.st (some uri) false).primary
      = some ⟨snap, d.prefixes, true⟩) {tokens : List UInt32}
    (htokens : docsnapSemTokens snap = some tokens) :
    ∃ result, answerTokens w o.st deltaMethod params = some result ∧
      result.resultId = some (semTokensResultId snap) ∧ result.applyTo e.data = some tokens := by
  obtain ⟨j, e', he', hu, v, hv, hlt, hcur, hold⟩ := he
  obtain rfl : j = i := by
    have hf' := (h.store.docFind_iff hw hn).mpr ⟨e', he', by rw [hu, hcanon]⟩
    exact Option.some.inj (hf'.symm.trans hf)
  obtain rfl := Option.some.inj (he'.symm.trans hd)
  have hbase : ∀ base, (Json.strField params "previousResultId").bind
      (deltaBase (buildQueryContext w.realpath o.st (some uri) false) snap) = some base →
      docsnapSemTokens base = some e.data := by
    intro base hb
    rw [hprev, Option.bind_some, deltaBase, hv, strtoull_decimal, prevSnap_buildQueryContext hf hd] at hb
    split at hb
    · rename_i heq
      cases hb
      exact hcur snap hsnap heq.symm
    · obtain ⟨hp, heq⟩ := Option.filter_eq_some_iff.mp hb
      exact hold base hp (of_decide_eq_true heq).symm
  rw [answerTokens, huri, if_neg (by decide), if_pos rfl]
  exact handleSemanticTokensFullDelta_applyTo hprimary htokens hbase

theorem heldOk_current {o : Observed (List TokenData)} (h : TokensOk parse r o) {i : Slot}
    {d : Document} {snap : DocSnapshot} (hd : o.st.docs i = some d) (hs : d.snap = some snap)
    {e : TokenData} (hu : d.uri = e.uri) (hid : e.resultId = semTokensResultId snap)
    (hdata : docsnapSemTokens snap = some e.data) : HeldOk o.st.docs e := by
  have hv := h.versions i d hd
  refine ⟨i, d, hd, hu, snap.docVersion, hid, hv.snap_lt snap hs, ?_, ?_⟩
  · intro s hs' _
    rw [hs, Option.some.injEq] at hs'
    rw [← hs', hdata]
  · intro p hp heq
    have := hv.prev_lt snap p hs hp
    rw [heq] at this
    omega

theorem docFind_of_primary {uri : CStr} {wantAllDocs : Bool} {q : QueryDoc}
    (hq : (buildQueryContext w.realpath st (some uri) wantAllDocs).primary = some q) :
    ∃ i d, docFind w.realpath st.docs uri = some i ∧ st.docs i = some d := by
  cases hf : docFind w.realpath st.docs uri with
  | some i =>
    obtain ⟨d, hd⟩ := docFind_isSome hf
    exact ⟨i, d, rfl, hd⟩
  | none =>
    exfalso
    unfold QueryContext.primary buildQueryContext at hq
    rw [Option.bind_some, hf, Option.bind_none] at hq
    cases hws : st.ws with
    | none =>
      rw [hws] at hq
      cases hq
    | some ws =>
      rw [hws] at hq
      have hmem := List.mem_of_find?_eq_some hq
      have hprimary := List.find?_some hq
      rw [List.mem_reverse, List.mem_filterMap] at hmem
      obtain ⟨wd, -, hwd⟩ := hmem
      unfold makeQueryDoc at hwd
      simp only [Option.map_none] at hwd
      split at hwd
      · cases hwd
        exact absurd hprimary (by simp)
      · cases hwd

/-- An answer is empty, or it carries the id of the current parse: with all of its tokens, or as a
delta. -/
theorem answerTokens_cases {method : CStr} {params : Option Json} {result : TokensResult}
    (hans : answerTokens w st method params = some result) :
    result = .null ∨ ∃ q tokens,
      (buildQueryContext w.realpath st (requestPrimaryUri params) false).primary = some q ∧
      docsnapSemTokens q.snap = some tokens ∧
      (result = .full (semTokensResultId q.snap) tokens ∨
        method = deltaMethod ∧ ∃ delta, result = .delta delta) := by
  unfold answerTokens at hans
  simp only at hans
  generalize buildQueryContext w.realpath st (requestPrimaryUri params) false = qc at hans ⊢
  cases hq : qc.primary with
  | none =>
    left
    split at hans
    · rw [handleSemanticTokensFull, hq, Option.some.injEq] at hans
      exact hans.symm
    · split at hans
      · rw [handleSemanticTokensFullDelta, hq, Option.some.injEq] at hans
        exact hans.symm
      · cases hans
  | some q =>
    right
    split at hans
    · rw [handleSemanticTokensFull, hq] at hans
      obtain ⟨tokens, htokens, rfl⟩ := Option.map_eq_some_iff.mp hans
      exact ⟨q, tokens, rfl, htokens, Or.inl rfl⟩
    · split at hans
      · rename_i hmethod
        rw [handleSemanticTokensFullDelta, hq] at hans
        obtain ⟨tokens, htokens, hans⟩ := Option.bind_eq_some_iff.mp hans
        refine ⟨q, tokens, rfl, htokens, ?_⟩
        split at hans
        · obtain ⟨old, -, hans⟩ := Option.bind_eq_some_iff.mp hans
          obtain ⟨delta, -, rfl⟩ := Option.map_eq_some_iff.mp hans
          exact Or.inr ⟨hmethod, delta, rfl⟩
        · rw [Option.some.injEq] at hans
          exact Or.inl hans.symm
      · cases hans

/-- **Every answer** leaves the client with the right data. -/
theorem heldOk_newTokenData {o : Observed (List TokenData)} (h : TokensOk parse r o)
    (hpub : Published r o.st) (hw : r.Governs w.realpath) {method : CStr} {params : Option Json}
    {uri : CStr} (huri : requestPrimaryUri params = some uri) (hn : r.uris uri)
    {result : TokensResult} (hans : answerTokens w o.st method params = some result) {e : TokenData}
    (he : e ∈ newTokenData (r.canon uri) (Json.strField params "previousResultId") o.seen result) :
    HeldOk o.st.docs e := by
  rcases answerTokens_cases hans with rfl | ⟨q, tokens, hq, htokens, hresult⟩
  · cases he
  · rw [huri] at hq
    obtain ⟨i, d, hf, hd⟩ := docFind_of_primary hq
    obtain ⟨d', hd', hu⟩ := (h.store.docFind_iff hw hn).mp hf
    obtain rfl := Option.some.inj (hd.symm.trans hd')
    obtain ⟨snap, text, hsnap, -, -, hprimary⟩ := exists_primary h.store hpub hd hf (h.parsed i d hd) false
    obtain rfl := Option.some.inj (hq.symm.trans hprimary)
    rcases hresult with rfl | ⟨rfl, delta, rfl⟩
    · rw [newTokenData, List.mem_singleton] at he
      subst he
      exact heldOk_current h hd hsnap hu rfl htokens
    · -- the client applies the delta to data that it holds under the id it has sent
      obtain ⟨e0, he0, hnew⟩ := List.mem_filterMap.mp he
      rw [List.mem_filter, decide_eq_true_eq] at he0
      obtain ⟨hmem, hu0, hid0⟩ := he0
      obtain ⟨result', hans', hid, happly⟩ := h.delta hw (h.held e0 hmem) huri hn hu0.symm hid0.symm
        hf hd hsnap hprimary htokens
      obtain rfl := Option.some.inj (hans.symm.trans hans')
      have hid' : delta.resultId = some (semTokensResultId snap) := hid
      rw [hid', Option.bind_some, happly, Option.map_some, Option.some.injEq] at hnew
      subst hnew
      exact heldOk_current h hd hsnap hu rfl htokens

/-- **What a run keeps**, query or not. -/
theorem Observed.run_tokensOk {o : Observed (List TokenData)}
    (h : Observed.Run parse (noteTokens hasSlot parse r) r NoWrap [] o) : TokensOk parse r o := by
  induction h with
  | start =>
    exact ⟨storeOk_empty r, (fun i d h => by cases h), (fun i d h => by cases h),
      (fun e he => by cases he)⟩
  | @input o x hr hm ih =>
    obtain ⟨w, e⟩ := x
    by_cases hquery : ∃ method params, e = .query method params
    · obtain ⟨method, params, rfl⟩ := hquery
      obtain ⟨⟨hw, hn, -⟩, -⟩ := hm
      refine ⟨ih.store, ih.parsed, ih.versions, fun d hd => ?_⟩
      have hnote : d ∈ noteTokens hasSlot parse r o.st w (.ask method params) o.seen := hd
      unfold noteTokens at hnote
      simp only at hnote
      split at hnote
      · rename_i uri result huri hans
        rcases List.mem_append.mp hnote with hold | hnew
        · exact ih.held d hold
        · exact heldOk_newTokenData ih (Observed.run_published hr) hw.governs huri
            (hn uri huri) hans hnew
      · exact ih.held d hnote
    · have hquiet : Runs.Meets (Observed.step parse (noteTokens hasSlot parse r))
          (fun _ x => ∀ method params, x.2 ≠ .ask method params) o (Observed.plan parse o (w, e)) := by
        refine Runs.meets_of_forall fun x hx _ => ?_
        obtain ⟨m, hmem, rfl⟩ := List.mem_map.mp hx
        rintro method params rfl
        exact Event.ask_notMem (fun method params he => hquery ⟨method, params, he⟩) hmem
      exact (hm.and hquiet).invariant (fun o x ho hx => ho.step hx) ih

/-- **A delta leads to the current tokens.**  The client holds data that the server has given it
for a URI, and the slot of the URI has not been freed since; then the answer to a delta request
under its result id, applied to the data, gives the tokens of the current text. -/
theorem delta_gives_current {parse : CStr → ParseOutput} {r : Resolver}
    {o : Observed (List TokenData)}
    (h : Observed.Run parse (noteTokens hasSlot parse r) r NoWrap [] o) {w : World}
    (hw : r.Governs w.realpath) {e : TokenData} (he : e ∈ o.seen) {params : Option Json}
    (hwrap : NoWrap o w (.ask deltaMethod params)) {uri : CStr}
    (huri : requestPrimaryUri params = some uri) (hn : r.uris uri) (hcanon : r.canon uri = e.uri)
    (hprev : Json.strField params "previousResultId" = some e.resultId) :
    ∃ i d text tokens result, docFind w.realpath o.st.docs uri = some i ∧
      o.st.docs i = some d ∧ d.text = some text ∧
      computeSemanticTokensBuf (parse text).tokSpans (parse text).numSemEntries = some tokens ∧
      answerTokens w o.st deltaMethod params = some result ∧
      result.applyTo e.data = some tokens := by
  have hok := Observed.run_tokensOk h
  obtain ⟨i, d, hd, hu, -⟩ := hok.held e he
  have hf := (hok.store.docFind_iff hw hn).mpr ⟨d, hd, by rw [hu, hcanon]⟩
  obtain ⟨snap, text, hsnap, htext, hparse, hprimary⟩ :=
    exists_primary hok.store (Observed.run_published h) hd hf (hok.parsed i d hd) false
  obtain ⟨tokens, htokens⟩ := Option.isSome_iff_exists.mp ((hwrap i d hd).2 snap hsnap)
  obtain ⟨result, hans, -, happly⟩ := hok.delta hw (hok.held e he) huri hn hcanon hprev hf hd hsnap
    hprimary htokens
  exact ⟨i, d, text, tokens, result, hf, hd, htext, hparse ▸ htokens, hans, happly⟩

end Versions

/-! ### An id that is given twice -/

instance (o : Observed (List TokenData)) (w : World) (m : Step) : Decidable (NoWrap o w m) :=
  decidable_of_iff (∀ i, (o.st.docs i).all fun d => decide (d.docVersion ≠ 18446744073709551615) &&
    d.snap.all fun snap => (docsnapSemTokens snap).isSome) (by
      simp only [NoWrap, Option.all_eq_true, Bool.and_eq_true, decide_eq_true_eq])

/-- The parse of a line comment `#`, and of a blank text. -/
def commentParse (text : CStr) : ParseOutput :=
  if text = cstr "#" then
    { blankParse text with
      tokSpans := [⟨tkLineComment, ⟨0, 0⟩, ⟨0, 1⟩, some text⟩], numSemEntries := 1 }
  else blankParse text

/-- A file system without files. -/
def noFiles : World := fileSystem []

/-- One where the file is blank. -/
def savedFile : World := fileSystem [("file:///a.tjp", "\n")]

/-- A request about the tokens of `/a.tjp`. -/
def tokensRequest (previousResultId : String) : Option Json :=
  some (.obj [("textDocument", .obj [("uri", .str (cstr "file:///a.tjp"))]),
    ("previousResultId", .str (cstr previousResultId))])

/-- The one URI that is looked up. -/
def tokensUris : List CStr := [cstr "file:///a.tjp"]

/-- Some events, one after the other, and what the client keeps of the answers. -/
def tokensRun (w : World) (keep : Store → CStr → Bool) (events : List Event) :
    Observed (List TokenData) :=
  Observed.events commentParse (noteTokens keep commentParse (lexicalResolver tokensUris))
    ⟨initialState, []⟩ (events.map fun e => (w, e))

/-- A comment is opened, and its tokens are asked for. -/
def askedTokens : List Event :=
  [openMessage "file:///a.tjp" "#", .query fullMethod (tokensRequest "")]

/-- The client asks again, with the id that it has been given. -/
theorem delta_gives_current_asked :
    ∃ i d text tokens result, docFind savedFile.realpath
        (tokensRun savedFile hasSlot askedTokens).st.docs (cstr "file:///a.tjp") = some i ∧
      (tokensRun savedFile hasSlot askedTokens).st.docs i = some d ∧ d.text = some text ∧
      computeSemanticTokensBuf (commentParse text).tokSpans (commentParse text).numSemEntries
        = some tokens ∧
      answerTokens savedFile (tokensRun savedFile hasSlot askedTokens).st deltaMethod
        (tokensRequest "1") = some result ∧
      result.applyTo [0, 0, 1, 1, 0] = some tokens := by
  have hw : (lexicalResolver tokensUris).Suits commentParse savedFile :=
    suits_of_suitable (by decide +kernel)
  have hopen : Observed.Run commentParse
      (noteTokens hasSlot commentParse (lexicalResolver tokensUris)) (lexicalResolver tokensUris)
      NoWrap [] (tokensRun savedFile hasSlot (askedTokens.take 1)) :=
    Observed.Run.next .start _ hw (by decide +kernel) (by decide +kernel)
  have hrun : Observed.Run commentParse
      (noteTokens hasSlot commentParse (lexicalResolver tokensUris)) (lexicalResolver tokensUris)
      NoWrap [] (tokensRun savedFile hasSlot askedTokens) :=
    hopen.next _ hw (by decide +kernel) (by decide +kernel)
  have hseen : (tokensRun savedFile hasSlot askedTokens).seen.map
      (fun e => (e.uri, e.resultId, e.data))
      = [(cstr "file:///a.tjp", cstr "1", [0, 0, 1, 1, 0])] := by decide +kernel
  obtain ⟨e, he, heq⟩ := List.mem_map.mp (hseen ▸ List.mem_singleton_self _)
  obtain ⟨huri, hid, hdata⟩ : e.uri = cstr "file:///a.tjp" ∧ e.resultId = cstr "1" ∧
      e.data = [0, 0, 1, 1, 0] := by simpa using heq
  rw [← hdata]
  refine delta_gives_current hrun hw.governs he (by decide +kernel) rfl (by decide +kernel) ?_ ?_
  · rw [huri]
    decide +kernel
  · rw [hid]
    decide +kernel

/-- A document that is not saved is closed, its slot is taken again, and the id of the new text is
the old one: the client is told that nothing has changed. -/
theorem reused_result_id :
    ¬ ∀ (parse : CStr → ParseOutput) (r : Resolver) (o : Observed (List TokenData)),
      Observed.Run parse (noteTokens (fun _ _ => true) parse r) r (fun _ _ _ => True) [] o →
      ∀ w : World, r.Governs w.realpath → ∀ e ∈ o.seen, ∀ params uri,
        requestPrimaryUri params = some uri → r.uris uri → r.canon uri = e.uri →
        Json.strField params "previousResultId" = some e.resultId →
        ∀ i d text, docFind w.realpath o.st.docs uri = some i → o.st.docs i = some d →
          d.text = some text → ∃ tokens result,
            computeSemanticTokensBuf (parse text).tokSpans (parse text).numSemEntries = some tokens ∧
            answerTokens w o.st deltaMethod params = some result ∧
            result.applyTo e.data = some tokens := by
  intro h
  let events := askedTokens ++ [closeMessage "file:///a.tjp", openMessage "file:///a.tjp" ""]
  have hw : (lexicalResolver tokensUris).Suits commentParse noFiles :=
    suits_of_suitable (by decide +kernel)
  have hrun : Observed.Run commentParse
      (noteTokens (fun _ _ => true) commentParse (lexicalResolver tokensUris))
      (lexicalResolver tokensUris) (fun _ _ _ => True) []
      (tokensRun noFiles (fun _ _ => true) events) := by
    refine Observed.Run.events .start (fun x hx => ?_) (by decide +kernel)
    obtain ⟨e, -, rfl⟩ := List.mem_map.mp hx
    exact hw
  have hseen : (tokensRun noFiles (fun _ _ => true) events).seen.map
      (fun e => (e.uri, e.resultId, e.data))
      = [(cstr "file:///a.tjp", cstr "1", [0, 0, 1, 1, 0])] := by decide +kernel
  obtain ⟨e, he, heq⟩ := List.mem_map.mp (hseen ▸ List.mem_singleton_self _)
  obtain ⟨huri, hid, hdata⟩ : e.uri = cstr "file:///a.tjp" ∧ e.resultId = cstr "1" ∧
      e.data = [0, 0, 1, 1, 0] := by simpa using heq
  have hfind : docFind noFiles.realpath (tokensRun noFiles (fun _ _ => true) events).st.docs
      (cstr "file:///a.tjp") = some 0 := by decide +kernel
  have htext : ((tokensRun noFiles (fun _ _ => true) events).st.docs 0).map (·.text)
      = some (some []) := by decide +kernel
  obtain ⟨d, hd, htext⟩ := Option.map_eq_some_iff.mp htext
  obtain ⟨tokens, result, htokens, hresult, happly⟩ := h _ _ _ hrun noFiles hw.governs e he
    (tokensRequest "1") (cstr "file:///a.tjp") rfl (by decide +kernel) (by rw [huri]; decide +kernel)
    (by rw [hid]; decide +kernel) 0 d [] hfind hd htext
  have hnone : (answerTokens noFiles (tokensRun noFiles (fun _ _ => true) events).st deltaMethod
      (tokensRequest "1")).map (TokensResult.applyTo [0, 0, 1, 1, 0])
      = some (some [0, 0, 1, 1, 0]) := by decide +kernel
  have hblank : computeSemanticTokensBuf (commentParse []).tokSpans (commentParse []).numSemEntries
      = some [] := by decide +kernel
  rw [hblank, Option.some.injEq] at htokens
  rw [hresult, Option.map_some, ← hdata, happly, ← htokens, Option.some.injEq, Option.some.injEq,
    hdata] at hnone
  cases hnone

end TaskjugglerLsp
