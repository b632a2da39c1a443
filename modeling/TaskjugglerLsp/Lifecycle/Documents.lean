import TaskjugglerLsp.Lifecycle.Publication

/-!
# What happens to one document

A step frees a slot, or installs one new parse in it, or keeps its parses
(`Step.evolves`).  A property of documents that loading, adopting and installing
give is kept by every step (`DocumentLaw.step`); `run_parsedOk` is the first use:
every document is parsed, and its parse is that of its text.
-/

namespace TaskjugglerLsp

open Lib

section Evolution

/-- `d'` is `d` with the same parses, or with one more. -/
inductive Evolves (d d' : Document) : Prop
  | same (hu : d'.uri = d.uri) (hv : d'.docVersion = d.docVersion) (hs : d'.snap = d.snap)
      (hp : d'.prevSnap = d.prevSnap)
  | parsed (hu : d'.uri = d.uri) (hv : d'.docVersion = d.docVersion + 1)
      (hs : ∃ s, d'.snap = some s ∧ s.docVersion = d.docVersion)
      (hp : d'.prevSnap = d.snap ∨ d'.prevSnap = none)

variable {w : World} {parse : CStr → ParseOutput} {s s' : Store}

theorem Marked.evolves {d d' : Document} (h : Marked d d') : Evolves d d' := by
  obtain ⟨b, ps, us, rfl⟩ := h
  exact .same rfl rfl rfl rfl

/-- Installing a text in the document of a slot is one more parse of it. -/
theorem Sets.evolves {a : Action} {i : Slot} {d d' e : Document} {text : CStr}
    (hs : Sets w s i d d' text a) (hrel : Relabelled (d'.installParse (parse text)) e) :
    Evolves d e := by
  obtain ⟨hu, -, -, hv, hsnap, -⟩ := hs.fields
  obtain ⟨ps, us, rfl⟩ := hrel
  refine .parsed hu ?_ ⟨_, rfl, hv⟩ hsnap
  rw [← hv]
  rfl

theorem Carries.evolves {a : Action} {b : Bool} (hc : Carries w parse s a s' b) {i : Slot}
    {d : Document} (hd : s i = some d) :
    s' = docFree s i ∨ ∃ d', s' i = some d' ∧ Evolves d d' := by
  have hkeep : ∀ {e : Document}, Relabelled d e → Evolves d e := fun h => h.marked.evolves
  cases hc with
  | ignored _ hs' => exact Or.inr ⟨d, by rw [hs', hd], hkeep (.refl d)⟩
  | @freed j _ _ _ _ hs' =>
    by_cases hij : i = j
    · exact Or.inl (by rw [hs', hij])
    · exact Or.inr ⟨d, by rw [hs', docFree_of_ne hij, hd], hkeep (.refl d)⟩
  | @adopted text j e _ he _ _ _ hs' =>
    by_cases hij : i = j
    · subst hij
      rw [hd, Option.some.injEq] at he
      subst he
      exact Or.inr ⟨{ d with diskOnly := false }, by rw [hs', Store.put_self],
        .same rfl rfl rfl rfl⟩
    · exact Or.inr ⟨d, by rw [hs', Store.put_of_ne hij, hd], hkeep (.refl d)⟩
  | @installed j e e' text ht hs hi =>
    by_cases hij : i = j
    · subst hij
      obtain ⟨f, hf, hrel⟩ := hi.self
      have hde : e = d := by
        cases ht with
        | found _ he => exact Option.some.inj (he.symm.trans hd)
        | taken _ hn _ =>
          rw [hn] at hd
          cases hd
      exact Or.inr ⟨f, hf, hde ▸ hs.evolves hrel⟩
    · obtain ⟨f, hf, hrel⟩ := hi.keeps hij hd
      exact Or.inr ⟨f, hf, hkeep hrel⟩

/-- **A step** frees a slot in use, or its document evolves. -/
theorem Step.evolves {st : ServerState} (m : Step) {i : Slot} {d : Document}
    (hd : st.docs i = some d) :
    (m.apply w parse st).docs = docFree st.docs i ∨
      ∃ d', (m.apply w parse st).docs i = some d' ∧ Evolves d d' := by
  have hreload : (∀ a, m ≠ .act a) → ∃ d', (m.apply w parse st).docs i = some d' ∧ Evolves d d' := by
    intro hm
    obtain ⟨d', hd', hmark⟩ := (Step.reloads (w := w) st hm).keeps hd
    exact ⟨d', hd', hmark.evolves⟩
  cases m with
  | act a => exact (carries w parse st.docs a).evolves hd
  | _ => exact Or.inr (hreload (by rintro a ⟨⟩))

end Evolution

/-! ### Laws of documents -/

/-- A property of documents that each way to get a document gives. -/
structure DocumentLaw (parse : CStr → ParseOutput) (ok : Document → Prop)
    (P : Document → Prop) : Prop where
  marked : ∀ d d', P d → Marked d d' → P d'
  adopted : ∀ d, P d → P { d with diskOnly := false }
  installed : ∀ (d d' : Document) text, (ok d ∧ P d) ∨ (∃ uri, d = freshDocument uri) →
    d'.text = some text → d'.docVersion = d.docVersion → (d'.snap = d.snap ∨ d'.snap = none) →
      P (d'.installParse (parse text))

section Laws

variable {w : World} {parse : CStr → ParseOutput} {ok P : Document → Prop} {s s' : Store}

theorem DocumentLaw.relabelled (h : DocumentLaw parse ok P) {d d' : Document} (hd : P d)
    (hr : Relabelled d d') : P d' := h.marked d d' hd hr.marked

theorem DocumentLaw.loaded (h : DocumentLaw parse ok P) {d : Document} (hl : Loaded w parse d) :
    P d := by
  obtain ⟨path, text, -, hrel⟩ := hl
  refine h.relabelled ?_ hrel
  exact h.installed (freshDocument (normalizeUri w.realpath (pathToUri path))) _ text
    (Or.inr ⟨_, rfl⟩) rfl rfl (Or.inl rfl)

theorem DocumentLaw.action (h : DocumentLaw parse ok P) {a : Action} {b : Bool}
    (hc : Carries w parse s a s' b) (hs : ∀ i d, s i = some d → ok d ∧ P d) {i : Slot}
    {d : Document} (hd : s' i = some d) : P d := by
  cases hc with
  | ignored _ hs' =>
    rw [hs'] at hd
    exact (hs i d hd).2
  | freed _ _ _ hs' =>
    rw [hs'] at hd
    exact (hs i d (docFree_some hd).2).2
  | @adopted text j e _ he _ _ _ hs' =>
    rw [hs'] at hd
    by_cases hij : i = j
    · subst hij
      rw [Store.put_self, Option.some.injEq] at hd
      exact hd ▸ h.adopted e (hs i e he).2
    · rw [Store.put_of_ne hij] at hd
      exact (hs i d hd).2
  | @installed j e e' text ht hset hi =>
    rcases hi.cases hd with ⟨rfl, hrel⟩ | ⟨-, e0, he0, hrel⟩ | ⟨-, -, hl⟩
    · obtain ⟨-, htext, -, hv, hsnap, -⟩ := hset.fields
      refine h.relabelled (h.installed e e' text ?_ htext hv hsnap) hrel
      cases ht with
      | found _ he => exact Or.inl (hs i e he)
      | taken _ _ he => exact Or.inr ⟨_, he⟩
    · exact h.relabelled (hs i e0 he0).2 hrel
    · exact h.loaded hl

/-- **A law of documents** is kept by every step. -/
theorem DocumentLaw.step (h : DocumentLaw parse ok P) {st : ServerState} (m : Step)
    (hs : ∀ i d, st.docs i = some d → ok d ∧ P d) {i : Slot} {d : Document}
    (hd : (m.apply w parse st).docs i = some d) : P d := by
  have hreload : (∀ a, m ≠ .act a) → P d := by
    intro hm
    have hl : Reloads w parse st.docs (m.apply w parse st).docs := Step.reloads st hm
    cases hi : st.docs i with
    | none =>
      obtain ⟨e, he, hmark⟩ := hl.adds hi hd
      exact h.marked e d (h.loaded he) hmark
    | some e =>
      obtain ⟨d', hd', hmark⟩ := hl.keeps hi
      rw [hd, Option.some.injEq] at hd'
      exact h.marked e d (hs i e hi).2 (hd' ▸ hmark)
  cases m with
  | act a => exact h.action (carries w parse st.docs a) hs hd
  | _ => exact hreload (by rintro a ⟨⟩)

end Laws

/-! ### Every document is parsed -/

section Parsed

variable {parse : CStr → ParseOutput} {γ : Type} {note : ServerState → World → Step → γ → γ}

/-- The document is parsed, and its parse is the one of its text. -/
def ParsedOk (parse : CStr → ParseOutput) (d : Document) : Prop :=
  ∃ s text, d.snap = some s ∧ d.text = some text ∧ s.text = some text ∧
    s.root = (parse text).root ∧ s.tokSpans = (parse text).tokSpans ∧
    s.numSemEntries = (parse text).numSemEntries

theorem documentLaw_parsedOk (parse : CStr → ParseOutput) :
    DocumentLaw parse (fun _ => True) (ParsedOk parse) := by
  constructor
  · rintro d d' h ⟨b, ps, us, rfl⟩
    exact h
  · exact fun d h => h
  · intro d d' text _ htext _ _
    exact ⟨_, text, rfl, htext, htext, rfl, rfl, rfl⟩

/-- **Every document is parsed** throughout a run. -/
theorem Observed.run_parsedOk {r : Resolver} {ok : Observed γ → World → Step → Prop} {seen : γ}
    {o : Observed γ} (h : Observed.Run parse note r ok seen o) :
    ∀ i d, o.st.docs i = some d → ParsedOk parse d := by
  refine Runs.Reached.invariant (I := fun o => ∀ i d, o.st.docs i = some d → ParsedOk parse d)
    (fun i d h => by cases h) ?_ h
  intro o x ho _ i d hd
  exact (documentLaw_parsedOk parse).step x.2 (fun i d h => ⟨trivial, ho i d h⟩) hd

end Parsed

end TaskjugglerLsp
