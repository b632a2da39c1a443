import TaskjugglerLsp.Lifecycle.Documents
import TaskjugglerLsp.Lifecycle.Following

/-!
# The prefixes of a document over a run

A document carries the prefixes that the last include of it has handed on, and it
keeps them when the includer goes, or no longer includes it.  So they are those of
the includes that there are now (`Observed.run_prefixesOk`) as long as the includes
of a document agree, a document with prefixes is not left without an include, and a
document that comes back is included anew.
-/

namespace TaskjugglerLsp

open Lib

section Directs

variable (r : Resolver) (parse : CStr → ParseOutput)

/-- A document of the store ends with those prefixes for the URI. -/
def Directs (s : Store) (uri : CStr) (ps : PrefixSet) : Prop :=
  ∃ i d, s i = some d ∧ lastFor (d.directives r parse) uri = some ps

/-- The includes of a document of the store agree on its prefixes. -/
def Agree (s : Store) : Prop :=
  ∀ i d, s i = some d → ∀ ps ps', Directs r parse s d.uri ps → Directs r parse s d.uri ps' → ps = ps'

/-- **The prefixes of the documents** are those of the includes that there are. -/
structure PrefixesOk (s : Store) : Prop where
  includes : ∀ i d, s i = some d → IncludesOk r parse d
  labels : ∀ i d, s i = some d → Labelled (Directs r parse s d.uri) noPrefixes d.prefixes
  agree : Agree r parse s

/-- A document with prefixes stays included while it stays in the store. -/
def StaysIncluded (s s' : Store) : Prop :=
  ∀ i d j d', s i = some d → s' j = some d' → d'.uri = d.uri →
    ∀ ps, Directs r parse s d.uri ps → ps ≠ noPrefixes → ∃ ps', Directs r parse s' d.uri ps'

/-- A document that comes into the store while it is included with prefixes is included by a text
that is parsed with it: that of another new document, or of the document with the URI `parsed`. -/
def IncludedAnew (parsed : Option CStr) (s s' : Store) : Prop :=
  ∀ j d', s' j = some d' → Absent s d'.uri → ∀ ps, Directs r parse s d'.uri ps → ps ≠ noPrefixes →
    ∃ k e ps', s' k = some e ∧ (Absent s e.uri ∨ some e.uri = parsed) ∧
      lastFor (e.directives r parse) d'.uri = some ps'

end Directs

section Steps

variable {r : Resolver} {w : World} {parse : CStr → ParseOutput} {s s' : Store}

theorem prefixesOk_empty (r : Resolver) (parse : CStr → ParseOutput) : PrefixesOk r parse emptyStore := by
  constructor
  · intro i d hd
    cases hd
  · intro i d hd
    cases hd
  · intro i d hd
    cases hd

/-- **What parsing keeps.** -/
theorem PrefixesOk.relabels {parsed : Slot → Prop} {uri : Option CStr} (h : PrefixesOk r parse s)
    (hrel : Relabels r parse parsed s s') (hagree : Agree r parse s')
    (hstay : StaysIncluded r parse s s') (hanew : IncludedAnew r parse uri s s')
    (hparsed : ∀ j, s j = none → (s' j).isSome → ∀ k e, s' k = some e → some e.uri = uri → parsed k) :
    PrefixesOk r parse s' := by
  -- a document that is not parsed directs as it did before
  have hold : ∀ {u ps}, (∀ ps, ¬ HandedBy r parse parsed s' u ps) → Directs r parse s' u ps →
      Directs r parse s u ps := by
    intro u ps hnone hdir
    obtain ⟨k, e', he', hlast⟩ := hdir
    have hk : ¬ parsed k := fun hk => hnone ps ⟨k, e', hk, he', hlast⟩
    obtain ⟨e, he, hu, ht, -⟩ := hrel.same he' hk
    exact ⟨k, e, he, by rwa [← Document.directives_congr hu ht]⟩
  constructor
  · intro i d' hd'
    by_cases hi : parsed i
    · exact hrel.includes hd' hi
    · obtain ⟨d, hd, hu, ht, hinc⟩ := hrel.same hd' hi
      rw [IncludesOk, hinc, Document.directives_congr hu ht]
      exact h.includes i d hd
  · intro i d' hd'
    rcases hrel.labelled hd' with ⟨k, e, -, he, hlast⟩ | ⟨hnone, hps⟩
    · exact Or.inl ⟨k, e, he, hlast⟩
    · by_cases hex : ∃ ps, Directs r parse s' d'.uri ps
      · -- an include that was there before goes on
        obtain ⟨ps, hdir⟩ := hex
        left
        have hdir0 := hold hnone hdir
        cases hi : s i with
        | some d =>
          have hu := hrel.uris hi hd'
          rw [prefixesAt, hi, Option.elim_some] at hps
          rw [hu] at hdir0
          rcases h.labels i d hi with hlabel | ⟨hno, -⟩
          · rw [hps, h.agree i d hi d.prefixes ps hlabel hdir0]
            exact hdir
          · exact absurd hdir0 (hno ps)
        | none =>
          rw [prefixesAt, hi, Option.elim_none] at hps
          have hempty : ps = noPrefixes := by
            by_contra hne
            obtain ⟨k, e, ps', he, hsource, hlast⟩ := hanew i d' hd' (hrel.fresh hi hd') ps hdir0 hne
            refine hnone ps' ⟨k, e, ?_, he, hlast⟩
            rcases hsource with habs | huri
            · by_contra hk
              obtain ⟨e0, he0, hu0, -⟩ := hrel.same he hk
              exact habs k e0 he0 hu0.symm
            · exact hparsed i hi (by rw [hd']; rfl) k e he huri
          rw [hps, ← hempty]
          exact hdir
      · right
        refine ⟨fun ps hdir => hex ⟨ps, hdir⟩, ?_⟩
        cases hi : s i with
        | none => rw [hps, prefixesAt, hi, Option.elim_none]
        | some d =>
          have hu := hrel.uris hi hd'
          rw [hps, prefixesAt, hi, Option.elim_some]
          by_contra hne
          rcases h.labels i d hi with hlabel | ⟨-, hno⟩
          · obtain ⟨ps', hdir⟩ := hstay i d i d' hi hd' hu d.prefixes hlabel hne
            rw [← hu] at hdir
            exact hex ⟨ps', hdir⟩
          · exact hne hno
  · exact hagree

/-- Parsing after a change of the document in one slot, that keeps its URI and its prefixes. -/
theorem Relabels.of_put {i : Slot} {d : Document}
    (h : Relabels r parse (fun j => j = i ∨ s.put i d j = none) (s.put i d) s')
    (hkeep : ∀ e, s i = some e → d.uri = e.uri) (hprefixes : d.prefixes = prefixesAt s i)
    (hne : ∀ j e, j ≠ i → s j = some e → e.uri ≠ d.uri) :
    Relabels r parse (fun j => j = i ∨ s j = none) s s' := by
  have hslots : ∀ j, (j = i ∨ s.put i d j = none) ↔ (j = i ∨ s j = none) := by
    intro j
    by_cases hji : j = i
    · simp [hji]
    · simp [hji]
  simp only [hslots] at h
  constructor
  · intro j d' hd' hj
    obtain ⟨e, he, hu, ht, hinc⟩ := h.same hd' hj
    rw [Store.put_of_ne fun hji => hj (Or.inl hji)] at he
    exact ⟨e, he, hu, ht, hinc⟩
  · intro j e d' he hd'
    by_cases hji : j = i
    · subst hji
      rw [h.uris Store.put_self hd', hkeep e he]
    · exact h.uris (by rwa [Store.put_of_ne hji]) hd'
  · intro j d' hj hd' k e he
    by_cases hji : j = i
    · subst hji
      have hkj : k ≠ j := by
        rintro rfl
        rw [hj] at he
        cases he
      rw [h.uris Store.put_self hd']
      exact hne k e hkj he
    · have habs := h.fresh (by rwa [Store.put_of_ne hji]) hd'
      by_cases hki : k = i
      · subst hki
        rw [← hkeep e he]
        exact habs k d Store.put_self
      · exact habs k e (by rwa [Store.put_of_ne hki])
  · exact fun hd' hj => h.includes hd' hj
  · intro j d' hd'
    have hold : prefixesAt (s.put i d) j = prefixesAt s j := by
      by_cases hji : j = i
      · subst hji
        rw [← hprefixes, prefixesAt, Store.put_self]
        rfl
      · rw [prefixesAt, prefixesAt, Store.put_of_ne hji]
    rw [← hold]
    exact h.labelled hd'

/-- **What an action parses**: if it adds a document, then its own text too. -/
theorem Carries.relabels {a : Action} {b : Bool} (hw : r.Suits parse w)
    (hfree : SpellingFree r w) (hplain : FilesPlain r parse w) (h : StoreOk r s)
    (hinc : ∀ i d, s i = some d → IncludesOk r parse d) (ha : a.Named r parse w s)
    (hpath : ∀ path ∈ uriToPath a.uri, ∀ text ∈ a.newText w s, Plain r parse path text)
    (hc : Carries w parse s a s' b) :
    ∃ parsed, Relabels r parse parsed s s' ∧ ∀ j, s j = none → (s' j).isSome →
      ∀ k e, s' k = some e → some e.uri = some (r.canon a.uri) → parsed k := by
  have hkept : (∀ {i d'}, s' i = some d' → ∃ d, s i = some d ∧ d'.uri = d.uri ∧ d'.text = d.text ∧
      d'.includedUris = d.includedUris ∧ d'.prefixes = d.prefixes) → ∃ parsed,
      Relabels r parse parsed s s' ∧ ∀ j, s j = none → (s' j).isSome →
        ∀ k e, s' k = some e → some e.uri = some (r.canon a.uri) → parsed k := by
    intro hall
    refine ⟨_, relabels_of_kept hall, fun j hj hj' => ?_⟩
    obtain ⟨d', hd'⟩ := Option.isSome_iff_exists.mp hj'
    obtain ⟨d, hd, -⟩ := hall hd'
    rw [hj] at hd
    cases hd
  cases hc with
  | ignored _ hs' => exact hkept fun hd' => ⟨_, hs' ▸ hd', rfl, rfl, rfl, rfl⟩
  | freed _ _ _ hs' =>
    refine hkept fun {j d'} hd' => ?_
    rw [hs'] at hd'
    exact ⟨d', (docFree_some hd').2, rfl, rfl, rfl, rfl⟩
  | @adopted text i d _ hd _ _ _ hs' =>
    refine hkept fun {j d'} hd' => ?_
    rw [hs'] at hd'
    by_cases hji : j = i
    · subst hji
      rw [Store.put_self, Option.some.injEq] at hd'
      exact ⟨d, hd, by rw [← hd'], by rw [← hd'], by rw [← hd'], by rw [← hd']⟩
    · rw [Store.put_of_ne hji] at hd'
      exact ⟨d', hd', rfl, rfl, rfl, rfl⟩
  | @installed i d d' text ht hs _ hp =>
    obtain ⟨hu, hne⟩ := ht.uri_eq h hw.governs ha.1
    obtain ⟨hu', htext, -, -, hsnap, hps, hincs⟩ := hs.fields
    have hok : StoreOk r (s.put i d') := ht.storeOk_put h hw.governs ha.1 hs
    have hold : (∀ e, s i = some e → d = e) ∧ d.prefixes = prefixesAt s i ∧
        (uriToPath d.uri = none → d.includedUris = []) := by
      cases ht with
      | found _ hd =>
        refine ⟨fun e he => Option.some.inj (hd.symm.trans he), by rw [prefixesAt, hd]; rfl, ?_⟩
        intro hnone
        have hok := hinc i d hd
        rw [IncludesOk, Document.directives, hnone, List.map_nil, List.map_eq_nil_iff] at hok
        exact hok
      | taken _ hi hd =>
        refine ⟨fun e he => ?_, by rw [prefixesAt, hi, hd]; rfl, fun _ => by rw [hd]; rfl⟩
        rw [hi] at he
        cases he
    have htext' : ∀ path ∈ uriToPath a.uri, Plain r parse path text := by
      intro path hp
      rcases ht.text_cases hs with hnew | ⟨path', hr⟩
      · exact hpath path hp text hnew
      · obtain ⟨hp', hread⟩ := readUri_some hr
        obtain rfl := Option.some.inj (Eq.trans hp.symm hp')
        exact hplain path text (ha.2 path hp).1 hread
    have hrel := parseInto_relabels hw hfree hplain hok Store.put_self ha.1 (hu'.trans hu) htext
      (by rw [hu', hincs]; exact hold.2.2) fun path hp =>
        ⟨(ha.2 path hp).1, ha.coversText hw ht hs hp, htext' path hp⟩
    rw [← hp] at hrel
    refine ⟨_, hrel.of_put (fun e he => by rw [hu', hold.1 e he]) (by rw [hps, hold.2.1])
      (by rw [hu', hu]; exact hne), ?_⟩
    intro _ _ _ k e he huri
    left
    by_contra hki
    cases hk : s k with
    | none =>
      have habs := hrel.fresh (by rwa [Store.put_of_ne hki]) he
      exact habs i d' Store.put_self (by rw [hu', hu, ← Option.some.inj huri])
    | some e0 =>
      have hue := hrel.uris (by rwa [Store.put_of_ne hki]) he
      exact hne k e0 hki hk (by rw [← hue, Option.some.inj huri])

/-- Loading the entries of compile_commands.json. -/
theorem follows_loadCompileEntries (hw : r.Suits parse w) (hfree : SpellingFree r w)
    (hplain : FilesPlain r parse w) (h : StoreOk r s) {entries : List CStr}
    (hn : ∀ file ∈ entries, r.uris (pathToUri file)) :
    Follows r w parse none [] s (loadCompileEntries w parse s entries) := by
  induction entries generalizing s with
  | nil => exact .refl h
  | cons file entries ih =>
    have hload := follows_loadFileFromDisk hw hfree hplain file s (hn file List.mem_cons_self) h
    have hentry : Follows r w parse none [] s (loadCompileEntry w parse s file) :=
      hload.trans (.mark hload.ok _)
    exact hentry.trans (ih hentry.ok fun file' hf => hn file' (List.mem_cons_of_mem _ hf))

/-- A step other than an action parses the files that it loads. -/
theorem Step.relabels (hw : r.Suits parse w) (hfree : SpellingFree r w)
    (hplain : FilesPlain r parse w) {st : ServerState} (h : StoreOk r st.docs) {m : Step}
    (hn : m.Named r parse w st) (hm : ∀ a, m ≠ .act a) :
    Relabels r parse (fun i => st.docs i = none) st.docs (m.apply w parse st).docs := by
  have hel : (∀ entries ∈ m.entries w st, ∀ file ∈ entries, r.uris (pathToUri file)) →
      Follows r w parse none [] st.docs
        ((m.entries w st).elim st.docs (loadCompileEntries w parse st.docs)) := by
    intro hn
    cases hent : m.entries w st with
    | none => exact .refl h
    | some entries => exact follows_loadCompileEntries hw hfree hplain h (hn entries hent)
  rw [Step.docs_eq]
  cases m with
  | act a => exact absurd rfl (hm a)
  | ask method params => exact (hel nofun).relabels
  | _ => exact (hel hn).relabels

end Steps

/-! ### Runs -/

section Runs

variable (r : Resolver) (parse : CStr → ParseOutput) {γ : Type}

/-- The URI whose document a step may parse anew. -/
def Step.parsedUri : Step → Option CStr
  | .act a => some (r.canon a.uri)
  | _ => none

/-- **The conditions on a step**: on the files there are, and on the documents that it leaves. -/
structure KeepsPrefixes (o : Observed γ) (w : World) (m : Step) : Prop where
  spelling : SpellingFree r w
  files : FilesPlain r parse w
  named : ∀ a, m = .act a → ∀ path ∈ uriToPath a.uri, ∀ text ∈ a.newText w o.st.docs,
    Plain r parse path text
  agree : Agree r parse (m.apply w parse o.st).docs
  stay : StaysIncluded r parse o.st.docs (m.apply w parse o.st).docs
  anew : IncludedAnew r parse (m.parsedUri r) o.st.docs (m.apply w parse o.st).docs

variable {r parse} {note : ServerState → World → Step → γ → γ}

/-- A step that keeps the URIs and texts meets the conditions. -/
theorem keepsPrefixes_of_same {o : Observed γ} {w : World} {m : Step}
    (hdocs : ∀ i, ((m.apply w parse o.st).docs i).map (fun d => (d.uri, d.text))
      = (o.st.docs i).map fun d => (d.uri, d.text)) (hm : ∀ a, m ≠ .act a)
    (hfree : SpellingFree r w) (hfiles : FilesPlain r parse w)
    (hagree : Agree r parse (m.apply w parse o.st).docs) : KeepsPrefixes r parse o w m := by
  constructor
  · exact hfree
  · exact hfiles
  · intro a ha
    exact absurd ha (hm a)
  · exact hagree
  · rintro i d j d' _ _ _ ps ⟨k, e, he, hlast⟩ _
    have hk := hdocs k
    rw [he, Option.map_some, Option.map_eq_some_iff] at hk
    obtain ⟨e', he', heq⟩ := hk
    obtain ⟨hu, ht⟩ := Prod.mk.inj heq
    exact ⟨ps, k, e', he', by rwa [Document.directives_congr hu ht]⟩
  · intro j d' hd' habs
    have hj := (hdocs j).symm
    rw [hd', Option.map_some, Option.map_eq_some_iff] at hj
    obtain ⟨d, hd, heq⟩ := hj
    exact absurd (Prod.mk.inj heq).1 (habs j d hd)

theorem keepsPrefixes_of_undirected {o : Observed γ} {w : World} {m : Step}
    (hnone : ∀ uri ps, ¬ Directs r parse o.st.docs uri ps) (hfree : SpellingFree r w)
    (hfiles : FilesPlain r parse w)
    (hpath : ∀ a, m = .act a → ∀ path ∈ uriToPath a.uri, ∀ text ∈ a.newText w o.st.docs,
      Plain r parse path text)
    (hagree : Agree r parse (m.apply w parse o.st).docs) : KeepsPrefixes r parse o w m := by
  constructor
  · exact hfree
  · exact hfiles
  · exact hpath
  · exact hagree
  · intro i d j d' _ _ _ ps hdir
    exact absurd hdir (hnone _ ps)
  · intro j d' _ _ ps hdir
    exact absurd hdir (hnone _ ps)

/-- Where one document alone includes others, the includes agree. -/
theorem agree_of_single {s : Store} (i : Slot)
    (h : ∀ j, j ≠ i → ∀ d, s j = some d → d.directives r parse = []) : Agree r parse s := by
  have hone : ∀ {uri ps}, Directs r parse s uri ps →
      ∃ d, s i = some d ∧ lastFor (d.directives r parse) uri = some ps := by
    rintro uri ps ⟨j, d, hd, hlast⟩
    by_cases hji : j = i
    · exact ⟨d, hji ▸ hd, hlast⟩
    · rw [h j hji d hd] at hlast
      cases hlast
  intro k e _ ps ps' hps hps'
  obtain ⟨d, hd, hlast⟩ := hone hps
  obtain ⟨d', hd', hlast'⟩ := hone hps'
  obtain rfl := Option.some.inj (hd.symm.trans hd')
  exact Option.some.inj (hlast.symm.trans hlast')

theorem PrefixesOk.step {o : Observed γ} {w : World} {m : Step} (hw : r.Suits parse w)
    (hn : m.Named r parse w o.st) (h : StoreOk r o.st.docs) (hp : PrefixesOk r parse o.st.docs)
    (hok : KeepsPrefixes r parse o w m) : PrefixesOk r parse (m.apply w parse o.st).docs := by
  have hquiet : (∀ a, m ≠ .act a) → m.parsedUri r = none →
      PrefixesOk r parse (m.apply w parse o.st).docs := by
    intro hm huri
    refine hp.relabels (Step.relabels hw hok.spelling hok.files h hn hm) hok.agree hok.stay
      hok.anew ?_
    intro j _ _ k e _ hu
    rw [huri] at hu
    cases hu
  cases m with
  | act a =>
    obtain ⟨parsed, hrel, hparsed⟩ := (carries w parse o.st.docs a).relabels hw hok.spelling hok.files h
      hp.includes hn (hok.named a rfl)
    exact hp.relabels hrel hok.agree hok.stay hok.anew hparsed
  | _ => exact hquiet (by rintro a ⟨⟩) rfl

/-- **The prefixes of the documents** are those of the includes, throughout a run. -/
theorem Observed.run_prefixesOk {seen : γ} {o : Observed γ}
    (h : Observed.Run parse note r (KeepsPrefixes r parse) seen o) :
    PrefixesOk r parse o.st.docs := by
  have hboth : StoreOk r o.st.docs ∧ PrefixesOk r parse o.st.docs := by
    refine Runs.Reached.invariant
      (I := fun o => StoreOk r o.st.docs ∧ PrefixesOk r parse o.st.docs)
      ⟨storeOk_empty r, prefixesOk_empty r parse⟩ ?_ h
    rintro o ⟨w, m⟩ ⟨hs, hp⟩ ⟨hw, hn, hok⟩
    exact ⟨hs.step hw hn, hp.step hw hn hs hok⟩
  exact hboth.2

end Runs

end TaskjugglerLsp
