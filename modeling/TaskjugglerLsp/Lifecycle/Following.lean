import TaskjugglerLsp.Lifecycle.Events
import TaskjugglerLsp.Pathutil.Canonical

/-!
# What following includes does to prefixes

An include directive hands its prefixes to the document that it names, over
whatever this document had.  `Follows` says what has become of the prefixes after
some loads and some directives of one includer: a document has those of the last
directive for it, of the includer or of a file loaded since; where there is none
it has kept its own.  Loading has it (`follows_loadFileFromDisk`), and so a text
that is parsed (`parseInto_relabels`).
-/

namespace TaskjugglerLsp

/-! ### Files that can be read -/

section Files

variable (r : Resolver) (w : World) (s : Store)

/-- There is no document with that URI. -/
def Absent (uri : CStr) : Prop := ∀ i d, s i = some d → d.uri ≠ uri

/-- No file that can be read has that URI. -/
def Unreadable (uri : CStr) : Prop :=
  ∀ path text, w.readFile path = some text → normalizeUri w.realpath (pathToUri path) ≠ uri

/-- Whether a file of the run can be read does not depend on how its path is spelled. -/
def SpellingFree : Prop :=
  ∀ path, r.uris (pathToUri path) → w.readFile path = none →
    Unreadable w (r.canon (pathToUri path))

/-- There is no document with that URI, and loading cannot add one. -/
def Blocked (uri : CStr) : Prop := Absent s uri ∧ (Unreadable w uri ∨ ∀ i, (s i).isSome)

end Files

section Files

variable {r : Resolver} {w : World} {parse : CStr → ParseOutput} {s s' : Store}

theorem Loaded.uri_ne {d : Document} (h : Loaded w parse d) {uri : CStr}
    (hu : Unreadable w uri) : d.uri ≠ uri := by
  obtain ⟨path, text, hr, hrel⟩ := h
  rw [hrel.uri_eq]
  exact hu path text hr

theorem Blocked.reloads {uri : CStr} (h : Blocked w s uri) (hl : Reloads w parse s s') :
    Blocked w s' uri := by
  obtain ⟨habs, hout⟩ := h
  constructor
  · intro i d' hd'
    cases hs : s i with
    | none =>
      obtain ⟨d, hload, hm⟩ := hl.adds hs hd'
      rcases hout with hout | hfull
      · rw [hm.uri_eq]
        exact hload.uri_ne hout
      · have := hfull i
        rw [hs] at this
        cases this
    | some d =>
      obtain ⟨e, he, hm⟩ := hl.keeps hs
      rw [hd', Option.some.injEq] at he
      rw [he, hm.uri_eq]
      exact habs i d hs
  · refine hout.imp id fun hfull i => ?_
    obtain ⟨d, hd⟩ := Option.isSome_iff_exists.mp (hfull i)
    obtain ⟨d', hd', -⟩ := hl.keeps hd
    rw [hd']
    rfl

/-- After its load a file is in the store, unless it cannot be read or there is no room. -/
theorem loadFileFromDisk_found (parse : CStr → ParseOutput) (h : StoreOk r s)
    (hw : r.Governs w.realpath) {path : CStr} (hn : r.uris (pathToUri path)) :
    (∃ i d, loadFileFromDisk w parse path s i = some d ∧ d.uri = r.canon (pathToUri path)) ∨
      (Absent (loadFileFromDisk w parse path s) (r.canon (pathToUri path)) ∧
        (w.readFile path = none ∨ ∀ i, (loadFileFromDisk w parse path s i).isSome)) := by
  rw [loadFileFromDisk_eq]
  cases hf : docFind w.realpath s (pathToUri path) with
  | some i =>
    rw [if_pos (by rfl)]
    obtain ⟨d, hd, hu⟩ := (h.docFind_iff hw hn).mp hf
    exact Or.inl ⟨i, d, hd, hu⟩
  | none =>
    rw [if_neg (by simp)]
    have habs : Absent s (r.canon (pathToUri path)) := (h.docFind_eq_none hw hn).mp hf
    cases hr : w.readFile path with
    | none => exact Or.inr ⟨habs, Or.inl rfl⟩
    | some text =>
      cases hal : docAlloc w.realpath s (pathToUri path) with
      | none => exact Or.inr ⟨habs, Or.inr (docAlloc_none hal)⟩
      | some p =>
        obtain ⟨i, s1⟩ := p
        obtain ⟨hi, rfl⟩ := docAlloc_some hal
        left
        simp only [installDiskText, modify_eq_put Store.put_self, put_put]
        obtain ⟨d, hd, hrel⟩ := (installs_parseInto (w := w) (s := s) i
          { freshDocument (normalizeUri w.realpath (pathToUri path)) with
            text := some text, diskOnly := true } text (some path)).self
        refine ⟨i, d, hd, ?_⟩
        rw [hrel.uri_eq]
        exact hw (pathToUri path) hn

theorem found_or_blocked (parse : CStr → ParseOutput) (h : StoreOk r s) (hw : r.Governs w.realpath)
    (hfree : SpellingFree r w) {path : CStr} (hn : r.uris (pathToUri path)) :
    (∃ i d, loadFileFromDisk w parse path s i = some d ∧ d.uri = r.canon (pathToUri path)) ∨
      Blocked w (loadFileFromDisk w parse path s) (r.canon (pathToUri path)) := by
  refine (loadFileFromDisk_found parse h hw hn).imp id fun h => ⟨h.1, h.2.imp (fun hr => ?_) id⟩
  exact hfree path hn hr

/-- Where none of the URIs that cannot be read is resolved to a file, spellings do not matter. -/
theorem spellingFree_fileSystem {uris : List CStr} {files : List (String × String)}
    (h : (uris.all fun uri => ((fileSystem files).readFile (percentDecodeBytes (uri.drop 7))).isSome ||
      files.all fun file => cstr file.1 != normalizeUri (fun _ => none) uri) = true) :
    SpellingFree (lexicalResolver uris) (fileSystem files) := by
  intro path hn hnone path' text hread heq
  have hpath : percentDecodeBytes ((pathToUri path).drop 7) = path :=
    percentDecodeBytes_percentEncodePath path
  have huri := List.all_eq_true.mp h _ hn
  rw [hpath, hnone, Option.isSome_none, Bool.false_or, List.all_eq_true] at huri
  obtain ⟨file, hfile, -, hcanon⟩ := exists_file hread
  exact bne_iff_ne.mp (huri file hfile) (hcanon.symm.trans heq)

end Files

/-! ### Directives -/

section Directives

variable (r : Resolver) (parse : CStr → ParseOutput)

/-- The URI that a text under some path includes, as it is spelled, and the prefixes for it. -/
def spelledDirective (path : CStr) (inc : IncludeRef) : CStr × PrefixSet :=
  (pathToUri (resolveIncludePath path inc.filename), inc.prefixes)

/-- All of them. -/
def spelledDirectives (path text : CStr) : List (CStr × PrefixSet) :=
  (parse text).includes.map (spelledDirective path)

/-- The same with the URIs resolved. -/
def resolved (ds : List (CStr × PrefixSet)) : List (CStr × PrefixSet) :=
  ds.map fun d => (r.canon d.1, d.2)

/-- The include directives of a document. -/
def Document.directives (d : Document) : List (CStr × PrefixSet) :=
  match uriToPath d.uri, d.text with
  | some path, some text => resolved r (spelledDirectives parse path text)
  | _, _ => []

/-- The prefixes of the last directive for a URI. -/
def lastFor (ds : List (CStr × PrefixSet)) (uri : CStr) : Option PrefixSet :=
  (ds.reverse.find? fun d => decide (d.1 = uri)).map (·.2)

/-- The recorded includes are those of the text. -/
def IncludesOk (d : Document) : Prop := d.includedUris.map r.canon = (d.directives r parse).map (·.1)

/-- The includes of a text resolve alike from a path and from its resolved form. -/
def Plain (path text : CStr) : Prop :=
  ∀ p, uriToPath (r.canon (pathToUri path)) = some p →
    resolved r (spelledDirectives parse path text) = resolved r (spelledDirectives parse p text)

/-- Those of every file of the run do. -/
def FilesPlain (w : World) : Prop :=
  ∀ path text, r.uris (pathToUri path) → w.readFile path = some text → Plain r parse path text

end Directives

section Directives

variable {r : Resolver} {parse : CStr → ParseOutput} {w : World}

theorem lastFor_concat (ds : List (CStr × PrefixSet)) (d : CStr × PrefixSet) (uri : CStr) :
    lastFor (ds ++ [d]) uri = if d.1 = uri then some d.2 else lastFor ds uri := by
  rw [lastFor, List.reverse_concat, List.find?_cons]
  by_cases h : d.1 = uri
  · rw [if_pos h, decide_eq_true h]
    rfl
  · rw [if_neg h, decide_eq_false h]
    rfl

theorem resolved_concat (ds : List (CStr × PrefixSet)) (d : CStr × PrefixSet) :
    resolved r (ds ++ [d]) = resolved r ds ++ [(r.canon d.1, d.2)] := by
  rw [resolved, List.map_append]
  rfl

theorem Document.directives_congr {d e : Document} (hu : d.uri = e.uri) (ht : d.text = e.text) :
    d.directives r parse = e.directives r parse := by
  rw [directives, directives, hu, ht]

theorem exists_uriToPath_pathToUri (path : CStr) : ∃ p, uriToPath (pathToUri path) = some p := by
  refine ⟨percentDecode ((pathToUri path).drop 7), if_pos ?_⟩
  rw [pathToUri, List.take_append_of_le_length (by decide)]
  decide

/-- A URI with a path is resolved to one with a path, and a URI without one to itself. -/
theorem Resolver.uriToPath_canon (hw : r.Governs w.realpath) {uri : CStr} (hn : r.uris uri)
    (hpath : ∀ path ∈ uriToPath uri, r.uris (pathToUri path)) :
    (uriToPath uri = none ∧ r.canon uri = uri) ∨
      ∃ path p, uriToPath uri = some path ∧ uriToPath (r.canon uri) = some p ∧
        r.canon (pathToUri path) = r.canon uri := by
  rw [← hw uri hn, normalizeUri]
  cases hp : uriToPath uri with
  | none => exact Or.inl ⟨rfl, rfl⟩
  | some path =>
    obtain ⟨p, hp'⟩ := exists_uriToPath_pathToUri ((w.realpath path).getD (lexicalNormalizePath path))
    refine Or.inr ⟨path, p, rfl, hp', ?_⟩
    rw [← hw _ (hpath path hp), normalizeUri, uriToPath_pathToUri (zero_notMem_uriToPath hp)]

/-- The directives of a document whose text stands under some plain path. -/
theorem Document.directives_eq (hw : r.Governs w.realpath) {d : Document} {path text : CStr}
    (hn : r.uris (pathToUri path)) (hu : d.uri = r.canon (pathToUri path)) (ht : d.text = some text)
    (hp : Plain r parse path text) :
    d.directives r parse = resolved r (spelledDirectives parse path text) := by
  obtain ⟨p, hcanon⟩ : ∃ p, uriToPath (r.canon (pathToUri path)) = some p := by
    rw [← hw _ hn, normalizeUri]
    cases uriToPath (pathToUri path) with
    | none => exact exists_uriToPath_pathToUri path
    | some q => exact exists_uriToPath_pathToUri _
  rw [hp p hcanon, directives, hu, hcanon, ht]

end Directives

/-! ### What prefixes become -/

section Follows

variable (r : Resolver) (w : World) (parse : CStr → ParseOutput)

/-- Prefixes are handed on, or there are none to hand on and they are the old ones. -/
def Labelled (handed : PrefixSet → Prop) (old new : PrefixSet) : Prop :=
  handed new ∨ ((∀ ps, ¬ handed ps) ∧ new = old)

/-- The prefixes of a slot; those of a free one are empty. -/
def prefixesAt (s : Store) (i : Slot) : PrefixSet := (s i).elim noPrefixes (·.prefixes)

/-- A document in the slots `parsed` has a last directive for the URI, with those prefixes. -/
def HandedBy (parsed : Slot → Prop) (s : Store) (uri : CStr) (ps : PrefixSet) : Prop :=
  ∃ i d, parsed i ∧ s i = some d ∧ lastFor (d.directives r parse) uri = some ps

/-- Some directives of one includer end with those prefixes for the URI, or a file loaded since
does. -/
def Handed (ds : List (CStr × PrefixSet)) (s s' : Store) (uri : CStr) (ps : PrefixSet) : Prop :=
  lastFor (resolved r ds) uri = some ps ∨ HandedBy r parse (fun i => s i = none) s' uri ps

/-- From `s`, some loads and the directives `ds` of the document in slot `o` lead to `s'`. -/
structure Follows (o : Option Slot) (ds : List (CStr × PrefixSet)) (s s' : Store) : Prop where
  reloads : Reloads w parse s s'
  ok : StoreOk r s'
  keeps : ∀ {i d}, s i = some d → ∃ b ps, s' i = some { d with
    isCcRoot := d.isCcRoot || b
    prefixes := ps
    includedUris := if o = some i then d.includedUris ++ ds.map (·.1) else d.includedUris }
  adds : ∀ {i d'}, s i = none → s' i = some d' → IncludesOk r parse d'
  labelled : ∀ {i d'}, s' i = some d' →
    Labelled (Handed r parse ds s s' d'.uri) (prefixesAt s i) d'.prefixes
  reached : ∀ {uri ps}, Handed r parse ds s s' uri ps →
    (∃ i d, s' i = some d ∧ d.uri = uri) ∨ Blocked w s' uri

variable {r w parse} {o : Option Slot} {ds : List (CStr × PrefixSet)} {s s' s'' : Store}

theorem Follows.loaded (h : Follows r w parse none [] s s') {i : Slot} {d : Document}
    (hd : s i = some d) :
    ∃ b ps, s' i = some { d with isCcRoot := d.isCcRoot || b, prefixes := ps } := by
  obtain ⟨b, ps, hd'⟩ := h.keeps hd
  rw [if_neg (by rintro ⟨⟩)] at hd'
  exact ⟨b, ps, hd'⟩

theorem Labelled.congr {handed handed' : PrefixSet → Prop} {old new : PrefixSet}
    (h : Labelled handed old new) (hh : ∀ ps, handed ps ↔ handed' ps) : Labelled handed' old new := by
  rcases h with h | ⟨hnone, h⟩
  · exact Or.inl ((hh new).mp h)
  · exact Or.inr ⟨fun ps hps => hnone ps ((hh ps).mpr hps), h⟩

theorem not_handed_refl (s : Store) (uri : CStr) (ps : PrefixSet) : ¬ Handed r parse [] s s uri ps := by
  rintro (h | ⟨i, d, hnone, hd, -⟩)
  · cases h
  · rw [hd] at hnone
    cases hnone

theorem Follows.refl (h : StoreOk r s) : Follows r w parse o [] s s := by
  constructor
  · exact .refl s
  · exact h
  · intro i d hd
    refine ⟨false, d.prefixes, ?_⟩
    rw [hd, Bool.or_false, List.map_nil, List.append_nil, ite_self]
  · intro i d' hd hd'
    rw [hd] at hd'
    cases hd'
  · intro i d' hd'
    refine Or.inr ⟨not_handed_refl s _, ?_⟩
    rw [prefixesAt, hd']
    rfl
  · intro uri ps h
    exact absurd h (not_handed_refl s uri ps)

theorem handed_trans (h : Follows r w parse o ds s s') (h' : Follows r w parse none [] s' s'')
    (uri : CStr) (ps : PrefixSet) : Handed r parse ds s s'' uri ps ↔
      Handed r parse ds s s' uri ps ∨ Handed r parse [] s' s'' uri ps := by
  constructor
  · rintro (hds | ⟨i, d'', hi, hd'', hlast⟩)
    · exact Or.inl (Or.inl hds)
    · cases hs : s' i with
      | none => exact Or.inr (Or.inr ⟨i, d'', hs, hd'', hlast⟩)
      | some d' =>
        obtain ⟨b, ps', hkeep⟩ := h'.loaded hs
        rw [hd'', Option.some.injEq] at hkeep
        refine Or.inl (Or.inr ⟨i, d', hi, hs, ?_⟩)
        rw [← hlast, hkeep]
        rfl
  · rintro ((hds | ⟨i, d', hi, hd', hlast⟩) | (hnil | ⟨i, d'', hi, hd'', hlast⟩))
    · exact Or.inl hds
    · obtain ⟨b, ps', hkeep⟩ := h'.loaded hd'
      exact Or.inr ⟨i, _, hi, hkeep, hlast⟩
    · cases hnil
    · refine Or.inr ⟨i, d'', ?_, hd'', hlast⟩
      by_contra hs
      obtain ⟨d, hs⟩ := Option.ne_none_iff_exists'.mp hs
      obtain ⟨b, ps', hkeep⟩ := h.keeps hs
      rw [hi] at hkeep
      cases hkeep

/-- **More loads.** -/
theorem Follows.trans (h : Follows r w parse o ds s s')
    (h' : Follows r w parse none [] s' s'') : Follows r w parse o ds s s'' := by
  constructor
  · exact h.reloads.trans h'.reloads
  · exact h'.ok
  · intro i d hd
    obtain ⟨b, ps, hd'⟩ := h.keeps hd
    obtain ⟨b', ps', hd''⟩ := h'.loaded hd'
    refine ⟨b || b', ps', ?_⟩
    rw [hd'', Bool.or_assoc]
  · intro i d'' hd hd''
    cases hs : s' i with
    | none => exact h'.adds hs hd''
    | some d' =>
      obtain ⟨b, ps, hkeep⟩ := h'.loaded hs
      rw [hd'', Option.some.injEq] at hkeep
      have hok := h.adds hd hs
      rw [hkeep]
      exact hok
  · intro i d'' hd''
    have hiff := handed_trans h h' d''.uri
    rcases h'.labelled hd'' with hnew | ⟨hnone, hold⟩
    · exact Or.inl ((hiff _).mpr (Or.inr hnew))
    · cases hs : s' i with
      | some d' =>
        obtain ⟨b, ps, hkeep⟩ := h'.loaded hs
        rw [hd'', Option.some.injEq] at hkeep
        have huri : d''.uri = d'.uri := by rw [hkeep]
        rw [prefixesAt, hs] at hold
        rw [hold]
        refine (h.labelled hs).congr fun ps => ?_
        rw [← huri, hiff]
        exact ⟨Or.inl, fun hps => hps.resolve_right (hnone ps)⟩
      | none =>
        -- the document is new, and nothing can have been handed on to it before
        have hnot : ∀ ps, ¬ Handed r parse ds s s' d''.uri ps := by
          intro ps hps
          rcases h.reached hps with ⟨j, e, he, hu⟩ | hblock
          · obtain ⟨b, ps', hkeep⟩ := h'.loaded he
            obtain rfl := h'.ok.unique j i _ d'' hkeep hd'' hu
            rw [hs] at he
            cases he
          · exact (hblock.reloads h'.reloads).1 i d'' hd'' rfl
        have hfree : s i = none := by
          cases hi : s i with
          | none => rfl
          | some d =>
            obtain ⟨b, ps', hkeep⟩ := h.keeps hi
            rw [hs] at hkeep
            cases hkeep
        refine Or.inr ⟨fun ps hps => ?_, ?_⟩
        · rcases (hiff ps).mp hps with hps | hps
          · exact hnot ps hps
          · exact hnone ps hps
        · rw [hold, prefixesAt, prefixesAt, hs, hfree]
  · intro uri ps hps
    rcases (handed_trans h h' uri ps).mp hps with hps | hps
    · rcases h.reached hps with ⟨i, d, hd, hu⟩ | hblock
      · obtain ⟨b, ps', hkeep⟩ := h'.loaded hd
        exact Or.inl ⟨i, _, hkeep, hu⟩
      · exact Or.inr (hblock.reloads h'.reloads)
    · exact h'.reached hps

/-- **One directive**, whose file has been loaded if it could be. -/
theorem Follows.directive (hw : r.Governs w.realpath) {includer : Slot}
    (h : Follows r w parse (some includer) ds s s') (hinc : (s includer).isSome) {uri : CStr}
    (hn : r.uris uri) (ps : PrefixSet)
    (hreach : (∃ i d, s' i = some d ∧ d.uri = r.canon uri) ∨ Blocked w s' (r.canon uri)) :
    Follows r w parse (some includer) (ds ++ [(uri, ps)]) s
      ((s'.modifyFound (docFind w.realpath s' uri) fun d => { d with prefixes := ps }).modifyFound
        (some includer) fun d => { d with includedUris := d.includedUris ++ [uri] }) := by
  generalize hf : docFind w.realpath s' uri = k
  have hfound : ∀ {i d}, s' i = some d → (k = some i ↔ d.uri = r.canon uri) := by
    intro i d hd
    rw [← hf, h.ok.docFind_iff hw hn]
    constructor
    · rintro ⟨e, he, hu⟩
      rw [hd, Option.some.injEq] at he
      rw [he, hu]
    · exact fun hu => ⟨d, hd, hu⟩
  have hok : StoreOk r ((s'.modifyFound k fun d => { d with prefixes := ps }).modifyFound
      (some includer) fun d => { d with includedUris := d.includedUris ++ [uri] }) := by
    refine StoreOk.modifyFound (h.ok.modifyFound k ?_ ?_ ?_) (some includer) ?_ ?_ ?_
    · exact fun _ => rfl
    · exact fun _ => rfl
    · exact fun _ _ => Or.inl
    · exact fun _ => rfl
    · exact fun _ => rfl
    · intro d u hmem
      rcases List.mem_append.mp hmem with hmem | hmem
      · exact .inl hmem
      · exact .inr (List.mem_singleton.mp hmem ▸ hn)
  have hslot := s'.recorded_apply k (some includer) ps uri
  generalize hs'' : ((s'.modifyFound k fun d => { d with prefixes := ps }).modifyFound
      (some includer) fun d => { d with includedUris := d.includedUris ++ [uri] }) = s'' at hslot hok ⊢
  have hget : ∀ {i d'}, s'' i = some d' →
      ∃ d, s' i = some d ∧ d.recorded k (some includer) i ps uri = d' :=
    fun hd' => Option.map_eq_some_iff.mp ((hslot _).symm.trans hd')
  have hput : ∀ {i d}, s' i = some d → s'' i = some (d.recorded k (some includer) i ps uri) :=
    fun hd => (hslot _).trans (congrArg _ hd)
  have hloads : Loads w parse s' s'' := by
    rw [← hs'']
    exact (loads_modifyFound s' k fun d => ⟨ps, d.includedUris, rfl⟩).trans
      (loads_modifyFound _ _ fun d => ⟨d.prefixes, _, rfl⟩)
  -- what is handed on for a URI other than that of the directive is what was
  have hiff : ∀ u, u ≠ r.canon uri → ∀ ps', Handed r parse ds s s' u ps' ↔
      Handed r parse (ds ++ [(uri, ps)]) s s'' u ps' := by
    intro u hu ps'
    rw [Handed, Handed, resolved_concat, lastFor_concat, if_neg (Ne.symm hu)]
    refine or_congr Iff.rfl ⟨?_, ?_⟩
    · rintro ⟨i, d, hi, hd, hlast⟩
      exact ⟨i, _, hi, hput hd, hlast⟩
    · rintro ⟨i, d', hi, hd', hlast⟩
      obtain ⟨d, hd, rfl⟩ := hget hd'
      exact ⟨i, d, hi, hd, hlast⟩
  constructor
  · exact h.reloads.trans hloads.reloads
  · exact hok
  · intro i d hd
    obtain ⟨b, ps', hd'⟩ := h.keeps hd
    refine ⟨b, if k = some i then ps else ps', ?_⟩
    rw [hput hd', Document.recorded]
    by_cases hi : some includer = some i
    · simp only [if_pos hi, List.map_append, List.map_cons, List.map_nil, List.append_assoc]
    · simp only [if_neg hi]
  · intro i d'' hd hd''
    obtain ⟨d', hd', rfl⟩ := hget hd''
    have hne : some includer ≠ some i := by
      intro he
      rw [Option.some.inj he, hd] at hinc
      cases hinc
    have hincludes := h.adds hd hd'
    rw [Document.recorded, if_neg hne]
    exact hincludes
  · intro i d'' hd''
    obtain ⟨d', hd', rfl⟩ := hget hd''
    rw [Document.recorded]
    by_cases hu : d'.uri = r.canon uri
    · refine Or.inl (Or.inl ?_)
      rw [resolved_concat, lastFor_concat, if_pos hu.symm, if_pos ((hfound hd').mpr hu)]
    · rw [if_neg fun hk => hu ((hfound hd').mp hk)]
      exact (h.labelled hd').congr (hiff _ hu)
  · intro u ps' hps
    have hstay : (∃ i d, s' i = some d ∧ d.uri = u) ∨ Blocked w s' u := by
      by_cases hu : u = r.canon uri
      · rw [hu]
        exact hreach
      · exact h.reached ((hiff u hu ps').mpr hps)
    rcases hstay with ⟨i, d, hd, hu⟩ | hblock
    · exact Or.inl ⟨i, _, hput hd, hu⟩
    · exact Or.inr (hblock.reloads hloads.reloads)

/-- **Flagging a root** hands nothing on. -/
theorem Follows.mark (h : StoreOk r s) (k : Option Slot) :
    Follows r w parse none [] s (s.modifyFound k fun d => { d with isCcRoot := true }) := by
  have hget : ∀ {i d'}, s.modifyFound k (fun d => { d with isCcRoot := true }) i = some d' →
      ∃ d, s i = some d ∧ (if k = some i then { d with isCcRoot := true } else d) = d' :=
    fun hd' => Option.map_eq_some_iff.mp ((s.modifyFound_apply k _ _).symm.trans hd')
  have hnot : ∀ u ps,
      ¬ Handed r parse [] s (s.modifyFound k fun d => { d with isCcRoot := true }) u ps := by
    rintro u ps (hnil | ⟨i, d', hi, hd', -⟩)
    · cases hnil
    · obtain ⟨d, hd, -⟩ := hget hd'
      rw [hi] at hd
      cases hd
  constructor
  · exact reloads_mark s k
  · exact h.modifyFound k (fun _ => rfl) (fun _ => rfl) fun _ _ => Or.inl
  · intro i d hd
    refine ⟨decide (k = some i), d.prefixes, ?_⟩
    rw [Store.modifyFound_apply, hd, Option.map_some]
    by_cases hk : k = some i
    · simp only [hk, if_true, decide_true, Bool.or_true, reduceCtorEq, if_false]
    · simp only [hk, decide_false, Bool.or_false, reduceCtorEq, if_false]
  · intro i d' hd hd'
    obtain ⟨d, hd', -⟩ := hget hd'
    rw [hd] at hd'
    cases hd'
  · intro i d' hd'
    obtain ⟨d, hd, rfl⟩ := hget hd'
    refine Or.inr ⟨hnot _, ?_⟩
    rw [prefixesAt, hd]
    by_cases hk : k = some i
    · rw [if_pos hk]
      rfl
    · rw [if_neg hk]
      rfl
  · intro u ps hps
    exact absurd hps (hnot u ps)

end Follows

/-! ### Parsing a text -/

section Parsing

variable {r : Resolver} {w : World} {parse : CStr → ParseOutput} {s s' s2 : Store} {i : Slot}
  {d : Document} {path text : CStr} {n : ℕ}

theorem Follows.freeCount_le {o : Option Slot} {ds : List (CStr × PrefixSet)}
    (h : Follows r w parse o ds s s') : s'.freeCount ≤ s.freeCount := by
  refine List.countP_mono_left fun i _ hi => ?_
  cases hs : s i with
  | none => rfl
  | some d =>
    obtain ⟨b, ps, hd'⟩ := h.keeps hs
    rw [hd'] at hi
    cases hi

/-- **Following includes**, where files are loaded into stores with at most `n` free slots. -/
theorem follows_foldl (hw : r.Governs w.realpath) (hfree : SpellingFree r w)
    (hload : ∀ path s, r.uris (pathToUri path) → StoreOk r s → s.freeCount ≤ n →
      Follows r w parse none [] s (loadFileFromDisk w parse path s))
    (hi : (s i).isSome) (hn : s.freeCount ≤ n) (includes done : List IncludeRef)
    (hc : ∀ inc ∈ includes, r.uris (pathToUri (resolveIncludePath path inc.filename)))
    (h : Follows r w parse (some i) (done.map (spelledDirective path)) s s') :
    Follows r w parse (some i) ((done ++ includes).map (spelledDirective path)) s
      (includes.foldl (followInclude w (loadFileFromDisk w parse) path (some i)) s') := by
  induction includes generalizing done s' with
  | nil => rwa [List.append_nil]
  | cons inc includes ih =>
    have hinc := hc inc List.mem_cons_self
    have hstep := hload _ s' hinc h.ok (h.freeCount_le.trans hn)
    have hnext := (h.trans hstep).directive hw hi hinc inc.prefixes
      (found_or_blocked parse h.ok hw hfree hinc)
    have hdone := ih (done ++ [inc]) (fun inc' h' => hc inc' (List.mem_cons_of_mem _ h'))
      (by rw [List.map_append]; exact hnext)
    rw [List.append_assoc, List.singleton_append] at hdone
    rw [List.foldl_cons]
    exact hdone

/-- Parsing a text follows its includes, and installs the parse. -/
theorem exists_follows (hw : r.Governs w.realpath) (hfree : SpellingFree r w)
    (hload : ∀ path s, r.uris (pathToUri path) → StoreOk r s → s.freeCount ≤ n →
      Follows r w parse none [] s (loadFileFromDisk w parse path s))
    (hok : StoreOk r s) (hd : s i = some d) (hpath : r.uris (pathToUri path))
    (hu : d.uri = r.canon (pathToUri path)) (hn : s.freeCount ≤ n)
    (hc : r.CoversText parse path text) : ∃ s2,
      Follows r w parse (some i) (spelledDirectives parse path text)
        (s.modify i fun d => { d with includedUris := [] }) s2 ∧
      parseInto w parse (loadFileFromDisk w parse) s i text (some path)
        = s2.modify i fun d => d.installParse (parse text) := by
  have hf := (hok.docFind_iff hw hpath).mpr ⟨d, hd, hu⟩
  have hok0 : StoreOk r (s.modify i fun d => { d with includedUris := [] }) :=
    hok.modify i (fun _ => rfl) (fun _ _ => Or.inl) fun _ _ => nofun
  refine ⟨_, ?_, rfl⟩
  simp only [followIncludes, hf, Store.modifyFound]
  refine follows_foldl hw hfree hload ?_ ?_ (parse text).includes [] hc (.refl hok0)
  · rw [Store.modify_self, hd]
    rfl
  · rwa [freeCount_modify]

/-- What parsing does to the documents: those in the slots `parsed` are new or have a new parse. -/
structure Relabels (r : Resolver) (parse : CStr → ParseOutput) (parsed : Slot → Prop)
    (s s' : Store) : Prop where
  same : ∀ {i d'}, s' i = some d' → ¬ parsed i →
    ∃ d, s i = some d ∧ d'.uri = d.uri ∧ d'.text = d.text ∧ d'.includedUris = d.includedUris
  uris : ∀ {i d d'}, s i = some d → s' i = some d' → d'.uri = d.uri
  fresh : ∀ {i d'}, s i = none → s' i = some d' → Absent s d'.uri
  includes : ∀ {i d'}, s' i = some d' → parsed i → IncludesOk r parse d'
  labelled : ∀ {i d'}, s' i = some d' →
    Labelled (HandedBy r parse parsed s' d'.uri) (prefixesAt s i) d'.prefixes

theorem modify_installParse_some {d' : Document} {j : Slot}
    (h : s2.modify i (fun d => d.installParse (parse text)) j = some d') :
    ∃ d, s2 j = some d ∧ d'.uri = d.uri ∧ d'.text = d.text ∧ d'.prefixes = d.prefixes ∧
      d'.includedUris = d.includedUris := by
  by_cases hj : j = i
  · subst hj
    rw [Store.modify_self, Option.map_eq_some_iff] at h
    obtain ⟨d, hd, rfl⟩ := h
    exact ⟨d, hd, rfl, rfl, rfl, rfl⟩
  · rw [Store.modify_of_ne hj] at h
    exact ⟨d', h, rfl, rfl, rfl, rfl⟩

theorem modify_installParse_of_some (i : Slot) (po : ParseOutput) {j : Slot} {e : Document}
    (h : s2 j = some e) : ∃ d', s2.modify i (fun d => d.installParse po) j = some d' ∧
      d'.uri = e.uri ∧ d'.text = e.text := by
  by_cases hj : j = i
  · subst hj
    exact ⟨e.installParse po, by rw [Store.modify_self, h]; rfl, rfl, rfl⟩
  · exact ⟨e, by rw [Store.modify_of_ne hj, h], rfl, rfl⟩

section Installed

variable (hd : s i = some d)
  (hds : d.directives r parse = resolved r (spelledDirectives parse path text))
  (hf : Follows r w parse (some i) (spelledDirectives parse path text)
    (s.modify i fun d => { d with includedUris := [] }) s2)

include hd hds hf

theorem handed_parsed_iff (uri : CStr) (ps : PrefixSet) :
    Handed r parse (spelledDirectives parse path text)
      (s.modify i fun d => { d with includedUris := [] }) s2 uri ps ↔
    HandedBy r parse (fun j => j = i ∨ s j = none)
      (s2.modify i fun d => d.installParse (parse text)) uri ps := by
  obtain ⟨b, ps', hd2⟩ := hf.keeps (i := i) (by rw [Store.modify_self, hd]; rfl)
  constructor
  · rintro (hlast | ⟨j, e, hj, he, hlast⟩)
    · obtain ⟨d', hd', hu, ht⟩ := modify_installParse_of_some i (parse text) hd2
      refine ⟨i, d', Or.inl rfl, hd', ?_⟩
      rw [Document.directives_congr (e := d) hu ht, hds]
      exact hlast
    · have hji : j ≠ i := by
        rintro rfl
        rw [Store.modify_self, hd] at hj
        cases hj
      rw [Store.modify_of_ne hji] at hj
      exact ⟨j, e, Or.inr hj, by rw [Store.modify_of_ne hji, he], hlast⟩
  · rintro ⟨j, d', hj, hd', hlast⟩
    obtain ⟨e, he, hu, ht, -⟩ := modify_installParse_some hd'
    rw [Document.directives_congr hu ht] at hlast
    by_cases hji : j = i
    · subst hji
      rw [hd2, Option.some.injEq] at he
      left
      rw [← hds, ← hlast, ← he]
      rfl
    · exact Or.inr ⟨j, e, (Store.modify_of_ne hji).trans (hj.resolve_left hji), he, hlast⟩

/-- **A text that is parsed** hands its prefixes on. -/
theorem relabels_installParse : Relabels r parse (fun j => j = i ∨ s j = none) s
    (s2.modify i fun d => d.installParse (parse text)) := by
  have hkeep : ∀ {j e}, s j = some e → ∃ e2, s2 j = some e2 ∧ e2.uri = e.uri := by
    intro j e he
    obtain ⟨e0, he0, hu0⟩ : ∃ e0, s.modify i (fun d => { d with includedUris := [] }) j = some e0 ∧
        e0.uri = e.uri := by
      by_cases hji : j = i
      · subst hji
        exact ⟨{ e with includedUris := [] }, by rw [Store.modify_self, he]; rfl, rfl⟩
      · exact ⟨e, by rw [Store.modify_of_ne hji, he], rfl⟩
    obtain ⟨b, ps, he2⟩ := hf.keeps he0
    exact ⟨_, he2, hu0⟩
  constructor
  · intro j d' hd' hj
    obtain ⟨hji, hs⟩ := not_or.mp hj
    obtain ⟨e, he⟩ := Option.ne_none_iff_exists'.mp hs
    obtain ⟨b, ps', he2⟩ := hf.keeps (i := j) (by rw [Store.modify_of_ne hji, he])
    rw [Store.modify_of_ne hji, he2, Option.some.injEq,
      if_neg fun h => hji (Option.some.inj h).symm] at hd'
    exact ⟨e, he, by rw [← hd'], by rw [← hd'], by rw [← hd']⟩
  · intro j e d' he hd'
    obtain ⟨e2, he2, hu, -⟩ := modify_installParse_some hd'
    obtain ⟨e3, he3, hu3⟩ := hkeep he
    rw [he2, Option.some.injEq] at he3
    rw [hu, he3, hu3]
  · intro j d' hj hd' k e he heq
    obtain ⟨e2, he2, hu, -⟩ := modify_installParse_some hd'
    obtain ⟨e3, he3, hu3⟩ := hkeep he
    have hjk := hf.ok.unique k j e3 e2 he3 he2 (by rw [hu3, heq, hu])
    rw [← hjk, he] at hj
    cases hj
  · intro j d' hd' hj
    obtain ⟨e, he, hu, ht, -, hinc⟩ := modify_installParse_some hd'
    rw [IncludesOk, hinc, Document.directives_congr hu ht]
    by_cases hji : j = i
    · subst hji
      obtain ⟨b, ps', hd2⟩ := hf.keeps (i := j) (by rw [Store.modify_self, hd]; rfl)
      rw [hd2, Option.some.injEq] at he
      have hlist : e.includedUris = (spelledDirectives parse path text).map (·.1) := by
        rw [← he, if_pos rfl]
        rfl
      have hdir : e.directives r parse = d.directives r parse :=
        Document.directives_congr (by rw [← he]) (by rw [← he])
      rw [hlist, hdir, hds, resolved, List.map_map, List.map_map]
      rfl
    · refine hf.adds ?_ he
      rw [Store.modify_of_ne hji]
      exact hj.resolve_left hji
  · intro j d' hd'
    obtain ⟨e, he, hu, -, hps, -⟩ := modify_installParse_some hd'
    have hold : prefixesAt (s.modify i fun d => { d with includedUris := [] }) j = prefixesAt s j := by
      by_cases hji : j = i
      · subst hji
        rw [prefixesAt, prefixesAt, Store.modify_self, hd]
        rfl
      · rw [prefixesAt, prefixesAt, Store.modify_of_ne hji]
    rw [hps, ← hold, hu]
    exact (hf.labelled he).congr (handed_parsed_iff hd hds hf _)

end Installed

/-- The document is blocked just as well after a change that keeps its slots and URIs. -/
theorem Blocked.installParse {uri : CStr} (h : Blocked w s2 uri) :
    Blocked w (s2.modify i fun d => d.installParse (parse text)) uri := by
  refine ⟨fun j d' hd' => ?_, h.2.imp id fun hfull j => ?_⟩
  · obtain ⟨d, hd, hu, -⟩ := modify_installParse_some hd'
    rw [hu]
    exact h.1 j d hd
  · obtain ⟨d, hd⟩ := Option.isSome_iff_exists.mp (hfull j)
    obtain ⟨d', hd', -⟩ := modify_installParse_of_some i (parse text) hd
    rw [hd']
    rfl

theorem follows_installDiskText (hw : r.Suits parse w) (hfree : SpellingFree r w)
    (hplain : FilesPlain r parse w)
    (hload : ∀ path s, r.uris (pathToUri path) → StoreOk r s → s.freeCount < n →
      Follows r w parse none [] s (loadFileFromDisk w parse path s))
    (h : StoreOk r s) (hn : s.freeCount = n) (hpath : r.uris (pathToUri path))
    (hf : docFind w.realpath s (pathToUri path) = none) (hr : w.readFile path = some text)
    (hi : s i = none) :
    Follows r w parse none [] s (installDiskText w parse (loadFileFromDisk w parse)
      (s.put i (freshDocument (normalizeUri w.realpath (pathToUri path)))) i text path) := by
  have hload' : ∀ path s, Loads w parse s (loadFileFromDisk w parse path s) := loads_loadFileFromDisk
  have hloads := loads_install hload' hi hr hf
  rw [installDiskText, modify_eq_put Store.put_self, put_put] at hloads ⊢
  generalize hd : ({ freshDocument (normalizeUri w.realpath (pathToUri path)) with
    text := some text, diskOnly := true } : Document) = d at hloads ⊢
  have hu : d.uri = r.canon (pathToUri path) := by
    rw [← hd]
    exact hw.governs (pathToUri path) hpath
  have ht : d.text = some text := by rw [← hd]
  have hok : StoreOk r (s.put i d) := by
    refine h.put (by rw [hu, r.idem]) ?_ ?_ ?_
    · rw [← hd]
      rintro snap ⟨⟩
    · rw [← hd]
      rintro uri ⟨⟩
    · intro j e _ he
      rw [hu]
      exact (h.docFind_eq_none hw.governs hpath).mp hf j e he
  have hlt : (s.put i d).freeCount < n := hn ▸ freeCount_put_lt hi d
  have hfollows : ∀ path s, r.uris (pathToUri path) → StoreOk r s → s.freeCount ≤ n - 1 →
      Follows r w parse none [] s (loadFileFromDisk w parse path s) :=
    fun path s hp hs hle => hload path s hp hs (by omega)
  obtain ⟨s2, hfol, heq⟩ := exists_follows hw.governs hfree hfollows hok Store.put_self hpath hu
    (by omega) (hw.covers path hpath text hr)
  have hds := Document.directives_eq hw.governs hpath hu ht (hplain path text hpath hr)
  have hrel := relabels_installParse Store.put_self hds hfol
  have hiff := handed_parsed_iff Store.put_self hds hfol
  rw [heq] at hloads ⊢
  -- the slots of the files loaded are those that were free
  have hslots : ∀ j, (j = i ∨ s.put i d j = none) ↔ s j = none := by
    intro j
    by_cases hji : j = i
    · subst hji
      simp [hi]
    · simp [hji]
  simp only [hslots] at hrel hiff
  have hhanded : ∀ uri ps, HandedBy r parse (fun j => s j = none)
      (s2.modify i fun d => d.installParse (parse text)) uri ps ↔ Handed r parse [] s
        (s2.modify i fun d => d.installParse (parse text)) uri ps := by
    intro uri ps
    exact ⟨Or.inr, fun h => h.resolve_left (by rintro ⟨⟩)⟩
  constructor
  · exact hloads.reloads
  · exact hfol.ok.modify i (fun _ => rfl)
      (fun d snap hs => Or.inr (by rw [← Option.some.inj hs]; rfl)) fun _ _ => Or.inl
  · intro j e he
    have hji : j ≠ i := by
      rintro rfl
      rw [hi] at he
      cases he
    obtain ⟨b, ps, he2⟩ := hfol.keeps (i := j) (by rw [Store.modify_of_ne hji, Store.put_of_ne hji, he])
    refine ⟨b, ps, ?_⟩
    rw [Store.modify_of_ne hji, he2, if_neg fun h => hji (Option.some.inj h).symm, if_neg (by rintro ⟨⟩)]
  · intro j d' hj hd'
    exact hrel.includes hd' hj
  · intro j d' hd'
    have hold : prefixesAt (s.put i d) j = prefixesAt s j := by
      by_cases hji : j = i
      · subst hji
        rw [prefixesAt, prefixesAt, Store.put_self, hi, ← hd]
        rfl
      · rw [prefixesAt, prefixesAt, Store.put_of_ne hji]
    rw [← hold]
    exact (hrel.labelled hd').congr (hhanded _)
  · intro uri ps hps
    rcases hfol.reached ((hiff uri ps).mpr ((hhanded uri ps).mpr hps)) with ⟨j, e, he, hu⟩ | hblock
    · obtain ⟨d', hd', hu', -⟩ := modify_installParse_of_some i (parse text) he
      exact Or.inl ⟨j, d', hd', by rw [hu', hu]⟩
    · exact Or.inr hblock.installParse

/-- **Loading a file** follows its includes, and theirs. -/
theorem follows_loadFileFromDisk (hw : r.Suits parse w) (hfree : SpellingFree r w)
    (hplain : FilesPlain r parse w) (path : CStr) (s : Store) (hpath : r.uris (pathToUri path))
    (h : StoreOk r s) :
    Follows r w parse none [] s (loadFileFromDisk w parse path s) := by
  induction hn : s.freeCount using Nat.strong_induction_on generalizing path s with
  | _ n ih =>
    rw [loadFileFromDisk_eq]
    cases hf : docFind w.realpath s (pathToUri path) with
    | some i => exact .refl h
    | none =>
      rw [if_neg (by simp)]
      cases hr : w.readFile path with
      | none => exact .refl h
      | some text =>
        cases hal : docAlloc w.realpath s (pathToUri path) with
        | none => exact .refl h
        | some p =>
          obtain ⟨i, s1⟩ := p
          obtain ⟨hi, rfl⟩ := docAlloc_some hal
          exact follows_installDiskText hw hfree hplain
            (fun path s hp hs hlt => ih s.freeCount hlt path s hp hs rfl) h hn hpath hf hr hi

theorem Follows.relabels (h : Follows r w parse none [] s s') :
    Relabels r parse (fun i => s i = none) s s' := by
  constructor
  · intro i d' hd' hi
    obtain ⟨d, hd⟩ := Option.ne_none_iff_exists'.mp hi
    obtain ⟨b, ps, hd2⟩ := h.loaded hd
    rw [hd', Option.some.injEq] at hd2
    exact ⟨d, hd, by rw [hd2], by rw [hd2], by rw [hd2]⟩
  · intro i d d' hd hd'
    obtain ⟨b, ps, hd2⟩ := h.loaded hd
    rw [hd', Option.some.injEq] at hd2
    rw [hd2]
  · intro i d' hi hd' k e he heq
    obtain ⟨b, ps, he2⟩ := h.loaded he
    obtain rfl := h.ok.unique k i _ d' he2 hd' heq
    rw [hi] at he
    cases he
  · intro i d' hd' hi
    exact h.adds hi hd'
  · intro i d' hd'
    exact (h.labelled hd').congr fun ps => ⟨fun hps => hps.resolve_left (by rintro ⟨⟩), Or.inr⟩

theorem relabels_of_kept (h : ∀ {i d'}, s' i = some d' → ∃ d, s i = some d ∧ d'.uri = d.uri ∧
    d'.text = d.text ∧ d'.includedUris = d.includedUris ∧ d'.prefixes = d.prefixes) :
    Relabels r parse (fun _ => False) s s' := by
  constructor
  · intro i d' hd' _
    obtain ⟨d, hd, hu, ht, hinc, -⟩ := h hd'
    exact ⟨d, hd, hu, ht, hinc⟩
  · intro i d d' hd hd'
    obtain ⟨e, he, hu, -⟩ := h hd'
    rw [hd, Option.some.injEq] at he
    rw [hu, he]
  · intro i d' hi hd'
    obtain ⟨e, he, -⟩ := h hd'
    rw [hi] at he
    cases he
  · intro i d' _ hi
    exact hi.elim
  · intro i d' hd'
    obtain ⟨d, hd, -, -, -, hps⟩ := h hd'
    refine Or.inr ⟨fun ps hps => ?_, ?_⟩
    · obtain ⟨j, e, hfalse, -⟩ := hps
      exact hfalse
    · rw [hps, prefixesAt, hd]
      rfl

/-- **Parsing the text of a document** from the path of its URI. -/
theorem parseInto_relabels (hw : r.Suits parse w) (hfree : SpellingFree r w)
    (hplain : FilesPlain r parse w) (h : StoreOk r s) (hd : s i = some d) {uri : CStr}
    (hn : r.uris uri) (hu : d.uri = r.canon uri) (ht : d.text = some text)
    (hnone : uriToPath d.uri = none → d.includedUris = [])
    (hpath : ∀ path ∈ uriToPath uri, r.uris (pathToUri path) ∧ r.CoversText parse path text ∧
      Plain r parse path text) :
    Relabels r parse (fun j => j = i ∨ s j = none) s
      (parseInto w parse (loadFileFromDisk w parse) s i text (uriToPath uri)) := by
  rcases Resolver.uriToPath_canon hw.governs hn fun path hp => (hpath path hp).1 with
    ⟨hno, hcanon⟩ | ⟨path, p, hyes, -, hcanon⟩
  · -- there is nothing to follow
    have hdir : d.directives r parse = [] := by rw [Document.directives, hu, hcanon, hno]
    have hpre : ∀ {j d'}, s.modify i (fun d => d.installParse (parse text)) j = some d' →
        ∃ e, s j = some e ∧ d'.uri = e.uri ∧ d'.text = e.text ∧ d'.prefixes = e.prefixes ∧
          d'.includedUris = e.includedUris := modify_installParse_some
    have hsame : Relabels r parse (fun _ => False) s
        (s.modify i fun d => d.installParse (parse text)) := by
      refine relabels_of_kept fun {j d'} hd' => ?_
      obtain ⟨e, he, hu', ht', hps', hinc'⟩ := hpre hd'
      exact ⟨e, he, hu', ht', hinc', hps'⟩
    rw [hno]
    change Relabels r parse _ s (s.modify i fun d => d.installParse (parse text))
    have hnot : ∀ uri' ps, ¬ HandedBy r parse (fun j => j = i ∨ s j = none)
        (s.modify i fun d => d.installParse (parse text)) uri' ps := by
      rintro uri' ps ⟨j, d', hj, hd', hlast⟩
      obtain ⟨e, he, hu', ht', -⟩ := hpre hd'
      rcases hj with rfl | hj
      · rw [hd, Option.some.injEq] at he
        rw [Document.directives_congr hu' ht', ← he, hdir] at hlast
        cases hlast
      · rw [hj] at he
        cases he
    constructor
    · exact fun hd' _ => hsame.same hd' id
    · exact hsame.uris
    · exact hsame.fresh
    · intro j d' hd' hj
      obtain ⟨e, he, hu', ht', -, hinc'⟩ := hpre hd'
      rcases hj with rfl | hj
      · rw [hd, Option.some.injEq] at he
        rw [IncludesOk, hinc', Document.directives_congr hu' ht', ← he, hdir,
          hnone (by rw [hu, hcanon, hno])]
        rfl
      · rw [hj] at he
        cases he
    · intro j d' hd'
      obtain ⟨e, he, -, -, hps', -⟩ := hpre hd'
      refine Or.inr ⟨hnot _, ?_⟩
      rw [hps', prefixesAt, he]
      rfl
  · have hu' : d.uri = r.canon (pathToUri path) := by rw [hu, hcanon]
    obtain ⟨hp, hc, hpl⟩ := hpath path hyes
    obtain ⟨s2, hfol, heq⟩ := exists_follows hw.governs hfree
      (fun path s hp hs _ => follows_loadFileFromDisk hw hfree hplain path s hp hs) h hd hp hu' le_rfl hc
    rw [hyes, heq]
    exact relabels_installParse hd (Document.directives_eq hw.governs hp hu' ht hpl) hfol

end Parsing

end TaskjugglerLsp
