import TaskjugglerLsp.Lifecycle
import TaskjugglerLsp.Workspace.Loading

/-!
# What an action does to the store

`carries` says it for all of them: an action is ignored, frees the slot of its
URI, takes over a slot with the text that it has already, or puts a text into the
slot of its URI (or into a free one) and installs the parse.  The invariants of
the store are read off it (`Carries.storeOk`).
-/

namespace TaskjugglerLsp

/-- The URI that an action is about. -/
def Action.uri : Action → CStr
  | opened uri _ => uri
  | changed uri _ => uri
  | closed uri => uri
  | fileDeleted uri => uri
  | fileTouched uri => uri
  | renamedFrom uri => uri
  | renamedTo uri => uri

section Outcomes

variable (w : World) (parse : CStr → ParseOutput) (s : Store)

/-- The slot of a URI, or a free one where it has none, and the document to work on there. -/
inductive Target (uri : CStr) (i : Slot) (d : Document) : Prop
  | found (h : docFind w.realpath s uri = some i) (hd : s i = some d)
  | taken (h : docFind w.realpath s uri = none) (hi : s i = none)
      (hd : d = freshDocument (normalizeUri w.realpath uri))

/-- The slot of a URI is in the hands of the editor. -/
def EditorOwned (uri : CStr) : Prop :=
  ∃ i d, docFind w.realpath s uri = some i ∧ s i = some d ∧ d.diskOnly = false

/-- There is no slot for a URI. -/
def NoSlot (uri : CStr) : Prop := docFind w.realpath s uri = none ∧ ∀ i, (s i).isSome

/-- The action has no effect. -/
def Ignored : Action → Prop
  | .opened uri _ => EditorOwned w s uri ∨ NoSlot w s uri
  | .changed uri changes => docFind w.realpath s uri = none ∨
      ∃ i d, docFind w.realpath s uri = some i ∧ s i = some d ∧
        applyContentChanges (d.text.getD []) changes = none
  | .closed uri => docFind w.realpath s uri = none
  | .fileDeleted uri => docFind w.realpath s uri = none ∨ EditorOwned w s uri
  | .fileTouched uri => EditorOwned w s uri ∨ readUri w uri = none ∨ NoSlot w s uri
  | .renamedFrom uri => docFind w.realpath s uri = none
  | .renamedTo uri => readUri w uri = none ∨ NoSlot w s uri

/-- The action frees the slot of its URI, which holds `d`. -/
def Frees (d : Document) : Action → Prop
  | .closed uri => readUri w uri = none
  | .fileDeleted _ => d.diskOnly = true
  | .renamedFrom _ => True
  | _ => False

/-- The action makes `d'`, with a new text, of the document `d` in a slot. -/
def Sets (i : Slot) (d d' : Document) (text : CStr) : Action → Prop
  | .opened _ new => (s i = some d → d.diskOnly = true ∧ d.text ≠ some text) ∧ text = new ∧
      d' = { d.clearParseState with diskOnly := false, text := some text }
  | .changed _ changes => s i = some d ∧
      applyContentChanges (d.text.getD []) changes = some text ∧ d' = { d with text := some text }
  | .closed uri => s i = some d ∧ (∃ path, readUri w uri = some (path, text)) ∧
      d' = { d with text := some text, diskOnly := true }
  | .fileTouched uri => (s i = some d → d.diskOnly = true) ∧
      (∃ path, readUri w uri = some (path, text)) ∧
      d' = { d with text := some text, diskOnly := true }
  | .renamedTo uri => (∃ path, readUri w uri = some (path, text)) ∧
      d' = { d with text := some text, diskOnly := true }
  | _ => False

/-- `s'` is `s` with `d` in slot `i`, the includes of its text followed, and the parse installed. -/
def Installs (i : Slot) (d : Document) (text : CStr) (s' : Store) : Prop :=
  ∃ s1, Loads w parse (s.put i d) s1 ∧ s' = s1.modify i fun d => d.installParse (parse text)

/-- What carrying out an action comes to, and whether the store counts as changed. -/
inductive Carries (a : Action) (s' : Store) : Bool → Prop
  | ignored (h : Ignored w s a) (hs' : s' = s) : Carries a s' false
  | freed {i : Slot} {d : Document} (h : docFind w.realpath s a.uri = some i) (hd : s i = some d)
      (hf : Frees w d a) (hs' : s' = docFree s i) : Carries a s' true
  | adopted {text : CStr} {i : Slot} {d : Document} (h : docFind w.realpath s a.uri = some i)
      (hd : s i = some d) (ha : a = .opened a.uri text) (hdisk : d.diskOnly = true)
      (ht : d.text = some text) (hs' : s' = s.put i { d with diskOnly := false }) : Carries a s' true
  | installed {i : Slot} {d d' : Document} {text : CStr} (ht : Target w s a.uri i d)
      (hs : Sets w s i d d' text a) (hi : Installs w parse s i d' text s')
      (hp : s' = parseInto w parse (loadFileFromDisk w parse) (s.put i d') i text (uriToPath a.uri)) :
      Carries a s' true

end Outcomes

section Inversion

variable {w : World} {parse : CStr → ParseOutput} {s : Store}

theorem docFind_isSome {realpath : CStr → Option CStr} {uri : CStr} {i : Slot}
    (h : docFind realpath s uri = some i) : ∃ d, s i = some d := by
  obtain ⟨d, hd, -⟩ := docFind_some h
  exact ⟨d, hd⟩

theorem modify_eq_put {i : Slot} {d : Document} (h : s i = some d) (f : Document → Document) :
    s.modify i f = s.put i (f d) := by
  rw [Store.modify, h]
  rfl

theorem installs_parseInto (i : Slot) (d : Document) (text : CStr) (path : Option CStr) :
    Installs w parse s i d text
      (parseInto w parse (loadFileFromDisk w parse) (s.put i d) i text path) := by
  exact parseInto_spec loads_loadFileFromDisk (s.put i d) i text path

theorem put_put (i : Slot) (d d' : Document) : (s.put i d).put i d' = s.put i d' := by
  simp [Store.put]

theorem readUri_some {uri path text : CStr} (h : readUri w uri = some (path, text)) :
    uriToPath uri = some path ∧ w.readFile path = some text := by
  simp only [readUri, Option.bind_eq_bind, Option.bind_eq_some_iff, Option.some.injEq,
    Prod.mk.injEq] at h
  obtain ⟨p, hp, t, ht, rfl, rfl⟩ := h
  exact ⟨hp, ht⟩

theorem carries_loadUri (a : Action) {uri : CStr} (ha : a.uri = uri)
    (hi : readUri w uri = none ∨ NoSlot w s uri → Ignored w s a)
    (hs : ∀ {i d text path}, Target w s uri i d → readUri w uri = some (path, text) →
      Sets w s i d { d with text := some text, diskOnly := true } text a) :
    Carries w parse s a (loadUri w parse s uri).1 (loadUri w parse s uri).2 := by
  unfold loadUri
  cases hr : readUri w uri with
  | none => exact .ignored (hi (Or.inl hr)) rfl
  | some p =>
    obtain ⟨path, text⟩ := p
    have hpath : uriToPath a.uri = some path := ha ▸ (readUri_some hr).1
    cases hf : docFind w.realpath s uri with
    | some i =>
      obtain ⟨d, hd⟩ := docFind_isSome hf
      have ht : Target w s uri i d := .found hf hd
      simp only [installDiskText, modify_eq_put hd]
      exact .installed (ha ▸ ht) (hs ht hr) (installs_parseInto _ _ _ _) (by rw [hpath])
    | none =>
      cases hal : docAlloc w.realpath s uri with
      | none => exact .ignored (hi (Or.inr ⟨hf, docAlloc_none hal⟩)) rfl
      | some p =>
        obtain ⟨i, s'⟩ := p
        obtain ⟨hi', rfl⟩ := docAlloc_some hal
        have ht : Target w s uri i _ := .taken hf hi' rfl
        simp only [installDiskText, modify_eq_put Store.put_self, put_put]
        exact .installed (ha ▸ ht) (hs ht hr) (installs_parseInto _ _ _ _) (by rw [hpath])

theorem carries_openDocument (uri text : CStr) : Carries w parse s (.opened uri text)
    (openDocument w parse s uri text).1 (openDocument w parse s uri text).2 := by
  unfold openDocument
  cases hf : docFind w.realpath s uri with
  | some i =>
    obtain ⟨d, hd⟩ := docFind_isSome hf
    simp only [hd, Option.any_some]
    cases hdisk : d.diskOnly with
    | false =>
      rw [if_pos (by rfl)]
      exact .ignored (Or.inl ⟨i, d, hf, hd, hdisk⟩) rfl
    | true =>
      rw [if_neg (by decide)]
      by_cases ht : d.text = some text
      · rw [if_pos (decide_eq_true ht), modify_eq_put hd]
        exact .adopted hf hd rfl hdisk ht rfl
      · rw [if_neg (by simpa using ht)]
        simp only [modify_eq_put hd, modify_eq_put Store.put_self, put_put]
        exact .installed (.found hf hd) ⟨fun _ => ⟨hdisk, ht⟩, rfl, rfl⟩ (installs_parseInto _ _ _ _)
          rfl
  | none =>
    cases hal : docAlloc w.realpath s uri with
    | none => exact .ignored (Or.inr ⟨hf, docAlloc_none hal⟩) rfl
    | some p =>
      obtain ⟨i, s'⟩ := p
      obtain ⟨hi, rfl⟩ := docAlloc_some hal
      simp only [modify_eq_put Store.put_self, put_put]
      refine .installed (.taken hf hi rfl) ⟨fun hd => ?_, rfl, rfl⟩ (installs_parseInto _ _ _ _) rfl
      rw [hi] at hd
      cases hd

theorem carries_changeDocument (uri : CStr) (changes : List Json) :
    Carries w parse s (.changed uri changes) (changeDocument w parse s uri changes).1
      (changeDocument w parse s uri changes).2 := by
  unfold changeDocument
  cases hf : docFind w.realpath s uri with
  | none => exact .ignored (Or.inl hf) rfl
  | some i =>
    obtain ⟨d, hd⟩ := docFind_isSome hf
    simp only [hd, Option.bind_some]
    cases hc : applyContentChanges (d.text.getD []) changes with
    | none => exact .ignored (Or.inr ⟨i, d, hf, hd, hc⟩) rfl
    | some current =>
      simp only [modify_eq_put hd]
      exact .installed (.found hf hd) ⟨hd, hc, rfl⟩ (installs_parseInto _ _ _ _) rfl

theorem carries_closeDocument (uri : CStr) : Carries w parse s (.closed uri)
    (closeDocument w parse s uri).1 (closeDocument w parse s uri).2 := by
  unfold closeDocument
  cases hf : docFind w.realpath s uri with
  | none => exact .ignored hf rfl
  | some i =>
    obtain ⟨d, hd⟩ := docFind_isSome hf
    cases hr : readUri w uri with
    | none => exact .freed hf hd hr rfl
    | some p =>
      obtain ⟨path, text⟩ := p
      simp only [installDiskText, modify_eq_put hd]
      exact .installed (.found hf hd) ⟨hd, ⟨path, hr⟩, rfl⟩ (installs_parseInto _ _ _ _)
        (by rw [Action.uri, (readUri_some hr).1])

theorem carries_forgetWatchedFile (uri : CStr) : Carries w parse s (.fileDeleted uri)
    (forgetWatchedFile w s uri).1 (forgetWatchedFile w s uri).2 := by
  unfold forgetWatchedFile
  cases hf : docFind w.realpath s uri with
  | none => exact .ignored (Or.inl hf) rfl
  | some i =>
    obtain ⟨d, hd⟩ := docFind_isSome hf
    simp only [hd, Option.any_some]
    cases hdisk : d.diskOnly with
    | false => exact .ignored (Or.inr ⟨i, d, hf, hd, hdisk⟩) rfl
    | true => exact .freed hf hd hdisk rfl

theorem carries_admitWatchedFile (uri : CStr) : Carries w parse s (.fileTouched uri)
    (admitWatchedFile w parse s uri).1 (admitWatchedFile w parse s uri).2 := by
  unfold admitWatchedFile
  by_cases ho : ((docFind w.realpath s uri).any fun i => (s i).any (!·.diskOnly)) = true
  · rw [if_pos ho]
    obtain ⟨i, hf, hi⟩ := Option.any_eq_true _ _ |>.mp ho
    obtain ⟨d, hd, hdisk⟩ := Option.any_eq_true _ _ |>.mp hi
    exact .ignored (Or.inl ⟨i, d, hf, hd, by simpa using hdisk⟩) rfl
  · rw [if_neg ho]
    refine carries_loadUri _ rfl Or.inr fun {i d text path} ht hr => ⟨fun hd => ?_, ⟨path, hr⟩, rfl⟩
    cases ht with
    | found hf _ => simpa [hf, hd] using ho
    | taken _ hi _ =>
      rw [hi] at hd
      cases hd

theorem carries_renameFrom (uri : CStr) : Carries w parse s (.renamedFrom uri)
    (renameFrom w s uri).1 (renameFrom w s uri).2 := by
  unfold renameFrom
  cases hf : docFind w.realpath s uri with
  | none => exact .ignored hf rfl
  | some i =>
    obtain ⟨d, hd⟩ := docFind_isSome hf
    exact .freed hf hd trivial rfl

/-- **What an action does.** -/
theorem carries (w : World) (parse : CStr → ParseOutput) (s : Store) (a : Action) :
    Carries w parse s a (a.apply w parse s).1 (a.apply w parse s).2 := by
  cases a with
  | opened uri text => exact carries_openDocument uri text
  | changed uri changes => exact carries_changeDocument uri changes
  | closed uri => exact carries_closeDocument uri
  | fileDeleted uri => exact carries_forgetWatchedFile uri
  | fileTouched uri => exact carries_admitWatchedFile uri
  | renamedFrom uri => exact carries_renameFrom uri
  | renamedTo uri =>
    exact carries_loadUri (.renamedTo uri) rfl id fun _ hr => ⟨⟨_, hr⟩, rfl⟩

/-- An action that does not count as a change leaves the store as it is. -/
theorem Carries.eq_of_false {a : Action} {s' : Store} (h : Carries w parse s a s' false) :
    s' = s := by
  cases h with
  | ignored _ hs' => exact hs'

end Inversion

/-! ### The slots after a text is installed -/

section Installed

variable {w : World} {parse : CStr → ParseOutput} {s s' : Store} {i j : Slot} {d e : Document}
  {text : CStr}

theorem Installs.self (h : Installs w parse s i d text s') :
    ∃ d', s' i = some d' ∧ Relabelled (d.installParse (parse text)) d' := by
  obtain ⟨s1, hl, rfl⟩ := h
  obtain ⟨d', hd', ps, us, rfl⟩ := hl.keeps (Store.put_self (s := s))
  exact ⟨_, by rw [Store.modify_self, hd']; rfl, ps, us, rfl⟩

/-- The other slots in use keep their documents, but for prefixes and includes. -/
theorem Installs.keeps (h : Installs w parse s i d text s') (hj : j ≠ i) (he : s j = some e) :
    ∃ e', s' j = some e' ∧ Relabelled e e' := by
  obtain ⟨s1, hl, rfl⟩ := h
  rw [Store.modify_of_ne hj]
  exact hl.keeps (by rwa [Store.put_of_ne hj])

/-- A slot taken on the way holds a file just loaded. -/
theorem Installs.adds (h : Installs w parse s i d text s') (hj : j ≠ i) (hn : s j = none)
    (he : s' j = some e) : Loaded w parse e := by
  obtain ⟨s1, hl, rfl⟩ := h
  rw [Store.modify_of_ne hj] at he
  exact hl.adds (by rwa [Store.put_of_ne hj]) he

/-- **What is in a slot afterwards.** -/
theorem Installs.cases (h : Installs w parse s i d text s') (he : s' j = some e) :
    (j = i ∧ Relabelled (d.installParse (parse text)) e) ∨
      (j ≠ i ∧ ∃ e0, s j = some e0 ∧ Relabelled e0 e) ∨
      (j ≠ i ∧ s j = none ∧ Loaded w parse e) := by
  by_cases hj : j = i
  · subst hj
    obtain ⟨d', hd', hrel⟩ := h.self
    rw [hd', Option.some.injEq] at he
    exact Or.inl ⟨rfl, he ▸ hrel⟩
  · cases hs : s j with
    | none => exact Or.inr (Or.inr ⟨hj, rfl, h.adds hj hs he⟩)
    | some e0 =>
      obtain ⟨e', he', hrel⟩ := h.keeps hj hs
      rw [he', Option.some.injEq] at he
      exact Or.inr (Or.inl ⟨hj, e0, rfl, he ▸ hrel⟩)

end Installed

/-! ### What a run names -/

section Names

variable (r : Resolver) (parse : CStr → ParseOutput)

/-- The URIs that a text under some path includes are among those of the run. -/
def Resolver.CoversText (path text : CStr) : Prop :=
  ∀ inc ∈ (parse text).includes, r.uris (pathToUri (resolveIncludePath path inc.filename))

/-- The files that there are suit the run: its URIs are resolved in the fixed way, and it has those
that its files include. -/
structure Resolver.Suits (w : World) : Prop where
  governs : r.Governs w.realpath
  covers : ∀ path, r.uris (pathToUri path) → ∀ text ∈ w.readFile path, r.CoversText parse path text

/-- The text that the message of an action brings. -/
def Action.newText (w : World) (s : Store) : Action → Option CStr
  | opened _ text => some text
  | changed uri changes => (docFind w.realpath s uri).bind fun i =>
      applyContentChanges (((s i).bind (·.text)).getD []) changes
  | _ => none

/-- The run has the URI of an action, also spelled from its path, and those that its text
includes. -/
def Action.Named (w : World) (s : Store) (a : Action) : Prop :=
  r.uris a.uri ∧ ∀ path ∈ uriToPath a.uri, r.uris (pathToUri path) ∧
    ∀ text ∈ a.newText w s, r.CoversText parse path text

variable {r parse} {w : World} {s : Store}

theorem Target.text_cases {a : Action} {i : Slot} {d d' : Document} {text : CStr}
    (ht : Target w s a.uri i d) (hs : Sets w s i d d' text a) :
    a.newText w s = some text ∨ ∃ path, readUri w a.uri = some (path, text) := by
  cases a with
  | opened uri new =>
    obtain ⟨-, rfl, -⟩ := hs
    exact Or.inl rfl
  | changed uri changes =>
    obtain ⟨hd, hc, -⟩ := hs
    cases ht with
    | found hf _ =>
      rw [Action.uri] at hf
      left
      rw [Action.newText, hf, Option.bind_some, hd, Option.bind_some]
      exact hc
    | taken _ hn _ =>
      rw [hn] at hd
      cases hd
  | closed uri => exact Or.inr hs.2.1
  | fileTouched uri => exact Or.inr hs.2.1
  | renamedTo uri => exact Or.inr hs.1
  | fileDeleted uri => exact hs.elim
  | renamedFrom uri => exact hs.elim

/-- Whether a text comes with its message or from disk, the run has the URIs that it includes. -/
theorem Action.Named.coversText {a : Action} (ha : a.Named r parse w s) (hw : r.Suits parse w)
    {i : Slot} {d d' : Document} {text : CStr} (ht : Target w s a.uri i d)
    (hs : Sets w s i d d' text a) {path : CStr} (hp : uriToPath a.uri = some path) :
    r.CoversText parse path text := by
  obtain ⟨hnamed, hnew⟩ := ha.2 path hp
  rcases ht.text_cases hs with htext | ⟨path', hr⟩
  · exact hnew text htext
  · obtain ⟨hp', hread⟩ := readUri_some hr
    obtain rfl := Option.some.inj (hp.symm.trans hp')
    exact hw.covers path hnamed text hread

end Names

/-! ### The invariant of the store -/

section Invariant

variable {r : Resolver} {w : World} {parse : CStr → ParseOutput} {s s' : Store}

/-- What holds of the store between two messages: no two documents have one URI, and a parse carries
that of its document. -/
structure Store.Sound (s : Store) : Prop where
  unique : s.UniqueUris
  snapUris : s.SnapUris

/-- And while URIs are resolved in one way: those of the documents are resolved, and the run has
those of the include lists. -/
structure StoreOk (r : Resolver) (s : Store) : Prop extends s.Sound where
  canonical : ∀ i d, s i = some d → r.canon d.uri = d.uri
  listed : ∀ i d, s i = some d → ∀ uri ∈ d.includedUris, r.uris uri

theorem sound_empty : emptyStore.Sound := by
  constructor
  · intro i j d e hd
    cases hd
  · intro i d snap hd
    cases hd

theorem storeOk_empty (r : Resolver) : StoreOk r emptyStore := by
  refine ⟨sound_empty, ?_, ?_⟩
  · intro i d hd
    cases hd
  · intro i d hd
    cases hd

theorem docFree_of_ne {i j : Slot} (h : j ≠ i) : docFree s i j = s j := by simp [docFree, h]

@[simp] theorem docFree_self {i : Slot} : docFree s i i = none := by simp [docFree]

theorem docFree_some {i j : Slot} {d : Document} (h : docFree s i j = some d) :
    j ≠ i ∧ s j = some d := by
  by_cases hj : j = i
  · subst hj
    rw [docFree_self] at h
    cases h
  · rw [docFree_of_ne hj] at h
    exact ⟨hj, h⟩

theorem Relabelled.uri_eq {d d' : Document} (h : Relabelled d d') : d'.uri = d.uri := by
  obtain ⟨ps, us, rfl⟩ := h
  rfl

theorem Relabelled.snap_eq {d d' : Document} (h : Relabelled d d') : d'.snap = d.snap := by
  obtain ⟨ps, us, rfl⟩ := h
  rfl

/-- An action that sets a text keeps the URI, the flag and the snapshots of the document, but for
the snapshots that an open drops. -/
theorem Sets.fields {a : Action} {i : Slot} {d d' : Document} {text : CStr}
    (h : Sets w s i d d' text a) :
    d'.uri = d.uri ∧ d'.text = some text ∧ d'.isCcRoot = d.isCcRoot ∧
      d'.docVersion = d.docVersion ∧ (d'.snap = d.snap ∨ d'.snap = none) ∧
      d'.prefixes = d.prefixes ∧ d'.includedUris = d.includedUris := by
  cases a with
  | opened uri new =>
    obtain ⟨-, -, rfl⟩ := h
    exact ⟨rfl, rfl, rfl, rfl, Or.inr rfl, rfl, rfl⟩
  | changed uri changes =>
    obtain ⟨-, -, rfl⟩ := h
    exact ⟨rfl, rfl, rfl, rfl, Or.inl rfl, rfl, rfl⟩
  | closed uri =>
    obtain ⟨-, -, rfl⟩ := h
    exact ⟨rfl, rfl, rfl, rfl, Or.inl rfl, rfl, rfl⟩
  | fileTouched uri =>
    obtain ⟨-, -, rfl⟩ := h
    exact ⟨rfl, rfl, rfl, rfl, Or.inl rfl, rfl, rfl⟩
  | renamedTo uri =>
    obtain ⟨-, rfl⟩ := h
    exact ⟨rfl, rfl, rfl, rfl, Or.inl rfl, rfl, rfl⟩
  | fileDeleted uri => exact h.elim
  | renamedFrom uri => exact h.elim

/-! ### What every file system keeps -/

theorem Store.Sound.put (h : s.Sound) {i : Slot} {d : Document}
    (hs : ∀ snap, d.snap = some snap → snap.uri = d.uri)
    (hne : ∀ j e, j ≠ i → s j = some e → e.uri ≠ d.uri) : (s.put i d).Sound := by
  constructor
  · exact Store.UniqueUris.put h.unique hne
  · intro j e snap he hsnap
    by_cases hj : j = i
    · subst hj
      rw [Store.put_self, Option.some.injEq] at he
      subst he
      exact hs snap hsnap
    · rw [Store.put_of_ne hj] at he
      exact h.snapUris j e snap he hsnap

theorem Store.Sound.modify (h : s.Sound) (i : Slot) {f : Document → Document}
    (hu : ∀ d, (f d).uri = d.uri)
    (hs : ∀ d snap, (f d).snap = some snap → d.snap = some snap ∨ snap.uri = d.uri) :
    (s.modify i f).Sound := by
  cases hi : s i with
  | none => rwa [Store.modify_of_none hi]
  | some d =>
    rw [modify_eq_put hi]
    refine h.put ?_ ?_
    · intro snap hsnap
      rw [hu]
      rcases hs d snap hsnap with hold | hnew
      · exact h.snapUris i d snap hi hold
      · exact hnew
    · intro j e hj he heq
      exact hj (h.unique j i e d he hi (by rw [heq, hu]))

theorem Store.Sound.docFree (h : s.Sound) (i : Slot) : (docFree s i).Sound := by
  constructor
  · intro j k d e hd he
    exact h.unique j k d e (docFree_some hd).2 (docFree_some he).2
  · intro j d snap hd
    exact h.snapUris j d snap (docFree_some hd).2

theorem Loaded.snap_uri {d : Document} {snap : DocSnapshot} (h : Loaded w parse d)
    (hs : d.snap = some snap) : snap.uri = d.uri := by
  obtain ⟨path, text, -, hrel⟩ := h
  rw [hrel.snap_eq] at hs
  rw [hrel.uri_eq, ← Option.some.inj hs]
  rfl

theorem Store.Sound.loads (h : s.Sound) (hl : Loads w parse s s') : s'.Sound := by
  refine ⟨hl.unique h.unique, fun i d' snap hd' hsnap => ?_⟩
  cases hs : s i with
  | none => exact (hl.adds hs hd').snap_uri hsnap
  | some d =>
    obtain ⟨e, he, hrel⟩ := hl.keeps hs
    rw [he, Option.some.injEq] at hd'
    subst hd'
    rw [hrel.uri_eq]
    exact h.snapUris i d snap hs (by rwa [← hrel.snap_eq])

theorem Target.apart {uri : CStr} {i : Slot} {d : Document} (h : s.Sound)
    (ht : Target w s uri i d) : (∀ snap, d.snap = some snap → snap.uri = d.uri) ∧
      ∀ j e, j ≠ i → s j = some e → e.uri ≠ d.uri := by
  cases ht with
  | found _ hd =>
    exact ⟨fun snap => h.snapUris i d snap hd, fun j e hj he hu => hj (h.unique j i e d he hd hu)⟩
  | taken hf _ hd =>
    rw [hd]
    exact ⟨nofun, fun j e _ he => (docFind_none hf he).2⟩

/-- A text that is set does not touch that. -/
theorem Sets.snap_uri {a : Action} {i : Slot} {d d' : Document} {text : CStr}
    (hs : Sets w s i d d' text a) (hd : ∀ snap, d.snap = some snap → snap.uri = d.uri) :
    ∀ snap, d'.snap = some snap → snap.uri = d'.uri := by
  intro snap hsnap
  obtain ⟨hu, -, -, -, hold | hnone, -⟩ := hs.fields
  · rw [hold] at hsnap
    rw [hu]
    exact hd snap hsnap
  · rw [hnone] at hsnap
    cases hsnap

/-- **Every action keeps the documents apart**, whatever files there are. -/
theorem Carries.sound {a : Action} {b : Bool} (h : s.Sound) (hc : Carries w parse s a s' b) :
    s'.Sound := by
  cases hc with
  | ignored _ hs' => rwa [hs']
  | freed _ _ _ hs' =>
    rw [hs']
    exact h.docFree _
  | @adopted text i d _ hd _ _ _ hs' =>
    rw [hs', ← modify_eq_put hd fun d => { d with diskOnly := false }]
    exact h.modify i (fun _ => rfl) fun _ _ => Or.inl
  | @installed i d d' text ht hs hi =>
    obtain ⟨s1, hl, rfl⟩ := hi
    obtain ⟨hsnap, hne⟩ := ht.apart h
    have hput : (s.put i d').Sound := h.put (hs.snap_uri hsnap) (hs.fields.1 ▸ hne)
    refine (hput.loads hl).modify i (fun _ => rfl) fun d snap hs' => Or.inr ?_
    rw [← Option.some.inj hs']
    rfl

/-! ### What a lookup finds -/

theorem StoreOk.docFind_iff (h : StoreOk r s) (hw : r.Governs w.realpath) {uri : CStr}
    (hn : r.uris uri) {i : Slot} :
    docFind w.realpath s uri = some i ↔ ∃ d, s i = some d ∧ d.uri = r.canon uri := by
  have hfound : ∀ {j}, docFind w.realpath s uri = some j → ∃ d, s j = some d ∧ d.uri = r.canon uri := by
    intro j hj
    obtain ⟨d, hd, hu | hu⟩ := docFind_some hj
    · exact ⟨d, hd, by rw [← hu, h.canonical j d hd]⟩
    · exact ⟨d, hd, by rw [hu, hw uri hn]⟩
  constructor
  · exact hfound
  · rintro ⟨d, hd, hu⟩
    cases hf : docFind w.realpath s uri with
    | none => exact absurd (by rw [hu, hw uri hn]) (docFind_none hf hd).2
    | some j =>
      obtain ⟨e, he, hu'⟩ := hfound hf
      rw [h.unique j i e d he hd (by rw [hu, hu'])]

theorem StoreOk.docFind_eq_none (h : StoreOk r s) (hw : r.Governs w.realpath) {uri : CStr}
    (hn : r.uris uri) :
    docFind w.realpath s uri = none ↔ ∀ i d, s i = some d → d.uri ≠ r.canon uri := by
  constructor
  · intro hf i d hd hu
    have := (h.docFind_iff hw hn).mpr ⟨d, hd, hu⟩
    rw [hf] at this
    cases this
  · intro hall
    cases hf : docFind w.realpath s uri with
    | none => rfl
    | some i =>
      obtain ⟨d, hd, hu⟩ := (h.docFind_iff hw hn).mp hf
      exact absurd hu (hall i d hd)

/-- The slot that an action works on holds the resolved URI, and no other does. -/
theorem Target.uri_eq {uri : CStr} {i : Slot} {d : Document} (h : StoreOk r s)
    (hw : r.Governs w.realpath) (hn : r.uris uri) (ht : Target w s uri i d) :
    d.uri = r.canon uri ∧ ∀ j e, j ≠ i → s j = some e → e.uri ≠ r.canon uri := by
  cases ht with
  | found hf hd =>
    obtain ⟨d', hd', hu⟩ := (h.docFind_iff hw hn).mp hf
    obtain rfl := Option.some.inj (hd.symm.trans hd')
    exact ⟨hu, fun j e hj he hu' => hj (h.unique j i e d he hd (by rw [hu, hu']))⟩
  | taken hf _ hd =>
    rw [hd]
    exact ⟨hw uri hn, fun j e _ he => (h.docFind_eq_none hw hn).mp hf j e he⟩

/-! ### What keeps the invariant -/

theorem StoreOk.put (h : StoreOk r s) {i : Slot} {d : Document} (hd : r.canon d.uri = d.uri)
    (hs : ∀ snap, d.snap = some snap → snap.uri = d.uri) (hl : ∀ uri ∈ d.includedUris, r.uris uri)
    (hne : ∀ j e, j ≠ i → s j = some e → e.uri ≠ d.uri) : StoreOk r (s.put i d) := by
  refine ⟨h.toSound.put hs hne, fun j e he => ?_, fun j e he => ?_⟩
  · by_cases hj : j = i
    · subst hj
      rw [Store.put_self, Option.some.injEq] at he
      exact he ▸ hd
    · rw [Store.put_of_ne hj] at he
      exact h.canonical j e he
  · by_cases hj : j = i
    · subst hj
      rw [Store.put_self, Option.some.injEq] at he
      exact he ▸ hl
    · rw [Store.put_of_ne hj] at he
      exact h.listed j e he

theorem StoreOk.docFree (h : StoreOk r s) (i : Slot) : StoreOk r (docFree s i) := by
  refine ⟨h.toSound.docFree i, fun j d hd => ?_, fun j d hd => ?_⟩
  · exact h.canonical j d (docFree_some hd).2
  · exact h.listed j d (docFree_some hd).2

theorem StoreOk.modify (h : StoreOk r s) (i : Slot) {f : Document → Document}
    (hu : ∀ d, (f d).uri = d.uri)
    (hs : ∀ d snap, (f d).snap = some snap → d.snap = some snap ∨ snap.uri = d.uri)
    (hl : ∀ d, ∀ uri ∈ (f d).includedUris, uri ∈ d.includedUris ∨ r.uris uri) :
    StoreOk r (s.modify i f) := by
  have hsound := h.toSound.modify i hu hs
  cases hi : s i with
  | none => rwa [Store.modify_of_none hi]
  | some d =>
    rw [modify_eq_put hi] at hsound ⊢
    refine ⟨hsound, fun j e he => ?_, fun j e he => ?_⟩
    · by_cases hj : j = i
      · subst hj
        rw [Store.put_self, Option.some.injEq] at he
        rw [← he, hu]
        exact h.canonical j d hi
      · rw [Store.put_of_ne hj] at he
        exact h.canonical j e he
    · by_cases hj : j = i
      · subst hj
        rw [Store.put_self, Option.some.injEq] at he
        subst he
        exact fun uri hmem => (hl d uri hmem).elim (h.listed j d hi uri) id
      · rw [Store.put_of_ne hj] at he
        exact h.listed j e he

theorem StoreOk.modifyFound (h : StoreOk r s) (o : Option Slot) {f : Document → Document}
    (hu : ∀ d, (f d).uri = d.uri) (hs : ∀ d, (f d).snap = d.snap)
    (hl : ∀ d, ∀ uri ∈ (f d).includedUris, uri ∈ d.includedUris ∨ r.uris uri) :
    StoreOk r (s.modifyFound o f) := by
  cases o with
  | none => exact h
  | some i => exact h.modify i hu (fun d snap hsnap => Or.inl (hs d ▸ hsnap)) hl

/-! ### Loading keeps it -/

section Loading

variable {load : CStr → Store → Store}
  (hload : ∀ path s, r.uris (pathToUri path) → StoreOk r s → StoreOk r (load path s))

include hload

theorem StoreOk.followInclude (h : StoreOk r s) {filePath : CStr} {inc : IncludeRef}
    (hinc : r.uris (pathToUri (resolveIncludePath filePath inc.filename))) (includer : Option Slot) :
    StoreOk r (followInclude w load filePath includer s inc) := by
  rw [TaskjugglerLsp.followInclude]
  refine StoreOk.modifyFound (StoreOk.modifyFound (hload _ s hinc h) _ ?_ ?_ ?_) includer ?_ ?_ ?_
  · exact fun _ => rfl
  · exact fun _ => rfl
  · exact fun _ _ => Or.inl
  · exact fun _ => rfl
  · exact fun _ => rfl
  · intro d uri hmem
    rcases List.mem_append.mp hmem with hmem | hmem
    · exact Or.inl hmem
    · rw [List.mem_singleton.mp hmem]
      exact Or.inr hinc

theorem StoreOk.followIncludes (h : StoreOk r s) {filePath text : CStr}
    (hc : r.CoversText parse filePath text) :
    StoreOk r (followIncludes w load filePath (parse text) s) := by
  have hfold : ∀ (includes : List IncludeRef) (includer : Option Slot) (s : Store), StoreOk r s →
      (∀ inc ∈ includes, r.uris (pathToUri (resolveIncludePath filePath inc.filename))) →
      StoreOk r (includes.foldl (TaskjugglerLsp.followInclude w load filePath includer) s) := by
    intro includes includer
    induction includes with
    | nil => exact fun s h _ => h
    | cons inc includes ih =>
      intro s h hmem
      exact ih _ (h.followInclude hload (hmem inc List.mem_cons_self) includer)
        fun inc' hinc => hmem inc' (List.mem_cons_of_mem _ hinc)
  refine hfold _ _ _ (h.modifyFound _ (fun _ => rfl) (fun _ => rfl) fun d uri hmem => ?_) hc
  cases hmem

theorem StoreOk.parseInto (h : StoreOk r s) (i : Slot) {text : CStr} {path : Option CStr}
    (hc : ∀ p ∈ path, r.CoversText parse p text) :
    StoreOk r (parseInto w parse load s i text path) := by
  have hinstall : ∀ {s : Store}, StoreOk r s →
      StoreOk r (s.modify i fun d => d.installParse (parse text)) := by
    intro s h
    refine h.modify i (fun _ => rfl) (fun d snap hs => Or.inr ?_) fun _ _ => Or.inl
    rw [← Option.some.inj hs]
    rfl
  cases path with
  | none => exact hinstall h
  | some p => exact hinstall (h.followIncludes hload (hc p rfl))

end Loading

/-- **Loading a file** keeps the invariant. -/
theorem StoreOk.loadFile (hw : r.Suits parse w) (n : ℕ) (path : CStr) (s : Store)
    (hn : r.uris (pathToUri path)) (h : StoreOk r s) : StoreOk r (loadFile w parse n path s) := by
  induction n generalizing path s with
  | zero => exact h
  | succ n ih =>
    rw [TaskjugglerLsp.loadFile]
    split
    · exact h
    · rename_i hf
      rw [Option.not_isSome_iff_eq_none] at hf
      split
      · exact h
      · rename_i text hr
        split
        · exact h
        · rename_i i s1 ha
          obtain ⟨hi, rfl⟩ := docAlloc_some ha
          have hput : StoreOk r (s.put i (freshDocument (normalizeUri w.realpath (pathToUri path)))) := by
            refine h.put ?_ ?_ ?_ fun j e _ he => (docFind_none hf he).2
            · show r.canon (normalizeUri w.realpath (pathToUri path))
                = normalizeUri w.realpath (pathToUri path)
              rw [hw.governs _ hn, r.idem]
            · rintro snap ⟨⟩
            · rintro uri ⟨⟩
          rw [installDiskText, modify_eq_put Store.put_self]
          refine StoreOk.parseInto ih ?_ i fun p hp => ?_
          · rw [← modify_eq_put Store.put_self fun d => { d with text := some text, diskOnly := true }]
            exact hput.modify i (fun _ => rfl) (fun _ _ => Or.inl) fun _ _ => Or.inl
          · obtain rfl := Option.some.inj hp
            exact hw.covers path hn text hr

theorem StoreOk.loadFileFromDisk (h : StoreOk r s) (hw : r.Suits parse w) {path : CStr}
    (hn : r.uris (pathToUri path)) : StoreOk r (loadFileFromDisk w parse path s) :=
  h.loadFile hw _ path s hn

/-! ### So does every action -/

theorem Target.storeOk_put {a : Action} {i : Slot} {d d' : Document} {text : CStr}
    (h : StoreOk r s) (hw : r.Governs w.realpath) (hn : r.uris a.uri) (ht : Target w s a.uri i d)
    (hs : Sets w s i d d' text a) : StoreOk r (s.put i d') := by
  obtain ⟨hu, -⟩ := ht.uri_eq h hw hn
  obtain ⟨hsnap, hne⟩ := ht.apart h.toSound
  obtain ⟨hu', -, -, -, -, -, hinc⟩ := hs.fields
  refine h.put ?_ (hs.snap_uri hsnap) ?_ (hu' ▸ hne)
  · rw [hu', hu, r.idem]
  · rw [hinc]
    cases ht with
    | found _ hd => exact h.listed i d hd
    | taken _ _ hd =>
      rw [hd]
      exact nofun

/-- **Every action keeps the invariant.** -/
theorem Carries.storeOk {a : Action} {b : Bool} (h : StoreOk r s) (hw : r.Suits parse w)
    (ha : a.Named r parse w s) (hc : Carries w parse s a s' b) : StoreOk r s' := by
  cases hc with
  | ignored _ hs' => rwa [hs']
  | freed _ _ _ hs' =>
    rw [hs']
    exact h.docFree _
  | @adopted text i d _ hd _ _ _ hs' =>
    rw [hs', ← modify_eq_put hd fun d => { d with diskOnly := false }]
    exact h.modify i (fun _ => rfl) (fun _ _ => Or.inl) fun _ _ => Or.inl
  | @installed i d d' text ht hs _ hp =>
    rw [hp]
    exact (ht.storeOk_put h hw.governs ha.1 hs).parseInto
      (fun _ _ hn hok => hok.loadFileFromDisk hw hn) i fun path hpath => ha.coversText hw ht hs hpath

/-- **The documents of other URIs** stay where they are, but for prefixes and includes. -/
theorem Carries.frame {a : Action} {b : Bool} (h : StoreOk r s) (hw : r.Governs w.realpath)
    (hn : r.uris a.uri) (hc : Carries w parse s a s' b) {j : Slot} {e : Document}
    (he : s j = some e) (hne : e.uri ≠ r.canon a.uri) : ∃ e', s' j = some e' ∧ Relabelled e e' := by
  have hfound : ∀ {i}, docFind w.realpath s a.uri = some i → j ≠ i := by
    rintro i hf rfl
    obtain ⟨d, hd, hu⟩ := (h.docFind_iff hw hn).mp hf
    rw [he, Option.some.injEq] at hd
    exact hne (hd ▸ hu)
  cases hc with
  | ignored _ hs' => exact ⟨e, by rw [hs', he], .refl e⟩
  | freed hf _ _ hs' => exact ⟨e, by rw [hs', docFree_of_ne (hfound hf), he], .refl e⟩
  | adopted hf _ _ _ _ hs' => exact ⟨e, by rw [hs', Store.put_of_ne (hfound hf), he], .refl e⟩
  | @installed i d d' text ht hs hi =>
    refine hi.keeps ?_ he
    cases ht with
    | found hf _ => exact hfound hf
    | taken _ hn _ =>
      rintro rfl
      rw [hn] at he
      cases he

end Invariant

end TaskjugglerLsp
