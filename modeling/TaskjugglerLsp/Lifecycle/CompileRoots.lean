import TaskjugglerLsp.Lifecycle.Following
import TaskjugglerLsp.Lifecycle.Publication
import TaskjugglerLsp.Workspace.Membership

/-!
# The roots of compile_commands.json

A slot carries a flag for "listed in compile_commands.json".  It is set when the
file is loaded and never cleared, and it is lost with the slot.  So the flags
agree with the last loaded list (`FlagsMatch`), and with them the projects of the
published snapshot (`roots_match_listing`), as long as no list leaves out a
document that is flagged, and no listed document that is not in the store comes
into it otherwise.
-/

namespace TaskjugglerLsp

open Lib

section Flags

variable (r : Resolver) (w : World) (s : Store)

/-- The resolved URI of an entry. -/
def entryUri (file : CStr) : CStr := r.canon (pathToUri file)

/-- Where an entry stands once its turn is over: its document is flagged, or there is none and
none can be loaded. -/
def Settled (uri : CStr) : Prop :=
  (∃ i d, s i = some d ∧ d.uri = uri ∧ d.isCcRoot = true) ∨
    Blocked w s uri

end Flags

section Proofs

variable {r : Resolver} {w : World} {parse : CStr → ParseOutput} {s s' : Store}

theorem Loaded.not_flagged {d : Document} (h : Loaded w parse d) : d.isCcRoot = false := by
  obtain ⟨path, text, -, ps, us, rfl⟩ := h
  rfl

theorem Settled.reloads {uri : CStr} (h : Settled w s uri) (hl : Reloads w parse s s') :
    Settled w s' uri := by
  rcases h with ⟨i, d, hd, hu, hf⟩ | h
  · obtain ⟨d', hd', b, ps, us, rfl⟩ := hl.keeps hd
    exact Or.inl ⟨i, _, hd', hu, by simp [hf]⟩
  · exact Or.inr (h.reloads hl)

theorem loadCompileEntry_eq (file : CStr) : loadCompileEntry w parse s file
    = (loadFileFromDisk w parse file s).modifyFound
        (docFind w.realpath (loadFileFromDisk w parse file s) (pathToUri file))
        fun d => { d with isCcRoot := true } := rfl

theorem settled_loadCompileEntry (h : StoreOk r s) (hw : r.Suits parse w)
    (hfree : SpellingFree r w) {file : CStr} (hn : r.uris (pathToUri file)) :
    Settled w (loadCompileEntry w parse s file) (entryUri r file) := by
  rw [loadCompileEntry_eq]
  have h1 := h.loadFileFromDisk hw hn
  rcases loadFileFromDisk_found parse h hw.governs hn with ⟨i, d, hd, hu⟩ | ⟨habs, hout⟩
  · have hf := (h1.docFind_iff hw.governs hn).mpr ⟨d, hd, hu⟩
    refine Or.inl ⟨i, { d with isCcRoot := true }, ?_, hu, rfl⟩
    rw [hf, Store.modifyFound, Store.modify_self, hd]
    rfl
  · have hf := (h1.docFind_eq_none hw.governs hn).mpr habs
    rw [hf]
    exact Or.inr ⟨habs, hout.imp (hfree file hn) id⟩

theorem flagged_loadCompileEntry (h : StoreOk r s) (hw : r.Suits parse w) {P : CStr → Prop}
    (hs : ∀ i d, s i = some d → d.isCcRoot = true → P d.uri) {file : CStr}
    (hn : r.uris (pathToUri file)) (hP : P (entryUri r file)) {i : Slot} {d : Document}
    (hd : loadCompileEntry w parse s file i = some d) (hflag : d.isCcRoot = true) : P d.uri := by
  have h1 := h.loadFileFromDisk hw hn
  have hold : ∀ {j e}, loadFileFromDisk w parse file s j = some e → e.isCcRoot = true →
      P e.uri := by
    intro j e he hf
    cases hj : s j with
    | none =>
      have := ((loads_loadFileFromDisk file s).adds hj he).not_flagged
      rw [hf] at this
      cases this
    | some e0 =>
      obtain ⟨e', he', ps, us, rfl⟩ := (loads_loadFileFromDisk (w := w) file s).keeps hj
      rw [he, Option.some.injEq] at he'
      subst he'
      exact hs j e0 hj hf
  rw [loadCompileEntry_eq] at hd
  cases hf : docFind w.realpath (loadFileFromDisk w parse file s) (pathToUri file) with
  | none =>
    rw [hf] at hd
    exact hold hd hflag
  | some k =>
    rw [hf, Store.modifyFound] at hd
    by_cases hik : i = k
    · subst hik
      obtain ⟨e, he, hu⟩ := (h1.docFind_iff hw.governs hn).mp hf
      rw [Store.modify_self, he, Option.map_some, Option.some.injEq] at hd
      subst hd
      rw [show ({ e with isCcRoot := true } : Document).uri = e.uri from rfl, hu]
      exact hP
    · rw [Store.modify_of_ne hik] at hd
      exact hold hd hflag

/-- **Loading a list** flags the documents on it and no others. -/
theorem loadCompileEntries_flags (h : StoreOk r s) (hw : r.Suits parse w)
    (hfree : SpellingFree r w) {entries : List CStr}
    (hn : ∀ file ∈ entries, r.uris (pathToUri file))
    (hs : ∀ i d, s i = some d → d.isCcRoot = true → d.uri ∈ entries.map (entryUri r)) {i : Slot}
    {d : Document} (hd : loadCompileEntries w parse s entries i = some d) :
    d.isCcRoot = true ↔ d.uri ∈ entries.map (entryUri r) := by
  -- the entries whose turn is over are settled, and only entries are flagged
  have hrun : ∀ (rest : List CStr) (s : Store), StoreOk r s →
      (∀ file ∈ rest, file ∈ entries) →
      (∀ i d, s i = some d → d.isCcRoot = true → d.uri ∈ entries.map (entryUri r)) →
      StoreOk r (loadCompileEntries w parse s rest) ∧
        (∀ i d, loadCompileEntries w parse s rest i = some d → d.isCcRoot = true →
          d.uri ∈ entries.map (entryUri r)) ∧
        ∀ file ∈ rest, Settled w (loadCompileEntries w parse s rest) (entryUri r file) := by
    intro rest
    induction rest with
    | nil =>
      intro s hok _ hs
      exact ⟨hok, hs, fun file hf => by cases hf⟩
    | cons file rest ih =>
      intro s hok hmem hs
      have hfile := hmem file List.mem_cons_self
      obtain ⟨h1, h2, h3⟩ := ih _ (hok.loadCompileEntry hw (hn file hfile))
        (fun f hf => hmem f (List.mem_cons_of_mem _ hf))
        fun i d hd hf => flagged_loadCompileEntry (P := fun u => u ∈ entries.map (entryUri r))
          hok hw hs (hn file hfile) (List.mem_map_of_mem hfile) hd hf
      refine ⟨h1, h2, fun f hf => ?_⟩
      rcases List.mem_cons.mp hf with rfl | hf
      · exact (settled_loadCompileEntry hok hw hfree (hn f hfile)).reloads
          (reloads_loadCompileEntries _ rest)
      · exact h3 f hf
  obtain ⟨hok, hflag, hsettled⟩ := hrun entries s h (fun f hf => hf) hs
  constructor
  · exact hflag i d hd
  · intro hmem
    obtain ⟨file, hfile, hu⟩ := List.mem_map.mp hmem
    rcases hsettled file hfile with ⟨j, e, he, heu, hf⟩ | ⟨habs, -⟩
    · obtain rfl := hok.unique i j d e hd he (by rw [← hu, heu])
      rw [hd, Option.some.injEq] at he
      exact he ▸ hf
    · exact absurd hu.symm (habs i d hd)

/-! ### Actions and flags -/

/-- The flags in the store are those of a list of URIs. -/
def FlagsMatch (s : Store) (listed : List CStr) : Prop :=
  ∀ i d, s i = some d → (d.isCcRoot = true ↔ d.uri ∈ listed)

/-- A listed document that is not in the store is not opened, and its file cannot be read. -/
def StaysOut (r : Resolver) (w : World) (s : Store) (listed : List CStr) (a : Action) : Prop :=
  ∀ uri ∈ listed, Absent s uri →
    Unreadable w uri ∧ ∀ name text, a = .opened name text → r.canon name ≠ uri

theorem normalizeUri_pathToUri {realpath : CStr → Option CStr} {uri path : CStr}
    (h : uriToPath uri = some path) :
    normalizeUri realpath (pathToUri path) = normalizeUri realpath uri := by
  unfold normalizeUri
  rw [h, uriToPath_pathToUri (zero_notMem_uriToPath h)]

theorem Sets.takes {a : Action} {i : Slot} {d d' : Document} {text : CStr} (hn : s i = none)
    (hs : Sets w s i d d' text a) :
    a = .opened a.uri text ∨ ∃ path, readUri w a.uri = some (path, text) := by
  have hfound : s i ≠ some d := by
    rw [hn]
    rintro ⟨⟩
  cases a with
  | opened name new =>
    obtain ⟨-, rfl, -⟩ := hs
    exact Or.inl rfl
  | changed name changes => exact absurd hs.1 hfound
  | closed name => exact absurd hs.1 hfound
  | fileTouched name => exact Or.inr hs.2.1
  | renamedTo name => exact Or.inr hs.1
  | fileDeleted name => exact hs.elim
  | renamedFrom name => exact hs.elim

/-- Where a document comes from: it was there with the same flag, or its URI is new to the store,
it is not flagged, and it was read from disk or opened. -/
theorem Carries.origin {a : Action} {b : Bool} (h : StoreOk r s) (hw : r.Governs w.realpath)
    (ha : r.uris a.uri) (hc : Carries w parse s a s' b) {j : Slot} {e : Document} (he : s' j = some e) :
    (∃ e0, s j = some e0 ∧ e.uri = e0.uri ∧ e.isCcRoot = e0.isCcRoot) ∨
      (s j = none ∧ e.isCcRoot = false ∧ (¬ Unreadable w e.uri ∨
        ∃ text, a = .opened a.uri text ∧ e.uri = r.canon a.uri)) := by
  cases hc with
  | ignored _ hs' => exact Or.inl ⟨e, by rw [← hs', he], rfl, rfl⟩
  | freed _ _ _ hs' =>
    rw [hs'] at he
    exact Or.inl ⟨e, (docFree_some he).2, rfl, rfl⟩
  | @adopted text i d _ hd _ _ _ hs' =>
    rw [hs'] at he
    by_cases hj : j = i
    · subst hj
      rw [Store.put_self, Option.some.injEq] at he
      exact Or.inl ⟨d, hd, by rw [← he], by rw [← he]⟩
    · rw [Store.put_of_ne hj] at he
      exact Or.inl ⟨e, he, rfl, rfl⟩
  | @installed i d d' text ht hs hi =>
    obtain ⟨hu, -⟩ := ht.uri_eq h hw ha
    obtain ⟨hu', -, hflag, -⟩ := hs.fields
    rcases hi.cases he with ⟨rfl, hrel⟩ | ⟨-, e0, he0, hrel⟩ | ⟨-, hn, hl⟩
    · have huri : e.uri = d.uri := hrel.uri_eq.trans hu'
      have hroot : e.isCcRoot = d.isCcRoot := by
        obtain ⟨ps, us, rfl⟩ := hrel
        exact hflag
      cases ht with
      | found _ hd => exact Or.inl ⟨d, hd, huri, hroot⟩
      | taken _ hn hd =>
        refine Or.inr ⟨hn, by rw [hroot, hd]; rfl, ?_⟩
        rw [huri, hu]
        rcases hs.takes hn with hopen | ⟨path, hr⟩
        · exact Or.inr ⟨text, hopen, rfl⟩
        · obtain ⟨hp, hread⟩ := readUri_some hr
          refine Or.inl fun hun => hun path text hread ?_
          rw [normalizeUri_pathToUri hp, hw _ ha]
    · obtain ⟨ps, us, rfl⟩ := hrel
      exact Or.inl ⟨e0, he0, rfl, rfl⟩
    · exact Or.inr ⟨hn, hl.not_flagged, Or.inl fun hun => hl.uri_ne hun rfl⟩

theorem Carries.keeps_uri {a : Action} {b : Bool} (h : s.Sound) (hc : Carries w parse s a s' b)
    {j k : Slot} {e e0 : Document} (he : s' j = some e) (hn : s j = none) (h0 : s k = some e0) :
    e0.uri ≠ e.uri := by
  have hok := hc.sound h
  intro hu
  suffices hk : ∃ e1, s' k = some e1 ∧ e1.uri = e0.uri by
    obtain ⟨e1, he1, hu1⟩ := hk
    obtain rfl := hok.unique k j e1 e he1 he (by rw [hu1, hu])
    rw [hn] at h0
    cases h0
  cases hc with
  | ignored _ hs' =>
    rw [hs', hn] at he
    cases he
  | freed _ _ _ hs' =>
    rw [hs'] at he
    rw [(docFree_some he).2] at hn
    cases hn
  | @adopted text i d _ hd _ _ _ hs' =>
    rw [hs'] at he ⊢
    by_cases hk : k = i
    · subst hk
      rw [h0, Option.some.injEq] at hd
      exact ⟨_, Store.put_self, by rw [hd]⟩
    · exact ⟨e0, by rw [Store.put_of_ne hk, h0], rfl⟩
  | @installed i d d' text ht hs hi =>
    by_cases hk : k = i
    · subst hk
      obtain ⟨e1, he1, hrel⟩ := hi.self
      have hd : d = e0 := by
        cases ht with
        | found _ hd => exact Option.some.inj (hd.symm.trans h0)
        | taken _ hn' _ =>
          rw [hn'] at h0
          cases h0
      exact ⟨e1, he1, by rw [hrel.uri_eq, ← hd]; exact hs.fields.1⟩
    · obtain ⟨e1, he1, hrel⟩ := hi.keeps hk h0
      exact ⟨e1, he1, hrel.uri_eq⟩

/-- **An action keeps the flags in step** while listed documents that are out stay out. -/
theorem FlagsMatch.act {listed : List CStr} (h : StoreOk r s) (hw : r.Governs w.realpath)
    (hm : FlagsMatch s listed) {a : Action} (ha : r.uris a.uri) {b : Bool}
    (hc : Carries w parse s a s' b) (hout : StaysOut r w s listed a) : FlagsMatch s' listed := by
  intro j e he
  rcases hc.origin h hw ha he with ⟨e0, he0, hu, hf⟩ | ⟨hn, hf, hcome⟩
  · rw [hf, hu]
    exact hm j e0 he0
  · rw [hf]
    constructor
    · intro hfalse
      cases hfalse
    · intro hmem
      have habs : Absent s e.uri := fun k e0 h0 => hc.keeps_uri h.toSound he hn h0
      obtain ⟨hread, hopen⟩ := hout e.uri hmem habs
      rcases hcome with hcome | ⟨text, ha, hu⟩
      · exact absurd hread hcome
      · exact absurd hu.symm (hopen _ _ ha)

/-! ### Runs -/

/-- The resolved URIs of the list that was last loaded with success. -/
def noteListed (r : Resolver) (st : ServerState) (w : World) (m : Step) (listed : List CStr) :
    List CStr :=
  (m.entries w st).elim listed fun entries => entries.map (entryUri r)

/-- A list that is loaded has every document on it that is flagged in the store; a listed document
that is not in the store stays out. -/
def KeepsListing (r : Resolver) (o : Observed (List CStr)) (w : World) (m : Step) : Prop :=
  (∀ a, m = .act a → StaysOut r w o.st.docs o.seen a) ∧
    ∀ entries, m.entries w o.st = some entries → SpellingFree r w ∧
      ∀ i d, o.st.docs i = some d → d.isCcRoot = true → d.uri ∈ entries.map (entryUri r)

/-- **Every step keeps the flags in step** with the list. -/
theorem FlagsMatch.step {o : Observed (List CStr)} (h : StoreOk r o.st.docs)
    (hm : FlagsMatch o.st.docs o.seen) {x : World × Step}
    (hx : Observed.Allowed parse r (KeepsListing r) o x) :
    FlagsMatch (Observed.step parse (noteListed r) o x).st.docs
      (Observed.step parse (noteListed r) o x).seen := by
  obtain ⟨w, m⟩ := x
  obtain ⟨hw, hn, hact, hload⟩ := hx
  have hother : m.entries w o.st = none → (∀ a, m ≠ .act a) →
      FlagsMatch (m.apply w parse o.st).docs (noteListed r o.st w m o.seen) := by
    intro hnone hne
    rw [noteListed, hnone, Step.docs_eq]
    cases m with
    | act a => exact absurd rfl (hne a)
    | _ =>
      simp only [hnone]
      exact hm
  cases hent : m.entries w o.st with
  | none =>
    cases m with
    | act a => exact hm.act h hw.governs hn.1 (carries w parse _ a) (hact a rfl)
    | _ => exact hother hent (by rintro a ⟨⟩)
  | some entries =>
    obtain ⟨hfree, hflagged⟩ := hload entries hent
    have hdocs : (m.apply w parse o.st).docs = loadCompileEntries w parse o.st.docs entries := by
      rw [Step.docs_eq]
      cases m with
      | act a => cases hent
      | _ => simp only [hent, Option.elim_some]
    intro i d hd
    have hseen : (Observed.step parse (noteListed r) o (w, m)).seen
        = entries.map (entryUri r) := by
      rw [Observed.step, noteListed, hent]
      rfl
    rw [hseen]
    have hd' : loadCompileEntries w parse o.st.docs entries i = some d := by
      rw [← hdocs]
      exact hd
    have hnamed : ∀ file ∈ entries, r.uris (pathToUri file) := by
      cases m with
      | act a => cases hent
      | ask method params => cases hent
      | _ => exact hn entries hent
    exact loadCompileEntries_flags h hw hfree hnamed hflagged hd'

/-- **The roots are the listed documents.**  In a run in which no list that is loaded leaves out a
flagged document, and listed documents that are not in the store stay out, a parsed document is
the root of a compile_commands project if and only if it is on the list last loaded. -/
theorem roots_match_listing {parse : CStr → ParseOutput} {r : Resolver}
    {o : Observed (List CStr)}
    (h : Observed.Run parse (noteListed r) r (KeepsListing r) [] o) {ws : WorkspaceSnapshot}
    (hws : o.st.ws = some ws) {i : Slot} {d : Document} (hd : o.st.docs i = some d)
    (hparsed : d.snap.isSome) :
    (∃ project ∈ ws.projects, project.id = d.uri ∧ project.fromCompileCommands = true) ↔
      d.uri ∈ o.seen := by
  have hinv : StoreOk r o.st.docs ∧ FlagsMatch o.st.docs o.seen := by
    refine Runs.Reached.invariant (I := fun o => StoreOk r o.st.docs ∧ FlagsMatch o.st.docs o.seen)
      ⟨storeOk_empty r, fun i d hd => by cases hd⟩ ?_ h
    intro o x ho hx
    exact ⟨ho.1.step hx.suits hx.named, ho.2.step ho.1 hx⟩
  rcases Observed.run_published h with ⟨realpath, status, -, hbuild⟩ | ⟨hnone, -⟩
  · rw [hws, build_eq, Option.some.injEq] at hbuild
    have hroot : isRoot o.st.docs i = true ↔ d.isCcRoot = true := by
      rw [isRoot, hd, Option.any_some, hparsed, Bool.and_true]
    rw [hbuild]
    exact (exists_root_project hinv.1.unique status hd).trans (hroot.trans (hinv.2 i d hd))
  · rw [hws] at hnone
    cases hnone

end Proofs

/-! ### A listed file that is deleted and created again -/

/-- A file system with a compile_commands.json in its root that lists `/a.tjp`. -/
def listingSystem (files : List (String × String)) : World :=
  { fileSystem files with
    stat := fun path => if path = cstr "/compile_commands.json" then some ⟨1, 0, 0⟩ else none
    readJson := fun path => if path = cstr "/compile_commands.json" then
      some (.arr [.obj [("file", .str (cstr "/a.tjp"))]]) else none }

/-- The one URI that is looked up. -/
def listedUris : List CStr := [cstr "file:///a.tjp"]

/-- Some events, one after the other, each with the files there are at its time. -/
def listingRun (events : List (List (String × String) × Event)) : Observed (List CStr) :=
  Observed.events blankParse (noteListed (lexicalResolver listedUris)) ⟨initialState, []⟩
    (events.map fun x => (listingSystem x.1, x.2))

/-- The client says where the workspace is, and the server loads the list. -/
def startListing (files : List (String × String)) : List (List (String × String) × Event) :=
  [(files, .initRequest (some (.obj [("rootUri", .str (cstr "file:///"))]))), (files, .initialized)]

/-- The files of the start: the one that is listed. -/
def listedFile : List (String × String) := [("file:///a.tjp", "\n")]

theorem suits_listedFile : (lexicalResolver listedUris).Suits blankParse (listingSystem listedFile) :=
  suits_of_suitable (by decide +kernel)

/-- Loading the list for the first time leaves out nothing. -/
theorem run_startListing : Observed.Run blankParse (noteListed (lexicalResolver listedUris))
    (lexicalResolver listedUris) (KeepsListing (lexicalResolver listedUris)) []
    (listingRun (startListing listedFile)) := by
  have hroot : Observed.Run blankParse (noteListed (lexicalResolver listedUris))
      (lexicalResolver listedUris) (KeepsListing (lexicalResolver listedUris)) []
      (listingRun ((startListing listedFile).take 1)) := by
    refine Observed.Run.input .start _ suits_listedFile (by decide +kernel) ?_
    intro m hm o
    rw [List.mem_singleton.mp hm]
    exact ⟨nofun, nofun⟩
  have hrest : ∀ called, Runs.Meets
      (Observed.step blankParse (noteListed (lexicalResolver listedUris)))
      (fun o x => KeepsListing (lexicalResolver listedUris) o x.1 x.2)
      (Observed.step blankParse (noteListed (lexicalResolver listedUris))
        (listingRun ((startListing listedFile).take 1)) (listingSystem listedFile, .reload))
      ((revalidation called).map fun m => (listingSystem listedFile, m)) := by
    intro called
    cases called with
    | false => trivial
    | true =>
      have hnone : Step.entries (listingSystem listedFile)
          (reloadCompileCommands (listingSystem listedFile) blankParse
            (listingRun ((startListing listedFile).take 1)).st) .poll = none := by
        decide +kernel
      refine ⟨⟨nofun, fun entries hent => ?_⟩, ⟨nofun, nofun⟩, trivial⟩
      exact absurd (hnone.symm.trans hent) nofun
  refine hroot.next .initialized suits_listedFile (by decide +kernel)
    ⟨⟨nofun, fun entries _ => ⟨?_, ?_⟩⟩, hrest _⟩
  · have hfree : SpellingFree (lexicalResolver listedUris) (fileSystem listedFile) :=
      spellingFree_fileSystem (by decide +kernel)
    exact hfree
  · rintro i d ⟨⟩

/-- The list is loaded, and the document on it is a root. -/
theorem roots_match_listing_started :
    ∃ ws d, (listingRun (startListing listedFile)).st.ws = some ws ∧
      (listingRun (startListing listedFile)).st.docs 0 = some d ∧
      ∃ project ∈ ws.projects, project.id = d.uri ∧ project.fromCompileCommands = true := by
  have hpublished : (listingRun (startListing listedFile)).st.ws.isSome = true := by
    decide +kernel
  have hdoc : ((listingRun (startListing listedFile)).st.docs 0).map
      (fun d => (d.uri, d.snap.isSome)) = some (cstr "file:///a.tjp", true) := by decide +kernel
  have hseen : (listingRun (startListing listedFile)).seen = [cstr "file:///a.tjp"] := by
    decide +kernel
  obtain ⟨ws, hws⟩ := Option.isSome_iff_exists.mp hpublished
  obtain ⟨d, hd, hdoc⟩ := Option.map_eq_some_iff.mp hdoc
  obtain ⟨huri, hparsed⟩ := Prod.mk.inj hdoc
  refine ⟨ws, d, hws, hd, (roots_match_listing run_startListing hws hd hparsed).mpr ?_⟩
  rw [hseen, huri]
  exact List.mem_singleton_self _

/-- A listed root file is deleted and created again: it is listed, and no longer a root. -/
theorem recreated_file_not_root :
    ¬ ∀ (parse : CStr → ParseOutput) (r : Resolver) (o : Observed (List CStr)),
      Observed.Run parse (noteListed r) r (fun _ _ _ => True) [] o →
      ∀ ws, o.st.ws = some ws → ∀ i d, o.st.docs i = some d → d.snap.isSome →
        ((∃ project ∈ ws.projects, project.id = d.uri ∧ project.fromCompileCommands = true) ↔
          d.uri ∈ o.seen) := by
  intro h
  let events := startListing listedFile ++ [([], watchMessage "file:///a.tjp" 3),
    (listedFile, watchMessage "file:///a.tjp" 1)]
  have hrun : Observed.Run blankParse (noteListed (lexicalResolver listedUris))
      (lexicalResolver listedUris) (fun _ _ _ => True) [] (listingRun events) := by
    refine Observed.Run.events .start (fun x hx => ?_) (by decide +kernel)
    obtain ⟨y, hy, rfl⟩ := List.mem_map.mp hx
    simp only [events, startListing, List.cons_append, List.nil_append, List.mem_cons,
      List.not_mem_nil, or_false] at hy
    rcases hy with rfl | rfl | rfl | rfl
    · exact suits_listedFile
    · exact suits_listedFile
    · exact suits_of_suitable (by decide +kernel)
    · exact suits_listedFile
  have hws : ((listingRun events).st.ws.map fun ws =>
      ws.projects.map (·.fromCompileCommands)) = some [false] := by decide +kernel
  have hdoc : ((listingRun events).st.docs 0).map (fun d => (d.uri, d.snap.isSome))
      = some (cstr "file:///a.tjp", true) := by decide +kernel
  have hseen : cstr "file:///a.tjp" ∈ (listingRun events).seen := by decide +kernel
  obtain ⟨ws, hws, hprojects⟩ := Option.map_eq_some_iff.mp hws
  obtain ⟨d, hd, hdoc⟩ := Option.map_eq_some_iff.mp hdoc
  obtain ⟨huri, hparsed⟩ := Prod.mk.inj hdoc
  obtain ⟨project, hmem, -, hcc⟩ := (h _ _ _ hrun ws hws 0 d hd hparsed).mpr (by rwa [huri])
  have hmap := List.mem_map_of_mem (f := (·.fromCompileCommands)) hmem
  rw [hprojects, List.mem_singleton, hcc] at hmap
  cases hmap

end TaskjugglerLsp
