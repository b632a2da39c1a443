import TaskjugglerLsp.Lifecycle.CompileRoots
import TaskjugglerLsp.Lifecycle.Independence
import TaskjugglerLsp.Workspace.Assembly

/-!
# Prefixes along a chain of includes

A file without a prefix of its own in the include that names it should take over
those of its includer.  `follow_includes` copies the prefixes of the one include, so
this holds where the last include carries a prefix, or none before it does
(`chain_prefix`); `prefix_not_inherited` is a chain of two includes where it fails.
-/

namespace TaskjugglerLsp

open Lib

section Chains

variable (r : Resolver) (parse : CStr → ParseOutput) (s : Store)

/-- The document in slot `i` includes the one in slot `j`, with those prefixes. -/
def Includes (i j : Slot) (ps : PrefixSet) : Prop :=
  ∃ d e, s i = some d ∧ s j = some e ∧ (e.uri, ps) ∈ d.directives r parse

/-- A chain of includes from a document, with the prefixes that each of them carries. -/
inductive IncludeChain (root : Slot) : Slot → List PrefixSet → Prop
  | nil : IncludeChain root root []
  | snoc {i j : Slot} {edges : List PrefixSet} {ps : PrefixSet} (h : IncludeChain root i edges)
      (hi : Includes r parse s i j ps) : IncludeChain root j (edges ++ [ps])

/-- The prefix of the last include that carries one for the kind. -/
def effectivePrefix (edges : List PrefixSet) (k : PrefixKind) : Option CStr :=
  edges.reverse.findSome? fun ps => ps k

/-- A document's includes of one document end with that one. -/
def LastInclude (i j : Slot) (ps : PrefixSet) : Prop :=
  ∃ d e, s i = some d ∧ s j = some e ∧ lastFor (d.directives r parse) e.uri = some ps

/-- The declaration as the last child of the node that the path names, if there is one. -/
def placeUnder (uri : CStr) (path : Option CStr) (t : ProjectNode) (decl : TjNode) : ProjectNode :=
  match findNodeByDottedPath t path (nodeKindOf decl.keyword) with
  | none => t
  | some target => t.appendChild target (projectNodeFromTj uri decl)

end Chains

section Placing

variable {d : Document} {decl : TjNode} {k : PrefixKind}

theorem effectivePrefix_concat (edges : List PrefixSet) (ps : PrefixSet) (k : PrefixKind) :
    effectivePrefix (edges ++ [ps]) k = (ps k).or (effectivePrefix edges k) := by
  rw [effectivePrefix, List.reverse_concat, List.findSome?_cons]
  cases ps k <;> rfl

theorem copyDeclaration_eq (hk : (nodeKindOf decl.keyword).prefixKind = some k) (t : ProjectNode) :
    copyDeclaration d t decl = placeUnder d.uri (d.prefixes k) t decl := by
  rw [copyDeclaration, hk]
  rfl

end Placing

section Published

variable {r : Resolver} {parse : CStr → ParseOutput} {realpath realpath' : CStr → Option CStr}

theorem built_congr (hw : r.Governs realpath) (hw' : r.Governs realpath') {s : Store}
    (hok : StoreOk r s) (status : CcStatus) :
    built realpath s status = built realpath' s status := by
  have hfind : ∀ {uri}, r.uris uri → docFind realpath s uri = docFind realpath' s uri := by
    intro uri hn
    rw [docFind, docFind, hw uri hn, hw' uri hn]
  have hincluded : includedDocs realpath s = includedDocs realpath' s := by
    funext i
    rw [includedDocs, includedDocs]
    cases hd : s i with
    | none => rfl
    | some d => exact List.filterMap_congr fun uri hmem => by rw [hfind (hok.listed i d hd uri hmem)]
  have hclosure : includeClosure realpath s = includeClosure realpath' s := by
    funext i
    rw [includeClosure, includeClosure, hincluded]
  have hclaim : claimOf realpath s = claimOf realpath' s := by
    funext roots i
    rw [claimOf, claimOf, hclosure]
  have hroot : rootProject realpath s = rootProject realpath' s := by
    funext i
    rw [rootProject, rootProject, hclosure]
  have horphans : allOrphans realpath s = allOrphans realpath' s := by
    rw [allOrphans, allOrphans, orphansIn, orphansIn, hclaim]
  have hstamp : finalStamp realpath s = finalStamp realpath' s := by
    funext i
    rw [finalStamp, finalStamp, stampOf, stampOf, hclaim, horphans]
  rw [built, built, hstamp, hroot, horphans]

/-- **Every declaration of a document, of one kind, is placed under a path**: in each published
project, in the tree that has been assembled when its turn comes. -/
def PlacedUnder (realpath : CStr → Option CStr) (st : ServerState) (j : Slot) (k : PrefixKind)
    (path : Option CStr) : Prop :=
  ∀ p project, (publishedProjects st)[p]? = some project →
    project.root = (copySteps st.docs (copiedDocs realpath st.docs p)).foldl (copyStep st.docs) .empty ∧
    ∀ before n after d decl,
      copySteps st.docs (copiedDocs realpath st.docs p) = before ++ (j, n) :: after →
      declarationAt st.docs (j, n) = some (d, decl) →
      (nodeKindOf decl.keyword).prefixKind = some k →
      copyStep st.docs (before.foldl (copyStep st.docs) .empty) (j, n)
        = placeUnder d.uri path (before.foldl (copyStep st.docs) .empty) decl

theorem Published.placedUnder {st : ServerState} (h : Published r st) (hok : StoreOk r st.docs)
    (hw : r.Governs realpath) {j : Slot} {d : Document} (hd : st.docs j = some d) (k : PrefixKind) :
    PlacedUnder realpath st j k (d.prefixes k) := by
  intro p project hp
  constructor
  · rcases h with ⟨realpath', status, hw', hws⟩ | ⟨hws, -⟩
    · have hbuilt : st.ws = some (built realpath' st.docs status) := hws.trans (build_eq realpath' _ _)
      rw [publishedProjects, hbuilt, built_congr hw' hw hok] at hp
      obtain ⟨i, d', -, rfl, -⟩ := (projects_at status).mp hp
      exact assembled_eq _
    · rw [publishedProjects, hws] at hp
      cases hp
  · intro before n after d' decl _ hdecl hk
    obtain ⟨e, he, hdecl'⟩ := Option.bind_eq_some_iff.mp hdecl
    obtain ⟨decl', hdecl', heq⟩ := Option.bind_eq_some_iff.mp hdecl'
    obtain ⟨rfl, rfl⟩ := Prod.mk.inj (Option.some.inj heq)
    obtain rfl := Option.some.inj (hd.symm.trans he)
    rw [copyStep, hdecl]
    exact copyDeclaration_eq hk _

end Published

section Results

variable {r : Resolver} {parse : CStr → ParseOutput} {w : World} {s : Store} {root i j : Slot}
  {edges : List PrefixSet} {ps : PrefixSet} {γ : Type} {note : ServerState → World → Step → γ → γ}

theorem mem_of_lastFor {ds : List (CStr × PrefixSet)} {uri : CStr} (h : lastFor ds uri = some ps) :
    (uri, ps) ∈ ds := by
  obtain ⟨d, hd, rfl⟩ := Option.map_eq_some_iff.mp h
  have huri := List.find?_some hd
  rw [← of_decide_eq_true huri]
  exact List.mem_reverse.mp (List.mem_of_find?_eq_some hd)

theorem LastInclude.includes (h : LastInclude r parse s i j ps) : Includes r parse s i j ps := by
  obtain ⟨d, e, hd, he, hlast⟩ := h
  exact ⟨d, e, hd, he, mem_of_lastFor hlast⟩

theorem Includes.mem_includedDocs (hok : StoreOk r s) (hw : r.Governs w.realpath)
    (hp : PrefixesOk r parse s) (hparsed : ∀ i d, s i = some d → ParsedOk parse d)
    (h : Includes r parse s i j ps) : j ∈ includedDocs w.realpath s i := by
  obtain ⟨d, e, hd, he, hmem⟩ := h
  have huri : e.uri ∈ d.includedUris.map r.canon := by
    rw [hp.includes i d hd]
    exact List.mem_map_of_mem hmem
  obtain ⟨uri, huri, hcanon⟩ := List.mem_map.mp huri
  obtain ⟨snap, -, hsnap, -⟩ := hparsed j e he
  rw [includedDocs, hd, List.mem_filterMap]
  refine ⟨uri, huri, ?_⟩
  rw [(hok.docFind_iff hw (hok.listed i d hd uri huri)).mpr ⟨e, he, hcanon.symm⟩, Option.filter_some,
    if_pos (parsed_iff.mpr ⟨e, snap, he, hsnap⟩)]

/-- A chain stays within the include closure of its root. -/
theorem IncludeChain.reaches (hok : StoreOk r s) (hw : r.Governs w.realpath)
    (hp : PrefixesOk r parse s) (hparsed : ∀ i d, s i = some d → ParsedOk parse d)
    (h : IncludeChain r parse s root j edges) : Reaches w.realpath s root j := by
  induction h with
  | nil => exact .refl
  | snoc _ hi ih => exact ih.tail (hi.mem_includedDocs hok hw hp hparsed)

/-- **The prefix along a chain.**  In a run that meets the conditions the tree of a root at the head
of a chain of includes has the declarations of the last document, under the prefix of the last
include that carries one, if this is the last one of the chain or none of them carries one. -/
theorem chain_prefix {seen : γ} {o : Observed γ}
    (h : Observed.Run parse note r (KeepsPrefixes r parse) seen o) (hw : r.Governs w.realpath)
    (hchain : IncludeChain r parse o.st.docs root i edges)
    (hlast : LastInclude r parse o.st.docs i j ps) {k : PrefixKind}
    (hk : ps k = none → effectivePrefix edges k = none) :
    (∀ p : ℕ, (allRoots o.st.docs)[p]? = some root → j ∈ copiedDocs w.realpath o.st.docs p) ∧
      PlacedUnder w.realpath o.st j k (effectivePrefix (edges ++ [ps]) k) := by
  have hok := Observed.run_storeOk h
  have hp := Observed.run_prefixesOk h
  have hparsed := Observed.run_parsedOk h
  constructor
  · intro p hroot
    rw [mem_copiedDocs_root hroot]
    exact (hchain.snoc hlast.includes).reaches hok hw hp hparsed
  · obtain ⟨d, e, hd, he, hlast⟩ := hlast
    have hdir : Directs r parse o.st.docs e.uri ps := ⟨i, d, hd, hlast⟩
    have hprefix : e.prefixes = ps := by
      rcases hp.labels j e he with hlabel | ⟨hno, -⟩
      · exact hp.agree j e he e.prefixes ps hlabel hdir
      · exact absurd hdir (hno ps)
    have heffective : effectivePrefix (edges ++ [ps]) k = e.prefixes k := by
      rw [effectivePrefix_concat, hprefix]
      cases hps : ps k with
      | none => rw [hk hps, Option.or_none]
      | some path => rw [Option.some_or]
    rw [heffective]
    exact (Observed.run_published h).placedUnder hok hw he k

end Results

/-! ### A chain of two includes, and of one -/

/-- Some events in a file system with a compile_commands.json that lists `/a.tjp`. -/
def chainRun (files : List (String × String)) (events : List Event) : Observed Unit :=
  Observed.events includeParse (fun _ _ _ => id) ⟨initialState, ()⟩
    (events.map fun e => (listingSystem files, e))

/-- The client says where the workspace is. -/
def rootMessage : Event := .initRequest (some (.obj [("rootUri", .str (cstr "file:///"))]))

/-- A root includes a file under a task, and this file includes another one. -/
def chainFiles : List (String × String) :=
  [("file:///a.tjp", outerText), ("file:///b.tji", middleText), ("file:///c.tji", innerText)]

/-- Their URIs. -/
def chainUris : List CStr := [cstr "file:///a.tjp", cstr "file:///b.tji", cstr "file:///c.tji"]

/-- The third file of the chain is not placed under the task. -/
theorem prefix_not_inherited :
    ¬ ∀ (parse : CStr → ParseOutput) (r : Resolver) (o : Observed Unit),
      Observed.Run parse (fun _ _ _ => id) r (fun _ _ _ => True) () o →
      ∀ (w : World), r.Governs w.realpath → ∀ root i j edges ps,
        IncludeChain r parse o.st.docs root i edges → Includes r parse o.st.docs i j ps →
        ∀ k, PlacedUnder w.realpath o.st j k (effectivePrefix (edges ++ [ps]) k) := by
  intro h
  have hw : (lexicalResolver chainUris).Suits includeParse (listingSystem chainFiles) :=
    suits_of_suitable (by decide +kernel)
  have hrun : Observed.Run includeParse (fun _ _ _ => id) (lexicalResolver chainUris)
      (fun _ _ _ => True) () (chainRun chainFiles [rootMessage, .initialized]) := by
    refine Observed.Run.events .start (fun x hx => ?_) (by decide +kernel)
    obtain ⟨e, -, rfl⟩ := List.mem_map.mp hx
    exact hw
  -- the chain, and the prefixes that its two includes carry
  have hfirst : ((chainRun chainFiles [rootMessage, .initialized]).st.docs 0).map (fun d =>
      (d.directives (lexicalResolver chainUris) includeParse).map fun p => (p.1, p.2 .task))
      = some [(cstr "file:///b.tji", some (cstr "x"))] := by decide +kernel
  have hsecond : ((chainRun chainFiles [rootMessage, .initialized]).st.docs 1).map (fun d =>
      (d.uri, (d.directives (lexicalResolver chainUris) includeParse).map fun p => (p.1, p.2 .task)))
      = some (cstr "file:///b.tji", [(cstr "file:///c.tji", none)]) := by decide +kernel
  have hthird : ((chainRun chainFiles [rootMessage, .initialized]).st.docs 2).map (·.uri)
      = some (cstr "file:///c.tji") := by decide +kernel
  obtain ⟨a, ha, hdirs⟩ := Option.map_eq_some_iff.mp hfirst
  obtain ⟨b, hb, hb'⟩ := Option.map_eq_some_iff.mp hsecond
  obtain ⟨huri, hdirs'⟩ := Prod.mk.inj hb'
  obtain ⟨c, hc, huri'⟩ := Option.map_eq_some_iff.mp hthird
  obtain ⟨⟨u, ps⟩, hp, heq⟩ := List.map_eq_singleton_iff.mp hdirs
  obtain ⟨rfl, hps⟩ := Prod.mk.inj heq
  obtain ⟨⟨u', ps'⟩, hp', heq'⟩ := List.map_eq_singleton_iff.mp hdirs'
  obtain ⟨rfl, hps'⟩ := Prod.mk.inj heq'
  have hplaced := h _ _ _ hrun (listingSystem chainFiles) hw.governs 0 1 2 _ ps'
    (.snoc .nil ⟨a, b, ha, hb, by rw [hp, huri]; exact List.mem_singleton_self _⟩)
    ⟨b, c, hb, hc, by rw [hp', huri']; exact List.mem_singleton_self _⟩ .task
  have hpath : effectivePrefix ([] ++ [ps] ++ [ps']) .task = some (cstr "x") := by
    rw [effectivePrefix_concat, effectivePrefix_concat]
    simp only at hps hps'
    rw [hps, hps']
    rfl
  rw [hpath] at hplaced
  -- the task of the third file has its turn after that of the first
  have hproject : (publishedProjects (chainRun chainFiles [rootMessage, .initialized]).st)[0]?.isSome := by
    decide +kernel
  obtain ⟨project, hproject⟩ := Option.isSome_iff_exists.mp hproject
  have hdecl : (declarationAt (chainRun chainFiles [rootMessage, .initialized]).st.docs (2, 0)).map
      (fun q => ((nodeKindOf q.2.keyword).prefixKind, (placeUnder q.1.uri (some (cstr "x"))
        ([(0, 0)].foldl (copyStep (chainRun chainFiles [rootMessage, .initialized]).st.docs) .empty)
        q.2).children.length)) = some (some .task, 1) := by decide +kernel
  obtain ⟨q, hq, hvalues⟩ := Option.map_eq_some_iff.mp hdecl
  obtain ⟨hkind, hlength⟩ := Prod.mk.inj hvalues
  have hstep := (hplaced 0 project hproject).2 [(0, 0)] 0 [] q.1 q.2 (by decide +kernel) hq hkind
  rw [← hstep] at hlength
  exact absurd hlength (by decide +kernel)

/-- The files of a chain of one include, where the root is open in the editor. -/
def includedFile : List (String × String) := [("file:///b.tji", innerText)]

/-- The task of the included file is placed under the task that the include names. -/
theorem chain_prefix_opened :
    PlacedUnder (listingSystem includedFile).realpath
      (chainRun includedFile [rootMessage, openMessage "file:///a.tjp" outerText]).st 1 .task
      (some (cstr "x")) := by
  have hw : (lexicalResolver includeUris).Suits includeParse (listingSystem includedFile) :=
    suits_of_suitable (by decide +kernel)
  have hspelled : SpellingFree (lexicalResolver includeUris) (fileSystem includedFile) :=
    spellingFree_fileSystem (by decide +kernel)
  have hfree : SpellingFree (lexicalResolver includeUris) (listingSystem includedFile) := hspelled
  have hblank : FilesPlain (lexicalResolver includeUris) includeParse (fileSystem includedFile) :=
    filesPlain_of_blank (by decide +kernel)
  have hfiles : FilesPlain (lexicalResolver includeUris) includeParse (listingSystem includedFile) :=
    hblank
  have hroot : Observed.Run includeParse (fun _ _ _ => id) (lexicalResolver includeUris)
      (KeepsPrefixes (lexicalResolver includeUris) includeParse) ()
      (chainRun includedFile [rootMessage]) := by
    refine Observed.Run.next .start _ hw (by decide +kernel) ⟨?_, trivial⟩
    refine keepsPrefixes_of_same (fun _ => rfl) (by rintro a ⟨⟩) hfree hfiles ?_
    intro i d hd
    cases hd
  have hrun : Observed.Run includeParse (fun _ _ _ => id) (lexicalResolver includeUris)
      (KeepsPrefixes (lexicalResolver includeUris) includeParse) ()
      (chainRun includedFile [rootMessage, openMessage "file:///a.tjp" outerText]) :=
    hroot.next _ hw (by decide +kernel) (meets_open 0 hfree hfiles (by decide +kernel)
      (by decide +kernel) (by decide +kernel) (by decide +kernel))
  have hlast : ((chainRun includedFile [rootMessage, openMessage "file:///a.tjp" outerText]).st.docs
      0).bind (fun d => ((chainRun includedFile
        [rootMessage, openMessage "file:///a.tjp" outerText]).st.docs 1).bind fun e =>
          (lastFor (d.directives (lexicalResolver includeUris) includeParse) e.uri).map fun ps => ps .task)
      = some (some (cstr "x")) := by decide +kernel
  obtain ⟨d, hd, hrest⟩ := Option.bind_eq_some_iff.mp hlast
  obtain ⟨e, he, hrest⟩ := Option.bind_eq_some_iff.mp hrest
  obtain ⟨ps, hps, htask⟩ := Option.map_eq_some_iff.mp hrest
  have hpath : effectivePrefix ([] ++ [ps]) .task = some (cstr "x") := by
    rw [effectivePrefix_concat, htask]
    rfl
  rw [← hpath]
  apply And.right
  refine chain_prefix hrun hw.governs .nil ⟨d, e, hd, he, hps⟩ fun hnone => ?_
  rw [htask] at hnone
  cases hnone

end TaskjugglerLsp
