import TaskjugglerLsp.Grammar.References
import TaskjugglerLsp.Lexer.Words
import TaskjugglerLsp.ProjectTree.Resolution

/-!
# The segments of references

The paths of the references of a document stand one after the other in the text, each without a gap
but for comments, and no two of them touch.  So `last_ident_in_range` marks the last identifier of
the path whose range it is given, and never one of another reference.

* `Stmt.paths_in`: where the paths of a statement stand.
* `ParsesTo.refs_apart`: they are apart.
* `reference_segments`: what is highlighted of a reference.
-/

namespace TaskjugglerLsp

open Lib Lib.Lr

namespace Stmt

mutual

/-- **The references of a statement** in the order of the text: their bangs and their segments. -/
def paths : Stmt → List (List Token × List Token)
  | ref bangs segs body => (bangs, segs) :: pathsAll body
  | top body | project _ _ _ body _ | symbol _ _ _ body _ | declare _ _ _ body _ | incl _ body
  | block body => pathsAll body
  | _ => []

def pathsAll : List Stmt → List (List Token × List Token)
  | [] => []
  | st :: sts => paths st ++ pathsAll sts

end

end Stmt

/-! ### Paths in a row -/

/-- **References in a row** among some tokens, each path without a gap. -/
def PathsIn : List (List Token × List Token) → List Token → Prop
  | [], _ => True
  | p :: ps, ts => ∃ gap path rest, ts = gap ++ path ++ rest ∧ IsPath p.2 path ∧ PathsIn ps rest

namespace PathsIn

variable {ps qs : List (List Token × List Token)} {ts us : List Token}

theorem pad (h : PathsIn ps ts) (before after : List Token) :
    PathsIn ps (before ++ ts ++ after) := by
  induction ps generalizing before ts with
  | nil => exact trivial
  | cons p ps ih =>
    obtain ⟨gap, path, rest, rfl, hpath, hrest⟩ := h
    refine ⟨before ++ gap, path, rest ++ after, by simp, hpath, ?_⟩
    exact ih hrest []

theorem append (h : PathsIn ps ts) (h' : PathsIn qs us) : PathsIn (ps ++ qs) (ts ++ us) := by
  induction ps generalizing ts with
  | nil => simpa using h'.pad ts []
  | cons p ps ih =>
    obtain ⟨gap, path, rest, rfl, hpath, hrest⟩ := h
    exact ⟨gap, path, rest ++ us, by simp, hpath, ih hrest⟩

theorem exists_path (h : PathsIn ps ts) {p : List Token × List Token} (hp : p ∈ ps) :
    ∃ before path after, ts = before ++ path ++ after ∧ IsPath p.2 path := by
  induction ps generalizing ts with
  | nil => cases hp
  | cons q ps ih =>
    obtain ⟨gap, path, rest, rfl, hpath, hrest⟩ := h
    rcases List.mem_cons.mp hp with rfl | hp
    · exact ⟨gap, path, rest, rfl, hpath⟩
    · obtain ⟨before, path', after, rfl, hpath'⟩ := ih hrest hp
      exact ⟨gap ++ path ++ before, path', after, by simp, hpath'⟩

end PathsIn

theorem IsPath.subset {segs path : List Token} (h : IsPath segs path) : segs ⊆ path := by
  rw [← h.segs_eq]
  exact List.filter_subset_self _

/-- A relation between the tokens in their order is one between paths in a row. -/
theorem PathsIn.pairwise {R : Token → Token → Prop} {ps : List (List Token × List Token)}
    {ts : List Token} (h : PathsIn ps ts) (hR : ts.Pairwise R) :
    ps.Pairwise fun p q => ∀ t ∈ p.2, ∀ u ∈ q.2, R t u := by
  induction ps generalizing ts with
  | nil => exact .nil
  | cons p ps ih =>
    obtain ⟨gap, path, rest, rfl, hpath, hrest⟩ := h
    obtain ⟨-, hrestR, hcross⟩ := List.pairwise_append.mp hR
    refine List.pairwise_cons.mpr ⟨fun q hq t ht u hu => ?_, ih hrest hrestR⟩
    obtain ⟨before, path', after, rfl, hpath'⟩ := hrest.exists_path hq
    refine hcross t (List.mem_append_right _ (hpath.subset ht)) u ?_
    exact List.mem_append_left _ (List.mem_append_right _ (hpath'.subset hu))

namespace Stmt

theorem pathsAll_in {sts : List Stmt}
    (h : ∀ st ∈ sts, ∀ ts, Spells false st ts → PathsIn st.paths ts) :
    ∀ ts, SpellsAll false sts ts → PathsIn (pathsAll sts) ts := by
  induction sts with
  | nil => exact fun _ _ => trivial
  | cons st sts ih =>
    obtain ⟨hst, hsts⟩ := List.forall_mem_cons.mp h
    intro ts hts
    obtain ⟨gap, own, rest, rfl, hown, hrest⟩ := hts
    have hpaths := ((hst own hown).pad gap []).append (ih hsts rest hrest)
    rwa [List.append_nil] at hpaths

/-- **The paths of a statement** stand in a row among its tokens. -/
theorem paths_in (st : Stmt) : ∀ ts, Spells false st ts → PathsIn st.paths ts := by
  induction st using Stmt.induct with
  | h st ih =>
    intro ts hts
    have hall := pathsAll_in ih
    have hbody {stop : LspPos} {us : List Token}
        (h : InBody (SpellsAll false st.body) (st.body = []) stop us) :
        PathsIn (pathsAll st.body) us := by
      cases h with
      | none hempty _ =>
        rw [hempty]
        exact trivial
      | @braces l r inner hl hr hinner hstop => exact (hall inner hinner).pad [l] [r]
    have hbehind (before tail : List Token) {ps : List (List Token × List Token)}
        (h : PathsIn ps tail) : PathsIn ps (before ++ tail) := by
      simpa using h.pad before []
    cases st with
    | top | block => exact hall ts hts
    | project kw id name body stop =>
      obtain ⟨mid, tail, rfl, -, -, h⟩ := hts
      exact hbehind (kw :: mid) tail (hbody h)
    | symbol kw id name body stop =>
      obtain ⟨mid, tail, rfl, -, -, h⟩ := hts
      exact hbehind (kw :: mid) tail (hbody h)
    | declare kw id name body stop =>
      obtain ⟨mid, tail, rfl, -, -, h⟩ := hts
      exact hbehind (kw :: mid) tail (hbody h)
    | ref bangs segs body =>
      obtain ⟨path, tail, stop, rfl, -, hpath, h⟩ := hts
      exact ⟨bangs, path, tail, rfl, hpath, hbody h⟩
    | incl file body =>
      obtain ⟨kw, tail, stop, rfl, -, h⟩ := hts
      exact hbehind [kw, file] tail (hbody h)
    | _ => exact trivial

theorem refsInAll_subperm {sts : List Stmt} (h : ∀ st ∈ sts, ∀ task,
      ((st.refsIn task).map (·.2)).Subperm (st.paths.map fun p => taskRefOf p.1 p.2)) :
    ∀ task, ((refsInAll task sts).map (·.2)).Subperm
      ((pathsAll sts).map fun p => taskRefOf p.1 p.2) := by
  induction sts with
  | nil => exact fun _ => List.nil_subperm
  | cons st sts ih =>
    obtain ⟨hst, hsts⟩ := List.forall_mem_cons.mp h
    intro task
    rw [refsInAll, pathsAll, List.map_append, List.map_append]
    exact (hst task).append (ih hsts task)

theorem refsIn_subperm (st : Stmt) : ∀ task,
    ((st.refsIn task).map (·.2)).Subperm (st.paths.map fun p => taskRefOf p.1 p.2) := by
  induction st using Stmt.induct with
  | h st ih =>
    intro task
    have hall := refsInAll_subperm ih
    cases st with
    | top | block | project | declare | incl => exact hall task
    | symbol kw id name body stop =>
      exact hall (if kw.kind = kwTask then some (headingOf kw id name stop) else task)
    | ref bangs segs body =>
      have hown : ((task.map fun info => (info, taskRefOf bangs segs)).toList.map (·.2)).Subperm
          [taskRefOf bangs segs] := by
        cases task with
        | none => exact List.nil_subperm
        | some info => exact List.Subperm.refl _
      rw [refsIn, List.map_append]
      exact List.perm_append_comm.subperm.trans (hown.append (hall task))
    | _ => exact List.nil_subperm

end Stmt

/-! ### References are apart -/

/-- Two ranges do not even touch. -/
def TaskRef.Apart (a b : TaskRef) : Prop := a.stop.key < b.start.key ∨ b.stop.key < a.start.key

theorem TaskRef.Apart.symm {a b : TaskRef} (h : a.Apart b) : b.Apart a := Or.symm h

theorem InPlace.exists_mark {tokens : List Token} {spans : List TokenSpan}
    (h : InPlace tokens spans) {t : Token} (ht : t ∈ tokens) (hkind : t.kind ≠ tkRbrace) :
    ∃ x ∈ spans, x.mark = t.mark := by
  obtain ⟨real, missing, last, hsub, hmarks, -⟩ := h
  rcases List.mem_append.mp (hsub.subset ht) with ht | ht
  · have hmem : t.mark ∈ spanMarks spans := hmarks ▸ List.mem_map_of_mem ht
    obtain ⟨x, hx, hxt⟩ := List.mem_map.mp hmem
    exact ⟨x, List.mem_of_mem_filter hx, hxt⟩
  · rw [List.eq_of_mem_replicate ht] at hkind
    exact absurd rfl hkind

/-- The ends of a path. -/
structure IsPath.Ends (segs path : List Token) (first last : Token) : Prop where
  first_eq : path.head? = some first
  last_eq : path.getLast? = some last
  first_mem : first ∈ segs
  last_mem : last ∈ segs
  ref_eq : ∀ bangs, (taskRefOf bangs segs).start = first.start ∧
    (taskRefOf bangs segs).stop = last.stop

theorem IsPath.exists_ends {segs path : List Token} (h : IsPath segs path) :
    ∃ first last, IsPath.Ends segs path first last := by
  obtain ⟨first, hfirst⟩ : ∃ first, segs.head? = some first := ⟨_, List.head?_eq_some_head h.ne_nil⟩
  obtain ⟨last, hlast⟩ : ∃ last, segs.getLast? = some last :=
    ⟨_, List.getLast?_eq_some_getLast h.ne_nil⟩
  refine ⟨first, last, h.head_eq.trans hfirst, h.last_eq.trans hlast, List.mem_of_mem_head? hfirst,
    List.mem_of_mem_getLast? hlast, fun bangs => ⟨?_, ?_⟩⟩
  · rw [taskRefOf, hfirst, Option.getD_some]
  · rw [taskRefOf, hlast, Option.getD_some]

theorem IsPath.kind_mem {segs path : List Token} (h : IsPath segs path) {t : Token}
    (ht : t ∈ segs) : (t.kind = tkIdent ∨ t.kind = kw "start") ∧ t.kind ∈ wordKinds := by
  have hdot : t.kind ≠ tkDot := by
    rw [← h.segs_eq] at ht
    simpa using (List.mem_filter.mp ht).2
  have hkinds : tkIdent ∈ wordKinds ∧ kw "start" ∈ wordKinds := by decide +kernel
  rcases h.kinds t (h.subset ht) with hk | hk | hk
  · exact absurd hk hdot
  · exact ⟨.inl hk, hk ▸ hkinds.1⟩
  · exact ⟨.inr hk, hk ▸ hkinds.2⟩

section Parses

variable {κ : Type*} [DecidableEq κ] {T : Tables κ NonTerm SemAction} {s t : ProgState}
  {text : CStr} {doc : SynTree} {out : ParseResult}

/-- **The references of a document**: their bangs and their segments. -/
def documentPaths (doc : SynTree) : List (List Token × List Token) := Stmt.pathsAll (doc.stmts [])

theorem ParsesTo.words (hT : T.Sound grammar yyError) (hs : ParseHistory T s)
    (h : ParsesTo T s text doc t out) : ∀ x ∈ out.tokSpans, x.tokenKind ∈ wordKinds →
      (∃ word, x.text = some word ∧ IsWord word) ∧
      ∀ y ∈ out.tokSpans, y.tokenKind ∈ wordKinds → x.stop ≠ y.start := by
  obtain ⟨input, hscan, hreached, htokens⟩ := h.reached hT hs
  rw [htokens]
  intro x hx hword
  refine ⟨?_, fun y hy hyword => words_apart hscan hreached hx hy hword hyword⟩
  obtain ⟨pre, word, post, hspan⟩ := wordSpan_of_reached hreached x hx hword
  exact ⟨word, hspan.text, hspan.isWord⟩

theorem ParsesTo.segments_apart (hT : T.Sound grammar yyError) (hs : ParseHistory T s)
    (h : ParsesTo T s text doc t out) {t u : Token} (ht : t ∈ doc.toks) (hu : u ∈ doc.toks)
    (htword : t.kind ∈ wordKinds) (huword : u.kind ∈ wordKinds) (hle : t.stop.key ≤ u.start.key) :
    t.stop.key < u.start.key := by
  obtain ⟨-, hplace⟩ := h.spells hT hs
  have hkinds : ∀ k ∈ wordKinds, k ≠ tkRbrace := by decide +kernel
  obtain ⟨x, hx, hxt⟩ := hplace.exists_mark ht (hkinds _ htword)
  obtain ⟨y, hy, hyu⟩ := hplace.exists_mark hu (hkinds _ huword)
  simp only [TokenSpan.mark, Token.mark, Prod.mk.injEq] at hxt hyu
  refine Nat.lt_of_le_of_ne hle fun hsame => ?_
  refine (h.words hT hs x hx (hxt.1 ▸ htword)).2 y hy (hyu.1 ▸ huword) ?_
  rw [hxt.2.2.1, hyu.2.1]
  exact LspPos.key_inj hsame

theorem ParsesTo.paths_in (hT : T.Sound grammar yyError) (hs : ParseHistory T s)
    (h : ParsesTo T s text doc t out) : PathsIn (documentPaths doc) doc.toks :=
  Stmt.pathsAll_in (fun st _ => st.paths_in) doc.toks (h.spells hT hs).1

theorem ParsesTo.paths_apart (hT : T.Sound grammar yyError) (hs : ParseHistory T s)
    (h : ParsesTo T s text doc t out) :
    (documentPaths doc).Pairwise fun p q => ∀ t ∈ p.2, ∀ u ∈ q.2, t.stop.key < u.start.key := by
  obtain ⟨-, hplace⟩ := h.spells hT hs
  have hpaths := h.paths_in hT hs
  have hmem {p : List Token × List Token} (hp : p ∈ documentPaths doc) {t : Token}
      (ht : t ∈ p.2) : t ∈ doc.toks ∧ t.kind ∈ wordKinds := by
    obtain ⟨before, path, after, htoks, hpath⟩ := hpaths.exists_path hp
    refine ⟨?_, (hpath.kind_mem ht).2⟩
    rw [htoks]
    exact List.mem_append_left _ (List.mem_append_right _ (hpath.subset ht))
  have hordered := hpaths.pairwise hplace.inSequence.ordered
  refine hordered.imp_of_mem fun hp hq hpq t ht u hu => ?_
  obtain ⟨ht', htword⟩ := hmem hp ht
  obtain ⟨hu', huword⟩ := hmem hq hu
  exact h.segments_apart hT hs ht' hu' htword huword (hpq t ht u hu)

/-- The ends of the reference of a path are segments of it. -/
theorem ParsesTo.path_ends (hT : T.Sound grammar yyError) (hs : ParseHistory T s)
    (h : ParsesTo T s text doc t out) {p : List Token × List Token} (hp : p ∈ documentPaths doc) :
    ∃ first ∈ p.2, ∃ last ∈ p.2,
      (taskRefOf p.1 p.2).start = first.start ∧ (taskRefOf p.1 p.2).stop = last.stop := by
  obtain ⟨_, path, _, -, hpath⟩ := (h.paths_in hT hs).exists_path hp
  obtain ⟨first, last, hends⟩ := hpath.exists_ends
  exact ⟨first, hends.first_mem, last, hends.last_mem, hends.ref_eq p.1⟩

/-- The references of a document do not touch. -/
theorem ParsesTo.taskRefs_apart (hT : T.Sound grammar yyError) (hs : ParseHistory T s)
    (h : ParsesTo T s text doc t out) :
    ((documentPaths doc).map fun p => taskRefOf p.1 p.2).Pairwise TaskRef.Apart := by
  rw [List.pairwise_map]
  refine (h.paths_apart hT hs).imp_of_mem fun {p q} hp hq hpq => .inl ?_
  obtain ⟨_, -, last, hlast, -, hstop⟩ := h.path_ends hT hs hp
  obtain ⟨first, hfirst, _, -, hstart, -⟩ := h.path_ends hT hs hq
  rw [hstop, hstart]
  exact hpq last hlast first hfirst

theorem documentRefs_subperm (doc : SynTree) : ((documentRefs doc).map (·.2)).Subperm
    ((documentPaths doc).map fun p => taskRefOf p.1 p.2) :=
  Stmt.refsInAll_subperm (fun st (_ : st ∈ doc.stmts []) => st.refsIn_subperm) none

/-- **The dependencies of a document are apart.** -/
theorem ParsesTo.refs_apart (hT : T.Sound grammar yyError) (hs : ParseHistory T s)
    (h : ParsesTo T s text doc t out) :
    (documentRefs doc).Pairwise fun a b => a.2.Apart b.2 := by
  obtain ⟨refs, hperm, hsub⟩ := documentRefs_subperm doc
  rw [← List.pairwise_map (f := fun r : TjInfo × TaskRef => r.2)]
  exact hperm.pairwise ((h.taskRefs_apart hT hs).sublist hsub) fun hab => hab.symm

end Parses

/-! ### What is highlighted -/

/-- The identifiers of a reference. -/
def identSegments (segs : List Token) : List Token := segs.filter fun t => t.kind == tkIdent

/-- The range of a token. -/
def Token.range (t : Token) : LspRange := ⟨t.start, t.stop⟩

/-- The path of a reference among the tokens that have been taken. -/
theorem exists_real_path {before path after rest real : List Token} {brace : Token} {missing : ℕ}
    (h : before ++ path ++ after ++ rest = real ++ List.replicate missing brace)
    {last : Token} (hlast : path.getLast? = some last) (hbrace : last ≠ brace) :
    ∃ more, real = before ++ path ++ more := by
  rw [List.append_assoc] at h
  rcases List.append_eq_append_iff.mp h with ⟨more, hreal, -⟩ | ⟨more, hpath, hbraces⟩
  · exact ⟨more, hreal⟩
  · rcases List.eq_nil_or_concat more with rfl | ⟨init, brace', rfl⟩
    · rw [List.append_nil] at hpath
      exact ⟨[], by rw [List.append_nil, hpath]⟩
    · have hend : some brace' = some last := by
        have hend := congrArg List.getLast? hpath
        rw [List.getLast?_append, hlast] at hend
        simpa using hend.symm
      have hmem : brace' ∈ List.replicate missing brace := by
        rw [hbraces]
        simp
      rw [Option.some.inj hend] at hmem
      exact absurd (List.eq_of_mem_replicate hmem) hbrace

theorem IsPath.Ends.within {segs path : List Token} {first last : Token}
    (h : IsPath.Ends segs path first last) (hseq : InSequence path) :
    ∀ t ∈ path, first.start.key ≤ t.start.key ∧ t.stop.key ≤ last.stop.key := by
  intro t ht
  obtain ⟨front, hfront⟩ := List.getLast?_eq_some_iff.mp h.last_eq
  obtain ⟨more, hmore⟩ := List.head?_eq_some_iff.mp h.first_eq
  constructor
  · have hordered := hseq.ordered
    rw [hmore] at ht hordered
    rcases List.mem_cons.mp ht with rfl | ht
    · exact Nat.le_refl _
    · have hle := hseq.le first (by rw [hmore]; simp)
      exact hle.trans ((List.pairwise_cons.mp hordered).1 t ht)
  · have hordered := hseq.ordered
    rw [hfront] at ht hordered
    rcases List.mem_append.mp ht with ht | ht
    · have hle := hseq.le last (by rw [hfront]; simp)
      exact ((List.pairwise_append.mp hordered).2.2 t ht last (by simp)).trans hle
    · rw [List.mem_singleton.mp ht]

theorem filter_marks {spans : List TokenSpan} {tokens : List Token}
    (h : spans.map TokenSpan.mark = tokens.map Token.mark) (k : ℕ) :
    (spans.filter fun x => x.tokenKind == k).map TokenSpan.mark
      = (tokens.filter fun t => t.kind == k).map Token.mark := by
  have hfilter := congrArg (List.filter fun m : Mark => m.1 == k) h
  rw [List.filter_map, List.filter_map] at hfilter
  exact hfilter

section Parses

variable {κ : Type*} [DecidableEq κ] {T : Tables κ NonTerm SemAction} {s t : ProgState}
  {text : CStr} {doc : SynTree} {out : ParseResult}

/-- **What `last_ident_in_range` finds** in the range of a reference. -/
theorem ParsesTo.lastIdent (hT : T.Sound grammar yyError) (hs : ParseHistory T s)
    (h : ParsesTo T s text doc t out) {p : List Token × List Token} (hp : p ∈ documentPaths doc) :
    lastIdentInRange out.tokSpans ⟨(taskRefOf p.1 p.2).start, (taskRefOf p.1 p.2).stop⟩
      = (identSegments p.2).getLast?.map Token.range := by
  obtain ⟨-, hplace⟩ := h.spells hT hs
  obtain ⟨real, missing, rest, end_, hreal, hmarks, hinOrder, -⟩ := h.taken hT hs
  obtain ⟨before, path, after, htoks, hpath⟩ := (h.paths_in hT hs).exists_path hp
  obtain ⟨first, last, hends⟩ := hpath.exists_ends
  have hseq : InSequence path := by
    refine hplace.inSequence.sublist ?_
    rw [htoks]
    exact (List.sublist_append_right _ _).trans (List.sublist_append_left _ _)
  have hwithin := hends.within hseq
  rw [show leafToks doc.yield = before ++ path ++ after from htoks] at hreal
  have hbrace : last ≠ (missingBrace end_).val := by
    intro heq
    have hkinds : ∀ k ∈ wordKinds, k ≠ tkRbrace := by decide +kernel
    exact hkinds _ (hpath.kind_mem hends.last_mem).2 (congrArg Token.kind heq)
  obtain ⟨more, rfl⟩ := exists_real_path hreal hends.last_eq hbrace
  -- the spans before the path, those of the path, and those behind it
  rw [List.map_append, List.map_append, spanMarks] at hmarks
  obtain ⟨front, back, hspans, hfront, -⟩ := List.map_eq_append_iff.mp hmarks.symm
  obtain ⟨early, own, rfl, -, hown⟩ := List.map_eq_append_iff.mp hfront
  have hordered := hinOrder.ordered.sublist (List.filter_sublist (p := fun x => !x.isRemark))
  rw [hspans] at hordered
  obtain ⟨hearly, -, hbehind⟩ := List.pairwise_append.mp hordered
  obtain ⟨-, -, hcross⟩ := List.pairwise_append.mp hearly
  have hspan {x : TokenSpan} (hx : x ∈ early ++ own ++ back) : x ∈ out.tokSpans := by
    rw [← hspans] at hx
    exact List.mem_of_mem_filter hx
  have hat {x : TokenSpan} (hx : x ∈ own) : ∃ t ∈ path, t.mark = x.mark := by
    rw [← List.mem_map, ← hown]
    exact List.mem_map_of_mem hx
  obtain ⟨x₀, hx₀, hfirst⟩ : ∃ x ∈ own, x.mark = first.mark := by
    rw [← List.mem_map, hown]
    exact List.mem_map_of_mem (List.mem_of_mem_head? hends.first_eq)
  obtain ⟨x₁, hx₁, hlast⟩ : ∃ x ∈ own, x.mark = last.mark := by
    rw [← List.mem_map, hown]
    exact List.mem_map_of_mem (List.mem_of_mem_getLast? hends.last_eq)
  simp only [TokenSpan.mark, Token.mark, Prod.mk.injEq] at hfirst hlast
  rw [(hends.ref_eq p.1).1, (hends.ref_eq p.1).2, lastIdentInRange]
  have hremark : out.tokSpans.filter (fun t => t.tokenKind == tkIdent
      && !decide (t.start.before first.start) && !decide (last.stop.before t.start))
      = (early ++ own ++ back).filter fun t => t.tokenKind == tkIdent
        && !decide (t.start.before first.start) && !decide (last.stop.before t.start) := by
    rw [← hspans, List.filter_filter]
    refine List.filter_congr fun x _ => ?_
    by_cases hident : x.tokenKind = tkIdent
    · have hno : x.isRemark = false := by
        rw [TokenSpan.isRemark, hident]
        rfl
      rw [hno, Bool.not_false, Bool.and_true]
    · rw [beq_false_of_ne hident]
      rfl
  have hnone : early.filter (fun t => t.tokenKind == tkIdent
      && !decide (t.start.before first.start) && !decide (last.stop.before t.start)) = [] := by
    refine List.filter_eq_nil_iff.mpr fun x hx => ?_
    have hlt : x.start.before first.start := by
      rw [LspPos.before_iff_key, ← hfirst.2.1]
      have hproper := hinOrder.nonempty x (hspan (by simp [hx]))
      exact hproper.trans_le (hcross x hx x₀ hx₀)
    simp [hlt]
  have hall : own.filter (fun t => t.tokenKind == tkIdent
      && !decide (t.start.before first.start) && !decide (last.stop.before t.start))
      = own.filter fun t => t.tokenKind == tkIdent := by
    refine List.filter_congr fun x hx => ?_
    obtain ⟨u, hu, hux⟩ := hat hx
    simp only [TokenSpan.mark, Token.mark, Prod.mk.injEq] at hux
    have hfrom : ¬ x.start.before first.start := by
      rw [LspPos.before_iff_key, ← hux.2.1]
      exact Nat.not_lt.mpr (hwithin u hu).1
    have hto : ¬ last.stop.before x.start := by
      rw [LspPos.before_iff_key, ← hux.2.1]
      exact Nat.not_lt.mpr ((hseq.le u hu).trans (hwithin u hu).2)
    simp [hfrom, hto]
  have hafter : back.filter (fun t => t.tokenKind == tkIdent
      && !decide (t.start.before first.start) && !decide (last.stop.before t.start)) = [] := by
    refine List.filter_eq_nil_iff.mpr fun x hx => ?_
    by_cases hident : x.tokenKind = tkIdent
    · have hle := hbehind x₁ (List.mem_append_right _ hx₁) x hx
      have hne : x₁.stop ≠ x.start := by
        refine (h.words hT hs x₁ (hspan (by simp [hx₁])) ?_).2 x (hspan (by simp [hx])) ?_
        · rw [hlast.1]
          exact (hpath.kind_mem hends.last_mem).2
        · rw [hident]
          exact List.mem_cons_self
      have hlt : last.stop.before x.start := by
        rw [LspPos.before_iff_key, ← hlast.2.2.1]
        exact Nat.lt_of_le_of_ne hle fun hsame => hne (LspPos.key_inj hsame)
      simp [hlt]
    · simp [hident]
  have hsegments : identSegments p.2 = path.filter fun t => t.kind == tkIdent := by
    rw [identSegments, ← hpath.segs_eq, List.filter_filter]
    refine List.filter_congr fun t _ => ?_
    by_cases hident : t.kind = tkIdent
    · rw [hident]
      rfl
    · rw [beq_false_of_ne hident]
      rfl
  have hranges : (own.filter fun x => x.tokenKind == tkIdent).map
      (fun t => (⟨t.start, t.stop⟩ : LspRange))
      = (path.filter fun t => t.kind == tkIdent).map Token.range := by
    have hmarks := congrArg (List.map fun m : Mark => (⟨m.2.1, m.2.2.1⟩ : LspRange))
      (filter_marks hown tkIdent)
    rw [List.map_map, List.map_map] at hmarks
    exact hmarks
  rw [hremark, List.filter_append, List.filter_append, hnone, hall, hafter, List.nil_append,
    List.append_nil, ← List.getLast?_map, hranges, List.getLast?_map, hsegments]

/-- **What is highlighted of the references of a document**: the last segment of each that is not
the keyword `start`, and nothing twice. -/
theorem reference_segments (hT : T.Sound grammar yyError) (hs : ParseHistory T s)
    (h : ParsesTo T s text doc t out) :
    ((documentRefs doc).map (·.2)).Subperm
      ((documentPaths doc).map fun p => taskRefOf p.1 p.2) ∧
    (∀ p ∈ documentPaths doc,
      lastIdentInRange out.tokSpans ⟨(taskRefOf p.1 p.2).start, (taskRefOf p.1 p.2).stop⟩
        = (identSegments p.2).getLast?.map Token.range) ∧
    ((documentPaths doc).filterMap fun p => (identSegments p.2).getLast?).Pairwise
      fun a b => a.stop.key < b.start.key := by
  refine ⟨documentRefs_subperm doc, fun p hp => h.lastIdent hT hs hp, ?_⟩
  rw [List.pairwise_filterMap]
  refine (h.paths_apart hT hs).imp fun {p q} hpq a ha b hb => ?_
  have hsegment {r : List Token × List Token} {c : Token}
      (hc : (identSegments r.2).getLast? = some c) : c ∈ r.2 :=
    List.mem_of_mem_filter (List.mem_of_mem_getLast? hc)
  exact hpq a (hsegment ha) b (hsegment hb)

end Parses

/-! ### Two references -/

theorem relatedText_paths : (treeUpTo coreTables 400 .boot relatedText).map (fun x =>
    (documentPaths x.2).map fun p => (p.1.length, (identSegments p.2).map Token.range))
    = some [(0, [⟨⟨0, 20⟩, ⟨0, 21⟩⟩]), (1, [⟨⟨0, 44⟩, ⟨0, 45⟩⟩])] := by
  decide +kernel

/-- The references of this document. -/
theorem reference_segments_related : ∃ doc t out,
    ParsesTo coreTables .boot relatedText doc t out ∧ (documentPaths doc).length = 2 ∧
    ((documentRefs doc).map (·.2)).Subperm
      ((documentPaths doc).map fun p => taskRefOf p.1 p.2) ∧
    (∀ p ∈ documentPaths doc,
      lastIdentInRange out.tokSpans ⟨(taskRefOf p.1 p.2).start, (taskRefOf p.1 p.2).stop⟩
        = (identSegments p.2).getLast?.map Token.range) ∧
    ((documentPaths doc).filterMap fun p => (identSegments p.2).getLast?).Pairwise
      fun a b => a.stop.key < b.start.key := by
  obtain ⟨doc, t, out, hp, hpaths⟩ := exists_parsesTo relatedText_paths
  refine ⟨doc, t, out, hp, ?_, reference_segments coreTables_sound .boot hp⟩
  have hlength := congrArg List.length hpaths
  rwa [List.length_map] at hlength

end TaskjugglerLsp
