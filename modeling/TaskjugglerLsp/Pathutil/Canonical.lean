import Mathlib.Data.List.TakeWhile
import TaskjugglerLsp.Pathutil

/-!
# Canonical URIs

A path without NUL survives the trip through a URI (`uriToPath_pathToUri`), and a
path that is normalized is normalized to itself (`lexicalNormalizePath_idem`).
So a URI that has been resolved is resolved to itself
(`normalizeUri_idem_of_resolved`, `normalizeUri_none_idem`).
-/

namespace TaskjugglerLsp

/-! ### Percent encoding -/

theorem hexValue_hexDigit : ∀ n : Fin 16, hexValue (hexDigit (UInt8.ofNat n)) =
    some (UInt8.ofNat n) := by
  decide

theorem escape_nibbles : ∀ n : Fin 256, ∃ hi lo : Fin 16,
    UInt8.ofFin n >>> 4 = UInt8.ofNat hi ∧ UInt8.ofFin n &&& 15 = UInt8.ofNat lo ∧
      UInt8.ofNat hi * 16 + UInt8.ofNat lo = UInt8.ofFin n := by
  intro n
  refine ⟨⟨n / 16, by omega⟩, ⟨n % 16, by omega⟩, ?_⟩
  revert n
  decide +kernel

theorem percentDecodeBytes_escape (c : UInt8) (rest : CStr) :
    percentDecodeBytes (37 :: hexDigit (c >>> 4) :: hexDigit (c &&& 15) :: rest)
      = c :: percentDecodeBytes rest := by
  obtain ⟨hi, lo, hhi, hlo, hc⟩ := escape_nibbles c.toFin
  rw [UInt8.ofFin_toFin] at hhi hlo hc
  rw [percentDecodeBytes, hhi, hlo, hexValue_hexDigit, hexValue_hexDigit]
  simp only [hc]

theorem percentDecodeBytes_cons {c : UInt8} (h : c ≠ 37) (rest : CStr) :
    percentDecodeBytes (c :: rest) = c :: percentDecodeBytes rest := by
  rw [percentDecodeBytes]
  rintro a b rest' rfl
  exact absurd rfl h

theorem percentDecodeBytes_percentEncodePath (path : CStr) :
    percentDecodeBytes (percentEncodePath path) = path := by
  induction path with
  | nil => rfl
  | cons c path ih =>
    unfold percentEncodePath at ih ⊢
    rw [List.flatMap_cons]
    by_cases hc : unreserved c = true
    · have hne : c ≠ 37 := by
        rintro rfl
        exact absurd hc (by decide)
      rw [if_pos hc, List.singleton_append, percentDecodeBytes_cons hne, ih]
    · rw [if_neg hc, List.cons_append, List.cons_append, List.singleton_append,
        percentDecodeBytes_escape, ih]

theorem cutNul_eq {path : CStr} (h : 0 ∉ path) : cutNul path = path := by
  rw [cutNul, List.takeWhile_eq_self_iff]
  intro c hc
  rw [bne_iff_ne]
  rintro rfl
  exact h hc

theorem zero_notMem_cutNul (bytes : List UInt8) : 0 ∉ cutNul bytes := by
  intro h
  have := List.mem_takeWhile_imp h
  simp at this

/-- **A path survives the trip through a URI.** -/
theorem uriToPath_pathToUri {path : CStr} (h : 0 ∉ path) :
    uriToPath (pathToUri path) = some path := by
  have htake : (pathToUri path).take 7 = fileScheme := rfl
  have hdrop : (pathToUri path).drop 7 = percentEncodePath path := rfl
  rw [uriToPath, if_pos htake, hdrop, percentDecode, percentDecodeBytes_percentEncodePath, cutNul_eq h]

theorem zero_notMem_uriToPath {uri path : CStr} (h : uriToPath uri = some path) : 0 ∉ path := by
  unfold uriToPath at h
  split at h
  · cases h
    exact zero_notMem_cutNul _
  · cases h

/-! ### Lexical normalization -/

/-- A segment that normalization keeps. -/
def keptSegment (seg : CStr) : Bool := seg != [] && seg != [46]

theorem notMem_of_mem_splitOn {sep : UInt8} {path seg : CStr} (h : seg ∈ path.splitOn sep) :
    sep ∉ seg := by
  induction path generalizing seg with
  | nil =>
    rw [List.splitOn_nil, List.mem_singleton] at h
    subst h
    exact List.not_mem_nil
  | cons c path ih =>
    rw [List.splitOn_cons_eq_if_modifyHead] at h
    split at h
    · rcases List.mem_cons.mp h with rfl | h
      · exact List.not_mem_nil
      · exact ih h
    · rename_i hc
      cases hp : path.splitOn sep with
      | nil => exact absurd hp (List.splitOn_ne_nil _ _)
      | cons first segs =>
        rw [hp, List.modifyHead_cons, List.mem_cons] at h
        rcases h with rfl | h
        · rw [List.mem_cons, not_or]
          refine ⟨fun hs => hc (by rw [hs, beq_self_eq_true]), ih ?_⟩
          rw [hp]
          exact List.mem_cons_self
        · refine ih ?_
          rw [hp]
          exact List.mem_cons_of_mem _ h

/-- The segments that normalization keeps of a path that it has put together. -/
theorem segments_intercalate {segs : List CStr} (hsep : ∀ seg ∈ segs, 47 ∉ seg)
    (hkept : ∀ seg ∈ segs, keptSegment seg = true) :
    ((List.intercalate [47] segs).splitOn 47).filter keptSegment = segs := by
  cases segs with
  | nil => rfl
  | cons seg segs =>
    rw [List.splitOn_intercalate 47 hsep (List.cons_ne_nil _ _), List.filter_eq_self]
    exact hkept

theorem head_intercalate {segs : List CStr} (hsep : ∀ seg ∈ segs, 47 ∉ seg)
    (hkept : ∀ seg ∈ segs, keptSegment seg = true) :
    (List.intercalate [47] segs).head? ≠ some 47 := by
  cases segs with
  | nil => simp
  | cons seg segs =>
    have hk := hkept seg List.mem_cons_self
    have hs := hsep seg List.mem_cons_self
    cases seg with
    | nil => exact absurd hk (by decide)
    | cons c seg =>
      have hc : c ≠ 47 := by
        rintro rfl
        exact hs List.mem_cons_self
      cases segs with
      | nil => simpa using hc
      | cons => simpa [List.intercalate_cons_cons] using hc

/-- **Normalizing twice is normalizing once.** -/
theorem lexicalNormalizePath_idem (path : CStr) :
    lexicalNormalizePath (lexicalNormalizePath path) = lexicalNormalizePath path := by
  have hsep : ∀ seg ∈ (path.splitOn 47).filter keptSegment, 47 ∉ seg :=
    fun seg hseg => notMem_of_mem_splitOn (List.mem_filter.mp hseg).1
  have hkept : ∀ seg ∈ (path.splitOn 47).filter keptSegment, keptSegment seg = true :=
    fun seg hseg => (List.mem_filter.mp hseg).2
  have hunfold : ∀ p : CStr, lexicalNormalizePath p = (if p.head? = some 47 then [47] else [])
      ++ List.intercalate [47] ((p.splitOn 47).filter keptSegment) := fun p => rfl
  rw [hunfold path]
  generalize (path.splitOn 47).filter keptSegment = segs at hsep hkept
  by_cases hp : path.head? = some 47
  · have hfilter : (((47 : UInt8) :: List.intercalate [47] segs).splitOn 47).filter keptSegment
        = segs := by
      rw [List.splitOn_cons_eq_if_modifyHead, if_pos (beq_self_eq_true _),
        List.filter_cons_of_neg (by decide), segments_intercalate hsep hkept]
    rw [if_pos hp, List.singleton_append, hunfold, hfilter, List.head?_cons, if_pos rfl]
    rfl
  · rw [if_neg hp, List.nil_append, hunfold, segments_intercalate hsep hkept,
      if_neg (head_intercalate hsep hkept), List.nil_append]

theorem mem_of_mem_intercalate {sep c : UInt8} {parts : List CStr}
    (h : c ∈ List.intercalate [sep] parts) : c = sep ∨ ∃ part ∈ parts, c ∈ part := by
  induction parts with
  | nil => cases h
  | cons part parts ih =>
    cases parts with
    | nil => exact Or.inr ⟨part, List.mem_cons_self, by simpa using h⟩
    | cons next parts =>
      rw [List.intercalate_cons_cons, List.mem_append, List.mem_append, List.mem_singleton] at h
      rcases h with (h | h) | h
      · exact Or.inr ⟨part, List.mem_cons_self, h⟩
      · exact Or.inl h
      · rcases ih h with h | ⟨part', hpart', h⟩
        · exact Or.inl h
        · exact Or.inr ⟨part', List.mem_cons_of_mem _ hpart', h⟩

theorem zero_notMem_lexicalNormalizePath {path : CStr} (h : 0 ∉ path) :
    0 ∉ lexicalNormalizePath path := by
  have hsplit : ∀ seg ∈ path.splitOn 47, (0 : UInt8) ∉ seg := by
    intro seg hseg h0
    refine h ?_
    rw [← @List.intercalate_splitOn _ path _ _ 47]
    generalize path.splitOn 47 = segs at hseg ⊢
    induction segs with
    | nil => cases hseg
    | cons first segs ih =>
      cases segs with
      | nil =>
        rw [List.mem_singleton] at hseg
        subst hseg
        simpa using h0
      | cons next segs =>
        rw [List.intercalate_cons_cons, List.mem_append, List.mem_append]
        rcases List.mem_cons.mp hseg with rfl | hseg
        · exact Or.inl (Or.inl h0)
        · exact Or.inr (ih hseg)
  intro h0
  rcases List.mem_append.mp h0 with h0 | h0
  · split at h0
    · exact absurd h0 (by decide)
    · cases h0
  · rcases mem_of_mem_intercalate h0 with h0 | ⟨seg, hseg, h0⟩
    · exact absurd h0 (by decide)
    · exact hsplit seg (List.mem_filter.mp hseg).1 h0

/-! ### A URI that is resolved -/

/-- **Resolving a resolved URI** changes nothing where `realpath` answers a path of its own. -/
theorem normalizeUri_idem_of_resolved {realpath : CStr → Option CStr} {uri path real : CStr}
    (hp : uriToPath uri = some path) (hr : realpath path = some real)
    (hreal : realpath real = some real) (h0 : 0 ∉ real) :
    normalizeUri realpath (normalizeUri realpath uri) = normalizeUri realpath uri := by
  have hcanon : normalizeUri realpath uri = pathToUri real := by
    rw [normalizeUri, hp]
    simp only [hr, Option.getD_some]
  rw [hcanon, normalizeUri, uriToPath_pathToUri h0]
  simp only [hreal, Option.getD_some]

theorem normalizeUri_none_idem (uri : CStr) :
    normalizeUri (fun _ => none) (normalizeUri (fun _ => none) uri)
      = normalizeUri (fun _ => none) uri := by
  unfold normalizeUri
  cases hp : uriToPath uri with
  | none => simp only [hp]
  | some path =>
    have h0 := zero_notMem_uriToPath hp
    simp only [Option.getD_none, uriToPath_pathToUri (zero_notMem_lexicalNormalizePath h0),
      lexicalNormalizePath_idem]

/-- The lexical way to resolve some URIs. -/
def lexicalResolver (uris : List CStr) : Resolver :=
  ⟨(· ∈ uris), normalizeUri fun _ => none, normalizeUri_none_idem⟩

instance (uris : List CStr) : DecidablePred (lexicalResolver uris).uris :=
  inferInstanceAs (DecidablePred (· ∈ uris))

end TaskjugglerLsp
