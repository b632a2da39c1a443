import Mathlib.Logic.Relation
import TaskjugglerLsp.Pathutil.Canonical

/-!
# The spellings of a URI

A byte of a path can stand in a URI as it is or escaped, with digits of either case, and a path can
have more slashes than it needs and components that stay where they are.  Where no file decides,
all spellings are resolved to one.

* `spelled_iff`: what the spellings of some bytes are decoded to.
* `PathStep.normalize`: what normalization does not see.
* `uri_codec`: the round trip, and the canonical spelling.
-/

namespace TaskjugglerLsp

/-! ### Escapes -/

/-- Two hexadecimal digits stand in front. -/
def BeginsHex (u : CStr) : Prop :=
  ∃ a b rest, u = a :: b :: rest ∧ (hexValue a).isSome = true ∧ (hexValue b).isSome = true

/-- **A spelling of some bytes**: each stands as it is or escaped; a `%` that begins no escape
stands for itself. -/
inductive SpellsBytes : CStr → List UInt8 → Prop
  | nil : SpellsBytes [] []
  | raw {c : UInt8} {u : CStr} {bytes : List UInt8} : (c = 37 → ¬ BeginsHex u) → SpellsBytes u bytes →
      SpellsBytes (c :: u) (c :: bytes)
  | escape {a b x y : UInt8} {u : CStr} {bytes : List UInt8} : hexValue a = some x →
      hexValue b = some y → SpellsBytes u bytes → SpellsBytes (37 :: a :: b :: u) ((x * 16 + y) :: bytes)

theorem percentDecodeBytes_percent {u : CStr} (h : ¬ BeginsHex u) :
    percentDecodeBytes (37 :: u) = 37 :: percentDecodeBytes u := by
  match u with
  | [] => rfl
  | [a] => rfl
  | a :: b :: rest =>
    rw [percentDecodeBytes]
    split
    · rename_i x y hx hy
      exact absurd ⟨a, b, rest, rfl, by rw [hx]; rfl, by rw [hy]; rfl⟩ h
    · rfl

theorem spelled_iff {u : CStr} {bytes : List UInt8} :
    SpellsBytes u bytes ↔ percentDecodeBytes u = bytes := by
  constructor
  · intro h
    induction h with
    | nil => rfl
    | @raw c u bytes hc _ ih =>
      by_cases hpercent : c = 37
      · subst hpercent
        rw [percentDecodeBytes_percent (hc rfl), ih]
      · rw [percentDecodeBytes_cons hpercent, ih]
    | escape ha hb _ ih =>
      rw [percentDecodeBytes, ha, hb]
      simp only [ih]
  · rintro rfl
    induction u using percentDecodeBytes.induct with
    | case1 a b rest x y hb ha ih =>
      rw [percentDecodeBytes, ha, hb]
      exact .escape ha hb ih
    | case2 a b rest hnone ih =>
      have hbegins : ¬ BeginsHex (a :: b :: rest) := by
        rintro ⟨a', b', rest', heq, ha, hb⟩
        simp only [List.cons.injEq] at heq
        obtain ⟨rfl, rfl, rfl⟩ := heq
        obtain ⟨x, hx⟩ := Option.isSome_iff_exists.mp ha
        obtain ⟨y, hy⟩ := Option.isSome_iff_exists.mp hb
        exact hnone x y hx hy
      rw [percentDecodeBytes_percent hbegins]
      exact .raw (fun _ => hbegins) ih
    | case3 c rest hrest ih =>
      have hraw : c = 37 → ¬ BeginsHex rest := by
        rintro rfl ⟨a, b, rest', rfl, -⟩
        exact hrest a b rest' rfl rfl
      by_cases hpercent : c = 37
      · subst hpercent
        rw [percentDecodeBytes_percent (hraw rfl)]
        exact .raw hraw ih
      · rw [percentDecodeBytes_cons hpercent]
        exact .raw hraw ih
    | case4 => exact .nil

/-! ### Paths -/

/-- **Paths that differ only** in a repeated slash or a component `.`, or in a slash behind the last
component. -/
inductive PathStep : List UInt8 → List UInt8 → Prop
  | slash (u v : List UInt8) : PathStep (u ++ 47 :: 47 :: v) (u ++ 47 :: v)
  | dot (u v : List UInt8) : PathStep (u ++ 47 :: 46 :: 47 :: v) (u ++ 47 :: v)
  | last_dot (u : List UInt8) : PathStep (u ++ [47, 46]) (u ++ [47])
  | first_dot (v : List UInt8) : v.head? ≠ some 47 → PathStep (46 :: 47 :: v) v
  | only_dot : PathStep [46] []
  | last_slash (u : List UInt8) : u ≠ [] → PathStep (u ++ [47]) u

/-- The segments that normalization keeps of a path. -/
def keptSegments (path : CStr) : List CStr := (path.splitOn 47).filter keptSegment

theorem keptSegments_append_slash (u v : CStr) :
    keptSegments (u ++ 47 :: v) = keptSegments u ++ keptSegments v := by
  have hsplit : (u ++ 47 :: v).splitOn 47 = u.splitOn 47 ++ v.splitOn 47 := by
    induction u with
    | nil =>
      rw [List.nil_append, List.splitOn_cons_eq_if_modifyHead, if_pos (beq_self_eq_true _),
        List.splitOn_nil]
      rfl
    | cons c u ih =>
      rw [List.cons_append, List.splitOn_cons_eq_if_modifyHead, List.splitOn_cons_eq_if_modifyHead, ih]
      split_ifs
      · rfl
      · cases h : u.splitOn 47 with
        | nil => exact absurd h (List.splitOn_ne_nil _ _)
        | cons seg segs => rfl
  unfold keptSegments
  rw [hsplit, List.filter_append]

/-- Normalization goes by whether a path is absolute, and the segments that are kept of it. -/
theorem lexicalNormalizePath_congr {p q : CStr} (hhead : p.head? = some 47 ↔ q.head? = some 47)
    (hsegs : keptSegments p = keptSegments q) : lexicalNormalizePath p = lexicalNormalizePath q := by
  have hunfold : ∀ path : CStr, lexicalNormalizePath path =
      (if path.head? = some 47 then [47] else []) ++ List.intercalate [47] (keptSegments path) :=
    fun path => rfl
  rw [hunfold, hunfold, hsegs]
  simp only [hhead]

theorem keptSegments_nil : keptSegments [] = [] := by decide

theorem keptSegments_dot : keptSegments [46] = [] := by decide

/-- **A step is not seen** by the normalization. -/
theorem PathStep.normalize {p q : List UInt8} (h : PathStep p q) :
    lexicalNormalizePath p = lexicalNormalizePath q := by
  have hhead : ∀ (u v w : List UInt8), (u ++ 47 :: v).head? = some 47 ↔
      (u ++ 47 :: w).head? = some 47 := by
    intro u v w
    cases u <;> simp
  have hslash : ∀ v, keptSegments (47 :: v) = keptSegments v :=
    fun v => keptSegments_append_slash [] v
  have hdot : ∀ v, keptSegments (46 :: 47 :: v) = keptSegments v := by
    intro v
    rw [← List.singleton_append, keptSegments_append_slash, keptSegments_dot, List.nil_append]
  cases h with
  | slash u v =>
    refine lexicalNormalizePath_congr (hhead u _ _) ?_
    rw [keptSegments_append_slash, keptSegments_append_slash, hslash]
  | dot u v =>
    refine lexicalNormalizePath_congr (hhead u _ _) ?_
    rw [keptSegments_append_slash, keptSegments_append_slash, hdot]
  | last_dot u =>
    refine lexicalNormalizePath_congr (hhead u _ _) ?_
    rw [keptSegments_append_slash, keptSegments_append_slash, keptSegments_dot, keptSegments_nil]
  | first_dot _ hv =>
    refine lexicalNormalizePath_congr ?_ (hdot q)
    simpa using hv
  | only_dot => rfl
  | last_slash _ hu =>
    refine lexicalNormalizePath_congr ?_ ?_
    · cases q with
      | nil => exact absurd rfl hu
      | cons => rfl
    · rw [keptSegments_append_slash, keptSegments_nil, List.append_nil]

theorem cutNul_append_of_mem {u : List UInt8} (h : 0 ∈ u) (v : List UInt8) :
    cutNul (u ++ v) = cutNul u := by
  induction u with
  | nil => cases h
  | cons c u ih =>
    unfold cutNul at ih ⊢
    rw [List.cons_append, List.takeWhile_cons, List.takeWhile_cons]
    split_ifs with hc
    · rcases List.mem_cons.mp h with rfl | h
      · cases hc
      · rw [ih h]
    · rfl

theorem cutNul_append {u : List UInt8} (h : 0 ∉ u) (v : List UInt8) :
    cutNul (u ++ v) = u ++ cutNul v := by
  unfold cutNul
  rw [List.takeWhile_append_of_pos]
  intro c hc
  rw [bne_iff_ne]
  rintro rfl
  exact h hc

/-- What a string function sees of two paths that differ in a step. -/
theorem PathStep.cutNul {p q : List UInt8} (h : PathStep p q) :
    cutNul p = cutNul q ∨ PathStep (cutNul p) (cutNul q) := by
  have hcons : ∀ {c : UInt8} (v : List UInt8), c ≠ 0 →
      TaskjugglerLsp.cutNul (c :: v) = c :: TaskjugglerLsp.cutNul v :=
    fun v hc => List.takeWhile_cons_of_pos (bne_iff_ne.mpr hc)
  have h46 : (46 : UInt8) ≠ 0 := by decide
  have h47 : (47 : UInt8) ≠ 0 := by decide
  have hnil : TaskjugglerLsp.cutNul [] = [] := rfl
  cases h with
  | slash u v =>
    by_cases hu : 0 ∈ u
    · exact .inl (by rw [cutNul_append_of_mem hu, cutNul_append_of_mem hu])
    · refine .inr ?_
      rw [cutNul_append hu, cutNul_append hu, hcons _ h47, hcons _ h47]
      exact .slash u _
  | dot u v =>
    by_cases hu : 0 ∈ u
    · exact .inl (by rw [cutNul_append_of_mem hu, cutNul_append_of_mem hu])
    · refine .inr ?_
      rw [cutNul_append hu, cutNul_append hu, hcons _ h47, hcons _ h46, hcons _ h47]
      exact .dot u _
  | last_dot u =>
    by_cases hu : 0 ∈ u
    · exact .inl (by rw [cutNul_append_of_mem hu, cutNul_append_of_mem hu])
    · refine .inr ?_
      rw [cutNul_append hu, cutNul_append hu, hcons _ h47, hcons _ h46, hcons _ h47, hnil]
      exact .last_dot u
  | first_dot _ hv =>
    refine .inr ?_
    rw [hcons _ h46, hcons _ h47]
    refine .first_dot _ ?_
    cases q with
    | nil => exact hv
    | cons c v =>
      by_cases hc : c = 0
      · subst hc
        exact nofun
      · rw [hcons _ hc]
        exact hv
  | only_dot => exact .inr .only_dot
  | last_slash _ hu =>
    by_cases hzero : 0 ∈ q
    · exact .inl (cutNul_append_of_mem hzero _)
    · refine .inr ?_
      rw [cutNul_append hzero, hcons _ h47, hnil, cutNul_eq hzero]
      exact .last_slash q hu

/-! ### The characters of a URI -/

/-- Unreserved characters and slashes, and escapes. -/
inductive Encoded : CStr → Prop
  | nil : Encoded []
  | keep {c : UInt8} {rest : CStr} :
      c ∈ cstr "/ABCDEFGHIJKLMNOPQRSTUVWXYZabcdefghijklmnopqrstuvwxyz0123456789-_.~" →
      Encoded rest → Encoded (c :: rest)
  | escape {a b : UInt8} {rest : CStr} : a ∈ cstr "0123456789ABCDEF" → b ∈ cstr "0123456789ABCDEF" →
      Encoded rest → Encoded (37 :: a :: b :: rest)

theorem unreserved_spec : ∀ n : Fin 256, unreserved (UInt8.ofFin n) = true →
    UInt8.ofFin n ∈ cstr "/ABCDEFGHIJKLMNOPQRSTUVWXYZabcdefghijklmnopqrstuvwxyz0123456789-_.~" := by
  decide +kernel

theorem hexDigit_spec : ∀ n : Fin 256, hexDigit (UInt8.ofFin n >>> 4) ∈ cstr "0123456789ABCDEF" ∧
    hexDigit (UInt8.ofFin n &&& 15) ∈ cstr "0123456789ABCDEF" := by
  decide +kernel

theorem encoded_percentEncodePath (path : CStr) : Encoded (percentEncodePath path) := by
  induction path with
  | nil => exact .nil
  | cons c path ih =>
    unfold percentEncodePath at ih ⊢
    rw [List.flatMap_cons]
    by_cases hc : unreserved c = true
    · rw [if_pos hc]
      exact .keep (unreserved_spec c.toFin hc) ih
    · rw [if_neg hc]
      exact .escape (hexDigit_spec c.toFin).1 (hexDigit_spec c.toFin).2 ih

/-! ### The canonical spelling -/

/-- No file decides how a URI is resolved. -/
def FallsBack (realpath : CStr → Option CStr) (uri : CStr) : Prop :=
  ∀ path, uriToPath uri = some path → realpath path = none

theorem normalizeUri_of_fallsBack {realpath : CStr → Option CStr} {uri path : CStr}
    (h : FallsBack realpath uri) (hpath : uriToPath uri = some path) :
    normalizeUri realpath uri = pathToUri (lexicalNormalizePath path) := by
  rw [normalizeUri, hpath]
  simp only [h path hpath, Option.getD_none]

theorem uriToPath_spelled {u : CStr} {bytes : List UInt8} (h : SpellsBytes u bytes) :
    uriToPath (fileScheme ++ u) = some (cutNul bytes) := by
  have htake : (fileScheme ++ u).take 7 = fileScheme := rfl
  have hdrop : (fileScheme ++ u).drop 7 = u := rfl
  rw [uriToPath, if_pos htake, hdrop, percentDecode, spelled_iff.mp h]

/-- **Paths and URIs**: an absolute path survives the trip through a URI, which has only unreserved
characters, slashes and escapes; and where no file decides, resolving a URI twice is resolving it
once, and all the spellings of a path are resolved to one URI. -/
theorem uri_codec :
    (∀ path : CStr, path.head? = some 47 → 0 ∉ path → uriToPath (pathToUri path) = some path) ∧
    (∀ path, ∃ rest, pathToUri path = fileScheme ++ rest ∧ Encoded rest) ∧
    (∀ realpath uri, FallsBack realpath uri → FallsBack realpath (normalizeUri realpath uri) →
      normalizeUri realpath (normalizeUri realpath uri) = normalizeUri realpath uri) ∧
    ∀ realpath u v p q, SpellsBytes u p → SpellsBytes v q → Relation.EqvGen PathStep p q →
      FallsBack realpath (fileScheme ++ u) → FallsBack realpath (fileScheme ++ v) →
      normalizeUri realpath (fileScheme ++ u) = normalizeUri realpath (fileScheme ++ v) := by
  refine ⟨fun path _ h => uriToPath_pathToUri h,
    fun path => ⟨_, rfl, encoded_percentEncodePath path⟩, ?_, ?_⟩
  · intro realpath uri hfirst hsecond
    cases hp : uriToPath uri with
    | none =>
      have hraw : normalizeUri realpath uri = uri := by
        rw [normalizeUri, hp]
      rw [hraw, hraw]
    | some path =>
      have hnormal := normalizeUri_of_fallsBack hfirst hp
      have hzero := zero_notMem_lexicalNormalizePath (zero_notMem_uriToPath hp)
      have hback : uriToPath (normalizeUri realpath uri) = some (lexicalNormalizePath path) := by
        rw [hnormal, uriToPath_pathToUri hzero]
      rw [normalizeUri_of_fallsBack hsecond hback, lexicalNormalizePath_idem, hnormal]
  · intro realpath u v p q hu hv hpq hfirst hsecond
    have hsame : lexicalNormalizePath (cutNul p) = lexicalNormalizePath (cutNul q) := by
      clear hu hv
      induction hpq with
      | rel p q hstep =>
        rcases hstep.cutNul with heq | hstep
        · rw [heq]
        · exact hstep.normalize
      | refl p => rfl
      | symm p q _ ih => exact ih.symm
      | trans p q r _ _ ih ih' => exact ih.trans ih'
    rw [normalizeUri_of_fallsBack hfirst (uriToPath_spelled hu),
      normalizeUri_of_fallsBack hsecond (uriToPath_spelled hv), hsame]

end TaskjugglerLsp
