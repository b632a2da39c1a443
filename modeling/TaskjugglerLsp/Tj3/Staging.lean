import Mathlib.Data.List.DropRight
import TaskjugglerLsp.Lib.Paths
import TaskjugglerLsp.Pathutil.Canonical
import TaskjugglerLsp.Tj3

/-!
# Staging

The members of a project are staged below one directory, each at its path below the directory that
all of them have in common.

* `commonDirLen_spec`: `common_dir_len` cuts at the end of the last directory in common.
* `staged_iff`: the copy is below the staging directory, and the members are in it as they are in
  the workspace, if and only if no path climbs above the common directory.
-/

namespace TaskjugglerLsp

open Lib.Paths

/-! ### Paths -/

/-- `..` -/
def dotDot : CStr := [46, 46]

/-- The names of a path. -/
def segments (path : CStr) : List CStr := (path.splitOn 47).filter keptSegment

/-- `path_join` of `tj3.c`. -/
def tj3PathJoin (a b : CStr) : CStr := a ++ 47 :: b

theorem segments_tj3PathJoin (a b : CStr) : segments (tj3PathJoin a b) = segments a ++ segments b := by
  rw [segments, tj3PathJoin, List.splitOn_append_cons_self, List.filter_append]
  rfl

/-- An absolute path without empty names and without `.`. -/
def NormalPath (path : CStr) : Prop :=
  ∃ segs : List CStr, (∀ seg ∈ segs, 47 ∉ seg ∧ keptSegment seg = true) ∧
    path = 47 :: List.intercalate [47] segs

/-- No separator follows another one. -/
theorem NormalPath.not_absolute {path dir rest : CStr} (h : NormalPath path)
    (hpath : path = tj3PathJoin dir rest) : rest.head? ≠ some 47 := by
  obtain ⟨segs, hsegs, rfl⟩ := h
  intro hrest
  obtain ⟨rest', rfl⟩ : ∃ rest', rest = 47 :: rest' := by
    cases rest with
    | nil => cases hrest
    | cons c rest' =>
      obtain rfl : c = 47 := by simpa using hrest
      exact ⟨rest', rfl⟩
  have hne : segs ≠ [] := by
    rintro rfl
    have hlen := congrArg List.length hpath
    simp only [tj3PathJoin, List.length_cons, List.length_append] at hlen
    rw [List.intercalate_nil, List.length_nil] at hlen
    omega
  have hsplit := congrArg (List.splitOn 47) hpath
  rw [tj3PathJoin, List.splitOn_append_cons_self, List.splitOn_cons_eq_if_modifyHead,
    List.splitOn_cons_eq_if_modifyHead, if_pos (beq_self_eq_true _), if_pos (beq_self_eq_true _),
    List.splitOn_intercalate 47 (fun seg hseg => (hsegs seg hseg).1) hne] at hsplit
  -- the empty name between the separators is one of the names
  obtain ⟨first, firsts, hfirst⟩ := List.exists_cons_of_ne_nil (List.splitOn_ne_nil (47 : UInt8) dir)
  rw [hfirst, List.cons_append, List.cons.injEq] at hsplit
  have hmem : ([] : CStr) ∈ segs := by
    rw [hsplit.2]
    simp
  exact absurd (hsegs [] hmem).2 (by decide)

/-! ### The members of a project -/

/-- What `realpath` is documented to return: an absolute path, without `.` and `..`. -/
def RealpathAbsolute (realpath : CStr → Option CStr) : Prop :=
  ∀ path real, realpath path = some real → 0 ∉ real ∧ NormalPath real ∧ dotDot ∉ segments real

/-- A member whose URI has been normalized. -/
structure Member.FromUri (m : Member) : Prop where
  uri : ∃ realpath raw, RealpathAbsolute realpath ∧ m.uri = normalizeUri realpath raw
  path : uriToPath m.uri = some m.path

/-- A member with an absolute path, whose URI has been normalized. -/
structure Member.Normalized (m : Member) : Prop extends m.FromUri where
  absolute : m.path.head? = some 47

/-- A path of names that normalization keeps. -/
def CleanPath (path : CStr) : Prop :=
  NormalPath path ∨ ∃ segs : List CStr, (∀ seg ∈ segs, 47 ∉ seg ∧ keptSegment seg = true) ∧
    path = List.intercalate [47] segs

theorem cleanPath_lexical (path : CStr) : CleanPath (lexicalNormalizePath path) := by
  have hsegs : ∀ seg ∈ segments path, 47 ∉ seg ∧ keptSegment seg = true := by
    intro seg hseg
    obtain ⟨hmem, hkept⟩ := List.mem_filter.mp hseg
    exact ⟨notMem_of_mem_splitOn hmem, hkept⟩
  have hunfold : lexicalNormalizePath path = (if path.head? = some 47 then [47] else [])
      ++ List.intercalate [47] (segments path) := rfl
  rw [hunfold]
  split_ifs
  · exact Or.inl ⟨_, hsegs, rfl⟩
  · exact Or.inr ⟨_, hsegs, rfl⟩

theorem CleanPath.normal {path : CStr} (h : CleanPath path) (habs : path.head? = some 47) :
    NormalPath path := by
  rcases h with h | ⟨segs, hsegs, rfl⟩
  · exact h
  · exact absurd habs (head_intercalate (fun seg hseg => (hsegs seg hseg).1)
      fun seg hseg => (hsegs seg hseg).2)

theorem Member.FromUri.clean {m : Member} (h : m.FromUri) :
    CleanPath m.path ∧ m.uri = pathToUri m.path := by
  obtain ⟨⟨realpath, raw, hreal, huri⟩, hpath⟩ := h
  rw [normalizeUri] at huri
  cases hraw : uriToPath raw with
  | none =>
    rw [hraw] at huri
    rw [huri, hraw] at hpath
    cases hpath
  | some path =>
    simp only [hraw] at huri
    have h0 := zero_notMem_uriToPath hraw
    cases hr : realpath path with
    | some real =>
      obtain ⟨hnul, hnormal, -⟩ := hreal path real hr
      rw [hr] at huri
      obtain rfl : real = m.path := by
        have := hpath
        rw [huri] at this
        exact Option.some.inj ((uriToPath_pathToUri hnul).symm.trans this)
      exact ⟨Or.inl hnormal, huri⟩
    | none =>
      rw [hr] at huri
      have heq : lexicalNormalizePath path = m.path := by
        have := hpath
        rw [huri] at this
        exact Option.some.inj
          ((uriToPath_pathToUri (zero_notMem_lexicalNormalizePath h0)).symm.trans this)
      rw [Option.getD_none, heq] at huri
      rw [← heq] at huri ⊢
      exact ⟨cleanPath_lexical path, huri⟩

/-! ### The common directory -/

/-- The last directory that all paths begin with, without the separator behind it. -/
structure CommonDirectory (paths : List CStr) (dir : CStr) : Prop where
  common : ∀ path ∈ paths, ∃ rest, path = tj3PathJoin dir rest
  last : ∀ dir', (∀ path ∈ paths, ∃ rest, path = tj3PathJoin dir' rest) → dir'.length ≤ dir.length

theorem commonLen_spec (a b : CStr) : a.take (commonLen a b) <+: b ∧ commonLen a b ≤ a.length ∧
    ∀ q, q <+: a → q <+: b → q.length ≤ commonLen a b := by
  induction a generalizing b with
  | nil => exact ⟨by simp [commonLen], by simp [commonLen], fun q hq _ => by simp [commonLen, List.prefix_nil.mp hq]⟩
  | cons x a ih =>
    cases b with
    | nil => exact ⟨by simp [commonLen], by simp [commonLen], fun q _ hq => by simp [commonLen, List.prefix_nil.mp hq]⟩
    | cons y b =>
      rw [commonLen]
      split_ifs with hxy
      · subst hxy
        obtain ⟨htake, hle, hmax⟩ := ih b
        refine ⟨?_, Nat.succ_le_succ hle, fun q hqa hqb => ?_⟩
        · rw [List.take_succ_cons, List.cons_prefix_cons]
          exact ⟨rfl, htake⟩
        · cases q with
          | nil => exact Nat.zero_le _
          | cons z q =>
            rw [List.cons_prefix_cons] at hqa hqb
            exact Nat.succ_le_succ (hmax q hqa.2 hqb.2)
      · refine ⟨by simp, Nat.zero_le _, fun q hqa hqb => ?_⟩
        cases q with
        | nil => exact Nat.le_refl 0
        | cons z q =>
          rw [List.cons_prefix_cons] at hqa hqb
          exact absurd (hqa.1.symm.trans hqb.1) hxy

/-- What the loop over the other paths leaves of the first one. -/
theorem foldl_commonLen_spec (path : CStr) (paths : List CStr) :
    ∀ len ≤ path.length, let n := paths.foldl (fun len p => commonLen (path.take len) p) len
      n ≤ len ∧ (∀ p ∈ paths, path.take n <+: p) ∧
        ∀ q, q <+: path.take len → (∀ p ∈ paths, q <+: p) → q.length ≤ n := by
  induction paths with
  | nil =>
    intro len hlen
    refine ⟨Nat.le_refl _, ?_, ?_⟩
    · intro p hp
      cases hp
    · intro q hq _
      simpa [hlen] using hq.length_le
  | cons p paths ih =>
    intro len hlen
    obtain ⟨htake, hle, hmax⟩ := commonLen_spec (path.take len) p
    rw [List.length_take_of_le hlen] at hle
    obtain ⟨hn, hall, hlast⟩ := ih (commonLen (path.take len) p) (hle.trans hlen)
    rw [List.take_take, Nat.min_eq_left hle] at htake
    refine ⟨hn.trans hle, List.forall_mem_cons.mpr ⟨?_, hall⟩, fun q hq hqs => ?_⟩
    · exact (List.take_prefix_take_left hn).trans htake
    · obtain ⟨hqp, hqs⟩ := List.forall_mem_cons.mp hqs
      refine hlast q ?_ hqs
      rw [List.prefix_take_iff]
      exact ⟨hq.trans (List.take_prefix _ _), hmax q hq hqp⟩

theorem rdropWhile_dir {dir pre : CStr} (h : dir ++ [47] <+: pre) :
    ∃ dir₀, pre.rdropWhile (· != 47) = dir₀ ++ [47] ∧ dir.length ≤ dir₀.length := by
  induction pre using List.reverseRecOn with
  | nil =>
    have := h.length_le
    simp at this
  | append_singleton pre c ih =>
    by_cases hc : c = 47
    · subst hc
      refine ⟨pre, List.rdropWhile_concat_neg _ _ _ (by decide), ?_⟩
      have := h.length_le
      simp only [List.length_append, List.length_singleton] at this
      omega
    · rw [List.rdropWhile_concat_pos _ _ _ (by simpa using hc)]
      refine ih ?_
      rcases List.prefix_concat_iff.mp h with heq | hpre
      · exact absurd (List.append_inj' heq rfl).2.symm (by simpa using hc)
      · exact hpre

/-- **`common_dir_len`**: what all paths begin with, up to its last separator. -/
theorem commonDirLen_spec (path : CStr) (paths : List CStr) :
    ∃ front, commonDirLen (path :: paths) = front.length ∧
      (∀ p ∈ path :: paths, front <+: p) ∧ (front = [] ∨ ∃ dir, front = dir ++ [47]) ∧
      ∀ dir', (∀ p ∈ path :: paths, dir' ++ [47] <+: p) → dir'.length + 1 ≤ front.length := by
  obtain ⟨hn, hall, hlast⟩ := foldl_commonLen_spec path paths path.length (Nat.le_refl _)
  generalize hlen : paths.foldl (fun len p => commonLen (path.take len) p) path.length = n
    at hn hall hlast
  rw [List.take_length] at hlast
  have hcut : (path.take n).rdropWhile (· != 47) <+: path.take n := List.rdropWhile_prefix _ _
  refine ⟨(path.take n).rdropWhile (· != 47), ?_, ?_, ?_, ?_⟩
  · rw [commonDirLen, hlen, List.rdropWhile, List.length_reverse]
  · refine List.forall_mem_cons.mpr ⟨hcut.trans (List.take_prefix n path), fun p hp => ?_⟩
    exact hcut.trans (hall p hp)
  · by_cases hne : (path.take n).rdropWhile (· != 47) = []
    · exact Or.inl hne
    · have hlast := List.rdropWhile_last_not _ _ hne
      rw [bne_iff_ne, ne_eq, not_not] at hlast
      have hsplit := List.dropLast_append_getLast hne
      rw [hlast] at hsplit
      exact Or.inr ⟨_, hsplit.symm⟩
  · intro dir' hdir'
    obtain ⟨hp, hps⟩ := List.forall_mem_cons.mp hdir'
    have hpre : dir' ++ [47] <+: path.take n := by
      rw [List.prefix_take_iff]
      exact ⟨hp, hlast _ hp hps⟩
    obtain ⟨dir₀, hdir₀, hle⟩ := rdropWhile_dir hpre
    rw [hdir₀, List.length_append]
    exact Nat.succ_le_succ hle

theorem prefix_iff_tj3PathJoin {dir path : CStr} :
    dir ++ [47] <+: path ↔ ∃ rest, path = tj3PathJoin dir rest := by
  constructor
  · rintro ⟨rest, rfl⟩
    exact ⟨rest, by rw [tj3PathJoin, List.append_assoc, List.singleton_append]⟩
  · rintro ⟨rest, rfl⟩
    exact ⟨rest, by rw [tj3PathJoin, List.append_assoc, List.singleton_append]⟩

theorem CommonDirectory.unique {paths : List CStr} {dir dir' : CStr}
    (h : CommonDirectory paths dir) (h' : CommonDirectory paths dir') (hne : paths ≠ []) :
    dir = dir' := by
  obtain ⟨path, hpath⟩ := List.exists_mem_of_ne_nil _ hne
  obtain ⟨rest, hrest⟩ := h.common path hpath
  obtain ⟨rest', hrest'⟩ := h'.common path hpath
  have hlen := Nat.le_antisymm (h'.last dir h.common) (h.last dir' h'.common)
  exact (List.append_inj (hrest.symm.trans hrest') hlen).1

/-! ### The copy -/

/-- Where a path leads, from the root. -/
def place (path : CStr) : List CStr := resolve dotDot [] (segments path)

/-- The members are copied to paths of their own below the staging directory, and are there as they
are in the workspace. -/
structure StagedInside (tmpdir : CStr) (members : List Member) : Prop where
  injective : ∀ a ∈ assignMemberRelpaths members, ∀ b ∈ assignMemberRelpaths members,
    a.1.uri ≠ b.1.uri → a.2 ≠ b.2
  relative : ∀ a ∈ assignMemberRelpaths members, a.2.head? ≠ some 47
  below : ∀ a ∈ assignMemberRelpaths members, StaysBelow dotDot (segments a.2)
  written : ∀ f ∈ stageMembers (assignMemberRelpaths members),
    ∃ below, place (tj3PathJoin tmpdir f.1) = place tmpdir ++ below
  positions : ∀ a ∈ assignMemberRelpaths members, ∀ b ∈ assignMemberRelpaths members,
    position (place (tj3PathJoin tmpdir a.2)) (place (tj3PathJoin tmpdir b.2))
      = position (place a.1.path) (place b.1.path)

theorem place_tj3PathJoin {rest : CStr} (h : StaysBelow dotDot (segments rest)) (dir : CStr) :
    place (tj3PathJoin dir rest) = place dir ++ place rest := by
  rw [place, segments_tj3PathJoin, resolve_concat, h.resolve_eq]
  rfl

/-- No path climbs above the common directory. -/
def KeepsToCommon (paths : List CStr) : Prop :=
  ∀ dir, CommonDirectory paths dir → ∀ rest, tj3PathJoin dir rest ∈ paths →
    StaysBelow dotDot (segments rest)

section Members

variable {members : List Member}

theorem exists_mem_assignMemberRelpaths {m : Member} (h : m ∈ members) :
    ∃ a ∈ assignMemberRelpaths members, a.1 = m :=
  ⟨_, List.mem_map_of_mem h, rfl⟩

/-- The relative paths are what follows a common beginning, which is empty or a directory. -/
theorem exists_front (hne : members ≠ []) : ∃ front : CStr,
    (front = [] ∨ ∃ dir, front = dir ++ [47]) ∧
      (∀ a ∈ assignMemberRelpaths members, a.1 ∈ members ∧ a.1.path = front ++ a.2) ∧
      ∀ dir', (∀ m ∈ members, dir' ++ [47] <+: m.path) → dir'.length + 1 ≤ front.length := by
  obtain ⟨m, ms, rfl⟩ := List.exists_cons_of_ne_nil hne
  obtain ⟨front, hlen, hall, hfront, hlast⟩ := commonDirLen_spec m.path (ms.map (·.path))
  refine ⟨front, hfront, fun a ha => ?_, fun dir' hdir' => ?_⟩
  · obtain ⟨x, hx, rfl⟩ := List.mem_map.mp ha
    refine ⟨hx, ?_⟩
    obtain ⟨rest, hrest⟩ := hall x.path (List.mem_map_of_mem (f := (·.path)) hx)
    have hdrop : x.path.drop (commonDirLen ((m :: ms).map (·.path))) = rest := by
      rw [List.map_cons, hlen, ← hrest]
      exact List.drop_left
    -- where nothing follows, the path ends with a separator, and its base name is empty
    have hbase : rest = [] → baseName x.path = [] := by
      rintro rfl
      rw [baseName, ← hrest, List.append_nil]
      rcases hfront with rfl | ⟨dir, rfl⟩
      · rfl
      · rw [List.reverse_append, List.reverse_singleton]
        rfl
    show x.path = front ++ (if _ = [] then _ else _)
    rw [hdrop]
    split_ifs with hnil
    · rw [hbase hnil, ← hrest, hnil]
    · exact hrest.symm
  · refine hlast dir' fun p hp => ?_
    have hmem : p ∈ (m :: ms).map (·.path) := hp
    obtain ⟨x, hx, rfl⟩ := List.mem_map.mp hmem
    exact hdir' x hx

theorem exists_relpaths (h : ∀ m ∈ members, m.path.head? = some 47) (hne : members ≠ []) :
    ∃ dir, CommonDirectory (members.map (·.path)) dir ∧
      ∀ a ∈ assignMemberRelpaths members, a.1 ∈ members ∧ a.1.path = tj3PathJoin dir a.2 := by
  obtain ⟨front, hfront, hrel, hlast⟩ := exists_front hne
  have hroot : ∀ m ∈ members, ([] : CStr) ++ [47] <+: m.path := by
    intro m hm
    obtain ⟨rest, hrest⟩ := List.head?_eq_some_iff.mp (h m hm)
    exact ⟨rest, hrest.symm⟩
  have hpos := hlast [] hroot
  obtain rfl | ⟨dir, rfl⟩ := hfront
  · simp at hpos
  refine ⟨dir, ⟨?_, fun dir' hdir' => ?_⟩, fun a ha => ⟨(hrel a ha).1, ?_⟩⟩
  · rw [List.forall_mem_map]
    intro m hm
    obtain ⟨a, ha, rfl⟩ := exists_mem_assignMemberRelpaths hm
    exact prefix_iff_tj3PathJoin.mp ⟨a.2, (hrel a ha).2.symm⟩
  · have := hlast dir' fun m hm => prefix_iff_tj3PathJoin.mpr (hdir' _ (List.mem_map_of_mem hm))
    rw [List.length_append, List.length_singleton] at this
    omega
  · rw [(hrel a ha).2, tj3PathJoin, List.append_assoc, List.singleton_append]

/-- **The copy** of a project is below the staging directory, in the order of the workspace, if and
only if no path of a member climbs above their common directory. -/
theorem staged_iff (h : ∀ m ∈ members, m.Normalized) (tmpdir : CStr) :
    StagedInside tmpdir members ↔ KeepsToCommon (members.map (·.path)) := by
  by_cases hne : members = []
  · subst hne
    constructor
    · intro _ dir _ rest hrest
      cases hrest
    · intro _
      constructor <;> intro a ha <;> cases ha
  obtain ⟨dir, hdir, hrel⟩ := exists_relpaths (fun m hm => (h m hm).absolute) hne
  have hmember : ∀ a ∈ assignMemberRelpaths members, NormalPath a.1.path ∧
      a.1.uri = pathToUri a.1.path := by
    intro a ha
    have hm := h _ (hrel a ha).1
    exact ⟨hm.toFromUri.clean.1.normal hm.absolute, hm.toFromUri.clean.2⟩
  constructor
  · intro hstaged dir' hdir' rest hrest
    obtain rfl := hdir.unique hdir' (by simpa using hne)
    obtain ⟨m, hm, hpath⟩ := List.mem_map.mp hrest
    obtain ⟨a, ha, rfl⟩ := exists_mem_assignMemberRelpaths hm
    have hsame := (hrel a ha).2
    rw [hpath] at hsame
    obtain rfl : rest = a.2 := (List.cons.inj (List.append_cancel_left hsame)).2
    exact hstaged.below a ha
  · intro hkeeps
    have hbelow : ∀ a ∈ assignMemberRelpaths members, StaysBelow dotDot (segments a.2) := by
      intro a ha
      obtain ⟨hm, hpath⟩ := hrel a ha
      refine hkeeps dir hdir a.2 ?_
      rw [← hpath]
      exact List.mem_map_of_mem hm
    refine ⟨fun a ha b hb huri heq => huri ?_, fun a ha => ?_, hbelow, fun f hf => ?_,
      fun a ha b hb => ?_⟩
    · rw [(hmember a ha).2, (hmember b hb).2, (hrel a ha).2, (hrel b hb).2, heq]
    · exact (hmember a ha).1.not_absolute (hrel a ha).2
    · obtain ⟨a, ha, rfl⟩ := List.mem_map.mp hf
      exact ⟨_, place_tj3PathJoin (hbelow a ha) tmpdir⟩
    · rw [place_tj3PathJoin (hbelow a ha), place_tj3PathJoin (hbelow b hb), (hrel a ha).2,
        (hrel b hb).2, place_tj3PathJoin (hbelow a ha), place_tj3PathJoin (hbelow b hb),
        position_append, position_append]

end Members

/-- An open document that is not on disk, with a path that climbs above the root's directory. -/
def climbing : List Member :=
  [⟨cstr "/ws/a.tjp", cstr "file:///ws/a.tjp", none⟩,
    ⟨cstr "/ws/../b.tji", cstr "file:///ws/../b.tji", none⟩]

theorem climbing_normalized : ∀ m ∈ climbing, m.Normalized := by
  have hnone : RealpathAbsolute fun _ => none := fun path real h => by cases h
  intro m hm
  rcases List.mem_pair.mp hm with rfl | rfl
  · exact ⟨⟨⟨_, cstr "file:///ws/a.tjp", hnone, by decide +kernel⟩, by decide +kernel⟩, rfl⟩
  · exact ⟨⟨⟨_, cstr "file:///ws/../b.tji", hnone, by decide +kernel⟩, by decide +kernel⟩, rfl⟩

/-- Whether these two documents are copied inside. -/
theorem staged_climbing : StagedInside (cstr "/tmp/tjlsp-a") climbing ↔
    KeepsToCommon (climbing.map (·.path)) :=
  staged_iff climbing_normalized _

/-- **The copy of such a document** is outside the staging directory. -/
theorem not_staged_climbing : ¬ ∀ (tmpdir : CStr) (members : List Member),
    (∀ m ∈ members, m.Normalized) → StagedInside tmpdir members := by
  intro h
  have hstaged := h (cstr "/tmp/tjlsp-a") climbing climbing_normalized
  have hmem : (⟨cstr "/ws/../b.tji", cstr "file:///ws/../b.tji", none⟩, cstr "../b.tji")
      ∈ assignMemberRelpaths climbing := by decide +kernel
  exact absurd (hstaged.below _ hmem) (by decide +kernel)

end TaskjugglerLsp
