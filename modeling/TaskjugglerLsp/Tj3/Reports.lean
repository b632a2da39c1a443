import Mathlib.Tactic.IntervalCases
import TaskjugglerLsp.SemanticTokens.Encode
import TaskjugglerLsp.Tj3.Staging

/-!
# Reports of tj3

A line that reports a problem of a member is read back as one diagnostic of the member, if it is
clear which of its markers is the one behind the line number.

* `splitAtMarker_reportLine`: a marker is found behind the number unless the path has one.
* `mapReportedPath_iff`: each way to write the path of a member leads to the member.
* `report_round_trip`: when a line is read back; several lines are read one after the other.
-/

namespace TaskjugglerLsp

/-- The marker of a severity. -/
def Severity.marker : Severity → CStr
  | error => cstr ": Error: "
  | warning => cstr ": Warning: "

/-- A line of tj3: `path:n: Severity: message`. -/
def reportLine (path : CStr) (n : ℕ) (severity : Severity) (message : CStr) : CStr :=
  path ++ 58 :: (decimal n ++ (severity.marker ++ message))

/-! ### Markers -/

section Markers

variable {marker s a b : CStr}

theorem splitAtMarker_eq_none (h : splitAtMarker marker s = none) (hne : marker ≠ []) :
    ¬ marker <:+: s := by
  induction s with
  | nil => rwa [List.infix_nil]
  | cons c s ih =>
    rw [splitAtMarker] at h
    split_ifs at h with hc
    rw [Option.map_eq_none_iff] at h
    rw [List.infix_cons_iff, not_or]
    exact ⟨fun hpre => hc (List.isPrefixOf_iff_prefix.mpr hpre), ih h⟩

theorem splitAtMarker_eq_some (h : splitAtMarker marker s = some (a, b)) :
    s = a ++ (marker ++ b) ∧ ∀ i < a.length, ¬ marker <+: s.drop i := by
  induction s generalizing a with
  | nil => cases h
  | cons c s ih =>
    rw [splitAtMarker] at h
    split_ifs at h with hc
    · simp only [Option.some.injEq, Prod.mk.injEq] at h
      obtain ⟨rfl, rfl⟩ := h
      obtain ⟨t, ht⟩ := List.isPrefixOf_iff_prefix.mp hc
      refine ⟨?_, fun i hi => absurd hi (Nat.not_lt_zero i)⟩
      rw [← ht, List.drop_left, List.nil_append]
    · obtain ⟨p, hp, heq⟩ := Option.map_eq_some_iff.mp h
      simp only [Prod.mk.injEq] at heq
      obtain ⟨rfl, rfl⟩ := heq
      obtain ⟨hs, hfirst⟩ := ih hp
      refine ⟨by rw [hs]; rfl, fun i hi => ?_⟩
      cases i with
      | zero => exact fun hpre => hc (List.isPrefixOf_iff_prefix.mpr hpre)
      | succ i => exact hfirst i (Nat.lt_of_succ_lt_succ hi)

theorem splitAtMarker_append (hne : marker ≠ [])
    (hfirst : ∀ i < a.length, ¬ marker <+: (a ++ (marker ++ b)).drop i) :
    splitAtMarker marker (a ++ (marker ++ b)) = some (a, b) := by
  cases h : splitAtMarker marker (a ++ (marker ++ b)) with
  | none =>
    refine absurd ?_ (splitAtMarker_eq_none h hne)
    exact ⟨a, b, by rw [List.append_assoc]⟩
  | some p =>
    obtain ⟨a', b'⟩ := p
    obtain ⟨heq, hfirst'⟩ := splitAtMarker_eq_some h
    have hlen : a.length = a'.length := by
      rcases Nat.lt_trichotomy a.length a'.length with hlt | heq' | hlt
      · refine absurd ?_ (hfirst' _ hlt)
        rw [List.drop_left]
        exact List.prefix_append _ _
      · exact heq'
      · refine absurd ?_ (hfirst _ hlt)
        rw [heq, List.drop_left]
        exact List.prefix_append _ _
    obtain ⟨rfl, htail⟩ := List.append_inj heq hlen
    rw [List.append_cancel_left htail]

end Markers

theorem Severity.marker_error : error.marker = [58, 32, 69, 114, 114, 111, 114, 58, 32] := by
  decide

theorem Severity.marker_warning :
    warning.marker = [58, 32, 87, 97, 114, 110, 105, 110, 103, 58, 32] := by
  decide

/-- What the markers are made of. -/
theorem Severity.marker_spec (severity : Severity) :
    severity.marker.head? = some 58 ∧ severity.marker.getLast? = some 32 ∧
      ∀ c ∈ severity.marker, isDigit c = false := by
  cases severity <;> decide

/-- **A marker before the end of the number** is in the path. -/
theorem marker_in_path (severity : Severity) {path digits rest : CStr} {i : ℕ}
    (hdigits : ∀ c ∈ digits, isDigit c = true) (hne : digits ≠ [])
    (hi : i < path.length + 1 + digits.length)
    (h : severity.marker <+: (path ++ 58 :: (digits ++ rest)).drop i) :
    i + severity.marker.length ≤ path.length := by
  obtain ⟨hhead, hlast, hnone⟩ := severity.marker_spec
  generalize severity.marker = marker at h hhead hlast hnone ⊢
  have hpos : 0 < marker.length := List.length_pos_of_mem (List.mem_of_mem_head? hhead)
  have hget : ∀ j < marker.length, (path ++ 58 :: (digits ++ rest))[i + j]? = marker[j]? := by
    intro j hj
    rw [← List.getElem?_drop, List.prefix_iff_getElem?.mp h j hj, List.getElem?_eq_getElem hj]
  have hdigit : ∀ k, path.length < k → k < path.length + 1 + digits.length →
      ∃ c ∈ digits, (path ++ 58 :: (digits ++ rest))[k]? = some c := by
    intro k hk hlt
    obtain ⟨k, rfl⟩ := Nat.exists_eq_add_of_lt hk
    have hk' : k < digits.length := by omega
    refine ⟨digits[k], List.getElem_mem hk', ?_⟩
    rw [List.getElem?_append_right (by omega)]
    have : path.length + k + 1 - path.length = k + 1 := by omega
    rw [this, List.getElem?_cons_succ, List.getElem?_append_left hk', List.getElem?_eq_getElem hk']
  by_contra hover
  have hfirst := List.length_pos_of_ne_nil hne
  rcases Nat.lt_or_ge (path.length + 1) i with hbehind | hbefore
  · -- the marker would begin with a digit
    obtain ⟨c, hc, heq⟩ := hdigit i (by omega) hi
    have hj := hget 0 hpos
    rw [Nat.add_zero, heq, ← List.head?_eq_getElem?, hhead] at hj
    have := hdigits c hc
    rw [Option.some.inj hj] at this
    exact absurd this (by decide)
  · rcases Nat.lt_or_ge (path.length + 1) (i + marker.length) with hcover | hend
    · -- the marker would have a digit in it
      obtain ⟨c, hc, heq⟩ := hdigit (path.length + 1) (by omega) (by omega)
      have hj := hget (path.length + 1 - i) (by omega)
      rw [Nat.add_sub_cancel' hbefore, heq] at hj
      have hfalse := hnone c (List.mem_of_getElem? hj.symm)
      rw [hdigits c hc] at hfalse
      cases hfalse
    · -- the marker would end with the colon
      have hj := hget (marker.length - 1) (by omega)
      have heq : i + (marker.length - 1) = path.length := by omega
      rw [heq, List.getElem?_append_right (Nat.le_refl _), Nat.sub_self, List.getElem?_cons_zero,
        ← List.getLast?_eq_getElem?, hlast] at hj
      exact absurd hj (by decide)

section Line

variable {path message : CStr} {n : ℕ} {severity : Severity}

theorem reportLine_eq (path message : CStr) (n : ℕ) (severity : Severity) :
    reportLine path n severity message = (path ++ 58 :: decimal n) ++ (severity.marker ++ message) := by
  rw [reportLine, List.append_assoc, List.cons_append]

/-- **The marker** is found behind the number, unless the path has one. -/
theorem splitAtMarker_reportLine (h : ¬ severity.marker <:+: path) :
    splitAtMarker severity.marker (reportLine path n severity message)
      = some (path ++ 58 :: decimal n, message) := by
  rw [reportLine_eq]
  refine splitAtMarker_append (by cases severity <;> decide) fun i hi hpre => h ?_
  rw [List.append_assoc, List.cons_append] at hpre
  have hle := marker_in_path severity (fun _ => isDigit_of_mem_decimal) (decimal_ne_nil n)
    (by simpa [Nat.add_assoc, Nat.add_comm] using hi) hpre
  have htake : severity.marker <+: path.drop i := by
    rw [List.drop_append_of_le_length (by omega)] at hpre
    refine List.prefix_of_prefix_length_le hpre (List.prefix_append _ _) ?_
    rw [List.length_drop]
    omega
  exact htake.isInfix.trans (List.drop_suffix i path).isInfix

/-- A marker in the path is found before that, and the message is another one. -/
theorem splitAtMarker_in_path {location : CStr} (h : severity.marker <:+: path)
    (hsplit : splitAtMarker severity.marker (reportLine path n severity message)
      = some (location, message)) : False := by
  obtain ⟨heq, hfirst⟩ := splitAtMarker_eq_some hsplit
  obtain ⟨x, y, rfl⟩ := h
  have hlen := congrArg List.length heq
  rw [reportLine_eq] at hlen
  simp only [List.length_append, List.length_cons] at hlen
  refine hfirst x.length (by omega) ?_
  rw [reportLine, List.append_assoc, List.append_assoc, List.drop_left]
  exact List.prefix_append _ _

/-- Where a warning has the marker of an error in it. -/
theorem error_infix_warning :
    Severity.error.marker <:+: reportLine path n .warning message ↔
      Severity.error.marker <:+: path ∨ Severity.error.marker <:+: cstr ": " ++ message := by
  have hline : reportLine path n .warning message
      = (path ++ 58 :: (decimal n ++ cstr ": Warning")) ++ (cstr ": " ++ message) := by
    have hmarker : Severity.warning.marker = cstr ": Warning" ++ cstr ": " := by decide
    rw [reportLine, hmarker]
    simp only [List.append_assoc, List.cons_append]
  constructor
  · rintro ⟨x, y, hxy⟩
    have hpre : Severity.error.marker <+: (reportLine path n .warning message).drop x.length := by
      rw [← hxy, List.append_assoc, List.drop_left]
      exact List.prefix_append _ _
    rcases Nat.lt_or_ge x.length (path.length + 1 + (decimal n).length) with hlt | hge
    · left
      have hle := marker_in_path .error (fun _ => isDigit_of_mem_decimal) (decimal_ne_nil n) hlt hpre
      rw [reportLine, List.drop_append_of_le_length (by omega)] at hpre
      have htake : Severity.error.marker <+: path.drop x.length := by
        refine List.prefix_of_prefix_length_le hpre (List.prefix_append _ _) ?_
        rw [List.length_drop]
        omega
      exact htake.isInfix.trans (List.drop_suffix _ path).isInfix
    · right
      obtain ⟨k, hk⟩ := Nat.exists_eq_add_of_le hge
      have hdrop : (reportLine path n .warning message).drop x.length
          = (Severity.warning.marker ++ message).drop k := by
        have hfront : path.length + 1 + (decimal n).length = (path ++ 58 :: decimal n).length := by
          simp only [List.length_append, List.length_cons]
          omega
        rw [reportLine_eq, hk, hfront, List.drop_length_add_append]
      rw [hdrop] at hpre
      rcases Nat.lt_or_ge k 9 with hsmall | hbig
      · -- the marker of the warning begins with no part of that of an error
        exfalso
        obtain ⟨t, ht⟩ := hpre
        rw [Severity.marker_error, Severity.marker_warning] at ht
        interval_cases k <;> simp at ht
      · have hsuffix : (Severity.warning.marker ++ message).drop k <:+ cstr ": " ++ message := by
          obtain ⟨j, rfl⟩ := Nat.exists_eq_add_of_le hbig
          rw [← List.drop_drop]
          exact List.drop_suffix j _
        exact hpre.isInfix.trans hsuffix.isInfix
  · rintro (h | h)
    · rw [reportLine]
      exact h.trans (List.prefix_append _ _).isInfix
    · rw [hline]
      exact h.trans (List.suffix_append _ _).isInfix

theorem splitLastColon_append {a b : CStr} (h : 58 ∉ b) :
    splitLastColon (a ++ 58 :: b) = some (a, b) := by
  have hb : ∀ c ∈ b.reverse, (c != 58) = true := by
    intro c hc
    rw [bne_iff_ne]
    rintro rfl
    exact h (List.mem_reverse.mp hc)
  have hrev : (a ++ 58 :: b).reverse = b.reverse ++ 58 :: a.reverse := by simp
  rw [splitLastColon, if_pos (by simp), hrev, List.dropWhile_append_of_pos hb,
    List.takeWhile_append_of_pos hb]
  simp

theorem digitsValue_concat (digits : CStr) (c : UInt8) :
    digitsValue (digits ++ [c]) = digitsValue digits * 10 + (c.toNat - 48) := by
  rw [digitsValue, List.foldl_append]
  rfl

theorem digitsValue_le {front digits : CStr} (h : front <+: digits) :
    digitsValue front ≤ digitsValue digits := by
  induction digits using List.reverseRecOn with
  | nil => rw [List.prefix_nil.mp h]
  | append_singleton digits c ih =>
    rcases List.prefix_concat_iff.mp h with rfl | h
    · exact Nat.le_refl _
    · rw [digitsValue_concat]
      have := ih h
      omega

/-- **The digits of a number** are read as the number. -/
theorem lineNumber_decimal (n : ℕ) : lineNumber (decimal n) = some n := by
  have hall : (decimal n).all (fun c => 48 ≤ c ∧ c ≤ 57) = true := by
    rw [List.all_eq_true]
    intro c hc
    have hdigit := isDigit_of_mem_decimal hc
    rw [isDigit, Bool.and_eq_true, decide_eq_true_eq, decide_eq_true_eq] at hdigit
    exact decide_eq_true hdigit
  rw [lineNumber, if_pos ⟨decimal_ne_nil n, hall⟩]
  exact congrArg some (digitsValue_decimal n)

/-- No step of the loop over the digits leaves an `int`. -/
def LineNumberInRange (digits : CStr) : Prop :=
  ∀ front, front <+: digits → digitsValue front ≤ 2147483647

theorem lineNumberInRange_decimal : LineNumberInRange (decimal n) ↔ n ≤ 2147483647 := by
  constructor
  · intro h
    have := h _ (List.prefix_refl _)
    rwa [digitsValue_decimal] at this
  · intro h front hfront
    have := digitsValue_le hfront
    rw [digitsValue_decimal] at this
    omega

end Line

/-! ### Paths -/

/-- The ways in which tj3 writes the path of a member. -/
def Spells (tmpdir : CStr) (realTmp : Option CStr) (rel path : CStr) : Prop :=
  path = rel ∨ path = cstr "./" ++ rel ∨ path = tj3PathJoin tmpdir rel ∨
    ∃ dir, realTmp = some dir ∧ path = tj3PathJoin dir rel

/-- What `mkdtemp` and `realpath` are documented to return: absolute paths, of which neither is
below the other one. -/
structure StagingDir (tmpdir : CStr) (realTmp : Option CStr) : Prop where
  absolute : tmpdir.head? = some 47
  real : ∀ dir, realTmp = some dir → dir.head? = some 47 ∧
    (dir = tmpdir ∨ ∀ rest rest', tj3PathJoin dir rest ≠ tj3PathJoin tmpdir rest')

/-- A path is below the staging directory. -/
def Staged (tmpdir : CStr) (realTmp : Option CStr) (path : CStr) : Prop :=
  ∃ dir rest, (dir = tmpdir ∨ realTmp = some dir) ∧ path = tj3PathJoin dir rest

theorem belowDir_eq_some {dir path rest : CStr} :
    belowDir dir path = some rest ↔ path = tj3PathJoin dir rest := by
  unfold belowDir
  constructor
  · intro h
    split_ifs at h with hc
    obtain ⟨htake, hget⟩ := hc
    rw [Option.some.injEq] at h
    subst h
    obtain ⟨hlt, hsep⟩ := List.getElem?_eq_some_iff.mp hget
    rw [tj3PathJoin, ← hsep, ← List.drop_eq_getElem_cons hlt]
    conv_lhs => rw [← List.take_append_drop dir.length path, htake]
  · rintro rfl
    have htake : (tj3PathJoin dir rest).take dir.length = dir := List.take_left
    have hget : (tj3PathJoin dir rest)[dir.length]? = some 47 := by simp [tj3PathJoin]
    have hdrop : (tj3PathJoin dir rest).drop (dir.length + 1) = rest := by
      rw [tj3PathJoin, ← List.singleton_append, ← List.append_assoc]
      exact List.drop_left' (by simp)
    rw [if_pos ⟨htake, hget⟩, hdrop]

theorem skipDotSlash_of_ne {path : CStr} (h : ¬ cstr "./" <+: path) : skipDotSlash path = path := by
  rw [skipDotSlash]
  rintro p rfl
  exact h ⟨p, rfl⟩

theorem length_skipDotSlash_le (path : CStr) : (skipDotSlash path).length ≤ path.length := by
  induction path using skipDotSlash.induct with
  | case1 p ih =>
    rw [skipDotSlash]
    simp only [List.length_cons]
    omega
  | case2 p h => rw [skipDotSlash]; exact h

theorem skipDotSlash_absolute {path : CStr} (h : path.head? = some 47) :
    skipDotSlash path = path := by
  refine skipDotSlash_of_ne ?_
  rintro ⟨t, rfl⟩
  have hdot : (cstr "./" ++ t).head? = some 46 := rfl
  rw [hdot] at h
  exact absurd h (by decide)

theorem CleanPath.dot_notMem {path : CStr} (h : CleanPath path) : [46] ∉ path.splitOn 47 := by
  have hsegs : ∀ segs : List CStr, (∀ seg ∈ segs, 47 ∉ seg ∧ keptSegment seg = true) →
      [46] ∉ (List.intercalate [47] segs).splitOn 47 := by
    intro segs hsegs hmem
    by_cases hne : segs = []
    · subst hne
      exact absurd hmem (by decide)
    · rw [List.splitOn_intercalate 47 (fun seg hseg => (hsegs seg hseg).1) hne] at hmem
      exact absurd (hsegs _ hmem).2 (by decide)
  rcases h with ⟨segs, hkept, rfl⟩ | ⟨segs, hkept, rfl⟩
  · rw [List.splitOn_cons_eq_if_modifyHead, if_pos (beq_self_eq_true _), List.mem_cons, not_or]
    exact ⟨by decide, hsegs segs hkept⟩
  · exact hsegs segs hkept

section Members

variable {members : List Member} {tmpdir : CStr} {realTmp : Option CStr}

/-- The relative path of a member does not begin with `./`, and only the member has it. -/
theorem relpath_spec (hm : ∀ m ∈ members, m.FromUri) :
    ∀ a ∈ assignMemberRelpaths members, ¬ cstr "./" <+: a.2 ∧
      ∀ b ∈ assignMemberRelpaths members, a.1.uri = b.1.uri ↔ a.2 = b.2 := by
  intro a ha
  have hne : members ≠ [] := by
    rintro rfl
    cases ha
  obtain ⟨front, hfront, hrel, -⟩ := exists_front hne
  constructor
  · rintro ⟨t, ht⟩
    have hdot := ((hm _ (hrel a ha).1).clean.1).dot_notMem
    have hdots : (a.2).splitOn 47 = [46] :: t.splitOn 47 := by
      have hsep : (47 : UInt8) ∉ ([46] : CStr) := by decide
      rw [← ht]
      exact List.splitOn_append_cons_self_of_not_mem hsep t
    refine hdot ?_
    rw [(hrel a ha).2]
    rcases hfront with rfl | ⟨dir, rfl⟩
    · rw [List.nil_append, hdots]
      exact List.mem_cons_self
    · rw [List.append_assoc, List.singleton_append, List.splitOn_append_cons_self, hdots]
      exact List.mem_append_right _ List.mem_cons_self
  · intro b hb
    have hua := (hm _ (hrel a ha).1).path
    have hub := (hm _ (hrel b hb).1).path
    constructor
    · intro huri
      rw [huri, hub, Option.some.injEq, (hrel a ha).2, (hrel b hb).2] at hua
      exact (List.append_cancel_left hua).symm
    · intro heq
      rw [(hm _ (hrel a ha).1).clean.2, (hm _ (hrel b hb).1).clean.2, (hrel a ha).2, (hrel b hb).2,
        heq]

theorem find_member (hm : ∀ m ∈ members, m.FromUri) {a : Member × CStr}
    (ha : a ∈ assignMemberRelpaths members) (p : CStr) :
    ((assignMemberRelpaths members).find? (·.2 = p)).map (·.1.uri) = some a.1.uri ↔ p = a.2 := by
  constructor
  · intro h
    obtain ⟨b, hb, huri⟩ := Option.map_eq_some_iff.mp h
    have hrel := ((relpath_spec hm b (List.mem_of_find?_eq_some hb)).2 a ha).mp huri
    have hp := List.find?_some hb
    rw [decide_eq_true_eq] at hp
    rw [← hp, hrel]
  · rintro rfl
    cases hfind : (assignMemberRelpaths members).find? (·.2 = a.2) with
    | none =>
      have := List.find?_eq_none.mp hfind a ha
      simp at this
    | some b =>
      have hb := List.find?_some hfind
      rw [decide_eq_true_eq] at hb
      have huri := ((relpath_spec hm b (List.mem_of_find?_eq_some hfind)).2 a ha).mpr hb
      rw [Option.map_some, huri]

/-- What `map_reported_path` leaves of a path below the staging directory. -/
def stripStaging (tmpdir : CStr) (realTmp : Option CStr) (p : CStr) : CStr :=
  if p.head? = some 47 then
    ((belowDir tmpdir p).or (realTmp.bind fun dir => belowDir dir p)).getD p
  else p

theorem stripStaging_of_not_staged {p : CStr} (h : ¬ Staged tmpdir realTmp p) :
    stripStaging tmpdir realTmp p = p := by
  have hnone : ∀ dir, (dir = tmpdir ∨ realTmp = some dir) → belowDir dir p = none := by
    intro dir hdir
    rw [Option.eq_none_iff_forall_ne_some]
    intro rest hrest
    exact h ⟨dir, rest, hdir, belowDir_eq_some.mp hrest⟩
  unfold stripStaging
  split_ifs
  · rw [hnone tmpdir (Or.inl rfl), Option.none_or]
    cases realTmp with
    | none => rfl
    | some dir => rw [Option.bind_some, hnone dir (Or.inr rfl), Option.getD_none]
  · rfl

theorem stripStaging_tmpdir (h : StagingDir tmpdir realTmp) (rest : CStr) :
    stripStaging tmpdir realTmp (tj3PathJoin tmpdir rest) = rest := by
  have hhead : (tj3PathJoin tmpdir rest).head? = some 47 := by
    rw [tj3PathJoin, List.head?_append, h.absolute]
    rfl
  rw [stripStaging, if_pos hhead, belowDir_eq_some.mpr rfl, Option.some_or, Option.getD_some]

theorem stripStaging_real (h : StagingDir tmpdir realTmp) {dir : CStr} (hdir : realTmp = some dir)
    (rest : CStr) : stripStaging tmpdir realTmp (tj3PathJoin dir rest) = rest := by
  obtain ⟨habs, heq | hapart⟩ := h.real dir hdir
  · rw [heq]
    exact stripStaging_tmpdir h rest
  · have hhead : (tj3PathJoin dir rest).head? = some 47 := by
      rw [tj3PathJoin, List.head?_append, habs]
      rfl
    have hnone : belowDir tmpdir (tj3PathJoin dir rest) = none := by
      rw [Option.eq_none_iff_forall_ne_some]
      intro rest' hrest'
      exact hapart rest rest' (belowDir_eq_some.mp hrest')
    rw [stripStaging, if_pos hhead, hnone, Option.none_or, hdir, Option.bind_some,
      belowDir_eq_some.mpr rfl, Option.getD_some]

/-- A path that is written relatively is not stripped, unless it is below the staging directory. -/
theorem skipDotSlash_stripStaging (h : StagingDir tmpdir realTmp) {rel : CStr}
    (hrel : ¬ cstr "./" <+: rel) :
    skipDotSlash (stripStaging tmpdir realTmp rel) = rel ↔ ¬ Staged tmpdir realTmp rel := by
  constructor
  · rintro heq ⟨dir, rest, hdir, rfl⟩
    have hstrip : stripStaging tmpdir realTmp (tj3PathJoin dir rest) = rest := by
      rcases hdir with rfl | hdir
      · exact stripStaging_tmpdir h rest
      · exact stripStaging_real h hdir rest
    have hle := length_skipDotSlash_le rest
    rw [hstrip] at heq
    rw [heq, tj3PathJoin, List.length_append, List.length_cons] at hle
    omega
  · intro hstaged
    rw [stripStaging_of_not_staged hstaged, skipDotSlash_of_ne hrel]

/-- **Each way to write the path** of a member leads to the member, except the relative ones where
the relative path is one below the staging directory. -/
theorem mapReportedPath_iff (h : StagingDir tmpdir realTmp) (hm : ∀ m ∈ members, m.FromUri)
    {a : Member × CStr} (ha : a ∈ assignMemberRelpaths members) {path : CStr}
    (hpath : Spells tmpdir realTmp a.2 path) :
    mapReportedPath path tmpdir realTmp (assignMemberRelpaths members) = some a.1.uri ↔
      ((path = a.2 ∨ path = cstr "./" ++ a.2) → ¬ Staged tmpdir realTmp a.2) := by
  have hdot := (relpath_spec hm a ha).1
  have hfind : mapReportedPath path tmpdir realTmp (assignMemberRelpaths members) = some a.1.uri ↔
      skipDotSlash (stripStaging tmpdir realTmp (skipDotSlash path)) = a.2 := find_member hm ha _
  rw [hfind]
  have hjoin : ∀ dir : CStr, dir.head? = some 47 →
      skipDotSlash (tj3PathJoin dir a.2) = tj3PathJoin dir a.2 ∧
        ¬ (tj3PathJoin dir a.2 = a.2 ∨ tj3PathJoin dir a.2 = cstr "./" ++ a.2) := by
    intro dir habs
    have hhead : (tj3PathJoin dir a.2).head? = some 47 := by
      rw [tj3PathJoin, List.head?_append, habs]
      rfl
    refine ⟨skipDotSlash_absolute hhead, ?_⟩
    rintro (heq | heq)
    · have := congrArg List.length heq
      rw [tj3PathJoin, List.length_append, List.length_cons] at this
      omega
    · rw [heq] at hhead
      have hdot' : (cstr "./" ++ a.2).head? = some 46 := rfl
      rw [hdot'] at hhead
      exact absurd hhead (by decide)
  rcases hpath with rfl | rfl | rfl | ⟨dir, hdir, rfl⟩
  · rw [skipDotSlash_of_ne hdot, skipDotSlash_stripStaging h hdot]
    exact ⟨fun hs _ => hs, fun hs => hs (Or.inl rfl)⟩
  · have hskip : skipDotSlash (cstr "./" ++ a.2) = skipDotSlash a.2 := by
      show skipDotSlash (46 :: 47 :: a.2) = _
      rw [skipDotSlash]
    rw [hskip, skipDotSlash_of_ne hdot, skipDotSlash_stripStaging h hdot]
    exact ⟨fun hs _ => hs, fun hs => hs (Or.inr rfl)⟩
  · obtain ⟨hskip, hne⟩ := hjoin tmpdir h.absolute
    rw [hskip, stripStaging_tmpdir h, skipDotSlash_of_ne hdot]
    exact ⟨fun _ hs => absurd hs hne, fun _ => rfl⟩
  · obtain ⟨hskip, hne⟩ := hjoin dir (h.real dir hdir).1
    rw [hskip, stripStaging_real h hdir, skipDotSlash_of_ne hdot]
    exact ⟨fun _ hs => absurd hs hne, fun _ => rfl⟩

end Members

/-! ### Lines -/

section Report

variable (tmpdir : CStr) (realTmp : Option CStr) (members : List (Member × CStr))

/-- What a line reports, if it reports something: the URI and the diagnostic. -/
def lineDiagnostic (line : CStr) : Option (CStr × Diagnostic) := do
  let (severity, location, message) ←
    ((splitAtMarker (cstr ": Error: ") line).map fun p => (Severity.error, p)).or
      ((splitAtMarker (cstr ": Warning: ") line).map fun p => (Severity.warning, p))
  let (path, digits) ← splitLastColon location
  let lineno ← lineNumber digits
  let uri ← mapReportedPath path tmpdir realTmp members
  let l := UInt32.ofNat (lineno - 1)
  return (uri, ⟨⟨⟨l, 0⟩, ⟨l, intMax⟩⟩, severity, cstr "tj3", message⟩)

theorem parseDiagnosticLine_eq (out : DiagSet) (line : CStr) :
    parseDiagnosticLine tmpdir realTmp members out line =
      (lineDiagnostic tmpdir realTmp members line).elim out fun p => diagSetAdd out p.1 p.2 := by
  unfold parseDiagnosticLine lineDiagnostic
  generalize ((splitAtMarker (cstr ": Error: ") line).map fun p => (Severity.error, p)).or
    ((splitAtMarker (cstr ": Warning: ") line).map fun p => (Severity.warning, p)) = found
  rcases found with _ | ⟨severity, location, message⟩
  · rfl
  · simp only [Option.bind_eq_bind, Option.bind_some]
    rcases splitLastColon location with _ | ⟨path, digits⟩
    · rfl
    · simp only [Option.bind_some]
      cases lineNumber digits with
      | none => rfl
      | some lineno =>
        cases mapReportedPath path tmpdir realTmp members with
        | none => rfl
        | some uri => rfl

theorem items_diagSetAdd (s : DiagSet) (uri u : CStr) (d : Diagnostic) :
    DiagSet.items (diagSetAdd s u d) uri = DiagSet.items s uri ++ if u = uri then [d] else [] := by
  induction s with
  | nil =>
    by_cases hu : u = uri <;> simp [diagSetAdd, DiagSet.items, hu]
  | cons f s ih =>
    unfold DiagSet.items at ih ⊢
    rw [diagSetAdd]
    split_ifs with hf hu hu
    · subst hf
      simp [hu]
    · subst hf
      simp [hu]
    · have hfu : ¬ f.uri = uri := fun h => hf (h.trans hu.symm)
      rw [if_pos hu] at ih
      simpa [hfu] using ih
    · rw [if_neg hu] at ih
      by_cases hfu : f.uri = uri <;> simp [hfu] at ih ⊢
      exact ih

/-- **Several lines** are read one after the other. -/
theorem items_parseDiagnostics {lines : List CStr} (hlines : ∀ line ∈ lines, 10 ∉ line ∧ 0 ∉ line)
    (out : DiagSet) (uri : CStr) :
    DiagSet.items (parseDiagnostics (some (List.intercalate [10] lines)) tmpdir realTmp members out)
      uri = DiagSet.items out uri ++ lines.flatMap fun line =>
        DiagSet.items (parseDiagnosticLine tmpdir realTmp members [] line) uri := by
  have hone : ∀ out line, DiagSet.items (parseDiagnosticLine tmpdir realTmp members out line) uri
      = DiagSet.items out uri
        ++ DiagSet.items (parseDiagnosticLine tmpdir realTmp members [] line) uri := by
    intro out line
    rw [parseDiagnosticLine_eq, parseDiagnosticLine_eq]
    cases lineDiagnostic tmpdir realTmp members line with
    | none => exact (List.append_nil _).symm
    | some p =>
      simp only [Option.elim_some]
      rw [items_diagSetAdd, items_diagSetAdd]
      rfl
  have hfold : ∀ (ls : List CStr) out,
      DiagSet.items (ls.foldl (parseDiagnosticLine tmpdir realTmp members) out) uri
        = DiagSet.items out uri ++ ls.flatMap fun line =>
          DiagSet.items (parseDiagnosticLine tmpdir realTmp members [] line) uri := by
    intro ls
    induction ls with
    | nil =>
      intro out
      exact (List.append_nil _).symm
    | cons line ls ih =>
      intro out
      rw [List.foldl_cons, ih, hone out line, List.flatMap_cons, List.append_assoc]
  -- an empty line reports nothing
  have hempty : ∀ ls : List CStr, ((ls.filter (· ≠ [])).flatMap fun line =>
      DiagSet.items (parseDiagnosticLine tmpdir realTmp members [] line) uri)
        = ls.flatMap fun line =>
          DiagSet.items (parseDiagnosticLine tmpdir realTmp members [] line) uri := by
    intro ls
    induction ls with
    | nil => rfl
    | cons line ls ih =>
      by_cases hline : line = []
      · subst hline
        rw [List.filter_cons_of_neg (by simp), ih]
        rfl
      · rw [List.filter_cons_of_pos (by simpa using hline), List.flatMap_cons, List.flatMap_cons, ih]
  have hsplit : (((cutNul (List.intercalate [10] lines)).splitOn 10).filter (· ≠ []))
      = lines.filter (· ≠ []) := by
    by_cases hne : lines = []
    · subst hne
      rfl
    · have h0 : 0 ∉ List.intercalate [10] lines := by
        intro h0
        rcases mem_of_mem_intercalate h0 with h0 | ⟨line, hline, h0⟩
        · exact absurd h0 (by decide)
        · exact (hlines line hline).2 h0
      rw [cutNul_eq h0, List.splitOn_intercalate 10 (fun line hline => (hlines line hline).1) hne]
  show DiagSet.items (List.foldl _ _ (((cutNul _).splitOn 10).filter (· ≠ []))) uri = _
  rw [hsplit, hfold, hempty]

/-- The diagnostic that a line stands for. -/
def reported (n : ℕ) (severity : Severity) (message : CStr) : Diagnostic :=
  ⟨⟨⟨UInt32.ofNat (n - 1), 0⟩, ⟨UInt32.ofNat (n - 1), intMax⟩⟩, severity, cstr "tj3", message⟩

/-- A line is read back as one diagnostic, and `lineno` stays an `int` meanwhile. -/
structure ReadsBack (uri path : CStr) (n : ℕ) (severity : Severity) (message : CStr) : Prop where
  inRange : LineNumberInRange (decimal n)
  parsed : ∀ out, parseDiagnosticLine tmpdir realTmp members out
    (reportLine path n severity message) = diagSetAdd out uri (reported n severity message)

/-- It is clear how a line is to be read: its number is an `int`, its first marker is the one behind
the number, and no warning has the marker of an error in it. -/
structure Unambiguous (rel path : CStr) (n : ℕ) (severity : Severity) (message : CStr) :
    Prop where
  number : n ≤ 2147483647
  marked : ¬ severity.marker <:+: path
  warning : severity = .warning → ¬ Severity.error.marker <:+: path ∧
    ¬ Severity.error.marker <:+: cstr ": " ++ message
  unstaged : (path = rel ∨ path = cstr "./" ++ rel) → ¬ Staged tmpdir realTmp rel

variable {tmpdir realTmp members}

theorem lineDiagnostic_marker {line uri : CStr} {d : Diagnostic}
    (h : lineDiagnostic tmpdir realTmp members line = some (uri, d)) :
    ∃ location, splitAtMarker d.severity.marker line = some (location, d.message) ∧
      (d.severity = .warning → splitAtMarker Severity.error.marker line = none) := by
  unfold lineDiagnostic at h
  simp only [Option.bind_eq_bind, Option.bind_eq_some_iff] at h
  obtain ⟨⟨severity, location, message⟩, hfound, ⟨path, digits⟩, -, lineno, -, u, -, heq⟩ := h
  simp only [Option.pure_def, Option.some.injEq, Prod.mk.injEq] at heq
  obtain ⟨-, rfl⟩ := heq
  refine ⟨location, ?_⟩
  rcases Option.or_eq_some_iff.mp hfound with herror | ⟨hnone, hwarning⟩
  · obtain ⟨p, hp, hpeq⟩ := Option.map_eq_some_iff.mp herror
    simp only [Prod.mk.injEq] at hpeq
    obtain ⟨rfl, rfl⟩ := hpeq
    exact ⟨hp, fun hsev => by cases hsev⟩
  · obtain ⟨p, hp, hpeq⟩ := Option.map_eq_some_iff.mp hwarning
    simp only [Prod.mk.injEq] at hpeq
    obtain ⟨rfl, rfl⟩ := hpeq
    exact ⟨hp, fun _ => Option.map_eq_none_iff.mp hnone⟩

/-- **What a line reports**, where its markers are clear. -/
theorem lineDiagnostic_reportLine {path message : CStr} {n : ℕ} {severity : Severity}
    (hpath : ¬ severity.marker <:+: path)
    (hwarning : severity = .warning → ¬ Severity.error.marker <:+: path ∧
      ¬ Severity.error.marker <:+: cstr ": " ++ message) :
    lineDiagnostic tmpdir realTmp members (reportLine path n severity message)
      = (mapReportedPath path tmpdir realTmp members).map fun uri =>
        (uri, reported n severity message) := by
  have hcolon : (58 : UInt8) ∉ decimal n := fun hmem => absurd (isDigit_of_mem_decimal hmem) (by decide)
  have hsplit : splitAtMarker severity.marker (reportLine path n severity message)
      = some (path ++ 58 :: decimal n, message) := splitAtMarker_reportLine hpath
  have hfound : ((splitAtMarker (cstr ": Error: ") (reportLine path n severity message)).map
      fun p => (Severity.error, p)).or ((splitAtMarker (cstr ": Warning: ")
        (reportLine path n severity message)).map fun p => (Severity.warning, p))
      = some (severity, path ++ 58 :: decimal n, message) := by
    cases severity with
    | error =>
      rw [Severity.marker] at hsplit
      rw [hsplit]
      rfl
    | warning =>
      obtain ⟨herror, hmessage⟩ := hwarning rfl
      have hnone : splitAtMarker (cstr ": Error: ") (reportLine path n .warning message) = none := by
        cases h : splitAtMarker (cstr ": Error: ") (reportLine path n .warning message) with
        | none => rfl
        | some p =>
          have hinfix : Severity.error.marker <:+: reportLine path n .warning message := by
            obtain ⟨heq, -⟩ := splitAtMarker_eq_some h
            exact ⟨p.1, p.2, by rw [heq, List.append_assoc]; rfl⟩
          rcases error_infix_warning.mp hinfix with h | h
          · exact absurd h herror
          · exact absurd h hmessage
      rw [Severity.marker] at hsplit
      rw [hnone, hsplit]
      rfl
  unfold lineDiagnostic
  rw [hfound]
  simp only [Option.bind_eq_bind, Option.bind_some, splitLastColon_append hcolon,
    lineNumber_decimal n]
  cases mapReportedPath path tmpdir realTmp members <;> rfl

end Report

section RoundTrip

variable {members : List Member} {tmpdir : CStr} {realTmp : Option CStr}

/-- **When a line is read back.** -/
theorem readsBack_iff (h : StagingDir tmpdir realTmp) (hm : ∀ m ∈ members, m.FromUri)
    {a : Member × CStr} (ha : a ∈ assignMemberRelpaths members) {path : CStr}
    (hpath : Spells tmpdir realTmp a.2 path) (n : ℕ) (severity : Severity)
    (message : CStr) :
    ReadsBack tmpdir realTmp (assignMemberRelpaths members) a.1.uri path n severity message ↔
      Unambiguous tmpdir realTmp a.2 path n severity message := by
  constructor
  · rintro ⟨hrange, hparsed⟩
    have hline : lineDiagnostic tmpdir realTmp (assignMemberRelpaths members)
        (reportLine path n severity message) = some (a.1.uri, reported n severity message) := by
      have hnil := hparsed []
      rw [parseDiagnosticLine_eq] at hnil
      cases hd : lineDiagnostic tmpdir realTmp (assignMemberRelpaths members)
        (reportLine path n severity message) with
      | none =>
        rw [hd] at hnil
        cases hnil
      | some p =>
        rw [hd] at hnil
        simp only [Option.elim_some, diagSetAdd, List.cons.injEq, DiagFile.mk.injEq, and_true] at hnil
        exact congrArg some (Prod.ext hnil.1 hnil.2)
    obtain ⟨location, hsplit, hnone⟩ := lineDiagnostic_marker hline
    have hpath' : ¬ severity.marker <:+: path := fun hmark => splitAtMarker_in_path hmark hsplit
    have hwarning : severity = .warning → ¬ Severity.error.marker <:+: path ∧
        ¬ Severity.error.marker <:+: cstr ": " ++ message := by
      rintro rfl
      have hnot := splitAtMarker_eq_none (hnone rfl) (by decide)
      rw [error_infix_warning, not_or] at hnot
      exact hnot
    refine ⟨lineNumberInRange_decimal.mp hrange, hpath', hwarning, ?_⟩
    rw [lineDiagnostic_reportLine hpath' hwarning] at hline
    obtain ⟨uri, huri, heq⟩ := Option.map_eq_some_iff.mp hline
    rw [Prod.mk.injEq] at heq
    rw [heq.1] at huri
    exact (mapReportedPath_iff h hm ha hpath).mp huri
  · rintro ⟨hnumber, hpath', hwarning, hunstaged⟩
    refine ⟨lineNumberInRange_decimal.mpr hnumber, fun out => ?_⟩
    rw [parseDiagnosticLine_eq, lineDiagnostic_reportLine hpath' hwarning,
      (mapReportedPath_iff h hm ha hpath).mpr hunstaged]
    rfl

/-- **The round trip**: the lines that are read back, and that lines are read one by one. -/
theorem report_round_trip (h : StagingDir tmpdir realTmp) (hm : ∀ m ∈ members, m.FromUri) :
    (∀ a ∈ assignMemberRelpaths members, ∀ path, Spells tmpdir realTmp a.2 path → ∀ n, 1 ≤ n →
      ∀ severity message,
        ReadsBack tmpdir realTmp (assignMemberRelpaths members) a.1.uri path n severity message ↔
          Unambiguous tmpdir realTmp a.2 path n severity message) ∧
    ∀ lines : List CStr, (∀ line ∈ lines, 10 ∉ line ∧ 0 ∉ line) → ∀ out uri,
      DiagSet.items (parseDiagnostics (some (List.intercalate [10] lines)) tmpdir realTmp
        (assignMemberRelpaths members) out) uri
      = DiagSet.items out uri ++ lines.flatMap fun line => DiagSet.items
        (parseDiagnosticLine tmpdir realTmp (assignMemberRelpaths members) [] line) uri :=
  ⟨fun _ ha _ hpath n _ severity message => readsBack_iff h hm ha hpath n severity message,
    fun _ hlines out uri => items_parseDiagnostics tmpdir realTmp _ hlines out uri⟩

/-- A project of one file, and where it is staged. -/
def stagedFile : List Member := [⟨cstr "/ws/a.tjp", cstr "file:///ws/a.tjp", none⟩]

theorem stagedFile_fromUri : ∀ m ∈ stagedFile, m.FromUri := by
  intro m hm
  rw [List.mem_singleton.mp hm]
  have hnone : RealpathAbsolute fun _ => none := fun path real h => by cases h
  exact ⟨⟨_, cstr "file:///ws/a.tjp", hnone, by decide +kernel⟩, by decide +kernel⟩

theorem stagedFile_dir : StagingDir (cstr "/tmp/tjlsp-a") (some (cstr "/private/tmp/tjlsp-a")) := by
  refine ⟨rfl, fun dir hdir => ?_⟩
  rw [Option.some.injEq] at hdir
  subst hdir
  refine ⟨rfl, Or.inr fun rest rest' h => ?_⟩
  have hsecond : some (112 : UInt8) = some 116 := congrArg (fun l : CStr => l[1]?) h
  exact absurd hsecond (by decide)

/-- A warning of this file that is written with the staging directory. -/
theorem report_round_trip_stagedFile :
    parseDiagnosticLine (cstr "/tmp/tjlsp-a") (some (cstr "/private/tmp/tjlsp-a"))
      (assignMemberRelpaths stagedFile) []
      (reportLine (cstr "/tmp/tjlsp-a/a.tjp") 12 .warning (cstr "b: 3"))
      = diagSetAdd [] (cstr "file:///ws/a.tjp") (reported 12 .warning (cstr "b: 3")) := by
  have h := (report_round_trip stagedFile_dir stagedFile_fromUri).1
    (⟨cstr "/ws/a.tjp", cstr "file:///ws/a.tjp", none⟩, cstr "a.tjp") (by decide +kernel)
    (cstr "/tmp/tjlsp-a/a.tjp") (Or.inr (Or.inr (Or.inl (by decide)))) 12 (by decide) .warning
    (cstr "b: 3")
  refine (h.mpr ⟨by decide, by decide +kernel, fun _ => by decide +kernel, ?_⟩).parsed []
  rintro (h | h) <;> exact absurd h (by decide)

/-- **A warning with the marker of an error** in its message is lost. -/
theorem warning_lost : ¬ ∀ (tmpdir : CStr) (realTmp : Option CStr) (members : List Member),
    StagingDir tmpdir realTmp → (∀ m ∈ members, m.FromUri) →
    ∀ a ∈ assignMemberRelpaths members, ∀ path, Spells tmpdir realTmp a.2 path → ∀ n, 1 ≤ n →
      ∀ severity message, 10 ∉ message →
        ReadsBack tmpdir realTmp (assignMemberRelpaths members) a.1.uri path n severity message := by
  intro h
  have hlost := (h _ _ _ stagedFile_dir stagedFile_fromUri
    (⟨cstr "/ws/a.tjp", cstr "file:///ws/a.tjp", none⟩, cstr "a.tjp") (by decide +kernel)
    (cstr "a.tjp") (Or.inl rfl) 12 (by decide) .warning (cstr "b: Error: c") (by decide)).parsed []
  exact absurd hlost (by decide +kernel)

end RoundTrip

end TaskjugglerLsp
