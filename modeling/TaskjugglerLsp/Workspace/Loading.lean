import TaskjugglerLsp.Workspace

/-!
# What loading changes

`Loads s s'`: the slots in use keep everything but their prefixes and their
include list, and a slot taken since holds a file just loaded.  The relation is
reflexive and transitive, following includes is a fold of steps that have it, and
so loading has it (`loads_loadFile`), by induction on the free slots.

The same induction gives the equation of the source (`loadFileFromDisk_eq`): the
bound on the free slots never gets in the way.
-/

namespace TaskjugglerLsp

/-! ### The slots -/

namespace Store

variable {s : Store} {i j : Slot} {d : Document} {f : Document → Document}

@[simp] theorem modify_self : s.modify i f i = (s i).map f := by simp [modify]

@[simp] theorem modify_of_ne (h : j ≠ i) : s.modify i f j = s j := by simp [modify, h]

@[simp] theorem put_self : s.put i d i = some d := by simp [put]

@[simp] theorem put_of_ne (h : j ≠ i) : s.put i d j = s j := by simp [put, h]

theorem modify_of_none (h : s i = none) : s.modify i f = s := by
  rw [modify, h, Option.map_none, ← h, Function.update_eq_self]

theorem modify_isNone (j : Slot) : (s.modify i f j).isNone = (s j).isNone := by
  by_cases h : j = i
  · rw [h, modify_self, Option.isNone_map]
  · rw [modify_of_ne h]

theorem modifyFound_apply (s : Store) (o : Option Slot) (f : Document → Document) (j : Slot) :
    s.modifyFound o f j = (s j).map fun d => if o = some j then f d else d := by
  cases o with
  | none => simp only [modifyFound, reduceCtorEq, if_false, Option.map_id']
  | some i =>
    by_cases h : j = i
    · subst h
      simp only [modifyFound, modify_self, if_true]
    · have hne : some i ≠ some j := fun he => h (Option.some.inj he).symm
      simp only [modifyFound, modify_of_ne h, if_neg hne, Option.map_id']

theorem findExact_some {uri : CStr} (h : s.findExact uri = some i) :
    ∃ d, s i = some d ∧ d.uri = uri := by
  have hp := List.find?_some h
  rw [Option.any_eq_true] at hp
  obtain ⟨d, hd, hu⟩ := hp
  exact ⟨d, hd, of_decide_eq_true hu⟩

theorem findExact_none {uri : CStr} (h : s.findExact uri = none) (hd : s i = some d) :
    d.uri ≠ uri := by
  intro hu
  have hp := List.find?_eq_none.mp h i (List.mem_finRange i)
  simp [hd, hu] at hp

/-- No two slots hold documents with the same URI. -/
def UniqueUris (s : Store) : Prop :=
  ∀ i j d e, s i = some d → s j = some e → d.uri = e.uri → i = j

/-- The parse of each document carries the document's URI, as `docsnap_new` copies it. -/
def SnapUris (s : Store) : Prop :=
  ∀ i d snap, s i = some d → d.snap = some snap → snap.uri = d.uri

theorem UniqueUris.modify (h : s.UniqueUris) (hf : ∀ d, (f d).uri = d.uri) :
    (s.modify i f).UniqueUris := by
  have hget : ∀ {j e}, s.modify i f j = some e → ∃ d, s j = some d ∧ e.uri = d.uri := by
    intro j e he
    by_cases hj : j = i
    · subst hj
      rw [modify_self, Option.map_eq_some_iff] at he
      obtain ⟨d, hd, rfl⟩ := he
      exact ⟨d, hd, hf d⟩
    · rw [modify_of_ne hj] at he
      exact ⟨e, he, rfl⟩
  intro j k d e hd he hu
  obtain ⟨d', hd', hu1⟩ := hget hd
  obtain ⟨e', he', hu2⟩ := hget he
  exact h _ _ _ _ hd' he' (by rw [← hu1, ← hu2, hu])

theorem UniqueUris.put (h : s.UniqueUris) (hd : ∀ j e, j ≠ i → s j = some e → e.uri ≠ d.uri) :
    (s.put i d).UniqueUris := by
  intro j k e e' he he' hu
  by_cases hj : j = i
  · subst hj
    by_contra hk
    rw [put_self, Option.some.injEq] at he
    rw [put_of_ne (Ne.symm hk)] at he'
    exact hd k e' (Ne.symm hk) he' (by rw [he, hu])
  · rw [put_of_ne hj] at he
    by_cases hk : k = i
    · subst hk
      rw [put_self, Option.some.injEq] at he'
      exact absurd (by rw [he', hu]) (hd j e hj he)
    · rw [put_of_ne hk] at he'
      exact h _ _ _ _ he he' hu

theorem firstFree_some (h : s.firstFree = some i) : s i = none := by
  have hp := List.find?_some h
  simpa using hp

theorem firstFree_none (h : s.firstFree = none) (i : Slot) : (s i).isSome := by
  have hp := List.find?_eq_none.mp h i (List.mem_finRange i)
  cases hi : s i with
  | none => exact absurd (by rw [hi]; rfl) hp
  | some d => rfl

end Store

section Find

variable {realpath : CStr → Option CStr} {s : Store} {i : Slot} {d : Document} {uri : CStr}

theorem docFind_some (h : docFind realpath s uri = some i) :
    ∃ d, s i = some d ∧ (d.uri = uri ∨ d.uri = normalizeUri realpath uri) := by
  unfold docFind at h
  split at h
  · rename_i j hj
    obtain rfl := Option.some.inj h
    obtain ⟨d, hd, hu⟩ := Store.findExact_some hj
    exact ⟨d, hd, Or.inl hu⟩
  · by_cases hc : normalizeUri realpath uri = uri
    · simp [hc] at h
    · rw [if_pos hc] at h
      obtain ⟨d, hd, hu⟩ := Store.findExact_some h
      exact ⟨d, hd, Or.inr hu⟩

theorem docFind_none (h : docFind realpath s uri = none) (hd : s i = some d) :
    d.uri ≠ uri ∧ d.uri ≠ normalizeUri realpath uri := by
  unfold docFind at h
  split at h
  · cases h
  · rename_i hx
    refine ⟨Store.findExact_none hx hd, ?_⟩
    by_cases hc : normalizeUri realpath uri = uri
    · rw [hc]
      exact Store.findExact_none hx hd
    · rw [if_pos hc] at h
      exact Store.findExact_none h hd

theorem docAlloc_some {s' : Store} (h : docAlloc realpath s uri = some (i, s')) :
    s i = none ∧ s' = s.put i (freshDocument (normalizeUri realpath uri)) := by
  obtain ⟨j, hj, he⟩ := Option.map_eq_some_iff.mp h
  cases he
  exact ⟨Store.firstFree_some hj, rfl⟩

theorem docAlloc_none (h : docAlloc realpath s uri = none) (i : Slot) : (s i).isSome :=
  Store.firstFree_none (Option.map_eq_none_iff.mp h) i

end Find

/-! ### The relation -/

/-- `d'` is `d` but for the prefixes and the include list. -/
def Relabelled (d d' : Document) : Prop :=
  ∃ prefixes uris, d' = { d with prefixes := prefixes, includedUris := uris }

theorem Relabelled.refl (d : Document) : Relabelled d d := ⟨d.prefixes, d.includedUris, rfl⟩

theorem Relabelled.trans {d d' d'' : Document} (h : Relabelled d d') (h' : Relabelled d' d'') :
    Relabelled d d'' := by
  obtain ⟨_, _, rfl⟩ := h
  obtain ⟨ps, us, rfl⟩ := h'
  exact ⟨ps, us, rfl⟩

section Loads

variable (w : World) (parse : CStr → ParseOutput)

/-- A document that has just been loaded from disk. -/
def Loaded (d : Document) : Prop :=
  ∃ path text, w.readFile path = some text ∧
    Relabelled (({ freshDocument (normalizeUri w.realpath (pathToUri path)) with
      text := some text, diskOnly := true } : Document).installParse (parse text)) d

/-- Loading leads from one store to the other. -/
structure Loads (s s' : Store) : Prop where
  keeps : ∀ {i d}, s i = some d → ∃ d', s' i = some d' ∧ Relabelled d d'
  adds : ∀ {i d'}, s i = none → s' i = some d' → Loaded w parse d'
  unique : s.UniqueUris → s'.UniqueUris

variable {w parse}

theorem Loaded.relabel {d d' : Document} (h : Loaded w parse d) (h' : Relabelled d d') :
    Loaded w parse d' := by
  obtain ⟨path, text, hr, hd⟩ := h
  exact ⟨path, text, hr, hd.trans h'⟩

theorem Loads.refl (s : Store) : Loads w parse s s := by
  constructor
  · intro i d h
    exact ⟨d, h, .refl d⟩
  · intro i d' h h'
    rw [h] at h'
    cases h'
  · intro h
    exact h

theorem Loads.trans {s s' s'' : Store} (h : Loads w parse s s') (h' : Loads w parse s' s'') :
    Loads w parse s s'' := by
  constructor
  · intro i d hd
    obtain ⟨d', hd', hr⟩ := h.keeps hd
    obtain ⟨d'', hd'', hr'⟩ := h'.keeps hd'
    exact ⟨d'', hd'', hr.trans hr'⟩
  · intro i d'' hd hd''
    cases hs : s' i with
    | none => exact h'.adds hs hd''
    | some d' =>
      obtain ⟨e, he, hr⟩ := h'.keeps hs
      rw [hd''] at he
      obtain rfl := Option.some.inj he
      exact (h.adds hd hs).relabel hr
  · intro hu
    exact h'.unique (h.unique hu)

/-- Changing the prefixes or the include list of a slot is loading nothing. -/
theorem loads_modify (s : Store) (i : Slot) {f : Document → Document}
    (hf : ∀ d, Relabelled d (f d)) : Loads w parse s (s.modify i f) := by
  constructor
  · intro j d hd
    by_cases hj : j = i
    · subst hj
      exact ⟨f d, by rw [Store.modify_self, hd, Option.map_some], hf d⟩
    · exact ⟨d, by rw [Store.modify_of_ne hj, hd], .refl d⟩
  · intro j d' hd hd'
    by_cases hj : j = i
    · subst hj
      rw [Store.modify_self, hd] at hd'
      cases hd'
    · rw [Store.modify_of_ne hj, hd] at hd'
      cases hd'
  · intro hu
    refine Store.UniqueUris.modify hu fun d => ?_
    obtain ⟨ps, us, h⟩ := hf d
    rw [h]

theorem Loads.isSome {s s' : Store} (h : Loads w parse s s') {i : Slot} (hi : (s i).isSome) :
    (s' i).isSome := by
  obtain ⟨d, hd⟩ := Option.isSome_iff_exists.mp hi
  obtain ⟨d', hd', -⟩ := h.keeps hd
  rw [hd']
  rfl

/-! ### Following includes -/

variable {load : CStr → Store → Store}

/-- A document after a directive has been followed: it has the prefixes of the directive, if that
leads to it, and the URI on its list, if the directive is in its text. -/
def Document.recorded (target includer : Option Slot) (i : Slot) (ps : PrefixSet) (uri : CStr)
    (d : Document) : Document :=
  { d with
    prefixes := if target = some i then ps else d.prefixes
    includedUris := if includer = some i then d.includedUris ++ [uri] else d.includedUris }

theorem Store.recorded_apply (s : Store) (target includer : Option Slot) (ps : PrefixSet)
    (uri : CStr) (i : Slot) :
    ((s.modifyFound target fun d => { d with prefixes := ps }).modifyFound includer fun d =>
      { d with includedUris := d.includedUris ++ [uri] }) i
        = (s i).map (Document.recorded target includer i ps uri) := by
  rw [Store.modifyFound_apply, Store.modifyFound_apply, Option.map_map]
  congr 1
  funext d
  unfold Document.recorded
  by_cases ht : target = some i <;> by_cases hi : includer = some i <;>
    simp only [Function.comp_apply, ht, hi, if_true, if_false]

theorem loads_modifyFound (s : Store) (o : Option Slot) {f : Document → Document}
    (hf : ∀ d, Relabelled d (f d)) : Loads w parse s (s.modifyFound o f) := by
  cases o with
  | none => exact .refl s
  | some i => exact loads_modify s i hf

theorem loads_followInclude (hload : ∀ path s, Loads w parse s (load path s)) (filePath : CStr)
    (includer : Option Slot) (s : Store) (inc : IncludeRef) :
    Loads w parse s (followInclude w load filePath includer s inc) := by
  refine (hload _ s).trans ((loads_modifyFound _ _ fun d => ?_).trans
    (loads_modifyFound _ includer fun d => ?_))
  · exact ⟨inc.prefixes, d.includedUris, rfl⟩
  · exact ⟨d.prefixes, _, rfl⟩

theorem loads_foldl_followInclude (hload : ∀ path s, Loads w parse s (load path s))
    (filePath : CStr) (includer : Option Slot) (includes : List IncludeRef) (s : Store) :
    Loads w parse s (includes.foldl (followInclude w load filePath includer) s) := by
  induction includes generalizing s with
  | nil => exact .refl s
  | cons inc includes ih =>
    exact (loads_followInclude hload filePath includer s inc).trans (ih _)

theorem loads_followIncludes (hload : ∀ path s, Loads w parse s (load path s)) (filePath : CStr)
    (po : ParseOutput) (s : Store) : Loads w parse s (followIncludes w load filePath po s) := by
  refine Loads.trans ?_ (loads_foldl_followInclude hload filePath _ _ _)
  exact loads_modifyFound s _ fun d => ⟨d.prefixes, [], rfl⟩

/-- **Installing a text** is loading, and then installing the parse in its slot. -/
theorem parseInto_spec (hload : ∀ path s, Loads w parse s (load path s)) (s : Store) (i : Slot)
    (text : CStr) (path : Option CStr) :
    ∃ s', Loads w parse s s' ∧
      parseInto w parse load s i text path = s'.modify i fun d => d.installParse (parse text) := by
  cases path with
  | none => exact ⟨s, .refl s, rfl⟩
  | some path => exact ⟨_, loads_followIncludes hload path (parse text) s, rfl⟩

/-! ### Loading -/

/-- A slot just allocated and then loaded into is loading. -/
theorem loads_install (hload : ∀ path s, Loads w parse s (load path s)) {s : Store} {i : Slot}
    {path text : CStr} (hi : s i = none) (hr : w.readFile path = some text)
    (hf : docFind w.realpath s (pathToUri path) = none) :
    Loads w parse s (installDiskText w parse load
      (s.put i (freshDocument (normalizeUri w.realpath (pathToUri path)))) i text path) := by
  obtain ⟨s', hl, he⟩ := parseInto_spec hload
    ((s.put i (freshDocument (normalizeUri w.realpath (pathToUri path)))).modify i
      fun d => { d with text := some text, diskOnly := true }) i text (some path)
  rw [installDiskText, he]
  constructor
  · intro j d hd
    have hj : j ≠ i := by
      rintro rfl
      rw [hi] at hd
      cases hd
    rw [Store.modify_of_ne hj]
    exact hl.keeps (by rwa [Store.modify_of_ne hj, Store.put_of_ne hj])
  · intro j d' hd hd'
    by_cases hj : j = i
    · subst hj
      obtain ⟨e, he', hrel⟩ := hl.keeps (i := j) (by rw [Store.modify_self, Store.put_self]; rfl)
      rw [Store.modify_self, he'] at hd'
      obtain rfl := Option.some.inj hd'
      obtain ⟨ps, us, rfl⟩ := hrel
      exact ⟨path, text, hr, ps, us, rfl⟩
    · rw [Store.modify_of_ne hj] at hd'
      exact hl.adds (by rwa [Store.modify_of_ne hj, Store.put_of_ne hj]) hd'
  · intro hu
    have hput : (s.put i (freshDocument (normalizeUri w.realpath (pathToUri path)))).UniqueUris :=
      hu.put fun j e _ he => (docFind_none hf he).2
    exact (hl.unique (hput.modify fun _ => rfl)).modify fun _ => rfl

/-- **Loading a file** changes no document in use, but for prefixes and includes. -/
theorem loads_loadFile (n : ℕ) (path : CStr) (s : Store) :
    Loads w parse s (loadFile w parse n path s) := by
  induction n generalizing path s with
  | zero => exact .refl s
  | succ n ih =>
    unfold loadFile
    simp only
    split
    · exact .refl s
    · rename_i hf
      split
      · exact .refl s
      · rename_i text hr
        split
        · exact .refl s
        · rename_i i s1 ha
          obtain ⟨hi, rfl⟩ := docAlloc_some ha
          exact loads_install ih hi hr (by simpa using hf)

theorem loads_loadFileFromDisk (path : CStr) (s : Store) :
    Loads w parse s (loadFileFromDisk w parse path s) := loads_loadFile _ path s

/-! ### The equation of the source -/

theorem countP_lt_of_mem {α : Type*} {p q : α → Bool} {l : List α} (h : ∀ x, p x → q x) {a : α}
    (ha : a ∈ l) (hq : q a) (hp : ¬ p a) : l.countP p < l.countP q := by
  induction l with
  | nil => cases ha
  | cons b l ih =>
    have hle : l.countP p ≤ l.countP q := List.countP_mono_left fun x _ => h x
    rcases List.mem_cons.mp ha with rfl | ha
    · rw [List.countP_cons_of_neg hp, List.countP_cons_of_pos hq]
      omega
    · have hlt := ih ha
      rw [List.countP_cons, List.countP_cons]
      have hb := h b
      by_cases hp : p b
      · rw [if_pos hp, if_pos (hb hp)]
        omega
      · rw [if_neg hp]
        omega

theorem freeCount_put_lt {s : Store} {i : Slot} (h : s i = none) (d : Document) :
    (s.put i d).freeCount < s.freeCount := by
  refine countP_lt_of_mem (fun j hj => ?_) (List.mem_finRange i) (by rw [h]; rfl) (by simp)
  by_cases hji : j = i
  · rw [hji, h]
    rfl
  · rwa [Store.put_of_ne hji] at hj

theorem freeCount_modify (s : Store) (i : Slot) (f : Document → Document) :
    (s.modify i f).freeCount = s.freeCount := by
  unfold Store.freeCount
  congr 1
  funext j
  exact Store.modify_isNone j

theorem freeCount_modifyFound (s : Store) (o : Option Slot) (f : Document → Document) :
    (s.modifyFound o f).freeCount = s.freeCount := by
  cases o with
  | none => rfl
  | some i => exact freeCount_modify s i f

theorem Loads.freeCount_le {s s' : Store} (h : Loads w parse s s') :
    s'.freeCount ≤ s.freeCount := by
  refine List.countP_mono_left fun i _ hi => ?_
  cases hs : s i with
  | none => rfl
  | some d =>
    have := h.isSome (i := i) (by rw [hs]; rfl)
    rw [Option.isNone_iff_eq_none.mp hi] at this
    cases this

theorem firstFree_of_freeCount {s : Store} (h : s.freeCount = 0) : s.firstFree = none := by
  rw [Store.freeCount, List.countP_eq_zero] at h
  exact List.find?_eq_none.mpr h

theorem foldl_followInclude_congr {load' : CStr → Store → Store} {k : ℕ}
    (hload : ∀ path s, Loads w parse s (load path s))
    (heq : ∀ path s, s.freeCount ≤ k → load path s = load' path s) (filePath : CStr)
    (includer : Option Slot) (includes : List IncludeRef) (s : Store) (hs : s.freeCount ≤ k) :
    includes.foldl (followInclude w load filePath includer) s
      = includes.foldl (followInclude w load' filePath includer) s := by
  induction includes generalizing s with
  | nil => rfl
  | cons inc includes ih =>
    have hstep : followInclude w load filePath includer s inc
        = followInclude w load' filePath includer s inc := by
      simp only [followInclude, heq _ s hs]
    rw [List.foldl_cons, List.foldl_cons, ← hstep]
    exact ih _ ((loads_followInclude hload filePath includer s inc).freeCount_le.trans hs)

theorem parseInto_congr {load' : CStr → Store → Store} {k : ℕ}
    (hload : ∀ path s, Loads w parse s (load path s))
    (heq : ∀ path s, s.freeCount ≤ k → load path s = load' path s) (s : Store)
    (hs : s.freeCount ≤ k) (i : Slot) (text : CStr) (path : Option CStr) :
    parseInto w parse load s i text path = parseInto w parse load' s i text path := by
  cases path with
  | none => rfl
  | some path =>
    simp only [parseInto, followIncludes]
    rw [foldl_followInclude_congr hload heq _ _ _ _ (by rwa [freeCount_modifyFound])]

theorem loadFile_eq (n m : ℕ) (path : CStr) (s : Store) (hn : s.freeCount ≤ n)
    (hm : s.freeCount ≤ m) : loadFile w parse n path s = loadFile w parse m path s := by
  have hzero : ∀ n (path : CStr) (s : Store), s.freeCount = 0 →
      loadFile w parse n path s = s := by
    intro n path s h0
    cases n with
    | zero => rfl
    | succ n =>
      have ha : docAlloc w.realpath s (pathToUri path) = none := by
        rw [docAlloc, firstFree_of_freeCount h0]
        rfl
      unfold loadFile
      simp only [ha]
      split
      · rfl
      · split <;> rfl
  induction n generalizing m path s with
  | zero => rw [hzero 0 path s (by omega), hzero m path s (by omega)]
  | succ n ih =>
    cases m with
    | zero => rw [hzero 0 path s (by omega), hzero (n + 1) path s (by omega)]
    | succ m =>
      unfold loadFile
      simp only
      split
      · rfl
      · split
        · rfl
        · split
          · rfl
          · rename_i i s1 ha
            obtain ⟨hi, rfl⟩ := docAlloc_some ha
            have hlt := freeCount_put_lt hi
              (freshDocument (normalizeUri w.realpath (pathToUri path)))
            refine parseInto_congr (k := min n m) (loads_loadFile n) ?_ _ ?_ i _ _
            · intro path' s' hs'
              exact ih m path' s' (by omega) (by omega)
            · rw [freeCount_modify]
              omega

/-- **The equation of `load_file_from_disk`**: the calls inside it are calls of itself. -/
theorem loadFileFromDisk_eq (path : CStr) (s : Store) :
    loadFileFromDisk w parse path s =
      if (docFind w.realpath s (pathToUri path)).isSome then s
      else
        match w.readFile path with
        | none => s
        | some text =>
          match docAlloc w.realpath s (pathToUri path) with
          | none => s
          | some (i, s) => installDiskText w parse (loadFileFromDisk w parse) s i text path := by
  rw [loadFileFromDisk, loadFile_eq s.freeCount (s.freeCount + 1) path s le_rfl (by omega), loadFile]
  by_cases hf : (docFind w.realpath s (pathToUri path)).isSome
  · rw [if_pos hf, if_pos hf]
  · rw [if_neg hf, if_neg hf]
    cases w.readFile path with
    | none => rfl
    | some text =>
      cases ha : docAlloc w.realpath s (pathToUri path) with
      | none => rfl
      | some p =>
        obtain ⟨i, s1⟩ := p
        obtain ⟨hi, rfl⟩ := docAlloc_some ha
        have hlt := freeCount_put_lt hi
          (freshDocument (normalizeUri w.realpath (pathToUri path)))
        refine parseInto_congr (k := s.freeCount) (loads_loadFile _) ?_ _ ?_ i _ _
        · intro path' s' hs'
          exact loadFile_eq _ _ path' s' hs' le_rfl
        · rw [freeCount_modify]
          omega

end Loads

end TaskjugglerLsp
