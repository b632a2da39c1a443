import TaskjugglerLsp.Grammar.Owners
import TaskjugglerLsp.Hover

/-!
# The active keyword

`active_keyword_at` and `active_context` take an entry from the stack of `scan_kw_stack`.  It is the
last keyword at the depth of the cursor in a scope that is still open there; the depth of a token is
what the scan counts, which does not fall below zero.

* `Stacked.step`: the depths on the stack.
* `Tracks.step`: at each depth, the stack has the last keyword whose scope is open.
* `active_keyword_scan`: what the two functions return.
-/

namespace TaskjugglerLsp

def kwDocsEnd : ℕ := 298

/-- `active_keyword_at`. -/
def activeKeywordAt (tokens : List TokenSpan) (cursor : LspPos) : Option (CStr × LspRange) :=
  let (stack, braceDepth) := scanKwStack tokens cursor kwDocsEnd false 512
  (stack.find? fun e => e.depth = braceDepth).map fun e => (e.kw, e.range)

/-! ### Depths -/

/-- The depth after a token. -/
def depthStep (depth : ℕ) (t : TokenSpan) : ℕ :=
  if t.tokenKind = tkLbrace then depth + 1 else if t.tokenKind = tkRbrace then depth - 1 else depth

/-- The depth after some tokens. -/
def depthAfter (tokens : List TokenSpan) : ℕ := tokens.foldl depthStep 0

/-- A token is neither a comment nor a brace. -/
def TokenSpan.IsWord (t : TokenSpan) : Prop :=
  t.isComment = false ∧ t.tokenKind ≠ tkLbrace ∧ t.tokenKind ≠ tkRbrace

instance (t : TokenSpan) : Decidable t.IsWord := inferInstanceAs (Decidable (_ ∧ _))

/-- A token is a keyword of the range below `kindMax`. -/
def TokenSpan.IsKeyword (kindMax : ℕ) (t : TokenSpan) : Prop :=
  t.IsWord ∧ t.tokenKind < kindMax ∧ t.text.isSome = true

/-- **A keyword in an open scope**: it stands at the depth, and the depth has not been left
since. -/
structure OpenKeyword (kindMax depth : ℕ) (tokens pre : List TokenSpan) (k : TokenSpan)
    (post : List TokenSpan) : Prop where
  split : tokens = pre ++ k :: post
  keyword : k.IsKeyword kindMax
  at_depth : depthAfter pre = depth
  stays_open : ∀ q, q <+: post → depth ≤ depthAfter (pre ++ k :: q)

/-- How many words at a depth end at the cursor or before it, from another depth on. -/
def countArgs (cursor : LspPos) (depth : ℕ) : ℕ → List TokenSpan → ℕ
  | _, [] => 0
  | current, t :: ts =>
    (if current = depth ∧ t.IsWord ∧ ¬ cursor.before t.stop then 1 else 0)
      + countArgs cursor depth (depthStep current t) ts

/-- The entry of the last keyword at a depth whose scope is open, if there is one. -/
inductive LastOpen (cursor : LspPos) (kindMax : ℕ) (trackArgc : Bool) (tokens : List TokenSpan)
    (depth : ℕ) : Option KwStackEntry → Prop
  | none : (∀ pre k post, ¬ OpenKeyword kindMax depth tokens pre k post) →
      LastOpen cursor kindMax trackArgc tokens depth none
  | some {pre : List TokenSpan} {k : TokenSpan} {post : List TokenSpan} :
      OpenKeyword kindMax depth tokens pre k post →
      (∀ pre' k' post', OpenKeyword kindMax depth tokens pre' k' post' → pre'.length ≤ pre.length) →
      LastOpen cursor kindMax trackArgc tokens depth (some ⟨k.text.getD [], ⟨k.start, k.stop⟩, depth,
        if trackArgc then countArgs cursor depth depth post else 0⟩)

theorem depthStep_of_isWord {t : TokenSpan} (h : t.IsWord) (depth : ℕ) : depthStep depth t = depth := by
  rw [depthStep, if_neg h.2.1, if_neg h.2.2]

theorem depthAfter_concat (tokens : List TokenSpan) (t : TokenSpan) :
    depthAfter (tokens ++ [t]) = depthStep (depthAfter tokens) t := by
  rw [depthAfter, List.foldl_append]
  rfl

theorem depthAfter_append (pre post : List TokenSpan) :
    depthAfter (pre ++ post) = post.foldl depthStep (depthAfter pre) := by
  rw [depthAfter, List.foldl_append]
  rfl

theorem countArgs_concat (cursor : LspPos) (depth current : ℕ) (post : List TokenSpan) (t : TokenSpan) :
    countArgs cursor depth current (post ++ [t]) = countArgs cursor depth current post
      + if post.foldl depthStep current = depth ∧ t.IsWord ∧ ¬ cursor.before t.stop then 1 else 0 := by
  induction post generalizing current with
  | nil => rw [List.nil_append, countArgs, countArgs, countArgs, Nat.add_comm]; rfl
  | cons u post ih => rw [List.cons_append, countArgs, ih, countArgs, List.foldl_cons, Nat.add_assoc]

section OpenKeyword

variable {kindMax depth : ℕ} {tokens pre post : List TokenSpan} {k t : TokenSpan}

/-- The depth after a keyword in an open scope, and behind it. -/
theorem OpenKeyword.depth_eq (h : OpenKeyword kindMax depth tokens pre k post) :
    depthAfter tokens = post.foldl depthStep depth := by
  rw [h.split, depthAfter_append, List.foldl_cons, depthStep_of_isWord h.keyword.1, h.at_depth]

theorem OpenKeyword.le_depth (h : OpenKeyword kindMax depth tokens pre k post) :
    depth ≤ depthAfter tokens := by
  rw [h.split]
  exact h.stays_open post List.prefix_rfl

theorem openKeyword_concat_iff : OpenKeyword kindMax depth (tokens ++ [t]) pre k post ↔
    (pre = tokens ∧ k = t ∧ post = [] ∧ t.IsKeyword kindMax ∧ depthAfter tokens = depth) ∨
      ∃ post', post = post' ++ [t] ∧ OpenKeyword kindMax depth tokens pre k post' ∧
        depth ≤ depthAfter (tokens ++ [t]) := by
  constructor
  · intro h
    rcases List.eq_nil_or_concat post with rfl | ⟨post', u, rfl⟩
    · obtain ⟨rfl, hk⟩ := List.append_inj' h.split rfl
      obtain rfl : t = k := by simpa using hk
      exact .inl ⟨rfl, rfl, rfl, h.keyword, h.at_depth⟩
    · have hsplit := h.split
      rw [List.concat_eq_append, ← List.cons_append, ← List.append_assoc] at hsplit
      obtain ⟨rfl, hu⟩ := List.append_inj' hsplit rfl
      obtain rfl : t = u := by simpa using hu
      refine .inr ⟨post', by rw [List.concat_eq_append], ⟨rfl, h.keyword, h.at_depth, ?_⟩, h.le_depth⟩
      intro q hq
      exact h.stays_open q (hq.trans (by rw [List.concat_eq_append]; exact List.prefix_append _ _))
  · rintro (⟨rfl, rfl, rfl, hkeyword, hdepth⟩ | ⟨post', rfl, h, hle⟩)
    · refine ⟨rfl, hkeyword, hdepth, fun q hq => ?_⟩
      rw [List.prefix_nil.mp hq, depthAfter_concat, depthStep_of_isWord hkeyword.1, hdepth]
    · refine ⟨by rw [h.split]; simp, h.keyword, h.at_depth, fun q hq => ?_⟩
      rcases List.prefix_concat_iff.mp hq with rfl | hq
      · rw [h.split] at hle
        simpa using hle
      · exact h.stays_open q hq

end OpenKeyword

/-! ### One token -/

section Names

variable {cursor : LspPos} {kindMax : ℕ} {trackArgc : Bool} {tokens : List TokenSpan} {depth : ℕ}
  {o : Option KwStackEntry} {t : TokenSpan}

/-- Whether a token is counted as an argument at a depth. -/
def Counted (cursor : LspPos) (trackArgc : Bool) (tokens : List TokenSpan) (depth : ℕ)
    (t : TokenSpan) : Prop :=
  trackArgc = true ∧ depthAfter tokens = depth ∧ t.IsWord ∧ ¬ cursor.before t.stop

instance : Decidable (Counted cursor trackArgc tokens depth t) :=
  inferInstanceAs (Decidable (_ ∧ _))

theorem LastOpen.concat (h : LastOpen cursor kindMax trackArgc tokens depth o)
    (hle : depth ≤ depthAfter (tokens ++ [t]))
    (hkeyword : ¬ (t.IsKeyword kindMax ∧ depthAfter tokens = depth)) :
    LastOpen cursor kindMax trackArgc (tokens ++ [t]) depth
      (if Counted cursor trackArgc tokens depth t then o.map fun e => { e with argc := e.argc + 1 }
        else o) := by
  have hopen : ∀ pre k post, OpenKeyword kindMax depth (tokens ++ [t]) pre k post →
      ∃ post', post = post' ++ [t] ∧ OpenKeyword kindMax depth tokens pre k post' := by
    intro pre k post hopen
    rcases openKeyword_concat_iff.mp hopen with ⟨-, -, -, hk, hdepth⟩ | ⟨post', hpost, hopen, -⟩
    · exact absurd ⟨hk, hdepth⟩ hkeyword
    · exact ⟨post', hpost, hopen⟩
  cases h with
  | none hnone =>
    rw [Option.map_none, ite_self]
    refine .none fun pre k post hk => ?_
    obtain ⟨post', -, hk⟩ := hopen pre k post hk
    exact hnone _ _ _ hk
  | @some pre k post hk hlast =>
    have hk' : OpenKeyword kindMax depth (tokens ++ [t]) pre k (post ++ [t]) :=
      openKeyword_concat_iff.mpr (.inr ⟨post, rfl, hk, hle⟩)
    have hnew : LastOpen cursor kindMax trackArgc (tokens ++ [t]) depth _ :=
      .some hk' fun pre' k' post' hk' => by
        obtain ⟨post'', -, hk''⟩ := hopen pre' k' post' hk'
        exact hlast _ _ _ hk''
    have hcount : (if trackArgc then countArgs cursor depth depth (post ++ [t]) else 0)
        = (if trackArgc then countArgs cursor depth depth post else 0)
          + if Counted cursor trackArgc tokens depth t then 1 else 0 := by
      unfold Counted
      rw [countArgs_concat, ← hk.depth_eq]
      cases trackArgc <;> simp
    rw [hcount] at hnew
    by_cases hcounted : Counted cursor trackArgc tokens depth t
    · rw [if_pos hcounted] at hnew ⊢
      exact hnew
    · rw [if_neg hcounted] at hnew ⊢
      exact hnew

theorem lastOpen_keyword (hkeyword : t.IsKeyword kindMax) (hdepth : depthAfter tokens = depth) :
    LastOpen cursor kindMax trackArgc (tokens ++ [t]) depth
      (some ⟨t.text.getD [], ⟨t.start, t.stop⟩, depth, 0⟩) := by
  have hk : OpenKeyword kindMax depth (tokens ++ [t]) tokens t [] :=
    openKeyword_concat_iff.mpr (.inl ⟨rfl, rfl, rfl, hkeyword, hdepth⟩)
  have hnew : LastOpen cursor kindMax trackArgc (tokens ++ [t]) depth _ :=
    .some hk fun pre' k' post' hk' => by
    have hlength := congrArg List.length hk'.split
    simp only [List.length_append, List.length_cons, List.length_nil] at hlength
    omega
  rwa [countArgs, ite_self] at hnew

theorem lastOpen_entered (hdepth : depthAfter tokens < depth) (ht : ¬ t.IsWord) :
    LastOpen cursor kindMax trackArgc (tokens ++ [t]) depth none := by
  refine .none fun pre k post hk => ?_
  rcases openKeyword_concat_iff.mp hk with ⟨-, -, -, hkeyword, -⟩ | ⟨post', -, hk, -⟩
  · exact ht hkeyword.1
  · exact absurd hk.le_depth (not_le.mpr hdepth)

end Names

/-! ### The stack -/

/-- The entries of a stack, from the top: their depths decrease, none is above the depth of the
scan, and there are not more than there is room for. -/
structure Stacked (stackCap : ℕ) (s : List KwStackEntry × ℕ) : Prop where
  decreasing : s.1.Pairwise fun e f => f.depth < e.depth
  depth_le : ∀ e ∈ s.1, e.depth ≤ s.2
  length_le : s.1.length ≤ stackCap

section Stack

variable {stackCap depth : ℕ} {s : List KwStackEntry × ℕ} {stack : List KwStackEntry}

/-- What is dropped from the top is the part of a stack with certain depths. -/
theorem dropWhile_depths (hdec : stack.Pairwise fun e f => f.depth < e.depth) (d : ℕ) :
    ∀ e ∈ stack.dropWhile fun e => decide (d ≤ e.depth), e.depth < d := by
  induction stack with
  | nil => exact fun e he => by cases he
  | cons f stack ih =>
    rw [List.pairwise_cons] at hdec
    rw [List.dropWhile_cons]
    split_ifs with hf
    · exact ih hdec.2
    · rw [decide_eq_true_eq, not_le] at hf
      refine List.forall_mem_cons.mpr ⟨hf, fun e he => ?_⟩
      exact (hdec.1 e he).trans hf

theorem find?_dropWhile {p : KwStackEntry → Bool} (hp : ∀ e, p e = true → e.depth ≠ depth) :
    (stack.dropWhile p).find? (fun e => e.depth = depth) = stack.find? fun e => e.depth = depth := by
  induction stack with
  | nil => rfl
  | cons e stack ih =>
    rw [List.dropWhile_cons]
    by_cases he : p e = true
    · rw [if_pos he, ih, List.find?_cons_of_neg]
      simpa using hp e he
    · rw [if_neg he]

theorem find?_bumpDepth (d : ℕ) :
    (bumpDepth d stack).find? (fun e => e.depth = depth)
      = if d = depth then (stack.find? fun e => e.depth = depth).map fun e =>
          { e with argc := e.argc + 1 } else stack.find? fun e => e.depth = depth := by
  induction stack with
  | nil => rw [bumpDepth, List.find?_nil, Option.map_none, ite_self]
  | cons e stack ih =>
    by_cases hd : d = depth
    · subst hd
      rw [if_pos rfl] at ih ⊢
      by_cases he : e.depth = d
      · rw [bumpDepth, if_pos he]
        simp [he]
      · rw [bumpDepth, if_neg he]
        simp [he, ih]
    · rw [if_neg hd] at ih ⊢
      by_cases he : e.depth = d
      · rw [bumpDepth, if_pos he]
        simp [he, hd]
      · rw [bumpDepth, if_neg he, List.find?_cons, List.find?_cons, ih]

theorem forall_mem_bumpDepth {P : ℕ → Prop} (d : ℕ) (h : ∀ e ∈ stack, P e.depth) :
    ∀ e ∈ bumpDepth d stack, P e.depth := by
  induction stack with
  | nil => exact h
  | cons f stack ih =>
    rw [List.forall_mem_cons] at h
    rw [bumpDepth]
    split_ifs
    · exact List.forall_mem_cons.mpr h
    · exact List.forall_mem_cons.mpr ⟨h.1, ih h.2⟩

theorem pairwise_bumpDepth (d : ℕ) (h : stack.Pairwise fun e f => f.depth < e.depth) :
    (bumpDepth d stack).Pairwise fun e f => f.depth < e.depth := by
  induction stack with
  | nil => exact h
  | cons f stack ih =>
    rw [List.pairwise_cons] at h
    rw [bumpDepth]
    split_ifs
    · exact List.pairwise_cons.mpr h
    · exact List.pairwise_cons.mpr ⟨forall_mem_bumpDepth (P := (· < f.depth)) d h.1, ih h.2⟩

theorem length_bumpDepth (d : ℕ) : (bumpDepth d stack).length = stack.length := by
  induction stack with
  | nil => rfl
  | cons f stack ih =>
    rw [bumpDepth]
    split_ifs
    · rfl
    · rw [List.length_cons, List.length_cons, ih]

theorem length_dropWhile_le (p : KwStackEntry → Bool) : (stack.dropWhile p).length ≤ stack.length :=
  (List.dropWhile_suffix p).length_le

theorem length_le_of_decreasing (hdec : stack.Pairwise fun e f => f.depth < e.depth)
    (h : ∀ e ∈ stack, e.depth < depth) : stack.length ≤ depth := by
  induction stack generalizing depth with
  | nil => exact Nat.zero_le _
  | cons e stack ih =>
    rw [List.pairwise_cons] at hdec
    rw [List.forall_mem_cons] at h
    exact Nat.succ_le_of_lt ((ih hdec.2 hdec.1).trans_lt h.1)

variable {cursor : LspPos} {kindMax : ℕ} {trackArgc : Bool} {t : TokenSpan} {tokens : List TokenSpan}

theorem scanKwToken_depth : (scanKwToken cursor kindMax trackArgc stackCap s t).2 = depthStep s.2 t := by
  have hline : tkLineComment ≠ tkLbrace ∧ tkLineComment ≠ tkRbrace := by decide
  have hblock : tkBlockComment ≠ tkLbrace ∧ tkBlockComment ≠ tkRbrace := by decide
  unfold scanKwToken depthStep
  by_cases hcomment : t.isComment = true
  · rw [if_pos hcomment]
    rw [TokenSpan.isComment, Bool.or_eq_true, beq_iff_eq, beq_iff_eq] at hcomment
    rcases hcomment with hc | hc
    · rw [hc, if_neg hline.1, if_neg hline.2]
    · rw [hc, if_neg hblock.1, if_neg hblock.2]
  · rw [if_neg hcomment]
    split_ifs <;> rfl

/-- **A token** keeps the depths in order. -/
theorem Stacked.step (h : Stacked stackCap s) :
    Stacked stackCap (scanKwToken cursor kindMax trackArgc stackCap s t) := by
  unfold scanKwToken
  split_ifs with hcomment hopen hclose hkeyword htrack
  · exact h
  · exact ⟨h.decreasing, fun e he => (h.depth_le e he).trans (Nat.le_succ _), h.length_le⟩
  · have hsub := List.dropWhile_sublist (l := s.1) fun e => decide (s.2 - 1 < e.depth)
    have hdepths := dropWhile_depths h.decreasing (s.2 - 1 + 1)
    exact ⟨h.decreasing.sublist hsub, fun e he => Nat.le_of_lt_succ (hdepths e he),
      (length_dropWhile_le _).trans h.length_le⟩
  · unfold pushKeywordEntry
    have hsub := List.dropWhile_sublist (l := s.1) fun e => decide (s.2 ≤ e.depth)
    have hdepths := dropWhile_depths h.decreasing s.2
    have hdec := h.decreasing.sublist hsub
    simp only
    split_ifs with hroom
    · exact ⟨List.pairwise_cons.mpr ⟨hdepths, hdec⟩,
        List.forall_mem_cons.mpr ⟨Nat.le_refl _, fun e he => (hdepths e he).le⟩, hroom⟩
    · exact ⟨hdec, fun e he => (hdepths e he).le, (length_dropWhile_le _).trans h.length_le⟩
  · unfold bumpActiveArgc
    split_ifs
    · exact h
    · exact ⟨pairwise_bumpDepth _ h.decreasing, forall_mem_bumpDepth (P := (· ≤ s.2)) _ h.depth_le,
        (length_bumpDepth _).trans_le h.length_le⟩
  · exact h

/-- What a scan knows of the tokens it has read: the depth, and at each depth the last keyword whose
scope is open. -/
structure Tracks (cursor : LspPos) (kindMax : ℕ) (trackArgc : Bool) (tokens : List TokenSpan)
    (s : List KwStackEntry × ℕ) : Prop where
  depth_eq : s.2 = depthAfter tokens
  entry : ∀ d ≤ depthAfter tokens,
    LastOpen cursor kindMax trackArgc tokens d (s.1.find? fun e => e.depth = d)

/-- **A token** is tracked, as long as there is room for its depth. -/
theorem Tracks.step (h : Tracks cursor kindMax trackArgc tokens s) (hs : Stacked stackCap s)
    (hroom : depthAfter tokens < stackCap) :
    Tracks cursor kindMax trackArgc (tokens ++ [t])
      (scanKwToken cursor kindMax trackArgc stackCap s t) := by
  refine ⟨by rw [scanKwToken_depth, h.depth_eq, depthAfter_concat], fun d hd => ?_⟩
  have hafter := hd
  rw [depthAfter_concat] at hafter
  -- a token that is no word is neither counted nor a keyword
  have hsilent : ¬ t.IsWord → d ≤ depthAfter tokens → LastOpen cursor kindMax trackArgc
      (tokens ++ [t]) d (s.1.find? fun e => e.depth = d) := by
    intro hword hle
    have hnext := (h.entry d hle).concat hd fun hk => hword hk.1.1
    rwa [if_neg fun hc => hword hc.2.2.1] at hnext
  unfold scanKwToken
  by_cases hcomment : t.isComment = true
  · rw [if_pos hcomment]
    have hstep : depthStep (depthAfter tokens) t = depthAfter tokens := by
      have hdepth : (scanKwToken cursor kindMax trackArgc stackCap s t).2 = depthStep s.2 t :=
        scanKwToken_depth
      rw [scanKwToken, if_pos hcomment, h.depth_eq] at hdepth
      exact hdepth.symm
    rw [hstep] at hafter
    exact hsilent (fun hword => by rw [hword.1] at hcomment; cases hcomment) hafter
  rw [if_neg hcomment]
  by_cases hopen : t.tokenKind = tkLbrace
  · rw [if_pos hopen]
    rw [depthStep, if_pos hopen] at hafter
    have hword : ¬ t.IsWord := fun hword => hword.2.1 hopen
    by_cases hle : d ≤ depthAfter tokens
    · exact hsilent hword hle
    · have hnone : s.1.find? (fun e => e.depth = d) = none := by
        refine List.find?_eq_none.mpr fun e he => ?_
        have := hs.depth_le e he
        rw [h.depth_eq] at this
        simp only [decide_eq_true_eq]
        omega
      simp only
      rw [hnone]
      exact lastOpen_entered (not_le.mp hle) hword
  rw [if_neg hopen]
  by_cases hclose : t.tokenKind = tkRbrace
  · rw [if_pos hclose]
    rw [depthStep, if_neg hopen, if_pos hclose, ← h.depth_eq] at hafter
    simp only
    rw [find?_dropWhile fun e he => by rw [decide_eq_true_eq] at he; omega]
    exact hsilent (fun hword => hword.2.2 hclose) (by rw [← h.depth_eq]; omega)
  rw [if_neg hclose]
  have hword : t.IsWord := ⟨by simpa using hcomment, hopen, hclose⟩
  rw [depthStep_of_isWord hword] at hafter
  by_cases hkeyword : t.tokenKind < kindMax ∧ t.text.isSome = true
  · rw [if_pos hkeyword]
    have hk : t.IsKeyword kindMax := ⟨hword, hkeyword⟩
    have hdepths := dropWhile_depths hs.decreasing s.2
    have hlength := length_le_of_decreasing
      (hs.decreasing.sublist (List.dropWhile_sublist _)) hdepths
    rw [h.depth_eq] at hlength
    simp only [pushKeywordEntry, h.depth_eq]
    rw [if_pos (hlength.trans_lt hroom)]
    by_cases hd' : depthAfter tokens = d
    · rw [List.find?_cons_of_pos (by simpa using hd')]
      have hlast : LastOpen cursor kindMax trackArgc (tokens ++ [t]) d _ := lastOpen_keyword hk hd'
      rwa [hd']
    · rw [List.find?_cons_of_neg (by simpa using hd'),
        find?_dropWhile fun e he => by rw [decide_eq_true_eq] at he; omega]
      have hnext := (h.entry d hafter).concat hd fun hk => hd' hk.2
      rwa [if_neg fun hc => hd' hc.2.1] at hnext
  rw [if_neg hkeyword]
  have hnext := (h.entry d hafter).concat hd fun hk => hkeyword hk.1.2
  by_cases htrack : trackArgc = true
  · rw [if_pos htrack]
    simp only [bumpActiveArgc]
    by_cases hends : cursor.before t.stop
    · rw [if_pos hends]
      rwa [if_neg fun hc => hc.2.2.2 hends] at hnext
    · rw [if_neg hends, find?_bumpDepth, h.depth_eq]
      have hcounted : Counted cursor trackArgc tokens d t ↔ depthAfter tokens = d :=
        ⟨fun hc => hc.2.1, fun hd => ⟨htrack, hd, hword, hends⟩⟩
      simpa only [hcounted] using hnext
  · rw [if_neg htrack]
    rwa [if_neg fun hc => htrack hc.1] at hnext

end Stack

/-! ### The scan -/

section Scan

variable (cursor : LspPos) (kindMax : ℕ) (trackArgc : Bool) (stackCap : ℕ)

theorem stacked_foldl (tokens : List TokenSpan) :
    Stacked stackCap (tokens.foldl (scanKwToken cursor kindMax trackArgc stackCap) ([], 0)) := by
  induction tokens using List.reverseRecOn with
  | nil => exact ⟨List.Pairwise.nil, fun e he => (List.not_mem_nil he).elim, Nat.zero_le _⟩
  | append_singleton tokens t ih =>
    rw [List.foldl_append]
    exact ih.step

theorem tracks_foldl (tokens : List TokenSpan)
    (hroom : ∀ read, read <+: tokens → depthAfter read < stackCap) :
    Tracks cursor kindMax trackArgc tokens
      (tokens.foldl (scanKwToken cursor kindMax trackArgc stackCap) ([], 0)) := by
  induction tokens using List.reverseRecOn with
  | nil =>
    refine ⟨rfl, fun d _ => .none fun pre k post hk => ?_⟩
    exact absurd hk.split (by simp)
  | append_singleton tokens t ih =>
    rw [List.foldl_append]
    have hbefore := ih fun read hread => hroom read (hread.trans (List.prefix_append _ _))
    exact hbefore.step (stacked_foldl _ _ _ _ _) (hroom tokens (List.prefix_append _ _))

theorem lastOpen_scanKwStack (tokens : List TokenSpan)
    (hroom : ∀ read, read <+: tokensUpTo tokens cursor → depthAfter read < stackCap) :
    LastOpen cursor kindMax trackArgc (tokensUpTo tokens cursor)
      (depthAfter (tokensUpTo tokens cursor))
      ((scanKwStack tokens cursor kindMax trackArgc stackCap).1.find? fun e =>
        e.depth = (scanKwStack tokens cursor kindMax trackArgc stackCap).2) := by
  have htracks := tracks_foldl cursor kindMax trackArgc stackCap _ hroom
  have hentry := htracks.entry _ (Nat.le_refl _)
  rw [← htracks.depth_eq] at hentry ⊢
  exact hentry

/-- On tokens in order, without the end of the file, the scan reads those that start at the cursor
or before it. -/
theorem tokensUpTo_eq_filter {tokens : List TokenSpan} (hreal : ∀ t ∈ tokens, t.tokenKind ≠ tkEof)
    (hordered : tokens.Pairwise fun t u => ¬ u.start.before t.start) :
    tokensUpTo tokens cursor = tokens.filter fun t => !decide (cursor.before t.start) := by
  induction tokens with
  | nil => rfl
  | cons t tokens ih =>
    rw [List.pairwise_cons] at hordered
    rw [List.forall_mem_cons] at hreal
    have ih := ih hreal.2 hordered.2
    unfold tokensUpTo at ih ⊢
    have hkind : (t.tokenKind != tkEof) = true := by simpa using hreal.1
    by_cases ht : cursor.before t.start
    · rw [List.takeWhile_cons_of_neg (by simp [ht]), eq_comm, List.filter_eq_nil_iff]
      intro u hu
      rcases List.mem_cons.mp hu with rfl | hu
      · simp [ht]
      · have hafter := hordered.1 u hu
        rw [LspPos.before_iff_key] at ht hafter
        have hbefore : cursor.before u.start := by
          rw [LspPos.before_iff_key]
          omega
        simp [hbefore]
    · rw [List.takeWhile_cons_of_pos (by simp [ht, hkind]), List.filter_cons_of_pos (by simp [ht]), ih]

end Scan

/-- **The active keyword**: on the stack the depths increase, none is above the current one and none
lacks room; and as long as the depth stays below 512, the two functions return the last keyword at
the depth of the cursor whose scope is open there, with the number of its arguments. -/
theorem active_keyword_scan (tokens : List TokenSpan) (cursor : LspPos) :
    (∀ kindMax trackArgc stackCap,
      Stacked stackCap (scanKwStack tokens cursor kindMax trackArgc stackCap)) ∧
    ((∀ read, read <+: tokensUpTo tokens cursor → depthAfter read < 512) →
      (∃ o, LastOpen cursor kwDocsEnd false (tokensUpTo tokens cursor)
          (depthAfter (tokensUpTo tokens cursor)) o ∧
        activeKeywordAt tokens cursor = o.map fun e => (e.kw, e.range)) ∧
      ∃ o, LastOpen cursor kwSigEnd true (tokensUpTo tokens cursor)
          (depthAfter (tokensUpTo tokens cursor)) o ∧
        activeContext tokens cursor = o.map fun e => (e.kw, e.argc)) ∧
    ((∀ t ∈ tokens, t.tokenKind ≠ tkEof) → (tokens.Pairwise fun t u => ¬ u.start.before t.start) →
      tokensUpTo tokens cursor = tokens.filter fun t => !decide (cursor.before t.start)) := by
  refine ⟨fun kindMax trackArgc stackCap => stacked_foldl _ _ _ _ _, fun hroom => ?_,
    fun hreal hordered => tokensUpTo_eq_filter cursor hreal hordered⟩
  exact ⟨⟨_, lastOpen_scanKwStack cursor kwDocsEnd false 512 tokens hroom, rfl⟩,
    _, lastOpen_scanKwStack cursor kwSigEnd true 512 tokens hroom, rfl⟩

/-- The tokens of `task a { task b { shift c } d`. -/
def closedBodySpans : List TokenSpan :=
  [⟨kwTask, ⟨0, 0⟩, ⟨0, 4⟩, some (cstr "task")⟩, ⟨tkIdent, ⟨0, 5⟩, ⟨0, 6⟩, some (cstr "a")⟩,
    ⟨tkLbrace, ⟨0, 7⟩, ⟨0, 8⟩, none⟩, ⟨kwTask, ⟨0, 9⟩, ⟨0, 13⟩, some (cstr "task")⟩,
    ⟨tkIdent, ⟨0, 14⟩, ⟨0, 15⟩, some (cstr "b")⟩, ⟨tkLbrace, ⟨0, 16⟩, ⟨0, 17⟩, none⟩,
    ⟨kwShift, ⟨0, 18⟩, ⟨0, 23⟩, some (cstr "shift")⟩, ⟨tkIdent, ⟨0, 24⟩, ⟨0, 25⟩, some (cstr "c")⟩,
    ⟨tkRbrace, ⟨0, 26⟩, ⟨0, 27⟩, none⟩, ⟨tkIdent, ⟨0, 28⟩, ⟨0, 29⟩, some (cstr "d")⟩]

/-- After a body that is closed, `b` and `d` are the arguments of the task in front of it. -/
theorem active_keyword_scan_closed_body :
    (∃ o, LastOpen ⟨0, 29⟩ kwDocsEnd false closedBodySpans 1 o ∧
      some (cstr "task", ⟨⟨0, 9⟩, ⟨0, 13⟩⟩) = o.map fun e => (e.kw, e.range)) ∧
    ∃ o, LastOpen ⟨0, 29⟩ kwSigEnd true closedBodySpans 1 o ∧
      some (cstr "task", 2) = o.map fun e => (e.kw, e.argc) := by
  have hread : tokensUpTo closedBodySpans ⟨0, 29⟩ = closedBodySpans := by decide
  have hdepth : ∀ read ∈ closedBodySpans.inits, depthAfter read < 512 := by decide
  have hscan := (active_keyword_scan closedBodySpans ⟨0, 29⟩).2.1 fun read hpre =>
    hdepth read ((List.mem_inits _ _).mpr (hread ▸ hpre))
  rwa [hread, show depthAfter closedBodySpans = 1 by decide,
    show activeKeywordAt closedBodySpans ⟨0, 29⟩
      = some (cstr "task", ⟨⟨0, 9⟩, ⟨0, 13⟩⟩) by decide,
    show activeContext closedBodySpans ⟨0, 29⟩ = some (cstr "task", 2) by decide] at hscan

end TaskjugglerLsp
