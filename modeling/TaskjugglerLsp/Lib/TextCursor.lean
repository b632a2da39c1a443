import Mathlib.Algebra.Order.BigOperators.Group.List
import Mathlib.Algebra.GroupWithZero.Nat
import Mathlib.Data.List.Basic
import Mathlib.Data.List.DropRight

/-!
# Cursors in a text

A cursor counts lines and columns: a line end starts a new line, every other element
takes as many columns as its width.  In a text whose elements are all at least one
column wide the cursor tells the prefixes apart and orders them (`cursor_inj`,
`before_cursor_iff`).

Encoding a text element by element into a text of unit width keeps the cursor, if line
ends are encoded as line ends and nothing else is (`cursor_flatMap`).
-/

namespace TaskjugglerLsp.Lib

/-- The first position is before the second. -/
def Before (p q : ℕ × ℕ) : Prop := p.1 < q.1 ∨ (p.1 = q.1 ∧ p.2 < q.2)

theorem Before.trans {p q r : ℕ × ℕ} (h : Before p q) (h' : Before q r) : Before p r := by
  unfold Before at *
  omega

theorem Before.ne {p q : ℕ × ℕ} (h : Before p q) : p ≠ q := by
  rintro rfl
  unfold Before at h
  omega

theorem Before.not_before {p q : ℕ × ℕ} (h : Before p q) : ¬ Before q p := by
  unfold Before at *
  omega

section Cursor

variable {α : Type*} (nl : α → Bool) (width : α → ℕ)

/-- The position after one more element. -/
def advance (p : ℕ × ℕ) (a : α) : ℕ × ℕ := if nl a then (p.1 + 1, 0) else (p.1, p.2 + width a)

/-- The position after a text that begins at `p`. -/
def cursor (p : ℕ × ℕ) (xs : List α) : ℕ × ℕ := xs.foldl (advance nl width) p

@[simp] theorem cursor_nil (p : ℕ × ℕ) : cursor nl width p [] = p := rfl

@[simp] theorem cursor_cons (p : ℕ × ℕ) (a : α) (xs : List α) :
    cursor nl width p (a :: xs) = cursor nl width (advance nl width p a) xs := rfl

@[simp] theorem cursor_append (p : ℕ × ℕ) (xs ys : List α) :
    cursor nl width p (xs ++ ys) = cursor nl width (cursor nl width p xs) ys := List.foldl_append

variable {nl width}

theorem cursor_bare {xs : List α} (h : ∀ a ∈ xs, nl a = false) (p : ℕ × ℕ) :
    cursor nl width p xs = (p.1, p.2 + (xs.map width).sum) := by
  induction xs generalizing p with
  | nil => rfl
  | cons a xs ih =>
    rw [cursor_cons, ih (fun b hb => h b (List.mem_cons_of_mem a hb)), advance,
      if_neg (by simp [h a List.mem_cons_self]), List.map_cons, List.sum_cons, Nat.add_assoc]

theorem cursor_congr {width' : α → ℕ} {xs : List α} (h : ∀ a ∈ xs, width a = width' a)
    (p : ℕ × ℕ) : cursor nl width p xs = cursor nl width' p xs := by
  induction xs generalizing p with
  | nil => rfl
  | cons a xs ih =>
    rw [cursor_cons, cursor_cons, ih (fun b hb => h b (List.mem_cons_of_mem a hb)), advance, advance,
      h a List.mem_cons_self]

theorem cursor_fst (width' : α → ℕ) (xs : List α) (p q : ℕ × ℕ) (h : p.1 = q.1) :
    (cursor nl width p xs).1 = (cursor nl width' q xs).1 := by
  induction xs generalizing p q with
  | nil => exact h
  | cons a xs ih =>
    refine ih _ _ ?_
    unfold advance
    split
    · exact congrArg (· + 1) h
    · exact h

/-! ### Order -/

variable (nl) in
theorem before_advance (hw : ∀ a, 0 < width a) (p : ℕ × ℕ) (a : α) :
    Before p (advance nl width p a) := by
  have := hw a
  unfold advance Before
  split
  · exact Or.inl (Nat.lt_succ_self _)
  · exact Or.inr ⟨rfl, by simp only; omega⟩

variable (nl) in
theorem before_cursor (hw : ∀ a, 0 < width a) (p : ℕ × ℕ) {xs : List α} (hne : xs ≠ []) :
    Before p (cursor nl width p xs) := by
  induction xs generalizing p with
  | nil => exact absurd rfl hne
  | cons a xs ih =>
    have ha := before_advance nl hw p a
    cases xs with
    | nil => exact ha
    | cons b xs => exact ha.trans (ih (advance nl width p a) (by simp))

variable (nl) in
/-- **The cursor orders the prefixes of a text.** -/
theorem before_cursor_iff (hw : ∀ a, 0 < width a) {p : ℕ × ℕ} {xs ys text : List α}
    (hx : xs <+: text) (hy : ys <+: text) :
    Before (cursor nl width p xs) (cursor nl width p ys) ↔ xs.length < ys.length := by
  rcases Nat.lt_trichotomy xs.length ys.length with hlt | heq | hgt
  · obtain ⟨zs, rfl⟩ := List.prefix_of_prefix_length_le hx hy hlt.le
    have hne : zs ≠ [] := by
      rintro rfl
      simp at hlt
    rw [cursor_append]
    exact ⟨fun _ => hlt, fun _ => before_cursor nl hw _ hne⟩
  · obtain rfl := (List.prefix_of_prefix_length_le hx hy heq.le).eq_of_length heq
    exact ⟨fun h => absurd rfl h.ne, fun h => absurd h (lt_irrefl _)⟩
  · obtain ⟨zs, rfl⟩ := List.prefix_of_prefix_length_le hy hx hgt.le
    have hne : zs ≠ [] := by
      rintro rfl
      simp at hgt
    have hb := before_cursor nl hw (cursor nl width p ys) hne
    rw [cursor_append]
    exact ⟨fun h => absurd h hb.not_before, fun h => absurd h (by omega)⟩

/-- **The cursor tells the prefixes of a text apart.** -/
theorem cursor_inj (hw : ∀ a, 0 < width a) {p : ℕ × ℕ} {xs ys text : List α} (hx : xs <+: text)
    (hy : ys <+: text) (h : cursor nl width p xs = cursor nl width p ys) : xs = ys := by
  have h1 := (before_cursor_iff nl (p := p) hw hx hy).not
  have h2 := (before_cursor_iff nl (p := p) hw hy hx).not
  rw [h] at h1 h2
  have hirr : ¬ Before (cursor nl width p ys) (cursor nl width p ys) := fun hb => hb.ne rfl
  have hlen : xs.length = ys.length := by
    have := h1.mp hirr
    have := h2.mp hirr
    omega
  exact (List.prefix_of_prefix_length_le hx hy hlen.le).eq_of_length hlen

/-! ### Lines -/

variable (nl) in
/-- `content` is line `n` of a text, without its line end: it stands between `pre` and `post`. -/
structure IsLine (text : List α) (n : ℕ) (pre content post : List α) : Prop where
  eq : text = pre ++ content ++ post
  first : ∀ width : α → ℕ, cursor nl width (0, 0) pre = (n, 0)
  bare : ∀ a ∈ content, nl a = false
  last : post = [] ∨ ∃ a rest, post = a :: rest ∧ nl a = true

theorem IsLine.cursor_take {text pre content post : List α} {n : ℕ}
    (h : IsLine nl text n pre content post) (k : ℕ) :
    cursor nl width (0, 0) (pre ++ content.take k) = (n, ((content.take k).map width).sum) := by
  rw [cursor_append, h.first, cursor_bare fun a ha => h.bare a (List.mem_of_mem_take ha),
    Nat.zero_add]

theorem IsLine.prefix_on (hw : ∀ a, 0 < width a) {text pre content post xs : List α} {n : ℕ}
    (h : IsLine nl text n pre content post) (hx : xs <+: text)
    (hn : (cursor nl width (0, 0) xs).1 = n) :
    ∃ k ≤ content.length, xs = pre ++ content.take k := by
  have hpre : pre <+: text := ⟨content ++ post, by rw [h.eq, List.append_assoc]⟩
  have hcontent : pre ++ content <+: text := ⟨post, h.eq.symm⟩
  have hlow : pre.length ≤ xs.length := by
    by_contra hlt
    have hb := (before_cursor_iff nl (p := (0, 0)) hw hx hpre).mpr (by omega)
    rw [h.first] at hb
    unfold Before at hb
    simp only at hb
    omega
  have hhigh : xs.length ≤ (pre ++ content).length := by
    by_contra hgt
    -- then the prefix contains the line end
    obtain ⟨zs, hzs⟩ := List.prefix_of_prefix_length_le hcontent hx (by omega)
    obtain ⟨ws, hws⟩ := hx
    have hpost : post = zs ++ ws := by
      rw [h.eq, ← hzs, List.append_assoc] at hws
      exact (List.append_cancel_left hws).symm
    have hzne : zs ≠ [] := by
      rintro rfl
      rw [List.append_nil] at hzs
      rw [hzs] at hgt
      omega
    obtain ⟨z, zs, rfl⟩ := List.exists_cons_of_ne_nil hzne
    have hz : nl z = true := by
      rcases h.last with hnil | ⟨a, rest, hcons, ha⟩
      · rw [hnil] at hpost
        simp at hpost
      · rw [hcons, List.cons_append] at hpost
        rwa [← (List.cons.inj hpost).1]
    have hline : n + 1 ≤ (cursor nl width (0, 0) xs).1 := by
      rw [← hzs, cursor_append, cursor_append, h.first, cursor_bare h.bare, cursor_cons, advance,
        if_pos hz]
      cases zs with
      | nil => exact le_rfl
      | cons b zs =>
        have hb := before_cursor nl hw (n + 1, 0) (List.cons_ne_nil b zs)
        unfold Before at hb
        simp only at hb ⊢
        omega
    omega
  obtain ⟨ys, hys⟩ := List.prefix_of_prefix_length_le hpre hx hlow
  have hpc : xs <+: pre ++ content := List.prefix_of_prefix_length_le hx hcontent hhigh
  rw [← hys, List.prefix_append_right_inj] at hpc
  refine ⟨ys.length, hpc.length_le, ?_⟩
  rw [← List.prefix_iff_eq_take.mp hpc, hys]

theorem IsLine.unique {text pre content post pre' content' post' : List α} {n : ℕ}
    (h : IsLine nl text n pre content post) (h' : IsLine nl text n pre' content' post') :
    pre = pre' ∧ content = content' ∧ post = post' := by
  have hw : ∀ a : α, 0 < (fun _ => 1) a := fun _ => Nat.one_pos
  have hin : pre <+: text := ⟨content ++ post, by rw [h.eq, List.append_assoc]⟩
  have hin' : pre' <+: text := ⟨content' ++ post', by rw [h'.eq, List.append_assoc]⟩
  have hpre : pre = pre' := cursor_inj hw hin hin' ((h.first _).trans (h'.first _).symm)
  subst hpre
  have hcut : pre ++ content <+: text := ⟨post, h.eq.symm⟩
  have hcut' : pre ++ content' <+: text := ⟨post', h'.eq.symm⟩
  obtain ⟨k, hk, hkeq⟩ := h.prefix_on hw hcut'
    (by rw [← List.take_length (l := content'), h'.cursor_take])
  obtain ⟨k', hk', hkeq'⟩ := h'.prefix_on hw hcut
    (by rw [← List.take_length (l := content), h.cursor_take])
  have h1 := congrArg List.length (List.append_cancel_left hkeq)
  have h2 := congrArg List.length (List.append_cancel_left hkeq')
  rw [List.length_take] at h1 h2
  have hc : content = content' := by
    rw [List.append_cancel_left hkeq, List.take_of_length_le (by omega)]
  subst hc
  exact ⟨rfl, rfl, List.append_cancel_left (h.eq.symm.trans h'.eq)⟩

variable (nl) in
/-- The part of a text that stands on its last line. -/
def lastLine (xs : List α) : List α := xs.rtakeWhile (!nl ·)

variable (nl) in
/-- The part of a text before its last line. -/
def linesBefore (xs : List α) : List α := xs.rdropWhile (!nl ·)

variable (nl) in
theorem linesBefore_append_lastLine (xs : List α) : linesBefore nl xs ++ lastLine nl xs = xs :=
  List.rdropWhile_append_rtakeWhile

theorem lastLine_bare (xs : List α) : ∀ a ∈ lastLine nl xs, nl a = false := by
  intro a ha
  simpa using List.mem_rtakeWhile_imp ha

/-- The last line begins in column zero. -/
theorem cursor_linesBefore (xs : List α) :
    cursor nl width (0, 0) (linesBefore nl xs) = ((cursor nl width (0, 0) xs).1, 0) := by
  have hline : (cursor nl width (0, 0) (linesBefore nl xs)).1 = (cursor nl width (0, 0) xs).1 := by
    conv_rhs => rw [← linesBefore_append_lastLine nl xs, cursor_append,
      cursor_bare (lastLine_bare xs)]
  refine Prod.ext hline ?_
  rcases List.eq_nil_or_concat (linesBefore nl xs) with hnil | ⟨ys, a, hys⟩
  · rw [hnil, cursor_nil]
  · have hne : linesBefore nl xs ≠ [] := by simp [hys]
    have ha := List.rdropWhile_last_not (fun a => !nl a) xs hne
    have hlast : (linesBefore nl xs).getLast hne = a := by simp [hys]
    change ¬ (!nl ((linesBefore nl xs).getLast hne)) = true at ha
    rw [hlast] at ha
    rw [hys, List.concat_eq_append, cursor_append, cursor_cons, cursor_nil, advance,
      if_pos (by simpa using ha)]

theorem cursor_snd (xs : List α) :
    (cursor nl width (0, 0) xs).2 = ((lastLine nl xs).map width).sum := by
  conv_lhs => rw [← linesBefore_append_lastLine nl xs, cursor_append, cursor_linesBefore,
    cursor_bare (lastLine_bare xs)]
  exact Nat.zero_add _

/-! ### Encodings -/

/-- **An encoding that keeps line ends** keeps the cursor. -/
theorem cursor_flatMap {β : Type*} {nl' : β → Bool} {width' : β → ℕ} {enc : α → List β}
    (hnl : ∀ a, nl a = true → ∃ b, enc a = [b] ∧ nl' b = true)
    (hother : ∀ a, nl a = false → ∀ b ∈ enc a, nl' b = false)
    (p : ℕ × ℕ) (xs : List α) :
    cursor nl' width' p (xs.flatMap enc) = cursor nl (fun a => ((enc a).map width').sum) p xs := by
  induction xs generalizing p with
  | nil => rfl
  | cons a xs ih =>
    rw [List.flatMap_cons, cursor_append, cursor_cons, ih]
    congr 1
    cases ha : nl a with
    | true =>
      obtain ⟨b, hb, hnb⟩ := hnl a ha
      rw [hb, cursor_cons, cursor_nil, advance, advance, if_pos hnb, if_pos ha]
    | false => rw [cursor_bare (hother a ha), advance, if_neg (by simp [ha])]

theorem IsLine.flatMap {β : Type*} {nl' : β → Bool} {enc : α → List β}
    (hnl : ∀ a, nl a = true → ∃ b, enc a = [b] ∧ nl' b = true)
    (hother : ∀ a, nl a = false → ∀ b ∈ enc a, nl' b = false)
    {text pre content post : List α} {n : ℕ} (h : IsLine nl text n pre content post) :
    IsLine nl' (text.flatMap enc) n (pre.flatMap enc) (content.flatMap enc) (post.flatMap enc) := by
  constructor
  · rw [h.eq, List.flatMap_append, List.flatMap_append]
  · intro width'
    rw [cursor_flatMap hnl hother]
    exact h.first _
  · intro b hb
    obtain ⟨a, ha, hab⟩ := List.mem_flatMap.mp hb
    exact hother a (h.bare a ha) b hab
  · rcases h.last with rfl | ⟨a, rest, rfl, ha⟩
    · exact Or.inl rfl
    · obtain ⟨b, hb, hnb⟩ := hnl a ha
      exact Or.inr ⟨b, rest.flatMap enc, by rw [List.flatMap_cons, hb]; rfl, hnb⟩

end Cursor

end TaskjugglerLsp.Lib
