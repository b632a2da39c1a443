import Mathlib.Data.List.Basic
import Mathlib.Data.List.Induction
import Mathlib.Order.Nat

/-!
# Brackets and their partners

A list with opening and closing brackets among other things, which need not be balanced.  A closing
bracket belongs to the bracket that was opened last and is not closed yet, and to none if there is
no such bracket.

* `Partners`: two brackets with a balanced list between them.
* `openAt`: the brackets that are open behind a list.
* `head_openAt_iff`: a closing bracket belongs to the last of them.
* `Partners.nested`: two pairs lie one in the other or one behind the other.
-/

namespace TaskjugglerLsp.Lib

/-- What an element of a list is. -/
inductive Bracket where
  | opens
  | closes
  | other
  deriving DecidableEq

namespace Bracket

variable {α : Type*} (kind : α → Bracket)

/-- Every bracket has a partner. -/
inductive Balanced : List α → Prop
  | nil : Balanced []
  | other {a : α} {l : List α} (ha : kind a = .other) (hl : Balanced l) : Balanced (a :: l)
  | pair {a b : α} {l l' : List α} (ha : kind a = .opens) (hb : kind b = .closes)
      (hl : Balanced l) (hl' : Balanced l') : Balanced (a :: (l ++ b :: l'))

/-- **Two positions are partners**: an opening and a closing bracket, and a balanced list between
them. -/
def Partners (l : List α) (i j : ℕ) : Prop :=
  ∃ pre a mid b post, l = pre ++ a :: (mid ++ b :: post) ∧ i = pre.length ∧
    j = (pre ++ a :: mid).length ∧ kind a = .opens ∧ kind b = .closes ∧ Balanced kind mid

/-- One element: the positions of the open brackets, the last first, and how long the list is. -/
def openStep (s : List ℕ × ℕ) (a : α) : List ℕ × ℕ :=
  match kind a with
  | .opens => (s.2 :: s.1, s.2 + 1)
  | .closes => (s.1.tail, s.2 + 1)
  | .other => (s.1, s.2 + 1)

/-- The brackets that are open behind a list, the last first. -/
def openAt (l : List α) : List ℕ := (l.foldl (openStep kind) ([], 0)).1

variable {kind} {l l' mid : List α} {a b : α} {i j i' j' : ℕ}

/-! ### Balanced lists -/

theorem Balanced.append (h : Balanced kind l) (h' : Balanced kind l') :
    Balanced kind (l ++ l') := by
  induction h with
  | nil => exact h'
  | other ha _ ih => exact .other ha ih
  | @pair a b l l₂ ha hb hl _ _ ih =>
    rw [List.cons_append, List.append_assoc]
    exact .pair ha hb hl ih

/-! ### The open brackets -/

theorem snd_foldl_openStep (s : List ℕ × ℕ) :
    (l.foldl (openStep kind) s).2 = s.2 + l.length := by
  induction l generalizing s with
  | nil => rfl
  | cons a l ih =>
    have hstep : (openStep kind s a).2 = s.2 + 1 := by
      unfold openStep
      cases kind a <;> rfl
    rw [List.foldl_cons, ih, hstep, List.length_cons]
    omega

theorem openAt_concat : openAt kind (l ++ [a]) = match kind a with
    | .opens => l.length :: openAt kind l
    | .closes => (openAt kind l).tail
    | .other => openAt kind l := by
  have hlen : (l.foldl (openStep kind) ([], 0)).2 = l.length := by
    rw [snd_foldl_openStep, Nat.zero_add]
  unfold openAt
  rw [List.foldl_append, List.foldl_cons, List.foldl_nil, openStep, hlen]
  cases kind a <;> rfl

theorem openAt_concat_opens (ha : kind a = .opens) :
    openAt kind (l ++ [a]) = l.length :: openAt kind l := by
  rw [openAt_concat, ha]

theorem openAt_concat_closes (ha : kind a = .closes) :
    openAt kind (l ++ [a]) = (openAt kind l).tail := by
  rw [openAt_concat, ha]

theorem openAt_concat_other (ha : kind a = .other) :
    openAt kind (l ++ [a]) = openAt kind l := by
  rw [openAt_concat, ha]

/-- **A balanced list** leaves the open brackets as they are. -/
theorem Balanced.openAt (h : Balanced kind mid) :
    ∀ l : List α, Bracket.openAt kind (l ++ mid) = Bracket.openAt kind l := by
  induction h with
  | nil =>
    intro l
    rw [List.append_nil]
  | @other a mid ha _ ih =>
    intro l
    rw [List.append_cons, ih, openAt_concat_other ha]
  | @pair a b mid mid' ha hb _ _ ih ih' =>
    intro l
    have hsplit : l ++ a :: (mid ++ b :: mid') = (l ++ [a] ++ mid ++ [b]) ++ mid' := by simp
    rw [hsplit, ih', openAt_concat_closes hb, ih, openAt_concat_opens ha, List.tail_cons]

/-- Within a balanced list no bracket before it is closed. -/
theorem Balanced.openAt_prefix (h : Balanced kind mid) :
    ∀ (l : List α) {m rest : List α}, mid = m ++ rest →
      ∃ s, Bracket.openAt kind (l ++ m) = s ++ Bracket.openAt kind l := by
  induction h with
  | nil =>
    intro l m rest hm
    obtain ⟨rfl, -⟩ := List.append_eq_nil_iff.mp hm.symm
    exact ⟨[], by rw [List.append_nil, List.nil_append]⟩
  | @other a mid ha _ ih =>
    intro l m rest hm
    cases m with
    | nil => exact ⟨[], by rw [List.append_nil, List.nil_append]⟩
    | cons c m =>
      obtain ⟨rfl, hrest⟩ := List.cons.inj (hm.trans List.cons_append)
      obtain ⟨s, hs⟩ := ih (l ++ [a]) hrest
      refine ⟨s, ?_⟩
      rw [List.append_cons, hs, openAt_concat_other ha]
  | @pair a b mid mid' ha hb hmid _ ih ih' =>
    intro l m rest hm
    cases m with
    | nil => exact ⟨[], by rw [List.append_nil, List.nil_append]⟩
    | cons c m =>
      obtain ⟨rfl, hrest⟩ := List.cons.inj (hm.trans List.cons_append)
      rcases List.append_eq_append_iff.mp hrest with ⟨more, rfl, hmore⟩ | ⟨more, rfl, -⟩
      · cases more with
        | nil =>
          refine ⟨[l.length], ?_⟩
          rw [List.append_nil, List.append_cons, hmid.openAt, openAt_concat_opens ha]
          rfl
        | cons c more =>
          obtain ⟨rfl, htail⟩ := List.cons.inj (hmore.trans List.cons_append)
          obtain ⟨s, hs⟩ := ih' (l ++ [a] ++ mid ++ [b]) htail
          refine ⟨s, ?_⟩
          have hsplit : l ++ a :: (mid ++ b :: more) = (l ++ [a] ++ mid ++ [b]) ++ more := by simp
          rw [hsplit, hs, openAt_concat_closes hb, hmid.openAt, openAt_concat_opens ha,
            List.tail_cons]
      · obtain ⟨s, hs⟩ := ih (l ++ [a]) rfl
        refine ⟨s ++ [l.length], ?_⟩
        rw [List.append_cons, hs, openAt_concat_opens ha, List.append_assoc]
        rfl

/-- The open brackets are in order, and in the list. -/
theorem openAt_sorted (l : List α) :
    (openAt kind l).Pairwise (· > ·) ∧ ∀ i ∈ openAt kind l, i < l.length := by
  induction l using List.reverseRecOn with
  | nil => exact ⟨.nil, fun i hi => by cases hi⟩
  | append_singleton l a ih =>
    obtain ⟨hsorted, hlt⟩ := ih
    have hlen : l.length < (l ++ [a]).length := by rw [List.length_append]; exact Nat.lt_succ_self _
    cases ha : kind a with
    | opens =>
      rw [openAt_concat_opens ha]
      refine ⟨List.pairwise_cons.mpr ⟨hlt, hsorted⟩, ?_⟩
      intro i hi
      rcases List.mem_cons.mp hi with rfl | hi
      · exact hlen
      · exact (hlt i hi).trans hlen
    | closes =>
      rw [openAt_concat_closes ha]
      exact ⟨hsorted.sublist (List.tail_sublist _), fun i hi =>
        (hlt i (List.mem_of_mem_tail hi)).trans hlen⟩
    | other =>
      rw [openAt_concat_other ha]
      exact ⟨hsorted, fun i hi => (hlt i hi).trans hlen⟩

theorem exists_of_openAt_cons {rest : List ℕ} (h : openAt kind l = i :: rest) :
    ∃ pre a mid, l = pre ++ a :: mid ∧ i = pre.length ∧ kind a = .opens ∧
      Balanced kind mid ∧ openAt kind pre = rest := by
  induction hn : l.length using Nat.strongRecOn generalizing l i rest with
  | _ n ih =>
    rcases List.eq_nil_or_concat' l with rfl | ⟨l, a, rfl⟩
    · cases h
    · rw [List.length_append, List.length_singleton] at hn
      cases ha : kind a with
      | opens =>
        rw [openAt_concat_opens ha] at h
        obtain ⟨rfl, rfl⟩ := List.cons.inj h
        exact ⟨l, a, [], rfl, rfl, ha, .nil, rfl⟩
      | closes =>
        rw [openAt_concat_closes ha] at h
        cases hopen : openAt kind l with
        | nil =>
          rw [hopen] at h
          cases h
        | cons i' rest' =>
          rw [hopen, List.tail_cons] at h
          obtain ⟨pre', a', mid', rfl, -, ha', hmid', hpre'⟩ := ih l.length (by omega) hopen rfl
          rw [h] at hpre'
          rw [List.length_append, List.length_cons] at hn
          obtain ⟨pre, c, mid, rfl, hi, hc, hmid, hpre⟩ := ih pre'.length (by omega) hpre' rfl
          refine ⟨pre, c, mid ++ a' :: (mid' ++ [a]), by simp, hi, hc, ?_, hpre⟩
          exact hmid.append (.pair ha' ha hmid' .nil)
      | other =>
        rw [openAt_concat_other ha] at h
        obtain ⟨pre, c, mid, rfl, hi, hc, hmid, hpre⟩ := ih l.length (by omega) h rfl
        exact ⟨pre, c, mid ++ [a], by simp, hi, hc, hmid.append (.other ha .nil), hpre⟩

/-! ### Partners -/

/-- **A closing bracket belongs to the last open one** before it. -/
theorem head_openAt_iff (hj : l[j]? = some b) (hb : kind b = .closes) :
    (openAt kind (l.take j)).head? = some i ↔ Partners kind l i j := by
  have hlen : j < l.length := (List.getElem?_eq_some_iff.mp hj).1
  constructor
  · intro hhead
    obtain ⟨rest, hopen⟩ := List.head?_eq_some_iff.mp hhead
    obtain ⟨pre, a, mid, hsplit, hi, ha, hmid, -⟩ := exists_of_openAt_cons hopen
    have hdrop : l.drop j = b :: l.drop (j + 1) := by
      rw [List.drop_eq_getElem_cons hlen, (List.getElem?_eq_some_iff.mp hj).2]
    refine ⟨pre, a, mid, b, l.drop (j + 1), ?_, hi, ?_, ha, hb, hmid⟩
    · have hall := List.take_append_drop j l
      rw [hsplit, hdrop, List.append_assoc, List.cons_append] at hall
      exact hall.symm
    · rw [← hsplit, List.length_take, Nat.min_eq_left (Nat.le_of_lt hlen)]
  · rintro ⟨pre, a, mid, b', post, rfl, rfl, rfl, ha, -, hmid⟩
    have htake : (pre ++ a :: (mid ++ b' :: post)).take (pre ++ a :: mid).length
        = pre ++ [a] ++ mid := by
      have hsplit : pre ++ a :: (mid ++ b' :: post) = (pre ++ a :: mid) ++ b' :: post := by simp
      rw [hsplit, List.take_left]
      simp
    rw [htake, hmid.openAt, openAt_concat_opens ha]
    rfl

theorem Partners.closes (h : Partners kind l i j) :
    ∃ b, l[j]? = some b ∧ kind b = .closes := by
  obtain ⟨pre, a, mid, b, post, rfl, -, rfl, -, hb, -⟩ := h
  refine ⟨b, ?_, hb⟩
  have hsplit : pre ++ a :: (mid ++ b :: post) = (pre ++ a :: mid) ++ b :: post := by simp
  rw [hsplit, List.getElem?_append_right (Nat.le_refl _), Nat.sub_self]
  rfl

theorem Partners.inj (h : Partners kind l i j) (h' : Partners kind l i' j) : i = i' := by
  obtain ⟨b, hj, hb⟩ := h.closes
  have hhead := (head_openAt_iff hj hb).mpr h
  rw [(head_openAt_iff hj hb).mpr h'] at hhead
  exact (Option.some.inj hhead).symm

/-- **Two pairs lie one in the other**, or one behind the other. -/
theorem Partners.nested (h : Partners kind l i j) (h' : Partners kind l i' j') (hlt : i < i') :
    j < i' ∨ j' < j := by
  by_contra hnot
  obtain ⟨hle, hle'⟩ := not_or.mp hnot
  have hne : j ≠ j' := by
    rintro rfl
    exact hlt.ne (h.inj h')
  obtain ⟨b, hj, hb⟩ := h.closes
  have hhead := (head_openAt_iff hj hb).mpr h
  obtain ⟨rest, hopen⟩ := List.head?_eq_some_iff.mp hhead
  have hsorted : (openAt kind (l.take j)).Pairwise (· > ·) := (openAt_sorted (l.take j)).1
  -- the bracket at `i'` is still open where the other pair ends
  have hmem : i' ∈ openAt kind (l.take j) := by
    obtain ⟨pre, a, mid, b', post, hsplit, hi', hj', ha, -, hmid⟩ := h'
    rw [List.length_append, List.length_cons] at hj'
    have hij : i' ≠ j := by
      rintro rfl
      rw [hsplit, hi', List.getElem?_append_right (Nat.le_refl _), Nat.sub_self] at hj
      obtain rfl := Option.some.inj hj
      rw [ha] at hb
      cases hb
    obtain ⟨k, rfl⟩ : ∃ k, j = pre.length + 1 + k := ⟨j - (pre.length + 1), by omega⟩
    have hk : k ≤ mid.length := by omega
    have htake : l.take (pre.length + 1 + k) = pre ++ [a] ++ mid.take k := by
      have hlist : l = (pre ++ [a]) ++ (mid ++ b' :: post) := by rw [hsplit]; simp
      have hlen : pre.length + 1 + k = (pre ++ [a]).length + k := by simp
      rw [hlist, hlen, List.take_length_add_append, List.take_append_of_le_length hk]
    obtain ⟨s, hs⟩ := hmid.openAt_prefix (pre ++ [a]) (List.take_append_drop k mid).symm
    rw [htake, hs, openAt_concat_opens ha, hi']
    simp
  rw [hopen] at hsorted hmem
  rcases List.mem_cons.mp hmem with rfl | hmem
  · exact absurd hlt (Nat.lt_irrefl _)
  · have hgt := (List.pairwise_cons.mp hsorted).1 i' hmem
    omega

end Bracket

end TaskjugglerLsp.Lib
