import Mathlib.Data.List.TakeWhile
import TaskjugglerLsp.Lib.TextCursor

/-!
# Measuring lines in a bounded buffer

A text is put together from pieces in a buffer with a bounded room, which leaves out the
pieces that do not fit.  Afterwards a scan for line ends measures the lines of the text in the
buffer instead of those of the text.

`lineLengths_keep_iff` says when it measures the right lengths: exactly if the lines with
their line ends fit, or the buffer ends with a whole line and the others are as long (`Measured`).
-/

namespace TaskjugglerLsp.Lib

variable {α : Type*} [DecidableEq α] (nl : α)

/-! ### Lines -/

/-- The lengths of `n` lines, measured one after the other: at the end of the text, what is
left is measured again. -/
def lineLengths : ℕ → List α → List ℕ
  | 0, _ => []
  | n + 1, p =>
    (p.takeWhile (· != nl)).length ::
      lineLengths n (if nl ∈ p then (p.dropWhile (· != nl)).tail else p)

variable {nl}

theorem takeWhile_append_bare {a : List α} (ha : nl ∉ a) (rest : List α) :
    (a ++ rest).takeWhile (· != nl) = a ++ rest.takeWhile (· != nl) := by
  rw [List.takeWhile_append_of_pos]
  intro x hx
  rw [bne_iff_ne]
  exact ne_of_mem_of_not_mem hx ha

theorem takeWhile_bare {a : List α} (ha : nl ∉ a) : a.takeWhile (· != nl) = a := by
  have h := takeWhile_append_bare ha []
  rwa [List.takeWhile_nil, List.append_nil] at h

theorem takeWhile_line {a : List α} (ha : nl ∉ a) (rest : List α) :
    (a ++ nl :: rest).takeWhile (· != nl) = a := by
  rw [takeWhile_append_bare ha, List.takeWhile_cons_of_neg (by simp), List.append_nil]

theorem dropWhile_line {a : List α} (ha : nl ∉ a) (rest : List α) :
    (a ++ nl :: rest).dropWhile (· != nl) = nl :: rest := by
  rw [List.dropWhile_append_of_pos, List.dropWhile_cons_of_neg (by simp)]
  intro x hx
  rw [bne_iff_ne]
  exact ne_of_mem_of_not_mem hx ha

theorem lineLengths_line {a : List α} (ha : nl ∉ a) (rest : List α) (n : ℕ) :
    lineLengths nl (n + 1) (a ++ nl :: rest) = a.length :: lineLengths nl n rest := by
  rw [lineLengths, takeWhile_line ha, dropWhile_line ha, if_pos (by simp), List.tail_cons]

theorem lineLengths_bare {a : List α} (ha : nl ∉ a) (n : ℕ) :
    lineLengths nl n a = List.replicate n a.length := by
  induction n with
  | zero => rfl
  | succ n ih => rw [lineLengths, takeWhile_bare ha, if_neg ha, ih, List.replicate_succ]

theorem length_lineLengths (n : ℕ) (p : List α) : (lineLengths nl n p).length = n := by
  induction n generalizing p with
  | zero => rfl
  | succ n ih => rw [lineLengths, List.length_cons, ih]

/-- **The measured lines are the lines** of the text, up to the last, which ends at the column
of the cursor. -/
theorem map_length_splitOn (q : ℕ × ℕ) (p : List α) :
    (p.splitOn nl).map List.length = lineLengths nl (p.count nl) p ++
        [(cursor (· == nl) (fun _ => 1) q p).2 - if nl ∈ p then 0 else q.2] ∧
      (cursor (· == nl) (fun _ => 1) q p).1 = q.1 + p.count nl := by
  have hbare {a : List α} (ha : nl ∉ a) (q : ℕ × ℕ) :
      cursor (· == nl) (fun _ => 1) q a = (q.1, q.2 + a.length) := by
    rw [cursor_bare, List.map_const', List.sum_replicate, Nat.nsmul_eq_mul, Nat.mul_one]
    intro x hx
    rw [beq_eq_false_iff_ne]
    exact ne_of_mem_of_not_mem hx ha
  induction hn : p.count nl generalizing p q with
  | zero =>
    have hp : nl ∉ p := List.count_eq_zero.mp hn
    rw [List.splitOn_eq_singleton hp, hbare hp, if_neg hp, Nat.add_sub_cancel_left]
    exact ⟨rfl, rfl⟩
  | succ n ih =>
    have hmem : nl ∈ p := List.count_pos_iff.mp (by omega)
    obtain ⟨a, rest, rfl, ha⟩ := List.eq_append_cons_of_mem hmem
    have hcount : rest.count nl = n := by
      rw [List.count_append, List.count_eq_zero.mpr ha, List.count_cons_self] at hn
      omega
    have hcursor : cursor (· == nl) (fun _ => 1) q (a ++ nl :: rest)
        = cursor (· == nl) (fun _ => 1) (q.1 + 1, 0) rest := by
      rw [cursor_append, hbare ha, cursor_cons, advance, if_pos (beq_self_eq_true nl)]
    obtain ⟨hlines, hline⟩ := ih (q.1 + 1, 0) rest hcount
    rw [ite_self] at hlines
    rw [List.splitOn_append_cons_self_of_not_mem ha, List.map_cons, hlines, lineLengths_line ha,
      hcursor, hline, if_pos hmem, List.cons_append]
    exact ⟨rfl, by omega⟩

/-! ### The buffer -/

/-- The pieces that a buffer with so much room keeps. -/
def keep : ℕ → List (List α) → List (List α)
  | _, [] => []
  | room, x :: xs => if x.length ≤ room then x :: keep (room - x.length) xs else keep room xs

variable (nl) in
/-- A piece of a text: a line end, or something within a line. -/
def IsPiece (piece : List α) : Prop := piece = [nl] ∨ (piece ≠ [] ∧ nl ∉ piece)

/-- The lines but the last, with their line ends, fit in the room, or the first of them fill it
and the others are as long as the one before. -/
def Measured : ℕ → List ℕ → Prop
  | _, [] => True
  | room, l :: ls =>
    l ≤ room ∧ if l = room then ∀ l' ∈ ls, l' = l else Measured (room - (l + 1)) ls

omit [DecidableEq α] in
theorem IsPiece.length_pos {piece : List α} (h : IsPiece nl piece) : 0 < piece.length := by
  rcases h with rfl | ⟨hne, -⟩
  · exact Nat.one_pos
  · exact List.length_pos_iff.mpr hne

omit [DecidableEq α] in
theorem keep_zero {xs : List (List α)} (hxs : ∀ x ∈ xs, IsPiece nl x) : keep 0 xs = [] := by
  induction xs with
  | nil => rfl
  | cons x xs ih =>
    have hx := (hxs x List.mem_cons_self).length_pos
    rw [keep, if_neg (by omega), ih fun y hy => hxs y (List.mem_cons_of_mem x hy)]

theorem takeWhile_keep_le {xs : List (List α)} (hxs : ∀ x ∈ xs, IsPiece nl x) (room : ℕ) :
    ((keep room xs).flatten.takeWhile (· != nl)).length ≤
      (xs.flatten.takeWhile (· != nl)).length := by
  induction xs generalizing room with
  | nil => exact le_rfl
  | cons x xs ih =>
    have hrest : ∀ y ∈ xs, IsPiece nl y := fun y hy => hxs y (List.mem_cons_of_mem x hy)
    rcases hxs x List.mem_cons_self with rfl | ⟨-, hline⟩
    · rw [keep]
      split
      · simp
      · rename_i hfull
        obtain rfl : room = 0 := by
          rw [List.length_singleton] at hfull
          omega
        rw [keep_zero hrest]
        exact Nat.zero_le _
    · rw [keep, List.flatten_cons, takeWhile_append_bare hline, List.length_append]
      split
      · rw [List.flatten_cons, takeWhile_append_bare hline, List.length_append]
        exact Nat.add_le_add_left (ih hrest _) _
      · exact (ih hrest _).trans (Nat.le_add_left _ _)

/-- **What the buffer is good for**: it keeps the lengths of the lines exactly if they are
`Measured`.  Here `a` is the line so far, and `room` is what there was before it. -/
theorem lineLengths_keep_iff {xs : List (List α)} (hxs : ∀ x ∈ xs, IsPiece nl x) {a : List α}
    (ha : nl ∉ a) {room : ℕ} (hroom : a.length ≤ room) :
    lineLengths nl (xs.flatten.count nl) (a ++ (keep (room - a.length) xs).flatten)
        = lineLengths nl (xs.flatten.count nl) (a ++ xs.flatten) ↔
      Measured room (lineLengths nl (xs.flatten.count nl) (a ++ xs.flatten)) := by
  induction xs generalizing a room with
  | nil => exact ⟨fun _ => trivial, fun _ => rfl⟩
  | cons x xs ih =>
    have hrest : ∀ y ∈ xs, IsPiece nl y := fun y hy => hxs y (List.mem_cons_of_mem x hy)
    rcases hxs x List.mem_cons_self with rfl | ⟨hne, hline⟩
    · -- a line ends
      have hcount : ([nl] :: xs).flatten.count nl = xs.flatten.count nl + 1 := by simp
      have hflat : a ++ ([nl] :: xs).flatten = a ++ nl :: xs.flatten := rfl
      rw [hcount, hflat, lineLengths_line ha, Measured, keep, List.length_singleton]
      by_cases hfull : a.length = room
      · rw [if_neg (by omega), hfull, Nat.sub_self, keep_zero hrest, List.flatten_nil,
          List.append_nil, lineLengths_bare ha, List.replicate_succ, hfull, if_pos rfl,
          List.cons.injEq, eq_comm (a := List.replicate _ _), List.eq_replicate_iff,
          length_lineLengths]
        simp
      · have hkept : a ++ ([nl] :: keep (room - a.length - 1) xs).flatten
            = a ++ nl :: ([] ++ (keep (room - (a.length + 1) - ([] : List α).length) xs).flatten) := by
          rw [List.length_nil, Nat.sub_zero, Nat.sub_sub]
          rfl
        rw [if_pos (by omega), hkept, lineLengths_line ha, List.cons.injEq, if_neg hfull]
        have hih := ih hrest (a := []) List.not_mem_nil
          (show ([] : List α).length ≤ room - (a.length + 1) from Nat.zero_le _)
        rw [List.nil_append xs.flatten] at hih
        rw [hih]
        simp [hroom]
    · -- the line goes on
      have hcount : (x :: xs).flatten.count nl = xs.flatten.count nl := by
        rw [List.flatten_cons, List.count_append, List.count_eq_zero.mpr hline, Nat.zero_add]
      have hax : nl ∉ a ++ x := by
        rw [List.mem_append, not_or]
        exact ⟨ha, hline⟩
      rw [hcount, List.flatten_cons, ← List.append_assoc, keep]
      split
      case isTrue hfits =>
        have hroom' : (a ++ x).length ≤ room := by
          rw [List.length_append]
          omega
        have hih := ih hrest hax hroom'
        rw [List.length_append, ← Nat.sub_sub] at hih
        rw [List.flatten_cons, ← List.append_assoc]
        exact hih
      case isFalse hfull =>
        cases hn : xs.flatten.count nl with
        | zero => exact ⟨fun _ => trivial, fun _ => rfl⟩
        | succ n =>
          have hle := takeWhile_keep_le hrest (room - a.length)
          have hx := List.length_pos_iff.mpr hne
          rw [lineLengths, lineLengths, Measured, List.cons.injEq, takeWhile_append_bare ha,
            takeWhile_append_bare hax, List.length_append, List.length_append, List.length_append]
          refine ⟨fun h => ?_, fun h => ?_⟩
          · omega
          · omega

end TaskjugglerLsp.Lib
