import Mathlib.Data.List.GetD
import TaskjugglerLsp.Lib.Regions
import TaskjugglerLsp.Lib.Runs
import TaskjugglerLsp.Pathutil

/-!
# The string arena

`arena.c`.  A `size_t` is a `UInt64`, whose operations wrap as those of the code do.  The blocks of
an arena are listed as they are linked, newest first; a block is known by its number, the number
of blocks that are older.

* `arena_discipline`: what is handed out, in any sequence of calls.
-/

namespace TaskjugglerLsp

open Lib.Regions Lib.Runs

/-- `ARENA_BLOCK_SIZE`. -/
def arenaBlockSize : UInt64 := 64 * 1024

/-- `sizeof(arena_block)`: a pointer and two sizes. -/
def arenaHeaderSize : UInt64 := 24

/-- `arena_block`; `size` is what `malloc` was asked for. -/
structure ArenaBlock where
  size : UInt64
  used : UInt64
  cap : UInt64
  data : ℕ → UInt8

/-- `str_arena`: the chain of its blocks. -/
abbrev Arena := List ArenaBlock

/-- `arena_grow`: the new block, which becomes the head. -/
def arenaGrow (need : UInt64) : ArenaBlock :=
  let cap := if arenaBlockSize < need then need else arenaBlockSize
  ⟨arenaHeaderSize + cap, 0, cap, fun _ => 0⟩

/-- The bump pointer, rounded up to 8 bytes. -/
def ArenaBlock.aligned (b : ArenaBlock) : UInt64 := (b.used + 7) &&& ~~~7

/-- `arena_alloc`. -/
def arenaAlloc (a : Arena) (n : UInt64) : Arena × Region :=
  match a with
  | b :: older =>
    if b.cap < b.aligned + n then
      let b' := arenaGrow n
      ({ b' with used := n } :: a, ⟨a.length, 0, n.toNat⟩)
    else
      ({ b with used := b.aligned + n } :: older, ⟨older.length, b.aligned.toNat, n.toNat⟩)
  | [] =>
    let b' := arenaGrow n
    ([{ b' with used := n }], ⟨0, 0, n.toNat⟩)

/-- Carve `need` bytes from a block, and copy the string with its NUL to the front of them. -/
def ArenaBlock.intern (b : ArenaBlock) (s : CStr) (need : UInt64) : ArenaBlock :=
  { b with
    used := b.used + need
    data := fun i => if b.used.toNat ≤ i ∧ i < b.used.toNat + (s.length + 1)
      then (s ++ [0]).getD (i - b.used.toNat) 0 else b.data i }

/-- `arena_strndup`, of the `len` bytes `s`. -/
def arenaStrndup (a : Arena) (s : CStr) : Arena × Region :=
  let need := UInt64.ofNat s.length + 1
  match a with
  | b :: older =>
    if b.cap - b.used < need then
      ((arenaGrow need).intern s need :: a, ⟨a.length, 0, need.toNat⟩)
    else (b.intern s need :: older, ⟨older.length, b.used.toNat, need.toNat⟩)
  | [] => ([(arenaGrow need).intern s need], ⟨0, 0, need.toNat⟩)

/-! ### Sequences of calls -/

inductive ArenaCall where
  | alloc (n : UInt64)
  | strndup (s : CStr)

/-- How many bytes a call asks for. -/
def ArenaCall.bytes : ArenaCall → ℕ
  | .alloc n => n.toNat
  | .strndup s => s.length + 1

/-- An arena, and what has been handed out from it: the calls and their regions, the last one
first. -/
structure ArenaState where
  arena : Arena
  handed : List (ArenaCall × Region)

/-- `arena_new`. -/
def arenaNew : ArenaState := ⟨[], []⟩

def ArenaState.call (s : ArenaState) : ArenaCall → ArenaState
  | .alloc n =>
    let (a, r) := arenaAlloc s.arena n
    ⟨a, (.alloc n, r) :: s.handed⟩
  | .strndup str =>
    let (a, r) := arenaStrndup s.arena str
    ⟨a, (.strndup str, r) :: s.handed⟩

/-- The size arithmetic of a call does not wrap: neither the sums of the fast path nor the size
of a new block. -/
def ArenaCall.Fits (s : ArenaState) (c : ArenaCall) : Prop :=
  (∀ b ∈ s.arena.head?, b.used.toNat + 7 + c.bytes < 2 ^ 64) ∧
    arenaHeaderSize.toNat + c.bytes < 2 ^ 64

instance (s : ArenaState) (c : ArenaCall) : Decidable (c.Fits s) :=
  inferInstanceAs (Decidable ((∀ b ∈ s.arena.head?, _) ∧ _))

/-- The block with a number. -/
def Arena.block? (a : Arena) (i : ℕ) : Option ArenaBlock := a.reverse[i]?

/-- The byte at an offset of a block. -/
def Arena.byte? (a : Arena) (i j : ℕ) : Option UInt8 := (Arena.block? a i).map (·.data j)

/-! ### Blocks by their number -/

theorem block?_cons_old {b : ArenaBlock} {older : Arena} {i : ℕ} (h : i < older.length) :
    Arena.block? (b :: older) i = Arena.block? older i := by
  rw [Arena.block?, Arena.block?, List.reverse_cons, List.getElem?_append_left (by simpa using h)]

theorem block?_cons_new (b : ArenaBlock) (older : Arena) :
    Arena.block? (b :: older) older.length = some b := by
  rw [Arena.block?, List.reverse_cons, List.getElem?_append_right (by simp)]
  simp

theorem lt_length_of_block? {a : Arena} {i : ℕ} {b : ArenaBlock} (h : Arena.block? a i = some b) :
    i < a.length := by
  rw [Arena.block?] at h
  simpa using (List.getElem?_eq_some_iff.mp h).1

theorem mem_of_block? {a : Arena} {i : ℕ} {b : ArenaBlock} (h : Arena.block? a i = some b) :
    b ∈ a := List.mem_reverse.mp (List.mem_of_getElem? h)

/-- How much of a block has been handed out. -/
def Arena.top (a : Arena) (i : ℕ) : ℕ := ((Arena.block? a i).map (·.used.toNat)).getD 0

/-! ### Rounding up -/

theorem toNat_and_compl_seven (x : UInt64) : (x &&& ~~~7).toNat = x.toNat / 8 * 8 := by
  have hmask : (~~~7 : UInt64).toNat = 2 ^ 64 - (7 + 1) := by decide
  have hx : x.toNat < 2 ^ 64 := x.toNat_lt
  have hdiv : x.toNat / 8 * 8 = x.toNat / 2 ^ 3 * 2 ^ 3 := rfl
  rw [UInt64.toNat_and, hmask, hdiv]
  apply Nat.eq_of_testBit_eq
  intro i
  rw [Nat.testBit_mul_two_pow, Nat.testBit_div_two_pow, Nat.testBit_and,
    Nat.testBit_two_pow_sub_succ (by decide), show (7 : ℕ) = 2 ^ 3 - 1 from rfl,
    Nat.testBit_two_pow_sub_one]
  by_cases hi : 3 ≤ i
  · by_cases hlarge : i < 64
    · simp [hi, hlarge, not_lt.mpr hi]
    · have hbit : x.toNat.testBit i = false :=
        Nat.testBit_lt_two_pow (hx.trans_le (Nat.pow_le_pow_right (by decide) (by omega)))
      simp [hi, hbit]
  · simp [hi, not_le.mp hi]

theorem aligned_spec {b : ArenaBlock} (h : b.used.toNat + 7 < 2 ^ 64) :
    b.used.toNat ≤ b.aligned.toNat ∧ b.aligned.toNat ≤ b.used.toNat + 7 ∧ 8 ∣ b.aligned.toNat := by
  have hsum : (b.used + 7).toNat = b.used.toNat + 7 := by
    rw [UInt64.toNat_add, show (7 : UInt64).toNat = 7 from rfl, Nat.mod_eq_of_lt h]
  rw [ArenaBlock.aligned, toNat_and_compl_seven, hsum]
  exact ⟨by omega, by omega, Nat.dvd_mul_left _ _⟩

/-! ### What a call does -/

/-- A block has no more handed out than it has room for, and room for what was asked of `malloc`
but the header. -/
structure ArenaBlock.Sound (b : ArenaBlock) : Prop where
  used_le : b.used ≤ b.cap
  size : b.size.toNat = arenaHeaderSize.toNat + b.cap.toNat

theorem arenaGrow_spec (need : UInt64) (h : arenaHeaderSize.toNat + need.toNat < 2 ^ 64) :
    need ≤ (arenaGrow need).cap ∧
      (arenaGrow need).size.toNat = arenaHeaderSize.toNat + (arenaGrow need).cap.toNat := by
  have hheader : arenaHeaderSize.toNat = 24 := by decide
  have hblock : arenaBlockSize.toNat = 65536 := by decide
  unfold arenaGrow
  by_cases hneed : arenaBlockSize < need
  · simp only [if_pos hneed]
    exact ⟨UInt64.le_refl _, by rw [UInt64.toNat_add, Nat.mod_eq_of_lt h]⟩
  · simp only [if_neg hneed]
    exact ⟨UInt64.not_lt.mp hneed, by rw [UInt64.toNat_add, hheader, hblock]⟩

/-- How a call changes the arena: it carves its region out of one block from the top, and the
blocks that were there keep their room and every byte below their tops. -/
structure Carves (a a' : Arena) (c : ArenaCall) (r : Region) : Prop where
  sound : ∀ b ∈ a', b.Sound
  len : r.len = c.bytes
  fresh : a.top r.block ≤ r.off
  below : r.Below a'.top
  within : r.block < a'.length
  top_le : ∀ i, a.top i ≤ a'.top i
  kept : ∀ i b, Arena.block? a i = some b → ∃ b', Arena.block? a' i = some b' ∧ b'.cap = b.cap ∧
    ∀ j < a.top i, b'.data j = b.data j
  aligned : ∀ n, c = .alloc n → 8 ∣ r.off
  copied : ∀ s, c = .strndup s → ∀ j < s.length + 1,
    a'.byte? r.block (r.off + j) = some ((s ++ [0]).getD j 0)

theorem top_eq {a : Arena} {i : ℕ} {b : ArenaBlock} (h : Arena.block? a i = some b) :
    a.top i = b.used.toNat := by
  rw [Arena.top, h]
  rfl

theorem top_of_le {a : Arena} {i : ℕ} (h : a.length ≤ i) : a.top i = 0 := by
  have hnone : Arena.block? a i = none := by
    rw [Arena.block?]
    exact List.getElem?_eq_none (by simpa using h)
  rw [Arena.top, hnone]
  rfl

theorem carves_head {b b' : ArenaBlock} {older : Arena} {c : ArenaCall} {off : ℕ}
    (hsound : ∀ x ∈ b :: older, x.Sound) (hcap : b'.cap = b.cap) (hsize : b'.size = b.size)
    (hfrom : b.used.toNat ≤ off) (hto : b'.used.toNat = off + c.bytes)
    (hroom : off + c.bytes ≤ b.cap.toNat) (hdata : ∀ j < b.used.toNat, b'.data j = b.data j)
    (haligned : ∀ n, c = .alloc n → 8 ∣ off)
    (hcopied : ∀ s, c = .strndup s → ∀ j < s.length + 1, b'.data (off + j) = (s ++ [0]).getD j 0) :
    Carves (b :: older) (b' :: older) c ⟨older.length, off, c.bytes⟩ := by
  have htop : Arena.top (b :: older) older.length = b.used.toNat := top_eq (block?_cons_new b older)
  have htop' : Arena.top (b' :: older) older.length = b'.used.toNat :=
    top_eq (block?_cons_new b' older)
  have hsame : ∀ i, i ≠ older.length → Arena.block? (b' :: older) i = Arena.block? (b :: older) i := by
    intro i hi
    by_cases hlt : i < older.length
    · rw [block?_cons_old hlt, block?_cons_old hlt]
    · rw [Arena.block?, Arena.block?, List.getElem?_eq_none, List.getElem?_eq_none]
      all_goals
        rw [List.length_reverse, List.length_cons]
        omega
  constructor
  case sound =>
    intro x hx
    rcases List.mem_cons.mp hx with rfl | hx
    · have hb := hsound b List.mem_cons_self
      refine ⟨?_, by rw [hsize, hcap]; exact hb.size⟩
      rw [UInt64.le_iff_toNat_le, hto, hcap]
      exact hroom
    · exact hsound x (List.mem_cons_of_mem _ hx)
  case len => rfl
  case fresh => rwa [htop]
  case below =>
    show off + c.bytes ≤ Arena.top (b' :: older) older.length
    rw [htop', hto]
  case within => exact Nat.lt_succ_self _
  case top_le =>
    intro i
    by_cases hi : i = older.length
    · subst hi
      rw [htop, htop', hto]
      omega
    · rw [Arena.top, Arena.top, hsame i hi]
  case kept =>
    intro i x hx
    by_cases hi : i = older.length
    · subst hi
      rw [block?_cons_new, Option.some.injEq] at hx
      subst hx
      refine ⟨b', block?_cons_new b' older, hcap, ?_⟩
      rw [htop]
      exact hdata
    · exact ⟨x, (hsame i hi).trans hx, rfl, fun j _ => rfl⟩
  case aligned => exact haligned
  case copied =>
    intro s hs j hj
    rw [Arena.byte?, block?_cons_new, Option.map_some, hcopied s hs j hj]

theorem carves_new {b' : ArenaBlock} {a : Arena} {c : ArenaCall} (hsound : ∀ x ∈ a, x.Sound)
    (hnew : b'.Sound) (hto : b'.used.toNat = c.bytes)
    (hcopied : ∀ s, c = .strndup s → ∀ j < s.length + 1, b'.data j = (s ++ [0]).getD j 0) :
    Carves a (b' :: a) c ⟨a.length, 0, c.bytes⟩ := by
  have htop' : Arena.top (b' :: a) a.length = b'.used.toNat := top_eq (block?_cons_new b' a)
  have hold : ∀ i, i < a.length → Arena.top (b' :: a) i = a.top i := by
    intro i hi
    rw [Arena.top, Arena.top, block?_cons_old hi]
  constructor
  case sound => exact List.forall_mem_cons.mpr ⟨hnew, hsound⟩
  case len => rfl
  case fresh => exact (top_of_le (Nat.le_refl _)).le
  case below =>
    show 0 + c.bytes ≤ Arena.top (b' :: a) a.length
    rw [htop', hto, Nat.zero_add]
  case within => exact Nat.lt_succ_self _
  case top_le =>
    intro i
    by_cases hi : i < a.length
    · exact (hold i hi).ge
    · rw [top_of_le (not_lt.mp hi)]
      exact Nat.zero_le _
  case kept =>
    intro i x hx
    exact ⟨x, (block?_cons_old (lt_length_of_block? hx)).trans hx, rfl, fun j _ => rfl⟩
  case aligned => exact fun n _ => Nat.dvd_zero 8
  case copied =>
    intro s hs j hj
    rw [Arena.byte?, block?_cons_new, Option.map_some, Nat.zero_add, hcopied s hs j hj]

theorem carves_arenaAlloc {s : ArenaState} {n : UInt64} (hsound : ∀ b ∈ s.arena, b.Sound)
    (hfits : (ArenaCall.alloc n).Fits s) :
    Carves s.arena (arenaAlloc s.arena n).1 (.alloc n) (arenaAlloc s.arena n).2 := by
  obtain ⟨a, handed⟩ := s
  obtain ⟨hhead, hgrow⟩ := hfits
  obtain ⟨hcap, hsize⟩ := arenaGrow_spec _ hgrow
  have hnew : ∀ a : Arena, (∀ b ∈ a, b.Sound) →
      Carves a ({ arenaGrow n with used := n } :: a) (.alloc n) ⟨a.length, 0, n.toNat⟩ := by
    intro a ha
    exact carves_new ha ⟨hcap, hsize⟩ rfl fun s hs => by cases hs
  cases a with
  | nil => exact hnew [] hsound
  | cons b older =>
    have hwrap : b.used.toNat + 7 + n.toNat < 2 ^ 64 := hhead b rfl
    obtain ⟨hle, hround, hdvd⟩ := aligned_spec (b := b) (by omega)
    have hsum : (b.aligned + n).toNat = b.aligned.toNat + n.toNat := by
      rw [UInt64.toNat_add, Nat.mod_eq_of_lt (by omega)]
    simp only [arenaAlloc]
    by_cases hfull : b.cap < b.aligned + n
    · rw [if_pos hfull]
      exact hnew _ hsound
    · rw [if_neg hfull]
      have hroom := UInt64.not_lt.mp hfull
      rw [UInt64.le_iff_toNat_le, hsum] at hroom
      exact carves_head hsound rfl rfl hle hsum hroom (fun _ _ => rfl) (fun _ _ => hdvd)
        fun s hs => by cases hs

theorem intern_data (b : ArenaBlock) (s : CStr) (need : UInt64) {j : ℕ} (hj : j < s.length + 1) :
    (b.intern s need).data (b.used.toNat + j) = (s ++ [0]).getD j 0 := by
  have hin : b.used.toNat ≤ b.used.toNat + j ∧
      b.used.toNat + j < b.used.toNat + (s.length + 1) := by omega
  simp only [ArenaBlock.intern]
  rw [if_pos hin, Nat.add_sub_cancel_left]

theorem intern_data_below (b : ArenaBlock) (s : CStr) (need : UInt64) {j : ℕ}
    (hj : j < b.used.toNat) : (b.intern s need).data j = b.data j := by
  simp only [ArenaBlock.intern]
  rw [if_neg (by omega)]

theorem carves_arenaStrndup {s : ArenaState} {str : CStr} (hsound : ∀ b ∈ s.arena, b.Sound)
    (hfits : (ArenaCall.strndup str).Fits s) :
    Carves s.arena (arenaStrndup s.arena str).1 (.strndup str) (arenaStrndup s.arena str).2 := by
  obtain ⟨a, handed⟩ := s
  obtain ⟨hhead, hgrow⟩ := hfits
  have hheader : arenaHeaderSize.toNat = 24 := by decide
  have hbytes : (ArenaCall.strndup str).bytes = str.length + 1 := rfl
  rw [hbytes, hheader] at hgrow
  have hneed : (UInt64.ofNat str.length + 1).toNat = str.length + 1 := by
    rw [UInt64.toNat_add, UInt64.toNat_ofNat', show (1 : UInt64).toNat = 1 from rfl,
      Nat.mod_eq_of_lt (by omega : str.length < 2 ^ 64), Nat.mod_eq_of_lt (by omega)]
  generalize hn : UInt64.ofNat str.length + 1 = need at hneed
  obtain ⟨hcap, hsize⟩ := arenaGrow_spec need (by rw [hheader, hneed]; exact hgrow)
  have hused : (arenaGrow need).used = 0 := rfl
  have hnew : ∀ a : Arena, (∀ b ∈ a, b.Sound) →
      Carves a ((arenaGrow need).intern str need :: a) (.strndup str) ⟨a.length, 0, need.toNat⟩ := by
    intro a ha
    have hto : ((arenaGrow need).intern str need).used = need := by
      simp only [ArenaBlock.intern, hused, UInt64.zero_add]
    rw [hneed, ← hbytes]
    refine carves_new ha ⟨?_, hsize⟩ (by rw [hto, hneed]; rfl) ?_
    · rw [hto]
      exact hcap
    · intro s hs j hj
      cases hs
      simpa [hused] using intern_data (arenaGrow need) str need hj
  cases a with
  | nil =>
    simp only [arenaStrndup, hn]
    exact hnew [] hsound
  | cons b older =>
    have hb := hsound b List.mem_cons_self
    have hused_le := UInt64.le_iff_toNat_le.mp hb.used_le
    have hcap_lt := b.cap.toNat_lt
    simp only [arenaStrndup, hn]
    by_cases hfull : b.cap - b.used < need
    · rw [if_pos hfull]
      exact hnew _ hsound
    · rw [if_neg hfull]
      have hroom := UInt64.not_lt.mp hfull
      rw [UInt64.le_iff_toNat_le, UInt64.toNat_sub_of_le _ _ hb.used_le, hneed] at hroom
      have hto : (b.intern str need).used.toNat = b.used.toNat + (str.length + 1) := by
        simp only [ArenaBlock.intern]
        rw [UInt64.toNat_add, hneed, Nat.mod_eq_of_lt (by omega)]
      rw [hneed, ← hbytes]
      refine carves_head hsound rfl rfl (Nat.le_refl _) hto (by rw [hbytes]; omega) ?_ ?_ ?_
      · exact fun j hj => intern_data_below b str need hj
      · exact fun n h => by cases h
      · intro s hs j hj
        cases hs
        exact intern_data b str need hj

/-! ### What a sequence of calls does -/

/-- A region stays where it is, with its bytes. -/
def StaysPut (a a' : Arena) (r : Region) : Prop :=
  ∀ j < r.len, a'.byte? r.block (r.off + j) = a.byte? r.block (r.off + j)

/-- A region that has been handed out ends within the part of its block that has been. -/
structure GivenOut (a : Arena) (c : ArenaCall) (r : Region) : Prop where
  len : r.len = c.bytes
  below : r.Below a.top
  within : r.block < a.length
  aligned : ∀ n, c = .alloc n → 8 ∣ r.off
  copied : ∀ s, c = .strndup s → ∀ j < s.length + 1,
    a.byte? r.block (r.off + j) = some ((s ++ [0]).getD j 0)

theorem Carves.handed {a a' : Arena} {c : ArenaCall} {r : Region} (h : Carves a a' c r) :
    GivenOut a' c r :=
  ⟨h.len, h.below, h.within, h.aligned, h.copied⟩

theorem exists_block? {a : Arena} {i : ℕ} (h : i < a.length) : ∃ b, Arena.block? a i = some b :=
  ⟨_, List.getElem?_eq_getElem (by simpa using h)⟩

/-- A byte below the top of its block outlives a call. -/
theorem Carves.byte? {a a' : Arena} {c : ArenaCall} {r : Region} (h : Carves a a' c r) {i j : ℕ}
    (hj : j < a.top i) : a'.byte? i j = a.byte? i j := by
  have hi : i < a.length := by
    by_contra hi
    rw [top_of_le (not_lt.mp hi)] at hj
    exact absurd hj (Nat.not_lt_zero j)
  obtain ⟨b, hb⟩ := exists_block? hi
  obtain ⟨b', hb', -, hdata⟩ := h.kept i b hb
  rw [Arena.byte?, Arena.byte?, hb, hb', Option.map_some, Option.map_some, hdata j hj]

/-- What has been handed out stays so. -/
theorem Carves.staysPut {a a' : Arena} {c c' : ArenaCall} {r r' : Region} (h : Carves a a' c r)
    (hr : GivenOut a c' r') : StaysPut a a' r' ∧ GivenOut a' c' r' := by
  have hend : r'.off + r'.len ≤ a.top r'.block := hr.below
  have hplace : StaysPut a a' r' := by
    intro j hj
    exact h.byte? (by omega)
  obtain ⟨b, hb⟩ := exists_block? hr.within
  obtain ⟨b', hb', -⟩ := h.kept _ _ hb
  refine ⟨hplace, hr.len, hr.below.mono (h.top_le _), lt_length_of_block? hb', hr.aligned, ?_⟩
  intro s hs j hj
  rw [hplace j (by rw [hr.len, hs]; exact hj), hr.copied s hs j hj]

/-- **The discipline of an arena**: no block has more handed out than it has room for, and the
regions are disjoint. -/
structure ArenaState.Disciplined (s : ArenaState) : Prop where
  sound : ∀ b ∈ s.arena, b.Sound
  apart : (s.handed.map (·.2)).Pairwise Region.Apart
  handed : ∀ h ∈ s.handed, GivenOut s.arena h.1 h.2

theorem disciplined_arenaNew : arenaNew.Disciplined := by
  constructor
  · intro b hb
    cases hb
  · exact List.Pairwise.nil
  · intro h hh
    cases hh

theorem ArenaState.call_spec (s : ArenaState) (c : ArenaCall) (hsound : ∀ b ∈ s.arena, b.Sound)
    (hfits : c.Fits s) :
    ∃ r, (s.call c).handed = (c, r) :: s.handed ∧ Carves s.arena (s.call c).arena c r := by
  cases c with
  | alloc n => exact ⟨_, rfl, carves_arenaAlloc hsound hfits⟩
  | strndup str => exact ⟨_, rfl, carves_arenaStrndup hsound hfits⟩

/-- **A call** keeps the discipline. -/
theorem ArenaState.Disciplined.call {s : ArenaState} {c : ArenaCall} (h : s.Disciplined)
    (hfits : c.Fits s) : (s.call c).Disciplined := by
  obtain ⟨r, hhanded, hcarves⟩ := s.call_spec c h.sound hfits
  constructor
  case sound => exact hcarves.sound
  case apart =>
    rw [hhanded, List.map_cons]
    have hbelow : ∀ r' ∈ s.handed.map (·.2), Region.Below s.arena.top r' := by
      intro r' hr'
      obtain ⟨x, hx, rfl⟩ := List.mem_map.mp hr'
      exact (h.handed x hx).below
    exact pairwise_carve hbelow h.apart hcarves.fresh
  case handed =>
    rw [hhanded]
    refine List.forall_mem_cons.mpr ⟨hcarves.handed, ?_⟩
    intro x hx
    exact (hcarves.staysPut (h.handed x hx)).2

/-- What later calls leave of an arena: its blocks have the room that they had, and what has been
handed out has been, with the same bytes. -/
structure ArenaState.Extended (s s' : ArenaState) : Prop where
  blocks : ∀ i b, Arena.block? s.arena i = some b →
    ∃ b', Arena.block? s'.arena i = some b' ∧ b'.cap = b.cap
  handed : s.handed <:+ s'.handed
  staysPut : ∀ h ∈ s.handed, StaysPut s.arena s'.arena h.2

theorem ArenaState.Extended.refl (s : ArenaState) : s.Extended s :=
  ⟨fun _ b hb => ⟨b, hb, rfl⟩, List.suffix_refl _, fun _ _ _ _ => rfl⟩

theorem ArenaState.Extended.call {s s' : ArenaState} {c : ArenaCall} (h : s.Extended s')
    (hs' : s'.Disciplined) (hfits : c.Fits s') : s.Extended (s'.call c) := by
  obtain ⟨r, hhanded, hcarves⟩ := s'.call_spec c hs'.sound hfits
  constructor
  case blocks =>
    intro i b hb
    obtain ⟨b', hb', hcap⟩ := h.blocks i b hb
    obtain ⟨b'', hb'', hcap', -⟩ := hcarves.kept i b' hb'
    exact ⟨b'', hb'', hcap'.trans hcap⟩
  case handed =>
    rw [hhanded]
    exact h.handed.trans (List.suffix_cons _ _)
  case staysPut =>
    intro x hx j hj
    have hplace := (hcarves.staysPut (hs'.handed x (h.handed.subset hx))).1
    exact (hplace j hj).trans (h.staysPut x hx j hj)

theorem ArenaState.Disciplined.within {s : ArenaState} (h : s.Disciplined)
    {x : ArenaCall × Region} (hx : x ∈ s.handed) :
    ∃ b, Arena.block? s.arena x.2.block = some b ∧ x.2.off + x.2.len ≤ b.cap.toNat := by
  have hhanded := h.handed x hx
  obtain ⟨b, hb⟩ := exists_block? hhanded.within
  have hused := UInt64.le_iff_toNat_le.mp (h.sound b (mem_of_block? hb)).used_le
  have hbelow : x.2.off + x.2.len ≤ s.arena.top x.2.block := hhanded.below
  rw [top_eq hb] at hbelow
  exact ⟨b, hb, hbelow.trans hused⟩

/-- **In any sequence of calls**, small enough for the size arithmetic not to wrap: no block has
more handed out than it has room for; each call is handed a region of its size within the room of a
block, that of `arena_alloc` at a multiple of 8; the regions are disjoint; and what has been handed
out on the way stays in place. -/
theorem arena_discipline (calls later : List ArenaCall)
    (h : Meets ArenaState.call (fun s c => c.Fits s) arenaNew (calls ++ later)) :
    let s := calls.foldl ArenaState.call arenaNew
    let s' := later.foldl ArenaState.call s
    (∀ b ∈ s.arena, b.used ≤ b.cap) ∧ s.handed.map (·.1) = calls.reverse ∧
      (s.handed.map (·.2)).Pairwise Region.Apart ∧
      (∀ x ∈ s.handed, x.2.len = x.1.bytes ∧ (∀ n, x.1 = .alloc n → 8 ∣ x.2.off) ∧
        ∃ b, Arena.block? s.arena x.2.block = some b ∧ x.2.off + x.2.len ≤ b.cap.toNat) ∧
      s.Extended s' := by
  intro s s'
  obtain ⟨hcalls, hlater⟩ := meets_append.mp h
  have hdisciplined : s.Disciplined :=
    hcalls.invariant (fun _ _ hs hfits => hs.call hfits) disciplined_arenaNew
  have hnames : ∀ (calls : List ArenaCall) (s : ArenaState),
      (calls.foldl ArenaState.call s).handed.map (·.1) = calls.reverse ++ s.handed.map (·.1) := by
    intro calls
    induction calls with
    | nil => exact fun s => rfl
    | cons c calls ih =>
      intro s
      have hcall : (s.call c).handed.map (·.1) = c :: s.handed.map (·.1) := by
        cases c <;> rfl
      rw [List.foldl_cons, ih, hcall, List.reverse_cons, List.append_assoc, List.singleton_append]
  have hextended : s'.Disciplined ∧ s.Extended s' :=
    hlater.invariant (I := fun x => x.Disciplined ∧ s.Extended x)
      (fun _ _ hx hfits => ⟨hx.1.call hfits, hx.2.call hx.1 hfits⟩) ⟨hdisciplined, .refl s⟩
  refine ⟨fun b hb => (hdisciplined.sound b hb).used_le, ?_, hdisciplined.apart, ?_, hextended.2⟩
  · rw [hnames]
    exact List.append_nil _
  · intro x hx
    have hhanded := hdisciplined.handed x hx
    exact ⟨hhanded.len, hhanded.aligned, hdisciplined.within hx⟩

/-- An odd string, a record, and what needs a block of its own. -/
theorem arena_discipline_mixed :
    let s := [ArenaCall.strndup (cstr "ab"), .alloc 16, .alloc 70000].foldl ArenaState.call arenaNew
    (s.handed.map (·.2)).Pairwise Region.Apart ∧
      s.handed.map (·.2) = [⟨1, 0, 70000⟩, ⟨0, 8, 16⟩, ⟨0, 0, 3⟩] :=
  ⟨(arena_discipline [.strndup (cstr "ab"), .alloc 16, .alloc 70000] []
    (by decide +kernel)).2.2.1, by decide +kernel⟩

end TaskjugglerLsp
