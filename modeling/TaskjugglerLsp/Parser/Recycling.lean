import Mathlib.Logic.Function.Basic
import TaskjugglerLsp.Lib.Ledger

/-!
# The buffers of the token spans

`tok_spans_take` and `tok_spans_release` of `parser.c`, with all that hands a buffer on: the
parse in progress, which grows it, its output, and the snapshots that are made of outputs.  Every
atomic access is a step of its own, and the steps of all threads come in any order.  A buffer is
named by the allocation it came from.

* `SpanStep.ledger`: every step is one of the operations of a ledger, or two;
* `token_buffers_conserved`: at every moment a buffer is in one place.
-/

namespace TaskjugglerLsp

open Lib

/-- `TOK_SPANS_RECYCLE_MIN_BYTES`. -/
def tokSpansRecycleMinBytes : ℕ := 32 * 1024 * 1024

/-- `sizeof(TokenSpan)`. -/
def tokenSpanSize : ℕ := 32

/-- The globals of a parse: `g_tok_spans`, `g_num_tok_spans` and `g_tok_span_cap`. -/
structure ParseGlobals where
  tokSpans : Option ℕ
  numTokSpans : ℕ
  tokSpanCap : ℕ

/-- What has a pointer to a buffer outside of a parse: an output, a snapshot with references to
it, a call of `tok_spans_release` before its compare-exchange, and one that has lost it. -/
inductive SpanHolder where
  | output (tokSpans : Option ℕ)
  | snapshot (tokSpans : Option ℕ) (refcount : ℕ)
  | releasing (buf : Option ℕ)
  | surplus (buf : ℕ)

def SpanHolder.tokSpans : SpanHolder → Option ℕ
  | .output b => b
  | .snapshot b _ => b
  | .releasing b => b
  | .surplus b => some b

/-- The buffers, and the pointers to them. -/
structure SpanBuffers where
  /-- `g_tok_spans_recycle`. -/
  slot : Option ℕ
  parse : Option ParseGlobals
  holders : ℕ → Option SpanHolder
  /-- `malloc_usable_size`. -/
  usableSize : ℕ → ℕ
  /-- The buffers that have been freed, the last one first. -/
  freed : List ℕ
  /-- The name of the next buffer. -/
  next : ℕ

namespace SpanBuffers

def init : SpanBuffers := ⟨none, none, fun _ => none, fun _ => 0, [], 0⟩

/-- A holder changes. -/
def setHolder (s : SpanBuffers) (i : ℕ) (h : Option SpanHolder) : SpanBuffers :=
  { s with holders := Function.update s.holders i h }

/-- `free`, by the last act of a holder. -/
def freeOf (s : SpanBuffers) (i b : ℕ) : SpanBuffers :=
  { s.setHolder i none with freed := b :: s.freed }

/-- The capacity that `g_push_tok_span` asks for. -/
def grownCap (cap : ℕ) : ℕ := if cap ≠ 0 then cap * 2 else 64

end SpanBuffers

open SpanBuffers in
/-- One step of one of the threads. -/
inductive SpanStep (s : SpanBuffers) : SpanBuffers → Prop
  /-- `install_parse_globals`: the exchange of `tok_spans_take`. -/
  | take : s.parse = none → SpanStep s
      { s with
        slot := none
        parse := some ⟨s.slot, 0, (s.slot.map fun b => s.usableSize b / tokenSpanSize).getD 0⟩ }
  /-- `g_push_tok_span`, with room. -/
  | push {p : ParseGlobals} : s.parse = some p → p.numTokSpans < p.tokSpanCap → SpanStep s
      { s with parse := some { p with numTokSpans := p.numTokSpans + 1 } }
  /-- `g_push_tok_span` without room, where `realloc` has no block yet. -/
  | malloc {p : ParseGlobals} (size : ℕ) : s.parse = some p → p.tokSpanCap ≤ p.numTokSpans →
      p.tokSpans = none → grownCap p.tokSpanCap * tokenSpanSize ≤ size → SpanStep s
      { s with
        parse := some ⟨some s.next, p.numTokSpans + 1, grownCap p.tokSpanCap⟩
        usableSize := Function.update s.usableSize s.next size
        next := s.next + 1 }
  /-- `realloc` that leaves the block where it is. -/
  | grow {p : ParseGlobals} {b : ℕ} (size : ℕ) : s.parse = some p →
      p.tokSpanCap ≤ p.numTokSpans → p.tokSpans = some b →
      grownCap p.tokSpanCap * tokenSpanSize ≤ size → SpanStep s
      { s with
        parse := some ⟨some b, p.numTokSpans + 1, grownCap p.tokSpanCap⟩
        usableSize := Function.update s.usableSize b size }
  /-- `realloc` that moves it: the old block is freed. -/
  | relocate {p : ParseGlobals} {b : ℕ} (size : ℕ) : s.parse = some p →
      p.tokSpanCap ≤ p.numTokSpans → p.tokSpans = some b →
      grownCap p.tokSpanCap * tokenSpanSize ≤ size → SpanStep s
      { s with
        parse := some ⟨some s.next, p.numTokSpans + 1, grownCap p.tokSpanCap⟩
        usableSize := Function.update s.usableSize s.next size
        freed := b :: s.freed
        next := s.next + 1 }
  /-- `harvest_parse_globals`. -/
  | harvest {p : ParseGlobals} (i : ℕ) : s.parse = some p → s.holders i = none → SpanStep s
      { s.setHolder i (some (.output p.tokSpans)) with parse := none }
  /-- `doc_install_parse`: a snapshot takes the buffer of an output. -/
  | install {b : Option ℕ} (i j : ℕ) : s.holders i = some (.output b) → s.holders j = none →
      SpanStep s ((s.setHolder j (some (.snapshot b 1))).setHolder i (some (.output none)))
  /-- `parse_output_free`. -/
  | discard {b : Option ℕ} (i : ℕ) : s.holders i = some (.output b) →
      SpanStep s (s.setHolder i (some (.releasing b)))
  /-- `docsnap_acquire`, by one that has a reference. -/
  | acquire {b : Option ℕ} {n : ℕ} (i : ℕ) : s.holders i = some (.snapshot b (n + 1)) →
      SpanStep s (s.setHolder i (some (.snapshot b (n + 2))))
  /-- `docsnap_release` of a reference that is not the last. -/
  | release {b : Option ℕ} {n : ℕ} (i : ℕ) : s.holders i = some (.snapshot b (n + 2)) →
      SpanStep s (s.setHolder i (some (.snapshot b (n + 1))))
  /-- `docsnap_release` of the last one, which goes on to `tok_spans_release`. -/
  | releaseLast {b : Option ℕ} (i : ℕ) : s.holders i = some (.snapshot b 1) →
      SpanStep s (s.setHolder i (some (.releasing b)))
  /-- There is no buffer. -/
  | releaseNull (i : ℕ) : s.holders i = some (.releasing none) → SpanStep s (s.setHolder i none)
  /-- The buffer is too small to be kept. -/
  | releaseSmall {b : ℕ} (i : ℕ) : s.holders i = some (.releasing (some b)) →
      s.usableSize b < tokSpansRecycleMinBytes → SpanStep s (s.freeOf i b)
  /-- The compare-exchange finds the slot empty. -/
  | publish {b : ℕ} (i : ℕ) : s.holders i = some (.releasing (some b)) →
      tokSpansRecycleMinBytes ≤ s.usableSize b → s.slot = none →
      SpanStep s { s.setHolder i none with slot := some b }
  /-- The compare-exchange finds another buffer there. -/
  | lose {b x : ℕ} (i : ℕ) : s.holders i = some (.releasing (some b)) →
      tokSpansRecycleMinBytes ≤ s.usableSize b → s.slot = some x →
      SpanStep s (s.setHolder i (some (.surplus b)))
  | freeSurplus {b : ℕ} (i : ℕ) : s.holders i = some (.surplus b) → SpanStep s (s.freeOf i b)

/-- The states that the threads reach together. -/
inductive SpanReached : SpanBuffers → Prop
  | init : SpanReached SpanBuffers.init
  | step {s s' : SpanBuffers} : SpanReached s → SpanStep s s' → SpanReached s'

/-! ### The ledger of the buffers -/

/-- Who may have a buffer. -/
inductive SpanOwner where
  | parse
  | slot
  | holder (i : ℕ)
  deriving DecidableEq

namespace SpanBuffers

/-- The buffer that one of them has. -/
def bufferOf (s : SpanBuffers) : SpanOwner → Option ℕ
  | .parse => s.parse.bind (·.tokSpans)
  | .slot => s.slot
  | .holder i => (s.holders i).bind (·.tokSpans)

def ledger (s : SpanBuffers) : Ledger SpanOwner := ⟨s.bufferOf, s.freed, s.next⟩

variable {s : SpanBuffers} {i : ℕ} {h : Option SpanHolder}

theorem bufferOf_setHolder_self : (s.setHolder i h).bufferOf (.holder i) = h.bind (·.tokSpans) := by
  show (Function.update s.holders i h i).bind _ = _
  rw [Function.update_self]

theorem bufferOf_setHolder_of_ne {o : SpanOwner} (ho : o ≠ .holder i) :
    (s.setHolder i h).bufferOf o = s.bufferOf o := by
  cases o with
  | parse => rfl
  | slot => rfl
  | holder j =>
    have hj : j ≠ i := fun hj => ho (by rw [hj])
    show (Function.update s.holders i h j).bind _ = _
    rw [Function.update_of_ne hj]
    rfl

theorem bufferOf_parse {p : ParseGlobals} (hparse : s.parse = some p) :
    s.bufferOf .parse = p.tokSpans := by
  rw [bufferOf, hparse]
  rfl

theorem bufferOf_holder {h' : SpanHolder} (hold : s.holders i = some h') :
    s.bufferOf (.holder i) = h'.tokSpans := by
  rw [bufferOf, hold]
  rfl

theorem bufferOf_holder_eq_none (hold : s.holders i = none) : s.bufferOf (.holder i) = none := by
  rw [bufferOf, hold]
  rfl

theorem bufferOf_of_ne_parse {s' : SpanBuffers} (hslot : s'.slot = s.slot)
    (hholders : s'.holders = s.holders) (o : SpanOwner) (ho : o ≠ .parse) :
    s'.bufferOf o = s.bufferOf o := by
  cases o with
  | parse => exact absurd rfl ho
  | slot => exact hslot
  | holder i => rw [bufferOf, bufferOf, hholders]

/-! ### The steps on the ledger -/

theorem parse_idle {s' : SpanBuffers} (hslot : s'.slot = s.slot) (hholders : s'.holders = s.holders)
    (hbuf : s'.bufferOf .parse = s.bufferOf .parse) (hfreed : s'.freed = s.freed)
    (hnext : s'.next = s.next) : Ledger.Op s.ledger s'.ledger := by
  refine .idle (fun o => ?_) hfreed hnext
  by_cases ho : o = .parse
  · rw [ho]
    exact hbuf
  · exact bufferOf_of_ne_parse hslot hholders o ho

theorem take_pass {p : ParseGlobals} (hparse : s.parse = none) (hbuf : p.tokSpans = s.slot) :
    Ledger.Op s.ledger { s with slot := none, parse := some p }.ledger := by
  refine .pass .slot .parse ?_ rfl hbuf (fun o ho ho' => ?_) rfl rfl
  · show s.parse.bind _ = none
    rw [hparse]
    rfl
  · cases o with
    | parse => exact absurd rfl ho'
    | slot => exact absurd rfl ho
    | holder i => rfl

theorem relocate_drop {p p' : ParseGlobals} {b : ℕ} {size : ℕ → ℕ} (hparse : s.parse = some p)
    (hbuf : p.tokSpans = some b) (hbuf' : p'.tokSpans = some s.next) :
    Relation.ReflTransGen Ledger.Op s.ledger
      { s with parse := some p', usableSize := size, freed := b :: s.freed,
               next := s.next + 1 }.ledger := by
  -- between the two the parse has no buffer
  have hdrop : Ledger.Op s.ledger { s with parse := none, freed := b :: s.freed }.ledger :=
    .drop .parse b ((bufferOf_parse hparse).trans hbuf) rfl (bufferOf_of_ne_parse rfl rfl) rfl rfl
  refine .tail (.single hdrop) (.create .parse rfl hbuf' (fun o ho => ?_) rfl rfl)
  cases o with
  | parse => exact absurd rfl ho
  | slot => rfl
  | holder i => rfl

theorem harvest_pass {p : ParseGlobals} {h' : SpanHolder} (hparse : s.parse = some p)
    (hfresh : s.holders i = none) (hbuf : h'.tokSpans = p.tokSpans) :
    Ledger.Op s.ledger { s.setHolder i (some h') with parse := none }.ledger := by
  refine .pass .parse (.holder i) (bufferOf_holder_eq_none hfresh) rfl ?_
    (fun o ho ho' => ?_) rfl rfl
  · exact (bufferOf_setHolder_self (s := s)).trans (hbuf.trans (bufferOf_parse hparse).symm)
  · cases o with
    | parse => exact absurd rfl ho
    | slot => rfl
    | holder j => exact bufferOf_setHolder_of_ne (s := s) ho'

theorem install_pass {j : ℕ} {x x' y : SpanHolder} (hold : s.holders i = some x)
    (hfresh : s.holders j = none) (hbuf : y.tokSpans = x.tokSpans) (hnone : x'.tokSpans = none) :
    Ledger.Op s.ledger ((s.setHolder j (some y)).setHolder i (some x')).ledger := by
  have hne : SpanOwner.holder j ≠ .holder i := by
    intro heq
    rw [← SpanOwner.holder.inj heq, hfresh] at hold
    cases hold
  refine .pass (.holder i) (.holder j) (bufferOf_holder_eq_none hfresh)
    (bufferOf_setHolder_self.trans hnone) ?_ (fun o ho ho' => ?_) rfl rfl
  · exact (bufferOf_setHolder_of_ne hne).trans
      (bufferOf_setHolder_self.trans (hbuf.trans (bufferOf_holder hold).symm))
  · exact (bufferOf_setHolder_of_ne ho).trans (bufferOf_setHolder_of_ne ho')

theorem setHolder_idle {h' : SpanHolder} (hold : s.holders i = some h')
    (hbuf : h.bind (·.tokSpans) = h'.tokSpans) : Ledger.Op s.ledger (s.setHolder i h).ledger := by
  refine .idle (fun o => ?_) rfl rfl
  show (s.setHolder i h).bufferOf o = s.bufferOf o
  by_cases ho : o = .holder i
  · rw [ho, bufferOf_setHolder_self, hbuf, bufferOf_holder hold]
  · exact bufferOf_setHolder_of_ne ho

theorem publish_move {h' : SpanHolder} {b : ℕ} (hold : s.holders i = some h')
    (hbuf : h'.tokSpans = some b) (hslot : s.slot = none) :
    Ledger.Op s.ledger { s.setHolder i none with slot := some b }.ledger := by
  refine .move (.holder i) .slot b ((bufferOf_holder hold).trans hbuf) hslot
    (bufferOf_setHolder_self (s := s)) rfl (fun o ho ho' => ?_) rfl rfl
  cases o with
  | parse => rfl
  | slot => exact absurd rfl ho'
  | holder j => exact bufferOf_setHolder_of_ne (s := s) ho

theorem freeOf_drop {h' : SpanHolder} {b : ℕ} (hold : s.holders i = some h')
    (hbuf : h'.tokSpans = some b) : Ledger.Op s.ledger (s.freeOf i b).ledger :=
  .drop (.holder i) b ((bufferOf_holder hold).trans hbuf) (bufferOf_setHolder_self (s := s))
    (fun _ ho => bufferOf_setHolder_of_ne (s := s) ho) rfl rfl

end SpanBuffers

open SpanBuffers

/-- **Every step** is one operation of the ledger, or two. -/
theorem SpanStep.ledger {s s' : SpanBuffers} (h : SpanStep s s') :
    Relation.ReflTransGen Ledger.Op s.ledger s'.ledger := by
  cases h with
  | take hparse => exact .single (take_pass hparse rfl)
  | push hparse hroom =>
    exact .single (parse_idle rfl rfl (bufferOf_parse hparse).symm rfl rfl)
  | malloc size hparse hfull hnone hsize =>
    exact .single (.create .parse ((bufferOf_parse hparse).trans hnone) rfl
      (bufferOf_of_ne_parse rfl rfl) rfl rfl)
  | grow size hparse hfull hsome hsize =>
    exact .single (parse_idle rfl rfl ((bufferOf_parse hparse).trans hsome).symm rfl rfl)
  | relocate size hparse hfull hsome hsize => exact relocate_drop hparse hsome rfl
  | harvest i hparse hfresh => exact .single (harvest_pass hparse hfresh rfl)
  | install i j hold hfresh => exact .single (install_pass hold hfresh rfl rfl)
  | discard i hold => exact .single (setHolder_idle hold rfl)
  | acquire i hold => exact .single (setHolder_idle hold rfl)
  | release i hold => exact .single (setHolder_idle hold rfl)
  | releaseLast i hold => exact .single (setHolder_idle hold rfl)
  | releaseNull i hold => exact .single (setHolder_idle hold rfl)
  | releaseSmall i hold hsize => exact .single (freeOf_drop hold rfl)
  | publish i hold hsize hslot => exact .single (publish_move hold rfl hslot)
  | lose i hold hsize hslot => exact .single (setHolder_idle hold rfl)
  | freeSurplus i hold => exact .single (freeOf_drop hold rfl)

theorem SpanReached.sound {s : SpanBuffers} (h : SpanReached s) : s.ledger.Sound := by
  induction h with
  | init =>
    refine Ledger.sound_empty.idle (fun o => ?_) rfl rfl
    cases o <;> rfl
  | step _ hstep ih => exact ih.ops hstep.ledger

/-- **Buffers are conserved**: at every moment each of them is with one owner or has been freed,
which happens once, and the buffer of a parse is not that of a snapshot or an output. -/
theorem token_buffers_conserved {s : SpanBuffers} (h : SpanReached s) :
    (∀ b < s.next, ∃! place, s.ledger.At b place) ∧
    (∀ b, s.next ≤ b → ∀ place, ¬ s.ledger.At b place) ∧ s.freed.Nodup ∧
    ∀ p b, s.parse = some p → p.tokSpans = some b →
      s.slot ≠ some b ∧ b ∉ s.freed ∧ ∀ i x, s.holders i = some x → x.tokSpans ≠ some b := by
  have hsound := h.sound
  refine ⟨fun b => hsound.existsUnique, fun b => hsound.not_at, hsound.dropped_once, ?_⟩
  intro p b hparse hbuf
  have hmine : s.bufferOf .parse = some b := by
    show s.parse.bind _ = _
    rw [hparse]
    exact hbuf
  refine ⟨fun hslot => ?_, (hsound.created .parse b hmine).2, fun i x hx hsame => ?_⟩
  · cases hsound.owner_unique .parse .slot b hmine hslot
  · have hother : s.bufferOf (.holder i) = some b := by
      show (s.holders i).bind _ = _
      rw [hx]
      exact hsame
    cases hsound.owner_unique .parse (.holder i) b hmine hother

/-- The buffer of a parse goes through a snapshot and the slot to the next parse. -/
theorem token_buffers_conserved_recycled : ∃ s : SpanBuffers, SpanReached s ∧
    (∃ p, s.parse = some p ∧ p.tokSpans = some 0) ∧ ∃! place, s.ledger.At 0 place := by
  have hinstalled := SpanReached.init.step (.take rfl)
    |>.step (.malloc tokSpansRecycleMinBytes rfl (by decide) rfl (by decide))
    |>.step (.harvest 0 rfl rfl)
    |>.step (.install 0 1 rfl rfl)
    |>.step (.discard 0 rfl)
    |>.step (.releaseNull 0 rfl)
  have hrecycled := hinstalled.step (.acquire 1 rfl)
    |>.step (.release 1 rfl)
    |>.step (.releaseLast 1 rfl)
    |>.step (.publish 1 rfl (Nat.le_refl _) rfl)
    |>.step (.take rfl)
  exact ⟨_, hrecycled, ⟨_, rfl, rfl⟩, (token_buffers_conserved hrecycled).1 0 Nat.zero_lt_one⟩

end TaskjugglerLsp
