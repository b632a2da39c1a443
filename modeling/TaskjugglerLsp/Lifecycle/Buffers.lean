import TaskjugglerLsp.Lifecycle.Events

/-!
# The editor's buffers

What the editor has open, by resolved URI: an accepted open puts the text there,
a change folds its edits into it, a close or a rename away takes it out.  The
store agrees with the buffers throughout a run (`buffers_kept`), as long as no
rename puts a file on top of an open buffer; a rename that does takes the slot
away from the editor (`rename_over_buffer`).
-/

namespace TaskjugglerLsp

open Lib

/-- The text of each open document, by resolved URI. -/
abbrev Buffers := CStr → Option CStr

/-- Nothing is open. -/
def noBuffers : Buffers := fun _ => none

section Buffers

variable (parse : CStr → ParseOutput) (r : Resolver)

/-- What an action means to the editor.  An open counts if the server has accepted it. -/
def Action.buffers (w : World) (s : Store) (b : Buffers) : Action → Buffers
  | opened uri text =>
    if (openDocument w parse s uri text).2 then Function.update b (r.canon uri) (some text) else b
  | changed uri changes =>
    Function.update b (r.canon uri)
      ((b (r.canon uri)).map fun text => (applyContentChanges text changes).getD text)
  | closed uri => Function.update b (r.canon uri) none
  | renamedFrom uri => Function.update b (r.canon uri) none
  | _ => b

/-- The editor's note of a step. -/
def noteBuffers (st : ServerState) (w : World) (m : Step) (b : Buffers) : Buffers :=
  match m with
  | .act a => a.buffers parse r w st.docs b
  | _ => b

/-- No rename puts a file that can be read on top of an open buffer. -/
def SparesBuffers (o : Observed Buffers) (w : World) : Step → Prop
  | .act (.renamedTo uri) => readUri w uri = none ∨ o.seen (r.canon uri) = none
  | _ => True

/-- The slot of every buffer holds its text and is not marked as a file from disk. -/
def BuffersKept (s : Store) (b : Buffers) : Prop :=
  ∀ uri text, b uri = some text →
    ∃ i d, s i = some d ∧ d.uri = uri ∧ d.text = some text ∧ d.diskOnly = false

end Buffers

section Proofs

variable {parse : CStr → ParseOutput} {r : Resolver} {w : World} {s s' : Store} {b : Buffers}

/-- An action only changes the buffer of its own URI. -/
theorem buffers_of_ne {a : Action} {uri : CStr} (h : uri ≠ r.canon a.uri) :
    a.buffers parse r w s b uri = b uri := by
  cases a with
  | opened uri' text =>
    simp only [Action.buffers]
    split
    · exact Function.update_of_ne h _ _
    · rfl
  | changed uri' changes => exact Function.update_of_ne h _ _
  | closed uri' => exact Function.update_of_ne h _ _
  | renamedFrom uri' => exact Function.update_of_ne h _ _
  | fileDeleted uri' => rfl
  | fileTouched uri' => rfl
  | renamedTo uri' => rfl

theorem Relabelled.text_eq {d d' : Document} (h : Relabelled d d') :
    d'.text = d.text ∧ d'.diskOnly = d.diskOnly := by
  obtain ⟨ps, us, rfl⟩ := h
  exact ⟨rfl, rfl⟩

theorem Marked.text_eq {d d' : Document} (h : Marked d d') :
    d'.text = d.text ∧ d'.diskOnly = d.diskOnly := by
  obtain ⟨f, ps, us, rfl⟩ := h
  exact ⟨rfl, rfl⟩

theorem BuffersKept.document (h : StoreOk r s) (hb : BuffersKept s b) (hw : r.Governs w.realpath)
    {uri text : CStr} (hn : r.uris uri) (ht : b (r.canon uri) = some text) {i : Slot} {d : Document}
    (hf : docFind w.realpath s uri = some i) (hd : s i = some d) :
    d.text = some text ∧ d.diskOnly = false := by
  obtain ⟨j, e, he, hu, htext, hdisk⟩ := hb _ _ ht
  obtain ⟨d', hd', hu'⟩ := (h.docFind_iff hw hn).mp hf
  rw [hd, Option.some.injEq] at hd'
  obtain rfl := h.unique j i e d he hd (by rw [hu, hd', hu'])
  rw [he, Option.some.injEq] at hd
  exact hd ▸ ⟨htext, hdisk⟩

theorem BuffersKept.docFind (h : StoreOk r s) (hb : BuffersKept s b) (hw : r.Governs w.realpath)
    {uri text : CStr} (hn : r.uris uri) (ht : b (r.canon uri) = some text) :
    ∃ i d, docFind w.realpath s uri = some i ∧ s i = some d ∧ d.text = some text ∧
      d.diskOnly = false := by
  obtain ⟨j, e, he, hu, htext, hdisk⟩ := hb _ _ ht
  exact ⟨j, e, (h.docFind_iff hw hn).mpr ⟨e, he, hu⟩, he, htext, hdisk⟩

/-- A text that an action sets is the text of its buffer, if it leaves one. -/
theorem Sets.buffers {a : Action} {i : Slot} {d d' : Document} {text new : CStr}
    (h : StoreOk r s) (hb : BuffersKept s b) (hw : r.Governs w.realpath) (hn : r.uris a.uri)
    (hspare : ∀ uri, a = .renamedTo uri → readUri w uri = none ∨ b (r.canon uri) = none)
    (hacc : (a.apply w parse s).2 = true) (hdoc : Target w s a.uri i d)
    (hs : Sets w s i d d' text a)
    (hnew : a.buffers parse r w s b (r.canon a.uri) = some new) :
    text = new ∧ d'.diskOnly = false := by
  have hold : ∀ {t}, b (r.canon a.uri) = some t →
      s i = some d ∧ d.text = some t ∧ d.diskOnly = false := by
    intro t ht
    obtain ⟨j, e, hf, he, htext, hdisk⟩ := hb.docFind h hw hn ht
    cases hdoc with
    | found hf' hd =>
      exact ⟨hd, hb.document h hw hn ht hf' hd⟩
    | taken hf' _ _ =>
      rw [hf] at hf'
      cases hf'
  cases a with
  | opened uri t =>
    obtain ⟨-, rfl, rfl⟩ := hs
    simp only [Action.buffers, Action.uri] at hnew
    split at hnew
    · rw [Function.update_self, Option.some.injEq] at hnew
      exact ⟨hnew, rfl⟩
    · rename_i hrej
      exact absurd hacc hrej
  | changed uri changes =>
    obtain ⟨hd, hc, rfl⟩ := hs
    simp only [Action.buffers, Action.uri, Function.update_self, Option.map_eq_some_iff] at hnew
    obtain ⟨t, ht, hnew⟩ := hnew
    obtain ⟨-, htext, hdisk⟩ := hold ht
    rw [htext, Option.getD_some] at hc
    rw [hc, Option.getD_some] at hnew
    exact ⟨hnew, hdisk⟩
  | closed uri =>
    simp only [Action.buffers, Action.uri, Function.update_self] at hnew
    cases hnew
  | fileTouched uri =>
    obtain ⟨hd, -, hdisk⟩ := hold hnew
    rw [hs.1 hd] at hdisk
    cases hdisk
  | renamedTo uri =>
    rcases hspare uri rfl with hr | hnone
    · obtain ⟨⟨path, hr'⟩, -⟩ := hs
      rw [hr] at hr'
      cases hr'
    · have hnew' : b (r.canon uri) = some new := hnew
      rw [hnone] at hnew'
      cases hnew'
  | fileDeleted uri => exact hs.elim
  | renamedFrom uri => exact hs.elim

theorem Ignored.buffers {a : Action} {text : CStr} (h : StoreOk r s) (hb : BuffersKept s b)
    (hw : r.Governs w.realpath) (hn : r.uris a.uri) (hi : Ignored w s a)
    (hrej : (a.apply w parse s).2 = false)
    (htext : a.buffers parse r w s b (r.canon a.uri) = some text) :
    b (r.canon a.uri) = some text := by
  cases a with
  | opened uri t =>
    simp only [Action.buffers, Action.uri] at htext
    rwa [show (openDocument w parse s uri t).2 = false from hrej, if_neg Bool.false_ne_true] at htext
  | changed uri changes =>
    -- the changes do not apply, neither to the document nor to the buffer
    simp only [Action.buffers, Action.uri, Function.update_self, Option.map_eq_some_iff] at htext
    obtain ⟨t, ht, hnew⟩ := htext
    have hnamed : r.uris uri := hn
    obtain ⟨i, d, hf, hd, hdt, -⟩ := hb.docFind h hw hnamed ht
    rcases hi with hi | ⟨i', d', hf', hd', hi⟩
    · rw [hf] at hi
      cases hi
    · obtain rfl := Option.some.inj (hf.symm.trans hf')
      obtain rfl := Option.some.inj (hd.symm.trans hd')
      rw [hdt, Option.getD_some] at hi
      rw [hi, Option.getD_none] at hnew
      exact hnew ▸ ht
  | closed uri =>
    simp only [Action.buffers, Action.uri, Function.update_self] at htext
    cases htext
  | renamedFrom uri =>
    simp only [Action.buffers, Action.uri, Function.update_self] at htext
    cases htext
  | fileDeleted uri => exact htext
  | fileTouched uri => exact htext
  | renamedTo uri => exact htext

theorem Frees.buffers {a : Action} {i : Slot} {d : Document} (h : StoreOk r s)
    (hb : BuffersKept s b) (hw : r.Governs w.realpath) (hn : r.uris a.uri)
    (hf : docFind w.realpath s a.uri = some i) (hd : s i = some d) (hfree : Frees w d a) :
    a.buffers parse r w s b (r.canon a.uri) = none := by
  cases a with
  | closed uri => exact Function.update_self _ _ _
  | renamedFrom uri => exact Function.update_self _ _ _
  | fileDeleted uri =>
    cases hbuf : b (r.canon uri) with
    | none => exact hbuf
    | some text =>
      have hdisk : d.diskOnly = true := hfree
      rw [(hb.document h hw hn hbuf hf hd).2] at hdisk
      cases hdisk
  | opened uri t => exact hfree.elim
  | changed uri changes => exact hfree.elim
  | fileTouched uri => exact hfree.elim
  | renamedTo uri => exact hfree.elim

/-- **An action keeps the buffers**, unless it renames a file onto one of them. -/
theorem BuffersKept.act (h : StoreOk r s) (hb : BuffersKept s b) (hw : r.Governs w.realpath)
    (a : Action) (hn : r.uris a.uri)
    (hspare : ∀ uri, a = .renamedTo uri → readUri w uri = none ∨ b (r.canon uri) = none) :
    BuffersKept (a.apply w parse s).1 (a.buffers parse r w s b) := by
  intro uri text htext
  by_cases hu : uri = r.canon a.uri
  · subst hu
    -- the buffer that the action is about
    have hc := carries w parse s a
    generalize hres : a.apply w parse s = res at hc
    obtain ⟨s', acc⟩ := res
    cases hc with
    | ignored hi hs' =>
      rw [hs']
      exact hb _ _ (hi.buffers h hb hw hn (congrArg Prod.snd hres) htext)
    | freed hf hd hfree _ =>
      rw [hfree.buffers h hb hw hn hf hd] at htext
      cases htext
    | @adopted t i d hf hd ha hdisk ht hs' =>
      obtain ⟨d', hd', hu⟩ := (h.docFind_iff hw hn).mp hf
      obtain rfl := Option.some.inj (hd.symm.trans hd')
      obtain ⟨uri, rfl⟩ : ∃ uri, a = .opened uri t := ⟨_, ha⟩
      simp only [Action.buffers, Action.uri] at htext
      rw [show (openDocument w parse s uri t).2 = true from congrArg Prod.snd hres, if_pos rfl,
        Function.update_self] at htext
      rw [hs']
      exact ⟨i, _, Store.put_self, hu, by rw [← htext]; exact ht, rfl⟩
    | @installed i d d' t hdoc hs hi =>
      obtain ⟨hu, -⟩ := hdoc.uri_eq h hw hn
      obtain ⟨hu', ht, -⟩ := hs.fields
      obtain ⟨htn, hdisk⟩ := hs.buffers h hb hw hn hspare (by rw [hres]) hdoc htext
      obtain ⟨e, he, hrel⟩ := hi.self
      refine ⟨i, e, he, ?_, ?_, ?_⟩
      · rw [hrel.uri_eq]
        exact hu'.trans hu
      · rw [hrel.text_eq.1, ← htn]
        exact ht
      · rw [hrel.text_eq.2]
        exact hdisk
  · -- any other buffer
    rw [buffers_of_ne hu] at htext
    obtain ⟨j, e, he, hue, het, hed⟩ := hb _ _ htext
    obtain ⟨e', he', hrel⟩ := (carries w parse s a).frame h hw hn he (by rwa [hue])
    exact ⟨j, e', he', by rw [hrel.uri_eq, hue], by rw [hrel.text_eq.1, het],
      by rw [hrel.text_eq.2, hed]⟩

theorem BuffersKept.reloads (hb : BuffersKept s b) (hl : Reloads w parse s s') :
    BuffersKept s' b := by
  intro uri text htext
  obtain ⟨i, d, hd, hu, ht, hdisk⟩ := hb _ _ htext
  obtain ⟨d', hd', hm⟩ := hl.keeps hd
  exact ⟨i, d', hd', by rw [hm.uri_eq, hu], by rw [hm.text_eq.1, ht], by rw [hm.text_eq.2, hdisk]⟩

/-- **Every step keeps the buffers.** -/
theorem BuffersKept.step {o : Observed Buffers} (h : StoreOk r o.st.docs)
    (hb : BuffersKept o.st.docs o.seen) {x : World × Step}
    (hx : Observed.Allowed parse r (SparesBuffers r) o x) :
    BuffersKept (Observed.step parse (noteBuffers parse r) o x).st.docs
      (Observed.step parse (noteBuffers parse r) o x).seen := by
  obtain ⟨hw, hn, hspare⟩ := hx
  obtain ⟨w, m⟩ := x
  cases m with
  | act a =>
    refine hb.act h hw.governs a hn.1 fun uri ha => ?_
    subst ha
    exact hspare
  | root params => exact hb
  | publish => exact hb
  | ask method params => exact hb
  | reload => exact hb.reloads (Step.reloads o.st fun a => by rintro ⟨⟩)
  | poll => exact hb.reloads (Step.reloads o.st fun a => by rintro ⟨⟩)

/-- **The editor is authoritative.**  In a run in which no rename puts a file on top of an open
buffer, the slot of every open document holds the text of its buffer. -/
theorem buffers_kept {parse : CStr → ParseOutput} {r : Resolver} {o : Observed Buffers}
    (h : Observed.Run parse (noteBuffers parse r) r (SparesBuffers r) noBuffers o) {w : World}
    (hw : r.Governs w.realpath) {uri text : CStr} (hn : r.uris uri)
    (ht : o.seen (r.canon uri) = some text) :
    ∃ i d, docFind w.realpath o.st.docs uri = some i ∧ o.st.docs i = some d ∧
      d.text = some text ∧ d.diskOnly = false := by
  have hinv : StoreOk r o.st.docs ∧ BuffersKept o.st.docs o.seen := by
    refine Runs.Reached.invariant (I := fun o => StoreOk r o.st.docs ∧ BuffersKept o.st.docs o.seen)
      ⟨storeOk_empty r, fun uri text h => by cases h⟩ ?_ h
    intro o x ho hx
    exact ⟨ho.1.step hx.suits hx.named, ho.2.step ho.1 hx⟩
  exact hinv.2.docFind hinv.1 hw hn ht

/-- A rename of a file onto an open buffer takes the slot away from the editor. -/
theorem rename_over_buffer (h : StoreOk r s) (hb : BuffersKept s b) (hw : r.Suits parse w)
    {uri text path new : CStr} (hn : (Action.renamedTo uri).Named r parse w s)
    (ht : b (r.canon uri) = some text) (hr : readUri w uri = some (path, new)) :
    ∃ i d, docFind w.realpath (renameTo w parse s uri).1 uri = some i ∧
      (renameTo w parse s uri).1 i = some d ∧ d.text = some new ∧ d.diskOnly = true := by
  obtain ⟨i, d, hf, hd, -, -⟩ := hb.docFind h hw.governs hn.1 ht
  have hc := carries w parse s (.renamedTo uri)
  have hok := hc.storeOk h hw hn
  rw [Action.apply] at hc hok
  generalize hres : renameTo w parse s uri = res at hc hok ⊢
  obtain ⟨s', acc⟩ := res
  cases hc with
  | ignored hi _ =>
    rcases hi with hi | hi
    · rw [hr] at hi
      cases hi
    · rw [Action.uri, hi.1] at hf
      cases hf
  | freed _ _ hfree => exact hfree.elim
  | adopted _ _ ha => cases ha
  | @installed j e e' t hdoc hs hi =>
    obtain ⟨hu, -⟩ := hdoc.uri_eq h hw.governs hn.1
    obtain ⟨hu', het, -⟩ := hs.fields
    obtain ⟨⟨path', hr'⟩, rfl⟩ := hs
    rw [hr, Option.some.injEq, Prod.mk.injEq] at hr'
    obtain ⟨f, hf', hrel⟩ := hi.self
    refine ⟨j, f, (hok.docFind_iff hw.governs hn.1).mpr ⟨f, hf', ?_⟩, hf', ?_, ?_⟩
    · rw [hrel.uri_eq]
      exact hu
    · rw [hrel.text_eq.1, hr'.2]
      rfl
    · rw [hrel.text_eq.2]
      rfl

end Proofs

/-! ### A rename onto an open buffer -/

/-- A file system in which `/a.tjp` holds a blank line. -/
def blankLine : World := fileSystem [("file:///a.tjp", "\n")]

/-- The two URIs that the messages name. -/
def bufferUris : List CStr := [cstr "file:///a.tjp", cstr "file:///b.tjp"]

/-- The run that opens `/a.tjp` and then takes some other event. -/
def afterOpen (e : Event) : Observed Buffers :=
  Observed.events blankParse (noteBuffers blankParse (lexicalResolver bufferUris))
    ⟨initialState, noBuffers⟩ [(blankLine, openMessage "file:///a.tjp" ""), (blankLine, e)]

theorem suits_blankLine : (lexicalResolver bufferUris).Suits blankParse blankLine :=
  suits_of_suitable (by decide +kernel)

/-- The file is opened blank, and a file with another text is renamed onto it. -/
theorem rename_changes_open_buffer :
    ¬ ∀ (parse : CStr → ParseOutput) (r : Resolver) (o : Observed Buffers),
      Observed.Run parse (noteBuffers parse r) r (fun _ _ _ => True) noBuffers o →
      ∀ w : World, r.Governs w.realpath → ∀ uri text, r.uris uri →
        o.seen (r.canon uri) = some text →
        ∃ i d, docFind w.realpath o.st.docs uri = some i ∧ o.st.docs i = some d ∧
          d.text = some text ∧ d.diskOnly = false := by
  intro h
  have hrun : Observed.Run blankParse (noteBuffers blankParse (lexicalResolver bufferUris))
      (lexicalResolver bufferUris) (fun _ _ _ => True) noBuffers
      (afterOpen (renameMessage "file:///b.tjp" "file:///a.tjp")) := by
    refine Observed.Run.events .start (fun x hx => ?_) (by decide +kernel)
    simp only [List.mem_cons, List.not_mem_nil, or_false] at hx
    rcases hx with rfl | rfl <;> exact suits_blankLine
  have hseen : (afterOpen (renameMessage "file:///b.tjp" "file:///a.tjp")).seen
      ((lexicalResolver bufferUris).canon (cstr "file:///a.tjp")) = some [] := by decide +kernel
  obtain ⟨i, d, hf, hd, -, hdisk⟩ := h _ _ _ hrun blankLine suits_blankLine.governs _ _
    (by decide +kernel) hseen
  have hfind : docFind blankLine.realpath
      (afterOpen (renameMessage "file:///b.tjp" "file:///a.tjp")).st.docs
      (cstr "file:///a.tjp") = some 0 := by decide +kernel
  have hslot : ((afterOpen (renameMessage "file:///b.tjp" "file:///a.tjp")).st.docs 0).map
      (·.diskOnly) = some true := by decide +kernel
  rw [hfind, Option.some.injEq] at hf
  subst hf
  rw [hd, Option.map_some, hdisk] at hslot
  cases hslot

/-- The file is opened blank, and a change on disk is reported. -/
theorem buffers_kept_watched : ∃ i d,
    docFind blankLine.realpath (afterOpen (watchMessage "file:///a.tjp" 2)).st.docs
      (cstr "file:///a.tjp") = some i ∧
    (afterOpen (watchMessage "file:///a.tjp" 2)).st.docs i = some d ∧
      d.text = some [] ∧ d.diskOnly = false := by
  have hspares : ∀ {e : Event} {st : ServerState}, (∀ a ∈ e.actions, ∀ uri, a ≠ .renamedTo uri) →
      ∀ m ∈ e.steps blankLine blankParse st, ∀ o,
        SparesBuffers (lexicalResolver bufferUris) o blankLine m := by
    intro e st hne m hm o
    cases m with
    | act a =>
      cases a with
      | renamedTo uri => exact absurd rfl (hne _ (Event.mem_actions hm) uri)
      | _ => trivial
    | _ => trivial
  have hopen := Observed.Run.input (Runs.Reached.start : Observed.Run blankParse
      (noteBuffers blankParse (lexicalResolver bufferUris)) (lexicalResolver bufferUris)
      (SparesBuffers (lexicalResolver bufferUris)) noBuffers _)
    (openMessage "file:///a.tjp" "") suits_blankLine (by decide +kernel)
    (hspares fun a ha uri => by rw [List.mem_singleton.mp ha]; nofun)
  have hrun := hopen.input (watchMessage "file:///a.tjp" 2) suits_blankLine (by decide +kernel)
    (hspares fun a ha uri => by rw [List.mem_singleton.mp ha]; nofun)
  exact buffers_kept hrun suits_blankLine.governs (by decide +kernel) (by decide +kernel)

end TaskjugglerLsp
