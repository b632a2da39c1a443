import TaskjugglerLsp.Lib.Enclosure
import TaskjugglerLsp.Lib.RoseTree

/-!
# Rose trees laid out on a line

Trees whose labels have an extent.  They are laid out between two places if they lie there one after
the other, and the children of each are laid out within it, behind its start.

* `Rose.LaidOut.append`: what is laid out side by side.
* `Rose.nested_cells`: the cells that hold trees of a layout are nested intervals.
* `Rose.owner_innermost`: the owner of a position holds the innermost label around it.
-/

namespace TaskjugglerLsp.Lib

namespace Rose

variable {L π : Type*} [LinearOrder π]

section Layout

variable (start stop : L → π)

/-- One tree ends before another one starts. -/
def Before (t u : Rose L) : Prop := stop t.label ≤ start u.label

/-- A tree is **nested**: its children lie within it, behind its start, one after the other. -/
inductive Nested : Rose L → Prop
  | node {l : L} {ts : List (Rose L)} (proper : start l < stop l)
      (within : ∀ t ∈ ts, start l < start t.label ∧ stop t.label ≤ stop l)
      (apart : ts.Pairwise (Before start stop)) (nested : ∀ t ∈ ts, Nested t) : Nested (node l ts)

/-- Trees are **laid out** between two places: one after the other, each of them nested. -/
structure LaidOut (lo hi : π) (ts : List (Rose L)) : Prop where
  le : lo ≤ hi
  within : ∀ t ∈ ts, lo ≤ start t.label ∧ stop t.label ≤ hi
  apart : ts.Pairwise (Before start stop)
  nested : ∀ t ∈ ts, Nested start stop t

mutual

/-- The innermost label around a place, in a tree. -/
def innermostIn (x : π) : Rose L → Option L
  | node l ts => if start l ≤ x ∧ x < stop l then some ((innermost x ts).getD l) else none

/-- **The innermost label around a place**, among some trees. -/
def innermost (x : π) : List (Rose L) → Option L
  | [] => none
  | t :: ts => (innermostIn x t).or (innermost x ts)

end

variable {start stop}

theorem Nested.proper {t : Rose L} (h : Nested start stop t) : start t.label < stop t.label := by
  cases h with
  | node proper within apart nested => exact proper

theorem Nested.children {l : L} {ts : List (Rose L)} (h : Nested start stop (Rose.node l ts)) :
    ∀ t ∈ ts, Nested start stop t := by
  cases h with
  | node proper within apart nested => exact nested

theorem LaidOut.nil {lo hi : π} (h : lo ≤ hi) : LaidOut start stop lo hi [] :=
  ⟨h, (fun t ht => by cases ht), .nil, fun t ht => by cases ht⟩

theorem LaidOut.mono {lo lo' hi hi' : π} {ts : List (Rose L)} (h : LaidOut start stop lo hi ts)
    (hlo : lo' ≤ lo) (hhi : hi ≤ hi') : LaidOut start stop lo' hi' ts where
  le := hlo.trans (h.le.trans hhi)
  within t ht := ⟨hlo.trans (h.within t ht).1, (h.within t ht).2.trans hhi⟩
  apart := h.apart
  nested := h.nested

theorem LaidOut.append {lo mid hi : π} {ts us : List (Rose L)}
    (h : LaidOut start stop lo mid ts) (h' : LaidOut start stop mid hi us) :
    LaidOut start stop lo hi (ts ++ us) := by
  refine ⟨h.le.trans h'.le, fun t ht => ?_, ?_, fun t ht => ?_⟩
  · rcases List.mem_append.mp ht with ht | ht
    · exact ⟨(h.within t ht).1, (h.within t ht).2.trans h'.le⟩
    · exact ⟨h.le.trans (h'.within t ht).1, (h'.within t ht).2⟩
  · rw [List.pairwise_append]
    refine ⟨h.apart, h'.apart, fun t ht u hu => ?_⟩
    exact (h.within t ht).2.trans (h'.within u hu).1
  · rcases List.mem_append.mp ht with ht | ht
    · exact h.nested t ht
    · exact h'.nested t ht

theorem LaidOut.node {l : L} {inner : π} {ts : List (Rose L)} (hstart : start l < inner)
    (h : LaidOut start stop inner (stop l) ts) :
    LaidOut start stop (start l) (stop l) [.node l ts] := by
  have hnested : Nested start stop (.node l ts) :=
    .node (hstart.trans_le h.le)
      (fun t ht => ⟨hstart.trans_le (h.within t ht).1, (h.within t ht).2⟩) h.apart h.nested
  refine ⟨hnested.proper.le, fun t ht => ?_, List.pairwise_singleton _ _, fun t ht => ?_⟩
  · rw [List.mem_singleton.mp ht]
    exact ⟨le_refl _, le_refl _⟩
  · rw [List.mem_singleton.mp ht]
    exact hnested

end Layout

/-! ### Cells that hold them -/

section Store

variable {label : ℕ → L} {kids : ℕ → List ℕ} {inner : ℕ → Prop} {ts : List (Rose L)}
  {as : List ℕ}

theorem HoldsAll.exists_tree (h : HoldsAll label kids inner ts as) {a : ℕ} (ha : a ∈ as) :
    ∃ t ∈ ts, Holds label kids inner t a := by
  induction ts generalizing as with
  | nil =>
    rw [show as = [] from h] at ha
    cases ha
  | cons t ts ih =>
    obtain ⟨b, rest, rfl, ht, hrest⟩ := h
    rcases List.mem_cons.mp ha with rfl | ha
    · exact ⟨t, List.mem_cons_self, ht⟩
    · obtain ⟨u, hu, hua⟩ := ih hrest ha
      exact ⟨u, List.mem_cons_of_mem t hu, hua⟩

theorem HoldsAll.pairwise {R : L → L → Prop} (h : HoldsAll label kids inner ts as)
    (hts : ts.Pairwise fun t u => R t.label u.label) :
    as.Pairwise fun a b => R (label a) (label b) := by
  induction ts generalizing as with
  | nil =>
    rw [show as = [] from h]
    exact .nil
  | cons t ts ih =>
    obtain ⟨a, rest, rfl, ht, hrest⟩ := h
    obtain ⟨hhead, htail⟩ := List.pairwise_cons.mp hts
    refine List.pairwise_cons.mpr ⟨fun b hb => ?_, ih hrest htail⟩
    obtain ⟨u, hu, hub⟩ := hrest.exists_tree hb
    rw [ht.label_eq, hub.label_eq]
    exact hhead u hu

/-- The cells from some of them on, with the extents of their labels. -/
abbrev cellForest (label : ℕ → L) (kids : ℕ → List ℕ) (start stop : L → π) (tops : List ℕ) :
    Forest ℕ π where
  tops := tops
  kids := kids
  start a := start (label a)
  stop a := stop (label a)

variable {start stop : L → π} {tops : List ℕ}

/-- Cells that hold trees one after the other are siblings. -/
theorem siblings_of_apart (h : HoldsAll label kids inner ts as)
    (hapart : ts.Pairwise (Before start stop)) (hnested : ∀ t ∈ ts, Nested start stop t) :
    (cellForest label kids start stop tops).Siblings as := by
  have hbefore : as.Pairwise fun a b => stop (label a) ≤ start (label b) :=
    h.pairwise (R := fun l m => stop l ≤ start m) hapart
  have hproper : ∀ a ∈ as, start (label a) < stop (label a) := by
    intro a ha
    obtain ⟨t, ht, hta⟩ := h.exists_tree ha
    rw [hta.label_eq]
    exact (hnested t ht).proper
  refine ⟨?_, fun a ha b hb x hax hbx => ?_⟩
  · refine List.Pairwise.imp_of_mem (fun {a b} ha _ hab => ?_) hbefore
    exact (hproper a ha).le.trans hab
  · have hnot {a b : ℕ} (hab : stop (label a) ≤ start (label b))
        (hax : (cellForest label kids start stop tops).Covers a x)
        (hbx : (cellForest label kids start stop tops).Covers b x) : False :=
      absurd (hab.trans hbx.1) (not_le.mpr hax.2)
    refine List.Pairwise.forall_of_forall_of_flip
      (R := fun a b => (cellForest label kids start stop tops).Covers a x →
        (cellForest label kids start stop tops).Covers b x → a = b)
      (fun a _ _ _ => rfl) ?_ ?_ ha hb hax hbx
    · exact hbefore.imp fun hab hax hbx => (hnot hab hax hbx).elim
    · exact hbefore.imp fun hab hbx hax => (hnot hab hax hbx).elim

variable (start stop) in
omit [LinearOrder π] in
/-- What holds of the trees, and goes from a tree to its children, holds of a tree at every cell that
is reached. -/
theorem exists_held {Q : Rose L → Prop} (hQ : ∀ l us, Q (.node l us) → ∀ u ∈ us, Q u)
    (h : HoldsAll label kids inner ts tops) (hts : ∀ t ∈ ts, Q t) {d a : ℕ}
    (ha : (cellForest label kids start stop tops).AtDepth d a) :
    ∃ t, Holds label kids inner t a ∧ Q t := by
  induction ha with
  | top hmem =>
    obtain ⟨t, ht, hta⟩ := h.exists_tree hmem
    exact ⟨t, hta, hts t ht⟩
  | @kid d a b _ hb ih =>
    obtain ⟨⟨l, us⟩, ⟨-, -, hus⟩, hnode⟩ := ih
    obtain ⟨u, hu, hub⟩ := hus.exists_tree hb
    exact ⟨u, hub, hQ l us hnode u hu⟩

variable (start stop) in
omit [LinearOrder π] in
mutual

theorem Holds.exists_cell : ∀ (t : Rose L) (a d : ℕ) (parent : Option L),
    Holds label kids inner t a → (cellForest label kids start stop tops).AtDepth d a →
    ∀ link ∈ links parent t, ∃ e b, (cellForest label kids start stop tops).AtDepth e b ∧
      label b = link.2
  | .node l ts, a, d, parent, ⟨_, hlabel, hts⟩, ha => by
    intro link hlink
    rw [links] at hlink
    rcases List.mem_cons.mp hlink with rfl | hlink
    · exact ⟨d, a, ha, hlabel⟩
    · exact HoldsAll.exists_cell ts (kids a) (d + 1) (some l) hts (fun b hb => .kid ha hb) link hlink

/-- Every label of the trees is that of a cell that is reached. -/
theorem HoldsAll.exists_cell : ∀ (ts : List (Rose L)) (as : List ℕ) (d : ℕ) (parent : Option L),
    HoldsAll label kids inner ts as →
    (∀ a ∈ as, (cellForest label kids start stop tops).AtDepth d a) →
    ∀ link ∈ linksAll parent ts, ∃ e b, (cellForest label kids start stop tops).AtDepth e b ∧
      label b = link.2
  | [], as, d, parent, _, _ => fun link hlink => by cases hlink
  | t :: ts, as, d, parent, h, hdepth => by
    obtain ⟨a, rest, rfl, ht, hrest⟩ := h
    intro link hlink
    rw [linksAll] at hlink
    rcases List.mem_append.mp hlink with hlink | hlink
    · exact Holds.exists_cell t a d parent ht (hdepth a List.mem_cons_self) link hlink
    · exact HoldsAll.exists_cell ts rest d parent hrest
        (fun b hb => hdepth b (List.mem_cons_of_mem a hb)) link hlink

end

section Tops

variable (h : HoldsAll label kids inner ts tops) {lo hi : π} (hlaid : LaidOut start stop lo hi ts)

include h hlaid

theorem exists_nested {d a : ℕ} (ha : (cellForest label kids start stop tops).AtDepth d a) :
    ∃ t, Holds label kids inner t a ∧ Nested start stop t :=
  exists_held start stop (fun _ _ hnode => hnode.children) h hlaid.nested ha

/-- The cells below a cell lie within it, behind its start. -/
theorem kid_within {d a b : ℕ} (ha : (cellForest label kids start stop tops).AtDepth d a)
    (hb : b ∈ kids a) : start (label a) < start (label b) ∧ stop (label b) ≤ stop (label a) := by
  obtain ⟨t, hta, hnested⟩ := exists_nested h hlaid ha
  cases hnested with
  | @node l us proper within apart nested =>
    obtain ⟨-, hlabel, hus⟩ := hta
    obtain ⟨u, hu, hub⟩ := hus.exists_tree hb
    rw [hlabel, hub.label_eq]
    exact within u hu

/-- **Cells that hold a layout** are nested intervals. -/
theorem nested_cells : (cellForest label kids start stop tops).Nested where
  tops := siblings_of_apart h hlaid.apart hlaid.nested
  kids d a ha := by
    obtain ⟨t, hta, hnested⟩ := exists_nested h hlaid ha
    cases hnested with
    | node proper within apart nested => exact siblings_of_apart hta.2.2 apart nested
  within d a ha b hb x hx := by
    obtain ⟨hstart, hstop⟩ := kid_within h hlaid ha hb
    exact ⟨hstart.le.trans hx.1, hx.2.trans_le hstop⟩

theorem covers_start {d a : ℕ} (ha : (cellForest label kids start stop tops).AtDepth d a) :
    (cellForest label kids start stop tops).Covers a (start (label a)) := by
  obtain ⟨t, hta, hnested⟩ := exists_nested h hlaid ha
  refine ⟨le_refl _, ?_⟩
  show start (label a) < stop (label a)
  rw [hta.label_eq]
  exact hnested.proper

theorem ancestry_start_lt {a : ℕ} {above : List ℕ}
    (ha : (cellForest label kids start stop tops).Ancestry (a :: above)) :
    ∀ b ∈ above, start (label b) < start (label a) := by
  generalize hl : a :: above = l at ha
  induction ha generalizing a above with
  | top =>
    obtain ⟨rfl, rfl⟩ := List.cons.inj hl
    exact fun b hb => by cases hb
  | @kid c e rest hc hmem ih =>
    obtain ⟨rfl, rfl⟩ := List.cons.inj hl
    have hstart := (kid_within h hlaid hc.atDepth hmem).1
    intro b hb
    rcases List.mem_cons.mp hb with rfl | hb
    · exact hstart
    · exact (ih rfl b hb).trans hstart

theorem exists_above {d a : ℕ} (ha : (cellForest label kids start stop tops).AtDepth d a) {e : ℕ}
    (he : e < d) : ∃ b, (cellForest label kids start stop tops).AtDepth e b ∧
      start (label b) < start (label a) ∧ stop (label a) ≤ stop (label b) := by
  induction ha with
  | top => exact absurd he (Nat.not_lt_zero e)
  | @kid d a b ha hb ih =>
    obtain ⟨hstart, hstop⟩ := kid_within h hlaid ha hb
    rcases Nat.lt_succ_iff_lt_or_eq.mp he with he | rfl
    · obtain ⟨c, hc, hcstart, hcstop⟩ := ih he
      exact ⟨c, hc, hcstart.trans hstart, hstop.trans hcstop⟩
    · exact ⟨a, ha, hstart, hstop⟩

theorem one_depth {d e a : ℕ} (hd : (cellForest label kids start stop tops).AtDepth d a)
    (he : (cellForest label kids start stop tops).AtDepth e a) : d = e := by
  have hle {d e : ℕ} (hd : (cellForest label kids start stop tops).AtDepth d a)
      (he : (cellForest label kids start stop tops).AtDepth e a) : d ≤ e := by
    by_contra hlt
    obtain ⟨b, hb, hstart, hstop⟩ := exists_above h hlaid hd (not_le.mp hlt)
    obtain ⟨hcover, hcover'⟩ := covers_start h hlaid hd
    have heq := (nested_cells h hlaid).unique hb he ⟨hstart.le, hcover'.trans_le hstop⟩
      ⟨hcover, hcover'⟩
    rw [heq] at hstart
    exact lt_irrefl _ hstart
  exact le_antisymm (hle hd he) (hle he hd)

end Tops

/-! ### Owners -/

/-- Cells that hold trees have a cell that holds what is innermost around a place, and no cell below
it covers the place. -/
def Settles (label : ℕ → L) (kids : ℕ → List ℕ) (start stop : L → π) (tops : List ℕ) (x : π)
    (as : List ℕ) : Option L → Prop
  | none => ∀ a ∈ as, ¬ (cellForest label kids start stop tops).Covers a x
  | some l => ∃ d a, (cellForest label kids start stop tops).AtDepth d a ∧ label a = l ∧
      (cellForest label kids start stop tops).Covers a x ∧
      ∀ b ∈ kids a, ¬ (cellForest label kids start stop tops).Covers b x

variable (start stop) in
mutual

theorem settles_innermostIn (x : π) : ∀ (t : Rose L) (a d : ℕ), Holds label kids inner t a →
    (cellForest label kids start stop tops).AtDepth d a →
    Settles label kids start stop tops x [a] (innermostIn start stop x t)
  | .node l ts, a, d, ⟨_, hlabel, hts⟩, ha => by
    have hcovers : (cellForest label kids start stop tops).Covers a x ↔ start l ≤ x ∧ x < stop l := by
      rw [← hlabel]
      exact Iff.rfl
    have hkids := settles_innermost x ts (kids a) (d + 1) hts fun b hb => .kid ha hb
    rw [innermostIn]
    split_ifs with hx
    · cases hin : innermost start stop x ts with
      | none =>
        rw [hin] at hkids
        exact ⟨d, a, ha, hlabel, hcovers.mpr hx, hkids⟩
      | some m =>
        rw [hin] at hkids
        exact hkids
    · intro b hb
      rw [List.mem_singleton.mp hb]
      exact mt hcovers.mp hx

theorem settles_innermost (x : π) : ∀ (ts : List (Rose L)) (as : List ℕ) (d : ℕ),
    HoldsAll label kids inner ts as →
    (∀ a ∈ as, (cellForest label kids start stop tops).AtDepth d a) →
    Settles label kids start stop tops x as (innermost start stop x ts)
  | [], as, d, h, _ => by
    rw [show as = [] from h]
    intro a ha
    cases ha
  | t :: ts, as, d, h, hdepth => by
    obtain ⟨a, rest, rfl, ht, hrest⟩ := h
    have hone := settles_innermostIn x t a d ht (hdepth a List.mem_cons_self)
    have hmore := settles_innermost x ts rest d hrest fun b hb =>
      hdepth b (List.mem_cons_of_mem a hb)
    rw [innermost]
    cases hin : innermostIn start stop x t with
    | some l =>
      rw [hin] at hone
      exact hone
    | none =>
      rw [hin] at hone
      rw [Option.none_or]
      cases hrec : innermost start stop x ts with
      | some l =>
        rw [hrec] at hmore
        exact hmore
      | none =>
        rw [hrec] at hmore
        intro b hb
        rcases List.mem_cons.mp hb with rfl | hb
        · exact hone b (List.mem_singleton_self b)
        · exact hmore b hb

end

/-- **The owner of a place** holds the innermost label around it. -/
theorem owner_innermost (h : HoldsAll label kids inner ts tops) {lo hi : π}
    (hlaid : LaidOut start stop lo hi ts) {x : π} {o : Option ℕ}
    (ho : (cellForest label kids start stop tops).Owner x o) :
    o.map label = innermost start stop x ts := by
  have hsettles := settles_innermost start stop x ts tops 0 h fun a ha => .top ha
  have hnested := nested_cells h hlaid
  cases hin : innermost start stop x ts with
  | none =>
    rw [hin] at hsettles
    rw [ho.unique (hnested.owner_none hsettles), Option.map_none]
  | some l =>
    rw [hin] at hsettles
    obtain ⟨d, a, ha, hlabel, hcover, hkids⟩ := hsettles
    rw [ho.unique (hnested.owner_of_settled ha hcover hkids), Option.map_some, hlabel]

end Store

end Rose

end TaskjugglerLsp.Lib
