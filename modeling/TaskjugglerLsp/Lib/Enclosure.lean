import Mathlib.Data.Fintype.Card
import Mathlib.Order.Lattice

/-!
# Nested intervals

Trees of nodes whose half-open extents are nested, and the node that a position belongs to: the
deepest one that covers it.

* `Forest.Owner`: what a naive search over all nodes finds.
* `Forest.Nested.owner_of_settled`: a node that covers a position, while none of its children does,
  is the one that the position belongs to.
* `Forest.Nested.owner_later`: what a later position belongs to, if nothing starts in between.
* `Forest.depth_lt`: a bound of the depth by the number of nodes.
-/

namespace TaskjugglerLsp.Lib

/-- Nodes with their extents, the children of each, and those without a parent. -/
structure Forest (ν π : Type*) where
  tops : List ν
  kids : ν → List ν
  start : ν → π
  stop : ν → π

namespace Forest

variable {ν π : Type*} [LinearOrder π] (F : Forest ν π)

/-- The extent of a node contains a position; its stop is not in it. -/
def Covers (a : ν) (x : π) : Prop := F.start a ≤ x ∧ x < F.stop a

/-- A node has so many ancestors. -/
inductive AtDepth : ℕ → ν → Prop
  | top {a : ν} (h : a ∈ F.tops) : AtDepth 0 a
  | kid {d : ℕ} {a b : ν} (h : AtDepth d a) (hb : b ∈ F.kids a) : AtDepth (d + 1) b

/-- **The owner of a position**: the deepest node that covers it, or none if no node does. -/
def Owner (x : π) : Option ν → Prop
  | none => ∀ d a, F.AtDepth d a → ¬ F.Covers a x
  | some a => ∃ d, F.AtDepth d a ∧ F.Covers a x ∧
      ∀ e b, F.AtDepth e b → F.Covers b x → e ≤ d ∧ (e = d → b = a)

/-- Siblings are in order, and no two of them cover a position. -/
structure Siblings (l : List ν) : Prop where
  sorted : l.Pairwise fun a b => F.start a ≤ F.start b
  disjoint : ∀ a ∈ l, ∀ b ∈ l, ∀ x, F.Covers a x → F.Covers b x → a = b

/-- Children lie within their parent, and siblings side by side. -/
structure Nested : Prop where
  tops : F.Siblings F.tops
  kids : ∀ d a, F.AtDepth d a → F.Siblings (F.kids a)
  within : ∀ d a, F.AtDepth d a → ∀ b ∈ F.kids a, ∀ x, F.Covers b x → F.Covers a x

variable {F}

theorem Owner.unique {x : π} {o p : Option ν} (ho : F.Owner x o) (hp : F.Owner x p) : o = p := by
  cases o with
  | none =>
    cases p with
    | none => rfl
    | some b =>
      obtain ⟨d, hb, hcover, -⟩ := hp
      exact absurd hcover (ho d b hb)
  | some a =>
    obtain ⟨d, ha, hcover, hdeepest⟩ := ho
    cases p with
    | none => exact absurd hcover (hp d a ha)
    | some b =>
      obtain ⟨e, hb, hcover', hdeepest'⟩ := hp
      have hle := (hdeepest e b hb hcover').1
      have hge := (hdeepest' d a ha hcover).1
      exact congrArg some ((hdeepest' d a ha hcover).2 (le_antisymm hge hle))

/-- The ancestors of a node cover what it covers. -/
theorem Nested.exists_ancestor (hF : F.Nested) {d : ℕ} {a : ν} (ha : F.AtDepth d a) {x : π}
    (hx : F.Covers a x) {e : ℕ} (he : e ≤ d) : ∃ b, F.AtDepth e b ∧ F.Covers b x := by
  induction ha with
  | top h =>
    obtain rfl := Nat.le_zero.mp he
    exact ⟨_, .top h, hx⟩
  | @kid d a b h hb ih =>
    rcases Nat.le_succ_iff.mp he with he | rfl
    · exact ih (hF.within d a h b hb x hx) he
    · exact ⟨b, .kid h hb, hx⟩

theorem Nested.unique (hF : F.Nested) {d : ℕ} {a b : ν} (ha : F.AtDepth d a)
    (hb : F.AtDepth d b) {x : π} (hax : F.Covers a x) (hbx : F.Covers b x) : a = b := by
  induction d generalizing a b with
  | zero =>
    cases ha with
    | top ha =>
      cases hb with
      | top hb => exact hF.tops.disjoint a ha b hb x hax hbx
  | succ d ih =>
    cases ha with
    | @kid _ a' _ ha hka =>
      cases hb with
      | @kid _ b' _ hb hkb =>
        obtain rfl := ih ha hb (hF.within d a' ha a hka x hax) (hF.within d b' hb b hkb x hbx)
        exact (hF.kids d a' ha).disjoint a hka b hkb x hax hbx

/-- **A node without a child that covers a position** owns it. -/
theorem Nested.owner_of_settled (hF : F.Nested) {d : ℕ} {a : ν} (ha : F.AtDepth d a) {x : π}
    (hx : F.Covers a x) (hkids : ∀ b ∈ F.kids a, ¬ F.Covers b x) : F.Owner x (some a) := by
  refine ⟨d, ha, hx, fun e b hb hbx => ⟨?_, ?_⟩⟩
  · by_contra hlt
    obtain ⟨c, hc, hcx⟩ := hF.exists_ancestor hb hbx (Nat.succ_le_of_lt (not_le.mp hlt))
    cases hc with
    | @kid _ a' _ ha' hmem =>
      obtain rfl := hF.unique ha' ha (hF.within d a' ha' c hmem x hcx) hx
      exact hkids c hmem hcx
  · rintro rfl
    exact hF.unique hb ha hbx hx

theorem Nested.owner_none (hF : F.Nested) {x : π} (htops : ∀ a ∈ F.tops, ¬ F.Covers a x) :
    F.Owner x none := by
  intro d a ha hx
  obtain ⟨b, hb, hbx⟩ := hF.exists_ancestor ha hx (Nat.zero_le d)
  cases hb with
  | top hb => exact htops b hb hbx

omit [LinearOrder π] in
theorem AtDepth.exists_le {d : ℕ} {a : ν} (ha : F.AtDepth d a) {e : ℕ} (he : e ≤ d) :
    ∃ b, F.AtDepth e b := by
  induction ha with
  | top h =>
    obtain rfl := Nat.le_zero.mp he
    exact ⟨_, .top h⟩
  | @kid d a b h hb ih =>
    rcases Nat.le_succ_iff.mp he with he | rfl
    · exact ih he
    · exact ⟨b, .kid h hb⟩

/-! ### Later positions -/

/-- A node, then the one that it is below, and so on to the top. -/
inductive Ancestry : List ν → Prop
  | top {a : ν} (h : a ∈ F.tops) : Ancestry [a]
  | kid {a b : ν} {above : List ν} (h : Ancestry (a :: above)) (hb : b ∈ F.kids a) :
      Ancestry (b :: a :: above)

omit [LinearOrder π] in
theorem Ancestry.atDepth {F : Forest ν π} {a : ν} {above : List ν} (h : F.Ancestry (a :: above)) :
    F.AtDepth above.length a := by
  generalize hl : a :: above = l at h
  induction h generalizing a above with
  | top h =>
    obtain ⟨rfl, rfl⟩ := List.cons.inj hl
    exact .top h
  | kid h hb ih =>
    obtain ⟨rfl, rfl⟩ := List.cons.inj hl
    exact .kid (ih rfl) hb

/-- What a node covers, those cover that it is below. -/
theorem Nested.covers_of_ancestry {F : Forest ν π} (hF : F.Nested) {a : ν} {above : List ν}
    (h : F.Ancestry (a :: above)) {x : π} (hx : F.Covers a x) :
    ∀ b ∈ a :: above, F.Covers b x := by
  generalize hl : a :: above = l at h
  induction h generalizing a above with
  | top =>
    obtain ⟨rfl, rfl⟩ := List.cons.inj hl
    intro b hb
    rwa [List.mem_singleton.mp hb]
  | @kid c e rest hc hmem ih =>
    obtain ⟨rfl, rfl⟩ := List.cons.inj hl
    have hparent : F.Covers c x := hF.within _ c hc.atDepth a hmem x hx
    intro b hb
    rcases List.mem_cons.mp hb with rfl | hb
    · exact hx
    · exact ih hparent rfl b hb

/-- What covers a position that a node covers, and is no deeper, is that node or one that it is
below. -/
theorem Nested.mem_ancestry {F : Forest ν π} (hF : F.Nested) {a : ν} {above : List ν}
    (h : F.Ancestry (a :: above)) {x : π} (hx : F.Covers a x) {e : ℕ} {b : ν} (hb : F.AtDepth e b)
    (hbx : F.Covers b x) (hle : e ≤ above.length) : b ∈ a :: above := by
  generalize hl : a :: above = l at h
  induction h generalizing a above with
  | @top c h =>
    obtain ⟨rfl, rfl⟩ := List.cons.inj hl
    obtain rfl := Nat.le_zero.mp hle
    exact List.mem_singleton.mpr (hF.unique hb (.top h) hbx hx)
  | @kid c d rest h hd ih =>
    obtain ⟨rfl, rfl⟩ := List.cons.inj hl
    rcases Nat.le_succ_iff.mp hle with hle | rfl
    · exact List.mem_cons_of_mem _ (ih (hF.within _ c h.atDepth a hd x hx) hle rfl)
    · rw [hF.unique hb (.kid h.atDepth hd) hbx hx]
      exact List.mem_cons_self

omit [LinearOrder π] in
theorem Ancestry.exists_atDepth {F : Forest ν π} {l : List ν} (h : F.Ancestry l) :
    ∀ b ∈ l, ∃ d, F.AtDepth d b := by
  induction h with
  | top h =>
    intro b hb
    rw [List.mem_singleton.mp hb]
    exact ⟨0, .top h⟩
  | @kid a c above h hc ih =>
    intro b hb
    rcases List.mem_cons.mp hb with rfl | hb
    · exact ⟨_, .kid h.atDepth hc⟩
    · exact ih b hb

theorem Nested.owner_of_ancestry {F : Forest ν π} (hF : F.Nested) {a : ν} {above : List ν}
    (h : F.Ancestry (a :: above)) {x y : π} (hx : F.Covers a x)
    (hback : ∀ d b, F.AtDepth d b → F.Covers b y → F.Covers b x)
    (hkids : ∀ b ∈ F.kids a, ¬ F.Covers b y) {p : ν → Bool}
    (hp : ∀ b ∈ a :: above, p b = true ↔ F.Covers b y) : F.Owner y ((a :: above).find? p) := by
  generalize hl : a :: above = l at h
  induction h generalizing a above with
  | @top b h =>
    obtain ⟨rfl, rfl⟩ := List.cons.inj hl
    by_cases hy : F.Covers a y
    · rw [List.find?_cons_of_pos ((hp a List.mem_cons_self).mpr hy)]
      exact hF.owner_of_settled (.top h) hy hkids
    · rw [List.find?_cons_of_neg (mt (hp a List.mem_cons_self).mp hy), List.find?_nil]
      refine hF.owner_none fun b hb hby => hy ?_
      rw [hF.tops.disjoint a h b hb x hx (hback 0 b (.top hb) hby)]
      exact hby
  | @kid b c rest h hc ih =>
    obtain ⟨rfl, rfl⟩ := List.cons.inj hl
    by_cases hy : F.Covers a y
    · rw [List.find?_cons_of_pos ((hp a List.mem_cons_self).mpr hy)]
      exact hF.owner_of_settled (.kid h.atDepth hc) hy hkids
    · rw [List.find?_cons_of_neg (mt (hp a List.mem_cons_self).mp hy)]
      have hdepth := h.atDepth
      refine ih (hF.within _ b hdepth a hc x hx) (fun e he hey => hy ?_)
        (fun e he => hp e (List.mem_cons_of_mem a he)) rfl
      rw [(hF.kids _ b hdepth).disjoint a hc e he x hx (hback _ e (.kid hdepth he) hey)]
      exact hey

/-- **The owner of a later position** is the first one of the ancestry of an owner that covers it, if
nothing starts in between. -/
theorem Nested.owner_later {F : Forest ν π} (hF : F.Nested) {a : ν} {above : List ν}
    (h : F.Ancestry (a :: above)) {x y : π} (hx : F.Owner x (some a))
    (hstarts : ∀ d b, F.AtDepth d b → F.start b ≤ y → F.start b ≤ x) (hle : x ≤ y) {p : ν → Bool}
    (hp : ∀ b ∈ a :: above, p b = true ↔ F.Covers b y) : F.Owner y ((a :: above).find? p) := by
  have hback : ∀ d b, F.AtDepth d b → F.Covers b y → F.Covers b x :=
    fun d b hb hy => ⟨hstarts d b hb hy.1, hle.trans_lt hy.2⟩
  obtain ⟨d, ha, hcover, hdeepest⟩ := hx
  refine hF.owner_of_ancestry h hcover hback (fun b hb hy => ?_) hp
  have hdeep := (hdeepest (d + 1) b (.kid ha hb) (hback _ b (.kid ha hb) hy)).1
  exact absurd hdeep (Nat.not_succ_le_self d)

end Forest

/-- **The depth is bounded** by the number of nodes, if each has one depth. -/
theorem Forest.depth_lt {π : Type*} {F : Forest ℕ π} {n : ℕ}
    (hvalid : ∀ d a, F.AtDepth d a → a < n)
    (hone : ∀ d e a, F.AtDepth d a → F.AtDepth e a → d = e) {d : ℕ} {a : ℕ}
    (ha : F.AtDepth d a) : d < n := by
  have hnode (i : Fin (d + 1)) : ∃ b, F.AtDepth i.val b :=
    ha.exists_le (Nat.le_of_lt_succ i.isLt)
  choose f hf using hnode
  have hinj : Function.Injective fun i : Fin (d + 1) => (⟨f i, hvalid _ _ (hf i)⟩ : Fin n) := by
    intro i j hij
    have hij : f i = f j := Fin.mk.inj hij
    have hi := hf i
    rw [hij] at hi
    exact Fin.ext (hone _ _ _ hi (hf j))
  have hcard := Fintype.card_le_of_injective _ hinj
  rwa [Fintype.card_fin, Fintype.card_fin] at hcard

end TaskjugglerLsp.Lib
