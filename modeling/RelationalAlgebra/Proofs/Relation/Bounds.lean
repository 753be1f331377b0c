import RelationalAlgebra.Proofs.Relation.Laws
/-!
# Bounds of extents

A formula that names more than the attributes of a row may have no value there, and what a selection
keeps then depends on whether it is asked before a projection or after it.  Two extents in place of one
say what can be said: the rows that are there for sure, whatever stands under the further names, and those
that are possible.  All operators are monotone in these bounds of their operands.
-/

namespace RelationalAlgebra

open Predicate (Formula)

/-! ## For sure and possibly -/

/-- What holds on a row for sure, with whatever further cells, or possibly, with some. -/
def Assignment.Holds (sure : Bool) (P : Assignment → Prop) (w : Assignment) : Prop :=
  match sure with
  | true => ∀ w' : Assignment, w'.Extends w → P w'
  | false => ∃ w' : Assignment, w'.Extends w ∧ P w'

def Tighter (sure : Bool) (P Q : Prop) : Prop :=
  match sure with
  | true => P → Q
  | false => Q → P

namespace Tighter

variable {sure : Bool} {P P' Q Q' R : Prop}

theorem of_iff (h : P ↔ Q) : Tighter sure P Q := by
  cases sure with
  | true => exact h.mp
  | false => exact h.mpr

theorem trans (h : Tighter sure P Q) (h' : Tighter sure Q R) : Tighter sure P R := by
  cases sure with
  | true => exact fun hp => h' (h hp)
  | false => exact fun hr => h (h' hr)

theorem and (h : Tighter sure P P') (h' : Tighter sure Q Q') : Tighter sure (P ∧ Q) (P' ∧ Q') := by
  cases sure with
  | true => exact And.imp h h'
  | false => exact And.imp h h'

theorem or (h : Tighter sure P P') (h' : Tighter sure Q Q') : Tighter sure (P ∨ Q) (P' ∨ Q') := by
  cases sure with
  | true => exact Or.imp h h'
  | false => exact Or.imp h h'

theorem and_right (h : P → Tighter sure Q Q') : Tighter sure (P ∧ Q) (P ∧ Q') := by
  cases sure with
  | true => exact fun hPQ => ⟨hPQ.1, h hPQ.1 hPQ.2⟩
  | false => exact fun hPQ => ⟨hPQ.1, h hPQ.1 hPQ.2⟩

theorem exists_ {α : Type} {p q : α → Prop} (h : ∀ a, Tighter sure (p a) (q a)) :
    Tighter sure (∃ a, p a) (∃ a, q a) := by
  cases sure with
  | true => exact Exists.imp h
  | false => exact Exists.imp h

end Tighter

namespace Assignment

variable {sure : Bool} {P Q : Assignment → Prop} {w v : Assignment}

theorem holds_congr (h : ∀ w, P w ↔ Q w) : w.Holds sure P ↔ w.Holds sure Q := by
  have same : P = Q := funext fun w => propext (h w)
  rw [same]

/-- Every row with further cells than one row is, for what is asked of them, one with further cells than
the other. -/
theorem tighter_holds
    (h : ∀ v' : Assignment, v'.Extends v → ∃ w' : Assignment, w'.Extends w ∧ (P w' ↔ Q v')) :
    Tighter sure (w.Holds sure P) (v.Holds sure Q) := by
  cases sure with
  | true =>
    intro holds v' more
    obtain ⟨w', more', same⟩ := h v' more
    exact same.mp (holds w' more')
  | false =>
    rintro ⟨v', more, hQ⟩
    obtain ⟨w', more', same⟩ := h v' more
    exact ⟨w', more', same.mpr hQ⟩

theorem tighter_holds_and :
    Tighter sure (w.Holds sure P ∧ w.Holds sure Q) (w.Holds sure fun w => P w ∧ Q w) := by
  cases sure with
  | true => exact fun h w' more => ⟨h.1 w' more, h.2 w' more⟩
  | false => exact fun ⟨w', more, hP, hQ⟩ => ⟨⟨w', more, hP⟩, w', more, hQ⟩

theorem tighter_holds_or :
    Tighter sure (w.Holds sure P ∨ w.Holds sure Q) (w.Holds sure fun w => P w ∨ Q w) := by
  cases sure with
  | true =>
    rintro (h | h) w' more
    · exact .inl (h w' more)
    · exact .inr (h w' more)
  | false =>
    rintro ⟨w', more, hP | hQ⟩
    · exact .inl ⟨w', more, hP⟩
    · exact .inr ⟨w', more, hQ⟩

/-- What further cells do not change holds for sure if it is possible. -/
theorem holds_iff_of_stable (h : ∀ w' : Assignment, w'.Extends w → (P w' ↔ P w)) :
    w.Holds sure P ↔ P w := by
  cases sure with
  | true => exact ⟨fun holds => holds w (Extends.refl w), fun hP w' more => (h w' more).mpr hP⟩
  | false => exact ⟨fun ⟨w', more, hP⟩ => (h w' more).mp hP, fun hP => ⟨w, Extends.refl w, hP⟩⟩

/-- A proposition that further cells do not change is asked of the row itself. -/
theorem holds_and_iff (h : ∀ w' : Assignment, w'.Extends w → (P w' ↔ P w)) :
    (w.Holds sure fun w => P w ∧ Q w) ↔ P w ∧ w.Holds sure Q := by
  cases sure with
  | true =>
    constructor
    · intro both
      exact ⟨(both w (Extends.refl w)).1, fun w' more => (both w' more).2⟩
    · rintro ⟨hP, hQ⟩ w' more
      exact ⟨(h w' more).mpr hP, hQ w' more⟩
  | false =>
    constructor
    · rintro ⟨w', more, hP, hQ⟩
      exact ⟨(h w' more).mp hP, w', more, hQ⟩
    · rintro ⟨hP, w', more, hQ⟩
      exact ⟨w', more, (h w' more).mpr hP, hQ⟩

end Assignment

/-! ## Bounds of the operators -/

namespace Extent

structure Tightens (sure : Bool) (e e' : Extent) : Prop where
  attributes : e.attributes = e'.attributes
  rows (w : Assignment) : Tighter sure (w ∈ e.rows) (w ∈ e'.rows)

/-- The rows that a selection keeps for sure, or possibly. -/
def selectBound (sure : Bool) (f : Formula) (e : Extent) : Extent :=
  ⟨e.attributes, {w ∈ e.rows | w.Holds sure fun w => f.holds w = true}⟩

/-- An extent with all rows that are for sure and none that are not possible. -/
structure Between (bounds : Bool → Extent) (e : Extent) : Prop where
  attributes : e.attributes = (bounds true).attributes
  lower : (bounds true).rows ⊆ e.rows
  upper : e.rows ⊆ (bounds false).rows

/-- The bound of an operator from the bounds of its operands.  In an operator that is not monotone a row is
for sure or possible if it is so whatever the operands are. -/
noncomputable def applyBound (op : Query.Binary) (a b : Bool → Extent) (sure : Bool) : Extent :=
  let result := (a sure).apply op (b sure)
  match op with
  | .union | .intersection | .product | .join => result
  | .difference | .division | .leftJoin | .rightJoin | .fullJoin =>
    ⟨result.attributes, {w | w.Covers result.attributes ∧
      match sure with
      | true => ∀ x y, Between a x → Between b y → w ∈ (x.apply op y).rows
      | false => ∃ x y, Between a x ∧ Between b y ∧ w ∈ (x.apply op y).rows}⟩

variable {sure : Bool} {e e' a a' b b' : Extent} {f g h : Formula}

theorem Tightens.refl (e : Extent) : Tightens sure e e := ⟨rfl, fun _ => .of_iff Iff.rfl⟩

theorem Tightens.trans {e'' : Extent} (h : Tightens sure e e') (h' : Tightens sure e' e'') :
    Tightens sure e e'' :=
  ⟨h.attributes.trans h'.attributes, fun w => (h.rows w).trans (h'.rows w)⟩

theorem Tightens.select (h : Tightens sure e e') (f : Formula) :
    Tightens sure (e.selectBound sure f) (e'.selectBound sure f) :=
  ⟨h.attributes, fun w => (h.rows w).and (.of_iff Iff.rfl)⟩

theorem Tightens.project (h : Tightens sure e e') (names : Set String) :
    Tightens sure (e.project names) (e'.project names) :=
  ⟨rfl, fun _ => .exists_ fun u => (h.rows u).and (.of_iff Iff.rfl)⟩

theorem Tightens.rename (h : Tightens sure e e') (image : String → String) :
    Tightens sure (e.rename image) (e'.rename image) := by
  refine ⟨congrArg (image '' ·) h.attributes, fun w => ?_⟩
  show Tighter sure (w.Covers (image '' e.attributes) ∧ Assignment.restrict e.attributes (w ∘ image) ∈ e.rows)
    (w.Covers (image '' e'.attributes) ∧ Assignment.restrict e'.attributes (w ∘ image) ∈ e'.rows)
  rw [← h.attributes]
  exact Tighter.and (.of_iff Iff.rfl) (h.rows _)

theorem attributes_apply_congr (op : Query.Binary) (ha : a.attributes = a'.attributes)
    (hb : b.attributes = b'.attributes) : (a.apply op b).attributes = (a'.apply op b').attributes := by
  cases op with
  | product | join | leftJoin | rightJoin | fullJoin => exact congrArg₂ (· ∪ ·) ha hb
  | difference | union | intersection => exact ha
  | division => exact congrArg₂ (· \ ·) ha hb

theorem Tightens.join (ha : Tightens sure a a') (hb : Tightens sure b b') :
    Tightens sure (a.join b) (a'.join b') := by
  refine ⟨congrArg₂ (· ∪ ·) ha.attributes hb.attributes, fun w => ?_⟩
  show Tighter sure (w.Covers (a.attributes ∪ b.attributes) ∧ w.restrict a.attributes ∈ a.rows ∧
      w.restrict b.attributes ∈ b.rows) (w.Covers (a'.attributes ∪ b'.attributes) ∧
      w.restrict a'.attributes ∈ a'.rows ∧ w.restrict b'.attributes ∈ b'.rows)
  rw [← ha.attributes, ← hb.attributes]
  exact Tighter.and (.of_iff Iff.rfl) ((ha.rows _).and (hb.rows _))

theorem Between.of_tightens {bounds bounds' : Bool → Extent}
    (h : ∀ sure, Tightens sure (bounds sure) (bounds' sure)) (between : Between bounds' e) :
    Between bounds e where
  attributes := between.attributes.trans (h true).attributes.symm
  lower w hw := between.lower ((h true).rows w hw)
  upper w hw := (h false).rows w (between.upper hw)

theorem tightens_applyBound (op : Query.Binary) {a a' b b' : Bool → Extent}
    (ha : ∀ sure, Tightens sure (a sure) (a' sure)) (hb : ∀ sure, Tightens sure (b sure) (b' sure)) :
    Tightens sure (applyBound op a b sure) (applyBound op a' b' sure) := by
  have attributes := attributes_apply_congr op (ha sure).attributes (hb sure).attributes
  cases op with
  | union => exact ⟨attributes, fun w => ((ha sure).rows w).or ((hb sure).rows w)⟩
  | intersection => exact ⟨attributes, fun w => ((ha sure).rows w).and ((hb sure).rows w)⟩
  | product | join => exact (ha sure).join (hb sure)
  | difference | division | leftJoin | rightJoin | fullJoin =>
    refine ⟨attributes, fun w => ?_⟩
    refine Tighter.and (.of_iff ?_) ?_
    · rw [attributes]
    · cases sure with
      | true => exact fun all x y hx hy => all x y (hx.of_tightens ha) (hy.of_tightens hb)
      | false =>
        rintro ⟨x, y, hx, hy, hw⟩
        exact ⟨x, y, hx.of_tightens ha, hy.of_tightens hb, hw⟩

/-- Operands that are known for sure give a result that is. -/
theorem applyBound_const (op : Query.Binary) (proper : (a.apply op b).Proper) :
    applyBound op (fun _ => a) (fun _ => b) sure = a.apply op b := by
  have only {e x : Extent} (between : Between (fun _ => e) x) : x = e :=
    Extent.ext between.attributes (Set.Subset.antisymm between.upper between.lower)
  have self (e : Extent) : Between (fun _ => e) e := ⟨rfl, Set.Subset.rfl, Set.Subset.rfl⟩
  cases op with
  | union | intersection | product | join => rfl
  | difference | division | leftJoin | rightJoin | fullJoin =>
    refine Extent.ext rfl (Set.ext fun w => ?_)
    cases sure with
    | true =>
      constructor
      · exact fun hw => hw.2 a b (self a) (self b)
      · intro hw
        refine ⟨proper w hw, fun x y hx hy => ?_⟩
        rwa [only hx, only hy]
    | false =>
      constructor
      · rintro ⟨-, x, y, hx, hy, hw⟩
        rwa [only hx, only hy] at hw
      · exact fun hw => ⟨proper w hw, a, b, self a, self b, hw⟩

/-! ## Selections that move -/

theorem tighter_of_conjuncts (conjuncts : h.conjuncts = f.conjuncts ++ g.conjuncts) (w : Assignment) :
    Tighter sure ((w.Holds sure fun w => f.holds w = true) ∧ w.Holds sure fun w => g.holds w = true)
      (w.Holds sure fun w => h.holds w = true) := by
  refine Assignment.tighter_holds_and.trans (.of_iff (Assignment.holds_congr fun w => ?_))
  rw [holds_of_conjuncts conjuncts, Bool.and_eq_true]

theorem tighter_of_disjuncts (disjuncts : h.disjuncts = f.disjuncts ++ g.disjuncts) (w : Assignment) :
    Tighter sure ((w.Holds sure fun w => f.holds w = true) ∨ w.Holds sure fun w => g.holds w = true)
      (w.Holds sure fun w => h.holds w = true) := by
  refine Assignment.tighter_holds_or.trans (.of_iff (Assignment.holds_congr fun w => ?_))
  rw [holds_of_disjuncts disjuncts, Bool.or_eq_true]

theorem tightens_select_select (conjuncts : h.conjuncts = f.conjuncts ++ g.conjuncts) :
    Tightens sure ((e.selectBound sure f).selectBound sure g) (e.selectBound sure h) := by
  refine ⟨rfl, fun w => Tighter.trans (.of_iff and_assoc) ?_⟩
  exact Tighter.and (.of_iff Iff.rfl) (tighter_of_conjuncts conjuncts w)

theorem tightens_select_union_select (disjuncts : h.disjuncts = f.disjuncts ++ g.disjuncts) :
    Tightens sure ((e.selectBound sure f).union (e.selectBound sure g)) (e.selectBound sure h) := by
  refine ⟨rfl, fun w => Tighter.trans (.of_iff and_or_left.symm) ?_⟩
  exact Tighter.and (.of_iff Iff.rfl) (tighter_of_disjuncts disjuncts w)

theorem tightens_select_intersection_select (conjuncts : h.conjuncts = f.conjuncts ++ g.conjuncts) :
    Tightens sure ((e.selectBound sure f).intersection (e.selectBound sure g))
      (e.selectBound sure h) := by
  refine ⟨rfl, fun w => Tighter.trans (.of_iff and_and_left.symm) ?_⟩
  exact Tighter.and (.of_iff Iff.rfl) (tighter_of_conjuncts conjuncts w)

theorem selectBound_union : (a.union b).selectBound sure f =
    (a.selectBound sure f).union (b.selectBound sure f) :=
  Extent.ext rfl (Set.ext fun _ => or_and_right)

theorem selectBound_intersection : (a.intersection b).selectBound sure f =
    (a.selectBound sure f).intersection (b.selectBound sure f) :=
  Extent.ext rfl (Set.ext fun _ => and_and_right)

/-- A selection that moves into a projection sees more cells of each row. -/
theorem tightens_select_project (names : Set String) :
    Tightens sure ((e.project names).selectBound sure f) ((e.selectBound sure f).project names) := by
  refine ⟨rfl, fun w => ?_⟩
  have before : w ∈ ((e.project names).selectBound sure f).rows ↔
      ∃ u, (u ∈ e.rows ∧ (u.restrict names).Holds sure fun w => f.holds w = true) ∧
        u.restrict names = w := by
    constructor
    · rintro ⟨⟨u, hu, rfl⟩, holds⟩
      exact ⟨u, ⟨hu, holds⟩, rfl⟩
    · rintro ⟨u, ⟨hu, holds⟩, rfl⟩
      exact ⟨⟨u, hu, rfl⟩, holds⟩
  refine Tighter.trans (.of_iff before) (.exists_ fun u => ?_)
  refine Tighter.and (Tighter.and (.of_iff Iff.rfl) ?_) (.of_iff Iff.rfl)
  exact Assignment.tighter_holds fun u' more =>
    ⟨u', more.trans (Assignment.extends_restrict u names), Iff.rfl⟩

/-- A selection that moves into a renaming asks the same of the row from before. -/
theorem tightens_select_rename {image back : String → String}
    (undoes : ∀ n ∈ f.mentioned, Undoes image e.attributes (back n) n) :
    Tightens sure ((e.rename image).selectBound sure f)
      ((e.selectBound sure (f.rename back)).rename image) := by
  classical
  refine ⟨rfl, fun w => Tighter.trans (.of_iff and_assoc) (.and_right fun covers => ?_)⟩
  refine Tighter.and (.of_iff Iff.rfl) (Assignment.tighter_holds fun v' more => ?_)
  -- the row after the renaming with the cells that the larger row has for the formula
  let w' : Assignment := fun n => if n ∈ f.mentioned then v' (back n) else w n
  refine ⟨w', fun n c hc => ?_, ?_⟩
  · by_cases hn : n ∈ f.mentioned
    · show (if n ∈ f.mentioned then v' (back n) else w n) = some c
      rw [if_pos hn]
      exact more _ _ (((undoes n hn).cell covers).trans hc)
    · show (if n ∈ f.mentioned then v' (back n) else w n) = some c
      rw [if_neg hn, hc]
  · have same : f.holds w' = f.holds (v' ∘ back) := Predicate.holds_congr fun n hn => if_pos hn
    rw [same, Predicate.holds_rename]

/-- Formulas over attributes of a row are asked of the row itself. -/
theorem all_holds_iff {names : Set String} {fs : List Formula}
    (inside : ∀ f ∈ fs, ∀ n ∈ f.mentioned, n ∈ names) {w w' : Assignment} (covers : w.Covers names)
    (more : w'.Extends w) : (∀ f ∈ fs, f.holds w' = true) ↔ ∀ f ∈ fs, f.holds w = true := by
  refine forall₂_congr fun f hf => ?_
  rw [Predicate.holds_congr fun n hn => more.eq covers (inside f hf n hn)]

/-- The formulas of a selection that concern one operand of a join move there. -/
theorem mem_selectBound_join_iff {ls rs bs : List Formula} (all : (ls ++ rs ++ bs).Perm f.conjuncts)
    (left : ∀ f ∈ ls, ∀ n ∈ f.mentioned, n ∈ a.attributes)
    (right : ∀ f ∈ rs, ∀ n ∈ f.mentioned, n ∈ b.attributes) {w : Assignment} :
    w ∈ ((a.join b).selectBound sure f).rows ↔
      (w.Covers (a.attributes ∪ b.attributes) ∧
        (w.restrict a.attributes ∈ a.rows ∧
          (w.restrict a.attributes).Holds sure fun w => ∀ f ∈ ls, f.holds w = true) ∧
        w.restrict b.attributes ∈ b.rows ∧
          (w.restrict b.attributes).Holds sure fun w => ∀ f ∈ rs, f.holds w = true) ∧
        w.Holds sure fun w => ∀ f ∈ bs, f.holds w = true := by
  have parts (w : Assignment) : f.holds w = true ↔ (∀ g ∈ ls, g.holds w = true) ∧
      (∀ g ∈ rs, g.holds w = true) ∧ ∀ g ∈ bs, g.holds w = true := by
    rw [Predicate.holds_conjuncts, List.all_eq_true, ← and_assoc, ← List.forall_mem_append,
      ← List.forall_mem_append]
    exact forall_congr' fun g => imp_congr_left all.mem_iff.symm
  have onPart {names : Set String} {fs : List Formula} (sub : names ⊆ a.attributes ∪ b.attributes)
      (inside : ∀ f ∈ fs, ∀ n ∈ f.mentioned, n ∈ names) (covers : w.Covers (a.attributes ∪ b.attributes)) :
      ((w.restrict names).Holds sure fun w => ∀ f ∈ fs, f.holds w = true) ↔
        ∀ f ∈ fs, f.holds w = true := by
    have part := Assignment.covers_restrict covers sub
    have fixed (w' : Assignment) (more : w'.Extends (w.restrict names)) :
        (∀ f ∈ fs, f.holds w' = true) ↔ ∀ f ∈ fs, f.holds (w.restrict names) = true :=
      all_holds_iff inside part more
    rw [Assignment.holds_iff_of_stable fixed]
    exact (all_holds_iff inside part (Assignment.extends_restrict w names)).symm
  have whole (covers : w.Covers (a.attributes ∪ b.attributes)) :
      (w.Holds sure fun w => f.holds w = true) ↔ (∀ g ∈ ls, g.holds w = true) ∧
        (∀ g ∈ rs, g.holds w = true) ∧ w.Holds sure fun w => ∀ g ∈ bs, g.holds w = true := by
    have fixedLeft (w' : Assignment) (more : w'.Extends w) :
        (∀ g ∈ ls, g.holds w' = true) ↔ ∀ g ∈ ls, g.holds w = true :=
      all_holds_iff (fun g hg n hn => .inl (left g hg n hn)) covers more
    have fixedRight (w' : Assignment) (more : w'.Extends w) :
        (∀ g ∈ rs, g.holds w' = true) ↔ ∀ g ∈ rs, g.holds w = true :=
      all_holds_iff (fun g hg n hn => .inr (right g hg n hn)) covers more
    rw [Assignment.holds_congr parts, Assignment.holds_and_iff fixedLeft,
      Assignment.holds_and_iff fixedRight]
  show (w.Covers (a.attributes ∪ b.attributes) ∧ w.restrict a.attributes ∈ a.rows ∧
    w.restrict b.attributes ∈ b.rows) ∧ (w.Holds sure fun w => f.holds w = true) ↔ _
  constructor
  · rintro ⟨⟨covers, hl, hr⟩, holds⟩
    obtain ⟨holdsLeft, holdsRight, rest⟩ := (whole covers).mp holds
    exact ⟨⟨covers, ⟨hl, (onPart Set.subset_union_left left covers).mpr holdsLeft⟩, hr,
      (onPart Set.subset_union_right right covers).mpr holdsRight⟩, rest⟩
  · rintro ⟨⟨covers, ⟨hl, holdsLeft⟩, hr, holdsRight⟩, rest⟩
    refine ⟨⟨covers, hl, hr⟩, (whole covers).mpr ⟨?_, ?_, rest⟩⟩
    · exact (onPart Set.subset_union_left left covers).mp holdsLeft
    · exact (onPart Set.subset_union_right right covers).mp holdsRight

end Extent

end RelationalAlgebra
