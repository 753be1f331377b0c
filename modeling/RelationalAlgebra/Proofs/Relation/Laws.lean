import RelationalAlgebra.Proofs.Relation.Extent
/-!
# Laws of the operators on extents

Equations between operators on extents.  A selection commutes with an operator where its formula holds on
a row before the operator exactly when it holds on the row after it.
-/

namespace RelationalAlgebra

open Predicate (Formula)

namespace Extent

variable {a b c e : Extent} {f g : Formula} {names others : Set String} {image after : String → String}

/-! ## Selections -/

def selectAll (fs : List Formula) (e : Extent) : Extent :=
  ⟨e.attributes, {w ∈ e.rows | ∀ f ∈ fs, f.holds w = true}⟩

@[simp] theorem selectAll_nil (e : Extent) : e.selectAll [] = e :=
  Extent.ext rfl (Set.ext fun w => by simp [selectAll])

theorem select_eq_selectAll (f : Formula) (e : Extent) : e.select f = e.selectAll f.conjuncts := by
  refine Extent.ext rfl (Set.ext fun w => and_congr_right fun _ => ?_)
  rw [Predicate.holds_conjuncts, List.all_eq_true]

theorem holds_of_conjuncts {f g h : Formula} (conjuncts : h.conjuncts = f.conjuncts ++ g.conjuncts)
    (w : Assignment) : h.holds w = (f.holds w && g.holds w) := by
  rw [Predicate.holds_conjuncts, conjuncts, List.all_append, ← Predicate.holds_conjuncts,
    ← Predicate.holds_conjuncts]

theorem holds_of_disjuncts {f g h : Formula} (disjuncts : h.disjuncts = f.disjuncts ++ g.disjuncts)
    (w : Assignment) : h.holds w = (f.holds w || g.holds w) := by
  rw [Predicate.holds_disjuncts, disjuncts, List.any_append, ← Predicate.holds_disjuncts,
    ← Predicate.holds_disjuncts]

theorem select_select {h : Formula} (conjuncts : h.conjuncts = f.conjuncts ++ g.conjuncts) :
    (e.select f).select g = e.select h := by
  refine Extent.ext rfl (Set.ext fun w => ?_)
  change (w ∈ e.rows ∧ f.holds w = true) ∧ g.holds w = true ↔ w ∈ e.rows ∧ h.holds w = true
  rw [holds_of_conjuncts conjuncts, Bool.and_eq_true, and_assoc]

theorem select_self (e : Extent) : (e.select f).select f = e.select f :=
  Extent.ext rfl (Set.ext fun _ => and_iff_left_of_imp fun h => h.2)

/-! ## Set operators -/

theorem select_union : (a.union b).select f = (a.select f).union (b.select f) :=
  Extent.ext rfl (Set.ext fun _ => or_and_right)

theorem select_intersection : (a.intersection b).select f = (a.select f).intersection (b.select f) := by
  refine Extent.ext rfl (Set.ext fun w => ?_)
  change (w ∈ a.rows ∧ w ∈ b.rows) ∧ _ ↔ (w ∈ a.rows ∧ _) ∧ w ∈ b.rows ∧ _
  tauto

theorem select_difference : (a.difference b).select f = (a.select f).difference (b.select f) := by
  refine Extent.ext rfl (Set.ext fun w => ?_)
  change (w ∈ a.rows ∧ w ∉ b.rows) ∧ f.holds w = true ↔
    (w ∈ a.rows ∧ f.holds w = true) ∧ ¬(w ∈ b.rows ∧ f.holds w = true)
  tauto

theorem select_setOperator {op : Query.Binary} (h : op.isSetOperator = true) :
    (a.apply op b).select f = (a.select f).apply op (b.select f) := by
  cases op with
  | union => exact select_union
  | intersection => exact select_intersection
  | difference => exact select_difference
  | product | division | join | leftJoin | rightJoin | fullJoin => cases h

theorem union_self : a.union a = a := Extent.ext rfl (Set.union_self _)

theorem intersection_self : a.intersection a = a := Extent.ext rfl (Set.inter_self _)

theorem union_select : a.union (a.select f) = a := by
  refine Extent.ext rfl (Set.ext fun w => ?_)
  change w ∈ a.rows ∨ w ∈ a.rows ∧ _ ↔ w ∈ a.rows
  tauto

theorem select_union_self : (a.select f).union a = a := by
  refine Extent.ext rfl (Set.ext fun w => ?_)
  change (w ∈ a.rows ∧ _) ∨ w ∈ a.rows ↔ w ∈ a.rows
  tauto

theorem intersection_select : a.intersection (a.select f) = a.select f := by
  refine Extent.ext rfl (Set.ext fun w => ?_)
  change w ∈ a.rows ∧ w ∈ a.rows ∧ f.holds w = true ↔ w ∈ a.rows ∧ f.holds w = true
  tauto

theorem select_intersection_self : (a.select f).intersection a = a.select f := by
  refine Extent.ext rfl (Set.ext fun w => ?_)
  change (w ∈ a.rows ∧ f.holds w = true) ∧ w ∈ a.rows ↔ w ∈ a.rows ∧ f.holds w = true
  tauto

/-- What is less than nothing is what no row satisfies. -/
theorem difference_eq_never (h : a.rows ⊆ b.rows) (same : a.attributes = b.attributes) :
    a.difference b = b.select (.literal (.bool false)) := by
  refine Extent.ext same (Set.ext fun w => ?_)
  change w ∈ a.rows ∧ w ∉ b.rows ↔ w ∈ b.rows ∧ false = true
  constructor
  · rintro ⟨ha, hb⟩
    exact absurd (h ha) hb
  · rintro ⟨-, hw⟩
    cases hw

theorem difference_select : a.difference (a.select f) = a.select (.not f) := by
  refine Extent.ext rfl (Set.ext fun w => ?_)
  change w ∈ a.rows ∧ ¬(w ∈ a.rows ∧ f.holds w = true) ↔ w ∈ a.rows ∧ (!f.holds w) = true
  rw [Bool.not_eq_true', ← Bool.not_eq_true]
  tauto

theorem select_union_select {h : Formula} (disjuncts : h.disjuncts = f.disjuncts ++ g.disjuncts) :
    (a.select f).union (a.select g) = a.select h := by
  refine Extent.ext rfl (Set.ext fun w => ?_)
  change (w ∈ a.rows ∧ f.holds w = true) ∨ w ∈ a.rows ∧ g.holds w = true ↔
    w ∈ a.rows ∧ h.holds w = true
  rw [holds_of_disjuncts disjuncts, Bool.or_eq_true, and_or_left]

theorem select_intersection_select {h : Formula}
    (conjuncts : h.conjuncts = f.conjuncts ++ g.conjuncts) :
    (a.select f).intersection (a.select g) = a.select h := by
  refine Extent.ext rfl (Set.ext fun w => ?_)
  change (w ∈ a.rows ∧ f.holds w = true) ∧ w ∈ a.rows ∧ g.holds w = true ↔
    w ∈ a.rows ∧ h.holds w = true
  rw [holds_of_conjuncts conjuncts, Bool.and_eq_true]
  tauto

theorem select_difference_select {h : Formula} (conjuncts : h.conjuncts = f.conjuncts ++ [.not g]) :
    (a.select f).difference (a.select g) = a.select h := by
  refine Extent.ext rfl (Set.ext fun w => ?_)
  have negated : (Formula.not g).holds w = !g.holds w := rfl
  have split := holds_of_conjuncts (g := .not g) conjuncts w
  change (w ∈ a.rows ∧ f.holds w = true) ∧ ¬(w ∈ a.rows ∧ g.holds w = true) ↔
    w ∈ a.rows ∧ h.holds w = true
  rw [split, negated, Bool.and_eq_true, Bool.not_eq_true', ← Bool.not_eq_true]
  tauto

/-! ## Projections -/

theorem project_project (sub : others ⊆ names) : (e.project names).project others = e.project others := by
  refine Extent.ext rfl ?_
  change Assignment.restrict others '' (Assignment.restrict names '' e.rows) = _
  rw [Set.image_image]
  exact Set.image_congr fun w _ => Assignment.restrict_restrict sub

theorem project_self (proper : e.Proper) (same : names = e.attributes) : e.project names = e := by
  subst same
  refine Extent.ext rfl ?_
  change Assignment.restrict e.attributes '' e.rows = e.rows
  rw [Set.image_congr fun w hw => (proper w hw).restrict_self, Set.image_id']

theorem project_union : (a.union b).project names = (a.project names).union (b.project names) :=
  Extent.ext rfl (Set.image_union _ _ _)

/-- A selection moves into a projection if its formula does not see what is projected away. -/
theorem select_project (h : ∀ w ∈ e.rows, f.holds (w.restrict names) = f.holds w) :
    (e.project names).select f = (e.select f).project names := by
  refine Extent.ext rfl (Set.ext fun u => ?_)
  constructor
  · rintro ⟨⟨w, hw, rfl⟩, holds⟩
    exact ⟨w, ⟨hw, by rwa [← h w hw]⟩, rfl⟩
  · rintro ⟨w, ⟨hw, holds⟩, rfl⟩
    exact ⟨⟨w, hw, rfl⟩, by rwa [h w hw]⟩

/-! ## Renamings -/

/-- Every row is, after a renaming that keeps names apart, the row with its cells under the new names. -/
theorem exists_renamed (proper : e.Proper) (injective : Set.InjOn image e.attributes) {v : Assignment}
    (hv : v ∈ e.rows) : ∃ w ∈ (e.rename image).rows, ∀ n ∈ e.attributes, w (image n) = v n := by
  classical
  let w : Assignment := fun m => if h : ∃ n ∈ e.attributes, image n = m then v h.choose else none
  have cell : ∀ n ∈ e.attributes, w (image n) = v n := by
    intro n hn
    have some : ∃ m ∈ e.attributes, image m = image n := ⟨n, hn, rfl⟩
    have chosen : some.choose = n := injective some.choose_spec.1 hn some.choose_spec.2
    change (if h : ∃ m ∈ e.attributes, image m = image n then v h.choose else none) = v n
    rw [dif_pos some, chosen]
  have covers : w.Covers (image '' e.attributes) := by
    intro m
    by_cases hm : m ∈ image '' e.attributes
    · obtain ⟨n, hn, rfl⟩ := hm
      rw [cell n hn]
      exact iff_of_true ((proper v hv n).mpr hn) (Set.mem_image_of_mem _ hn)
    · have none : w m = none := by
        refine dif_neg ?_
        rintro ⟨n, hn, rfl⟩
        exact hm (Set.mem_image_of_mem _ hn)
      rw [none]
      simp [hm]
  refine ⟨w, ⟨covers, ?_⟩, cell⟩
  have same : Assignment.restrict e.attributes (w ∘ image) = v :=
    (Assignment.restrict_eq_iff (proper v hv)).mpr cell
  rwa [same]

theorem rename_congr (h : Set.EqOn image after e.attributes) : e.rename image = e.rename after := by
  have attributes : image '' e.attributes = after '' e.attributes := Set.image_congr h
  have restricted (w : Assignment) : Assignment.restrict e.attributes (w ∘ image) =
      Assignment.restrict e.attributes (w ∘ after) := by
    funext n
    by_cases hn : n ∈ e.attributes
    · rw [Assignment.restrict_of_mem hn, Assignment.restrict_of_mem hn, Function.comp_apply,
        Function.comp_apply, h hn]
    · rw [Assignment.restrict_of_notMem hn, Assignment.restrict_of_notMem hn]
  simp only [rename, attributes, restricted]

theorem rename_id (proper : e.Proper) (h : ∀ n ∈ e.attributes, image n = n) : e.rename image = e := by
  rw [@rename_congr e image id h]
  refine Extent.ext (Set.image_id _) (Set.ext fun w => ?_)
  change w.Covers (id '' e.attributes) ∧ Assignment.restrict e.attributes (w ∘ id) ∈ e.rows ↔ w ∈ e.rows
  rw [Set.image_id, Function.comp_id]
  constructor
  · rintro ⟨covers, hw⟩
    rwa [covers.restrict_self] at hw
  · intro hw
    have covers := proper w hw
    exact ⟨covers, by rwa [covers.restrict_self]⟩

theorem rename_rename : (e.rename image).rename after = e.rename (after ∘ image) := by
  have attributes : after '' (image '' e.attributes) = (after ∘ image) '' e.attributes :=
    Set.image_image _ _ _
  refine Extent.ext attributes (Set.ext fun w => ?_)
  have inner : Assignment.restrict e.attributes
      (Assignment.restrict (image '' e.attributes) (w ∘ after) ∘ image) =
      Assignment.restrict e.attributes (w ∘ (after ∘ image)) := by
    funext n
    by_cases hn : n ∈ e.attributes
    · rw [Assignment.restrict_of_mem hn, Assignment.restrict_of_mem hn, Function.comp_apply,
        Assignment.restrict_of_mem (Set.mem_image_of_mem _ hn)]
      rfl
    · rw [Assignment.restrict_of_notMem hn, Assignment.restrict_of_notMem hn]
  change w.Covers (after '' (image '' e.attributes)) ∧
      (Assignment.restrict (image '' e.attributes) (w ∘ after)).Covers (image '' e.attributes) ∧
        Assignment.restrict e.attributes
          (Assignment.restrict (image '' e.attributes) (w ∘ after) ∘ image) ∈ e.rows ↔
    w.Covers ((after ∘ image) '' e.attributes) ∧
      Assignment.restrict e.attributes (w ∘ (after ∘ image)) ∈ e.rows
  rw [inner, attributes]
  refine and_congr_right fun covers => and_iff_right fun n => ?_
  by_cases hn : n ∈ image '' e.attributes
  · rw [Assignment.restrict_of_mem hn, Function.comp_apply, covers]
    refine iff_of_true ?_ hn
    rw [← attributes]
    exact Set.mem_image_of_mem _ hn
  · rw [Assignment.restrict_of_notMem hn]
    simp [hn]

theorem rename_setOperator {op : Query.Binary} (h : op.isSetOperator = true)
    (same : a.attributes = b.attributes) :
    (a.rename image).apply op (b.rename image) = (a.apply op b).rename image := by
  have rows (w : Assignment) : w ∈ (b.rename image).rows ↔
      w.Covers (image '' a.attributes) ∧ Assignment.restrict a.attributes (w ∘ image) ∈ b.rows := by
    rw [same]
    rfl
  have mem (w : Assignment) : w ∈ (a.rename image).rows ↔
      w.Covers (image '' a.attributes) ∧ Assignment.restrict a.attributes (w ∘ image) ∈ a.rows :=
    Iff.rfl
  cases op with
  | union =>
    refine Extent.ext rfl (Set.ext fun w => ?_)
    change w ∈ (a.rename image).rows ∨ w ∈ (b.rename image).rows ↔ _ ∧ (_ ∨ _)
    rw [rows, mem]
    exact and_or_left.symm
  | intersection =>
    refine Extent.ext rfl (Set.ext fun w => ?_)
    change w ∈ (a.rename image).rows ∧ w ∈ (b.rename image).rows ↔ _ ∧ _ ∧ _
    rw [rows, mem]
    tauto
  | difference =>
    refine Extent.ext rfl (Set.ext fun w => ?_)
    change w ∈ (a.rename image).rows ∧ w ∉ (b.rename image).rows ↔ _ ∧ _ ∧ _
    rw [rows, mem]
    tauto
  | product | division | join | leftJoin | rightJoin | fullJoin => cases h

/-- Whether a name before a renaming and a name after it belong together. -/
structure Undoes (image : String → String) (attributes : Set String) (old new : String) : Prop where
  known : new ∈ image '' attributes → old ∈ attributes ∧ image old = new
  unknown : new ∉ image '' attributes → old ∉ attributes

theorem Undoes.cell {old new : String} (h : Undoes image e.attributes old new) {w : Assignment}
    (covers : w.Covers (image '' e.attributes)) :
    Assignment.restrict e.attributes (w ∘ image) old = w new := by
  by_cases hn : new ∈ image '' e.attributes
  · obtain ⟨hold, same⟩ := h.known hn
    rw [Assignment.restrict_of_mem hold, Function.comp_apply, same]
  · rw [Assignment.restrict_of_notMem (h.unknown hn), covers.eq_none hn]

/-- A selection moves into a renaming and takes the names from before. -/
theorem select_rename {back : String → String}
    (undoes : ∀ n ∈ f.mentioned, Undoes image e.attributes (back n) n) :
    (e.rename image).select f = (e.select (f.rename back)).rename image := by
  refine Extent.ext rfl (Set.ext fun w => ?_)
  change (w.Covers _ ∧ _) ∧ f.holds w = true ↔
    w.Covers _ ∧ _ ∧ (f.rename back).holds (Assignment.restrict e.attributes (w ∘ image)) = true
  rw [and_assoc]
  refine and_congr_right fun covers => and_congr_right fun _ => ?_
  have same : f.holds (Assignment.restrict e.attributes (w ∘ image) ∘ back) = f.holds w :=
    Predicate.holds_congr fun n hn => (undoes n hn).cell covers
  rw [Predicate.holds_rename, same]

/-- A projection moves into a renaming and takes the names from before. -/
theorem project_rename (proper : e.Proper) (injective : Set.InjOn image e.attributes)
    (sub : names ⊆ e.attributes) (same : Set.EqOn image after names) :
    (e.rename image).project (image '' names) = (e.project names).rename after := by
  rw [← rename_congr (e := e.project names) same]
  have covered {w : Assignment} (covers : w.Covers (image '' e.attributes)) :
      Assignment.restrict names (w.restrict (image '' names) ∘ image) =
        Assignment.restrict names (Assignment.restrict e.attributes (w ∘ image)) := by
    funext n
    by_cases hn : n ∈ names
    · rw [Assignment.restrict_of_mem hn, Assignment.restrict_of_mem hn, Function.comp_apply,
        Assignment.restrict_of_mem (Set.mem_image_of_mem _ hn), Assignment.restrict_of_mem (sub hn)]
      rfl
    · rw [Assignment.restrict_of_notMem hn, Assignment.restrict_of_notMem hn]
  refine Extent.ext rfl (Set.ext fun u => ?_)
  constructor
  · rintro ⟨w, ⟨covers, hw⟩, rfl⟩
    refine ⟨Assignment.covers_restrict covers (Set.image_mono sub), _, hw, ?_⟩
    exact (covered covers).symm
  · rintro ⟨covers, v, hv, hu⟩
    obtain ⟨w, ⟨coversW, hw⟩, cell⟩ := exists_renamed proper injective hv
    refine ⟨w, ⟨coversW, hw⟩, (Assignment.restrict_eq_iff covers).mpr ?_⟩
    rintro _ ⟨n, hn, rfl⟩
    have hn : n ∈ names := hn
    have atName := congrFun hu n
    change v.restrict names n = Assignment.restrict names (u ∘ image) n at atName
    rw [Assignment.restrict_of_mem hn, Assignment.restrict_of_mem hn] at atName
    rw [cell n (sub hn), atName]
    rfl

/-! ## Joins -/

theorem join_union (same : b.attributes = c.attributes) :
    (a.join b).union (a.join c) = a.join (b.union c) := by
  refine Extent.ext rfl (Set.ext fun w => ?_)
  change (w.Covers (a.attributes ∪ b.attributes) ∧ w.restrict a.attributes ∈ a.rows ∧
      w.restrict b.attributes ∈ b.rows) ∨ (w.Covers (a.attributes ∪ c.attributes) ∧
      w.restrict a.attributes ∈ a.rows ∧ w.restrict c.attributes ∈ c.rows) ↔
    w.Covers (a.attributes ∪ b.attributes) ∧ w.restrict a.attributes ∈ a.rows ∧
      (w.restrict b.attributes ∈ b.rows ∨ w.restrict b.attributes ∈ c.rows)
  rw [← same]
  tauto

theorem join_comm : a.join b = b.join a := by
  refine Extent.ext (Set.union_comm _ _) (Set.ext fun w => ?_)
  change w.Covers (a.attributes ∪ b.attributes) ∧ _ ∧ _ ↔
    w.Covers (b.attributes ∪ a.attributes) ∧ _ ∧ _
  rw [Set.union_comm, and_comm (a := w.restrict a.attributes ∈ a.rows)]

theorem union_join (same : b.attributes = c.attributes) :
    (b.join a).union (c.join a) = (b.union c).join a := by
  rw [join_comm, join_comm (a := c), join_union same, join_comm]

/-- A formula over some attributes holds on a row exactly when it holds on these cells of it. -/
theorem holds_restrict (h : ∀ n ∈ f.mentioned, n ∈ names) (w : Assignment) :
    f.holds (w.restrict names) = f.holds w :=
  Predicate.holds_congr fun n hn => Assignment.restrict_of_mem (h n hn)

/-- The formulas of a selection that concern one operand of a join move there. -/
theorem select_join {ls rs bs : List Formula} (all : (ls ++ rs ++ bs).Perm f.conjuncts)
    (left : ∀ f ∈ ls, ∀ n ∈ f.mentioned, n ∈ a.attributes)
    (right : ∀ f ∈ rs, ∀ n ∈ f.mentioned, n ∈ b.attributes) :
    (a.join b).select f = ((a.selectAll ls).join (b.selectAll rs)).selectAll bs := by
  rw [select_eq_selectAll]
  refine Extent.ext rfl (Set.ext fun w => ?_)
  have parts : (∀ g ∈ f.conjuncts, g.holds w = true) ↔ (∀ g ∈ ls, g.holds w = true) ∧
      (∀ g ∈ rs, g.holds w = true) ∧ ∀ g ∈ bs, g.holds w = true := by
    rw [← and_assoc, ← List.forall_mem_append, ← List.forall_mem_append]
    exact forall_congr' fun g => imp_congr_left all.mem_iff.symm
  have onLeft : (∀ g ∈ ls, g.holds (w.restrict a.attributes) = true) ↔ ∀ g ∈ ls, g.holds w = true :=
    forall₂_congr fun g hg => by rw [holds_restrict (left g hg)]
  have onRight : (∀ g ∈ rs, g.holds (w.restrict b.attributes) = true) ↔ ∀ g ∈ rs, g.holds w = true :=
    forall₂_congr fun g hg => by rw [holds_restrict (right g hg)]
  change (w.Covers (a.attributes ∪ b.attributes) ∧ w.restrict a.attributes ∈ a.rows ∧
      w.restrict b.attributes ∈ b.rows) ∧ (∀ g ∈ f.conjuncts, g.holds w = true) ↔
    (w.Covers (a.attributes ∪ b.attributes) ∧
      (w.restrict a.attributes ∈ a.rows ∧ ∀ g ∈ ls, g.holds (w.restrict a.attributes) = true) ∧
      w.restrict b.attributes ∈ b.rows ∧ ∀ g ∈ rs, g.holds (w.restrict b.attributes) = true) ∧
      ∀ g ∈ bs, g.holds w = true
  rw [parts, onLeft, onRight]
  tauto

end Extent

end RelationalAlgebra
