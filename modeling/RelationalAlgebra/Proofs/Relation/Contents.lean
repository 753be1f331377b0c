import RelationalAlgebra.Proofs.Relation.ColumnOrder
/-!
# Contents

The contents of a relation are its attributes and the assignments that are equal to one of its rows, as cells
compare.  Each operator on relations is the operator on their contents, and relations are equal when their
contents are the same, so a law of extents is a law of relations.
-/

namespace RelationalAlgebra

open Predicate (cell? lastPlace?)

/-! ## Assignments with equal cells -/

theorem Cell.representative_eq_iff {c d : Cell} :
    c.representative = d.representative ↔ Cell.compare c d = .eq := by
  refine ⟨fun same => ?_, representative_eq⟩
  rw [← recoding_representative.compare_eq, same]
  exact Std.ReflCmp.compare_self

namespace Assignment

variable {w u : Assignment} {names others : Set String}

def Same (w u : Assignment) : Prop :=
  ∀ n, Option.Rel (fun c d => Cell.compare c d = .eq) (w n) (u n)

/-- The cells of one assignment, and those of another under all other names. -/
def merge (w u : Assignment) : Assignment := fun n => (w n).or (u n)

/-- The assignment with one cell for all cells that are equal. -/
noncomputable def represent (w : Assignment) : Assignment := fun n => (w n).map Cell.representative

theorem Covers.merge (hw : w.Covers names) (hu : u.Covers others) : (w.merge u).Covers (names ∪ others) := by
  intro n
  rw [Assignment.merge, Option.isSome_or, Bool.or_eq_true, hw n, hu n]
  exact Iff.rfl

theorem restrict_merge_left (hw : w.Covers names) : (w.merge u).restrict names = w := by
  refine (restrict_eq_iff hw).mpr fun n hn => ?_
  rw [merge, Option.or_of_isSome ((hw n).mpr hn)]

theorem restrict_merge_right (hw : w.Covers names) (hu : u.Covers others)
    (disjoint : ∀ n ∈ names, n ∉ others) : (w.merge u).restrict others = u := by
  refine (restrict_eq_iff hu).mpr fun n hn => ?_
  rw [merge, hw.eq_none fun h => disjoint n h hn, Option.none_or]

theorem merge_restrict (hw : w.Covers (names ∪ others)) : (w.restrict names).merge (w.restrict others) = w := by
  funext n
  rw [merge]
  by_cases hn : n ∈ names
  · rw [restrict_of_mem hn, Option.or_of_isSome ((hw n).mpr (.inl hn))]
  · rw [restrict_of_notMem hn, Option.none_or]
    by_cases hn' : n ∈ others
    · rw [restrict_of_mem hn']
    · rw [restrict_of_notMem hn', hw.eq_none (not_or.mpr ⟨hn, hn'⟩)]

theorem same_iff_represent : w.Same u ↔ w.represent = u.represent := by
  rw [Same, funext_iff]
  refine forall_congr' fun n => ?_
  rw [represent, represent]
  cases w n with
  | none => cases u n <;> simp
  | some c =>
    cases u n with
    | none => simp
    | some d =>
      rw [Option.rel_some_some, Option.map_some, Option.map_some, Option.some_inj, Cell.representative_eq_iff]

@[simp] theorem represent_represent (w : Assignment) : w.represent.represent = w.represent := by
  funext n
  rw [represent, represent, Option.map_map]
  refine congrArg (Option.map · (w n)) (funext fun c => ?_)
  exact Cell.representative_eq (Cell.compare_representative c)

theorem represent_restrict (w : Assignment) (names : Set String) :
    (w.restrict names).represent = w.represent.restrict names := by
  funext n
  rw [represent]
  by_cases hn : n ∈ names
  · rw [restrict_of_mem hn, restrict_of_mem hn]
    rfl
  · rw [restrict_of_notMem hn, restrict_of_notMem hn]
    rfl

theorem represent_of_same (same : (w.restrict names).Same u) {n : String} (hn : n ∈ names) :
    w.represent n = u.represent n := by
  rw [← same_iff_represent.mp same, represent_restrict, restrict_of_mem hn]

theorem represent_merge (w u : Assignment) : (w.merge u).represent = w.represent.merge u.represent := by
  funext n
  rw [represent, merge, merge, represent, represent]
  cases w n <;> rfl

@[simp] theorem covers_represent : w.represent.Covers names ↔ w.Covers names := by
  simp only [Covers, represent, Option.isSome_map]

/-- What is equal to a part of an assignment is a part of an equal assignment. -/
theorem exists_represented (canonical : u.represent = u)
    (same : ∀ n ∈ names, w.represent n = u n) :
    ∃ v : Assignment, v.represent = u ∧ ∀ n ∈ names, v n = w n := by
  -- the cells of `w` under these names, and those of `u` under all others
  refine ⟨(w.restrict names).merge u, ?_, fun n hn => ?_⟩
  · rw [represent_merge, represent_restrict, canonical]
    funext n
    rw [merge]
    by_cases hn : n ∈ names
    · rw [restrict_of_mem hn, same n hn, Option.or_self]
    · rw [restrict_of_notMem hn, Option.none_or]
  · have atName := same n hn
    rw [merge, restrict_of_mem hn]
    rw [represent] at atName
    cases h : w n with
    | some c => rfl
    | none => rw [← atName, h]; rfl

/-- A cell that only compares equal to itself is seen through representatives. -/
theorem represent_eq_padding {n : String} :
    w.represent n = some Relation.padding ↔ w n = some Relation.padding := by
  rw [represent, Option.map_eq_some_iff]
  constructor
  · rintro ⟨c, hc, same⟩
    have tie : Cell.compare Relation.padding c = .eq := same ▸ Cell.compare_representative c
    rw [hc]
    exact congrArg some (Cell.eq_of_compare_text tie).symm
  · intro h
    exact ⟨_, h, Cell.recoding_representative.text_eq "---"⟩

end Assignment

/-! ## Extents with all equal rows -/

namespace Extent

open Assignment (represent_restrict represent_merge covers_represent restrict_of_mem restrict_of_notMem)

/-- The rows, and all assignments equal to one of them. -/
def saturated (e : Extent) : Extent := ⟨e.attributes, {w | ∃ u ∈ e.rows, w.Same u}⟩

/-- Of equal cells only one occurs. -/
def Canonical (e : Extent) : Prop := ∀ w ∈ e.rows, w.represent = w

variable {a b e : Extent} {w : Assignment}

theorem mem_saturated (canonical : e.Canonical) : w ∈ e.saturated.rows ↔ w.represent ∈ e.rows := by
  constructor
  · rintro ⟨u, hu, same⟩
    rwa [Assignment.same_iff_represent.mp same, canonical u hu]
  · intro h
    exact ⟨_, h, Assignment.same_iff_represent.mpr (Assignment.represent_represent w).symm⟩

theorem Canonical.subset (h : b.Canonical) (sub : a.rows ⊆ b.rows) : a.Canonical :=
  fun w hw => h w (sub hw)

theorem Canonical.project (h : e.Canonical) (names : Set String) : (e.project names).Canonical := by
  rintro _ ⟨w, hw, rfl⟩
  rw [represent_restrict, h w hw]

theorem Canonical.join (ha : a.Canonical) (hb : b.Canonical) : (a.join b).Canonical := by
  rintro w ⟨covers, left, right⟩
  refine (covers_represent.mpr covers).ext covers fun n hn => ?_
  rcases hn with hn | hn
  · have same := congrFun (ha _ left) n
    rwa [represent_restrict, restrict_of_mem hn, restrict_of_mem hn] at same
  · have same := congrFun (hb _ right) n
    rwa [represent_restrict, restrict_of_mem hn, restrict_of_mem hn] at same

theorem mem_rows_iff (canonical : e.Canonical) :
    w ∈ e.rows ↔ w.represent = w ∧ w ∈ e.saturated.rows := by
  rw [mem_saturated canonical]
  constructor
  · intro hw
    have same := canonical w hw
    exact ⟨same, by rwa [same]⟩
  · rintro ⟨same, hw⟩
    rwa [same] at hw

theorem eq_of_saturated (ha : a.Canonical) (hb : b.Canonical) (h : a.saturated = b.saturated) :
    a = b := by
  have attributes_eq : a.saturated.attributes = b.saturated.attributes := by rw [h]
  refine Extent.ext attributes_eq (Set.ext fun w => ?_)
  rw [mem_rows_iff ha, mem_rows_iff hb, h]

/-! ## Operators -/

theorem saturated_project (canonical : e.Canonical) (names : Set String) :
    (e.project names).saturated = e.saturated.project names := by
  refine Extent.ext rfl (Set.ext fun w => ?_)
  rw [mem_saturated (canonical.project names)]
  constructor
  · rintro ⟨u, hu, same⟩
    have atName (n : String) : u.restrict names n = w.represent n := congrFun same n
    obtain ⟨v, inside, cells⟩ := Assignment.exists_represented (canonical u hu)
      fun n (hn : n ∈ names) => by rw [← atName, restrict_of_mem hn]
    refine ⟨v, (mem_saturated canonical).mpr (inside ▸ hu), funext fun n => ?_⟩
    by_cases hn : n ∈ names
    · rw [restrict_of_mem hn, cells n hn]
    · have none := atName n
      rw [restrict_of_notMem hn, Assignment.represent] at none
      rw [restrict_of_notMem hn, Option.map_eq_none_iff.mp none.symm]
  · rintro ⟨v, hv, rfl⟩
    exact ⟨_, (mem_saturated canonical).mp hv, (represent_restrict v names).symm⟩

theorem saturated_union (ha : a.Canonical) (hb : b.Canonical) :
    (a.union b).saturated = a.saturated.union b.saturated := by
  have both : (a.union b).Canonical := fun w hw => hw.elim (ha w) (hb w)
  refine Extent.ext rfl (Set.ext fun w => ?_)
  rw [mem_saturated both]
  exact (or_congr (mem_saturated ha) (mem_saturated hb)).symm

theorem saturated_intersection (ha : a.Canonical) (hb : b.Canonical) :
    (a.intersection b).saturated = a.saturated.intersection b.saturated := by
  have both : (a.intersection b).Canonical := ha.subset Set.inter_subset_left
  refine Extent.ext rfl (Set.ext fun w => ?_)
  rw [mem_saturated both]
  exact (and_congr (mem_saturated ha) (mem_saturated hb)).symm

theorem saturated_difference (ha : a.Canonical) (hb : b.Canonical) :
    (a.difference b).saturated = a.saturated.difference b.saturated := by
  have both : (a.difference b).Canonical := ha.subset Set.sdiff_subset
  refine Extent.ext rfl (Set.ext fun w => ?_)
  rw [mem_saturated both]
  exact (and_congr (mem_saturated ha) (not_congr (mem_saturated hb))).symm

theorem saturated_join (ha : a.Canonical) (hb : b.Canonical) :
    (a.join b).saturated = a.saturated.join b.saturated := by
  refine Extent.ext rfl (Set.ext fun w => ?_)
  rw [mem_saturated (ha.join hb)]
  change w.represent.Covers (a.attributes ∪ b.attributes) ∧ w.represent.restrict a.attributes ∈ a.rows ∧
      w.represent.restrict b.attributes ∈ b.rows ↔
    w.Covers (a.attributes ∪ b.attributes) ∧ w.restrict a.attributes ∈ a.saturated.rows ∧
      w.restrict b.attributes ∈ b.saturated.rows
  rw [covers_represent, ← represent_restrict, ← represent_restrict, mem_saturated ha, mem_saturated hb]

/-- A row that agrees with none of the rows agrees with none that is equal to one of them. -/
theorem forall_saturated_ne_iff (canonical : e.Canonical) (names : Set String) :
    (∀ u ∈ e.rows, ∃ n ∈ names, w.represent n ≠ u n) ↔
      ∀ u ∈ e.saturated.rows, ∃ n ∈ names, w n ≠ u n := by
  constructor
  · intro h u hu
    obtain ⟨n, hn, differ⟩ := h _ ((mem_saturated canonical).mp hu)
    refine ⟨n, hn, fun same => differ ?_⟩
    rw [Assignment.represent, Assignment.represent, same]
  · intro h u hu
    by_contra agree
    push Not at agree
    obtain ⟨v, inside, cells⟩ := Assignment.exists_represented (canonical u hu) agree
    obtain ⟨n, hn, differ⟩ := h v ((mem_saturated canonical).mpr (inside ▸ hu))
    exact differ (cells n hn).symm

theorem mem_unmatched_saturated_iff (ha : a.Canonical) (hb : b.Canonical) :
    w ∈ a.saturated.unmatched b.saturated ↔ w.represent ∈ a.unmatched b := by
  change w.Covers (a.attributes ∪ b.attributes) ∧ w.restrict a.attributes ∈ a.saturated.rows ∧
      (∀ u ∈ b.saturated.rows, ∃ n ∈ a.attributes ∩ b.attributes, w n ≠ u n) ∧
      (∀ n ∈ b.attributes \ a.attributes, w n = some Relation.padding) ↔
    w.represent.Covers (a.attributes ∪ b.attributes) ∧ w.represent.restrict a.attributes ∈ a.rows ∧
      (∀ u ∈ b.rows, ∃ n ∈ a.attributes ∩ b.attributes, w.represent n ≠ u n) ∧
      ∀ n ∈ b.attributes \ a.attributes, w.represent n = some Relation.padding
  rw [covers_represent, ← represent_restrict, mem_saturated ha, forall_saturated_ne_iff hb]
  simp only [Assignment.represent_eq_padding]

theorem Canonical.leftJoin (ha : a.Canonical) (hb : b.Canonical) : (a.leftJoin b).Canonical := by
  rintro w (joined | ⟨covers, left, -, filled⟩)
  · exact ha.join hb w joined
  · refine (covers_represent.mpr covers).ext covers fun n hn => ?_
    by_cases inLeft : n ∈ a.attributes
    · have same := congrFun (ha _ left) n
      rwa [represent_restrict, restrict_of_mem inLeft, restrict_of_mem inLeft] at same
    · have padded := filled n ⟨hn.resolve_left inLeft, inLeft⟩
      rw [padded, Assignment.represent_eq_padding, padded]

theorem saturated_leftJoin (ha : a.Canonical) (hb : b.Canonical) :
    (a.leftJoin b).saturated = a.saturated.leftJoin b.saturated := by
  refine Extent.ext rfl (Set.ext fun w => ?_)
  rw [mem_saturated (ha.leftJoin hb)]
  have joined : w.represent ∈ (a.join b).rows ↔ w ∈ (a.saturated.join b.saturated).rows := by
    rw [← mem_saturated (ha.join hb), saturated_join ha hb]
  exact or_congr joined (mem_unmatched_saturated_iff ha hb).symm

theorem saturated_rightJoin (ha : a.Canonical) (hb : b.Canonical) :
    (a.rightJoin b).saturated = a.saturated.rightJoin b.saturated := by
  have mirrored : (b.leftJoin a).saturated.rows = (b.saturated.leftJoin a.saturated).rows := by
    rw [saturated_leftJoin hb ha]
  exact Extent.ext rfl mirrored

theorem saturated_fullJoin (ha : a.Canonical) (hb : b.Canonical) :
    (a.fullJoin b).saturated = a.saturated.fullJoin b.saturated := by
  have right : (a.rightJoin b).Canonical := hb.leftJoin ha
  rw [fullJoin, saturated_union (ha.leftJoin hb) right, saturated_leftJoin ha hb, saturated_rightJoin ha hb]
  rfl

theorem saturated_division (ha : a.Canonical) (hb : b.Canonical) :
    (a.division b).saturated = a.saturated.division b.saturated := by
  have candidates := ha.project (a.attributes \ b.attributes)
  have missing : (((a.project (a.attributes \ b.attributes)).join b).difference a).Canonical :=
    (candidates.join hb).subset Set.sdiff_subset
  rw [division, saturated_difference candidates (missing.project _), saturated_project missing,
    saturated_difference (candidates.join hb) ha, saturated_join candidates hb, saturated_project ha]
  rfl

/-- Each operator sees no more of cells than how they compare. -/
theorem saturated_apply (op : Query.Binary) (ha : a.Canonical) (hb : b.Canonical) :
    (a.apply op b).saturated = a.saturated.apply op b.saturated := by
  cases op with
  | product | join => exact saturated_join ha hb
  | difference => exact saturated_difference ha hb
  | union => exact saturated_union ha hb
  | intersection => exact saturated_intersection ha hb
  | division => exact saturated_division ha hb
  | leftJoin => exact saturated_leftJoin ha hb
  | rightJoin => exact saturated_rightJoin ha hb
  | fullJoin => exact saturated_fullJoin ha hb

def Fits (op : Query.Binary) (a b : Extent) : Prop :=
  match op with
  | .product => ∀ n ∈ a.attributes, n ∉ b.attributes
  | .union | .intersection | .difference => a.attributes = b.attributes
  | .division => b.attributes ⊆ a.attributes ∧ (a.attributes \ b.attributes).Nonempty
  | .join | .leftJoin | .rightJoin | .fullJoin => True

end Extent

/-! ## The contents of a relation -/

theorem cell?_map (names : List String) (row : Row) (f : Cell → Cell) (name : String) :
    cell? names (row.map f) name = (cell? names row name).map f := by
  rw [cell?, cell?]
  cases lastPlace? name names with
  | none => rfl
  | some i => exact List.getElem?_map

namespace Relation

variable {a b p q r : Relation} {e f : Extent}

def contents (r : Relation) : Extent := r.extent.saturated

theorem canonical_represented (r : Relation) : r.represented.extent.Canonical := by
  rintro w ⟨row, hrow, rfl⟩
  obtain ⟨row, -, rfl⟩ := List.mem_map.mp hrow
  have represented : cell? r.names (row.map Cell.representative) =
      Assignment.represent (cell? r.names row) := funext (cell?_map r.names row _)
  change Assignment.represent (cell? r.names (row.map Cell.representative)) =
    cell? r.names (row.map Cell.representative)
  rw [represented, Assignment.represent_represent]

theorem contents_eq (r : Relation) : r.contents = r.represented.extent.saturated := by
  refine Extent.ext rfl (Set.ext fun w => ?_)
  rw [Extent.mem_saturated r.canonical_represented]
  have represented (row : Row) : cell? r.names (row.map Cell.representative) =
      Assignment.represent (cell? r.names row) := funext (cell?_map r.names row _)
  constructor
  · rintro ⟨_, ⟨row, hrow, rfl⟩, same⟩
    refine ⟨_, List.mem_map_of_mem hrow, ?_⟩
    rw [Assignment.same_iff_represent.mp same]
    exact (represented row).symm
  · rintro ⟨_, recoded, same⟩
    obtain ⟨row, hrow, rfl⟩ := List.mem_map.mp recoded
    exact ⟨cell? r.names row, ⟨row, hrow, rfl⟩,
      Assignment.same_iff_represent.mpr (same.trans (represented row))⟩

theorem proper_contents (h : r.WellFormed) : r.contents.Proper := by
  rintro w ⟨u, hu, same⟩
  rw [← Assignment.covers_represent, Assignment.same_iff_represent.mp same, Assignment.covers_represent]
  exact h.sound.proper u hu

theorem contents_apply {op : Query.Binary} (ha : a.WellFormed) (hb : b.WellFormed)
    (h : a.apply op b = .ok p) : p.WellFormed ∧ p.contents = a.contents.apply op b.contents := by
  obtain ⟨wellFormed, extent⟩ := represented_apply ha hb h
  refine ⟨wellFormed, ?_⟩
  rw [contents_eq, extent, Extent.saturated_apply op a.canonical_represented b.canonical_represented,
    ← contents_eq, ← contents_eq]

theorem contents_projection {names : List String} (hr : r.WellFormed) (h : r.projection names = .ok p) :
    p.WellFormed ∧ p.contents = r.contents.project {n | n ∈ names} := by
  obtain ⟨wellFormed, extent⟩ := represented_projection hr h
  refine ⟨wellFormed, ?_⟩
  rw [contents_eq, extent, Extent.saturated_project r.canonical_represented, ← contents_eq]

theorem equal_iff_contents_eq (ha : a.WellFormed) (hb : b.WellFormed) :
    a.equal b = true ↔ a.contents = b.contents := by
  rw [equal_iff_represented ha hb]
  constructor
  · intro h
    rw [contents_eq, contents_eq, h]
  · intro h
    rw [contents_eq, contents_eq] at h
    exact Extent.eq_of_saturated a.canonical_represented b.canonical_represented h

theorem exists_apply_iff_fits {op : Query.Binary} :
    (∃ p, a.apply op b = .ok p) ↔ a.contents.Fits op b.contents := by
  rw [exists_apply_iff]
  cases op with
  | product | join | leftJoin | rightJoin | fullJoin => exact Iff.rfl
  | union | intersection | difference => exact Set.ext_iff.symm
  | division => exact Iff.rfl

/-! ## Outcomes with known contents -/

-- Laws of relations are proved in two steps: `Gives.apply`, from the operands outwards, says which contents each
-- side has, and `Gives.coincide` leaves a law of extents.

/-- The outcome is a relation as it should be with these contents. -/
def Gives (x : Except SchemaFault Relation) (e : Extent) : Prop :=
  ∃ p, x = .ok p ∧ p.WellFormed ∧ p.contents = e

/-- Both outcomes are relations, which are equal. -/
def Coincide (x y : Except SchemaFault Relation) : Prop :=
  ∃ p q, x = .ok p ∧ y = .ok q ∧ p.equal q = true

variable {x y : Except SchemaFault Relation}

theorem Gives.self (h : r.WellFormed) : Gives (.ok r) r.contents := ⟨r, rfl, h, rfl⟩

theorem Gives.apply (op : Query.Binary) (hx : Gives x e) (hy : Gives y f) (fits : e.Fits op f) :
    Gives (do let a ← x; let b ← y; a.apply op b) (e.apply op f) := by
  obtain ⟨a, rfl, ha, rfl⟩ := hx
  obtain ⟨b, rfl, hb, rfl⟩ := hy
  obtain ⟨p, hp⟩ := exists_apply_iff_fits.mpr fits
  obtain ⟨wellFormed, contents⟩ := contents_apply ha hb hp
  exact ⟨p, hp, wellFormed, contents⟩

theorem Gives.projection {names : List String} (hx : Gives x e) (ne : names ≠ [])
    (sub : {n | n ∈ names} ⊆ e.attributes) :
    Gives (do (← x).projection names) (e.project {n | n ∈ names}) := by
  obtain ⟨r, rfl, hr, rfl⟩ := hx
  obtain ⟨p, hp⟩ := exists_projection_iff.mpr ⟨ne, sub⟩
  obtain ⟨wellFormed, contents⟩ := contents_projection hr hp
  exact ⟨p, hp, wellFormed, contents⟩

theorem Gives.coincide (hx : Gives x e) (hy : Gives y f) (same : e = f) : Coincide x y := by
  obtain ⟨p, rfl, hp, rfl⟩ := hx
  obtain ⟨q, rfl, hq, rfl⟩ := hy
  exact ⟨p, q, rfl, rfl, (equal_iff_contents_eq hp hq).mpr same⟩

end Relation

end RelationalAlgebra
