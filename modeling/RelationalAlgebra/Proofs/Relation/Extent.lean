import Mathlib.Data.Set.Function
import Mathlib.Data.Set.Image
import RelationalAlgebra.Proofs.Predicate.Truth
import RelationalAlgebra.Proofs.Relation.Cells
import RelationalAlgebra.Proofs.Relation.Rows
import RelationalAlgebra.Relation.Algebra
/-!
# Extents

The extent of a relation is the set of its attributes and the set of its rows as assignments of cells to
attributes, in which neither columns nor rows have an order.  The operators of relational algebra are
operators on extents.  A selection of an extent keeps the rows on which its formula holds, and a part of a
formula without a value counts as false: no operator on extents fails.
-/

namespace RelationalAlgebra

open Predicate (Formula cell?)

/-! ## Assignments -/

/-- The cells of a row, by the names of their attributes. -/
abbrev Assignment := String → Option Cell

namespace Assignment

open Classical in
noncomputable def restrict (names : Set String) (w : Assignment) : Assignment := fun n =>
  if n ∈ names then w n else none

def Covers (names : Set String) (w : Assignment) : Prop := ∀ n, (w n).isSome = true ↔ n ∈ names

variable {w u : Assignment} {names others : Set String} {n : String}

theorem restrict_of_mem (h : n ∈ names) : w.restrict names n = w n := by
  rw [restrict, if_pos h]

theorem restrict_of_notMem (h : n ∉ names) : w.restrict names n = none := by
  rw [restrict, if_neg h]

theorem Covers.eq_none (h : w.Covers names) (hn : n ∉ names) : w n = none := by
  have := mt (h n).mp hn
  simpa using this

theorem covers_restrict (h : w.Covers names) (sub : others ⊆ names) :
    (w.restrict others).Covers others := by
  intro n
  by_cases hn : n ∈ others
  · rw [restrict_of_mem hn]
    exact ⟨fun _ => hn, fun _ => (h n).mpr (sub hn)⟩
  · rw [restrict_of_notMem hn]
    simp [hn]

theorem restrict_eq_iff (h : u.Covers names) : w.restrict names = u ↔ ∀ n ∈ names, w n = u n := by
  constructor
  · rintro rfl n hn
    exact (restrict_of_mem hn).symm
  · intro same
    funext n
    by_cases hn : n ∈ names
    · rw [restrict_of_mem hn, same n hn]
    · rw [restrict_of_notMem hn, h.eq_none hn]

theorem Covers.restrict_self (h : w.Covers names) : w.restrict names = w :=
  (restrict_eq_iff h).mpr fun _ _ => rfl

theorem restrict_restrict (sub : others ⊆ names) :
    (w.restrict names).restrict others = w.restrict others := by
  funext n
  by_cases hn : n ∈ others
  · rw [restrict_of_mem hn, restrict_of_mem hn, restrict_of_mem (sub hn)]
  · rw [restrict_of_notMem hn, restrict_of_notMem hn]

def Extends (w' w : Assignment) : Prop := ∀ n c, w n = some c → w' n = some c

theorem Extends.refl (w : Assignment) : w.Extends w := fun _ _ hc => hc

theorem Extends.trans {w'' w' : Assignment} (h' : w''.Extends w') (h : w'.Extends w) : w''.Extends w :=
  fun n c hc => h' n c (h n c hc)

theorem extends_restrict (w : Assignment) (names : Set String) : w.Extends (w.restrict names) := by
  intro n c hc
  by_cases hn : n ∈ names
  · rwa [restrict_of_mem hn] at hc
  · rw [restrict_of_notMem hn] at hc
    cases hc

theorem Extends.eq {w' : Assignment} (h : w'.Extends w) (covers : w.Covers names) (hn : n ∈ names) :
    w' n = w n := by
  obtain ⟨c, hc⟩ := Option.isSome_iff_exists.mp ((covers n).mpr hn)
  rw [hc, h n c hc]

theorem Covers.ext (hw : w.Covers names) (hu : u.Covers names) (same : ∀ n ∈ names, w n = u n) :
    w = u := by
  rw [← hw.restrict_self, (restrict_eq_iff hu).mpr same]

end Assignment

/-! ## Extents and their operators -/

@[ext]
structure Extent where
  attributes : Set String
  rows : Set Assignment

namespace Extent

/-- Every row has cells under exactly the attributes. -/
def Proper (e : Extent) : Prop := ∀ w ∈ e.rows, w.Covers e.attributes

def select (f : Formula) (e : Extent) : Extent := ⟨e.attributes, {w ∈ e.rows | f.holds w = true}⟩

noncomputable def project (names : Set String) (e : Extent) : Extent :=
  ⟨names, Assignment.restrict names '' e.rows⟩

noncomputable def rename (image : String → String) (e : Extent) : Extent :=
  ⟨image '' e.attributes,
    {w | w.Covers (image '' e.attributes) ∧ Assignment.restrict e.attributes (w ∘ image) ∈ e.rows}⟩

def union (a b : Extent) : Extent := ⟨a.attributes, a.rows ∪ b.rows⟩

def intersection (a b : Extent) : Extent := ⟨a.attributes, a.rows ∩ b.rows⟩

def difference (a b : Extent) : Extent := ⟨a.attributes, a.rows \ b.rows⟩

/-- The rows whose parts are rows of both. -/
noncomputable def join (a b : Extent) : Extent :=
  ⟨a.attributes ∪ b.attributes,
    {w | w.Covers (a.attributes ∪ b.attributes) ∧ w.restrict a.attributes ∈ a.rows ∧
      w.restrict b.attributes ∈ b.rows}⟩

noncomputable def division (a b : Extent) : Extent :=
  let candidates := a.project (a.attributes \ b.attributes)
  let missing := (candidates.join b).difference a
  candidates.difference (missing.project (a.attributes \ b.attributes))

/-- The rows of the left extent that match no row of the right one, filled up. -/
def unmatched (a b : Extent) : Set Assignment :=
  {w | w.Covers (a.attributes ∪ b.attributes) ∧ w.restrict a.attributes ∈ a.rows ∧
    (∀ u ∈ b.rows, ∃ n ∈ a.attributes ∩ b.attributes, w n ≠ u n) ∧
    ∀ n ∈ b.attributes \ a.attributes, w n = some Relation.padding}

noncomputable def leftJoin (a b : Extent) : Extent :=
  ⟨a.attributes ∪ b.attributes, (a.join b).rows ∪ unmatched a b⟩

noncomputable def rightJoin (a b : Extent) : Extent :=
  ⟨a.attributes ∪ b.attributes, (b.leftJoin a).rows⟩

noncomputable def fullJoin (a b : Extent) : Extent := (a.leftJoin b).union (a.rightJoin b)

noncomputable def apply (op : Query.Binary) (a b : Extent) : Extent :=
  match op with
  | .product | .join => a.join b
  | .difference => a.difference b
  | .union => a.union b
  | .intersection => a.intersection b
  | .division => a.division b
  | .leftJoin => a.leftJoin b
  | .rightJoin => a.rightJoin b
  | .fullJoin => a.fullJoin b

end Extent

/-! ## The extent of a relation -/

def Rows.assignments (names : List String) (rows : List Row) : Set Assignment :=
  {w | ∃ row ∈ rows, w = cell? names row}

namespace Relation

def attributes (r : Relation) : Set String := {n | n ∈ r.names}

def extent (r : Relation) : Extent := ⟨r.attributes, Rows.assignments r.names r.rows⟩

/-- A relation as it should be, all cells of which are from a set. -/
structure Sound (cells : Set Cell) (r : Relation) : Prop where
  wellFormed : r.WellFormed
  inside : Rows.Over cells r.rows

end Relation

end RelationalAlgebra
