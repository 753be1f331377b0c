import RelationalAlgebra.Proofs.Query.Meaning
import RelationalAlgebra.Proofs.Relation.Laws
/-!
# Guards

A guard is what a plan promises of each of its selections: how the formula is related to the rows that it
is asked about.  A rewriting moves formulas to other rows, and a guard that the moves keep is an
invariant of the optimizer.  Three guards matter.  A formula is in scope if all its names are attributes;
it is stable if further cells do not change whether it holds; it is defined if it has a value.
-/

namespace RelationalAlgebra

open Predicate (Formula)

/-! ## The three guards -/

namespace Predicate.Formula

def Scoped (f : Formula) (e : Extent) : Prop := ∀ n ∈ f.mentioned, n ∈ e.attributes

/-- Cells under further names do not change whether a formula holds on a row. -/
def Stable (f : Formula) (e : Extent) : Prop :=
  ∀ w ∈ e.rows, ∀ w' : Assignment, w'.Extends w → f.holds w' = f.holds w

variable {f : Formula} {e : Extent}

theorem Scoped.stable (h : f.Scoped e) (proper : e.Proper) : f.Stable e := by
  intro w hw w' more
  exact holds_congr fun n hn => more.eq (proper w hw) (h n hn)

theorem Defined.stable (h : f.Defined e) : f.Stable e := by
  intro w hw w' more
  obtain ⟨b, hb⟩ := Option.isSome_iff_exists.mp (h w hw)
  rw [holds_of_truth? _ hb, holds_of_truth? _ (truth?_mono (fun n _ c hc => more n c hc) hb)]

end Predicate.Formula

/-! ## What rewritings ask of a guard -/

/-- A guard that selections keep when they are merged, combined and moved into renamings. -/
structure Guard (guard : Formula → Extent → Prop) : Prop where
  shrink {f : Formula} {e e' : Extent} :
    guard f e → e'.attributes = e.attributes → e'.rows ⊆ e.rows → guard f e'
  never {e : Extent} : guard (.literal (.bool false)) e
  conjunction {f g h : Formula} {e : Extent} :
    h.conjuncts = f.conjuncts ++ g.conjuncts → guard f e → guard g (e.select f) → guard h e
  disjunction {f g h : Formula} {e : Extent} :
    h.disjuncts = f.disjuncts ++ g.disjuncts → guard f e → guard g e → guard h e
  negation {f : Formula} {e : Extent} : guard f e → guard (.not f) e
  rename {f : Formula} {e : Extent} {image back : String → String} :
    e.Proper → Set.InjOn image e.attributes →
      (∀ n ∈ f.mentioned, Extent.Undoes image e.attributes (back n) n) →
      guard f (e.rename image) → guard (f.rename back) e

/-- A guard that selections keep when they move into an intersection or a difference. -/
def Spreads (guard : Formula → Extent → Prop) : Prop :=
  ∀ {op : Query.Binary} {f : Formula} {a b : Extent}, op = .intersection ∨ op = .difference →
    a.attributes = b.attributes → guard f (a.apply op b) → guard f a ∧ guard f b

/-- A guard that selections keep when they move into a projection, without a change to what they hold
on. -/
structure Widens (guard : Formula → Extent → Prop) : Prop where
  stable {f : Formula} {e : Extent} : e.Proper → guard f e → f.Stable e
  widen {f : Formula} {e : Extent} {names : Set String} :
    e.Proper → names ⊆ e.attributes → guard f (e.project names) → guard f e

/-- A guard that the conjuncts of a selection keep when they move into a join. -/
def Splits (guard : Formula → Extent → Prop) : Prop :=
  ∀ {f : Formula} {a b : Extent} {ls rs bs : List Formula}, a.Proper → b.Proper →
    (ls ++ rs ++ bs).Perm f.conjuncts → (∀ g ∈ ls, ∀ n ∈ g.mentioned, n ∈ a.attributes) →
    (∀ g ∈ rs, ∀ n ∈ g.mentioned, n ∈ b.attributes) → guard f (a.join b) →
      (∀ h : Formula, h.conjuncts = ls → guard h a) ∧ (∀ h : Formula, h.conjuncts = rs → guard h b) ∧
        ∀ h : Formula, h.conjuncts = bs → guard h ((a.selectAll ls).join (b.selectAll rs))

/-! ## No guard at all -/

theorem guard_trivial : Guard fun _ _ => True where
  shrink _ _ _ := trivial
  never := trivial
  conjunction _ _ _ := trivial
  disjunction _ _ _ := trivial
  negation _ := trivial
  rename _ _ _ _ := trivial

theorem spreads_trivial : Spreads fun _ _ => True := fun _ _ _ => ⟨trivial, trivial⟩

theorem splits_trivial : Splits fun _ _ => True :=
  fun _ _ _ _ _ _ => ⟨fun _ _ => trivial, fun _ _ => trivial, fun _ _ => trivial⟩

/-! ## Formulas in scope -/

section Scope

variable {f g h : Formula} {e : Extent}

theorem mentioned_of_conjuncts (conjuncts : h.conjuncts = f.conjuncts ++ g.conjuncts) :
    h.mentioned = f.mentioned ++ g.mentioned := by
  rw [Predicate.mentioned_conjuncts, conjuncts, List.flatMap_append, ← Predicate.mentioned_conjuncts,
    ← Predicate.mentioned_conjuncts]

theorem mentioned_of_disjuncts (disjuncts : h.disjuncts = f.disjuncts ++ g.disjuncts) :
    h.mentioned = f.mentioned ++ g.mentioned := by
  rw [Predicate.mentioned_disjuncts, disjuncts, List.flatMap_append, ← Predicate.mentioned_disjuncts,
    ← Predicate.mentioned_disjuncts]

theorem guard_scoped : Guard Formula.Scoped where
  shrink inScope attributes _ n hn := attributes ▸ inScope n hn
  never n hn := by cases hn
  conjunction conjuncts hf hg n hn := by
    rw [mentioned_of_conjuncts conjuncts, List.mem_append] at hn
    exact hn.elim (hf n) (hg n)
  disjunction disjuncts hf hg n hn := by
    rw [mentioned_of_disjuncts disjuncts, List.mem_append] at hn
    exact hn.elim (hf n) (hg n)
  negation inScope := inScope
  rename _ _ undoes inScope n hn := by
    rw [Predicate.Formula.mentioned_rename] at hn
    obtain ⟨m, hm, rfl⟩ := List.mem_map.mp hn
    exact ((undoes m hm).known (inScope m hm)).1

theorem spreads_scoped : Spreads Formula.Scoped := by
  rintro op f a b (rfl | rfl) same inScope
  · exact ⟨inScope, fun n hn => same ▸ inScope n hn⟩
  · exact ⟨inScope, fun n hn => same ▸ inScope n hn⟩

theorem widens_scoped : Widens Formula.Scoped where
  stable proper inScope := inScope.stable proper
  widen _ sub inScope n hn := sub (inScope n hn)

theorem scoped_of_conjuncts {fs : List Formula} (conjuncts : h.conjuncts = fs)
    (inside : ∀ f ∈ fs, ∀ n ∈ f.mentioned, n ∈ e.attributes) : h.Scoped e := by
  intro n hn
  rw [Predicate.mentioned_conjuncts, conjuncts] at hn
  obtain ⟨f, hf, hn⟩ := List.mem_flatMap.mp hn
  exact inside f hf n hn

theorem splits_scoped : Splits Formula.Scoped := by
  intro f a b ls rs bs _ _ all left right inScope
  refine ⟨fun h hh => scoped_of_conjuncts hh left, fun h hh => scoped_of_conjuncts hh right,
    fun h hh => scoped_of_conjuncts hh fun g hg n hn => inScope n ?_⟩
  rw [Predicate.mentioned_conjuncts]
  exact List.mem_flatMap.mpr ⟨g, all.mem_iff.mp (List.mem_append_right _ hg), hn⟩

end Scope

/-! ## Rows before and after a renaming -/

/-- A row before a renaming has under the names from before what some row after it has. -/
theorem exists_renamed_row {e : Extent} {image back : String → String} (proper : e.Proper)
    (injective : Set.InjOn image e.attributes) {u : Assignment} (hu : u ∈ e.rows) :
    ∃ w ∈ (e.rename image).rows,
      ∀ n, Extent.Undoes image e.attributes (back n) n → u (back n) = w n := by
  obtain ⟨w, hw, cell⟩ := Extent.exists_renamed proper injective hu
  refine ⟨w, hw, fun n undoes => ?_⟩
  by_cases hn : n ∈ image '' e.attributes
  · obtain ⟨known, same⟩ := undoes.known hn
    rw [← cell _ known, same]
  · rw [(proper u hu).eq_none (undoes.unknown hn), hw.1.eq_none hn]

/-! ## Defined formulas -/

theorem guard_defined : Guard Formula.Defined where
  shrink defined _ sub w hw := defined w (sub hw)
  never _ _ := rfl
  conjunction {f g h e} conjuncts hf hg w hw := by
    rw [Predicate.truth?_conjuncts, conjuncts, Predicate.allTruth?_append,
      ← Predicate.truth?_conjuncts, ← Predicate.truth?_conjuncts]
    obtain ⟨b, hb⟩ := Option.isSome_iff_exists.mp (hf w hw)
    rw [hb, Option.bind_some]
    cases b with
    | false => rfl
    | true => exact hg w ⟨hw, Predicate.holds_of_truth? _ hb⟩
  disjunction {f g h e} disjuncts hf hg w hw := by
    rw [Predicate.truth?_disjuncts, disjuncts, Predicate.anyTruth?_append,
      ← Predicate.truth?_disjuncts, ← Predicate.truth?_disjuncts]
    obtain ⟨b, hb⟩ := Option.isSome_iff_exists.mp (hf w hw)
    rw [hb, Option.bind_some]
    cases b with
    | false => exact hg w hw
    | true => rfl
  negation {f e} defined w hw := by
    rw [Predicate.truth?_not, Option.isSome_map]
    exact defined w hw
  rename {f e image back} proper injective undoes defined u hu := by
    obtain ⟨w, hw, cell⟩ := @exists_renamed_row e image back proper injective u hu
    have same : f.truth? (u ∘ back) = f.truth? w :=
      Predicate.truth?_congr fun n hn => cell n (undoes n hn)
    rw [Predicate.truth?_rename, same]
    exact defined w hw

theorem widens_defined : Widens Formula.Defined where
  stable _ defined := defined.stable
  widen {f e names} _ _ defined w hw := by
    obtain ⟨b, hb⟩ := Option.isSome_iff_exists.mp (defined _ ⟨w, hw, rfl⟩)
    have value : f.truth? w = some b :=
      Predicate.truth?_mono (fun n _ c hc => Assignment.extends_restrict w names n c hc) hb
    rw [value]
    rfl

end RelationalAlgebra
