import Mathlib.Data.List.Dedup
import RelationalAlgebra.Proofs.Program.Running
/-!
# Ordered steps

A list of steps is ordered when each step applies one operator to leaves of a query and to names of earlier
steps, and no expression occurs twice.  Different names then stand for different queries, so there is one
step for each query that is defined, and the steps run if all of these queries evaluate.
-/

namespace RelationalAlgebra.Program

open Query (Unary Binary Tree)

/-- One operator over known names. -/
inductive OneOperator (known : String → Prop) : Tree → Prop
  | unary (op : Unary) (parameter : String) {n : String} :
    known n → OneOperator known (.unary op parameter (.relation n))
  | binary (op : Binary) {m n : String} :
    known m → known n → OneOperator known (.binary op (.relation m) (.relation n))

theorem OneOperator.imp {known known' : String → Prop} {e : Tree} (h : OneOperator known e)
    (imp : ∀ n, known n → known' n) : OneOperator known' e := by
  cases h with
  | unary op parameter hn => exact .unary op parameter (imp _ hn)
  | binary op hm hn => exact .binary op (imp _ hm) (imp _ hn)

theorem OneOperator.known_of_mem_leaves {known : String → Prop} {e : Tree} (h : OneOperator known e)
    {n : String} (hn : n ∈ e.leaves) : known n := by
  cases h with
  | unary op parameter hm => exact List.mem_singleton.mp hn ▸ hm
  | binary op hl hr =>
    rcases List.mem_cons.mp hn with rfl | hn
    · exact hl
    · exact List.mem_singleton.mp hn ▸ hr

def Known (leaves : List String) (steps : List Step) (n : String) : Prop :=
  n ∈ leaves ∨ n ∈ steps.map Step.name

theorem Known.append {leaves : List String} {steps : List Step} {n : String} (h : Known leaves steps n)
    (s : Step) : Known leaves (steps ++ [s]) n := by
  refine h.imp_right fun hn => ?_
  rw [List.map_append]
  exact List.mem_append_left _ hn

inductive Ordered (leaves : List String) : List Step → Prop
  | nil : Ordered leaves []
  | snoc {steps : List Step} {s : Step} : Ordered leaves steps →
    OneOperator (Known leaves steps) s.expression → ¬Known leaves steps s.name →
    (∀ s' ∈ steps, s'.expression ≠ s.expression) → Ordered leaves (steps ++ [s])

namespace Ordered

variable {leaves : List String} {steps : List Step}

theorem get?_definitions_isSome (h : Ordered leaves steps) {n : String} :
    (∃ u, (definitions steps).get? n = some u) ↔ n ∈ steps.map Step.name := by
  induction h with
  | nil => simp [definitions, Name.Map.get?_empty]
  | @snoc steps s _ _ _ _ ih =>
    rw [definitions_append, Name.Map.get?_insert, List.map_append, List.mem_append, ← ih]
    by_cases same : n = s.name <;> simp [same]

theorem inline_leaf (h : Ordered leaves steps) {n : String} (hn : n ∈ leaves) :
    inline (definitions steps) (.relation n) = .relation n := by
  have undefined : (definitions steps).get? n = none := by
    induction h with
    | nil => rfl
    | @snoc steps s _ _ new _ ih =>
      have ne : n ≠ s.name := fun same => new (.inl (same ▸ hn))
      rw [definitions_append, Name.Map.get?_insert, if_neg ne, ih]
  rw [inline, undefined, Option.getD_none]

/-- What a step defines is an operator, and it is what its expression stands for. -/
theorem get?_definitions (h : Ordered leaves steps) {s : Step} (hs : s ∈ steps) :
    OneOperator (Known leaves steps) s.expression ∧
      (definitions steps).get? s.name = some (inline (definitions steps) s.expression) := by
  induction h with
  | nil => cases hs
  | @snoc steps last _ one new _ ih =>
    -- the expressions before do not have the new name
    have unchanged {e : Tree} (he : OneOperator (Known leaves steps) e) :
        inline (definitions (steps ++ [last])) e = inline (definitions steps) e := by
      rw [definitions_append]
      exact inline_insert _ fun mem => new (he.known_of_mem_leaves mem)
    rcases List.mem_append.mp hs with hs | hs
    · obtain ⟨earlier, defined⟩ := ih hs
      have ne : s.name ≠ last.name := fun same =>
        new (.inr (same ▸ List.mem_map_of_mem hs))
      refine ⟨earlier.imp fun n hn => hn.append last, ?_⟩
      rw [unchanged earlier, definitions_append, Name.Map.get?_insert, if_neg ne, defined]
    · obtain rfl := List.mem_singleton.mp hs
      refine ⟨one.imp fun n hn => hn.append s, ?_⟩
      rw [unchanged one, definitions_append, Name.Map.get?_insert, if_pos rfl]

theorem get?_definitions_iff (h : Ordered leaves steps) {n : String} {u : Tree} :
    (definitions steps).get? n = some u ↔
      ∃ s ∈ steps, s.name = n ∧ inline (definitions steps) s.expression = u := by
  constructor
  · intro hu
    obtain ⟨s, hs, rfl⟩ := List.mem_map.mp (h.get?_definitions_isSome.mp ⟨u, hu⟩)
    exact ⟨s, hs, rfl, Option.some.inj ((h.get?_definitions hs).2.symm.trans hu)⟩
  · rintro ⟨s, hs, rfl, rfl⟩
    exact (h.get?_definitions hs).2

theorem ne_relation_of_get? (h : Ordered leaves steps) {m n : String} {u : Tree}
    (hu : (definitions steps).get? n = some u) : u ≠ .relation m := by
  obtain ⟨s, hs, -, rfl⟩ := h.get?_definitions_iff.mp hu
  have one := (h.get?_definitions hs).1
  generalize s.expression = e at one ⊢
  cases one with
  | unary op parameter => exact Tree.noConfusion
  | binary op => exact Tree.noConfusion

/-- Known names that stand for the same query are the same, if no two steps define one query. -/
theorem known_inj (h : Ordered leaves steps)
    (inj : ∀ {m n u}, (definitions steps).get? m = some u → (definitions steps).get? n = some u → m = n)
    {m n : String} (hm : Known leaves steps m) (hn : Known leaves steps n)
    (same : inline (definitions steps) (.relation m) = inline (definitions steps) (.relation n)) :
    m = n := by
  have defined {k : String} (hk : k ∈ steps.map Step.name) :
      (definitions steps).get? k = some (inline (definitions steps) (.relation k)) := by
    obtain ⟨u, hu⟩ := h.get?_definitions_isSome.mpr hk
    rw [inline, hu, Option.getD_some]
  rcases hm with hm | hm
  · rw [h.inline_leaf hm] at same
    rcases hn with hn | hn
    · rw [h.inline_leaf hn] at same
      exact Tree.relation.inj same
    · exact absurd same.symm (h.ne_relation_of_get? (defined hn))
  · rcases hn with hn | hn
    · rw [h.inline_leaf hn] at same
      exact absurd same (h.ne_relation_of_get? (defined hm))
    · exact inj (defined hm) (same ▸ defined hn)

theorem expression_inj (h : Ordered leaves steps)
    (inj : ∀ {m n u}, (definitions steps).get? m = some u → (definitions steps).get? n = some u → m = n)
    {e e' : Tree} (he : OneOperator (Known leaves steps) e) (he' : OneOperator (Known leaves steps) e')
    (same : inline (definitions steps) e = inline (definitions steps) e') : e = e' := by
  cases he with
  | unary op parameter hm =>
    cases he' with
    | unary op' parameter' hn =>
      obtain ⟨rfl, rfl, operand⟩ := Tree.unary.inj same
      rw [h.known_inj inj hm hn operand]
    | binary op' hl hr => cases same
  | binary op hm hn =>
    cases he' with
    | unary op' parameter' hn => cases same
    | binary op' hm' hn' =>
      obtain ⟨rfl, left, right⟩ := Tree.binary.inj same
      rw [h.known_inj inj hm hm' left, h.known_inj inj hn hn' right]

/-- Different steps define different queries. -/
theorem definitions_inj (h : Ordered leaves steps) {m n : String} {u : Tree}
    (hm : (definitions steps).get? m = some u) (hn : (definitions steps).get? n = some u) : m = n := by
  induction h generalizing m n u with
  | nil => cases hm
  | @snoc steps s before one new unlike ih =>
    -- a step that defines the same query has the same expression, and no step before has that
    have differ {k : String} (hk : (definitions steps).get? k =
        some (inline (definitions steps) s.expression)) : False := by
      obtain ⟨s', hs', -, same⟩ := before.get?_definitions_iff.mp hk
      exact unlike s' hs' (before.expression_inj ih (before.get?_definitions hs').1 one same)
    rw [definitions_append, Name.Map.get?_insert] at hm hn
    split at hm
    · next hms =>
      split at hn
      · next hns => rw [hms, hns]
      · exact (differ (Option.some.inj hm ▸ hn)).elim
    · split at hn
      · exact (differ (Option.some.inj hn ▸ hm)).elim
      · exact ih hm hn

theorem nodup_names (h : Ordered leaves steps) : (steps.map Step.name).Nodup := by
  induction h with
  | nil => exact List.nodup_nil
  | @snoc steps s _ _ new _ ih =>
    rw [List.map_append]
    refine List.nodup_append.mpr ⟨ih, List.nodup_singleton _, ?_⟩
    rintro n hn m hm rfl
    exact new (.inr (List.mem_singleton.mp hm ▸ hn))

/-- Each step has one operator over leaves and the names before it. -/
theorem oneOperator (h : Ordered leaves steps) {init rest : List Step} {s : Step}
    (split : steps = init ++ s :: rest) : OneOperator (Known leaves init) s.expression := by
  induction h generalizing rest with
  | nil => cases init <;> cases split
  | @snoc steps last _ one _ _ ih =>
    rcases List.eq_nil_or_concat rest with rfl | ⟨rest, other, rfl⟩
    · obtain ⟨rfl, same⟩ := List.append_inj' split rfl
      obtain rfl := List.singleton_inj.mp same
      exact one
    · rw [List.concat_eq_append, ← List.cons_append, ← List.append_assoc] at split
      exact ih (List.append_inj' split rfl).1

end Ordered

def Defines (steps : List Step) (u : Tree) : Prop := ∃ n, (definitions steps).get? n = some u

theorem defines_append {leaves : List String} {steps : List Step} (h : Ordered leaves steps) {s : Step}
    (new : s.name ∉ steps.map Step.name) {u : Tree} : Defines (steps ++ [s]) u ↔
      Defines steps u ∨ u = inline (definitions steps) s.expression := by
  unfold Defines
  rw [definitions_append]
  simp only [Name.Map.get?_insert]
  constructor
  · rintro ⟨n, hn⟩
    split at hn
    · exact .inr (Option.some.inj hn).symm
    · exact .inl ⟨n, hn⟩
  · rintro (⟨n, hn⟩ | rfl)
    · have ne : n ≠ s.name := fun same => new (same ▸ h.get?_definitions_isSome.mp ⟨u, hn⟩)
      exact ⟨n, by rw [if_neg ne, hn]⟩
    · exact ⟨s.name, by rw [if_pos rfl]⟩

namespace Ordered

variable {leaves : List String} {steps : List Step}

theorem length_eq (h : Ordered leaves steps) {queries : List Tree} (nodup : queries.Nodup)
    (defines : ∀ u, Defines steps u ↔ u ∈ queries) : steps.length = queries.length := by
  have nodup' : (steps.map fun s => inline (definitions steps) s.expression).Nodup := by
    refine List.Nodup.map_on (fun s hs s' hs' same => ?_) (List.Nodup.of_map _ h.nodup_names)
    have names := h.definitions_inj (h.get?_definitions hs).2 (same ▸ (h.get?_definitions hs').2)
    exact List.inj_on_of_nodup_map h.nodup_names hs hs' names
  have perm := (List.perm_ext_iff_of_nodup nodup' nodup).mpr fun u => by
    rw [← defines, List.mem_map]
    constructor
    · rintro ⟨s, hs, rfl⟩
      exact ⟨s.name, (h.get?_definitions hs).2⟩
    · rintro ⟨n, hn⟩
      obtain ⟨s, hs, -, same⟩ := h.get?_definitions_iff.mp hn
      exact ⟨s, hs, same⟩
  rw [← perm.length_eq, List.length_map]

/-- Ordered steps run if all that they define evaluates. -/
theorem exists_run_iff (h : Ordered leaves steps) (valid : ∀ s ∈ steps, Name.isValid s.name = true)
    {env : Environment} : (∃ env', run env steps = .ok env') ↔
      ∀ u, Defines steps u → ∃ r, u.eval env = .ok r := by
  induction h with
  | nil => exact iff_of_true ⟨env, rfl⟩ fun u ⟨n, hn⟩ => nomatch hn
  | @snoc steps s before _ new _ ih =>
    have earlier := ih fun s hs => valid s (List.mem_append_left _ hs)
    have named := valid s (List.mem_append_right _ (List.mem_singleton_self s))
    have defines (u : Tree) := @defines_append leaves steps before s (fun mem => new (.inr mem)) u
    simp only [defines]
    constructor
    · rintro ⟨env', ran⟩ u (hu | rfl)
      · obtain ⟨env₁, -, ran, -⟩ := run_append_iff.mp ran
        exact earlier.mp ⟨env₁, ran⟩ u hu
      · obtain ⟨env₁, r, ran, hr, -⟩ := run_append_iff.mp ran
        exact ⟨r, (binds_of_run ran).eval_eq_ok.mp hr⟩
    · intro all
      obtain ⟨env₁, ran⟩ := earlier.mpr fun u hu => all u (.inl hu)
      obtain ⟨r, hr⟩ := all _ (.inr rfl)
      exact ⟨_, run_append_iff.mpr ⟨env₁, r, ran, (binds_of_run ran).eval_eq_ok.mpr hr, named, rfl⟩⟩

end Ordered

end RelationalAlgebra.Program
