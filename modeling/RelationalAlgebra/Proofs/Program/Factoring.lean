import RelationalAlgebra.Proofs.Program.Names
import RelationalAlgebra.Proofs.Program.Ordered
/-!
# Splitting a query changes nothing

Splitting a query keeps its steps ordered, with names that are neither bound nor used, and defines the
operators of the query and nothing else.  No part of a query is the query itself, so its step comes last and
computes it.
-/

namespace RelationalAlgebra.Program

open Query (Unary Binary Tree)

/-! ## Drafts -/

/-- The steps of a draft are ordered, and their names have numbers below the next one and are not
avoided. -/
structure Draft.Sound (avoid leaves : List String) (d : Draft) : Prop where
  ordered : Ordered leaves d.steps
  numbered : ∀ s ∈ d.steps, ∃ n < d.next, s.name = stepName n
  avoids : ∀ s ∈ d.steps, s.name ∉ avoid

/-- From one draft to another, some queries are defined, and known names stand for what they did. -/
structure Draft.Adds (avoid leaves : List String) (queries : List Tree) (d d' : Draft) : Prop where
  sound : d'.Sound avoid leaves
  known : ∀ n, Known leaves d.steps n → Known leaves d'.steps n
  keeps : ∀ n, Known leaves d.steps n → inline (definitions d'.steps) (.relation n) =
    inline (definitions d.steps) (.relation n)
  defines : ∀ u, Defines d'.steps u ↔ Defines d.steps u ∨ u ∈ queries

namespace Draft

variable {avoid leaves : List String} {d d' d'' : Draft}

theorem Adds.refl (sound : d.Sound avoid leaves) : Adds avoid leaves [] d d :=
  ⟨sound, fun _ hn => hn, fun _ _ => rfl, fun u => by simp⟩

theorem Adds.trans {queries queries' : List Tree} (first : Adds avoid leaves queries d d')
    (second : Adds avoid leaves queries' d' d'') : Adds avoid leaves (queries ++ queries') d d'' where
  sound := second.sound
  known n hn := second.known n (first.known n hn)
  keeps n hn := (second.keeps n (first.known n hn)).trans (first.keeps n hn)
  defines u := by rw [second.defines, first.defines, List.mem_append, or_assoc]

theorem sound_start : Sound avoid leaves ⟨[], 0⟩ :=
  ⟨.nil, fun _ hs => (nomatch hs), fun _ hs => (nomatch hs)⟩

def push (avoid : List String) (d : Draft) (expression : Tree) : Draft :=
  let n := freshNumber avoid d.next
  ⟨d.steps ++ [⟨stepName n, expression⟩], n + 1⟩

theorem name_of_new {e : Tree} (unlike : ∀ s ∈ d.steps, s.expression ≠ e) :
    d.name avoid e = (stepName (freshNumber avoid d.next), d.push avoid e) := by
  have absent : (d.steps.find? fun s => s.expression = e) = none := by
    refine List.find?_eq_none.mpr fun s hs => ?_
    simpa using unlike s hs
  rw [name, absent]
  rfl

theorem Sound.push_new (sub : ∀ n ∈ leaves, n ∈ avoid) (sound : d.Sound avoid leaves) :
    ¬Known leaves d.steps (stepName (freshNumber avoid d.next)) := by
  obtain ⟨after, free⟩ := freshNumber_spec avoid d.next
  rintro (mem | mem)
  · exact free (sub _ mem)
  · obtain ⟨s, hs, same⟩ := List.mem_map.mp mem
    obtain ⟨k, below, numbered⟩ := sound.numbered s hs
    have := stepName_injective (numbered.symm.trans same)
    omega

theorem adds_push (sub : ∀ n ∈ leaves, n ∈ avoid) (sound : d.Sound avoid leaves) {e : Tree}
    (one : OneOperator (Known leaves d.steps) e) (unlike : ∀ s ∈ d.steps, s.expression ≠ e) :
    Adds avoid leaves [inline (definitions d.steps) e] d (d.push avoid e) := by
  obtain ⟨after, free⟩ := freshNumber_spec avoid d.next
  have new := sound.push_new sub
  refine ⟨⟨.snoc sound.ordered one new unlike, fun s hs => ?_, fun s hs => ?_⟩, fun n hn => hn.append _,
    fun n hn => ?_, fun u => ?_⟩
  · rcases List.mem_append.mp hs with hs | hs
    · obtain ⟨k, below, numbered⟩ := sound.numbered s hs
      exact ⟨k, show k < freshNumber avoid d.next + 1 by omega, numbered⟩
    · obtain rfl := List.mem_singleton.mp hs
      exact ⟨_, Nat.lt_succ_self _, rfl⟩
  · rcases List.mem_append.mp hs with hs | hs
    · exact sound.avoids s hs
    · obtain rfl := List.mem_singleton.mp hs
      exact free
  · rw [push, definitions_append]
    refine inline_insert _ fun mem => new ?_
    have same : stepName (freshNumber avoid d.next) = n := List.mem_singleton.mp mem
    rwa [same]
  · rw [push, defines_append sound.ordered fun mem => new (.inr mem), List.mem_singleton]

theorem name_spec (sub : ∀ n ∈ leaves, n ∈ avoid) (sound : d.Sound avoid leaves) {e : Tree}
    (one : OneOperator (Known leaves d.steps) e) : ∃ n d', d.name avoid e = (n, d') ∧
      Adds avoid leaves [inline (definitions d.steps) e] d d' ∧ n ∈ d'.steps.map Step.name ∧
      inline (definitions d'.steps) (.relation n) = inline (definitions d.steps) e := by
  cases found : d.steps.find? fun s => s.expression = e with
  | some s =>
    obtain rfl : s.expression = e := by simpa using List.find?_some found
    have hs := List.mem_of_find?_eq_some found
    have defined := (sound.ordered.get?_definitions hs).2
    have named : d.name avoid s.expression = (s.name, d) := by rw [name, found]
    refine ⟨s.name, d, named, ⟨sound, fun _ hn => hn, fun _ _ => rfl, fun u => ?_⟩, List.mem_map_of_mem hs, ?_⟩
    · rw [List.mem_singleton]
      exact ⟨.inl, fun hu => hu.elim id fun hu => ⟨s.name, hu ▸ defined⟩⟩
    · rw [inline, defined, Option.getD_some]
  | none =>
    have unlike : ∀ s ∈ d.steps, s.expression ≠ e := fun s hs => by
      simpa using List.find?_eq_none.mp found s hs
    refine ⟨_, _, name_of_new unlike, adds_push sub sound one unlike, ?_, ?_⟩
    · simp [push]
    · rw [push, inline, definitions_append, Name.Map.get?_insert, if_pos rfl, Option.getD_some]

/-- A visit defines the operators of a tree, and its leaf stands for the tree. -/
theorem visit_spec (sub : ∀ n ∈ leaves, n ∈ avoid) (sound : d.Sound avoid leaves) {t : Tree}
    (inside : ∀ n ∈ t.leaves, n ∈ leaves) : ∃ n d', d.visit avoid t = (.relation n, d') ∧
      Adds avoid leaves t.operations d d' ∧ Known leaves d'.steps n ∧
      inline (definitions d'.steps) (.relation n) = t := by
  -- what a name stands for is kept by the steps that follow, so both operands stand for what they did
  induction t generalizing d with
  | relation name =>
    have leaf : name ∈ leaves := inside name (List.mem_singleton_self name)
    exact ⟨name, d, rfl, .refl sound, .inl leaf, sound.ordered.inline_leaf leaf⟩
  | unary op parameter operand ih =>
    obtain ⟨n, d₁, visited, adds, known, stands⟩ := ih sound inside
    obtain ⟨name, d₂, named, adds', mem, stands'⟩ :=
      name_spec sub adds.sound (.unary op parameter known)
    rw [inline, stands] at adds' stands'
    refine ⟨name, d₂, ?_, adds.trans adds', .inr mem, stands'⟩
    rw [visit, visited]
    simp only [named]
  | binary op left right ihl ihr =>
    obtain ⟨m, d₁, visitedLeft, addsLeft, knownLeft, standsLeft⟩ :=
      ihl sound fun n hn => inside n (List.mem_append_left _ hn)
    obtain ⟨n, d₂, visitedRight, addsRight, knownRight, standsRight⟩ :=
      ihr addsLeft.sound fun n hn => inside n (List.mem_append_right _ hn)
    have standsLeft' := (addsRight.keeps m knownLeft).trans standsLeft
    obtain ⟨name, d₃, named, adds', mem, stands'⟩ := name_spec sub addsRight.sound
      (.binary op (addsRight.known m knownLeft) knownRight)
    rw [inline, standsLeft', standsRight] at adds' stands'
    refine ⟨name, d₃, ?_, (addsLeft.trans addsRight).trans adds', .inr mem, stands'⟩
    rw [visit, visitedLeft]
    simp only [visitedRight, named]

theorem not_defines_start (u : Tree) : ¬Defines [] u := fun ⟨_, hu⟩ => nomatch hu

theorem name_of_undefined (sound : d.Sound avoid leaves) {e : Tree}
    (undefined : ¬Defines d.steps (inline (definitions d.steps) e)) :
    (d.name avoid e).2 = d.push avoid e := by
  rw [name_of_new]
  rintro s hs rfl
  exact undefined ⟨s.name, (sound.ordered.get?_definitions hs).2⟩

/-- No part of a query is the query itself, so the last step that is added stands for it. -/
theorem visit_start (sub : ∀ n ∈ leaves, n ∈ avoid) {t : Tree} (inside : ∀ n ∈ t.leaves, n ∈ leaves)
    (operator : ∀ n, t ≠ .relation n) : ∃ (d : Draft) (e : Tree),
      (visit avoid ⟨[], 0⟩ t).2 = d.push avoid e ∧ inline (definitions d.steps) e = t := by
  cases t with
  | relation name => exact absurd rfl (operator name)
  | unary op parameter operand =>
    obtain ⟨n, d, visited, adds, known, stands⟩ := @visit_spec avoid leaves ⟨[], 0⟩ sub sound_start
      operand inside
    have whole : inline (definitions d.steps) (.unary op parameter (.relation n)) =
        .unary op parameter operand := by
      rw [inline, stands]
    refine ⟨d, _, ?_, whole⟩
    rw [← name_of_undefined adds.sound, visit, visited]
    -- a part is smaller than the whole, so no step defines it yet
    rw [whole, adds.defines]
    rintro (defined | part)
    · exact not_defines_start _ defined
    · have le := Tree.sizeOf_le_of_mem_operations part
      rw [Tree.unary.sizeOf_spec] at le
      omega
  | binary op left right =>
    obtain ⟨m, d₁, visitedLeft, addsLeft, knownLeft, standsLeft⟩ := @visit_spec avoid leaves ⟨[], 0⟩
      sub sound_start left fun n hn => inside n (List.mem_append_left _ hn)
    obtain ⟨n, d₂, visitedRight, addsRight, knownRight, standsRight⟩ :=
      visit_spec sub addsLeft.sound fun n hn => inside n (List.mem_append_right _ hn)
    have whole : inline (definitions d₂.steps) (.binary op (.relation m) (.relation n)) =
        .binary op left right := by
      rw [inline, addsRight.keeps m knownLeft, standsLeft, standsRight]
    refine ⟨d₂, _, ?_, whole⟩
    rw [← name_of_undefined addsRight.sound, visit, visitedLeft]
    · simp only [visitedRight]
    rw [whole, (addsLeft.trans addsRight).defines, List.mem_append]
    rintro (defined | part | part)
    · exact not_defines_start _ defined
    · have le := Tree.sizeOf_le_of_mem_operations part
      rw [Tree.binary.sizeOf_spec] at le
      omega
    · have le := Tree.sizeOf_le_of_mem_operations part
      rw [Tree.binary.sizeOf_spec] at le
      omega

end Draft

/-! ## Programs of queries -/

/-- A program computes a query step by step. -/
structure Factors (env : Environment) (t : Tree) (steps : List Step) : Prop where
  valid : ∀ s ∈ steps, Name.isValid s.name = true
  distinct : (steps.map Step.name).Nodup
  fresh : ∀ s ∈ steps, s.name ∉ env.keys ∧ s.name ∉ t.leaves
  operators : ∀ init s rest, steps = init ++ s :: rest →
    OneOperator (Known t.leaves init) s.expression ∨ s.expression = t ∧ ∃ n, t = .relation n
  expands : expand .empty steps = some t
  length : steps.length = max 1 t.operations.dedup.length
  runs : (∃ env', run env steps = .ok env') ↔ ∃ r, t.eval env = .ok r
  computes : ∀ env', run env steps = .ok env' →
    ∃ last, steps.getLast? = some last ∧ env'.find last.name = t.eval env

theorem find_last_of_run {env env' : Environment} {steps : List Step} {s : Step}
    (h : run env (steps ++ [s]) = .ok env') :
    env'.find s.name = (inline (definitions steps) s.expression).eval env := by
  obtain ⟨env₁, r, ran, hr, -, rfl⟩ := run_append_iff.mp h
  rw [(binds_of_run ran).eval_eq_ok.mp hr, Query.Plan.find_eq_ok_iff, Name.Map.get?_insert, if_pos rfl]

theorem factors_of_last {env : Environment} {t : Tree} {init : List Step} {s : Step}
    (whole : inline (definitions init) s.expression = t)
    (valid : ∀ s' ∈ init ++ [s], Name.isValid s'.name = true)
    (distinct : ((init ++ [s]).map Step.name).Nodup)
    (fresh : ∀ s' ∈ init ++ [s], s'.name ∉ env.keys ++ t.leaves)
    (operators : ∀ front s' rest, init ++ [s] = front ++ s' :: rest →
      OneOperator (Known t.leaves front) s'.expression ∨ s'.expression = t ∧ ∃ n, t = .relation n)
    (length : (init ++ [s]).length = max 1 t.operations.dedup.length)
    (runs : (∃ env', run env (init ++ [s]) = .ok env') ↔ ∃ r, t.eval env = .ok r) :
    Factors env t (init ++ [s]) where
  valid := valid
  distinct := distinct
  fresh s' hs' := ⟨fun mem => fresh s' hs' (List.mem_append_left _ mem),
    fun mem => fresh s' hs' (List.mem_append_right _ mem)⟩
  operators := operators
  expands := by rw [expand_append, whole]
  length := length
  runs := runs
  computes env' ran := ⟨s, List.getLast?_concat, by rw [find_last_of_run ran, whole]⟩

theorem factors_relation (env : Environment) (name : String) :
    Factors env (.relation name) (ofTree env (.relation name)) := by
  obtain ⟨-, free⟩ := freshNumber_spec (env.keys ++ [name]) 0
  have only : ofTree env (.relation name) =
      [] ++ [⟨stepName (freshNumber (env.keys ++ [name]) 0), .relation name⟩] := rfl
  rw [only]
  generalize freshNumber (env.keys ++ [name]) 0 = n at free
  refine factors_of_last (inline_empty _) ?_ (List.nodup_singleton _) ?_ ?_ rfl ?_
  · exact List.forall_mem_singleton.mpr (isValid_stepName n)
  · exact List.forall_mem_singleton.mpr free
  · intro front s' rest split
    obtain ⟨same, -⟩ : s' = ⟨stepName n, .relation name⟩ ∧ rest = [] := by
      cases front with
      | nil => exact ⟨(List.cons.inj split).1.symm, (List.cons.inj split).2.symm⟩
      | cons first front => simp at split
    exact .inr ⟨congrArg Step.expression same, name, rfl⟩
  · simp only [run_append_iff]
    constructor
    · rintro ⟨env', env₁, r, ran, hr, -, -⟩
      obtain rfl := Except.ok.inj ran
      exact ⟨r, hr⟩
    · rintro ⟨r, hr⟩
      exact ⟨_, env, r, rfl, hr, isValid_stepName n, rfl⟩

theorem mem_operations_self {t : Tree} (operator : ∀ n, t ≠ .relation n) : t ∈ t.operations := by
  cases t with
  | relation n => exact absurd rfl (operator n)
  | unary op parameter operand => exact List.mem_append_right _ (List.mem_singleton_self _)
  | binary op left right => exact List.mem_append_right _ (List.mem_singleton_self _)

theorem exists_eval_iff {env : Environment} {t : Tree} (operator : ∀ n, t ≠ .relation n) :
    (∀ u ∈ t.operations, ∃ r, u.eval env = .ok r) ↔ ∃ r, t.eval env = .ok r :=
  ⟨fun all => all t (mem_operations_self operator),
    fun ⟨_, hr⟩ _ hu => Tree.eval_of_mem_operations hr hu⟩

/-- The steps of an operator are those of a draft with one step more, which stands for the operator. -/
theorem exists_draft (env : Environment) {t : Tree} (operator : ∀ n, t ≠ .relation n) :
    ∃ (d : Draft) (e : Tree), ofTree env t = (d.push (env.keys ++ t.leaves) e).steps ∧
      inline (definitions d.steps) e = t ∧ Draft.Adds (env.keys ++ t.leaves) t.leaves t.operations ⟨[], 0⟩
        (d.push (env.keys ++ t.leaves) e) := by
  have sub : ∀ n ∈ t.leaves, n ∈ env.keys ++ t.leaves := fun n hn => List.mem_append_right _ hn
  obtain ⟨d, e, last, whole⟩ := Draft.visit_start sub (fun n hn => hn) operator
  obtain ⟨n, d', visited, adds, -⟩ := Draft.visit_spec sub (@Draft.sound_start _ t.leaves)
    fun n (hn : n ∈ t.leaves) => hn
  obtain rfl : d' = d.push (env.keys ++ t.leaves) e := by rw [← last, visited]
  refine ⟨d, e, ?_, whole, adds⟩
  rw [← last]
  cases t with
  | relation n => exact absurd rfl (operator n)
  | unary op parameter operand => rfl
  | binary op left right => rfl

theorem isValid_of_mem_ofTree {env : Environment} {t : Tree} {s : Step} (hs : s ∈ ofTree env t) :
    Name.isValid s.name = true := by
  by_cases leaf : ∃ n, t = .relation n
  · obtain ⟨n, rfl⟩ := leaf
    obtain rfl := List.mem_singleton.mp hs
    exact isValid_stepName _
  obtain ⟨d, e, steps, -, adds⟩ := exists_draft env fun n same => leaf ⟨n, same⟩
  obtain ⟨n, -, same⟩ := adds.sound.numbered s (steps ▸ hs)
  rw [same]
  exact isValid_stepName n

theorem expand_ofTree (env : Environment) (t : Tree) : expand .empty (ofTree env t) = some t := by
  by_cases leaf : ∃ n, t = .relation n
  · obtain ⟨n, rfl⟩ := leaf
    exact congrArg some (inline_empty _)
  obtain ⟨d, e, steps, whole, -⟩ := exists_draft env fun n same => leaf ⟨n, same⟩
  rw [steps, Draft.push, expand_append, whole]

theorem ofTree_factors (env : Environment) (t : Tree) : Factors env t (ofTree env t) := by
  by_cases leaf : ∃ n, t = .relation n
  · obtain ⟨n, rfl⟩ := leaf
    exact factors_relation env n
  have operator : ∀ n, t ≠ .relation n := fun n same => leaf ⟨n, same⟩
  have valid : ∀ s ∈ ofTree env t, Name.isValid s.name = true := fun s hs => isValid_of_mem_ofTree hs
  obtain ⟨d, e, steps, whole, adds⟩ := exists_draft env operator
  have defines (u : Tree) : Defines (d.push (env.keys ++ t.leaves) e).steps u ↔ u ∈ t.operations := by
    rw [adds.defines]
    exact or_iff_right (Draft.not_defines_start u)
  obtain ⟨ordered, numbered, avoids⟩ := adds.sound
  rw [steps] at valid ⊢
  refine factors_of_last whole valid ordered.nodup_names avoids
    (fun front s' rest split => .inl (ordered.oneOperator split)) ?_ ?_
  · have nonempty : 0 < t.operations.dedup.length :=
      List.length_pos_of_mem (List.mem_dedup.mpr (mem_operations_self operator))
    rw [Nat.max_eq_right nonempty]
    exact ordered.length_eq t.operations.nodup_dedup fun u => by rw [defines, List.mem_dedup]
  · change (∃ env', run env (d.push (env.keys ++ t.leaves) e).steps = .ok env') ↔ _
    rw [ordered.exists_run_iff valid, ← exists_eval_iff operator]
    simp only [defines]

end RelationalAlgebra.Program
