import RelationalAlgebra.Proofs.Rewrite.Replacement
import RelationalAlgebra.Rewrite.Optimizer
/-!
# Rewritings of queries

Walks, passes and whole runs of the optimizer replace parts of a query one after the other.  What is said of
one replacement, and is kept where a query stands inside of another, is proved for all of them by one
induction over `Rewriting`.
-/

namespace RelationalAlgebra.Rewrite

open Query (Tree Unary Binary)

/-- A number of replacements by some rules, one after the other, anywhere in a query. -/
inductive Rewriting (env : Environment) (rules : List Rule) : Nat → Tree → Tree → Prop
  | refl (a : Tree) : Rewriting env rules 0 a a
  | replace {rule : Rule} {a b : Tree} (mem : rule ∈ rules) (h : Replaces env rule a b) :
      Rewriting env rules 1 a b
  | unary {op : Unary} {parameter : String} {n : Nat} {a b : Tree} (below : Rewriting env rules n a b) :
      Rewriting env rules n (.unary op parameter a) (.unary op parameter b)
  | binary {op : Binary} {m n : Nat} {a a' b b' : Tree} (left : Rewriting env rules m a a')
      (right : Rewriting env rules n b b') :
      Rewriting env rules (m + n) (.binary op a b) (.binary op a' b')
  | trans {m n : Nat} {a b c : Tree} (first : Rewriting env rules m a b)
      (second : Rewriting env rules n b c) : Rewriting env rules (m + n) a c

variable {env : Environment} {rule : Rule} {rules : List Rule} {t t' : Tree}

theorem Rewriting.mono {rules' : List Rule} {n : Nat} (h : Rewriting env rules n t t')
    (sub : rules ⊆ rules') : Rewriting env rules' n t t' := by
  induction h with
  | refl a => exact .refl a
  | replace mem h => exact .replace (sub mem) h
  | unary _ ih => exact .unary ih
  | binary _ _ ihl ihr => exact .binary ihl ihr
  | trans _ _ ih ih' => exact .trans ih ih'

/-! ## Walks -/

theorem rewriting_of_offer (mem : rule ∈ rules) {m n : Nat} (h : rule.offer env m t = .ok (t', n)) :
    ∃ k, n = m + k ∧ Rewriting env rules k t t' := by
  obtain ⟨outcome, houtcome, heq⟩ := map_eq_ok.mp h
  cases outcome with
  | none =>
    obtain ⟨rfl, rfl⟩ := Prod.mk.inj heq
    exact ⟨0, rfl, .refl t⟩
  | some new =>
    obtain ⟨rfl, rfl⟩ := Prod.mk.inj heq
    exact ⟨1, rfl, .replace mem (replaces_of_rewrite houtcome)⟩

theorem rewriting_of_walk (mem : rule ∈ rules) {n : Nat} (h : rule.walk env t = .ok (t', n)) :
    Rewriting env rules n t t' := by
  induction t generalizing t' n with
  | relation name =>
    obtain ⟨k, rfl, root⟩ := rewriting_of_offer mem h
    rwa [Nat.zero_add]
  | unary op parameter a ih =>
    rw [Rule.walk] at h
    split at h
    · cases h
    · next a' m walked =>
      obtain ⟨k, rfl, root⟩ := rewriting_of_offer mem h
      exact (ih walked).unary.trans root
  | binary op a b iha ihb =>
    rw [Rule.walk] at h
    split at h
    · cases h
    · next a' m walkedA =>
      split at h
      · cases h
      · next b' n walkedB =>
        obtain ⟨k, rfl, root⟩ := rewriting_of_offer mem h
        exact ((iha walkedA).binary (ihb walkedB)).trans root

/-! ## Passes -/

def totalChanges : List Step → Nat
  | [] => 0
  | step :: steps => step.changes + totalChanges steps

theorem totalChanges_append (xs ys : List Step) :
    totalChanges (xs ++ ys) = totalChanges xs + totalChanges ys := by
  induction xs with
  | nil => exact (Nat.zero_add _).symm
  | cons step steps ih => simp only [List.cons_append, totalChanges, ih, Nat.add_assoc]

theorem length_le_totalChanges {steps : List Step} (h : ∀ step ∈ steps, step.changes ≠ 0) :
    steps.length ≤ totalChanges steps := by
  induction steps with
  | nil => exact Nat.le_refl _
  | cons step steps ih =>
    obtain ⟨first, later⟩ := List.forall_mem_cons.mp h
    have := ih later
    rw [totalChanges, List.length_cons]
    omega

/-- The steps of a pass are by its rules, each has changed something, and their rules alone have replaced
anything. -/
theorem rewriting_of_pass {steps : List Step} (h : pass env rules t = .ok (t', steps)) :
    (∀ step ∈ steps, step.rule ∈ rules ∧ step.changes ≠ 0) ∧
      Rewriting env (steps.map Step.rule) (totalChanges steps) t t' := by
  induction rules generalizing t t' steps with
  | nil =>
    obtain ⟨rfl, rfl⟩ := Prod.mk.inj (Except.ok.inj h)
    exact ⟨by simp, .refl t⟩
  | cons rule rules ih =>
    rw [pass] at h
    split at h
    · cases h
    · next new n walked =>
      split at h
      · obtain ⟨stepsOf, rewriting⟩ := ih h
        exact ⟨fun step hstep => (stepsOf step hstep).imp_left (List.mem_cons_of_mem _), rewriting⟩
      · next changed =>
        obtain ⟨⟨last, later⟩, passed, heq⟩ := map_eq_ok.mp h
        obtain ⟨rfl, rfl⟩ := Prod.mk.inj heq
        obtain ⟨stepsOf, rewriting⟩ := ih passed
        refine ⟨List.forall_mem_cons.mpr ⟨⟨List.mem_cons_self .., changed⟩, fun step hstep =>
          (stepsOf step hstep).imp_left (List.mem_cons_of_mem _)⟩, ?_⟩
        exact (rewriting_of_walk (List.mem_cons_self ..) walked).trans
          (rewriting.mono (List.subset_cons_self ..))

/-! ## Runs -/

theorem foldl_totalChanges (n : Nat) (steps : List Step) :
    steps.foldl (fun n step => n + step.changes) n = n + totalChanges steps := by
  induction steps generalizing n with
  | nil => rfl
  | cons step steps ih =>
    rw [List.foldl_cons, ih, totalChanges, Nat.add_assoc]

/-- The steps that some passes add are by their rules, and their rules alone have replaced anything. -/
theorem rewriting_of_passes {limit : Nat} {o o' : Optimized} (h : passes env rules limit o = .ok o') :
    ∃ steps, o'.trace = o.trace ++ steps ∧ o'.changes = o.changes + totalChanges steps ∧
      (∀ step ∈ steps, step.rule ∈ rules) ∧
      Rewriting env (steps.map Step.rule) (totalChanges steps) o.tree o'.tree := by
  induction limit generalizing o with
  | zero =>
    obtain rfl := Except.ok.inj h
    exact ⟨[], by simp, rfl, by simp, .refl _⟩
  | succ limit ih =>
    rw [passes] at h
    split at h
    · cases h
    · obtain rfl := Except.ok.inj h
      exact ⟨[], by simp, rfl, by simp, .refl _⟩
    · next new steps _ passed =>
      obtain ⟨stepsOf, first⟩ := rewriting_of_pass passed
      obtain ⟨later, trace, count, laterOf, second⟩ := ih h
      refine ⟨steps ++ later, ?_, ?_, ?_, ?_⟩
      · rw [trace, List.append_assoc]
      · rw [count, foldl_totalChanges, totalChanges_append, Nat.add_assoc]
      · exact List.forall_mem_append.mpr ⟨fun step hstep => (stepsOf step hstep).1, laterOf⟩
      · rw [totalChanges_append, List.map_append]
        exact (first.mono (List.subset_append_left ..)).trans (second.mono (List.subset_append_right ..))

/-- What the optimizer gives is what its passes give, but for the steps where they are not asked for. -/
theorem passes_of_optimize {settings : Settings} {o : Optimized} (h : optimize settings env t = .ok o) :
    ∃ o', passes env settings.rules (passLimit t) ⟨t, 0, 0, []⟩ = .ok o' ∧ o.tree = o'.tree ∧
      o.changes = o'.changes ∧ o.passes = o'.passes ∧ (settings.trace = true → o.trace = o'.trace) := by
  obtain ⟨o', passed, heq⟩ := map_eq_ok.mp h
  refine ⟨o', passed, ?_⟩
  rw [← heq]
  split
  · exact ⟨rfl, rfl, rfl, fun _ => rfl⟩
  · next untraced => exact ⟨rfl, rfl, rfl, fun traced => absurd traced untraced⟩

/-- The optimizer makes as many replacements as it reports, by selected rules; with a trace, by the rules
of the trace. -/
theorem rewriting_of_optimize {settings : Settings} {o : Optimized}
    (h : optimize settings env t = .ok o) :
    ∃ steps, (settings.trace = true → o.trace = steps) ∧ (∀ step ∈ steps, step.rule ∈ settings.rules) ∧
      Rewriting env (steps.map Step.rule) o.changes t o.tree := by
  obtain ⟨o', passed, tree, count, -, trace⟩ := passes_of_optimize h
  obtain ⟨steps, all, sum, rulesOf, rewriting⟩ := rewriting_of_passes passed
  refine ⟨steps, fun traced => ?_, rulesOf, ?_⟩
  · rw [trace traced, all]
    rfl
  · rw [tree, count, sum]
    simpa using rewriting

end RelationalAlgebra.Rewrite
