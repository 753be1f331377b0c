import RelationalAlgebra.Proofs.Rewrite.Rewriting
import RelationalAlgebra.Proofs.Rewrite.Weight
/-!
# Termination of the optimizer

The loop of the optimizer has no bound of its own: it ends because each rewriting makes the query lighter.
What it ends with is in normal form: no rule applies to any node, so that nothing changes any more.
-/

namespace RelationalAlgebra.Rewrite

open Query (Tree)

variable {env : Environment} {rule : Rule} {rules : List Rule} {t t' : Tree}

theorem Rewriting.lighter {n : Nat} (h : Rewriting env rules n t t') : Lighter n t' t := by
  induction h with
  | refl a => exact .refl a
  | replace mem h => exact h.lighter
  | unary _ ih => exact ih.unary _ _
  | binary _ _ ihl ihr => exact ihl.binary ihr _
  | trans _ _ ih ih' =>
    rw [Nat.add_comm]
    exact ih'.trans ih

/-! ## Walks -/

def nodes : Tree → List Tree
  | .relation name => [.relation name]
  | .unary op parameter a => .unary op parameter a :: nodes a
  | .binary op a b => .binary op a b :: (nodes a ++ nodes b)

/-- A rule applies to no node of a query, and has no failure at any. -/
def Declines (env : Environment) (rule : Rule) (t : Tree) : Prop :=
  ∀ s ∈ nodes t, rule.rewrite env s = .ok none

theorem offer_eq_zero {m : Nat} (h : rule.offer env m t = .ok (t', 0)) :
    m = 0 ∧ t' = t ∧ rule.rewrite env t = .ok none := by
  obtain ⟨outcome, houtcome, heq⟩ := map_eq_ok.mp h
  cases outcome with
  | none =>
    obtain ⟨rfl, rfl⟩ := Prod.mk.inj heq
    exact ⟨rfl, rfl, houtcome⟩
  | some new => exact absurd (Prod.mk.inj heq).2 (Nat.succ_ne_zero _)

theorem offer_of_declines (h : rule.rewrite env t = .ok none) (m : Nat) :
    rule.offer env m t = .ok (t, m) := by
  rw [Rule.offer, h]
  rfl

/-- A walk without a rewriting has met no node that the rule applies to, and has changed nothing. -/
theorem walk_eq_zero_iff : rule.walk env t = .ok (t', 0) ↔ t' = t ∧ Declines env rule t := by
  induction t generalizing t' with
  | relation name =>
    constructor
    · intro h
      obtain ⟨-, rfl, root⟩ := offer_eq_zero h
      exact ⟨rfl, by simpa [Declines, nodes] using root⟩
    · rintro ⟨rfl, declines⟩
      exact offer_of_declines (declines _ (List.mem_singleton_self _)) 0
  | unary op parameter a ih =>
    constructor
    · intro h
      rw [Rule.walk] at h
      split at h
      · cases h
      · next a' m walked =>
        obtain ⟨rfl, rfl, root⟩ := offer_eq_zero h
        obtain ⟨rfl, below⟩ := ih.mp walked
        exact ⟨rfl, List.forall_mem_cons.mpr ⟨root, below⟩⟩
    · rintro ⟨rfl, declines⟩
      obtain ⟨root, below⟩ := List.forall_mem_cons.mp declines
      rw [Rule.walk, ih.mpr ⟨rfl, below⟩]
      exact offer_of_declines root 0
  | binary op a b iha ihb =>
    constructor
    · intro h
      rw [Rule.walk] at h
      split at h
      · cases h
      · next a' m walkedA =>
        split at h
        · cases h
        · next b' n walkedB =>
          obtain ⟨none, rfl, root⟩ := offer_eq_zero h
          obtain ⟨rfl, rfl⟩ := Nat.add_eq_zero_iff.mp none
          obtain ⟨rfl, left⟩ := iha.mp walkedA
          obtain ⟨rfl, right⟩ := ihb.mp walkedB
          exact ⟨rfl, List.forall_mem_cons.mpr ⟨root, List.forall_mem_append.mpr ⟨left, right⟩⟩⟩
    · rintro ⟨rfl, declines⟩
      obtain ⟨root, below⟩ := List.forall_mem_cons.mp declines
      obtain ⟨left, right⟩ := List.forall_mem_append.mp below
      rw [Rule.walk, iha.mpr ⟨rfl, left⟩, ihb.mpr ⟨rfl, right⟩]
      exact offer_of_declines root 0

/-! ## Passes -/

theorem lighter_of_pass {steps : List Step} (h : pass env rules t = .ok (t', steps)) :
    ∃ n, steps.length ≤ n ∧ Lighter n t' t := by
  obtain ⟨stepsOf, rewriting⟩ := rewriting_of_pass h
  exact ⟨_, length_le_totalChanges fun step hstep => (stepsOf step hstep).2, rewriting.lighter⟩

/-- A pass changes nothing where no rule applies to any node. -/
theorem pass_eq_nil_iff :
    pass env rules t = .ok (t', []) ↔ t' = t ∧ ∀ rule ∈ rules, Declines env rule t := by
  induction rules with
  | nil =>
    constructor
    · intro h
      exact ⟨(Prod.mk.inj (Except.ok.inj h)).1.symm, by simp⟩
    · rintro ⟨rfl, -⟩
      rfl
  | cons rule rules ih =>
    rw [List.forall_mem_cons, pass]
    constructor
    · intro h
      split at h
      · cases h
      · next new changes walked =>
        split at h
        · next unchanged =>
          subst unchanged
          obtain ⟨rfl, later⟩ := ih.mp h
          exact ⟨rfl, (walk_eq_zero_iff.mp walked).2, later⟩
        · obtain ⟨⟨last, steps⟩, -, heq⟩ := map_eq_ok.mp h
          cases (Prod.mk.inj heq).2
    · rintro ⟨rfl, first, later⟩
      rw [walk_eq_zero_iff.mpr ⟨rfl, first⟩]
      exact ih.mpr ⟨rfl, later⟩

/-! ## The loop -/

def Optimized.next (o : Optimized) (t : Tree) (steps : List Step) : Optimized :=
  ⟨t, steps.foldl (fun n step => n + step.changes) o.changes, o.passes + 1, o.trace ++ steps⟩

/-- The loop of the optimizer, without a bound, ends after some passes: with the failure of a rule, or
after a pass that changes nothing. -/
inductive Loops (env : Environment) (rules : List Rule) :
    Nat → Optimized → Except Failure Optimized → Prop
  | failed {o : Optimized} {failure : Failure} (passed : pass env rules o.tree = .error failure) :
      Loops env rules 1 o (.error failure)
  | done {o : Optimized} {t : Tree} (passed : pass env rules o.tree = .ok (t, [])) :
      Loops env rules 1 o (.ok { o with passes := o.passes + 1 })
  | again {n : Nat} {o : Optimized} {t : Tree} {steps : List Step} {r : Except Failure Optimized}
      (passed : pass env rules o.tree = .ok (t, steps)) (changed : steps ≠ [])
      (later : Loops env rules n (o.next t steps) r) : Loops env rules (n + 1) o r

/-- The loop ends in one way only. -/
theorem Loops.unique {m n : Nat} {o : Optimized} {r r' : Except Failure Optimized}
    (h : Loops env rules m o r) (h' : Loops env rules n o r') : m = n ∧ r = r' := by
  induction h generalizing n r' with
  | failed passed =>
    cases h' with
    | failed passed' =>
      rw [Except.error.inj (passed.symm.trans passed')]
      exact ⟨rfl, rfl⟩
    | done passed' => cases passed.symm.trans passed'
    | again passed' => cases passed.symm.trans passed'
  | done passed =>
    cases h' with
    | failed passed' => cases passed.symm.trans passed'
    | done passed' => exact ⟨rfl, rfl⟩
    | again passed' changed =>
      obtain ⟨-, rfl⟩ := Prod.mk.inj (Except.ok.inj (passed.symm.trans passed'))
      exact absurd rfl changed
  | again passed changed later ih =>
    cases h' with
    | failed passed' => cases passed.symm.trans passed'
    | done passed' =>
      obtain ⟨-, rfl⟩ := Prod.mk.inj (Except.ok.inj (passed.symm.trans passed'))
      exact absurd rfl changed
    | again passed' changed' later' =>
      obtain ⟨rfl, rfl⟩ := Prod.mk.inj (Except.ok.inj (passed.symm.trans passed'))
      obtain ⟨rfl, rfl⟩ := ih later'
      exact ⟨rfl, rfl⟩

/-- A query that is lighter than the passes that are left is given as many as the loop takes. -/
theorem loops_passes {limit : Nat} {o : Optimized} (h : weight o.tree < limit) :
    ∃ n, n ≤ weight o.tree + 1 ∧ Loops env rules n o (passes env rules limit o) := by
  induction limit generalizing o with
  | zero => exact absurd h (Nat.not_lt_zero _)
  | succ limit ih =>
    rw [passes]
    split
    · next passed => exact ⟨1, Nat.le_add_left .., .failed passed⟩
    · next passed => exact ⟨1, Nat.le_add_left .., .done passed⟩
    · next t steps changed passed =>
      obtain ⟨k, count, lighter⟩ := lighter_of_pass passed
      have progress := List.length_pos_iff.mpr changed
      have below := lighter.weight
      obtain ⟨n, few, later⟩ := @ih (o.next t steps) (by simp only [Optimized.next]; omega)
      refine ⟨n + 1, ?_, .again passed changed later⟩
      simp only [Optimized.next] at few
      omega

/-- What the loop ends with is in normal form, and knows the passes that it took. -/
theorem Loops.normal {n : Nat} {o o' : Optimized} (h : Loops env rules n o (.ok o')) :
    o'.passes = o.passes + n ∧ ∀ rule ∈ rules, Declines env rule o'.tree := by
  generalize hr : Except.ok o' = r at h
  induction h with
  | failed => cases hr
  | done passed =>
    obtain rfl := Except.ok.inj hr
    exact ⟨rfl, (pass_eq_nil_iff.mp passed).2⟩
  | again passed changed later ih =>
    obtain ⟨count, declines⟩ := ih hr
    refine ⟨?_, declines⟩
    simp only [Optimized.next] at count
    omega

/-- Where no rule applies the optimizer makes one pass. -/
theorem optimize_of_declines {settings : Settings} (h : ∀ rule ∈ settings.rules, Declines env rule t) :
    optimize settings env t = .ok ⟨t, 0, 1, []⟩ := by
  have limit : passLimit t = (passLimit t - 1) + 1 := by
    have := weight_lt_passLimit t
    omega
  rw [optimize, limit, passes, pass_eq_nil_iff.mpr ⟨rfl, h⟩]
  simp [Except.map]

/-- The optimizer terminates in a normal form.  Its loop without a bound ends for every query, and
`optimize` gives what it ends with, the steps only where they are asked for.  If that is a query, then no
rule applies to any of its nodes, and optimizing it once more takes one pass and changes nothing. -/
theorem optimize_reaches_normal_form (settings : Settings) (env : Environment) (t : Tree) :
    ∃ n r, Loops env settings.rules n ⟨t, 0, 0, []⟩ r ∧ n ≤ 4 * (size t * size t) + 1 ∧
      (optimize settings env t = r.map fun o => if settings.trace then o else { o with trace := [] }) ∧
      ∀ o, optimize settings env t = .ok o →
        o.passes = n ∧
        (∀ rule ∈ settings.rules, ∀ s ∈ nodes o.tree, rule.rewrite env s = .ok none) ∧
        optimize settings env o.tree = .ok ⟨o.tree, 0, 1, []⟩ := by
  obtain ⟨n, few, loops⟩ := @loops_passes env settings.rules (passLimit t) ⟨t, 0, 0, []⟩
    (weight_lt_passLimit t)
  refine ⟨n, _, loops, few.trans (Nat.succ_le_succ (weight_le_size t)), rfl, fun o ho => ?_⟩
  obtain ⟨o', ended, tree, -, passes, -⟩ := passes_of_optimize ho
  rw [ended] at loops
  obtain ⟨count, declines⟩ := loops.normal
  rw [tree, passes, count]
  exact ⟨Nat.zero_add n, declines, optimize_of_declines declines⟩

end RelationalAlgebra.Rewrite
