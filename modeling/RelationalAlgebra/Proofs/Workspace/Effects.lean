import RelationalAlgebra.Proofs.Query.Typing
import RelationalAlgebra.Proofs.Workspace.Runs
/-!
# What actions do to the bindings

An action looks at the relations that are bound, and not at who has rows in common with whom.  It fails, or
it has one of four effects: it leaves everything as it is, it binds a name to a relation, it writes other
rows under a name, or it removes a name.  A relation that is bound can be one that uses the rows of another
name, its origin.
-/

namespace RelationalAlgebra

/-! ## Origins -/

def Query.Tree.origin? : Query.Tree → Option String
  | .relation name => some name
  | .unary .rename _ operand => operand.origin?
  | .unary .. | .binary .. => none

def Query.Plan.origin? : Query.Plan → Option String
  | .scan name => some name
  | .rename _ input => input.origin?
  | .selection .. | .projection .. | .binary .. => none

namespace Workspace

def mark? (ws : Workspace) (name : String) : Option Nat := (ws.bindings.get? name).map Binding.mark

theorem markOf?_eq (ws : Workspace) (t : Query.Tree) : ws.markOf? t = t.origin?.bind ws.mark? := by
  induction t with
  | relation name => rfl
  | unary op parameter operand ih =>
    cases op with
    | rename => exact ih
    | selection | projection => rfl
  | binary => rfl

theorem markOfPlan?_eq (ws : Workspace) (p : Query.Plan) :
    ws.markOfPlan? p = p.origin?.bind ws.mark? := by
  induction p with
  | scan name => rfl
  | rename map input ih => exact ih
  | selection | projection | binary => rfl

/-! ## Results -/

/-- The relation that a source gives, and the name whose rows it uses, if it does. -/
def Source.result (env : Environment) : Source → Except Failure (Relation × Option String)
  | .relation r => .ok (r, none)
  | .selection name predicate => do
    let r ← env.find name
    pure (← r.selection predicate, none)
  | .projection name names => do
    let r ← env.find name
    pure (← (r.projection names).mapError .schema, none)
  | .rename name map => do
    let r ← env.find name
    pure (← (r.rename map).mapError .schema, some name)
  | .rearrange name header => do
    let r ← env.find name
    let p ← (r.rearrange header).mapError .schema
    pure (p, if r.header = header then some name else none)
  | .binary op left right => do
    let a ← env.find left
    let b ← env.find right
    pure (← (a.apply op b).mapError .schema, none)
  | .thetaJoin left right predicate => do
    let a ← env.find left
    let b ← env.find right
    pure (← a.thetaJoin b predicate, none)
  | .query optimized text => do
    let tree ← (Query.Tree.ofText? text).mapError Failure.ofReadFault
    let tree ←
      if optimized then (Rewrite.optimize {} env tree).map Rewrite.Optimized.tree else pure tree
    let r ← tree.eval env
    pure (r, tree.origin?)

def marked (ws : Workspace) (result : Relation × Option String) : Computed :=
  ⟨result.1, result.2.bind ws.mark?⟩

theorem find_environment (ws : Workspace) (name : String) :
    ws.environment.find name = ws.find name := by
  unfold Environment.find Workspace.find binding
  rw [get?_environment]
  cases ws.bindings.get? name <;> rfl

theorem mark?_of_binding {ws : Workspace} {name : String} {b : Binding} (h : ws.binding name = .ok b) :
    ws.mark? name = some b.mark := by
  unfold binding at h
  split at h
  · next bound =>
    obtain rfl := Except.ok.inj h
    rw [mark?, bound]
    rfl
  · cases h

/-- A source is computed from the relations that are bound, and the mark is that of an origin. -/
theorem compute_eq (ws : Workspace) (source : Source) :
    ws.compute source = (source.result ws.environment).map ws.marked := by
  cases source with
  | relation r => rfl
  | selection name predicate | projection name names =>
    simp only [compute, Source.result, find_environment, map_of_bind]
    rfl
  | rename name map =>
    simp only [compute, Source.result, find_environment, map_of_bind, Workspace.find, bind_of_map]
    refine bind_congr_ok fun b bound => ?_
    refine bind_congr_ok fun p _ => ?_
    show Except.ok _ = Except.ok (ws.marked (p, some name))
    rw [marked, Option.bind_some, mark?_of_binding bound]
  | rearrange name header =>
    simp only [compute, Source.result, find_environment, map_of_bind, Workspace.find, bind_of_map]
    refine bind_congr_ok fun b bound => ?_
    refine bind_congr_ok fun p _ => ?_
    show Except.ok _ = Except.ok (ws.marked (p, if b.relation.header = header then some name else none))
    split
    · rw [marked, Option.bind_some, mark?_of_binding bound]
    · rfl
  | binary op left right | thetaJoin left right predicate =>
    simp only [compute, Source.result, find_environment, map_of_bind]
    rfl
  | query optimized text =>
    have evaluated (tree : Query.Tree) :
        (do let r ← tree.eval ws.environment; pure ⟨r, ws.markOf? tree⟩ : Except Failure Computed) =
          (do let r ← tree.eval ws.environment; pure (r, tree.origin?)).map ws.marked := by
      rw [map_of_bind, markOf?_eq]
      rfl
    rw [compute, Source.result, runQuery, map_of_bind]
    refine bind_congr_ok fun tree _ => ?_
    cases optimized with
    | false => exact evaluated tree
    | true =>
      rw [if_pos rfl, if_pos rfl, map_of_bind]
      exact bind_congr_ok fun optimum _ => evaluated optimum

/-! ## Effects -/

def Change.apply (r : Relation) : Change → Except Failure (Relation.Change × Bool)
  | .insert row => do pure (← (r.insert row).mapError .schema, true)
  | .update predicate cells => do
    let changed ← r.update predicate cells
    pure (changed, changed.count ≠ 0)
  | .delete predicate => do
    let changed ← r.delete predicate
    pure (changed, changed.count ≠ 0)

theorem change_eq (ws : Workspace) (name : String) (c : Change) :
    ws.change name c = (do
      let r ← ws.find name
      let (changed, touches) ← c.apply r
      pure (if touches then ws.bindOwn name changed.relation else ws, changed.count)) := by
  cases c <;> simp only [change, Change.apply, bind_assoc]

inductive Effect where
  | keep
  | bind (name : String) (relation : Relation) (origin? : Option String)
  | write (name : String) (relation : Relation)
  | remove (name : String)

def Effect.bind? (name : String) (result : Relation × Option String) : Except Failure Effect :=
  (Environment.checkName name).map fun () => .bind name result.1 result.2

/-- The effect of an action on bindings of which the relations are known. -/
def Action.effect (env : Environment) : Action → Except Failure Effect
  | .construct name construction => do
    let r ← construction.build
    Effect.bind? name (r, none)
  | .compute name source _ => do
    let result ← source.result env
    Effect.bind? name result
  | .execute name plan => do
    let r ← plan.run env
    Effect.bind? name (r, plan.origin?)
  | .change name c => do
    let r ← env.find name
    let (changed, touches) ← c.apply r
    pure (if touches then .write name changed.relation else .keep)
  | .remove name => pure (.remove name)

/-- The workspace in which a name has the given relation, with rows of its own unless there is a mark. -/
def bindMarked (ws : Workspace) (name : String) (r : Relation) : Option Nat → Workspace
  | none => ws.bindOwn name r
  | some mark => ⟨ws.bindings.insert name ⟨r, mark⟩, ws.next⟩

def enact (ws : Workspace) : Effect → Workspace
  | .keep => ws
  | .bind name r origin? => ws.bindMarked name r (origin?.bind ws.mark?)
  | .write name r => ws.bindOwn name r
  | .remove name => ws.remove name

theorem bind_eq (ws : Workspace) (name : String) (c : Computed) :
    ws.bind name c = (Environment.checkName name).map fun () => ws.bindMarked name c.relation c.mark? := by
  obtain ⟨r, mark?⟩ := c
  cases mark? <;> rfl

theorem bind_marked (ws : Workspace) (name : String) (result : Relation × Option String) :
    ws.bind name (ws.marked result) = (Effect.bind? name result).map ws.enact := by
  rw [bind_eq, Effect.bind?]
  cases Environment.checkName name <;> rfl

/-- Whether an action fails, and what it does, depends only on the relations that are bound. -/
theorem attempt_eq (ws : Workspace) (action : Action) :
    ws.attempt action = (action.effect ws.environment).map ws.enact := by
  cases action with
  | construct name construction =>
    rw [attempt, Action.effect, map_of_bind]
    exact bind_congr_ok fun r _ => bind_marked ws name (r, none)
  | compute name source derived =>
    rw [attempt, Action.effect, map_of_bind, compute_eq, bind_of_map]
    exact bind_congr_ok fun result _ => bind_marked ws name result
  | execute name plan =>
    rw [attempt, Action.effect, map_of_bind]
    refine bind_congr_ok fun r _ => ?_
    rw [markOfPlan?_eq]
    exact bind_marked ws name (r, plan.origin?)
  | change name change =>
    rw [attempt, Action.effect, change_eq, map_of_bind, map_of_bind, find_environment]
    refine bind_congr_ok fun r _ => ?_
    rw [map_of_bind, map_of_bind]
    refine bind_congr_ok fun result _ => ?_
    obtain ⟨changed, touches⟩ := result
    cases touches <;> rfl
  | remove name => rfl

/-! ## Effects on relations -/

def Effect.apply (env : Environment) : Effect → Environment
  | .keep => env
  | .bind name r _ | .write name r => env.insert name r
  | .remove name => env.erase name

/-- An origin is bound and has the rows of the relation, and what is written has the header of what is
replaced. -/
def Effect.Sound (env : Environment) : Effect → Prop
  | .keep | .remove _ => True
  | .bind _ r origin? => ∀ origin ∈ origin?, ∃ s, env.get? origin = some s ∧ s.rows = r.rows
  | .write name r => ∃ s, env.get? name = some s ∧ s.header = r.header

theorem environment_insert (ws : Workspace) (name : String) (b : Binding) (next : Nat) :
    environment ⟨ws.bindings.insert name b, next⟩ = ws.environment.insert name b.relation := by
  refine Name.Map.eq_of_get? fun other => ?_
  rw [get?_environment, Name.Map.get?_insert, Name.Map.get?_insert, get?_environment]
  split <;> rfl

theorem environment_enact (ws : Workspace) (e : Effect) :
    (ws.enact e).environment = e.apply ws.environment := by
  cases e with
  | keep => rfl
  | bind name r origin? =>
    rw [enact]
    cases origin?.bind ws.mark? with
    | none => exact environment_insert ws name _ _
    | some mark => exact environment_insert ws name _ _
  | write name r => exact environment_insert ws name _ _
  | remove name =>
    refine Name.Map.eq_of_get? fun other => ?_
    rw [enact, remove, get?_environment, Name.Map.get?_erase, Effect.apply, Name.Map.get?_erase,
      get?_environment]
    split <;> rfl

end Workspace

namespace Query

theorem Tree.origin?_plan {t : Tree} {p : Plan} (h : t.plan = .ok p) : p.origin? = t.origin? := by
  induction t generalizing p with
  | relation name =>
    obtain rfl := plan_relation h
    rfl
  | unary op parameter operand ih =>
    cases op with
    | selection =>
      obtain ⟨input, clause, -, -, rfl⟩ := plan_selection_iff.mp h
      rfl
    | projection =>
      obtain ⟨input, names, -, -, rfl⟩ := plan_projection_iff.mp h
      rfl
    | rename =>
      obtain ⟨input, map, hinput, -, rfl⟩ := plan_rename_iff.mp h
      have same : input.origin? = operand.origin? := ih hinput
      exact same
  | binary op left right =>
    obtain ⟨a, b, -, -, rfl⟩ := plan_binary_iff.mp h
    rfl

theorem Plan.rows_of_origin {env : Environment} {p : Plan} {r : Relation} (h : p.run env = .ok r)
    {origin : String} (ho : p.origin? = some origin) :
    ∃ s, env.get? origin = some s ∧ s.rows = r.rows := by
  induction p generalizing r with
  | scan name =>
    obtain rfl := Option.some.inj ho
    unfold run Environment.find at h
    split at h
    · next s hs =>
      obtain rfl := Except.ok.inj h
      exact ⟨s, hs, rfl⟩
    · cases h
  | rename map input ih =>
    rw [run] at h
    split at h
    · cases h
    · next q hq =>
      obtain ⟨s, hs, rows⟩ := ih hq ho
      exact ⟨s, hs, rows.trans (Relation.rename_eq_ok (mapError_eq_ok.mp h)).2.symm⟩
  | selection | projection | binary => cases ho

end Query

namespace Workspace

/-- A source with an origin gives the rows of that name. -/
theorem Source.rows_of_origin {env : Environment} {source : Source} {r : Relation} {origin : String}
    (h : source.result env = .ok (r, some origin)) :
    ∃ s, env.get? origin = some s ∧ s.rows = r.rows := by
  have found {name : String} {s : Relation} (hs : env.find name = .ok s) : env.get? name = some s :=
    Query.Plan.find_eq_ok_iff.mp hs
  cases source with
  | relation r => cases Except.ok.inj h
  | selection name predicate | projection name names =>
    obtain ⟨s, -, h⟩ := bind_eq_ok.mp h
    obtain ⟨p, -, h⟩ := bind_eq_ok.mp h
    cases Except.ok.inj h
  | binary op left right | thetaJoin left right predicate =>
    obtain ⟨a, -, h⟩ := bind_eq_ok.mp h
    obtain ⟨b, -, h⟩ := bind_eq_ok.mp h
    obtain ⟨p, -, h⟩ := bind_eq_ok.mp h
    cases Except.ok.inj h
  | rename name map =>
    obtain ⟨s, hs, h⟩ := bind_eq_ok.mp h
    obtain ⟨p, hp, h⟩ := bind_eq_ok.mp h
    cases Except.ok.inj h
    exact ⟨s, found hs, (Relation.rename_eq_ok (mapError_eq_ok.mp hp)).2.symm⟩
  | rearrange name header =>
    obtain ⟨s, hs, h⟩ := bind_eq_ok.mp h
    obtain ⟨p, hp, h⟩ := bind_eq_ok.mp h
    obtain ⟨rfl, origin⟩ := Prod.mk.inj (Except.ok.inj h)
    split at origin
    · next same =>
      obtain rfl := Option.some.inj origin
      obtain ⟨rows, aligned, rfl⟩ := map_eq_ok.mp (mapError_eq_ok.mp hp)
      refine ⟨s, found hs, ?_⟩
      unfold Relation.align at aligned
      split at aligned
      · have aligned : (if header = s.header then Except.ok s.rows else _) = Except.ok rows := aligned
        rw [if_pos same.symm] at aligned
        exact Except.ok.inj aligned
      · cases aligned
    · cases origin
  | query optimized text =>
    obtain ⟨tree, -, h⟩ := bind_eq_ok.mp h
    have evaluated {t : Query.Tree}
        (h : (do let r ← t.eval env; pure (r, t.origin?) : Except Failure _) = .ok (r, some origin)) :
        ∃ s, env.get? origin = some s ∧ s.rows = r.rows := by
      obtain ⟨p, hp, h⟩ := bind_eq_ok.mp h
      obtain ⟨rfl, ho⟩ := Prod.mk.inj (Except.ok.inj h)
      obtain ⟨plan, hplan, ran⟩ := Query.Tree.eval_eq_ok.mp hp
      exact Query.Plan.rows_of_origin ran (Query.Tree.origin?_plan hplan ▸ ho)
    cases optimized with
    | false => exact evaluated h
    | true =>
      obtain ⟨optimum, -, h⟩ := bind_eq_ok.mp h
      exact evaluated h

theorem Change.header_apply {r : Relation} {c : Change} {changed : Relation.Change} {touches : Bool}
    (h : c.apply r = .ok (changed, touches)) : changed.relation.header = r.header := by
  cases c with
  | insert row =>
    obtain ⟨inserted, hi, h⟩ := bind_eq_ok.mp h
    cases Except.ok.inj h
    exact Relation.header_insert (mapError_eq_ok.mp hi)
  | update predicate cells =>
    obtain ⟨updated, hu, h⟩ := bind_eq_ok.mp h
    cases Except.ok.inj h
    exact Relation.header_update hu
  | delete predicate =>
    obtain ⟨deleted, hd, h⟩ := bind_eq_ok.mp h
    cases Except.ok.inj h
    exact Relation.header_delete hd

theorem Effect.sound_bind? {env : Environment} {name : String} {result : Relation × Option String}
    {e : Effect} (h : Effect.bind? name result = .ok e)
    (rows : ∀ origin ∈ result.2, ∃ s, env.get? origin = some s ∧ s.rows = result.1.rows) :
    e.Sound env := by
  obtain ⟨-, -, rfl⟩ := map_eq_ok.mp h
  exact rows

theorem Action.sound_effect {env : Environment} {action : Action} {e : Effect}
    (h : action.effect env = .ok e) : e.Sound env := by
  cases action with
  | construct name construction =>
    obtain ⟨r, -, h⟩ := bind_eq_ok.mp h
    exact Effect.sound_bind? h fun origin ho => nomatch ho
  | compute name source derived =>
    obtain ⟨⟨r, origin?⟩, computed, h⟩ := bind_eq_ok.mp h
    refine Effect.sound_bind? h fun origin ho => ?_
    obtain rfl : origin? = some origin := ho
    exact Source.rows_of_origin computed
  | execute name plan =>
    obtain ⟨r, ran, h⟩ := bind_eq_ok.mp h
    exact Effect.sound_bind? h fun origin ho => Query.Plan.rows_of_origin ran ho
  | change name c =>
    obtain ⟨r, found, h⟩ := bind_eq_ok.mp h
    obtain ⟨⟨changed, touches⟩, applied, h⟩ := bind_eq_ok.mp h
    obtain rfl := Except.ok.inj h
    cases touches with
    | false => trivial
    | true => exact ⟨r, Query.Plan.find_eq_ok_iff.mp found, (Change.header_apply applied).symm⟩
  | remove name =>
    obtain rfl := Except.ok.inj h
    trivial

end Workspace

end RelationalAlgebra
