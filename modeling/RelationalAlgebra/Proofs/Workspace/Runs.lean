import RelationalAlgebra.Proofs.Relation.Strict
import RelationalAlgebra.Storage.Document
import RelationalAlgebra.Workspace
/-!
# Runs of workspaces

A run starts with no bindings and performs actions: relations are constructed from rows, texts or
documents, computed by operators and plans from the relations that are bound, and changed.  An action that
fails leaves the workspace as it is.  Each action keeps all bound relations well-formed, and so does a run.
-/

namespace RelationalAlgebra

open Stop (lift)

/-! ## Actions -/

/-- How a relation is made of what is no relation. -/
inductive Construction where
  | empty (header : Header)
  | rows (header : Header) (content : List Row)
  | raw (header : Header) (content : List (List String))
  | csv (bytes : List UInt8)
  | json (text : String)

def Construction.build : Construction → Except Failure Relation
  | empty header => .ok (.empty header)
  | rows header content => (Relation.ofRows? header content).mapError .schema
  | raw header content => (Relation.ofRaw? header content).mapError .schema
  | csv bytes => Relation.ofCsv? bytes
  | json text => Relation.ofJson? text

namespace Workspace

def Source.Derived : Source → Prop
  | .relation _ => False
  | _ => True

inductive Action where
  | construct (name : String) (construction : Construction)
  | compute (name : String) (source : Source) (derived : source.Derived)
  | execute (name : String) (plan : Query.Plan)
  | change (name : String) (change : Change)
  | remove (name : String)

def markOfPlan? (ws : Workspace) : Query.Plan → Option Nat
  | .scan name => (ws.bindings.get? name).map Binding.mark
  | .rename _ input => ws.markOfPlan? input
  | .selection .. | .projection .. | .binary .. => none

def attempt (ws : Workspace) : Action → Except Failure Workspace
  | .construct name construction => do
    let r ← construction.build
    ws.bind name ⟨r, none⟩
  | .compute name source _ => do
    let c ← ws.compute source
    ws.bind name c
  | .execute name plan => do
    let r ← plan.run ws.environment
    ws.bind name ⟨r, ws.markOfPlan? plan⟩
  | .change name change => (ws.change name change).map Prod.fst
  | .remove name => .ok (ws.remove name)

def perform (ws : Workspace) (action : Action) : Workspace :=
  match ws.attempt action with
  | .ok ws' => ws'
  | .error _ => ws

def run (ws : Workspace) (actions : List Action) : Workspace := actions.foldl perform ws

end Workspace

/-! ## What the actions keep -/

namespace Query

def Plan.OnlyUses (operators : Binary → Prop) : Plan → Prop
  | .scan _ => True
  | .selection _ input | .projection _ input | .rename _ input => input.OnlyUses operators
  | .binary op left right => operators op ∧ left.OnlyUses operators ∧ right.OnlyUses operators

theorem Plan.onlyUses_of_forall {operators : Binary → Prop} (all : ∀ op, operators op) (p : Plan) :
    p.OnlyUses operators := by
  induction p with
  | scan => trivial
  | selection _ _ ih | projection _ _ ih | rename _ _ ih => exact ih
  | binary op left right ihl ihr => exact ⟨all op, ihl, ihr⟩

end Query

namespace Workspace

/-- All infix operators of a source satisfy a condition; of a text nothing is known but the text. -/
def Source.OnlyUses (operators : Query.Binary → Prop) : Source → Prop
  | .binary op _ _ => operators op
  | .thetaJoin .. => operators .product
  | .query .. => ∀ op, operators op
  | _ => True

/-- What an action makes anew, and the infix operators that it uses, satisfy the conditions. -/
def Action.OnlyUses (made : Construction → Prop) (operators : Query.Binary → Prop) : Action → Prop
  | .construct _ construction => made construction
  | .compute _ source _ => source.OnlyUses operators
  | .execute _ plan => plan.OnlyUses operators
  | .change .. | .remove .. => True

end Workspace

/-- A property that every result has when the relations have it that it is computed from, as long as what
is made anew and the infix operators satisfy the conditions. -/
structure Inherited (P : Relation → Prop) (made : Construction → Prop)
    (operators : Query.Binary → Prop) : Prop where
  build {construction : Construction} {p : Relation} :
    made construction → construction.build = .ok p → P p
  filter {r p : Relation} {clause : Predicate.Clause} : P r → r.filter clause = .ok p → P p
  projection {r p : Relation} {names : List String} : P r → r.projection names = .ok p → P p
  rename {r p : Relation} {map : Renaming} : P r → r.rename map = .ok p → P p
  rearrange {r p : Relation} {header : Header} : P r → r.rearrange header = .ok p → P p
  apply {op : Query.Binary} {a b p : Relation} : operators op → P a → P b → a.apply op b = .ok p → P p
  insert {r : Relation} {row : Row} {c : Relation.Change} : P r → r.insert row = .ok c → P c.relation
  update {r : Relation} {predicate : String} {cells : Name.Map Cell} {c : Relation.Change} :
    P r → r.update predicate cells = .ok c → P c.relation
  delete {r : Relation} {predicate : String} {c : Relation.Change} :
    P r → r.delete predicate = .ok c → P c.relation

namespace Workspace

variable {ws ws' : Workspace} {P : Relation → Prop}

def Every (P : Relation → Prop) (ws : Workspace) : Prop :=
  ∀ name b, ws.bindings.get? name = some b → P b.relation

theorem find_eq_ok_iff {name : String} {r : Relation} :
    ws.find name = .ok r ↔ ∃ b, ws.bindings.get? name = some b ∧ b.relation = r := by
  rw [find, map_eq_ok, binding]
  cases ws.bindings.get? name <;> simp

theorem get?_environment (ws : Workspace) (name : String) :
    ws.environment.get? name = (ws.bindings.get? name).map Binding.relation :=
  Name.Map.get?_map ..

theorem Every.environment (h : ws.Every P) {name : String} {r : Relation}
    (hr : ws.environment.get? name = some r) : P r := by
  rw [get?_environment, Option.map_eq_some_iff] at hr
  obtain ⟨b, hb, rfl⟩ := hr
  exact h name b hb

theorem Every.find (h : ws.Every P) {name : String} {r : Relation} (hr : ws.find name = .ok r) :
    P r := by
  obtain ⟨b, hb, rfl⟩ := find_eq_ok_iff.mp hr
  exact h name b hb

theorem Every.binding (h : ws.Every P) {name : String} {b : Binding}
    (hb : ws.binding name = .ok b) : P b.relation :=
  h.find (map_eq_ok.mpr ⟨b, hb, rfl⟩)

theorem every_empty (P : Relation → Prop) : Every P ∅ := fun _ _ hb => nomatch hb

theorem Every.insert (h : ws.Every P) (name : String) {b : Binding} (hb : P b.relation) (next : Nat) :
    Every P ⟨ws.bindings.insert name b, next⟩ := by
  intro other b' hb'
  rw [Name.Map.get?_insert] at hb'
  split at hb'
  · rw [← Option.some.inj hb']
    exact hb
  · exact h other b' hb'

theorem Every.remove (h : ws.Every P) (name : String) : (ws.remove name).Every P := by
  intro other b hb
  rw [Workspace.remove, Name.Map.get?_erase] at hb
  split at hb
  · cases hb
  · exact h other b hb

theorem Every.bind (h : ws.Every P) {name : String} {c : Computed} (hc : P c.relation)
    (bound : ws.bind name c = .ok ws') : ws'.Every P := by
  obtain ⟨-, -, rfl⟩ := map_eq_ok.mp bound
  cases c.mark? with
  | none => exact h.insert name hc _
  | some mark => exact h.insert name hc _

theorem exists_eval_of_runQuery {optimized : Bool} {text : String} {c : Computed}
    (h : ws.runQuery optimized text = .ok c) : ∃ t, Query.Tree.eval ws.environment t = .ok c.relation := by
  obtain ⟨tree, -, h⟩ := bind_eq_ok.mp h
  cases optimized with
  | false =>
    obtain ⟨r, hr, h⟩ := bind_eq_ok.mp h
    obtain rfl := Except.ok.inj h
    exact ⟨_, hr⟩
  | true =>
    obtain ⟨tree', -, h⟩ := bind_eq_ok.mp h
    obtain ⟨r, hr, h⟩ := bind_eq_ok.mp h
    obtain rfl := Except.ok.inj h
    exact ⟨_, hr⟩

end Workspace

namespace Inherited

variable {P : Relation → Prop} {made : Construction → Prop} {operators : Query.Binary → Prop}
  {ws ws' : Workspace}

/-! ### Results -/

theorem selection (inherited : Inherited P made operators) {r p : Relation} {predicate : String}
    (hr : P r) (h : r.selection predicate = .ok p) : P p := by
  unfold Relation.selection at h
  split at h
  · cases h
  · exact inherited.filter hr h

theorem thetaJoin (inherited : Inherited P made operators) (through : operators .product)
    {a b p : Relation} {predicate : String} (ha : P a) (hb : P b)
    (h : a.thetaJoin b predicate = .ok p) : P p := by
  unfold Relation.thetaJoin at h
  split at h
  · cases h
  · next product hp => exact inherited.selection (inherited.apply through ha hb hp) h

theorem plan (inherited : Inherited P made operators) {env : Environment}
    (all : ∀ name r, env.get? name = some r → P r) {p : Query.Plan} (within : p.OnlyUses operators)
    {r : Relation} (h : p.run env = .ok r) : P r := by
  induction p generalizing r with
  | scan name =>
    unfold Query.Plan.run Environment.find at h
    split at h
    · next s hs =>
      obtain rfl := Except.ok.inj h
      exact all name _ hs
    · cases h
  | selection clause input ih =>
    rw [Query.Plan.run] at h
    split at h
    · cases h
    · next s hs => exact inherited.filter (ih within hs) h
  | projection names input ih =>
    rw [Query.Plan.run] at h
    split at h
    · cases h
    · next s hs => exact inherited.projection (ih within hs) (mapError_eq_ok.mp h)
  | rename map input ih =>
    rw [Query.Plan.run] at h
    split at h
    · cases h
    · next s hs => exact inherited.rename (ih within hs) (mapError_eq_ok.mp h)
  | binary op left right ihl ihr =>
    obtain ⟨through, withinLeft, withinRight⟩ := within
    rw [Query.Plan.run] at h
    split at h
    · cases h
    · next a ha =>
      split at h
      · cases h
      · next b hb =>
        exact inherited.apply through (ihl withinLeft ha) (ihr withinRight hb) (mapError_eq_ok.mp h)

theorem tree (inherited : Inherited P made operators) (through : ∀ op, operators op)
    {env : Environment} (all : ∀ name r, env.get? name = some r → P r) {t : Query.Tree}
    {r : Relation} (h : t.eval env = .ok r) : P r := by
  unfold Query.Tree.eval at h
  split at h
  · cases h
  · next p _ => exact inherited.plan all (p.onlyUses_of_forall through) h

theorem compute (inherited : Inherited P made operators) (h : ws.Every P) {source : Workspace.Source}
    {c : Workspace.Computed} (derived : source.Derived) (within : source.OnlyUses operators)
    (computed : ws.compute source = .ok c) : P c.relation := by
  cases source with
  | relation r => exact derived.elim
  | selection name predicate =>
    obtain ⟨r, hr, computed⟩ := bind_eq_ok.mp computed
    obtain ⟨p, hp, computed⟩ := bind_eq_ok.mp computed
    obtain rfl := Except.ok.inj computed
    exact inherited.selection (h.find hr) hp
  | projection name names =>
    obtain ⟨r, hr, computed⟩ := bind_eq_ok.mp computed
    obtain ⟨p, hp, computed⟩ := bind_eq_ok.mp computed
    obtain rfl := Except.ok.inj computed
    exact inherited.projection (h.find hr) (mapError_eq_ok.mp hp)
  | rename name map =>
    obtain ⟨b, hb, computed⟩ := bind_eq_ok.mp computed
    obtain ⟨p, hp, computed⟩ := bind_eq_ok.mp computed
    obtain rfl := Except.ok.inj computed
    exact inherited.rename (h.binding hb) (mapError_eq_ok.mp hp)
  | rearrange name header =>
    obtain ⟨b, hb, computed⟩ := bind_eq_ok.mp computed
    obtain ⟨p, hp, computed⟩ := bind_eq_ok.mp computed
    obtain rfl := Except.ok.inj computed
    exact inherited.rearrange (h.binding hb) (mapError_eq_ok.mp hp)
  | binary op left right =>
    obtain ⟨a, ha, computed⟩ := bind_eq_ok.mp computed
    obtain ⟨b, hb, computed⟩ := bind_eq_ok.mp computed
    obtain ⟨p, hp, computed⟩ := bind_eq_ok.mp computed
    obtain rfl := Except.ok.inj computed
    exact inherited.apply within (h.find ha) (h.find hb) (mapError_eq_ok.mp hp)
  | thetaJoin left right predicate =>
    obtain ⟨a, ha, computed⟩ := bind_eq_ok.mp computed
    obtain ⟨b, hb, computed⟩ := bind_eq_ok.mp computed
    obtain ⟨p, hp, computed⟩ := bind_eq_ok.mp computed
    obtain rfl := Except.ok.inj computed
    exact inherited.thetaJoin within (h.find ha) (h.find hb) hp
  | query optimized text =>
    obtain ⟨tree, hr⟩ := Workspace.exists_eval_of_runQuery computed
    exact inherited.tree within (fun _ _ => h.environment) hr

/-! ### One action -/

theorem change (inherited : Inherited P made operators) (h : ws.Every P) {name : String}
    {change : Workspace.Change} {count : Nat} (changed : ws.change name change = .ok (ws', count)) :
    ws'.Every P := by
  obtain ⟨r, hr, changed⟩ := bind_eq_ok.mp changed
  have bound {c : Relation.Change} (hc : P c.relation) (touches : Bool) :
      Workspace.Every P (if touches then ws.bindOwn name c.relation else ws) := by
    cases touches with
    | true => exact h.insert name hc _
    | false => exact h
  cases change with
  | insert row =>
    obtain ⟨c, inserted, changed⟩ := bind_eq_ok.mp changed
    obtain ⟨rfl, -⟩ := Prod.mk.inj (Except.ok.inj changed)
    exact bound (inherited.insert (h.find hr) (mapError_eq_ok.mp inserted)) true
  | update predicate cells =>
    obtain ⟨c, updated, changed⟩ := bind_eq_ok.mp changed
    obtain ⟨rfl, -⟩ := Prod.mk.inj (Except.ok.inj changed)
    exact bound (inherited.update (h.find hr) updated) _
  | delete predicate =>
    obtain ⟨c, deleted, changed⟩ := bind_eq_ok.mp changed
    obtain ⟨rfl, -⟩ := Prod.mk.inj (Except.ok.inj changed)
    exact bound (inherited.delete (h.find hr) deleted) _

theorem attempt (inherited : Inherited P made operators) (h : ws.Every P) {action : Workspace.Action}
    (within : action.OnlyUses made operators) (done : ws.attempt action = .ok ws') : ws'.Every P := by
  cases action with
  | construct name construction =>
    obtain ⟨r, hr, bound⟩ := bind_eq_ok.mp done
    exact h.bind (inherited.build within hr) bound
  | compute name source derived =>
    obtain ⟨c, hc, bound⟩ := bind_eq_ok.mp done
    exact h.bind (inherited.compute h derived within hc) bound
  | execute name plan =>
    obtain ⟨r, hr, bound⟩ := bind_eq_ok.mp done
    exact h.bind (inherited.plan (fun _ _ => h.environment) within hr) bound
  | change name change =>
    obtain ⟨⟨changed, count⟩, hc, rfl⟩ := map_eq_ok.mp done
    exact inherited.change h hc
  | remove name =>
    obtain rfl := Except.ok.inj done
    exact h.remove name

theorem perform (inherited : Inherited P made operators) (h : ws.Every P) {action : Workspace.Action}
    (within : action.OnlyUses made operators) : (ws.perform action).Every P := by
  unfold Workspace.perform
  split
  · next done => exact inherited.attempt h within done
  · exact h

/-! ### Runs -/

theorem run (inherited : Inherited P made operators) (h : ws.Every P) {actions : List Workspace.Action}
    (within : ∀ action ∈ actions, action.OnlyUses made operators) : (ws.run actions).Every P := by
  induction actions generalizing ws with
  | nil => exact h
  | cons action actions ih =>
    obtain ⟨first, later⟩ := List.forall_mem_cons.mp within
    exact ih (inherited.perform h first) later

end Inherited

/-! ## Results are well-formed -/

namespace Relation

theorem exists_ofRaw_of_ofTable {names : List String} {rows : List (List String)} {r : Relation}
    (h : ofTable? names rows = .ok r) : ∃ header, ofRaw? header rows = .ok r := by
  unfold ofTable? at h
  split at h
  · cases h
  · next header _ => exact ⟨header, mapError_eq_ok.mp h⟩

theorem exists_ofRaw_of_ofCsv {bytes : List UInt8} {r : Relation} (h : ofCsv? bytes = .ok r) :
    ∃ header rows, ofRaw? header rows = .ok r := by
  unfold ofCsv? at h
  split at h
  · obtain ⟨header, h⟩ := exists_ofRaw_of_ofTable h
    exact ⟨header, _, h⟩
  · split at h
    · cases h
    · split at h
      · cases h
      · next header _ =>
        split at h
        · split at h
          · cases h
          · next rows _ => exact ⟨header, rows, mapError_eq_ok.mp h⟩
        · cases h

theorem exists_ofRaw_of_ofJson {text : String} {r : Relation} (h : ofJson? text = .ok r) :
    ∃ header rows, ofRaw? header rows = .ok r := by
  unfold ofJson? at h
  split at h
  · cases h
  · obtain ⟨header, h⟩ := exists_ofRaw_of_ofTable h
    exact ⟨header, _, h⟩

end Relation

theorem Construction.wellFormed_build {construction : Construction} {r : Relation}
    (h : construction.build = .ok r) : r.WellFormed := by
  cases construction with
  | empty header =>
    obtain rfl := Except.ok.inj h
    exact Relation.wellFormed_empty header
  | rows header content => exact Relation.wellFormed_ofRows (mapError_eq_ok.mp h)
  | raw header content => exact Relation.wellFormed_ofRaw (mapError_eq_ok.mp h)
  | csv bytes =>
    obtain ⟨header, rows, h⟩ := Relation.exists_ofRaw_of_ofCsv h
    exact Relation.wellFormed_ofRaw h
  | json text =>
    obtain ⟨header, rows, h⟩ := Relation.exists_ofRaw_of_ofJson h
    exact Relation.wellFormed_ofRaw h

/-- The results of all operators and changes are well-formed when the operands are. -/
theorem inherited_wellFormed :
    Inherited Relation.WellFormed (fun _ => True) (fun _ => True) where
  build _ := Construction.wellFormed_build
  filter hr h := (Relation.filter_spec hr.sound h).1.wellFormed
  projection hr h := (Relation.represented_projection hr h).1
  rename hr h := (Relation.represented_rename hr h).1
  rearrange hr h := (Relation.rearrange_spec hr.sound h).1.wellFormed
  apply _ ha hb h := (Relation.represented_apply ha hb h).1
  insert hr h := Relation.wellFormed_insert hr h
  update hr h := Relation.wellFormed_update hr h
  delete hr h := Relation.wellFormed_delete hr h

namespace Workspace

variable {ws : Workspace}

theorem Action.onlyUses_all (action : Action) : action.OnlyUses (fun _ => True) (fun _ => True) := by
  cases action with
  | construct | change | remove => trivial
  | compute name source derived =>
    cases source with
    | binary | thetaJoin => trivial
    | query => exact fun _ => trivial
    | relation | selection | projection | rename | rearrange => trivial
  | execute name plan => exact plan.onlyUses_of_forall fun _ => trivial

def WellFormed (ws : Workspace) : Prop :=
  ∀ name b, ws.bindings.get? name = some b → b.relation.WellFormed

theorem wellFormed_empty : WellFormed ∅ := every_empty _

theorem WellFormed.find (h : ws.WellFormed) {name : String} {r : Relation}
    (hr : ws.find name = .ok r) : r.WellFormed := Every.find h hr

theorem wellFormed_run (h : ws.WellFormed) (actions : List Action) : (ws.run actions).WellFormed :=
  inherited_wellFormed.run h fun action _ => action.onlyUses_all

end Workspace

namespace Relation

/-- No operator on two relations, and no change of the first, ever reads outside a row. -/
structure NeverOutside (a b : Relation) : Prop where
  rearrange (header : Header) : Strict.rearrange a header = lift (a.rearrange header)
  projection (names : List String) : Strict.projection a names = lift (a.projection names)
  apply (op : Query.Binary) : Strict.apply op a b = lift (a.apply op b)
  equal : Strict.equal a b = .ok (a.equal b)
  insert (row : Row) : Strict.insert a row = lift (a.insert row)
  update (predicate : String) (cells : Name.Map Cell) :
    Strict.update a predicate cells = lift (a.update predicate cells)

theorem WellFormed.neverOutside {a b : Relation} (ha : a.WellFormed) (hb : b.WellFormed) :
    NeverOutside a b where
  rearrange := Strict.rearrange_eq ha
  projection := Strict.projection_eq ha
  apply := Strict.apply_eq ha hb
  equal := Strict.equal_eq hb a
  insert := Strict.insert_eq ha
  update := Strict.update_eq ha

end Relation

namespace Workspace

theorem bound_relations_are_sound {actions : List Action} {name : String} {r : Relation}
    (h : (run ∅ actions).find name = .ok r) :
    ((∀ n ∈ r.names, Name.isValid n = true) ∧ r.names.Nodup) ∧
      (∀ row ∈ r.rows, row.length = r.names.length) ∧
      (r.rows.Pairwise fun a b => Row.compare a b ≠ .eq) ∧
      ∀ other s, (run ∅ actions).find other = .ok s → Relation.NeverOutside r s := by
  have all := wellFormed_run wellFormed_empty actions
  have wellFormed := all.find h
  refine ⟨⟨r.header.valid, r.header.nodup⟩, wellFormed.arity, ?_, fun other s hs => ?_⟩
  · refine wellFormed.ascending.imp fun lt eq => ?_
    cases lt.symm.trans eq
  · exact wellFormed.neverOutside (all.find hs)

def stockHeader : Header := ⟨["item", "count"], by decide +kernel, by decide⟩

/-- A run in which the insertion of a short row and the second deletion fail. -/
def stocktaking : List Action :=
  [.construct "stock" (.raw ⟨["item", "count"], by decide +kernel, by decide⟩ [["nut", "3"]]),
    .change "stock" (.insert [.text "cog"]), .change "stock" (.insert [.text "cog", .text "7"]),
    .compute "items" (.projection "stock" ["item"]) trivial,
    .execute "pairs" (.binary .leftJoin (.scan "stock") (.scan "items")),
    .change "stock" (.delete "count > 6"), .change "stock" (.delete "item > 6")]

theorem bound_relations_are_sound_stock :
    ∃ r, (run ∅ stocktaking).find "stock" = .ok r ∧ r.rows = [[.text "nut", .int 3]] ∧
      ((∀ n ∈ r.names, Name.isValid n = true) ∧ r.names.Nodup) ∧
      (∀ row ∈ r.rows, row.length = r.names.length) ∧
      (r.rows.Pairwise fun a b => Row.compare a b ≠ .eq) ∧
      ∀ other s, (run ∅ stocktaking).find other = .ok s → Relation.NeverOutside r s := by
  have bound : ∃ r, (run ∅ stocktaking).find "stock" = .ok r ∧ r.rows = [[.text "nut", .int 3]] := by
    decide +kernel
  obtain ⟨r, h, rows⟩ := bound
  exact ⟨r, h, rows, bound_relations_are_sound h⟩

end Workspace

end RelationalAlgebra
