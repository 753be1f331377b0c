import RelationalAlgebra.Query.Plan
import RelationalAlgebra.Relation.Mutation
import RelationalAlgebra.Rewrite.Optimizer
import RelationalAlgebra.Storage.Directory
/-!
# Workspaces

A workspace binds names to relations that can be changed.  Bindings may have one set of rows in common: a
relation that only renames another, or keeps its columns in their order, uses the rows of that other, and
so does a query that does no more.  Bindings have their rows in common as long as they carry the same mark;
a change gives the changed binding rows and a mark of its own, so no other binding ever sees it.
-/

namespace RelationalAlgebra

structure Binding where
  relation : Relation
  mark : Nat

structure Workspace where
  bindings : Name.Map Binding
  /-- All marks in use are smaller. -/
  next : Nat

namespace Workspace

/-- A relation that has been computed, and the mark of the binding whose rows it uses, if it does. -/
structure Computed where
  relation : Relation
  mark? : Option Nat

inductive Source where
  | relation (r : Relation)
  | selection (name predicate : String)
  | projection (name : String) (names : List String)
  | rename (name : String) (map : Renaming)
  | rearrange (name : String) (header : Header)
  | binary (operator : Query.Binary) (left right : String)
  | thetaJoin (left right predicate : String)
  | query (optimized : Bool) (text : String)

inductive Change where
  | insert (row : Row)
  | update (predicate : String) (cells : Name.Map Cell)
  | delete (predicate : String)

def empty : Workspace := ⟨∅, 0⟩

instance : EmptyCollection Workspace := ⟨empty⟩

def binding (ws : Workspace) (name : String) : Except Failure Binding :=
  match ws.bindings.get? name with
  | some b => .ok b
  | none => .error (.unbound name)

def find (ws : Workspace) (name : String) : Except Failure Relation :=
  (ws.binding name).map Binding.relation

def environment (ws : Workspace) : Environment := ws.bindings.map Binding.relation

def names (ws : Workspace) : List String := ws.bindings.keys

/-- Whether another binding has its rows in common with that of a name. -/
def isShared (ws : Workspace) (name : String) : Bool :=
  match ws.bindings.get? name with
  | none => false
  | some b => ws.bindings.entries.any fun e => e.1 ≠ name && e.2.mark = b.mark

/-- The mark of the rows that a query uses as they are. -/
def markOf? (ws : Workspace) : Query.Tree → Option Nat
  | .relation name => (ws.bindings.get? name).map Binding.mark
  | .unary .rename _ operand => ws.markOf? operand
  | .unary .. | .binary .. => none

def runQuery (ws : Workspace) (optimized : Bool) (text : String) : Except Failure Computed := do
  let tree ← (Query.Tree.ofText? text).mapError Failure.ofReadFault
  let tree ←
    if optimized then (Rewrite.optimize {} ws.environment tree).map Rewrite.Optimized.tree
    else pure tree
  let relation ← tree.eval ws.environment
  pure ⟨relation, ws.markOf? tree⟩

def compute (ws : Workspace) : Source → Except Failure Computed
  | .relation r => pure ⟨r, none⟩
  | .selection name predicate => do
    let r ← ws.find name
    pure ⟨← r.selection predicate, none⟩
  | .projection name names => do
    let r ← ws.find name
    pure ⟨← (r.projection names).mapError .schema, none⟩
  | .rename name map => do
    let b ← ws.binding name
    pure ⟨← (b.relation.rename map).mapError .schema, some b.mark⟩
  | .rearrange name header => do
    let b ← ws.binding name
    let r ← (b.relation.rearrange header).mapError .schema
    pure ⟨r, if b.relation.header = header then some b.mark else none⟩
  | .binary op left right => do
    let a ← ws.find left
    let b ← ws.find right
    pure ⟨← (a.apply op b).mapError .schema, none⟩
  | .thetaJoin left right predicate => do
    let a ← ws.find left
    let b ← ws.find right
    pure ⟨← a.thetaJoin b predicate, none⟩
  | .query optimized text => ws.runQuery optimized text

def bindOwn (ws : Workspace) (name : String) (r : Relation) : Workspace :=
  ⟨ws.bindings.insert name ⟨r, ws.next⟩, ws.next + 1⟩

def bind (ws : Workspace) (name : String) (c : Computed) : Except Failure Workspace :=
  (Environment.checkName name).map fun () =>
    match c.mark? with
    | none => ws.bindOwn name c.relation
    | some mark => ⟨ws.bindings.insert name ⟨c.relation, mark⟩, ws.next⟩

def remove (ws : Workspace) (name : String) : Workspace := { ws with bindings := ws.bindings.erase name }

/-- Changes a binding, and gives the number of rows that were touched.  An update or a deletion that finds
no row leaves everything as it is. -/
def change (ws : Workspace) (name : String) (c : Change) : Except Failure (Workspace × Nat) := do
  let r ← ws.find name
  let (changed, touches) ← match c with
    | .insert row => do pure (← (r.insert row).mapError .schema, true)
    | .update predicate cells => do
      let changed ← r.update predicate cells
      pure (changed, changed.count ≠ 0)
    | .delete predicate => do
      let changed ← r.delete predicate
      pure (changed, changed.count ≠ 0)
  pure (if touches then ws.bindOwn name changed.relation else ws, changed.count)

variable {m : Type → Type} [Monad m] [FileSystem m]

def load (ws : Workspace) (name path : String) : m (Except Failure Workspace) := do
  pure ((← Relation.load path) >>= fun r => ws.bind name ⟨r, none⟩)

def loadDirectory (ws : Workspace) (path : String) :
    m (Workspace × Except Failure (List String)) := do
  let loaded ← Loaded.ofDirectory path
  pure (loaded.relations.foldl (fun ws (name, r) => ws.bindOwn name r) ws, loaded.names)

end Workspace

end RelationalAlgebra
