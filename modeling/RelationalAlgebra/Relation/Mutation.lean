import RelationalAlgebra.Relation.Algebra
/-!
# Changes of relations

Inserting a row, and updating and deleting the rows on which a predicate holds.  A column in which all
cells have one kind keeps it: a cell of another kind is stored only if its text can be read as that
kind.  Each change gives the number of rows that it touched.
-/

namespace RelationalAlgebra.Relation

def kindOf : List Cell → Option Kind
  | [] => none
  | c :: cs => if cs.all fun d => d.kind = c.kind then some c.kind else none

def columnKinds (r : Relation) : List (Option Kind) :=
  (List.range r.header.size).map fun i => kindOf (r.rows.map fun row => row.getD i (.text ""))

def conform (name : String) (kind : Option Kind) (cell : Cell) : Except SchemaFault Cell :=
  match kind with
  | none => .ok cell
  | some kind =>
    if cell.kind = kind then .ok cell
    else
      let cast := Cell.cast kind cell.write
      if cast.kind = kind then .ok cast else .error (.misfit cell kind name)

def conformRow : List String → List (Option Kind) → Row → Except SchemaFault Row
  | name :: names, kind :: kinds, cell :: cells =>
    match conform name kind cell with
    | .error fault => .error fault
    | .ok cell => (conformRow names kinds cells).map (cell :: ·)
  | _, _, _ => .ok []

/-- A relation after a change, and the number of rows that the change touched. -/
structure Change where
  relation : Relation
  count : Nat

def insert (r : Relation) (row : Row) : Except SchemaFault Change :=
  match checkArity r.header [row.length] with
  | .error fault => .error fault
  | .ok () =>
    (conformRow r.names r.columnKinds row).map fun row =>
      ⟨⟨r.header, Rows.insert row r.rows⟩, if Rows.contains r.rows row then 0 else 1⟩

def delete (r : Relation) (predicate : String) : Except Failure Change :=
  match clause? predicate with
  | .error failure => .error failure
  | .ok clause =>
    (matching r.names clause r.rows).map fun rows =>
      ⟨⟨r.header, Rows.difference r.rows rows⟩, rows.length⟩

def targets (r : Relation) : List (String × Cell) → Except SchemaFault (List (Nat × Cell))
  | [] => .ok []
  | (name, cell) :: rest =>
    match r.header.position? name with
    | none => .error (.cannotUpdate name r.names)
    | some i =>
      match conform name (r.columnKinds.getD i none) cell with
      | .error fault => .error fault
      | .ok cell => (targets r rest).map ((i, cell) :: ·)

def overwrite (targets : List (Nat × Cell)) (row : Row) : Row :=
  targets.foldl (fun row t => row.set t.1 t.2) row

def update (r : Relation) (predicate : String) (changes : Name.Map Cell) : Except Failure Change :=
  match r.targets changes.entries with
  | .error fault => .error (.schema fault)
  | .ok targets =>
    match clause? predicate with
    | .error failure => .error failure
    | .ok clause =>
      (matching r.names clause r.rows).map fun rows =>
        let kept := Rows.difference r.rows rows
        let changed := rows.map (overwrite targets)
        ⟨⟨r.header, changed.foldl (fun rows row => Rows.insert row rows) kept⟩, rows.length⟩

end RelationalAlgebra.Relation
