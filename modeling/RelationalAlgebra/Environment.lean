import RelationalAlgebra.Failure
import RelationalAlgebra.Name.Map
import RelationalAlgebra.Relation.Basic
/-!
# Environments

An environment binds names to relations.
-/

namespace RelationalAlgebra

abbrev Environment := Name.Map Relation

namespace Environment

def find (env : Environment) (name : String) : Except Failure Relation :=
  match env.get? name with
  | some r => .ok r
  | none => .error (.unbound name)

def checkName (name : String) : Except Failure Unit :=
  if Name.isValid name then .ok () else .error (.parse (.badRelationName name))

def bind (env : Environment) (name : String) (r : Relation) : Except Failure Environment :=
  (checkName name).map fun () => env.insert name r

end Environment

end RelationalAlgebra
