/-!
# Declarations

A declaration registers one entity together with the entities it depends on.
-/

namespace Precedence

/-- An entity, its payload, and the entities it depends on. -/
structure Declaration (ι α : Type) where
  id : ι
  payload : α
  /-- In the order in which they were declared; repeats are kept. -/
  dependsOn : List ι := []
  deriving BEq, Repr

namespace Declaration

variable {ι α : Type}

/-- An entity that depends on nothing. -/
def bare (id : ι) (payload : α) : Declaration ι α := { id, payload }

/-- Declare further dependencies, after those declared already. -/
def withDependencies (d : Declaration ι α) (ids : List ι) : Declaration ι α :=
  { d with dependsOn := d.dependsOn ++ ids }

end Declaration

end Precedence
