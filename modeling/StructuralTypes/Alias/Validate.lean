import StructuralTypes.Alias
import StructuralTypes.Diagnostic

set_option autoImplicit false

namespace StructuralTypes

namespace AliasDefinition

/-- The names that a definition refers to and does not bind, in its body and then in the
constraints of its type parameters. -/
def freeNames (d : AliasDefinition) : List String :=
  let bound := d.typeParams.map (·.name)
  d.body.freeNames bound ++ Ty.freeNamesConstraints bound d.typeParams

end AliasDefinition

namespace AliasMap

def chainFindings (aliases : AliasMap) (d : AliasDefinition) : List Finding :=
  match aliases.tryResolve (.ref d.name) with
  | .error (.circular _ _) => [.circularAlias d.name]
  | .error (.tooDeep _ limit) => [.aliasTooDeep d.name limit]
  | .ok _ => []

def referenceFindings (aliases : AliasMap) (d : AliasDefinition) : List Finding :=
  (aliases.undeclared d.freeNames).map .cannotFindType

/-- Everything that is wrong with the definitions, each finding with the name it is about. -/
def validate (aliases : AliasMap) : List (String × Finding) :=
  aliases.definitions.flatMap fun d =>
    (aliases.chainFindings d ++ aliases.referenceFindings d).map (fun finding => (d.name, finding))

end AliasMap

end StructuralTypes
