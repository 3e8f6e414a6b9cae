import StructuralTypes.Alias

set_option autoImplicit false

namespace StructuralTypes

namespace Ty

/-- The union of the given names as string literals. -/
def ofNames (names : List String) : Ty := union (names.map (fun name => literal (.text name)))

/-- The property names of an object. -/
def propertyNames : Ty → List String
  | object shape => shape.properties.map (·.name)
  | _ => []

def isObject : Ty → Bool
  | object _ => true
  | _ => false

end Ty

namespace AliasMap

/-- An operand of `keyof`, with references followed and an inner `keyof` evaluated by `keys`. -/
def keyofOperand? (aliases : AliasMap) (keys : Ty → Option Ty) (ty : Ty) : Option Ty :=
  match aliases.resolve ty with
  | .keyof subject => keys subject
  | resolved => some resolved

/-- One step of `keyof`: inner evaluations are left to `keys`. The key of a record is taken as it is
written, so evaluation can come back to where it started, as in `type K = keyof K`. -/
def keyofStep? (aliases : AliasMap) (keys : Ty → Option Ty) (subject : Ty) : Option Ty := do
  match ← aliases.keyofOperand? keys subject with
  | .object shape => return .ofNames (shape.properties.map (·.name))
  | .record key _ => return key
  | .any => return .union [.string, .number]
  | .intersectionOf members =>
    let operands ← members.mapM (aliases.keyofOperand? keys)
    let named := Ty.ofNames (operands.flatMap Ty.propertyNames).eraseDups
    let others ← (operands.filter (fun ty => !ty.isObject)).mapM keys
    return .union (named :: others)
  | _ => return .string

/-- The keys of a type, found in at most the given number of nested evaluations. -/
def keyofSubject? (aliases : AliasMap) : Nat → Ty → Option Ty
  | 0, _ => none
  | steps + 1, subject => aliases.keyofStep? (aliases.keyofSubject? steps) subject

/-- Evaluation that ends never meets a subject inside of itself, and every subject but the innermost
is a node of the given type or of a body. So it ends within this many nested evaluations or never. -/
def keyofSteps (aliases : AliasMap) (subject : Ty) : Nat := subject.size + aliases.bodySize + 2

/-- The keys of a type. -/
def keyofSubject (aliases : AliasMap) (subject : Ty) : Ty :=
  (aliases.keyofSubject? (aliases.keyofSteps subject) subject).getD .string

/-- Evaluates a `keyof` type; any other type is resolved. -/
def resolveKeyof (aliases : AliasMap) : Ty → Ty
  | .keyof subject => aliases.keyofSubject subject
  | ty => aliases.resolve ty

/-- Follows references and evaluates `keyof`. -/
def concrete (aliases : AliasMap) (ty : Ty) : Ty :=
  match aliases.resolve ty with
  | .keyof subject => aliases.resolve (aliases.keyofSubject subject)
  | resolved => resolved

end AliasMap

end StructuralTypes
