import StructuralTypes.Ty.Normalize

set_option autoImplicit false

namespace StructuralTypes.Ty

mutual

/-- Replaces a literal, or each literal member of a union, by its keyword type. -/
def widenLiteral : Ty → Ty
  | literal value => primitive value.base
  | unionOf members => union (widenLiterals members)
  | ty => ty
termination_by structural ty => ty

def widenLiterals : List Ty → List Ty
  | [] => []
  | ty :: tys => ty.widenLiteral :: widenLiterals tys
termination_by structural tys => tys

end

mutual

/-- A fresh object literal is reached through properties, arrays, tuples and unions. -/
def containsFresh : Ty → Bool
  | object ⟨properties, _, _, fresh⟩ => fresh || propertiesContainFresh properties
  | array element => element.containsFresh
  | tuple elements => anyContainsFresh elements
  | unionOf members => anyContainsFresh members
  | _ => false
termination_by structural ty => ty

def anyContainsFresh : List Ty → Bool
  | [] => false
  | ty :: tys => ty.containsFresh || anyContainsFresh tys
termination_by structural tys => tys

def propertiesContainFresh : List (Property Ty) → Bool
  | [] => false
  | ⟨_, ty, _⟩ :: properties => ty.containsFresh || propertiesContainFresh properties
termination_by structural properties => properties

end

mutual

/-- Makes every object literal that is reached through properties, arrays, tuples and unions an
ordinary object. A type that holds no such literal is left as it is. -/
def widenFreshness : Ty → Ty
  | object ⟨properties, index, className, fresh⟩ =>
    if fresh || propertiesContainFresh properties then
      object ⟨widenProperties properties, index, className, false⟩
    else object ⟨properties, index, className, fresh⟩
  | array element =>
    if element.containsFresh then array element.widenFreshness else array element
  | tuple elements =>
    if anyContainsFresh elements then tuple (widenEach elements) else tuple elements
  | unionOf members =>
    if anyContainsFresh members then union (widenEach members) else unionOf members
  | ty => ty
termination_by structural ty => ty

def widenEach : List Ty → List Ty
  | [] => []
  | ty :: tys => ty.widenFreshness :: widenEach tys
termination_by structural tys => tys

def widenProperties : List (Property Ty) → List (Property Ty)
  | [] => []
  | ⟨name, ty, optional⟩ :: properties =>
    ⟨name, ty.widenFreshness, optional⟩ :: widenProperties properties
termination_by structural properties => properties

end

end StructuralTypes.Ty
