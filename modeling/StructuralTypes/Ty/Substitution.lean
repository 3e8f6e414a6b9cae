import StructuralTypes.Ty.Normalize

set_option autoImplicit false

namespace StructuralTypes

/-- Types for names, the newest binding of a name first. -/
structure Substitution where
  bindings : List (String × Ty) := []

namespace Substitution

def empty : Substitution := {}

def isEmpty (σ : Substitution) : Bool := σ.bindings.isEmpty

/-- Binds a name. An earlier binding of the name is given up. -/
def insert (σ : Substitution) (name : String) (ty : Ty) : Substitution :=
  ⟨(name, ty) :: σ.bindings.filter (fun binding => binding.1 != name)⟩

def get? (σ : Substitution) (name : String) : Option Ty :=
  (σ.bindings.find? (fun binding => binding.1 == name)).map (·.2)

def contains (σ : Substitution) (name : String) : Bool := (σ.get? name).isSome

/-- The later of two bindings of a name wins. -/
def ofList (bindings : List (String × Ty)) : Substitution :=
  bindings.foldl (fun σ binding => σ.insert binding.1 binding.2) {}

/-- Binds parameters to arguments by position. A parameter without an argument is `any`. -/
def ofArgs : List (TypeParam Ty) → List Ty → Substitution
  | params, args => ofList (pair params args)
where
  pair : List (TypeParam Ty) → List Ty → List (String × Ty)
    | [], _ => []
    | param :: params, [] => (param.name, .any) :: pair params []
    | param :: params, arg :: args => (param.name, arg) :: pair params args

/-- The bindings in the order of their names. -/
def sorted (σ : Substitution) : List (String × Ty) :=
  σ.bindings.mergeSort (fun a b => !decide (b.1 < a.1))

end Substitution

namespace Ty

mutual

/-- Replaces the names of a non-empty substitution. -/
def replace (σ : Substitution) : Ty → Ty
  | primitive kind => primitive kind
  | literal value => literal value
  | anyFunction => anyFunction
  | ref name => (σ.get? name).getD (ref name)
  | array element => array (element.replace σ)
  | tuple elements => tuple (replaceAll σ elements)
  | object ⟨properties, index, className, fresh⟩ =>
    object ⟨replaceProperties σ properties, replaceIndex σ index, className, fresh⟩
  | record key value => record (key.replace σ) (value.replace σ)
  | unionOf members => union (replaceAll σ members)
  | intersectionOf members => intersection (replaceAll σ members)
  | function ⟨typeParams, params, result⟩ =>
    function ⟨replaceTypeParams σ typeParams, replaceAll σ params, result.replace σ⟩
  | keyof subject => keyof (subject.replace σ)
  | predicate parameter guard => predicate parameter (guard.replace σ)
termination_by structural ty => ty

def replaceAll (σ : Substitution) : List Ty → List Ty
  | [] => []
  | ty :: tys => ty.replace σ :: replaceAll σ tys
termination_by structural tys => tys

def replaceProperties (σ : Substitution) : List (Property Ty) → List (Property Ty)
  | [] => []
  | ⟨name, ty, optional⟩ :: properties =>
    ⟨name, ty.replace σ, optional⟩ :: replaceProperties σ properties
termination_by structural properties => properties

def replaceIndex (σ : Substitution) : Option (IndexSignature Ty) → Option (IndexSignature Ty)
  | none => none
  | some ⟨key, value⟩ => some ⟨key.replace σ, value.replace σ⟩
termination_by structural index => index

/-- Drops the type parameters that are substituted. -/
def replaceTypeParams (σ : Substitution) : List (TypeParam Ty) → List (TypeParam Ty)
  | [] => []
  | ⟨name, none⟩ :: params =>
    if σ.contains name then replaceTypeParams σ params
    else ⟨name, none⟩ :: replaceTypeParams σ params
  | ⟨name, some constraint⟩ :: params =>
    if σ.contains name then replaceTypeParams σ params
    else ⟨name, some (constraint.replace σ)⟩ :: replaceTypeParams σ params
termination_by structural params => params

end

/-- Replaces every reference to a bound name by its binding. -/
def substitute (ty : Ty) (σ : Substitution) : Ty := if σ.isEmpty then ty else ty.replace σ

end Ty

end StructuralTypes
